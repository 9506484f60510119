import Mathlib.Data.List.Infix
import KirinFS.Foundation.Consensus.Elections

/-! # Log matching

An entry carries the term whose leader wrote it. A log is backed if it follows,
up to each of its entries, the log of the leader of that entry's term. Two
backed logs that have an entry of one term at one place agree up to there.
-/

namespace KirinFS.Foundation.Consensus
open Function

attribute [local grind =] update_apply

section Backs
variable {ι ε : Type*} {stamp : ε → ℕ} {w w' : World ι ε} {X Y : List ε}

def Backs (stamp : ε → ℕ) (w : World ι ε) (X : List ε) : Prop :=
  ∀ k e, X[k]? = some e → ∃ R, w.reign (stamp e) = some R ∧ X.take (k + 1) <+: R.log

theorem Backs.nil : Backs stamp w [] := by
  intro k e he
  cases he

theorem Backs.shorten (hY : Backs stamp w Y) (h : X <+: Y) : Backs stamp w X := by
  obtain ⟨l, rfl⟩ := h
  intro k e he
  have hk : k < X.length := (List.getElem?_eq_some_iff.mp he).1
  obtain ⟨R, hR, htake⟩ := hY k e (by rw [List.getElem?_append_left hk, he])
  rw [List.take_append_of_le_length hk] at htake
  exact ⟨R, hR, htake⟩

theorem Backs.grows (hX : Backs stamp w X) (h : Grows w w') : Backs stamp w' X := by
  intro k e he
  obtain ⟨R, hR, htake⟩ := hX k e he
  obtain ⟨l, hl⟩ := h.reign _ R hR
  exact ⟨_, hl, htake.trans (List.prefix_append ..)⟩

/-- One more entry, behind which the log is its leader's. -/
theorem Backs.append {e : ε} {R : Reign ι ε} (hX : Backs stamp w X)
    (hR : w.reign (stamp e) = some R) (hlog : X ++ [e] <+: R.log) : Backs stamp w (X ++ [e]) := by
  intro k e' he'
  rcases Nat.lt_or_ge k X.length with hk | hk
  · rw [List.getElem?_append_left hk] at he'
    rw [List.take_append_of_le_length hk]
    exact hX k e' he'
  · obtain ⟨hlt, rfl⟩ := List.getElem?_eq_some_iff.mp he'
    rw [List.length_append, List.length_singleton] at hlt
    obtain rfl : k = X.length := by omega
    rw [List.getElem_concat_length rfl, List.take_of_length_le (by simp)]
    exact ⟨R, hR, hlog⟩

/-- Log matching. -/
theorem Backs.take_eq {k : ℕ} {e e' : ε} (hX : Backs stamp w X) (hY : Backs stamp w Y)
    (he : X[k]? = some e) (he' : Y[k]? = some e') (hstamp : stamp e = stamp e') :
    X.take (k + 1) = Y.take (k + 1) := by
  obtain ⟨R, hR, htake⟩ := hX k e he
  obtain ⟨R', hR', htake'⟩ := hY k e' he'
  obtain rfl : R = R' := by
    rw [hstamp, hR', Option.some.injEq] at hR
    exact hR.symm
  have hk := (List.getElem?_eq_some_iff.mp he).1
  have hk' := (List.getElem?_eq_some_iff.mp he').1
  refine (List.prefix_of_prefix_length_le htake htake' ?_).eq_of_length ?_ <;>
    simp only [List.length_take] <;> omega

end Backs

variable {ι ε : Type*} {stamp : ε → ℕ} {w w' : World ι ε}

structure Logs (stamp : ε → ℕ) (w : World ι ε) : Prop where
  backs : ∀ i, Backs stamp w (w.peer i).log
  bound : ∀ i, ∀ e ∈ (w.peer i).log, stamp e ≤ (w.peer i).term
  stood_backs : ∀ c T Y, w.stood c T Y → Backs stamp w Y
  stood_bound : ∀ c T Y, w.stood c T Y → T ≤ (w.peer c).term ∧ ∀ e ∈ Y, stamp e < T
  stood_once : ∀ c T Y Y', w.stood c T Y → w.stood c T Y' → Y = Y'
  granted_backs : ∀ v c T X, w.granted v c T X → Backs stamp w X
  granted_stood : ∀ v c T X, w.granted v c T X → ∃ Y, w.stood c T Y ∧ UpToDate stamp X Y
  reign_stood : ∀ T R, w.reign T = some R → w.stood R.leader T R.first
  /-- Behind the log that it was elected with, the entries of a leader are of its own term. -/
  reign_own : ∀ T R, w.reign T = some R → ∃ l, R.log = R.first ++ l ∧ ∀ e ∈ l, stamp e = T

namespace Logs
variable (h : Logs stamp w) {T : ℕ} {R : Reign ι ε}
include h

theorem reign_backs (hR : w.reign T = some R) : Backs stamp w R.log := by
  obtain ⟨l, hlog, hown⟩ := h.reign_own T R hR
  intro k e he
  rcases Nat.lt_or_ge k R.first.length with hk | hk
  · rw [hlog, List.getElem?_append_left hk] at he
    rw [hlog, List.take_append_of_le_length hk]
    exact h.stood_backs _ _ _ (h.reign_stood T R hR) k e he
  · rw [hlog, List.getElem?_append_right hk] at he
    exact ⟨R, hown e (List.mem_of_getElem? he) ▸ hR, List.take_prefix ..⟩

/-- What the leader of `T` has at a place behind its first log is of its term. -/
theorem stamp_eq {k : ℕ} {e : ε} (hR : w.reign T = some R) (hk : R.first.length ≤ k)
    (he : R.log[k]? = some e) : stamp e = T := by
  obtain ⟨l, hlog, hown⟩ := h.reign_own T R hR
  rw [hlog, List.getElem?_append_right hk] at he
  exact hown e (List.mem_of_getElem? he)

theorem stamp_le {e : ε} (hR : w.reign T = some R) (he : e ∈ R.log) : stamp e ≤ T := by
  obtain ⟨l, hlog, hown⟩ := h.reign_own T R hR
  rw [hlog, List.mem_append] at he
  rcases he with he | he
  · exact ((h.stood_bound _ _ _ (h.reign_stood T R hR)).2 e he).le
  · exact (hown e he).le

/-- The terms of the entries of a backed log do not decrease. -/
theorem sorted {X : List ε} (hX : Backs stamp w X) {j k : ℕ} {e e' : ε} (he : X[j]? = some e)
    (he' : X[k]? = some e') (hjk : j ≤ k) : stamp e ≤ stamp e' := by
  obtain ⟨R, hR, htake⟩ := hX k e' he'
  refine h.stamp_le hR (htake.subset ?_)
  exact List.mem_of_getElem? ((List.getElem?_take_of_lt (by omega)).trans he)

end Logs

theorem Logs.start : Logs stamp (World.start : World ι ε) where
  backs _ := Backs.nil
  bound := by simp [World.start]
  stood_backs := by simp [World.start]
  stood_bound := by simp [World.start]
  stood_once := by simp [World.start]
  granted_backs := by simp [World.start]
  granted_stood := by simp [World.start]
  reign_stood := by simp [World.start]
  reign_own := by simp [World.start]

section Kept
variable [Fintype ι] [DecidableEq ι] {careful : Prop} (hE : Elections w) (h : Logs stamp w)
  (hs : Step stamp careful w w')
include hE h hs

theorem Step.backs (i : ι) : Backs stamp w' (w'.peer i).log := by
  have hold := (h.backs i).grows (hs.grows hE)
  have hgrows := hs.grows hE
  cases hs with
  | write j R e hrole hR he =>
    rcases eq_or_ne i j with rfl | hne
    · rw [World.noteAcked_peer, World.noteReign_peer, World.set_peer, update_self]
      refine hold.append (R := { R with log := (w.peer i).log ++ [e] }) ?_ (List.prefix_rfl)
      simp [he]
    · simpa [update_of_ne hne] using hold
  | adopt j R e hrole hR he =>
    rcases eq_or_ne i j with rfl | hne
    · rw [World.set_peer, update_self]
      exact ((h.reign_backs hR).grows hgrows).shorten he
    · simpa [update_of_ne hne] using hold
  | cut j R k hrole hR hcut =>
    rcases eq_or_ne i j with rfl | hne
    · rw [World.set_peer, update_self]
      exact hold.shorten (List.take_prefix ..)
    · simpa [update_of_ne hne] using hold
  | _ => grind

omit hE in
theorem Step.bound (i : ι) (e : ε) (he : e ∈ (w'.peer i).log) : stamp e ≤ (w'.peer i).term := by
  have hold := h.bound i e
  cases hs with
  | adopt j R e' hrole hR he' =>
    have hle := h.stamp_le hR (he'.subset (List.mem_append_right _ (List.mem_singleton_self e')))
    grind
  | cut j R k hrole hR hcut =>
    have hsub := List.mem_of_mem_take (a := e) (l := (w.peer j).log) (i := k)
    grind
  | _ => grind

theorem Step.stood_backs (c : ι) (T : ℕ) (Y : List ε) (hY : w'.stood c T Y) :
    Backs stamp w' Y := by
  suffices hw : Backs stamp w Y from hw.grows (hs.grows hE)
  have hold := h.stood_backs c T Y
  have hlog := h.backs
  cases hs <;> grind

omit hE in
theorem Step.stood_bound (c : ι) (T : ℕ) (Y : List ε) (hY : w'.stood c T Y) :
    T ≤ (w'.peer c).term ∧ ∀ e ∈ Y, stamp e < T := by
  have hold := h.stood_bound c T Y
  have hbound := h.bound c
  cases hs <;> grind

omit hE in
theorem Step.stood_once (c : ι) (T : ℕ) (Y Y' : List ε) (hY : w'.stood c T Y)
    (hY' : w'.stood c T Y') : Y = Y' := by
  have hold := h.stood_once c T Y Y'
  have hbound := h.stood_bound c T
  cases hs <;> grind

theorem Step.granted_backs (v c : ι) (T : ℕ) (X : List ε) (hX : w'.granted v c T X) :
    Backs stamp w' X := by
  suffices hw : Backs stamp w X from hw.grows (hs.grows hE)
  have hold := h.granted_backs v c T X
  have hlog := h.backs
  cases hs <;> grind

theorem Step.granted_stood (v c : ι) (T : ℕ) (X : List ε) (hX : w'.granted v c T X) :
    ∃ Y, w'.stood c T Y ∧ UpToDate stamp X Y := by
  suffices hw : ∃ Y, w.stood c T Y ∧ UpToDate stamp X Y by
    obtain ⟨Y, hY, hup⟩ := hw
    exact ⟨Y, (hs.grows hE).stood _ _ _ hY, hup⟩
  have hold := h.granted_stood v c T X
  cases hs <;> grind

theorem Step.reign_stood (T : ℕ) (R : Reign ι ε) (hR : w'.reign T = some R) :
    w'.stood R.leader T R.first := by
  apply (hs.grows hE).stood
  have hold := h.reign_stood T
  have hrun := hE.runs
  cases hs <;> grind

theorem Step.reign_own (T : ℕ) (R : Reign ι ε) (hR : w'.reign T = some R) :
    ∃ l, R.log = R.first ++ l ∧ ∀ e ∈ l, stamp e = T := by
  have hold := h.reign_own T
  cases hs with
  | win j Q hrole hQ hvotes =>
    rcases eq_or_ne T (w.peer j).term with rfl | hne
    · obtain rfl : _ = R := by simpa using hR
      exact ⟨[], by simp, by simp⟩
    · exact hold R (by simpa [update_of_ne hne] using hR)
  | write j R' e hrole hR' he =>
    rcases eq_or_ne T (w.peer j).term with rfl | hne
    · obtain rfl : _ = R := by simpa using hR
      obtain ⟨l, hl, hown⟩ := hold R' hR'
      obtain ⟨R'', hR'', -, hlog⟩ := hE.leads j hrole
      rw [hR', Option.some.injEq] at hR''
      refine ⟨l ++ [e], ?_, ?_⟩
      · rw [← hlog, ← hR'', hl, List.append_assoc]
      · intro x hx
        rcases List.mem_append.mp hx with hx | hx
        · exact hown x hx
        · rw [List.mem_singleton.mp hx, he]
    · exact hold R (by simpa [update_of_ne hne] using hR)
  | _ => exact hold R hR

theorem Logs.step : Logs stamp w' where
  backs := hs.backs hE h
  bound := hs.bound h
  stood_backs := hs.stood_backs hE h
  stood_bound := hs.stood_bound h
  stood_once := hs.stood_once h
  granted_backs := hs.granted_backs hE h
  granted_stood := hs.granted_stood hE h
  reign_stood := hs.reign_stood hE h
  reign_own := hs.reign_own hE h

end Kept

end KirinFS.Foundation.Consensus
