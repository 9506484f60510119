import KirinFS.Foundation.Consensus.Logs

/-! # What peers have held

What a peer has held under one leader it keeps as long as the later leaders
began with it, and it shows it in every election that it votes in or stands for.
-/

namespace KirinFS.Foundation.Consensus
open Function

attribute [local grind =] update_apply

section Carries
variable {ι ε : Type*} {stamp : ε → ℕ} {w w' : World ι ε} {T k b : ℕ} {X Y : List ε}

/-- The leaders after `T` up to `b` began with the first `k` entries of the leader of `T`. -/
def Agrees (w : World ι ε) (T k b : ℕ) : Prop :=
  ∀ R, w.reign T = some R → ∀ T' R', T < T' → T' ≤ b → w.reign T' = some R' →
    R.log.take k <+: R'.first

/-- If the leaders agree, `X` begins with their common entries. -/
def Carries (w : World ι ε) (T k b : ℕ) (X : List ε) : Prop :=
  ∀ R, w.reign T = some R → Agrees w T k b → R.log.take k <+: X

theorem Agrees.mono {b' : ℕ} (h : Agrees w T k b') (hb : b ≤ b') : Agrees w T k b :=
  fun R hR T' R' hlt hle => h R hR T' R' hlt (hle.trans hb)

theorem Agrees.of_grows {R : Reign ι ε} (h : Agrees w' T k b) (hg : Grows w w')
    (hR : w.reign T = some R) (hk : k ≤ R.log.length) : Agrees w T k b := by
  intro R₀ hR₀ T' R' hlt hle hR'
  obtain rfl : R = R₀ := by rwa [hR, Option.some.injEq] at hR₀
  obtain ⟨l, hl⟩ := hg.reign _ _ hR
  obtain ⟨l', hl'⟩ := hg.reign _ _ hR'
  have hpre := h _ hl T' _ hlt hle hl'
  rwa [List.take_append_of_le_length hk] at hpre

namespace Carries

theorem mono {b' : ℕ} (h : Carries w T k b X) (hb : b ≤ b') : Carries w T k b' X :=
  fun R hR hag => h R hR (hag.mono hb)

theorem extend (h : Carries w T k b X) (hX : X <+: Y) : Carries w T k b Y :=
  fun R hR hag => (h R hR hag).trans hX

theorem grows {R : Reign ι ε} (h : Carries w T k b X) (hg : Grows w w')
    (hR : w.reign T = some R) (hk : k ≤ R.log.length) : Carries w' T k b X := by
  intro R' hR' hag
  obtain ⟨l, hl⟩ := hg.reign _ _ hR
  rw [hl, Option.some.injEq] at hR'
  subst hR'
  rw [List.take_append_of_le_length hk]
  exact h R hR (hag.of_grows hg hR hk)

end Carries

/-- Leaders that agree have the common entries in what they write, too. -/
theorem Agrees.prefix_log {T₀ : ℕ} {R R₀ : Reign ι ε} (hag : Agrees w T k b) (h : Logs stamp w)
    (hR : w.reign T = some R) (hR₀ : w.reign T₀ = some R₀) (hT : T ≤ T₀) (hb : T₀ ≤ b) :
    R.log.take k <+: R₀.log := by
  rcases hT.eq_or_lt with rfl | hlt
  · rw [hR, Option.some.injEq] at hR₀
    exact hR₀ ▸ List.take_prefix ..
  · obtain ⟨l, hlog, -⟩ := h.reign_own T₀ R₀ hR₀
    rw [hlog]
    exact (hag R hR T₀ R₀ hlt hb hR₀).trans (List.prefix_append ..)

/-- A cut that follows the leader keeps what the log has in common with it. -/
theorem Cut.keeps {R : Reign ι ε} {j : ℕ} (hcut : Cut stamp X R T j) (h : Logs stamp w)
    (hR : w.reign T = some R) (hX : Y <+: X) (hlog : Y <+: R.log) : Y <+: X.take j := by
  refine List.prefix_take_iff.mpr ⟨hX, ?_⟩
  by_contra hlt
  have hj : j < Y.length := by omega
  have hXj : X[j]? = some Y[j] := List.prefix_iff_getElem?.mp hX j hj
  have hRj : R.log[j]? = some Y[j] := List.prefix_iff_getElem?.mp hlog j hj
  cases hcut with
  | mismatch e e' he he' hne =>
    rw [hXj, Option.some.injEq] at he
    rw [hRj, Option.some.injEq] at he'
    exact hne (he ▸ he' ▸ rfl)
  | overlong hfirst hold =>
    have hmem : Y[j] ∈ X.drop j := by
      refine List.mem_of_getElem? (i := 0) ?_
      rw [List.getElem?_drop, Nat.add_zero, hXj]
    exact hold _ hmem (h.stamp_eq hR hfirst hRj)

end Carries

variable {ι ε : Type*} [Fintype ι] [DecidableEq ι] {stamp : ε → ℕ} {w w' : World ι ε}

/-- What has been held is still carried, by the log and by every log shown in an election since. -/
structure Acks (w : World ι ε) : Prop where
  reigned : ∀ f T k, w.acked f T k →
    T ≤ (w.peer f).term ∧ ∃ R, w.reign T = some R ∧ k ≤ R.log.length
  held : ∀ f T k, w.acked f T k → Carries w T k (w.peer f).term (w.peer f).log
  granted : ∀ f c T k T' X, w.acked f T k → w.granted f c T' X → T < T' → w.reign T' = none →
    Carries w T k (T' - 1) X
  elected : ∀ T' R', w.reign T' = some R' →
    ∃ Q : Finset ι, Majority Q ∧ ∀ u ∈ Q, u = R'.leader ∨ ∃ X, w.granted u R'.leader T' X ∧
      ∀ T k, w.acked u T k → T < T' → Carries w T k (T' - 1) X
  stood : ∀ f T k T' Y, w.acked f T k → w.stood f T' Y → T < T' → Carries w T k (T' - 1) Y
  own : ∀ T R, w.reign T = some R → R.first.length < R.log.length →
    w.acked R.leader T R.log.length
  down : ∀ f T k j, w.acked f T k → j ≤ k → w.acked f T j

omit [DecidableEq ι] in
theorem Acks.start : Acks (World.start : World ι ε) where
  reigned := by simp [World.start]
  held := by simp [World.start]
  granted := by simp [World.start]
  elected := by simp [World.start]
  stood := by simp [World.start]
  own := by simp [World.start]
  down := by simp [World.start]

theorem Step.holds {f : ι} {T k : ℕ} (hs : Step stamp True w w') (hk : w'.acked f T k)
    (hnew : ¬ w.acked f T k) : T = (w'.peer f).term ∧ ∃ R, w'.reign T = some R ∧
      k ≤ R.log.length ∧ R.log.take k <+: (w'.peer f).log := by
  cases hs with
  | write j R e hrole hR he =>
    obtain ⟨rfl, rfl, hle⟩ : f = j ∧ T = (w.peer j).term ∧ k ≤ (w.peer j).log.length + 1 := by
      grind
    refine ⟨by simp, { R with log := (w.peer f).log ++ [e] }, by simp, by simpa using hle, ?_⟩
    simpa using List.take_prefix ..
  | ack j R m hrole hR hm hlen =>
    obtain ⟨rfl, rfl, hle⟩ : f = j ∧ T = (w.peer j).term ∧ k ≤ m := by grind
    exact ⟨rfl, R, hR, hle.trans hlen, (List.take_prefix_take_left hle).trans hm⟩
  | _ => exact absurd hk hnew

/-- A log is extended, or cut as the leader of its term has it. -/
theorem Step.log_cases (hs : Step stamp True w w') (i : ι) : (w.peer i).log <+: (w'.peer i).log ∨
    ∃ R j, w.reign (w.peer i).term = some R ∧ Cut stamp (w.peer i).log R (w.peer i).term j ∧
      (w'.peer i).log = (w.peer i).log.take j := by
  cases hs with
  | cut j R k hrole hR hcut =>
    rcases eq_or_ne i j with rfl | hne
    · exact .inr ⟨R, k, hR, hcut trivial, by simp⟩
    · exact .inl (by simp [update_of_ne hne])
  | write j R e hrole hR he =>
    left
    rcases eq_or_ne i j with rfl | hne
    · simp
    · simp [update_of_ne hne]
  | adopt j R e hrole hR he =>
    left
    rcases eq_or_ne i j with rfl | hne
    · simp
    · simp [update_of_ne hne]
  | _ =>
    left
    grind

/-- A step keeps what the log has in common with the leader of its term. -/
theorem Step.keeps (hs : Step stamp True w w') (hL : Logs stamp w) {i : ι} {Z : List ε}
    (hZ : Z <+: (w.peer i).log) (hlead : ∀ R, w.reign (w.peer i).term = some R → Z <+: R.log) :
    Z <+: (w'.peer i).log := by
  rcases hs.log_cases i with hext | ⟨R, j, hR, hcut, hlog⟩
  · exact hZ.trans hext
  · rw [hlog]
    exact hcut.keeps hL hR hZ (hlead R hR)

section Kept
variable (hE : Elections w) (hL : Logs stamp w) (h : Acks w) (hs : Step stamp True w w')
include hE hL h hs

omit hL in
theorem Step.reigned (f : ι) (T k : ℕ) (hk : w'.acked f T k) :
    T ≤ (w'.peer f).term ∧ ∃ R, w'.reign T = some R ∧ k ≤ R.log.length := by
  have hg := hs.grows hE
  by_cases hold : w.acked f T k
  · obtain ⟨hT, R, hR, hlen⟩ := h.reigned f T k hold
    obtain ⟨l, hl⟩ := hg.reign T R hR
    refine ⟨hT.trans (hg.term f), _, hl, ?_⟩
    rw [List.length_append]
    omega
  · obtain ⟨rfl, R, hR, hlen, -⟩ := hs.holds hk hold
    exact ⟨le_rfl, R, hR, hlen⟩

theorem Step.held (f : ι) (T k : ℕ) (hk : w'.acked f T k) :
    Carries w' T k (w'.peer f).term (w'.peer f).log := by
  have hg := hs.grows hE
  by_cases hold : w.acked f T k
  · obtain ⟨hT, R, hR, hlen⟩ := h.reigned f T k hold
    intro R' hR' hag
    obtain ⟨l, hl⟩ := hg.reign T R hR
    rw [hl, Option.some.injEq] at hR'
    subst hR'
    rw [List.take_append_of_le_length hlen]
    have hag' := (hag.mono (hg.term f)).of_grows hg hR hlen
    refine hs.keeps hL (h.held f T k hold R hR hag') ?_
    intro R₀ hR₀
    exact hag'.prefix_log hL hR hR₀ hT le_rfl
  · obtain ⟨-, R, hR, -, hpre⟩ := hs.holds hk hold
    intro R' hR' _
    rw [hR, Option.some.injEq] at hR'
    exact hR' ▸ hpre

omit hL in
/-- Who votes before its term has a leader does so with what it carries from earlier terms. -/
theorem Step.acks_granted (f c : ι) (T k T' : ℕ) (X : List ε) (hk : w'.acked f T k)
    (hX : w'.granted f c T' X) (hT : T < T') (hnone : w'.reign T' = none) :
    Carries w' T k (T' - 1) X := by
  have hg := hs.grows hE
  have hnone₀ : w.reign T' = none := by
    by_contra hne
    obtain ⟨R, hR⟩ := Option.ne_none_iff_exists'.mp hne
    obtain ⟨l, hl⟩ := hg.reign T' R hR
    rw [hnone] at hl
    cases hl
  by_cases hold : w.acked f T k
  · obtain ⟨-, R, hR, hlen⟩ := h.reigned f T k hold
    suffices hw : Carries w T k (T' - 1) X from hw.grows hg hR hlen
    have hgranted := h.granted f c T k T' X hold
    have hheld := h.held f T k hold
    have hpred : Agrees w T k (T' - 1) → Agrees w T k T' := by
      intro hag R hR t R' hlt hle hR'
      rcases eq_or_ne t T' with rfl | hne
      · rw [hnone₀] at hR'
        cases hR'
      · exact hag R hR t R' hlt (by omega) hR'
    cases hs with
    | grant j c' Y hrole hvote hY hup =>
      rcases hX with hX | ⟨rfl, rfl, rfl, rfl⟩
      · exact hgranted hX hT hnone₀
      · exact fun R hR hag => hheld R hR (hpred hag)
    | _ => grind
  · obtain ⟨rfl, -⟩ := hs.holds hk hold
    have hspent := (hE.step hs).spent f c T' X hX
    omega

theorem Step.acks_stood (f : ι) (T k T' : ℕ) (Y : List ε) (hk : w'.acked f T k)
    (hY : w'.stood f T' Y) (hT : T < T') : Carries w' T k (T' - 1) Y := by
  have hg := hs.grows hE
  by_cases hold : w.acked f T k
  · obtain ⟨-, R, hR, hlen⟩ := h.reigned f T k hold
    suffices hw : Carries w T k (T' - 1) Y from hw.grows hg hR hlen
    have hstood := h.stood f T k T' Y hold
    have hheld := h.held f T k hold
    cases hs with
    | stand j t ht =>
      rcases hY with hY | ⟨rfl, rfl, rfl⟩
      · exact hstood hY hT
      · exact hheld.mono (by omega)
    | _ => grind
  · obtain ⟨rfl, -⟩ := hs.holds hk hold
    have hbound := (hs.stood_bound hL f T' Y hY).1
    omega

omit hL in
theorem Step.acks_elected (T' : ℕ) (R' : Reign ι ε) (hR' : w'.reign T' = some R') :
    ∃ Q : Finset ι, Majority Q ∧ ∀ u ∈ Q, u = R'.leader ∨ ∃ X, w'.granted u R'.leader T' X ∧
      ∀ T k, w'.acked u T k → T < T' → Carries w' T k (T' - 1) X := by
  have hg := hs.grows hE
  suffices hQ : ∃ Q : Finset ι, Majority Q ∧ ∀ u ∈ Q, u = R'.leader ∨
      ∃ X, w.granted u R'.leader T' X ∧
        ∀ T k, w.acked u T k → T < T' → Carries w T k (T' - 1) X by
    obtain ⟨Q, hmaj, hvotes⟩ := hQ
    refine ⟨Q, hmaj, fun u hu => (hvotes u hu).imp_right ?_⟩
    rintro ⟨X, hX, hcarry⟩
    refine ⟨X, hg.granted _ _ _ _ hX, fun T k hk hT => ?_⟩
    -- who has voted in `T'` holds nothing new in an earlier term
    have hold : w.acked u T k := by
      by_contra hnew
      obtain ⟨rfl, -⟩ := hs.holds hk hnew
      have hspent := (hE.step hs).spent u _ T' X (hg.granted _ _ _ _ hX)
      omega
    obtain ⟨-, R, hR, hlen⟩ := h.reigned u T k hold
    exact (hcarry T k hold hT).grows hg hR hlen
  have hold := h.elected T'
  cases hs with
  | win j Q hrole hQ hvotes =>
    rcases eq_or_ne T' (w.peer j).term with rfl | hne
    · obtain rfl : _ = R' := by simpa using hR'
      have hnone := hE.no_reign hrole hQ hvotes
      refine ⟨Q, hQ, fun u hu => (hvotes u hu).imp_right ?_⟩
      rintro ⟨X, hX⟩
      exact ⟨X, hX, fun T k hk hT => h.granted u j T k _ X hk hX hT hnone⟩
    · exact hold R' (by simpa [update_of_ne hne] using hR')
  | write j R e hrole hR he =>
    rcases eq_or_ne T' (w.peer j).term with rfl | hne
    · obtain rfl : _ = R' := by simpa using hR'
      exact hold R hR
    · exact hold R' (by simpa [update_of_ne hne] using hR')
  | _ => exact hold R' hR'

omit hL in
theorem Step.acks_own (T : ℕ) (R : Reign ι ε) (hR : w'.reign T = some R)
    (hlen : R.first.length < R.log.length) : w'.acked R.leader T R.log.length := by
  have hold := h.own T
  cases hs with
  | win j Q hrole hQ hvotes =>
    rcases eq_or_ne T (w.peer j).term with rfl | hne
    · obtain rfl : _ = R := by simpa using hR
      exact absurd hlen (lt_irrefl _)
    · exact hold R (by simpa [update_of_ne hne] using hR) hlen
  | write j R' e hrole hR' he =>
    rcases eq_or_ne T (w.peer j).term with rfl | hne
    · obtain rfl : _ = R := by simpa using hR
      obtain ⟨R'', hR'', hlead, -⟩ := hE.leads j hrole
      rw [hR', Option.some.injEq] at hR''
      subst hR''
      exact .inr ⟨hlead, rfl, by simp⟩
    · exact .inl (hold R (by simpa [update_of_ne hne] using hR) hlen)
  | grant | stand | learn | yield | adopt | cut | settle => exact hold R hR hlen
  | ack => exact .inl (hold R hR hlen)

omit hE hL in
theorem Step.acks_down (f : ι) (T k j : ℕ) (hk : w'.acked f T k) (hj : j ≤ k) : w'.acked f T j := by
  have hold := h.down f T k j
  cases hs <;> grind

theorem Acks.step : Acks w' where
  reigned := hs.reigned hE h
  held := hs.held hE hL h
  granted := hs.acks_granted hE h
  elected := hs.acks_elected hE h
  stood := hs.acks_stood hE hL h
  own := hs.acks_own hE h
  down := hs.acks_down h

end Kept

end KirinFS.Foundation.Consensus
