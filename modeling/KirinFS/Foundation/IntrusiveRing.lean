import Mathlib.Data.List.Nodup
import Mathlib.Data.Set.Insert
import Mathlib.Logic.Function.Basic

/-! # Sentinel rings threaded through intrusive links

A ring starts and ends at a sentinel. Its nodes are met by following `next`, and
every node links back to its predecessor through an encoded `prev` word. The
back link of the sentinel itself is never read and stays unconstrained.
-/

namespace KirinFS.Foundation.IntrusiveRing
open Function

variable {R P : Type*} {next next' : R → R} {prev prev' : R → P} {enc : R → P}

/-- `l` lists the nodes strictly between `a` and `b`, each linked back to the one before it. -/
def Links (next : R → R) (prev : R → P) (enc : R → P) : R → List R → R → Prop
  | a, [], b => next a = b
  | a, x :: l, b => next a = x ∧ prev x = enc a ∧ Links next prev enc x l b

/-- The last node of the chain that starts at `a` and continues with `l`. -/
def lastFrom : R → List R → R
  | a, [] => a
  | _, x :: l => lastFrom x l

theorem lastFrom_mem (l : List R) (a : R) : lastFrom a l ∈ a :: l := by
  induction l generalizing a with
  | nil => simp [lastFrom]
  | cons x l ih => exact List.mem_cons_of_mem a (ih x)

theorem Links.congr {a b : R} {l : List R} (h : Links next prev enc a l b)
    (hn : ∀ r ∈ a :: l, next' r = next r) (hp : ∀ r ∈ l, prev' r = prev r) :
    Links next' prev' enc a l b := by
  induction l generalizing a with
  | nil => exact (hn a (by simp)).trans h
  | cons x l ih =>
    obtain ⟨hx, hb, hl⟩ := h
    refine ⟨(hn a (by simp)).trans hx, (hp x (by simp)).trans hb, ih hl ?_ ?_⟩
    · intro r hr
      exact hn r (List.mem_cons_of_mem a hr)
    · intro r hr
      exact hp r (List.mem_cons_of_mem x hr)

theorem links_append {a b x : R} {u v : List R} :
    Links next prev enc a (u ++ x :: v) b ↔
      Links next prev enc a u x ∧ prev x = enc (lastFrom a u) ∧ Links next prev enc x v b := by
  induction u generalizing a with
  | nil => simp [Links, lastFrom]
  | cons y u ih => simp [Links, lastFrom, ih, and_assoc]

theorem Links.next_mem {a b : R} {l : List R} (h : Links next prev enc a l b) :
    next a ∈ l ∨ next a = b := by
  cases l with
  | nil => exact Or.inr h
  | cons x l => exact Or.inl (by simp [h.1])

theorem Links.next_last {a b : R} {l : List R} (h : Links next prev enc a l b) :
    next (lastFrom a l) = b := by
  induction l generalizing a with
  | nil => exact h
  | cons x l ih => exact ih h.2.2

section Update
variable [DecidableEq R]

/-- Redirecting the last forward link moves the end of the chain. -/
theorem Links.retarget {a b : R} {l : List R} (h : Links next prev enc a l b)
    (hd : (a :: l).Nodup) (c : R) :
    Links (update next (lastFrom a l) c) prev enc a l c := by
  induction l generalizing a with
  | nil => simp [Links, lastFrom]
  | cons x l ih =>
    obtain ⟨hx, hb, hl⟩ := h
    have hne : a ≠ lastFrom x l := by
      rintro rfl
      exact (List.nodup_cons.mp hd).1 (lastFrom_mem l x)
    refine ⟨?_, hb, ih hl (List.nodup_cons.mp hd).2⟩
    rw [lastFrom, update_of_ne hne]
    exact hx

end Update

/-- The ring at sentinel `s` threads exactly the nodes of `M`. -/
def Ring (next : R → R) (prev : R → P) (enc : R → P) (s : R) (M : Set R) : Prop :=
  ∃ l : List R, Links next prev enc s l s ∧ (s :: l).Nodup ∧ ∀ r, r ∈ l ↔ r ∈ M

namespace Ring
variable {s x y : R} {M N : Set R}

theorem congr_set (h : Ring next prev enc s M) (hMN : ∀ r, r ∈ M ↔ r ∈ N) :
    Ring next prev enc s N := by
  obtain ⟨l, hl, hd, hm⟩ := h
  exact ⟨l, hl, hd, fun r => (hm r).trans (hMN r)⟩

/-- A ring only reads the links of its own nodes. -/
theorem frame (h : Ring next prev enc s M) (hs : next' s = next s)
    (hn : ∀ r ∈ M, next' r = next r) (hp : ∀ r ∈ M, prev' r = prev r) :
    Ring next' prev' enc s M := by
  obtain ⟨l, hl, hd, hm⟩ := h
  refine ⟨l, hl.congr ?_ ?_, hd, hm⟩
  · intro r hr
    rcases List.mem_cons.mp hr with rfl | hr
    · exact hs
    · exact hn r ((hm r).mp hr)
  · intro r hr
    exact hp r ((hm r).mp hr)

theorem empty (h : next s = s) : Ring next prev enc s ∅ :=
  ⟨[], h, by simp, by simp⟩

theorem single (hs : next s = x) (hp : prev x = enc s) (hn : next x = s) (hne : x ≠ s) :
    Ring next prev enc s {x} :=
  ⟨[x], ⟨hs, hp, hn⟩, by simp [hne.symm], by simp⟩

theorem next_sentinel (h : Ring next prev enc s M) : next s = s ∨ next s ∈ M := by
  obtain ⟨l, hl, -, hm⟩ := h
  rcases hl.next_mem with hx | hx
  · exact Or.inr ((hm _).mp hx)
  · exact Or.inl hx

theorem next_sentinel_eq_iff (h : Ring next prev enc s M) : next s = s ↔ M = ∅ := by
  obtain ⟨l, hl, hd, hm⟩ := h
  constructor
  · intro hs
    cases l with
    | nil =>
      ext r
      simp [← hm r]
    | cons x l =>
      have hx : x = s := hl.1.symm.trans hs
      simp [hx] at hd
  · rintro rfl
    cases l with
    | nil => exact hl
    | cons x l => exact absurd ((hm x).mp (by simp)) (by simp)

/-- A ring opened at its node `x`, between the nodes `u` and `v`. -/
structure SplitAt (next : R → R) (prev : R → P) (enc : R → P) (s : R) (M : Set R) (x : R)
    (u v : List R) : Prop where
  before : Links next prev enc s u x
  back : prev x = enc (lastFrom s u)
  behind : Links next prev enc x v s
  nodupBefore : (s :: u).Nodup
  nodupBehind : (x :: v).Nodup
  apart : ∀ r ∈ s :: u, ∀ t ∈ x :: v, r ≠ t
  mem : ∀ r, r ∈ u ++ x :: v ↔ r ∈ M

theorem split (h : Ring next prev enc s M) (hx : x ∈ M) :
    ∃ u v, SplitAt next prev enc s M x u v := by
  obtain ⟨l, hl, hd, hm⟩ := h
  obtain ⟨u, v, rfl⟩ := List.append_of_mem ((hm x).mpr hx)
  obtain ⟨hu, hb, hv⟩ := links_append.mp hl
  have hd' : (s :: u ++ x :: v).Nodup := by simpa using hd
  obtain ⟨hsu, hxv, hdis⟩ := List.nodup_append.mp hd'
  exact ⟨u, v, hu, hb, hv, hsu, hxv, hdis, hm⟩

namespace SplitAt
variable {u v : List R}

theorem mem_rest (h : SplitAt next prev enc s M x u v) (r : R) :
    r ∈ u ++ v ↔ r ∈ M \ {x} := by
  have hxu : x ∉ u := fun hxu => h.apart x (List.mem_cons_of_mem s hxu) x (by simp) rfl
  have hxv : x ∉ v := (List.nodup_cons.mp h.nodupBehind).1
  have hr := h.mem r
  simp only [List.mem_append, List.mem_cons] at hr
  simp only [List.mem_append, Set.mem_sdiff, Set.mem_singleton_iff, ← hr]
  constructor
  · rintro (hu | hv)
    · exact ⟨Or.inl hu, fun e => hxu (e ▸ hu)⟩
    · exact ⟨Or.inr (Or.inr hv), fun e => hxv (e ▸ hv)⟩
  · rintro ⟨hu | he | hv, hne⟩
    · exact Or.inl hu
    · exact absurd he hne
    · exact Or.inr hv

theorem ne_next (h : SplitAt next prev enc s M x u v) {r : R} (hr : r ∈ u) : r ≠ next x := by
  rintro rfl
  rcases h.behind.next_mem with h' | h'
  · exact h.apart _ (List.mem_cons_of_mem s hr) _ (List.mem_cons_of_mem x h') rfl
  · rw [h'] at hr
    exact (List.nodup_cons.mp h.nodupBefore).1 hr

theorem ne_last (h : SplitAt next prev enc s M x u v) {r : R} (hr : r ∈ v) : r ≠ lastFrom s u :=
  (h.apart _ (lastFrom_mem u s) r (List.mem_cons_of_mem x hr)).symm

theorem fresh (h : SplitAt next prev enc s M x u v) (hys : y ≠ s) (hyM : y ∉ M) :
    y ∉ s :: u ∧ y ∉ x :: v := by
  have hyl : y ∉ u ++ x :: v := fun hy => hyM ((h.mem y).mp hy)
  constructor
  · intro hy
    rcases List.mem_cons.mp hy with hy | hy
    · exact hys hy
    · exact hyl (List.mem_append_left _ hy)
  · exact fun hy => hyl (List.mem_append_right u hy)

end SplitAt

theorem neighbours (h : Ring next prev enc s M) (hx : x ∈ M) :
    ∃ a, prev x = enc a ∧ next a = x ∧ (a = s ∨ a ∈ M) ∧ a ≠ x ∧
      (next x = s ∨ next x ∈ M) ∧ next x ≠ x := by
  obtain ⟨u, v, hsp⟩ := h.split hx
  have ha := lastFrom_mem u s
  refine ⟨lastFrom s u, hsp.back, hsp.before.next_last, ?_, hsp.apart _ ha x (by simp), ?_, ?_⟩
  · rcases List.mem_cons.mp ha with h | h
    · exact Or.inl h
    · exact Or.inr ((hsp.mem _).mp (List.mem_append_left _ h))
  · rcases hsp.behind.next_mem with h | h
    · exact Or.inr ((hsp.mem _).mp (by simp [h]))
    · exact Or.inl h
  · intro h
    rcases hsp.behind.next_mem with h' | h'
    · rw [h] at h'
      exact (List.nodup_cons.mp hsp.nodupBehind).1 h'
    · have hs := hsp.apart s (by simp) x (by simp)
      exact hs (h'.symm.trans h)

variable [DecidableEq R]

theorem unlink (h : Ring next prev enc s M) (hx : x ∈ M) {a : R} (ha : prev x = enc a)
    (hinj : Injective enc) :
    Ring (update next a (next x)) (update prev (next x) (prev x)) enc s (M \ {x}) := by
  obtain ⟨u, v, hsp⟩ := h.split hx
  obtain rfl : a = lastFrom s u := hinj (ha.symm.trans hsp.back)
  have hfront : Links (update next (lastFrom s u) (next x)) (update prev (next x) (prev x)) enc s
      u (next x) := (hsp.before.retarget hsp.nodupBefore _).congr (fun _ _ => rfl)
    fun r hr => update_of_ne (hsp.ne_next hr) _ _
  refine ⟨u ++ v, ?_, ?_, hsp.mem_rest⟩
  · cases v with
    | nil =>
      obtain rfl : next x = s := hsp.behind
      rw [List.append_nil]
      exact hfront
    | cons y v =>
      obtain ⟨rfl, -, hv⟩ := hsp.behind
      rw [links_append]
      refine ⟨hfront, by rw [update_self, hsp.back], hv.congr ?_ ?_⟩
      · intro r hr
        exact update_of_ne (hsp.ne_last hr) _ _
      · intro r hr
        refine update_of_ne ?_ _ _
        rintro rfl
        have hnodup := hsp.nodupBehind
        simp [hr] at hnodup
  · rw [← List.cons_append]
    exact List.nodup_append.mpr ⟨hsp.nodupBefore, (List.nodup_cons.mp hsp.nodupBehind).2,
      fun r hr t ht => hsp.apart r hr t (List.mem_cons_of_mem x ht)⟩

theorem push (h : Ring next prev enc s M) (hxs : x ≠ s) (hxM : x ∉ M) :
    Ring (update (update next x (next s)) s x)
      (update (update prev x (enc s)) (next s) (enc x)) enc s (insert x M) := by
  obtain ⟨l, hl, hd, hm⟩ := h
  have hxl : x ∉ l := fun h => hxM ((hm x).mp h)
  have hsl := (List.nodup_cons.mp hd).1
  refine ⟨x :: l, ⟨by simp, ?_, ?_⟩, ?_, ?_⟩
  · have hne : x ≠ next s := by
      rintro rfl
      rcases hl.next_mem with h | h
      · exact hxl h
      · exact hxs h
    simp [update_of_ne hne]
  · cases l with
    | nil =>
      have hs : next s = s := hl
      simp [Links, update_of_ne hxs, hs]
    | cons y l =>
      obtain ⟨rfl, hy, hl'⟩ := hl
      refine ⟨by simp [update_of_ne hxs], by simp, hl'.congr ?_ ?_⟩
      · intro r hr
        rw [update_of_ne, update_of_ne]
        · rintro rfl; exact hxl hr
        · rintro rfl; exact hsl hr
      · intro r hr
        rw [update_of_ne, update_of_ne]
        · rintro rfl; exact hxl (by simp [hr])
        · rintro rfl
          simp [hr] at hd
  · refine List.nodup_cons.mpr ⟨?_, List.nodup_cons.mpr ⟨hxl, (List.nodup_cons.mp hd).2⟩⟩
    simp [hsl, Ne.symm hxs]
  · intro r
    simp [hm r]

theorem replace (h : Ring next prev enc s M) (hx : x ∈ M) (hys : y ≠ s) (hyM : y ∉ M)
    {a : R} (ha : prev x = enc a) (hinj : Injective enc) :
    Ring (update (update next y (next x)) a y)
      (update (update prev y (prev x)) (next x) (enc y)) enc s (insert y (M \ {x})) := by
  obtain ⟨u, v, hsp⟩ := h.split hx
  obtain rfl : a = lastFrom s u := hinj (ha.symm.trans hsp.back)
  obtain ⟨hyu, hyv⟩ := hsp.fresh hys hyM
  have hya : lastFrom s u ≠ y := fun h => hyu (h ▸ lastFrom_mem u s)
  have hynx : y ≠ next x := by
    rintro rfl
    rcases hsp.behind.next_mem with h' | h'
    · exact hyv (List.mem_cons_of_mem x h')
    · exact hys h'
  refine ⟨u ++ y :: v, ?_, ?_, ?_⟩
  · rw [links_append]
    refine ⟨(hsp.before.retarget hsp.nodupBefore y).congr ?_ ?_, ?_, ?_⟩
    · intro r hr
      by_cases hra : r = lastFrom s u
      · simp [hra]
      · rw [update_of_ne hra, update_of_ne hra, update_of_ne]
        rintro rfl
        exact hyu hr
    · intro r hr
      have hry : r ≠ y := by
        rintro rfl
        exact hyu (List.mem_cons_of_mem s hr)
      rw [update_of_ne (hsp.ne_next hr), update_of_ne hry]
    · rw [update_of_ne hynx, update_self, hsp.back]
    · cases v with
      | nil =>
        obtain rfl : next x = s := hsp.behind
        simp [Links, update_of_ne hya.symm]
      | cons z v =>
        obtain ⟨rfl, -, hv⟩ := hsp.behind
        refine ⟨by simp [update_of_ne hya.symm], by simp, hv.congr ?_ ?_⟩
        · intro r hr
          rw [update_of_ne (hsp.ne_last hr), update_of_ne]
          rintro rfl
          exact hyv (List.mem_cons_of_mem x hr)
        · intro r hr
          rw [update_of_ne, update_of_ne]
          · rintro rfl
            exact hyv (by simp [hr])
          · rintro rfl
            have hnodup := hsp.nodupBehind
            simp [hr] at hnodup
  · have hyv' : y ∉ v := fun h => hyv (List.mem_cons_of_mem x h)
    rw [← List.cons_append]
    refine List.nodup_append.mpr ⟨hsp.nodupBefore,
      List.nodup_cons.mpr ⟨hyv', (List.nodup_cons.mp hsp.nodupBehind).2⟩, ?_⟩
    intro r hr t ht
    rcases List.mem_cons.mp ht with rfl | ht
    · rintro rfl
      exact hyu hr
    · exact hsp.apart r hr t (List.mem_cons_of_mem x ht)
  · intro r
    rw [Set.mem_insert_iff, ← hsp.mem_rest r]
    simp [or_left_comm]

end Ring

end KirinFS.Foundation.IntrusiveRing
