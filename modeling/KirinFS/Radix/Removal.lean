import Mathlib.Data.Nat.Find
import KirinFS.Radix.Session

/-! # Deletion with any mask

Every tree that inserts and deletes can reach has a layout, whatever masks and
values they are given. The zero mask leads to the root, which the pruning loop
does not spare as its first node.
-/

namespace KirinFS.Radix
open Foundation.PrefixTable Function

variable {alloc : RadixAlloc} {t t' : StlRadixTree} {pos : Places} {l : List ℕ}
  {key mask inc : BitVec 32} {pagesize : ℕ} {preallocate : ℤ} {r : ℤ}

/-- Trees that `stl_radix_tree_alloc` returns, and what inserts and deletes make of them. -/
inductive Reached (alloc : RadixAlloc) (pagesize : ℕ) : StlRadixTree → Prop where
  | alloc {preallocate : ℤ} {t : StlRadixTree}
    (h : stlRadixTreeAlloc alloc pagesize preallocate = some (some t)) : Reached alloc pagesize t
  | insert {t t' : StlRadixTree} {key mask : BitVec 32} {value : Word} {r : ℤ}
    (ht : Reached alloc pagesize t)
    (h : t.stlRadix32treeInsert alloc key mask value = some (t', r)) : Reached alloc pagesize t'
  | delete {t t' : StlRadixTree} {key mask : BitVec 32} {r : ℤ} (ht : Reached alloc pagesize t)
    (h : t.stlRadix32treeDelete key mask = some (t', r)) : Reached alloc pagesize t'

/-- Deletion runs through, leaves the root off the free list, and changes no lookup where it
returns -1. -/
def DeletesSafely (t : StlRadixTree) (key mask : BitVec 32) : Prop :=
  ∃ t' r, t.stlRadix32treeDelete key mask = some (t', r) ∧
    (∀ n, t.root = some n → ¬ t'.OnFree n) ∧
    (r = -1 → ∀ k, t'.stlRadix32treeFind k = t.stlRadix32treeFind k)

def StlRadixTree.Branches (t : StlRadixTree) : Prop :=
  ∃ n, t.root = some n ∧ ((t.node n).right.isSome ∨ (t.node n).left.isSome)

theorem exists_leads (mask : BitVec 32) : ∃ L, Leads mask L := by
  have hend : ∃ d, keyBit mask d = false := ⟨32, keyBit_of_ge mask (Nat.le_refl 32)⟩
  refine ⟨Nat.find hend, fun d hd => ?_, Nat.find_spec hend⟩
  exact Bool.eq_true_of_not_eq_false (Nat.find_min hend hd)

section Roots

theorem store_root {p : Option ℕ} {f : StlRadixNode → StlRadixNode} (h : t.store p f = some t') :
    t'.root = t.root := by
  obtain ⟨n, -, hn⟩ := Option.bind_eq_some_iff.mp h
  split at hn
  · cases hn
    rfl
  · cases hn

theorem prune_root {fuel n : ℕ} (h : StlRadixTree.prune fuel t n = some t') : t'.root = t.root := by
  induction fuel generalizing t n with
  | zero => cases h
  | succ fuel ih =>
    obtain ⟨x, -, h⟩ := Option.bind_eq_some_iff.mp h
    obtain ⟨t₁, h₁, h⟩ := Option.bind_eq_some_iff.mp h
    obtain ⟨t₂, h₂, h⟩ := Option.bind_eq_some_iff.mp h
    obtain ⟨up, -, h⟩ := Option.bind_eq_some_iff.mp h
    obtain ⟨y, -, h⟩ := Option.bind_eq_some_iff.mp h
    have hroot : t₂.root = t.root := (store_root h₂).trans (store_root h₁)
    split at h
    · cases h
      exact hroot
    · split at h
      · cases h
        exact hroot
      · split at h
        · cases h
          exact hroot
        · exact (ih h).trans hroot

theorem delete_root (h : t.stlRadix32treeDelete key mask = some (t', r)) : t'.root = t.root := by
  rw [StlRadixTree.stlRadix32treeDelete] at h
  obtain ⟨found, -, h⟩ := Option.bind_eq_some_iff.mp h
  cases found with
  | none =>
    cases h
    rfl
  | some n =>
    obtain ⟨x, -, h⟩ := Option.bind_eq_some_iff.mp h
    split at h
    · split at h
      · obtain ⟨t₁, h₁, h⟩ := Option.bind_eq_some_iff.mp h
        cases h
        exact store_root h₁
      · cases h
        rfl
    · obtain ⟨t₁, h₁, h⟩ := Option.bind_eq_some_iff.mp h
      cases h
      exact prune_root h₁

end Roots

section Reaching

theorem insert_sound (ha : Supplies alloc) {value : Word} (h : ∃ pos l, Sound t pos l)
    (heq : t.stlRadix32treeInsert alloc key mask value = some (t', r)) :
    ∃ pos l, Sound t' pos l := by
  obtain ⟨pos, l, hs⟩ := h
  obtain ⟨L, hL⟩ := exists_leads mask
  rcases insert_cases key ha hs hL value with
    ⟨-, hold⟩ | ⟨-, t₁, pos₁, l₁, hnew, hi⟩ | ⟨-, t₁, pos₁, l₁, hfail, hs₁⟩
  · cases hold.symm.trans heq
    exact ⟨pos, l, hs⟩
  · cases hnew.symm.trans heq
    exact ⟨pos₁, l₁, hi.sound⟩
  · cases hfail.symm.trans heq
    exact ⟨pos₁, l₁, hs₁⟩

theorem fillLevel_sound (ha : Supplies alloc) {fuel : ℕ} (h : ∃ pos l, Sound t pos l)
    (hfill : fillLevel alloc mask inc fuel key t = some (some t')) : ∃ pos l, Sound t' pos l := by
  induction fuel generalizing key t with
  | zero => cases hfill
  | succ fuel ih =>
    obtain ⟨⟨t₁, r⟩, hins, hrest⟩ := Option.bind_eq_some_iff.mp hfill
    dsimp only at hrest
    have h₁ : ∃ pos l, Sound t₁ pos l := insert_sound ha h hins
    split at hrest
    · cases hrest
    · split at hrest
      · exact ih h₁ hrest
      · cases hrest
        exact h₁

theorem fillLevels_sound (ha : Supplies alloc) {n : ℕ} (h : ∃ pos l, Sound t pos l)
    (hfill : fillLevels alloc n mask inc t = some (some t')) : ∃ pos l, Sound t' pos l := by
  induction n generalizing mask inc t with
  | zero =>
    cases hfill
    exact h
  | succ n ih =>
    obtain ⟨found, hlevel, hrest⟩ := Option.bind_eq_some_iff.mp hfill
    cases found with
    | none => cases hrest
    | some t₁ => exact ih (fillLevel_sound ha h hlevel) hrest

theorem treeAlloc_sound (ha : Supplies alloc)
    (h : stlRadixTreeAlloc alloc pagesize preallocate = some (some t)) :
    ∃ pos l, Sound t pos l := by
  rw [stlRadixTreeAlloc] at h
  cases hroot : alloc bareTree with
  | none =>
    rw [hroot] at h
    cases h
  | some fresh =>
    obtain ⟨r, t₁⟩ := fresh
    have hfr := ha bareTree [] r t₁ promises_bareTree hroot
    have hcarved := hfr.carved
    obtain ⟨pos, l, hs, -, -⟩ := hfr.represents
    rw [hroot] at h
    dsimp only at h
    rw [StlRadixTree.store_some (by exact hcarved), Option.bind_some] at h
    split at h
    · cases h
      exact ⟨pos, l, hs⟩
    · split at h
      · exact fillLevels_sound ha ⟨pos, l, hs⟩ h
      · split at h
        · cases h
        · exact fillLevels_sound ha ⟨pos, l, hs⟩ h

/-- Deletion of the prefix of length zero works on the root, which has no parent to unlink it. -/
theorem delete_top (key : BitVec 32) (hs : Sound t pos l) (hm : Leads mask 0) :
    (¬ t.Branches ∧ t.stlRadix32treeDelete key mask = none) ∨
      t.Branches ∧ ∃ t' r, t.stlRadix32treeDelete key mask = some (t', r) ∧ Sound t' pos l ∧
        (r = -1 → t' = t) := by
  obtain ⟨n, hn⟩ := Option.isSome_iff_exists.mp hs.rooted
  have hroot : t.root = some n := hs.layout.root.trans hn
  have hseek : t.seek key mask 33 0 t.root = some (some n) := by
    rw [hroot, StlRadixTree.seek, if_neg (by rw [hm.2]; simp)]
  have hload := StlRadixTree.load_some (hs.layout.carved hn)
  have hbranch : t.Branches ↔ (t.node n).right.isSome ∨ (t.node n).left.isSome := by
    constructor
    · rintro ⟨m, hm, hk⟩
      obtain rfl := Option.some.inj (hroot.symm.trans hm)
      exact hk
    · exact fun hk => ⟨n, hroot, hk⟩
  rw [hbranch]
  by_cases hk : (t.node n).right.isSome ∨ (t.node n).left.isSome
  · right
    refine ⟨hk, ?_⟩
    by_cases hv : (t.node n).value = noValue
    · refine ⟨t, -1, ?_, hs, fun _ => rfl⟩
      simp [StlRadixTree.stlRadix32treeDelete, hseek, hload, hk, hv]
    · have hst := withValue_eq (hs.layout.carved hn) noValue
      refine ⟨t.withValue n noValue, 0, ?_, ?_, by simp⟩
      · simp [StlRadixTree.stlRadix32treeDelete, hseek, hload, hk, hv, hst]
      · exact ⟨hs.layout.withValue n noValue, hs.free.withValue hn noValue, hs.rooted⟩
  · left
    refine ⟨hk, ?_⟩
    have hup : (t.node n).parent = none := hs.layout.top hn
    have hprune : StlRadixTree.prune 33 t n = none := by
      rw [StlRadixTree.prune, hload, Option.bind_some, hup]
      rfl
    simp [StlRadixTree.stlRadix32treeDelete, hseek, hload, hk, hprune]

/-- What a deletion of any prefix leaves, if it is defined. -/
theorem delete_sound (h : ∃ pos l, Sound t pos l)
    (heq : t.stlRadix32treeDelete key mask = some (t', r)) :
    (∃ pos l, Sound t' pos l) ∧ (r = -1 → t' = t) := by
  obtain ⟨pos, l, hs⟩ := h
  obtain ⟨L, hL⟩ := exists_leads mask
  rcases Nat.eq_zero_or_pos L with rfl | hpos
  · rcases delete_top key hs hL with ⟨-, hnone⟩ | ⟨-, t₁, r₁, hsome, hs₁, hsame⟩
    · cases hnone.symm.trans heq
    · cases hsome.symm.trans heq
      exact ⟨⟨pos, l, hs₁⟩, hsame⟩
  · rcases delete_cases key hs hL hpos with
      ⟨-, hmiss⟩ | ⟨-, t₁, pos₁, l₁, hgone, hs₁, -, -⟩
    · cases hmiss.symm.trans heq
      exact ⟨⟨pos, l, hs⟩, fun _ => rfl⟩
    · cases hgone.symm.trans heq
      exact ⟨⟨pos₁, l₁, hs₁⟩, fun hr => absurd hr (by decide)⟩

theorem Reached.sound (ha : Supplies alloc) (h : Reached alloc pagesize t) :
    ∃ pos l, Sound t pos l := by
  induction h with
  | alloc h => exact treeAlloc_sound ha h
  | insert _ h ih => exact insert_sound ha ih h
  | delete _ h ih => exact (delete_sound ih h).1

end Reaching

/-- Deletion is safe unless the mask does not start with a one and the root has no children. -/
theorem deletesSafely_iff (ha : Supplies alloc) (h : Reached alloc pagesize t)
    (key mask : BitVec 32) :
    DeletesSafely t key mask ↔ keyBit mask 0 = true ∨ t.Branches := by
  obtain ⟨pos, l, hs⟩ := h.sound ha
  have hdefined : DeletesSafely t key mask ↔
      ∃ t' r, t.stlRadix32treeDelete key mask = some (t', r) := by
    constructor
    · rintro ⟨t', r, heq, -⟩
      exact ⟨t', r, heq⟩
    · rintro ⟨t', r, heq⟩
      obtain ⟨⟨pos', l', hs'⟩, hsame⟩ := delete_sound ⟨pos, l, hs⟩ heq
      refine ⟨t', r, heq, fun n hn hfree => ?_, fun hr k => by rw [hsame hr]⟩
      have hroot : t'.root = some n := (delete_root heq).trans hn
      exact hs'.layout.reachable_not_free hs'.free ⟨.root hroot, hfree⟩
  rw [hdefined]
  obtain ⟨L, hL⟩ := exists_leads mask
  rcases Nat.eq_zero_or_pos L with rfl | hpos
  · rw [hL.2]
    rcases delete_top key hs hL with ⟨hbare, hnone⟩ | ⟨hbranch, t', r, heq, -⟩
    · rw [hnone]
      simp [hbare]
    · exact iff_of_true ⟨t', r, heq⟩ (Or.inr hbranch)
  · refine iff_of_true ?_ (Or.inl (hL.1 0 hpos))
    rcases delete_cases key hs hL hpos with ⟨-, heq⟩ | ⟨-, t', pos', l', heq, -⟩
    · exact ⟨t, -1, heq⟩
    · exact ⟨t', 0, heq⟩

/-- The zero mask in a new tree. -/
theorem delete_root_undefined : ∃ t, Reached carve 4096 t ∧ ¬ DeletesSafely t 0 0 := by
  have hnew : ∃ t, stlRadixTreeAlloc carve 4096 0 = some (some t) ∧
      t.stlRadix32treeDelete 0 0 = none := ⟨_, rfl, rfl⟩
  obtain ⟨t, hnew, hnone⟩ := hnew
  refine ⟨t, .alloc hnew, ?_⟩
  rintro ⟨t', r, heq, -⟩
  cases hnone.symm.trans heq

theorem deletesSafely_iff_levels : ∃ t, stlRadixTreeAlloc carve 4096 1 = some (some t) ∧
    DeletesSafely t 0 0 := by
  have hnew : ∃ t, stlRadixTreeAlloc carve 4096 1 = some (some t) ∧ t.Branches :=
    ⟨_, rfl, 0, rfl, Or.inl rfl⟩
  obtain ⟨t, hnew, hbranch⟩ := hnew
  exact ⟨t, hnew,
    (deletesSafely_iff carve_allocates.supplies (.alloc hnew) 0 0).mpr (Or.inr hbranch)⟩

end KirinFS.Radix
