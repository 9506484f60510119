import Mathlib.Data.Set.Basic
import KirinFS.Foundation.PrefixTable
import KirinFS.Radix.Tree

/-! # Where the nodes of a radix tree sit

A layout names the node at each bit path. The links of the nodes follow from
it, so that adding a leaf, dropping a leaf and writing a value each change the
layout, or the values over it, at one path.
-/

namespace KirinFS.Radix
open Foundation.PrefixTable Function

namespace StlRadixNode
variable (x : StlRadixNode) (b c : Bool) (p : Option ℕ)

@[simp] theorem toward_setToward :
    (x.setToward b p).toward c = if c = b then p else x.toward c := by
  cases b <;> cases c <;> rfl

@[simp] theorem setToward_parent : (x.setToward b p).parent = x.parent := by
  cases b <;> rfl

@[simp] theorem setToward_value : (x.setToward b p).value = x.value := by
  cases b <;> rfl

@[simp] theorem toward_withValue (v : Word) :
    StlRadixNode.toward { x with value := v } b = x.toward b := by
  cases b <;> rfl

/-- Both children are null exactly when neither side leads anywhere. -/
theorem no_children_iff : ¬ (x.right.isSome ∨ x.left.isSome) ↔ ∀ b, x.toward b = none := by
  rw [Bool.forall_bool]
  simp only [toward, Bool.false_eq_true, if_false, if_true, Bool.not_eq_true,
    Option.isSome_eq_false_iff, Option.isNone_iff_eq_none, not_or]
  exact and_comm

end StlRadixNode

namespace StlRadixTree

/-- Nodes that a walk from the root can meet. -/
inductive Reachable (t : StlRadixTree) : ℕ → Prop where
  | root {n : ℕ} (h : t.root = some n) : Reachable t n
  | child {n m : ℕ} (b : Bool) (h : Reachable t n) (hm : (t.node n).toward b = some m) :
    Reachable t m

/-- Nodes on `tree->free`, which is threaded through `right`. -/
inductive OnFree (t : StlRadixTree) : ℕ → Prop where
  | head {n : ℕ} (h : t.free = some n) : OnFree t n
  | next {n m : ℕ} (h : OnFree t n) (hm : (t.node n).right = some m) : OnFree t m

variable {t : StlRadixTree} {n : ℕ}

theorem load_some (h : n < t.carved) : t.load (some n) = some (t.node n) := by
  simp [load, h]

theorem store_some (h : n < t.carved) (f : StlRadixNode → StlRadixNode) :
    t.store (some n) f = some { t with node := update t.node n (f (t.node n)) } := by
  simp [store, h]

end StlRadixTree

/-- `l` lists the nodes of a chain of `right` links. -/
def FreeChain (node : ℕ → StlRadixNode) : Option ℕ → List ℕ → Prop
  | p, [] => p = none
  | p, n :: l => p = some n ∧ FreeChain node (node n).right l

theorem FreeChain.congr {node node' : ℕ → StlRadixNode} {p : Option ℕ} {l : List ℕ}
    (h : FreeChain node p l) (hn : ∀ n ∈ l, node' n = node n) : FreeChain node' p l := by
  induction l generalizing p with
  | nil => exact h
  | cons n l ih =>
    refine ⟨h.1, ?_⟩
    rw [hn n (by simp)]
    exact ih h.2 fun m hm => hn m (List.mem_cons_of_mem n hm)

theorem FreeChain.tail {node : ℕ → StlRadixNode} {p : Option ℕ} {l : List ℕ} {n m : ℕ}
    (h : FreeChain node p l) (hn : n ∈ l) (hm : (node n).right = some m) : m ∈ l := by
  induction l generalizing p with
  | nil => exact absurd hn List.not_mem_nil
  | cons x l ih =>
    rcases List.mem_cons.mp hn with rfl | hn
    · cases l with
      | nil =>
        rw [h.2] at hm
        exact absurd hm (by simp)
      | cons y l =>
        rw [h.2.1] at hm
        simp [Option.some.inj hm]
    · exact List.mem_cons_of_mem x (ih h.2 hn)

section Allocation

/-- What the tree promises to `stl_radix_alloc`: a free list apart from the tree. -/
structure Promises (t : StlRadixTree) (l : List ℕ) : Prop where
  chain : FreeChain t.node t.free l
  nodup : l.Nodup
  apart : ∀ n ∈ l, ¬ t.Reachable n
  carved : ∀ n, t.Reachable n ∨ n ∈ l → n < t.carved

/-- `n` is a node outside of the tree, taken off the free list if it was there. -/
structure Fresh (t : StlRadixTree) (l : List ℕ) (n : ℕ) (t' : StlRadixTree) : Prop where
  notInTree : ¬ t.Reachable n
  carved : n < t'.carved
  grows : t.carved ≤ t'.carved
  root : t'.root = t.root
  same : ∀ m, t.Reachable m → t'.node m = t.node m
  free : ∃ l', FreeChain t'.node t'.free l' ∧ l'.Sublist l ∧ n ∉ l'

/-- Allocation succeeds and returns a node that is not in the tree. -/
def Allocates (alloc : RadixAlloc) : Prop :=
  ∀ t l, Promises t l → ∃ n t', alloc t = some (n, t') ∧ Fresh t l n t'

/-- Where allocation succeeds, it returns a node that is not in the tree. -/
def Supplies (alloc : RadixAlloc) : Prop :=
  ∀ t l n t', Promises t l → alloc t = some (n, t') → Fresh t l n t'

theorem Allocates.supplies {alloc : RadixAlloc} (h : Allocates alloc) : Supplies alloc := by
  intro t l n t' hp heq
  obtain ⟨n', t'', heq', hfr⟩ := h t l hp
  cases heq.symm.trans heq'
  exact hfr

end Allocation

abbrev Places := List Bool → Option ℕ

structure Layout (t : StlRadixTree) (pos : Places) : Prop where
  root : t.root = pos []
  child : ∀ {p n}, pos p = some n → ∀ b, (t.node n).toward b = pos (b :: p)
  up : ∀ {b p n}, pos (b :: p) = some n → (t.node n).parent = pos p ∧ (pos p).isSome
  top : ∀ {n}, pos [] = some n → (t.node n).parent = none
  inj : ∀ {p q n}, pos p = some n → pos q = some n → p = q
  depth : ∀ {p n}, pos p = some n → p.length ≤ 32
  carved : ∀ {p n}, pos p = some n → n < t.carved

structure FreeList (t : StlRadixTree) (pos : Places) (l : List ℕ) : Prop where
  chain : FreeChain t.node t.free l
  nodup : l.Nodup
  carved : ∀ n ∈ l, n < t.carved
  apart : ∀ n ∈ l, ∀ p, pos p ≠ some n

structure Sound (t : StlRadixTree) (pos : Places) (l : List ℕ) : Prop where
  layout : Layout t pos
  free : FreeList t pos l
  rooted : (pos []).isSome

def valueAt (t : StlRadixTree) (pos : Places) : Table Word := fun p =>
  (pos p).bind fun n => if (t.node n).value = noValue then none else some (t.node n).value

def Bare (pos : Places) (p : List Bool) : Prop := ∀ b, pos (b :: p) = none

/-- Every leaf other than the root and the exempt paths carries a value. -/
def Pruned (T : Table Word) (pos : Places) (exempt : Set (List Bool)) : Prop :=
  ∀ p, (pos p).isSome → p ≠ [] → p ∉ exempt → Bare pos p → (T p).isSome

variable {t t' : StlRadixTree} {pos : Places} {l : List ℕ} {n m : ℕ} {p q : List Bool} {b : Bool}

namespace Layout

theorem pos_none_of_none (h : Layout t pos) (hp : pos p = none) : Bare pos p := by
  intro b
  cases hb : pos (b :: p) with
  | none => rfl
  | some n =>
    have hs := (h.up hb).2
    rw [hp] at hs
    exact absurd hs (by simp)

theorem bare_iff (h : Layout t pos) (hp : pos p = some n) :
    ¬ ((t.node n).right.isSome ∨ (t.node n).left.isSome) ↔ Bare pos p := by
  rw [StlRadixNode.no_children_iff]
  exact forall_congr' fun c => by rw [h.child hp c]

theorem reachable_iff (h : Layout t pos) : t.Reachable n ↔ ∃ p, pos p = some n := by
  constructor
  · intro hr
    induction hr with
    | root hn => exact ⟨[], h.root.symm.trans hn⟩
    | child b _ hm ih =>
      obtain ⟨p, hp⟩ := ih
      exact ⟨b :: p, (h.child hp b).symm.trans hm⟩
  · rintro ⟨p, hp⟩
    induction p generalizing n with
    | nil => exact .root (h.root.trans hp)
    | cons b p ih =>
      obtain ⟨m, hm⟩ := Option.isSome_iff_exists.mp (h.up hp).2
      exact .child b (ih hm) ((h.child hm b).trans hp)

theorem path_none (h : Layout t pos) {k : ℕ → Bool} {d e : ℕ} (hd : pos (path k d) = none)
    (hde : d ≤ e) : pos (path k e) = none := by
  induction hde with
  | refl => exact hd
  | @step e _ ih => exact h.pos_none_of_none ih (k e)

theorem promises (h : Layout t pos) (hf : FreeList t pos l) : Promises t l where
  chain := hf.chain
  nodup := hf.nodup
  apart := by
    intro n hn hr
    obtain ⟨p, hp⟩ := h.reachable_iff.mp hr
    exact hf.apart n hn p hp
  carved := by
    rintro n (hr | hn)
    · obtain ⟨p, hp⟩ := h.reachable_iff.mp hr
      exact h.carved hp
    · exact hf.carved n hn

theorem frame (h : Layout t pos) (hroot : t'.root = t.root) (hgrow : t.carved ≤ t'.carved)
    (hlink : ∀ p n, pos p = some n → (∀ b, (t'.node n).toward b = (t.node n).toward b) ∧
      (t'.node n).parent = (t.node n).parent) : Layout t' pos where
  root := hroot.trans h.root
  child hp b := ((hlink _ _ hp).1 b).trans (h.child hp b)
  up hp := ⟨(hlink _ _ hp).2.trans (h.up hp).1, (h.up hp).2⟩
  top hp := (hlink _ _ hp).2.trans (h.top hp)
  inj := h.inj
  depth := h.depth
  carved hp := Nat.lt_of_lt_of_le (h.carved hp) hgrow

end Layout

theorem FreeList.frame (h : FreeList t pos l) (hfree : t'.free = t.free)
    (hcarved : t'.carved = t.carved) (hn : ∀ n ∈ l, t'.node n = t.node n) :
    FreeList t' pos l where
  chain := by
    rw [hfree]
    exact h.chain.congr hn
  nodup := h.nodup
  carved n hn := by
    rw [hcarved]
    exact h.carved n hn
  apart := h.apart

theorem Layout.reachable_not_free (h : Layout t pos) (hf : FreeList t pos l) :
    ¬ (t.Reachable n ∧ t.OnFree n) := by
  rintro ⟨hr, hn⟩
  have hmem : n ∈ l := by
    clear hr
    induction hn with
    | head hn =>
      cases l with
      | nil => exact absurd (hf.chain.symm.trans hn) (by simp)
      | cons m l =>
        obtain rfl := Option.some.inj (hf.chain.1.symm.trans hn)
        simp
    | next _ hm ih => exact hf.chain.tail ih hm
  obtain ⟨p, hp⟩ := h.reachable_iff.mp hr
  exact hf.apart n hmem p hp

end KirinFS.Radix
