import KirinFS.Rbtree.Tree
import Mathlib.Data.List.Basic
import Mathlib.Order.Lattice
import Mathlib.Order.Nat

/-! # What `stl_rbtree_init` leaves for the other operations

Insertion asks whether the root is the sentinel, and set-up makes it null.
-/

namespace KirinFS.Rbtree
open Function

/-- A client call. The client fills in key and data before it inserts a node. -/
inductive RbtreeOp (K D : Type) where
  | insert (n : ℕ) (key : K) (data : D)
  | delete (n : ℕ)

variable {K D : Type}

namespace RbtreeOp

/-- The nodes in the tree with their keys, after one more call. -/
def held (M : List (ℕ × K)) : RbtreeOp K D → List (ℕ × K)
  | insert n key _ => (n, key) :: M
  | delete n => M.filter fun x => x.1 ≠ n

/-- Nodes are inserted while outside of the tree and deleted while inside. -/
def Allowed (s : ℕ) (M : List (ℕ × K)) : RbtreeOp K D → Prop
  | insert n _ _ => n ≠ s ∧ ∀ x ∈ M, x.1 ≠ n
  | delete n => ∃ x ∈ M, x.1 = n

def step (min : RbtreeMin K D) (fuel : ℕ) (t : StlRbtree K D) :
    RbtreeOp K D → Except Fault (StlRbtree K D)
  | insert n key data =>
    { t with mem := update t.mem n { t.mem n with key := some key, data := some data } }.stlRbtreeInsert
      fuel (some n)
  | delete n => (t.stlRbtreeDelete min fuel (some n)).map Prod.fst

end RbtreeOp

def heldAfter : List (ℕ × K) → List (RbtreeOp K D) → List (ℕ × K)
  | M, [] => M
  | M, o :: os => heldAfter (o.held M) os

/-- Every call is allowed when it is made; `s` is the sentinel. -/
def ValidFrom (s : ℕ) : List (ℕ × K) → List (RbtreeOp K D) → Prop
  | _, [] => True
  | M, o :: os => o.Allowed s M ∧ ValidFrom s (o.held M) os

def run (min : RbtreeMin K D) (fuel : ℕ) :
    StlRbtree K D → List (RbtreeOp K D) → Except Fault (StlRbtree K D)
  | t, [] => .ok t
  | t, o :: os => (o.step min fuel t).bind fun t => run min fuel t os

/-- The calls all return, and the key of every node in the tree is found afterwards. -/
def Serves (min : RbtreeMin K D) (t : StlRbtree K D) (ops : List (RbtreeOp K D)) : Prop :=
  ∃ fuel t', run min fuel t ops = .ok t' ∧ ∀ x ∈ heldAfter [] ops, ∃ m key,
    t'.stlBtreeSearch fuel (some x.2) = .ok (some m) ∧ (t'.mem m).key = some key ∧
      t'.cmp (some key) (some x.2) = .ok 0

section Init
variable {cmp : Option K → Option K → Except Fault ℤ} {mem : ℕ → StlRbtreeNode K D} {s : ℕ}
  {t : StlRbtree K D}

theorem init_root (hinit : stlRbtreeInit mem (some s) cmp = .ok t) :
    t.root = none ∧ t.sentinel = some s := by
  cases hinit
  exact ⟨rfl, rfl⟩

/-- With a null root the first insertion reads the key of a null node. -/
theorem insert_null_root (hroot : t.root = none) (hs : t.sentinel = some s) (fuel n : ℕ) :
    t.stlRbtreeInsert (fuel + 1) (some n) = .error .null := by
  rw [StlRbtree.stlRbtreeInsert, if_neg (by rw [hroot, hs]; simp), hroot]
  rfl

theorem insert_null_root_error (hroot : t.root = none) (hs : t.sentinel = some s) (fuel n : ℕ) :
    ∃ e, t.stlRbtreeInsert fuel (some n) = .error e := by
  cases fuel with
  | zero =>
    rw [StlRbtree.stlRbtreeInsert, if_neg (by rw [hroot, hs]; simp)]
    exact ⟨.fuel, rfl⟩
  | succ fuel => exact ⟨.null, insert_null_root hroot hs fuel n⟩

/-- A client is served after `stl_rbtree_init` exactly when it makes no call. -/
theorem init_serves_iff (min : RbtreeMin K D) {ops : List (RbtreeOp K D)}
    (hinit : stlRbtreeInit mem (some s) cmp = .ok t) (hops : ValidFrom s [] ops) :
    Serves min t ops ↔ ops = [] := by
  obtain ⟨hroot, hs⟩ := init_root hinit
  constructor
  · rintro ⟨fuel, t', hrun, -⟩
    cases ops with
    | nil => rfl
    | cons o os =>
      exfalso
      cases o with
      | insert n key data =>
        let q : StlRbtree K D :=
          { t with mem := update t.mem n { t.mem n with key := some key, data := some data } }
        obtain ⟨e, he⟩ := insert_null_root_error (t := q) (s := s) hroot hs fuel n
        change (q.stlRbtreeInsert fuel (some n)).bind _ = _ at hrun
        rw [he] at hrun
        cases hrun
      | delete n =>
        obtain ⟨x, hx, -⟩ := hops.1
        exact List.not_mem_nil hx
  · rintro rfl
    exact ⟨0, t, rfl, fun x hx => absurd hx List.not_mem_nil⟩

end Init

/-- The comparison of a linear order through key pointers. -/
def cmpOf [LinearOrder K] : Option K → Option K → Except Fault ℤ
  | some a, some b => .ok (if a < b then -1 else if a = b then 0 else 1)
  | _, _ => .error .null

theorem init_serves_iff_single : ∃ t : StlRbtree ℕ Unit,
    stlRbtreeInit (fun _ => .zero) (some 0) cmpOf = .ok t ∧
      ¬ Serves (fun _ n _ => .ok n) t [.insert 1 5 ()] := by
  have hops : ValidFrom 0 [] [(RbtreeOp.insert 1 5 () : RbtreeOp ℕ Unit)] :=
    ⟨⟨by decide, by simp⟩, trivial⟩
  refine ⟨_, rfl, ?_⟩
  intro h
  exact absurd ((init_serves_iff (s := 0) _ rfl hops).mp h) (List.cons_ne_nil _ _)

/-- The first insertion into a new tree dereferences null. -/
theorem first_insert_null : ∃ t : StlRbtree ℕ Unit,
    stlRbtreeInit (fun _ => .zero) (some 0) cmpOf = .ok t ∧
      ValidFrom 0 [] [RbtreeOp.insert 1 5 ()] ∧
      (∀ fuel, run (fun _ n _ => .ok n) (fuel + 1) t [.insert 1 5 ()] = .error .null) ∧
      ¬ Serves (fun _ n _ => .ok n) t [.insert 1 5 ()] := by
  refine ⟨_, rfl, ⟨⟨by decide, by simp⟩, trivial⟩, ?_, ?_⟩
  · intro fuel
    rfl
  · rintro ⟨fuel, t', hrun, -⟩
    cases fuel with
    | zero => cases hrun
    | succ fuel => cases hrun

end KirinFS.Rbtree
