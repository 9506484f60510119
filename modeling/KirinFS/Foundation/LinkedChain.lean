import Mathlib.Data.List.Nodup
import Mathlib.Data.List.Perm.Subperm
import Mathlib.Data.Nat.Notation
import Mathlib.Logic.Function.Basic

/-! # Singly linked chains in a heap

`view` splits a node into what a client sees and the link to the next node.
A chain lists the addresses of its nodes with what the client sees there.
-/

namespace KirinFS.Foundation.LinkedChain
open Function

variable {N V : Type*} {view : N → V × Option ℕ} {heap heap' : ℕ → Option N}

/-- `l` is what a walk along the links from `p` meets, up to the null link. -/
def Chain (view : N → V × Option ℕ) (heap : ℕ → Option N) : Option ℕ → List (ℕ × V) → Prop
  | p, [] => p = none
  | p, e :: l => p = some e.1 ∧ ∃ x, heap e.1 = some x ∧ (view x).1 = e.2 ∧
      Chain view heap (view x).2 l

def collect (view : N → V × Option ℕ) (heap : ℕ → Option N) : ℕ → Option ℕ → List (ℕ × V)
  | 0, _ => []
  | _ + 1, none => []
  | fuel + 1, some n =>
    match heap n with
    | none => []
    | some x => (n, (view x).1) :: collect view heap fuel (view x).2

namespace Chain
variable {p : Option ℕ} {l : List (ℕ × V)}

theorem congr (h : Chain view heap p l) (hh : ∀ e ∈ l, heap' e.1 = heap e.1) :
    Chain view heap' p l := by
  induction l generalizing p with
  | nil => exact h
  | cons e l ih =>
    obtain ⟨hp, x, hx, hv, hl⟩ := h
    refine ⟨hp, x, (hh e (by simp)).trans hx, hv, ih hl ?_⟩
    intro f hf
    exact hh f (List.mem_cons_of_mem e hf)

theorem node (h : Chain view heap p l) {e : ℕ × V} (he : e ∈ l) :
    ∃ x, heap e.1 = some x ∧ (view x).1 = e.2 := by
  induction l generalizing p with
  | nil => exact absurd he List.not_mem_nil
  | cons f l ih =>
    obtain ⟨-, x, hx, hv, hl⟩ := h
    rcases List.mem_cons.mp he with rfl | he
    · exact ⟨x, hx, hv⟩
    · exact ih hl he

/-- Induction along a walk that has fuel left at the null link. -/
@[elab_as_elim]
theorem walk {motive : ℕ → Option ℕ → List (ℕ × V) → Prop} {fuel : ℕ}
    (h : Chain view heap p l) (hf : l.length < fuel) (nil : ∀ fuel, motive (fuel + 1) none [])
    (cons : ∀ fuel e l x, heap e.1 = some x → (view x).1 = e.2 →
      motive fuel (view x).2 l → motive (fuel + 1) (some e.1) (e :: l)) : motive fuel p l := by
  induction l generalizing p fuel with
  | nil =>
    obtain ⟨fuel, rfl⟩ := Nat.exists_eq_add_one_of_ne_zero (Nat.ne_of_gt hf)
    rw [show p = none from h]
    exact nil fuel
  | cons e l ih =>
    obtain ⟨fuel, rfl⟩ := Nat.exists_eq_add_one_of_ne_zero (Nat.ne_zero_of_lt hf)
    obtain ⟨rfl, x, hx, hv, hl⟩ := h
    exact cons fuel e l x hx hv (ih hl (Nat.lt_of_succ_lt_succ hf))

theorem collect_eq (h : Chain view heap p l) {fuel : ℕ} (hf : l.length < fuel) :
    collect view heap fuel p = l := by
  refine h.walk hf (fun _ => rfl) ?_
  intro fuel e l x hx hv ih
  rw [collect]
  simp only [hx]
  rw [ih, hv]

theorem push (h : Chain view heap p l) {n : ℕ} {x : N} (hn : ∀ e ∈ l, e.1 ≠ n)
    (hx : (view x).2 = p) :
    Chain view (update heap n (some x)) (some n) ((n, (view x).1) :: l) := by
  refine ⟨rfl, x, update_self _ _ _, rfl, ?_⟩
  rw [hx]
  exact h.congr fun e he => update_of_ne (hn e he) _ _

theorem snoc {u : List (ℕ × V)} {a b : ℕ × V} {x y z : N} (h : Chain view heap p (u ++ [a]))
    (hd : ((u ++ [a]).map Prod.fst).Nodup) (hb : ∀ e ∈ u ++ [a], e.1 ≠ b.1)
    (hx : heap a.1 = some x) (hy : view y = (b.2, none)) (hz : view z = ((view x).1, some b.1)) :
    Chain view (update (update heap b.1 (some y)) a.1 (some z)) p (u ++ [a, b]) := by
  induction u generalizing p with
  | nil =>
    obtain ⟨hp, x', hx', hv, -⟩ := h
    obtain rfl := Option.some.inj (hx.symm.trans hx')
    have hab := hb a (by simp)
    refine ⟨hp, z, update_self _ _ _, by rw [hz]; exact hv, ?_⟩
    refine ⟨by rw [hz], y, ?_, by rw [hy], ?_⟩
    · rw [update_of_ne hab.symm, update_self]
    · rw [hy]
      rfl
  | cons e u ih =>
    obtain ⟨hp, w, hw, hv, hl⟩ := h
    rw [List.cons_append, List.map_cons, List.nodup_cons] at hd
    have hea : e.1 ≠ a.1 := by
      intro heq
      exact hd.1 (List.mem_map.mpr ⟨a, by simp, heq.symm⟩)
    refine ⟨hp, w, ?_, hv, ih hl hd.2 fun f hf => hb f (List.mem_cons_of_mem e hf)⟩
    rw [update_of_ne hea, update_of_ne (hb e (by simp))]
    exact hw

theorem unlink {u v : List (ℕ × V)} {a b : ℕ × V} {x y z : N} {c : Option N}
    (h : Chain view heap p (u ++ a :: b :: v))
    (hd : ((u ++ a :: b :: v).map Prod.fst).Nodup) (hx : heap a.1 = some x)
    (hy : heap b.1 = some y) (hz : view z = ((view x).1, (view y).2)) :
    Chain view (update (update heap a.1 (some z)) b.1 c) p (u ++ a :: v) := by
  induction u generalizing p with
  | nil =>
    obtain ⟨rfl, x', hx', hv, rfl', y', hy', -, hl⟩ := h
    obtain rfl := Option.some.inj (hx.symm.trans hx')
    obtain rfl := Option.some.inj (hy.symm.trans hy')
    simp only [List.nil_append, List.map_cons, List.nodup_cons, List.mem_cons, not_or,
      List.mem_map, not_exists, not_and] at hd
    obtain ⟨⟨hab, ha⟩, hb, -⟩ := hd
    refine ⟨rfl, z, ?_, by rw [hz]; exact hv, ?_⟩
    · rw [update_of_ne hab, update_self]
    · rw [hz]
      refine hl.congr ?_
      intro e he
      rw [update_of_ne (hb e he), update_of_ne (ha e he)]
  | cons e u ih =>
    obtain ⟨rfl, w, hw, hv, hl⟩ := h
    simp only [List.cons_append, List.map_cons, List.nodup_cons, List.mem_map, not_exists,
      not_and] at hd
    obtain ⟨he, hd⟩ := hd
    have hea : e.1 ≠ a.1 := fun h => he a (by simp) h.symm
    have heb : e.1 ≠ b.1 := fun h => he b (by simp) h.symm
    refine ⟨rfl, w, ?_, hv, ih hl hd⟩
    rw [update_of_ne heb, update_of_ne hea]
    exact hw

end Chain

theorem length_le_of_lt {l : List (ℕ × V)} {N : ℕ} (hd : (l.map Prod.fst).Nodup)
    (h : ∀ e ∈ l, e.1 < N) : l.length ≤ N := by
  have hsub : l.map Prod.fst ⊆ List.range N := by
    intro n hn
    obtain ⟨e, he, rfl⟩ := List.mem_map.mp hn
    exact List.mem_range.mpr (h e he)
  simpa using (hd.subperm hsub).length_le

end KirinFS.Foundation.LinkedChain
