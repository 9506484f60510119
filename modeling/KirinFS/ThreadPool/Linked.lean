import KirinFS.ThreadPool.Queue
import Mathlib.Data.List.Induction

/-! # What pushing and pulling do to the linked tasks

The counter is exact as long as fewer than `2 ^ 32` tasks are linked.
-/

namespace KirinFS.ThreadPool
open Function Foundation.LinkedChain

/-- Exactly these tasks are linked, the first one in front. -/
structure Linked (q : TaskQueue) (heap : Tasks) (l : List (ℕ × Call)) : Prop where
  chain : Chain Task.view heap q.front l
  rear : q.rear = l.getLast?.map Prod.fst
  nodup : (l.map Prod.fst).Nodup
  len : q.len = BitVec.ofNat 32 l.length

variable {q q' : TaskQueue} {heap heap' : Tasks} {l : List (ℕ × Call)} {a : ℕ} {t : Task}

theorem linked_empty (heap : Tasks) : Linked taskQueueAlloc heap [] := ⟨rfl, rfl, List.nodup_nil, rfl⟩

namespace Linked

theorem frame (h : Linked q heap l) (hh : ∀ e ∈ l, heap' e.1 = heap e.1) : Linked q heap' l :=
  ⟨h.chain.congr hh, h.rear, h.nodup, h.len⟩

theorem withJobs (h : Linked q heap l) (b : Bsem) : Linked { q with hasJobs := b } heap l :=
  ⟨h.chain, h.rear, h.nodup, h.len⟩

theorem len_toNat (h : Linked q heap l) (hl : l.length < 2 ^ 32) : q.len.toNat = l.length := by
  rw [h.len, BitVec.toNat_ofNat]
  exact Nat.mod_eq_of_lt hl

theorem len_eq_zero (h : Linked q heap l) (hl : l.length < 2 ^ 32) : q.len = 0 ↔ l = [] := by
  rw [← BitVec.toNat_inj, h.len_toNat hl]
  exact List.length_eq_zero_iff

theorem len_eq_one (h : Linked q heap l) (hl : l.length < 2 ^ 32) : q.len = 1 ↔ l.length = 1 := by
  rw [← BitVec.toNat_inj, h.len_toNat hl]
  rfl

theorem len_toInt (h : Linked q heap l) (hl : l.length < 2 ^ 31) : q.len.toInt = l.length := by
  have hn := h.len_toNat (by omega)
  rw [BitVec.toInt_eq_toNat_cond, hn, if_pos (by omega)]

theorem push_first (ha : heap a = some t) (h : q.len = 0) :
    q.taskQueuePush heap a =
      some (⟨some a, some a, ⟨1⟩, q.len + 1⟩, update heap a (some { t with prev := none })) := by
  simp [TaskQueue.taskQueuePush, ha, h, Bsem.bsemPost]

theorem push_more {b : ℕ} {x : Task} (ha : heap a = some t) (h : q.len ≠ 0) (hr : q.rear = some b)
    (hba : b ≠ a) (hb : heap b = some x) :
    q.taskQueuePush heap a =
      some (⟨q.front, some a, ⟨1⟩, q.len + 1⟩,
        update (update heap a (some { t with prev := none })) b (some { x with prev := some a })) := by
  have hload : update heap a (some { t with prev := none }) b = some x := by
    rw [update_of_ne hba]
    exact hb
  have hne : ¬ q.len = 0#32 := h
  simp [TaskQueue.taskQueuePush, ha, hne, hr, hload, Bsem.bsemPost]

/-- A push links the new task behind the others and posts. -/
theorem push (h : Linked q heap l) (hl : l.length < 2 ^ 32) (ha : heap a = some t)
    (hnew : ∀ e ∈ l, e.1 ≠ a) :
    ∃ q' heap', q.taskQueuePush heap a = some (q', heap') ∧ Linked q' heap' (l ++ [(a, t.call)]) ∧
      q'.hasJobs.v = 1 ∧ (∀ b, b ≠ a → (∀ e ∈ l, e.1 ≠ b) → heap' b = heap b) ∧
      ∀ b, (heap' b).isSome = (heap b).isSome := by
  have hlen : q.len + 1 = BitVec.ofNat 32 (l ++ [(a, t.call)]).length := by
    rw [h.len, List.length_append, BitVec.ofNat_add]
    rfl
  have hnodup : ((l ++ [(a, t.call)]).map Prod.fst).Nodup := by
    rw [List.map_append, List.nodup_append]
    refine ⟨h.nodup, List.nodup_singleton _, ?_⟩
    intro b hb c hc
    obtain ⟨e, he, rfl⟩ := List.mem_map.mp hb
    rw [List.mem_singleton.mp hc]
    exact hnew e he
  have hsome : ∀ (g : Tasks) {b : ℕ} {x y : Task}, g b = some x →
      ∀ c, (update g b (some y) c).isSome = (g c).isSome := by
    intro g b x y hb c
    by_cases hc : c = b
    · rw [hc, update_self, hb]
      rfl
    · rw [update_of_ne hc]
  cases l using List.reverseRecOn with
  | nil =>
    have hzero : q.len = 0 := h.len
    refine ⟨_, _, push_first ha hzero, ⟨?_, rfl, hnodup, hlen⟩, rfl, ?_, hsome heap ha⟩
    · exact ⟨rfl, _, update_self _ _ _, rfl, rfl⟩
    · intro b hb _
      exact update_of_ne hb _ _
  | append_singleton u e =>
    have hzero : q.len ≠ 0 := by
      rw [Ne, h.len_eq_zero hl]
      simp
    have hrear : q.rear = some e.1 := by
      rw [h.rear]
      simp
    obtain ⟨x, hx, -⟩ := h.chain.node (e := e) (by simp)
    have hea : e.1 ≠ a := hnew e (by simp)
    have hload : update heap a (some { t with prev := none }) e.1 = some x := by
      rw [update_of_ne hea]
      exact hx
    refine ⟨_, _, push_more ha hzero hrear hea hx, ⟨?_, by simp, hnodup, hlen⟩, rfl, ?_, ?_⟩
    · have hchain := h.chain.snoc (b := (a, t.call)) (y := { t with prev := none })
        (z := { x with prev := some a }) h.nodup hnew hx rfl rfl
      rw [List.append_assoc]
      exact hchain
    · intro b hb hbl
      rw [update_of_ne (hbl e (by simp)).symm, update_of_ne hb]
    · intro b
      rw [hsome _ hload, hsome heap ha]

/-- A pull unlinks the task in front and posts if others are left. -/
theorem pull (h : Linked q heap l) (hl : l.length < 2 ^ 32) :
    ∃ q', q.taskQueuePull heap = some (q', l.head?.map Prod.fst) ∧ Linked q' heap l.tail ∧
      q'.hasJobs.v = if 1 < l.length then 1 else q.hasJobs.v := by
  cases l with
  | nil =>
    have hzero : q.len = 0 := h.len
    have hfront : q.front = none := h.chain
    refine ⟨q, ?_, h, rfl⟩
    simp [TaskQueue.taskQueuePull, hzero, hfront]
  | cons e l =>
    have hzero : q.len ≠ 0 := by
      rw [Ne, h.len_eq_zero hl]
      simp
    obtain ⟨hfront, x, hx, -, hrest⟩ := h.chain
    have hd := h.nodup
    rw [List.map_cons, List.nodup_cons] at hd
    cases l with
    | nil =>
      have hone : q.len = 1 := h.len
      refine ⟨⟨none, none, q.hasJobs, 0⟩, ?_, linked_empty heap |>.withJobs q.hasJobs, rfl⟩
      simp [TaskQueue.taskQueuePull, hone, hfront]
    | cons f l =>
      have hone : q.len ≠ 1 := by
        rw [Ne, h.len_eq_one hl]
        simp
      have hlen : q.len - 1 = BitVec.ofNat 32 (f :: l).length := by
        rw [h.len, List.length_cons, BitVec.ofNat_add]
        exact BitVec.add_sub_cancel _ _
      refine ⟨⟨x.prev, q.rear, ⟨1⟩, q.len - 1⟩, ?_, ⟨hrest, ?_, hd.2, hlen⟩, ?_⟩
      · rw [TaskQueue.taskQueuePull, if_neg hzero, if_neg hone, hfront]
        simp [hx, Bsem.bsemPost]
      · rw [h.rear]
        rfl
      · simp

end Linked

end KirinFS.ThreadPool
