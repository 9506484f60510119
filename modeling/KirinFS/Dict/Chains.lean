import KirinFS.Dict.Table

/-! # Chains behind the buckets of a dict

The invariant names the chain of every bucket. Each operation changes the chain
of one bucket, and lookup is a search in it.
-/

namespace KirinFS.Dict
open Foundation.LinkedChain Function

variable {P : Type}

abbrev Entry (P : Type) := ℕ × StlDictItem P × StlDictItem P

structure Layout (d : StlDict P) (C : ℕ → List (Entry P)) : Prop where
  maxCount : d.maxCount = dictInitSize
  capacity : dictInitSize ≤ d.capacity
  chain : ∀ i < dictInitSize, Chain StlDict.pairView d.heap (d.buckets i) (C i)
  nodup : ∀ i < dictInitSize, ((C i).map Prod.fst).Nodup
  apart : ∀ i < dictInitSize, ∀ j < dictInitSize, i ≠ j →
    ∀ e ∈ C i, ∀ f ∈ C j, e.1 ≠ f.1
  bound : ∀ i < dictInitSize, ∀ e ∈ C i, e.1 < d.fresh
  placed : ∀ i < dictInitSize, ∀ e ∈ C i, d.index e.2.1 = some i

/-- The entry is for the key, as the code compares them. -/
def StlDict.hits (d : StlDict P) (key : StlDictItem P) (e : Entry P) : Bool :=
  decide (d.cmp e.2.1 key = 0)

/-- What a deletion leaves of a chain: a hit at the head takes all of it along. -/
def leftover {E : Type} (m : E → Bool) : List E → List E
  | [] => []
  | e :: l => if m e then [] else e :: l.eraseP m

variable {d d' : StlDict P} {C : ℕ → List (Entry P)} {key value : StlDictItem P} {i j : ℕ}
  {copy : PairCopy P}

namespace Layout

theorem chain_eq (h : Layout d C) (hi : i < dictInitSize) : d.chain i = C i := by
  refine (h.chain i hi).collect_eq ?_
  exact Nat.lt_succ_of_le (length_le_of_lt (h.nodup i hi) (h.bound i hi))

theorem index_eq (h : Layout d C) (key : StlDictItem P) :
    ∃ i < dictInitSize, d.index key = some i := by
  refine ⟨(d.hash key key.len).toNat % dictInitSize, Nat.mod_lt _ (by decide), ?_⟩
  rw [StlDict.index, h.maxCount, if_neg (by decide)]

theorem bucket_eq (h : Layout d C) (hi : i < dictInitSize) : d.bucket i = some (d.buckets i) :=
  if_pos (Nat.lt_of_lt_of_le hi h.capacity)

theorem storedPairs_eq (h : Layout d C) :
    d.storedPairs = ∑ i ∈ Finset.range dictInitSize, (C i).length := by
  rw [StlDict.storedPairs, h.maxCount]
  refine Finset.sum_congr rfl ?_
  intro i hi
  rw [h.chain_eq (Finset.mem_range.mp hi)]

end Layout

section Loops

theorem lookupFrom_spec {p : Option ℕ} {l : List (Entry P)} {fuel : ℕ}
    (h : Chain StlDict.pairView d.heap p l) (hf : l.length < fuel) :
    d.lookupFrom key fuel p = some ((l.find? (d.hits key)).map fun e => (e.1, e.2.2)) := by
  refine h.walk hf (fun _ => rfl) ?_
  intro fuel e l x hx hv ih
  have hk : x.key = e.2.1 := congrArg Prod.fst hv
  have hval : x.value = e.2.2 := congrArg Prod.snd hv
  rw [StlDict.lookupFrom, hx, Option.bind_some, hk, hval]
  by_cases hm : d.cmp e.2.1 key = 0
  · rw [if_pos hm, List.find?_cons_of_pos (by simp [StlDict.hits, hm])]
    rfl
  · rw [if_neg hm, List.find?_cons_of_neg (by simp [StlDict.hits, hm])]
    exact ih

def lastAddr {V : Type} : Option ℕ → List (ℕ × V) → Option ℕ
  | p, [] => p
  | _, e :: l => lastAddr (some e.1) l

theorem lastAddr_append {V : Type} (p : Option ℕ) (u : List (ℕ × V)) (a : ℕ × V) :
    lastAddr p (u ++ [a]) = some a.1 := by
  induction u generalizing p with
  | nil => rfl
  | cons e u ih => exact ih _

/-- The loop stops at the first hit, behind what it has walked. -/
theorem findFrom_spec (key : StlDictItem P) (q : Option ℕ) {p : Option ℕ} {l : List (Entry P)}
    {fuel : ℕ} (h : Chain StlDict.pairView d.heap p l) (hf : l.length < fuel) :
    ((∀ e ∈ l, d.hits key e = false) ∧ ∃ r, d.findFrom key fuel q p = some (r, none)) ∨
      ∃ u e v, l = u ++ e :: v ∧ (∀ f ∈ u, d.hits key f = false) ∧ d.hits key e = true ∧
        d.findFrom key fuel q p = some (lastAddr q u, some e.1) := by
  revert q
  refine h.walk hf ?_ ?_
  · intro fuel q
    exact Or.inl ⟨by simp, q, rfl⟩
  · intro fuel e l x hx hv ih q
    have hk : x.key = e.2.1 := congrArg Prod.fst hv
    rw [StlDict.findFrom, hx, Option.bind_some, hk]
    by_cases hm : d.cmp e.2.1 key = 0
    · rw [if_pos hm]
      exact Or.inr ⟨[], e, l, rfl, by simp, by simp [StlDict.hits, hm], rfl⟩
    · have hmiss : d.hits key e = false := by simp [StlDict.hits, hm]
      rw [if_neg hm]
      rcases ih (some e.1) with
        ⟨hnone, r, hr⟩ | ⟨u, f, v, rfl, hu, hhit, hr⟩
      · refine Or.inl ⟨?_, r, hr⟩
        intro f hf
        rcases List.mem_cons.mp hf with rfl | hf
        · exact hmiss
        · exact hnone f hf
      · refine Or.inr ⟨e :: u, f, v, rfl, ?_, hhit, hr⟩
        intro g hg
        rcases List.mem_cons.mp hg with rfl | hg
        · exact hmiss
        · exact hu g hg

end Loops

section Leftover
variable {E : Type} {m : E → Bool}

theorem leftover_miss {l : List E} (h : ∀ e ∈ l, m e = false) : leftover m l = l := by
  cases l with
  | nil => rfl
  | cons e l =>
    rw [leftover, if_neg (by simp [h e]), List.eraseP_of_forall_not]
    intro f hf
    simp [h f (List.mem_cons_of_mem e hf)]

theorem leftover_hit {u v : List E} {e : E} (hu : ∀ f ∈ u, m f = false) (he : m e = true)
    (hne : u ≠ []) : leftover m (u ++ e :: v) = u ++ v := by
  cases u with
  | nil => exact absurd rfl hne
  | cons f u =>
    rw [List.cons_append, leftover, if_neg (by simp [hu f]), List.eraseP_append_right,
      List.eraseP_cons_of_pos he]
    · rfl
    · intro g hg
      simp [hu g (List.mem_cons_of_mem f hg)]

end Leftover

theorem lookup_spec (h : Layout d C) (hk : stlDictItemCheckType key = true)
    (hi : d.index key = some i) (hlt : i < dictInitSize) :
    d.stlDictLookup key = some (((C i).find? (d.hits key)).map fun e => (e.1, e.2.2)) := by
  have hfuel := Nat.lt_succ_of_le (length_le_of_lt (h.nodup i hlt) (h.bound i hlt))
  rw [StlDict.stlDictLookup, if_pos hk, hi, Option.bind_some, h.bucket_eq hlt, Option.bind_some,
    lookupFrom_spec (h.chain i hlt) hfuel]

theorem lookup_untyped (hk : stlDictItemCheckType key = false) :
    d.stlDictLookup key = some none := by
  rw [StlDict.stlDictLookup, if_neg (by simp [hk])]

structure SameCalls (d d' : StlDict P) : Prop where
  cmp : d'.cmp = d.cmp
  hash : d'.hash = d.hash
  maxCount : d'.maxCount = d.maxCount

theorem SameCalls.index (h : SameCalls d d') (key : StlDictItem P) :
    d'.index key = d.index key := by
  rw [StlDict.index, StlDict.index, h.hash, h.maxCount]

theorem SameCalls.hits (h : SameCalls d d') (key : StlDictItem P) :
    d'.hits key = d.hits key := by
  funext e
  rw [StlDict.hits, StlDict.hits, h.cmp]

/-- Rewriting one chain with nodes of its own keeps the layout. -/
theorem Layout.update (h : Layout d C) (hs : SameCalls d d') (hcap : d'.capacity = d.capacity)
    (hfresh : d.fresh ≤ d'.fresh) {l : List (Entry P)}
    (hother : ∀ j, j ≠ i → d'.buckets j = d.buckets j ∧ ∀ e ∈ C j, j < dictInitSize →
      d'.heap e.1 = d.heap e.1)
    (hchain : Chain StlDict.pairView d'.heap (d'.buckets i) l) (hnodup : (l.map Prod.fst).Nodup)
    (hapart : ∀ e ∈ l, ∀ j < dictInitSize, j ≠ i → ∀ f ∈ C j, e.1 ≠ f.1)
    (hbound : ∀ e ∈ l, e.1 < d'.fresh) (hplaced : ∀ e ∈ l, d.index e.2.1 = some i) :
    Layout d' (Function.update C i l) where
  maxCount := hs.maxCount.trans h.maxCount
  capacity := by
    rw [hcap]
    exact h.capacity
  chain := by
    intro j hj
    by_cases hji : j = i
    · rw [hji, update_self]
      exact hchain
    · rw [update_of_ne hji, (hother j hji).1]
      exact (h.chain j hj).congr fun e he => (hother j hji).2 e he hj
  nodup := by
    intro j hj
    by_cases hji : j = i
    · rw [hji, update_self]
      exact hnodup
    · rw [update_of_ne hji]
      exact h.nodup j hj
  apart := by
    intro j hj k hk hjk e he f hf
    by_cases hji : j = i
    · rw [hji, update_self] at he
      have hki : k ≠ i := fun hki => hjk (hji.trans hki.symm)
      rw [update_of_ne hki] at hf
      exact hapart e he k hk hki f hf
    · rw [update_of_ne hji] at he
      by_cases hki : k = i
      · rw [hki, update_self] at hf
        exact (hapart f hf j hj hji e he).symm
      · rw [update_of_ne hki] at hf
        exact h.apart j hj k hk hjk e he f hf
  bound := by
    intro j hj e he
    by_cases hji : j = i
    · rw [hji, update_self] at he
      exact hbound e he
    · rw [update_of_ne hji] at he
      exact Nat.lt_of_lt_of_le (h.bound j hj e he) hfresh
  placed := by
    intro j hj e he
    rw [hs.index]
    by_cases hji : j = i
    · rw [hji, update_self] at he
      rw [hji]
      exact hplaced e he
    · rw [update_of_ne hji] at he
      exact h.placed j hj e he

/-- An insertion puts the copied pair in front of its chain. -/
theorem insert_spec (h : Layout d C) (hk : stlDictItemCheckType key = true)
    (hv : stlDictItemCheckType value = true) (hi : d.index key = some i) (hlt : i < dictInitSize)
    (hcopy : d.index (copy key value).1 = some i) :
    ∃ d', d.stlDictInsert copy key value = some (d', 0) ∧ SameCalls d d' ∧
      d'.count = d.count + 1 ∧
      Layout d' (Function.update C i ((d.fresh, copy key value) :: C i)) := by
  have hset := Nat.lt_of_lt_of_le hlt h.capacity
  let pair : StlDictItemPair P := ⟨(copy key value).1, (copy key value).2, d.buckets i⟩
  let d' : StlDict P :=
    { d with
      heap := Function.update d.heap d.fresh (some pair)
      fresh := d.fresh + 1
      buckets := Function.update d.buckets i (some d.fresh)
      count := d.count + 1 }
  refine ⟨d', ?_, ⟨rfl, rfl, rfl⟩, rfl, ?_⟩
  · simp [StlDict.stlDictInsert, hk, hv, hi, StlDict.stlDictItemPairInsert, h.bucket_eq hlt,
      StlDict.setBucket, hset, d', pair]
  · have hold : ∀ j < dictInitSize, ∀ e ∈ C j, e.1 ≠ d.fresh :=
      fun j hj e he => Nat.ne_of_lt (h.bound j hj e he)
    refine @Layout.update P d d' C i h ⟨rfl, rfl, rfl⟩ rfl (Nat.le_succ _) _ ?_ ?_ ?_ ?_ ?_ ?_
    · intro j hj
      exact ⟨update_of_ne hj _ _, fun e he hjl => update_of_ne (hold j hjl e he) _ _⟩
    · have hpush := (h.chain i hlt).push (x := pair) (hold i hlt) rfl
      have hb : d'.buckets i = some d.fresh := update_self _ _ _
      rw [hb]
      exact hpush
    · rw [List.map_cons, List.nodup_cons]
      refine ⟨?_, h.nodup i hlt⟩
      intro hmem
      obtain ⟨e, he, hef⟩ := List.mem_map.mp hmem
      exact hold i hlt e he hef
    · intro e he j hj hji f hf
      rcases List.mem_cons.mp he with rfl | he
      · exact (hold j hj f hf).symm
      · exact h.apart i hlt j hj hji.symm e he f hf
    · intro e he
      rcases List.mem_cons.mp he with rfl | he
      · exact Nat.lt_succ_self _
      · exact Nat.lt_succ_of_lt (h.bound i hlt e he)
    · intro e he
      rcases List.mem_cons.mp he with rfl | he
      · exact hcopy
      · exact h.placed i hlt e he

section Delete
variable (h : Layout d C) (hk : stlDictItemCheckType key = true) (hi : d.index key = some i)
  (hlt : i < dictInitSize)
include h hk hi hlt

theorem delete_head {e : Entry P} {v : List (Entry P)} (hC : C i = e :: v)
    (hr : d.findFrom key (d.fresh + 1) none (d.buckets i) = some (none, some e.1)) :
    ∃ d', d.stlDictDelete key = some (d', 0) ∧ SameCalls d d' ∧ d'.count = d.count - 1 ∧
      Layout d' (Function.update C i []) := by
  have hset := Nat.lt_of_lt_of_le hlt h.capacity
  have hmem : e ∈ C i := by
    rw [hC]
    exact List.mem_cons_self
  obtain ⟨y, hy, -⟩ := (h.chain i hlt).node hmem
  let d' : StlDict P :=
    { d with
      buckets := Function.update d.buckets i none
      count := d.count - 1
      heap := Function.update d.heap e.1 none }
  refine ⟨d', ?_, ⟨rfl, rfl, rfl⟩, rfl, ?_⟩
  · simp [StlDict.stlDictDelete, hk, hi, StlDict.stlDictItemPairDelete, h.bucket_eq hlt, hr, hy,
      StlDict.unlinkPair, StlDict.setBucket, hset, d']
  · refine @Layout.update P d d' C i h ⟨rfl, rfl, rfl⟩ rfl (Nat.le_refl _) _ ?_ ?_ ?_ ?_ ?_ ?_
    · intro j hj
      refine ⟨update_of_ne hj _ _, fun f hf hjl => update_of_ne ?_ _ _⟩
      exact (h.apart i hlt j hjl hj.symm e hmem f hf).symm
    · exact update_self _ _ _
    · exact List.nodup_nil
    · simp
    · simp
    · simp

theorem delete_behind {w v : List (Entry P)} {a e : Entry P} (hC : C i = w ++ a :: e :: v)
    (hr : d.findFrom key (d.fresh + 1) none (d.buckets i) = some (some a.1, some e.1)) :
    ∃ d', d.stlDictDelete key = some (d', 0) ∧ SameCalls d d' ∧ d'.count = d.count - 1 ∧
      Layout d' (Function.update C i (w ++ a :: v)) := by
  have hchain := h.chain i hlt
  have hnodup := h.nodup i hlt
  have hamem : a ∈ C i := by
    rw [hC]
    simp
  have hmem : e ∈ C i := by
    rw [hC]
    simp
  have hsub : w ++ a :: v ⊆ C i := by
    rw [hC]
    intro f hf
    simp only [List.mem_append, List.mem_cons] at hf ⊢
    tauto
  obtain ⟨x, hx, -⟩ := hchain.node hamem
  obtain ⟨y, hy, -⟩ := hchain.node hmem
  let x' : StlDictItemPair P := { x with next := y.next }
  let d' : StlDict P :=
    { d with
      count := d.count - 1
      heap := Function.update (Function.update d.heap a.1 (some x')) e.1 none }
  rw [hC] at hchain hnodup
  refine ⟨d', ?_, ⟨rfl, rfl, rfl⟩, rfl, ?_⟩
  · simp [StlDict.stlDictDelete, hk, hi, StlDict.stlDictItemPairDelete, h.bucket_eq hlt, hr, hy,
      hx, StlDict.unlinkPair, d', x']
  · refine @Layout.update P d d' C i h ⟨rfl, rfl, rfl⟩ rfl (Nat.le_refl _) _ ?_ ?_ ?_ ?_ ?_ ?_
    · intro j hj
      refine ⟨rfl, fun f hf hjl => ?_⟩
      have hfe := (h.apart i hlt j hjl hj.symm e hmem f hf).symm
      have hfa := (h.apart i hlt j hjl hj.symm a hamem f hf).symm
      exact (update_of_ne hfe _ _).trans (update_of_ne hfa _ _)
    · exact hchain.unlink hnodup hx hy rfl
    · refine hnodup.sublist (List.Sublist.map _ ?_)
      exact (List.Sublist.refl w).append ((List.sublist_cons_self e v).cons_cons a)
    · intro f hf j hj hji g hg
      exact h.apart i hlt j hj hji.symm f (hsub hf) g hg
    · intro f hf
      exact h.bound i hlt f (hsub hf)
    · intro f hf
      exact h.placed i hlt f (hsub hf)

/-- A deletion leaves `leftover` of the chain and counts one pair less on a hit. -/
theorem delete_spec : ∃ d', d.stlDictDelete key = some (d', 0) ∧ SameCalls d d' ∧
    d'.count = d.count - (if ∃ e ∈ C i, d.hits key e = true then 1 else 0) ∧
    Layout d' (Function.update C i (leftover (d.hits key) (C i))) := by
  have hfuel := Nat.lt_succ_of_le (length_le_of_lt (h.nodup i hlt) (h.bound i hlt))
  rcases findFrom_spec key none (h.chain i hlt) hfuel with
    ⟨hmiss, r, hr⟩ | ⟨u, e, v, hC, hu, hhit, hr⟩
  · refine ⟨d, ?_, ⟨rfl, rfl, rfl⟩, ?_, ?_⟩
    · simp [StlDict.stlDictDelete, hk, hi, StlDict.stlDictItemPairDelete, h.bucket_eq hlt, hr]
    · have hnone : ¬ ∃ e ∈ C i, d.hits key e = true := by
        rintro ⟨e, he, hhit⟩
        rw [hmiss e he] at hhit
        cases hhit
      rw [if_neg hnone]
      simp
    · rw [leftover_miss hmiss, update_eq_self]
      exact h
  · have hany : ∃ f ∈ C i, d.hits key f = true := ⟨e, by rw [hC]; simp, hhit⟩
    rw [if_pos hany]
    rcases List.eq_nil_or_concat' u with rfl | ⟨w, a, rfl⟩
    · have hleft : leftover (d.hits key) (C i) = [] := by
        rw [hC, List.nil_append, leftover, if_pos hhit]
      rw [hleft]
      exact delete_head h hk hi hlt hC hr
    · have hleft : leftover (d.hits key) (C i) = w ++ a :: v := by
        rw [hC, leftover_hit hu hhit (by simp)]
        simp
      rw [hleft]
      rw [lastAddr_append] at hr
      exact delete_behind h hk hi hlt (by rw [hC]; simp) hr

end Delete

end KirinFS.Dict
