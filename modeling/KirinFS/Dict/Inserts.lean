import KirinFS.Dict.Delete

/-! # What a dict holds after insertions

An insertion never looks for an older pair of its key. It puts the new pair in
front, where lookup meets it first.
-/

namespace KirinFS.Dict
open Foundation.LinkedChain Function

variable {P : Type}

/-- One insertion after the other, with the results. -/
def StlDict.insertAll (copy : PairCopy P) :
    StlDict P → List (StlDictItem P × StlDictItem P) → Option (StlDict P × List ℤ)
  | d, [] => some (d, [])
  | d, c :: calls =>
    (d.stlDictInsert copy c.1 c.2).bind fun r =>
      (insertAll copy r.1 calls).map fun s => (s.1, r.2 :: s.2)

def typed (c : StlDictItem P × StlDictItem P) : Bool :=
  stlDictItemCheckType c.1 && stlDictItemCheckType c.2

def accepted (calls : List (StlDictItem P × StlDictItem P)) :
    List (StlDictItem P × StlDictItem P) :=
  calls.filter typed

section Lists
variable {E : Type}

theorem flatMap_filter_perm (f : E → ℕ) (n : ℕ) (l : List E) :
    ((List.range n).flatMap fun i => l.filter fun e => decide (f e = i)).Perm
      (l.filter fun e => decide (f e < n)) := by
  induction n with
  | zero => simp
  | succ n ih =>
    rw [List.range_succ, List.flatMap_append, List.flatMap_singleton]
    have hsplit := List.filter_append_perm (fun e => decide (f e < n))
      (l.filter fun e => decide (f e < n + 1))
    rw [List.filter_filter, List.filter_filter] at hsplit
    refine (ih.append (List.Perm.refl _)).trans (List.Perm.trans (List.Perm.of_eq ?_) hsplit)
    congr 1 <;> refine List.filter_congr ?_ <;> intro e _
    · by_cases h : f e < n
      · simp [h, Nat.lt_succ_of_lt h]
      · simp [h]
    · rw [← decide_not, ← Bool.decide_and, decide_eq_decide]
      omega

theorem flatMap_range_single {g : ℕ → List E} {n i : ℕ} (hi : i < n)
    (h : ∀ j < n, j ≠ i → g j = []) : (List.range n).flatMap g = g i := by
  induction n with
  | zero => exact absurd hi (Nat.not_lt_zero i)
  | succ n ih =>
    rw [List.range_succ, List.flatMap_append, List.flatMap_singleton]
    by_cases hin : i = n
    · subst hin
      have hnil : (List.range i).flatMap g = [] := by
        rw [List.flatMap_eq_nil_iff]
        intro j hj
        have hji := List.mem_range.mp hj
        exact h j (Nat.lt_succ_of_lt hji) (Nat.ne_of_lt hji)
      rw [hnil, List.nil_append]
    · rw [ih (by omega) fun j hj => h j (Nat.lt_succ_of_lt hj), h n (Nat.lt_succ_self n) (Ne.symm hin),
        List.append_nil]

end Lists

variable {cmp : StlDictItem P → StlDictItem P → ℤ}
  {hash : StlDictItem P → BitVec 32 → BitVec 32} {copy : PairCopy P} {d d' : StlDict P}
  {C : ℕ → List (Entry P)} {calls : List (StlDictItem P × StlDictItem P)} {key : StlDictItem P}

section Dump

theorem dumpFrom_spec {p : Option ℕ} {l : List (Entry P)} {fuel : ℕ}
    (h : Chain StlDict.pairView d.heap p l) (hf : l.length < fuel) :
    d.dumpFrom fuel p = some (l.map Prod.snd) := by
  refine h.walk hf (fun _ => rfl) ?_
  intro fuel e l x hx hv ih
  have hpair : (x.key, x.value) = e.2 := hv
  have hrest : d.dumpFrom fuel x.next = some (l.map Prod.snd) := ih
  rw [StlDict.dumpFrom, hx, Option.bind_some, hrest, hpair]
  rfl

/-- The dump goes through the chains in the order of the buckets. -/
theorem dump_spec (h : Layout d C) :
    d.stlDictDump = some ((List.range dictInitSize).flatMap fun i => (C i).map Prod.snd) := by
  have hloop : ∀ n ≤ dictInitSize, (List.range n).foldlM (fun calls i =>
      (d.bucket i).bind fun head => (d.dumpFrom (d.fresh + 1) head).map (calls ++ ·)) [] =
        some ((List.range n).flatMap fun i => (C i).map Prod.snd) := by
    intro n hn
    induction n with
    | zero => rfl
    | succ n ih =>
      have hlt : n < dictInitSize := hn
      have hfuel := Nat.lt_succ_of_le (length_le_of_lt (h.nodup n hlt) (h.bound n hlt))
      rw [List.range_succ, List.foldlM_append, ih (Nat.le_of_succ_le hn), List.flatMap_append,
        List.flatMap_singleton]
      simp [h.bucket_eq hlt, dumpFrom_spec (h.chain n hlt) hfuel]
  rw [StlDict.stlDictDump, h.maxCount]
  exact hloop dictInitSize (Nat.le_refl _)

end Dump

/-- The chain of a bucket holds the copies of its calls, the newest at the head. -/
structure Filled (cmp : StlDictItem P → StlDictItem P → ℤ)
    (hash : StlDictItem P → BitVec 32 → BitVec 32) (copy : PairCopy P) (d : StlDict P)
    (C : ℕ → List (Entry P)) (stored : List (StlDictItem P × StlDictItem P)) : Prop where
  layout : Layout d C
  cmp : d.cmp = cmp
  hash : d.hash = hash
  count : d.count = BitVec.ofNat 32 stored.length
  chain : ∀ i < dictInitSize, (C i).map Prod.snd =
    (stored.reverse.filter fun c => decide (d.index c.1 = some i)).map fun c => copy c.1 c.2

theorem insert_filled (hl : Lawful cmp hash copy) {stored : List (StlDictItem P × StlDictItem P)}
    (h : Filled cmp hash copy d C stored) {c : StlDictItem P × StlDictItem P}
    (hc : typed c = true) :
    ∃ d' C', d.stlDictInsert copy c.1 c.2 = some (d', 0) ∧
      Filled cmp hash copy d' C' (stored ++ [c]) := by
  obtain ⟨hk, hv⟩ := (Bool.and_eq_true _ _).mp hc
  obtain ⟨i, hlt, hi⟩ := h.layout.index_eq c.1
  have hcopy : d.index (copy c.1 c.2).1 = some i := by
    rw [hl.index_eq h.cmp h.hash (by rw [h.cmp]; exact hl.copy c.1 c.2), hi]
  obtain ⟨d', heq, hs, hcount, hlay⟩ := insert_spec h.layout hk hv hi hlt hcopy
  refine ⟨d', _, heq, hlay, hs.cmp.trans h.cmp, hs.hash.trans h.hash, ?_, ?_⟩
  · rw [hcount, h.count, List.length_append, BitVec.ofNat_add]
    rfl
  · intro j hj
    simp only [hs.index, List.reverse_append, List.reverse_singleton, List.singleton_append]
    by_cases hji : j = i
    · subst hji
      rw [update_self, List.filter_cons_of_pos (by simp [hi]), List.map_cons, List.map_cons,
        h.chain j hj]
    · rw [update_of_ne hji, List.filter_cons_of_neg (by simp [hi, Ne.symm hji]), h.chain j hj]

/-- A run of insertions stores the typed calls and refuses the others. -/
theorem insertAll_filled (hl : Lawful cmp hash copy)
    {stored : List (StlDictItem P × StlDictItem P)} (h : Filled cmp hash copy d C stored)
    (calls : List (StlDictItem P × StlDictItem P)) :
    ∃ d' C', d.insertAll copy calls = some (d', calls.map fun c => if typed c then 0 else -1) ∧
      Filled cmp hash copy d' C' (stored ++ accepted calls) := by
  induction calls generalizing d C stored with
  | nil => exact ⟨d, C, rfl, by simpa [accepted] using h⟩
  | cons c calls ih =>
    by_cases hc : typed c = true
    · obtain ⟨d₁, C₁, heq, h₁⟩ := insert_filled hl h hc
      obtain ⟨d₂, C₂, hrun, h₂⟩ := ih h₁
      refine ⟨d₂, C₂, ?_, ?_⟩
      · rw [StlDict.insertAll, heq, Option.bind_some, hrun]
        simp [hc]
      · rw [accepted, List.filter_cons_of_pos hc]
        simpa [accepted] using h₂
    · obtain ⟨d₂, C₂, hrun, h₂⟩ := ih h
      refine ⟨d₂, C₂, ?_, ?_⟩
      · have hrefused : d.stlDictInsert copy c.1 c.2 = some (d, -1) := if_neg hc
        rw [StlDict.insertAll, hrefused, Option.bind_some, hrun]
        simp [hc]
      · rw [accepted, List.filter_cons_of_neg hc]
        exact h₂

theorem filter_single (hl : Lawful cmp hash copy)
    {stored : List (StlDictItem P × StlDictItem P)}
    (hne : stored.Pairwise fun a b => cmp a.1 b.1 ≠ 0) {c : StlDictItem P × StlDictItem P}
    (hc : c ∈ stored) : stored.filter (fun a => decide (cmp a.1 c.1 = 0)) = [c] := by
  obtain ⟨u, v, rfl⟩ := List.append_of_mem hc
  rw [List.pairwise_append, List.pairwise_cons] at hne
  obtain ⟨-, ⟨hv, -⟩, hu⟩ := hne
  have hbefore : u.filter (fun a => decide (cmp a.1 c.1 = 0)) = [] := by
    rw [List.filter_eq_nil_iff]
    intro a ha hhit
    exact hu a ha c (by simp) (of_decide_eq_true hhit)
  have hafter : v.filter (fun a => decide (cmp a.1 c.1 = 0)) = [] := by
    rw [List.filter_eq_nil_iff]
    intro a ha hhit
    exact hv a ha (hl.symm _ _ (of_decide_eq_true hhit))
  rw [List.filter_append, hbefore, List.filter_cons_of_pos (by simp [hl.refl]), hafter,
    List.nil_append]

namespace Filled
variable {stored : List (StlDictItem P × StlDictItem P)}

theorem stored_hit (hl : Lawful cmp hash copy) (c : StlDictItem P × StlDictItem P) :
    decide (cmp (copy c.1 c.2).1 key = 0) = decide (cmp c.1 key = 0) := by
  rw [decide_eq_decide]
  constructor
  · intro hhit
    exact hl.trans _ _ _ (hl.symm _ _ (hl.copy c.1 c.2)) hhit
  · intro hhit
    exact hl.trans _ _ _ (hl.copy c.1 c.2) hhit

/-- The hits in the chain of a key are the copies of its calls. -/
theorem hits (hl : Lawful cmp hash copy) (h : Filled cmp hash copy d C stored) {i : ℕ}
    (hlt : i < dictInitSize) (hi : d.index key = some i) :
    ((C i).map Prod.snd).filter (fun p => decide (cmp p.1 key = 0)) =
      (stored.reverse.filter fun c => decide (cmp c.1 key = 0)).map fun c => copy c.1 c.2 := by
  rw [h.chain i hlt, List.filter_map, List.filter_filter]
  congr 1
  refine List.filter_congr ?_
  intro c _
  rw [Function.comp_apply, stored_hit hl, Bool.and_eq_left_iff_imp]
  intro hhit
  rw [decide_eq_true_eq] at hhit ⊢
  rw [hl.index_eq h.cmp h.hash (by rw [h.cmp]; exact hhit), hi]

/-- Lookup returns the value of the newest call for the key. -/
theorem lookup (hl : Lawful cmp hash copy) (h : Filled cmp hash copy d C stored)
    (hk : stlDictItemCheckType key = true) :
    ∃ r, d.stlDictLookup key = some r ∧ r.map Prod.snd =
      (stored.reverse.find? fun c => decide (cmp c.1 key = 0)).map fun c => (copy c.1 c.2).2 := by
  obtain ⟨i, hlt, hi⟩ := h.layout.index_eq key
  refine ⟨_, lookup_spec h.layout hk hi hlt, ?_⟩
  have hhits := congrArg List.head? (h.hits hl hlt hi)
  rw [List.head?_filter, List.head?_map, List.head?_filter, List.find?_map] at hhits
  have hview : d.hits key = (fun p : StlDictItem P × StlDictItem P => decide (cmp p.1 key = 0)) ∘
      Prod.snd := by
    funext e
    rw [StlDict.hits, h.cmp]
    rfl
  rw [hview, Option.map_map]
  have hvalue := congrArg (Option.map Prod.snd) hhits
  rw [Option.map_map, Option.map_map] at hvalue
  exact hvalue

theorem dump_perm (h : Filled cmp hash copy d C stored) :
    ((List.range dictInitSize).flatMap fun i => (C i).map Prod.snd).Perm
      (stored.map fun c => copy c.1 c.2) := by
  have hchains : ((List.range dictInitSize).flatMap fun i => (C i).map Prod.snd) =
      ((List.range dictInitSize).flatMap fun i =>
        stored.reverse.filter fun c => decide ((d.index c.1).getD dictInitSize = i)).map
          fun c => copy c.1 c.2 := by
    rw [List.map_flatMap]
    refine List.flatMap_congr ?_
    intro i hi
    rw [h.chain i (List.mem_range.mp hi)]
    congr 1
    refine List.filter_congr ?_
    intro c _
    obtain ⟨j, -, hj⟩ := h.layout.index_eq c.1
    rw [hj, decide_eq_decide, Option.getD_some, Option.some.injEq]
  rw [hchains]
  refine List.Perm.map _ ((flatMap_filter_perm _ _ _).trans ?_)
  rw [List.filter_eq_self.mpr]
  · exact List.reverse_perm stored
  · intro c _
    obtain ⟨j, hlt, hj⟩ := h.layout.index_eq c.1
    rw [hj, decide_eq_true_eq]
    exact hlt

/-- The dump shows the pairs of a key with the newest first. -/
theorem dump_hits (hl : Lawful cmp hash copy) (h : Filled cmp hash copy d C stored)
    (key : StlDictItem P) :
    ((List.range dictInitSize).flatMap fun i => (C i).map Prod.snd).filter
        (fun p => decide (cmp p.1 key = 0)) =
      (stored.reverse.filter fun c => decide (cmp c.1 key = 0)).map fun c => copy c.1 c.2 := by
  obtain ⟨i, hlt, hi⟩ := h.layout.index_eq key
  rw [List.filter_flatMap, flatMap_range_single hlt, h.hits hl hlt hi]
  intro j hj hji
  rw [List.filter_eq_nil_iff]
  intro p hp hhit
  obtain ⟨e, he, rfl⟩ := List.mem_map.mp hp
  have hplaced := h.layout.placed j hj e he
  rw [decide_eq_true_eq, ← h.cmp] at hhit
  rw [hl.index_eq h.cmp h.hash hhit, hi] at hplaced
  exact hji (Option.some.inj hplaced).symm

end Filled

theorem init_filled {size : BitVec 32} (h : stlDictInit size cmp hash = some d) :
    Filled cmp hash copy d (fun _ => []) [] := by
  obtain ⟨hlay, hc, hh, hcount⟩ := init_layout h
  exact ⟨hlay, hc, hh, hcount, fun _ _ => rfl⟩

/-- After insertions into a new dict lookup finds the newest pair of a key, and the dump and the
count are about all stored pairs, of which those for one key come with the newest first. -/
theorem inserted_seen (hl : Lawful cmp hash copy) {size : BitVec 32}
    (hinit : stlDictInit size cmp hash = some d)
    (calls : List (StlDictItem P × StlDictItem P)) :
    ∃ d' shown, d.insertAll copy calls =
        some (d', calls.map fun c => if typed c then 0 else -1) ∧
      d'.stlDictDump = some shown ∧
      (∀ key, stlDictItemCheckType key = true → ∃ r, d'.stlDictLookup key = some r ∧
        r.map Prod.snd = ((accepted calls).reverse.find? fun c => decide (cmp c.1 key = 0)).map
          fun c => (copy c.1 c.2).2) ∧
      shown.Perm ((accepted calls).map fun c => copy c.1 c.2) ∧
      (∀ key, shown.filter (fun p => decide (cmp p.1 key = 0)) =
        ((accepted calls).reverse.filter fun c => decide (cmp c.1 key = 0)).map
          fun c => copy c.1 c.2) ∧
      d'.count = BitVec.ofNat 32 (accepted calls).length ∧
      ((accepted calls).Pairwise (fun a b => cmp a.1 b.1 ≠ 0) → ∀ c ∈ accepted calls,
        shown.filter (fun p => decide (cmp p.1 c.1 = 0)) = [copy c.1 c.2]) := by
  obtain ⟨d', C, hrun, h⟩ := insertAll_filled hl (init_filled hinit) calls
  rw [List.nil_append] at h
  refine ⟨d', _, hrun, dump_spec h.layout, fun key hk => h.lookup hl hk, h.dump_perm,
    h.dump_hits hl, h.count, ?_⟩
  intro hne c hc
  rw [h.dump_hits hl, List.filter_reverse, filter_single hl hne hc]
  rfl

section Examples

def repeated : List (StlDictItem ℕ × StlDictItem ℕ) :=
  [(intItem 1, intItem 5), (intItem 1, intItem 6)]

theorem inserted_seen_repeated : ∃ d d' r, stlDictInit 1 intCmp flatHash = some d ∧
    d.insertAll plainCopy repeated = some (d', [0, 0]) ∧
    d'.stlDictLookup (intItem 1) = some r ∧ r.map (fun e => e.2.data) = some 6 := by
  obtain ⟨d', shown, hrun, -, hlook, -⟩ :=
    inserted_seen lawful_intCmp (rfl : stlDictInit 1 intCmp flatHash = some _) repeated
  obtain ⟨r, hr, hvalue⟩ := hlook (intItem 1) (by decide)
  refine ⟨_, d', r, rfl, hrun, hr, ?_⟩
  have hdata := congrArg (Option.map StlDictItem.data) hvalue
  rw [Option.map_map] at hdata
  exact hdata

/-- The dump shows the repeated key twice, and the count is 2. -/
theorem repeated_shown : Lawful intCmp flatHash plainCopy ∧
    ∃ d d' shown, stlDictInit 1 intCmp flatHash = some d ∧
      d.insertAll plainCopy repeated = some (d', [0, 0]) ∧ d'.stlDictDump = some shown ∧
      shown.countP (fun p => decide (intCmp p.1 (intItem 1) = 0)) ≠ 1 ∧
      (∀ c ∈ repeated, intCmp c.1 (intItem 1) = 0) ∧ d'.count ≠ 1 := by
  refine ⟨lawful_intCmp, _, _, _, rfl, rfl, rfl, ?_, ?_, ?_⟩ <;> decide +kernel

end Examples

end KirinFS.Dict
