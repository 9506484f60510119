import KirinFS.Dict.Chains

/-! # When a deletion takes exactly one key away

A pair at the head of a chain takes the rest of the chain along, and older
pairs of the same key stay behind. Deletion is exact when neither can happen.
-/

namespace KirinFS.Dict
open Foundation.LinkedChain Function

variable {P E : Type} {m m' : E → Bool} {l : List E}

/-- At most one hit, and none at the head of a longer chain. -/
def LoneHit (m : E → Bool) : List E → Prop
  | [] => True
  | e :: l => if m e then l = [] else l.countP m ≤ 1

instance (m : E → Bool) : (l : List E) → Decidable (LoneHit m l)
  | [] => inferInstanceAs (Decidable True)
  | e :: l => inferInstanceAs (Decidable (if m e then l = [] else l.countP m ≤ 1))

section Lists

theorem countP_eraseP_le (l : List E) (h : l.countP m ≤ 1) : ∀ e ∈ l.eraseP m, m e = false := by
  induction l with
  | nil => simp
  | cons e l ih =>
    by_cases he : m e = true
    · rw [List.eraseP_cons_of_pos he]
      rw [List.countP_cons_of_pos he] at h
      have hzero : l.countP m = 0 := by omega
      intro f hf
      simpa using List.countP_eq_zero.mp hzero f hf
    · rw [List.eraseP_cons_of_neg he]
      rw [List.countP_cons_of_neg he] at h
      intro f hf
      rcases List.mem_cons.mp hf with rfl | hf
      · simpa using he
      · exact ih h f hf

theorem countP_le_of_eraseP (l : List E) (h : ∀ e ∈ l.eraseP m, m e = false) :
    l.countP m ≤ 1 := by
  induction l with
  | nil => simp
  | cons e l ih =>
    by_cases he : m e = true
    · rw [List.eraseP_cons_of_pos he] at h
      rw [List.countP_cons_of_pos he, List.countP_eq_zero.mpr]
      intro f hf
      simp [h f hf]
    · rw [List.eraseP_cons_of_neg he] at h
      rw [List.countP_cons_of_neg he]
      exact ih fun f hf => h f (List.mem_cons_of_mem e hf)

theorem length_eraseP_add [Decidable (∃ e ∈ l, m e = true)] :
    (l.eraseP m).length + (if ∃ e ∈ l, m e = true then 1 else 0) = l.length := by
  by_cases h : ∃ e ∈ l, m e = true
  · obtain ⟨e, he, hm⟩ := h
    have hpos := List.length_pos_of_mem he
    rw [if_pos ⟨e, he, hm⟩, List.length_eraseP_of_mem he hm]
    omega
  · rw [if_neg h, List.eraseP_of_forall_not]
    · rfl
    · intro e he hm
      exact h ⟨e, he, hm⟩

theorem loneHit_iff [Decidable (∃ e ∈ l, m e = true)] : LoneHit m l ↔
    (∀ e ∈ leftover m l, m e = false) ∧
      (leftover m l).length + (if ∃ e ∈ l, m e = true then 1 else 0) = l.length := by
  cases l with
  | nil => simp [LoneHit, leftover]
  | cons e l =>
    by_cases he : m e = true
    · have hany : ∃ f ∈ e :: l, m f = true := ⟨e, by simp, he⟩
      rw [LoneHit, if_pos he, leftover, if_pos he, if_pos hany]
      constructor
      · rintro rfl
        simp
      · rintro ⟨-, hlen⟩
        simpa using hlen
    · have hl : leftover m (e :: l) = (e :: l).eraseP m := by
        rw [leftover, if_neg he, List.eraseP_cons_of_neg he]
      rw [hl, LoneHit, if_neg he, and_iff_left length_eraseP_add, List.eraseP_cons_of_neg he]
      constructor
      · intro h f hf
        rcases List.mem_cons.mp hf with rfl | hf
        · simpa using he
        · exact countP_eraseP_le l h f hf
      · intro h
        exact countP_le_of_eraseP l fun f hf => h f (List.mem_cons_of_mem e hf)

/-- A search for something else does not notice the missing pair. -/
theorem find?_eraseP (h : ∀ e ∈ l, m e = true → m' e = false) :
    (l.eraseP m).find? m' = l.find? m' := by
  induction l with
  | nil => rfl
  | cons e l ih =>
    by_cases he : m e = true
    · rw [List.eraseP_cons_of_pos he, List.find?_cons_of_neg]
      simp [h e (by simp) he]
    · rw [List.eraseP_cons_of_neg he, List.find?_cons, List.find?_cons,
        ih fun f hf => h f (List.mem_cons_of_mem e hf)]

theorem find?_leftover (hl : LoneHit m l) (h : ∀ e ∈ l, m e = true → m' e = false) :
    (leftover m l).find? m' = l.find? m' := by
  cases l with
  | nil => rfl
  | cons e l =>
    by_cases he : m e = true
    · rw [LoneHit, if_pos he] at hl
      subst hl
      rw [leftover, if_pos he, List.find?_cons_of_neg]
      simp [h e (by simp) he]
    · rw [leftover, if_neg he, List.find?_cons, List.find?_cons,
        find?_eraseP fun f hf => h f (List.mem_cons_of_mem e hf)]

end Lists

/-- The comparison is an equivalence that the hash and the stored copies respect. -/
structure Lawful (cmp : StlDictItem P → StlDictItem P → ℤ)
    (hash : StlDictItem P → BitVec 32 → BitVec 32) (copy : PairCopy P) : Prop where
  refl : ∀ a, cmp a a = 0
  symm : ∀ a b, cmp a b = 0 → cmp b a = 0
  trans : ∀ a b c, cmp a b = 0 → cmp b c = 0 → cmp a c = 0
  hash : ∀ a b, cmp a b = 0 → hash a a.len = hash b b.len
  copy : ∀ key value, cmp (copy key value).1 key = 0

/-- The chain of the key has at most one pair for it, and none at the head of a longer chain. -/
def StlDict.Separate (d : StlDict P) (key : StlDictItem P) : Prop :=
  stlDictItemCheckType key = true → ∀ i, d.index key = some i →
    LoneHit (d.hits key) (d.chain i)

/-- The dicts of all runs that delete separate keys only and never hold 2^32 pairs. -/
inductive Tended (cmp : StlDictItem P → StlDictItem P → ℤ)
    (hash : StlDictItem P → BitVec 32 → BitVec 32) (copy : PairCopy P) : StlDict P → Prop where
  | init {size : BitVec 32} {d : StlDict P} (h : stlDictInit size cmp hash = some d) :
    Tended cmp hash copy d
  | insert {d d' : StlDict P} {key value : StlDictItem P} {r : ℤ}
    (hd : Tended cmp hash copy d) (room : d.storedPairs + 1 < 2 ^ 32)
    (h : d.stlDictInsert copy key value = some (d', r)) : Tended cmp hash copy d'
  | delete {d d' : StlDict P} {key : StlDictItem P} {r : ℤ}
    (hd : Tended cmp hash copy d) (hk : d.Separate key)
    (h : d.stlDictDelete key = some (d', r)) : Tended cmp hash copy d'

/-- Deleting the key takes away the key and nothing else, and the count stays true. -/
def DeleteExact (d : StlDict P) (key : StlDictItem P) : Prop :=
  ∃ d' r, d.stlDictDelete key = some (d', r) ∧
    (∀ other, d.cmp other key ≠ 0 → d'.stlDictLookup other = d.stlDictLookup other) ∧
    d'.stlDictLookup key = some none ∧ d'.count.toNat = d'.storedPairs

variable {cmp : StlDictItem P → StlDictItem P → ℤ}
  {hash : StlDictItem P → BitVec 32 → BitVec 32} {copy : PairCopy P} {d d' : StlDict P}
  {C : ℕ → List (Entry P)} {key value : StlDictItem P} {i : ℕ}

structure Counted (cmp : StlDictItem P → StlDictItem P → ℤ)
    (hash : StlDictItem P → BitVec 32 → BitVec 32) (d : StlDict P) (C : ℕ → List (Entry P)) :
    Prop where
  layout : Layout d C
  cmp : d.cmp = cmp
  hash : d.hash = hash
  few : d.storedPairs < 2 ^ 32
  count : d.count = BitVec.ofNat 32 d.storedPairs

theorem Counted.count_toNat (h : Counted cmp hash d C) : d.count.toNat = d.storedPairs := by
  rw [h.count, BitVec.toNat_ofNat, Nat.mod_eq_of_lt h.few]

theorem Lawful.index_eq (hl : Lawful cmp hash copy) (hc : d.cmp = cmp) (hh : d.hash = hash)
    {a b : StlDictItem P} (hab : d.cmp a b = 0) : d.index a = d.index b := by
  rw [StlDict.index, StlDict.index, hh, hl.hash a b (by rw [← hc]; exact hab)]

/-- Replacing one chain changes the number of pairs by the change of its length. -/
theorem Layout.storedPairs_update (h : Layout d C) {l : List (Entry P)}
    (h' : Layout d' (Function.update C i l)) (hi : i < dictInitSize) :
    d'.storedPairs + (C i).length = d.storedPairs + l.length := by
  have hmem := Finset.mem_range.mpr hi
  rw [h.storedPairs_eq, h'.storedPairs_eq, ← Finset.add_sum_erase _ _ hmem,
    ← Finset.add_sum_erase _ (fun j => (C j).length) hmem, update_self]
  have hrest : ∑ j ∈ (Finset.range dictInitSize).erase i, (Function.update C i l j).length =
      ∑ j ∈ (Finset.range dictInitSize).erase i, (C j).length := by
    refine Finset.sum_congr rfl ?_
    intro j hj
    rw [update_of_ne (Finset.ne_of_mem_erase hj)]
  rw [hrest]
  omega

theorem Layout.chain_length_le (h : Layout d C) (hi : i < dictInitSize) :
    (C i).length ≤ d.storedPairs := by
  rw [h.storedPairs_eq, ← Finset.add_sum_erase _ _ (Finset.mem_range.mpr hi)]
  exact Nat.le_add_right _ _

theorem init_layout {size : BitVec 32} (h : stlDictInit size cmp hash = some d) :
    Layout d (fun _ => []) ∧ d.cmp = cmp ∧ d.hash = hash ∧ d.count = 0 := by
  rw [stlDictInit] at h
  split at h
  · cases h
  · cases h
    refine ⟨⟨rfl, ?_, fun _ _ => rfl, fun _ _ => List.nodup_nil, by simp, by simp, by simp⟩, rfl,
      rfl, rfl⟩
    simp only
    split <;> omega

theorem init_counted {size : BitVec 32} (h : stlDictInit size cmp hash = some d) :
    Counted cmp hash d fun _ => [] := by
  obtain ⟨hlay, hc, hh, hcount⟩ := init_layout h
  have hzero := hlay.storedPairs_eq
  simp only [List.length_nil, Finset.sum_const_zero] at hzero
  exact ⟨hlay, hc, hh, by omega, by rw [hcount, hzero]; rfl⟩

theorem insert_counted (hl : Lawful cmp hash copy) (h : Counted cmp hash d C)
    (room : d.storedPairs + 1 < 2 ^ 32) {r : ℤ}
    (hins : d.stlDictInsert copy key value = some (d', r)) :
    ∃ C', Counted cmp hash d' C' := by
  by_cases hk : stlDictItemCheckType key = true ∧ stlDictItemCheckType value = true
  · obtain ⟨i, hlt, hi⟩ := h.layout.index_eq key
    have hcopy : d.index (copy key value).1 = some i := by
      rw [hl.index_eq h.cmp h.hash (by rw [h.cmp]; exact hl.copy key value), hi]
    obtain ⟨q, heq, hs, hcount, hlay⟩ := insert_spec h.layout hk.1 hk.2 hi hlt hcopy
    rw [hins] at heq
    obtain ⟨rfl, -⟩ := Prod.mk.inj (Option.some.inj heq)
    have hsum := h.layout.storedPairs_update hlay hlt
    rw [List.length_cons] at hsum
    have hone : d'.storedPairs = d.storedPairs + 1 := by omega
    refine ⟨_, hlay, hs.cmp.trans h.cmp, hs.hash.trans h.hash, by omega, ?_⟩
    rw [hcount, h.count, hone, BitVec.ofNat_add]
    rfl
  · have hno : ¬ ((stlDictItemCheckType key && stlDictItemCheckType value) = true) := by
      rwa [Bool.and_eq_true]
    rw [StlDict.stlDictInsert, if_neg hno] at hins
    obtain ⟨rfl, -⟩ := Prod.mk.inj (Option.some.inj hins)
    exact ⟨C, h⟩

theorem delete_effect (h : Counted cmp hash d C) (hk : stlDictItemCheckType key = true)
    (hi : d.index key = some i) (hlt : i < dictInitSize) :
    ∃ d', d.stlDictDelete key = some (d', 0) ∧ SameCalls d d' ∧
      Layout d' (Function.update C i (leftover (d.hits key) (C i))) ∧
      d'.storedPairs + (C i).length =
        d.storedPairs + (leftover (d.hits key) (C i)).length ∧
      d'.count = BitVec.ofNat 32
        (d.storedPairs - if ∃ e ∈ C i, d.hits key e = true then 1 else 0) := by
  obtain ⟨d', heq, hs, hcount, hlay⟩ := delete_spec h.layout hk hi hlt
  refine ⟨d', heq, hs, hlay, h.layout.storedPairs_update hlay hlt, ?_⟩
  rw [hcount, h.count]
  by_cases hany : ∃ e ∈ C i, d.hits key e = true
  · have hpos := h.layout.chain_length_le hlt
    have hlen : 0 < (C i).length := by
      obtain ⟨e, he, -⟩ := hany
      exact List.length_pos_of_mem he
    rw [if_pos hany, if_pos hany]
    exact BitVec.ofNat_sub_ofNat_of_le d.storedPairs 1 (by decide) (by omega)
  · rw [if_neg hany, if_neg hany]
    simp

theorem delete_counted (h : Counted cmp hash d C) (hsep : d.Separate key) {r : ℤ}
    (hdel : d.stlDictDelete key = some (d', r)) : ∃ C', Counted cmp hash d' C' := by
  by_cases hk : stlDictItemCheckType key = true
  · obtain ⟨i, hlt, hi⟩ := h.layout.index_eq key
    obtain ⟨q, heq, hs, hlay, hsum, hcount⟩ := delete_effect h hk hi hlt
    rw [hdel] at heq
    obtain ⟨rfl, -⟩ := Prod.mk.inj (Option.some.inj heq)
    have hlone := hsep hk i hi
    rw [h.layout.chain_eq hlt] at hlone
    have hlen := (loneHit_iff.mp hlone).2
    have hstored : d'.storedPairs =
        d.storedPairs - if ∃ e ∈ C i, d.hits key e = true then 1 else 0 := by omega
    have hfew := h.few
    refine ⟨_, hlay, hs.cmp.trans h.cmp, hs.hash.trans h.hash, by omega, ?_⟩
    rw [hcount, hstored]
  · rw [StlDict.stlDictDelete, if_neg hk] at hdel
    obtain ⟨rfl, -⟩ := Prod.mk.inj (Option.some.inj hdel)
    exact ⟨C, h⟩

theorem Tended.counted (hl : Lawful cmp hash copy) (h : Tended cmp hash copy d) :
    ∃ C, Counted cmp hash d C := by
  induction h with
  | init h => exact ⟨_, init_counted h⟩
  | insert _ room h ih =>
    obtain ⟨C, hC⟩ := ih
    exact insert_counted hl hC room h
  | delete _ hk h ih =>
    obtain ⟨C, hC⟩ := ih
    exact delete_counted hC hk h

/-- Lookups of other buckets read chains that a deletion leaves alone. -/
theorem lookup_elsewhere {C' : ℕ → List (Entry P)} (h : Layout d C) (h' : Layout d' C')
    (hs : SameCalls d d') {other : StlDictItem P} {j : ℕ} (hj : d.index other = some j)
    (hlt : j < dictInitSize) (hfind : (C' j).find? (d.hits other) = (C j).find? (d.hits other)) :
    d'.stlDictLookup other = d.stlDictLookup other := by
  by_cases ho : stlDictItemCheckType other = true
  · rw [lookup_spec h ho hj hlt, lookup_spec h' ho ((hs.index other).trans hj) hlt, hs.hits, hfind]
  · rw [lookup_untyped (by simpa using ho), lookup_untyped (by simpa using ho)]

/-- In every dict of such a run the next deletion is exact if and only if its key is separate. -/
theorem delete_exact_iff (hl : Lawful cmp hash copy) (hd : Tended cmp hash copy d)
    (key : StlDictItem P) : DeleteExact d key ↔ d.Separate key := by
  obtain ⟨C, h⟩ := hd.counted hl
  by_cases hk : stlDictItemCheckType key = true
  · obtain ⟨i, hlt, hi⟩ := h.layout.index_eq key
    obtain ⟨d', heq, hs, hlay, hsum, hcount⟩ := delete_effect h hk hi hlt
    have hsep : d.Separate key ↔ LoneHit (d.hits key) (C i) := by
      rw [← h.layout.chain_eq hlt]
      constructor
      · intro hsep
        exact hsep hk i hi
      · intro hlone _ j hj
        obtain rfl := Option.some.inj (hi.symm.trans hj)
        exact hlone
    have hgone : d'.stlDictLookup key = some none ↔
        ∀ e ∈ leftover (d.hits key) (C i), d.hits key e = false := by
      rw [lookup_spec hlay hk ((hs.index key).trans hi) hlt, update_self, hs.hits]
      simp
    have hpos := h.layout.chain_length_le hlt
    have htrue : d'.count.toNat = d'.storedPairs ↔
        (leftover (d.hits key) (C i)).length +
          (if ∃ e ∈ C i, d.hits key e = true then 1 else 0) = (C i).length := by
      have hfew := h.few
      rw [hcount, BitVec.toNat_ofNat, Nat.mod_eq_of_lt (by omega)]
      by_cases hany : ∃ e ∈ C i, d.hits key e = true
      · have hlen : 0 < (C i).length := by
          obtain ⟨e, he, -⟩ := hany
          exact List.length_pos_of_mem he
        rw [if_pos hany]
        omega
      · rw [if_neg hany]
        omega
    rw [hsep, loneHit_iff, ← hgone, ← htrue]
    constructor
    · rintro ⟨d'', r, heq', -, hgone', htrue'⟩
      rw [heq] at heq'
      obtain ⟨rfl, -⟩ := Prod.mk.inj (Option.some.inj heq')
      exact ⟨hgone', htrue'⟩
    · rintro ⟨hgone', htrue'⟩
      refine ⟨d', 0, heq, ?_, hgone', htrue'⟩
      intro other hne
      obtain ⟨j, hjlt, hj⟩ := h.layout.index_eq other
      refine lookup_elsewhere h.layout hlay hs hj hjlt ?_
      by_cases hji : j = i
      · subst hji
        rw [update_self]
        refine find?_leftover (loneHit_iff.mpr ⟨hgone.mp hgone', htrue.mp htrue'⟩) ?_
        intro e _ hhit
        simp only [StlDict.hits, decide_eq_true_eq, decide_eq_false_iff_not] at hhit ⊢
        intro hother
        rw [h.cmp] at hhit hother hne
        exact hne (hl.trans _ _ _ (hl.symm _ _ hother) hhit)
      · rw [update_of_ne hji]
  · have hno : stlDictItemCheckType key = false := by simpa using hk
    refine iff_of_true ⟨d, -1, ?_, fun _ _ => rfl, lookup_untyped hno, h.count_toNat⟩ ?_
    · rw [StlDict.stlDictDelete, if_neg hk]
    · intro hk'
      exact absurd hk' hk

section Examples

def intItem (n : ℕ) : StlDictItem ℕ := ⟨n, 0, 16⟩

def intCmp (a b : StlDictItem ℕ) : ℤ := if a.data = b.data then 0 else 1

def flatHash (_ : StlDictItem ℕ) (_ : BitVec 32) : BitVec 32 := 0

def plainCopy : PairCopy ℕ := fun key value => (key, value)

theorem lawful_intCmp : Lawful intCmp flatHash plainCopy where
  refl a := if_pos rfl
  symm a b h := by
    simp only [intCmp] at h ⊢
    split at h
    · next hab => rw [if_pos hab.symm]
    · cases h
  trans a b c hab hbc := by
    simp only [intCmp] at hab hbc ⊢
    split at hab
    · next h₁ =>
      split at hbc
      · next h₂ => rw [if_pos (h₁.trans h₂)]
      · cases hbc
    · cases hab
  hash _ _ _ := rfl
  copy _ _ := if_pos rfl

def addKey (d : StlDict ℕ) (n : ℕ) : StlDict ℕ :=
  ((d.stlDictInsert plainCopy (intItem n) (intItem n)).map Prod.fst).getD d

/-- The keys inserted into a new dict, the last one at the head of the chain. -/
def withKeys (keys : List ℕ) : StlDict ℕ :=
  keys.foldl addKey ⟨64, 0, 64, fun _ => none, fun _ => none, 0, intCmp, flatHash⟩

theorem tended_addKey {d : StlDict ℕ} (hd : Tended intCmp flatHash plainCopy d)
    (room : d.storedPairs + 1 < 2 ^ 32) (n : ℕ) :
    Tended intCmp flatHash plainCopy (addKey d n) := by
  rw [addKey]
  cases h : d.stlDictInsert plainCopy (intItem n) (intItem n) with
  | none => exact hd
  | some r => exact hd.insert room h

theorem tended_one : Tended intCmp flatHash plainCopy (withKeys [1]) :=
  tended_addKey (.init (rfl : stlDictInit 1 intCmp flatHash = some _)) (by decide +kernel) 1

theorem tended_two : Tended intCmp flatHash plainCopy (withKeys [1, 2]) :=
  tended_addKey tended_one (by decide +kernel) 2

theorem tended_three : Tended intCmp flatHash plainCopy (withKeys [1, 1, 2]) :=
  tended_addKey (tended_addKey tended_one (by decide +kernel) 1) (by decide +kernel) 2

theorem delete_exact_tail : DeleteExact (withKeys [1, 2]) (intItem 1) := by
  refine (delete_exact_iff lawful_intCmp tended_two (intItem 1)).mpr ?_
  intro _ i hi
  obtain rfl : 0 = i := Option.some.inj hi
  decide +kernel

/-- A key at the head of a chain takes another key along, and an older pair of a key stays. -/
theorem delete_inexact :
    (Tended intCmp flatHash plainCopy (withKeys [1, 2]) ∧
        ¬ DeleteExact (withKeys [1, 2]) (intItem 2)) ∧
      Tended intCmp flatHash plainCopy (withKeys [1, 1, 2]) ∧
        ¬ DeleteExact (withKeys [1, 1, 2]) (intItem 1) := by
  refine ⟨⟨tended_two, ?_⟩, tended_three, ?_⟩
  · rintro ⟨d', r, heq, hother, -, -⟩
    have hafter : ((withKeys [1, 2]).stlDictDelete (intItem 2)).map
        (fun r => (r.1.stlDictLookup (intItem 1)).map Option.isSome) = some (some false) := by
      decide +kernel
    have hbefore : ((withKeys [1, 2]).stlDictLookup (intItem 1)).map Option.isSome =
        some true := by decide +kernel
    rw [heq, Option.map_some, hother (intItem 1) (by decide), hbefore] at hafter
    exact absurd hafter (by decide)
  · rintro ⟨d', r, heq, -, hgone, -⟩
    have hafter : ((withKeys [1, 1, 2]).stlDictDelete (intItem 1)).map
        (fun r => (r.1.stlDictLookup (intItem 1)).map Option.isSome) = some (some true) := by
      decide +kernel
    rw [heq, Option.map_some, hgone] at hafter
    exact absurd hafter (by decide)

end Examples

end KirinFS.Dict
