import KirinFS.Dict.Addresses

/-! # Taking a dict down

`stl_dict_deinit` destroys a pair and then follows the link in it, and it
releases the bucket array inside of the loop over the buckets.
-/

namespace KirinFS.Dict
open Foundation.LinkedChain Function

variable {P : Type}

/-- The effects of `stl_dict_deinit` whose order matters. -/
inductive DeinitEvent where
  /-- `buckets[i]` is looked at. -/
  | visit (i : ℕ)
  /-- `stl_dict_item_pair_destroy` on the pair at `n`. -/
  | destroy (n : ℕ)
  /-- `free(dict->buckets)`. -/
  | release
  deriving DecidableEq

namespace StlDict

/-- `stl_dict_item_pair_destroy`. Another `free` of the pair is undefined. -/
def stlDictItemPairDestroy (d : StlDict P) (n : ℕ) : Option (StlDict P) :=
  (d.heap n).map fun _ => { d with heap := update d.heap n none }

def freeBuckets (d : StlDict P) : Option (StlDict P) :=
  if d.capacity = 0 then none else some { d with capacity := 0 }

/-- The inner loop of `stl_dict_deinit`. The link is read after the pair has been destroyed. -/
def destroyFrom : (fuel : ℕ) → (d : StlDict P) → (head : Option ℕ) →
    Option (StlDict P × List DeinitEvent)
  | 0, _, _ => none
  | _ + 1, d, none => some (d, [])
  | fuel + 1, d, some n =>
    (d.stlDictItemPairDestroy n).bind fun d =>
      (d.heap n).bind fun x =>
        (destroyFrom fuel d x.next).map fun (d, log) => (d, .destroy n :: log)

/-- The outer loop of `stl_dict_deinit` from bucket `i`. -/
def deinitFrom : (fuel : ℕ) → (d : StlDict P) → (i : ℕ) → (ret : ℤ) →
    Option (StlDict P × ℤ × List DeinitEvent)
  | 0, _, _, _ => none
  | fuel + 1, d, i, ret =>
    if i < d.maxCount then
      (d.bucket i).bind fun
        | none => (deinitFrom fuel d (i + 1) ret).map fun (d, r, log) => (d, r, .visit i :: log)
        | some n =>
          (destroyFrom (d.fresh + 1) d (some n)).bind fun (d, destroyed) =>
            ({ d with count := 0 } : StlDict P).freeBuckets.bind fun d =>
              (deinitFrom fuel { d with maxCount := 0 } (i + 1) 0).map fun (d, r, log) =>
                (d, r, .visit i :: destroyed ++ .release :: log)
    else some (d, ret, [])

/-- `stl_dict_deinit` with its effects in their order. -/
def stlDictDeinit (d : StlDict P) : Option (StlDict P × ℤ × List DeinitEvent) :=
  deinitFrom (d.maxCount + 1) d 0 (-1)

def storedAddrs (d : StlDict P) : List ℕ :=
  (List.range d.maxCount).flatMap fun i => (d.chain i).map Prod.fst

end StlDict

def visited (log : List DeinitEvent) : List ℕ :=
  log.filterMap fun
    | .visit i => some i
    | _ => none

def destroyed (log : List DeinitEvent) : List ℕ :=
  log.filterMap fun
    | .destroy n => some n
    | _ => none

/-- Every stored pair is destroyed once and not read afterwards, the array is released once behind
the last bucket, and an empty dict is left. -/
def DeinitsWell (d : StlDict P) : Prop :=
  ∃ d' log, d.stlDictDeinit = some (d', 0, log ++ [.release]) ∧ d'.count = 0 ∧
    (destroyed log).Perm d.storedAddrs ∧ .release ∉ log ∧ visited log = List.range d.maxCount

variable {d : StlDict P}

/-- No pair outlives its destruction, so the first link that is followed is lost. -/
theorem destroyFrom_some (fuel n : ℕ) : StlDict.destroyFrom fuel d (some n) = none := by
  cases fuel with
  | zero => rfl
  | succ fuel =>
    rw [StlDict.destroyFrom, StlDict.stlDictItemPairDestroy]
    cases d.heap n with
    | none => rfl
    | some x => simp

theorem Closed.deinitFrom_eq (h : Closed d) (r : ℤ) {fuel i : ℕ}
    (hfuel : dictInitSize - i < fuel) :
    StlDict.deinitFrom fuel d i r =
      if ∀ j, i ≤ j → j < dictInitSize → d.buckets j = none then
        some (d, r, (List.range' i (dictInitSize - i)).map .visit)
      else none := by
  induction fuel generalizing i with
  | zero => cases hfuel
  | succ fuel ih =>
    rw [StlDict.deinitFrom, h.maxCount]
    by_cases hi : i < dictInitSize
    · rw [if_pos hi, h.bucket_eq hi, Option.bind_some]
      cases hb : d.buckets i with
      | none =>
        dsimp only
        rw [ih (by omega)]
        have hstep : (∀ j, i ≤ j → j < dictInitSize → d.buckets j = none) ↔
            ∀ j, i + 1 ≤ j → j < dictInitSize → d.buckets j = none := by
          constructor
          · exact fun hall j hij => hall j (Nat.le_of_succ_le hij)
          · intro hall j hij hj
            rcases Nat.eq_or_lt_of_le hij with rfl | hlt
            · exact hb
            · exact hall j hlt hj
        have hrange : dictInitSize - i = dictInitSize - (i + 1) + 1 := by omega
        simp only [hstep]
        rw [hrange, List.range'_succ]
        split <;> rfl
      | some n =>
        have hnot : ¬ ∀ j, i ≤ j → j < dictInitSize → d.buckets j = none := by
          intro hall
          rw [hall i (Nat.le_refl i) hi] at hb
          cases hb
        dsimp only
        rw [destroyFrom_some, if_neg hnot]
        rfl
    · have hall : ∀ j, i ≤ j → j < dictInitSize → d.buckets j = none :=
        fun j hij hj => absurd (Nat.lt_of_le_of_lt hij hj) hi
      have hzero : dictInitSize - i = 0 := by omega
      rw [if_neg hi, if_pos hall, hzero]
      rfl

/-- An empty dict is refused and kept with its array; any other is read after it has been
destroyed. -/
theorem Closed.deinit_eq (h : Closed d) :
    d.stlDictDeinit =
      if ∀ j < dictInitSize, d.buckets j = none then
        some (d, -1, (List.range dictInitSize).map .visit)
      else none := by
  rw [StlDict.stlDictDeinit, h.maxCount, h.deinitFrom_eq (-1) (by omega),
    List.range_eq_range']
  simp

/-- A pair that has just been inserted is read after it has been destroyed. -/
theorem Closed.prepended_deinit (h : Closed d) {copy : PairCopy P} {key value : StlDictItem P}
    {i : ℕ} (hi : i < dictInitSize) : (d.prepended copy key value i).stlDictDeinit = none := by
  rw [(h.prepended i).deinit_eq, if_neg]
  intro hall
  have hnone := hall i hi
  simp [StlDict.prepended] at hnone

/-- `stl_dict_deinit` takes down no dict. -/
theorem deinit_never (hd : Reached d) : ¬ DeinitsWell d := by
  rintro ⟨d', log, hrun, -⟩
  rw [hd.closed.deinit_eq] at hrun
  split at hrun
  · cases hrun
  · cases hrun

section Examples

theorem deinit_never_empty : ¬ DeinitsWell serviceInfo :=
  deinit_never reached_serviceInfo

/-- With a single pair, its link is read after it has been freed. -/
theorem deinit_one_node : ∃ d, serviceInfo.stlDictInsert strdupCopy (strKey 0x1002000 nodeName 3)
    (strKey 0x4000 nodeName 3) = some (d, 0) ∧ Reached d ∧ d.stlDictDeinit = none ∧
      ¬ DeinitsWell d := by
  have hclosed := reached_serviceInfo.closed
  have hlt : (serviceInfo.hash (strKey 0x1002000 nodeName 3) 3).toNat % dictInitSize <
      dictInitSize := Nat.mod_lt _ (by decide)
  have hrun := hclosed.insert_eq strdupCopy
    (rfl : stlDictItemCheckType (strKey 0x1002000 nodeName 3) = true)
    (rfl : stlDictItemCheckType (strKey 0x4000 nodeName 3) = true) (hclosed.index_eq _) hlt
  have hlost := @Closed.prepended_deinit Located serviceInfo hclosed strdupCopy
    (strKey 0x1002000 nodeName 3) (strKey 0x4000 nodeName 3) _ hlt
  refine ⟨_, hrun, reached_serviceInfo.insert hrun, hlost, ?_⟩
  rintro ⟨d', log, hdone, -⟩
  cases hlost.symm.trans hdone

end Examples

end KirinFS.Dict
