import KirinFS.Radix.Session

/-! # The preallocated tree

`stl_radix_tree_alloc` hangs empty nodes below the root. They are invisible to
every call apart from the deletion of a prefix whose node is an empty leaf.
-/

namespace KirinFS.Radix
open Foundation.PrefixTable Foundation.Simulation Foundation.Histories Function

inductive RadixCall where
  | edit (op : RadixOp)
  | find (key : BitVec 32)
  deriving DecidableEq

/-- The deletion loop starts at a leaf without a value. -/
def StlRadixTree.EmptyLeaf (t : StlRadixTree) (key mask : BitVec 32) : Prop :=
  ∃ n, t.seek key mask 33 0 t.root = some (some n) ∧
    ¬ ((t.node n).right.isSome ∨ (t.node n).left.isSome) ∧ (t.node n).value = noValue

namespace RadixCall

def Valid : RadixCall → Prop
  | edit op => op.Valid
  | find _ => True

instance : (c : RadixCall) → Decidable c.Valid
  | edit op => inferInstanceAs (Decidable op.Valid)
  | find _ => inferInstanceAs (Decidable True)

/-- The call on the tree, with a status or a value for an answer. -/
def step (alloc : RadixAlloc) (t : StlRadixTree) :
    RadixCall → Option (StlRadixTree × (ℤ ⊕ Word))
  | edit op => (op.step alloc t).map fun r => (r.1, .inl r.2)
  | find key => (t.stlRadix32treeFind key).map fun v => (t, .inr v)

def spec (T : Table Word) : RadixCall → Table Word × (ℤ ⊕ Word)
  | edit op => ((op.spec T).1, .inl (op.spec T).2)
  | find key => (T, .inr (bestMatch T key))

def SparesEmptyLeaves (t : StlRadixTree) : RadixCall → Prop
  | edit (.delete key len) => ¬ t.EmptyLeaf key (netmask len)
  | _ => True

end RadixCall

/-- The tree holds the values of the table. It may have empty leaves. -/
def HoldsTable (t : StlRadixTree) (T : Table Word) : Prop :=
  ∃ pos l, Sound t pos l ∧ valueAt t pos = T

variable {alloc : RadixAlloc} {t : StlRadixTree} {T : Table Word} {pos : Places} {l : List ℕ}

theorem Represents.holdsTable (h : Represents t T) : HoldsTable t T := by
  obtain ⟨pos, l, hs, hval, -⟩ := h
  exact ⟨pos, l, hs, hval⟩

section Calls

theorem Sound.emptyLeaf_iff (h : Sound t pos l) (key : BitVec 32) {len : ℕ} (hlen : len ≤ 32) :
    t.EmptyLeaf key (netmask len) ↔ Taken t pos (path (keyBit key) len) ∧
      valueAt t pos (path (keyBit key) len) = none := by
  have hseek := seek_spec key h.layout (leads_netmask hlen) (Nat.zero_le len)
    (by omega : len < 33 + 0)
  have hroot : t.root = pos (path (keyBit key) 0) := h.layout.root
  rw [← hroot] at hseek
  rw [StlRadixTree.EmptyLeaf, hseek, Taken]
  cases hp : pos (path (keyBit key) len) with
  | none => simp [valueAt_none hp]
  | some n =>
    have hkids := h.layout.bare_iff hp
    rw [valueAt_some hp]
    constructor
    · rintro ⟨m, hm, hleaf, hv⟩
      obtain rfl := Option.some.inj (Option.some.inj hm)
      exact ⟨Or.inr ⟨rfl, hkids.mp hleaf⟩, if_pos hv⟩
    · rintro ⟨htaken, hnone⟩
      have hv : (t.node n).value = noValue := by
        by_contra hv
        rw [if_neg hv] at hnone
        cases hnone
      rw [hnone] at htaken
      rcases htaken with hsome | ⟨-, hbare⟩
      · cases hsome
      · exact ⟨n, rfl, hkids.mpr hbare, hv⟩

/-- Only the deletion of an empty leaf is answered otherwise than by the table. -/
theorem call_judged (ha : Allocates alloc) :
    Judges (RadixCall.step alloc) RadixCall.spec HoldsTable RadixCall.Valid
      RadixCall.SparesEmptyLeaves := by
  rintro t T c ⟨pos, l, hs, rfl⟩ hv
  cases c with
  | find key =>
    refine ⟨t, .inr (bestMatch (valueAt t pos) key), valueAt t pos, ?_, ⟨pos, l, hs, rfl⟩,
      iff_of_true rfl trivial, fun _ => rfl⟩
    rw [RadixCall.step, find_spec hs.layout key]
    rfl
  | edit op =>
    cases op with
    | insert key len value =>
      obtain ⟨hlen, hne⟩ := hv
      rcases insert_spec key ha hs (leads_netmask hlen) value with
        ⟨hsome, heq⟩ | ⟨hnone, t', pos', l', heq, hi⟩
      · refine ⟨t, .inl (-3), valueAt t pos, ?_, ⟨pos, l, hs, rfl⟩, iff_of_true ?_ trivial, ?_⟩
        · rw [RadixCall.step, RadixOp.step, heq]
          rfl
        · rw [RadixCall.spec, RadixOp.spec, if_pos hsome]
        · rw [RadixCall.spec, RadixOp.spec, if_pos hsome]
          exact fun _ => rfl
      · have hval := hi.values
        rw [if_neg hne] at hval
        have hnot : ¬ (valueAt t pos (path (keyBit key) len)).isSome := by simp [hnone]
        refine ⟨t', .inl 0, _, ?_, ⟨pos', l', hi.sound, hval⟩, iff_of_true ?_ trivial, ?_⟩
        · rw [RadixCall.step, RadixOp.step, heq]
          rfl
        · rw [RadixCall.spec, RadixOp.spec, if_neg hnot]
        · rw [RadixCall.spec, RadixOp.spec, if_neg hnot]
          exact fun _ => rfl
    | delete key len =>
      obtain ⟨hpos, hlen⟩ := hv
      have hleaf := hs.emptyLeaf_iff key hlen
      rw [RadixCall.SparesEmptyLeaves, hleaf, not_and]
      rcases delete_cases key hs (leads_netmask hlen) hpos with
        ⟨hnot, heq⟩ | ⟨htaken, t', pos', l', heq, hs', hval, -⟩
      · have hnone : ¬ (valueAt t pos (path (keyBit key) len)).isSome :=
          fun hsome => hnot (Or.inl hsome)
        refine ⟨t, .inl (-1), valueAt t pos, ?_, ⟨pos, l, hs, rfl⟩,
          iff_of_true ?_ fun htaken => absurd htaken hnot, ?_⟩
        · rw [RadixCall.step, RadixOp.step, heq]
          rfl
        · rw [RadixCall.spec, RadixOp.spec, if_neg hnone]
        · rw [RadixCall.spec, RadixOp.spec, if_neg hnone]
          exact fun _ => rfl
      · refine ⟨t', .inl 0, _, ?_, ⟨pos', l', hs', hval⟩, ?_, ?_⟩
        · rw [RadixCall.step, RadixOp.step, heq]
          rfl
        · rw [RadixCall.spec, RadixOp.spec]
          by_cases hsome : (valueAt t pos (path (keyBit key) len)).isSome
          · rw [if_pos hsome]
            refine iff_of_true rfl ?_
            intro _ hnone
            rw [hnone] at hsome
            cases hsome
          · rw [if_neg hsome]
            refine iff_of_false (by simp) ?_
            intro hgood
            exact hgood htaken (Option.not_isSome_iff_eq_none.mp hsome)
        · intro hgood
          rw [RadixCall.spec, RadixOp.spec,
            if_pos (Option.isSome_iff_ne_none.mpr (hgood htaken))]

end Calls

section Levels

/-- One more level of nodes for a table without values. -/
theorem fillLevel_spec (ha : Allocates alloc) {len r fuel : ℕ} (hlen : len ≤ 32)
    {key inc : BitVec 32} (hinc : 0 < inc.toNat) (hr : key.toNat + r * inc.toNat = 2 ^ 32)
    (hpos : 0 < r) (hf : r ≤ fuel) (h : HoldsTable t fun _ => none) :
    ∃ t', fillLevel alloc (netmask len) inc fuel key t = some (some t') ∧
      HoldsTable t' fun _ => none := by
  induction fuel generalizing key r t with
  | zero => omega
  | succ fuel ih =>
    obtain ⟨pos, l, hs, hval⟩ := h
    rcases insert_spec key ha hs (leads_netmask hlen) noValue with
      ⟨hsome, -⟩ | ⟨-, t', pos', l', heq, hi⟩
    · rw [hval] at hsome
      cases hsome
    · have hval' : valueAt t' pos' = fun _ => none := by
        rw [hi.values, hval, if_pos rfl]
        exact update_eq_self_iff.mpr rfl
      have hnext : HoldsTable t' fun _ => none := ⟨pos', l', hi.sound, hval'⟩
      have hsum : (key + inc).toNat = (key.toNat + inc.toNat) % 2 ^ 32 := BitVec.toNat_add _ _
      rw [fillLevel, heq, Option.bind_some, if_neg (by simp)]
      by_cases hlast : r = 1
      · subst hlast
        have hzero : key + inc = 0 := by
          apply BitVec.eq_of_toNat_eq
          rw [hsum, ← Nat.one_mul inc.toNat, hr]
          rfl
        rw [if_neg (not_not.mpr hzero)]
        exact ⟨t', rfl, hnext⟩
      · obtain ⟨r, rfl⟩ : ∃ r', r = r' + 1 := ⟨r - 1, by omega⟩
        have hstep : (r + 1) * inc.toNat = r * inc.toNat + inc.toNat := Nat.succ_mul r _
        have hmul : 0 < r * inc.toNat := Nat.mul_pos (by omega) hinc
        have hkey : (key + inc).toNat = key.toNat + inc.toNat := by
          rw [hsum, Nat.mod_eq_of_lt (by omega)]
        have hne : key + inc ≠ 0 := by
          intro hzero
          rw [hzero] at hkey
          simp at hkey
          omega
        rw [if_pos hne]
        exact ih (by omega : (key + inc).toNat + r * inc.toNat = 2 ^ 32) (by omega) (by omega) hnext

theorem netmask_succ : ∀ i < 32, netmask i >>> 1 ||| 0x80000000#32 = netmask (i + 1) := by
  decide

theorem two_pow_mul_bitAt : ∀ i < 32, 2 ^ (i + 1) * (bitAt i).toNat = 2 ^ 32 := by
  decide

theorem fillLevels_spec (ha : Allocates alloc) {n i : ℕ} (hn : i + n ≤ 32)
    (h : HoldsTable t fun _ => none) :
    ∃ t', fillLevels alloc n (netmask i) (bitAt i) t = some (some t') ∧
      HoldsTable t' fun _ => none := by
  induction n generalizing i t with
  | zero => exact ⟨t, rfl, h⟩
  | succ n ih =>
    have hi : i < 32 := by omega
    have hlevel := two_pow_mul_bitAt i hi
    have hinc : 0 < (bitAt i).toNat := by
      rcases Nat.eq_zero_or_pos (bitAt i).toNat with hzero | hpos
      · rw [hzero] at hlevel
        omega
      · exact hpos
    have hall : (0 : BitVec 32).toNat + 2 ^ (i + 1) * (bitAt i).toNat = 2 ^ 32 := by
      rw [hlevel]
      rfl
    obtain ⟨t₁, hfill, h₁⟩ := fillLevel_spec ha (by omega : i + 1 ≤ 32) hinc hall
      (Nat.two_pow_pos _) (Nat.pow_le_pow_right Nat.two_pos hi) h
    obtain ⟨t', hrest, h'⟩ := ih (by omega : i + 1 + n ≤ 32) h₁
    refine ⟨t', ?_, h'⟩
    rw [fillLevels, netmask_succ i hi, hfill, Option.bind_some]
    exact hrest

/-- The levels are filled below the tree that `stl_radix_tree_alloc(0)` makes. -/
theorem treeAlloc_levels {pagesize : ℕ}
    (h : stlRadixTreeAlloc alloc pagesize 0 = some (some t)) (k : ℕ) :
    stlRadixTreeAlloc alloc pagesize k = fillLevels alloc k 0 0x80000000#32 t := by
  rw [stlRadixTreeAlloc] at h ⊢
  cases hroot : alloc bareTree with
  | none =>
    rw [hroot] at h
    cases h
  | some r =>
    obtain ⟨root, t₁⟩ := r
    rw [hroot] at h
    simp only at h ⊢
    obtain ⟨t₂, hstore, heq⟩ := Option.bind_eq_some_iff.mp h
    obtain rfl := Option.some.inj (Option.some.inj ((if_pos trivial).symm.trans heq))
    rw [hstore, Option.bind_some]
    by_cases hk : k = 0
    · rw [hk]
      rfl
    · rw [if_neg (by omega), if_neg (by omega), if_neg (by omega), Int.toNat_natCast]

end Levels

/-- The plain tree answers every call as the table does. -/
theorem call_simulates (ha : Allocates alloc) :
    Simulates (RadixCall.step alloc) RadixCall.spec Represents RadixCall.Valid := by
  intro t T c hr hv
  cases c with
  | edit op =>
    obtain ⟨t', heq, hr'⟩ := step_simulates ha t T op hr hv
    refine ⟨t', ?_, hr'⟩
    rw [RadixCall.step, heq]
    rfl
  | find key =>
    refine ⟨t, ?_, hr⟩
    rw [RadixCall.step, hr.find key]
    rfl

/-- A preallocated tree answers as the plain one exactly in the runs that delete no empty leaf
of it. -/
theorem preallocated_same_iff (ha : Allocates alloc) (pagesize : ℕ) {k : ℕ} (hk : k ≤ 32)
    {calls : List RadixCall} (hcalls : ∀ c ∈ calls, c.Valid) :
    ∃ t₀ t₁ t₀' t₁' plain preallocated,
      stlRadixTreeAlloc alloc pagesize 0 = some (some t₀) ∧
      stlRadixTreeAlloc alloc pagesize k = some (some t₁) ∧
      runs (RadixCall.step alloc) t₀ calls = some (t₀', plain) ∧
      runs (RadixCall.step alloc) t₁ calls = some (t₁', preallocated) ∧
      (preallocated = plain ↔ Along (fun t c => (RadixCall.step alloc t c).map Prod.fst)
        RadixCall.SparesEmptyLeaves t₁ calls) := by
  obtain ⟨t₀, hnew, hr⟩ := treeAlloc_spec ha pagesize
  obtain ⟨t₀', hrun, -⟩ := (call_simulates ha).runs hr hcalls
  obtain ⟨t₁, hfill, htable⟩ := fillLevels_spec ha (by omega : 0 + k ≤ 32) hr.holdsTable
  have hpre : stlRadixTreeAlloc alloc pagesize k = some (some t₁) :=
    (treeAlloc_levels hnew k).trans hfill
  obtain ⟨t₁', rs, hrun', hiff⟩ := (call_judged ha).runs_iff htable hcalls
  exact ⟨t₀, t₁, t₀', t₁', _, rs, hnew, hpre, hrun, hrun', hiff⟩

theorem preallocated_same_iff_two : ∃ t₁, stlRadixTreeAlloc carve 4096 2 = some (some t₁) ∧
    Along (fun t c => (RadixCall.step carve t c).map Prod.fst) RadixCall.SparesEmptyLeaves t₁
      [.edit (.insert 0xc0000000 2 7), .edit (.delete 0xc0000000 2), .find 0xc0000000,
        .edit (.delete 0xc0000000 2)] := by
  obtain ⟨t₀, t₁, t₀', t₁', plain, preallocated, h₀, h₁, hrun₀, hrun₁, hiff⟩ :=
    preallocated_same_iff carve_allocates 4096 (by decide : 2 ≤ 32)
      (by decide : ∀ c ∈ [RadixCall.edit (.insert 0xc0000000 2 7), .edit (.delete 0xc0000000 2),
        .find 0xc0000000, .edit (.delete 0xc0000000 2)], c.Valid)
  cases h₀
  cases h₁
  cases hrun₀
  cases hrun₁
  exact ⟨_, rfl, hiff.mp rfl⟩

/-- Deleting `1/1` from trees without any prefix. -/
theorem not_preallocated_same :
    ∃ t₀ t₁ t₀' t₁', stlRadixTreeAlloc carve 4096 0 = some (some t₀) ∧
      stlRadixTreeAlloc carve 4096 1 = some (some t₁) ∧
      runs (RadixCall.step carve) t₀ [.edit (.delete 0x80000000 1)] = some (t₀', [.inl (-1)]) ∧
      runs (RadixCall.step carve) t₁ [.edit (.delete 0x80000000 1)] = some (t₁', [.inl 0]) :=
  ⟨_, _, _, _, rfl, rfl, rfl, rfl⟩

end KirinFS.Radix
