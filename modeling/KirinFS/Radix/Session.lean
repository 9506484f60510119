import KirinFS.Foundation.Simulation
import KirinFS.Radix.Delete

/-! # The radix tree is a longest-prefix table

A run of insertions and deletions answers as a table of prefixes does, and
every lookup in the tree it reaches is a longest match in that table.
-/

namespace KirinFS.Radix
open Foundation.PrefixTable Foundation.Simulation Function

/-- A call with the contiguous mask of a prefix length. -/
inductive RadixOp where
  | insert (key : BitVec 32) (len : ℕ) (value : Word)
  | delete (key : BitVec 32) (len : ℕ)
  deriving DecidableEq

namespace RadixOp

def Valid : RadixOp → Prop
  | insert _ len value => len ≤ 32 ∧ value ≠ noValue
  | delete _ len => 1 ≤ len ∧ len ≤ 32

instance : (op : RadixOp) → Decidable op.Valid
  | insert _ len value => inferInstanceAs (Decidable (len ≤ 32 ∧ value ≠ noValue))
  | delete _ len => inferInstanceAs (Decidable (1 ≤ len ∧ len ≤ 32))

def step (alloc : RadixAlloc) (t : StlRadixTree) : RadixOp → Option (StlRadixTree × ℤ)
  | insert key len value => t.stlRadix32treeInsert alloc key (netmask len) value
  | delete key len => t.stlRadix32treeDelete key (netmask len)

def spec (T : Table Word) : RadixOp → Table Word × ℤ
  | insert key len value =>
    if (T (path (keyBit key) len)).isSome then (T, -3)
    else (update T (path (keyBit key) len) (some value), 0)
  | delete key len =>
    if (T (path (keyBit key) len)).isSome then (update T (path (keyBit key) len) none, 0)
    else (T, -1)

end RadixOp

/-- The value of the longest live prefix that matches the key. -/
def bestMatch (T : Table Word) (key : BitVec 32) : Word :=
  (longest T (keyBit key) 33).getD noValue

def Represents (t : StlRadixTree) (T : Table Word) : Prop :=
  ∃ pos l, Sound t pos l ∧ valueAt t pos = T ∧ Pruned T pos ∅

variable {alloc : RadixAlloc} {t : StlRadixTree} {T : Table Word}

theorem Represents.find (h : Represents t T) (key : BitVec 32) :
    t.stlRadix32treeFind key = some (bestMatch T key) := by
  obtain ⟨pos, l, hs, rfl, -⟩ := h
  exact find_spec hs.layout key

theorem Represents.apart (h : Represents t T) (n : ℕ) : ¬ (t.Reachable n ∧ t.OnFree n) := by
  obtain ⟨pos, l, hs, -, -⟩ := h
  exact hs.layout.reachable_not_free hs.free

theorem step_simulates (ha : Allocates alloc) :
    Simulates (RadixOp.step alloc) RadixOp.spec Represents RadixOp.Valid := by
  rintro t T op ⟨pos, l, hs, rfl, hpr⟩ hv
  cases op with
  | insert key len value =>
    obtain ⟨hlen, hne⟩ := hv
    rcases insert_spec key ha hs (leads_netmask hlen) value with
      ⟨hsome, heq⟩ | ⟨hnone, t', pos', l', heq, hi⟩
    · refine ⟨t, ?_, pos, l, hs, ?_, ?_⟩
      · rw [RadixOp.spec, if_pos hsome]
        exact heq
      · rw [RadixOp.spec, if_pos hsome]
      · rw [RadixOp.spec, if_pos hsome]
        exact hpr
    · have hval := hi.values
      rw [if_neg hne] at hval
      have hnot : ¬ (valueAt t pos (path (keyBit key) len)).isSome := by simp [hnone]
      refine ⟨t', ?_, pos', l', hi.sound, ?_, ?_⟩
      · rw [RadixOp.spec, if_neg hnot]
        exact heq
      · rw [RadixOp.spec, if_neg hnot]
        exact hval
      · rw [RadixOp.spec, if_neg hnot, ← hval]
        exact hi.pruned hne hpr
  | delete key len =>
    obtain ⟨hpos, hlen⟩ := hv
    rcases delete_spec key hs (leads_netmask hlen) hpos hpr with
      ⟨hnone, heq⟩ | ⟨hsome, t', pos', l', heq, hd⟩
    · have hnot : ¬ (valueAt t pos (path (keyBit key) len)).isSome := by simp [hnone]
      refine ⟨t, ?_, pos, l, hs, ?_, ?_⟩
      · rw [RadixOp.spec, if_neg hnot]
        exact heq
      · rw [RadixOp.spec, if_neg hnot]
      · rw [RadixOp.spec, if_neg hnot]
        exact hpr
    · refine ⟨t', ?_, pos', l', hd.sound, ?_, ?_⟩
      · rw [RadixOp.spec, if_pos hsome]
        exact heq
      · rw [RadixOp.spec, if_pos hsome]
        exact hd.values
      · rw [RadixOp.spec, if_pos hsome, ← hd.values]
        exact hd.pruned

/-- A tree without nodes promises nothing that it does not keep. -/
theorem promises_bareTree : Promises bareTree [] := by
  have hroot : ∀ n, ¬ bareTree.Reachable n := by
    intro n hn
    induction hn with
    | root h => exact absurd h (by simp [bareTree])
    | child _ _ _ ih => exact ih
  refine ⟨rfl, List.nodup_nil, by simp, ?_⟩
  rintro n (hn | hn)
  · exact absurd hn (hroot n)
  · exact absurd hn List.not_mem_nil

theorem Fresh.represents {r : ℕ} (hfr : Fresh bareTree [] r t) :
    Represents { t with root := some r, node := update t.node r ⟨none, none, none, noValue⟩ }
      fun _ => none := by
  obtain ⟨l', hchain, hsub, -⟩ := hfr.free
  obtain rfl := List.sublist_nil.mp hsub
  have hfree : t.free = none := hchain
  have hcarved := hfr.carved
  refine ⟨fun p => if p = [] then some r else none, [], ⟨?_, ?_, rfl⟩, ?_, ?_⟩
  · refine {
      root := rfl
      child := ?_
      up := ?_
      top := ?_
      inj := ?_
      depth := ?_
      carved := ?_ }
    · intro p n hp b
      by_cases he : p = []
      · rw [if_pos he] at hp
        obtain rfl := Option.some.inj hp
        simp only [update_self]
        cases b <;> rfl
      · rw [if_neg he] at hp
        exact absurd hp (by simp)
    · intro b p n hp
      exact absurd hp (by simp)
    · intro n hp
      obtain rfl := Option.some.inj hp
      simp
    · intro p q n hp hq
      by_cases he : p = [] <;> by_cases he' : q = [] <;> simp_all
    · intro p n hp
      by_cases he : p = []
      · simp [he]
      · rw [if_neg he] at hp
        exact absurd hp (by simp)
    · intro p n hp
      by_cases he : p = []
      · rw [if_pos he] at hp
        obtain rfl := Option.some.inj hp
        exact hcarved
      · rw [if_neg he] at hp
        exact absurd hp (by simp)
  · exact ⟨hfree, List.nodup_nil, by simp, by simp⟩
  · funext p
    by_cases he : p = [] <;> simp [valueAt, he]
  · intro p hp hne
    simp [hne] at hp

theorem treeAlloc_spec (ha : Allocates alloc) (pagesize : ℕ) :
    ∃ t, stlRadixTreeAlloc alloc pagesize 0 = some (some t) ∧ Represents t fun _ => none := by
  obtain ⟨r, t, heq, hfr⟩ := ha bareTree [] promises_bareTree
  have hcarved := hfr.carved
  refine ⟨{ t with root := some r, node := update t.node r ⟨none, none, none, noValue⟩ }, ?_,
    hfr.represents⟩
  rw [stlRadixTreeAlloc, heq]
  simp only [if_true]
  rw [StlRadixTree.store_some (by exact hcarved)]
  rfl

/-- Every run from a new tree answers as the table does, and leaves a tree that finds longest
matches and shares no node with its free list. -/
theorem run_longestMatch {alloc : RadixAlloc} (ha : Allocates alloc) (pagesize : ℕ)
    {ops : List RadixOp} (hops : ∀ op ∈ ops, op.Valid) :
    ∃ t₀ t, stlRadixTreeAlloc alloc pagesize 0 = some (some t₀) ∧
      runs (RadixOp.step alloc) t₀ ops =
        some (t, (specRuns RadixOp.spec (fun _ => none) ops).2) ∧
      (∀ key, t.stlRadix32treeFind key =
        some (bestMatch (specRuns RadixOp.spec (fun _ => none) ops).1 key)) ∧
      ∀ n, ¬ (t.Reachable n ∧ t.OnFree n) := by
  obtain ⟨t₀, hnew, hr⟩ := treeAlloc_spec ha pagesize
  obtain ⟨t, hrun, hr'⟩ := (step_simulates ha).runs hr hops
  exact ⟨t₀, t, hnew, hrun, hr'.find, hr'.apart⟩

/-- An allocator that reuses the free list before it carves a new node. -/
def carve (t : StlRadixTree) : Option (ℕ × StlRadixTree) :=
  match t.free with
  | some n => some (n, { t with free := (t.node n).right })
  | none => some (t.carved, { t with carved := t.carved + 1 })

theorem carve_allocates : Allocates carve := by
  intro t l h
  cases hf : t.free with
  | none =>
    refine ⟨t.carved, { t with carved := t.carved + 1 }, by rw [carve, hf], ?_⟩
    have hout : ¬ t.Reachable t.carved := fun hr => Nat.lt_irrefl _ (h.carved _ (Or.inl hr))
    refine ⟨hout, Nat.lt_succ_self _, Nat.le_succ _, rfl, fun _ _ => rfl, l, h.chain,
      List.Sublist.refl l, ?_⟩
    intro hmem
    exact Nat.lt_irrefl _ (h.carved _ (Or.inr hmem))
  | some n =>
    refine ⟨n, { t with free := (t.node n).right }, by rw [carve, hf], ?_⟩
    have hchain := h.chain
    have hd := h.nodup
    cases l with
    | nil => exact absurd (hf.symm.trans hchain) (by simp)
    | cons m l =>
      obtain rfl := Option.some.inj (hf.symm.trans hchain.1)
      have hmem : n ∈ n :: l := by simp
      exact ⟨h.apart n hmem, h.carved n (Or.inr hmem), Nat.le_refl _, rfl, fun _ _ => rfl, l,
        hchain.2, List.sublist_cons_self n l, (List.nodup_cons.mp hd).1⟩

theorem run_longestMatch_carve :
    ∃ t₀ t, stlRadixTreeAlloc carve 4096 0 = some (some t₀) ∧
      runs (RadixOp.step carve) t₀ [.insert 0x0a000000 8 1, .insert 0x0a010000 16 2,
        .insert 0x0a000000 8 3, .delete 0x0a000000 8, .delete 0x0a000000 9] =
          some (t, [0, 0, -3, 0, -1]) ∧
      t.stlRadix32treeFind 0x0a01ffff = some 2 ∧ t.stlRadix32treeFind 0x0a02ffff = some noValue := by
  obtain ⟨t₀, t, hnew, hrun, hfind, -⟩ :=
    run_longestMatch carve_allocates 4096
      (by decide : ∀ op ∈ [RadixOp.insert 0x0a000000 8 1, .insert 0x0a010000 16 2,
        .insert 0x0a000000 8 3, .delete 0x0a000000 8, .delete 0x0a000000 9], op.Valid)
  exact ⟨t₀, t, hnew, hrun, hfind _, hfind _⟩

end KirinFS.Radix
