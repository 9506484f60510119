import KirinFS.Slab.Free
import KirinFS.Slab.Geometry
import KirinFS.Slab.Layout
import KirinFS.Foundation.Histories

/-! # Several pools in one process

The page size and the two shifts are file-level variables that every pool's
address arithmetic reads and that every `stl_slab_init` computes again.
-/

namespace KirinFS.Slab
open Foundation.Histories Function

/-- The file-level variables and the pools that were set up. -/
structure Process where
  globals : SlabGlobals
  pools : ℕ → Option StlSlab

namespace Process

def fresh : Process := ⟨.zero, fun _ => none⟩

/-- `init` gives the address that `malloc` returns. -/
inductive Action where
  | init (k addr poolSize : ℕ)
  | alloc (k size : ℕ)
  | free (k a : ℕ)

/-- The page descriptor that `stl_slab_free` reads for address `a`. -/
def descriptor (g : SlabGlobals) (pool : StlSlab) (a : ℕ) : ℕ :=
  (a - pool.start) >>> g.stlPagesizeShift

/-- One call; the event says whether it has set up a pool. -/
def step (pagesize : ℕ) (s : Process) : Action → Option (Process × Bool)
  | .init k addr poolSize =>
    (stlSlabInit s.globals pagesize addr poolSize).map fun r => match r with
      | some (g, pool) => (⟨g, update s.pools k (some pool)⟩, true)
      | none => (s, false)
  | .alloc k size => do
    let pool ← s.pools k
    let (pool, _) ← pool.stlSlabAlloc s.globals size
    some ({ s with pools := update s.pools k (some pool) }, false)
  | .free k a => do
    let pool ← s.pools k
    let pool ← pool.stlSlabFree s.globals a
    some ({ s with pools := update s.pools k (some pool) }, false)

/-- The geometry of a process that has set up a pool: both shifts are logarithms, and every address
of every pool is mapped to the descriptor of the page that holds it. -/
structure Exact (pagesize : ℕ) (s : Process) : Prop where
  shift : s.globals.stlPagesizeShift = Nat.log2 s.globals.stlPagesize
  exactShift : s.globals.stlSlabExactShift = Nat.log2 s.globals.stlSlabExactSize
  descriptor : ∀ k pool a, s.pools k = some pool →
    Process.descriptor s.globals pool a = (a - pool.start) / pagesize

section Histories
variable {n : ℕ} {s s' : Process} {es : List Bool} {e : Bool}

theorem step_globals {pagesize : ℕ} {a : Action} (h : step pagesize s a = some (s', e)) :
    (e = true ∧ s'.globals = stlSlabSizesInit s.globals pagesize) ∨
      (e = false ∧ s'.globals = s.globals) := by
  cases a with
  | init k addr poolSize =>
    obtain ⟨r, hinit, h⟩ := Option.map_eq_some_iff.mp h
    rcases r with _ | ⟨g, pool⟩
    · obtain ⟨rfl, rfl⟩ := Prod.mk.inj h
      exact Or.inr ⟨rfl, rfl⟩
    · obtain ⟨rfl, rfl⟩ := Prod.mk.inj h
      exact Or.inl ⟨rfl, (stlSlabInit_eq hinit).2.1⟩
  | alloc k size =>
    obtain ⟨pool, -, h⟩ := Option.bind_eq_some_iff.mp h
    obtain ⟨r, -, h⟩ := Option.bind_eq_some_iff.mp h
    obtain ⟨rfl, rfl⟩ := Prod.mk.inj (Option.some.inj h)
    exact Or.inr ⟨rfl, rfl⟩
  | free k a =>
    obtain ⟨pool, -, h⟩ := Option.bind_eq_some_iff.mp h
    obtain ⟨r, -, h⟩ := Option.bind_eq_some_iff.mp h
    obtain ⟨rfl, rfl⟩ := Prod.mk.inj (Option.some.inj h)
    exact Or.inr ⟨rfl, rfl⟩

/-- Every set-up adds the logarithms once more. -/
structure Accumulated (n : ℕ) (es : List Bool) (g : SlabGlobals) : Prop where
  shift : g.stlPagesizeShift = es.count true * n
  exactShift : g.stlSlabExactShift = es.count true * halvings 64 (2 ^ n / 64)
  sizes : 0 < es.count true → g.stlPagesize = 2 ^ n ∧ g.stlSlabExactSize = 2 ^ n / 64

theorem Accumulated.step (hn : n < 64) {a : Action} (h : Accumulated n es s.globals)
    (hstep : step (2 ^ n) s a = some (s', e)) : Accumulated n (es ++ [e]) s'.globals := by
  rcases step_globals hstep with ⟨rfl, hg⟩ | ⟨rfl, hg⟩
  · have hcount : (es ++ [true]).count true = es.count true + 1 := by
      rw [List.count_append, List.count_singleton_self]
    rw [hg]
    refine ⟨?_, ?_, fun _ => ⟨rfl, rfl⟩⟩
    · rw [stlSlabSizesInit, h.shift, halvings_two_pow hn, hcount, Nat.add_mul, Nat.one_mul]
    · rw [stlSlabSizesInit, h.exactShift, hcount, Nat.add_mul, Nat.one_mul]
  · have hcount : (es ++ [false]).count true = es.count true := by
      rw [List.count_append, List.count_singleton, if_neg (by decide), Nat.add_zero]
    rw [hg]
    exact ⟨by rw [hcount, h.shift], by rw [hcount, h.exactShift], fun hpos =>
      h.sizes (by rwa [hcount] at hpos)⟩

theorem accumulated (hn : n < 64) {ok : Process → Action → Prop}
    (h : Reaches (step (2 ^ n)) ok fresh es s) : Accumulated n es s.globals := by
  refine h.invariant (I := fun es s => Accumulated n es s.globals) ?_ ?_
  · exact ⟨(Nat.zero_mul n).symm, (Nat.zero_mul _).symm, fun h => absurd h (Nat.lt_irrefl 0)⟩
  · intro es s a s' e hacc _ hstep
    exact hacc.step hn hstep

theorem halvings_log2 {m : ℕ} (hm : m < 2 ^ 64) : halvings 64 m = Nat.log2 m := by
  rcases Nat.eq_zero_or_pos m with rfl | hpos
  · rfl
  · obtain ⟨hlo, hhi⟩ := halvings_spec hpos hm
    exact ((Nat.log2_eq_iff (Nat.ne_of_gt hpos)).mpr ⟨hlo, hhi⟩).symm

/-- After a set-up the geometry is right exactly as long as there was only one. -/
theorem exact_iff (hn : 0 < n) (hn' : n < 64)
    (h : Reaches (step (2 ^ n)) (fun _ _ => True) fresh es s) :
    (0 < es.count true → Exact (2 ^ n) s) ↔ es.count true ≤ 1 := by
  have hacc := accumulated hn' h
  have hlt : 2 ^ n < 2 ^ 64 := Nat.pow_lt_pow_right (by norm_num) hn'
  constructor
  · intro hexact
    by_contra hmany
    have hpos : 0 < es.count true := by omega
    have hshift := (hexact hpos).shift
    rw [hacc.shift, (hacc.sizes hpos).1, Nat.log2_two_pow] at hshift
    have htwo : 2 * n ≤ es.count true * n := Nat.mul_le_mul_right n (by omega)
    omega
  · intro hone hpos
    obtain ⟨hsize, hexact⟩ := hacc.sizes hpos
    have hcount : es.count true = 1 := by omega
    have hshift : s.globals.stlPagesizeShift = n := by rw [hacc.shift, hcount, Nat.one_mul]
    refine ⟨by rw [hshift, hsize, Nat.log2_two_pow], ?_, ?_⟩
    · rw [hacc.exactShift, hcount, Nat.one_mul, hexact]
      exact halvings_log2 (by omega)
    · intro k pool a _
      rw [Process.descriptor, hshift, Nat.shiftRight_eq_div_pow]

end Histories

instance (s : Process) (a : Action) : Decidable ((fun _ _ => True : Process → Action → Prop) s a) :=
  inferInstanceAs (Decidable True)

theorem exact_iff_one_pool : ∃ es s,
    Reaches (step (2 ^ 12)) (fun _ _ => True) fresh es s ∧ es.count true = 1 ∧
      ((0 < es.count true → Exact (2 ^ 12) s) ↔ es.count true ≤ 1) := by
  cases hf : Reaches.follow (step (2 ^ 12)) (fun _ _ => True) fresh
      [.init 0 4096 20480, .alloc 0 4096, .alloc 0 100, .free 0 8192] with
  | none => exact absurd (congrArg Option.isSome hf) (by decide +kernel)
  | some r =>
    have hcount : r.2.count true = 1 := by
      have h := congrArg (Option.map fun r => r.2.count true) hf
      have hone : (Reaches.follow (step (2 ^ 12)) (fun _ _ => True) fresh
          [.init 0 4096 20480, .alloc 0 4096, .alloc 0 100, .free 0 8192]).map
            (fun r => r.2.count true) = some 1 := by decide +kernel
      exact Option.some.inj (h.symm.trans hone)
    exact ⟨r.2, r.1, Reaches.of_follow hf, hcount,
      exact_iff (by decide) (by decide) (Reaches.of_follow hf)⟩

/-- With a second pool the live page at 12288 of the first one, its second page, is mapped to the
first descriptor. -/
theorem second_pool_disturbs : ∃ es s pool,
    Reaches (step (2 ^ 12)) (fun _ _ => True) fresh es s ∧ s.pools 0 = some pool ∧
      s.globals.stlPagesizeShift = 24 ∧ descriptor s.globals pool 12288 = 0 ∧
      (12288 - pool.start) / 2 ^ 12 = 1 ∧ pool.slab (.page 1) = slabPageStart ||| 1 := by
  have h : ((Reaches.follow (step (2 ^ 12)) (fun _ _ => True) fresh
      [.init 0 4096 20480, .alloc 0 4096, .alloc 0 4096, .init 1 32768 20480]).bind fun r =>
        (r.1.pools 0).map fun pool =>
          (r.1.globals.stlPagesizeShift, descriptor r.1.globals pool 12288,
            (12288 - pool.start) / 2 ^ 12, pool.slab (.page 1))) =
      some (24, 0, 1, slabPageStart ||| 1) := by decide +kernel
  simp only [Option.bind_eq_some_iff, Option.map_eq_some_iff, Prod.mk.injEq] at h
  obtain ⟨⟨s, es⟩, hf, pool, hpool, hshift, hdesc, hpage, hslab⟩ := h
  exact ⟨es, s, pool, Reaches.of_follow hf, hpool, hshift, hdesc, hpage, hslab⟩

end Process

end KirinFS.Slab
