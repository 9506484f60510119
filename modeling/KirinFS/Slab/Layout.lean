import KirinFS.Slab.Pool
import Mathlib.Order.Nat
import Mathlib.Order.MinMax

/-! # The layout of the block of a pool

Slot heads, statistics and page descriptors stand at the front of the block, the
pages behind them from the next page boundary on.
-/

namespace KirinFS.Slab

section Rounding
variable {x y P : ℕ}

def roundUp (x P : ℕ) : ℕ := (x + (P - 1)) / P * P

theorem le_roundUp (hP : 0 < P) : x ≤ roundUp x P := by
  have hlt := Nat.lt_div_mul_add (a := x + (P - 1)) hP
  rw [roundUp]
  omega

theorem roundUp_lt (hP : 0 < P) : roundUp x P < x + P := by
  have hle := Nat.div_mul_le_self (x + (P - 1)) P
  rw [roundUp]
  omega

theorem roundUp_le (hP : 0 < P) (hy : P ∣ y) (h : x ≤ y) : roundUp x P ≤ y := by
  obtain ⟨k, rfl⟩ := hy
  have hlt : (x + (P - 1)) / P < k + 1 := by
    rw [Nat.div_lt_iff_lt_mul hP, Nat.add_mul, Nat.one_mul, Nat.mul_comm k]
    omega
  rw [roundUp, Nat.mul_comm P]
  exact Nat.mul_le_mul_right P (Nat.lt_succ_iff.mp hlt)

theorem dvd_stlAlignPtr : P ∣ stlAlignPtr x P := Nat.dvd_mul_left _ _

/-- The code rounds up as long as the result is an address. -/
theorem stlAlignPtr_eq (hdvd : P ∣ 2 ^ 64) (h : roundUp x P < 2 ^ 64) :
    stlAlignPtr x P = roundUp x P := by
  have hlt : x + (P - 1) < 2 ^ 64 := by
    by_contra hge
    have hdiv := Nat.div_le_div_right (c := P) (not_lt.mp hge)
    have hmul := Nat.mul_le_mul_right P hdiv
    rw [Nat.div_mul_cancel hdvd] at hmul
    exact absurd h (not_lt.mpr hmul)
  rw [stlAlignPtr, roundUp, Nat.mod_eq_of_lt hlt]

end Rounding

section Pages
variable {P size pages start stop m last : ℕ}

theorem wsub_eq {a b : ℕ} (ha : a - b < 2 ^ 64) (hb : b ≤ a) : wsub a b = a - b := by
  rw [wsub]
  omega

theorem pages_lt (hP : 2 ≤ P) (hsize : size < 2 ^ 64) : size / (P + pageBytes) < 2 ^ 60 := by
  rw [Nat.div_lt_iff_lt_mul (by omega), pageBytes]
  have hmul := Nat.mul_le_mul_left (2 ^ 60) (by omega : 26 ≤ P + 24)
  omega

/-- The correction never leaves more pages than there are behind `start`. -/
theorem lastPage_eq (hP : 2 ≤ P) (hpages : pages < 2 ^ 60)
    (hm : m = wsub pages (wsub stop start / P))
    (hlast : last = if 0 < m ∧ m < 2 ^ 63 then pages - m else pages) :
    last = min (wsub stop start / P) pages := by
  have hroom : wsub stop start / P < 2 ^ 63 := by
    have hlt : wsub stop start < 2 ^ 64 := Nat.mod_lt _ (by omega)
    have hhalf := Nat.div_le_div_left hP (by omega) (a := wsub stop start)
    omega
  generalize wsub stop start / P = y at *
  have hm' : m = if y ≤ pages then pages - y else 2 ^ 64 - (y - pages) := by
    rw [hm, wsub]
    split <;> omega
  rw [hlast, hm']
  split <;> split <;> omega

/-- A page and its descriptor leave room for the rounding. -/
theorem roundUp_descriptors_lt (hP : 0 < P) {x : ℕ} (hpages : pages = size / (P + pageBytes))
    (hpos : 0 < pages) : roundUp (x + pages * pageBytes) P < x + size := by
  have hfit := Nat.div_mul_le_self size (P + pageBytes)
  have hone := Nat.mul_le_mul_right P hpos
  have hlt := @roundUp_lt (x + pages * pageBytes) P hP
  rw [← hpages, Nat.mul_add] at hfit
  omega

theorem lastPage_fits (hstop : stop - start < 2 ^ 64) (hstart : start ≤ stop)
    (hlast : last ≤ wsub stop start / P) : start + last * P ≤ stop := by
  rw [wsub_eq hstop hstart] at hlast
  have hmul := Nat.mul_le_mul_right P hlast
  have hle := Nat.div_mul_le_self (stop - start) P
  omega

end Pages

/-- What `stl_slab_init` writes lies in the block, and the managed pages behind it. The block is
one that `malloc` has returned, so it does not start at NULL. -/
structure SoundLayout (g : SlabGlobals) (poolSize : ℕ) (pool : StlSlab) : Prop where
  block : 0 < pool.addr
  slots : pool.addr + pool.nslots * pageBytes ≤ pool.addr + poolSize
  stats : pool.addr + pool.nslots * pageBytes + pool.nslots * statBytes ≤ pool.addr + poolSize
  pages : pool.descriptorAddr (max (pool.last + pool.spare) 1) ≤ pool.addr + poolSize
  aligned : g.stlPagesize ∣ pool.start
  above : pool.descriptorAddr (pool.last + pool.spare) ≤ pool.start
  within : pool.start + pool.last * g.stlPagesize ≤ pool.stop

/-- `malloc` succeeds, the tables and one page descriptor fit into the block, and a block without
room for a page still reaches the page boundary behind its tables. -/
def LayoutFits (g : SlabGlobals) (addr poolSize : ℕ) : Prop :=
  0 < addr ∧ tableBytes g + pageBytes ≤ poolSize ∧
    (poolSize < tableBytes g + (g.stlPagesize + pageBytes) →
      roundUp (addr + tableBytes g) g.stlPagesize ≤ addr + poolSize)

instance (g : SlabGlobals) (addr poolSize : ℕ) : Decidable (LayoutFits g addr poolSize) :=
  inferInstanceAs (Decidable (_ ∧ _ ∧ (_ → _)))

section Init
variable {g₀ g : SlabGlobals} {P addr poolSize : ℕ} {pool : StlSlab}

/-- A set-up that returns a pool has written inside the block only. -/
theorem stlSlabInit_eq (hinit : stlSlabInit g₀ P addr poolSize = some (some (g, pool))) :
    (0 < addr ∧ tableBytes g + max (clearedPages g poolSize) 1 * pageBytes ≤ poolSize) ∧
      g = stlSlabSizesInit g₀ P ∧ pool = newPool g addr poolSize := by
  rw [stlSlabInit] at hinit
  split_ifs at hinit with hzero hout
  · cases hinit
  · rw [not_or, not_lt] at hout
    cases hinit
    exact ⟨⟨Nat.pos_of_ne_zero hout.1, hout.2⟩, rfl, rfl⟩

theorem newPool_cleared :
    (newPool g addr poolSize).last + (newPool g addr poolSize).spare = clearedPages g poolSize := by
  refine Nat.add_sub_cancel' ?_
  change (if _ then _ else _) ≤ _
  split
  · exact Nat.sub_le _ _
  · exact le_rfl

theorem newPool_layout (hpool : pool = newPool g addr poolSize) :
    pool.addr = addr ∧ pool.nslots = slotCount g ∧ pool.stop = addr + poolSize ∧
      pool.last + pool.spare = clearedPages g poolSize ∧
      pool.start = stlAlignPtr (pool.descriptorAddr (pool.last + pool.spare)) g.stlPagesize ∧
      ∃ m, m = wsub (pool.last + pool.spare) (wsub pool.stop pool.start / g.stlPagesize) ∧
        pool.last = if 0 < m ∧ m < 2 ^ 63 then pool.last + pool.spare - m
          else pool.last + pool.spare := by
  have hcleared : pool.last + pool.spare = clearedPages g poolSize := hpool ▸ newPool_cleared
  have haddr : pool.addr = addr := by rw [hpool]; rfl
  have hslots : pool.nslots = slotCount g := by rw [hpool]; rfl
  have hstop : pool.stop = addr + poolSize := by rw [hpool]; rfl
  have hdesc : pool.descriptorAddr (clearedPages g poolSize) = addr + slotCount g * pageBytes +
      slotCount g * statBytes + clearedPages g poolSize * pageBytes := by
    rw [StlSlab.descriptorAddr, haddr, hslots, Nat.mul_add, ← Nat.add_assoc]
  have hstart : pool.start =
      stlAlignPtr (pool.descriptorAddr (clearedPages g poolSize)) g.stlPagesize := by
    rw [hdesc, hpool]
    rfl
  rw [hcleared]
  refine ⟨haddr, hslots, hstop, rfl, hstart, _, rfl, ?_⟩
  rw [hstart, hstop, hdesc, hpool]
  rfl

theorem StlSlab.descriptorAddr_eq (hslots : pool.nslots = slotCount g) (i : ℕ) :
    pool.descriptorAddr i = pool.addr + tableBytes g + i * pageBytes := by
  rw [StlSlab.descriptorAddr, hslots, tableBytes]

/-- Set-up is defined when the tables and one descriptor fit into the block. -/
theorem stlSlabInit_defined (haddr : 0 < addr) (hlt : poolSize < 2 ^ 64)
    (htab : tableBytes (stlSlabSizesInit g₀ P) + pageBytes ≤ poolSize) :
    ∃ pool, stlSlabInit g₀ P addr poolSize = some (some (stlSlabSizesInit g₀ P, pool)) := by
  have hsize := wsub_eq (by omega : poolSize - _ < 2 ^ 64)
    (by omega : tableBytes (stlSlabSizesInit g₀ P) ≤ poolSize)
  have hfit := Nat.div_mul_le_self (poolSize - tableBytes (stlSlabSizesInit g₀ P)) (P + pageBytes)
  have hwithin : tableBytes (stlSlabSizesInit g₀ P) +
      max (clearedPages (stlSlabSizesInit g₀ P) poolSize) 1 * pageBytes ≤ poolSize := by
    change _ + max (_ / (P + pageBytes)) 1 * pageBytes ≤ poolSize
    rw [hsize]
    rw [Nat.mul_add] at hfit
    rcases max_cases ((poolSize - tableBytes (stlSlabSizesInit g₀ P)) / (P + pageBytes)) 1 with
      ⟨hmax, -⟩ | ⟨hmax, -⟩
    · rw [hmax]
      omega
    · rw [hmax, Nat.one_mul]
      exact htab
  have hpos : 0 < pageBytes := Nat.succ_pos 23
  exact ⟨_, (if_neg (by omega)).trans (if_neg (not_or.mpr ⟨haddr.ne', not_lt.mpr hwithin⟩))⟩

/-- Too small a block, and a page boundary behind the block, show in the layout. -/
theorem SoundLayout.fits (hinit : stlSlabInit g₀ P addr poolSize = some (some (g, pool))) (hP : 0 < P)
    (hend : addr + poolSize < 2 ^ 64) (h : SoundLayout g poolSize pool) :
    LayoutFits g addr poolSize := by
  obtain ⟨-, rfl, hpool⟩ := stlSlabInit_eq hinit
  obtain ⟨rfl, hslots, hstop, hcleared, -⟩ := newPool_layout hpool
  have hpages := h.pages
  have habove := h.above
  have hwithin := h.within
  rw [StlSlab.descriptorAddr_eq hslots] at hpages habove
  have hone : 1 * pageBytes ≤ max (pool.last + pool.spare) 1 * pageBytes :=
    Nat.mul_le_mul_right _ (le_max_right _ _)
  refine ⟨h.block, by omega, fun hshort => ?_⟩
  change poolSize < _ + (P + pageBytes) at hshort
  have hsize := wsub_eq (by omega : poolSize - _ < 2 ^ 64)
    (by omega : tableBytes (stlSlabSizesInit g₀ P) ≤ poolSize)
  have hnone : pool.last + pool.spare = 0 := by
    rw [hcleared, clearedPages, hsize]
    exact Nat.div_eq_of_lt (by change _ < P + pageBytes; omega)
  rw [hnone] at habove
  exact (roundUp_le hP h.aligned (by omega)).trans (by omega)

theorem LayoutFits.sound (hinit : stlSlabInit g₀ P addr poolSize = some (some (g, pool))) (hP : 2 ≤ P)
    (hdvd : P ∣ 2 ^ 64) (hend : addr + poolSize < 2 ^ 64) (h : LayoutFits g addr poolSize) :
    SoundLayout g poolSize pool := by
  obtain ⟨-, rfl, hpool⟩ := stlSlabInit_eq hinit
  obtain ⟨rfl, hslots, hstop, hcleared, hstart, m, hm, hlast⟩ := newPool_layout hpool
  obtain ⟨hblock, htable, hshort⟩ := h
  change poolSize < _ + (P + pageBytes) → roundUp _ P ≤ _ at hshort
  have hdesc := StlSlab.descriptorAddr_eq hslots
  have hsize := wsub_eq (by omega : poolSize - _ < 2 ^ 64)
    (by omega : tableBytes (stlSlabSizesInit g₀ P) ≤ poolSize)
  rw [clearedPages, hsize] at hcleared
  change _ = _ / (P + pageBytes) at hcleared
  change _ = stlAlignPtr _ P at hstart
  have hmin := lastPage_eq hP (hcleared ▸ pages_lt hP (by omega)) hm hlast
  have hreach : roundUp (pool.descriptorAddr (pool.last + pool.spare)) P ≤ pool.stop ∧
      pool.descriptorAddr (max (pool.last + pool.spare) 1) ≤ pool.stop := by
    rw [hdesc, hdesc]
    rcases Nat.eq_zero_or_pos (pool.last + pool.spare) with h0 | hpos
    · have hless : poolSize - tableBytes (stlSlabSizesInit g₀ P) < P + pageBytes :=
        (Nat.div_eq_zero_iff_lt (by omega)).mp (hcleared.symm.trans h0)
      have hb := hshort (by omega)
      rw [h0, Nat.zero_mul, Nat.add_zero, max_eq_right (Nat.zero_le 1), Nat.one_mul]
      omega
    · have hlt := @roundUp_descriptors_lt P _ _ (by omega) (pool.addr +
        tableBytes (stlSlabSizesInit g₀ P)) hcleared hpos
      have hle := @le_roundUp (pool.addr + tableBytes (stlSlabSizesInit g₀ P) +
        (pool.last + pool.spare) * pageBytes) P (by omega)
      rw [max_eq_left hpos]
      omega
  have hround := stlAlignPtr_eq hdvd (hreach.1.trans_lt (by omega))
  rw [← hstart] at hround
  have hle := @le_roundUp (pool.descriptorAddr (pool.last + pool.spare)) P (by omega)
  rw [tableBytes, ← hslots, Nat.mul_add] at htable
  refine ⟨hblock, by omega, by omega, hstop ▸ hreach.2, ?_, by omega, ?_⟩
  · rw [hstart]
    exact dvd_stlAlignPtr
  · exact lastPage_fits (by omega) (by omega) (hmin.trans_le (min_le_left _ _))

end Init

/-- Set-up is defined, and leaves a sound layout unless it returns the error. -/
def InitSound (g₀ : SlabGlobals) (P addr poolSize : ℕ) : Prop :=
  ∃ r, stlSlabInit g₀ P addr poolSize = some r ∧
    ∀ g pool, r = some (g, pool) → SoundLayout g poolSize pool

/-- Set-up leaves a sound layout exactly in a block that the tables and one descriptor fit into and
that reaches the page boundary behind them. -/
theorem init_sound_iff {n : ℕ} (hn : 0 < n) (hn' : n < 64) (g₀ : SlabGlobals) {addr poolSize : ℕ}
    (hsize : 0 < poolSize) (hend : addr + poolSize < 2 ^ 64) :
    InitSound g₀ (2 ^ n) addr poolSize ↔
      LayoutFits (stlSlabSizesInit g₀ (2 ^ n)) addr poolSize := by
  have hP : 2 ^ 1 ≤ 2 ^ n := Nat.pow_le_pow_right (by omega) hn
  constructor
  · rintro ⟨r, hinit, hsound⟩
    cases r with
    | none =>
      rw [stlSlabInit] at hinit
      split_ifs at hinit with hzero
      · omega
      · cases hinit
    | some r =>
      have hfits := (hsound r.1 r.2 rfl).fits hinit (by omega) hend
      rwa [(stlSlabInit_eq hinit).2.1] at hfits
  · intro h
    obtain ⟨pool, hinit⟩ := stlSlabInit_defined h.1 (by omega) h.2.1
    refine ⟨_, hinit, ?_⟩
    rintro g pool' heq
    cases heq
    exact h.sound hinit hP (Nat.pow_dvd_pow 2 hn'.le) hend

theorem init_sound_20000 : InitSound .zero (2 ^ 12) 4096 20000 :=
  (init_sound_iff (n := 12) (by decide) (by decide) .zero (by decide) (by decide)).mpr (by decide)

/-- A pool of 600 bytes is set up although its first page boundary lies 3496 bytes behind the block.
With 100 bytes set-up writes behind the block, as its tables take 504 bytes. -/
theorem init_unsound_small :
    (∃ g pool, stlSlabInit .zero (2 ^ 12) 4096 600 = some (some (g, pool)) ∧ pool.start = 8192 ∧
        pool.stop = 4696) ∧
      stlSlabInit .zero (2 ^ 12) 4096 100 = none ∧
      ¬ InitSound .zero (2 ^ 12) 4096 600 ∧ ¬ InitSound .zero (2 ^ 12) 4096 100 := by
  have h600 : (stlSlabInit .zero (2 ^ 12) 4096 600).join.map (fun r => (r.2.start, r.2.stop)) =
      some (8192, 4696) := by decide
  simp only [Option.map_eq_some_iff, Option.join_eq_some_iff, Prod.mk.injEq] at h600
  obtain ⟨⟨g, pool⟩, hinit, hstart, hstop⟩ := h600
  have hnone : stlSlabInit .zero (2 ^ 12) 4096 100 = none :=
    Option.isNone_iff_eq_none.mp (by decide)
  refine ⟨⟨g, pool, hinit, hstart, hstop⟩, hnone, ?_, ?_⟩
  · rintro ⟨r, hr, hsound⟩
    rw [hinit] at hr
    have hwithin := (hsound g pool (Option.some.inj hr).symm).within
    rw [hstart, hstop] at hwithin
    omega
  · rintro ⟨r, hr, -⟩
    rw [hnone] at hr
    cases hr

end KirinFS.Slab
