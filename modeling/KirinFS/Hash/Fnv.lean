import KirinFS.Foundation.Fnv

/-! # The FNV hashes of `stl_hash.c`

All four return 32 bits and widen a `char` with its sign, if it has one.
-/

namespace KirinFS.Hash
open Foundation.Fnv Function

/-- Whether a plain `char` is signed depends on the platform. -/
inductive PlainChar | signed | unsigned
deriving DecidableEq

/-- The conversion of a `char` to an unsigned type of `w` bits. -/
def PlainChar.widen (char : PlainChar) (w : ℕ) (c : UInt8) : BitVec w :=
  match char with
  | .signed => c.toBitVec.signExtend w
  | .unsigned => c.toBitVec.setWidth w

def fnv64Init : BitVec 64 := 0xcbf29ce484222325

def fnv64Prime : BitVec 64 := 0x100000001b3

def fnv32Init : BitVec 32 := 2166136261

def fnv32Prime : BitVec 32 := 16777619

def stlHashFnv1_64 (char : PlainChar) (key : List UInt8) : BitVec 32 :=
  let hash := key.foldl (fun hash c => hash * fnv64Prime ^^^ char.widen 64 c) fnv64Init
  hash.setWidth 32

/-- The constants of 64 bits are truncated first. -/
def stlHashFnv1a_64 (char : PlainChar) (key : List UInt8) : BitVec 32 :=
  key.foldl (fun hash c => (hash ^^^ char.widen 32 c) * fnv64Prime.setWidth 32)
    (fnv64Init.setWidth 32)

def stlHashFnv1_32 (char : PlainChar) (key : List UInt8) : BitVec 32 :=
  key.foldl (fun hash c => hash * fnv32Prime ^^^ char.widen 32 c) fnv32Init

def stlHashFnv1a_32 (char : PlainChar) (key : List UInt8) : BitVec 32 :=
  key.foldl (fun hash c => (hash ^^^ char.widen 32 c) * fnv32Prime) fnv32Init

/-- The hashes are the standard ones, those with 64 bits as far as the low half goes. -/
structure FnvStandard (char : PlainChar) (key : List UInt8) : Prop where
  fnv1_32 : stlHashFnv1_32 char key = fnv1 (octet 32) fnv32Init fnv32Prime key
  fnv1a_32 : stlHashFnv1a_32 char key = fnv1a (octet 32) fnv32Init fnv32Prime key
  fnv1_64 : stlHashFnv1_64 char key = (fnv1 (octet 64) fnv64Init fnv64Prime key).setWidth 32
  fnv1a_64 : stlHashFnv1a_64 char key = (fnv1a (octet 64) fnv64Init fnv64Prime key).setWidth 32

variable {char : PlainChar} {key : List UInt8}

section Truncation

theorem widen_setWidth (char : PlainChar) (c : UInt8) :
    (char.widen 64 c).setWidth 32 = char.widen 32 c := by
  cases char with
  | signed =>
    apply BitVec.eq_of_getLsbD_eq
    intro i hi
    have hin : i < 64 := by omega
    rw [BitVec.getLsbD_setWidth, PlainChar.widen, PlainChar.widen, BitVec.getLsbD_signExtend,
      BitVec.getLsbD_signExtend]
    simp [hi, hin]
  | unsigned => exact BitVec.setWidth_setWidth_of_le _ (by decide)

theorem octet_setWidth (c : UInt8) : (octet 64 c).setWidth 32 = octet 32 c :=
  BitVec.setWidth_setWidth_of_le _ (by decide)

theorem stlHashFnv1_64_eq (char : PlainChar) (key : List UInt8) : stlHashFnv1_64 char key =
    fnv1 (char.widen 32) (fnv64Init.setWidth 32) (fnv64Prime.setWidth 32) key := by
  have hlow := fnv1_setWidth (char.widen 64) fnv64Init fnv64Prime key (show 32 ≤ 64 by decide)
  simp only [widen_setWidth] at hlow
  exact hlow

theorem fnv1_low (key : List UInt8) : (fnv1 (octet 64) fnv64Init fnv64Prime key).setWidth 32 =
    fnv1 (octet 32) (fnv64Init.setWidth 32) (fnv64Prime.setWidth 32) key := by
  have hlow := fnv1_setWidth (octet 64) fnv64Init fnv64Prime key (show 32 ≤ 64 by decide)
  simp only [octet_setWidth] at hlow
  exact hlow

theorem fnv1a_low (key : List UInt8) : (fnv1a (octet 64) fnv64Init fnv64Prime key).setWidth 32 =
    fnv1a (octet 32) (fnv64Init.setWidth 32) (fnv64Prime.setWidth 32) key := by
  have hlow := fnv1a_setWidth (octet 64) fnv64Init fnv64Prime key (show 32 ≤ 64 by decide)
  simp only [octet_setWidth] at hlow
  exact hlow

end Truncation

theorem widen_eq_octet_iff (char : PlainChar) (c : UInt8) :
    char.widen 32 c = octet 32 c ↔ char = .unsigned ∨ c < 0x80 := by
  cases char with
  | signed =>
    have htable : ∀ b : BitVec 8, b.signExtend 32 = b.setWidth 32 ↔ b < 0x80 := by
      decide
    rw [PlainChar.widen, octet, htable, UInt8.lt_iff_toBitVec_lt]
    simp
  | unsigned => simp [PlainChar.widen, octet]

theorem forall_widen_iff :
    (∀ c ∈ key, char.widen 32 c = octet 32 c) ↔ char = .unsigned ∨ ∀ c ∈ key, c < 0x80 := by
  simp only [widen_eq_octet_iff, forall_or_left]

theorem fnv32Prime_odd : fnv32Prime * 0x359c449b = 1 := by
  decide

theorem fnv64Prime_odd : fnv64Prime.setWidth 32 * 0xaff6957b = 1 := by
  decide

theorem fnv_prefixes_iff (char : PlainChar) (key : List UInt8) :
    (∀ l, l <+: key → FnvStandard char l) ↔ char = .unsigned ∨ ∀ c ∈ key, c < 0x80 := by
  rw [← forall_widen_iff]
  constructor
  · intro h
    exact fnv1_prefixes_iff.mp fun l hl => (h l hl).fnv1_32
  · intro h l hl
    exact {
      fnv1_32 := fnv1_prefixes_iff.mpr h l hl
      fnv1a_32 := (fnv1a_prefixes_iff fnv32Prime_odd).mpr h l hl
      fnv1_64 := by
        rw [stlHashFnv1_64_eq, fnv1_low]
        exact fnv1_prefixes_iff.mpr h l hl
      fnv1a_64 := by
        rw [fnv1a_low]
        exact (fnv1a_prefixes_iff fnv64Prime_odd).mpr h l hl }

/-- A byte that a signed `char` takes for negative makes the hashes leave the standard, at the
latest where it stands. -/
theorem fnv_standard_iff (char : PlainChar) (key : List UInt8) :
    ((char = .unsigned ∨ ∀ c ∈ key, c < 0x80) → FnvStandard char key) ∧
      ((∀ l, l <+: key → FnvStandard char l) ↔ char = .unsigned ∨ ∀ c ∈ key, c < 0x80) :=
  ⟨fun h => (fnv_prefixes_iff char key).mpr h key (List.prefix_refl key),
    fnv_prefixes_iff char key⟩

/-- The one-byte key 0x80. -/
theorem high_byte_not_standard : ¬FnvStandard .signed [0x80] :=
  fun h => absurd h.fnv1_32 (by decide)

/-- A long enough run of such bytes can bring all the hashes back to the standard: no property of
single bytes tells exactly which keys are hashed right. -/
theorem exists_high_standard : ∃ n > 0, FnvStandard .signed (List.replicate n 0x80) := by
  have : Finite (BitVec 32) := Finite.of_injective BitVec.toFin fun _ _ => BitVec.eq_of_toFin_eq
  let prime : Bool → BitVec 32 := fun wide => if wide then fnv64Prime.setWidth 32 else fnv32Prime
  let init : Bool → BitVec 32 := fun wide => if wide then fnv64Init.setWidth 32 else fnv32Init
  let bytes : Bool → UInt8 → BitVec 32 := fun code =>
    if code then PlainChar.widen .signed 32 else octet 32
  have hodd : ∀ wide, Injective fun hash => hash * prime wide := by
    intro wide
    cases wide with
    | false => exact mul_injective fnv32Prime_odd
    | true => exact mul_injective fnv64Prime_odd
  obtain ⟨n, hn, hback⟩ := exists_common_period (ι := Bool × Bool × Bool)
    (f := fun i hash => if i.1 then (hash ^^^ bytes i.2.1 0x80) * prime i.2.2
      else hash * prime i.2.2 ^^^ bytes i.2.1 0x80)
    (by
      rintro ⟨after, code, wide⟩ a b h
      cases after with
      | false => exact hodd wide (BitVec.xor_left_inj _ |>.mp h)
      | true => exact (BitVec.xor_left_inj _).mp (hodd wide h))
    fun i => init i.2.2
  have hfnv1 : ∀ code wide, fnv1 (bytes code) (init wide) (prime wide) (List.replicate n 0x80) =
      init wide := fun code wide => by
    rw [fnv1, foldl_replicate]
    exact hback (false, code, wide)
  have hfnv1a : ∀ code wide, fnv1a (bytes code) (init wide) (prime wide) (List.replicate n 0x80) =
      init wide := fun code wide => by
    rw [fnv1a, foldl_replicate]
    exact hback (true, code, wide)
  refine ⟨n, hn, ?_, ?_, ?_, ?_⟩
  · exact (hfnv1 true false).trans (hfnv1 false false).symm
  · exact (hfnv1a true false).trans (hfnv1a false false).symm
  · rw [stlHashFnv1_64_eq, fnv1_low]
    exact (hfnv1 true true).trans (hfnv1 false true).symm
  · rw [fnv1a_low]
    exact (hfnv1a true true).trans (hfnv1a false true).symm

end KirinFS.Hash
