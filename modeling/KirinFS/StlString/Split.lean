import KirinFS.Foundation.CString

/-! # Splitting a string into an array of strings

The caller hands over the address of its array pointer. Every store of the
source goes to the first cell of an array: `*c_ptr[j]` is `*(c_ptr[j])`, which
reads the `j`-th pointer from the caller's variable on.
-/

namespace KirinFS.StlString
open Foundation.CString

def stlStringSplitCnt : ℕ := 256

/-- A pointer of type `stl_string *`: null, to a string, to an array of `n` pointers that was
stored in its place, or to nothing, since it was freed or never set. -/
inductive StrPtr
  | null
  | str (s : Str)
  | array (n : ℕ)
  | dangling
deriving DecidableEq

namespace StrPtr

/-- `stl_string_data` where the caller reads the text. -/
def text : StrPtr → Option Str
  | str s => some s
  | _ => none

def destroy : StrPtr → Option StrPtr
  | null => some null
  | str _ => some dangling
  | _ => none

end StrPtr

/-- A pointer to an array of strings, which may be null. -/
abbrev Strings := Option (List StrPtr)

/-- `*ptrs[j] = v`. A null pointer, an array without a cell and a pointer beyond the last variable
are undefined. -/
def storeFirst (ptrs : List Strings) (j : ℕ) (v : StrPtr) : Option (List Strings) :=
  match ptrs[j]? with
  | some (some (_ :: cells)) => some (ptrs.set j (some (v :: cells)))
  | _ => none

/-- What `stl_string_split` leaves behind: the text of the source, which `strsep` has cut, the
caller's variables and the return value. -/
structure Split where
  src : Str
  ptrs : List Strings
  cnt : ℕ
  ret : ℤ
deriving DecidableEq

/-- `stl_string_split` for arguments that are not null. `ptrs` are the variables from `*c_ptr` on,
and `tmp` has room for `STL_STRING_SPLIT_CNT` pieces. -/
def stlStringSplit (src delim : Str) (ptrs : List Strings) (cnt : ℕ) : Option Split := do
  let tmp := src.splitOnP fun c => c ∈ delim
  if stlStringSplitCnt < tmp.length then
    none
  else if 0 < tmp.length then
    -- `**c_ptr = calloc(i, ..)`, where `*c_ptr` was meant
    let ptrs ← storeFirst ptrs 0 (.array tmp.length)
    let ptrs ← tmp.zipIdx.foldlM (fun ptrs piece => storeFirst ptrs piece.2 (.str piece.1)) ptrs
    return ⟨tmp.headD [], ptrs, tmp.length, -1⟩
  else
    return ⟨src, ptrs, cnt, -1⟩

variable {src delim : Str} {ptrs : List Strings} {cnt : ℕ} {r : Split}

theorem splitOnP_length_pos (q : UInt8 → Bool) (s : Str) : 0 < (s.splitOnP q).length :=
  List.length_pos_of_ne_nil (List.splitOnP_ne_nil q s)

/-- A caller whose array pointer is null is never served. -/
theorem stlStringSplit_null : stlStringSplit src delim (none :: ptrs) cnt = none := by
  rw [stlStringSplit]
  split
  · rfl
  · rw [if_pos (splitOnP_length_pos _ src)]
    rfl

/-- `stl_string_split` at the delimiter `d` returns 0, counts the pieces, hands out an array of
them that joined give `src` back, and leaves `src` as it is. -/
def SplitsWell (src : Str) (d : UInt8) (ptrs : List Strings) (cnt : ℕ) : Prop :=
  ∃ r pieces, stlStringSplit src [d] ptrs cnt = some r ∧ r.ret = 0 ∧
    r.cnt = src.count d + 1 ∧ pieces.length = r.cnt ∧
    r.ptrs.head? = some (some (pieces.map .str)) ∧ [d].intercalate pieces = src ∧ r.src = src

theorem stlStringSplit_ret (h : stlStringSplit src delim ptrs cnt = some r) : r.ret = -1 := by
  rw [stlStringSplit] at h
  split at h
  · cases h
  · split at h
    · obtain ⟨ptrs₁, -, h⟩ := Option.bind_eq_some_iff.mp h
      obtain ⟨ptrs₂, -, h⟩ := Option.bind_eq_some_iff.mp h
      cases h
      rfl
    · cases h
      rfl

/-- A null array pointer is written through, and whatever the pointers are, no call returns 0. -/
theorem splitsWell_never (src : Str) (d : UInt8) (ptrs : List Strings) (cnt : ℕ) :
    stlStringSplit src [d] (none :: ptrs) cnt = none ∧
      ∀ p, ¬ SplitsWell src d (p :: ptrs) cnt := by
  refine ⟨stlStringSplit_null, ?_⟩
  rintro p ⟨r, pieces, hr, hzero, -⟩
  rw [stlStringSplit_ret hr] at hzero
  cases hzero

/-- An address as the client has it. -/
theorem not_splitsWell_address : ¬ SplitsWell [chr 'a', chr ':', chr '1'] (chr ':') [none] 0 := by
  rintro ⟨r, pieces, hr, -⟩
  rw [stlStringSplit_null] at hr
  cases hr

end KirinFS.StlString
