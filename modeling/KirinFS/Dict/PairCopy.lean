import KirinFS.Dict.Addresses

/-! # The copies in a pair

`stl_dict_item_pair_alloc` takes `len` bytes of the item itself and then copies
what its pointer leads to. `Located.text` is what can be read there: a string,
or the bytes of an opaque block.
-/

namespace KirinFS.Dict
open Foundation.Bytes Foundation.CString Function

def dictItemTypeStr : ℕ := 3

/-- `memcpy(dst, item, item->len)` for a `dst` of zeros. Reading past the item is undefined. -/
def memcpyItem (item : StlDictItem Located) : Option (StlDictItem Located) :=
  if item.len.toNat ≤ itemSize then
    let bytes := (itemBytes item).take item.len.toNat ++
      List.replicate (itemSize - item.len.toNat) 0
    some ⟨⟨BitVec.ofNat 64 (field 0 8 bytes), []⟩, BitVec.ofNat 32 (field 8 4 bytes),
      BitVec.ofNat 32 (field 12 4 bytes)⟩
  else none

/-- What `stl_dict_item_ptr_alloc` asks `strdup` or `calloc` for. -/
def allocSize (dst item : StlDictItem Located) : ℕ :=
  if item.dataType.toNat = dictItemTypeStr then (item.data.text.takeWhile (· ≠ 0)).length + 1
  else if item.dataType.toNat = dictItemTypePtr then dst.len.toNat
  else 0

/-- `stl_dict_item_ptr_alloc` with the new block at `p`. -/
def stlDictItemPtrAlloc (p : BitVec 64) (dst item : StlDictItem Located) :
    Option (StlDictItem Located) :=
  if item.dataType.toNat = dictItemTypeStr then
    let text := item.data.text.takeWhile (· ≠ 0)
    some { dst with data := ⟨p, text⟩, len := BitVec.ofNat 32 text.length }
  else if item.dataType.toNat = dictItemTypePtr then
    if item.len.toNat ≤ item.data.text.length ∧ item.len.toNat ≤ dst.len.toNat then
      some { dst with data := ⟨p, item.data.text.take item.len.toNat ++
        List.replicate (dst.len.toNat - item.len.toNat) 0⟩ }
    else none
  else some dst

/-- `stl_dict_item_pair_alloc` with the blocks of the copies at `a` and `b`. -/
def stlDictItemPairAlloc (a b : BitVec 64) (key value : StlDictItem Located) :
    Option (StlDictItem Located × StlDictItem Located) := do
  let pairKey ← memcpyItem key
  let pairValue ← memcpyItem value
  let pairKey ← stlDictItemPtrAlloc a pairKey key
  let pairValue ← stlDictItemPtrAlloc b pairValue value
  return (pairKey, pairValue)

def copyItem (p : BitVec 64) (item : StlDictItem Located) : Option (StlDictItem Located) :=
  (memcpyItem item).bind fun dst => stlDictItemPtrAlloc p dst item

def StlDict.insertCopied (d : StlDict Located) (a b : BitVec 64)
    (key value : StlDictItem Located) : Option (StlDict Located × ℤ) :=
  if stlDictItemCheckType key && stlDictItemCheckType value then
    (stlDictItemPairAlloc a b key value).bind fun pair =>
      d.stlDictInsert (fun _ _ => pair) key value
  else some (d, -1)

section Storage

structure Region where
  start : ℕ
  size : ℕ

def Region.Apart (r s : Region) : Prop :=
  ∀ x, r.start ≤ x → x < r.start + r.size → s.start ≤ x → s.start + s.size ≤ x

/-- The bytes that the pointer of an item leads to. -/
def storage (item : StlDictItem Located) : Region where
  start := item.data.addr.toNat
  size :=
    if item.dataType.toNat = dictItemTypeStr then item.data.text.length + 1
    else if item.dataType.toNat = dictItemTypePtr then item.data.text.length
    else 0

/-- The allocator returns `p` for `n` bytes, and they are apart from what is in use. -/
def Serves (live : List Region) (n : ℕ) (p : BitVec 64) : Prop :=
  ∀ r ∈ live, Region.Apart ⟨p.toNat, n⟩ r

structure Allocated (a b : BitVec 64) (key value : StlDictItem Located) : Prop where
  first : ∀ dst, memcpyItem key = some dst →
    Serves [storage key, storage value] (allocSize dst key) a
  second : ∀ dst dst', memcpyItem key = some dst → memcpyItem value = some dst' →
    Serves [⟨a.toNat, allocSize dst key⟩, storage key, storage value] (allocSize dst' value) b

end Storage

/-- A string without an inner zero, or as many bytes as `len` says. -/
structure WellFormed (item : StlDictItem Located) : Prop where
  str : item.dataType.toNat = dictItemTypeStr → IsStr item.data.text
  ptr : item.dataType.toNat = dictItemTypePtr → item.len.toNat ≤ item.data.text.length

/-- The copy has the type, the length and the content of the item. -/
structure Kept (item copy : StlDictItem Located) : Prop where
  dataType : copy.dataType = item.dataType
  len : copy.len = item.len
  content :
    if item.dataType.toNat = dictItemTypeStr then copy.data.text = item.data.text
    else if item.dataType.toNat = dictItemTypePtr then
      copy.data.text.take item.len.toNat = item.data.text.take item.len.toNat
    else copy.data.addr = item.data.addr

/-- Nothing outside of the items, their bytes and the new blocks is touched, and a pair that is
stored holds copies with storage of their own. -/
def CopiesFaithfully (d : StlDict Located) (a b : BitVec 64) (key value : StlDictItem Located) :
    Prop :=
  ∃ d' r, d.insertCopied a b key value = some (d', r) ∧ (∀ n ≠ d.fresh, d'.heap n = d.heap n) ∧
    (r = 0 → ∃ x, d'.heap d.fresh = some x ∧ Kept key x.key ∧ Kept value x.value ∧
      (∀ s ∈ [storage key, storage value], (storage x.key).Apart s ∧ (storage x.value).Apart s) ∧
      (storage x.value).Apart (storage x.key))

/-- The lengths with which an item is copied as it is. -/
def Survives (item : StlDictItem Located) : Prop :=
  if item.dataType.toNat = dictItemTypeStr then
    9 ≤ item.len.toNat ∧ item.len.toNat ≤ itemSize ∧
      item.data.text.length % 2 ^ 32 = item.len.toNat
  else
    13 ≤ item.len.toNat ∧ item.len.toNat ≤ itemSize ∨
      item.dataType = 0 ∧ item.len = 0 ∧ item.data.addr = 0

variable {item dst copy key value : StlDictItem Located} {p a b : BitVec 64} {d : StlDict Located}

theorem mod_pow_of_small {v : ℕ} (hv : v < 256) (m : ℕ) :
    v % 256 ^ m = if m = 0 then 0 else v := by
  by_cases hm : m = 0
  · rw [if_pos hm, hm, pow_zero, Nat.mod_one]
  · rw [if_neg hm]
    exact Nat.mod_eq_of_lt (hv.trans_le (Nat.le_self_pow hm 256))

/-- The fields behind the copied bytes are zero. -/
theorem memcpyItem_eq (hlen : item.len.toNat ≤ itemSize)
    (htype : stlDictItemCheckType item = true) :
    ∃ dst, memcpyItem item = some dst ∧
      dst.data.addr.toNat = item.data.addr.toNat % 256 ^ min item.len.toNat 8 ∧
      dst.dataType = (if 9 ≤ item.len.toNat then item.dataType else 0) ∧
      dst.len = if 13 ≤ item.len.toNat then item.len else 0 := by
  have htype : item.dataType.toNat ≤ dictItemTypePtr := of_decide_eq_true htype
  rw [itemSize] at hlen
  rw [dictItemTypePtr] at htype
  refine ⟨_, if_pos hlen, ?_, ?_, ?_⟩
  · have hfield := field_copied [] (toBytes 4 item.dataType.toNat ++ toBytes 4 item.len.toNat) 8
      item.data.addr.toNat item.len.toNat (itemSize - item.len.toNat)
    rw [List.nil_append, ← List.append_assoc] at hfield
    have hsmall := Nat.mod_le item.data.addr.toNat (256 ^ min item.len.toNat 8)
    have haddr := item.data.addr.isLt
    rw [itemBytes, BitVec.toNat_ofNat]
    rw [List.length_nil, Nat.sub_zero] at hfield
    rw [hfield, Nat.mod_eq_of_lt (hsmall.trans_lt haddr)]
  · have hfield := field_copied (toBytes 8 item.data.addr.toNat) (toBytes 4 item.len.toNat) 4
      item.dataType.toNat item.len.toNat (itemSize - item.len.toNat)
    rw [toBytes_length, ← List.append_assoc, mod_pow_of_small (by omega)] at hfield
    rw [itemBytes]
    dsimp only
    rw [hfield]
    split <;> split <;> first | omega | simp
  · have hfield := field_copied (toBytes 8 item.data.addr.toNat ++ toBytes 4 item.dataType.toNat) []
      4 item.len.toNat item.len.toNat (itemSize - item.len.toNat)
    rw [List.length_append, toBytes_length, toBytes_length, List.append_nil,
      mod_pow_of_small (by omega)] at hfield
    rw [itemBytes]
    dsimp only
    rw [hfield]
    split <;> split <;> first | omega | simp

theorem WellFormed.takeWhile_eq (hw : WellFormed item)
    (hstr : item.dataType.toNat = dictItemTypeStr) :
    item.data.text.takeWhile (· ≠ 0) = item.data.text := by
  rw [List.takeWhile_eq_self_iff]
  intro c hc
  simpa using hw.str hstr c hc

theorem not_kept_of_past (hlen : ¬ item.len.toNat ≤ itemSize) :
    ¬ ∃ copy, copyItem p item = some copy ∧ Kept item copy := by
  rintro ⟨copy, hcopy, -⟩
  rw [copyItem, memcpyItem, if_neg hlen] at hcopy
  cases hcopy

section Short
variable (htype : stlDictItemCheckType item = true) (hlen : item.len.toNat ≤ itemSize)
include htype hlen

/-- A string keeps its type behind eight copied bytes, and gets its length from `strlen`. -/
theorem kept_str_iff (hw : WellFormed item) (hstr : item.dataType.toNat = dictItemTypeStr) :
    (∃ copy, copyItem p item = some copy ∧ Kept item copy) ↔
        9 ≤ item.len.toNat ∧ item.data.text.length % 2 ^ 32 = item.len.toNat := by
  obtain ⟨dst, hdst, -, hdtype, -⟩ := memcpyItem_eq hlen htype
  rw [copyItem, hdst, Option.bind_some, stlDictItemPtrAlloc, if_pos hstr, hw.takeWhile_eq hstr]
  have hcopied : dst.dataType = item.dataType ↔ 9 ≤ item.len.toNat := by
    rw [hdtype]
    by_cases h : 9 ≤ item.len.toNat
    · simp [h]
    · rw [if_neg h]
      refine ⟨fun hzero => ?_, fun hle => absurd hle h⟩
      rw [← hzero] at hstr
      cases hstr
  have hstrlen : BitVec.ofNat 32 item.data.text.length = item.len ↔
      item.data.text.length % 2 ^ 32 = item.len.toNat := by
    rw [← BitVec.toNat_inj, BitVec.toNat_ofNat]
  constructor
  · rintro ⟨copy, hcopy, hkept⟩
    cases hcopy
    exact ⟨hcopied.mp hkept.dataType, hstrlen.mp hkept.len⟩
  · rintro ⟨hnine, hmod⟩
    refine ⟨_, rfl, ⟨hcopied.mpr hnine, hstrlen.mpr hmod, ?_⟩⟩
    rw [if_pos hstr]

/-- Behind twelve bytes the whole item has been copied, as its length is small. -/
theorem kept_of_long (hw : WellFormed item) (hstr : item.dataType.toNat ≠ dictItemTypeStr)
    (hlong : 13 ≤ item.len.toNat) :
    ∃ copy, copyItem p item = some copy ∧ Kept item copy := by
  obtain ⟨dst, hdst, haddr, hdtype, hdlen⟩ := memcpyItem_eq hlen htype
  rw [if_pos (by omega : 9 ≤ item.len.toNat)] at hdtype
  rw [if_pos hlong] at hdlen
  have hword : dst.data.addr = item.data.addr := by
    rw [Nat.min_eq_right (by omega : 8 ≤ item.len.toNat)] at haddr
    rw [← BitVec.toNat_inj, haddr]
    exact Nat.mod_eq_of_lt item.data.addr.isLt
  rw [copyItem, hdst, Option.bind_some, stlDictItemPtrAlloc, if_neg hstr]
  by_cases hptr : item.dataType.toNat = dictItemTypePtr
  · rw [if_pos hptr, if_pos ⟨hw.ptr hptr, by rw [hdlen]⟩]
    refine ⟨_, rfl, ⟨hdtype, hdlen, ?_⟩⟩
    rw [if_neg hstr, if_pos hptr, hdlen, Nat.sub_self, List.replicate_zero, List.append_nil,
      List.take_take, Nat.min_self]
  · rw [if_neg hptr]
    refine ⟨_, rfl, ⟨hdtype, hdlen, ?_⟩⟩
    rw [if_neg hstr, if_neg hptr, hword]

omit htype hlen in
theorem ptrAlloc_fields (hstr : item.dataType.toNat ≠ dictItemTypeStr)
    (h : stlDictItemPtrAlloc p dst item = some copy) :
    copy.dataType = dst.dataType ∧ copy.len = dst.len ∧
      (item.dataType.toNat ≠ dictItemTypePtr → copy = dst) := by
  rw [stlDictItemPtrAlloc, if_neg hstr] at h
  split at h
  · rename_i hptr
    split at h
    · cases h
      exact ⟨rfl, rfl, fun hne => absurd hptr hne⟩
    · cases h
  · cases h
    exact ⟨rfl, rfl, fun _ => rfl⟩

/-- With fewer bytes the length of the copy is zero. -/
theorem kept_short_iff (hstr : item.dataType.toNat ≠ dictItemTypeStr)
    (hshort : ¬ 13 ≤ item.len.toNat) :
    (∃ copy, copyItem p item = some copy ∧ Kept item copy) ↔
      item.dataType = 0 ∧ item.len = 0 ∧ item.data.addr = 0 := by
  obtain ⟨dst, hdst, haddr, hdtype, hdlen⟩ := memcpyItem_eq hlen htype
  rw [copyItem, hdst, Option.bind_some]
  rw [if_neg hshort] at hdlen
  have hother : item.dataType = 0 → item.dataType.toNat ≠ dictItemTypePtr := by
    intro hzero
    rw [hzero]
    decide
  constructor
  · rintro ⟨copy, hcopy, hkept⟩
    obtain ⟨hct, hcl, hcd⟩ := ptrAlloc_fields hstr hcopy
    have hzero : item.len = 0 := by rw [← hkept.len, hcl, hdlen]
    rw [hzero] at hdtype haddr
    have htzero : item.dataType = 0 := by
      rw [← hkept.dataType, hct, hdtype]
      rfl
    have hcontent := hkept.content
    rw [if_neg hstr, if_neg (hother htzero), hcd (hother htzero)] at hcontent
    refine ⟨htzero, hzero, ?_⟩
    rw [← hcontent, ← BitVec.toNat_inj, haddr]
    exact Nat.mod_one _
  · rintro ⟨htzero, hzero, hazero⟩
    rw [stlDictItemPtrAlloc, if_neg hstr, if_neg (hother htzero)]
    refine ⟨dst, rfl, ⟨?_, hdlen.trans hzero.symm, ?_⟩⟩
    · rw [hdtype, hzero, htzero]
      rfl
    · rw [if_neg hstr, if_neg (hother htzero), ← BitVec.toNat_inj, haddr, hazero]
      exact Nat.zero_mod _

end Short

/-- Each item on its own is copied well at the lengths of `Survives` only. -/
theorem kept_iff (hw : WellFormed item) (htype : stlDictItemCheckType item = true) :
    (∃ copy, copyItem p item = some copy ∧ Kept item copy) ↔ Survives item := by
  rw [Survives]
  by_cases hlen : item.len.toNat ≤ itemSize
  · by_cases hstr : item.dataType.toNat = dictItemTypeStr
    · rw [if_pos hstr, kept_str_iff htype hlen hw hstr]
      tauto
    · rw [if_neg hstr]
      by_cases hlong : 13 ≤ item.len.toNat
      · exact iff_of_true (kept_of_long htype hlen hw hstr hlong) (Or.inl ⟨hlong, hlen⟩)
      · rw [kept_short_iff htype hlen hstr hlong, or_iff_right fun h => hlong h.1]
  · refine iff_of_false (not_kept_of_past hlen) ?_
    split
    · exact fun h => hlen h.2.1
    · rintro (h | h)
      · exact hlen h.2
      · rw [h.2.1] at hlen
        exact hlen (Nat.zero_le _)

/-- The bytes behind the pointer of a copy are those of its new block. -/
theorem storage_copy (hcopy : stlDictItemPtrAlloc p dst item = some copy) (hkept : Kept item copy) :
    storage copy = ⟨p.toNat, allocSize dst item⟩ ∨ (storage copy).size = 0 := by
  rw [stlDictItemPtrAlloc] at hcopy
  rw [storage, hkept.dataType, allocSize]
  by_cases hstr : item.dataType.toNat = dictItemTypeStr
  · rw [if_pos hstr] at hcopy
    cases hcopy
    rw [if_pos hstr, if_pos hstr]
    exact Or.inl rfl
  · rw [if_neg hstr] at hcopy
    rw [if_neg hstr, if_neg hstr]
    by_cases hptr : item.dataType.toNat = dictItemTypePtr
    · rw [if_pos hptr] at hcopy
      split at hcopy
      · rename_i hle
        cases hcopy
        rw [if_pos hptr, if_pos hptr, List.length_append, List.length_take, List.length_replicate,
          Nat.min_eq_left hle.1, Nat.add_sub_cancel' hle.2]
        exact Or.inl rfl
      · cases hcopy
    · rw [if_neg hptr]
      exact Or.inr rfl

theorem pairAlloc_eq_some {pairKey pairValue : StlDictItem Located} :
    stlDictItemPairAlloc a b key value = some (pairKey, pairValue) ↔
      copyItem a key = some pairKey ∧ copyItem b value = some pairValue := by
  rw [stlDictItemPairAlloc, copyItem, copyItem]
  cases memcpyItem key with
  | none => simp
  | some dst =>
    cases memcpyItem value with
    | none => simp
    | some dst' => simp [Option.bind_eq_some_iff]

theorem Region.apart_of_empty {r s : Region} (h : r.size = 0 ∨ s.size = 0) : r.Apart s := by
  intro x hr hr' hs
  omega

theorem Allocated.apart (ha : Allocated a b key value) {pairKey pairValue : StlDictItem Located}
    (hk : copyItem a key = some pairKey) (hv : copyItem b value = some pairValue)
    (hkey : Kept key pairKey) (hvalue : Kept value pairValue) :
    (∀ s ∈ [storage key, storage value],
      (storage pairKey).Apart s ∧ (storage pairValue).Apart s) ∧
        (storage pairValue).Apart (storage pairKey) := by
  obtain ⟨dst, hdst, hk⟩ := Option.bind_eq_some_iff.mp hk
  obtain ⟨dst', hdst', hv⟩ := Option.bind_eq_some_iff.mp hv
  have hfirst := ha.first dst hdst
  have hsecond := ha.second dst dst' hdst hdst'
  have hks := storage_copy hk hkey
  have hvs := storage_copy hv hvalue
  refine ⟨fun s hs => ⟨?_, ?_⟩, ?_⟩
  · rcases hks with hks | hks
    · rw [hks]
      exact hfirst s hs
    · exact Region.apart_of_empty (Or.inl hks)
  · rcases hvs with hvs | hvs
    · rw [hvs]
      exact hsecond s (List.mem_cons_of_mem _ hs)
    · exact Region.apart_of_empty (Or.inl hvs)
  · rcases hvs with hvs | hvs
    · rcases hks with hks | hks
      · rw [hvs, hks]
        exact hsecond _ List.mem_cons_self
      · exact Region.apart_of_empty (Or.inr hks)
    · exact Region.apart_of_empty (Or.inl hvs)

theorem Closed.insertCopied_eq (h : Closed d) (hk : stlDictItemCheckType key = true)
    (hv : stlDictItemCheckType value = true) :
    d.insertCopied a b key value = (stlDictItemPairAlloc a b key value).map fun pair =>
      (d.prepended (fun _ _ => pair) key value ((d.hash key key.len).toNat % dictInitSize), 0) := by
  rw [StlDict.insertCopied, hk, hv, Bool.and_self, if_pos rfl]
  cases stlDictItemPairAlloc a b key value with
  | none => rfl
  | some pair =>
    exact h.insert_eq _ hk hv (h.index_eq key) (Nat.mod_lt _ (by decide))

/-- A pair holds faithful copies when the lengths of both items are as in `Survives`. -/
theorem copies_faithfully_iff (hd : Reached d) (hwk : WellFormed key) (hwv : WellFormed value)
    (ha : Allocated a b key value) : CopiesFaithfully d a b key value ↔
      (stlDictItemCheckType key = true ∧ stlDictItemCheckType value = true →
        Survives key ∧ Survives value) := by
  by_cases ht : stlDictItemCheckType key = true ∧ stlDictItemCheckType value = true
  · obtain ⟨hk, hv⟩ := ht
    have hrun := hd.closed.insertCopied_eq (a := a) (b := b) hk hv
    rw [CopiesFaithfully, hrun, ← kept_iff (p := a) hwk hk, ← kept_iff (p := b) hwv hv]
    constructor
    · rintro ⟨d', r, heq, -, hstored⟩ -
      obtain ⟨⟨pairKey, pairValue⟩, hpair, heq⟩ := Option.map_eq_some_iff.mp heq
      cases heq
      obtain ⟨hcopyKey, hcopyValue⟩ := pairAlloc_eq_some.mp hpair
      obtain ⟨x, hx, hkey, hvalue, -⟩ := hstored rfl
      simp only [StlDict.prepended, update_self, Option.some.injEq] at hx
      subst hx
      exact ⟨⟨pairKey, hcopyKey, hkey⟩, pairValue, hcopyValue, hvalue⟩
    · intro hkept
      obtain ⟨⟨pairKey, hcopyKey, hkey⟩, pairValue, hcopyValue, hvalue⟩ := hkept ⟨hk, hv⟩
      rw [pairAlloc_eq_some.mpr ⟨hcopyKey, hcopyValue⟩]
      refine ⟨_, _, rfl, fun n hn => update_of_ne hn _ _, fun _ => ⟨_, update_self _ _ _, ?_⟩⟩
      exact ⟨hkey, hvalue, ha.apart hcopyKey hcopyValue hkey hvalue⟩
  · refine iff_of_true ⟨d, -1, ?_, fun _ _ => rfl, ?_⟩ fun h => absurd h ht
    · rw [StlDict.insertCopied, if_neg]
      rwa [Bool.and_eq_true]
    · intro h
      cases h

section Examples

def longName : Str := ['1', '0', '.', '0', '.', '0', '.', '1', ':', '1'].map chr

def opaqueItem : StlDictItem Located := ⟨⟨0x4000, List.replicate 16 7⟩, 4, 16⟩

def numberItem : StlDictItem Located := ⟨⟨5, []⟩, 0, 8⟩

theorem allocSize_le (htype : stlDictItemCheckType item = true)
    (hdst : memcpyItem item = some dst) :
    allocSize dst item ≤ item.data.text.length + itemSize := by
  have hlen : item.len.toNat ≤ itemSize := by
    by_contra h
    rw [memcpyItem, if_neg h] at hdst
    cases hdst
  obtain ⟨dst', hdst', -, -, hdlen⟩ := memcpyItem_eq hlen htype
  cases hdst'.symm.trans hdst
  rw [allocSize]
  split
  · have hprefix := (List.takeWhile_prefix (· ≠ 0) (l := item.data.text)).length_le
    rw [itemSize]
    omega
  · split
    · have hsmall : dst.len.toNat ≤ item.len.toNat := by
        rw [hdlen]
        split
        · exact Nat.le_refl _
        · exact Nat.zero_le _
      omega
    · exact Nat.zero_le _

theorem allocated_between (hk : stlDictItemCheckType key = true)
    (hv : stlDictItemCheckType value = true) (hks : key.data.text.length ≤ 0x800)
    (hvs : value.data.text.length ≤ 0x800) (hvalue : value.data.addr.toNat ≤ 0x4000)
    (hkey : 0x8000 ≤ key.data.addr.toNat) : Allocated 0x5000 0x6000 key value := by
  have hbehind : (storage value).start + (storage value).size ≤ 0x5000 := by
    rw [storage]
    dsimp only
    split <;> [skip; split] <;> omega
  have serves : ∀ (n : ℕ) (p : BitVec 64), n ≤ 0x900 → 0x5000 ≤ p.toNat → p.toNat ≤ 0x6000 →
      Serves [storage key, storage value] n p := by
    intro n p hn hlow hhigh r hr
    rw [List.mem_cons, List.mem_singleton] at hr
    rcases hr with rfl | rfl
    · intro x hx hx' hs
      have hs : key.data.addr.toNat ≤ x := hs
      dsimp only at hx hx'
      omega
    · intro x hx hx' hs
      dsimp only at hx hx'
      omega
  refine ⟨fun dst hdst => ?_, fun dst dst' hdst hdst' r hr => ?_⟩
  · have hsize := allocSize_le hk hdst
    rw [itemSize] at hsize
    exact serves _ _ (by omega) (by decide) (by decide)
  · have hsize := allocSize_le hk hdst
    have hsize' := allocSize_le hv hdst'
    rw [itemSize] at hsize hsize'
    rcases List.mem_cons.mp hr with rfl | hr
    · intro x hx hx' hs
      have hx : 0x6000 ≤ x := hx
      have hgoal : 0x5000 + allocSize dst key ≤ x := by omega
      exact hgoal
    · exact serves _ _ (by omega) (by decide) (by decide) r hr

theorem copies_faithfully_long :
    CopiesFaithfully serviceInfo 0x5000 0x6000 (strKey 0x1002000 longName 10) opaqueItem := by
  refine (copies_faithfully_iff reached_serviceInfo ⟨fun _ => by decide, fun h => ?_⟩
    ⟨fun h => ?_, fun _ => by decide⟩ (allocated_between rfl rfl (by decide) (by decide)
      (by decide) (by decide))).mpr fun _ => ⟨?_, ?_⟩
  · exact absurd h (by decide)
  · exact absurd h (by decide)
  · unfold Survives
    decide
  · unfold Survives
    decide

/-- A short name loses its type and an integer its length. -/
theorem copies_unfaithful_short :
    Reached serviceInfo ∧ WellFormed (strKey 0x1002000 nodeName 3) ∧ WellFormed numberItem ∧
      Allocated 0x5000 0x6000 (strKey 0x1002000 nodeName 3) numberItem ∧
      ((serviceInfo.insertCopied 0x5000 0x6000 (strKey 0x1002000 nodeName 3) numberItem).bind
        fun r => (r.1.heap 0).map fun x => (r.2, x.key.dataType, x.value.len)) = some (0, 0, 0) ∧
      ¬ CopiesFaithfully serviceInfo 0x5000 0x6000 (strKey 0x1002000 nodeName 3) numberItem := by
  have hrun : ((serviceInfo.insertCopied 0x5000 0x6000 (strKey 0x1002000 nodeName 3)
      numberItem).bind fun r => (r.1.heap 0).map fun x => (r.2, x.key.dataType, x.value.len)) =
        some (0, 0, 0) := by decide +kernel
  refine ⟨reached_serviceInfo, ⟨fun _ => by decide, fun h => absurd h (by decide)⟩,
    ⟨fun h => absurd h (by decide), fun h => absurd h (by decide)⟩,
    allocated_between rfl rfl (by decide) (by decide) (by decide) (by decide), hrun, ?_⟩
  rintro ⟨d', r, heq, -, hstored⟩
  rw [heq, Option.bind_some] at hrun
  obtain ⟨x, hx, hfields⟩ := Option.map_eq_some_iff.mp hrun
  obtain ⟨hr, htype, -⟩ : r = 0 ∧ x.key.dataType = 0 ∧ x.value.len = 0 := by
    simpa using hfields
  obtain ⟨y, hy, hkey, -⟩ := hstored hr
  cases hx.symm.trans hy
  exact absurd (htype.symm.trans hkey.dataType) (by decide)

end Examples

end KirinFS.Dict
