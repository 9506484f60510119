import KirinFS.StlString.Runs

/-! # The content of a string

A string is well-formed if its text lies in its form with a zero behind,
whatever stands behind that.
-/

namespace KirinFS.StlString
open Foundation.Bytes Foundation.CString Function Memory

/-- `c` is well-formed and holds `x`. -/
structure Carries (m : Memory) (c : StlString) (x : Str) : Prop where
  str : IsStr x
  size : c.data.length = stlStringInlineLen
  len : c.len = x.length
  short : x.length < stlStringInlineLen → x ++ [0] <+: c.data
  long : stlStringInlineLen ≤ x.length → c.ptr ≠ 0 ∧ ∃ obj, m.heap c.ptr = some obj ∧ x ++ [0] <+: obj

variable {m m' : Memory} {k : ℕ} {c c' : StlString} {x s : Str}

section Bytes

/-- A text with its terminator in front of other bytes. -/
theorem begins_iff {obj : List UInt8} : x ++ [0] <+: obj ↔ ∃ z, obj = x ++ 0 :: z := by
  constructor
  · rintro ⟨z, rfl⟩
    exact ⟨z, by rw [List.append_assoc]; rfl⟩
  · rintro ⟨z, rfl⟩
    exact ⟨z, by rw [List.append_assoc]; rfl⟩

theorem ends_iff {z : List UInt8} : x ++ [0] <+: x ++ z ↔ (x ++ z)[x.length]? = some 0 := by
  rw [List.prefix_append_right_inj, List.getElem?_append_right (Nat.le_refl _), Nat.sub_self]
  cases z with
  | nil => simp
  | cons b z => simp [List.cons_prefix_cons, eq_comm]

theorem begins_inj {y : Str} {z : List UInt8} (h : x ++ [0] <+: y ++ z)
    (hlen : x.length = y.length) : x = y := by
  obtain ⟨w, hw⟩ := begins_iff.mp h
  exact List.append_inj_left hw.symm hlen

end Bytes

namespace Carries

theorem inline (h : Carries m c x) (hshort : x.length < stlStringInlineLen) (k : ℕ) :
    stlStringData k c = .inData k := if_pos (by rw [h.len]; exact hshort)

theorem block (h : Carries m c x) (hlong : stlStringInlineLen ≤ x.length) (k : ℕ) :
    stlStringData k c = .block c.ptr := if_neg (by rw [h.len]; exact Nat.not_lt.mpr hlong)

theorem object_eq (h : Carries m c x) (hk : m.strs[k]? = some c) :
    ∃ z, m.object (stlStringData k c) = some (x ++ 0 :: z) := by
  rcases Nat.lt_or_ge x.length stlStringInlineLen with hshort | hlong
  · obtain ⟨z, hz⟩ := begins_iff.mp (h.short hshort)
    exact ⟨z, by rw [h.inline hshort, object, hk, Option.map_some, hz]⟩
  · obtain ⟨-, obj, hobj, hx⟩ := h.long hlong
    obtain ⟨z, rfl⟩ := begins_iff.mp hx
    exact ⟨z, by rw [h.block hlong, object, hobj]⟩

end Carries

theorem carries_shortStr (hx : IsStr x) (hlt : x.length < stlStringInlineLen) :
    Carries m (shortStr x) x where
  str := hx
  size := by
    simp only [shortStr, List.length_append, List.length_replicate]
    omega
  len := rfl
  short _ := by
    have hroom : stlStringInlineLen - x.length = stlStringInlineLen - x.length - 1 + 1 := by omega
    refine begins_iff.mpr ⟨List.replicate (stlStringInlineLen - x.length - 1) 0, ?_⟩
    rw [shortStr, hroom, List.replicate_succ, Nat.add_sub_cancel]
  long hlong := absurd hlt (Nat.not_lt.mpr hlong)

section Append
variable {base : ℕ} {junk : ℕ → UInt8}

/-- `stl_string_append` returns 0 and leaves the string holding `x` followed by `s`. -/
def Appends (m : Memory) (k : ℕ) (x s : Str) (base : ℕ) (junk : ℕ → UInt8) : Prop :=
  ∃ m' c', m.stlStringAppend k s base junk = some (m', 0) ∧ m'.strs[k]? = some c' ∧
    Carries m' c' (x ++ s)

theorem append_short (hk : m.strs[k]? = some c) (h : Carries m c x)
    (hlt : x.length + s.length < stlStringInlineLen) : m.stlStringAppend k s base junk =
      some (m.withStr k ⟨splice c.data x.length s, x.length + s.length⟩, 0) := by
  rw [stlStringAppend, hk]
  simp only [Option.bind_eq_bind, Option.bind_some, h.len, hlt, if_true, stlStringData,
    StlString.setLen]
  rw [modifyStr_eq hk, store_inData (withStr_self hk), withStr_withStr]
  · rfl
  · have hsize := h.size
    simp only
    omega

/-- What is copied from the place where the text is supposed to be. -/
theorem loadStr_length {place : Place} {n : ℕ} {old : List UInt8}
    (h : m.loadStr place n = some old) : old.length = n := by
  rw [loadStr] at h
  split at h
  · next hzero =>
    cases h
    exact hzero.symm
  · obtain ⟨obj, -, h⟩ := Option.bind_eq_some_iff.mp h
    simp only at h
    split at h
    · cases h
      have hle : ((obj.take n).takeWhile (· ≠ 0)).length ≤ n :=
        (List.takeWhile_prefix _).length_le.trans (List.length_take_le n obj)
      rw [List.length_append, List.length_replicate]
      omega
    · cases h

theorem loadStr_missing {place : Place} {n : ℕ} (hn : 0 < n) (hobj : m.object place = none) :
    m.loadStr place n = none := by
  rw [loadStr, if_neg (by omega), hobj]
  rfl

theorem loadStr_iff (hx : IsStr x) {place : Place} : m.loadStr place x.length = some x ↔
    x = [] ∨ ∃ obj, m.object place = some obj ∧ x <+: obj := by
  constructor
  · intro h
    rw [loadStr] at h
    split at h
    · next hzero => exact Or.inl (List.length_eq_zero_iff.mp hzero)
    · obtain ⟨obj, hobj, h⟩ := Option.bind_eq_some_iff.mp h
      refine Or.inr ⟨obj, hobj, ?_⟩
      simp only at h
      split at h
      · have heq := Option.some.inj h
        have hfull : x.length - ((obj.take x.length).takeWhile (· ≠ 0)).length = 0 := by
          by_contra hmore
          refine hx 0 ?_ rfl
          rw [← heq]
          exact List.mem_append_right _ (List.mem_replicate.mpr ⟨hmore, rfl⟩)
        rw [hfull, List.replicate_zero, List.append_nil] at heq
        rw [← heq]
        exact (List.takeWhile_prefix _).trans (List.take_prefix _ _)
      · cases h
  · rintro (rfl | ⟨obj, hobj, z, rfl⟩)
    · rfl
    · have hwhile : x.takeWhile (fun b => decide (b ≠ 0)) = x := by
        rw [List.takeWhile_eq_self_iff]
        intro b hb
        exact decide_eq_true (hx b hb)
      rw [loadStr]
      split
      · next hzero => rw [List.length_eq_zero_iff.mp hzero]
      · simp only [hobj, Option.bind_some, List.take_left, hwhile, Nat.sub_self,
          List.replicate_zero, List.append_nil]
        exact if_pos (Or.inl (by simp))

/-- Out of the short form: the old bytes come from where a pointer in `data` would lead. -/
theorem append_grow (hk : m.strs[k]? = some c) (h : Carries m c x)
    (hshort : x.length < stlStringInlineLen)
    (hlong : stlStringInlineLen ≤ x.length + s.length) (hbase : m.heap base = none) :
    m.stlStringAppend k s base junk = (m.loadStr (.block c.ptr) x.length).map fun old =>
      (m.withBoth k ⟨toBytes 8 base, x.length + s.length⟩ base (old ++ s ++ [0]), 0) := by
  have hnot : ¬ x.length + s.length < stlStringInlineLen := Nat.not_lt.mpr hlong
  have hblock : (m.modifyStr k (·.setLen (x.length + s.length))).calloc base
      (x.length + s.length + 1) = m.withBoth k (c.setLen (x.length + s.length)) base
        (List.replicate (x.length + s.length + 1) 0) := by
    rw [modifyStr_eq hk]
    rfl
  have hplace : stlStringData k (c.setLen (x.length + s.length)) = .block c.ptr := if_neg hnot
  have hold : ∀ old : List UInt8, old.length = x.length →
      (m.withBoth k (c.setLen (x.length + s.length)) base
          (List.replicate (x.length + s.length + 1) 0)).store (.block base) 0 old =
        some (m.withBoth k (c.setLen (x.length + s.length)) base
          (old ++ List.replicate (s.length + 1) 0)) := by
    intro old hlen
    rw [fill_zeros (by omega), hlen, Nat.add_assoc, Nat.add_sub_cancel_left]
  have hnew : ∀ old : List UInt8, old.length = x.length →
      (m.withBoth k (c.setLen (x.length + s.length)) base
          (old ++ List.replicate (s.length + 1) 0)).store (.block base) x.length s =
        some (m.withBoth k (c.setLen (x.length + s.length)) base (old ++ s ++ [0])) := by
    intro old hlen
    have hroom : x.length + s.length ≤ (old ++ List.replicate (s.length + 1) (0 : UInt8)).length := by
      rw [List.length_append, List.length_replicate, hlen]
      omega
    rw [withBoth_store hroom, ← hlen, splice_at, List.drop_replicate, Nat.add_sub_cancel_left]
    rfl
  rw [stlStringAppend, hk]
  simp only [Option.bind_eq_bind, Option.bind_some, h.len, hnot, if_false, hshort, if_true,
    hblock, hplace]
  by_cases hsame : 0 < x.length ∧ c.ptr = base
  · obtain ⟨hpos, rfl⟩ := hsame
    have hnone : m.loadStr (.block c.ptr) x.length = none := loadStr_missing hpos hbase
    simp only [hpos, hnone, and_self, if_true, Option.bind_fun_none, Option.map_none]
  · have hload : (m.withBoth k (c.setLen (x.length + s.length)) base
        (List.replicate (x.length + s.length + 1) 0)).loadStr (.block c.ptr) x.length =
          m.loadStr (.block c.ptr) x.length := by
      rcases Nat.eq_zero_or_pos x.length with hzero | hpos
      · simp only [loadStr, hzero, if_true]
      · have hne : c.ptr ≠ base := fun heq => hsame ⟨hpos, heq⟩
        have hobj : (m.withBoth k (c.setLen (x.length + s.length)) base
            (List.replicate (x.length + s.length + 1) 0)).object (.block c.ptr) =
              m.object (.block c.ptr) := update_of_ne hne _ _
        rw [loadStr, loadStr, hobj]
    simp only [hload, Place.block.injEq, hsame, if_false]
    cases hcopy : m.loadStr (.block c.ptr) x.length with
    | none => rfl
    | some old =>
      have hlen := loadStr_length hcopy
      simp only [Option.bind_some, hold old hlen, hnew old hlen, Option.map_some]
      rw [withBoth_modifyStr hk]
      rfl

/-- In the long form the old text is copied onto itself, or from the block that was freed. -/
theorem append_long (hk : m.strs[k]? = some c) (h : Carries m c x)
    (hlong : stlStringInlineLen ≤ x.length) (hbase : Returned m k base) :
    m.stlStringAppend k s base junk = none := by
  obtain ⟨hne, obj, hobj, -⟩ := h.long hlong
  have hpos : 0 < x.length := Nat.lt_of_lt_of_le (by decide) hlong
  have hshort : ¬ x.length < stlStringInlineLen := Nat.not_lt.mpr hlong
  have hnot : ¬ x.length + s.length < stlStringInlineLen := by omega
  have hbase : base ≠ 0 := by
    rcases hbase with hfresh | ⟨d, hd, -, rfl⟩
    · exact hfresh.1
    · obtain rfl := Option.some.inj (hk.symm.trans hd)
      exact hne
  have hplace : stlStringData k (c.setLen (x.length + s.length)) = .block c.ptr := if_neg hnot
  rw [stlStringAppend, hk]
  simp only [Option.bind_eq_bind, Option.bind_some, h.len, hnot, if_false, hshort, hplace,
    modifyStr, realloc, hbase, hne, hobj, Option.map_some]
  by_cases hsame : c.ptr = base
  · simp only [hpos, hsame, and_self, if_true, Option.bind_fun_none]
  · have hfreed : ∀ new, update (update m.heap c.ptr none) base new c.ptr = none := by
      intro new
      rw [update_of_ne hsame, update_self]
    have hnone : ∀ strs new, loadStr ⟨update (update m.heap c.ptr none) base new, strs⟩
        (.block c.ptr) x.length = none := fun _ new => loadStr_missing hpos (hfreed new)
    rw [hnone, Option.bind_none]

/-- A short result is right just if there is a zero behind it already. -/
theorem appends_short_iff (hk : m.strs[k]? = some c) (h : Carries m c x) (hs : IsStr s)
    (hlt : x.length + s.length < stlStringInlineLen) :
    Appends m k x s base junk ↔ c.data[x.length + s.length]? = some 0 := by
  obtain ⟨z, hz⟩ := begins_iff.mp (h.short (by omega))
  have hdata : splice c.data x.length s = x ++ s ++ (0 :: z).drop s.length := by
    rw [hz, splice_at]
  have hbyte : (x ++ s ++ (0 :: z).drop s.length)[(x ++ s).length]? =
      c.data[x.length + s.length]? := by
    rw [hz, List.getElem?_append_right (Nat.le_refl _), Nat.sub_self, List.getElem?_drop,
      List.getElem?_append_right (by omega), Nat.add_zero, Nat.add_sub_cancel_left]
  have hself : (m.withStr k ⟨splice c.data x.length s, x.length + s.length⟩).strs[k]? =
      some ⟨splice c.data x.length s, x.length + s.length⟩ := withStr_self hk
  constructor
  · rintro ⟨m', c', heq, hk', hc'⟩
    rw [append_short hk h hlt] at heq
    cases heq
    obtain rfl := Option.some.inj (hself.symm.trans hk')
    have hends := hc'.short (by rw [List.length_append]; exact hlt)
    rwa [hdata, ends_iff, hbyte] at hends
  · intro hends
    refine ⟨_, _, append_short hk h hlt, hself, isStr_append h.str hs, ?_, ?_, fun _ => ?_,
      fun hle => ?_⟩
    · rw [splice_length (by rw [h.size]; omega), h.size]
    · rw [List.length_append]
    · rw [hdata, ends_iff, hbyte]
      exact hends
    · rw [List.length_append] at hle
      omega

/-- A result that leaves the short form is right just if the text is found where its bytes lead to
as a pointer. -/
theorem appends_grow_iff (hk : m.strs[k]? = some c) (h : Carries m c x) (hs : IsStr s)
    (hshort : x.length < stlStringInlineLen)
    (hlong : stlStringInlineLen ≤ x.length + s.length) (hfresh : Fresh m base) :
    Appends m k x s base junk ↔ x = [] ∨ ∃ obj, m.heap c.ptr = some obj ∧ x <+: obj := by
  have heq : m.stlStringAppend k s base junk = _ :=
    append_grow hk h hshort hlong hfresh.2.2
  have hself : ∀ old, (m.withBoth k ⟨toBytes 8 base, x.length + s.length⟩ base
      (old ++ s ++ [0])).strs[k]? = some ⟨toBytes 8 base, x.length + s.length⟩ :=
    fun old => withBoth_self hk
  have hptr := ptr_toBytes hfresh.2.1 (x.length + s.length)
  have hcopy : m.loadStr (.block c.ptr) x.length = some x ↔
      x = [] ∨ ∃ obj, m.object (.block c.ptr) = some obj ∧ x <+: obj := loadStr_iff h.str
  constructor
  · rintro ⟨m', c', hrun, hk', hc'⟩
    rw [heq] at hrun
    obtain ⟨old, hold, hm'⟩ := Option.map_eq_some_iff.mp hrun
    cases hm'
    obtain rfl := Option.some.inj ((hself old).symm.trans hk')
    obtain ⟨-, obj, hobj, hbegins⟩ := hc'.long (by rw [List.length_append]; exact hlong)
    rw [hptr] at hobj
    obtain rfl := Option.some.inj ((update_self base _ _).symm.trans hobj)
    have hsame := List.append_cancel_right (begins_inj hbegins (by simp [loadStr_length hold]))
    rw [← hsame] at hold
    exact hcopy.mp hold
  · intro hfound
    rw [hcopy.mpr hfound, Option.map_some] at heq
    refine ⟨_, _, heq, hself x, isStr_append h.str hs, toBytes_length _ _, ?_, fun hlt => ?_,
      fun _ => ?_⟩
    · rw [List.length_append]
    · rw [List.length_append] at hlt
      omega
    · rw [hptr]
      exact ⟨hfresh.1, _, update_self _ _ _, List.prefix_rfl⟩

/-- The exact inputs: the result is short and has a zero behind it, or it leaves the short form and
what the bytes of the short text point to as a pointer is the text itself. -/
def AppendFits (m : Memory) (c : StlString) (x s : Str) : Prop :=
  (x.length + s.length < stlStringInlineLen ∧ c.data[x.length + s.length]? = some 0) ∨
    (x.length < stlStringInlineLen ∧ stlStringInlineLen ≤ x.length + s.length ∧
      (x = [] ∨ ∃ obj, m.heap c.ptr = some obj ∧ x <+: obj))

/-- `stl_string_append` does what it should just for these. -/
theorem appends_iff (hk : m.strs[k]? = some c) (h : Carries m c x) (hs : IsStr s)
    (hbase : Returned m k base) (junk : ℕ → UInt8) :
    Appends m k x s base junk ↔ AppendFits m c x s := by
  rw [AppendFits]
  rcases Nat.lt_or_ge (x.length + s.length) stlStringInlineLen with hlt | hlong
  · rw [appends_short_iff hk h hs hlt]
    simp only [hlt, true_and, Nat.not_le.mpr hlt, false_and, and_false, or_false]
  rcases Nat.lt_or_ge x.length stlStringInlineLen with hshort | hle
  · have hfresh : Fresh m base := by
      refine hbase.resolve_right ?_
      rintro ⟨d, hd, hdlong, -⟩
      obtain rfl := Option.some.inj (hk.symm.trans hd)
      rw [h.len] at hdlong
      omega
    rw [appends_grow_iff hk h hs hshort hlong hfresh]
    simp only [Nat.not_lt.mpr hlong, false_and, false_or, hshort, hlong, true_and]
  · simp only [Nat.not_lt.mpr hlong, Nat.not_lt.mpr hle, false_and, or_false, iff_false]
    rintro ⟨m', c', heq, -⟩
    rw [append_long hk h hle hbase] at heq
    cases heq

end Append

section Examples

def shortMemory (x : Str) : Memory := ⟨fun _ => none, [shortStr x]⟩

theorem fresh_shortMemory (x : Str) : Fresh (shortMemory x) 16 := ⟨by decide, by decide, rfl⟩

/-- Two bytes and two more. -/
theorem appends_two : Appends (shortMemory (str ['a', 'b'])) 0 (str ['a', 'b']) (str ['c', 'd']) 16
    fun _ => 0 :=
  (appends_iff rfl (carries_shortStr (by decide) (by decide)) (by decide)
    (Or.inl (fresh_shortMemory _)) _).mpr (Or.inl ⟨by decide, by decide⟩)

/-- Three bytes and five more, which do not fit any longer: the text is read as a pointer. -/
theorem not_appends_five :
    noStrings.stlStringAlloc (str ['a', 'b', 'c']) none =
      some (shortMemory (str ['a', 'b', 'c'])) ∧
    (∃ c, (shortMemory (str ['a', 'b', 'c'])).strs[0]? = some c ∧
      Carries (shortMemory (str ['a', 'b', 'c'])) c (str ['a', 'b', 'c'])) ∧
    Returned (shortMemory (str ['a', 'b', 'c'])) 0 16 ∧
    ¬ Appends (shortMemory (str ['a', 'b', 'c'])) 0 (str ['a', 'b', 'c'])
      (str ['d', 'e', 'f', 'g', 'h']) 16 fun _ => 0 := by
  have hcarries : Carries (shortMemory (str ['a', 'b', 'c'])) (shortStr (str ['a', 'b', 'c']))
      (str ['a', 'b', 'c']) := carries_shortStr (by decide) (by decide)
  refine ⟨rfl, ⟨_, rfl, hcarries⟩, Or.inl (fresh_shortMemory _), ?_⟩
  rintro ⟨m', c', hrun, -⟩
  rw [append_grow rfl hcarries (by decide) (by decide) rfl, loadStr_missing (by decide) rfl] at hrun
  cases hrun

end Examples

end KirinFS.StlString
