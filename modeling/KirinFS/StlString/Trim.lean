import KirinFS.StlString.Contents

/-! # Trimming

Spaces are removed in place. A long text that becomes short is moved into the
string.
-/

namespace KirinFS.StlString
open Foundation.Bytes Foundation.CString Function Memory

variable {m m' : Memory} {k : ℕ} {c c' : StlString} {x : Str}

/-- `stl_string_trim` leaves the string holding `x` without its spaces. -/
def Trims (m : Memory) (k : ℕ) (x : Str) : Prop :=
  ∃ m' c', m.stlStringTrim k = some m' ∧ m'.strs[k]? = some c' ∧ Carries m' c' (trimmed x)

theorem trimmed_isStr (hx : IsStr x) : IsStr (trimmed x) :=
  fun b hb => hx b (List.mem_of_mem_filter hb)

theorem trimmed_length_le (x : Str) : (trimmed x).length ≤ x.length := List.length_filter_le _ _

/-- The exact inputs: nothing to do, a long text that becomes short, or one without spaces. -/
def TrimFits (x : Str) : Prop :=
  x = [] ∨ (stlStringInlineLen ≤ x.length ∧ x.length < 2 ^ 31 ∧
    ((0 < (trimmed x).length ∧ (trimmed x).length < stlStringInlineLen) ∨
      (trimmed x).length = x.length))

theorem setObject_block (p : ℕ) (obj : List UInt8) :
    m.setObject (.block p) obj = m.withBlock p obj := rfl

/-- The loop over a well-formed text, and what follows it. -/
theorem trim_eq (hk : m.strs[k]? = some c) (h : Carries m c x) (hlt : x.length < 2 ^ 31) :
    ∃ z, m.object (stlStringData k c) = some (x ++ 0 :: z) ∧ m.stlStringTrim k = (do
      let m := m.setObject (stlStringData k c)
        (trimmed x ++ (x ++ 0 :: z).drop (trimmed x).length)
      if (trimmed x).length = 0 then return m
      else if (trimmed x).length < stlStringInlineLen then
        let m := m.modifyStr k (·.setPtr 0)
        let moved ← m.load (stlStringData k c) (trimmed x).length
        let m ← m.store (.inData k) 0 moved
        let m ← m.store (.inData k) (trimmed x).length [0]
        let m ← m.free (stlStringData k c)
        return m.modifyStr k (·.setLen (trimmed x).length)
      else return m.modifyStr k (·.setLen (trimmed x).length)) := by
  obtain ⟨z, hobj⟩ := h.object_eq hk
  have hloop := trimLoop_eq (x ++ 0 :: z) (n := x.length) (by simp)
  rw [List.take_left] at hloop
  have hcount : ¬ 2 ^ 31 ≤ x.length := Nat.not_le.mpr hlt
  refine ⟨z, hobj, ?_⟩
  rw [stlStringTrim, hk]
  simp only [Option.bind_eq_bind, Option.bind_some, h.len, hcount, if_false, hobj, hloop]

theorem trim_nothing (hk : m.strs[k]? = some c) (h : Carries m c x) (hlt : x.length < 2 ^ 31)
    (hnil : trimmed x = []) : m.stlStringTrim k = some m := by
  obtain ⟨z, hobj, heq⟩ := trim_eq hk h hlt
  rw [heq, hnil]
  simp only [List.nil_append, List.length_nil, List.drop_zero, if_true, setObject_same hobj]
  rfl

/-- In the short form the text itself is freed. -/
theorem trim_inline (hk : m.strs[k]? = some c) (h : Carries m c x)
    (hshort : x.length < stlStringInlineLen) (hne : trimmed x ≠ []) : m.stlStringTrim k = none := by
  obtain ⟨z, -, heq⟩ := trim_eq hk h (hshort.trans (by decide))
  have hplace := h.inline hshort k
  have hpos := List.length_pos_iff.mpr hne
  have hzero : ¬ (trimmed x).length = 0 := by omega
  have hle := trimmed_length_le x
  have hlt : (trimmed x).length < stlStringInlineLen := by omega
  rw [heq]
  simp only [hplace, hzero, if_false, hlt, if_true, free, Option.bind_eq_bind, Option.bind_none,
    Option.bind_fun_none]

/-- A long text that becomes short is moved into the string. -/
theorem trim_moved (hk : m.strs[k]? = some c) (h : Carries m c x) (hlt : x.length < 2 ^ 31)
    (hlong : stlStringInlineLen ≤ x.length) (hne : trimmed x ≠ [])
    (hshort : (trimmed x).length < stlStringInlineLen) :
    ∃ m', m.stlStringTrim k = some m' ∧ m'.strs[k]? = some (shortStr (trimmed x)) := by
  obtain ⟨z, -, heq⟩ := trim_eq hk h hlt
  have hplace := h.block hlong k
  have hpos := List.length_pos_iff.mpr hne
  have hzero : ¬ (trimmed x).length = 0 := by omega
  obtain ⟨m₁, m₂, m₃, hload, hfirst, hend, hfree, hstrs, -⟩ := move_inline hk (h.long hlong).1
    (List.take_left : (trimmed x ++ (x ++ 0 :: z).drop (trimmed x).length).take _ = trimmed x)
    hshort
  refine ⟨_, ?_, by rw [hstrs]; exact withStr_self (m := m) hk⟩
  rw [heq]
  simp only [hplace, hzero, if_false, hshort, if_true, setObject_block, Option.bind_eq_bind]
  rw [hload, Option.bind_some, hfirst, Option.bind_some, hend, Option.bind_some, hfree]
  rfl

theorem trim_stays (hk : m.strs[k]? = some c) (h : Carries m c x) (hlt : x.length < 2 ^ 31)
    (hlong : stlStringInlineLen ≤ (trimmed x).length) :
    ∃ z, m.stlStringTrim k = some (m.withBoth k (c.setLen (trimmed x).length) c.ptr
      (trimmed x ++ (x ++ 0 :: z).drop (trimmed x).length)) := by
  obtain ⟨z, -, heq⟩ := trim_eq hk h hlt
  have hle := trimmed_length_le x
  have hplace := h.block (hlong.trans hle) k
  have hzero : ¬ (trimmed x).length = 0 := by
    have hpos : 0 < stlStringInlineLen := by decide
    omega
  have hnot : ¬ (trimmed x).length < stlStringInlineLen := Nat.not_lt.mpr hlong
  refine ⟨z, ?_⟩
  rw [heq]
  simp only [hplace, hzero, if_false, hnot, setObject_block]
  rw [withBlock_modifyStr hk]
  rfl

/-- A text of spaces, or none, is right just if it is empty. -/
theorem trims_nothing_iff (hk : m.strs[k]? = some c) (h : Carries m c x) (hlt : x.length < 2 ^ 31)
    (hnil : trimmed x = []) : Trims m k x ↔ x = [] := by
  constructor
  · rintro ⟨m', c', heq, hk', hc'⟩
    rw [trim_nothing hk h hlt hnil] at heq
    cases heq
    obtain rfl := Option.some.inj (hk.symm.trans hk')
    have hlen := h.len.symm.trans hc'.len
    rw [hnil] at hlen
    exact List.length_eq_zero_iff.mp hlen
  · rintro rfl
    exact ⟨m, c, trim_nothing hk h hlt hnil, hk, h⟩

/-- Behind a text that stays long is the byte that was there. -/
theorem trimmed_ends_iff (hx : IsStr x) (z : List UInt8) :
    trimmed x ++ [0] <+: trimmed x ++ (x ++ 0 :: z).drop (trimmed x).length ↔
      (trimmed x).length = x.length := by
  rw [ends_iff, List.getElem?_append_right (Nat.le_refl _), Nat.sub_self, List.getElem?_drop,
    Nat.add_zero]
  rcases Nat.eq_or_lt_of_le (trimmed_length_le x) with heq | hfewer
  · simp [heq]
  · rw [List.getElem?_append_left hfewer, List.getElem?_eq_getElem hfewer]
    simp [hx _ (List.getElem_mem hfewer), Nat.ne_of_lt hfewer]

/-- A text that stays long is right just if it has no spaces. -/
theorem trims_stays_iff (hk : m.strs[k]? = some c) (h : Carries m c x) (hlt : x.length < 2 ^ 31)
    (hlong : stlStringInlineLen ≤ (trimmed x).length) :
    Trims m k x ↔ (trimmed x).length = x.length := by
  obtain ⟨z, heq⟩ := trim_stays hk h hlt hlong
  have hself : (m.withBoth k (c.setLen (trimmed x).length) c.ptr
      (trimmed x ++ (x ++ 0 :: z).drop (trimmed x).length)).strs[k]? =
        some (c.setLen (trimmed x).length) := withBoth_self hk
  rw [← trimmed_ends_iff h.str z]
  constructor
  · rintro ⟨m', c', hrun, hk', hc'⟩
    rw [heq] at hrun
    cases hrun
    obtain rfl := Option.some.inj (hself.symm.trans hk')
    obtain ⟨-, obj, hobj, hbegins⟩ := hc'.long hlong
    obtain rfl := Option.some.inj ((update_self c.ptr _ _).symm.trans hobj)
    exact hbegins
  · intro hends
    refine ⟨_, _, heq, hself, trimmed_isStr h.str, h.size, rfl, fun hshort => ?_, fun _ => ?_⟩
    · exact absurd hshort (Nat.not_lt.mpr hlong)
    · exact ⟨(h.long (hlong.trans (trimmed_length_le x))).1, _, update_self _ _ _, hends⟩

/-- `stl_string_trim` does what it should just for these. -/
theorem trims_iff (hk : m.strs[k]? = some c) (h : Carries m c x) : Trims m k x ↔ TrimFits x := by
  have hle := trimmed_length_le x
  have hempty : x = [] ↔ x.length = 0 := List.length_eq_zero_iff.symm
  have hpos : 0 < stlStringInlineLen := by decide
  rw [TrimFits, hempty]
  rcases Nat.lt_or_ge x.length (2 ^ 31) with hlt | hbig
  · by_cases hnil : trimmed x = []
    · rw [trims_nothing_iff hk h hlt hnil, hempty, hnil, List.length_nil]
      omega
    have hsome := List.length_pos_iff.mpr hnil
    rcases Nat.lt_or_ge x.length stlStringInlineLen with hshort | hlong
    · refine iff_of_false ?_ (by omega)
      rintro ⟨m', c', heq, -⟩
      rw [trim_inline hk h hshort hnil] at heq
      cases heq
    rcases Nat.lt_or_ge (trimmed x).length stlStringInlineLen with hless | hmore
    · obtain ⟨m', heq, hk'⟩ := trim_moved hk h hlt hlong hnil hless
      exact iff_of_true ⟨m', _, heq, hk', carries_shortStr (trimmed_isStr h.str) hless⟩
        (Or.inr ⟨hlong, hlt, Or.inl ⟨hsome, hless⟩⟩)
    · rw [trims_stays_iff hk h hlt hmore]
      omega
  · refine iff_of_false ?_ (by omega)
    rintro ⟨m', c', heq, -⟩
    rw [stlStringTrim, hk] at heq
    simp only [Option.bind_eq_bind, Option.bind_some, h.len, hbig, if_true] at heq
    cases heq

section Examples

def longMemory (x : Str) : Memory :=
  ⟨update (fun _ => none) 16 (some (x ++ [0])), [longStr 16 x]⟩

theorem carries_longMemory {x : Str} (hx : IsStr x) (hlong : stlStringInlineLen ≤ x.length) :
    Carries (longMemory x) (longStr 16 x) x where
  str := hx
  size := rfl
  len := rfl
  short hlt := absurd hlt (Nat.not_lt.mpr hlong)
  long _ := by
    have hptr : (longStr 16 x).ptr = 16 := ptr_toBytes (by decide) _
    rw [hptr]
    exact ⟨by decide, x ++ [0], rfl, List.prefix_rfl⟩

def testText : Str := str ['a', ' ', 'd', ' ', 'd', ' ', 'N', ' ', 'M']

theorem trims_test : Trims (longMemory testText) 0 testText :=
  (trims_iff rfl (carries_longMemory (by decide) (by decide))).mpr
    (Or.inr ⟨by decide, by decide, Or.inl ⟨by decide, by decide⟩⟩)

/-- A short text with a space in it: the string itself is freed. -/
theorem not_trims_short :
    noStrings.stlStringAlloc (str ['a', ' ', 'b']) none =
      some (shortMemory (str ['a', ' ', 'b'])) ∧
    (∃ c, (shortMemory (str ['a', ' ', 'b'])).strs[0]? = some c ∧
      Carries (shortMemory (str ['a', ' ', 'b'])) c (str ['a', ' ', 'b'])) ∧
    ¬ Trims (shortMemory (str ['a', ' ', 'b'])) 0 (str ['a', ' ', 'b']) := by
  have hcarries : Carries (shortMemory (str ['a', ' ', 'b'])) (shortStr (str ['a', ' ', 'b']))
      (str ['a', ' ', 'b']) := carries_shortStr (by decide) (by decide)
  refine ⟨rfl, ⟨_, rfl, hcarries⟩, ?_⟩
  rintro ⟨m', c', hrun, -⟩
  rw [trim_inline rfl hcarries (by decide) (by decide)] at hrun
  cases hrun

end Examples

end KirinFS.StlString
