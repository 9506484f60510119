import KirinFS.StlString.ShortForm

/-! # Operations that keep the form

Every operation has inputs for which it keeps all strings in their form, and
others for which it does not.
-/

namespace KirinFS.StlString
open Foundation.Bytes Foundation.CString Function

variable {m m' : Memory} {k : ℕ} {c c' : StlString} {s : Str}

section Forms
open Memory
variable {p : ℕ}

theorem replicate_splice (n : ℕ) (s : List UInt8) :
    splice (List.replicate n (0 : UInt8)) 0 s = s ++ List.replicate (n - s.length) 0 := by
  simp [splice]

theorem fill_zeros {n : ℕ} (hn : s.length ≤ n) : (m.withBoth k c p (List.replicate n 0)).store
    (.block p) 0 s = some (m.withBoth k c p (s ++ List.replicate (n - s.length) 0)) := by
  rw [withBoth_store (by rw [Nat.zero_add, List.length_replicate]; exact hn), replicate_splice]

theorem fill_block (s : Str) : (m.withBoth k c p (List.replicate (s.length + 1) 0)).store
    (.block p) 0 s = some (m.withBoth k c p (s ++ [0])) := by
  rw [fill_zeros (Nat.le_add_right s.length 1), Nat.add_sub_cancel_left]
  rfl

theorem fill_inData (hk : m.strs[k]? = some c) (hzero : c.data = (shortStr []).data)
    (hlt : s.length < stlStringInlineLen) :
    m.store (.inData k) 0 s = some (m.withStr k { c with data := (shortStr s).data }) := by
  have hdata : splice (shortStr []).data 0 s = (shortStr s).data := by
    simp only [shortStr, List.nil_append, List.length_nil, Nat.sub_zero, replicate_splice]
  rw [store_inData hk, hzero, hdata]
  rw [hzero]
  simp only [shortStr, List.nil_append, List.length_nil, List.length_replicate]
  omega

theorem end_inData (hk : m.strs[k]? = some c) (hdata : c.data = (shortStr s).data)
    (hlt : s.length < stlStringInlineLen) : m.store (.inData k) s.length [0] = some m := by
  have hend := splice_same (shortStr_end hlt)
  rw [← hdata] at hend
  rw [store_inData hk, hend, withStr_same hk]
  rw [hdata]
  simp only [shortStr, List.length_append, List.length_replicate, List.length_singleton]
  omega

theorem end_block (hp : m.heap p = some (s ++ [0])) :
    m.store (.block p) s.length [0] = some m := by
  have hend : splice (s ++ [0]) s.length [0] = s ++ [0] := splice_same (by simp)
  rw [store_block hp (by simp), hend, withBlock, ← hp, update_eq_self]

theorem init_kept (hK : Kept m) (hk : m.strs[k]? = some (shortStr [])) (hs : IsStr s)
    {base : Option ℕ} (hfresh : ∀ p ∈ base, Fresh m p)
    (hbase : stlStringInlineLen ≤ s.length → base ≠ none) :
    ∃ m' c', m.stlStringInit k s base = some m' ∧ m'.strs = m.strs.set k c' ∧ Holds m' c' s ∧
      Kept m' := by
  by_cases hlong : stlStringInlineLen ≤ s.length
  · obtain ⟨p, rfl⟩ := Option.ne_none_iff_exists'.mp (hbase hlong)
    have hblock : (m.calloc p (s.length + 1)).modifyStr k (·.setPtr p) =
        m.withBoth k ((shortStr []).setPtr p) p (List.replicate (s.length + 1) 0) :=
      withBlock_modifyStr hk _
    have heq : m.stlStringInit k s (some p) = some (m.withBoth k (longStr p s) p (s ++ [0])) := by
      rw [stlStringInit, if_pos hlong]
      simp only [Option.bind_eq_bind, Option.bind_some]
      rw [hblock, fill_block, Option.bind_some, withBoth_modifyStr hk]
      exact end_block (update_self _ _ _)
    obtain ⟨hnew, hkept⟩ := hK.toLong hk hs hlong (hfresh p rfl)
      (rfl : (m.withBoth k (longStr p s) p (s ++ [0])).strs = _) rfl
    exact ⟨_, _, heq, rfl, hnew, hkept⟩
  · have hlt := Nat.not_le.mp hlong
    have heq : m.stlStringInit k s base = some (m.withStr k (shortStr s)) := by
      rw [stlStringInit, if_neg hlong, fill_inData hk rfl hlt]
      simp only [Option.bind_eq_bind, Option.bind_some]
      rw [modifyStr_eq (withStr_self hk), withStr_withStr]
      exact end_inData (c := shortStr s) (withStr_self hk) rfl hlt
    obtain ⟨hnew, hkept⟩ := hK.toShort hk hs hlt
      (rfl : (m.withStr k (shortStr s)).strs = _) (fun _ _ _ => rfl)
    exact ⟨_, _, heq, rfl, hnew, hkept⟩

/-- `stl_string_alloc` puts a string behind the others. -/
theorem alloc_kept (hK : Kept m) (hs : IsStr s) {base : Option ℕ}
    (hfresh : ∀ p ∈ base, Fresh m p) (hbase : stlStringInlineLen ≤ s.length → base ≠ none) :
    ∃ m', m.stlStringAlloc s base = some m' ∧ Kept m' := by
  have hpush : Kept { m with strs := m.strs ++ [shortStr []] } := by
    refine ⟨?_, ?_⟩
    · intro d hd
      rcases List.mem_append.mp hd with hd | hd
      · obtain ⟨t, ht⟩ := hK.holds d hd
        exact ⟨t, ht.congr fun _ => rfl⟩
      · obtain rfl := List.mem_singleton.mp hd
        exact ⟨[], by simp [IsStr], rfl, fun _ => rfl, fun h => absurd h (by decide)⟩
    · have hold : ∀ (j : ℕ) (d : StlString), (m.strs ++ [shortStr []])[j]? = some d →
          stlStringInlineLen ≤ d.len → m.strs[j]? = some d := by
        intro j d hd hlong
        rcases Nat.lt_or_ge j m.strs.length with hj | hj
        · rwa [List.getElem?_append_left hj] at hd
        · rw [List.getElem?_append_right hj, List.getElem?_singleton] at hd
          split at hd
          · cases hd
            exact absurd hlong (by decide)
          · cases hd
      intro i j a b ha hb hij hla hlb
      exact hK.apart i j a b (hold i a ha hla) (hold j b hb hlb) hij hla hlb
  have hlast : ({ m with strs := m.strs ++ [shortStr []] } : Memory).strs[m.strs.length]? =
      some (shortStr []) := by simp
  obtain ⟨m', c', heq, -, -, hkept⟩ := init_kept hpush hlast hs hfresh hbase
  exact ⟨m', heq, hkept⟩

/-- Appending keeps the form if the result is short or the string was empty. -/
theorem append_kept (hK : Kept m) (hk : m.strs[k]? = some c) (h : Holds m c s) {t : Str}
    (ht : IsStr t) (hform : s.length + t.length < stlStringInlineLen ∨ s.length = 0) {base : ℕ}
    (hfresh : stlStringInlineLen ≤ s.length + t.length → Fresh m base) (junk : ℕ → UInt8) :
    ∃ m' c', m.stlStringAppend k t base junk = some (m', 0) ∧ m'.strs = m.strs.set k c' ∧
      Holds m' c' (s ++ t) ∧ Kept m' := by
  have hst := isStr_append h.str ht
  have hc : c = shortStr s := by
    refine h.eq_shortStr ?_
    rcases hform with hform | hform
    · omega
    · rw [hform]
      decide
  by_cases hlt : s.length + t.length < stlStringInlineLen
  · have hdata : splice c.data s.length t = (shortStr (s ++ t)).data := by
      rw [hc, shortStr, splice_at, shortStr, List.drop_replicate, List.length_append, Nat.sub_sub]
    have heq : m.stlStringAppend k t base junk = some (m.withStr k (shortStr (s ++ t)), 0) := by
      rw [stlStringAppend, hk]
      simp only [Option.bind_eq_bind, Option.bind_some, h.len, hlt, if_true, stlStringData,
        StlString.setLen]
      rw [modifyStr_eq hk, store_inData (withStr_self hk)]
      · simp only [withStr_withStr, hdata, Option.bind_some, Option.pure_def]
        simp [shortStr]
      · rw [hc]
        simp [shortStr]
        omega
    obtain ⟨hnew, hkept⟩ := hK.toShort hk hst
      (by rw [List.length_append]; exact hlt)
      (rfl : (m.withStr k (shortStr (s ++ t))).strs = _) (fun _ _ _ => rfl)
    exact ⟨_, _, heq, rfl, hnew, hkept⟩
  · have hnil : s = [] := List.length_eq_zero_iff.mp (hform.resolve_left hlt)
    subst hnil
    simp only [List.length_nil, Nat.zero_add, List.nil_append] at *
    have heq : m.stlStringAppend k t base junk =
        some (m.withBoth k (longStr base t) base (t ++ [0]), 0) := by
      have hblock : (m.withStr k (c.setLen t.length)).calloc base (t.length + 1) =
          m.withBoth k (c.setLen t.length) base (List.replicate (t.length + 1) 0) := rfl
      rw [stlStringAppend, hk]
      simp only [Option.bind_eq_bind, Option.bind_some, h.len, List.length_nil, Nat.zero_add, hlt,
        if_false]
      rw [modifyStr_eq hk, if_pos (by decide), hblock]
      simp only [loadStr, if_true, Option.bind_some, Nat.lt_irrefl, false_and, if_false]
      rw [store, if_pos rfl, Option.bind_some, fill_block, Option.bind_some,
        withBoth_modifyStr hk]
      rfl
    obtain ⟨hnew, hkept⟩ := hK.toLong hk ht (Nat.not_lt.mp hlt)
      (hfresh (Nat.not_lt.mp hlt))
      (rfl : (m.withBoth k (longStr base t) base (t ++ [0])).strs = _) rfl
    exact ⟨_, _, heq, rfl, hnew, hkept⟩

theorem reset_kept (hK : Kept m) (hk : m.strs[k]? = some c) (h : Holds m c s)
    (hform : s.length = 0 ∨ stlStringInlineLen ≤ s.length) :
    ∃ m' c', m.stlStringReset k = some m' ∧ m'.strs = m.strs.set k c' ∧ Holds m' c' [] ∧
      Kept m' := by
  by_cases hlong : stlStringInlineLen ≤ s.length
  · obtain ⟨hne, -, hobj⟩ := h.long hlong
    have heq : m.stlStringReset k =
        some ({ m with heap := update m.heap c.ptr none }.withStr k (shortStr [])) := by
      rw [stlStringReset, hk]
      simp only [Option.bind_eq_bind, Option.bind_some, h.len, hlong, if_true, free, hne, if_false,
        hobj, Option.map_some]
      rw [modifyStr_eq (m := { m with heap := update m.heap c.ptr none }) hk,
        modifyStr_eq (withStr_self (m := { m with heap := update m.heap c.ptr none }) hk),
        withStr_withStr]
      rfl
    obtain ⟨hnew, hkept⟩ := hK.toShort hk (s := []) (by simp [IsStr]) (by decide)
      (rfl : ({ m with heap := update m.heap c.ptr none }.withStr k (shortStr [])).strs = _)
      fun q _ hq => update_of_ne (hq (by rw [h.len]; exact hlong)) _ _
    exact ⟨_, _, heq, rfl, hnew, hkept⟩
  · have hnil : s = [] := List.length_eq_zero_iff.mp (hform.resolve_right hlong)
    subst hnil
    have hc := h.eq_shortStr (by decide)
    have heq : m.stlStringReset k = some (m.withStr k (shortStr [])) := by
      rw [stlStringReset, hk]
      simp only [Option.bind_eq_bind, Option.bind_some, h.len, hlong, if_false]
      rw [modifyStr_eq hk, hc]
      rfl
    obtain ⟨hnew, hkept⟩ := hK.toShort hk (s := []) (by simp [IsStr])
      (by decide) (rfl : (m.withStr k (shortStr [])).strs = _) (fun _ _ _ => rfl)
    exact ⟨_, _, heq, rfl, hnew, hkept⟩

end Forms

section Trim
open Memory

def trimmed (s : Str) : Str := s.filter (· ≠ chr ' ')

theorem trimLoop_append (is js : List ℕ) (data : List UInt8) (j : ℕ) :
    trimLoop (is ++ js) data j = (trimLoop is data j).bind fun r => trimLoop js r.1 r.2 := by
  induction is generalizing data j with
  | nil => rfl
  | cons i is ih =>
    rw [List.cons_append, trimLoop, trimLoop]
    cases data[i]? with
    | none => rfl
    | some b =>
      rw [Option.bind_some, Option.bind_some]
      split
      · exact ih data j
      · exact ih _ _

/-- After `n` turns the kept bytes stand in front of what has not been overwritten. -/
theorem trimLoop_eq (data : List UInt8) {n : ℕ} (hn : n ≤ data.length) :
    trimLoop (List.range n) data 0 = some (trimmed (data.take n) ++
      data.drop (trimmed (data.take n)).length, (trimmed (data.take n)).length) := by
  induction n with
  | zero => rfl
  | succ n ih =>
    have hle : (trimmed (data.take n)).length ≤ n :=
      Nat.le_trans (List.length_filter_le _ _) (by simp)
    have hget : (trimmed (data.take n) ++ data.drop (trimmed (data.take n)).length)[n]? =
        some (data[n]) := by
      rw [List.getElem?_append_right hle, List.getElem?_drop, Nat.add_sub_cancel' hle,
        List.getElem?_eq_getElem hn]
    rw [List.range_succ, trimLoop_append, ih (Nat.le_of_succ_le hn), Option.bind_some, trimLoop,
      hget, Option.bind_some, List.take_succ_eq_append_getElem hn]
    by_cases hb : data[n] = chr ' '
    · have hkeep : trimmed (data.take n ++ [data[n]]) = trimmed (data.take n) := by
        simp [trimmed, hb]
      rw [if_pos hb, trimLoop, hkeep]
    · have hkeep : trimmed (data.take n ++ [data[n]]) =
          trimmed (data.take n) ++ [data[n]] := by
        rw [trimmed, List.filter_append, List.filter_cons_of_pos (by simpa using hb)]
        rfl
      rw [if_neg hb, trimLoop, hkeep, List.set_append_right _ _ (Nat.le_refl _), Nat.sub_self,
        List.drop_eq_getElem_cons (Nat.lt_of_le_of_lt hle hn), List.set_cons_zero,
        List.length_append, List.length_singleton, List.append_assoc]
      rfl

theorem setObject_same {place : Place} {obj : List UInt8} (hobj : m.object place = some obj) :
    m.setObject place obj = m := by
  cases place with
  | inData k =>
    obtain ⟨c, hk, rfl⟩ := Option.map_eq_some_iff.mp hobj
    exact (modifyStr_eq hk _).trans (withStr_same hk)
  | block p =>
    have hp : m.heap p = some obj := hobj
    rw [setObject, ← hp, update_eq_self]

theorem move_inline {p : ℕ} {t : Str} {obj : List UInt8} (hk : m.strs[k]? = some c) (hne : p ≠ 0)
    (ht : obj.take t.length = t) (hlt : t.length < stlStringInlineLen) :
    ∃ m₁ m₂ m₃, ((m.withBlock p obj).modifyStr k (·.setPtr 0)).load (.block p) t.length = some t ∧
      ((m.withBlock p obj).modifyStr k (·.setPtr 0)).store (.inData k) 0 t = some m₁ ∧
      m₁.store (.inData k) t.length [0] = some m₂ ∧ m₂.free (.block p) = some m₃ ∧
      (m₃.modifyStr k (·.setLen t.length)).strs = m.strs.set k (shortStr t) ∧
      ∀ q ≠ p, (m₃.modifyStr k (·.setLen t.length)).heap q = m.heap q := by
  have hstr : ∀ d, (m.withBoth k d p obj).strs[k]? = some d := fun d => withBoth_self hk
  have hobj : ∀ d, (m.withBoth k d p obj).heap p = some obj := fun d => update_self _ _ _
  have hfirst := fill_inData (hstr (c.setPtr 0)) rfl hlt
  rw [withBoth_withStr] at hfirst
  have hlen : t.length ≤ obj.length := by
    have hle := congrArg List.length ht
    rw [List.length_take] at hle
    omega
  generalize hd : ({ c.setPtr 0 with data := (shortStr t).data } : StlString) = d at hfirst
  have hdata : d.data = (shortStr t).data := by rw [← hd]
  have hset : d.setLen t.length = shortStr t := by
    rw [← hd]
    rfl
  have hlast : ((m.withBoth k d p obj).withoutBlock p).modifyStr k (·.setLen t.length) =
      ((m.withBoth k d p obj).withoutBlock p).withStr k (shortStr t) := by
    rw [modifyStr_eq (m := (m.withBoth k d p obj).withoutBlock p) (hstr d), hset]
  refine ⟨_, _, _, ?_, by rw [withBlock_modifyStr hk]; exact hfirst,
    end_inData (hstr d) hdata hlt, free_block (hobj d) hne, ?_, ?_⟩
  · rw [withBlock_modifyStr hk, load_eq (.block p) (hobj _) hlen, ht]
  · rw [hlast]
    simp [withStr, withoutBlock, withBoth, withBlock]
  · intro q hq
    exact (update_of_ne hq _ _).trans (update_of_ne hq _ _)

/-- Trimming keeps the form if it leaves nothing of the text, or if the text is long and all or
less than eight bytes of it are left. A text without other characters stays as it is. -/
theorem trim_kept (hK : Kept m) (hk : m.strs[k]? = some c) (h : Holds m c s)
    (hlt : s.length < 2 ^ 31)
    (hform : (trimmed s).length = 0 ∨ stlStringInlineLen ≤ s.length ∧
      ((trimmed s).length < stlStringInlineLen ∨ (trimmed s).length = s.length)) :
    ∃ m' c', m.stlStringTrim k = some m' ∧ m'.strs = m.strs.set k c' ∧
      Holds m' c' (if (trimmed s).length = 0 then s else trimmed s) ∧ Kept m' := by
  obtain ⟨z, hobj⟩ := h.object_eq hk
  have hloop := trimLoop_eq (s ++ 0 :: z) (n := s.length) (by simp)
  rw [List.take_left] at hloop
  have hcount : ¬ 2 ^ 31 ≤ s.length := Nat.not_le.mpr hlt
  rw [stlStringTrim, hk]
  simp only [Option.bind_eq_bind, Option.bind_some, h.len, hcount, if_false]
  rw [hobj, Option.bind_some, hloop, Option.bind_some]
  by_cases hzero : (trimmed s).length = 0
  · have hnil := List.length_eq_zero_iff.mp hzero
    rw [if_pos hzero, if_pos hzero, hnil, List.nil_append, List.length_nil, List.drop_zero,
      setObject_same hobj]
    exact ⟨m, c, rfl, (set_same hk).symm, h, hK⟩
  obtain ⟨hlong, hform⟩ := hform.resolve_left hzero
  obtain ⟨hne, hptr, hblock⟩ := h.long hlong
  have hplace : stlStringData k c = .block c.ptr := by
    rw [stlStringData, h.len, if_neg (Nat.not_lt.mpr hlong)]
  rw [if_neg hzero, if_neg hzero]
  by_cases hshort : (trimmed s).length < stlStringInlineLen
  · have hstr : IsStr (trimmed s) := fun x hx => h.str x (List.mem_of_mem_filter hx)
    obtain ⟨m₁, m₂, m₃, hload, hfirst, hend, hfree, hstrs, hheap⟩ := move_inline hk hne
      (List.take_left : (trimmed s ++ (s ++ 0 :: z).drop (trimmed s).length).take _ = trimmed s)
      hshort
    obtain ⟨hnew, hkept⟩ := hK.toShort hk hstr hshort hstrs
      fun q _ hq => hheap q (hq (by rw [h.len]; exact hlong))
    refine ⟨_, _, ?_, hstrs, hnew, hkept⟩
    rw [if_pos hshort, hplace, setObject, ← withBlock, hload, Option.bind_some, hfirst,
      Option.bind_some, hend, Option.bind_some, hfree]
    rfl
  · have hall := hform.resolve_left hshort
    have hsame : trimmed s = s := List.filter_eq_self.mpr (by
      rw [trimmed, List.length_filter_eq_length_iff] at hall
      exact hall)
    rw [if_neg hshort, hsame, List.drop_left, setObject_same hobj]
    refine ⟨m, c, ?_, (set_same hk).symm, h, hK⟩
    rw [modifyStr_eq hk, ← h.len]
    exact congrArg some (withStr_same hk)

end Trim

section Find
open Memory

def firstAt (old s : Str) : Option ℕ :=
  (List.range s.length).find? fun i => decide (old ≠ [] ∧ old <+: s.drop i)

theorem matchesAt_eq {old : Str} (hold : IsStr old) (t z : List UInt8) :
    matchesAt (t ++ 0 :: z) old = some (decide (old <+: t)) := by
  induction old generalizing t with
  | nil => simp [matchesAt]
  | cons d old ih =>
    have hd : d ≠ 0 := hold d (by simp)
    have htail : IsStr old := fun x hx => hold x (List.mem_cons_of_mem d hx)
    cases t with
    | nil =>
      rw [List.nil_append, matchesAt, if_neg (Ne.symm hd)]
      simp
    | cons b t =>
      rw [List.cons_append, matchesAt]
      by_cases hbd : b = d
      · rw [if_pos hbd, ih htail, hbd]
        simp [List.cons_prefix_cons]
      · rw [if_neg hbd]
        simp [List.cons_prefix_cons, Ne.symm hbd]

theorem findLoop_eq {old s : Str} (hold : IsStr old) (hs : IsStr s) (z : List UInt8)
    {is : List ℕ} (his : ∀ i ∈ is, i < s.length) : findLoop (s ++ 0 :: z) old is =
      some (is.find? fun i => decide (old ≠ [] ∧ old <+: s.drop i)) := by
  induction is with
  | nil => rfl
  | cons i is ih =>
    have hi := his i (by simp)
    have hrest := ih fun j hj => his j (List.mem_cons_of_mem i hj)
    have hne : s[i] ≠ 0 := hs _ (List.getElem_mem hi)
    have hdrop := List.drop_eq_getElem_cons hi
    rw [findLoop, List.getElem?_append_left hi, List.getElem?_eq_getElem hi, Option.bind_some,
      hrest]
    cases old with
    | nil =>
      rw [List.headD_nil, if_neg hne]
      simp
    | cons d old =>
      rw [List.headD_cons, List.drop_append_of_le_length (Nat.le_of_lt hi), matchesAt_eq hold,
        Option.bind_some]
      by_cases hm : d :: old <+: s.drop i
      · have hhead : s[i] = d := by
          rw [hdrop, List.cons_prefix_cons] at hm
          exact hm.1.symm
        rw [if_pos hhead, List.find?_cons_of_pos (by simp [hm])]
        simp [hm]
      · rw [List.find?_cons_of_neg (by simp [hm])]
        simp [hm]

theorem findLoop_text {old s : Str} (hold : IsStr old) (hs : IsStr s) (z : List UInt8) :
    findLoop (s ++ 0 :: z) old (List.range s.length) = some (firstAt old s) :=
  findLoop_eq hold hs z fun _ hi => List.mem_range.mp hi

theorem firstAt_eq_none {old s : Str} (h : ¬ old <:+: s) : firstAt old s = none := by
  rw [firstAt, List.find?_eq_none]
  rintro i - hfound
  obtain ⟨-, hpre⟩ := of_decide_eq_true hfound
  exact h (hpre.isInfix.trans (List.drop_suffix i s).isInfix)

end Find

section Overwrite
open Memory

theorem realloc_same {p : ℕ} (hne : p ≠ 0) (hp : m.heap p = some (s ++ [0])) (junk : ℕ → UInt8) :
    m.realloc p (s.length + 1) p junk = some m := by
  have hobj : ((List.range (s.length + 1)).map fun i => (s ++ [0]).getD i (junk i)) = s ++ [0] := by
    apply List.ext_getElem
    · simp
    · intro i _ hi
      rw [List.getElem_map, List.getElem_range, List.getD_eq_getElem _ _ hi]
  rw [realloc, if_neg hne, if_neg hne, hp, Option.map_some, hobj, update_idem, ← hp,
    update_eq_self]

theorem loadStr_eq {place : Place} {z : List UInt8} (hobj : m.object place = some (s ++ 0 :: z))
    (hs : IsStr s) : m.loadStr place s.length = some s := by
  rw [loadStr]
  split
  · next h =>
    rw [List.length_eq_zero_iff.mp h]
  · have htake : s.takeWhile (fun b => decide (b ≠ 0)) = s := by
      rw [List.takeWhile_eq_self_iff]
      intro b hb
      exact decide_eq_true (hs b hb)
    simp only [hobj, Option.bind_some, List.take_left, htake, Nat.sub_self, List.replicate_zero,
      List.append_nil]
    rw [if_pos (Or.inl (by simp))]

theorem shiftCase_ne_zero (flag : Bool) {b : UInt8} (hb : b ≠ 0) : shiftCase flag b ≠ 0 := by
  intro hzero
  have hnat : b.toNat ≠ 0 := fun h => hb (UInt8.toNat_inj.mp h)
  have hlt := b.toNat_lt
  rw [shiftCase] at hzero
  split at hzero
  · next hletter =>
    have hzero' := congrArg UInt8.toNat hzero
    simp only [chr, UInt8.le_iff_toNat_le] at hletter
    cases flag with
    | false =>
      rw [if_neg (by simp), UInt8.toNat_add] at hzero'
      simp at hletter hzero'
      omega
    | true =>
      rw [if_pos rfl, UInt8.toNat_sub] at hzero'
      simp at hletter hzero'
      omega
  · exact hb hzero

theorem Kept.setPtr_same (hK : Kept m) (hk : m.strs[k]? = some c) (h : Holds m c s)
    (hlong : stlStringInlineLen ≤ s.length) : (c.setPtr c.ptr).ptr = c.ptr ∧
      Holds (m.withStr k (c.setPtr c.ptr)) (c.setPtr c.ptr) s ∧
      Kept (m.withStr k (c.setPtr c.ptr)) := by
  have hptr : (c.setPtr c.ptr).ptr = c.ptr := ptr_toBytes (h.long hlong).2.1 c.len
  have hc : Holds (m.withStr k (c.setPtr c.ptr)) (c.setPtr c.ptr) s := by
    refine ⟨h.str, h.len, fun hs => absurd hs (Nat.not_lt.mpr hlong), fun _ => ?_⟩
    rw [hptr]
    exact h.long hlong
  refine ⟨hptr, hc, hK.update hk rfl ⟨s, hc⟩ (fun _ _ _ => rfl) fun _ => Or.inl ⟨?_, hptr⟩⟩
  rw [h.len]
  exact hlong

/-- Replacing keeps the form if `old` does not occur, or if what is put in ends where the text
ends and the block of a long text stays in place. -/
theorem replace_kept (hK : Kept m) (hk : m.strs[k]? = some c) (h : Holds m c s) {old new : Str}
    (hold : IsStr old) (hnew : IsStr new) {base : ℕ} (junk : ℕ → UInt8)
    (hform : ∀ i ∈ firstAt old s, i + new.length = s.length ∧
      (s.length < stlStringInlineLen ∨ base = c.ptr)) :
    ∃ m' c' r, m.stlStringReplace k old new base junk = some (m', r) ∧
      m'.strs = m.strs.set k c' ∧
      Holds m' c' ((firstAt old s).elim s fun i => splice s i new) ∧ Kept m' := by
  have hkept : m.strs = m.strs.set k c := (set_same hk).symm
  rw [stlStringReplace, hk]
  simp only [Option.bind_eq_bind, Option.bind_some, h.len]
  by_cases hfew : s.length < old.length
  · rw [if_pos hfew, firstAt_eq_none fun hin => Nat.not_le.mpr hfew hin.length_le]
    exact ⟨m, c, -1, rfl, hkept, h, hK⟩
  obtain ⟨z, hobj⟩ := h.object_eq hk
  rw [if_neg hfew, hobj, Option.bind_some, findLoop_text hold h.str z, Option.bind_some]
  cases hfirst : firstAt old s with
  | none => exact ⟨m, c, -1, rfl, hkept, h, hK⟩
  | some i =>
    obtain ⟨hend, hplace⟩ := hform i hfirst
    simp only [hend]
    by_cases hlt : s.length < stlStringInlineLen
    · have hshort : ¬ stlStringInlineLen ≤ s.length := Nat.not_le.mpr hlt
      obtain ⟨m', c', hstore, hstrs, -, hnew', hkept'⟩ :=
        store_text hK hk h i hnew (Nat.le_of_eq hend)
      have hk' : m'.strs[k]? = some c' := by
        rw [hstrs]
        exact withStr_self (m := m) hk
      have hlen : (splice s i new).length = s.length := splice_length (Nat.le_of_eq hend)
      have hterm := end_inData hk' (s := splice s i new)
        (by rw [hnew'.eq_shortStr (by rw [hlen]; exact hlt)]) (by rw [hlen]; exact hlt)
      rw [hlen] at hterm
      refine ⟨m', c', 0, ?_, hstrs, hnew', hkept'⟩
      rw [if_pos hlt, if_neg hshort, hstore, Option.bind_some, hterm]
      rfl
    · have hlong := Nat.not_lt.mp hlt
      obtain rfl := hplace.resolve_left hlt
      obtain ⟨hne, -, hblock⟩ := h.long hlong
      have hdata : stlStringData k c = .block c.ptr := by rw [stlStringData, h.len, if_neg hlt]
      obtain ⟨hsame, hc, hm⟩ := hK.setPtr_same hk h hlong
      obtain ⟨m', c', hstore, hstrs, -, hnew', hkept'⟩ :=
        store_text hm (withStr_self hk) hc i hnew (Nat.le_of_eq hend)
      have hplace' : stlStringData k (c.setPtr c.ptr) = stlStringData k c := by
        rw [hdata, stlStringData, hsame]
        simp [StlString.setPtr, h.len, hlt]
      rw [hplace', hdata] at hstore
      have hlen : (splice s i new).length = s.length := splice_length (Nat.le_of_eq hend)
      have hterm := end_block (hnew'.long (by rw [hlen]; exact hlong)).2.2
      rw [hlen] at hterm
      have hk' : m'.strs[k]? = some c' := by
        rw [hstrs]
        exact withStr_self (m := m.withStr k (c.setPtr c.ptr)) (withStr_self hk)
      refine ⟨m', c', 0, ?_, ?_, hnew', hkept'⟩
      · rw [if_neg hlt, realloc_same hne hblock, Option.bind_some, modifyStr_eq hk, hdata, hstore,
          Option.bind_some, hk', Option.bind_some, hterm]
        rfl
      · rw [hstrs]
        simp [withStr]

/-- A copy keeps the form of a short string that is not shorter than the source. -/
theorem dup_kept (hK : Kept m) {i : ℕ} {d : StlString} {t : Str} (hi : m.strs[i]? = some d)
    (ht : Holds m d t) (hk : m.strs[k]? = some c) (h : Holds m c s)
    (hform : t.length = 0 ∨ i ≠ k ∧ s.length < stlStringInlineLen ∧ t.length ≤ s.length)
    (base : ℕ) : ∃ m' c', m.stlStringDup i k base = some (m', -1) ∧ m'.strs = m.strs.set k c' ∧
      Holds m' c' (splice s 0 t) ∧ Kept m' := by
  have hshort : d.len < stlStringInlineLen := by
    rw [ht.len]
    rcases hform with hform | ⟨-, hs, hle⟩
    · rw [hform]
      decide
    · omega
  rw [stlStringDup, hi]
  simp only [Option.bind_eq_bind, Option.bind_some, if_pos hshort]
  rw [ht.len]
  by_cases hzero : t.length = 0
  · obtain rfl := List.length_eq_zero_iff.mp hzero
    refine ⟨m, c, ?_, (set_same hk).symm, by rw [splice_nil]; exact h, hK⟩
    simp [loadStr, store]
  · obtain ⟨hne, hs, hle⟩ := hform.resolve_left hzero
    have hplace : stlStringData k c = .inData k := by rw [stlStringData, h.len, if_pos hs]
    have hsrc : stlStringData i d = .inData i := if_pos hshort
    obtain ⟨z, hobj⟩ := ht.object_eq hi
    obtain ⟨m', c', hstore, hstrs, -, hnew, hkept⟩ :=
      store_text hK hk h 0 ht.str (by omega)
    rw [hplace] at hstore
    refine ⟨m', c', ?_, hstrs, hnew, hkept⟩
    rw [loadStr_eq hobj ht.str, Option.bind_some, hsrc, if_neg (by simp [hne]), hstore]
    rfl

/-- Output keeps the form if it is not longer than a short text, and not than seven bytes. -/
theorem sprintf_kept (hK : Kept m) (hk : m.strs[k]? = some c) (h : Holds m c s)
    {out : Option (List UInt8)} (hform : ∀ o ∈ out, o.length < stlStringInlineLen ∧
      o.length ≤ s.length ∧ IsStr o) (base : ℕ) :
    ∃ m' c' r, m.stlStringSprintf k out base = some (m', r) ∧ m'.strs = m.strs.set k c' ∧
      Holds m' c' (out.elim s (splice s 0)) ∧ Kept m' := by
  cases out with
  | none => exact ⟨m, c, -1, rfl, (set_same hk).symm, h, hK⟩
  | some o =>
    obtain ⟨hlt, hle, hstr⟩ := hform o rfl
    obtain ⟨m', c', hstore, hstrs, -, hnew, hkept⟩ :=
      store_text hK hk h 0 hstr (by omega)
    refine ⟨m', c', 0, ?_, hstrs, hnew, hkept⟩
    rw [stlStringSprintf, hk]
    simp only [Option.bind_eq_bind, Option.bind_some, hlt, if_true, hstore]
    rfl

theorem xxx_kept (hK : Kept m) (hk : m.strs[k]? = some c) (h : Holds m c s) (flag : Bool) :
    ∃ m' c', m.stlStringoXxx k flag = some (m', 0) ∧ m'.strs = m.strs.set k c' ∧
      Holds m' c' (splice s 0 (s.map (shiftCase flag))) ∧ Kept m' := by
  have hstr : IsStr (s.map (shiftCase flag)) := by
    intro x hx
    obtain ⟨b, hb, rfl⟩ := List.mem_map.mp hx
    exact shiftCase_ne_zero flag (h.str b hb)
  obtain ⟨z, hobj⟩ := h.object_eq hk
  obtain ⟨m', c', hstore, hstrs, -, hnew, hkept⟩ :=
    store_text hK hk h 0 hstr (by simp)
  refine ⟨m', c', ?_, hstrs, hnew, hkept⟩
  rw [stlStringoXxx, hk]
  simp only [Option.bind_eq_bind, Option.bind_some, h.len]
  rw [load_eq _ hobj (by simp), List.take_left, Option.bind_some, hstore]
  rfl

end Overwrite

end KirinFS.StlString
