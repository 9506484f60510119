import KirinFS.StlString.Trim

/-! # Replacing

What is put in ends the text: neither the length nor what follows the match is
kept up to date.
-/

namespace KirinFS.StlString
open Foundation.Bytes Foundation.CString Function Memory

variable {m m' : Memory} {k : ℕ} {c c' : StlString} {x old new p q : Str} {base : ℕ}
  {junk : ℕ → UInt8}

section First

/-- `old` occurs in `x` between `p` and `q`, and not before. -/
structure Occurs (old x p q : Str) : Prop where
  eq : x = p ++ old ++ q
  first : ∀ p' q', x = p' ++ old ++ q' → p.length ≤ p'.length

theorem begins_drop_iff {i : ℕ} (hi : i ≤ x.length) :
    old <+: x.drop i ↔ ∃ p q, x = p ++ old ++ q ∧ p.length = i := by
  constructor
  · rintro ⟨q, hq⟩
    refine ⟨x.take i, q, ?_, by rw [List.length_take, Nat.min_eq_left hi]⟩
    rw [List.append_assoc, hq, List.take_append_drop]
  · rintro ⟨p, q, rfl, rfl⟩
    rw [List.append_assoc, List.drop_left]
    exact List.prefix_append old q

theorem Occurs.firstAt_eq (h : Occurs old x p q) (hne : old ≠ []) :
    firstAt old x = some p.length := by
  have hpos := List.length_pos_iff.mpr hne
  have hlen : p.length + old.length ≤ x.length := by
    rw [h.eq, List.length_append, List.length_append]
    omega
  rw [firstAt, List.find?_range_eq_some]
  refine ⟨?_, List.mem_range.mpr (by omega), ?_⟩
  · exact decide_eq_true ⟨hne, (begins_drop_iff (by omega)).mpr ⟨p, q, h.eq, rfl⟩⟩
  · intro j hj
    have hnot : ¬ old <+: x.drop j := by
      rw [begins_drop_iff (by omega)]
      rintro ⟨p', q', heq, rfl⟩
      exact absurd (h.first p' q' heq) (Nat.not_le.mpr hj)
    simp [hnot]

theorem Occurs.isStr (h : Occurs old x p q) (hx : IsStr x) : (IsStr p ∧ IsStr old) ∧ IsStr q := by
  have hparts := hx
  rw [h.eq] at hparts
  refine ⟨⟨fun b hb => ?_, fun b hb => ?_⟩, fun b hb => ?_⟩
  · exact hparts b (List.mem_append_left q (List.mem_append_left old hb))
  · exact hparts b (List.mem_append_left q (List.mem_append_right p hb))
  · exact hparts b (List.mem_append_right (p ++ old) hb)

end First

section Length

def lenOf (m : Memory) (k : ℕ) : Option ℕ := (m.strs[k]?).map StlString.len

theorem lenOf_modifyStr {j : ℕ} {f : StlString → StlString} (hf : ∀ c, (f c).len = c.len) :
    lenOf (m.modifyStr j f) k = lenOf m k := by
  rw [lenOf, modifyStr, List.getElem?_modify, lenOf]
  cases m.strs[k]? with
  | none => rfl
  | some c =>
    split
    · exact congrArg some (hf c)
    · rfl

theorem lenOf_setPtr {j a : ℕ} : lenOf (m.modifyStr j (·.setPtr a)) k = lenOf m k :=
  lenOf_modifyStr fun _ => rfl

theorem lenOf_store {place : Place} {off : ℕ} {bs : List UInt8}
    (h : m.store place off bs = some m') : lenOf m' k = lenOf m k := by
  rw [store] at h
  split at h
  · cases h
    rfl
  · obtain ⟨obj, -, h⟩ := Option.bind_eq_some_iff.mp h
    split at h
    · cases h
      cases place with
      | inData j => exact lenOf_modifyStr fun _ => rfl
      | block b => rfl
    · cases h

theorem free_strs {place : Place} (h : m.free place = some m') : m'.strs = m.strs := by
  cases place with
  | inData j => cases h
  | block b =>
    rw [free] at h
    split at h
    · cases h
      rfl
    · obtain ⟨obj, -, h⟩ := Option.map_eq_some_iff.mp h
      cases h
      rfl

theorem realloc_strs {a n : ℕ} (h : m.realloc a n base junk = some m') : m'.strs = m.strs := by
  rw [realloc] at h
  split at h
  · cases h
    rfl
  · split at h
    · cases h
      rfl
    · obtain ⟨obj, -, h⟩ := Option.map_eq_some_iff.mp h
      cases h
      rfl

/-- `stl_string_replace` never changes the length. -/
theorem lenOf_replace {r : ℤ} (h : m.stlStringReplace k old new base junk = some (m', r)) :
    lenOf m' k = lenOf m k := by
  rw [stlStringReplace] at h
  obtain ⟨c, -, h⟩ := Option.bind_eq_some_iff.mp h
  split at h
  · cases h
    rfl
  · obtain ⟨obj, -, h⟩ := Option.bind_eq_some_iff.mp h
    obtain ⟨found, -, h⟩ := Option.bind_eq_some_iff.mp h
    cases found with
    | none =>
      cases h
      rfl
    | some i =>
      simp only at h
      have hshort : ∀ m₁, lenOf m₁ k = lenOf m k →
          ((m₁.store (stlStringData k c) i new).bind fun m₂ =>
            (m₂.store (.inData k) (i + new.length) [0]).bind fun m₃ => some (m₃, (0 : ℤ))) =
              some (m', r) → lenOf m' k = lenOf m k := by
        intro m₁ hfirst h
        obtain ⟨m₂, h₂, h⟩ := Option.bind_eq_some_iff.mp h
        obtain ⟨m₃, h₃, h⟩ := Option.bind_eq_some_iff.mp h
        cases h
        rw [lenOf_store h₃, lenOf_store h₂, hfirst]
      split at h
      · split at h
        · obtain ⟨m₁, h₁, h⟩ := Option.bind_eq_some_iff.mp h
          obtain ⟨m₀, h₀, rfl⟩ := Option.map_eq_some_iff.mp h₁
          refine hshort _ ?_ h
          rw [lenOf_setPtr, lenOf, free_strs h₀, lenOf]
        · exact hshort m rfl h
      · obtain ⟨m₁, h₁, h⟩ := Option.bind_eq_some_iff.mp h
        obtain ⟨m₂, h₂, h⟩ := Option.bind_eq_some_iff.mp h
        obtain ⟨d, -, h⟩ := Option.bind_eq_some_iff.mp h
        obtain ⟨m₃, h₃, h⟩ := Option.bind_eq_some_iff.mp h
        cases h
        rw [lenOf_store h₃, lenOf_store h₂, lenOf_setPtr, lenOf, realloc_strs h₁, lenOf]

end Length

section Replace

/-- `stl_string_replace` returns 0 and leaves the string holding `y`. -/
def Leaves (m : Memory) (k : ℕ) (old new : Str) (base : ℕ) (junk : ℕ → UInt8) (y : Str) : Prop :=
  ∃ m' c', m.stlStringReplace k old new base junk = some (m', 0) ∧ m'.strs[k]? = some c' ∧
    Carries m' c' y

/-- It puts `new` in the place of the first `old`, or returns -1 and changes nothing if there is
none. -/
def Replaces (m : Memory) (k : ℕ) (x old new : Str) (base : ℕ) (junk : ℕ → UInt8) : Prop :=
  (∀ p q, Occurs old x p q → Leaves m k old new base junk (p ++ new ++ q)) ∧
  (¬ old <:+: x → m.stlStringReplace k old new base junk = some (m, -1))

theorem replace_absent (hk : m.strs[k]? = some c) (h : Carries m c x) (hold : IsStr old)
    (habs : ¬ old <:+: x) : m.stlStringReplace k old new base junk = some (m, -1) := by
  obtain ⟨z, hobj⟩ := h.object_eq hk
  have hfind := findLoop_text hold h.str z
  rw [stlStringReplace, hk]
  simp only [Option.bind_eq_bind, Option.bind_some, h.len, hobj, hfind, firstAt_eq_none habs]
  split
  · rfl
  · rfl

theorem replace_found (hk : m.strs[k]? = some c) (h : Carries m c x) (hold : IsStr old)
    (hne : old ≠ []) (hocc : Occurs old x p q) :
    m.stlStringReplace k old new base junk =
      if p.length + new.length < stlStringInlineLen then do
        let m ← if stlStringInlineLen ≤ c.len then
            (m.free (.block c.ptr)).map (·.modifyStr k (·.setPtr 0))
          else some m
        let m ← m.store (stlStringData k c) p.length new
        let m ← m.store (.inData k) (p.length + new.length) [0]
        return (m, 0)
      else do
        let m ← m.realloc c.ptr (p.length + new.length + 1) base junk
        let m ← (m.modifyStr k (·.setPtr base)).store (stlStringData k c) p.length new
        let c ← m.strs[k]?
        let m ← m.store (.block c.ptr) (p.length + new.length) [0]
        return (m, 0) := by
  obtain ⟨z, hobj⟩ := h.object_eq hk
  have hfind := findLoop_text hold h.str z
  have henough : ¬ x.length < old.length := by
    rw [hocc.eq, List.length_append, List.length_append]
    omega
  rw [stlStringReplace, hk]
  simp only [Option.bind_eq_bind, Option.bind_some, h.len, henough, if_false, hobj, hfind,
    hocc.firstAt_eq hne]

theorem cut_iff {y : Str} (hq : IsStr q) {z : List UInt8} :
    y ++ q ++ [0] <+: y ++ [0] ++ z ↔ q = [] := by
  rw [List.append_assoc, List.append_assoc, List.prefix_append_right_inj]
  constructor
  · intro h
    cases q with
    | nil => rfl
    | cons b q => exact absurd (List.cons_prefix_cons.mp h).1 (hq b List.mem_cons_self)
  · rintro rfl
    exact List.prefix_append [0] z

theorem replace_inline (hk : m.strs[k]? = some c) (h : Carries m c x) (hold : IsStr old)
    (hne : old ≠ []) (hocc : Occurs old x p q) (hshort : x.length < stlStringInlineLen)
    (hlt : p.length + new.length < stlStringInlineLen) (base : ℕ) (junk : ℕ → UInt8) :
    ∃ z, m.stlStringReplace k old new base junk =
      some (m.withStr k ⟨p ++ new ++ [0] ++ z, x.length⟩, 0) ∧
      (p ++ new ++ [0] ++ z).length = stlStringInlineLen := by
  obtain ⟨y, hy⟩ := begins_iff.mp (h.short hshort)
  have hsize := h.size
  have hplace := h.inline hshort k
  have hnot : ¬ stlStringInlineLen ≤ x.length := Nat.not_le.mpr hshort
  have hput : splice c.data p.length new = p ++ new ++ (old ++ q ++ 0 :: y).drop new.length := by
    rw [hy, hocc.eq, List.append_assoc, List.append_assoc, splice_at, List.append_assoc old]
  have hlen : (splice c.data p.length new).length = stlStringInlineLen := by
    rw [splice_length (by omega), hsize]
  have hend : splice (splice c.data p.length new) (p ++ new).length [0] =
      p ++ new ++ [0] ++ ((old ++ q ++ 0 :: y).drop new.length).drop 1 := by
    rw [hput, splice_at]
    rfl
  refine ⟨((old ++ q ++ 0 :: y).drop new.length).drop 1, ?_, ?_⟩
  · rw [replace_found hk h hold hne hocc, if_pos hlt, h.len, if_neg hnot, hplace]
    simp only [Option.bind_eq_bind, Option.bind_some]
    rw [store_inData hk (by omega), Option.bind_some,
      store_inData (withStr_self hk) (by rw [List.length_singleton, hlen]; exact hlt),
      Option.bind_some, withStr_withStr, ← List.length_append, hend]
    simp only [h.len]
    rfl
  · rw [← hend, splice_length (by rw [List.length_singleton, List.length_append, hlen]; omega), hlen]

/-- A long text that would become short is freed before it is written to. -/
theorem replace_freed (hk : m.strs[k]? = some c) (h : Carries m c x) (hold : IsStr old)
    (hne : old ≠ []) (hnew : new ≠ []) (hocc : Occurs old x p q)
    (hlong : stlStringInlineLen ≤ x.length) (hlt : p.length + new.length < stlStringInlineLen) :
    m.stlStringReplace k old new base junk = none := by
  obtain ⟨hptr, obj, hobj, -⟩ := h.long hlong
  have hplace := h.block hlong k
  have hgone : ((m.withoutBlock c.ptr).modifyStr k (·.setPtr 0)).heap c.ptr = none :=
    update_self _ _ _
  have hstore : ((m.withoutBlock c.ptr).modifyStr k (·.setPtr 0)).store (.block c.ptr) p.length
      new = none := by
    rw [store, if_neg hnew, object, hgone, Option.bind_none]
  rw [replace_found hk h hold hne hocc, if_pos hlt, h.len, if_pos hlong, hplace,
    free_block hobj hptr]
  simp only [Option.bind_eq_bind, Option.map_some, Option.bind_some, hstore, Option.bind_none]

theorem grown_begins {z : List UInt8} (junk : ℕ → UInt8) (n : ℕ) :
    ∃ y, ((List.range (x.length + n + 1)).map fun i => (x ++ z).getD i (junk i)) = x ++ y ∧
      y.length = n + 1 := by
  refine ⟨(((List.range (x.length + n + 1)).map fun i => (x ++ z).getD i (junk i)).drop x.length),
    ?_, by rw [List.length_drop, List.length_map, List.length_range]; omega⟩
  have htake : ((List.range (x.length + n + 1)).map fun i => (x ++ z).getD i (junk i)).take
      x.length = x := by
    apply List.ext_getElem
    · rw [List.length_take, List.length_map, List.length_range]
      omega
    · intro i _ hi
      rw [List.getElem_take, List.getElem_map, List.getElem_range, List.getD_append _ _ _ _ hi,
        List.getD_eq_getElem _ _ hi]
  have hboth := List.take_append_drop x.length
    ((List.range (x.length + n + 1)).map fun i => (x ++ z).getD i (junk i))
  rw [htake] at hboth
  exact hboth.symm

theorem Carries.ptr_setPtr (h : Carries m c x) : (c.setPtr c.ptr).ptr = c.ptr := by
  refine ptr_toBytes ?_ c.len
  have hlt := ofBytes_lt c.data
  rw [h.size] at hlt
  exact hlt

section Realloc
variable (hk : m.strs[k]? = some c) (h : Carries m c x) (hold : IsStr old) (hne : old ≠ [])
  (hocc : Occurs old x p q) (hlong : stlStringInlineLen ≤ x.length)
  (hle : stlStringInlineLen ≤ p.length + new.length)
include hk h hold hne hocc hlong hle

/-- A failed `realloc` leaves the string without a text. -/
theorem replace_null {r : ℤ} (hrun : m.stlStringReplace k old new 0 junk = some (m', r)) :
    m'.strs[k]? = some (c.setPtr 0) := by
  have hplace := h.block hlong k
  have hself : (m.withStr k (c.setPtr 0)).strs[k]? = some (c.setPtr 0) := withStr_self hk
  have hstored : ∀ {a off : ℕ} {bs : List UInt8} {m m' : Memory},
      m.store (.block a) off bs = some m' → m'.strs = m.strs := by
    intro a off bs m m' h
    rw [store] at h
    split at h
    · cases h
      rfl
    · obtain ⟨obj, -, h⟩ := Option.bind_eq_some_iff.mp h
      split at h
      · cases h
        rfl
      · cases h
  rw [replace_found hk h hold hne hocc, if_neg (Nat.not_lt.mpr hle), realloc, if_pos rfl,
    hplace] at hrun
  simp only [Option.bind_eq_bind, Option.bind_some] at hrun
  rw [modifyStr_eq hk] at hrun
  obtain ⟨m₁, h₁, hrun⟩ := Option.bind_eq_some_iff.mp hrun
  obtain ⟨d, -, hrun⟩ := Option.bind_eq_some_iff.mp hrun
  obtain ⟨m₂, h₂, hrun⟩ := Option.bind_eq_some_iff.mp hrun
  cases hrun
  rw [hstored h₂, hstored h₁, hself]

/-- If `realloc` moves the block, the old one is written to. -/
theorem replace_moved (hnew : new ≠ []) (hbase : base ≠ 0) (hmove : base ≠ c.ptr) :
    m.stlStringReplace k old new base junk = none := by
  obtain ⟨hptr, obj, hobj, -⟩ := h.long hlong
  have hplace := h.block hlong k
  rw [replace_found hk h hold hne hocc, if_neg (Nat.not_lt.mpr hle), realloc, if_neg hbase,
    if_neg hptr, hobj, hplace]
  simp only [Option.bind_eq_bind, Option.map_some, Option.bind_some]
  rw [store, if_neg hnew, object]
  simp only [modifyStr, update_of_ne hmove.symm, update_self, Option.bind_none]

/-- If the block stays, it ends behind what was put in. -/
theorem replace_stays (hbase : base = c.ptr) : m.stlStringReplace k old new base junk =
    some (m.withBoth k (c.setPtr c.ptr) c.ptr (p ++ new ++ [0]), 0) := by
  subst hbase
  obtain ⟨hptr, obj, hobj, hbegins⟩ := h.long hlong
  obtain ⟨z, rfl⟩ := begins_iff.mp hbegins
  have hplace := h.block hlong k
  have hself := h.ptr_setPtr
  obtain ⟨y, hy, hlen⟩ := grown_begins (x := p) (z := old ++ q ++ 0 :: z) junk new.length
  have hblock : m.realloc c.ptr (p.length + new.length + 1) c.ptr junk =
      some (m.withBlock c.ptr (p ++ y)) := by
    rw [realloc, if_neg hptr, if_neg hptr, hobj, Option.map_some, update_idem, hocc.eq, ← hy]
    simp [withBlock]
  have hfit : p.length + new.length < (p ++ y).length := by
    rw [List.length_append, hlen]
    omega
  have hput : splice (p ++ y) p.length new = p ++ new ++ y.drop new.length := splice_at p y new
  have hroom : p.length + new.length + [(0 : UInt8)].length ≤
      (splice (p ++ y) p.length new).length := by
    rw [splice_length hfit.le]
    exact hfit
  have hend : splice (splice (p ++ y) p.length new) (p.length + new.length) [0] =
      p ++ new ++ [0] := by
    have hnil : y.drop (new.length + 1) = [] := List.drop_eq_nil_of_le hlen.le
    rw [hput, ← List.length_append, splice_at, List.drop_drop, List.length_singleton, hnil,
      List.append_nil]
  rw [replace_found hk h hold hne hocc, if_neg (Nat.not_lt.mpr hle), hblock, hplace]
  simp only [Option.bind_eq_bind, Option.bind_some]
  rw [withBlock_modifyStr hk, withBoth_store hfit.le, Option.bind_some, withBoth_self hk,
    Option.bind_some, hself, withBoth_store hroom, hend]
  rfl

end Realloc

theorem Occurs.length_eq (h : Occurs old x p q) :
    x.length = p.length + old.length + q.length := by
  rw [h.eq, List.length_append, List.length_append]

theorem length_replaced : (p ++ new ++ q).length = p.length + new.length + q.length := by
  rw [List.length_append, List.length_append]

theorem Leaves.length_eq (hk : m.strs[k]? = some c) (h : Carries m c x) {y : Str}
    (hy : Leaves m k old new base junk y) : y.length = x.length := by
  obtain ⟨m', c', hrun, hk', hc'⟩ := hy
  have hkeep := lenOf_replace hrun
  rw [lenOf, hk', lenOf, hk, Option.map_some, Option.map_some, h.len, hc'.len] at hkeep
  exact Option.some.inj hkeep

section Match
variable (hk : m.strs[k]? = some c) (h : Carries m c x) (hold : IsStr old) (hnew : IsStr new)
  (hne : old ≠ []) (hocc : Occurs old x p q)
include hk h hold hnew hne hocc

theorem leaves_short_iff (hshort : x.length < stlStringInlineLen) :
    Leaves m k old new base junk (p ++ new ++ q) ↔ q = [] ∧ new.length = old.length := by
  obtain ⟨⟨hp, -⟩, hq⟩ := hocc.isStr h.str
  have hx := hocc.length_eq
  constructor
  · intro hy
    have hlen := hy.length_eq hk h
    rw [length_replaced] at hlen
    have hlt : p.length + new.length < stlStringInlineLen := by omega
    obtain ⟨z, heq, -⟩ := replace_inline hk h hold hne hocc hshort hlt base junk
    obtain ⟨m', c', hrun, hk', hc'⟩ := hy
    rw [heq] at hrun
    cases hrun
    obtain rfl := Option.some.inj ((withStr_self hk).symm.trans hk')
    have hbegins := hc'.short (by rw [length_replaced]; omega)
    exact ⟨(cut_iff hq).mp hbegins, by omega⟩
  · rintro ⟨rfl, hsame⟩
    have hlt : p.length + new.length < stlStringInlineLen := by omega
    obtain ⟨z, heq, hsize⟩ := replace_inline hk h hold hne hocc hshort hlt base junk
    rw [List.append_nil]
    refine ⟨_, _, heq, withStr_self hk, ?_⟩
    refine ⟨isStr_append hp hnew, hsize, ?_, fun _ => List.prefix_append _ _, fun hle => ?_⟩
    · rw [hx, List.length_append, hsame]
      rfl
    · rw [List.length_append] at hle
      omega

theorem leaves_long_iff (hne' : new ≠ []) (hlong : stlStringInlineLen ≤ x.length) :
    Leaves m k old new base junk (p ++ new ++ q) ↔
      q = [] ∧ new.length = old.length ∧ base = c.ptr := by
  obtain ⟨⟨hp, -⟩, hq⟩ := hocc.isStr h.str
  have hx := hocc.length_eq
  constructor
  · intro hy
    have hlen := hy.length_eq hk h
    obtain ⟨m', c', hrun, hk', hc'⟩ := hy
    rcases Nat.lt_or_ge (p.length + new.length) stlStringInlineLen with hlt | hle
    · rw [replace_freed hk h hold hne hne' hocc hlong hlt] at hrun
      cases hrun
    obtain ⟨hptr, obj, hobj, hbegins⟩ := hc'.long (by rw [hlen]; exact hlong)
    rw [length_replaced] at hlen
    rcases Nat.eq_zero_or_pos base with rfl | hpos
    · have hnull := replace_null hk h hold hne hocc hlong hle hrun
      obtain rfl := Option.some.inj (hnull.symm.trans hk')
      exact absurd (ptr_toBytes (Nat.two_pow_pos 64) c.len) hptr
    by_cases hstay : base = c.ptr
    · rw [replace_stays hk h hold hne hocc hlong hle hstay] at hrun
      cases hrun
      obtain rfl := Option.some.inj ((withBoth_self hk).symm.trans hk')
      rw [h.ptr_setPtr] at hobj
      obtain rfl := Option.some.inj ((update_self c.ptr _ _).symm.trans hobj)
      rw [← List.append_nil (p ++ new ++ [0])] at hbegins
      exact ⟨(cut_iff hq).mp hbegins, by omega, hstay⟩
    · rw [replace_moved hk h hold hne hocc hlong hle hne' (Nat.ne_of_gt hpos) hstay] at hrun
      cases hrun
  · rintro ⟨rfl, hsame, hstay⟩
    have hle : stlStringInlineLen ≤ p.length + new.length := by
      rw [List.length_nil] at hx
      omega
    rw [List.append_nil]
    refine ⟨_, _, replace_stays hk h hold hne hocc hlong hle hstay, withBoth_self hk,
      isStr_append hp hnew, toBytes_length _ _, ?_, fun hlt => ?_, fun _ => ?_⟩
    · rw [List.length_append, hsame]
      exact h.len.trans hx
    · rw [List.length_append] at hlt
      omega
    · rw [h.ptr_setPtr]
      exact ⟨(h.long hlong).1, _, update_self _ _ _, List.prefix_rfl⟩

end Match

/-- `stl_string_replace` does what it should just if `old` does not occur, or ends the text and has
the length of `new`, and the block of a long text stays in place. -/
theorem replaces_iff (hk : m.strs[k]? = some c) (h : Carries m c x) (hold : IsStr old)
    (hnew : IsStr new) (hne : old ≠ []) (hne' : new ≠ []) (base : ℕ) (junk : ℕ → UInt8) :
    Replaces m k x old new base junk ↔ ∀ p q, Occurs old x p q →
      q = [] ∧ new.length = old.length ∧ (x.length < stlStringInlineLen ∨ base = c.ptr) := by
  rw [Replaces, and_iff_left (replace_absent hk h hold)]
  refine forall₃_congr fun p q hocc => ?_
  rcases Nat.lt_or_ge x.length stlStringInlineLen with hshort | hlong
  · rw [leaves_short_iff hk h hold hnew hne hocc hshort]
    simp only [hshort, true_or, and_true]
  · rw [leaves_long_iff hk h hold hnew hne hocc hne' hlong]
    simp only [Nat.not_lt.mpr hlong, false_or]

end Replace

section Examples

/-- The last byte for another. -/
theorem replaces_last : Replaces (shortMemory (str ['a', 'b', 'c'])) 0 (str ['a', 'b', 'c'])
    (str ['c']) (str ['d']) 16 fun _ => 0 := by
  refine (replaces_iff rfl (carries_shortStr (by decide) (by decide)) (by decide) (by decide)
    (by decide) (by decide) _ _).mpr fun p q hocc => ?_
  have hfound := hocc.firstAt_eq (by decide)
  have hlen : p.length = 2 := (Option.some.inj hfound).symm
  have hx := congrArg List.length hocc.eq
  rw [List.length_append, List.length_append, hlen] at hx
  refine ⟨List.length_eq_zero_iff.mp ?_, rfl, Or.inl (by decide)⟩
  change 3 = 2 + 1 + q.length at hx
  omega

/-- The first byte for another: the rest of the text is cut off. -/
theorem not_replaces_first :
    noStrings.stlStringAlloc (str ['a', 'b', 'c']) none =
      some (shortMemory (str ['a', 'b', 'c'])) ∧
    (∃ c, (shortMemory (str ['a', 'b', 'c'])).strs[0]? = some c ∧
      Carries (shortMemory (str ['a', 'b', 'c'])) c (str ['a', 'b', 'c'])) ∧
    ¬ Replaces (shortMemory (str ['a', 'b', 'c'])) 0 (str ['a', 'b', 'c']) (str ['a'])
      (str ['d']) 16 fun _ => 0 := by
  have hcarries : Carries (shortMemory (str ['a', 'b', 'c'])) (shortStr (str ['a', 'b', 'c']))
      (str ['a', 'b', 'c']) := carries_shortStr (by decide) (by decide)
  have hocc : Occurs (str ['a']) (str ['a', 'b', 'c']) [] (str ['b', 'c']) :=
    ⟨rfl, fun _ _ _ => Nat.zero_le _⟩
  refine ⟨rfl, ⟨_, rfl, hcarries⟩, ?_⟩
  rintro ⟨hfound, -⟩
  obtain ⟨m', c', hrun, hk', hc'⟩ := hfound _ _ hocc
  have hk : (shortMemory (str ['a', 'b', 'c'])).strs[0]? = some (shortStr (str ['a', 'b', 'c'])) :=
    rfl
  have hlt : ([] : Str).length + (str ['d']).length < stlStringInlineLen := by decide
  obtain ⟨z, heq, -⟩ := replace_inline hk hcarries (by decide) (by decide) hocc (by decide) hlt 16
    fun _ => 0
  rw [heq] at hrun
  cases hrun
  obtain rfl := Option.some.inj ((withStr_self rfl).symm.trans hk')
  have hnil := (cut_iff (z := z) (by decide)).mp (hc'.short (by decide))
  cases hnil

end Examples

end KirinFS.StlString
