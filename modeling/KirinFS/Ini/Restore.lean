import KirinFS.Ini.Dump
import Mathlib.Algebra.Group.Nat.Defs
import Mathlib.Data.List.Count

/-! # When a dump is read back

A line that is no comment and keeps its end is read back with its key trimmed
and its value cut. Otherwise an item or a section is missing in the end, since
no line delivers more than one of them.
-/

namespace KirinFS.Ini
open Foundation.CString

/-- The item that the parser makes of a dumped item. -/
def StlIniItem.reread (e : StlIniItem) : StlIniItem :=
  ⟨trimmed e.key, trimmed (e.val.take (maxLineLen - 2 - e.key.length))⟩

def StlIni.reread (ini : StlIni) : StlIni :=
  ⟨ini.sections.map fun s => { s with items := s.items.map StlIniItem.reread }⟩

def isComment (l : Str) : Bool := l.head? = some (chr ';') || l.head? = some (chr '#')

section Reading
variable {name key : Str} {e : StlIniItem}

theorem readLine_comment {l : Str} (h : isComment l = true) (key : Str) :
    readLine false key l = .blank := by
  have hcom : trimComment l = [] := by
    rw [trimComment, if_pos]
    right
    simpa [isComment] using h
  have hhead : headOf false l = ⟨0, []⟩ := by
    simp only [headOf, Bool.false_eq_true, if_false, hcom]
    rfl
  rw [readLine, hhead]
  rfl

theorem StoredName.header_short {n : Str} (h : StoredName n) :
    (headerLine n).length < maxLineLen - 1 := by
  have hshort : n.length ≤ 255 := h.short
  simp only [headerLine, List.length_cons, List.length_append, List.length_nil, maxLineLen]
  omega

theorem StoredName.readLine {n : Str} (h : StoredName n) (first : Bool) (key : Str) :
    readLine first key ((headerLine n).take (maxLineLen - 1)) = .header n := by
  rw [List.take_of_length_le h.header_short.le]
  exact readLine_header first key h.noBracket h.clean.plain h.short

theorem readLine_reread (hk : StoredKey e.key) (hv : StoredValue e.val)
    (hc : isComment e.key = false) (key : Str) :
    readLine false key ((itemLine (e.key, e.val)).take (maxLineLen - 1)) =
      .item e.reread.key e.reread.val (e.reread.key.take nameSize) := by
  have hcut : (itemLine (e.key, e.val)).take (maxLineLen - 1) =
      e.key ++ chr '=' :: e.val.take (maxLineLen - 2 - e.key.length) := by
    have hroom : maxLineLen - 1 - e.key.length = maxLineLen - 2 - e.key.length + 1 := by
      have hshort := hk.short
      simp only [maxLineLen] at hshort ⊢
      omega
    rw [itemLine, List.take_append, List.take_of_length_le hk.short.le, hroom, List.take_succ_cons]
  have hstart : ∀ c ∈ e.key.head?, Starts false c ∧ c ≠ chr '[' := by
    intro c hcm
    obtain ⟨hblank, hbracket⟩ := hk.starts c hcm
    have hhead : e.key.head? = some c := hcm
    rw [isComment, hhead] at hc
    simp only [Option.some.injEq, Bool.or_eq_false_iff, decide_eq_false_iff_not] at hc
    exact ⟨⟨hblank, hc.1, hc.2, fun h => by cases h⟩, hbracket⟩
  rw [hcut]
  exact readLine_item key hk.noSep hstart hk.clean.plain
    (hv.clean.piece (List.take_prefix _ _).isInfix).plain

/-- An item is read back if its key does not end in a blank and the line is not cut. -/
theorem reread_eq_iff (hk : StoredKey e.key) (hv : StoredValue e.val) :
    e.reread = e ↔ (∀ c ∈ e.key.getLast?, isspace c = false) ∧
      (itemLine (e.key, e.val)).length ≤ maxLineLen - 1 := by
  have hshort : e.key.length < 4095 := hk.short
  have hlen : (itemLine (e.key, e.val)).length = e.key.length + 1 + e.val.length := by
    simp only [itemLine, List.length_append, List.length_cons]
    omega
  rw [hlen]
  constructor
  · intro h
    have hkey : trimmed e.key = e.key := congrArg StlIniItem.key h
    have hval : trimmed (e.val.take (maxLineLen - 2 - e.key.length)) = e.val :=
      congrArg StlIniItem.val h
    refine ⟨hkey ▸ (trimmed_bare e.key).2, ?_⟩
    have hle := (trimmed_piece (e.val.take (maxLineLen - 2 - e.key.length))).length_le
    rw [hval, List.length_take] at hle
    simp only [maxLineLen] at hle ⊢
    omega
  · rintro ⟨hlast, hle⟩
    have hkey : trimmed e.key = e.key := trimmed_eq_of_bare ⟨fun c hc => (hk.starts c hc).1, hlast⟩
    have htake : e.val.take (maxLineLen - 2 - e.key.length) = e.val := by
      refine List.take_of_length_le ?_
      simp only [maxLineLen] at hle ⊢
      omega
    rw [StlIniItem.reread, hkey, htake, trimmed_eq_of_bare hv.bare]

end Reading

section Scan
variable {name : Str} {es : List StlIniItem} {ls : List Str} {xs : List (Str × Str × Str)} {ok : Bool}

/-- The items of one section are read back one after the other. -/
theorem scan_section (hes : ∀ e ∈ es, StoredKey e.key ∧ StoredValue e.val ∧ isComment e.key = false)
    (hls : ∀ key, scan false name key ls = (xs, ok)) (key : Str) :
    scan false name key
        ((es.map fun e => (itemLine (e.key, e.val)).take (maxLineLen - 1)) ++ ls) =
      ((es.map fun e => (name, e.reread.key, e.reread.val)) ++ xs, ok) := by
  induction es generalizing key with
  | nil => exact hls key
  | cons e es ih =>
    obtain ⟨hk, hv, hc⟩ := hes e (by simp)
    have hrest := ih fun x hx => hes x (List.mem_cons_of_mem e hx)
    rw [List.map_cons, List.cons_append, scan, readLine_reread hk hv hc]
    simp only [hrest, List.map_cons, List.cons_append]

/-- The lines of a dump are read back section by section. -/
theorem scan_doc {L : List StlIniSection}
    (hL : ∀ s ∈ L, StoredSection s ∧ ∀ e ∈ s.items, isComment e.key = false)
    (first : Bool) (name key : Str) :
    scan first name key ((StlIni.doc ⟨L⟩).lines.map (List.take (maxLineLen - 1))) =
      ((StlIni.doc (StlIni.reread ⟨L⟩)).items, true) := by
  induction L generalizing first name key with
  | nil => rfl
  | cons s L ih =>
    obtain ⟨hs, hc⟩ := hL s (by simp)
    have hrest := ih fun t ht => hL t (List.mem_cons_of_mem s ht)
    have hlines : (StlIni.doc ⟨s :: L⟩).lines.map (List.take (maxLineLen - 1)) =
        (headerLine s.name).take (maxLineLen - 1) ::
          ((s.items.map fun e => (itemLine (e.key, e.val)).take (maxLineLen - 1)) ++
            (StlIni.doc ⟨L⟩).lines.map (List.take (maxLineLen - 1))) := by
      simp [StlIni.doc, Doc.lines, Function.comp_def]
    have hitems : (StlIni.doc (StlIni.reread ⟨s :: L⟩)).items =
        (s.items.map fun e => (s.name, e.reread.key, e.reread.val)) ++
          (StlIni.doc (StlIni.reread ⟨L⟩)).items := by
      simp [StlIni.doc, StlIni.reread, Doc.items, Function.comp_def]
    rw [hlines, scan, hs.name.readLine, hitems]
    exact scan_section (fun e he => ⟨(hs.items e he).1, (hs.items e he).2, hc e he⟩)
      (hrest false s.name) []

/-- The items of an ini, stored one after the other, make it up again. -/
theorem putAll_doc_self {ini : StlIni} (hn : ∀ s ∈ ini.sections, IsStr s.name) (hf : Filled ini)
    (hd : ini.sections.Pairwise fun s t => ¬ t.name <+: s.name)
    (hroom : ini.sections.length ≤ sectionMaxSize)
    (hitems : ∀ s ∈ ini.sections, s.items.length ≤ sectionMaxItemSize) :
    putAll ⟨[]⟩ ini.doc.items = some ini := by
  have hfilter : ini.doc.filter (fun x => x.2 ≠ []) = ini.doc := by
    rw [List.filter_eq_self]
    intro x hx
    obtain ⟨s, hs, rfl⟩ := List.mem_map.mp hx
    simpa using hf s hs
  have hstored : ini.doc.stored = ini.sections := by
    rw [Doc.stored, hfilter, StlIni.doc, List.map_map]
    refine (List.map_congr_left fun s _ => ?_).trans (List.map_id _)
    simp [Doc.toSection, Function.comp_def]
  have hput : putAll ⟨[]⟩ ini.doc.items = some ⟨[] ++ ini.doc.stored⟩ :=
    putAll_doc ?_ ?_ ?_ ?_ (by simp)
  · rw [hput, hstored]
    rfl
  · intro x hx
    obtain ⟨s, hs, rfl⟩ := List.mem_map.mp hx
    exact hn s hs
  · rw [hfilter, StlIni.doc, List.length_map]
    simpa using hroom
  · intro x hx
    obtain ⟨s, hs, rfl⟩ := List.mem_map.mp hx
    rw [List.length_map]
    exact hitems s hs
  · rw [Doc.PrefixFree, hfilter, StlIni.doc, List.pairwise_map]
    exact hd

end Scan

section Counting
variable {ini ini' : StlIni} {name key value : Str}

theorem sameName_self (n : Str) : sameName n n = true := by
  rw [sameName, strncmp_self]
  rfl

def opens (ini : StlIni) (name : Str) : ℕ :=
  if ini.sections.any fun s => sameName s.name name then 0 else 1

def itemCount (ini : StlIni) : ℕ := (ini.sections.flatMap fun s => s.items).length

theorem onItem_count (h : stlIniOnItemFunc ini name key value = some ini') :
    itemCount ini' = itemCount ini + 1 ∧
      ini'.sections.length + opens ini' name = ini.sections.length + opens ini name := by
  rcases onItem_cases h with ⟨L, s, R, hsec, hs, -, hsec'⟩ | ⟨hno, -, hsec'⟩
  · constructor
    · rw [itemCount, itemCount, hsec, hsec']
      simp
      omega
    · have hopen : opens ini name = 0 := by
        rw [opens, if_pos]
        rw [hsec]
        simp [hs]
      have hopen' : opens ini' name = 0 := by
        rw [opens, if_pos]
        rw [hsec']
        simp [hs]
      rw [hopen, hopen', hsec, hsec']
      simp
  · constructor
    · rw [itemCount, itemCount, hsec']
      simp
    · have hopen : opens ini name = 1 := by
        rw [opens, if_neg]
        simpa using hno
      have hopen' : opens ini' name = 0 := by
        rw [opens, if_pos]
        rw [hsec']
        simp [sameName_self]
      rw [hopen, hopen', hsec']
      simp

theorem putAll_count {xs : List (Str × Str × Str)} (h : putAll ini xs = some ini') :
    itemCount ini' = itemCount ini + xs.length := by
  induction xs generalizing ini with
  | nil =>
    cases h
    rfl
  | cons x xs ih =>
    rw [putAll] at h
    obtain ⟨ini₁, hput, h⟩ := Option.bind_eq_some_iff.mp h
    rw [ih h, (onItem_count hput).1, List.length_cons]
    omega

/-- No line delivers more than one item or opens more than one section, and a comment neither. -/
theorem scan_count {ls : List Str} (h : putAll ini (scan false name key ls).1 = some ini') :
    ini'.sections.length + (scan false name key ls).1.length + ls.countP isComment ≤
      ini.sections.length + opens ini name + ls.length := by
  induction ls generalizing ini name key with
  | nil =>
    cases h
    simp [scan]
  | cons l ls ih =>
    have hcount : (l :: ls).countP isComment ≤ ls.countP isComment + 1 := by
      rw [List.countP_cons]
      split <;> omega
    have hopens : opens ini name ≤ 1 := by
      rw [opens]
      split <;> omega
    rw [List.length_cons]
    by_cases hc : isComment l = true
    · simp only [scan, readLine_comment hc] at h ⊢
      have hrest := ih h
      omega
    · rw [List.countP_cons_of_neg hc]
      rw [scan] at h ⊢
      cases hr : readLine false key l with
      | blank =>
        rw [hr] at h
        have hrest := ih h
        simp only
        omega
      | header n =>
        rw [hr] at h
        have hrest := ih h
        have hopens' : opens ini n ≤ 1 := by
          rw [opens]
          split <;> omega
        simp only
        omega
      | item k v next =>
        rw [hr] at h
        simp only [putAll] at h
        obtain ⟨ini₁, hput, h⟩ := Option.bind_eq_some_iff.mp h
        have hrest := ih h
        have hone := (onItem_count hput).2
        simp only [List.length_cons]
        omega
      | bad =>
        rw [hr] at h
        cases h
        have hle := List.countP_le_length (p := isComment) (l := ls)
        simp only [List.length_nil]
        omega

end Counting

section Dump
variable {ini : StlIni}

theorem length_lines (ini : StlIni) :
    ini.doc.lines.length = ini.sections.length + itemCount ini := by
  rw [Doc.lines, StlIni.doc, List.flatMap_map, itemCount]
  induction ini.sections with
  | nil => rfl
  | cons s L ih =>
    rw [List.flatMap_cons, List.length_append, ih]
    simp
    omega

theorem mem_lines {l : Str} : l ∈ ini.doc.lines ↔ ∃ s ∈ ini.sections, l = headerLine s.name ∨
    ∃ e ∈ s.items, l = itemLine (e.key, e.val) := by
  simp [Doc.lines, StlIni.doc, eq_comm]

theorem StoredIni.noEnd (hi : StoredIni ini) : ∀ l ∈ ini.doc.lines, NoEnd l := by
  intro l hl
  obtain ⟨s, hs, rfl | ⟨e, he, rfl⟩⟩ := mem_lines.mp hl
  · intro c hc
    simp only [headerLine, List.mem_cons, List.mem_append, List.not_mem_nil, or_false] at hc
    rcases hc with rfl | hc | rfl
    · decide
    · exact (hi.sections s hs).name.clean.noEnd c hc
    · decide
  · obtain ⟨hk, hv⟩ := (hi.sections s hs).items e he
    intro c hc
    simp only [itemLine, List.mem_append, List.mem_cons] at hc
    rcases hc with hc | rfl | hc
    · exact hk.clean.noEnd c hc
    · decide
    · exact hv.clean.noEnd c hc

theorem itemCount_le {ini : StlIni} (h : ∀ s ∈ ini.sections, s.items.length ≤ 4096) :
    itemCount ini ≤ 4096 * ini.sections.length := by
  rw [itemCount]
  generalize ini.sections = L at h
  induction L with
  | nil => exact le_rfl
  | cons s L ih =>
    have hs := h s (by simp)
    have hrest := ih fun t ht => h t (List.mem_cons_of_mem s ht)
    rw [List.flatMap_cons, List.length_append, List.length_cons]
    omega

theorem StoredIni.lines_lt (hi : StoredIni ini) : ini.doc.lines.length < 2 ^ 32 := by
  have hcount := itemCount_le fun s hs => (hi.sections s hs).room
  have hsections : ini.sections.length ≤ 4096 := hi.room
  rw [length_lines]
  omega

/-- A dump that fits and holds no comment is read back with every item reread. -/
theorem StoredIni.parse_dump (hi : StoredIni ini) (hfit : Fit ini.doc.lines)
    (hc : ∀ s ∈ ini.sections, ∀ e ∈ s.items, isComment e.key = false) :
    stlIniParseString ⟨[]⟩ (stlIniDump ini) = some (ini.reread, 0) := by
  have htake : (ini.doc.lines.map (List.take (maxLineLen - 1))).map (List.take (maxLineLen - 1)) =
      ini.doc.lines.map (List.take (maxLineLen - 1)) := by
    simp [List.map_map, Function.comp_def, List.take_take]
  rw [parseString_eq_runLines, stlIniDump_eq, hfit.textLines_written hi.noEnd, htake]
  have hscan := scan_doc (fun s hs => ⟨hi.sections s hs, hc s hs⟩) true [] []
  obtain ⟨rc, hrc, hrun⟩ := runLines_eq_scan true ⟨⟨[]⟩, 0, [], []⟩
    (ini.doc.lines.map (List.take (maxLineLen - 1)))
    (by rw [List.length_map]; simpa using hi.lines_lt) rfl
  have hzero : rc = 0 := by
    rw [hrc]
    exact congrArg Prod.snd hscan
  have hput : putAll ⟨[]⟩ ini.reread.doc.items = some ini.reread := by
    refine putAll_doc_self ?_ ?_ ?_ ?_ ?_
    · intro s hs
      obtain ⟨t, ht, rfl⟩ := List.mem_map.mp hs
      exact (hi.sections t ht).name.clean.str
    · intro s hs
      obtain ⟨t, ht, rfl⟩ := List.mem_map.mp hs
      simpa using (hi.sections t ht).filled
    · rw [StlIni.reread, List.pairwise_map]
      exact hi.distinct
    · rw [StlIni.reread, List.length_map]
      exact hi.room
    · intro s hs
      obtain ⟨t, ht, rfl⟩ := List.mem_map.mp hs
      rw [List.length_map]
      exact (hi.sections t ht).room
  rw [hrun]
  simp only [hscan, hput, hzero, Option.map_some]

theorem isComment_itemLine {e : StlIniItem} (h : isComment e.key = true) :
    isComment ((itemLine (e.key, e.val)).take (maxLineLen - 1)) = true := by
  cases hk : e.key with
  | nil =>
    rw [hk] at h
    cases h
  | cons c k =>
    rw [hk] at h
    exact h

/-- A dump that does not fit or holds a comment has too few lines to deliver everything. -/
theorem StoredIni.fit_of_restored (hi : StoredIni ini)
    (h : stlIniParseString ⟨[]⟩ (stlIniDump ini) = some (ini, 0)) :
    Fit ini.doc.lines ∧ ∀ s ∈ ini.sections, ∀ e ∈ s.items, isComment e.key = false := by
  cases hsec : ini.sections with
  | nil => exact ⟨by simp [Fit, StlIni.doc, Doc.lines, hsec], by simp⟩
  | cons s₀ L =>
    have hname := (hi.sections s₀ (by rw [hsec]; simp)).name
    obtain ⟨rest, hrest⟩ : ∃ rest, ini.doc.lines = headerLine s₀.name :: rest := by
      rw [Doc.lines, StlIni.doc, hsec, List.map_cons, List.flatMap_cons]
      exact ⟨_, rfl⟩
    have hend := hi.noEnd
    have hsum := length_lines ini
    have hlines : textLines (stlIniDump ini) = headerLine s₀.name :: textLines (written rest) := by
      rw [stlIniDump_eq, hrest, written_short hname.header_short, textLines_append]
      exact hend _ (by rw [hrest]; simp)
    obtain ⟨hle, hlt⟩ := length_textLines_written hend
    rw [← stlIniDump_eq] at hle hlt
    have hcount : ini.sections.length + itemCount ini +
        ((textLines (written rest)).map (List.take (maxLineLen - 1))).countP isComment ≤
          (textLines (stlIniDump ini)).length := by
      rw [parseString_eq_runLines] at h
      obtain ⟨rc, -, hrun⟩ := runLines_eq_scan true ⟨⟨[]⟩, 0, [], []⟩
        ((textLines (stlIniDump ini)).map (List.take (maxLineLen - 1)))
        (by
          have hmax := hi.lines_lt
          rw [List.length_map]
          exact lt_of_le_of_lt (Nat.zero_add _ ▸ hle) hmax) rfl
      rw [hrun, Option.map_eq_some_iff] at h
      obtain ⟨ini₁, hput, heq⟩ := h
      obtain rfl : ini₁ = ini := congrArg Prod.fst heq
      have hitems := putAll_count hput
      rw [hlines, List.map_cons, scan, hname.readLine] at hput hitems
      have hopens : opens ⟨[]⟩ s₀.name ≤ 1 := le_of_eq rfl
      have hscan := scan_count hput
      have hzero : itemCount ⟨[]⟩ = 0 := rfl
      rw [List.length_map] at hscan
      rw [hlines, List.length_cons]
      simp only [List.length_nil] at hscan hitems
      omega
    have hfit : Fit ini.doc.lines := by
      by_contra hno
      have hless := hlt hno
      omega
    refine ⟨hfit, ?_⟩
    have hread : textLines (stlIniDump ini) = ini.doc.lines.map (List.take (maxLineLen - 1)) := by
      rw [stlIniDump_eq, hfit.textLines_written hend]
    have hnone : ((textLines (written rest)).map (List.take (maxLineLen - 1))).countP isComment =
        0 := by
      rw [hread, List.length_map] at hcount
      omega
    intro s hs e he
    by_contra hc
    have hcom := isComment_itemLine (by simpa using hc)
    have hmem : (itemLine (e.key, e.val)).take (maxLineLen - 1) ∈ textLines (stlIniDump ini) := by
      rw [hread]
      exact List.mem_map_of_mem (mem_lines.mpr ⟨s, hsec ▸ hs, Or.inr ⟨e, he, rfl⟩⟩)
    rw [hlines, List.mem_cons] at hmem
    rcases hmem with heq | hmem
    · rw [heq] at hcom
      cases hcom
    · have htwice : ((itemLine (e.key, e.val)).take (maxLineLen - 1)).take (maxLineLen - 1) =
          (itemLine (e.key, e.val)).take (maxLineLen - 1) := by
        rw [List.take_take, Nat.min_self]
      have hin := List.mem_map_of_mem (f := List.take (maxLineLen - 1)) hmem
      rw [htwice] at hin
      exact List.countP_eq_zero.mp hnone _ hin hcom

/-- No key looks like a comment or ends in a blank, and no line is cut but for the end of the
last one. -/
structure Dumpable (ini : StlIni) : Prop where
  keys : ∀ s ∈ ini.sections, ∀ e ∈ s.items, isComment e.key = false ∧
    ∀ c ∈ e.key.getLast?, isspace c = false
  lines : Fit ini.doc.lines
  last : ∀ l ∈ ini.doc.lines.getLast?, l.length ≤ maxLineLen - 1

theorem reread_eq_self_iff :
    ini.reread = ini ↔ ∀ s ∈ ini.sections, ∀ e ∈ s.items, e.reread = e := by
  constructor
  · intro h s hs e he
    have hsections : ini.sections.map _ = ini.sections.map id :=
      (congrArg StlIni.sections h).trans (List.map_id _).symm
    have hitems := congrArg StlIniSection.items (List.map_inj_left.mp hsections s hs)
    exact List.map_inj_left.mp (hitems.trans (List.map_id s.items).symm) e he
  · intro h
    refine congrArg StlIni.mk ((List.map_congr_left fun s hs => ?_).trans (List.map_id _))
    have hitems : s.items.map StlIniItem.reread = s.items :=
      (List.map_congr_left (h s hs)).trans (List.map_id _)
    rw [hitems]
    rfl

theorem Fit.length_le {l : Str} {ls : List Str} (h : Fit ls)
    (hlast : ∀ l ∈ ls.getLast?, l.length ≤ maxLineLen - 1) (hl : l ∈ ls) :
    l.length ≤ maxLineLen - 1 := by
  have hne := List.ne_nil_of_mem hl
  rw [← List.dropLast_concat_getLast hne, List.mem_append, List.mem_singleton] at hl
  rcases hl with hl | rfl
  · exact (h l hl).le
  · exact hlast _ (List.getLast?_eq_some_getLast hne)

/-- A parsed ini is read back from its dump exactly if it is dumpable. -/
theorem dump_restored_iff {s : Str} {ini : StlIni} (hs : IsStr s)
    (hparse : stlIniParseString ⟨[]⟩ s = some (ini, 0)) :
    stlIniParseString ⟨[]⟩ (stlIniDump ini) = some (ini, 0) ↔ Dumpable ini := by
  have hi := StoredIni.parseString hs hparse
  constructor
  · intro h
    obtain ⟨hfit, hc⟩ := hi.fit_of_restored h
    have hre : ini.reread = ini := by
      rw [hi.parse_dump hfit hc] at h
      exact congrArg Prod.fst (Option.some.inj h)
    have hitems : ∀ s ∈ ini.sections, ∀ e ∈ s.items,
        (∀ c ∈ e.key.getLast?, isspace c = false) ∧
          (itemLine (e.key, e.val)).length ≤ maxLineLen - 1 := by
      intro s hs e he
      obtain ⟨hk, hv⟩ := (hi.sections s hs).items e he
      exact (reread_eq_iff hk hv).mp (reread_eq_self_iff.mp hre s hs e he)
    refine ⟨fun s hs e he => ⟨hc s hs e he, (hitems s hs e he).1⟩, hfit, ?_⟩
    intro l hl
    obtain ⟨s, hs, rfl | ⟨e, he, rfl⟩⟩ := mem_lines.mp (List.mem_of_mem_getLast? hl)
    · exact (hi.sections s hs).name.header_short.le
    · exact (hitems s hs e he).2
  · intro hd
    have hre : ini.reread = ini := by
      refine reread_eq_self_iff.mpr fun s hs e he => ?_
      obtain ⟨hk, hv⟩ := (hi.sections s hs).items e he
      refine (reread_eq_iff hk hv).mpr ⟨(hd.keys s hs e he).2, ?_⟩
      exact hd.lines.length_le hd.last (mem_lines.mpr ⟨s, hs, Or.inr ⟨e, he, rfl⟩⟩)
    rw [hi.parse_dump hd.lines fun s hs e he => (hd.keys s hs e he).1, hre]

/-- Two sections with two items each, one key in both. -/
def couple : StlIni :=
  ⟨[⟨[chr 'a'], [⟨[chr 'k'], [chr 'v']⟩, ⟨[chr 'l'], [chr 'w']⟩]⟩,
    ⟨[chr 'b'], [⟨[chr 'm'], [chr 'x']⟩, ⟨[chr 'k'], [chr 'y']⟩]⟩]⟩

theorem dump_restored_iff_couple :
    stlIniParseString ⟨[]⟩ (stlIniDump couple) = some (couple, 0) := by
  have hparse : stlIniParseString ⟨[]⟩ (text true couple.doc.lines) = some (couple, 0) := by
    decide +kernel
  refine (dump_restored_iff (by decide) hparse).mpr ⟨by decide +kernel, ?_, by decide +kernel⟩
  unfold Fit
  decide +kernel

def single (name key value : Str) : StlIni := ⟨[⟨name, [⟨key, value⟩]⟩]⟩

/-- Behind a tab `;x=1` is an item, but its dump is a comment. -/
theorem dump_loses_item : IsStr [9, chr ';', chr 'x', chr '=', chr '1'] ∧
    (∀ l ∈ textLines [9, chr ';', chr 'x', chr '=', chr '1'], l.length < 4094) ∧
    stlIniParseString ⟨[]⟩ [9, chr ';', chr 'x', chr '=', chr '1'] =
      some (single [] [chr ';', chr 'x'] [chr '1'], 0) ∧
    stlIniParseString ⟨[]⟩ (stlIniDump (single [] [chr ';', chr 'x'] [chr '1'])) =
      some (⟨[]⟩, 0) ∧
    (⟨[]⟩ : StlIni) ≠ single [] [chr ';', chr 'x'] [chr '1'] :=
  ⟨by decide, by decide, by decide +kernel, by decide +kernel, by decide⟩

end Dump

end KirinFS.Ini
