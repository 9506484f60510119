import KirinFS.Ini.Readers

/-! # Texts of headers and key lines

A document is a list of named sections with their keys and values. Its text
makes the parser deliver exactly its items, in order.
-/

namespace KirinFS.Ini
open Foundation.CString

def isNameChar (c : UInt8) : Bool :=
  (48 ≤ c && c ≤ 57) || (65 ≤ c && c ≤ 90) || (97 ≤ c && c ≤ 122) || c = chr '.' || c = chr '-' ||
    c = chr '_'

def IsName (s : Str) : Prop := 1 ≤ s.length ∧ s.length ≤ nameSize ∧ ∀ c ∈ s, isNameChar c = true

def IsValue (s : Str) : Prop := ∀ c ∈ s, isspace c = false ∧ c ≠ 0

instance (s : Str) : Decidable (IsName s) :=
  haveI := List.decidableBAll (fun c => isNameChar c = true) s
  inferInstanceAs (Decidable (1 ≤ s.length ∧ s.length ≤ nameSize ∧ ∀ c ∈ s, isNameChar c = true))

instance (s : Str) : Decidable (IsValue s) :=
  List.decidableBAll (fun c => isspace c = false ∧ c ≠ 0) s

abbrev Doc := List (Str × List (Str × Str))

def headerLine (name : Str) : Str := chr '[' :: (name ++ [chr ']'])

def itemLine (e : Str × Str) : Str := e.1 ++ chr '=' :: e.2

namespace Doc

def lines (doc : Doc) : List Str := doc.flatMap fun x => headerLine x.1 :: x.2.map itemLine

def items (doc : Doc) : List (Str × Str × Str) := doc.flatMap fun x => x.2.map fun e => (x.1, e)

structure Valid (doc : Doc) : Prop where
  names : ∀ x ∈ doc, IsName x.1
  distinct : (doc.map Prod.fst).Nodup
  keys : ∀ x ∈ doc, ∀ e ∈ x.2, IsName e.1 ∧ IsValue e.2 ∧ (itemLine e).length < 4094
  distinctKeys : ∀ x ∈ doc, (x.2.map Prod.fst).Nodup

end Doc

/-- The lines with line ends between them, and behind the last one if `fin` says so. -/
def text (fin : Bool) : List Str → Str
  | [] => []
  | [l] => if fin then l ++ [chr '\n'] else l
  | l :: l' :: ls => l ++ chr '\n' :: text fin (l' :: ls)

section Characters
variable {c : UInt8}

theorem isNameChar_ne (h : isNameChar c = true) : c ≠ 0 ∧ isspace c = false ∧ c ≠ 0xEF ∧
    c ≠ chr ';' ∧ c ≠ chr '#' ∧ c ≠ chr '[' ∧ c ≠ chr ']' ∧ c ≠ chr '=' ∧ c ≠ chr ':' := by
  have hall : ∀ n < 256, isNameChar (UInt8.ofNat n) = true → UInt8.ofNat n ≠ 0 ∧
      isspace (UInt8.ofNat n) = false ∧ UInt8.ofNat n ≠ 0xEF ∧ UInt8.ofNat n ≠ chr ';' ∧
      UInt8.ofNat n ≠ chr '#' ∧ UInt8.ofNat n ≠ chr '[' ∧ UInt8.ofNat n ≠ chr ']' ∧
      UInt8.ofNat n ≠ chr '=' ∧ UInt8.ofNat n ≠ chr ':' := by decide +kernel
  have hc := hall c.toNat c.toNat_lt
  rw [UInt8.ofNat_toNat] at hc
  exact hc h

theorem ne_of_not_isspace (h : isspace c = false) : c ≠ chr ' ' ∧ c ≠ chr '\n' := by
  constructor
  · rintro rfl
    exact absurd h (by decide)
  · rintro rfl
    exact absurd h (by decide)

end Characters

section Line

theorem IsName.noBracket {n : Str} (hn : IsName n) : ∀ c ∈ n, c ≠ chr ']' :=
  fun c hc => (isNameChar_ne (hn.2.2 c hc)).2.2.2.2.2.2.1

theorem IsName.plain {n : Str} (hn : IsName n) : Plain n :=
  plain_of_forall fun c hc => (isNameChar_ne (hn.2.2 c hc)).2.1

theorem IsName.trimmed {n : Str} (hn : IsName n) : trimmed n = n :=
  trimmed_eq_of_bare (bare_of_forall fun c hc => (isNameChar_ne (hn.2.2 c hc)).2.1)

theorem parseLine_header (st : ParseState) {n : Str} (hn : IsName n) :
    parseLine st (headerLine n) =
      some ({ st with line := st.line + 1, key := [], sectionName := n }, none) := by
  rw [parseLine_eq, headerLine, readLine_header _ _ hn.noBracket hn.plain hn.2.1]

theorem parseLine_item (st : ParseState) {e : Str × Str} (hk : IsName e.1) (hv : IsValue e.2) :
    parseLine st (itemLine e) = (stlIniOnItemFunc st.ini st.sectionName e.1 e.2).map fun ini =>
      ({ st with line := st.line + 1, ini := ini, key := e.1 }, none) := by
  have hsep : ∀ c ∈ e.1, c ≠ chr '=' ∧ c ≠ chr ':' := fun c hc =>
    (isNameChar_ne (hk.2.2 c hc)).2.2.2.2.2.2.2
  have hvspace : ∀ c ∈ e.2, isspace c = false := fun c hc => (hv c hc).1
  have hstart : ∀ c ∈ e.1.head?, Starts (decide (st.line + 1 = 1)) c ∧ c ≠ chr '[' := by
    intro c hc
    obtain ⟨-, hblank, hbom, hsemi, hhash, hbracket, -⟩ :=
      isNameChar_ne (hk.2.2 c (List.mem_of_mem_head? hc))
    exact ⟨⟨hblank, hsemi, hhash, fun _ => hbom⟩, hbracket⟩
  rw [parseLine_eq, itemLine, readLine_item st.key hsep hstart hk.plain (plain_of_forall hvspace)]
  simp only [hk.trimmed, trimmed_eq_of_bare (bare_of_forall hvspace),
    List.take_of_length_le hk.2.1]

end Line

section Text
variable {fin : Bool} {ls : List Str}

def IsLine (l : Str) : Prop := l ≠ [] ∧ (∀ c ∈ l, c ≠ chr '\n') ∧ l.length ≤ maxLineLen - 1

theorem textLines_text (hls : ∀ l ∈ ls, IsLine l) : textLines (text fin ls) = ls := by
  induction ls with
  | nil => rfl
  | cons l ls ih =>
    obtain ⟨hne, hend, -⟩ := hls l (by simp)
    cases ls with
    | nil =>
      cases fin with
      | true => exact textLines_append hend []
      | false => exact textLines_last hend hne
    | cons l' ls =>
      rw [text, textLines_append hend, ih fun x hx => hls x (List.mem_cons_of_mem l hx)]

theorem parse_eq_runLines (hls : ∀ l ∈ ls, IsLine l) (ini : StlIni) :
    stlIniParseString ini (text fin ls) = runLines ⟨ini, 0, [], []⟩ ls := by
  rw [parseString_eq_runLines, textLines_text hls]
  congr 1
  refine (List.map_congr_left fun l hl => ?_).trans (List.map_id ls)
  exact List.take_of_length_le (hls l hl).2.2

end Text

namespace Doc
variable {doc : Doc}

theorem Valid.isLine (h : doc.Valid) : ∀ l ∈ doc.lines, IsLine l := by
  intro l hl
  obtain ⟨x, hx, hl⟩ := List.mem_flatMap.mp hl
  rcases List.mem_cons.mp hl with rfl | hl
  · obtain ⟨-, hlen, hchars⟩ := h.names x hx
    refine ⟨List.cons_ne_nil _ _, ?_, ?_⟩
    · intro c hc
      simp only [headerLine, List.mem_cons, List.mem_append, List.not_mem_nil, or_false] at hc
      rcases hc with rfl | hc | rfl
      · decide
      · exact (ne_of_not_isspace (isNameChar_ne (hchars c hc)).2.1).2
      · decide
    · have hsize : x.1.length ≤ 255 := hlen
      simp only [headerLine, List.length_cons, List.length_append, List.length_nil, maxLineLen]
      omega
  · obtain ⟨e, he, rfl⟩ := List.mem_map.mp hl
    obtain ⟨⟨-, -, hchars⟩, hv, hlen⟩ := h.keys x hx e he
    refine ⟨by simp [itemLine], ?_, ?_⟩
    · intro c hc
      simp only [itemLine, List.mem_cons, List.mem_append] at hc
      rcases hc with hc | rfl | hc
      · exact (ne_of_not_isspace (isNameChar_ne (hchars c hc)).2.1).2
      · decide
      · exact (ne_of_not_isspace (hv c hc).1).2
    · simp only [maxLineLen]
      omega

/-- Key lines deliver their items in the section that is open. -/
theorem runLines_items {es : List (Str × Str)} {ls : List Str} {xs : List (Str × Str × Str)}
    {st : ParseState} (hes : ∀ e ∈ es, IsName e.1 ∧ IsValue e.2)
    (hls : ∀ st : ParseState, runLines st ls = (putAll st.ini xs).map fun ini => (ini, 0)) :
    runLines st (es.map itemLine ++ ls) =
      (putAll st.ini (es.map (fun e => (st.sectionName, e)) ++ xs)).map fun ini => (ini, 0) := by
  induction es generalizing st with
  | nil => exact hls st
  | cons e es ih =>
    obtain ⟨hk, hv⟩ := hes e (by simp)
    have hrest : ∀ e ∈ es, IsName e.1 ∧ IsValue e.2 :=
      fun x hx => hes x (List.mem_cons_of_mem e hx)
    rw [List.map_cons, List.cons_append, runLines, parseLine_item st hk hv, List.map_cons,
      List.cons_append, putAll]
    cases stlIniOnItemFunc st.ini st.sectionName e.1 e.2 with
    | none => rfl
    | some ini =>
      exact @ih { st with line := st.line + 1, ini := ini, key := e.1 } hrest

theorem runLines_doc {doc : Doc} (hn : ∀ x ∈ doc, IsName x.1)
    (hk : ∀ x ∈ doc, ∀ e ∈ x.2, IsName e.1 ∧ IsValue e.2) (st : ParseState) :
    runLines st doc.lines = (putAll st.ini doc.items).map fun ini => (ini, 0) := by
  induction doc generalizing st with
  | nil => rfl
  | cons x doc ih =>
    have hdoc := ih (fun y hy => hn y (List.mem_cons_of_mem x hy))
      (fun y hy => hk y (List.mem_cons_of_mem x hy))
    have hstep : Doc.lines (x :: doc) = headerLine x.1 :: (x.2.map itemLine ++ Doc.lines doc) := rfl
    rw [hstep, runLines, parseLine_header st (hn x (by simp))]
    exact runLines_items (hk x (by simp)) hdoc

/-- Parsing the text of a document stores its items one after the other. -/
theorem Valid.parse_text (h : doc.Valid) (fin : Bool) :
    stlIniParseString ⟨[]⟩ (text fin doc.lines) =
      (putAll ⟨[]⟩ doc.items).map fun ini => (ini, 0) := by
  rw [parse_eq_runLines h.isLine]
  exact runLines_doc h.names (fun x hx e he => ⟨(h.keys x hx e he).1, (h.keys x hx e he).2.1⟩) _

end Doc

end KirinFS.Ini
