import KirinFS.Ini.Scan

/-! # The two line readers

`fgets` keeps the line end and continues inside a line that does not fit into
the buffer; the reader of strings drops both the line end and what does not fit.
Up to 4094 bytes a line the parser does not see the difference.
-/

namespace KirinFS.Ini
open Foundation.CString

/-- `fgets` on the rest of a file that is read without errors. -/
def fgets (size : ℕ) (rest : Str) : Option (Str × Str) :=
  if rest = [] then none
  else
    match cutAt (fun c => c = chr '\n') (rest.take (size - 1)) with
    | some (l, _) => some (l ++ [chr '\n'], rest.drop (l.length + 1))
    | none => some (rest.take (size - 1), rest.drop (size - 1))

def stlIniFileLine (p : Str) (size : ℕ) : Option (Str × Str) := fgets size p

/-- `stl_ini_parse_file` on a file with these bytes, or on one that does not open. -/
def stlIniParseFile (ini : StlIni) (file : Option Str) : Option (StlIni × ℤ) :=
  match file with
  | none => some (ini, -1)
  | some str => stlIniParse stlIniFileLine (str.length + 1) ⟨ini, 0, [], []⟩ str

def NoEnd (l : Str) : Prop := ∀ c ∈ l, c ≠ chr '\n'

/-- The lines of a text without their ends. -/
def textLines : Str → List Str
  | [] => []
  | c :: s =>
    if c = chr '\n' then [] :: textLines s
    else
      match textLines s with
      | [] => [[c]]
      | l :: ls => (c :: l) :: ls

section Lines
variable {l s : Str}

theorem textLines_append (hl : NoEnd l) (s : Str) :
    textLines (l ++ chr '\n' :: s) = l :: textLines s := by
  induction l with
  | nil => simp [textLines]
  | cons c l ih =>
    have hc := hl c (by simp)
    rw [List.cons_append, textLines, if_neg hc, ih fun x hx => hl x (List.mem_cons_of_mem c hx)]

theorem textLines_last (hl : NoEnd l) (hne : l ≠ []) : textLines l = [l] := by
  induction l with
  | nil => exact absurd rfl hne
  | cons c l ih =>
    have hrest : NoEnd l := fun x hx => hl x (List.mem_cons_of_mem c hx)
    rw [textLines, if_neg (hl c (by simp))]
    by_cases hnil : l = []
    · rw [hnil]
      rfl
    · rw [ih hrest hnil]

theorem NoEnd.cut_none (hl : NoEnd l) : cutAt (fun c => c = chr '\n') l = none :=
  cutAt_none fun c hc => by simpa using hl c hc

theorem NoEnd.cut_append (hl : NoEnd l) (s : Str) :
    cutAt (fun c => c = chr '\n') (l ++ chr '\n' :: s) = some (l, s) :=
  cutAt_append (fun c hc => by simpa using hl c hc) (by simp)

/-- A text is empty, a last line without an end, or a line with its end and a text. -/
theorem text_cases (s : Str) : s = [] ∨ (NoEnd s ∧ s ≠ []) ∨
    ∃ l rest, NoEnd l ∧ s = l ++ chr '\n' :: rest := by
  induction s with
  | nil => exact Or.inl rfl
  | cons c s ih =>
    right
    by_cases hc : c = chr '\n'
    · exact Or.inr ⟨[], s, by simp [NoEnd], by rw [hc, List.nil_append]⟩
    · rcases ih with rfl | ⟨hs, -⟩ | ⟨l, rest, hl, rfl⟩
      · exact Or.inl ⟨by simpa [NoEnd] using hc, List.cons_ne_nil _ _⟩
      · exact Or.inl ⟨by simpa [NoEnd, hc] using hs, List.cons_ne_nil _ _⟩
      · exact Or.inr ⟨c :: l, rest, by simpa [NoEnd, hc] using hl, rfl⟩

/-- Induction over the lines of a text. -/
theorem text_induction {motive : Str → Prop} (hnil : motive [])
    (hlast : ∀ l, NoEnd l → l ≠ [] → motive l)
    (hline : ∀ l s, NoEnd l → motive s → motive (l ++ chr '\n' :: s)) (s : Str) : motive s := by
  induction hn : s.length using Nat.strong_induction_on generalizing s with
  | _ n ih =>
    rcases text_cases s with rfl | ⟨hs, hne⟩ | ⟨l, rest, hl, rfl⟩
    · exact hnil
    · exact hlast s hs hne
    · refine hline l rest hl (ih rest.length ?_ rest rfl)
      rw [← hn, List.length_append, List.length_cons]
      omega

theorem mem_textLines (h : l ∈ textLines s) : NoEnd l ∧ ∀ c ∈ l, c ∈ s := by
  induction s using text_induction with
  | hnil => cases h
  | hlast m hm hne =>
    rw [textLines_last hm hne, List.mem_singleton] at h
    rw [h]
    exact ⟨hm, fun c hc => hc⟩
  | hline m s hm ih =>
    rw [textLines_append hm, List.mem_cons] at h
    rcases h with rfl | h
    · exact ⟨hm, fun c hc => List.mem_append_left _ hc⟩
    · obtain ⟨hend, hsub⟩ := ih h
      exact ⟨hend, fun c hc => List.mem_append_right _ (List.mem_cons_of_mem _ (hsub c hc))⟩

end Lines

section StringReader
variable {l s : Str}

def pending (p : Option Str) : ℕ := p.elim 0 List.length

theorem stringLine_eq {s : Str} (hs : s ≠ []) (n : ℕ) : stlIniStringLine (some s) n =
    match cutAt (fun c => c = chr '\n') s with
    | some (l, rest) => some (l.take n, some rest)
    | none => some (s.take n, none) := by
  cases s with
  | nil => exact absurd rfl hs
  | cons c s => rfl

theorem stringLine_consumes : Consumes stlIniStringLine pending := by
  rintro (- | s) buf p h
  · cases h
  · cases s with
    | nil => cases h
    | cons c s =>
      rcases text_cases (c :: s) with hs | ⟨hs, hne⟩ | ⟨l, rest, hl, heq⟩
      · cases hs
      · rw [stringLine_eq hne, hs.cut_none] at h
        cases h
        simp [pending]
      · rw [heq, stringLine_eq (by simp), hl.cut_append] at h
        cases h
        simp [pending, heq]
        omega

/-- The reader of strings delivers the lines, cut to the buffer. -/
theorem delivered_string (s : Str) :
    delivered stlIniStringLine (s.length + 1) (some s) =
      (textLines s).map (List.take (maxLineLen - 1)) := by
  induction s using text_induction with
  | hnil => rfl
  | hlast l hl hne =>
    rw [textLines_last hl hne, delivered, stringLine_eq hne, hl.cut_none]
    cases l with
    | nil => exact absurd rfl hne
    | cons c l => rfl
  | hline l s hl ih =>
    rw [textLines_append hl, delivered, stringLine_eq (by simp), hl.cut_append]
    refine congrArg (List.cons _) (Eq.trans ?_ ih)
    refine stringLine_consumes.delivered_eq ?_ ?_
    · simp [pending]
      omega
    · simp [pending]

theorem parseString_eq_runLines (ini : StlIni) (s : Str) : stlIniParseString ini s =
    runLines ⟨ini, 0, [], []⟩ ((textLines s).map (List.take (maxLineLen - 1))) := by
  have hf : pending (some s) < s.length + 1 := Nat.lt_succ_self _
  rw [stlIniParseString, stringLine_consumes.parse_eq hf, delivered_string]

end StringReader

section FileReader
variable {l s : Str}

theorem fgets_consumes : Consumes stlIniFileLine List.length := by
  intro s buf s' h
  rw [stlIniFileLine, fgets] at h
  split at h
  · cases h
  · have hpos : 0 < s.length := List.length_pos_iff.mpr ‹_›
    split at h <;> cases h
    · rw [List.length_drop]
      omega
    · rw [List.length_drop]
      simp only [maxLineLen]
      omega

theorem fgets_last (hl : NoEnd l) (hne : l ≠ []) (hlen : l.length ≤ 4094) :
    stlIniFileLine l (maxLineLen - 1) = some (l, []) := by
  have htake : l.take (maxLineLen - 1 - 1) = l := List.take_of_length_le hlen
  have hdrop : l.drop (maxLineLen - 1 - 1) = [] := List.drop_eq_nil_of_le hlen
  rw [stlIniFileLine, fgets, if_neg hne, htake, hl.cut_none, hdrop]

theorem fgets_short (hl : NoEnd l) (hlen : l.length < 4094) (s : Str) :
    stlIniFileLine (l ++ chr '\n' :: s) (maxLineLen - 1) = some (l ++ [chr '\n'], s) := by
  obtain ⟨k, hk⟩ : ∃ k, maxLineLen - 1 - 1 = l.length + (k + 1) :=
    ⟨4093 - l.length, by simp only [maxLineLen]; omega⟩
  have htake : (l ++ chr '\n' :: s).take (maxLineLen - 1 - 1) = l ++ chr '\n' :: s.take k := by
    rw [hk, List.take_length_add_append, List.take_succ_cons]
  rw [stlIniFileLine, fgets, if_neg (by simp), htake, hl.cut_append]
  simp

theorem fgets_full (hl : NoEnd l) (hlen : l.length = 4094) (s : Str) :
    stlIniFileLine (l ++ chr '\n' :: s) (maxLineLen - 1) = some (l, chr '\n' :: s) := by
  have hk : maxLineLen - 1 - 1 = l.length := hlen.symm
  rw [stlIniFileLine, fgets, if_neg (by simp), hk, List.take_left, hl.cut_none, List.drop_left]

def fileLines (s : Str) : List Str := delivered stlIniFileLine (s.length + 1) s

theorem fileLines_eq {buf rest : Str} (h : stlIniFileLine s (maxLineLen - 1) = some (buf, rest)) :
    fileLines s = buf :: fileLines rest := by
  have hsize := fgets_consumes s buf rest h
  have hrest := fgets_consumes.delivered_eq hsize (Nat.lt_succ_self rest.length)
  rw [fileLines, delivered, h]
  exact congrArg (List.cons buf) hrest

theorem fileLines_nil : fileLines [] = [] := rfl

theorem fileLines_last (hl : NoEnd l) (hne : l ≠ []) (hlen : l.length ≤ 4094) :
    fileLines l = [l] := by
  rw [fileLines_eq (fgets_last hl hne hlen), fileLines_nil]

theorem fileLines_line (hl : NoEnd l) (hlen : l.length ≤ 4094) (s : Str) :
    fileLines (l ++ chr '\n' :: s) = (l ++ [chr '\n']) :: fileLines s ∨
      fileLines (l ++ chr '\n' :: s) = l :: [chr '\n'] :: fileLines s := by
  rcases Nat.lt_or_eq_of_le hlen with hlt | heq
  · exact Or.inl (fileLines_eq (fgets_short hl hlt s))
  · have hend := fgets_short (l := []) (by simp [NoEnd]) (by simp) s
    right
    rw [fileLines_eq (fgets_full hl heq s)]
    exact congrArg (List.cons l) (fileLines_eq hend)

theorem fileLines_long (hl : NoEnd l) (hlen : 4094 < l.length) (s : Str) :
    ∃ ps, fileLines (l ++ s) = l.take 4094 :: ps := by
  have htake : (l ++ s).take (maxLineLen - 1 - 1) = l.take 4094 :=
    List.take_append_of_le_length (le_of_lt hlen)
  have hcut : NoEnd (l.take 4094) := fun c hc => hl c (List.mem_of_mem_take hc)
  refine ⟨fileLines ((l ++ s).drop (maxLineLen - 1 - 1)), fileLines_eq ?_⟩
  rw [stlIniFileLine, fgets, if_neg, htake, hcut.cut_none]
  intro hnil
  rw [(List.append_eq_nil_iff.mp hnil).1] at hlen
  exact absurd hlen (by decide)

end FileReader

section LineEnd
variable {s : Str}

theorem trimSpace_concat {b : UInt8} (hb : isspace b = true) (o : ℕ) (s : Str) :
    trimSpace ⟨o, s ++ [b]⟩ = trimSpace ⟨o, s⟩ ∨
      (trimSpace ⟨o, s ++ [b]⟩).str = [] ∧ (trimSpace ⟨o, s⟩).str = [] := by
  by_cases hs : s.dropWhile isspace = []
  · have hnil : trimmed s = [] := by rw [trimmed, hs]
    exact Or.inr ⟨(trimmed_concat hb s).trans hnil, hnil⟩
  · have htake : (s ++ [b]).takeWhile isspace = s.takeWhile isspace := by
      rw [List.takeWhile_append, if_neg]
      intro hlen
      have hsum := congrArg List.length (List.takeWhile_append_dropWhile (p := isspace) (l := s))
      rw [List.length_append] at hsum
      exact hs (List.length_eq_zero_iff.mp (by omega))
    left
    rw [trimSpace, trimSpace, htake, trimmed_concat hb]

/-- Lines with the same head, or with empty ones, are read alike. -/
theorem readLine_congr {first first' : Bool} {key buf buf' : Str}
    (h : headOf first buf = headOf first' buf' ∨
      (headOf first buf).str = [] ∧ (headOf first' buf').str = []) :
    readLine first key buf = readLine first' key buf' := by
  rcases h with h | ⟨h, h'⟩
  · rw [readLine, h, readLine]
  · rw [readLine, readHead, if_pos h, readLine, readHead, if_pos h']

theorem cutComment_end (s : Str) :
    cutComment (s ++ [chr '\n']) = cutComment s ∨
      cutComment (s ++ [chr '\n']) = cutComment s ++ [chr '\n'] := by
  induction s with
  | nil => exact Or.inr rfl
  | cons c s ih =>
    have hhead : (s ++ [chr '\n']).head? = some (chr ';') ∨
        (s ++ [chr '\n']).head? = some (chr '#') ↔
          s.head? = some (chr ';') ∨ s.head? = some (chr '#') := by
      cases s with
      | nil => decide
      | cons d s => rfl
    rw [List.cons_append, cutComment, cutComment]
    simp only [hhead]
    split
    · exact Or.inl rfl
    · exact ih.imp (congrArg (List.cons c)) (congrArg (List.cons c))

theorem trimComment_end (s : Str) :
    trimComment (s ++ [chr '\n']) = trimComment s ∨
      trimComment (s ++ [chr '\n']) = trimComment s ++ [chr '\n'] := by
  cases s with
  | nil => exact Or.inr rfl
  | cons c s =>
    have hhead : (c :: s ++ [chr '\n']).head? = (c :: s).head? := rfl
    rw [trimComment, trimComment, hhead]
    simp only [List.cons_append, List.cons_ne_nil, false_or]
    split
    · exact Or.inl rfl
    · exact cutComment_end (c :: s)

theorem trimBom_end (s : Str) : trimBom ⟨0, s ++ [chr '\n']⟩ =
    ⟨(trimBom ⟨0, s⟩).off, (trimBom ⟨0, s⟩).str ++ [chr '\n']⟩ := by
  by_cases hlen : 3 ≤ s.length
  · have htake : (s ++ [chr '\n']).take 3 = s.take 3 := List.take_append_of_le_length hlen
    have hdrop : (s ++ [chr '\n']).drop 3 = s.drop 3 ++ [chr '\n'] :=
      List.drop_append_of_le_length hlen
    have hlen' : 3 ≤ (s ++ [chr '\n']).length := by
      rw [List.length_append]
      omega
    simp only [trimBom, htake, hdrop, hlen, hlen', true_and]
    split <;> rfl
  · have hshort : ¬ (3 ≤ (s ++ [chr '\n']).length ∧ (s ++ [chr '\n']).take 3 = [0xEF, 0xBB, 0xBF]) := by
      rintro ⟨hle, htake⟩
      rw [List.length_append, List.length_singleton] at hle
      have hall : (s ++ [chr '\n']).length ≤ 3 := by
        rw [List.length_append, List.length_singleton]
        omega
      rw [List.take_of_length_le hall] at htake
      have hlast := congrArg List.getLast? htake
      rw [List.getLast?_concat] at hlast
      exact absurd hlast (by decide)
    rw [trimBom, if_neg hshort, trimBom, if_neg fun h => hlen h.1]

/-- The parser makes the same of a line with and without its end. -/
theorem readLine_end (first : Bool) (key buf : Str) :
    readLine first key (buf ++ [chr '\n']) = readLine first key buf := by
  have hcom : ∀ o s, trimSpace ⟨o, trimComment (s ++ [chr '\n'])⟩ = trimSpace ⟨o, trimComment s⟩ ∨
      (trimSpace ⟨o, trimComment (s ++ [chr '\n'])⟩).str = [] ∧
        (trimSpace ⟨o, trimComment s⟩).str = [] := by
    intro o s
    rcases trimComment_end s with h | h
    · exact Or.inl (by rw [h])
    · rw [h]
      exact trimSpace_concat (by decide) o _
  refine readLine_congr ?_
  cases first with
  | false => exact hcom 0 buf
  | true =>
    simp only [headOf, if_true, trimBom_end]
    exact hcom _ _

theorem readLine_blank (key : Str) : readLine false key [chr '\n'] = .blank := rfl

/-- A line that fits into the buffer is parsed as if it had been fetched without its end. -/
theorem scan_fileLines {l : Str} (hl : NoEnd l) (hlen : l.length ≤ 4094) (first : Bool)
    (name key s : Str) : scan first name key (fileLines (l ++ chr '\n' :: s)) =
      scan first name key (l :: fileLines s) := by
  rcases fileLines_line hl hlen s with h | h
  · rw [h, scan, scan, readLine_end]
  · have hblank : ∀ name key, scan false name key ([chr '\n'] :: fileLines s) =
        scan false name key (fileLines s) := by
      intro name key
      rw [scan, readLine_blank]
    rw [h]
    conv_lhs => rw [scan]
    conv_rhs => rw [scan]
    simp only [hblank]

theorem length_reached_fileLines {l : Str} (hl : NoEnd l) (hlen : l.length ≤ 4094) (first : Bool)
    (key s : Str) : (reached first key (l :: fileLines s)).length ≤
      (reached first key (fileLines (l ++ chr '\n' :: s))).length := by
  rcases fileLines_line hl hlen s with h | h
  · rw [h, reached, reached, readLine_end, List.length_cons, List.length_cons]
  · have hblank : ∀ key, (reached false key (fileLines s)).length ≤
        (reached false key ([chr '\n'] :: fileLines s)).length := by
      intro key
      rw [reached, readLine_blank]
      exact Nat.le_succ _
    rw [h, reached, reached, List.length_cons, List.length_cons]
    refine Nat.succ_le_succ ?_
    cases readLine first key l with
    | blank => exact hblank key
    | header n => exact hblank []
    | item k v next => exact hblank next
    | bad => exact le_rfl

/-- The items do not depend on how the lines were fetched, as long as those that the parser gets to
fit into the buffer. -/
theorem scan_file {s : Str} {first : Bool} {key : Str} (name : Str)
    (hfits : ∀ l ∈ reached first key (textLines s), l.length ≤ 4094) :
    scan first name key (fileLines s) = scan first name key (textLines s) ∧
      (reached first key (textLines s)).length ≤ (reached first key (fileLines s)).length := by
  induction s using text_induction generalizing first name key with
  | hnil => exact ⟨rfl, le_rfl⟩
  | hlast l hl hne =>
    rw [textLines_last hl hne] at hfits ⊢
    rw [fileLines_last hl hne (hfits l (by simp [reached]))]
    exact ⟨rfl, le_rfl⟩
  | hline l s hl ih =>
    rw [textLines_append hl] at hfits ⊢
    rw [reached, List.forall_mem_cons] at hfits
    obtain ⟨hlen, hfits⟩ := hfits
    have hcount := length_reached_fileLines hl hlen first key s
    rw [scan_fileLines hl hlen, scan, scan]
    suffices h : _ ∧ (reached first key (l :: textLines s)).length ≤
        (reached first key (l :: fileLines s)).length from ⟨h.1, h.2.trans hcount⟩
    rw [reached, reached, List.length_cons, List.length_cons]
    cases hread : readLine first key l with
    | blank =>
      rw [hread] at hfits
      exact (ih name hfits).imp_right Nat.succ_le_succ
    | header n =>
      rw [hread] at hfits
      exact (ih n hfits).imp_right Nat.succ_le_succ
    | item k v next =>
      rw [hread] at hfits
      obtain ⟨hscan, hle⟩ := ih name hfits
      exact ⟨by simp only [hscan], Nat.succ_le_succ hle⟩
    | bad => exact ⟨rfl, le_rfl⟩

end LineEnd

def stringLines (s : Str) : List Str := delivered stlIniStringLine (s.length + 1) (some s)

theorem stringLines_eq_map (s : Str) :
    stringLines s = (textLines s).map (List.take (maxLineLen - 1)) := delivered_string s

/-- The items that the lines of a whole input deliver. -/
def itemsOf (ls : List Str) : List (Str × Str × Str) := (scan true [] [] ls).1

/-- Both parsers store the same items one after the other, and one fails if the other does. -/
structure Agree (ini : StlIni) (s : Str) : Prop where
  items : itemsOf (fileLines s) = itemsOf (stringLines s)
  results : ∃ rc rc' : ℤ, (rc = 0 ↔ rc' = 0) ∧
    stlIniParseFile ini (some s) = (putAll ini (itemsOf (fileLines s))).map (fun ini => (ini, rc)) ∧
    stlIniParseString ini s = (putAll ini (itemsOf (stringLines s))).map fun ini => (ini, rc')

/-- No line that the parser gets to is longer than `b`, and the line counter does not overflow on
the way. -/
structure Within (b : ℕ) (s : Str) : Prop where
  lines : ∀ l ∈ reached true [] (textLines s), l.length ≤ b
  count : (reached true [] (fileLines s)).length < 2 ^ 31

/-- From the first line on the parser stores the items of the lines. -/
theorem parse_eq_putAll {S : Type} {nextLine : S → ℕ → Option (Str × S)} {size : S → ℕ} {s : S}
    {fuel : ℕ} (hc : Consumes nextLine size) (hf : size s < fuel) (ini : StlIni)
    (hcount : (reached true [] (delivered nextLine fuel s)).length < 2 ^ 31) :
    ∃ rc : ℤ, (rc = 0 ↔ (scan true [] [] (delivered nextLine fuel s)).2 = true) ∧
      stlIniParse nextLine fuel ⟨ini, 0, [], []⟩ s =
        (putAll ini (itemsOf (delivered nextLine fuel s))).map fun ini => (ini, rc) := by
  rw [hc.parse_eq hf]
  refine runLines_reached true ⟨ini, 0, [], []⟩ _ ?_ rfl
  have hzero : (0 : BitVec 32).toNat = 0 := rfl
  simp only [hzero]
  omega

theorem agree_of_within (ini : StlIni) {s : Str} (h : Within 4094 s) : Agree ini s := by
  obtain ⟨hfile, hle⟩ := scan_file [] h.lines
  have htake : ∀ l ∈ reached true [] (textLines s), l.take (maxLineLen - 1) = l := by
    intro l hl
    have hlen := h.lines l hl
    exact List.take_of_length_le (by simp only [maxLineLen]; omega)
  obtain ⟨hstring, hreached⟩ := scan_map_reached [] htake
  rw [← stringLines_eq_map] at hstring hreached
  have hscan : scan true [] [] (fileLines s) = scan true [] [] (stringLines s) :=
    hfile.trans hstring.symm
  have hcount : (reached true [] (stringLines s)).length < 2 ^ 31 := by
    rw [hreached]
    exact lt_of_le_of_lt hle h.count
  obtain ⟨rc, hrc, hrun⟩ := parse_eq_putAll fgets_consumes (Nat.lt_succ_self _) ini h.count
  obtain ⟨rc', hrc', hrun'⟩ :=
    parse_eq_putAll stringLine_consumes (s := some s) (Nat.lt_succ_self _) ini hcount
  refine ⟨congrArg Prod.fst hscan, rc, rc', ?_, hrun, hrun'⟩
  rw [hrc, hrc']
  exact iff_of_eq (congrArg (fun r => r.2 = true) hscan)

section Parted

/-- The shorter cut of a line delivers another item than the longer one, or fails where that one
delivers an item. -/
inductive Unlike : Line → Line → Prop where
  | failed (k v next : Str) : Unlike .bad (.item k v next)
  | other {k v k' v' : Str} (next next' : Str) :
    (k, v) ≠ (k', v') → Unlike (.item k v next) (.item k' v' next')

/-- The two readers cut the first line that is too long into something else, if the parser gets to
it. -/
def Parted : (first : Bool) → (key : Str) → List Str → Prop
  | _, _, [] => False
  | first, key, l :: ls =>
    if l.length ≤ 4094 then
      match readLine first key l with
      | .blank => Parted false key ls
      | .header _ => Parted false [] ls
      | .item _ _ next => Parted false next ls
      | .bad => False
    else Unlike (readLine first key (l.take 4094)) (readLine first key (l.take 4095))

theorem scan_of_unlike {first : Bool} {key b b' : Str}
    (h : Unlike (readLine first key b) (readLine first key b')) (name : Str) (ps ls : List Str) :
    (scan first name key (b :: ps)).1 ≠ (scan first name key (b' :: ls)).1 := by
  rw [scan, scan]
  generalize readLine first key b = r, readLine first key b' = r' at h
  cases h with
  | failed k v next => exact (List.cons_ne_nil _ _).symm
  | other next next' hne =>
    intro heq
    have hhead := (List.cons.inj heq).1
    exact hne (congrArg Prod.snd hhead)

/-- A line that is too long is cut, whatever stands behind it. -/
theorem scan_of_long {l : Str} {first : Bool} {key : Str} (hl : NoEnd l) (hlen : ¬ l.length ≤ 4094)
    (h : Unlike (readLine first key (l.take 4094)) (readLine first key (l.take 4095)))
    (name s : Str) (ls : List Str) : (scan first name key (fileLines (l ++ s))).1 ≠
      (scan first name key (l.take (maxLineLen - 1) :: ls)).1 := by
  obtain ⟨ps, hps⟩ := fileLines_long hl (Nat.lt_of_not_le hlen) s
  rw [hps]
  exact scan_of_unlike h name ps ls

theorem scan_of_parted {s : Str} {first : Bool} {key : Str} (name : Str)
    (h : Parted first key (textLines s)) :
    (scan first name key (fileLines s)).1 ≠ (scan first name key (stringLines s)).1 := by
  induction s using text_induction generalizing first name key with
  | hnil => exact h.elim
  | hlast l hl hne =>
    rw [stringLines_eq_map]
    rw [textLines_last hl hne] at h ⊢
    rw [Parted] at h
    split at h
    · cases hread : readLine first key l <;> rw [hread] at h <;> exact h.elim
    · rename_i hlen
      have hcut := scan_of_long hl hlen h name [] []
      rwa [List.append_nil] at hcut
  | hline l s hl ih =>
    have hstring : stringLines (l ++ chr '\n' :: s) =
        l.take (maxLineLen - 1) :: stringLines s := by
      rw [stringLines_eq_map, textLines_append hl, List.map_cons, ← stringLines_eq_map]
    rw [textLines_append hl, Parted] at h
    rw [hstring]
    split at h
    · rename_i hlen
      have htake : l.take (maxLineLen - 1) = l :=
        List.take_of_length_le (by simp only [maxLineLen]; omega)
      rw [scan_fileLines hl hlen, htake, scan, scan]
      cases hread : readLine first key l with
      | blank =>
        rw [hread] at h
        exact ih name h
      | header n =>
        rw [hread] at h
        exact ih n h
      | item k v next =>
        rw [hread] at h
        exact fun heq => ih name h (List.cons.inj heq).2
      | bad =>
        rw [hread] at h
        exact h.elim
    · rename_i hlen
      exact scan_of_long hl hlen h name (chr '\n' :: s) (stringLines s)

theorem disagree_of_parted (ini : StlIni) {s : Str} (h : Parted true [] (textLines s)) :
    ¬ Agree ini s := fun hagree => scan_of_parted [] h hagree.items

end Parted

def letters (n : ℕ) : Str := chr 'k' :: chr '=' :: List.replicate n (chr 'v')

theorem mem_letters {n : ℕ} {c : UInt8} (hc : c ∈ letters n) :
    c = chr 'k' ∨ c = chr '=' ∨ c = chr 'v' := by
  rcases List.mem_cons.mp hc with hk | hc
  · exact Or.inl hk
  · rcases List.mem_cons.mp hc with heq | hc
    · exact Or.inr (Or.inl heq)
    · exact Or.inr (Or.inr (List.eq_of_mem_replicate hc))

section Letters
variable (n : ℕ)

theorem letters_noEnd : NoEnd (letters n) := by
  intro c hc
  rcases mem_letters hc with rfl | rfl | rfl <;> decide

theorem letters_isStr : IsStr (letters n) := by
  intro c hc
  rcases mem_letters hc with rfl | rfl | rfl <;> decide

theorem length_letters : (letters n).length = n + 2 := by
  simp [letters]

theorem readLine_letters : readLine true [] (letters n) =
    .item [chr 'k'] (List.replicate n (chr 'v')) [chr 'k'] := by
  have hv : ∀ c ∈ List.replicate n (chr 'v'), isspace c = false := by
    intro c hc
    rw [List.eq_of_mem_replicate hc]
    decide
  have hline : readLine true [] (letters n) =
      .item [chr 'k'] (trimmed (List.replicate n (chr 'v'))) [chr 'k'] := by
    refine readLine_item (k := [chr 'k']) [] ?_ ?_ (List.isChain_singleton _) (plain_of_forall hv)
    · rw [List.forall_mem_singleton]
      decide
    · intro c hc
      obtain rfl := Option.some.inj hc
      exact ⟨⟨by decide, by decide, by decide, fun _ => by decide⟩, by decide⟩
  rw [hline, trimmed_eq_of_bare (bare_of_forall hv)]

theorem textLines_letters : textLines (letters n) = [letters n] :=
  textLines_last (letters_noEnd n) (List.cons_ne_nil _ _)

end Letters

theorem take_letters {m n : ℕ} (h : m ≤ n) : (letters n).take (m + 2) = letters m := by
  rw [letters, List.take_succ_cons, List.take_succ_cons, List.take_replicate, Nat.min_eq_left h,
    letters]

/-- Of a line that is too long the two readers keep different numbers of letters. -/
theorem letters_parted {n : ℕ} (hn : 4093 ≤ n) : Parted true [] (textLines (letters n)) := by
  have hshort : (letters n).take 4094 = letters 4092 := take_letters (by omega)
  have hlong : (letters n).take 4095 = letters 4093 := take_letters hn
  rw [textLines_letters, Parted, if_neg (by rw [length_letters]; omega), hshort, hlong,
    readLine_letters, readLine_letters]
  refine .other _ _ fun heq => ?_
  have hlen := congrArg (fun x : Str × Str => x.2.length) heq
  simp only [List.length_replicate] at hlen
  exact absurd hlen (by decide)

theorem letters_disagree (ini : StlIni) {n : ℕ} (hn : 4093 ≤ n) : ¬ Agree ini (letters n) :=
  disagree_of_parted ini (letters_parted hn)

/-- Reading a text from a file and from memory agrees up to lines of 4094 bytes. It does not where
the cuts of the first longer line deliver different items. -/
theorem agree_within_iff (b : ℕ) :
    ((∀ ini s, IsStr s → Within b s → Agree ini s) ↔ b ≤ 4094) ∧
      ∀ ini s, IsStr s → Parted true [] (textLines s) → ¬ Agree ini s := by
  refine ⟨⟨?_, ?_⟩, fun ini s _ => disagree_of_parted ini⟩
  · intro h
    by_contra hb
    refine letters_disagree ⟨[]⟩ le_rfl (h ⟨[]⟩ _ (letters_isStr 4093) ⟨?_, ?_⟩)
    · intro l hl
      rw [textLines_letters, reached, readLine_letters] at hl
      rw [List.mem_singleton.mp hl, length_letters]
      omega
    · refine lt_of_le_of_lt ((reached_length_le true [] _).trans
        (fgets_consumes.length_le _ (letters 4093))) ?_
      rw [length_letters]
      omega
  · intro hb ini s _ hw
    exact agree_of_within ini ⟨fun l hl => (hw.lines l hl).trans hb, hw.count⟩

/-- The text `k=` with 4093 letters. -/
theorem readers_disagree : IsStr (letters 4093) ∧ (letters 4093).length = 4095 ∧
    ¬ Agree ⟨[]⟩ (letters 4093) :=
  ⟨letters_isStr _, length_letters _, letters_disagree _ le_rfl⟩

end KirinFS.Ini
