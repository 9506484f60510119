import KirinFS.Ini.Readers

/-! # Comments and blank lines

A line that holds nothing but blanks or starts with a comment is skipped with
the key left as it was, and a comment behind a blank is cut off. What is left of
them is the line counter, an `int`.
-/

namespace KirinFS.Ini
open Foundation.CString

def Silent (l : Str) : Prop :=
  (∀ c ∈ l, isspace c = true) ∨ l.head? = some (chr ';') ∨ l.head? = some (chr '#')

/-- One silent line more, or one comment more behind a line. -/
inductive Commented : List Str → List Str → Prop where
  | line {A B : List Str} {l : Str} (h : Silent l) : Commented (A ++ B) (A ++ l :: B)
  | tail {A B : List Str} {c : UInt8} (l t : Str) (hc : c = chr ';' ∨ c = chr '#') :
    Commented (A ++ l :: B) (A ++ (l ++ chr ' ' :: c :: t) :: B)

def bom : Str := [0xEF, 0xBB, 0xBF]

/-- The parser delivers the same items of both texts, and fails on both or on none. -/
structure SameOutcome (ini : StlIni) (s s' : Str) : Prop where
  items : itemsOf (stringLines s') = itemsOf (stringLines s)
  results : ∃ rc rc' : ℤ, (rc' = 0 ↔ rc = 0) ∧
    stlIniParseString ini s = (putAll ini (itemsOf (stringLines s))).map (fun ini => (ini, rc)) ∧
    stlIniParseString ini s' = (putAll ini (itemsOf (stringLines s'))).map fun ini => (ini, rc')

section Line
variable {key l t : Str} {c : UInt8}

theorem readLine_silent (h : Silent l) (key : Str) : readLine false key l = .blank := by
  have hstr : (headOf false l).str = [] := by
    rcases h with hall | hmark
    · have hcut : ∀ c ∈ trimComment l, isspace c = true :=
        fun c hc => hall c ((trimComment_begins l).subset hc)
      have hdrop : (trimComment l).dropWhile isspace = [] :=
        List.dropWhile_eq_nil_iff.mpr hcut
      change trimmed (trimComment l) = []
      rw [trimmed, hdrop]
    · change trimmed (trimComment l) = []
      rw [trimComment, if_pos (Or.inr hmark)]
      rfl
  rw [readLine, readHead, if_pos hstr]

theorem blank_no_mark : ¬ (some (chr ' ') = some (chr ';') ∨ some (chr ' ') = some (chr '#')) := by
  decide

theorem cutComment_tail (hc : c = chr ';' ∨ c = chr '#') (l t : Str) :
    cutComment (l ++ chr ' ' :: c :: t) = cutComment l ∨
      cutComment (l ++ chr ' ' :: c :: t) = cutComment l ++ [chr ' '] := by
  induction l with
  | nil =>
    have hcut : cutComment (chr ' ' :: c :: t) = [chr ' '] := by
      rw [cutComment, if_pos ⟨rfl, hc.imp (congrArg some) (congrArg some)⟩]
    exact Or.inr hcut
  | cons d l ih =>
    have hhead : (l ++ chr ' ' :: c :: t).head? = some (chr ';') ∨
        (l ++ chr ' ' :: c :: t).head? = some (chr '#') ↔
          l.head? = some (chr ';') ∨ l.head? = some (chr '#') := by
      cases l with
      | nil => exact iff_of_false blank_no_mark (by decide)
      | cons e l => rfl
    rw [List.cons_append, cutComment, cutComment]
    simp only [hhead]
    split
    · exact Or.inl rfl
    · exact ih.imp (congrArg (List.cons d)) (congrArg (List.cons d))

theorem trimComment_tail (hc : c = chr ';' ∨ c = chr '#') (l t : Str) :
    trimComment (l ++ chr ' ' :: c :: t) = trimComment l ∨
      trimComment (l ++ chr ' ' :: c :: t) = trimComment l ++ [chr ' '] := by
  cases l with
  | nil =>
    have hcut := cutComment_tail hc [] t
    rw [List.nil_append] at hcut ⊢
    rw [trimComment, if_neg fun h => h.elim (List.cons_ne_nil _ _) blank_no_mark]
    exact hcut
  | cons d l =>
    have hhead : (d :: l ++ chr ' ' :: c :: t).head? = (d :: l).head? := rfl
    rw [trimComment, trimComment, hhead]
    simp only [List.cons_append, List.cons_ne_nil, false_or]
    split
    · exact Or.inl rfl
    · exact cutComment_tail hc (d :: l) t

theorem readLine_tail (hc : c = chr ';' ∨ c = chr '#') (key l t : Str) :
    readLine false key (l ++ chr ' ' :: c :: t) = readLine false key l := by
  refine readLine_congr ?_
  change trimSpace ⟨0, trimComment (l ++ chr ' ' :: c :: t)⟩ = trimSpace ⟨0, trimComment l⟩ ∨
    (trimSpace ⟨0, trimComment (l ++ chr ' ' :: c :: t)⟩).str = [] ∧
      (trimSpace ⟨0, trimComment l⟩).str = []
  rcases trimComment_tail hc l t with h | h
  · exact Or.inl (by rw [h])
  · rw [h]
    exact trimSpace_concat (by decide) 0 _

theorem readLine_first (h : ¬ bom <+: l) (key : Str) :
    readLine true key l = readLine false key l := by
  have hbom : trimBom ⟨0, l⟩ = ⟨0, l⟩ := by
    rw [trimBom, if_neg]
    rintro ⟨-, htake⟩
    exact h (List.prefix_iff_eq_take.mpr htake.symm)
  rw [readLine, headOf, if_pos rfl, hbom]
  rfl

end Line

section Scan
variable {ls ls' : List Str} {name key : Str}

theorem scan_first (h : ∀ l ∈ ls.head?, ¬ bom <+: l) (name key : Str) :
    scan true name key ls = scan false name key ls := by
  cases ls with
  | nil => rfl
  | cons l ls => rw [scan, scan, readLine_first (h l rfl)]

theorem scan_append {X Y : List Str} (h : ∀ name key, scan false name key X = scan false name key Y)
    (A : List Str) (name key : Str) :
    scan false name key (A ++ X) = scan false name key (A ++ Y) := by
  induction A generalizing name key with
  | nil => exact h name key
  | cons l A ih =>
    rw [List.cons_append, List.cons_append, scan, scan]
    simp only [ih]

/-- The comments make no difference in any section and behind any key. -/
theorem Commented.scan_eq (h : Commented ls ls') (name key : Str) :
    scan false name key ls' = scan false name key ls := by
  cases h with
  | line hl =>
    refine scan_append (fun name key => ?_) _ name key
    rw [scan, readLine_silent hl]
  | tail l t hc =>
    refine scan_append (fun name key => ?_) _ name key
    rw [scan, scan, readLine_tail hc]

theorem Silent.no_bom {l : Str} (h : Silent l) : ¬ bom <+: l := by
  rintro ⟨r, rfl⟩
  rcases h with h | h
  · exact absurd (h 0xEF (by simp [bom])) (by decide)
  · rcases h with h | h
    · exact absurd (Option.some.inj h) (by decide)
    · exact absurd (Option.some.inj h) (by decide)

theorem no_bom_tail {l t : Str} {c : UInt8} (h : ¬ bom <+: l) :
    ¬ bom <+: l ++ chr ' ' :: c :: t := by
  intro hpre
  rcases List.prefix_or_prefix_of_prefix hpre (List.prefix_append _ _) with hb | ⟨r, hr⟩
  · exact h hb
  · rw [← hr, List.prefix_append_right_inj] at hpre
    cases r with
    | nil => exact h ⟨[], by rw [← hr, List.append_nil, List.append_nil]⟩
    | cons d r =>
      obtain ⟨rfl, -⟩ := List.cons_prefix_cons.mp hpre
      have hmem : chr ' ' ∈ bom := by
        rw [← hr]
        simp
      exact absurd hmem (by decide)

theorem Commented.no_bom (h : Commented ls ls') (hb : ∀ l ∈ ls.head?, ¬ bom <+: l) :
    ∀ l ∈ ls'.head?, ¬ bom <+: l := by
  cases h with
  | @line A B l hl =>
    cases A with
    | nil =>
      intro m hm
      obtain rfl : l = m := Option.some.inj hm
      exact hl.no_bom
    | cons a A => exact hb
  | @tail A B c l t hc =>
    cases A with
    | nil =>
      intro m hm
      obtain rfl : l ++ chr ' ' :: c :: t = m := Option.some.inj hm
      exact no_bom_tail (hb l rfl)
    | cons a A => exact hb

end Scan

section Texts
variable {s s' : Str}

theorem head_textLines (s : Str) : ∀ l ∈ (textLines s).head?, l <+: s := by
  rcases text_cases s with rfl | ⟨hs, hne⟩ | ⟨l, rest, hl, rfl⟩
  · intro l hl
    cases hl
  · rw [textLines_last hs hne]
    intro l hl
    obtain rfl : s = l := Option.some.inj hl
    exact List.prefix_refl _
  · rw [textLines_append hl]
    intro m hm
    obtain rfl : l = m := Option.some.inj hm
    exact List.prefix_append _ _

theorem stringLines_eq (h : ∀ l ∈ textLines s, l.length < 4000) : stringLines s = textLines s := by
  rw [stringLines, delivered_string]
  refine (List.map_congr_left fun l hl => ?_).trans (List.map_id _)
  have hlen := h l hl
  exact List.take_of_length_le (by simp only [maxLineLen]; omega)

/-- Comments and blank lines do not show as long as the line counter does not overflow. -/
theorem comments_invisible (ini : StlIni) (hbom : ¬ bom <+: s)
    (hshort : ∀ l ∈ textLines s, l.length < 4000) (hshort' : ∀ l ∈ textLines s', l.length < 4000)
    (h : Commented (textLines s) (textLines s')) (hcount : (textLines s').length < 2 ^ 31) :
    SameOutcome ini s s' := by
  have hfirst : ∀ l ∈ (textLines s).head?, ¬ bom <+: l :=
    fun l hl hb => hbom (hb.trans (head_textLines s l hl))
  have hscan : scan true [] [] (stringLines s') = scan true [] [] (stringLines s) := by
    rw [stringLines_eq hshort, stringLines_eq hshort', scan_first hfirst,
      scan_first (h.no_bom hfirst), h.scan_eq]
  have hle : (textLines s).length ≤ (textLines s').length := by
    generalize textLines s = ls, textLines s' = ls' at h
    cases h with
    | line hl =>
      simp only [List.length_append, List.length_cons]
      omega
    | tail l t hc => simp only [List.length_append, List.length_cons, Nat.le_refl]
  have hcount₀ : (stringLines s).length < 2 ^ 31 := by
    rw [stringLines_eq hshort]
    exact lt_of_le_of_lt hle hcount
  have hcount₁ : (stringLines s').length < 2 ^ 31 := by
    rwa [stringLines_eq hshort']
  obtain ⟨rc, hrc, hrun⟩ :=
    parse_eq_putAll stringLine_consumes (s := some s) (Nat.lt_succ_self _) ini
      (lt_of_le_of_lt (reached_length_le true [] _) hcount₀)
  obtain ⟨rc', hrc', hrun'⟩ :=
    parse_eq_putAll stringLine_consumes (s := some s') (Nat.lt_succ_self _) ini
      (lt_of_le_of_lt (reached_length_le true [] _) hcount₁)
  refine ⟨congrArg Prod.fst hscan, rc, rc', ?_, hrun, hrun'⟩
  rw [hrc, hrc']
  exact iff_of_eq (congrArg (fun r => r.2 = true) hscan)

/-- A line with a comment behind it. -/
theorem comments_invisible_tail : SameOutcome ⟨[]⟩ [chr 'k', chr '=', chr '1']
    [chr 'k', chr '=', chr '1', chr ' ', chr ';', chr 'c'] := by
  refine comments_invisible ⟨[]⟩ (by decide) (by decide) (by decide) ?_ (by decide)
  exact @Commented.tail [] [] (chr ';') [chr 'k', chr '=', chr '1'] [chr 'c'] (Or.inl rfl)

end Texts

section Counter

/-- `n` empty lines and a line that is neither a header nor an item. -/
def manyLines (n : ℕ) : Str := List.replicate n (chr '\n') ++ [chr 'x']

theorem textLines_manyLines (n : ℕ) :
    textLines (manyLines n) = List.replicate n [] ++ [[chr 'x']] := by
  induction n with
  | zero => rfl
  | succ n ih =>
    rw [manyLines, List.replicate_succ, List.cons_append, List.replicate_succ, List.cons_append,
      ← ih]
    exact textLines_append (l := []) (by simp [NoEnd]) _

theorem runLines_blanks (n : ℕ) (st : ParseState) (ls : List Str) :
    runLines st (List.replicate n [] ++ ls) =
      runLines { st with line := st.line + BitVec.ofNat 32 n } ls := by
  induction n generalizing st with
  | zero => simp
  | succ n ih =>
    have hblank : ∀ first, readLine first st.key [] = .blank := by
      intro first
      cases first <;> rfl
    rw [List.replicate_succ, List.cons_append, runLines, parseLine_eq, hblank, Option.bind_some]
    dsimp only
    rw [ih]
    congr 2
    rw [BitVec.add_assoc, Nat.add_comm n 1, BitVec.ofNat_add]
    rfl

theorem parse_manyLines (n : ℕ) : stlIniParseString ⟨[]⟩ (manyLines n) =
    some (⟨[]⟩, (BitVec.ofNat 32 n + 1).toInt) := by
  have hbad : ∀ first, readLine first [] [chr 'x'] = .bad := by
    intro first
    cases first <;> rfl
  have htake : (List.replicate n [] ++ [[chr 'x']]).map (List.take (maxLineLen - 1)) =
      List.replicate n [] ++ [[chr 'x']] := by
    rw [List.map_append, List.map_replicate]
    rfl
  have hzero : (0 : BitVec 32) + BitVec.ofNat 32 n = BitVec.ofNat 32 n := BitVec.zero_add _
  rw [parseString_eq_runLines, textLines_manyLines, htake, runLines_blanks, runLines, parseLine_eq,
    hbad, Option.bind_some]
  dsimp only
  rw [hzero]

theorem manyLines_noBom (n : ℕ) : ¬ bom <+: manyLines n := by
  cases n with
  | zero => decide
  | succ n =>
    intro h
    rw [manyLines, List.replicate_succ, List.cons_append] at h
    exact absurd (List.cons_prefix_cons.mp h).1 (by decide)

theorem manyLines_short (n : ℕ) : ∀ l ∈ textLines (manyLines n), l.length < 4000 := by
  intro l hl
  rw [textLines_manyLines, List.mem_append, List.mem_singleton] at hl
  rcases hl with hl | rfl
  · rw [List.eq_of_mem_replicate hl]
    decide
  · decide

theorem manyLines_commented (n : ℕ) :
    Commented (textLines (manyLines n)) (textLines (manyLines (n + 1))) := by
  rw [textLines_manyLines, textLines_manyLines, List.replicate_succ]
  exact @Commented.line [] _ [] (Or.inl (by simp))

/-- One empty line more where the counter comes out at zero. -/
theorem manyLines_noticed {n : ℕ} (h : BitVec.ofNat 32 n + 1 = 0) :
    stlIniParseString ⟨[]⟩ (manyLines n) = some (⟨[]⟩, 0) ∧
      stlIniParseString ⟨[]⟩ (manyLines (n + 1)) = some (⟨[]⟩, 1) ∧
      ¬ SameOutcome ⟨[]⟩ (manyLines n) (manyLines (n + 1)) := by
  have hnext : BitVec.ofNat 32 (n + 1) = 0 := by
    rw [BitVec.ofNat_add]
    exact h
  have hzero := parse_manyLines n
  have hone := parse_manyLines (n + 1)
  rw [h] at hzero
  rw [hnext] at hone
  refine ⟨hzero, hone, ?_⟩
  rintro ⟨-, rc, rc', hrc, hrun, hrun'⟩
  obtain ⟨ini, -, heq⟩ := Option.map_eq_some_iff.mp (hrun.symm.trans hzero)
  obtain ⟨ini', -, heq'⟩ := Option.map_eq_some_iff.mp (hrun'.symm.trans hone)
  have hfails := (congrArg Prod.snd heq').symm.trans (hrc.mpr (congrArg Prod.snd heq))
  exact absurd hfails (by decide)

/-- The bad line in the place where the counter has wrapped around is taken for success, and behind
one more empty line it is not. -/
theorem blank_line_noticed : ¬ bom <+: manyLines 4294967295 ∧
    (∀ l ∈ textLines (manyLines 4294967296), l.length < 4000) ∧
    Commented (textLines (manyLines 4294967295)) (textLines (manyLines 4294967296)) ∧
    stlIniParseString ⟨[]⟩ (manyLines 4294967295) = some (⟨[]⟩, 0) ∧
    stlIniParseString ⟨[]⟩ (manyLines 4294967296) = some (⟨[]⟩, 1) ∧
    ¬ SameOutcome ⟨[]⟩ (manyLines 4294967295) (manyLines 4294967296) :=
  ⟨manyLines_noBom _, manyLines_short _, manyLines_commented 4294967295,
    manyLines_noticed (n := 4294967295) (by decide)⟩

end Counter

end KirinFS.Ini
