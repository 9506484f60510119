import KirinFS.Ini.Parse
import Mathlib.Data.List.Chain

/-! # What the parser makes of a line

The parser drops a comment before it trims, so no blank with a semicolon or a
hash behind it survives, and what is left neither starts nor ends with a blank.
Such heads are read as they stand.
-/

namespace KirinFS.Ini
open Foundation.CString

/-- What `stl_ini_parse` makes of a line. Behind an item the key buffer holds `next`. -/
inductive Line where
  | blank
  | header (name : Str)
  | item (key value next : Str)
  | bad
  deriving DecidableEq

/-- `head` behind the byte order mark, the comment and the blanks. -/
def headOf (first : Bool) (buf : Str) : Cursor :=
  let head : Cursor := if first then trimBom ⟨0, buf⟩ else ⟨0, buf⟩
  trimSpace ⟨head.off, trimComment head.str⟩

def readHead (key : Str) (head : Cursor) : Line :=
  if head.str = [] then .blank
  else if 0 < head.off ∧ key ≠ [] then .item key head.str key
  else if head.str.head? = some (chr '[') then
    match cutAt (fun c => c = chr ']') head.str with
    | none => .bad
    | some (s, _) => .header ((s.drop 1).take nameSize)
  else
    match cutAt (fun c => c = chr '=' || c = chr ':') head.str with
    | none => .bad
    | some (k, v) => .item (trimInPlace k) (trimmed v) ((trimInPlace k).take nameSize)

def readLine (first : Bool) (key buf : Str) : Line := readHead key (headOf first buf)

theorem parseLine_eq (st : ParseState) (buf : Str) : parseLine st buf =
    match readLine (decide (st.line + 1 = 1)) st.key buf with
    | .blank => some ({ st with line := st.line + 1 }, none)
    | .header n => some ({ st with line := st.line + 1, key := [], sectionName := n }, none)
    | .item k v next => (stlIniOnItemFunc st.ini st.sectionName k v).map fun ini =>
        ({ st with line := st.line + 1, ini := ini, key := next }, none)
    | .bad => some ({ st with line := st.line + 1 }, some (st.line + 1).toInt) := by
  simp only [parseLine, readLine, readHead, headOf, decide_eq_true_eq]
  generalize trimSpace _ = head
  split
  · rfl
  · split
    · rfl
    · split
      · cases cutAt (fun c => c = chr ']') head.str <;> rfl
      · cases cutAt (fun c => c = chr '=' || c = chr ':') head.str <;> rfl

def Plain (s : Str) : Prop :=
  s.IsChain fun a b => ¬ (a = chr ' ' ∧ (b = chr ';' ∨ b = chr '#'))

section Plain
variable {s : Str}

theorem cutComment_plain (h : Plain s) : cutComment s = s := by
  induction s with
  | nil => rfl
  | cons c s ih =>
    rw [Plain, List.isChain_cons] at h
    rw [cutComment, if_neg, ih h.2]
    rintro ⟨hc, hs | hs⟩
    · exact h.1 _ hs ⟨hc, Or.inl rfl⟩
    · exact h.1 _ hs ⟨hc, Or.inr rfl⟩

theorem cutComment_begins (s : Str) : cutComment s <+: s := by
  induction s with
  | nil => exact List.prefix_rfl
  | cons c s ih =>
    rw [cutComment]
    split
    · exact (List.prefix_cons_inj c).mpr List.nil_prefix
    · exact (List.prefix_cons_inj c).mpr ih

theorem plain_cutComment (s : Str) : Plain (cutComment s) := by
  induction s with
  | nil => exact List.isChain_nil
  | cons c s ih =>
    rw [cutComment]
    split
    · exact List.isChain_singleton c
    · rename_i hc
      refine List.isChain_cons.mpr ⟨?_, ih⟩
      rintro d hd ⟨rfl, hd'⟩
      have hhead : s.head? = some d := by
        obtain ⟨t, ht⟩ := cutComment_begins s
        rw [← ht]
        cases hs : cutComment s with
        | nil => simp [hs] at hd
        | cons e l => simpa [hs] using hd
      rcases hd' with rfl | rfl
      · exact hc ⟨rfl, Or.inl hhead⟩
      · exact hc ⟨rfl, Or.inr hhead⟩

theorem trimComment_begins (s : Str) : trimComment s <+: s := by
  rw [trimComment]
  split
  · exact List.nil_prefix
  · exact cutComment_begins s

theorem plain_trimComment (s : Str) : Plain (trimComment s) := by
  rw [trimComment]
  split
  · exact List.isChain_nil
  · exact plain_cutComment s

theorem plain_of_forall (h : ∀ c ∈ s, isspace c = false) : Plain s := by
  refine List.isChain_iff_forall_rel_of_append_cons_cons.mpr ?_
  rintro a b l₁ l₂ rfl ⟨rfl, -⟩
  have hblank := h (chr ' ') (by simp)
  exact absurd hblank (by decide)

end Plain

section Head
variable {first : Bool} {key buf : Str}

/-- A line that starts neither a blank nor a comment nor a byte order mark. -/
structure Starts (first : Bool) (c : UInt8) : Prop where
  not_blank : isspace c = false
  not_semicolon : c ≠ chr ';'
  not_hash : c ≠ chr '#'
  not_bom : first = true → c ≠ 0xEF

theorem headOf_eq {c : UInt8} {s : Str} (hc : Starts first c) (hp : Plain (c :: s)) :
    headOf first (c :: s) = ⟨0, c :: s.rdropWhile isspace⟩ := by
  have hbom : (if first then trimBom ⟨0, c :: s⟩ else ⟨0, c :: s⟩) = (⟨0, c :: s⟩ : Cursor) := by
    cases first with
    | false => rfl
    | true =>
      rw [if_pos rfl, trimBom, if_neg]
      rintro ⟨-, ht⟩
      rw [List.take_succ_cons] at ht
      exact hc.not_bom rfl (List.cons.inj ht).1
  have hcom : trimComment (c :: s) = c :: s := by
    rw [trimComment, if_neg, cutComment_plain hp]
    simp [hc.not_semicolon, hc.not_hash]
  rw [headOf, hbom]
  simp only [hcom]
  rw [trimSpace, takeWhile_isspace, trimmed_cons hc.not_blank]
  · rfl
  · intro d hd
    obtain rfl := Option.some.inj hd
    exact hc.not_blank

theorem readLine_header (first : Bool) (key : Str) {n : Str} (hn : ∀ c ∈ n, c ≠ chr ']')
    (hp : Plain n) (hlen : n.length ≤ nameSize) :
    readLine first key (chr '[' :: (n ++ [chr ']'])) = .header n := by
  have hplain : Plain (chr '[' :: (n ++ [chr ']'])) := by
    refine List.isChain_cons.mpr ⟨?_, List.isChain_append.mpr ⟨hp, List.isChain_singleton _, ?_⟩⟩
    · rintro d - ⟨h, -⟩
      exact absurd h (by decide)
    · rintro a - b hb ⟨-, h⟩
      obtain rfl := Option.some.inj hb
      exact absurd h (by decide)
  have hkept : (n ++ [chr ']']).rdropWhile isspace = n ++ [chr ']'] :=
    List.rdropWhile_concat_neg _ _ _ (by decide)
  have hcut : cutAt (fun c => c = chr ']') (chr '[' :: (n ++ [chr ']'])) = some (chr '[' :: n, []) := by
    rw [← List.cons_append]
    refine cutAt_append ?_ (by simp)
    intro c hc
    rcases List.mem_cons.mp hc with rfl | hc
    · decide
    · simpa using hn c hc
  rw [readLine, headOf_eq ⟨by decide, by decide, by decide, fun _ => by decide⟩ hplain, hkept,
    readHead, if_neg (List.cons_ne_nil _ _), if_neg (by simp), if_pos (by rfl)]
  simp [hcut, List.take_of_length_le hlen]

theorem trimInPlace_eq {k : Str} (h : ∀ c ∈ k.head?, isspace c = false) :
    trimInPlace k = trimmed k := by
  rw [trimInPlace, takeWhile_isspace h, List.nil_append]

theorem readLine_item (key : Str) {k v : Str} (hk : ∀ c ∈ k, c ≠ chr '=' ∧ c ≠ chr ':')
    (hstart : ∀ c ∈ k.head?, Starts first c ∧ c ≠ chr '[') (hp : Plain k) (hpv : Plain v) :
    readLine first key (k ++ chr '=' :: v) =
      .item (trimmed k) (trimmed v) ((trimmed k).take nameSize) := by
  have hplain : Plain (k ++ chr '=' :: v) := by
    refine List.isChain_append.mpr ⟨hp, List.isChain_cons.mpr ⟨?_, hpv⟩, ?_⟩
    · rintro d - ⟨h, -⟩
      exact absurd h (by decide)
    · rintro a - b hb ⟨-, h⟩
      obtain rfl := Option.some.inj hb
      exact absurd h (by decide)
  have heq : isspace (chr '=') = false := by decide
  obtain ⟨c, s, hcs, hdrop, hc, hbracket⟩ : ∃ c s, k ++ chr '=' :: v = c :: s ∧
      c :: s.rdropWhile isspace = k ++ chr '=' :: v.rdropWhile isspace ∧
      Starts first c ∧ c ≠ chr '[' := by
    cases k with
    | nil =>
      exact ⟨_, _, rfl, rfl, ⟨by decide, by decide, by decide, fun _ => by decide⟩, by decide⟩
    | cons c k =>
      refine ⟨c, k ++ chr '=' :: v, rfl, ?_, hstart c rfl⟩
      rw [rdropWhile_append_cons heq, List.cons_append]
  have hcut : cutAt (fun c => c = chr '=' || c = chr ':') (c :: s.rdropWhile isspace) =
      some (k, v.rdropWhile isspace) := by
    rw [hdrop]
    refine cutAt_append ?_ (by decide)
    intro d hd
    simp [hk d hd]
  have htrim := trimInPlace_eq fun c hc => (hstart c hc).1.not_blank
  rw [hcs] at hplain ⊢
  rw [readLine, headOf_eq hc hplain, readHead, if_neg (List.cons_ne_nil _ _), if_neg (by simp),
    if_neg (by simpa using hbracket)]
  simp only [hcut, htrim, trimmed_rdropWhile]

end Head

end KirinFS.Ini
