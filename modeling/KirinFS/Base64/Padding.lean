import KirinFS.Base64.RoundTrip

/-! # Which inputs the decoder accepts

Once a padding character was seen, `end` keeps the decoder from looking at the
place of any further one, and letters go on being taken.
-/

namespace KirinFS.Base64
open Foundation.CString

/-- Whether the loop comes to a good end from place `pos` of a group. -/
def accepts (pos fin : ℕ) (s : Str) : Bool := (decodeFrom 0 pos fin s).1

def nextPos (pos : ℕ) : ℕ := if pos + 1 = 4 then 0 else pos + 1

section Automaton
variable {pos fin : ℕ} {c : UInt8} {s : Str}

theorem decodeFrom_register : ∀ (s : Str) (buf pos fin : ℕ),
    (decodeFrom buf pos fin s).1 = accepts pos fin s
  | [], _, _, _ => rfl
  | c :: s, buf, pos, fin => by
    rw [accepts, decodeFrom, decodeFrom]
    cases decodeChar pos fin c with
    | none => rfl
    | some p =>
      simp only
      split
      · rfl
      · rw [decodeFrom_register s, decodeFrom_register s]

theorem accepts_nil : accepts pos fin [] = decide (pos = 0) := rfl

theorem accepts_reject (h : decodeChar pos fin c = none) : accepts pos fin (c :: s) = false := by
  rw [accepts, decodeFrom, h]

theorem accepts_take {b fin' : ℕ} (h : decodeChar pos fin c = some (b, fin')) :
    accepts pos fin (c :: s) = accepts (nextPos pos) fin' s := by
  rw [accepts, decodeFrom, h, nextPos]
  simp only
  split
  · rfl
  · exact decodeFrom_register s _ _ _

theorem accepts_symbol (h : isSymbol c = true) :
    accepts pos fin (c :: s) = accepts (nextPos pos) fin s := by
  obtain ⟨v, hv, rfl⟩ := (isSymbol_iff c).mp h
  exact accepts_take (decodeChar_base64 hv pos fin)

theorem accepts_stray (h : isSymbol c = false) (hpad : c ≠ chr '=') :
    accepts pos fin (c :: s) = false := by
  apply accepts_reject
  have hneg : symbolValue c < 0 := by
    by_contra hge
    have hsym := (symbolValue_symbol c).mpr (by omega)
    rw [h] at hsym
    exact Bool.false_ne_true hsym
  rw [decodeChar, if_neg hpad, if_pos hneg]
  split <;> rfl

theorem accepts_pad (h : fin ≠ 0 ∨ 2 ≤ pos) (hpos : pos < 4) :
    ∃ fin' ≠ 0, accepts pos fin (chr '=' :: s) = accepts (nextPos pos) fin' s := by
  by_cases hfin : fin = 0
  · subst hfin
    obtain rfl | rfl : pos = 2 ∨ pos = 3 := by omega
    · exact ⟨1, Nat.one_ne_zero, accepts_take decodeChar_pad_third⟩
    · exact ⟨2, Nat.succ_ne_zero 1, accepts_take decodeChar_pad_fourth⟩
  · have hchar : decodeChar pos fin (chr '=') = some (0, fin) := by
      rw [decodeChar, if_neg (by decide), if_pos rfl, if_neg hfin]
    exact ⟨fin, hfin, accepts_take hchar⟩

theorem accepts_pad_early (hpos : pos < 2) : accepts pos 0 (chr '=' :: s) = false := by
  apply accepts_reject
  rw [decodeChar, if_neg (by decide), if_pos rfl, if_pos rfl, if_neg (by omega), if_neg (by omega)]

theorem nextPos_lt (hpos : pos < 4) : nextPos pos < 4 := by
  rw [nextPos]
  split <;> omega

theorem nextPos_dvd (n : ℕ) : 4 ∣ nextPos pos + n ↔ 4 ∣ pos + (n + 1) := by
  rw [nextPos]
  split <;> omega

end Automaton

def Readable (s : Str) : Prop := ∀ c ∈ s, isSymbol c = true ∨ c = chr '='

/-- After a first padding character every readable input of the right length is accepted. -/
theorem accepts_after : ∀ (s : Str) (pos fin : ℕ), pos < 4 → fin ≠ 0 →
    (accepts pos fin s = true ↔ Readable s ∧ 4 ∣ pos + s.length)
  | [], pos, fin, hpos, _ => by
    have hdvd : 4 ∣ pos ↔ pos = 0 := by omega
    rw [accepts_nil, decide_eq_true_iff, List.length_nil, Nat.add_zero, hdvd]
    exact ⟨fun h => ⟨fun _ hc => absurd hc List.not_mem_nil, h⟩, And.right⟩
  | c :: s, pos, fin, hpos, hfin => by
    have hread : Readable (c :: s) ↔ (isSymbol c = true ∨ c = chr '=') ∧ Readable s :=
      List.forall_mem_cons
    rw [hread, List.length_cons, ← nextPos_dvd]
    by_cases hsym : isSymbol c = true
    · rw [accepts_symbol hsym, accepts_after s _ _ (nextPos_lt hpos) hfin]
      exact ⟨fun h => ⟨⟨Or.inl hsym, h.1⟩, h.2⟩, fun h => ⟨h.1.2, h.2⟩⟩
    · by_cases hpad : c = chr '='
      · subst hpad
        obtain ⟨fin', hfin', hacc⟩ := accepts_pad (s := s) (Or.inl hfin) hpos
        rw [hacc, accepts_after s _ _ (nextPos_lt hpos) hfin']
        exact ⟨fun h => ⟨⟨Or.inr rfl, h.1⟩, h.2⟩, fun h => ⟨h.1.2, h.2⟩⟩
      · rw [accepts_stray (Bool.eq_false_iff.mpr hsym) hpad]
        exact ⟨fun h => absurd h Bool.false_ne_true, fun h => (h.1.1.elim hsym hpad).elim⟩

/-- The whole input, its first padding character at the third or fourth place of a group. -/
def PaddedAt (pos : ℕ) (s : Str) : Prop :=
  ∃ u v, s = u ++ chr '=' :: v ∧ (∀ c ∈ u, isSymbol c = true) ∧ 2 ≤ (pos + u.length) % 4 ∧
    Readable v

theorem paddedAt_symbol {pos : ℕ} {c : UInt8} {s : Str} (hsym : isSymbol c = true) :
    PaddedAt pos (c :: s) ↔ PaddedAt (nextPos pos) s := by
  have hplace : ∀ n, (nextPos pos + n) % 4 = (pos + (n + 1)) % 4 := by
    intro n
    rw [nextPos]
    split <;> omega
  constructor
  · rintro ⟨u, v, hs, hu, hplace', hv⟩
    cases u with
    | nil =>
      obtain ⟨rfl, -⟩ := List.cons.inj hs
      exact absurd rfl (isSymbol_ne hsym).2
    | cons d u =>
      obtain ⟨rfl, rfl⟩ := List.cons.inj hs
      refine ⟨u, v, rfl, fun c hc => hu c (List.mem_cons_of_mem _ hc), ?_, hv⟩
      rwa [hplace]
  · rintro ⟨u, v, rfl, hu, hplace', hv⟩
    refine ⟨c :: u, v, rfl, List.forall_mem_cons.mpr ⟨hsym, hu⟩, ?_, hv⟩
    rwa [List.length_cons, ← hplace]

theorem paddedAt_pad {pos : ℕ} {s : Str} (hpos : pos < 4) :
    PaddedAt pos (chr '=' :: s) ↔ 2 ≤ pos ∧ Readable s := by
  constructor
  · rintro ⟨u, v, hs, hu, hplace, hv⟩
    cases u with
    | nil =>
      obtain ⟨-, rfl⟩ := List.cons.inj hs
      rw [List.length_nil, Nat.add_zero, Nat.mod_eq_of_lt hpos] at hplace
      exact ⟨hplace, hv⟩
    | cons d u =>
      obtain ⟨rfl, -⟩ := List.cons.inj hs
      exact absurd rfl (isSymbol_ne (hu _ List.mem_cons_self)).2
  · rintro ⟨hplace, hs⟩
    refine ⟨[], s, rfl, fun c hc => absurd hc List.not_mem_nil, ?_, hs⟩
    rwa [List.length_nil, Nat.add_zero, Nat.mod_eq_of_lt hpos]

theorem accepts_before : ∀ (s : Str) (pos : ℕ), pos < 4 →
    (accepts pos 0 s = true ↔
      4 ∣ pos + s.length ∧ ((∀ c ∈ s, isSymbol c = true) ∨ PaddedAt pos s))
  | [], pos, hpos => by
    have hdvd : 4 ∣ pos ↔ pos = 0 := by omega
    rw [accepts_nil, decide_eq_true_iff, List.length_nil, Nat.add_zero, hdvd]
    exact ⟨fun h => ⟨h, Or.inl fun _ hc => absurd hc List.not_mem_nil⟩, And.left⟩
  | c :: s, pos, hpos => by
    rw [List.length_cons, ← nextPos_dvd, List.forall_mem_cons]
    by_cases hsym : isSymbol c = true
    · rw [accepts_symbol hsym, accepts_before s _ (nextPos_lt hpos), paddedAt_symbol hsym,
        and_iff_right hsym]
    · have hall : ¬ (isSymbol c = true ∧ ∀ c ∈ s, isSymbol c = true) := fun h => hsym h.1
      rw [or_iff_right hall]
      by_cases hpad : c = chr '='
      · subst hpad
        rw [paddedAt_pad hpos]
        by_cases hplace : 2 ≤ pos
        · obtain ⟨fin', hfin', hacc⟩ := accepts_pad (s := s) (Or.inr hplace) hpos
          rw [hacc, accepts_after s _ _ (nextPos_lt hpos) hfin', and_iff_right hplace, and_comm]
        · rw [accepts_pad_early (by omega)]
          exact ⟨fun h => absurd h Bool.false_ne_true, fun h => absurd h.2.1 hplace⟩
      · rw [accepts_stray (Bool.eq_false_iff.mpr hsym) hpad]
        refine ⟨fun h => absurd h Bool.false_ne_true, ?_⟩
        rintro ⟨-, u, v, hs, hu, -⟩
        cases u with
        | nil => exact absurd (List.cons.inj hs).1 hpad
        | cons d u =>
          obtain ⟨rfl, -⟩ := List.cons.inj hs
          exact absurd (hu _ List.mem_cons_self) hsym

/-- Padded base64: whole groups of letters, with `=` only as the last or the last two characters. -/
def Padded (s : Str) : Prop :=
  4 ∣ s.length ∧ ∃ u v, s = u ++ v ∧ (∀ c ∈ u, isSymbol c = true) ∧
    (v = [] ∨ v = [chr '='] ∨ v = [chr '=', chr '='])

/-- Whole groups whose first `=` is at the third or fourth place of its group and is followed by
anything other than one more `=` at the end of the input. -/
def Misread (s : Str) : Prop :=
  4 ∣ s.length ∧ ∃ u v, s = u ++ chr '=' :: v ∧ (∀ c ∈ u, isSymbol c = true) ∧
    2 ≤ u.length % 4 ∧ Readable v ∧ v ≠ [] ∧ v ≠ [chr '=']

theorem accepts_padded {s : Str} (h : Padded s) : accepts 0 0 s = true := by
  obtain ⟨hdvd, u, v, rfl, hu, htail⟩ := h
  rw [accepts_before _ 0 (by omega), Nat.zero_add]
  refine ⟨hdvd, ?_⟩
  rw [List.length_append] at hdvd
  rcases htail with rfl | rfl | rfl
  · rw [List.append_nil]
    exact Or.inl hu
  · rw [List.length_singleton] at hdvd
    exact Or.inr ⟨u, [], rfl, hu, by omega, fun c hc => absurd hc List.not_mem_nil⟩
  · rw [List.length_cons, List.length_singleton] at hdvd
    exact Or.inr ⟨u, [chr '='], rfl, hu, by omega, fun c hc => Or.inr (List.mem_singleton.mp hc)⟩

theorem accepts_iff (s : Str) : accepts 0 0 s = true ↔ Padded s ∨ Misread s := by
  constructor
  · intro h
    obtain ⟨hdvd, hcase⟩ := (accepts_before s 0 (by omega)).mp h
    rw [Nat.zero_add] at hdvd
    rcases hcase with hall | ⟨u, v, hs, hu, hplace, hv⟩
    · exact Or.inl ⟨hdvd, s, [], (List.append_nil s).symm, hall, Or.inl rfl⟩
    · rw [Nat.zero_add] at hplace
      by_cases hnil : v = []
      · exact Or.inl ⟨hdvd, u, [chr '='], by rw [hs, hnil], hu, Or.inr (Or.inl rfl)⟩
      · by_cases hone : v = [chr '=']
        · exact Or.inl ⟨hdvd, u, [chr '=', chr '='], by rw [hs, hone], hu, Or.inr (Or.inr rfl)⟩
        · exact Or.inr ⟨hdvd, u, v, hs, hu, hplace, hv, hnil, hone⟩
  · rintro (h | ⟨hdvd, u, v, hs, hu, hplace, hv, -⟩)
    · exact accepts_padded h
    · rw [accepts_before s 0 (by omega), Nat.zero_add]
      exact ⟨hdvd, Or.inr ⟨u, v, hs, hu, by rwa [Nat.zero_add], hv⟩⟩

/-- A letter before the first `=` settles where that is. -/
theorem first_pad_unique : ∀ {u u' v v' : Str}, (∀ c ∈ u, isSymbol c = true) →
    (∀ c ∈ u', isSymbol c = true) → u ++ chr '=' :: v = u' ++ chr '=' :: v' → v = v'
  | [], [], _, _, _, _, h => (List.cons.inj h).2
  | [], d :: u', _, _, _, hu', h => by
    obtain ⟨rfl, -⟩ := List.cons.inj h
    exact absurd rfl (isSymbol_ne (hu' _ List.mem_cons_self)).2
  | d :: u, [], _, _, hu, _, h => by
    obtain ⟨rfl, -⟩ := List.cons.inj h
    exact absurd rfl (isSymbol_ne (hu _ List.mem_cons_self)).2
  | d :: u, d' :: u', _, _, hu, hu', h =>
    first_pad_unique (fun c hc => hu c (List.mem_cons_of_mem _ hc))
      (fun c hc => hu' c (List.mem_cons_of_mem _ hc)) (List.cons.inj h).2

theorem not_padded_of_misread {s : Str} (h : Misread s) : ¬ Padded s := by
  obtain ⟨-, u, v, hs, hu, -, -, hnil, hone⟩ := h
  rintro ⟨-, u', v', hs', hu', htail⟩
  rcases htail with rfl | rfl | rfl
  · rw [List.append_nil] at hs'
    subst hs'
    have hmem : chr '=' ∈ s := by
      rw [hs]
      exact List.mem_append_right _ List.mem_cons_self
    exact (isSymbol_ne (hu' _ hmem)).2 rfl
  · exact hnil (first_pad_unique hu hu' (hs.symm.trans hs'))
  · exact hone (first_pad_unique hu hu' (hs.symm.trans hs'))

theorem groupBytes_length_le (buf fin : ℕ) : (groupBytes buf fin).length ≤ 3 := by
  rw [groupBytes, List.length_cons, List.length_append]
  split <;> split <;> simp only [List.length_cons, List.length_nil] <;> omega

/-- A register that is full gives three bytes at most, and four characters fill it. -/
theorem decodeFrom_written : ∀ (s : Str) (buf pos fin : ℕ), pos < 4 →
    (decodeFrom buf pos fin s).2.length ≤ 3 * ((pos + s.length) / 4)
  | [], _, _, _, _ => Nat.zero_le _
  | c :: s, buf, pos, fin, hpos => by
    rw [decodeFrom, List.length_cons]
    cases hchar : decodeChar pos fin c with
    | none => exact Nat.zero_le _
    | some p =>
      simp only
      split
      · have hs := decodeFrom_written s 0 0 p.2 (by omega)
        have hg := groupBytes_length_le (((buf <<< 6) % 2 ^ 32 + p.1) % 2 ^ 32) p.2
        rw [List.length_append]
        omega
      · have hs := decodeFrom_written s (((buf <<< 6) % 2 ^ 32 + p.1) % 2 ^ 32) (pos + 1) p.2
          (by omega)
        omega

theorem decode_nonneg {s : Str} (hlen : s.length < 2 ^ 31) :
    0 ≤ (stlBase64Decode s).1 ↔ accepts 0 0 s = true := by
  have hwritten := decodeFrom_written s 0 0 0 (by omega)
  rw [stlBase64Decode, accepts]
  split
  · rename_i h
    rw [toInt_eq (by omega)]
    exact iff_of_true (Int.natCast_nonneg _) h
  · rename_i h
    exact iff_of_false (by omega) h

theorem decode_rejected {s : Str} (h : ¬ accepts 0 0 s = true) : (stlBase64Decode s).1 = -1 :=
  if_neg h

/-- The decoder accepts exactly padded base64 unless it misreads the input. -/
theorem accepts_exactly_iff {s : Str} (hlen : s.length < 2 ^ 31) :
    ((0 ≤ (stlBase64Decode s).1 ↔ Padded s) ∧ (¬ Padded s → (stlBase64Decode s).1 = -1)) ↔
      ¬ Misread s := by
  have hacc := decode_nonneg hlen
  rw [accepts_iff] at hacc
  constructor
  · rintro ⟨hexact, -⟩ hmis
    exact not_padded_of_misread hmis (hexact.mp (hacc.mpr (Or.inr hmis)))
  · intro hmis
    refine ⟨⟨fun h => (hacc.mp h).resolve_right hmis, fun h => hacc.mpr (Or.inl h)⟩, ?_⟩
    intro hpad
    apply decode_rejected
    rw [accepts_iff]
    exact fun hor => hor.elim hpad hmis

theorem accepts_exactly_abcd :
    ((0 ≤ (stlBase64Decode (['A', 'b', 'c', 'd'].map chr)).1 ↔
        Padded (['A', 'b', 'c', 'd'].map chr)) ∧
      (¬ Padded (['A', 'b', 'c', 'd'].map chr) →
        (stlBase64Decode (['A', 'b', 'c', 'd'].map chr)).1 = -1)) ↔
      ¬ Misread (['A', 'b', 'c', 'd'].map chr) :=
  accepts_exactly_iff (by decide)

/-- Data after a padding character inside a group is decoded. -/
theorem accepts_data_after_padding :
    (stlBase64Decode [chr 'Q', chr 'Q', chr '=', chr 'Q']).1 = 1 ∧
      ¬ Padded [chr 'Q', chr 'Q', chr '=', chr 'Q'] := by
  have hsymbol : isSymbol (chr 'Q') = true := by decide
  refine ⟨by decide, not_padded_of_misread ⟨⟨1, rfl⟩, [chr 'Q', chr 'Q'], [chr 'Q'], rfl, ?_, ?_⟩⟩
  · intro c hc
    rcases List.mem_cons.mp hc with rfl | hc
    · exact hsymbol
    · rwa [List.mem_singleton.mp hc]
  · refine ⟨Nat.le_refl 2, fun c hc => Or.inl ?_, by decide, by decide⟩
    rwa [List.mem_singleton.mp hc]

end KirinFS.Base64
