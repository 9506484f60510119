import Mathlib.Data.Int.Notation
import Mathlib.Data.List.Basic
import Mathlib.Data.List.DropRight
import Mathlib.Data.Nat.Notation

/-! # Strings of the C library

A string is the list of its bytes up to the terminating zero, which is not part
of the list. Characters compare as unsigned bytes.
-/

namespace KirinFS.Foundation.CString

abbrev Str := List UInt8

def chr (c : Char) : UInt8 := UInt8.ofNat c.toNat

/-- Without an inner terminator. -/
def IsStr (s : Str) : Prop := ∀ c ∈ s, c ≠ 0

instance (s : Str) : Decidable (IsStr s) := List.decidableBAll (fun c => c ≠ 0) s

theorem isStr_append {s t : Str} (hs : IsStr s) (ht : IsStr t) : IsStr (s ++ t) := by
  intro c hc
  rcases List.mem_append.mp hc with hc | hc
  · exact hs c hc
  · exact ht c hc

/-- `isspace` in the C locale. -/
def isspace (c : UInt8) : Bool := c = 32 || (9 ≤ c && c ≤ 13)

def strncmp : ℕ → Str → Str → ℤ
  | 0, _, _ => 0
  | _ + 1, [], [] => 0
  | _ + 1, [], d :: _ => -d.toNat
  | _ + 1, c :: _, [] => c.toNat
  | n + 1, c :: a, d :: b => if c = d then strncmp n a b else c.toNat - d.toNat

theorem strncmp_self (n : ℕ) (s : Str) : strncmp n s s = 0 := by
  induction s generalizing n with
  | nil => cases n <;> rfl
  | cons c s ih =>
    cases n with
    | zero => rfl
    | succ n =>
      rw [strncmp, if_pos rfl]
      exact ih n

theorem strncmp_comm (n : ℕ) (a b : Str) : strncmp n a b = 0 ↔ strncmp n b a = 0 := by
  induction n generalizing a b with
  | zero => rfl
  | succ n ih =>
    cases a with
    | nil =>
      cases b with
      | nil => rfl
      | cons d b => simp [strncmp]
    | cons c a =>
      cases b with
      | nil => simp [strncmp]
      | cons d b =>
        rw [strncmp, strncmp]
        by_cases hcd : c = d
        · rw [if_pos hcd, if_pos hcd.symm]
          exact ih a b
        · rw [if_neg hcd, if_neg (Ne.symm hcd)]
          omega

/-- A comparison as far as the second string reaches asks whether it is a prefix. -/
theorem strncmp_eq_zero {a b : Str} (hb : IsStr b) : strncmp b.length a b = 0 ↔ b <+: a := by
  induction b generalizing a with
  | nil => simp [strncmp]
  | cons d b ih =>
    have hd : d.toNat ≠ 0 := by
      intro h
      exact hb d (by simp) (UInt8.toNat_inj.mp h)
    cases a with
    | nil => simp [strncmp, hd]
    | cons c a =>
      rw [List.length_cons, strncmp, List.cons_prefix_cons]
      by_cases hcd : c = d
      · rw [if_pos hcd, ih fun x hx => hb x (List.mem_cons_of_mem d hx)]
        simp [hcd]
      · have hne : c.toNat ≠ d.toNat := fun h => hcd (UInt8.toNat_inj.mp h)
        rw [if_neg hcd]
        simp only [Ne.symm hcd, false_and, iff_false]
        omega

/-- The string before the first byte in `p` and the string behind it, as `strchr` and `strpbrk`
find them. -/
def cutAt (p : UInt8 → Bool) : Str → Option (Str × Str)
  | [] => none
  | c :: s => if p c then some ([], s) else (cutAt p s).map fun r => (c :: r.1, r.2)

theorem cutAt_append {p : UInt8 → Bool} {a b : Str} {c : UInt8} (ha : ∀ x ∈ a, p x = false)
    (hc : p c = true) : cutAt p (a ++ c :: b) = some (a, b) := by
  induction a with
  | nil => simp [cutAt, hc]
  | cons d a ih =>
    rw [List.cons_append, cutAt, if_neg (by simp [ha d (by simp)]),
      ih fun x hx => ha x (List.mem_cons_of_mem d hx)]
    rfl

theorem cutAt_none {p : UInt8 → Bool} {a : Str} (ha : ∀ x ∈ a, p x = false) :
    cutAt p a = none := by
  induction a with
  | nil => rfl
  | cons d a ih =>
    rw [cutAt, if_neg (by simp [ha d (by simp)]), ih fun x hx => ha x (List.mem_cons_of_mem d hx)]
    rfl

theorem cutAt_some {p : UInt8 → Bool} {s a b : Str} (h : cutAt p s = some (a, b)) :
    ∃ c, s = a ++ c :: b ∧ p c = true ∧ ∀ x ∈ a, p x = false := by
  induction s generalizing a with
  | nil => cases h
  | cons d s ih =>
    rw [cutAt] at h
    split at h
    · cases h
      exact ⟨d, rfl, ‹_›, by simp⟩
    · rename_i hd
      obtain ⟨r, hr, heq⟩ := Option.map_eq_some_iff.mp h
      cases heq
      obtain ⟨c, hs, hc, ha⟩ := ih hr
      refine ⟨c, by rw [hs]; rfl, hc, ?_⟩
      intro x hx
      rcases List.mem_cons.mp hx with rfl | hx
      · simpa using hd
      · exact ha x hx

def trimmed (s : Str) : Str :=
  match s.dropWhile isspace with
  | [] => []
  | c :: l => c :: l.rdropWhile isspace

def Bare (s : Str) : Prop :=
  (∀ c ∈ s.head?, isspace c = false) ∧ ∀ c ∈ s.getLast?, isspace c = false

theorem bare_nil : Bare [] := by simp [Bare]

theorem bare_of_forall {s : Str} (h : ∀ c ∈ s, isspace c = false) : Bare s :=
  ⟨fun c hc => h c (List.mem_of_mem_head? hc), fun c hc => h c (List.mem_of_mem_getLast? hc)⟩

theorem trimmed_eq_of_bare {s : Str} (h : Bare s) : trimmed s = s := by
  cases s with
  | nil => rfl
  | cons c l =>
    have hc := h.1 c rfl
    have hl : l.rdropWhile isspace = l := by
      rw [List.rdropWhile_eq_self_iff]
      intro hne
      have hlast := h.2 (l.getLast hne) (by
        rw [List.getLast?_cons, List.getLast?_eq_some_getLast hne]
        rfl)
      simp [hlast]
    rw [trimmed, List.dropWhile_cons_of_neg (by simp [hc])]
    simp only [hl]

theorem trimmed_bare (s : Str) : Bare (trimmed s) := by
  rw [trimmed]
  cases hs : s.dropWhile isspace with
  | nil => exact bare_nil
  | cons c l =>
    have hc : isspace c = false := by
      have hhead := List.head?_dropWhile_not isspace s
      rw [hs] at hhead
      simpa using hhead
    constructor
    · intro d hd
      obtain rfl := Option.some.inj hd
      exact hc
    · intro d hd
      simp only at hd
      rw [List.getLast?_cons] at hd
      cases hl : l.rdropWhile isspace with
      | nil =>
        rw [hl] at hd
        obtain rfl := Option.some.inj hd
        exact hc
      | cons e l' =>
        have hne : l.rdropWhile isspace ≠ [] := by rw [hl]; exact List.cons_ne_nil _ _
        rw [List.getLast?_eq_some_getLast hne] at hd
        obtain rfl := Option.some.inj hd
        simpa using List.rdropWhile_last_not isspace l hne

theorem trimmed_cons {c : UInt8} (hc : isspace c = false) (s : Str) :
    trimmed (c :: s) = c :: s.rdropWhile isspace := by
  rw [trimmed, List.dropWhile_cons_of_neg (by simp [hc])]

theorem trimmed_concat {c : UInt8} (hc : isspace c = true) (s : Str) :
    trimmed (s ++ [c]) = trimmed s := by
  rw [trimmed, trimmed, List.dropWhile_append]
  cases hs : s.dropWhile isspace with
  | nil => simp [hc]
  | cons d l => simp [List.rdropWhile_concat_pos _ _ _ hc]

theorem trimmed_rdropWhile (s : Str) : trimmed (s.rdropWhile isspace) = trimmed s := by
  induction s using List.reverseRecOn with
  | nil => rfl
  | append_singleton s c ih =>
    by_cases hc : isspace c = true
    · rw [List.rdropWhile_concat_pos _ _ _ hc, ih, trimmed_concat hc]
    · rw [List.rdropWhile_concat_neg _ _ _ hc]

/-- Blanks are only removed behind the last other byte. -/
theorem rdropWhile_append_cons {c : UInt8} (hc : isspace c = false) (a b : Str) :
    (a ++ c :: b).rdropWhile isspace = a ++ c :: b.rdropWhile isspace := by
  induction b using List.reverseRecOn with
  | nil =>
    rw [List.rdropWhile_concat_neg _ _ _ (by simp [hc])]
    rfl
  | append_singleton b d ih =>
    rw [← List.cons_append, ← List.append_assoc]
    by_cases hd : isspace d = true
    · rw [List.rdropWhile_concat_pos _ _ _ hd, List.rdropWhile_concat_pos _ _ _ hd, ih]
    · rw [List.rdropWhile_concat_neg _ _ _ hd, List.rdropWhile_concat_neg _ _ _ hd,
        List.append_assoc, List.cons_append]

theorem trimmed_begins {s : Str} (h : ∀ c ∈ s.head?, isspace c = false) : trimmed s <+: s := by
  cases s with
  | nil => exact List.prefix_rfl
  | cons c s =>
    rw [trimmed_cons (h c rfl)]
    exact (List.prefix_cons_inj c).mpr (List.rdropWhile_prefix isspace s)

theorem trimmed_piece (s : Str) : trimmed s <:+: s := by
  rw [trimmed]
  have hsuf := List.dropWhile_suffix (l := s) isspace
  cases hs : s.dropWhile isspace with
  | nil => exact List.nil_infix
  | cons c l =>
    rw [hs] at hsuf
    have hpre : c :: l.rdropWhile isspace <+: c :: l :=
      (List.prefix_cons_inj c).mpr (List.rdropWhile_prefix isspace l)
    exact hpre.isInfix.trans hsuf.isInfix

theorem takeWhile_isspace {s : Str} (h : ∀ c ∈ s.head?, isspace c = false) :
    s.takeWhile isspace = [] := by
  cases s with
  | nil => rfl
  | cons c l =>
    rw [List.takeWhile_cons_of_neg]
    simp [h c rfl]

end KirinFS.Foundation.CString
