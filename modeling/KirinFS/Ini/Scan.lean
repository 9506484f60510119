import KirinFS.Ini.Line
import Mathlib.Algebra.Group.Nat.Defs

/-! # The items of a sequence of lines

What the parser makes of a line depends on the key in its buffer and on whether
the line is the first one, not on the ini. So the items that it hands over are a
function of the lines, and the ini and the result follow from them.
-/

namespace KirinFS.Ini
open Foundation.CString

def putAll : StlIni → List (Str × Str × Str) → Option StlIni
  | ini, [] => some ini
  | ini, x :: l => (stlIniOnItemFunc ini x.1 x.2.1 x.2.2).bind fun ini => putAll ini l

def runLines : ParseState → List Str → Option (StlIni × ℤ)
  | st, [] => some (st.ini, 0)
  | st, l :: ls =>
    (parseLine st l).bind fun r =>
      match r.2 with
      | some rc => some (r.1.ini, rc)
      | none => runLines r.1 ls

/-- The items of the lines with the sections they stand in, up to the first bad line, and whether
there is none. -/
def scan : (first : Bool) → (name key : Str) → List Str → List (Str × Str × Str) × Bool
  | _, _, _, [] => ([], true)
  | first, name, key, l :: ls =>
    match readLine first key l with
    | .blank => scan false name key ls
    | .header n => scan false n [] ls
    | .item k v next => ((name, k, v) :: (scan false name next ls).1, (scan false name next ls).2)
    | .bad => ([], false)

/-- The lines that the parser gets to, up to and including the first bad one. -/
def reached : (first : Bool) → (key : Str) → List Str → List Str
  | _, _, [] => []
  | first, key, l :: ls =>
    l :: match readLine first key l with
      | .blank => reached false key ls
      | .header _ => reached false [] ls
      | .item _ _ next => reached false next ls
      | .bad => []

theorem reached_length_le (first : Bool) (key : Str) (ls : List Str) :
    (reached first key ls).length ≤ ls.length := by
  induction ls generalizing first key with
  | nil => exact le_rfl
  | cons l ls ih =>
    rw [reached, List.length_cons, List.length_cons]
    refine Nat.succ_le_succ ?_
    cases readLine first key l with
    | blank => exact ih false key
    | header n => exact ih false []
    | item k v next => exact ih false next
    | bad => exact Nat.zero_le _

/-- What a function does to the lines behind the first bad one does not matter. -/
theorem scan_map_reached {f : Str → Str} {first : Bool} {key : Str} {ls : List Str} (name : Str)
    (h : ∀ l ∈ reached first key ls, f l = l) :
    scan first name key (ls.map f) = scan first name key ls ∧
      reached first key (ls.map f) = reached first key ls := by
  induction ls generalizing first name key with
  | nil => exact ⟨rfl, rfl⟩
  | cons l ls ih =>
    rw [reached, List.forall_mem_cons] at h
    obtain ⟨hl, h⟩ := h
    rw [List.map_cons, hl, scan, scan, reached, reached]
    cases hline : readLine first key l with
    | blank =>
      rw [hline] at h
      obtain ⟨hscan, hreached⟩ := ih name h
      exact ⟨hscan, congrArg _ hreached⟩
    | header n =>
      rw [hline] at h
      obtain ⟨hscan, hreached⟩ := ih n h
      exact ⟨hscan, congrArg _ hreached⟩
    | item k v next =>
      rw [hline] at h
      obtain ⟨hscan, hreached⟩ := ih name h
      simp only [hscan, hreached, and_self]
    | bad => exact ⟨rfl, rfl⟩

/-- The parser stores the items of the lines and fails on a bad line, as long as the line counter
does not overflow on the way there. -/
theorem runLines_reached (first : Bool) (st : ParseState) (ls : List Str)
    (hline : st.line.toNat + (reached first st.key ls).length < 2 ^ 32)
    (hfirst : first = decide (st.line.toNat = 0)) :
    ∃ rc : ℤ, (rc = 0 ↔ (scan first st.sectionName st.key ls).2 = true) ∧
      runLines st ls =
        (putAll st.ini (scan first st.sectionName st.key ls).1).map fun ini => (ini, rc) := by
  induction ls generalizing first st with
  | nil => exact ⟨0, by simp [scan], rfl⟩
  | cons l ls ih =>
    rw [reached, List.length_cons] at hline
    have hnext : (st.line + 1).toNat = st.line.toNat + 1 := by
      rw [BitVec.toNat_add_of_lt] <;> simp
      omega
    have hone : decide (st.line + 1 = 1) = first := by
      rw [hfirst, decide_eq_decide, ← BitVec.toNat_inj, hnext]
      simp
    have hrest : ∀ st' : ParseState, st'.line = st.line + 1 →
        st.line.toNat + ((reached false st'.key ls).length + 1) < 2 ^ 32 →
        ∃ rc : ℤ, (rc = 0 ↔ (scan false st'.sectionName st'.key ls).2 = true) ∧
          runLines st' ls =
            (putAll st'.ini (scan false st'.sectionName st'.key ls).1).map fun ini => (ini, rc) := by
      intro st' hst' hlt
      refine ih false st' ?_ ?_
      · rw [hst', hnext]
        omega
      · rw [hst', hnext]
        simp
    rw [runLines, parseLine_eq, hone, scan]
    cases hread : readLine first st.key l with
    | blank =>
      rw [hread] at hline
      exact hrest { st with line := st.line + 1 } rfl hline
    | header n =>
      rw [hread] at hline
      exact hrest { st with line := st.line + 1, key := [], sectionName := n } rfl hline
    | item k v next =>
      rw [hread] at hline
      simp only [putAll]
      cases stlIniOnItemFunc st.ini st.sectionName k v with
      | none =>
        obtain ⟨rc, hrc, -⟩ := hrest { st with line := st.line + 1, key := next } rfl hline
        exact ⟨rc, hrc, rfl⟩
      | some ini =>
        exact hrest { st with line := st.line + 1, ini := ini, key := next } rfl hline
    | bad =>
      refine ⟨(st.line + 1).toInt, ?_, rfl⟩
      have hne : (st.line + 1).toInt ≠ 0 := by
        rw [Ne, ← BitVec.toInt_zero (w := 32), BitVec.toInt_inj, ← BitVec.toNat_inj, hnext]
        simp
      exact iff_of_false hne Bool.false_ne_true

theorem runLines_eq_scan (first : Bool) (st : ParseState) (ls : List Str)
    (hline : st.line.toNat + ls.length < 2 ^ 32) (hfirst : first = decide (st.line.toNat = 0)) :
    ∃ rc : ℤ, (rc = 0 ↔ (scan first st.sectionName st.key ls).2 = true) ∧
      runLines st ls =
        (putAll st.ini (scan first st.sectionName st.key ls).1).map fun ini => (ini, rc) :=
  runLines_reached first st ls
    (lt_of_le_of_lt (Nat.add_le_add_left (reached_length_le first st.key ls) _) hline) hfirst

section Reader
variable {S : Type} {nextLine : S → ℕ → Option (Str × S)}

def delivered (nextLine : S → ℕ → Option (Str × S)) : (fuel : ℕ) → S → List Str
  | 0, _ => []
  | fuel + 1, s =>
    match nextLine s (maxLineLen - 1) with
    | none => []
    | some (buf, s) => buf :: delivered nextLine fuel s

/-- A reader that consumes something of a finite input with every line. -/
def Consumes (nextLine : S → ℕ → Option (Str × S)) (size : S → ℕ) : Prop :=
  ∀ s buf s', nextLine s (maxLineLen - 1) = some (buf, s') → size s' < size s

variable {size : S → ℕ} {fuel : ℕ} {s : S}

theorem Consumes.parse_eq (hc : Consumes nextLine size) (hf : size s < fuel) (st : ParseState) :
    stlIniParse nextLine fuel st s = runLines st (delivered nextLine fuel s) := by
  induction fuel generalizing st s with
  | zero => omega
  | succ fuel ih =>
    rw [stlIniParse, delivered]
    cases hl : nextLine s (maxLineLen - 1) with
    | none => rfl
    | some r =>
      have hsize := hc s r.1 r.2 hl
      refine Option.bind_congr ?_
      intro r' _
      cases r'.2 with
      | some rc => rfl
      | none => exact ih (by omega) _

theorem Consumes.length_le (hc : Consumes nextLine size) (fuel : ℕ) (s : S) :
    (delivered nextLine fuel s).length ≤ size s := by
  induction fuel generalizing s with
  | zero => exact Nat.zero_le _
  | succ fuel ih =>
    rw [delivered]
    cases hl : nextLine s (maxLineLen - 1) with
    | none => exact Nat.zero_le _
    | some r =>
      have hsize := hc s r.1 r.2 hl
      have hrest := ih r.2
      simp only [List.length_cons]
      omega

theorem Consumes.delivered_eq (hc : Consumes nextLine size) {fuel' : ℕ} (hf : size s < fuel)
    (hf' : size s < fuel') : delivered nextLine fuel s = delivered nextLine fuel' s := by
  induction fuel generalizing fuel' s with
  | zero => omega
  | succ fuel ih =>
    obtain ⟨fuel', rfl⟩ : ∃ f, fuel' = f + 1 := ⟨fuel' - 1, by omega⟩
    rw [delivered, delivered]
    cases hl : nextLine s (maxLineLen - 1) with
    | none => rfl
    | some r =>
      have hsize := hc s r.1 r.2 hl
      exact congrArg (List.cons r.1) (ih (by omega) (by omega))

end Reader

end KirinFS.Ini
