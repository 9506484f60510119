import KirinFS.Ini.Stored

/-! # The lines of a dump

Each header and each item is written through a buffer of 4096 bytes, so that of
a line that is too long the end is lost and with it the line end: the next line
continues it.
-/

namespace KirinFS.Ini
open Foundation.CString

/-- The string in a buffer of `size` bytes after `snprintf`. -/
def snprintf (size : ℕ) (s : Str) : Str := s.take (size - 1)

/-- The bytes that `stl_ini_dump` writes to a file that opens; its result is 0. -/
def stlIniDump (si : StlIni) : Str :=
  si.sections.flatMap fun s =>
    snprintf 4096 (chr '[' :: (s.name ++ [chr ']', chr '\n'])) ++
      s.items.flatMap fun e => snprintf 4096 (e.key ++ chr '=' :: (e.val ++ [chr '\n']))

def StlIni.doc (ini : StlIni) : Doc :=
  ini.sections.map fun s => (s.name, s.items.map fun e => (e.key, e.val))

def written (ls : List Str) : Str := ls.flatMap fun l => (l ++ [chr '\n']).take (maxLineLen - 1)

theorem stlIniDump_eq (ini : StlIni) : stlIniDump ini = written ini.doc.lines := by
  rw [stlIniDump, written, Doc.lines, StlIni.doc, List.flatMap_assoc, List.flatMap_map]
  congr 1
  funext s
  rw [List.flatMap_cons, List.map_map, List.flatMap_map]
  simp [snprintf, headerLine, itemLine, maxLineLen]

/-- Every line but the last is written with its end. -/
def Fit (ls : List Str) : Prop := ∀ l ∈ ls.dropLast, l.length < maxLineLen - 1

section Written
variable {l t s : Str} {ls : List Str}

theorem textLines_ne_nil (h : s ≠ []) : textLines s ≠ [] := by
  cases s with
  | nil => exact absurd rfl h
  | cons c s =>
    rw [textLines]
    split
    · exact List.cons_ne_nil _ _
    · cases textLines s <;> exact List.cons_ne_nil _ _

/-- What follows a piece without a line end continues its line. -/
theorem textLines_continue (ht : NoEnd t) (hs : s ≠ []) :
    (textLines (t ++ s)).length = (textLines s).length := by
  induction t with
  | nil => rfl
  | cons c t ih =>
    have hlen := ih fun x hx => ht x (List.mem_cons_of_mem c hx)
    rw [List.cons_append, textLines, if_neg (ht c (by simp))]
    cases htl : textLines (t ++ s) with
    | nil => exact absurd htl (textLines_ne_nil (by simp [hs]))
    | cons l ls =>
      rw [htl] at hlen
      exact hlen

theorem written_short (h : l.length < maxLineLen - 1) (ls : List Str) :
    written (l :: ls) = l ++ chr '\n' :: written ls := by
  rw [written, List.flatMap_cons, List.take_of_length_le, List.append_assoc]
  · rfl
  · rw [List.length_append, List.length_singleton]
    exact h

theorem written_long (h : maxLineLen - 1 ≤ l.length) (ls : List Str) :
    written (l :: ls) = l.take (maxLineLen - 1) ++ written ls := by
  rw [written, List.flatMap_cons, List.take_append_of_le_length h]
  rfl

theorem written_ne_nil (h : ls ≠ []) : written ls ≠ [] := by
  obtain ⟨l, ls, rfl⟩ := List.exists_cons_of_ne_nil h
  rcases Nat.lt_or_ge l.length (maxLineLen - 1) with hl | hl
  · rw [written_short hl]
    simp
  · rw [written_long hl]
    intro hnil
    have hlen := congrArg List.length hnil
    rw [List.length_append, List.length_take, Nat.min_eq_left hl] at hlen
    exact absurd hlen (by simp [maxLineLen])

theorem Fit.tail (h : Fit (l :: ls)) : Fit ls := by
  cases ls with
  | nil => simp [Fit]
  | cons l' ls => exact fun x hx => h x (List.mem_cons_of_mem l hx)

theorem Fit.textLines_written (h : Fit ls) (hls : ∀ l ∈ ls, NoEnd l) :
    textLines (written ls) = ls.map (List.take (maxLineLen - 1)) := by
  induction ls with
  | nil => rfl
  | cons l ls ih =>
    have hrest := ih h.tail fun x hx => hls x (List.mem_cons_of_mem l hx)
    have hl := hls l (by simp)
    rcases Nat.lt_or_ge l.length (maxLineLen - 1) with hlen | hlen
    · rw [written_short hlen, textLines_append hl, hrest, List.map_cons,
        List.take_of_length_le (by omega)]
    · cases ls with
      | nil =>
        have hpiece : NoEnd (l.take (maxLineLen - 1)) := fun c hc => hl c (List.mem_of_mem_take hc)
        rw [written_long hlen, written, List.flatMap_nil, List.append_nil,
          textLines_last hpiece, List.map_singleton]
        intro hnil
        have hzero := congrArg List.length hnil
        rw [List.length_take, Nat.min_eq_left hlen] at hzero
        exact absurd hzero (by decide)
      | cons l' ls => exact absurd (h l (by simp)) (by omega)

/-- A dump that does not fit has fewer lines than it should. -/
theorem length_textLines_written (hls : ∀ l ∈ ls, NoEnd l) :
    (textLines (written ls)).length ≤ ls.length ∧
      (¬ Fit ls → (textLines (written ls)).length < ls.length) := by
  induction ls with
  | nil => exact ⟨le_rfl, fun h => absurd (by simp [Fit]) h⟩
  | cons l ls ih =>
    obtain ⟨hle, hlt⟩ := ih fun x hx => hls x (List.mem_cons_of_mem l hx)
    have hl := hls l (by simp)
    by_cases hnil : ls = []
    · have hfit : Fit (l :: ls) := by
        rw [hnil]
        simp [Fit]
      refine ⟨?_, fun h => absurd hfit h⟩
      rw [hfit.textLines_written hls, List.length_map]
    · rcases Nat.lt_or_ge l.length (maxLineLen - 1) with hlen | hlen
      · rw [written_short hlen, textLines_append hl, List.length_cons, List.length_cons]
        refine ⟨Nat.succ_le_succ hle, fun h => Nat.succ_lt_succ (hlt fun hfit => h ?_)⟩
        intro x hx
        rw [List.dropLast_cons_of_ne_nil hnil] at hx
        rcases List.mem_cons.mp hx with rfl | hx
        · exact hlen
        · exact hfit x hx
      · have hpiece : NoEnd (l.take (maxLineLen - 1)) := fun c hc => hl c (List.mem_of_mem_take hc)
        rw [written_long hlen, textLines_continue hpiece (written_ne_nil hnil), List.length_cons]
        exact ⟨by omega, fun _ => by omega⟩

end Written

end KirinFS.Ini
