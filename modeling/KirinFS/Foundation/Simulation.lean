import Mathlib.Data.List.Basic
import KirinFS.Foundation.Histories

/-! # Runs of partial machines and their specifications

A machine answers each operation and may get stuck; a specification always
answers. One simulated step gives a simulated run.
-/

namespace KirinFS.Foundation.Simulation

variable {S A Op R : Type*}

/-- The state and the answers after a list of operations. -/
def runs (step : S → Op → Option (S × R)) : S → List Op → Option (S × List R)
  | s, [] => some (s, [])
  | s, o :: os => (step s o).bind fun r => (runs step r.1 os).map fun q => (q.1, r.2 :: q.2)

def specRuns (spec : A → Op → A × R) : A → List Op → A × List R
  | a, [] => (a, [])
  | a, o :: os =>
    ((specRuns spec (spec a o).1 os).1, (spec a o).2 :: (specRuns spec (spec a o).1 os).2)

variable {step : S → Op → Option (S × R)} {spec : A → Op → A × R} {Rel : S → A → Prop}
  {ok : Op → Prop} {s : S} {a : A}

/-- `Rel` is kept by every step on an admissible operation, with equal answers. -/
def Simulates (step : S → Op → Option (S × R)) (spec : A → Op → A × R) (Rel : S → A → Prop)
    (ok : Op → Prop) : Prop :=
  ∀ s a o, Rel s a → ok o → ∃ s', step s o = some (s', (spec a o).2) ∧ Rel s' (spec a o).1

theorem Simulates.runs (h : Simulates step spec Rel ok) {os : List Op} (hr : Rel s a)
    (hos : ∀ o ∈ os, ok o) :
    ∃ s', runs step s os = some (s', (specRuns spec a os).2) ∧ Rel s' (specRuns spec a os).1 := by
  induction os generalizing s a with
  | nil => exact ⟨s, rfl, hr⟩
  | cons o os ih =>
    obtain ⟨s₁, hstep, hr₁⟩ := h s a o hr (hos o (by simp))
    obtain ⟨s', hrun, hr'⟩ := ih hr₁ fun x hx => hos x (List.mem_cons_of_mem o hx)
    refine ⟨s', ?_, hr'⟩
    rw [Simulation.runs, hstep, Option.bind_some, hrun]
    rfl

section Relational
variable {next : A → Op → A} {answers : A → Op → R → Prop}

/-- A specification that only restricts the answers: each is allowed where it is given. -/
def Conforms (next : A → Op → A) (answers : A → Op → R → Prop) : A → List Op → List R → Prop
  | _, [], rs => rs = []
  | _, _ :: _, [] => False
  | a, o :: os, r :: rs => answers a o r ∧ Conforms next answers (next a o) os rs

/-- `Rel` is kept by every step on an admissible operation, with an allowed answer. -/
def Refines (step : S → Op → Option (S × R)) (next : A → Op → A) (answers : A → Op → R → Prop)
    (Rel : S → A → Prop) (ok : Op → Prop) : Prop :=
  ∀ s a o, Rel s a → ok o → ∃ s' r, step s o = some (s', r) ∧ answers a o r ∧ Rel s' (next a o)

theorem Refines.runs (h : Refines step next answers Rel ok) {os : List Op} (hr : Rel s a)
    (hos : ∀ o ∈ os, ok o) :
    ∃ s' rs, runs step s os = some (s', rs) ∧ Conforms next answers a os rs ∧
      Rel s' (os.foldl next a) := by
  induction os generalizing s a with
  | nil => exact ⟨s, [], rfl, rfl, hr⟩
  | cons o os ih =>
    obtain ⟨s₁, r, hstep, hans, hr₁⟩ := h s a o hr (hos o (by simp))
    obtain ⟨s', rs, hrun, hconf, hr'⟩ := ih hr₁ fun x hx => hos x (List.mem_cons_of_mem o hx)
    refine ⟨s', r :: rs, ?_, ⟨hans, hconf⟩, hr'⟩
    rw [Simulation.runs, hstep, Option.bind_some, hrun]
    rfl

/-- An operation that no state answers stops every run that meets it. -/
theorem runs_stuck {os : List Op} {o : Op} (ho : o ∈ os) (hstuck : ∀ s, step s o = none) :
    runs step s os = none := by
  induction os generalizing s with
  | nil => exact absurd ho List.not_mem_nil
  | cons o' os ih =>
    rw [Simulation.runs]
    rcases List.mem_cons.mp ho with rfl | hos
    · rw [hstuck s, Option.bind_none]
    · cases hstep : step s o' with
      | none => rfl
      | some r => rw [Option.bind_some, ih hos, Option.map_none]

end Relational

section Judged
open Histories
variable {good : S → Op → Prop}

/-- The answer is that of the specification exactly on the good operations, which keep `Rel`; the
others lead to a state that stands for something else. -/
def Judges (step : S → Op → Option (S × R)) (spec : A → Op → A × R) (Rel : S → A → Prop)
    (ok : Op → Prop) (good : S → Op → Prop) : Prop :=
  ∀ s a o, Rel s a → ok o → ∃ s' r a', step s o = some (s', r) ∧ Rel s' a' ∧
    (r = (spec a o).2 ↔ good s o) ∧ (good s o → a' = (spec a o).1)

/-- A run answers as the specification does exactly if it meets good operations only. -/
theorem Judges.runs_iff (h : Judges step spec Rel ok good) {os : List Op} (hr : Rel s a)
    (hos : ∀ o ∈ os, ok o) :
    ∃ s' rs, runs step s os = some (s', rs) ∧ (rs = (specRuns spec a os).2 ↔
      Along (fun s o => (step s o).map Prod.fst) good s os) := by
  induction os generalizing s a with
  | nil => exact ⟨s, [], rfl, iff_of_true rfl trivial⟩
  | cons o os ih =>
    obtain ⟨s₁, r, a₁, hstep, hr₁, hans, hnext⟩ := h s a o hr (hos o (by simp))
    obtain ⟨s', rs, hrun, hiff⟩ := ih hr₁ fun x hx => hos x (List.mem_cons_of_mem o hx)
    refine ⟨s', r :: rs, ?_, ?_⟩
    · rw [runs, hstep, Option.bind_some, hrun]
      rfl
    · rw [specRuns, List.cons.injEq, hans, Along]
      refine and_congr_right ?_
      intro hgood
      rw [← hnext hgood, hiff]
      simp [hstep]

end Judged

end KirinFS.Foundation.Simulation
