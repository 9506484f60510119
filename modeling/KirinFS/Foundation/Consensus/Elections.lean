import KirinFS.Foundation.Consensus.Protocol

/-! # Election safety

Two majorities share a voter, a voter supports one candidate of a term, and who
has voted for another does not lead: a term has at most one leader.
-/

namespace KirinFS.Foundation.Consensus
open Function

attribute [local grind =] update_apply

variable {ι ε : Type*} [Fintype ι] [DecidableEq ι] {stamp : ε → ℕ}
  {careful : Prop} {w w' : World ι ε}

structure Elections (w : World ι ε) : Prop where
  leads : ∀ i, (w.peer i).role = .leader →
    ∃ R, w.reign (w.peer i).term = some R ∧ R.leader = i ∧ R.log = (w.peer i).log
  runs : ∀ i, (w.peer i).role = .candidate →
    (w.peer i).vote = some i ∧ w.stood i (w.peer i).term (w.peer i).log
  voted : ∀ i, (w.peer i).role = .leader → (w.peer i).vote = some i
  /-- The leader of a term leads it still or is in a later one. -/
  since : ∀ T R, w.reign T = some R → T < (w.peer R.leader).term ∨
    (w.peer R.leader).term = T ∧ (w.peer R.leader).role = .leader
  elected : ∀ T R, w.reign T = some R →
    ∃ Q : Finset ι, Majority Q ∧ ∀ u ∈ Q, u = R.leader ∨ ∃ X, w.granted u R.leader T X
  /-- A vote binds a follower as long as it stays in the term. -/
  spent : ∀ v c T X, w.granted v c T X → T < (w.peer v).term ∨
    (w.peer v).term = T ∧ (w.peer v).vote = some c ∧ (w.peer v).role = .follower
  apart : ∀ v c T X R, w.granted v c T X → w.reign T = some R → R.leader ≠ v
  once : ∀ v c c' T X X', w.granted v c T X → w.granted v c' T X' → c = c'

namespace Elections
variable (h : Elections w)
include h

/-- A candidate with a majority behind it is the first leader of its term. -/
theorem no_reign {i : ι} {Q : Finset ι} (hrole : (w.peer i).role = .candidate) (hQ : Majority Q)
    (hvotes : ∀ u ∈ Q, u = i ∨ ∃ X, w.granted u i (w.peer i).term X) :
    w.reign (w.peer i).term = none := by
  by_contra hne
  obtain ⟨R, hR⟩ := Option.ne_none_iff_exists'.mp hne
  have hi : R.leader ≠ i := by
    intro heq
    rcases h.since _ R hR with hlt | ⟨-, hlead⟩
    · exact absurd (heq ▸ hlt) (lt_irrefl _)
    · rw [heq, hrole] at hlead
      cases hlead
  obtain ⟨Q', hQ', hvotes'⟩ := h.elected _ R hR
  obtain ⟨u, hu, hu'⟩ := hQ.meet hQ'
  -- the shared voter is the candidate, or the leader, or supports both
  rcases hvotes u hu with rfl | ⟨X, hX⟩
  · rcases hvotes' u hu' with heq | ⟨X', hX'⟩
    · exact hi heq.symm
    · rcases h.spent _ _ _ _ hX' with hlt | ⟨-, -, hfollow⟩
      · exact absurd hlt (lt_irrefl _)
      · rw [hrole] at hfollow
        cases hfollow
  · rcases hvotes' u hu' with rfl | ⟨X', hX'⟩
    · exact h.apart _ _ _ _ R hX hR rfl
    · exact hi (h.once _ _ _ _ _ _ hX' hX)

end Elections

theorem Step.grows (h : Elections w) (hs : Step stamp careful w w') : Grows w w' := by
  cases hs with
  | stand i T hT =>
    refine Grows.trans ?_ (.noteStood ..)
    exact .set hT.le
  | learn i T hT => exact .set hT.le
  | yield | adopt | cut | settle => exact .set le_rfl
  | grant i c Y =>
    refine Grows.trans ?_ (.noteGranted ..)
    exact .set le_rfl
  | win i Q hrole hQ hvotes =>
    refine Grows.trans ?_ (.noteReign (.inl (h.no_reign hrole hQ hvotes)))
    exact .set le_rfl
  | write i R e hrole hR he =>
    obtain ⟨R', hR', -, hlog⟩ := h.leads i hrole
    rw [hR, Option.some.injEq] at hR'
    refine Grows.trans ?_ (.noteAcked ..)
    refine Grows.trans ?_ (.noteReign (.inr ⟨R, [e], hR, ?_⟩))
    · exact .set le_rfl
    · rw [hR', hlog]
  | ack => exact .noteAcked ..

omit [DecidableEq ι] in
theorem Elections.start : Elections (World.start : World ι ε) where
  leads := by simp [World.start]
  runs := by simp [World.start]
  voted := by simp [World.start]
  since := by simp [World.start]
  elected := by simp [World.start]
  spent := by simp [World.start]
  apart := by simp [World.start]
  once := by simp [World.start]

section Kept
variable (h : Elections w) (hs : Step stamp careful w w')
include h hs

theorem Step.leads (i : ι) (hi : (w'.peer i).role = .leader) :
    ∃ R, w'.reign (w'.peer i).term = some R ∧ R.leader = i ∧ R.log = (w'.peer i).log := by
  have hlead := h.leads i
  cases hs with
  | win j Q hrole hQ hvotes =>
    have hnone := h.no_reign hrole hQ hvotes
    rcases eq_or_ne i j with rfl | hne
    · exact ⟨⟨i, (w.peer i).log, (w.peer i).log⟩, by simp, rfl, by simp⟩
    · grind
  | write j R e hrole hR he =>
    have hlead' := h.leads j hrole
    grind
  | _ => grind

theorem Step.runs (i : ι) (hi : (w'.peer i).role = .candidate) :
    (w'.peer i).vote = some i ∧ w'.stood i (w'.peer i).term (w'.peer i).log := by
  have hrun := h.runs i
  cases hs <;> grind

theorem Step.voted (i : ι) (hi : (w'.peer i).role = .leader) : (w'.peer i).vote = some i := by
  have hold := h.voted i
  have hrun := h.runs i
  cases hs <;> grind

theorem Step.since (T : ℕ) (R : Reign ι ε) (hR : w'.reign T = some R) :
    T < (w'.peer R.leader).term ∨
      (w'.peer R.leader).term = T ∧ (w'.peer R.leader).role = .leader := by
  have hold := h.since T
  cases hs <;> grind

theorem Step.elected (T : ℕ) (R : Reign ι ε) (hR : w'.reign T = some R) :
    ∃ Q : Finset ι, Majority Q ∧ ∀ u ∈ Q, u = R.leader ∨ ∃ X, w'.granted u R.leader T X := by
  have hgrows := hs.grows h
  suffices hQ : ∃ Q : Finset ι, Majority Q ∧
      ∀ u ∈ Q, u = R.leader ∨ ∃ X, w.granted u R.leader T X by
    obtain ⟨Q, hmaj, hvotes⟩ := hQ
    refine ⟨Q, hmaj, ?_⟩
    intro u hu
    exact (hvotes u hu).imp_right fun ⟨X, hX⟩ => ⟨X, hgrows.granted _ _ _ _ hX⟩
  have hold := h.elected T
  cases hs <;> grind

theorem Step.spent (v c : ι) (T : ℕ) (X : List ε) (hX : w'.granted v c T X) :
    T < (w'.peer v).term ∨
      (w'.peer v).term = T ∧ (w'.peer v).vote = some c ∧ (w'.peer v).role = .follower := by
  have hold := h.spent v c T X
  cases hs <;> grind

theorem Step.apart (v c : ι) (T : ℕ) (X : List ε) (R : Reign ι ε) (hX : w'.granted v c T X)
    (hR : w'.reign T = some R) : R.leader ≠ v := by
  have hold := h.apart v c T X
  have hspent := h.spent v c T X
  have hsince := h.since T
  cases hs <;> grind

theorem Step.once (v c c' : ι) (T : ℕ) (X X' : List ε) (hX : w'.granted v c T X)
    (hX' : w'.granted v c' T X') : c = c' := by
  have hold := h.once v c c' T X X'
  have hspent := h.spent v c T X
  have hspent' := h.spent v c' T X'
  cases hs <;> grind

theorem Elections.step : Elections w' where
  leads := hs.leads h
  runs := hs.runs h
  voted := hs.voted h
  since := hs.since h
  elected := hs.elected h
  spent := hs.spent h
  apart := hs.apart h
  once := hs.once h

end Kept

end KirinFS.Foundation.Consensus
