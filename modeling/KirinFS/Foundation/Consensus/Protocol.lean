import Mathlib.Data.Fintype.Card
import Mathlib.Data.Finset.Card
import Mathlib.Logic.Function.Basic
import Mathlib.Logic.Relation
import Mathlib.Tactic.Simps.Basic

/-! # Replicated logs under elected leaders

Servers elect a leader for a term by majority and copy its log. The world holds
what the servers are now and what has ever happened: who stood for a term, who
voted for whom, which log the leader of a term has written, who has held how
much of it. Messages are only evidence for the past, so the world has none.
-/

namespace KirinFS.Foundation.Consensus
open Function

inductive Role where
  | follower
  | candidate
  | leader
  deriving DecidableEq, Repr

structure Peer (ι ε : Type*) where
  term : ℕ
  vote : Option ι
  role : Role
  log : List ε
  commit : ℕ

/-- The leader of a term: the log it was elected with and the log it has written since. -/
structure Reign (ι ε : Type*) where
  leader : ι
  first : List ε
  log : List ε

structure World (ι ε : Type*) where
  peer : ι → Peer ι ε
  /-- The candidate stood for the term when this was its log. -/
  stood : ι → ℕ → List ε → Prop
  /-- The voter voted for the candidate in the term when this was the voter's log. -/
  granted : ι → ι → ℕ → List ε → Prop
  reign : ℕ → Option (Reign ι ε)
  /-- The peer has held that many entries of the log of the term's leader, in that term. -/
  acked : ι → ℕ → ℕ → Prop

variable {ι ε : Type*}

section Majority
variable [Fintype ι]

def Majority (Q : Finset ι) : Prop := Fintype.card ι < 2 * Q.card

theorem Majority.meet [DecidableEq ι] {Q Q' : Finset ι} (hQ : Majority Q) (hQ' : Majority Q') :
    ∃ u, u ∈ Q ∧ u ∈ Q' := by
  have hcard := Finset.card_union_add_card_inter Q Q'
  have hunion := Finset.card_le_univ (Q ∪ Q')
  have hpos : 0 < (Q ∩ Q').card := by
    unfold Majority at hQ hQ'
    omega
  obtain ⟨u, hu⟩ := Finset.card_pos.mp hpos
  exact ⟨u, Finset.mem_inter.mp hu⟩

end Majority

/-- The term of the last entry, 0 for the empty log. -/
def lastStamp (stamp : ε → ℕ) (X : List ε) : ℕ := (X.getLast?.map stamp).getD 0

/-- `Y` is at least as up to date as `X`: by the last term, then by length. -/
def UpToDate (stamp : ε → ℕ) (X Y : List ε) : Prop :=
  lastStamp stamp X < lastStamp stamp Y ∨
    lastStamp stamp X = lastStamp stamp Y ∧ X.length ≤ Y.length

namespace World
variable [DecidableEq ι] (w : World ι ε)

def start : World ι ε where
  peer := fun _ => ⟨0, none, .follower, [], 0⟩
  stood := fun _ _ _ => False
  granted := fun _ _ _ _ => False
  reign := fun _ => none
  acked := fun _ _ _ => False

@[simps] def set (i : ι) (p : Peer ι ε) : World ι ε := { w with peer := update w.peer i p }

@[simps] def noteStood (i : ι) (T : ℕ) (X : List ε) : World ι ε :=
  { w with stood := fun c t Y => w.stood c t Y ∨ c = i ∧ t = T ∧ Y = X }

@[simps] def noteGranted (i j : ι) (T : ℕ) (X : List ε) : World ι ε :=
  { w with granted := fun v c t Y => w.granted v c t Y ∨ v = i ∧ c = j ∧ t = T ∧ Y = X }

@[simps] def noteReign (T : ℕ) (R : Reign ι ε) : World ι ε :=
  { w with reign := update w.reign T (some R) }

@[simps] def noteAcked (i : ι) (T m : ℕ) : World ι ε :=
  { w with acked := fun f t k => w.acked f t k ∨ f = i ∧ t = T ∧ k ≤ m }

attribute [grind =] set_peer set_stood set_granted set_reign set_acked noteStood_peer
  noteStood_stood noteStood_granted noteStood_reign noteStood_acked noteGranted_peer
  noteGranted_stood noteGranted_granted noteGranted_reign noteGranted_acked noteReign_peer
  noteReign_stood noteReign_granted noteReign_reign noteReign_acked noteAcked_peer
  noteAcked_stood noteAcked_granted noteAcked_reign noteAcked_acked

end World

/-- Cutting the log of `i` to length `j` follows the leader of its term: the next entry is of
another term than the leader's, or nothing behind is of the leader's term. -/
inductive Cut (stamp : ε → ℕ) (X : List ε) (R : Reign ι ε) (T j : ℕ) : Prop
  | mismatch (e e' : ε) (he : X[j]? = some e) (he' : R.log[j]? = some e') (hne : stamp e ≠ stamp e')
  | overlong (hfirst : R.first.length ≤ j) (hold : ∀ e ∈ X.drop j, stamp e ≠ T)

/-- A majority has held the first `k` entries of the leader of `T` in that term, and with them an
entry that the leader wrote itself. -/
def Chosen [Fintype ι] (w : World ι ε) (T k : ℕ) : Prop :=
  ∃ R, w.reign T = some R ∧ ∃ m, k ≤ m ∧ R.first.length < m ∧ m ≤ R.log.length ∧
    ∃ Q : Finset ι, Majority Q ∧ ∀ u ∈ Q, w.acked u T m

/-- What one peer may do. Only careful peers look at what they cut off and at what they take for
committed. -/
inductive Step [Fintype ι] [DecidableEq ι] (stamp : ε → ℕ) (careful : Prop) (w : World ι ε) :
    World ι ε → Prop
  /-- It stands for a later term and votes for itself. -/
  | stand (i : ι) (T : ℕ) (hT : (w.peer i).term < T) :
    Step stamp careful w
      ((w.set i { w.peer i with term := T, vote := some i, role := .candidate }).noteStood
        i T (w.peer i).log)
  /-- It hears of a later term. -/
  | learn (i : ι) (T : ℕ) (hT : (w.peer i).term < T) :
    Step stamp careful w (w.set i { w.peer i with term := T, vote := none, role := .follower })
  /-- A candidate gives up, and takes its vote back, as its term has a leader. -/
  | yield (i : ι) (R : Reign ι ε) (hrole : (w.peer i).role = .candidate)
    (hR : w.reign (w.peer i).term = some R) :
    Step stamp careful w (w.set i { w.peer i with vote := none, role := .follower })
  /-- It votes for a candidate of its term that is at least as up to date. -/
  | grant (i c : ι) (Y : List ε) (hrole : (w.peer i).role = .follower)
    (hvote : (w.peer i).vote = none) (hY : w.stood c (w.peer i).term Y)
    (hup : UpToDate stamp (w.peer i).log Y) :
    Step stamp careful w ((w.set i { w.peer i with vote := some c }).noteGranted
      i c (w.peer i).term (w.peer i).log)
  /-- A candidate that has the votes of a majority becomes the leader. -/
  | win (i : ι) (Q : Finset ι) (hrole : (w.peer i).role = .candidate) (hQ : Majority Q)
    (hvotes : ∀ u ∈ Q, u = i ∨ ∃ X, w.granted u i (w.peer i).term X) :
    Step stamp careful w ((w.set i { w.peer i with role := .leader }).noteReign
      (w.peer i).term ⟨i, (w.peer i).log, (w.peer i).log⟩)
  /-- The leader writes an entry of its term. -/
  | write (i : ι) (R : Reign ι ε) (e : ε) (hrole : (w.peer i).role = .leader)
    (hR : w.reign (w.peer i).term = some R) (he : stamp e = (w.peer i).term) :
    Step stamp careful w (((w.set i { w.peer i with log := (w.peer i).log ++ [e] }).noteReign
      (w.peer i).term { R with log := (w.peer i).log ++ [e] }).noteAcked
      i (w.peer i).term ((w.peer i).log.length + 1))
  /-- A follower whose log begins the leader's takes the next entry over. -/
  | adopt (i : ι) (R : Reign ι ε) (e : ε) (hrole : (w.peer i).role = .follower)
    (hR : w.reign (w.peer i).term = some R) (he : (w.peer i).log ++ [e] <+: R.log) :
    Step stamp careful w (w.set i { w.peer i with log := (w.peer i).log ++ [e] })
  /-- A follower cuts its log. -/
  | cut (i : ι) (R : Reign ι ε) (j : ℕ) (hrole : (w.peer i).role = .follower)
    (hR : w.reign (w.peer i).term = some R)
    (hcut : careful → Cut stamp (w.peer i).log R (w.peer i).term j) :
    Step stamp careful w (w.set i { w.peer i with log := (w.peer i).log.take j })
  /-- A follower tells how much of the leader's log it holds. -/
  | ack (i : ι) (R : Reign ι ε) (m : ℕ) (hrole : (w.peer i).role = .follower)
    (hR : w.reign (w.peer i).term = some R) (hm : R.log.take m <+: (w.peer i).log)
    (hlen : m ≤ R.log.length) :
    Step stamp careful w (w.noteAcked i (w.peer i).term m)
  /-- It takes the first `k` entries for committed: they are chosen and in its log. -/
  | settle (i : ι) (k : ℕ) (hk : careful → ∃ T R, T ≤ (w.peer i).term ∧ w.reign T = some R ∧
      Chosen w T k ∧ R.log.take k <+: (w.peer i).log) :
    Step stamp careful w (w.set i { w.peer i with commit := k })

/-- What is in the world stays there, and the leader of a term only adds to its log. -/
structure Grows (w w' : World ι ε) : Prop where
  stood : ∀ c T Y, w.stood c T Y → w'.stood c T Y
  granted : ∀ v c T X, w.granted v c T X → w'.granted v c T X
  acked : ∀ f T k, w.acked f T k → w'.acked f T k
  reign : ∀ T R, w.reign T = some R → ∃ l, w'.reign T = some { R with log := R.log ++ l }
  term : ∀ i, (w.peer i).term ≤ (w'.peer i).term

namespace Grows
variable {w : World ι ε}

theorem refl (w : World ι ε) : Grows w w :=
  ⟨fun _ _ _ => id, fun _ _ _ _ => id, fun _ _ _ => id, fun _ R h => ⟨[], by simpa using h⟩,
    fun _ => le_rfl⟩

theorem trans {w₁ w₂ w₃ : World ι ε} (h : Grows w₁ w₂) (h' : Grows w₂ w₃) : Grows w₁ w₃ where
  stood c T Y := h'.stood c T Y ∘ h.stood c T Y
  granted v c T X := h'.granted v c T X ∘ h.granted v c T X
  acked f T k := h'.acked f T k ∘ h.acked f T k
  reign T R hR := by
    obtain ⟨l, hl⟩ := h.reign T R hR
    obtain ⟨l', hl'⟩ := h'.reign T _ hl
    exact ⟨l ++ l', by simpa using hl'⟩
  term i := (h.term i).trans (h'.term i)

theorem set [DecidableEq ι] {i : ι} {p : Peer ι ε} (hp : (w.peer i).term ≤ p.term) :
    Grows w (w.set i p) where
  stood _ _ _ := id
  granted _ _ _ _ := id
  acked _ _ _ := id
  reign _ _ hR := ⟨[], by simpa using hR⟩
  term j := by
    rw [World.set_peer, update_apply]
    split
    · next hj => exact hj ▸ hp
    · rfl

theorem noteStood (i : ι) (T : ℕ) (X : List ε) : Grows w (w.noteStood i T X) :=
  { refl w with stood := fun _ _ _ => .inl }

theorem noteGranted (i j : ι) (T : ℕ) (X : List ε) : Grows w (w.noteGranted i j T X) :=
  { refl w with granted := fun _ _ _ _ => .inl }

theorem noteAcked (i : ι) (T m : ℕ) : Grows w (w.noteAcked i T m) :=
  { refl w with acked := fun _ _ _ => .inl }

/-- The log of a reign is written for a new term, or continued. -/
theorem noteReign {T : ℕ} {R : Reign ι ε}
    (hR : w.reign T = none ∨ ∃ R₀ l, w.reign T = some R₀ ∧ R = { R₀ with log := R₀.log ++ l }) :
    Grows w (w.noteReign T R) := by
  refine { refl w with reign := fun t R' hR' => ?_ }
  rcases eq_or_ne t T with rfl | ht
  · rcases hR with hnone | ⟨R₀, l, hsome, rfl⟩
    · rw [hnone] at hR'
      cases hR'
    · rw [hsome, Option.some.injEq] at hR'
      exact ⟨l, by simp [World.noteReign, hR']⟩
  · exact ⟨[], by simpa [World.noteReign, update_of_ne ht] using hR'⟩

end Grows

end KirinFS.Foundation.Consensus
