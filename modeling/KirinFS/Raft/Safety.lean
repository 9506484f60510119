import KirinFS.Raft.Portrait

/-! # Safety of the cluster

What holds in every run, whatever the net does, and what holds as long as no
message without entries cuts off entries of its own term.
-/

namespace KirinFS.Raft
open Foundation.Consensus Foundation.Shadows Foundation.Histories

variable {ι : Type} [Fintype ι] [DecidableEq ι] {careful : Prop} {members : List ι}
  {w w' : World ι RaftEntry} {c c' : Cluster ι} {as as' : List (Action ι)}

theorem Portrays.turn {hm : Members members} (h : Portrays careful hm w c) {a a' : Action ι}
    (hspares : careful → c.Spares a) (hturn : c.turn a = some (c', a')) :
    ∃ w', Relation.ReflTransGen (Step RaftEntry.term careful) w w' ∧ Portrays careful hm w' c' := by
  obtain ⟨c₁, hc₁, heq⟩ := Option.map_eq_some_iff.mp hturn
  cases heq
  have hyields := h.step a hspares
  rwa [hc₁] at hyields

theorem Portrays.reaches {hm : Members members} {ok : Cluster ι → Action ι → Prop}
    (h : Portrays careful hm w c) (hok : ∀ c a, ok c a → careful → c.Spares a)
    (hr : Reaches Cluster.turn ok c as c') :
    ∃ w', Relation.ReflTransGen (Step RaftEntry.term careful) w w' ∧ Portrays careful hm w' c' := by
  refine hr.invariant (I := fun _ c' => ∃ w', Relation.ReflTransGen (Step RaftEntry.term careful)
    w w' ∧ Portrays careful hm w' c') ⟨w, .refl, h⟩ ?_
  rintro - c₁ a c₂ _ ⟨w₁, hw₁, h₁⟩ ha hturn
  obtain ⟨w₂, hw₂, h₂⟩ := h₁.turn (hok c₁ a ha) hturn
  exact ⟨w₂, hw₁.trans hw₂, h₂⟩

omit [DecidableEq ι] in
/-- A server has applied the first entries of its log, each once and in this order. -/
theorem Portrays.applied_eq {hm : Members members} (h : Portrays True hm w c) (i : ι) :
    c.applied i = (c.server i).log.take (c.server i).lastAppliedIdx := by
  obtain ⟨-, happlied⟩ := (h.rests i).applied trivial
  rw [h.calls i] at happlied
  simpa [Members.place] using happlied

omit [DecidableEq ι] in
theorem Portrays.applied_committed {hm : Members members} (h : Portrays True hm w c) (i : ι) :
    c.applied i <+: (c.server i).log.take (c.server i).commitIdx :=
  h.applied_eq i ▸ List.take_prefix_take_left ((h.rests i).applied trivial).1

/-- A step that cuts nothing of its own term off comes to its end. -/
theorem Portrays.returns {hm : Members members} (h : Portrays True hm w c) {a : Action ι}
    (ha : c.Spares a) : ∃ c', c.step a = some c' := by
  have hyields := h.step a fun _ => ha
  cases hstep : c.step a with
  | none =>
    rw [hstep] at hyields
    exact absurd trivial hyields
  | some c' => exact ⟨c', rfl⟩

/-- Beginnings of two lists, one of which begins as the other, are such lists too. -/
theorem agree_of_begin {α : Type} {X Y X' Y' : List α} (hX : X' <+: X) (hY : Y' <+: Y)
    (h : X <+: Y ∨ Y <+: X) : X' <+: Y' ∨ Y' <+: X' := by
  rcases h with hpre | hpre
  · exact List.prefix_or_prefix_of_prefix (hX.trans hpre) hY
  · exact List.prefix_or_prefix_of_prefix hX (hY.trans hpre)

omit [Fintype ι] [DecidableEq ι] in
theorem RaftServer.committed_iff {me : RaftServer ι} {r : MsgEntryResponse} :
    me.raftMsgEntryResponseCommitted r = some 1 ↔
      0 < r.idx ∧ r.idx ≤ me.commitIdx ∧ ∃ e, me.log[r.idx - 1]? = some e ∧ e.term = r.term := by
  rw [RaftServer.raftMsgEntryResponseCommitted, RaftServer.raftGetEntryFromIdx]
  split
  · next hzero => simp [hzero]
  · next hpos =>
    rcases hety : me.log[r.idx - 1]? with _ | e
    · simp
    · rcases eq_or_ne e.term r.term with hterm | hterm
      · by_cases hle : r.idx ≤ me.commitIdx <;> simp [hterm, hle, Nat.pos_of_ne_zero hpos]
      · simp [hterm, hterm.symm]

theorem RaftState.role_eq_leader {s : RaftState} : s.role = .leader ↔ s = .leader := by
  cases s <;> simp [RaftState.role]

namespace Cluster

/-- Runs over any net, that may lose, repeat and reorder what is sent. -/
abbrev Runs (c : Cluster ι) (as : List (Action ι)) (c' : Cluster ι) : Prop :=
  Reaches turn (fun _ _ => True) c as c'

/-- Runs in which no message without entries cuts off entries of its own term. -/
abbrev SparingRuns (c : Cluster ι) (as : List (Action ι)) (c' : Cluster ι) : Prop :=
  Reaches turn Spares c as c'

omit [Fintype ι] in
theorem SparingRuns.runs (h : c.SparingRuns as c') : c.Runs as c' := by
  induction h with
  | start => exact .start
  | next _ _ hstep ih => exact ih.next trivial hstep

theorem threeMembers : Members ([0, 1, 2] : List (Fin 3)) := ⟨by decide, by decide⟩

/-- Server 0 becomes the leader with the vote of server 1. -/
def campaign : List (Action (Fin 3)) := [.periodic 0 1000 0, .deliver 0, .deliver 2]

def someEntry (id : ℕ) : RaftEntry := ⟨0, id, .normal, [1]⟩

/-- Its first entry is committed when server 1 has it. -/
def commitOne : List (Action (Fin 3)) := [.entry 0 (someEntry 7), .deliver 5, .deliver 7]

/-- It is applied, and server 1 is told of it. Server 0 takes another entry, and server 1 becomes
the next leader with the vote of server 2. -/
def handOver : List (Action (Fin 3)) :=
  [.periodic 0 200 0, .deliver 8, .entry 0 (someEntry 8), .periodic 1 0 0, .periodic 1 1000 0,
    .deliver 13, .deliver 14]

/-- A heartbeat of server 1 is on its way to server 0, which has an entry more than it reaches. -/
def Overlong (c : Cluster (Fin 3)) : Prop :=
  c.net[15]? = some ⟨1, 0, .appendentries ⟨2, 1, 1, 1, []⟩⟩ ∧ (c.server 0).log.length = 2

instance : DecidablePred Overlong := fun _ => inferInstanceAs (Decidable (_ ∧ _))

/-- The states after the campaign, after the commit and after the hand over. -/
structure Trial (as as' as'' : List (Action (Fin 3))) (c c' c'' : Cluster (Fin 3)) : Prop where
  run : (start [0, 1, 2]).SparingRuns as c
  run' : c.SparingRuns as' c'
  run'' : c'.SparingRuns as'' c''
  vote : ⟨1, 0, .requestvoteResponse ⟨1, true⟩⟩ ∈ c.net
  cuts : Overlong c'' ∧ c''.Spares (.deliver 15)
  leads : (c.server 0).state = .leader ∧ (c'.server 0).state = .leader ∧
    (c'.server 0).currentTerm = (c.server 0).currentTerm
  succeeds : (c''.server 1).state = .leader ∧
    (c'.server 0).currentTerm ≤ (c''.server 1).currentTerm
  first : ∃ e ∈ (c'.server 0).log[0]?, ∃ e' ∈ (c''.server 1).log[0]?, e.term = e'.term
  commits : (c'.server 0).commitIdx = 1 ∧ (c'.server 0).lastAppliedIdx = 0
  applies : c''.applied 1 ≠ []
  receipt : ∃ r, (someEntry 7, r) ∈ c'.receipts ∧
    (c'.server 0).raftMsgEntryResponseCommitted r = some 1 ∧ r.idx ≤ (c''.server 1).commitIdx

theorem exists_trial : ∃ as as' as'' c c' c'', Trial as as' as'' c c' c'' := by
  obtain ⟨r, hr, r', hr', r'', hr'', hvote, hcuts, hleads, hsucceeds, hfirst, hcommits, happlies,
      x, hx, hety, hreceipt⟩ :
      ∃ r ∈ Reaches.follow turn Spares (start [0, 1, 2]) campaign,
        ∃ r' ∈ Reaches.follow turn Spares r.1 commitOne,
        ∃ r'' ∈ Reaches.follow turn Spares r'.1 handOver,
          (⟨1, 0, .requestvoteResponse ⟨1, true⟩⟩ : Envelope (Fin 3)) ∈ r.1.net ∧
          (Overlong r''.1 ∧ r''.1.Spares (.deliver 15)) ∧
          ((r.1.server 0).state = .leader ∧ (r'.1.server 0).state = .leader ∧
            (r'.1.server 0).currentTerm = (r.1.server 0).currentTerm) ∧
          ((r''.1.server 1).state = .leader ∧
            (r'.1.server 0).currentTerm ≤ (r''.1.server 1).currentTerm) ∧
          (∃ e ∈ (r'.1.server 0).log[0]?, ∃ e' ∈ (r''.1.server 1).log[0]?, e.term = e'.term) ∧
          ((r'.1.server 0).commitIdx = 1 ∧ (r'.1.server 0).lastAppliedIdx = 0) ∧
          r''.1.applied 1 ≠ [] ∧
          ∃ x ∈ r'.1.receipts, x.1 = someEntry 7 ∧
            (r'.1.server 0).raftMsgEntryResponseCommitted x.2 = some 1 ∧
              x.2.idx ≤ (r''.1.server 1).commitIdx := by decide +kernel
  exact ⟨r.2, r'.2, r''.2, r.1, r'.1, r''.1, {
    run := .of_follow hr
    run' := .of_follow hr'
    run'' := .of_follow hr''
    vote := hvote
    cuts := hcuts
    leads := hleads
    succeeds := hsucceeds
    first := hfirst
    commits := hcommits
    applies := happlies
    receipt := ⟨x.2, hety ▸ hx, hreceipt⟩ }⟩

section Safe
variable (hm : Members members)
include hm

theorem Runs.portrait (hr : (start members).Runs as c) : ∃ w, Portrays False hm w c := by
  obtain ⟨w, -, h⟩ := (Portrays.start False hm).reaches (fun _ _ _ => False.elim) hr
  exact ⟨w, h⟩

theorem SparingRuns.portrait (hr : (start members).SparingRuns as c) :
    ∃ w, Portrays True hm w c := by
  obtain ⟨w, -, h⟩ := (Portrays.start True hm).reaches (fun _ _ ha _ => ha) hr
  exact ⟨w, h⟩

/-- Whatever is sent again or late, a server grants its vote in a term to one candidate only. -/
theorem one_vote (hr : (start members).Runs as c) {e e' : Envelope ι}
    {r r' : MsgRequestvoteResponse} (he : e ∈ c.net) (he' : e' ∈ c.net)
    (hmsg : e.message = .requestvoteResponse r) (hmsg' : e'.message = .requestvoteResponse r')
    (hr₁ : r.voteGranted) (hr₁' : r'.voteGranted) (hsrc : e.src = e'.src)
    (hterm : r.term = r'.term) :
    e.dst = e'.dst := by
  obtain ⟨w, h⟩ := hr.portrait hm
  have hgen := (h.genuine e he).2
  have hgen' := (h.genuine e' he').2
  rw [hmsg] at hgen
  rw [hmsg'] at hgen'
  obtain ⟨X, hX⟩ := hgen hr₁
  obtain ⟨X', hX'⟩ := hgen' hr₁'
  rw [← hsrc, ← hterm] at hX'
  exact (h.rests e.src).sound.elections.once _ _ _ _ _ _ hX hX'

omit [Fintype ι] [DecidableEq ι] hm in
theorem one_vote_three : ∃ (c : Cluster (Fin 3)) (as : List (Action (Fin 3)))
    (e : Envelope (Fin 3)), (start [0, 1, 2]).Runs as c ∧ e ∈ c.net ∧
      e.message = .requestvoteResponse ⟨1, true⟩ ∧ e.dst = e.dst := by
  obtain ⟨as, as', as'', c, c', c'', h⟩ := exists_trial
  exact ⟨c, as, _, h.run.runs, h.vote, rfl,
    one_vote threeMembers h.run.runs h.vote h.vote rfl rfl rfl rfl rfl rfl⟩

/-- Where two logs, one now and one later, have an entry of the same term they are the same up to
it. -/
theorem log_matching (hr : (start members).Runs as c) (hr' : c.Runs as' c') {i j : ι} {k : ℕ}
    {e e' : RaftEntry} (he : (c.server i).log[k]? = some e)
    (he' : (c'.server j).log[k]? = some e') (hterm : e.term = e'.term) :
    (c.server i).log.take (k + 1) = (c'.server j).log.take (k + 1) := by
  obtain ⟨w, h⟩ := hr.portrait hm
  obtain ⟨w', hw', h'⟩ := h.reaches (fun _ _ _ => False.elim) hr'
  have hbacks : Backs RaftEntry.term w' (c.server i).log := by
    have hold := (h.rests i).sound.logs.backs i
    rw [h.peer] at hold
    exact hold.grows ((h.rests i).sound.steps hw').2
  have hbacks' : Backs RaftEntry.term w' (c'.server j).log := by
    have hnew := (h'.rests j).sound.logs.backs j
    rwa [h'.peer] at hnew
  exact hbacks.take_eq hbacks' he he' hterm

omit [Fintype ι] [DecidableEq ι] hm in
theorem log_matching_three : ∃ (c c' : Cluster (Fin 3)) (as as' : List (Action (Fin 3))),
    (start [0, 1, 2]).Runs as c ∧ c.Runs as' c' ∧
      (c.server 0).log.take 1 = (c'.server 1).log.take 1 := by
  obtain ⟨as, as', as'', c, c', c'', h⟩ := exists_trial
  obtain ⟨e, he, e', he', hterm⟩ := h.first
  have hrun := h.run.runs.append h.run'.runs
  exact ⟨c', c'', _, _, hrun, h.run''.runs,
    log_matching threeMembers hrun h.run''.runs he he' hterm⟩

/-- In its term a leader stays the leader and only adds to its log. -/
theorem leader_appends (hr : (start members).Runs as c) (hr' : c.Runs as' c') {i : ι}
    (hi : (c.server i).state = .leader)
    (hterm : (c'.server i).currentTerm = (c.server i).currentTerm) :
    (c'.server i).state = .leader ∧ (c.server i).log <+: (c'.server i).log := by
  obtain ⟨w, h⟩ := hr.portrait hm
  obtain ⟨w', hw', h'⟩ := h.reaches (fun _ _ _ => False.elim) hr'
  obtain ⟨R, hR, hlead, hlog⟩ := (h.rests i).leads hi
  obtain ⟨l, hl⟩ := ((h.rests i).sound.steps hw').2.reign _ R hR
  have hlead' : (c'.server i).state = .leader := by
    have hsince := (h'.rests i).sound.elections.since _ _ hl
    have hterm' : (w'.peer R.leader).term = (c.server i).currentTerm := by
      rw [hlead, ← hterm]
      exact (h'.rests i).term_eq
    rcases hsince with hlater | ⟨-, hrole⟩
    · exact absurd hterm' hlater.ne'
    · rw [hlead] at hrole
      exact RaftState.role_eq_leader.mp ((h'.rests i).role_eq.symm.trans hrole)
  refine ⟨hlead', ?_⟩
  obtain ⟨R', hR', -, hlog'⟩ := (h'.rests i).leads hlead'
  rw [hterm, hl, Option.some.injEq] at hR'
  rw [← hlog, ← hlog', ← hR']
  exact List.prefix_append ..

/-- A term has one leader at most in the whole run, and what it has in its log it keeps. -/
theorem election_safety (hr : (start members).Runs as c) (hr' : c.Runs as' c') {i j : ι}
    (hi : (c.server i).state = .leader) (hj : (c'.server j).state = .leader)
    (hterm : (c'.server j).currentTerm = (c.server i).currentTerm) :
    i = j ∧ (c.server i).log <+: (c'.server j).log := by
  obtain ⟨w, h⟩ := hr.portrait hm
  obtain ⟨w', hw', h'⟩ := h.reaches (fun _ _ _ => False.elim) hr'
  obtain ⟨R, hR, hlead, hlog⟩ := (h.rests i).leads hi
  obtain ⟨R', hR', hlead', hlog'⟩ := (h'.rests j).leads hj
  obtain ⟨l, hl⟩ := ((h.rests i).sound.steps hw').2.reign _ R hR
  rw [hterm, hl, Option.some.injEq] at hR'
  refine ⟨?_, ?_⟩
  · show (hm.place i (c.applied i)).self = (hm.place j (c'.applied j)).self
    rw [← hlead, ← hlead', ← hR']
  · rw [← hlog, ← hlog', ← hR']
    exact List.prefix_append ..

omit [Fintype ι] [DecidableEq ι] hm in
theorem election_safety_three : ∃ (c c' : Cluster (Fin 3)) (as as' : List (Action (Fin 3))),
    (start [0, 1, 2]).Runs as c ∧ c.Runs as' c' ∧ (c'.server 0).commitIdx = 1 ∧
      (0 : Fin 3) = 0 ∧ (c.server 0).log <+: (c'.server 0).log := by
  obtain ⟨as, as', as'', c, c', c'', h⟩ := exists_trial
  obtain ⟨hi, hj, hterm⟩ := h.leads
  exact ⟨c, c', _, _, h.run.runs, h.run'.runs, h.commits.1,
    election_safety threeMembers h.run.runs h.run'.runs hi hj hterm⟩

/-- No assertion fails, and no pointer to nothing is followed. -/
theorem never_aborts (hr : (start members).SparingRuns as c) {a : Action ι} (ha : c.Spares a) :
    ∃ c', c.step a = some c' := by
  obtain ⟨w, h⟩ := hr.portrait hm
  exact h.returns ha

omit [Fintype ι] [DecidableEq ι] hm in
theorem never_aborts_three : ∃ (c : Cluster (Fin 3)) (as : List (Action (Fin 3))),
    (start [0, 1, 2]).SparingRuns as c ∧ Overlong c ∧ ∃ c', c.step (.deliver 15) = some c' := by
  obtain ⟨as, as', as'', c, c', c'', h⟩ := exists_trial
  obtain ⟨hcuts, hspares⟩ := h.cuts
  have hrun := (h.run.append h.run').append h.run''
  exact ⟨c'', _, hrun, hcuts, never_aborts threeMembers hrun hspares⟩

/-- Every state of such a run is that of a run of the protocol: the servers have the same terms,
votes, roles, logs and commit indexes, and from one state to the next there are steps of the
protocol. -/
theorem runs_protocol (hr : (start members).SparingRuns as c) :
    ∃ ws : List (World ι RaftEntry), ws.length = as.length ∧
      (World.start :: ws).IsChain (Relation.ReflTransGen (Step RaftEntry.term True)) ∧
      ∀ k w, (World.start :: ws)[k]? = some w → ∃ c', (start members).SparingRuns (as.take k) c' ∧
        c'.SparingRuns (as.drop k) c ∧ ∀ i, w.peer i = (c'.server i).peer := by
  obtain ⟨ws, hlen, hchain, hws⟩ := hr.simulated (Portrays.start True hm)
    fun w c a c' a' hp ha hturn => hp.turn (fun _ => ha) hturn
  refine ⟨ws, hlen, hchain, fun k w hw => ?_⟩
  obtain ⟨c', hr', hrest, hp⟩ := hws k w hw
  exact ⟨c', hr', hrest, hp.peer⟩

omit [Fintype ι] [DecidableEq ι] hm in
theorem runs_protocol_three : ∃ (c : Cluster (Fin 3)) (as : List (Action (Fin 3))),
    (start [0, 1, 2]).SparingRuns as c ∧ (c.server 1).state = .leader ∧
      ∃ ws : List (World (Fin 3) RaftEntry), ws.length = as.length ∧
        (World.start :: ws).IsChain (Relation.ReflTransGen (Step RaftEntry.term True)) ∧
        ∀ k w, (World.start :: ws)[k]? = some w →
          ∃ c', (start [0, 1, 2]).SparingRuns (as.take k) c' ∧ c'.SparingRuns (as.drop k) c ∧
            ∀ i, w.peer i = (c'.server i).peer := by
  obtain ⟨as, as', as'', c, c', c'', h⟩ := exists_trial
  have hrun := (h.run.append h.run').append h.run''
  exact ⟨c'', _, hrun, h.succeeds.1, runs_protocol threeMembers hrun⟩

section Committed
variable (hr : (start members).SparingRuns as c) (hr' : c.SparingRuns as' c')
include hr hr'

/-- What a server has committed is chosen in a world of the run, and stays in its log. -/
theorem committed_kept (i : ι) : ∃ w w', Portrays True hm w c ∧ Portrays True hm w' c' ∧
    Grows w w' ∧ Keeps w i ((c.server i).log.take (c.server i).commitIdx) ∧
      Keeps w' i ((c.server i).log.take (c.server i).commitIdx) := by
  obtain ⟨w, h⟩ := hr.portrait hm
  obtain ⟨w', hw', h'⟩ := h.reaches (fun _ _ ha _ => ha) hr'
  have hsound := (h.rests i).sound
  have hkeeps := (hsound.safe trivial).keeps i
  rw [h.peer] at hkeeps
  exact ⟨w, w', h, h', (hsound.steps hw').2, hkeeps, hsound.keeps trivial hw' hkeeps⟩

/-- Every leader of this term or a later one has what is committed. -/
theorem leader_completeness {i j : ι} (hj : (c'.server j).state = .leader)
    (hterm : (c.server i).currentTerm ≤ (c'.server j).currentTerm) :
    (c.server i).log.take (c.server i).commitIdx <+: (c'.server j).log := by
  obtain ⟨w, w', h, h', hg, hkeeps, -⟩ := committed_kept hm hr hr' i
  obtain ⟨R, hR, -, hlog⟩ := (h'.rests j).leads hj
  have hT : (w.peer i).term ≤ (c'.server j).currentTerm := (h.rests i).term_eq.trans_le hterm
  exact hlog ▸ hkeeps.led hg ((h'.rests j).sound.safe trivial) hR hT

omit [Fintype ι] [DecidableEq ι] hm hr hr' in
theorem leader_completeness_three : ∃ (c c' : Cluster (Fin 3)) (as as' : List (Action (Fin 3))),
    (start [0, 1, 2]).SparingRuns as c ∧ c.SparingRuns as' c' ∧ (c.server 0).commitIdx = 1 ∧
      (c.server 0).log.take (c.server 0).commitIdx <+: (c'.server 1).log := by
  obtain ⟨as, as', as'', c, c', c'', h⟩ := exists_trial
  have hrun := h.run.append h.run'
  exact ⟨c', c'', _, _, hrun, h.run'', h.commits.1,
    leader_completeness threeMembers hrun h.run'' h.succeeds.1 h.succeeds.2⟩

/-- What two servers have committed, one now and one later, begins alike. -/
theorem committed_agree (i j : ι) :
    (c.server i).log.take (c.server i).commitIdx <+:
        (c'.server j).log.take (c'.server j).commitIdx ∨
      (c'.server j).log.take (c'.server j).commitIdx <+:
        (c.server i).log.take (c.server i).commitIdx := by
  obtain ⟨w, w', -, h', -, -, hkeeps⟩ := committed_kept hm hr hr' i
  have hsafe := (h'.rests j).sound.safe trivial
  have hkeeps' := hsafe.keeps j
  rw [h'.peer] at hkeeps'
  exact hkeeps.settled.prefix_or hsafe hkeeps'.settled

end Committed

/-- The state machines of two servers, one now and one later, have applied the same entries, or one
some more. -/
theorem state_machine_safety (hr : (start members).SparingRuns as c) (hr' : c.SparingRuns as' c')
    (i j : ι) : c.applied i <+: c'.applied j ∨ c'.applied j <+: c.applied i := by
  obtain ⟨w, h⟩ := hr.portrait hm
  obtain ⟨w', -, h'⟩ := h.reaches (fun _ _ ha _ => ha) hr'
  exact agree_of_begin (h.applied_committed i) (h'.applied_committed j)
    (committed_agree hm hr hr' i j)

omit [Fintype ι] [DecidableEq ι] hm in
theorem state_machine_safety_three : ∃ (c c' : Cluster (Fin 3)) (as as' : List (Action (Fin 3))),
    (start [0, 1, 2]).SparingRuns as c ∧ c.SparingRuns as' c' ∧ c'.applied 1 ≠ [] ∧
      (c.applied 0 <+: c'.applied 1 ∨ c'.applied 1 <+: c.applied 0) := by
  obtain ⟨as, as', as'', c, c', c'', h⟩ := exists_trial
  have hrun := h.run.append h.run'
  exact ⟨c', c'', _, _, hrun, h.run'', h.applies,
    state_machine_safety threeMembers hrun h.run'' 0 1⟩

/-- `raft_apply_all` ends, with everything applied that is committed. -/
theorem apply_all (hr : (start members).SparingRuns as c) (i : ι) :
    ∃ me', (me'.lastAppliedIdx = (c.server i).commitIdx ∧ me'.log = (c.server i).log ∧
        c.applied i ++ me'.calls.filterMap (·.applied) =
          (c.server i).log.take (c.server i).commitIdx) ∧
      ∀ fuel, (c.server i).commitIdx - (c.server i).lastAppliedIdx < fuel →
        (c.server i).raftApplyAll fuel = some me' := by
  obtain ⟨w, h⟩ := hr.portrait hm
  obtain ⟨me', ⟨hrests, hlog, hlast⟩, hrun⟩ := (h.rests i).applyAll trivial
  refine ⟨me', ⟨hlast, hlog, ?_⟩, hrun⟩
  have happlied := (hrests.applied trivial).2
  rwa [hlast, hlog] at happlied

omit [Fintype ι] [DecidableEq ι] hm in
theorem apply_all_three : ∃ (c : Cluster (Fin 3)) (as : List (Action (Fin 3))),
    (start [0, 1, 2]).SparingRuns as c ∧
      ((c.server 0).commitIdx = 1 ∧ (c.server 0).lastAppliedIdx = 0) ∧
      ∃ me', (me'.lastAppliedIdx = (c.server 0).commitIdx ∧ me'.log = (c.server 0).log ∧
        c.applied 0 ++ me'.calls.filterMap (·.applied) =
          (c.server 0).log.take (c.server 0).commitIdx) ∧
          ∀ fuel, (c.server 0).commitIdx - (c.server 0).lastAppliedIdx < fuel →
            (c.server 0).raftApplyAll fuel = some me' := by
  obtain ⟨as, as', as'', c, c', c'', h⟩ := exists_trial
  have hrun := h.run.append h.run'
  exact ⟨c', _, hrun, h.commits, apply_all threeMembers hrun 0⟩

/-- Once a server tells a client that its entry is committed, the entry is there for good, and every
server that has committed as much tells the same. -/
theorem receipt_final (hr : (start members).SparingRuns as c) (hr' : c.SparingRuns as' c')
    {ety : RaftEntry} {r : MsgEntryResponse} {i j : ι} (hx : (ety, r) ∈ c.receipts)
    (hid : ety.id ≠ 0) (hi : (c.server i).raftMsgEntryResponseCommitted r = some 1)
    (hj : r.idx ≤ (c'.server j).commitIdx) :
    (c'.server j).log[r.idx - 1]? = some { ety with term := r.term } ∧
      (c'.server j).raftMsgEntryResponseCommitted r = some 1 := by
  obtain ⟨w, h⟩ := hr.portrait hm
  have hreceipt : Receipt w ety r := h.receipts _ hx
  obtain ⟨-, hpos, R, hR, hety⟩ := hreceipt hid
  obtain ⟨-, hle, e, he, hterm⟩ := RaftServer.committed_iff.mp hi
  have hentry : e = { ety with term := r.term } := by
    have hbacks : Backs RaftEntry.term w (c.server i).log :=
      (h.rests i).log_eq ▸ (h.rests i).sound.logs.backs i
    obtain ⟨R', hR', hpre⟩ := hbacks _ e he
    rw [hterm, hR, Option.some.injEq] at hR'
    obtain ⟨l, hl⟩ := hpre
    have hlen := (List.getElem?_eq_some_iff.mp he).1
    rw [hR', ← hl, List.getElem?_append_left (by rw [List.length_take]; omega),
      List.getElem?_take_of_lt (Nat.lt_succ_self _), he, Option.some.injEq] at hety
    exact hety
  have hlater : (c'.server j).log[r.idx - 1]? = some e := by
    have hi' : ((c.server i).log.take (c.server i).commitIdx)[r.idx - 1]? = some e := by
      rw [List.getElem?_take_of_lt (by omega), he]
    have hlen : r.idx - 1 < ((c'.server j).log.take (c'.server j).commitIdx).length := by
      obtain ⟨w', h'⟩ := (h.reaches (fun _ _ ha _ => ha) hr').imp fun _ => And.right
      have hcommit := (h'.rests j).commit_le trivial
      rw [List.length_take]
      omega
    rw [← List.getElem?_take_of_lt (show r.idx - 1 < (c'.server j).commitIdx by omega)]
    rcases committed_agree hm hr hr' i j with ⟨l, hl⟩ | ⟨l, hl⟩
    · rw [← hl, List.getElem?_append_left (List.getElem?_eq_some_iff.mp hi').1, hi']
    · rw [← hl, List.getElem?_append_left hlen] at hi'
      exact hi'
  rw [hentry] at hlater
  exact ⟨hlater, RaftServer.committed_iff.mpr ⟨hpos, hj, _, hlater, rfl⟩⟩

omit [Fintype ι] [DecidableEq ι] hm in
theorem receipt_final_three : ∃ (c c' : Cluster (Fin 3)) (as as' : List (Action (Fin 3)))
    (r : MsgEntryResponse), (start [0, 1, 2]).SparingRuns as c ∧ c.SparingRuns as' c' ∧
      (c'.server 1).log[r.idx - 1]? = some { someEntry 7 with term := r.term } ∧
        (c'.server 1).raftMsgEntryResponseCommitted r = some 1 := by
  obtain ⟨as, as', as'', c, c', c'', h⟩ := exists_trial
  obtain ⟨r, hx, hi, hj⟩ := h.receipt
  have hrun := h.run.append h.run'
  exact ⟨c', c'', _, _, r, hrun, h.run'',
    receipt_final threeMembers hrun h.run'' hx (by decide) hi hj⟩

end Safe

/-- Server 1 holds two more entries, and a message that was sent before them cuts them off again
when the leader has committed and applied them; server 1 becomes the next leader. -/
def overtaken : List (Action (Fin 3)) :=
  campaign ++ commitOne ++ [.periodic 0 200 0, .entry 0 (someEntry 8), .entry 0 (someEntry 9),
    .periodic 0 200 0, .deliver 11, .deliver 13, .periodic 0 0 0, .deliver 8, .periodic 1 1000 0,
    .deliver 16, .deliver 17, .entry 1 (someEntry 10), .deliver 21, .deliver 22, .deliver 23,
    .deliver 24, .periodic 1 0 0, .periodic 1 0 0]

/-- Then committed entries are lost, and the state machines of two servers are different. -/
theorem overtaken_applied : ∃ (c : Cluster (Fin 3)) (as : List (Action (Fin 3))),
    (start [0, 1, 2]).Runs as c ∧
      ¬ (c.applied 0 <+: c.applied 1 ∨ c.applied 1 <+: c.applied 0) := by
  obtain ⟨r, hr, hdiffer⟩ : ∃ r ∈ Reaches.follow turn (fun _ _ => True) (start [0, 1, 2])
      overtaken, ¬ (r.1.applied 0 <+: r.1.applied 1 ∨ r.1.applied 1 <+: r.1.applied 0) := by
    decide +kernel
  exact ⟨r.1, r.2, .of_follow hr, hdiffer⟩

end Cluster

end KirinFS.Raft
