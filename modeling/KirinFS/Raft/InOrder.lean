import KirinFS.Raft.Safety
import KirinFS.Raft.Turn

/-! # Links that keep the order

If no link delivers a message after one that was sent later on the same link, no
message without entries cuts off entries of its own term: what the leader has
sent before ends no later than what it has sent since.
-/

namespace KirinFS.Raft
open Foundation.Consensus Foundation.Histories Function

variable {ι : Type} [DecidableEq ι] {members : List ι} {c c' : Cluster ι}
  {as : List (Action ι)} {a : Action ι}

namespace Cluster

/-- The second delivery, if it is on the same link, is of nothing that was sent before. -/
def InTurn (net : List (Envelope ι)) : Action ι → Action ι → Prop
  | .deliver k, .deliver k' =>
    ∀ e ∈ net[k]?, ∀ e' ∈ net[k']?, e.src = e'.src → e.dst = e'.dst → k ≤ k'
  | _, _ => True

instance (net : List (Envelope ι)) : DecidableRel (InTurn net)
  | .deliver _, .deliver _ => by
    unfold InTurn
    infer_instance
  | .deliver _, .periodic .. => .isTrue trivial
  | .deliver _, .entry .. => .isTrue trivial
  | .periodic .., _ => .isTrue trivial
  | .entry .., _ => .isTrue trivial

/-- Messages may be lost and repeated, but not overtaken. -/
def InOrder (net : List (Envelope ι)) (as : List (Action ι)) : Prop := as.Pairwise (InTurn net)

instance (net : List (Envelope ι)) (as : List (Action ι)) : Decidable (InOrder net as) := by
  unfold InOrder
  infer_instance

omit [DecidableEq ι] in
theorem InOrder.shorten {net net' : List (Envelope ι)} (h : InOrder net' as) (hnet : net <+: net') :
    InOrder net as := by
  have hmem : ∀ {k : ℕ} {e : Envelope ι}, e ∈ net[k]? → e ∈ net'[k]? := by
    intro k e he
    obtain ⟨l, rfl⟩ := hnet
    rw [List.getElem?_append_left (List.getElem?_eq_some_iff.mp he).1, he]
    rfl
  refine h.imp fun {b b'} hb => ?_
  cases b <;> cases b' <;> first | trivial | exact fun e he e' he' => hb e (hmem he) e' (hmem he')

end Cluster

def MsgAppendentries.reach (ae : MsgAppendentries) : ℕ := ae.prevLogIdx + ae.entries.length

/-- What a leader posts in its term reaches further and further, and what a server holds of its own
term it has been sent. -/
structure Streams (as : List (Action ι)) (c : Cluster ι) : Prop where
  reach_le : ∀ (k k' : ℕ) (e e' : Envelope ι) (ae ae' : MsgAppendentries), c.net[k]? = some e →
    c.net[k']? = some e' → k ≤ k' → e.message = .appendentries ae →
      e'.message = .appendentries ae' → ae.term = ae'.term → ae.reach ≤ ae'.reach
  own : ∀ i k e, (c.server i).log[k]? = some e → e.term = (c.server i).currentTerm →
    (c.server i).state = .leader ∨ ∃ d src, ∃ ae : MsgAppendentries, .deliver d ∈ as ∧
      c.net[d]? = some ⟨src, i, .appendentries ae⟩ ∧ ae.term = e.term ∧ k < ae.reach

theorem Streams.start (members : List ι) (hm : Members members) :
    Streams [] (Cluster.start members) where
  reach_le := by simp
  own i k e he := by
    rw [Cluster.start_server, Cluster.newServer_eq hm] at he
    cases he

section Step
variable [Fintype ι] {w w' : World ι RaftEntry} {hm : Members members}

omit [DecidableEq ι] in
/-- Nothing of a term reaches behind the log of its leader. -/
theorem Portrays.reach_le (h : Portrays False hm w c) {e : Envelope ι} {ae : MsgAppendentries}
    {R : Reign ι RaftEntry} (he : e ∈ c.net) (hae : e.message = .appendentries ae)
    (hR : w.reign ae.term = some R) : ae.reach ≤ R.log.length ∧ R.leader = e.src := by
  have hgen := (h.genuine e he).2
  rw [hae] at hgen
  obtain ⟨R', hgen, hlead⟩ := hgen
  obtain rfl : R = R' := by
    rw [← Option.some.injEq, ← hR, hgen.reign]
  refine ⟨?_, hlead⟩
  have hlen := hgen.stretch.length_le
  rwa [List.length_append, List.length_take_of_le hgen.prev] at hlen

omit [DecidableEq ι] in
/-- A message in the net is of a term that has a leader. -/
theorem Portrays.reign_of_sent (h : Portrays False hm w c) {e : Envelope ι} {ae : MsgAppendentries}
    (he : e ∈ c.net) (hae : e.message = .appendentries ae) : ∃ R, w.reign ae.term = some R := by
  have hgen := (h.genuine e he).2
  rw [hae] at hgen
  obtain ⟨R, hgen, -⟩ := hgen
  exact ⟨R, hgen.reign⟩

omit [Fintype ι] [DecidableEq ι] in
theorem mem_posted {i : ι} {me : RaftServer ι} {e : Envelope ι} {ae : MsgAppendentries}
    (he : e ∈ Cluster.posted i me) (hae : e.message = .appendentries ae) :
    e.src = i ∧ ∃ node, RaftCall.sendAppendentries node ae ∈ me.calls := by
  obtain ⟨m, hm', rfl⟩ := List.mem_map.mp he
  obtain ⟨call, hcall, hmsg⟩ := List.mem_filterMap.mp hm'
  refine ⟨rfl, ?_⟩
  cases call with
  | sendAppendentries node ae' =>
    cases hmsg
    cases hae
    exact ⟨node, hcall⟩
  | sendRequestvote =>
    cases hmsg
    cases hae
  | _ => cases hmsg

/-- What is posted in a step reaches as far as anything of the term. -/
theorem Worked.reach_le {i : ι} {me : RaftServer ι} (hw : Worked c a c' i me)
    (h' : Portrays False hm w' c') {e e' : Envelope ι} {ae ae' : MsgAppendentries}
    (he : e ∈ c'.net) (he' : e' ∈ Cluster.posted i me) (hae : e.message = .appendentries ae)
    (hae' : e'.message = .appendentries ae') (hterm : ae.term = ae'.term) :
    ae.reach ≤ ae'.reach := by
  obtain ⟨l, hnet, -⟩ := hw.net
  have hmem : e' ∈ c'.net := by
    rw [hnet]
    exact List.mem_append_right _ (List.mem_append_left _ he')
  obtain ⟨hsrc, node, hcall⟩ := mem_posted he' hae'
  obtain ⟨hcur, hend⟩ := hw.reaching node ae' hcall
  obtain ⟨R, hR⟩ := h'.reign_of_sent hmem hae'
  obtain ⟨-, hlead⟩ := h'.reach_le hmem hae' hR
  have hserver : c'.server i = { me with calls := [] } := by
    rw [hw.server, update_self]
  -- the sender leads the term, and its log is that of the reign
  have hstate : (c'.server i).state = .leader := by
    have hsince := (h'.rests i).sound.elections.since _ R hR
    rw [hlead, hsrc, h'.peer, hserver, hcur] at hsince
    rw [hserver]
    rcases hsince with hlt | ⟨-, hrole⟩
    · exact absurd hlt (lt_irrefl _)
    · exact RaftState.role_eq_leader.mp hrole
  obtain ⟨R', hR', -, hlog⟩ := (h'.rests i).leads hstate
  have hsame : R = R' := by
    rw [hserver] at hR'
    rw [← Option.some.injEq, ← hR, ← hR', hcur]
  rw [hserver] at hlog
  calc ae.reach ≤ R.log.length := (h'.reach_le he hae (hterm ▸ hR)).1
    _ = me.log.length := by rw [hsame, hlog]
    _ ≤ ae'.reach := hend

theorem getElem?_append_some {α : Type} {X Y : List α} {k : ℕ} {x : α} (h : X[k]? = some x) :
    (X ++ Y)[k]? = some x := by
  rw [List.getElem?_append_left (List.getElem?_eq_some_iff.mp h).1, h]

theorem Streams.next (hm : Members members) (hr : (Cluster.start members).Runs as c)
    (h : Streams as c) (hstep : c.step a = some c') : Streams (as ++ [a]) c' := by
  have hr' : (Cluster.start members).Runs (as ++ [a]) c' :=
    hr.next trivial (by rw [Cluster.turn, hstep]; rfl)
  have hlast : c.Runs ([] ++ [a]) c' := .next .start trivial (by rw [Cluster.turn, hstep]; rfl)
  obtain ⟨w, hp⟩ := hr.portrait hm
  obtain ⟨w', hp'⟩ := hr'.portrait hm
  rcases Cluster.step_works hp.calls hstep with rfl | ⟨i, me, hw⟩
  · refine ⟨h.reach_le, fun i k e he hterm => (h.own i k e he hterm).imp_right ?_⟩
    rintro ⟨d, src, ae, hd, hrest⟩
    exact ⟨d, src, ae, List.mem_append_left _ hd, hrest⟩
  obtain ⟨l, hnet, hl⟩ := hw.net
  have hserver : c'.server i = { me with calls := [] } := by
    rw [hw.server, update_self]
  have hold : ∀ j k e, (c.server j).log[k]? = some e → e.term = (c'.server j).currentTerm →
      (c.server j).currentTerm ≤ (c'.server j).currentTerm →
      (c'.server j).state = .leader ∨ ∃ d src, ∃ ae : MsgAppendentries, .deliver d ∈ as ++ [a] ∧
        c'.net[d]? = some ⟨src, j, .appendentries ae⟩ ∧ ae.term = e.term ∧ k < ae.reach := by
    intro j k e he hterm hle
    have heq : (c'.server j).currentTerm = (c.server j).currentTerm :=
      le_antisymm (hterm ▸ hp.bound (List.mem_of_getElem? he)) hle
    rcases h.own j k e he (hterm.trans heq) with hlead | ⟨d, src, ae, hd, hsent, hrest⟩
    · exact .inl (Cluster.leader_appends hm hr hlast hlead heq).1
    · exact .inr ⟨d, src, ae, List.mem_append_left _ hd, hnet ▸ getElem?_append_some hsent, hrest⟩
  refine ⟨fun k k' e e' ae ae' he he' hk hae hae' hterm => ?_, fun j k e he hterm => ?_⟩
  · rcases Nat.lt_or_ge k' c.net.length with hbefore | hnew
    · rw [hnet, List.getElem?_append_left (by omega)] at he he'
      exact h.reach_le k k' e e' ae ae' he he' hk hae hae' hterm
    · rw [hnet, List.getElem?_append_right hnew] at he'
      rcases List.mem_append.mp (List.mem_of_getElem? he') with hposted | hanswer
      · exact hw.reach_le hp' (List.mem_of_getElem? he) hposted hae hae' hterm
      · exact absurd hae' (hl e' hanswer ae')
  · rcases eq_or_ne j i with rfl | hne
    · have hle : (c.server j).currentTerm ≤ (c'.server j).currentTerm := by
        rw [hserver]
        exact hw.term_le
      have hlog : (c'.server j).log = me.log := by rw [hserver]
      rw [hlog] at he
      rcases hw.comes with hsame | hlead | ⟨d, src, ae, rfl, hsent, hcur, hwithin⟩
      · exact hold j k e (hsame ▸ he) hterm hle
      · rw [hserver]
        exact .inl hlead
      · rcases hwithin k e he with hbefore | hk
        · exact hold j k e hbefore hterm hle
        · right
          refine ⟨d, src, ae, List.mem_append_right _ (List.mem_singleton_self _),
            hnet ▸ getElem?_append_some hsent, ?_, hk⟩
          rw [hterm, hserver]
          exact hcur.symm
    · have hsame : c'.server j = c.server j := by
        rw [hw.server, update_of_ne hne]
      have hle : (c.server j).currentTerm ≤ (c'.server j).currentTerm := by rw [hsame]
      rw [hsame] at he
      exact hold j k e he hterm hle

/-- A delivery that overtakes nothing spares what is of its own term. -/
theorem Streams.spares (hm : Members members) (hr : (Cluster.start members).Runs as c)
    (h : Streams as c) (ho : Cluster.InOrder c.net (as ++ [a])) : c.Spares a := by
  cases a with
  | periodic | entry => trivial
  | deliver k =>
    intro e he
    cases hmsg : e.message with
    | requestvote | requestvoteResponse | appendentriesResponse => trivial
    | appendentries ae =>
      intro hle hnil hpos hlong x hx hxterm
      obtain ⟨w, hp⟩ := hr.portrait hm
      have hmem : e ∈ c.net := List.mem_of_getElem? he
      obtain ⟨R, hR⟩ := hp.reign_of_sent hmem hmsg
      obtain ⟨-, hlead⟩ := hp.reach_le hmem hmsg hR
      obtain ⟨j, hj⟩ := List.mem_iff_getElem?.mp hx
      rw [List.getElem?_drop] at hj
      have hcur : (c.server e.dst).currentTerm = ae.term :=
        le_antisymm hle (hxterm ▸ hp.bound (List.mem_of_mem_drop hx))
      rcases h.own e.dst _ x hj (hxterm.trans hcur.symm) with
        hstate | ⟨d, src, ae', hd, hsent, hterm, hk⟩
      · obtain ⟨R', hR', hlead', -⟩ := (hp.rests e.dst).leads hstate
        rw [hcur, hR, Option.some.injEq] at hR'
        exact (hp.genuine e hmem).1 (hlead.symm.trans (hR' ▸ hlead'))
      · have hterm' : ae'.term = ae.term := hterm.trans hxterm
        have hmem' := List.mem_of_getElem? hsent
        obtain ⟨-, hlead'⟩ := hp.reach_le hmem' rfl (hterm'.symm ▸ hR)
        have hdk : d ≤ k := by
          have hpair := (List.pairwise_append.mp ho).2.2 _ hd _ (List.mem_singleton_self _)
          exact hpair _ hsent e he (hlead'.symm.trans hlead) rfl
        have hreach := h.reach_le d k _ e ae' ae hsent he hdk rfl hmsg hterm'
        have hend : ae.reach = ae.prevLogIdx := by
          rw [MsgAppendentries.reach, hnil]
          rfl
        omega

omit [Fintype ι] in
theorem Cluster.net_grows (hcalls : ∀ i, (c.server i).calls = []) (hstep : c.step a = some c') :
    c.net <+: c'.net := by
  rcases step_works hcalls hstep with rfl | ⟨i, me, hw⟩
  · exact List.prefix_rfl
  · obtain ⟨l, hnet, -⟩ := hw.net
    exact hnet ▸ List.prefix_append ..

/-- Runs in which no message overtakes another on its link lose nothing. -/
theorem Cluster.InOrder.streams (hm : Members members) (hr : (start members).Runs as c)
    (ho : InOrder c.net as) : (start members).SparingRuns as c ∧ Streams as c := by
  induction hr with
  | start => exact ⟨.start, .start members hm⟩
  | next hr hok hturn ih =>
    obtain ⟨c', hstep, heq⟩ := Option.map_eq_some_iff.mp hturn
    cases heq
    obtain ⟨w, hp⟩ := Runs.portrait hm hr
    have hnet := net_grows hp.calls hstep
    obtain ⟨hsparing, hstreams⟩ := ih (InOrder.shorten (List.pairwise_append.mp ho).1 hnet)
    have hspares := hstreams.spares hm hr (ho.shorten hnet)
    exact ⟨hsparing.next hspares hturn, hstreams.next hm hr hstep⟩

/-- As long as no message overtakes another on its link, the state machines agree, what is committed
agrees, and no server aborts. -/
theorem Cluster.in_order_safety (hm : Members members) (hr : (start members).Runs as c)
    (ho : InOrder c.net as) :
    (∀ i j, c.applied i <+: c.applied j ∨ c.applied j <+: c.applied i) ∧
      (∀ i j, (c.server i).log.take (c.server i).commitIdx <+:
          (c.server j).log.take (c.server j).commitIdx ∨
        (c.server j).log.take (c.server j).commitIdx <+:
          (c.server i).log.take (c.server i).commitIdx) ∧
      ∀ a, InOrder c.net (as ++ [a]) → ∃ c', c.step a = some c' := by
  obtain ⟨hsparing, hstreams⟩ := ho.streams hm hr
  obtain ⟨w, h⟩ := hsparing.portrait hm
  have hagree := committed_agree hm hsparing .start
  refine ⟨fun i j => ?_, hagree, fun a ha => ?_⟩
  · exact agree_of_begin (h.applied_committed i) (h.applied_committed j) (hagree i j)
  · exact h.returns (hstreams.spares hm hr ha)

omit [Fintype ι] [DecidableEq ι] in
theorem Cluster.in_order_safety_three : ∃ (c : Cluster (Fin 3)) (as : List (Action (Fin 3))),
    (start [0, 1, 2]).Runs as c ∧ c.applied 1 ≠ [] ∧
      (∀ i j, c.applied i <+: c.applied j ∨ c.applied j <+: c.applied i) ∧
      (∀ i j, (c.server i).log.take (c.server i).commitIdx <+:
          (c.server j).log.take (c.server j).commitIdx ∨
        (c.server j).log.take (c.server j).commitIdx <+:
          (c.server i).log.take (c.server i).commitIdx) ∧
      ∀ a, InOrder c.net (as ++ [a]) → ∃ c', c.step a = some c' := by
  obtain ⟨r, hr, hsome, ho⟩ : ∃ r ∈ Reaches.follow turn (fun _ _ => True) (start [0, 1, 2])
      (campaign ++ commitOne ++ handOver), r.1.applied 1 ≠ [] ∧ InOrder r.1.net r.2 := by
    decide +kernel
  exact ⟨r.1, r.2, .of_follow hr, hsome, in_order_safety threeMembers (.of_follow hr) ho⟩

end Step

end KirinFS.Raft
