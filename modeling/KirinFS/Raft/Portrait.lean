import KirinFS.Foundation.Histories
import KirinFS.Raft.Cluster
import KirinFS.Raft.Duties

/-! # The cluster refines the protocol

A cluster is portrayed by a world in which everything has happened that its
messages are evidence of. A step of the cluster is answered by steps of the
protocol.
-/

namespace KirinFS.Raft
open Foundation.Consensus Foundation.Shadows Foundation.Histories Function

section Start
variable {ι : Type} [DecidableEq ι] {members : List ι} {i : ι}

theorem RaftServer.addNode_of_new {me : RaftServer ι} {j : ι} (hj : j ∉ me.nodes.map (·.id))
    (isSelf : Bool) : me.raftAddNode j isSelf =
      { me with
        nodes := me.nodes ++ [RaftNode.raftNodeNew j]
        node := if isSelf then some j else me.node } := by
  have hnone : me.raftGetNode j = none := by
    rw [RaftServer.raftGetNode, List.find?_eq_none]
    intro n hn hid
    exact hj (List.mem_map.mpr ⟨n, hn, (of_decide_eq_true hid).symm⟩)
  rw [RaftServer.raftAddNode, hnone]
  cases isSelf <;> rfl

theorem foldl_addNode (l : List ι) (me : RaftServer ι) (hnew : ∀ j ∈ l, j ∉ me.nodes.map (·.id))
    (hnodup : l.Nodup) : l.foldl (fun me j => me.raftAddNode j (j = i)) me =
      { me with
        nodes := me.nodes ++ l.map RaftNode.raftNodeNew
        node := if i ∈ l then some i else me.node } := by
  induction l generalizing me with
  | nil => simp
  | cons j l ih =>
    rw [List.nodup_cons] at hnodup
    rw [List.foldl_cons, RaftServer.addNode_of_new (hnew j List.mem_cons_self), ih _ ?_ hnodup.2]
    · rcases eq_or_ne i j with rfl | hne
      · simp
      · simp [hne, hne.symm]
    · intro k hk hmem
      rw [List.map_append, List.mem_append] at hmem
      rcases hmem with hmem | hmem
      · exact hnew k (List.mem_cons_of_mem _ hk) hmem
      · obtain rfl : k = j := by simpa [RaftNode.raftNodeNew] using hmem
        exact hnodup.1 hk

theorem Cluster.newServer_eq (h : Members members) (i : ι) : newServer members i =
    { RaftServer.raftNew with nodes := members.map RaftNode.raftNodeNew, node := some i } := by
  rw [newServer, foldl_addNode members _ (by simp [RaftServer.raftNew]) h.nodup, if_pos (h.all i)]
  rfl

end Start

variable {ι : Type} [Fintype ι] [DecidableEq ι] {careful : Prop} {members : List ι}
  {w w' : World ι RaftEntry} {me me' : RaftServer ι} {c c' : Cluster ι} {pl : Place ι} {i src : ι}

def Members.place (h : Members members) (i : ι) (past : List RaftEntry) : Place ι :=
  ⟨i, members, past, h.nodup, h.all⟩

/-- The world is one that the cluster may have come through. -/
structure Portrays (careful : Prop) (h : Members members) (w : World ι RaftEntry)
    (c : Cluster ι) : Prop where
  rests : ∀ i, Rests careful (h.place i (c.applied i)) w (c.server i)
  calls : ∀ i, (c.server i).calls = []
  genuine : ∀ e ∈ c.net, e.src ≠ e.dst ∧ e.message.Genuine careful w e.src e.dst
  receipts : ∀ x ∈ c.receipts, Receipt w x.1 x.2

omit [Fintype ι] [DecidableEq ι] in
theorem Receipt.grows {ety : RaftEntry} {r : MsgEntryResponse} (h : Receipt w ety r)
    (hg : Grows w w') : Receipt w' ety r := by
  intro hid
  obtain ⟨hr, hpos, R, hR, hlog⟩ := h hid
  obtain ⟨l, hl⟩ := hg.reign _ _ hR
  refine ⟨hr, hpos, _, hl, ?_⟩
  rw [List.getElem?_append_left (List.getElem?_eq_some_iff.mp hlog).1, hlog]

/-- While another server works a server stays what it is. -/
theorem Rests.others (h : Rests careful pl w me) (hf : Follows careful i w w')
    (hsound : Sound RaftEntry.term careful w') (hne : pl.self ≠ i) : Rests careful pl w' me :=
  { h with
    sound := hsound
    peer := (hf.others _ hne).trans h.peer
    votes := fun hcand n hn hv hself => by
      obtain ⟨X, hX⟩ := h.votes hcand n hn hv hself
      exact ⟨X, hf.grows.granted _ _ _ _ hX⟩
    sent := fun c hc m hm => (h.sent c hc m hm).imp_right fun hgen => hgen.grows hf.grows
    tracked := fun hlead n hn hself => (h.tracked hlead n hn hself).grows hf.grows }

theorem Rests.receive {m : Message ι} (h : Rests careful pl w me) (hne : src ≠ pl.self)
    (hgen : m.Genuine careful w src pl.self) (hspares : careful → me.SparesMessage m) :
    Yields (Follows careful pl.self) (¬ careful) w (fun r w' => Rests careful pl w' r.1 ∧
      ∀ m' ∈ r.2, m'.Genuine careful w' pl.self src) (me.receive src m) := by
  cases m with
  | requestvote vr =>
    exact (h.recvRequestvote hgen).map fun r w' _ hr => ⟨hr.1, by simpa using hr.2⟩
  | requestvoteResponse r =>
    exact (h.recvRequestvoteResponse hgen).map fun r w' _ hr => ⟨hr, by simp⟩
  | appendentries ae =>
    exact (h.recvAppendentries hne hgen hspares).map fun r w' _ hr => ⟨hr.1, by simpa using hr.2⟩
  | appendentriesResponse r =>
    exact (h.recvAppendentriesResponse hne hgen).map fun r w' _ hr => ⟨hr, by simp⟩

namespace Portrays
variable {hm : Members members}

theorem start (careful : Prop) (hm : Members members) :
    Portrays careful hm (World.start : World ι RaftEntry) (Cluster.start members) where
  rests i := by
    rw [Cluster.start_server, Cluster.newServer_eq hm]
    exact {
      sound := .start
      peer := rfl
      node := rfl
      ids := by simp [Members.place, RaftNode.raftNodeNew, Function.comp_def]
      voting := by simp
      next := by simp [RaftNode.raftNodeNew]
      timeout := by simp [RaftServer.raftNew]
      votes := by simp [RaftServer.raftNew]
      alone := by simp [RaftServer.raftNew]
      sent := by simp [RaftServer.raftNew]
      applied := by simp [RaftServer.raftNew, Members.place]
      tracked := by simp [RaftServer.raftNew] }
  calls i := by
    rw [Cluster.start_server, Cluster.newServer_eq hm]
    rfl
  genuine := by simp
  receipts := by simp

omit [DecidableEq ι] in
theorem peer (h : Portrays careful hm w c) (i : ι) : w.peer i = (c.server i).peer :=
  (h.rests i).peer

omit [DecidableEq ι] in
theorem bound (h : Portrays careful hm w c) {i : ι} {e : RaftEntry} (he : e ∈ (c.server i).log) :
    e.term ≤ (c.server i).currentTerm := by
  have hbound := (h.rests i).sound.logs.bound i e
  rw [h.peer] at hbound
  exact hbound he

theorem returned (h : Portrays careful hm w c) (hf : Follows careful i w w')
    (hr : Rests careful (hm.place i (c.applied i)) w' me) :
    Portrays careful hm w' (c.returned i me) where
  rests j := by
    rcases eq_or_ne j i with rfl | hne
    · rw [Cluster.returned_server, Cluster.returned_applied, update_self, update_self]
      exact { hr with
        sent := by simp
        applied := fun hc => by simpa [Members.place] using hr.applied hc }
    · rw [Cluster.returned_server, Cluster.returned_applied, update_of_ne hne, update_of_ne hne]
      exact (h.rests j).others hf hr.sound hne
  calls j := by
    rcases eq_or_ne j i with rfl | hne
    · simp
    · rw [Cluster.returned_server, update_of_ne hne]
      exact h.calls j
  genuine e he := by
    rcases List.mem_append.mp he with he | he
    · exact (h.genuine e he).imp_right fun hgen => hgen.grows hf.grows
    · obtain ⟨m, hm', rfl⟩ := List.mem_map.mp he
      obtain ⟨call, hcall, hm'⟩ := List.mem_filterMap.mp hm'
      exact hr.sent call hcall m hm'
  receipts x hx := (h.receipts x hx).grows hf.grows

omit [DecidableEq ι] in
theorem answer {dst : ι} {m : Option (Message ι)} (h : Portrays careful hm w c) (hne : src ≠ dst)
    (hgen : ∀ m' ∈ m, m'.Genuine careful w src dst) :
    Portrays careful hm w (c.answer src dst m) :=
  { h with
    genuine := fun e he => by
      rcases List.mem_append.mp he with he | he
      · exact h.genuine e he
      · obtain ⟨m', hm', rfl⟩ := List.mem_map.mp he
        exact ⟨hne, hgen m' (Option.mem_toList.mp hm')⟩ }

omit [DecidableEq ι] in
theorem receipt {ety : RaftEntry} {r : Option MsgEntryResponse} (h : Portrays careful hm w c)
    (hr : ∀ r' ∈ r, Receipt w ety r') : Portrays careful hm w (c.receipt ety r) :=
  { h with
    receipts := fun x hx => by
      rcases List.mem_append.mp hx with hx | hx
      · exact h.receipts x hx
      · obtain ⟨r', hr', rfl⟩ := List.mem_map.mp hx
        exact hr r' (Option.mem_toList.mp hr') }

/-- A step of the cluster is answered by steps of the protocol. -/
theorem step (h : Portrays careful hm w c) (a : Action ι) (hspares : careful → c.Spares a) :
    Yields (Relation.ReflTransGen (Step RaftEntry.term careful)) (¬ careful) w
      (fun c' w' => Portrays careful hm w' c') (c.step a) := by
  cases a with
  | periodic i msec rand =>
    have hcall : Yields _ (¬ careful) _ _ _ := (h.rests i).periodic msec rand
    exact (hcall.map fun r w' hf hr => h.returned hf hr).imp fun w' hf => hf.steps
  | entry i ety =>
    have hcall : Yields _ (¬ careful) _ _ _ := (h.rests i).recvEntry ety
    exact (hcall.map fun r w' hf hr => (h.returned hf hr.1).receipt hr.2).imp
      fun w' hf => hf.steps
  | deliver k =>
    rw [Cluster.step]
    split
    · exact .pure .refl h
    · next e he =>
      obtain ⟨hne, hgen⟩ := h.genuine e (List.mem_of_getElem? he)
      have hcall := (h.rests e.dst).receive hne hgen fun hc => hspares hc e he
      exact (hcall.map fun r w' hf hr => (h.returned hf hr.1).answer hne.symm hr.2).imp
        fun w' hf => hf.steps

end Portrays

end KirinFS.Raft
