import KirinFS.Raft.Cluster
import KirinFS.Raft.Moves
import KirinFS.Raft.Writes

/-! # One step of the cluster

What a step writes to the log of its server, and what it posts: entries come from
a client or from one message, and every post reaches to the end of the log.
-/

namespace KirinFS.Raft
open Function Foundation.Shadows

variable {ι : Type} {may : Kind → Prop} {me me' : RaftServer ι}

section Turns

/-- What has been posted is of the term, and reaches to the end of the log. -/
def Reaching (me : RaftServer ι) : Prop :=
  ∀ node ae, RaftCall.sendAppendentries node ae ∈ me.calls →
    ae.term = me.currentTerm ∧ me.log.length ≤ ae.prevLogIdx + ae.entries.length

theorem Write.term_le (h : Write may me me') : me.currentTerm ≤ me'.currentTerm := by
  cases h with
  | term _ T hT => exact hT.le
  | _ => exact le_rfl

theorem Writes.term_le (h : Writes may me me') : me.currentTerm ≤ me'.currentTerm := by
  induction h with
  | refl => exact le_rfl
  | tail _ hlast ih => exact ih.trans hlast.term_le

theorem Writes.log_eq (hmay : ¬ may .log) (h : Writes may me me') : me'.log = me.log := by
  induction h with
  | refl => rfl
  | tail _ hlast ih =>
    refine Eq.trans ?_ ih
    cases hlast with
    | offer hlog => exact absurd hlog hmay
    | pop hlog => exact absurd hlog hmay
    | _ => rfl

theorem Writes.role_eq (hmay : ¬ may .term) (h : Writes may me me') :
    me'.currentTerm = me.currentTerm ∧ me'.state = me.state := by
  induction h with
  | refl => exact ⟨rfl, rfl⟩
  | tail _ hlast ih =>
    rw [← ih.1, ← ih.2]
    cases hlast with
    | term hterm => exact absurd hterm hmay
    | state hterm => exact absurd hterm hmay
    | _ => exact ⟨rfl, rfl⟩

theorem Writes.quiet (hmay : ¬ may .post) (h : Writes may me me')
    (hquiet : ∀ node ae, RaftCall.sendAppendentries node ae ∉ me.calls) :
    ∀ node ae, RaftCall.sendAppendentries node ae ∉ me'.calls := by
  induction h with
  | refl => exact hquiet
  | tail _ hlast ih =>
    intro node ae hmem
    refine ih node ae ?_
    cases hlast with
    | post hpost => exact absurd hpost hmay
    | pop _ idx =>
      refine (List.mem_append.mp hmem).resolve_right fun hpop => ?_
      obtain ⟨e, -, he⟩ := List.mem_map.mp hpop
      cases he
    | term | vote | offer | apply | ask | tell =>
      exact (List.mem_append.mp hmem).resolve_right (by simp)
    | _ => exact hmem

theorem Posts.reaching (h : Posts me me') (hreach : Reaching me) : Reaching me' := by
  induction h with
  | refl => exact hreach
  | tail _ hlast ih =>
    intro node ae hmem
    cases hlast with
    | post _ _ _ hterm hend =>
      rcases List.mem_append.mp hmem with hmem | hmem
      · exact ih node ae hmem
      · cases List.mem_singleton.mp hmem
        exact ⟨hterm, hend⟩
    | term hterm => cases hterm
    | offer hlog => cases hlog
    | pop hlog => cases hlog
    | vote | apply | ask | tell =>
      exact ih node ae ((List.mem_append.mp hmem).resolve_right (by simp))
    | _ => exact ih node ae hmem

theorem Turns.reaching (hmay : ¬ may .post) (h : Turns may me me') (hcalls : me.calls = []) :
    Reaching me' := by
  obtain ⟨mid, hmid, hposts⟩ := h
  refine hposts.reaching fun node ae hmem => ?_
  exact absurd hmem (hmid.quiet hmay (by simp [hcalls]) node ae)

theorem Turns.term_le (h : Turns may me me') : me.currentTerm ≤ me'.currentTerm := by
  obtain ⟨mid, hmid, hposts⟩ := h
  exact hmid.term_le.trans hposts.term_le

theorem Turns.log_eq (hmay : ¬ may .log) (h : Turns may me me') : me'.log = me.log := by
  obtain ⟨mid, hmid, hposts⟩ := h
  exact (hposts.log_eq nofun).trans (hmid.log_eq hmay)

theorem Turns.state_eq (hmay : ¬ may .term) (h : Turns may me me') : me'.state = me.state := by
  obtain ⟨mid, hmid, hposts⟩ := h
  exact (hposts.role_eq nofun).2.trans (hmid.role_eq hmay).2

end Turns

section Places

/-- From the `n`-th on the entries of `Y` are those of `X`. -/
def Within (n : ℕ) (X Y : List RaftEntry) : Prop := ∀ k e, Y[k]? = some e → X[k]? = some e ∨ k < n

theorem getElem?_of_begins {X Y : List RaftEntry} {k : ℕ} {e : RaftEntry} (h : Y <+: X)
    (he : Y[k]? = some e) : X[k]? = some e := by
  obtain ⟨l, rfl⟩ := h
  rw [List.getElem?_append_left (List.getElem?_eq_some_iff.mp he).1, he]

theorem Within.of_begins {n : ℕ} {X Y : List RaftEntry} (h : Y <+: X) : Within n X Y :=
  fun _ _ he => .inl (getElem?_of_begins h he)

/-- The first loop only shortens the log, to where what is left follows. -/
theorem RaftServer.skipExisting_within {j ci : ℕ} {l : List RaftEntry}
    {r : RaftServer ι × List RaftEntry × ℕ} (hj : j ≤ me.log.length)
    (h : me.skipExisting (j + 1) ci l = some r) :
    r.1.log <+: me.log ∧ (r.2.1 ≠ [] → r.1.log.length + r.2.1.length = j + l.length) := by
  induction l generalizing j ci with
  | nil =>
    cases h
    exact ⟨List.prefix_rfl, fun hne => absurd rfl hne⟩
  | cons ety rest ih =>
    rw [skipExisting, raftGetEntryFromIdx, if_neg (Nat.add_one_ne_zero j), Nat.add_sub_cancel] at h
    rcases hlog : me.log[j]? with _ | existing
    · rw [hlog] at h
      cases h
      have hend : me.log.length ≤ j := List.getElem?_eq_none_iff.mp hlog
      refine ⟨List.prefix_rfl, fun _ => ?_⟩
      rw [le_antisymm hend hj]
    · rw [hlog] at h
      simp only [Option.bind_eq_bind, Option.bind_some] at h
      have hlen := (List.getElem?_eq_some_iff.mp hlog).1
      split_ifs at h
      · cases h
        refine ⟨List.take_prefix .., fun _ => ?_⟩
        show (me.log.take (j + 1 - 1)).length + _ = _
        rw [Nat.add_sub_cancel, List.length_take_of_le hj]
      · obtain ⟨hpre, hlens⟩ := ih hlen h
        refine ⟨hpre, fun hne => ?_⟩
        rw [hlens hne, List.length_cons]
        omega

theorem RaftServer.pickUpRemainder_within (etyIndex ci : ℕ) (l : List RaftEntry)
    (me : RaftServer ι) : me.log <+: (me.pickUpRemainder etyIndex ci l).1.log ∧
      (me.pickUpRemainder etyIndex ci l).1.log.length ≤ me.log.length + l.length := by
  induction l generalizing me etyIndex ci with
  | nil => exact ⟨List.prefix_rfl, le_rfl⟩
  | cons ety rest ih =>
    obtain ⟨v, hv⟩ : ∃ v, me.raftAppendEntry ety = if ety.id = 0 then
        ({ me with votingCfgChangeLogIdx := v }, -1)
      else ({ me with
        votingCfgChangeLogIdx := v, log := me.log ++ [ety]
        calls := me.calls ++ [.logOffer ety me.log.length] }, 0) := me.appendEntry_eq ety
    rw [pickUpRemainder, hv]
    by_cases hid : ety.id = 0
    · rw [if_pos hid]
      exact ⟨List.prefix_rfl, Nat.le_add_right ..⟩
    · rw [if_neg hid]
      obtain ⟨hpre, hlen⟩ := ih (etyIndex + 1) etyIndex { me with
        votingCfgChangeLogIdx := v, log := me.log ++ [ety]
        calls := me.calls ++ [.logOffer ety me.log.length] }
      refine ⟨(List.prefix_append ..).trans hpre, hlen.trans ?_⟩
      simp only [List.length_append, List.length_cons, List.length_nil]
      omega

theorem RaftServer.takeEntries_within {node : Option ι} {ae : MsgAppendentries} {term : ℕ}
    {r : RaftServer ι × ℤ × MsgAppendentriesResponse} (hprev : ae.prevLogIdx ≤ me.log.length)
    (h : me.takeEntries node ae term = some r) :
    Within (ae.prevLogIdx + ae.entries.length) me.log r.1.log := by
  obtain ⟨me₁, h₁, h⟩ := Option.bind_eq_some_iff.mp h
  obtain ⟨⟨me₂, rest, ci⟩, h₂, h⟩ := Option.bind_eq_some_iff.mp h
  obtain ⟨hpre₁, hprev₁⟩ : me₁.log <+: me.log ∧ ae.prevLogIdx ≤ me₁.log.length := by
    rw [cutBehindPrev] at h₁
    split_ifs at h₁
    · cases h₁
      refine ⟨List.take_prefix .., ?_⟩
      show _ ≤ (me.log.take (ae.prevLogIdx + 1 - 1)).length
      rw [Nat.add_sub_cancel, List.length_take_of_le hprev]
    · cases h₁
      exact ⟨List.prefix_rfl, hprev⟩
  obtain ⟨hpre₂, hlen₂⟩ := skipExisting_within hprev₁ h₂
  obtain ⟨hpre₃, hlen₃⟩ := me₂.pickUpRemainder_within
    (ae.prevLogIdx + 1 + (ae.entries.length - rest.length)) ci rest
  have hwithin : Within (ae.prevLogIdx + ae.entries.length) me.log (me₂.pickUpRemainder
      (ae.prevLogIdx + 1 + (ae.entries.length - rest.length)) ci rest).1.log := by
    intro k e he
    have hk := (List.getElem?_eq_some_iff.mp he).1
    rcases Nat.lt_or_ge k me₂.log.length with hold | hnew
    · obtain ⟨x, hx⟩ : ∃ x, me₂.log[k]? = some x := ⟨_, List.getElem?_eq_getElem hold⟩
      have hsame := getElem?_of_begins hpre₃ hx
      rw [he, Option.some.injEq] at hsame
      exact .inl (getElem?_of_begins (hpre₂.trans hpre₁) (hsame ▸ hx))
    · right
      rcases eq_or_ne rest [] with rfl | hne
      · have hzero : ([] : List RaftEntry).length = 0 := rfl
        omega
      · have hlens := hlen₂ hne
        dsimp only at hlens
        omega
  dsimp only at h
  rcases hpick : me₂.pickUpRemainder (ae.prevLogIdx + 1 + (ae.entries.length - rest.length)) ci
    rest with ⟨me₃, _ | ci'⟩
  · rw [hpick] at h hwithin
    cases h
    exact hwithin
  · rw [hpick] at h hwithin
    obtain ⟨me₄, h₄, h⟩ := Option.bind_eq_some_iff.mp h
    cases h
    have hw : Writes (fun _ => False) me₃ me₄ := (me₃.followCommit_does _).result h₄
    show Within _ me.log me₄.log
    rw [hw.log_eq id]
    exact hwithin

theorem RaftServer.checkPrev_within {node : Option ι} {ae : MsgAppendentries} {term : ℕ}
    {r : RaftServer ι × ℤ × MsgAppendentriesResponse} (h : me.checkPrev node ae term = some r) :
    Within (ae.prevLogIdx + ae.entries.length) me.log r.1.log := by
  rw [checkPrev] at h
  by_cases hpos : 0 < ae.prevLogIdx
  · rw [if_pos hpos, raftGetEntryFromIdx, if_neg hpos.ne'] at h
    rcases hlog : me.log[ae.prevLogIdx - 1]? with _ | e
    · rw [hlog] at h
      cases h
      exact .of_begins List.prefix_rfl
    · rw [hlog] at h
      simp only [Option.bind_eq_bind, Option.bind_some] at h
      split_ifs at h
      · cases h
        exact .of_begins List.prefix_rfl
      · cases h
        exact .of_begins (List.take_prefix ..)
      · have hlen := (List.getElem?_eq_some_iff.mp hlog).1
        exact takeEntries_within (by omega) h
  · rw [if_neg hpos] at h
    exact takeEntries_within (by omega) h

/-- A message that is not refused takes the server to its term; only behind what it holds are the
entries those from before. -/
theorem RaftServer.recvAppendentries_within {node : Option ι} {ae : MsgAppendentries}
    {r : RaftServer ι × ℤ × MsgAppendentriesResponse}
    (h : me.raftRecvAppendentries node ae = some r) : r.1.log = me.log ∨
      r.1.currentTerm = ae.term ∧
        Within (ae.prevLogIdx + ae.entries.length) me.log r.1.log := by
  have hcheck : ∀ {me₁ : RaftServer ι} {t : ℕ}, me₁.checkPrev node ae t = some r →
      me₁.log = me.log → me₁.currentTerm = ae.term → r.1.currentTerm = ae.term ∧
        Within (ae.prevLogIdx + ae.entries.length) me.log r.1.log := by
    intro me₁ t h hlog hterm
    have hw : Writes (· = .log) me₁ r.1 := (me₁.checkPrev_does (by rfl) node ae t).result h
    exact ⟨(hw.role_eq nofun).1.trans hterm, hlog ▸ checkPrev_within h⟩
  rw [raftRecvAppendentries] at h
  split_ifs at h with hcand hlt hgt
  · exact .inr (hcheck h rfl hcand.2)
  · rw [setCurrentTerm_of_lt hlt] at h
    exact .inr (hcheck h rfl rfl)
  · cases h
    exact .inl rfl
  · exact .inr (hcheck h rfl (le_antisymm (not_lt.mp hgt) (not_lt.mp hlt)))

end Places

section Steps
variable [DecidableEq ι] {c c' : Cluster ι} {a : Action ι}

/-- Where the entries of a server are from after a step: it had them, it is the leader, or they came
with the message that was delivered. -/
def Comes (c : Cluster ι) (a : Action ι) (i : ι) (me : RaftServer ι) : Prop :=
  me.log = (c.server i).log ∨ me.state = .leader ∨
    ∃ d src ae, a = .deliver d ∧ c.net[d]? = some ⟨src, i, .appendentries ae⟩ ∧
      me.currentTerm = ae.term ∧
        Within (ae.prevLogIdx + ae.entries.length) (c.server i).log me.log

structure Worked (c : Cluster ι) (a : Action ι) (c' : Cluster ι) (i : ι) (me : RaftServer ι) :
    Prop where
  server : c'.server = update c.server i { me with calls := [] }
  net : ∃ l, c'.net = c.net ++ (Cluster.posted i me ++ l) ∧
    ∀ e ∈ l, ∀ ae, e.message ≠ .appendentries ae
  reaching : Reaching me
  term_le : (c.server i).currentTerm ≤ me.currentTerm
  comes : Comes c a i me

/-- What receiving a message does to the log and what is sent. -/
theorem RaftServer.receive_turns {src : ι} {m : Message ι} {r : RaftServer ι × Option (Message ι)}
    (h : me.receive src m = some r) : Turns (· ≠ .post) me r.1 ∧
      (∀ ae, some (.appendentries ae) ≠ r.2) ∧ (r.1.log = me.log ∨ ∃ ae, m = .appendentries ae ∧
        r.1.currentTerm = ae.term ∧
          Within (ae.prevLogIdx + ae.entries.length) me.log r.1.log) := by
  have hturn : ∀ {me' : RaftServer ι}, Turns (· = .term) me me' →
      Turns (· ≠ .post) me me' ∧ me'.log = me.log := fun hw =>
    ⟨hw.mono fun k hk => hk ▸ nofun, hw.log_eq nofun⟩
  cases m with
  | requestvote vr =>
    obtain ⟨x, hx, rfl⟩ := Option.map_eq_some_iff.mp h
    obtain ⟨hw, hlog⟩ := hturn (me.recvRequestvote_does (by rfl) vr |>.still.result hx)
    exact ⟨hw, nofun, .inl hlog⟩
  | requestvoteResponse y =>
    obtain ⟨x, hx, rfl⟩ := Option.map_eq_some_iff.mp h
    obtain ⟨hw, hlog⟩ := hturn ((me.recvRequestvoteResponse_does (by rfl) (some src) y).result hx)
    exact ⟨hw, nofun, .inl hlog⟩
  | appendentries ae =>
    obtain ⟨x, hx, rfl⟩ := Option.map_eq_some_iff.mp h
    refine ⟨(me.recvAppendentries_does nofun nofun (some src) ae).still.result hx, nofun, ?_⟩
    exact (recvAppendentries_within hx).imp_right fun hae => ⟨ae, rfl, hae⟩
  | appendentriesResponse y =>
    obtain ⟨x, hx, rfl⟩ := Option.map_eq_some_iff.mp h
    obtain ⟨hw, hlog⟩ := hturn ((me.recvAppendentriesResponse_does (by rfl) (some src) y).result hx)
    exact ⟨hw, nofun, .inl hlog⟩

/-- A step is a call of one server, or nothing arrives. -/
theorem Cluster.step_works (hcalls : ∀ i, (c.server i).calls = []) (h : c.step a = some c') :
    c' = c ∨ ∃ i me, Worked c a c' i me := by
  cases a with
  | periodic i msec rand =>
    obtain ⟨r, hr, rfl⟩ := Option.map_eq_some_iff.mp h
    have hw : Turns (· = .term) (c.server i) r.1 :=
      ((c.server i).periodic_does (by rfl) msec rand).result hr
    exact .inr ⟨i, r.1, rfl, ⟨[], by simp, by simp⟩, hw.reaching nofun (hcalls i), hw.term_le,
      .inl (hw.log_eq nofun)⟩
  | entry i ety =>
    obtain ⟨r, hr, rfl⟩ := Option.map_eq_some_iff.mp h
    have hw : Turns (· = .log) (c.server i) r.1 :=
      ((c.server i).recvEntry_does (by rfl) ety).result hr
    refine .inr ⟨i, r.1, rfl, ⟨[], by simp, by simp⟩, hw.reaching nofun (hcalls i), hw.term_le, ?_⟩
    rcases eq_or_ne (c.server i).state .leader with hlead | hno
    · exact .inr (.inl ((hw.state_eq nofun).trans hlead))
    · left
      rw [RaftServer.raftRecvEntry] at hr
      split_ifs at hr <;> cases hr <;> rfl
  | deliver k =>
    rw [step] at h
    split at h
    · cases h
      exact .inl rfl
    · next e he =>
      obtain ⟨r, hr, rfl⟩ := Option.map_eq_some_iff.mp h
      obtain ⟨hw, hanswer, hlog⟩ := RaftServer.receive_turns hr
      refine .inr ⟨e.dst, r.1, rfl, ⟨_, List.append_assoc .., ?_⟩, hw.reaching (· rfl) (hcalls _),
        hw.term_le, ?_⟩
      · intro e' he' ae
        obtain ⟨m, hm, rfl⟩ := List.mem_map.mp he'
        rintro rfl
        exact hanswer ae (Option.mem_toList.mp hm).symm
      · rcases hlog with hsame | ⟨ae, hae, hterm, hwithin⟩
        · exact .inl hsame
        · exact .inr (.inr ⟨k, e.src, ae, rfl, hae ▸ he, hterm, hwithin⟩)

end Steps

end KirinFS.Raft
