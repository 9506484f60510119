import KirinFS.Raft.Sends

/-! # A follower and the entries of its leader

A message from the leader holds a stretch of the leader's log up to its end.
The phases of the handler bring the log of the server to begin with all of it.
-/

namespace KirinFS.Raft
open Foundation.Consensus Foundation.Shadows

variable {ι : Type} [Fintype ι] [DecidableEq ι] {careful : Prop} {pl : Place ι}
  {w w' : World ι RaftEntry} {me me' : RaftServer ι} {ae : MsgAppendentries} {S : List RaftEntry}

/-- A message without entries, unless it is refused, cuts nothing of its own term off. -/
def RaftServer.Spares (me : RaftServer ι) (ae : MsgAppendentries) : Prop :=
  me.currentTerm ≤ ae.term → ae.entries = [] → 0 < ae.prevLogIdx →
    ae.prevLogIdx + 1 < me.log.length → ∀ e ∈ me.log.drop ae.prevLogIdx, e.term ≠ ae.term

instance (me : RaftServer ι) (ae : MsgAppendentries) : Decidable (me.Spares ae) := by
  unfold RaftServer.Spares
  infer_instance

/-- A follower in the term of a genuine message; `S` is the leader's log up to the message's end. -/
structure Heeds (careful : Prop) (pl : Place ι) (w : World ι RaftEntry) (me : RaftServer ι)
    (ae : MsgAppendentries) (S : List RaftEntry) : Prop where
  serves : Serves careful pl w me
  state : me.state.role = .follower
  term : me.currentTerm = ae.term
  stretch : ∃ R, ae.Genuine careful w R ∧ S = R.log.take ae.prevLogIdx ++ ae.entries

namespace Heeds

theorem moves (h : Heeds careful pl w me ae S) (hf : Follows careful pl.self w w')
    (hserve : Serves careful pl w' me') (hstate : me'.state = me.state)
    (hterm : me'.currentTerm = me.currentTerm) : Heeds careful pl w' me' ae S where
  serves := hserve
  state := by rw [hstate, h.state]
  term := by rw [hterm, h.term]
  stretch := by
    obtain ⟨R, hR, rfl⟩ := h.stretch
    obtain ⟨l, hl⟩ := hf.grows.reign _ _ hR.reign
    obtain ⟨R', hR', -⟩ := hR.grows hf.grows
    obtain rfl : { R with log := R.log ++ l } = R' := by
      rw [← Option.some.injEq, ← hl, hR'.reign]
    exact ⟨_, hR', by rw [List.take_append_of_le_length hR.prev]⟩

variable (h : Heeds careful pl w me ae S)
include h

omit [DecidableEq ι] in
theorem reign : ∃ R, w.reign me.currentTerm = some R ∧ S <+: R.log ∧ R.first.length ≤ S.length ∧
    ae.prevLogIdx ≤ S.length := by
  obtain ⟨R, hR, rfl⟩ := h.stretch
  have hprev : (R.log.take ae.prevLogIdx).length = ae.prevLogIdx := List.length_take_of_le hR.prev
  refine ⟨R, h.term ▸ hR.reign, hR.stretch, ?_, ?_⟩ <;> rw [List.length_append, hprev]
  · exact hR.first
  · omega

omit [DecidableEq ι] in
/-- Where the log has an entry of the same term it begins as the leader's. -/
theorem agree {k : ℕ} {e e' : RaftEntry} (he : me.log[k]? = some e) (he' : S[k]? = some e')
    (hterm : e.term = e'.term) : S.take (k + 1) <+: me.log := by
  obtain ⟨R, hR, hS, -⟩ := h.reign
  have hbacks := h.serves.sound.logs.backs pl.self
  rw [h.serves.log_eq] at hbacks
  have htake := hbacks.take_eq ((h.serves.sound.logs.reign_backs hR).shorten hS) he he' hterm
  exact htake ▸ List.take_prefix ..

/-- Where it has one of another term it is cut, and what is committed stays. -/
theorem cutAt {k : ℕ} {e e' : RaftEntry} (he : me.log[k]? = some e) (he' : S[k]? = some e')
    (hterm : e.term ≠ e'.term) : (careful → me.commitIdx ≤ k) ∧
      ∃ w', Follows careful pl.self w w' ∧ Heeds careful pl w' (me.logDelete (k + 1)) ae S := by
  obtain ⟨R, hR, hS, -⟩ := h.reign
  have hRe : R.log[k]? = some e' := by
    obtain ⟨l, hl⟩ := hS
    rw [← hl, List.getElem?_append_left (List.getElem?_eq_some_iff.mp he').1, he']
  have hcut : Cut RaftEntry.term me.log R me.currentTerm k := .mismatch e e' he hRe hterm
  refine ⟨fun hc => h.serves.commit_le_of_cut hc hR hcut, ?_⟩
  obtain ⟨w', hf, hserve⟩ : ∃ w', Follows careful pl.self w w' ∧
      Serves careful pl w' (me.logDelete (k + 1)) := h.serves.cut h.state hR fun _ => hcut
  exact ⟨w', hf, h.moves hf hserve rfl rfl⟩

/-- The first loop leaves the entries behind a common beginning, and the log ends with it. -/
theorem skipExisting (l : List RaftEntry) (k : ℕ) (hl : l = S.drop k) (hk : k ≤ S.length)
    (hpre : S.take k <+: me.log) :
    Yields (Follows careful pl.self) (¬ careful) w (fun r w' => Heeds careful pl w' r.1 ae S ∧
      ∃ j, k ≤ j ∧ j ≤ S.length ∧ r.2.1 = S.drop j ∧ S.take j <+: r.1.log ∧
        (j = S.length → r.2.2 = j) ∧ (j < S.length → r.1.log.length = j))
      (me.skipExisting (k + 1) k l) := by
  induction l generalizing k with
  | nil =>
    have hend : S.length ≤ k := List.drop_eq_nil_iff.mp hl.symm
    exact .pure .refl ⟨h, k, le_rfl, hk, hl, hpre, fun _ => rfl, fun hlt => by omega⟩
  | cons ety rest ih =>
    have hlt : k < S.length := by
      by_contra hge
      rw [List.drop_eq_nil_iff.mpr (by omega)] at hl
      cases hl
    rw [List.drop_eq_getElem_cons hlt, List.cons.injEq] at hl
    obtain ⟨rfl, rfl⟩ := hl
    have hS : S[k]? = some S[k] := List.getElem?_eq_getElem hlt
    rw [RaftServer.skipExisting, RaftServer.getEntryFromIdx_of_pos (Nat.add_one_pos k),
      Nat.add_sub_cancel]
    rcases hlog : me.log[k]? with _ | existing
    · have hlen := hpre.length_le
      rw [List.length_take_of_le hk] at hlen
      have hend : me.log.length ≤ k := List.getElem?_eq_none_iff.mp hlog
      exact ⟨w, .refl, h, k, le_rfl, hk, (List.drop_eq_getElem_cons hlt).symm, hpre,
        fun heq => absurd heq hlt.ne, fun _ => le_antisymm hend hlen⟩
    · simp only [Option.bind_eq_bind, Option.bind_some]
      split
      · next hne =>
        obtain ⟨hcommit, w', hf, hcut⟩ := h.cutAt hlog hS hne
        split
        · refine ⟨w', hf, hcut, k, le_rfl, hk, (List.drop_eq_getElem_cons hlt).symm, ?_,
            fun heq => absurd heq hlt.ne, fun _ => ?_⟩
          · exact List.prefix_take_iff.mpr ⟨hpre, List.length_take_le ..⟩
          · have hlen := (List.getElem?_eq_some_iff.mp hlog).1
            exact List.length_take_of_le hlen.le
        · next hle => exact fun hc => hle (Nat.lt_succ_of_le (hcommit hc))
      · next heq =>
        refine (ih (k + 1) rfl hlt (h.agree hlog hS (not_not.mp heq))).mono ?_
        rintro r w' - ⟨hr, j, hj, hrest⟩
        exact ⟨hr, j, (Nat.le_succ k).trans hj, hrest⟩

/-- The second loop appends them, unless the log refuses one. -/
theorem pickUpRemainder (l : List RaftEntry) (j ci : ℕ) (hl : l = S.drop j) (hj : j ≤ S.length)
    (hpre : S.take j <+: me.log) (hci : j = S.length → ci = j)
    (hlen : j < S.length → me.log.length = j) :
    ∃ w', Follows careful pl.self w w' ∧
      Heeds careful pl w' (me.pickUpRemainder (j + 1) ci l).1 ae S ∧
      ∀ i ∈ (me.pickUpRemainder (j + 1) ci l).2, i = S.length ∧
        S <+: (me.pickUpRemainder (j + 1) ci l).1.log := by
  induction l generalizing w me j ci with
  | nil =>
    have hend : j = S.length := le_antisymm hj (List.drop_eq_nil_iff.mp hl.symm)
    refine ⟨w, .refl, h, fun i hi => ?_⟩
    obtain rfl : ci = i := by simpa [RaftServer.pickUpRemainder] using hi
    rw [hend, List.take_length] at hpre
    exact ⟨(hci hend).trans hend, hpre⟩
  | cons ety rest ih =>
    have hlt : j < S.length := by
      by_contra hge
      rw [List.drop_eq_nil_iff.mpr (by omega)] at hl
      cases hl
    rw [List.drop_eq_getElem_cons hlt, List.cons.injEq] at hl
    obtain ⟨rfl, rfl⟩ := hl
    have hlog : me.log = S.take j := by
      refine (hpre.eq_of_length ?_).symm
      rw [List.length_take_of_le hj, hlen hlt]
    obtain ⟨R, hR, hS, -⟩ := h.reign
    have hety : me.log ++ [S[j]] <+: R.log := by
      rw [hlog, List.take_append_getElem hlt]
      exact (List.take_prefix ..).trans hS
    obtain ⟨w', hf, hserve⟩ := h.serves.adopt h.state hR hety
    obtain ⟨v, hv⟩ := me.appendEntry_eq S[j]
    rw [RaftServer.pickUpRemainder]
    rw [hv] at hserve ⊢
    split at hserve
    · next hid =>
      rw [if_pos hid]
      exact ⟨w', hf, h.moves hf hserve rfl rfl, by simp⟩
    · next hid =>
      rw [if_neg hid]
      obtain ⟨w'', hf', hheeds, hres⟩ := ih (h.moves hf hserve rfl rfl) (j + 1) (j + 1) rfl hlt
        (by simp [hlog]) (fun _ => rfl) (fun _ => by simp [hlog]; omega)
      exact ⟨w'', hf.trans hf', hheeds, hres⟩

/-- The commit index follows, as far as the leader's log in the message reaches. -/
theorem followCommit (hpre : S <+: me.log) :
    Yields (Follows careful pl.self) (¬ careful) w
      (fun me' w' => Heeds careful pl w' me' ae S ∧ S <+: me'.log)
      (me.followCommit ae.leaderCommit) := by
  obtain ⟨R, hR, hS, -⟩ := h.reign
  obtain ⟨R', hgen, hstretch⟩ := h.stretch
  rw [RaftServer.followCommit]
  split
  · next hlt =>
    rw [RaftServer.raftSetCommitIdx, RaftServer.raftGetCurrentIdx]
    have hle : careful → ae.leaderCommit ≤ S.length := fun hc => by
      rw [hstretch, List.length_append, List.length_take_of_le hgen.prev]
      exact (hgen.commit hc).1
    have hmin : careful →
        min (max me.log.length 1) ae.leaderCommit = ae.leaderCommit := fun hc => by
      have hlen := hpre.length_le
      have hreach := hle hc
      omega
    split
    · obtain ⟨w', hf, hserve⟩ := h.serves.settle
        (k := min (max me.log.length 1) ae.leaderCommit) fun hc => by
        rw [hmin hc]
        refine ⟨hlt.le, ?_⟩
        rcases (hgen.commit hc).2 with hzero | ⟨T, hT, hchosen⟩
        · omega
        · have hacks := (h.serves.sound.safe hc).acks
          have hlogs := h.serves.sound.logs
          obtain ⟨R₀, hR₀, -⟩ := id hchosen
          rw [← h.term] at hT
          refine ⟨T, R₀, hT, hR₀, hchosen, ?_⟩
          have htake := hchosen.prefix_log hlogs hacks hR₀ hR hT
          refine (List.prefix_of_prefix_length_le htake hS ?_).trans hpre
          exact (List.length_take_le ..).trans (hle hc)
      exact ⟨w', hf, h.moves hf hserve rfl rfl, hpre⟩
    · next hnot =>
      intro hc
      rw [hmin hc] at hnot
      exact hnot ⟨hlt.le, (hle hc).trans hpre.length_le⟩
  · exact .pure .refl ⟨h, hpre⟩

/-- A message without entries makes the log end behind the entry before the end of the leader's. -/
theorem cutBehindPrev (hspares : careful → me.Spares ae) (hpre : S.take ae.prevLogIdx <+: me.log) :
    Yields (Follows careful pl.self) (¬ careful) w
      (fun me' w' => Heeds careful pl w' me' ae S ∧ S.take ae.prevLogIdx <+: me'.log)
      (me.cutBehindPrev ae) := by
  obtain ⟨R, hR, hS, hfirst, -⟩ := h.reign
  rw [RaftServer.cutBehindPrev]
  split
  · next hcond =>
    obtain ⟨hnil, hpos, hlong⟩ := hcond
    obtain ⟨R', hgen, hstretch⟩ := h.stretch
    have hlen : S.length = ae.prevLogIdx := by
      rw [hstretch, hnil, List.append_nil, List.length_take_of_le hgen.prev]
    have hcut : careful → Cut RaftEntry.term me.log R me.currentTerm ae.prevLogIdx := fun hc => by
      refine .overlong (hlen ▸ hfirst) ?_
      rw [h.term]
      exact hspares hc h.term.le hnil hpos hlong
    split
    · obtain ⟨w', hf, hserve⟩ : ∃ w', Follows careful pl.self w w' ∧
          Serves careful pl w' (me.logDelete (ae.prevLogIdx + 1)) := h.serves.cut h.state hR hcut
      refine ⟨w', hf, h.moves hf hserve rfl rfl, ?_⟩
      exact List.prefix_take_iff.mpr ⟨hpre, List.length_take_le ..⟩
    · next hle =>
      intro hc
      exact hle (Nat.lt_succ_of_le (h.serves.commit_le_of_cut hc hR (hcut hc)))
  · exact .pure .refl ⟨h, hpre⟩

end Heeds

/-- What is left of a handler: the server at rest, and a genuine response. -/
def Answered (careful : Prop) (pl : Place ι) (src : ι)
    (r : RaftServer ι × ℤ × MsgAppendentriesResponse) (w : World ι RaftEntry) : Prop :=
  Rests careful pl w r.1 ∧ (Message.appendentriesResponse r.2.2).Genuine careful w pl.self src

omit [DecidableEq ι] in
theorem Serves.rests (h : Serves careful pl w me) (hstate : me.state.role = .follower) :
    Rests careful pl w me where
  toServes := h
  tracked hlead := by
    rw [hlead] at hstate
    cases hstate

namespace Heeds
variable {src : ι} {node : Option ι} {term : ℕ}

omit [DecidableEq ι] in
theorem refuse (h : Heeds careful pl w me ae S) (ci : ℕ) :
    Answered careful pl src (me.fail term ci) w :=
  ⟨h.serves.rests h.state, fun hsuccess => by cases hsuccess⟩

theorem takeEntries (h : Heeds careful pl w me ae S) (hspares : careful → me.Spares ae)
    (hterm : term = ae.term) (hpre : S.take ae.prevLogIdx <+: me.log) :
    Yields (Follows careful pl.self) (¬ careful) w (Answered careful pl src)
      (me.takeEntries node ae term) := by
  obtain ⟨R, hgen, hstretch⟩ := h.stretch
  have hprev : (R.log.take ae.prevLogIdx).length = ae.prevLogIdx := List.length_take_of_le hgen.prev
  have hdrop : ae.entries = S.drop ae.prevLogIdx := by
    rw [hstretch, List.drop_append_of_le_length hprev.ge, List.drop_of_length_le hprev.le,
      List.nil_append]
  have hlen : S.length = ae.prevLogIdx + ae.entries.length := by
    rw [hstretch, List.length_append, hprev]
  refine (h.cutBehindPrev hspares hpre).bind Follows.trans fun me₁ w₁ _ ⟨h₁, hpre₁⟩ => ?_
  refine (h₁.skipExisting ae.entries ae.prevLogIdx hdrop (by omega) hpre₁).bind Follows.trans ?_
  rintro ⟨me₂, rest, ci⟩ w₂ - ⟨h₂, j, hprevj, hj, rfl, hpre₂, hci, hend⟩
  have hidx : ae.prevLogIdx + 1 + (ae.entries.length - (S.drop j).length) = j + 1 := by
    rw [List.length_drop]
    omega
  obtain ⟨w₃, hf₃, h₃, hres⟩ := h₂.pickUpRemainder (S.drop j) j ci rfl hj hpre₂ hci hend
  simp only [hidx]
  rcases hpick : me₂.pickUpRemainder (j + 1) ci (S.drop j) with ⟨me₃, _ | i⟩
  · rw [hpick] at h₃
    exact ⟨w₃, hf₃, h₃.refuse _⟩
  · rw [hpick] at h₃ hres
    obtain ⟨rfl, hpre₃⟩ := hres i rfl
    refine Yields.after Follows.trans hf₃ ?_
    refine (h₃.followCommit hpre₃).bind Follows.trans ?_
    rintro me₄ w₄ - ⟨h₄, hpre₄⟩
    obtain ⟨R₄, hR₄, hS₄, -⟩ := h₄.reign
    have htake : R₄.log.take S.length = S := (List.prefix_iff_eq_take.mp hS₄).symm
    obtain ⟨w₅, hf₅, h₅, hacked⟩ := h₄.serves.ack h₄.state hR₄ (m := S.length)
      (htake.symm ▸ hpre₄) hS₄.length_le
    refine ⟨w₅, hf₅, (h₅.aside me₄.timeoutElapsed node me₄.votingCfgChangeLogIdx).rests h₄.state,
      fun _ => ?_⟩
    rw [hterm, ← h₄.term]
    exact hacked

theorem checkPrev (h : Heeds careful pl w me ae S) (hspares : careful → me.Spares ae)
    (hterm : term = ae.term) :
    Yields (Follows careful pl.self) (¬ careful) w (Answered careful pl src)
      (me.checkPrev node ae term) := by
  rw [RaftServer.checkPrev]
  split
  · next hpos =>
    obtain ⟨R, hR, hS, -, hprev⟩ := h.reign
    obtain ⟨R', hgen, hstretch⟩ := h.stretch
    rw [RaftServer.getEntryFromIdx_of_pos hpos]
    rcases hlog : me.log[ae.prevLogIdx - 1]? with _ | e
    · exact ⟨w, .refl, h.refuse _⟩
    · have hlen := (List.getElem?_eq_some_iff.mp hlog).1
      have hlt : ae.prevLogIdx - 1 < S.length := by omega
      have hSe : S[ae.prevLogIdx - 1]? = some S[ae.prevLogIdx - 1] := List.getElem?_eq_getElem hlt
      have hprevTerm : ae.prevLogTerm = (S[ae.prevLogIdx - 1]).term := by
        refine hgen.prevTerm _ hpos ?_
        have hgenS : S <+: R'.log := hstretch ▸ hgen.stretch
        obtain ⟨l, hl⟩ := hgenS
        rw [← hl, List.getElem?_append_left hlt, hSe]
      simp only [Option.bind_eq_bind, Option.bind_some]
      have hshort : ¬ me.raftGetCurrentIdx < ae.prevLogIdx := by
        rw [RaftServer.raftGetCurrentIdx]
        omega
      rw [if_neg hshort]
      split
      · next hne =>
        obtain ⟨hcommit, w', hf, hcut⟩ := h.cutAt hlog hSe (hprevTerm ▸ hne)
        rw [Nat.sub_add_cancel hpos] at hcut
        split
        · exact ⟨w', hf, hcut.refuse _⟩
        · next hle => exact fun hc => hle (by have := hcommit hc; omega)
      · next heq =>
        have hagree := h.agree hlog hSe (hprevTerm ▸ not_not.mp heq)
        rw [Nat.sub_add_cancel hpos] at hagree
        exact h.takeEntries hspares hterm hagree
  · next hzero =>
    refine h.takeEntries hspares hterm ?_
    rw [Nat.eq_zero_of_not_pos hzero]
    exact List.nil_prefix

end Heeds

/-- What a genuine message from another server makes of a server. -/
theorem Rests.recvAppendentries {src : ι} (h : Rests careful pl w me) (hne : src ≠ pl.self)
    (hgen : (Message.appendentries ae).Genuine careful w src pl.self)
    (hspares : careful → me.Spares ae) :
    Yields (Follows careful pl.self) (¬ careful) w (Answered careful pl src)
      (me.raftRecvAppendentries (some src) ae) := by
  obtain ⟨R, hgen, rfl⟩ := hgen
  have haside := h.toServes.aside 0 me.currentLeader me.votingCfgChangeLogIdx
  rw [RaftServer.raftRecvAppendentries]
  split_ifs with hcand hlt hgt
  · obtain ⟨hstate, hterm⟩ := hcand
    have hR : w.reign me.currentTerm = some R := hterm ▸ hgen.reign
    obtain ⟨w', hf, hserve⟩ := haside.giveUp hstate hR
    refine .after Follows.trans hf ?_
    obtain ⟨R', hgen', -⟩ := hgen.grows hf.grows
    exact Heeds.checkPrev ⟨hserve, rfl, hterm, R', hgen', rfl⟩ hspares hterm
  · obtain ⟨w', hf, hserve⟩ := haside.observe hlt
    refine .after Follows.trans hf ?_
    obtain ⟨R', hgen', -⟩ := hgen.grows hf.grows
    rw [RaftServer.setCurrentTerm_of_lt hlt] at hserve ⊢
    refine Heeds.checkPrev ⟨hserve, rfl, rfl, R', hgen', rfl⟩ (fun hc _ => hspares hc hlt.le) rfl
  · exact ⟨w, .refl, { toServes := haside, tracked := h.tracked }, fun hsuccess => by cases hsuccess⟩
  · have hterm : me.currentTerm = ae.term := le_antisymm (not_lt.mp hgt) (not_lt.mp hlt)
    refine Heeds.checkPrev ⟨haside, ?_, hterm, R, hgen, rfl⟩ hspares hterm
    rcases hstate : me.state with _ | _ | _ | _
    · rfl
    · rfl
    · exact absurd ⟨hstate, hterm⟩ hcand
    · obtain ⟨R', hR', hlead, -⟩ := h.sound.elections.leads pl.self (by rw [h.role_eq, hstate]; rfl)
      rw [h.term_eq, hterm, hgen.reign, Option.some.injEq] at hR'
      exact absurd (hR' ▸ hlead) hne

end KirinFS.Raft
