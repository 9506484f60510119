import KirinFS.Foundation.Consensus.Acks

/-! # Leader completeness

What a majority has held is met by every later election. By induction on the
term every later leader begins with it, so that no peer has to give it up.
-/

namespace KirinFS.Foundation.Consensus
open Function

section UpToDate
variable {ι ε : Type*} {stamp : ε → ℕ} {w : World ι ε} {T m b : ℕ} {X Y : List ε} {R : Reign ι ε}

theorem lastStamp_eq {x : ε} (hx : X[X.length - 1]? = some x) : lastStamp stamp X = stamp x := by
  rw [lastStamp, List.getLast?_eq_getElem?, hx]
  rfl

theorem exists_last (hX : 0 < X.length) : ∃ x, X[X.length - 1]? = some x :=
  ⟨_, List.getElem?_eq_getElem (by omega)⟩

/-- A log that is at least as up to date as one with the entries up to an own entry of the leader
of `T` has them too, if the leaders that wrote it began with them. -/
theorem UpToDate.carries (hup : UpToDate stamp X Y) (hL : Logs stamp w) (hX : Backs stamp w X)
    (hY : Backs stamp w Y) (hR : w.reign T = some R) (hfirst : R.first.length < m)
    (hm : m ≤ R.log.length) (hpre : R.log.take m <+: X) (hb : ∀ e ∈ Y, stamp e ≤ b)
    (hag : Agrees w T m b) : R.log.take m <+: Y := by
  have hlen : (R.log.take m).length = m := by
    rw [List.length_take]
    omega
  have hmX := hpre.length_le
  have hXm : X[m - 1]? = some R.log[m - 1] := by
    rw [List.prefix_iff_getElem?.mp hpre (m - 1) (by omega), List.getElem_take]
  have hown := hL.stamp_eq hR (k := m - 1) (by omega) (List.getElem?_eq_getElem (by omega))
  obtain ⟨x, hx⟩ := exists_last (X := X) (by omega)
  have hTx : T ≤ lastStamp stamp X := by
    rw [lastStamp_eq hx, ← hown]
    exact hL.sorted hX hXm hx (by omega)
  have hpos : 0 < Y.length := by
    rcases hup with hlt | ⟨-, hle⟩
    · by_contra hzero
      rw [List.length_eq_zero_iff.mp (by omega : Y.length = 0)] at hlt
      exact absurd hlt (Nat.not_lt_zero _)
    · omega
  obtain ⟨y, hy⟩ := exists_last hpos
  obtain ⟨R₁, hR₁, hYlog⟩ := hY _ y hy
  rw [Nat.sub_add_cancel hpos, List.take_length] at hYlog
  have hlast : lastStamp stamp Y = stamp y := lastStamp_eq hy
  have hTy : T ≤ stamp y := by
    rcases hup with hlt | ⟨heq, -⟩ <;> omega
  rcases hTy.eq_or_lt with heq | hlt
  · -- both logs end in the term `T`, and the longer one has the shorter one's entries
    have hle : X.length ≤ Y.length := by
      rcases hup with hlt | ⟨-, hle⟩ <;> omega
    obtain rfl : R = R₁ := by
      rw [← heq, hR, Option.some.injEq] at hR₁
      exact hR₁
    exact List.prefix_of_prefix_length_le (List.take_prefix ..) hYlog (by omega)
  · -- the leader that wrote the last entry of `Y` began with them
    have hbegin := hag R hR _ R₁ hlt (hb y (List.mem_of_getElem? hy)) hR₁
    obtain ⟨l, hlog, -⟩ := hL.reign_own _ R₁ hR₁
    have hbehind : R₁.first.length ≤ Y.length - 1 := by
      by_contra hin
      have hin' : R₁.first[Y.length - 1]? = some y := by
        have hlogy : R₁.log[Y.length - 1]? = some y := by
          rw [List.prefix_iff_getElem?.mp hYlog _ (by omega), ← hy]
          exact (List.getElem?_eq_getElem (by omega)).symm
        rwa [hlog, List.getElem?_append_left (by omega)] at hlogy
      have hbound := (hL.stood_bound _ _ _ (hL.reign_stood _ R₁ hR₁)).2 y
        (List.mem_of_getElem? hin')
      exact lt_irrefl _ hbound
    have hle := hbegin.length_le
    refine List.prefix_of_prefix_length_le (hbegin.trans ?_) hYlog (by omega)
    rw [hlog]
    exact List.prefix_append ..

end UpToDate

variable {ι ε : Type*} [Fintype ι] [DecidableEq ι] {stamp : ε → ℕ} {w w' : World ι ε} {T k m : ℕ}

section Elected
variable (hL : Logs stamp w) (hA : Acks w)
include hL hA

/-- Every later leader begins with what a majority has held, if the leader of `T` has written the
last of it. -/
theorem agrees_of_majority {R : Reign ι ε} {Q : Finset ι} (hR : w.reign T = some R)
    (hfirst : R.first.length < m) (hm : m ≤ R.log.length) (hQ : Majority Q)
    (hacked : ∀ u ∈ Q, w.acked u T m) (b : ℕ) : Agrees w T m b := by
  induction b with
  | zero =>
    intro _ _ T' _ hlt hle
    omega
  | succ b ih =>
    intro R₀ hR₀ T' R' hlt hle hR'
    rcases Nat.lt_or_ge T' (b + 1) with hb | hb
    · exact ih R₀ hR₀ T' R' hlt (by omega) hR'
    · obtain rfl : T' = b + 1 := by omega
      obtain rfl : R = R₀ := by rwa [hR, Option.some.injEq] at hR₀
      have hstood := hL.reign_stood _ R' hR'
      obtain ⟨Q', hQ', hvotes⟩ := hA.elected _ R' hR'
      obtain ⟨u, hu, hu'⟩ := hQ.meet hQ'
      rcases hvotes u hu' with rfl | ⟨X, hX, hcarry⟩
      · exact hA.stood _ T m _ _ (hacked _ hu) hstood hlt R hR ih
      · obtain ⟨Y, hY, hup⟩ := hL.granted_stood _ _ _ _ hX
        obtain rfl := hL.stood_once _ _ _ _ hY hstood
        have hpre := hcarry T m (hacked u hu) hlt R hR ih
        refine hup.carries hL (hL.granted_backs _ _ _ _ hX) (hL.stood_backs _ _ _ hstood) hR hfirst
          hm hpre ?_ ih
        intro e he
        have hbound := (hL.stood_bound _ _ _ hstood).2 e he
        omega

/-- Leader completeness: what is chosen is where every later leader begins. -/
theorem Chosen.agrees (hk : Chosen w T k) (b : ℕ) : Agrees w T k b := by
  obtain ⟨R, hR, m, hkm, hfirst, hm, Q, hQ, hacked⟩ := hk
  intro R₀ hR₀ T' R' hlt hle hR'
  obtain rfl : R = R₀ := by rwa [hR, Option.some.injEq] at hR₀
  have hag := agrees_of_majority hL hA hR hfirst hm hQ hacked b
  exact (List.take_prefix_take_left hkm).trans (hag R hR T' R' hlt hle hR')

/-- What is chosen under one leader is in the log of each later one. -/
theorem Chosen.prefix_log {T₀ : ℕ} {R R₀ : Reign ι ε} (hk : Chosen w T k) (hR : w.reign T = some R)
    (hR₀ : w.reign T₀ = some R₀) (hT : T ≤ T₀) : R.log.take k <+: R₀.log :=
  (hk.agrees hL hA T₀).prefix_log hL hR hR₀ hT le_rfl

end Elected

omit [DecidableEq ι] in
theorem Chosen.length_le {R : Reign ι ε} (hk : Chosen w T k) (hR : w.reign T = some R) :
    k ≤ R.log.length := by
  obtain ⟨R₀, hR₀, m, hkm, -, hm, -⟩ := hk
  obtain rfl : R = R₀ := by rwa [hR, Option.some.injEq] at hR₀
  omega

omit [DecidableEq ι] in
theorem Chosen.grows (hk : Chosen w T k) (hg : Grows w w') : Chosen w' T k := by
  obtain ⟨R, hR, m, hkm, hfirst, hm, Q, hQ, hacked⟩ := hk
  obtain ⟨l, hl⟩ := hg.reign T R hR
  refine ⟨_, hl, m, hkm, hfirst, ?_, Q, hQ, fun u hu => hg.acked u T m (hacked u hu)⟩
  rw [List.length_append]
  omega

/-- The commit index of a peer covers entries that are chosen and in its log. -/
def Commits (w : World ι ε) : Prop :=
  ∀ i, (w.peer i).commit = 0 ∨ ∃ T R, T ≤ (w.peer i).term ∧ w.reign T = some R ∧
    Chosen w T (w.peer i).commit ∧ R.log.take (w.peer i).commit <+: (w.peer i).log

/-- What is chosen and held stays so: a step that cuts follows a leader that has it. -/
theorem Chosen.kept {R : Reign ι ε} {i : ι} (hk : Chosen w T k) (hE : Elections w)
    (hL : Logs stamp w) (hA : Acks w) (hR : w.reign T = some R) (hT : T ≤ (w.peer i).term)
    (hpre : R.log.take k <+: (w.peer i).log) (hs : Step stamp True w w') :
    T ≤ (w'.peer i).term ∧ Chosen w' T k ∧ ∃ R', w'.reign T = some R' ∧
      R'.log.take k = R.log.take k ∧ R'.log.take k <+: (w'.peer i).log := by
  have hg := hs.grows hE
  obtain ⟨l, hl⟩ := hg.reign T R hR
  have htake : (R.log ++ l).take k = R.log.take k :=
    List.take_append_of_le_length (hk.length_le hR)
  refine ⟨hT.trans (hg.term i), hk.grows hg, _, hl, htake, ?_⟩
  rw [htake]
  exact hs.keeps hL hpre fun R₀ hR₀ => hk.prefix_log hL hA hR hR₀ hT

theorem Commits.step (h : Commits w) (hE : Elections w) (hL : Logs stamp w) (hA : Acks w)
    (hs : Step stamp True w w') : Commits w' := by
  have hg := hs.grows hE
  intro i
  have hkept (hcommit : (w'.peer i).commit = (w.peer i).commit) : (w'.peer i).commit = 0 ∨
      ∃ T R, T ≤ (w'.peer i).term ∧ w'.reign T = some R ∧ Chosen w' T (w'.peer i).commit ∧
        R.log.take (w'.peer i).commit <+: (w'.peer i).log := by
    rw [hcommit]
    refine (h i).imp_right ?_
    rintro ⟨T, R, hT, hR, hk, hpre⟩
    obtain ⟨hT', hk', R', hR', -, hpre'⟩ := hk.kept hE hL hA hR hT hpre hs
    exact ⟨T, R', hT', hR', hk', hpre'⟩
  cases hs with
  | settle j k hk =>
    rcases eq_or_ne i j with rfl | hne
    · right
      obtain ⟨T, R, hT, hR, hk, htake⟩ := hk trivial
      refine ⟨T, R, ?_, hR, ?_, ?_⟩
      · simpa using hT
      · simpa using hk.grows hg
      · simpa using htake
    · exact hkept (by simp [update_of_ne hne])
  | _ =>
    apply hkept
    simp only [World.set_peer, World.noteStood_peer, World.noteGranted_peer, World.noteReign_peer,
      World.noteAcked_peer, update_apply]
    try (split <;> simp_all)

/-- What every world has that steps lead to. -/
structure Safe (stamp : ε → ℕ) (w : World ι ε) : Prop where
  elections : Elections w
  logs : Logs stamp w
  acks : Acks w
  commits : Commits w

omit [DecidableEq ι] in
theorem Safe.start : Safe stamp (World.start : World ι ε) :=
  ⟨.start, .start, .start, fun _ => .inl rfl⟩

theorem Safe.step (h : Safe stamp w) (hs : Step stamp True w w') : Safe stamp w' where
  elections := h.elections.step hs
  logs := h.logs.step h.elections hs
  acks := h.acks.step h.elections h.logs hs
  commits := h.commits.step h.elections h.logs h.acks hs

omit [DecidableEq ι] in
theorem Safe.commit_le (h : Safe stamp w) (i : ι) : (w.peer i).commit ≤ (w.peer i).log.length := by
  rcases h.commits i with hzero | ⟨T, R, -, hR, hk, hpre⟩
  · omega
  · have hle := hpre.length_le
    have hlen := hk.length_le hR
    rw [List.length_take] at hle
    omega

/-- What a peer has as committed is in the log of the leader of its term. -/
theorem Safe.committed_begins (h : Safe stamp w) {i : ι} {R : Reign ι ε}
    (hR : w.reign (w.peer i).term = some R) :
    (w.peer i).log.take (w.peer i).commit <+: R.log := by
  rcases h.commits i with hzero | ⟨T, R₀, hT, hR₀, hk, hpre⟩
  · rw [hzero, List.take_zero]
    exact List.nil_prefix
  · have heq := List.prefix_iff_eq_take.mp hpre
    rw [List.length_take_of_le (hk.length_le hR₀)] at heq
    rw [← heq]
    exact hk.prefix_log h.logs h.acks hR₀ hR hT

/-- Entries that are chosen, in the order of the log. -/
def Settled (w : World ι ε) (X : List ε) : Prop :=
  X = [] ∨ ∃ T R, w.reign T = some R ∧ Chosen w T X.length ∧ X <+: R.log

section Settled
variable {X Y : List ε}

omit [DecidableEq ι] in
theorem Chosen.mono {j : ℕ} (hk : Chosen w T k) (hj : j ≤ k) : Chosen w T j := by
  obtain ⟨R, hR, m, hkm, hrest⟩ := hk
  exact ⟨R, hR, m, hj.trans hkm, hrest⟩

omit [DecidableEq ι] in
theorem Settled.shorten (hY : Settled w Y) (hpre : X <+: Y) : Settled w X := by
  rcases hY with rfl | ⟨T, R, hR, hk, hlog⟩
  · exact .inl (List.prefix_nil.mp hpre)
  · exact .inr ⟨T, R, hR, hk.mono hpre.length_le, hpre.trans hlog⟩

omit [DecidableEq ι] in
theorem Settled.grows (hX : Settled w X) (hg : Grows w w') : Settled w' X := by
  refine hX.imp_right ?_
  rintro ⟨T, R, hR, hk, hlog⟩
  obtain ⟨l, hl⟩ := hg.reign T R hR
  exact ⟨T, _, hl, hk.grows hg, hlog.trans (List.prefix_append ..)⟩

/-- What is chosen under an earlier leader and what is chosen under a later one begin alike. -/
theorem Settled.prefix_or (h : Safe stamp w) (hX : Settled w X) (hY : Settled w Y) :
    X <+: Y ∨ Y <+: X := by
  rcases hX with rfl | ⟨T, R, hR, hk, hXlog⟩
  · exact .inl List.nil_prefix
  rcases hY with rfl | ⟨T', R', hR', hk', hYlog⟩
  · exact .inr List.nil_prefix
  rw [List.prefix_iff_eq_take.mp hXlog, List.prefix_iff_eq_take.mp hYlog]
  rcases Nat.le_total T T' with hT | hT
  · exact List.prefix_or_prefix_of_prefix (hk.prefix_log h.logs h.acks hR hR' hT)
      (List.take_prefix ..)
  · exact List.prefix_or_prefix_of_prefix (List.take_prefix ..)
      (hk'.prefix_log h.logs h.acks hR' hR hT)

end Settled

/-- Entries that are chosen, in the log of the peer. -/
def Keeps (w : World ι ε) (i : ι) (X : List ε) : Prop :=
  X = [] ∨ ∃ T R, T ≤ (w.peer i).term ∧ w.reign T = some R ∧ Chosen w T X.length ∧
    X <+: R.log ∧ X <+: (w.peer i).log

section Keeps
variable {X : List ε} {i : ι}

omit [DecidableEq ι] in
theorem Safe.keeps (h : Safe stamp w) (i : ι) :
    Keeps w i ((w.peer i).log.take (w.peer i).commit) := by
  rcases h.commits i with hzero | ⟨T, R, hT, hR, hk, hpre⟩
  · left
    rw [hzero, List.take_zero]
  · right
    have hlen := List.length_take_of_le (hk.length_le hR)
    have heq := List.prefix_iff_eq_take.mp hpre
    rw [hlen] at heq
    rw [← heq]
    exact ⟨T, R, hT, hR, hlen.symm ▸ hk, List.take_prefix .., hpre⟩

omit [DecidableEq ι] in
theorem Keeps.settled (h : Keeps w i X) : Settled w X := by
  refine h.imp_right ?_
  rintro ⟨T, R, -, hR, hk, hlog, -⟩
  exact ⟨T, R, hR, hk, hlog⟩

/-- The leader of a later term has them, at any time. -/
theorem Keeps.led {T : ℕ} {R : Reign ι ε} (h : Keeps w i X) (hg : Grows w w')
    (hsafe : Safe stamp w') (hR : w'.reign T = some R) (hT : (w.peer i).term ≤ T) :
    X <+: R.log := by
  rcases h with rfl | ⟨T₀, R₀, hT₀, hR₀, hk, hlog, -⟩
  · exact List.nil_prefix
  · obtain ⟨l, hl⟩ := hg.reign T₀ R₀ hR₀
    have hpre := (hk.grows hg).prefix_log hsafe.logs hsafe.acks hl hR (hT₀.trans hT)
    rw [List.take_append_of_le_length (hk.length_le hR₀)] at hpre
    rwa [List.prefix_iff_eq_take.mp hlog]

theorem Keeps.step (h : Keeps w i X) (hsafe : Safe stamp w) (hs : Step stamp True w w') :
    Keeps w' i X := by
  refine h.imp_right ?_
  rintro ⟨T, R, hT, hR, hk, hlog, hpre⟩
  rw [List.prefix_iff_eq_take.mp hlog] at hpre
  obtain ⟨hT', hk', R', hR', htake, hpre'⟩ :=
    hk.kept hsafe.elections hsafe.logs hsafe.acks hR hT hpre hs
  have hX : X = R'.log.take X.length := (List.prefix_iff_eq_take.mp hlog).trans htake.symm
  exact ⟨T, R', hT', hR', hk', List.prefix_iff_eq_take.mpr hX, hX ▸ hpre'⟩

end Keeps

/-- What holds after any steps, and what holds if they have been careful. -/
structure Sound (stamp : ε → ℕ) (careful : Prop) (w : World ι ε) : Prop where
  elections : Elections w
  logs : Logs stamp w
  safe : careful → Safe stamp w

section Sound
variable {careful : Prop}

omit [DecidableEq ι] in
theorem Sound.start : Sound stamp careful (World.start : World ι ε) :=
  ⟨.start, .start, fun _ => .start⟩

theorem Sound.step (h : Sound stamp careful w) (hs : Step stamp careful w w') :
    Sound stamp careful w' where
  elections := h.elections.step hs
  logs := h.logs.step h.elections hs
  safe hc := (h.safe hc).step (eq_true hc ▸ hs)

theorem Sound.steps (h : Sound stamp careful w)
    (hs : Relation.ReflTransGen (Step stamp careful) w w') :
    Sound stamp careful w' ∧ Grows w w' := by
  induction hs with
  | refl => exact ⟨h, .refl w⟩
  | tail _ hs ih => exact ⟨ih.1.step hs, ih.2.trans (hs.grows ih.1.elections)⟩

theorem Sound.keeps {X : List ε} {i : ι} (h : Sound stamp careful w) (hc : careful)
    (hs : Relation.ReflTransGen (Step stamp careful) w w') (hX : Keeps w i X) : Keeps w' i X := by
  induction hs with
  | refl => exact hX
  | tail hs hlast ih =>
    have hsafe := (h.steps hs).1.safe hc
    exact ih.step hsafe (eq_true hc ▸ hlast)

end Sound

end KirinFS.Foundation.Consensus
