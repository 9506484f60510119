import KirinFS.Foundation.Signed
import KirinFS.Foundation.Loops
import Mathlib.Data.List.Infix

/-! # Keeping a node alive

`service_node_keep_alive` computes one deadline and pings the node whenever a
wait for it times out. It unlocks the mutex inside the loop, so from the second
turn on POSIX leaves the wait undefined; here a wait may end with anything. The
`write` of a ping gets a character constant as its buffer and may fail.
-/

namespace KirinFS.Mgmt
open Foundation.Signed Foundation.Loops

/-- `struct timespec` with `time_t` of 64 bits. -/
structure Timespec where
  tvSec : ℤ
  tvNsec : ℤ
deriving DecidableEq

def Timespec.ns (tm : Timespec) : ℤ := tm.tvSec * 1000000000 + tm.tvNsec

def tmToNs (o : Overflow) (tm : Timespec) : Option ℤ := do
  let sec ← signed o 64 (tm.tvSec * 1000000000)
  signed o 64 (sec + tm.tvNsec)

def nsToTm (o : Overflow) (ns : ℤ) : Option Timespec := do
  let tvSec := ns.tdiv 1000000000
  let sec ← signed o 64 (tvSec * 1000000000)
  let tvNsec ← signed o 64 (ns - sec)
  return ⟨tvSec, tvNsec⟩

/-- `end_tm`; the product with `timeout_ms` is an `int`. -/
def endTm (o : Overflow) (timeoutMs : ℤ) (startTm : Timespec) : Option Timespec := do
  let ns ← tmToNs o startTm
  let timeout ← signed o 32 (timeoutMs * 1000000)
  let ns ← signed o 64 (ns + timeout)
  nsToTm o ns

def timeoutMs : ℤ := 2500

section Deadline

/-- What `clock_gettime` returns: nanoseconds below a second, and a time that fits in 63 bits. -/
structure StartTime extends Timespec where
  sec_nonneg : 0 ≤ tvSec
  nsec_nonneg : 0 ≤ tvNsec
  nsec_lt : tvNsec < 1000000000
  ns_lt : toTimespec.ns < 2 ^ 63

/-- The deadline is exactly `timeout` milliseconds after the start. -/
def DeadlineExact (o : Overflow) (timeout : ℤ) (startTm : Timespec) : Prop :=
  ∃ tm, endTm o timeout startTm = some tm ∧ tm.ns = startTm.ns + timeout * 1000000 ∧
    0 ≤ tm.tvNsec ∧ tm.tvNsec < 1000000000

variable {o : Overflow} {ns timeout : ℤ}

theorem tmToNs_eq (start : StartTime) : tmToNs o start.toTimespec = some start.ns := by
  obtain ⟨⟨tvSec, tvNsec⟩, hsec, hnsec, -, hns⟩ := start
  simp only [Timespec.ns] at hsec hnsec hns ⊢
  norm_num at hns
  have hprod : Fits 64 (tvSec * 1000000000) := fits_long.mpr (by omega)
  have hsum : Fits 64 (tvSec * 1000000000 + tvNsec) := fits_long.mpr (by omega)
  simp only [tmToNs, signed_of_fits hprod, Option.bind_eq_bind, Option.bind_some]
  exact signed_of_fits hsum

/-- The division rounds to zero, so the way back never overflows. -/
theorem nsToTm_eq (h : Fits 64 ns) : ∃ tm, nsToTm o ns = some tm ∧ tm.ns = ns ∧
    (0 ≤ ns → 0 ≤ tm.tvNsec ∧ tm.tvNsec < 1000000000) := by
  obtain ⟨hlow, hhigh⟩ := fits_long.mp h
  have hback := Int.mul_tdiv_add_tmod ns 1000000000
  have hrem : (ns.tmod 1000000000).natAbs < 1000000000 := by
    rw [Int.natAbs_tmod]
    exact Nat.mod_lt _ (by decide)
  have hsign : 0 ≤ ns → 0 ≤ ns.tmod 1000000000 := Int.tmod_nonneg 1000000000
  have hneg : ns ≤ 0 → ns.tmod 1000000000 ≤ 0 := fun h => by
    have hpos := Int.tmod_nonneg 1000000000 (show 0 ≤ -ns by omega)
    rw [Int.neg_tmod] at hpos
    omega
  have hprod : Fits 64 (ns.tdiv 1000000000 * 1000000000) := fits_long.mpr (by omega)
  have hdiff : Fits 64 (ns - ns.tdiv 1000000000 * 1000000000) := fits_long.mpr (by omega)
  refine ⟨⟨ns.tdiv 1000000000, ns - ns.tdiv 1000000000 * 1000000000⟩, ?_, ?_, ?_⟩
  · simp only [nsToTm, signed_of_fits hprod, signed_of_fits hdiff, Option.bind_eq_bind,
      Option.bind_some, Option.pure_def]
  · simp only [Timespec.ns]
    omega
  · intro h
    have hge := hsign h
    simp only
    omega

/-- The deadline lies as far ahead as the product says. -/
theorem endTm_eq (start : StartTime) {t : ℤ} (ht : signed o 32 (timeout * 1000000) = some t)
    (hfits : Fits 64 (start.ns + t)) :
    ∃ tm, endTm o timeout start.toTimespec = some tm ∧ tm.ns = start.ns + t ∧
      (0 ≤ start.ns + t → 0 ≤ tm.tvNsec ∧ tm.tvNsec < 1000000000) := by
  have hrun : endTm o timeout start.toTimespec = nsToTm o (start.ns + t) := by
    simp only [endTm, tmToNs_eq, ht, signed_of_fits hfits, Option.bind_eq_bind, Option.bind_some]
  rw [hrun]
  exact nsToTm_eq hfits

theorem StartTime.ns_nonneg (start : StartTime) : 0 ≤ start.ns := by
  have hsec := start.sec_nonneg
  have hnsec := start.nsec_nonneg
  rw [Timespec.ns]
  omega

theorem deadlineExact_of_fits (start : StartTime) (hpos : 0 ≤ timeout)
    (hint : Fits 32 (timeout * 1000000)) (hend : start.ns + timeout * 1000000 < 2 ^ 63) :
    DeadlineExact o timeout start.toTimespec := by
  have hnonneg := start.ns_nonneg
  norm_num at hend
  have hfits : Fits 64 (start.ns + timeout * 1000000) := fits_long.mpr (by omega)
  obtain ⟨tm, hrun, hns, hrange⟩ := endTm_eq start (signed_of_fits hint) hfits
  exact ⟨tm, hrun, hns, hrange (by omega)⟩

theorem timeoutMs_not_fits : ¬Fits 32 (timeoutMs * 1000000) := by
  decide

/-- The product with 2500 milliseconds overflows whatever the start is. Any timeout whose product
fits an `int` gives the exact deadline. -/
theorem deadline_never_exact (o : Overflow) (start : StartTime) :
    ¬DeadlineExact o timeoutMs start.toTimespec ∧
      ∀ timeout, 0 ≤ timeout → Fits 32 (timeout * 1000000) →
        start.ns + timeout * 1000000 < 2 ^ 63 → DeadlineExact o timeout start.toTimespec := by
  refine ⟨?_, fun _ => deadlineExact_of_fits start⟩
  rintro ⟨tm, hrun, hns, -⟩
  cases hprod : signed o 32 (timeoutMs * 1000000) with
  | none =>
    simp [endTm, tmToNs_eq, hprod] at hrun
  | some t =>
    have hne : t ≠ timeoutMs * 1000000 := by
      rintro rfl
      exact signed_ne (by decide) timeoutMs_not_fits hprod
    have hwrapped : t = -1794967296 := by
      cases o with
      | undefined => cases hprod
      | wraps =>
        cases hprod
        decide
    have hlt := start.ns_lt
    have hnonneg := start.ns_nonneg
    have hfits : Fits 64 (start.ns + t) := fits_long.mpr (by norm_num at hlt; omega)
    obtain ⟨tm', hrun', hns', -⟩ := endTm_eq start hprod hfits
    rw [hrun] at hrun'
    cases hrun'
    omega

def hundredSeconds : StartTime := ⟨⟨100, 0⟩, by decide, by decide, by decide, by decide⟩

/-- With wrapping products the deadline lies before the start. -/
theorem deadline_before_start :
    endTm .undefined timeoutMs ⟨100, 0⟩ = none ∧
      endTm .wraps timeoutMs ⟨100, 0⟩ = some ⟨98, 205032704⟩ ∧
      ¬∀ (o : Overflow) (start : StartTime), DeadlineExact o timeoutMs start.toTimespec := by
  refine ⟨by decide, by decide, fun h => ?_⟩
  obtain ⟨tm, hrun, -⟩ := h .undefined hundredSeconds
  have hnone : endTm .undefined timeoutMs hundredSeconds.toTimespec = none := by decide
  rw [hnone] at hrun
  cases hrun

end Deadline

section Pings

def serviceNodePingFailCnt : BitVec 64 := 3

/-- The results of the `write` and the `read` of one ping. -/
structure Ping where
  written : ℤ
  got : ℤ
deriving DecidableEq

/-- One byte has to go out and one has to come back. -/
def Ping.failed (p : Ping) : Prop := p.written ≠ 1 ∨ p.got ≠ 1

instance : DecidablePred Ping.failed := fun _ => inferInstanceAs (Decidable (_ ∨ _))

/-- What a wait ends with. The ping of a timeout is made only if the loop goes on. -/
inductive Wakeup
  | other
  | timedOut (ping : Ping)

def Wakeup.ping : Wakeup → Option Ping
  | .other => none
  | .timedOut p => some p

/-- `turn` counts the waits and `pings` keeps what was made. -/
structure KeepAlive where
  failCnt : BitVec 64
  turn : ℕ
  pings : List Ping

/-- One turn of the loop, whose waits end as `wakeups` says. The results of a ping are dropped. -/
def keepAliveTurn (wakeups : ℕ → Wakeup) (s : KeepAlive) : Option (KeepAlive ⊕ List Ping) :=
  match wakeups s.turn with
  | .timedOut p =>
    if s.failCnt = serviceNodePingFailCnt then some (.inr s.pings)
    else some (.inl { s with turn := s.turn + 1, pings := s.pings ++ [p] })
  | .other => some (.inl { s with turn := s.turn + 1 })

/-- The loop of `service_node_keep_alive` and the pings it made. -/
def serviceNodeKeepAlive (wakeups : ℕ → Wakeup) (fuel : ℕ) : Option (List Ping) :=
  loop (keepAliveTurn wakeups) fuel ⟨0, 0, []⟩

/-- As many pings as `SERVICE_NODE_PING_FAIL_CNT` says, all failed. -/
def AllFailed (run : List Ping) : Prop :=
  run.length = serviceNodePingFailCnt.toNat ∧ ∀ p ∈ run, p.failed

def pingsOf (wakeups : ℕ → Wakeup) (k : ℕ) : List Ping :=
  (List.range k).filterMap fun i => (wakeups i).ping

/-- Some pings in a row fail, enough of them to give the node up. -/
def FailsInARow (wakeups : ℕ → Wakeup) : Prop :=
  ∃ k run, run <:+: pingsOf wakeups k ∧ AllFailed run

/-- The loop gives up as soon as enough pings in a row have failed, and not before. -/
structure GivesUp (wakeups : ℕ → Wakeup) : Prop where
  ends : FailsInARow wakeups → ∃ fuel pings, serviceNodeKeepAlive wakeups fuel = some pings
  failed : ∀ fuel pings, serviceNodeKeepAlive wakeups fuel = some pings →
    ∃ run, run <:+ pings ∧ AllFailed run
  at_once : ∀ fuel pings, serviceNodeKeepAlive wakeups fuel = some pings →
    ∀ before, before <+: pings → before ≠ pings → ∀ run, run <:+: before → ¬AllFailed run

variable {wakeups : ℕ → Wakeup}

theorem keepAliveTurn_failCnt {s : KeepAlive} (h : s.failCnt = 0) :
    ∀ x ∈ keepAliveTurn wakeups s, ∃ s', x = .inl s' ∧ s'.failCnt = 0 := by
  intro x hx
  rw [keepAliveTurn] at hx
  cases hwake : wakeups s.turn with
  | other =>
    rw [hwake] at hx
    cases hx
    exact ⟨_, rfl, h⟩
  | timedOut _ =>
    have hne : s.failCnt ≠ serviceNodePingFailCnt := by
      rw [h]
      decide
    rw [hwake] at hx
    simp only [if_neg hne] at hx
    cases hx
    exact ⟨_, rfl, h⟩

theorem keepAlive_endless (fuel : ℕ) : serviceNodeKeepAlive wakeups fuel = none :=
  loop_endless (I := fun s => s.failCnt = 0) (fun _ h => keepAliveTurn_failCnt h) rfl fuel

/-- The loop does what is expected of it where there is nothing to give up. -/
theorem givesUp_iff (wakeups : ℕ → Wakeup) : GivesUp wakeups ↔ ¬FailsInARow wakeups := by
  constructor
  · intro h hfails
    obtain ⟨fuel, pings, hends⟩ := h.ends hfails
    rw [keepAlive_endless] at hends
    cases hends
  · intro h
    have hnone : ∀ fuel pings, serviceNodeKeepAlive wakeups fuel ≠ some pings := by
      intro fuel pings hends
      rw [keepAlive_endless] at hends
      cases hends
    exact ⟨fun hfails => absurd hfails h, fun _ _ hends => absurd hends (hnone _ _),
      fun _ _ hends => absurd hends (hnone _ _)⟩

/-- A node that answers nothing at all is pinged for ever. -/
theorem silent_node_not_givesUp : ¬GivesUp fun _ => .timedOut ⟨-1, -1⟩ := by
  intro h
  obtain ⟨fuel, pings, hends⟩ := h.ends
    ⟨3, _, List.infix_refl _, by decide, by decide⟩
  have hnone := @keepAlive_endless (fun _ => .timedOut ⟨-1, -1⟩) fuel
  rw [hnone] at hends
  cases hends

end Pings

end KirinFS.Mgmt
