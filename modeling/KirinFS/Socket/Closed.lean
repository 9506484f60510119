import KirinFS.Socket.Transfer

/-! # A peer that closes the connection

At the end of a stream `read` returns 0, and the loop of `stl_socket_recv`
calls it again.
-/

namespace KirinFS.Socket
open Foundation.Histories Foundation.Loops

/-- What Linux transfers at most in one call. -/
def maxRwCount : ℕ := 0x7ffff000

variable {σ : Type*}

/-- The peer sends a finite stream in any pieces and closes. `rest` is what is still to come; at its
end `read` returns 0 from then on. -/
structure Closing (read : σ → ℕ → Option (List UInt8) × σ) (rest : σ → List UInt8) : Prop where
  reads : ∀ conn left, 0 < left → ∃ bytes conn', read conn left = (some bytes, conn') ∧
    rest conn = bytes ++ rest conn' ∧ bytes.length ≤ left ∧ bytes.length ≤ maxRwCount ∧
      (bytes = [] → rest conn = [])

/-- The loop ends after finitely many calls of `read`, and `*len` is the number of bytes that they
have returned. -/
def RecvEnds (read : σ → ℕ → Option (List UInt8) × σ) (conn : σ) (buf : List UInt8) (len : ℕ) :
    Prop :=
  ∃ fuel r calls, stlSocketRecv read conn buf len fuel = some r ∧ Calls read conn calls r.conn ∧
    r.len = (arrived calls).length

variable {read : σ → ℕ → Option (List UInt8) × σ} {rest : σ → List UInt8} {conn : σ}
  {buf : List UInt8} {len : ℕ} {calls : List (ℕ × Option (List UInt8))} {s : Receiving σ}

structure Drains (read : σ → ℕ → Option (List UInt8) × σ) (rest : σ → List UInt8) (conn : σ)
    (buf : List UInt8) (len : ℕ) (calls : List (ℕ × Option (List UInt8))) (s : Receiving σ) :
    Prop where
  sound : s.Sound read conn buf len calls
  stream : arrived calls ++ rest s.conn = rest conn
  small : (arrived calls).length < 2 ^ 31

/-- A turn with bytes still wanted: it goes on, unless `total` overflows. -/
theorem Drains.turn (hclose : Closing read rest) (hlen : len < 2 ^ 64) (hbuf : len ≤ buf.length)
    (hs : Drains read rest conn buf len calls s) (hmore : (arrived calls).length < len) :
    recvTurn read len s = none ∧ 2 ^ 31 ≤ len ∨
      ∃ s' calls', recvTurn read len s = some (.inl s') ∧
        Drains read rest conn buf len calls' s' ∧ (s'.left < s.left ∨ rest s.conn = []) := by
  have hat := hs.sound.progress
  obtain ⟨bytes, conn', hcall, hrest, hle, hmax, hend⟩ := hclose.reads s.conn s.left (by
    rw [hat.left]
    omega)
  rw [hat.left] at hle
  have hturn : recvTurn read len s = s.got bytes conn' := by
    rw [recvTurn, hat.toSize_total hlen, if_pos hmore, hcall]
  have hmax : bytes.length < 2 ^ 31 := Nat.lt_of_le_of_lt hmax (by decide)
  rw [hturn]
  by_cases hint : (arrived calls).length + bytes.length < 2 ^ 31
  · right
    obtain ⟨s', hgot, hconn, hsound⟩ := hs.sound.got_some hlen hbuf hcall (by omega) hint
    have harrived : arrived (calls ++ [(s.left, some bytes)]) = arrived calls ++ bytes :=
      arrived_concat ..
    refine ⟨s', _, hgot, ⟨hsound, ?_, ?_⟩, ?_⟩
    · rw [harrived, hconn, List.append_assoc, ← hrest, hs.stream]
    · rw [harrived, List.length_append]
      exact hint
    · rcases Nat.eq_zero_or_pos bytes.length with hzero | hpos
      · exact Or.inr (hend (List.length_eq_zero_iff.mp hzero))
      · left
        rw [hsound.progress.left, harrived, hat.left, List.length_append]
        omega
  · left
    refine ⟨?_, by omega⟩
    have hn : toInt (bytes.length : ℤ) = bytes.length := toInt_natCast hmax
    have hover : Progress.advance { s.toProgress with n := some (bytes.length : ℤ) } bytes.length =
        none := by
      refine if_neg ?_
      simp only [hat.total]
      omega
    rw [Receiving.got]
    split
    · simp only [hn]
      rw [if_neg (by omega), hover, Option.map_none]
    · rfl

theorem Drains.le (hs : Drains read rest conn buf len calls s) :
    (arrived calls).length ≤ (rest conn).length := by
  rw [← hs.stream, List.length_append]
  exact Nat.le_add_right _ _

theorem Drains.start (conn : σ) (buf : List UInt8) (len : ℕ) :
    Drains read rest conn buf len [] ⟨⟨0, len, none⟩, conn, buf⟩ :=
  ⟨Receiving.sound_start conn buf len, rfl, by decide⟩

/-- With too few bytes to come, or too many to count, the loop has no end. -/
theorem recv_endless (hclose : Closing read rest) (hlen : len < 2 ^ 64) (hbuf : len ≤ buf.length)
    (hopen : (rest conn).length < len ∨ 2 ^ 31 ≤ len) (fuel : ℕ) :
    stlSocketRecv read conn buf len fuel = none := by
  rw [stlSocketRecv, Option.map_eq_none_iff]
  refine loop_endless (I := fun s => ∃ calls, Drains read rest conn buf len calls s)
    (fun s hs x hx => ?_) ⟨[], Drains.start conn buf len⟩ fuel
  obtain ⟨calls, hs⟩ := hs
  have hmore : (arrived calls).length < len := by
    have hle := hs.le
    have hsmall := hs.small
    omega
  rcases hs.turn hclose hlen hbuf hmore with ⟨hnone, -⟩ | ⟨s', calls', hnext, hs', -⟩
  · rw [hnone] at hx
    cases hx
  · rw [hnext] at hx
    exact ⟨s', (Option.some.inj hx).symm, calls', hs'⟩

/-- With enough bytes to come every turn gets some of them. -/
theorem drainTurn_spec (hclose : Closing read rest) (hint : len < 2 ^ 31) (hbuf : len ≤ buf.length)
    (hstream : len ≤ (rest conn).length) (s : Receiving σ)
    (hs : ∃ calls, Drains read rest conn buf len calls s) :
    ∃ x, recvTurn read len s = some x ∧
      Advances (fun s => ∃ calls, Drains read rest conn buf len calls s) (·.left)
        (fun s => ∃ calls, Calls read conn calls s.conn ∧
          toSize s.total = (arrived calls).length) s.left x := by
  have hlen : len < 2 ^ 64 := by omega
  obtain ⟨calls, hs⟩ := hs
  have hat := hs.sound.progress
  rcases Nat.eq_or_lt_of_le hat.le with heq | hmore
  · refine ⟨.inr s, ?_, calls, hs.sound.made, hat.toSize_total hlen⟩
    rw [recvTurn, hat.toSize_total hlen, if_neg (by omega)]
  · rcases hs.turn hclose hlen hbuf hmore with ⟨-, hbig⟩ | ⟨s', calls', hnext, hs', hless⟩
    · omega
    · refine ⟨.inl s', hnext, ⟨calls', hs'⟩, hless.resolve_right fun hnil => ?_⟩
      have hlength := congrArg List.length hs.stream
      rw [hnil, List.append_nil] at hlength
      omega

/-- The loop ends just when the stream has as many bytes as are wanted, and they fit an `int`. -/
theorem recv_ends_iff (hclose : Closing read rest) (conn : σ) (hlen : len < 2 ^ 64)
    (hbuf : len ≤ buf.length) :
    RecvEnds read conn buf len ↔ len ≤ (rest conn).length ∧ len < 2 ^ 31 := by
  constructor
  · rintro ⟨fuel, r, calls, hrun, -⟩
    by_contra hopen
    rw [recv_endless hclose hlen hbuf (by omega)] at hrun
    cases hrun
  · rintro ⟨hstream, hint⟩
    obtain ⟨s, ⟨calls, hmade, htotal⟩, hrun⟩ := loop_of_variant _
      (drainTurn_spec hclose hint hbuf hstream) ⟨[], Drains.start conn buf len⟩
    refine ⟨len + 1, ⟨s.conn, s.buf, toSize s.total, s.ret⟩, calls, ?_, hmade, htotal⟩
    rw [stlSocketRecv, hrun _ (Nat.lt_succ_self len), Option.map_some]

section Examples

/-- Three bytes a call of what is still to come, and the end of the stream. -/
def readThree (rest : List UInt8) (left : ℕ) : Option (List UInt8) × List UInt8 :=
  (some (rest.take (min 3 left)), rest.drop (min 3 left))

theorem closing_three : Closing readThree fun rest => rest where
  reads := by
    intro rest left hleft
    refine ⟨_, _, rfl, (List.take_append_drop _ _).symm, ?_, ?_, ?_⟩
    · rw [List.length_take]
      omega
    · rw [List.length_take, maxRwCount]
      omega
    · intro hnil
      have hlength := congrArg List.length hnil
      rw [List.length_take, List.length_nil] at hlength
      exact List.length_eq_zero_iff.mp (by omega)

theorem recv_ends_four : RecvEnds readThree [1, 2, 3, 4, 5] [0, 0, 0, 0] 4 :=
  (recv_ends_iff closing_three [1, 2, 3, 4, 5] (by decide) (by decide)).mpr
    ⟨by decide, by decide⟩

/-- Four bytes are wanted, and the peer closes after two. -/
theorem recv_endless_two : Closing readThree (fun rest => rest) ∧
    ¬ RecvEnds readThree [1, 2] [0, 0, 0, 0] 4 := by
  refine ⟨closing_three, ?_⟩
  rintro ⟨fuel, r, calls, hrun, -⟩
  have hnone : stlSocketRecv readThree [1, 2] [0, 0, 0, 0] 4 fuel = none :=
    recv_endless closing_three (by decide) (by decide) (Or.inl (by decide)) fuel
  rw [hnone] at hrun
  cases hrun

end Examples

end KirinFS.Socket
