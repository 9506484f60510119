import KirinFS.Foundation.Histories
import KirinFS.Foundation.Loops
import Mathlib.Algebra.Group.Int.Defs
import Mathlib.Algebra.Group.Nat.Defs
import Mathlib.Data.Int.Notation
import Mathlib.Data.List.Basic

/-! # Transfers over a socket

`write` and `read` are parameters, which carry the state of the connection from
call to call. An overflow of an `int` and an access outside of the buffer are
undefined.
-/

namespace KirinFS.Socket
open Foundation.Histories Foundation.Loops

/-- The conversion to `size_t`. -/
def toSize (n : ℤ) : ℕ := (n % 2 ^ 64).toNat

/-- The conversion of a `ssize_t` to `int`. -/
def toInt (n : ℤ) : ℤ := n.bmod (2 ^ 32)

/-- The variables of both loops; `n` is not initialised. -/
structure Progress where
  total : ℤ
  left : ℕ
  n : Option ℤ

def Progress.advance (p : Progress) (n : ℤ) : Option Progress :=
  if -(2 ^ 31) ≤ p.total + n ∧ p.total + n < 2 ^ 31 then
    some ⟨p.total + n, toSize (p.left - n), some n⟩
  else none

/-- The return value, which is open if there was no call. -/
def Progress.ret (p : Progress) : Option ℤ := p.n.map fun n => if n = -1 then -1 else 0

section Send
variable {σ : Type*}

structure Sending (σ : Type*) extends Progress where
  conn : σ

/-- What `stl_socket_send` leaves: the connection, `*len` and the return value. -/
structure Sent (σ : Type*) where
  conn : σ
  len : ℕ
  ret : Option ℤ
deriving DecidableEq

/-- The result of `write`, which is -1 or the number of bytes it has taken. -/
def Sending.wrote (s : Sending σ) (r : ℤ × σ) : Option (Sending σ ⊕ Sending σ) :=
  let n := toInt r.1
  let s := { s with n := some n, conn := r.2 }
  if n = -1 then some (.inr s)
  else (s.advance n).map fun p => .inl { s with toProgress := p }

def sendTurn (write : σ → List UInt8 → ℤ × σ) (buf : List UInt8) (len : ℕ) (s : Sending σ) :
    Option (Sending σ ⊕ Sending σ) :=
  if toSize s.total < len then
    if 0 ≤ s.total ∧ s.total + s.left ≤ buf.length then
      s.wrote (write s.conn ((buf.drop s.total.toNat).take s.left))
    else none
  else some (.inr s)

/-- `stl_socket_send` within `fuel` turns of its loop. -/
def stlSocketSend (write : σ → List UInt8 → ℤ × σ) (conn : σ) (buf : List UInt8) (len fuel : ℕ) :
    Option (Sent σ) :=
  (loop (sendTurn write buf len) fuel ⟨⟨0, len, none⟩, conn⟩).map fun s =>
    ⟨s.conn, toSize s.total, s.ret⟩

end Send

section Recv
variable {σ : Type*}

structure Receiving (σ : Type*) extends Progress where
  conn : σ
  buf : List UInt8

/-- What `stl_socket_recv` leaves: the connection, the buffer, `*len` and the return value. -/
structure Received (σ : Type*) where
  conn : σ
  buf : List UInt8
  len : ℕ
  ret : Option ℤ
deriving DecidableEq

/-- The bytes that `read` has stored from `buf + total` on. -/
def Receiving.got (s : Receiving σ) (bytes : List UInt8) (conn : σ) :
    Option (Receiving σ ⊕ Receiving σ) :=
  if 0 ≤ s.total ∧ s.total + bytes.length ≤ s.buf.length then
    let off := s.total.toNat
    let n := toInt bytes.length
    let s := { s with
      n := some n, conn := conn
      buf := s.buf.take off ++ bytes ++ s.buf.drop (off + bytes.length) }
    if n = -1 then some (.inr s)
    else (s.advance n).map fun p => .inl { s with toProgress := p }
  else none

/-- A turn of the loop of `stl_socket_recv`. `read` returns `none` for -1. -/
def recvTurn (read : σ → ℕ → Option (List UInt8) × σ) (len : ℕ) (s : Receiving σ) :
    Option (Receiving σ ⊕ Receiving σ) :=
  if toSize s.total < len then
    match read s.conn s.left with
    | (none, conn) => some (.inr { s with n := some (-1), conn := conn })
    | (some bytes, conn) => s.got bytes conn
  else some (.inr s)

/-- `stl_socket_recv` within `fuel` turns of its loop. -/
def stlSocketRecv (read : σ → ℕ → Option (List UInt8) × σ) (conn : σ) (buf : List UInt8)
    (len fuel : ℕ) : Option (Received σ) :=
  (loop (recvTurn read len) fuel ⟨⟨0, len, none⟩, conn, buf⟩).map fun s =>
    ⟨s.conn, s.buf, toSize s.total, s.ret⟩

end Recv

section Progress

theorem toSize_natCast {n : ℕ} (h : n < 2 ^ 64) : toSize n = n := by
  rw [toSize, Int.emod_eq_of_lt (Int.natCast_nonneg n) (by exact_mod_cast h), Int.toNat_natCast]

theorem toInt_natCast {n : ℕ} (h : n < 2 ^ 31) : toInt n = n :=
  Int.bmod_eq_of_le (by omega) (by omega)

/-- `k` of the `len` bytes have been transferred, and no call has failed. -/
structure Progress.At (p : Progress) (len k : ℕ) : Prop where
  le : k ≤ len
  total : p.total = k
  left : p.left = len - k
  n : p.n = none ∧ k = 0 ∨ ∃ j : ℕ, p.n = some (j : ℤ)

theorem Progress.at_start (len : ℕ) : Progress.At ⟨0, len, none⟩ len 0 :=
  ⟨Nat.zero_le len, rfl, rfl, Or.inl ⟨rfl, rfl⟩⟩

namespace Progress.At
variable {p : Progress} {len k : ℕ}

theorem toSize_total (h : p.At len k) (hlen : len < 2 ^ 64) : toSize p.total = k := by
  rw [h.total, toSize_natCast (Nat.lt_of_le_of_lt h.le hlen)]

theorem advance (h : p.At len k) (hlen : len < 2 ^ 64) {j : ℕ} (hj : k + j ≤ len)
    (hint : k + j < 2 ^ 31) : ∃ p', p.advance j = some p' ∧ p'.At len (k + j) := by
  have hleft : (p.left : ℤ) - j = (len - (k + j) : ℕ) := by
    rw [h.left]
    omega
  have hin : -(2 ^ 31) ≤ p.total + j ∧ p.total + j < 2 ^ 31 := by
    rw [h.total]
    omega
  refine ⟨_, if_pos hin, hj, ?_, ?_, Or.inr ⟨j, rfl⟩⟩
  · rw [h.total, Int.natCast_add]
  · simp only [hleft]
    exact toSize_natCast (by omega)

theorem ret_eq (h : p.At len k) (hk : 0 < k) : p.ret = some 0 := by
  rcases h.n with ⟨-, hzero⟩ | ⟨j, hj⟩
  · omega
  · rw [ret, hj, Option.map_some, if_neg (by omega)]

end Progress.At

end Progress

section Transfers
variable {σ : Type*}

/-- Every call takes some of the bytes, or fails. -/
def WritesSome (write : σ → List UInt8 → ℤ × σ) : Prop :=
  ∀ conn bytes, bytes ≠ [] → (write conn bytes).1 = -1 ∨
    1 ≤ (write conn bytes).1 ∧ (write conn bytes).1 ≤ bytes.length

/-- Every call returns some of the bytes asked for, or fails. -/
def ReadsSome (read : σ → ℕ → Option (List UInt8) × σ) : Prop :=
  ∀ conn left, 0 < left → ∀ bytes ∈ (read conn left).1, bytes ≠ [] ∧ bytes.length ≤ left

def taken (calls : List (List UInt8 × ℤ)) : List UInt8 := calls.flatMap fun c => c.1.take c.2.toNat

def arrived (calls : List (ℕ × Option (List UInt8))) : List UInt8 :=
  calls.flatMap fun c => c.2.getD []

theorem taken_concat (calls : List (List UInt8 × ℤ)) (c : List UInt8 × ℤ) :
    taken (calls ++ [c]) = taken calls ++ c.1.take c.2.toNat := by
  simp [taken]

theorem arrived_concat (calls : List (ℕ × Option (List UInt8))) (c : ℕ × Option (List UInt8)) :
    arrived (calls ++ [c]) = arrived calls ++ c.2.getD [] := by
  simp [arrived]

/-- The calls of `write` were given what was left each time and have taken the first bytes of the
buffer, and the results tell how many. The return value is -1 if the last call has failed. -/
structure SendsStart (write : σ → List UInt8 → ℤ × σ) (conn : σ) (buf : List UInt8) (len : ℕ)
    (calls : List (List UInt8 × ℤ)) (r : Sent σ) : Prop where
  made : Calls write conn calls r.conn
  given : Asks (fun pre => (buf.take len).drop (taken pre).length) calls
  written : taken calls <+: buf.take len
  count : r.len = (taken calls).length
  whole : r.ret = some 0 ↔ taken calls = buf.take len
  failed : r.ret = some (-1) ↔ ∃ c ∈ calls.getLast?, c.2 = -1
  ret : r.ret = some 0 ∨ r.ret = some (-1)

/-- The calls of `read` were asked for what was left each time, what they have returned is at the
start of the buffer, and the results tell how much. The return value is -1 if the last call has
failed. -/
structure ReceivesStart (read : σ → ℕ → Option (List UInt8) × σ) (conn : σ) (buf : List UInt8)
    (len : ℕ) (calls : List (ℕ × Option (List UInt8))) (r : Received σ) : Prop where
  made : Calls read conn calls r.conn
  given : Asks (fun pre => len - (arrived pre).length) calls
  stored : r.buf = arrived calls ++ buf.drop (arrived calls).length
  count : r.len = (arrived calls).length
  whole : r.ret = some 0 ↔ (arrived calls).length = len
  failed : r.ret = some (-1) ↔ ∃ c ∈ calls.getLast?, c.2 = none
  ret : r.ret = some 0 ∨ r.ret = some (-1)

variable {write : σ → List UInt8 → ℤ × σ} {read : σ → ℕ → Option (List UInt8) × σ} {conn : σ}
  {buf : List UInt8} {len : ℕ}

structure Sending.Sound (write : σ → List UInt8 → ℤ × σ) (conn : σ) (buf : List UInt8) (len : ℕ)
    (calls : List (List UInt8 × ℤ)) (s : Sending σ) : Prop where
  progress : s.At len (taken calls).length
  made : Calls write conn calls s.conn
  given : Asks (fun pre => (buf.take len).drop (taken pre).length) calls
  written : taken calls <+: buf.take len
  worked : ∀ c ∈ calls, c.2 ≠ -1

structure Receiving.Sound (read : σ → ℕ → Option (List UInt8) × σ) (conn : σ) (buf : List UInt8)
    (len : ℕ) (calls : List (ℕ × Option (List UInt8))) (s : Receiving σ) : Prop where
  progress : s.At len (arrived calls).length
  made : Calls read conn calls s.conn
  given : Asks (fun pre => len - (arrived pre).length) calls
  stored : s.buf = arrived calls ++ buf.drop (arrived calls).length
  worked : ∀ c ∈ calls, c.2 ≠ none

theorem Sending.sound_start (conn : σ) (buf : List UInt8) (len : ℕ) :
    Sending.Sound write conn buf len [] ⟨⟨0, len, none⟩, conn⟩ :=
  ⟨Progress.at_start len, .start, asks_nil, List.nil_prefix, by simp⟩

theorem Receiving.sound_start (conn : σ) (buf : List UInt8) (len : ℕ) :
    Receiving.Sound read conn buf len [] ⟨⟨0, len, none⟩, conn, buf⟩ :=
  ⟨Progress.at_start len, .start, asks_nil, rfl, by simp⟩

theorem not_failed {α β : Type*} {calls : List (α × β)} {b : β} (h : ∀ c ∈ calls, c.2 ≠ b) :
    ¬ ∃ c ∈ calls.getLast?, c.2 = b := by
  rintro ⟨c, hc, hb⟩
  exact h c (List.mem_of_getLast? hc) hb

section Send
variable {s : Sending σ} {calls : List (List UInt8 × ℤ)}

theorem Sending.Sound.ends (hs : s.Sound write conn buf len calls) (hpos : 0 < len)
    (hlen : len < 2 ^ 31) (hbuf : len ≤ buf.length) (hall : (taken calls).length = len) :
    SendsStart write conn buf len calls ⟨s.conn, toSize s.total, s.ret⟩ := by
  have hret : s.ret = some 0 := hs.progress.ret_eq (by omega)
  have hwhole : taken calls = buf.take len :=
    hs.written.eq_of_length (by rw [hall, List.length_take, Nat.min_eq_left hbuf])
  exact {
    made := hs.made
    given := hs.given
    written := hs.written
    count := hs.progress.toSize_total (by omega)
    whole := iff_of_true hret hwhole
    failed := iff_of_false (by simp [hret]) (not_failed hs.worked)
    ret := .inl hret }

/-- It also ends when a call fails, and then bytes are left. -/
theorem Sending.Sound.fails (hs : s.Sound write conn buf len calls) (hlen : len < 2 ^ 31)
    (hbuf : len ≤ buf.length) (hmore : (taken calls).length < len) {bytes : List UInt8}
    (hbytes : bytes = (buf.take len).drop (taken calls).length)
    (hcall : (write s.conn bytes).1 = -1) :
    SendsStart write conn buf len (calls ++ [(bytes, -1)])
      ⟨(write s.conn bytes).2, toSize s.total, some (-1)⟩ := by
  have hsame : taken (calls ++ [(bytes, -1)]) = taken calls :=
    (taken_concat ..).trans (List.append_nil _)
  have hne : taken calls ≠ buf.take len := by
    intro heq
    rw [heq, List.length_take, Nat.min_eq_left hbuf] at hmore
    exact Nat.lt_irrefl _ hmore
  exact {
    made := hcall ▸ Calls.next hs.made bytes
    given := hs.given.next hbytes
    written := hsame ▸ hs.written
    count := hsame ▸ hs.progress.toSize_total (by omega)
    whole := iff_of_false (by simp) (hsame ▸ hne)
    failed := iff_of_true rfl ⟨_, by rw [List.getLast?_concat]; rfl, rfl⟩
    ret := .inr rfl }

theorem Sending.Sound.wrote_some (hs : s.Sound write conn buf len calls) (hlen : len < 2 ^ 31)
    {bytes : List UInt8} (hbytes : bytes = (buf.take len).drop (taken calls).length) {j : ℕ}
    (hj : (taken calls).length + j ≤ len) (hfit : j ≤ bytes.length)
    (hcall : (write s.conn bytes).1 = j) :
    ∃ s', s.wrote (write s.conn bytes) = some (.inl s') ∧ s'.left = len - (taken calls).length - j ∧
      s'.Sound write conn buf len (calls ++ [(bytes, (j : ℤ))]) := by
  have hint : toInt (j : ℤ) = j := toInt_natCast (by omega)
  obtain ⟨p, hp, hat⟩ := hs.progress.advance (by omega) hj (by omega)
  have hstep : Progress.advance { s.toProgress with n := some (j : ℤ) } j = some p := hp
  have htaken : taken (calls ++ [(bytes, (j : ℤ))]) = taken calls ++ bytes.take j :=
    taken_concat ..
  have hlength : (taken calls ++ bytes.take j).length = (taken calls).length + j := by
    rw [List.length_append, List.length_take, Nat.min_eq_left hfit]
  refine ⟨⟨p, (write s.conn bytes).2⟩, ?_, ?_, ?_⟩
  · simp only [Sending.wrote, hcall, hint]
    rw [if_neg (by omega), hstep, Option.map_some]
  · rw [hat.left, Nat.sub_add_eq]
  · exact {
      progress := by
        rw [htaken, hlength]
        exact hat
      made := hcall ▸ Calls.next hs.made bytes
      given := hs.given.next hbytes
      written := by
        obtain ⟨rest, hrest⟩ := hs.written
        rw [htaken, hbytes, ← hrest, List.drop_left]
        exact (List.prefix_append_right_inj _).mpr (List.take_prefix ..)
      worked := by
        intro c hc
        rcases List.mem_append.mp hc with hc | hc
        · exact hs.worked c hc
        · rw [List.mem_singleton.mp hc]
          show (j : ℤ) ≠ -1
          omega }

theorem sendTurn_spec (hwrite : WritesSome write) (hpos : 0 < len) (hlen : len < 2 ^ 31)
    (hbuf : len ≤ buf.length) (s : Sending σ) (hs : ∃ calls, s.Sound write conn buf len calls) :
    ∃ x, sendTurn write buf len s = some x ∧
      Advances (fun s => ∃ calls, s.Sound write conn buf len calls) (·.left)
        (fun s => ∃ calls, SendsStart write conn buf len calls ⟨s.conn, toSize s.total, s.ret⟩)
        s.left x := by
  obtain ⟨calls, hs⟩ := hs
  have hat := hs.progress
  rw [sendTurn, hat.toSize_total (by omega)]
  rcases Nat.eq_or_lt_of_le hat.le with heq | hlt
  · exact ⟨.inr s, if_neg (by omega), calls, hs.ends hpos hlen hbuf heq⟩
  have hroom : 0 ≤ s.total ∧ s.total + s.left ≤ buf.length := by
    rw [hat.total, hat.left]
    omega
  rw [if_pos hlt, if_pos hroom, hat.total, Int.toNat_natCast, hat.left, ← List.drop_take]
  have hsize : ((buf.take len).drop (taken calls).length).length = len - (taken calls).length := by
    rw [List.length_drop, List.length_take, Nat.min_eq_left hbuf]
  have hcall := hwrite s.conn ((buf.take len).drop (taken calls).length) (by
    rw [← List.length_pos_iff]
    omega)
  rw [hsize] at hcall
  rcases hcall with hfail | ⟨hone, hle⟩
  · refine ⟨.inr ⟨{ s.toProgress with n := some (-1) }, _⟩, ?_, _,
      hs.fails hlen hbuf hlt rfl hfail⟩
    simp only [Sending.wrote, hfail]
    rfl
  · obtain ⟨j, hj⟩ := Int.eq_ofNat_of_zero_le (Int.le_of_lt hone)
    obtain ⟨s', hwrote, hleft, hs'⟩ := hs.wrote_some hlen rfl (j := j) (by omega) (by omega) hj
    refine ⟨_, hwrote, ⟨_, hs'⟩, ?_⟩
    show s'.left < len - (taken calls).length
    omega

theorem send_spec (hwrite : WritesSome write) (hpos : 0 < len) (hlen : len < 2 ^ 31)
    (hbuf : len ≤ buf.length) (conn : σ) :
    ∃ r calls, (∀ fuel, len < fuel → stlSocketSend write conn buf len fuel = some r) ∧
      SendsStart write conn buf len calls r := by
  obtain ⟨s, ⟨calls, hsends⟩, hrun⟩ := loop_of_variant _ (sendTurn_spec hwrite hpos hlen hbuf)
    ⟨[], Sending.sound_start conn buf len⟩
  exact ⟨_, calls, fun fuel hfuel => by rw [stlSocketSend, hrun fuel hfuel, Option.map_some],
    hsends⟩

end Send

section Recv
variable {s : Receiving σ} {calls : List (ℕ × Option (List UInt8))}

theorem Receiving.Sound.ends (hs : s.Sound read conn buf len calls) (hpos : 0 < len)
    (hlen : len < 2 ^ 31) (hall : (arrived calls).length = len) :
    ReceivesStart read conn buf len calls ⟨s.conn, s.buf, toSize s.total, s.ret⟩ := by
  have hret : s.ret = some 0 := hs.progress.ret_eq (by omega)
  exact {
    made := hs.made
    given := hs.given
    stored := hs.stored
    count := hs.progress.toSize_total (by omega)
    whole := iff_of_true hret hall
    failed := iff_of_false (by simp [hret]) (not_failed hs.worked)
    ret := .inl hret }

/-- It also ends when a call fails, and then bytes are missing. -/
theorem Receiving.Sound.fails (hs : s.Sound read conn buf len calls) (hlen : len < 2 ^ 31)
    (hmore : (arrived calls).length < len) {conn' : σ} (hcall : read s.conn s.left = (none, conn')) :
    ReceivesStart read conn buf len (calls ++ [(s.left, none)])
      ⟨conn', s.buf, toSize s.total, some (-1)⟩ := by
  have hsame : arrived (calls ++ [(s.left, none)]) = arrived calls :=
    (arrived_concat ..).trans (List.append_nil _)
  have hnext := Calls.next hs.made s.left
  rw [hcall] at hnext
  exact {
    made := hnext
    given := hs.given.next hs.progress.left
    stored := by rw [hsame]; exact hs.stored
    count := by rw [hsame]; exact hs.progress.toSize_total (by omega)
    whole := iff_of_false (by simp) (by rw [hsame]; exact Nat.ne_of_lt hmore)
    failed := iff_of_true rfl ⟨_, by rw [List.getLast?_concat]; rfl, rfl⟩
    ret := .inr rfl }

/-- The bytes of a call of `read` stand behind those that arrived earlier. -/
theorem Receiving.Sound.got_some (hs : s.Sound read conn buf len calls) (hlen : len < 2 ^ 64)
    (hbuf : len ≤ buf.length) {bytes : List UInt8} {conn' : σ}
    (hcall : read s.conn s.left = (some bytes, conn'))
    (hfit : (arrived calls).length + bytes.length ≤ len)
    (hint : (arrived calls).length + bytes.length < 2 ^ 31) :
    ∃ s', s.got bytes conn' = some (.inl s') ∧ s'.conn = conn' ∧
      s'.Sound read conn buf len (calls ++ [(s.left, some bytes)]) := by
  have hat := hs.progress
  have hn : toInt (bytes.length : ℤ) = bytes.length := toInt_natCast (by omega)
  have hroom : 0 ≤ s.total ∧ s.total + bytes.length ≤ s.buf.length := by
    rw [hat.total, hs.stored, List.length_append, List.length_drop]
    omega
  obtain ⟨p, hp, hat'⟩ := hat.advance hlen hfit hint
  have hstep : Progress.advance { s.toProgress with n := some (bytes.length : ℤ) } bytes.length =
      some p := hp
  have harrived : arrived (calls ++ [(s.left, some bytes)]) = arrived calls ++ bytes :=
    arrived_concat ..
  have hplace : s.buf.take (arrived calls).length ++ bytes ++
      s.buf.drop ((arrived calls).length + bytes.length) =
        (arrived calls ++ bytes) ++ buf.drop (arrived calls ++ bytes).length := by
    rw [hs.stored, List.take_left, ← List.drop_drop, List.drop_left, List.drop_drop,
      List.length_append]
  have hnext := Calls.next hs.made s.left
  rw [hcall] at hnext
  refine ⟨⟨p, conn', (arrived calls ++ bytes) ++ buf.drop (arrived calls ++ bytes).length⟩, ?_, rfl,
    ?_⟩
  · rw [Receiving.got, if_pos hroom]
    simp only [hn, hat.total, Int.toNat_natCast, hplace]
    rw [if_neg (by omega), ← hat.total, hstep, Option.map_some]
  · exact {
      progress := by
        rw [harrived, List.length_append]
        exact hat'
      made := hnext
      given := hs.given.next hat.left
      stored := by rw [harrived]
      worked := by
        intro c hc
        rcases List.mem_append.mp hc with hc | hc
        · exact hs.worked c hc
        · rw [List.mem_singleton.mp hc]
          exact Option.some_ne_none bytes }

theorem recvTurn_spec (hread : ReadsSome read) (hpos : 0 < len) (hlen : len < 2 ^ 31)
    (hbuf : len ≤ buf.length) (s : Receiving σ) (hs : ∃ calls, s.Sound read conn buf len calls) :
    ∃ x, recvTurn read len s = some x ∧
      Advances (fun s => ∃ calls, s.Sound read conn buf len calls) (·.left)
        (fun s => ∃ calls,
          ReceivesStart read conn buf len calls ⟨s.conn, s.buf, toSize s.total, s.ret⟩)
        s.left x := by
  obtain ⟨calls, hs⟩ := hs
  have hat := hs.progress
  rw [recvTurn, hat.toSize_total (by omega)]
  rcases Nat.eq_or_lt_of_le hat.le with heq | hlt
  · exact ⟨.inr s, if_neg (by omega), calls, hs.ends hpos hlen heq⟩
  rw [if_pos hlt]
  have hsome := hread s.conn s.left (by rw [hat.left]; omega)
  rcases hcall : read s.conn s.left with ⟨_ | bytes, conn'⟩
  · exact ⟨.inr _, rfl, _, hs.fails hlen hlt hcall⟩
  · rw [hcall] at hsome
    obtain ⟨hne, hle⟩ := hsome bytes rfl
    rw [hat.left] at hle
    obtain ⟨s', hgot, -, hs'⟩ := hs.got_some (by omega) hbuf hcall (by omega) (by omega)
    have hleft : s'.left < s.left := by
      have hmore := List.length_pos_iff.mpr hne
      rw [hs'.progress.left, hat.left, arrived_concat, List.length_append, Option.getD_some]
      omega
    exact ⟨_, hgot, ⟨_, hs'⟩, hleft⟩

theorem recv_spec (hread : ReadsSome read) (hpos : 0 < len) (hlen : len < 2 ^ 31)
    (hbuf : len ≤ buf.length) (conn : σ) :
    ∃ r calls, (∀ fuel, len < fuel → stlSocketRecv read conn buf len fuel = some r) ∧
      ReceivesStart read conn buf len calls r := by
  obtain ⟨s, ⟨calls, hreceives⟩, hrun⟩ := loop_of_variant _ (recvTurn_spec hread hpos hlen hbuf)
    ⟨[], Receiving.sound_start conn buf len⟩
  exact ⟨_, calls, fun fuel hfuel => by rw [stlSocketRecv, hrun fuel hfuel, Option.map_some],
    hreceives⟩

end Recv

/-- Both transfers end, whatever the pieces, and tell how much has passed. If both succeed and what
arrives is what was written, the receiver has the buffer of the sender. -/
theorem transfer_splits {τ : Type*} {read : τ → ℕ → Option (List UInt8) × τ}
    (hwrite : WritesSome write) (hread : ReadsSome read) (hpos : 1 ≤ len) (hlen : len < 2 ^ 31)
    {buf' : List UInt8} (hbuf : len ≤ buf.length) (hbuf' : len ≤ buf'.length) (conn : σ)
    (conn' : τ) : ∃ sent calls received calls',
      (∀ fuel, len < fuel → stlSocketSend write conn buf len fuel = some sent) ∧
      (∀ fuel, len < fuel → stlSocketRecv read conn' buf' len fuel = some received) ∧
      SendsStart write conn buf len calls sent ∧ ReceivesStart read conn' buf' len calls' received ∧
      (sent.ret = some 0 → received.ret = some 0 → arrived calls' <+: taken calls →
        received.buf = buf.take len ++ buf'.drop len) := by
  obtain ⟨sent, calls, hsend, hs⟩ := send_spec hwrite hpos hlen hbuf conn
  obtain ⟨received, calls', hrecv, hr⟩ := recv_spec hread hpos hlen hbuf' conn'
  refine ⟨sent, calls, received, calls', hsend, hrecv, hs, hr, fun hok hok' hpre => ?_⟩
  have hwritten := hs.whole.mp hok
  have hlength := hr.whole.mp hok'
  have hsame : arrived calls' = buf.take len := by
    rw [← hwritten]
    refine hpre.eq_of_length ?_
    rw [hlength, hwritten, List.length_take, Nat.min_eq_left hbuf]
  rw [hr.stored, hlength, hsame]

end Transfers

section Examples

def writeThree (conn : Unit) (bytes : List UInt8) : ℤ × Unit := (min 3 bytes.length, conn)

/-- Two bytes a call of what is still to come, then failure. -/
def readTwo (rest : List UInt8) (left : ℕ) : Option (List UInt8) × List UInt8 :=
  if rest = [] then (none, rest) else (some (rest.take (min 2 left)), rest.drop (min 2 left))

theorem writesSome_three : WritesSome writeThree := by
  intro conn bytes hne
  have hpos := List.length_pos_iff.mpr hne
  right
  simp only [writeThree]
  omega

theorem readsSome_two : ReadsSome readTwo := by
  intro rest left hleft bytes hbytes
  rw [readTwo] at hbytes
  split at hbytes
  · cases hbytes
  · next hne =>
    obtain rfl := Option.some.inj hbytes
    have hpos := List.length_pos_iff.mpr hne
    rw [← List.length_pos_iff, List.length_take]
    omega

/-- Five bytes, in pieces of three and of two. -/
theorem transfer_splits_five : ∃ sent calls received calls',
    stlSocketSend writeThree () [1, 2, 3, 4, 5] 5 6 = some sent ∧
    stlSocketRecv readTwo [1, 2, 3, 4, 5] [0, 0, 0, 0, 0, 9] 5 6 = some received ∧
    taken calls = [1, 2, 3, 4, 5] ∧ arrived calls' = [1, 2, 3, 4, 5] ∧
    sent.ret = some 0 ∧ received.ret = some 0 ∧ received.buf = [1, 2, 3, 4, 5, 9] := by
  have hbuf : 5 ≤ ([1, 2, 3, 4, 5] : List UInt8).length := Nat.le_refl 5
  have hbuf' : 5 ≤ ([0, 0, 0, 0, 0, 9] : List UInt8).length := Nat.le_succ 5
  obtain ⟨sent, calls, received, calls', hsend, hrecv, hstart, hstart', hsame⟩ :=
    transfer_splits writesSome_three readsSome_two (by decide) (by decide) hbuf hbuf' ()
      [1, 2, 3, 4, 5]
  have hs : stlSocketSend writeThree () [1, 2, 3, 4, 5] 5 6 = some ⟨(), 5, some 0⟩ := by
    decide +kernel
  have hr : stlSocketRecv readTwo [1, 2, 3, 4, 5] [0, 0, 0, 0, 0, 9] 5 6 =
    some ⟨[], [1, 2, 3, 4, 5, 9], 5, some 0⟩ := by decide +kernel
  obtain rfl := Option.some.inj ((hsend 6 (by decide)).symm.trans hs)
  obtain rfl := Option.some.inj ((hrecv 6 (by decide)).symm.trans hr)
  have htaken : taken calls = [1, 2, 3, 4, 5] := hstart.whole.mp rfl
  have harrived : arrived calls' = [1, 2, 3, 4, 5] := by
    have hstored := hstart'.stored
    rw [hstart'.whole.mp rfl] at hstored
    exact (List.append_inj_left' hstored rfl).symm
  have hboth : arrived calls' = taken calls := harrived.trans htaken.symm
  exact ⟨_, calls, _, calls', hs, hr, htaken, harrived, rfl, rfl,
    hsame rfl rfl (hboth ▸ List.prefix_rfl)⟩

end Examples

end KirinFS.Socket
