import KirinFS.Foundation.Digests

/-! # Hashing a message that comes in pieces

`stl_md5.c` and `stl_sha1.c` count the bytes, chain a state from block to block
and keep the incomplete block in a buffer, with the same statements. What is
their own is the work on one block and the byte order of the length.
-/

namespace KirinFS.Digest
open Foundation.Blocks Foundation.Digests

def uchar {n : ℕ} (w : BitVec n) : UInt8 := UInt8.ofBitVec (w.setWidth 8)

/-- The fields of `stl_md5` and `stl_sha1`, the words of the state as one value. -/
structure Context (σ : Type) where
  bytes : BitVec 64
  state : σ
  buffer : List UInt8

namespace Context
variable {σ : Type} (block : σ → List UInt8 → σ) (lengthBytes : BitVec 64 → List UInt8)
  (ctx : Context σ)

def used : ℕ := (ctx.bytes &&& 0x3f).toNat

/-- Stores to `buffer[i]` and behind it. -/
def store (i : ℕ) (data : List UInt8) : Context σ :=
  { ctx with buffer := ctx.buffer.take i ++ data ++ ctx.buffer.drop (i + data.length) }

/-- `stl_md5_body` and `stl_sha1_body` with a size of `n` blocks: their loop makes `n` turns. -/
def body (n : ℕ) (data : List UInt8) : Context σ :=
  { ctx with state := absorb 64 block n ctx.state data }

/-- The end of the update, where the buffer is empty. -/
def updateBlocks (data : List UInt8) : Context σ :=
  if 64 ≤ data.length then
    (ctx.body block (data.length / 64) data).store 0 (data.drop (data.length / 64 * 64))
  else ctx.store 0 data

/-- `stl_md5_compute` and `stl_sha1_update`. -/
def update (data : List UInt8) : Context σ :=
  let used := ctx.used
  let ctx := { ctx with bytes := ctx.bytes + BitVec.ofNat 64 data.length }
  if used ≠ 0 then
    let free := 64 - used
    if data.length < free then ctx.store used data
    else
      let ctx := ctx.store used (data.take free)
      (ctx.body block 1 ctx.buffer).updateBlocks block (data.drop free)
  else ctx.updateBlocks block data

/-- `stl_md5_checksum` and `stl_sha1_final` up to the last block. -/
def finish : Context σ :=
  let used := ctx.used + 1
  let ctx := ctx.store ctx.used [0x80]
  let (ctx, used) :=
    if 64 - used < 8 then
      let ctx := ctx.store used (zeros (64 - used))
      (ctx.body block 1 ctx.buffer, 0)
    else (ctx, used)
  let ctx := ctx.store used (zeros (64 - used - 8))
  let ctx := { ctx with bytes := ctx.bytes <<< 3 }
  let ctx := ctx.store 56 (lengthBytes ctx.bytes)
  ctx.body block 1 ctx.buffer

end Context

/-- The full blocks of the message are in the state and the rest is in the buffer. -/
structure Pending {σ : Type} (block : σ → List UInt8 → σ) (init : σ) (msg : List UInt8)
    (ctx : Context σ) : Prop where
  state : ctx.state = absorbAll 64 block init msg
  room : ctx.buffer.length = 64
  buffer : ctx.buffer.take (msg.length % 64) = rest 64 msg

variable {σ : Type} {block : σ → List UInt8 → σ} {lengthBytes : BitVec 64 → List UInt8} {init : σ}
  {msg data more : List UInt8} {ctx : Context σ} {i : ℕ}

section Store

theorem store_room (h : ctx.buffer.length = 64) (hi : i + data.length ≤ 64) :
    (ctx.store i data).buffer.length = 64 := by
  simp only [Context.store, List.length_append, List.length_take, List.length_drop, h]
  omega

theorem take_store (h : ctx.buffer.length = 64) (hi : i + data.length ≤ 64) :
    (ctx.store i data).buffer.take (i + data.length) = ctx.buffer.take i ++ data := by
  have hlen : (ctx.buffer.take i ++ data).length = i + data.length := by
    rw [List.length_append, List.length_take, h]
    omega
  rw [Context.store, ← hlen]
  exact List.take_left

theorem store_store (h : ctx.buffer.length = 64) (hi : i + data.length ≤ 64) :
    (ctx.store i data).store (i + data.length) more = ctx.store i (data ++ more) := by
  have hlen : (ctx.buffer.take i ++ data).length = i + data.length := by
    rw [List.length_append, List.length_take, h]
    omega
  have hdrop : (ctx.store i data).buffer.drop (i + data.length) =
      ctx.buffer.drop (i + data.length) := by
    rw [Context.store, List.drop_append, hlen, Nat.sub_self, List.drop_of_length_le hlen.le,
      List.nil_append, List.drop_zero]
  rw [Context.store, take_store h hi, ← List.drop_drop, hdrop, List.drop_drop]
  simp only [Context.store, List.length_append, List.append_assoc, Nat.add_assoc]

end Store

namespace Pending

theorem used_lt (msg : List UInt8) : msg.length % 64 < 64 := Nat.mod_lt _ (by omega)

theorem fill (h : Pending block init msg ctx) (data : List UInt8)
    (hfit : msg.length % 64 + data.length < 64) :
    Pending block init (msg ++ data) (ctx.store (msg.length % 64) data) := by
  have hshort : (rest 64 msg ++ data).length < 64 := by
    rw [List.length_append, length_rest]
    exact hfit
  have hmod : (msg ++ data).length % 64 = msg.length % 64 + data.length := by
    rw [List.length_append]
    omega
  refine ⟨?_, store_room h.room hfit.le, ?_⟩
  · rw [absorbAll_append (by omega), absorbAll_of_lt hshort]
    exact h.state
  · rw [hmod, take_store h.room hfit.le, h.buffer, rest_append (by omega), rest_of_lt hshort]

/-- The new bytes fill the buffer up, and the block is worked on. -/
theorem flush (h : Pending block init msg ctx) (data : List UInt8)
    (hfit : msg.length % 64 + data.length = 64) :
    Pending block init (msg ++ data) ((ctx.store (msg.length % 64) data).body block 1
      (ctx.store (msg.length % 64) data).buffer) := by
  have hblock : (rest 64 msg ++ data).length = 64 := by
    rw [List.length_append, length_rest]
    exact hfit
  have hroom := store_room h.room hfit.le
  have hbuf : (ctx.store (msg.length % 64) data).buffer = rest 64 msg ++ data := by
    rw [← h.buffer, ← take_store h.room hfit.le, hfit, List.take_of_length_le hroom.le]
  have hmod : (msg ++ data).length % 64 = 0 := by
    rw [List.length_append]
    omega
  refine ⟨?_, hroom, ?_⟩
  · rw [absorbAll_append (by omega), absorbAll_block (by omega) hblock, ← h.state, ← hbuf,
      Context.body, absorb, absorb, List.take_of_length_le hroom.le]
    rfl
  · rw [hmod, List.take_zero, rest_eq_nil hmod]

theorem updateBlocks (h : Pending block init msg ctx) (data : List UInt8)
    (hmod : msg.length % 64 = 0) :
    Pending block init (msg ++ data) (ctx.updateBlocks block data) := by
  have hrest : rest 64 msg ++ data = data := by rw [rest_eq_nil hmod, List.nil_append]
  have hlen : (msg ++ data).length % 64 = data.length % 64 := by
    rw [List.length_append]
    omega
  have hd := length_rest (m := 64) data
  have hlt := used_lt data
  rw [Context.updateBlocks]
  split
  · refine ⟨?_, store_room h.room (by rw [← rest, hd]; omega), ?_⟩
    · rw [absorbAll_append (by omega), hrest, ← h.state]
      rfl
    · have htake := take_store h.room (by omega : 0 + (rest 64 data).length ≤ 64)
      rw [Nat.zero_add, hd, List.take_zero, List.nil_append] at htake
      rw [rest_append (by omega), hrest, hlen]
      exact htake
  · next hshort =>
    have hfill := h.fill data (by omega)
    rwa [hmod] at hfill

end Pending

structure Holds (block : σ → List UInt8 → σ) (init : σ) (msg : List UInt8) (ctx : Context σ) :
    Prop extends Pending block init msg ctx where
  bytes : ctx.bytes = BitVec.ofNat 64 msg.length

namespace Holds

theorem used_eq (h : Holds block init msg ctx) : ctx.used = msg.length % 64 := by
  rw [Context.used, h.bytes, BitVec.toNat_and, BitVec.toNat_ofNat]
  change msg.length % 2 ^ 64 &&& 2 ^ 6 - 1 = _
  rw [Nat.and_two_pow_sub_one_eq_mod]
  omega

theorem bits (h : Holds block init msg ctx) :
    BitVec.ofNat 64 (8 * msg.length) = ctx.bytes <<< 3 := by
  rw [h.bytes]
  apply BitVec.eq_of_toNat_eq
  rw [BitVec.toNat_shiftLeft, BitVec.toNat_ofNat, BitVec.toNat_ofNat, Nat.shiftLeft_eq]
  omega

theorem start (block : σ → List UInt8 → σ) (ctx : Context σ) (h : ctx.buffer.length = 64)
    (hb : ctx.bytes = 0) : Holds block ctx.state [] ctx :=
  ⟨⟨rfl, h, rfl⟩, hb⟩

theorem update (h : Holds block init msg ctx) (data : List UInt8) :
    Holds block init (msg ++ data) (ctx.update block data) := by
  have hused := h.used_eq
  have hlt := Pending.used_lt msg
  let ctx₁ := { ctx with bytes := ctx.bytes + BitVec.ofNat 64 data.length }
  have h₁ : Pending block init msg ctx₁ := ⟨h.state, h.room, h.buffer⟩
  have hbytes : ctx₁.bytes = BitVec.ofNat 64 (msg ++ data).length := by
    rw [List.length_append, BitVec.ofNat_add, ← h.bytes]
  rw [Context.update, hused]
  simp only
  split
  · split
    · exact ⟨h₁.fill data (by omega), hbytes⟩
    · have htake : (data.take (64 - msg.length % 64)).length = 64 - msg.length % 64 := by
        rw [List.length_take]
        omega
      have hflush := h₁.flush (data.take (64 - msg.length % 64)) (by omega)
      have hblocks := hflush.updateBlocks (data.drop (64 - msg.length % 64))
        (by rw [List.length_append]; omega)
      rw [List.append_assoc, List.take_append_drop] at hblocks
      refine ⟨hblocks, ?_⟩
      rw [← hbytes, Context.updateBlocks]
      split <;> rfl
  · refine ⟨h₁.updateBlocks data (by omega), ?_⟩
    rw [← hbytes, Context.updateBlocks]
    split <;> rfl

theorem updates (h : Holds block init msg ctx) (chunks : List (List UInt8)) :
    Holds block init (msg ++ chunks.flatten) (chunks.foldl (Context.update block) ctx) := by
  induction chunks generalizing msg ctx with
  | nil =>
    rw [List.flatten_nil, List.append_nil]
    exact h
  | cons data chunks ih =>
    rw [List.foldl_cons, List.flatten_cons, ← List.append_assoc]
    exact ih (h.update data)

section Finish
variable (h : Holds block init msg ctx) (hl : ∀ b, (lengthBytes b).length = 8)
include h hl

/-- The length still fits into the block of the message. -/
theorem finish_one (hfit : msg.length % 64 < 56) :
    (ctx.finish block lengthBytes).state = chain block lengthBytes init msg := by
  have hpad : padding lengthBytes msg.length =
      [(0x80 : UInt8)] ++ (zeros (55 - msg.length % 64) ++ lengthBytes (ctx.bytes <<< 3)) := by
    have hz : (119 - msg.length % 64) % 64 = 55 - msg.length % 64 := by omega
    rw [padding, hz, h.bits]
    rfl
  have hstore : ((ctx.store (msg.length % 64) [0x80]).store (msg.length % 64 + 1)
      (zeros (55 - msg.length % 64))).store 56 (lengthBytes (ctx.bytes <<< 3)) =
      ctx.store (msg.length % 64) (padding lengthBytes msg.length) := by
    have hz : (zeros (55 - msg.length % 64)).length = 55 - msg.length % 64 := length_zeros _
    have h56 : 56 = msg.length % 64 + [(0x80 : UInt8)].length +
        (zeros (55 - msg.length % 64)).length := by
      rw [hz, List.length_singleton]
      omega
    have hroom := store_room h.room
      (by rw [List.length_singleton]; omega : msg.length % 64 + [(0x80 : UInt8)].length ≤ 64)
    rw [hpad, ← store_store h.room (by rw [List.length_singleton]; omega),
      ← store_store hroom (by rw [hz, List.length_singleton]; omega), ← h56]
    rfl
  have hflush := h.flush (padding lengthBytes msg.length) (by
    rw [hpad, List.length_append, List.length_append, length_zeros, hl,
      List.length_singleton]
    omega)
  rw [chain_eq_absorbAll, ← hflush.state, ← hstore]
  simp only [Context.finish, h.used_eq]
  rw [if_neg (by omega), show 64 - (msg.length % 64 + 1) - 8 = 55 - msg.length % 64 by omega]
  rfl

/-- The length goes into a block of its own. -/
theorem finish_two (hfit : 56 ≤ msg.length % 64) :
    (ctx.finish block lengthBytes).state = chain block lengthBytes init msg := by
  have hlt := Pending.used_lt msg
  let head : List UInt8 := [0x80] ++ zeros (63 - msg.length % 64)
  let tail : List UInt8 := zeros 56 ++ lengthBytes (ctx.bytes <<< 3)
  have hhead : head.length = 64 - msg.length % 64 := by
    rw [List.length_append, length_zeros, List.length_singleton]
    omega
  have htail : tail.length = 64 := by
    rw [List.length_append, length_zeros, hl]
  have hpad : padding lengthBytes msg.length = head ++ tail := by
    have hz : (119 - msg.length % 64) % 64 = 63 - msg.length % 64 + 56 := by omega
    rw [padding, hz, zeros_add, h.bits]
    simp [head, tail]
  have hfirst := h.flush head (by omega)
  have hmod : (msg ++ head).length % 64 = 0 := by
    rw [List.length_append]
    omega
  have hsecond := hfirst.flush tail (by omega)
  rw [hmod] at hsecond
  have hstore : (ctx.store (msg.length % 64) [0x80]).store (msg.length % 64 + 1)
      (zeros (63 - msg.length % 64)) = ctx.store (msg.length % 64) head :=
    store_store h.room (by rw [List.length_singleton]; omega)
  rw [chain_eq_absorbAll, hpad, ← List.append_assoc, ← hsecond.state,
    ← store_store hfirst.room (by rw [length_zeros]; omega), ← hstore]
  simp only [Context.finish, h.used_eq]
  rw [if_pos (by omega), show 64 - (msg.length % 64 + 1) = 63 - msg.length % 64 by omega]
  rfl

theorem finish : (ctx.finish block lengthBytes).state = chain block lengthBytes init msg := by
  by_cases hfit : msg.length % 64 < 56
  · exact h.finish_one hl hfit
  · exact h.finish_two hl (by omega)

end Finish

end Holds

end KirinFS.Digest
