import KirinFS.Foundation.Bytes
import KirinFS.Mgmt.Membership

/-! # The request handler

The read loop runs until `read` returns nothing and always reads to the start
of the buffer. Requests are little-endian, with a header of 16 bytes before the
address.
-/

namespace KirinFS.Mgmt
open Foundation.Bytes Foundation.CString Dict StlString

def serviceMaxDbufSize : ℕ := 4096

def mgmtDelNodeCmd : BitVec 32 := 0

def mgmtAddNodeCmd : BitVec 32 := 1

inductive ReadResult
  | bytes (b : List UInt8)
  | eof
  | error

namespace ReadResult

def rn : ReadResult → ℤ
  | bytes b => b.length
  | eof => 0
  | error => -1

/-- What is in the buffer after the call. -/
def into (dbuf : List UInt8) : ReadResult → List UInt8
  | bytes b => b ++ dbuf.drop b.length
  | _ => dbuf

end ReadResult

/-- The loop of `mgmt_handle_io`: the buffer and `rn` behind it. Without a further result the
handler is still waiting in `read`. -/
def readLoop : (dbuf : List UInt8) → List ReadResult → Option (List UInt8 × ℤ)
  | _, [] => none
  | dbuf, r :: rs => if 0 < r.rn then readLoop (r.into dbuf) rs else some (r.into dbuf, r.rn)

structure MgmtRequest where
  len : BitVec 64
  cmdType : BitVec 32
  nodeType : BitVec 32
  serviceNodeAddr : Str
deriving DecidableEq

/-- `mgmt_request_alloc` for an address that is not null. -/
def mgmtRequestAlloc (serviceAddr : Str) (nodeType cmdType : BitVec 32) : MgmtRequest :=
  ⟨BitVec.ofNat 64 serviceAddr.length, cmdType, nodeType, serviceAddr⟩

namespace MgmtRequest

/-- The record in memory with the zero behind the address, as a client writes it. -/
def bytes (r : MgmtRequest) : List UInt8 :=
  toBytes 8 r.len.toNat ++ toBytes 4 r.cmdType.toNat ++ toBytes 4 r.nodeType.toNat ++
    r.serviceNodeAddr ++ [0]

/-- The buffer as a `mgmt_request`. An address without a terminator is undefined. -/
def ofBuffer (dbuf : List UInt8) : Option MgmtRequest :=
  (cutAt (fun c => c = 0) (dbuf.drop 16)).map fun addr =>
    ⟨BitVec.ofNat 64 (ofBytes (dbuf.take 8)), BitVec.ofNat 32 (ofBytes ((dbuf.drop 8).take 4)),
      BitVec.ofNat 32 (ofBytes ((dbuf.drop 12).take 4)), addr.1⟩

end MgmtRequest

def isdigit (c : UInt8) : Bool := chr '0' ≤ c && c ≤ chr '9'

def digitsValue (s : Str) : ℤ :=
  (s.takeWhile isdigit).foldl (fun n c => 10 * n + (c.toNat - 48)) 0

/-- `atoi` for numbers that fit an `int`. -/
def atoi (s : Str) : ℤ :=
  match s.dropWhile isspace with
  | [] => 0
  | c :: t =>
    if c = chr '-' then -digitsValue t
    else if c = chr '+' then digitsValue t
    else digitsValue (c :: t)

/-- What a call of the handler leaves: the service, the membership operations that it called and
the return value. -/
structure Handled where
  service : MgmtService
  calls : List (Membership ServiceNode)
  ret : ℤ

/-- `node_info_ptr[i]`. -/
def cell (nodeInfo : Strings) (i : ℕ) : Option StrPtr := nodeInfo.bind fun cells => cells[i]?

def dispatch (rt : Runtime) (service : MgmtService) (cmdType : BitVec 32) (sci : ServiceNode)
    (ret : ℤ) : Option Handled :=
  if cmdType = mgmtDelNodeCmd then
    (service.mgmtServiceJoinNode rt sci).map fun r => ⟨r.1, [.join sci], r.2⟩
  else if cmdType = mgmtAddNodeCmd then
    (service.mgmtServiceExpelNode sci).map fun r => ⟨r.1, [.expel sci], r.2⟩
  else some ⟨service, [], ret⟩

/-- The block behind `rn > 0`, with the array of pieces that it leaves to be released. -/
def handleRequest (rt : Runtime) (service : MgmtService) (dbuf : List UInt8) :
    Option (Handled × Split) := do
  let request ← MgmtRequest.ofBuffer dbuf
  -- `node_info_ptr` is null
  let split ← stlStringSplit request.serviceNodeAddr [chr ':'] [none] 0
  let nodeInfo ← split.ptrs.head?
  let host ← cell nodeInfo 0
  let nodePort ← (cell nodeInfo 1).bind StrPtr.text
  -- `sci` is on the stack and not initialised
  let (sci, ret) ← serviceNodeInit rt ⟨.dangling, .dangling, mgmtMetaNode, 0, 0⟩ host
    (atoi nodePort) request.nodeType
  let handled ←
    if ret < 0 then dispatch rt service request.cmdType sci ret
    else some ⟨service, [], ret⟩
  let _ ← serviceNodeDeinit sci
  return (handled, split)

/-- The end of `mgmt_handle_io`: after a failure the pieces are destroyed. -/
def releasePieces (split : Split) (ret : ℤ) : Option Unit := do
  if ret ≠ 0 then
    let nodeInfo ← split.ptrs.head?
    (List.range split.cnt).forM fun i => do
      let piece ← cell nodeInfo i
      let _ ← piece.destroy

/-- `mgmt_handle_io` with the results of its calls of `read`. -/
def mgmtHandleIo (rt : Runtime) (service : MgmtService) (reads : List ReadResult) :
    Option Handled := do
  let (dbuf, rn) ← readLoop (List.replicate serviceMaxDbufSize 0) reads
  let (handled, split) ←
    if 0 < rn then handleRequest rt service dbuf
    else some (⟨service, [], -1⟩, ⟨[], [none], 0, -1⟩)
  releasePieces split handled.ret
  return handled

/-- A request to add or delete a meta or data node whose address `host:port` fits the buffer. -/
structure NodeRequest where
  cmdType : BitVec 32
  nodeType : BitVec 32
  host : Str
  port : Str
  command : cmdType = mgmtAddNodeCmd ∨ cmdType = mgmtDelNodeCmd
  kind : nodeType = mgmtMetaNode ∨ nodeType = mgmtDataNode
  host_pos : host ≠ []
  port_pos : port ≠ []
  plain : ∀ c ∈ host ++ port, c ≠ 0 ∧ c ≠ chr ':'
  fits : 16 + (host ++ chr ':' :: port).length + 1 ≤ serviceMaxDbufSize

namespace NodeRequest

def request (r : NodeRequest) : MgmtRequest :=
  mgmtRequestAlloc (r.host ++ chr ':' :: r.port) r.nodeType r.cmdType

def Names (r : NodeRequest) : Membership ServiceNode → Prop
  | .join n => r.cmdType = mgmtAddNodeCmd ∧ n.nodeAddr = .str r.host ∧ n.port = atoi r.port
  | .expel n => r.cmdType = mgmtDelNodeCmd ∧ n.nodeAddr = .str r.host ∧ n.port = atoi r.port

end NodeRequest

/-- A way in which a connection delivers bytes: what the calls of `read` return until the stream
ends or nothing more is there. -/
structure Delivery (bytes : List UInt8) where
  chunks : List (List UInt8)
  ending : ReadResult
  chunk_pos : ∀ c ∈ chunks, c ≠ []
  chunk_le : ∀ c ∈ chunks, c.length ≤ serviceMaxDbufSize
  whole : chunks.flatten = bytes
  ends : ending.rn ≤ 0

def Delivery.reads {bytes : List UInt8} (δ : Delivery bytes) : List ReadResult :=
  δ.chunks.map .bytes ++ [δ.ending]

/-- The handler calls the operation that the request names, once. -/
def Serves (rt : Runtime) (service : MgmtService) (r : NodeRequest)
    (δ : Delivery r.request.bytes) : Prop :=
  ∃ h c, mgmtHandleIo rt service δ.reads = some h ∧ h.calls = [c] ∧ r.Names c

/-- A buffer that begins with a request is read as this request. -/
theorem ofBuffer_bytes {r : MgmtRequest} (h : IsStr r.serviceNodeAddr) (rest : List UInt8) :
    MgmtRequest.ofBuffer (r.bytes ++ rest) = some r := by
  obtain ⟨len, cmdType, nodeType, addr⟩ := r
  have hcut : cutAt (fun c => c = 0) (addr ++ 0 :: rest) = some (addr, rest) :=
    cutAt_append (fun c hc => by simpa using h c hc) rfl
  let addrPart := addr ++ 0 :: rest
  let typePart := toBytes 4 nodeType.toNat ++ addrPart
  let cmdPart := toBytes 4 cmdType.toNat ++ typePart
  let buf := toBytes 8 len.toNat ++ cmdPart
  have hbuf : MgmtRequest.bytes ⟨len, cmdType, nodeType, addr⟩ ++ rest = buf := by
    simp [MgmtRequest.bytes, buf, cmdPart, typePart, addrPart]
  have h₈ : buf.drop 8 = cmdPart := List.drop_left' (toBytes_length 8 _)
  have h₁₂ : buf.drop 12 = typePart := by
    rw [← List.drop_drop (i := 4) (j := 8), h₈]
    exact List.drop_left' (toBytes_length 4 _)
  have h₁₆ : buf.drop 16 = addrPart := by
    rw [← List.drop_drop (i := 4) (j := 12), h₁₂]
    exact List.drop_left' (toBytes_length 4 _)
  have hlen : buf.take 8 = toBytes 8 len.toNat := List.take_left' (toBytes_length 8 _)
  have hcmd : cmdPart.take 4 = toBytes 4 cmdType.toNat := List.take_left' (toBytes_length 4 _)
  have htype : typePart.take 4 = toBytes 4 nodeType.toNat := List.take_left' (toBytes_length 4 _)
  rw [hbuf, MgmtRequest.ofBuffer, h₁₆, h₁₂, h₈, hlen, hcmd, htype, hcut, Option.map_some,
    ofBytes_word len rfl, ofBytes_word cmdType rfl, ofBytes_word nodeType rfl]

/-- The address of a request ends where the record does. -/
theorem NodeRequest.ofBuffer (r : NodeRequest) (rest : List UInt8) :
    MgmtRequest.ofBuffer (r.request.bytes ++ rest) = some r.request := by
  refine ofBuffer_bytes ?_ rest
  intro c hc
  rcases List.mem_append.mp hc with hc | hc
  · exact (r.plain c (List.mem_append_left _ hc)).1
  · rcases List.mem_cons.mp hc with rfl | hc
    · decide
    · exact (r.plain c (List.mem_append_right _ hc)).1

variable {rt : Runtime} {service : MgmtService} {dbuf buf : List UInt8} {rs : List ReadResult}
  {rn : ℤ}

/-- The loop is left with nothing read. -/
theorem readLoop_rn (h : readLoop dbuf rs = some (buf, rn)) : rn ≤ 0 := by
  induction rs generalizing dbuf with
  | nil => cases h
  | cons r rs ih =>
    rw [readLoop] at h
    split at h
    · exact ih h
    · cases h
      omega

theorem readLoop_delivered {chunks : List (List UInt8)} (hpos : ∀ c ∈ chunks, c ≠ [])
    {e : ReadResult} (he : e.rn ≤ 0) (dbuf : List UInt8) :
    ∃ buf, readLoop dbuf (chunks.map .bytes ++ [e]) = some (buf, e.rn) := by
  induction chunks generalizing dbuf with
  | nil => exact ⟨e.into dbuf, if_neg (by omega)⟩
  | cons c chunks ih =>
    have hc : 0 < (ReadResult.bytes c).rn :=
      Int.natCast_pos.mpr (List.length_pos_of_ne_nil (hpos c List.mem_cons_self))
    obtain ⟨buf, hbuf⟩ := ih (fun c hc => hpos c (List.mem_cons_of_mem _ hc))
      (c ++ dbuf.drop c.length)
    refine ⟨buf, ?_⟩
    rw [List.map_cons, List.cons_append, readLoop, if_pos hc]
    exact hbuf

/-- It splits into a null array. -/
theorem handleRequest_undefined (dbuf : List UInt8) : handleRequest rt service dbuf = none := by
  simp only [handleRequest, stlStringSplit_null, Option.bind_eq_bind, Option.bind_none,
    Option.bind_fun_none]

/-- Whatever is read, a handler that returns has called nothing. -/
theorem mgmtHandleIo_eq (reads : List ReadResult) : mgmtHandleIo rt service reads =
    (readLoop (List.replicate serviceMaxDbufSize 0) reads).map fun _ => ⟨service, [], -1⟩ := by
  rw [mgmtHandleIo]
  cases h : readLoop (List.replicate serviceMaxDbufSize 0) reads with
  | none => rfl
  | some r =>
    obtain ⟨buf, rn⟩ := r
    have hrn := readLoop_rn h
    simp only [Option.bind_eq_bind, Option.bind_some, Option.map_some]
    rw [if_neg (by omega)]
    rfl

theorem mgmtHandleIo_delivered {bytes : List UInt8} (δ : Delivery bytes) :
    mgmtHandleIo rt service δ.reads = some ⟨service, [], -1⟩ := by
  obtain ⟨buf, hbuf⟩ := readLoop_delivered δ.chunk_pos δ.ends (List.replicate serviceMaxDbufSize 0)
  rw [mgmtHandleIo_eq, Delivery.reads, hbuf]
  rfl

theorem not_serves {r : NodeRequest} {δ : Delivery r.request.bytes} {ret : ℤ}
    (h : mgmtHandleIo rt service δ.reads = some ⟨service, [], ret⟩) : ¬ Serves rt service r δ := by
  rintro ⟨handled, c, hhandled, hcalls, -⟩
  rw [h] at hhandled
  cases hhandled
  cases hcalls

/-- However a request is delivered, it is dropped. The block that would serve it is undefined for
every buffer. -/
theorem request_dropped (rt : Runtime) (service : MgmtService) (r : NodeRequest)
    (δ : Delivery r.request.bytes) :
    mgmtHandleIo rt service δ.reads = some ⟨service, [], -1⟩ ∧ ¬ Serves rt service r δ ∧
      ∀ dbuf, handleRequest rt service dbuf = none :=
  ⟨mgmtHandleIo_delivered δ, not_serves (mgmtHandleIo_delivered δ), handleRequest_undefined⟩

def addNode : NodeRequest where
  cmdType := mgmtAddNodeCmd
  nodeType := mgmtMetaNode
  host := [chr 'a']
  port := [chr '1']
  command := .inl rfl
  kind := .inl rfl
  host_pos := List.cons_ne_nil _ _
  port_pos := List.cons_ne_nil _ _
  plain := List.forall_mem_cons.mpr ⟨by decide, List.forall_mem_singleton.mpr (by decide)⟩
  fits := Nat.le_of_ble_eq_true rfl

/-- The whole request at once, and the end of the stream. -/
def addNodeDelivery : Delivery addNode.request.bytes where
  chunks := [addNode.request.bytes]
  ending := .eof
  chunk_pos := List.forall_mem_singleton.mpr (List.cons_ne_nil _ _)
  chunk_le := List.forall_mem_singleton.mpr (Nat.le_of_ble_eq_true rfl)
  whole := rfl
  ends := le_refl 0

theorem add_dropped : ∃ s, mgmtServiceAlloc nearRuntime (some (['h', ':', '1'].map chr))
      (some [chr 'f']) (some [chr 'd']) = some (some s) ∧
    mgmtHandleIo nearRuntime s addNodeDelivery.reads = some ⟨s, [], -1⟩ ∧
    ¬ Serves nearRuntime s addNode addNodeDelivery := by
  obtain ⟨s, hs⟩ := nearRuntime_alloc
  have hdropped : mgmtHandleIo nearRuntime s addNodeDelivery.reads = some ⟨s, [], -1⟩ :=
    mgmtHandleIo_delivered addNodeDelivery
  exact ⟨s, hs, hdropped, not_serves hdropped⟩

end KirinFS.Mgmt
