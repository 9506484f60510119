import KirinFS.Mgmt.HandleIo
import KirinFS.StlString.Access

/-! # The request as the client sends it

The block of a request has no room for a terminator, but one more byte than the
block has is written to the socket.
-/

namespace KirinFS.Mgmt
open Foundation.Bytes Foundation.CString StlString Memory

def mgmtRequestHeader : ℕ := 16

/-- The block that `mgmt_request_alloc` gets from `calloc` and fills. -/
def mgmtRequestBlock (serviceAddr : Str) (nodeType cmdType : BitVec 32) : List UInt8 :=
  let request := List.replicate (mgmtRequestHeader + serviceAddr.length) 0
  let request := splice request mgmtRequestHeader serviceAddr
  let request := splice request 0 (toBytes 8 serviceAddr.length)
  let request := splice request 8 (toBytes 4 cmdType.toNat)
  splice request 12 (toBytes 4 nodeType.toNat)

def clientSize (serviceAddr : Str) : ℕ := mgmtRequestHeader + serviceAddr.length + 1

/-- The bytes that are written; `behind` is what lies behind the block. -/
def clientBytes (serviceAddr : Str) (nodeType cmdType : BitVec 32) (behind : ℕ → UInt8) :
    List UInt8 :=
  (List.range (clientSize serviceAddr)).map fun i =>
    (mgmtRequestBlock serviceAddr nodeType cmdType).getD i (behind i)

/-- The buffer of `mgmt_handle_io` with these bytes in it. -/
def serverBuffer (bytes : List UInt8) : List UInt8 :=
  bytes ++ List.replicate (serviceMaxDbufSize - bytes.length) 0

/-- The client writes what belongs to the request, and if it fits its buffer, the server reads
back the request that was meant. -/
structure RequestAgrees (serviceAddr : Str) (nodeType cmdType : BitVec 32)
    (behind : ℕ → UInt8) : Prop where
  inside : clientSize serviceAddr ≤ (mgmtRequestBlock serviceAddr nodeType cmdType).length
  readBack : clientSize serviceAddr ≤ serviceMaxDbufSize →
    MgmtRequest.ofBuffer (serverBuffer (clientBytes serviceAddr nodeType cmdType behind)) =
      some (mgmtRequestAlloc serviceAddr nodeType cmdType)

variable {serviceAddr : Str} {nodeType cmdType : BitVec 32} {behind : ℕ → UInt8}

theorem mgmtRequestBlock_eq : mgmtRequestBlock serviceAddr nodeType cmdType =
    toBytes 8 serviceAddr.length ++ toBytes 4 cmdType.toNat ++ toBytes 4 nodeType.toNat ++
      serviceAddr := by
  have haddr : splice (List.replicate (mgmtRequestHeader + serviceAddr.length) 0)
      mgmtRequestHeader serviceAddr = List.replicate 16 0 ++ serviceAddr := by
    have hover : splice (List.replicate 16 0 ++ List.replicate serviceAddr.length 0 ++ [])
        mgmtRequestHeader serviceAddr = List.replicate 16 0 ++ serviceAddr ++ [] :=
      splice_over List.length_replicate List.length_replicate.symm
    rwa [List.append_nil, List.append_nil, List.replicate_append_replicate] at hover
  have hlen (rest : List UInt8) : splice (List.replicate 8 0 ++ rest) 0
      (toBytes 8 serviceAddr.length) = toBytes 8 serviceAddr.length ++ rest :=
    splice_over (a := []) (b := List.replicate 8 0) rfl (toBytes_length 8 _)
  have hcmd (rest : List UInt8) : splice (toBytes 8 serviceAddr.length ++ List.replicate 4 0 ++
      rest) 8 (toBytes 4 cmdType.toNat) =
        toBytes 8 serviceAddr.length ++ toBytes 4 cmdType.toNat ++ rest :=
    splice_over (toBytes_length 8 _) (toBytes_length 4 _)
  have htype (rest : List UInt8) : splice (toBytes 8 serviceAddr.length ++
      toBytes 4 cmdType.toNat ++ List.replicate 4 0 ++ rest) 12 (toBytes 4 nodeType.toNat) =
        toBytes 8 serviceAddr.length ++ toBytes 4 cmdType.toNat ++ toBytes 4 nodeType.toNat ++
          rest :=
    splice_over (by rw [List.length_append, toBytes_length, toBytes_length]) (toBytes_length 4 _)
  have hzeros : List.replicate 16 (0 : UInt8) =
      List.replicate 8 0 ++ (List.replicate 4 0 ++ List.replicate 4 0) := rfl
  simp only [mgmtRequestBlock]
  rw [haddr, hzeros, List.append_assoc, hlen, List.append_assoc, ← List.append_assoc _ _ (_ ++ _),
    hcmd, ← List.append_assoc _ (List.replicate 4 0), htype]

theorem mgmtRequestBlock_length : (mgmtRequestBlock serviceAddr nodeType cmdType).length =
    mgmtRequestHeader + serviceAddr.length := by
  rw [mgmtRequestBlock_eq]
  simp only [List.length_append, toBytes_length, mgmtRequestHeader]

theorem map_getD_succ (l : List UInt8) (f : ℕ → UInt8) :
    (List.range (l.length + 1)).map (fun i => l.getD i (f i)) = l ++ [f l.length] := by
  have hall : (List.range l.length).map (fun i => l.getD i (f i)) = l := by
    apply List.ext_getElem
    · simp
    · intro i _ hi
      rw [List.getElem_map, List.getElem_range, List.getD_eq_getElem _ _ hi]
  rw [List.range_succ, List.map_append, List.map_singleton, hall,
    List.getD_eq_default _ _ (Nat.le_refl _)]

theorem clientBytes_eq : clientBytes serviceAddr nodeType cmdType behind =
    mgmtRequestBlock serviceAddr nodeType cmdType ++
      [behind (mgmtRequestHeader + serviceAddr.length)] := by
  have hsize : mgmtRequestHeader + serviceAddr.length =
    (mgmtRequestBlock serviceAddr nodeType cmdType).length := mgmtRequestBlock_length.symm
  rw [clientBytes, clientSize, hsize]
  exact map_getD_succ _ behind

theorem readBack_iff (haddr : IsStr serviceAddr)
    (hfits : clientSize serviceAddr ≤ serviceMaxDbufSize) :
    MgmtRequest.ofBuffer (serverBuffer (clientBytes serviceAddr nodeType cmdType behind)) =
        some (mgmtRequestAlloc serviceAddr nodeType cmdType) ↔
      behind (mgmtRequestHeader + serviceAddr.length) = 0 := by
  rw [clientBytes_eq, serverBuffer]
  generalize List.replicate _ (0 : UInt8) = rest
  generalize behind (mgmtRequestHeader + serviceAddr.length) = b
  constructor
  · intro h
    have htext : (mgmtRequestBlock serviceAddr nodeType cmdType ++ [b] ++ rest).drop 16 =
        serviceAddr ++ b :: rest := by
      rw [mgmtRequestBlock_eq, List.append_assoc, List.append_assoc]
      refine List.drop_left' ?_
      simp only [List.length_append, toBytes_length]
    rw [MgmtRequest.ofBuffer, htext] at h
    obtain ⟨⟨addr, rest'⟩, hcut, heq⟩ := Option.map_eq_some_iff.mp h
    obtain rfl : addr = serviceAddr := congrArg MgmtRequest.serviceNodeAddr heq
    obtain ⟨c, hc, hzero, -⟩ := cutAt_some hcut
    rw [(List.cons.inj (List.append_cancel_left hc)).1]
    exact of_decide_eq_true hzero
  · rintro rfl
    have hlen : (BitVec.ofNat 64 serviceAddr.length).toNat = serviceAddr.length := by
      refine Nat.mod_eq_of_lt (Nat.lt_of_le_of_lt ?_ (by decide : serviceMaxDbufSize < 2 ^ 64))
      rw [clientSize] at hfits
      omega
    have hbytes : mgmtRequestBlock serviceAddr nodeType cmdType ++ [0] =
        (mgmtRequestAlloc serviceAddr nodeType cmdType).bytes := by
      rw [mgmtRequestBlock_eq, MgmtRequest.bytes, mgmtRequestAlloc, hlen]
    rw [hbytes]
    exact ofBuffer_bytes haddr rest

/-- For no request does the client keep to the block. An address that fits the buffer of the server
is read back just if the byte behind the block is a zero. -/
theorem requestAgrees_never (serviceAddr : Str) (nodeType cmdType : BitVec 32)
    (behind : ℕ → UInt8) : ¬ RequestAgrees serviceAddr nodeType cmdType behind ∧
      (IsStr serviceAddr → clientSize serviceAddr ≤ serviceMaxDbufSize →
        (MgmtRequest.ofBuffer (serverBuffer (clientBytes serviceAddr nodeType cmdType behind)) =
            some (mgmtRequestAlloc serviceAddr nodeType cmdType) ↔
          behind (mgmtRequestHeader + serviceAddr.length) = 0)) := by
  refine ⟨fun h => ?_, readBack_iff⟩
  have hinside := h.inside
  rw [mgmtRequestBlock_length, clientSize] at hinside
  omega

/-- Adding the meta node `a:1`, with an `x` behind the block: the server reads `a:1x`. -/
theorem not_requestAgrees_first :
    MgmtRequest.ofBuffer (serverBuffer (clientBytes (['a', ':', '1'].map chr) mgmtMetaNode
      mgmtAddNodeCmd fun _ => chr 'x')) =
        some ⟨3, mgmtAddNodeCmd, mgmtMetaNode, ['a', ':', '1', 'x'].map chr⟩ ∧
    ¬ RequestAgrees (['a', ':', '1'].map chr) mgmtMetaNode mgmtAddNodeCmd fun _ => chr 'x' := by
  have hread : MgmtRequest.ofBuffer (serverBuffer (clientBytes (['a', ':', '1'].map chr)
      mgmtMetaNode mgmtAddNodeCmd fun _ => chr 'x')) =
        some ⟨3, mgmtAddNodeCmd, mgmtMetaNode, ['a', ':', '1', 'x'].map chr⟩ :=
    ofBuffer_bytes (r := ⟨3, mgmtAddNodeCmd, mgmtMetaNode, ['a', ':', '1', 'x'].map chr⟩)
      (by decide) (List.replicate 4075 0)
  refine ⟨hread, fun h => ?_⟩
  have hmeant := h.readBack (by decide)
  rw [hread] at hmeant
  cases hmeant

end KirinFS.Mgmt
