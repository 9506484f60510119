import KirinFS.Dict.Table
import KirinFS.StlString.Split

/-! # The membership service

Every membership operation returns -1; `none` is undefined or a failed
assertion.
-/

namespace KirinFS.Mgmt
open Foundation.CString Dict StlString

def serviceMaxNodeCount : BitVec 32 := 4096

def dictItemTypeStr : BitVec 32 := 3

def mgmtMetaNode : BitVec 32 := 0

def mgmtDataNode : BitVec 32 := 1

structure ServiceNode where
  nodeAddr : StrPtr
  nodeTypeKey : StrPtr
  nodeTypeVal : BitVec 32
  port : ℤ
  fd : ℤ
deriving DecidableEq

/-- The payload of an item of `service_info`. -/
inductive ItemData
  | str (s : Str)
  | node (node : ServiceNode)

/-- What the operations take from elsewhere: the connection to a node, the hash and the copies of
the table, and the text that lies at `&node->node_addr` when the pointers of the record are read
as a `stl_string`. -/
structure Runtime where
  stlSocketInitClient : Str → ℤ → ℤ
  stlHashCrc32a : StlDictItem ItemData → BitVec 32 → BitVec 32
  copy : PairCopy ItemData
  textAt : ServiceNode → Str

/-- `detach_works` counts from the start of the array that `mgmt_service_alloc` allocates. -/
structure MgmtService where
  dir : Str
  fsname : Str
  serviceInfo : StlDict ItemData
  detachWorks : ℕ
  numDetachWorks : BitVec 64

def emptyNode : ServiceNode := ⟨.null, .null, mgmtMetaNode, 0, 0⟩

def addrItem (addr : Str) : StlDictItem ItemData :=
  ⟨.str addr, dictItemTypeStr, BitVec.ofNat 32 addr.length⟩

/-- The item of a node record of 40 bytes. -/
def nodeItem (node : ServiceNode) : StlDictItem ItemData :=
  ⟨.node node, BitVec.ofNat 32 dictItemTypePtr, 40⟩

/-- The keys of the table are strings. -/
def mgmtServiceNodeCmp (a b : StlDictItem ItemData) : ℤ :=
  match a.data, b.data with
  | .str a, .str b => strncmp a.length a b
  | _, _ => -1

/-- `service_node_init` for a record that is not null: the record and the return value. -/
def serviceNodeInit (rt : Runtime) (sn : ServiceNode) (host : StrPtr) (port : ℤ)
    (nodeType : BitVec 32) : Option (ServiceNode × ℤ) := do
  if host = .null then return (sn, 0)
  let host ← host.text
  let sn := { sn with nodeAddr := .str host, port := port, fd := rt.stlSocketInitClient host port }
  if sn.fd < 0 then
    let nodeAddr ← sn.nodeAddr.destroy
    return ({ sn with nodeAddr := nodeAddr }, -1)
  else if nodeType = mgmtMetaNode then
    return ({ sn with
      nodeTypeKey := .str (['m', 'e', 't', 'a'].map chr), nodeTypeVal := mgmtMetaNode }, 0)
  else if nodeType = mgmtDataNode then
    return ({ sn with
      nodeTypeKey := .str (['d', 'a', 't', 'a'].map chr), nodeTypeVal := mgmtDataNode }, 0)
  else
    return (sn, 0)

def serviceNodeDeinit (sn : ServiceNode) : Option ServiceNode := do
  let nodeAddr ← sn.nodeAddr.destroy
  let nodeTypeKey ← sn.nodeTypeKey.destroy
  return { sn with nodeAddr := nodeAddr, nodeTypeKey := nodeTypeKey }

/-- `service_node_alloc`, which returns null when the node cannot be reached. -/
def serviceNodeAlloc (rt : Runtime) (host : StrPtr) (port : ℤ) (nodeType : BitVec 32) :
    Option (Option ServiceNode) := do
  let (sn, ret) ← serviceNodeInit rt emptyNode host port nodeType
  return if ret = 0 then some sn else none

/-- `stl_epoll_init`, as far as its return value goes: two calls of `strtok` need two tokens. -/
def stlEpollInit (addr : Option Str) : ℤ :=
  match addr with
  | none => -1
  | some addr =>
    if 2 ≤ ((addr.splitOnP fun c => c = chr ':').filter fun t => t ≠ []).length then 0 else -1

/-- `mgmt_service_alloc` with `calloc` succeeding; it writes to the `stl_epoll` that it gets. -/
def mgmtServiceAlloc (rt : Runtime) (addr fsname dir : Option Str) :
    Option (Option MgmtService) :=
  match fsname, dir with
  | some fsname, some dir =>
    if stlEpollInit addr = 0 then
      (stlDictInit serviceMaxNodeCount mgmtServiceNodeCmp rt.stlHashCrc32a).map fun serviceInfo =>
        some ⟨dir, fsname, serviceInfo, 0, 0⟩
    else none
  | _, _ => some none

namespace MgmtService

/-- `mgmt_service_join_node`. It passes `&node_info->node_addr` where the string itself was
meant. -/
def mgmtServiceJoinNode (rt : Runtime) (service : MgmtService) (nodeInfo : ServiceNode) :
    Option (MgmtService × ℤ) := do
  let _ ← nodeInfo.nodeAddr.text
  let infoStr := rt.textAt nodeInfo
  let key := addrItem infoStr
  match ← service.serviceInfo.stlDictLookup key with
  | some _ => return (service, -1)
  | none =>
    -- `data` is null
    let split ← stlStringSplit infoStr [chr ':'] [none] 0
    if split.cnt = 2 then
      let node ← serviceNodeAlloc rt nodeInfo.nodeAddr nodeInfo.port nodeInfo.nodeTypeVal
      let node ← node
      -- the text of the key is the one that was split
      let key := { key with data := .str split.src }
      let (serviceInfo, _) ← service.serviceInfo.stlDictInsert rt.copy key (nodeItem node)
      return ({ service with
        serviceInfo := serviceInfo, detachWorks := service.detachWorks + 1 }, -1)
    else
      return (service, -1)

def mgmtServiceExpelNode (service : MgmtService) (nodeInfo : ServiceNode) :
    Option (MgmtService × ℤ) := do
  let addr ← nodeInfo.nodeAddr.text
  match ← service.serviceInfo.stlDictLookup (addrItem addr) with
  | some _ =>
    let (serviceInfo, _) ← service.serviceInfo.stlDictDelete (addrItem addr)
    return ({ service with serviceInfo := serviceInfo }, -1)
  | none => return (service, -1)

end MgmtService

end KirinFS.Mgmt
