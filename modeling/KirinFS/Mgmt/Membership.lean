import KirinFS.Dict.Delete
import KirinFS.Mgmt.Service
import Mathlib.Data.Finset.Insert
import Mathlib.Data.Finset.Erase

/-! # Runs of joins and expulsions

A roster says what the service is for: the addresses that were joined and not
expelled since, and how many joins added one.
-/

namespace KirinFS.Mgmt
open Foundation.CString Dict StlString

inductive Membership (N : Type*)
  | join (n : N)
  | expel (n : N)

namespace Membership
variable {M N : Type*}

def map (f : M → N) : Membership M → Membership N
  | join n => join (f n)
  | expel n => expel (f n)

def isJoin : Membership N → Bool
  | join _ => true
  | expel _ => false

end Membership

structure Roster (N : Type*) where
  members : Finset N
  added : ℕ

namespace Roster
variable {N : Type*} [DecidableEq N]

def apply (r : Roster N) : Membership N → Roster N
  | .join n => if n ∈ r.members then r else ⟨insert n r.members, r.added + 1⟩
  | .expel n => ⟨r.members.erase n, r.added⟩

def after (os : List (Membership N)) : Roster N := os.foldl apply ⟨∅, 0⟩

theorem after_concat (os : List (Membership N)) (o : Membership N) :
    after (os ++ [o]) = (after os).apply o := by
  rw [after, after, List.foldl_append]
  rfl

theorem after_expulsions {os : List (Membership N)} (h : ∀ o ∈ os, o.isJoin = false) :
    after os = ⟨∅, 0⟩ := by
  induction os using List.reverseRecOn with
  | nil => rfl
  | append_singleton os o ih =>
    rw [after_concat, ih fun o ho => h o (List.mem_append_left _ ho)]
    cases o with
    | join n =>
      have hjoin := h (.join n) (by simp)
      cases hjoin
    | expel n => rfl

end Roster

structure Peer where
  node : ServiceNode
  addr : Str
  named : node.nodeAddr = .str addr

namespace MgmtService

def apply (rt : Runtime) (s : MgmtService) : Membership Peer → Option (MgmtService × ℤ)
  | .join p => s.mgmtServiceJoinNode rt p.node
  | .expel p => s.mgmtServiceExpelNode p.node

def run (rt : Runtime) (s : MgmtService) : List (Membership Peer) → Option MgmtService
  | [] => some s
  | o :: os => (s.apply rt o).bind fun r => run rt r.1 os

def Lists (s : MgmtService) (addr : Str) : Prop :=
  ∃ v, s.serviceInfo.stlDictLookup (addrItem addr) = some (some v)

/-- The table and the bookkeeping fields agree with a roster. -/
structure Tracks (s : MgmtService) (r : Roster Str) : Prop where
  found : ∀ addr, s.Lists addr ↔ addr ∈ r.members
  works : s.detachWorks = 0
  count : s.numDetachWorks.toNat = r.added

/-- Every call of the sequence returns and leaves the service in step with the roster, and a join
of a member changes nothing. -/
structure Maintains (rt : Runtime) (s : MgmtService) (os : List (Membership Peer)) : Prop where
  tracks : ∀ done, done <+: os →
    ∃ s', s.run rt done = some s' ∧ s'.Tracks (.after (done.map (.map Peer.addr)))
  rejoin : ∀ done p, done ++ [.join p] <+: os →
    p.addr ∈ (Roster.after (done.map (.map Peer.addr))).members →
      s.run rt (done ++ [.join p]) = s.run rt done

/-- `service_info` is as `stl_dict_alloc` made it, without a pair. -/
def Vacant (s : MgmtService) : Prop := Layout s.serviceInfo fun _ => []

variable {rt : Runtime} {s s' : MgmtService} {os : List (Membership Peer)}
  {addr fsname dir : Option Str}

theorem alloc_vacant (h : mgmtServiceAlloc rt addr fsname dir = some (some s)) :
    s.Vacant ∧ s.detachWorks = 0 ∧ s.numDetachWorks = 0 := by
  match fsname, dir with
  | none, _ => cases h
  | some _, none => cases h
  | some fsname, some dir =>
    rw [mgmtServiceAlloc] at h
    split at h
    · obtain ⟨d, hd, heq⟩ := Option.map_eq_some_iff.mp h
      obtain rfl := Option.some.inj heq
      exact ⟨(init_layout hd).1, rfl, rfl⟩
    · cases h

theorem Vacant.lookup (h : s.Vacant) (key : StlDictItem ItemData) :
    s.serviceInfo.stlDictLookup key = some none := by
  by_cases hk : stlDictItemCheckType key = true
  · obtain ⟨i, hlt, hi⟩ := h.index_eq key
    rw [lookup_spec h hk hi hlt]
    rfl
  · exact lookup_untyped (by simpa using hk)

/-- The first join hands a null array to `stl_string_split`. -/
theorem Vacant.join (h : s.Vacant) (node : ServiceNode) :
    s.mgmtServiceJoinNode rt node = none := by
  simp only [mgmtServiceJoinNode, h.lookup, stlStringSplit_null, Option.bind_eq_bind,
    Option.bind_some, Option.bind_none, Option.bind_fun_none]

theorem Vacant.expel (h : s.Vacant) (p : Peer) :
    s.mgmtServiceExpelNode p.node = some (s, -1) := by
  simp only [mgmtServiceExpelNode, p.named, StrPtr.text, h.lookup, Option.bind_eq_bind,
    Option.bind_some]
  rfl

/-- From a vacant table only expulsions return, and they change nothing. -/
theorem Vacant.run_eq_some (h : s.Vacant) :
    s.run rt os = some s' ↔ s' = s ∧ ∀ o ∈ os, o.isJoin = false := by
  induction os with
  | nil =>
    simp only [run, Option.some.injEq, List.not_mem_nil, false_implies, implies_true, and_true]
    exact eq_comm
  | cons o os ih =>
    rw [run, List.forall_mem_cons]
    cases o with
    | join p => simp [apply, h.join, Membership.isJoin]
    | expel p =>
      rw [apply, h.expel, Option.bind_some, ih]
      simp [Membership.isJoin]

/-- The roster and the service agree as long as nobody joins. -/
theorem Vacant.tracks (h : s.Vacant) (hw : s.detachWorks = 0) (hn : s.numDetachWorks = 0) :
    s.Tracks ⟨∅, 0⟩ := by
  refine ⟨?_, hw, by rw [hn]; rfl⟩
  intro addr
  simp [Lists, h.lookup]

/-- A new service is in step with the roster after every call exactly when no call is a join. -/
theorem maintains_iff (hs : mgmtServiceAlloc rt addr fsname dir = some (some s)) :
    s.Maintains rt os ↔ ∀ o ∈ os, o.isJoin = false := by
  obtain ⟨hv, hw, hn⟩ := alloc_vacant hs
  constructor
  · intro h
    obtain ⟨s', hrun, -⟩ := h.tracks os List.prefix_rfl
    exact (hv.run_eq_some.mp hrun).2
  · intro hos
    constructor
    · intro done hdone
      have hmem : ∀ o ∈ done, o.isJoin = false := fun o ho => hos o (hdone.subset ho)
      refine ⟨s, hv.run_eq_some.mpr ⟨rfl, hmem⟩, ?_⟩
      rw [Roster.after_expulsions]
      · exact hv.tracks hw hn
      · intro o ho
        obtain ⟨q, hq, rfl⟩ := List.mem_map.mp ho
        cases q with
        | join p => cases hmem _ hq
        | expel p => rfl
    · intro done p hdone
      cases hos (.join p) (hdone.subset (by simp))

end MgmtService

/-- Nodes that can be reached, with addresses short enough to lie inside of the string record. -/
def nearRuntime : Runtime where
  stlSocketInitClient _ _ := 5
  stlHashCrc32a _ _ := 0
  copy key value := (key, value)
  textAt node := node.nodeAddr.text.getD []

def metaPeer (addr : Str) (port : ℤ) : Peer :=
  ⟨⟨.str addr, .str (['m', 'e', 't', 'a'].map chr), mgmtMetaNode, port, 5⟩, addr, rfl⟩

theorem nearRuntime_alloc : ∃ s, mgmtServiceAlloc nearRuntime (some (['h', ':', '1'].map chr))
    (some [chr 'f']) (some [chr 'd']) = some (some s) :=
  ⟨_, rfl⟩

theorem maintains_iff_two :
    ∃ s, mgmtServiceAlloc nearRuntime (some (['h', ':', '1'].map chr)) (some [chr 'f'])
        (some [chr 'd']) = some (some s) ∧
      s.Maintains nearRuntime [.expel (metaPeer [chr 'a'] 1)] ∧
      ¬ s.Maintains nearRuntime [.expel (metaPeer [chr 'a'] 1), .join (metaPeer [chr 'b'] 1)] := by
  obtain ⟨s, hs⟩ := nearRuntime_alloc
  refine ⟨s, hs, (MgmtService.maintains_iff hs).mpr ?_, ?_⟩
  · simp [Membership.isJoin]
  · intro h
    have hjoin := (MgmtService.maintains_iff hs).mp h (.join (metaPeer [chr 'b'] 1)) (by simp)
    cases hjoin

/-- Joining `a:1` to a new service stores through a null pointer. -/
theorem join_undefined :
    ∃ s, mgmtServiceAlloc nearRuntime (some (['h', ':', '1'].map chr)) (some [chr 'f'])
        (some [chr 'd']) = some (some s) ∧
      s.mgmtServiceJoinNode nearRuntime (metaPeer (['a', ':', '1'].map chr) 1).node = none ∧
      ¬ s.Maintains nearRuntime [.join (metaPeer (['a', ':', '1'].map chr) 1)] := by
  obtain ⟨s, hs⟩ := nearRuntime_alloc
  refine ⟨s, hs, (MgmtService.alloc_vacant hs).1.join _, ?_⟩
  intro h
  obtain ⟨s', hrun, -⟩ := h.tracks _ List.prefix_rfl
  have hjoin := ((MgmtService.alloc_vacant hs).1.run_eq_some.mp hrun).2 _ List.mem_cons_self
  cases hjoin

end KirinFS.Mgmt
