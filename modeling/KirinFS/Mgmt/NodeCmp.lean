import KirinFS.Dict.Hits
import KirinFS.Mgmt.Membership
import Mathlib.Data.Set.Insert

/-! # Addresses as the table compares them

A stored address is compared as far as it reaches, so that it is found for
every address that it begins.
-/

namespace KirinFS.Mgmt
open Foundation.CString Foundation.LinkedChain Dict StlString Function

/-- A stored address passes for another just if it is a prefix of it. -/
theorem mgmtServiceNodeCmp_eq_zero {a : Str} (ha : IsStr a) (b : Str) :
    mgmtServiceNodeCmp (addrItem a) (addrItem b) = 0 ↔ a <+: b := by
  rw [← strncmp_eq_zero ha]
  exact strncmp_comm a.length a b

def addresses (d : StlDict ItemData) : Set Str :=
  {a | ∃ i < d.maxCount, ∃ e ∈ d.chain i, e.2.1.data = .str a}

/-- Addresses are told apart: a lookup of `b` and a deletion only get at a pair with the address
`b`, and the comparison is an equivalence of the stored addresses and `b`. -/
structure TellsApart (d : StlDict ItemData) (b : Str) : Prop where
  lookup : ∀ n v, d.stlDictLookup (addrItem b) = some (some (n, v)) →
    ∃ x, d.heap n = some x ∧ x.key.data = .str b
  delete : ∀ d' r n x, d.stlDictDelete (addrItem b) = some (d', r) → d.heap n = some x →
    d'.heap n = none → x.key.data = .str b
  same : Equivalence fun a a' : ↥(insert b (addresses d)) =>
    mgmtServiceNodeCmp (addrItem a.1) (addrItem a'.1) = 0

variable {d : StlDict ItemData} {b : Str}

theorem hit_prefix {n : ℕ} {x : StlDictItemPair ItemData} (hcmp : d.cmp = mgmtServiceNodeCmp)
    (hstr : ∀ a ∈ addresses d, IsStr a) (h : d.Hit (addrItem b) n x) :
    ∃ a ∈ addresses d, x.key.data = .str a ∧ a <+: b := by
  have hequal := h.equal
  rw [hcmp] at hequal
  cases hdata : x.key.data with
  | node node =>
    simp only [mgmtServiceNodeCmp, hdata, addrItem] at hequal
    exact absurd hequal (by decide)
  | str a =>
    obtain ⟨i, hi, he⟩ := h.stored
    have ha : a ∈ addresses d := ⟨i, hi, _, he, hdata⟩
    refine ⟨a, ha, rfl, (mgmtServiceNodeCmp_eq_zero (hstr a ha) b).mp ?_⟩
    simp only [mgmtServiceNodeCmp, hdata, addrItem] at hequal
    exact hequal

/-- Addresses are told apart just if none of them is a proper prefix of another. -/
theorem tellsApart_iff (hcmp : d.cmp = mgmtServiceNodeCmp) (hstr : ∀ a ∈ addresses d, IsStr a)
    (hb : IsStr b) : TellsApart d b ↔
      ∀ a ∈ insert b (addresses d), ∀ a' ∈ insert b (addresses d), a <+: a' → a = a' := by
  have hall : ∀ a ∈ insert b (addresses d), IsStr a := by
    rintro a (rfl | ha)
    · exact hb
    · exact hstr a ha
  constructor
  · intro h a ha a' ha' hpre
    have hsame := (mgmtServiceNodeCmp_eq_zero (hall a ha) a').mpr hpre
    have hback := h.same.symm (x := ⟨a, ha⟩) (y := ⟨a', ha'⟩) hsame
    exact hpre.eq_of_length_le ((mgmtServiceNodeCmp_eq_zero (hall a' ha') a).mp hback).length_le
  · intro h
    have hhit : ∀ n x, d.Hit (addrItem b) n x → x.key.data = .str b := by
      intro n x hx
      obtain ⟨a, ha, hdata, hpre⟩ := hit_prefix hcmp hstr hx
      rwa [h a (Set.mem_insert_of_mem b ha) b (Set.mem_insert b _) hpre] at hdata
    refine ⟨?_, ?_, ?_, ?_, ?_⟩
    · intro n v hlookup
      obtain ⟨x, hx⟩ := StlDict.lookup_hit hlookup
      exact ⟨x, hx.pair, hhit n x hx⟩
    · intro d' r n x hdelete hx hgone
      exact hhit n x (StlDict.delete_hit hdelete hx hgone)
    · exact fun a => strncmp_self _ a.1
    · intro a a' hsame
      have hpre := (mgmtServiceNodeCmp_eq_zero (hall a a.2) a').mp hsame
      rw [mgmtServiceNodeCmp_eq_zero (hall a' a'.2), h a a.2 a' a'.2 hpre]
    · intro a a' a'' h₁ h₂
      rw [mgmtServiceNodeCmp_eq_zero (hall a a.2)] at h₁ ⊢
      exact h₁.trans ((mgmtServiceNodeCmp_eq_zero (hall a' a'.2) a'').mp h₂)

section Examples

def firstAddr : Str := ['a', ':', '1'].map chr

def oneNode : StlDict ItemData where
  maxCount := 64
  count := 1
  capacity := 4096
  buckets := update (fun _ => none) 0 (some 0)
  heap := update (fun _ => none) 0
    (some ⟨addrItem firstAddr, nodeItem (metaPeer firstAddr 1).node, none⟩)
  fresh := 1
  cmp := mgmtServiceNodeCmp
  hash := nearRuntime.stlHashCrc32a

theorem oneNode_addresses {a : Str} (ha : a ∈ addresses oneNode) : a = firstAddr := by
  obtain ⟨i, -, e, he, hdata⟩ := ha
  cases i with
  | zero =>
    obtain rfl := List.mem_singleton.mp he
    exact (ItemData.str.inj hdata).symm
  | succ i => cases he

theorem tellsApart_other : TellsApart oneNode (['b', ':', '1'].map chr) := by
  refine (tellsApart_iff rfl ?_ (by decide)).mpr ?_
  · intro a ha
    rw [oneNode_addresses ha]
    decide
  · rintro a (rfl | ha) a' (rfl | ha') hpre
    · rfl
    · rw [oneNode_addresses ha'] at hpre
      exact absurd hpre (by decide)
    · rw [oneNode_addresses ha] at hpre
      exact absurd hpre (by decide)
    · rw [oneNode_addresses ha, oneNode_addresses ha']

/-- `a:10` in the same bucket is taken for `a:1`, which was inserted. -/
theorem not_tellsApart_longer :
    ((stlDictInit serviceMaxNodeCount mgmtServiceNodeCmp nearRuntime.stlHashCrc32a).bind fun d =>
      d.stlDictInsert nearRuntime.copy (addrItem firstAddr)
        (nodeItem (metaPeer firstAddr 1).node)) = some (oneNode, 0) ∧
    (∃ v, oneNode.stlDictLookup (addrItem (['a', ':', '1', '0'].map chr)) = some (some (0, v))) ∧
      ¬ TellsApart oneNode (['a', ':', '1', '0'].map chr) := by
  refine ⟨rfl, ⟨_, rfl⟩, fun h => ?_⟩
  obtain ⟨x, hx, hkey⟩ := h.lookup 0 _ rfl
  cases hx
  exact absurd (ItemData.str.inj hkey) (by decide)

end Examples

end KirinFS.Mgmt
