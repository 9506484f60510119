import KirinFS.StlString.Access

/-! # Strings in their form

A string is sound if its text lies where its length says, with a zero behind,
and no two long strings share a block.
-/

namespace KirinFS.StlString
open Foundation.Bytes Foundation.CString Function

/-- The text of `c` lies in its form, followed by zeros in the short one. -/
structure Holds (m : Memory) (c : StlString) (s : Str) : Prop where
  str : IsStr s
  len : c.len = s.length
  short : s.length < stlStringInlineLen →
    c.data = s ++ List.replicate (stlStringInlineLen - s.length) 0
  long : stlStringInlineLen ≤ s.length →
    c.ptr ≠ 0 ∧ c.ptr < 2 ^ 64 ∧ m.heap c.ptr = some (s ++ [0])

/-- The invariant: strings in their form, the long ones in blocks of their own. -/
structure Kept (m : Memory) : Prop where
  holds : ∀ c ∈ m.strs, ∃ s, Holds m c s
  apart : ∀ (j k : ℕ) (c d : StlString), m.strs[j]? = some c → m.strs[k]? = some d → j ≠ k →
    stlStringInlineLen ≤ c.len → stlStringInlineLen ≤ d.len → c.ptr ≠ d.ptr

variable {m m' : Memory} {k : ℕ} {c c' : StlString} {s : Str}

namespace Holds

theorem object_eq (h : Holds m c s) (hk : m.strs[k]? = some c) :
    ∃ z, m.object (stlStringData k c) = some (s ++ 0 :: z) := by
  rw [stlStringData, h.len]
  split
  · next hs =>
    refine ⟨List.replicate (stlStringInlineLen - s.length - 1) 0, ?_⟩
    rw [Memory.object, hk, Option.map_some, h.short hs, ← List.replicate_succ]
    congr 3
    omega
  · next hs => exact ⟨[], (h.long (Nat.not_lt.mp hs)).2.2⟩

theorem data_length (h : Holds m c s) (hs : s.length < stlStringInlineLen) :
    c.data.length = stlStringInlineLen := by
  rw [h.short hs, List.length_append, List.length_replicate]
  omega

theorem congr (h : Holds m c s) (hh : stlStringInlineLen ≤ c.len → m'.heap c.ptr = m.heap c.ptr) :
    Holds m' c s where
  str := h.str
  len := h.len
  short := h.short
  long := by
    intro hs
    rw [hh (by rw [h.len]; exact hs)]
    exact h.long hs

end Holds

/-- One string changes, with its own block or one that was free. -/
theorem Kept.update (h : Kept m) (hk : m.strs[k]? = some c)
    (hstrs : m'.strs = m.strs.set k c') (hnew : ∃ s, Holds m' c' s)
    (hheap : ∀ q, m.heap q ≠ none → (stlStringInlineLen ≤ c.len → q ≠ c.ptr) →
      m'.heap q = m.heap q)
    (hptr : stlStringInlineLen ≤ c'.len →
      (stlStringInlineLen ≤ c.len ∧ c'.ptr = c.ptr) ∨ m.heap c'.ptr = none) : Kept m' := by
  obtain ⟨hlt, -⟩ := List.getElem?_eq_some_iff.mp hk
  have hother : ∀ j d, j ≠ k → m'.strs[j]? = some d → m.strs[j]? = some d := by
    intro j d hjk hd
    rwa [hstrs, List.getElem?_set_ne (Ne.symm hjk)] at hd
  have hself : ∀ d, m'.strs[k]? = some d → d = c' := by
    intro d hd
    rw [hstrs, List.getElem?_set_self hlt] at hd
    exact (Option.some.inj hd).symm
  have hlive : ∀ d ∈ m.strs, stlStringInlineLen ≤ d.len → m.heap d.ptr ≠ none := by
    intro d hd hlong
    obtain ⟨t, ht⟩ := h.holds d hd
    rw [(ht.long (by rw [← ht.len]; exact hlong)).2.2]
    simp
  refine ⟨?_, ?_⟩
  · intro d hd
    obtain ⟨j, hj⟩ := List.mem_iff_getElem?.mp hd
    by_cases hjk : j = k
    · subst hjk
      rw [hself d hj]
      exact hnew
    · have hjd := hother j d hjk hj
      have hmem := List.mem_of_getElem? hjd
      obtain ⟨t, ht⟩ := h.holds d hmem
      refine ⟨t, ht.congr fun hlong => hheap _ (hlive d hmem hlong) fun hc => ?_⟩
      exact h.apart j k d c hjd hk hjk hlong hc
  · have hcross : ∀ j d, j ≠ k → m'.strs[j]? = some d → stlStringInlineLen ≤ d.len →
        stlStringInlineLen ≤ c'.len → d.ptr ≠ c'.ptr := by
      intro j d hjk hd hlong hlong'
      have hjd := hother j d hjk hd
      rcases hptr hlong' with ⟨hc, heq⟩ | hfree
      · rw [heq]
        exact h.apart j k d c hjd hk hjk hlong hc
      · intro heq
        rw [← heq] at hfree
        exact hlive d (List.mem_of_getElem? hjd) hlong hfree
    intro i j a b ha hb hij hla hlb
    by_cases hik : i = k
    · subst hik
      rw [hself a ha] at hla ⊢
      exact (hcross j b (Ne.symm hij) hb hlb hla).symm
    · by_cases hjk : j = k
      · subst hjk
        rw [hself b hb] at hlb ⊢
        exact hcross i a hik ha hla hlb
      · exact h.apart i j a b (hother i a hik ha) (hother j b hjk hb) hij hla hlb

section Text
open Memory
variable {bs : List UInt8}

theorem store_text (hK : Kept m) (hk : m.strs[k]? = some c) (h : Holds m c s) (off : ℕ)
    (hbs : IsStr bs) (hfit : off + bs.length ≤ s.length) :
    ∃ m' c', m.store (stlStringData k c) off bs = some m' ∧ m'.strs = m.strs.set k c' ∧
      stlStringData k c' = stlStringData k c ∧ Holds m' c' (splice s off bs) ∧ Kept m' := by
  have hlen := splice_length hfit
  by_cases hs : s.length < stlStringInlineLen
  · have hplace : stlStringData k c = .inData k := by rw [stlStringData, h.len, if_pos hs]
    have hdata := h.data_length hs
    have hroom : off + bs.length ≤ c.data.length := by omega
    have hstore := store_inData hk hroom
    have hnew : Holds (m.withStr k { c with data := splice c.data off bs })
        { c with data := splice c.data off bs } (splice s off bs) := by
      refine ⟨splice_isStr h.str hbs, by rw [hlen]; exact h.len, ?_, ?_⟩
      · intro _
        simp only
        rw [h.short hs, splice_append hfit, hlen]
      · intro hlong
        rw [hlen] at hlong
        omega
    refine ⟨_, { c with data := splice c.data off bs }, by rw [hplace, hstore], rfl, ?_, hnew, ?_⟩
    · rw [hplace, stlStringData, h.len, if_pos hs]
    · refine hK.update hk rfl ⟨_, hnew⟩ (fun _ _ _ => rfl) ?_
      intro hlong
      simp only [h.len] at hlong
      omega
  · have hlong := Nat.not_lt.mp hs
    have hplace : stlStringData k c = .block c.ptr := by rw [stlStringData, h.len, if_neg hs]
    obtain ⟨hne, hlt, hobj⟩ := h.long hlong
    have hroom : off + bs.length ≤ (s ++ [0]).length := by simp; omega
    have hstore := store_block hobj hroom
    rw [splice_append hfit] at hstore
    have hnew : Holds (m.withBlock c.ptr (splice s off bs ++ [0])) c (splice s off bs) := by
      refine ⟨splice_isStr h.str hbs, by rw [hlen]; exact h.len, ?_, ?_⟩
      · intro hshort
        rw [hlen] at hshort
        omega
      · intro _
        exact ⟨hne, hlt, update_self _ _ _⟩
    have hsame : (m.withBlock c.ptr (splice s off bs ++ [0])).strs = m.strs.set k c :=
      (set_same hk).symm
    refine ⟨_, c, by rw [hplace, hstore], hsame, rfl, hnew, ?_⟩
    · refine hK.update hk hsame ⟨_, hnew⟩ ?_ ?_
      · intro q _ hq
        exact update_of_ne (hq (by rw [h.len]; exact hlong)) _ _
      · intro hc
        exact Or.inl ⟨hc, rfl⟩

end Text

def shortStr (s : Str) : StlString :=
  ⟨s ++ List.replicate (stlStringInlineLen - s.length) 0, s.length⟩

def longStr (p : ℕ) (s : Str) : StlString := ⟨toBytes 8 p, s.length⟩

theorem ptr_toBytes {p : ℕ} (hp : p < 2 ^ 64) (len : ℕ) : StlString.ptr ⟨toBytes 8 p, len⟩ = p := by
  rw [StlString.ptr, ofBytes_toBytes]
  exact Nat.mod_eq_of_lt hp

/-- An address that an allocator may return. -/
def Fresh (m : Memory) (p : ℕ) : Prop := p ≠ 0 ∧ p < 2 ^ 64 ∧ m.heap p = none

section Forms
open Memory
variable {p : ℕ}

/-- Changing to the short form, where the own block may be freed. -/
theorem Kept.toShort (hK : Kept m) (hk : m.strs[k]? = some c) (hs : IsStr s)
    (hlt : s.length < stlStringInlineLen) (hstrs : m'.strs = m.strs.set k (shortStr s))
    (hheap : ∀ q, m.heap q ≠ none → (stlStringInlineLen ≤ c.len → q ≠ c.ptr) →
      m'.heap q = m.heap q) : Holds m' (shortStr s) s ∧ Kept m' := by
  have hnew : Holds m' (shortStr s) s :=
    ⟨hs, rfl, fun _ => rfl, fun hlong => absurd hlt (Nat.not_lt.mpr hlong)⟩
  refine ⟨hnew, hK.update hk hstrs ⟨s, hnew⟩ hheap ?_⟩
  intro hlong
  exact absurd hlt (Nat.not_lt.mpr hlong)

theorem Kept.toLong (hK : Kept m) (hk : m.strs[k]? = some c) (hs : IsStr s)
    (hlong : stlStringInlineLen ≤ s.length) (hp : Fresh m p)
    (hstrs : m'.strs = m.strs.set k (longStr p s))
    (hheap : m'.heap = Function.update m.heap p (some (s ++ [0]))) :
    Holds m' (longStr p s) s ∧ Kept m' := by
  obtain ⟨hne, hlt, hfree⟩ := hp
  have hptr : (longStr p s).ptr = p := ptr_toBytes hlt _
  have hnew : Holds m' (longStr p s) s := by
    refine ⟨hs, rfl, fun hshort => absurd hshort (Nat.not_lt.mpr hlong), fun _ => ?_⟩
    rw [hptr, hheap]
    exact ⟨hne, hlt, update_self _ _ _⟩
  refine ⟨hnew, hK.update hk hstrs ⟨s, hnew⟩ ?_ ?_⟩
  · intro q hq _
    rw [hheap]
    refine update_of_ne ?_ _ _
    rintro rfl
    exact hq hfree
  · intro _
    rw [hptr]
    exact Or.inr hfree

theorem shortStr_end (hlt : s.length < stlStringInlineLen) :
    (shortStr s).data[s.length]? = some 0 := by
  rw [shortStr, List.getElem?_append_right (Nat.le_refl _), Nat.sub_self, List.getElem?_replicate,
    if_pos (by omega)]

theorem Holds.eq_shortStr (h : Holds m c s) (hlt : s.length < stlStringInlineLen) :
    c = shortStr s := by
  rw [shortStr, ← h.short hlt, ← h.len]

end Forms

end KirinFS.StlString
