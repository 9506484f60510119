import KirinFS.Foundation.Histories
import KirinFS.StlString.Operations

/-! # Runs of string operations

The inputs for which every operation keeps all strings in their form.
-/

namespace KirinFS.StlString
open Foundation.CString Foundation.Histories Memory

/-- A call, with what the allocator and `vsnprintf` return. -/
inductive Action
  | alloc (s : Str) (base : Option ℕ)
  | append (k : ℕ) (s : Str) (base : ℕ) (junk : ℕ → UInt8)
  | trim (k : ℕ)
  | replace (k : ℕ) (old new : Str) (base : ℕ) (junk : ℕ → UInt8)
  | dup (src dst base : ℕ)
  | sprintf (k : ℕ) (out : Option (List UInt8)) (base : ℕ)
  | convert (k : ℕ) (flag : Bool)
  | reset (k : ℕ)

namespace Memory

def step (m : Memory) : Action → Option Memory
  | .alloc s base => m.stlStringAlloc s base
  | .append k s base junk => (m.stlStringAppend k s base junk).map Prod.fst
  | .trim k => m.stlStringTrim k
  | .replace k old new base junk => (m.stlStringReplace k old new base junk).map Prod.fst
  | .dup src dst base => (m.stlStringDup src dst base).map Prod.fst
  | .sprintf k out base => (m.stlStringSprintf k out base).map Prod.fst
  | .convert k flag => (m.stlStringoXxx k flag).map Prod.fst
  | .reset k => m.stlStringReset k

/-- What `realloc` may return for the block of string `k`. -/
def Returned (m : Memory) (k base : ℕ) : Prop :=
  Fresh m base ∨ ∃ c, m.strs[k]? = some c ∧ stlStringInlineLen ≤ c.len ∧ base = c.ptr

/-- The calls that can be made. Where an assertion fails there is no next state. -/
def can (m : Memory) : Action → Prop
  | .alloc s base => IsStr s ∧ ∀ p ∈ base, Fresh m p
  | .append k s base _ => k < m.strs.length ∧ IsStr s ∧ Returned m k base
  | .trim k => k < m.strs.length
  | .replace k old new base _ =>
    k < m.strs.length ∧ IsStr old ∧ IsStr new ∧ (base = 0 ∨ Returned m k base)
  | .dup src dst base =>
    src < m.strs.length ∧ dst < m.strs.length ∧ (base = 0 ∨ Fresh m base) ∧
      ∀ c d, m.strs[src]? = some c → m.strs[dst]? = some d → stlStringInlineLen ≤ c.len → d.ptr ≠ 0
  | .sprintf k _ base => k < m.strs.length ∧ Fresh m base
  | .convert k _ => k < m.strs.length
  | .reset k => k < m.strs.length

def textOf (m : Memory) (k : ℕ) : Str :=
  match m.strs[k]? with
  | none => []
  | some c => ((m.object (stlStringData k c)).getD []).take c.len

/-- The inputs for which a call keeps the form of the strings. -/
def KeepsForm (m : Memory) : Action → Prop
  | .alloc s base => stlStringInlineLen ≤ s.length → base ≠ none
  | .append k s _ _ =>
    (textOf m k).length + s.length < stlStringInlineLen ∨ (textOf m k).length = 0
  | .trim k => (textOf m k).length < 2 ^ 31 ∧ ((trimmed (textOf m k)).length = 0 ∨
      stlStringInlineLen ≤ (textOf m k).length ∧
        ((trimmed (textOf m k)).length < stlStringInlineLen ∨
          (trimmed (textOf m k)).length = (textOf m k).length))
  | .replace k old new base _ => ∀ i ∈ firstAt old (textOf m k),
      i + new.length = (textOf m k).length ∧
        ((textOf m k).length < stlStringInlineLen ∨ ∀ c, m.strs[k]? = some c → base = c.ptr)
  | .dup src dst _ => (textOf m src).length = 0 ∨ src ≠ dst ∧
      (textOf m dst).length < stlStringInlineLen ∧ (textOf m src).length ≤ (textOf m dst).length
  | .sprintf k out _ => ∀ o ∈ out,
      o.length < stlStringInlineLen ∧ o.length ≤ (textOf m k).length ∧ IsStr o
  | .convert _ _ => True
  | .reset k => (textOf m k).length = 0 ∨ stlStringInlineLen ≤ (textOf m k).length

end Memory

/-- `data` and `len` describe one C string: it lies in `in_data` if it is short, and otherwise
behind `ptr`. -/
def InForm (m : Memory) (c : StlString) : Prop :=
  ∃ s, IsStr s ∧ c.len = s.length ∧ (c.len < stlStringInlineLen → s ++ [0] <+: c.data) ∧
    (stlStringInlineLen ≤ c.len → ∃ obj, m.heap c.ptr = some obj ∧ s ++ [0] <+: obj)

/-- The call is defined and leaves every string in its form. -/
def LeavesForm (m : Memory) (a : Action) : Prop :=
  ∃ m', m.step a = some m' ∧ ∀ c ∈ m'.strs, InForm m' c

variable {m m' : Memory} {k : ℕ} {c : StlString} {s : Str} {a : Action}

theorem Holds.inForm (h : Holds m c s) : InForm m c := by
  refine ⟨s, h.str, h.len, ?_, ?_⟩
  · intro hlt
    rw [h.len] at hlt
    rw [h.short hlt]
    refine ⟨List.replicate (stlStringInlineLen - s.length - 1) 0, ?_⟩
    rw [List.append_assoc, List.singleton_append, ← List.replicate_succ]
    congr 2
    omega
  · intro hlong
    rw [h.len] at hlong
    exact ⟨_, (h.long hlong).2.2, List.prefix_refl _⟩

theorem Holds.textOf_eq (h : Holds m c s) (hk : m.strs[k]? = some c) : m.textOf k = s := by
  obtain ⟨z, hobj⟩ := h.object_eq hk
  simp only [textOf, hk, hobj, Option.getD_some, h.len, List.take_left]

theorem Kept.get (hK : Kept m) (hk : k < m.strs.length) :
    ∃ c s, m.strs[k]? = some c ∧ Holds m c s ∧ m.textOf k = s := by
  obtain ⟨s, hs⟩ := hK.holds _ (List.getElem_mem hk)
  have hget := List.getElem?_eq_getElem hk
  exact ⟨_, s, hget, hs, hs.textOf_eq hget⟩

theorem Kept.step (hK : Kept m) (hcan : m.can a) (hform : m.KeepsForm a) :
    ∃ m', m.step a = some m' ∧ Kept m' := by
  cases a with
  | alloc s base =>
    obtain ⟨hs, hfresh⟩ := hcan
    exact alloc_kept hK hs hfresh hform
  | append k t base junk =>
    obtain ⟨hk, ht, hbase⟩ := hcan
    obtain ⟨c, s, hget, hs, htext⟩ := hK.get hk
    rw [KeepsForm, htext] at hform
    have hfresh : stlStringInlineLen ≤ s.length + t.length → Fresh m base := by
      intro hlong
      rcases hbase with hfresh | ⟨d, hd, hdlong, -⟩
      · exact hfresh
      · obtain rfl := Option.some.inj (hget.symm.trans hd)
        rw [hs.len] at hdlong
        rcases hform with hform | hform
        · omega
        · rw [hform] at hdlong
          exact absurd hdlong (by decide)
    obtain ⟨m', c', heq, -, -, hkept⟩ := append_kept hK hget hs ht hform hfresh junk
    exact ⟨m', by rw [Memory.step, heq]; rfl, hkept⟩
  | trim k =>
    obtain ⟨c, s, hget, hs, htext⟩ := hK.get hcan
    rw [KeepsForm, htext] at hform
    obtain ⟨m', c', heq, -, -, hkept⟩ := trim_kept hK hget hs hform.1 hform.2
    exact ⟨m', heq, hkept⟩
  | replace k old new base junk =>
    obtain ⟨hk, hold, hnew, -⟩ := hcan
    obtain ⟨c, s, hget, hs, htext⟩ := hK.get hk
    rw [KeepsForm, htext] at hform
    obtain ⟨m', c', r, heq, -, -, hkept⟩ := replace_kept hK hget hs hold hnew junk fun i hi =>
      ⟨(hform i hi).1, (hform i hi).2.imp_right fun hbase => hbase c hget⟩
    exact ⟨m', by rw [Memory.step, heq]; rfl, hkept⟩
  | dup src dst base =>
    obtain ⟨hsrc, hdst, -⟩ := hcan
    obtain ⟨d, t, hgetd, ht, htextd⟩ := hK.get hsrc
    obtain ⟨c, s, hgetc, hs, htextc⟩ := hK.get hdst
    rw [KeepsForm, htextd, htextc] at hform
    obtain ⟨m', c', heq, -, -, hkept⟩ := dup_kept hK hgetd ht hgetc hs hform base
    exact ⟨m', by rw [Memory.step, heq]; rfl, hkept⟩
  | sprintf k out base =>
    obtain ⟨c, s, hget, hs, htext⟩ := hK.get hcan.1
    rw [KeepsForm, htext] at hform
    obtain ⟨m', c', r, heq, -, -, hkept⟩ := sprintf_kept hK hget hs hform base
    exact ⟨m', by rw [Memory.step, heq]; rfl, hkept⟩
  | convert k flag =>
    obtain ⟨c, s, hget, hs, -⟩ := hK.get hcan
    obtain ⟨m', c', heq, -, -, hkept⟩ := xxx_kept hK hget hs flag
    exact ⟨m', by rw [Memory.step, heq]; rfl, hkept⟩
  | reset k =>
    obtain ⟨c, s, hget, hs, htext⟩ := hK.get hcan
    rw [KeepsForm, htext] at hform
    obtain ⟨m', c', heq, -, -, hkept⟩ := reset_kept hK hget hs hform
    exact ⟨m', heq, hkept⟩

def noStrings : Memory := ⟨fun _ => none, []⟩

/-- In a run of such calls every string is in its form at all times. -/
theorem inForm_throughout {as : List Action} (hcan : Along Memory.step can noStrings as)
    (hform : Along Memory.step KeepsForm noStrings as) :
    Along Memory.step LeavesForm noStrings as := by
  have hstart : Kept noStrings := ⟨by simp [noStrings], by simp [noStrings]⟩
  refine along_of (I := Kept) ?_ hstart hcan hform
  intro m a hK hc hf
  obtain ⟨m', heq, hK'⟩ := hK.step hc hf
  refine ⟨⟨m', heq, fun c hcm => ?_⟩, ?_⟩
  · obtain ⟨s, hs⟩ := hK'.holds c hcm
    exact hs.inForm
  · intro m'' heq'
    obtain rfl := Option.some.inj (heq.symm.trans heq')
    exact hK'

section Examples

def str (cs : List Char) : Str := cs.map chr

/-- Two short strings are made and put together within the seven bytes. -/
theorem inForm_throughout_short : Along Memory.step LeavesForm noStrings
    [.alloc (str ['a', 'b', 'c']) none, .append 0 (str ['d', 'e']) 16 fun _ => 0] := by
  refine inForm_throughout ?_ ?_
  · refine ⟨⟨by decide, by simp⟩, fun m hm => ?_⟩
    cases hm
    exact ⟨⟨by decide, by decide, Or.inl ⟨by decide, by decide, rfl⟩⟩, fun _ _ => trivial⟩
  · refine ⟨fun h => absurd h (by decide), fun m hm => ?_⟩
    cases hm
    exact ⟨Or.inl (by decide), fun _ _ => trivial⟩

/-- A short text is still there after a reset. -/
theorem not_inForm_reset :
    Along Memory.step can noStrings [.alloc (str ['a', 'b', 'c']) none, .reset 0] ∧
      ¬ Along Memory.step LeavesForm noStrings
        [.alloc (str ['a', 'b', 'c']) none, .reset 0] := by
  constructor
  · refine ⟨⟨by decide, by simp⟩, fun m hm => ?_⟩
    cases hm
    exact ⟨Nat.one_pos, fun _ _ => trivial⟩
  · rintro ⟨-, hrest⟩
    obtain ⟨⟨m, hm, hform⟩, -⟩ := hrest _ rfl
    cases hm
    obtain ⟨s, -, hlen, hshort, -⟩ := hform ⟨[97, 98, 99, 0, 0, 0, 0, 0], 0⟩ (by decide)
    obtain rfl := List.length_eq_zero_iff.mp hlen.symm
    exact absurd (hshort (by decide)) (by decide)

end Examples

end KirinFS.StlString
