import KirinFS.StlString.Memory

/-! # Access to strings and blocks

What a load, a store or a release leaves, in terms of whole strings and blocks.
-/

namespace KirinFS.StlString
open Foundation.Bytes Foundation.CString Function

namespace Memory
variable {m m' : Memory} {k : ℕ} {c c' : StlString} {p : ℕ} {obj : List UInt8}

def splice (obj : List UInt8) (off : ℕ) (bs : List UInt8) : List UInt8 :=
  obj.take off ++ bs ++ obj.drop (off + bs.length)

def withStr (m : Memory) (k : ℕ) (c : StlString) : Memory := { m with strs := m.strs.set k c }

def withBlock (m : Memory) (p : ℕ) (obj : List UInt8) : Memory :=
  { m with heap := update m.heap p (some obj) }

def withoutBlock (m : Memory) (p : ℕ) : Memory := { m with heap := update m.heap p none }

def withBoth (m : Memory) (k : ℕ) (c : StlString) (p : ℕ) (obj : List UInt8) : Memory :=
  (m.withStr k c).withBlock p obj

section Access

theorem withStr_self (hk : m.strs[k]? = some c) : (m.withStr k c').strs[k]? = some c' := by
  obtain ⟨hlt, -⟩ := List.getElem?_eq_some_iff.mp hk
  exact List.getElem?_set_self hlt

@[simp] theorem withStr_withStr : (m.withStr k c).withStr k c' = m.withStr k c' := by
  simp [withStr]

theorem set_same (hk : m.strs[k]? = some c) : m.strs.set k c = m.strs := by
  obtain ⟨hlt, rfl⟩ := List.getElem?_eq_some_iff.mp hk
  rw [List.set_getElem_self]

theorem withStr_same (hk : m.strs[k]? = some c) : m.withStr k c = m := by
  rw [withStr, set_same hk]

theorem withBlock_withStr : (m.withBlock p obj).withStr k c = (m.withStr k c).withBlock p obj := rfl

theorem modifyStr_eq (hk : m.strs[k]? = some c) (f : StlString → StlString) :
    m.modifyStr k f = m.withStr k (f c) := by
  obtain ⟨hlt, rfl⟩ := List.getElem?_eq_some_iff.mp hk
  have hset : m.strs.modify k f = m.strs.set k (f m.strs[k]) := by
    apply List.ext_getElem?
    intro j
    rw [List.getElem?_modify, List.getElem?_set]
    by_cases hkj : k = j
    · subst hkj
      simp [hlt]
    · simp [hkj]
  rw [modifyStr, withStr, hset]

theorem splice_nil (obj : List UInt8) (off : ℕ) : splice obj off [] = obj := by
  simp [splice]

theorem store_inData (hk : m.strs[k]? = some c) {off : ℕ} {bs : List UInt8}
    (hfit : off + bs.length ≤ c.data.length) :
    m.store (.inData k) off bs = some (m.withStr k { c with data := splice c.data off bs }) := by
  rw [store]
  split
  · next hnil =>
    subst hnil
    rw [splice_nil, withStr_same hk]
  · rw [object, hk, Option.map_some, Option.bind_some, if_pos hfit]
    exact congrArg some (modifyStr_eq hk _)

theorem store_block (hp : m.heap p = some obj) {off : ℕ} {bs : List UInt8}
    (hfit : off + bs.length ≤ obj.length) :
    m.store (.block p) off bs = some (m.withBlock p (splice obj off bs)) := by
  rw [store]
  split
  · next hnil =>
    subst hnil
    rw [splice_nil, withBlock, ← hp, update_eq_self]
  · rw [object, hp, Option.bind_some, if_pos hfit]
    rfl

theorem withBlock_modifyStr (hk : m.strs[k]? = some c) (f : StlString → StlString) :
    (m.withBlock p obj).modifyStr k f = m.withBoth k (f c) p obj :=
  modifyStr_eq (m := m.withBlock p obj) hk f

theorem withBoth_modifyStr (hk : m.strs[k]? = some c) (f : StlString → StlString) :
    (m.withBoth k c' p obj).modifyStr k f = m.withBoth k (f c') p obj := by
  have hk' : (m.withBoth k c' p obj).strs[k]? = some c' := withStr_self hk
  rw [modifyStr_eq hk', withBoth, ← withBlock_withStr]
  simp [withBoth, withStr, withBlock]

theorem withBoth_self (hk : m.strs[k]? = some c) : (m.withBoth k c' p obj).strs[k]? = some c' :=
  withStr_self hk

theorem withBoth_withStr {d : StlString} :
    (m.withBoth k c p obj).withStr k d = m.withBoth k d p obj := by
  simp [withBoth, withStr, withBlock]

theorem withBoth_store {off : ℕ} {bs : List UInt8} (hfit : off + bs.length ≤ obj.length) :
    (m.withBoth k c p obj).store (.block p) off bs =
      some (m.withBoth k c p (splice obj off bs)) := by
  have hobj : (m.withBoth k c p obj).heap p = some obj := update_self _ _ _
  rw [store_block hobj hfit]
  simp [withBoth, withBlock]

theorem free_block (hp : m.heap p = some obj) (hne : p ≠ 0) :
    m.free (.block p) = some (m.withoutBlock p) := by
  rw [free, if_neg hne, hp]
  rfl

theorem load_eq (place : Place) (hobj : m.object place = some obj) {n : ℕ}
    (hn : n ≤ obj.length) : m.load place n = some (obj.take n) := by
  rw [load]
  split
  · next h => rw [h, List.take_zero]
  · rw [hobj, Option.bind_some, if_pos hn]

end Access

end Memory

section Splice
variable {a b bs : List UInt8} {off : ℕ}
open Memory

theorem splice_append (h : off + bs.length ≤ a.length) :
    splice (a ++ b) off bs = splice a off bs ++ b := by
  rw [splice, splice, List.take_append_of_le_length (by omega), List.drop_append_of_le_length h]
  simp

theorem splice_at (a b bs : List UInt8) :
    splice (a ++ b) a.length bs = a ++ bs ++ b.drop bs.length := by
  rw [splice, List.take_left, List.drop_append, List.drop_eq_nil_of_le (by omega),
    Nat.add_sub_cancel_left, List.nil_append]

theorem splice_over {c : List UInt8} {n : ℕ} (ha : a.length = n) (hb : bs.length = b.length) :
    splice (a ++ b ++ c) n bs = a ++ bs ++ c := by
  subst ha
  rw [List.append_assoc, splice_at, hb, List.drop_left]

theorem splice_length (h : off + bs.length ≤ a.length) : (splice a off bs).length = a.length := by
  simp only [splice, List.length_append, List.length_take, List.length_drop]
  omega

theorem splice_isStr (ha : IsStr a) (hbs : IsStr bs) : IsStr (splice a off bs) := by
  intro x hx
  rcases List.mem_append.mp hx with hx | hx
  · rcases List.mem_append.mp hx with hx | hx
    · exact ha x (List.mem_of_mem_take hx)
    · exact hbs x hx
  · exact ha x (List.mem_of_mem_drop hx)

theorem splice_same {x : UInt8} (h : a[off]? = some x) : splice a off [x] = a := by
  obtain ⟨hlt, rfl⟩ := List.getElem?_eq_some_iff.mp h
  rw [splice, List.length_singleton, List.append_assoc, List.singleton_append,
    ← List.drop_eq_getElem_cons hlt, List.take_append_drop]

end Splice

end KirinFS.StlString
