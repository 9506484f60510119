import KirinFS.Foundation.RedBlack
import KirinFS.Rbtree.Tree

/-! # Trees in memory

A tree hangs on a pointer, its leaves are the sentinel, and its nodes know their
parents. The frames above it lead up to the root.
-/

namespace KirinFS.Rbtree
open Foundation.RedBlack Foundation.RedBlack.ColorTree Function

def sideOf : Bool → Side
  | false => .left
  | true => .right

def hue : Bool → Color
  | false => .black
  | true => .red

@[simp] theorem sideOf_not (d : Bool) : (sideOf d).other = sideOf !d := by
  cases d <;> rfl

section Records
variable {K D : Type} {x : StlRbtreeNode K D} {d e : Side} {p : Option ℕ}

namespace StlRbtreeNode

theorem child_setChild : (x.setChild d p).child e = if e = d then p else x.child e := by
  cases d <;> cases e <;> rfl

theorem child_withParent : StlRbtreeNode.child { x with parent := p } e = x.child e := by
  cases e <;> rfl

@[simp] theorem setChild_key : (x.setChild d p).key = x.key := by cases d <;> rfl

@[simp] theorem setChild_data : (x.setChild d p).data = x.data := by cases d <;> rfl

@[simp] theorem setChild_color : (x.setChild d p).color = x.color := by cases d <;> rfl

@[simp] theorem setChild_parent : (x.setChild d p).parent = x.parent := by cases d <;> rfl

end StlRbtreeNode

end Records

section Links
variable {K D : Type} {mem mem' : ℕ → StlRbtreeNode K D} {s : ℕ} {root : Option ℕ}

/-- The tree hangs on `q`, and its root has the parent `parent`. -/
def Rep (mem : ℕ → StlRbtreeNode K D) (s : ℕ) : ColorTree ℕ → (parent q : Option ℕ) → Prop
  | .leaf, _, q => q = some s
  | .node red l n r, parent, q => q = some n ∧ (mem n).color = hue red ∧ (mem n).parent = parent ∧
      Rep mem s l (some n) ((mem n).child .left) ∧ Rep mem s r (some n) ((mem n).child .right)

/-- The frames lead from a hole with the pointer `q` and the parent `parent` up to the root. -/
def Above (mem : ℕ → StlRbtreeNode K D) (s : ℕ) (root : Option ℕ) :
    List (Frame ℕ) → (parent q : Option ℕ) → Prop
  | [], _, q => root = q
  | f :: k, parent, q => parent = some f.x ∧ (mem f.x).color = hue f.red ∧
      (mem f.x).child (sideOf f.right) = q ∧
      Rep mem s f.sibling (some f.x) ((mem f.x).child (sideOf !f.right)) ∧
      Above mem s root k (mem f.x).parent (some f.x)

variable {d c : Bool} {near far T : ColorTree ℕ} {x : ℕ} {k : List (Frame ℕ)} {parent q : Option ℕ}

theorem rep_join : Rep mem s (join d c near x far) parent q ↔
    q = some x ∧ (mem x).color = hue c ∧ (mem x).parent = parent ∧
      Rep mem s near (some x) ((mem x).child (sideOf d)) ∧
      Rep mem s far (some x) ((mem x).child (sideOf !d)) := by
  cases d with
  | false => exact Iff.rfl
  | true =>
    refine and_congr_right fun _ => and_congr_right fun _ => and_congr_right fun _ => ?_
    exact and_comm

theorem Rep.congr (h : Rep mem s T parent q) (hm : ∀ x ∈ T.inorder, mem' x = mem x) :
    Rep mem' s T parent q := by
  induction T generalizing parent q with
  | leaf => exact h
  | node red l n r ihl ihr =>
    obtain ⟨hq, hcolor, hparent, hl, hr⟩ := h
    have hn : mem' n = mem n := hm n (by simp [inorder])
    refine ⟨hq, by rw [hn, hcolor], by rw [hn, hparent], ?_, ?_⟩
    · rw [hn]
      exact ihl hl fun x hx => hm x (by simp [inorder, hx])
    · rw [hn]
      exact ihr hr fun x hx => hm x (by simp [inorder, hx])

theorem Above.congr (h : Above mem s root k parent q) (hm : ∀ x ∈ members k, mem' x = mem x) :
    Above mem' s root k parent q := by
  induction k generalizing parent q with
  | nil => exact h
  | cons f k ih =>
    obtain ⟨hp, hcolor, hchild, hsib, hup⟩ := h
    have hf : mem' f.x = mem f.x := hm f.x (by simp [members])
    refine ⟨hp, by rw [hf, hcolor], by rw [hf, hchild], ?_, ?_⟩
    · rw [hf]
      exact hsib.congr fun x hx => hm x (by simp [members, hx])
    · rw [hf]
      exact ih hup fun x hx => hm x (by simp [members, hx])

theorem Rep.pointer (h : Rep mem s T parent q) (hs : (mem s).color = .black) :
    ∃ m, q = some m ∧ (mem m).color = hue T.isRed ∧ (m = s ∨ m ∈ T.inorder) := by
  cases T with
  | leaf => exact ⟨s, h, hs, Or.inl rfl⟩
  | node red l n r => exact ⟨n, h.1, h.2.1, Or.inr (by simp [inorder])⟩

/-- Writing the parent of the root, if there is one. -/
def reparent (T : ColorTree ℕ) (p : Option ℕ) (mem : ℕ → StlRbtreeNode K D) :
    ℕ → StlRbtreeNode K D :=
  match T with
  | .leaf => mem
  | .node _ _ n _ => update mem n { mem n with parent := p }

theorem reparent_other {p : Option ℕ} {z : ℕ} (hz : z ∉ T.inorder) :
    reparent T p mem z = mem z := by
  cases T with
  | leaf => rfl
  | node red l n r =>
    refine update_of_ne ?_ _ _
    rintro rfl
    exact hz (by simp [inorder])

theorem Rep.reparent (h : Rep mem s T parent q) (hT : T.inorder.Nodup) (p : Option ℕ) :
    Rep (reparent T p mem) s T p q := by
  cases T with
  | leaf => exact h
  | node red l n r =>
    obtain ⟨hq, hcolor, -, hl, hr⟩ := h
    have hself : Rbtree.reparent (.node red l n r) p mem n = { mem n with parent := p } :=
      update_self _ _ _
    obtain ⟨-, hnode, hapart⟩ := List.nodup_append.mp hT
    have hnl : n ∉ l.inorder := fun hn => hapart n hn n (by simp) rfl
    have hnr : n ∉ r.inorder := (List.nodup_cons.mp hnode).1
    refine ⟨hq, by rw [hself]; exact hcolor, by rw [hself], ?_, ?_⟩
    · rw [hself]
      exact hl.congr fun x hx => update_of_ne (by rintro rfl; exact hnl hx) _ _
    · rw [hself]
      exact hr.congr fun x hx => update_of_ne (by rintro rfl; exact hnr hx) _ _

def relink (k : List (Frame ℕ)) (q : Option ℕ) (mem : ℕ → StlRbtreeNode K D) :
    ℕ → StlRbtreeNode K D :=
  match k with
  | [] => mem
  | f :: _ => update mem f.x ((mem f.x).setChild (sideOf f.right) q)

theorem relink_other {z : ℕ} (hz : z ∉ members k) : relink k q mem z = mem z := by
  cases k with
  | nil => rfl
  | cons f k =>
    refine update_of_ne ?_ _ _
    rintro rfl
    exact hz (by simp [members])

/-- The root pointer after the link that leads to the hole is written. -/
def rootAfter (k : List (Frame ℕ)) (root q : Option ℕ) : Option ℕ := if k = [] then q else root

theorem Above.relink (h : Above mem s root k parent q) (hk : (members k).Nodup) (q' : Option ℕ) :
    Above (relink k q' mem) s (rootAfter k root q') k parent q' := by
  cases k with
  | nil => rfl
  | cons f k =>
    obtain ⟨hp, hcolor, -, hsib, hup⟩ := h
    have hself : Rbtree.relink (f :: k) q' mem f.x = (mem f.x).setChild (sideOf f.right) q' :=
      update_self _ _ _
    have hout : f.x ∉ f.sibling.inorder ++ members k := (List.nodup_cons.mp hk).1
    rw [List.mem_append, not_or] at hout
    obtain ⟨hfsib, hfk⟩ := hout
    have hside : sideOf (!f.right) ≠ sideOf f.right := by
      cases f.right <;> simp [sideOf]
    refine ⟨hp, ?_, ?_, ?_, ?_⟩
    · rw [hself, StlRbtreeNode.setChild_color, hcolor]
    · rw [hself, StlRbtreeNode.child_setChild, if_pos rfl]
    · rw [hself, StlRbtreeNode.child_setChild, if_neg hside]
      exact hsib.congr fun x hx => update_of_ne (by rintro rfl; exact hfsib hx) _ _
    · rw [hself, StlRbtreeNode.setChild_parent]
      exact hup.congr fun x hx => update_of_ne (by rintro rfl; exact hfk hx) _ _

end Links

end KirinFS.Rbtree
