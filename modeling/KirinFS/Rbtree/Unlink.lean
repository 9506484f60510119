import KirinFS.Rbtree.Rebalance

/-! # Taking a node out of its place

A node with a leaf on one side gives its place to its other subtree. A node with
two children gives its place to its successor, after that has left its own.
-/

namespace KirinFS.Rbtree
open Foundation.RedBlack Foundation.RedBlack.ColorTree Function

variable {K D : Type} {t t' : StlRbtree K D} {s n m : ℕ} {k k' : List (Frame ℕ)} {f : Frame ℕ}
  {T l u y : ColorTree ℕ} {c d e : Bool} {parent q p : Option ℕ} {mem : ℕ → StlRbtreeNode K D}

/-- Writing the parent behind the pointer to a tree, which may be the sentinel. -/
def tether (s : ℕ) (T : ColorTree ℕ) (p : Option ℕ) (mem : ℕ → StlRbtreeNode K D) :
    ℕ → StlRbtreeNode K D :=
  update mem (spot s T) { mem (spot s T) with parent := p }

theorem spot_cases (s : ℕ) (T : ColorTree ℕ) : spot s T = s ∧ T = .leaf ∨ spot s T ∈ T.inorder := by
  cases T with
  | leaf => exact Or.inl ⟨rfl, rfl⟩
  | node c l x r => exact Or.inr (by simp [spot, top, inorder])

theorem tether_other {z : ℕ} (hs : z ≠ s) (hz : z ∉ T.inorder) : tether s T p mem z = mem z := by
  refine update_of_ne ?_ _ _
  rintro rfl
  rcases spot_cases s T with ⟨heq, -⟩ | hmem
  · exact hs heq
  · exact hz hmem

theorem tether_leaf : tether s .leaf p mem s = { mem s with parent := p } := update_self _ _ _

theorem alike_tether : Alike mem (tether s T p mem) := alike_update rfl rfl

theorem color_tether {z : ℕ} : (tether s T p mem z).color = (mem z).color := by
  by_cases hz : z = spot s T
  · subst hz
    rw [tether, update_self]
  · rw [tether, update_of_ne hz]

theorem Rep.tether (h : Rep mem s T parent q) (hT : T.inorder.Nodup) (p : Option ℕ) :
    Rep (tether s T p mem) s T p q := by
  cases T with
  | leaf => exact h
  | node c l x r => exact h.reparent hT p

theorem Rep.pointer_eq (h : Rep mem s T parent q) : q = some (Rbtree.spot s T) := by
  cases T with
  | leaf => exact h
  | node c l x r => exact h.1

theorem Rep.eq_sentinel (h : Rep mem s T parent q) (hout : s ∉ T.inorder) :
    q = some s ↔ T = .leaf := by
  rw [h.pointer_eq]
  constructor
  · intro heq
    rcases spot_cases s T with ⟨-, hleaf⟩ | hmem
    · exact hleaf
    · rw [Option.some.inj heq] at hmem
      exact absurd hmem hout
  · rintro rfl
    rfl

namespace Shape

theorem congr (h : Shape t s k T) (hsent : t'.sentinel = t.sentinel) (hroot : t'.root = t.root)
    (hmem : ∀ z, z ∈ T.inorder ∨ z ∈ members k → t'.mem z = t.mem z) : Shape t' s k T := by
  obtain ⟨hs, ⟨parent, q, hT, hup⟩, hd⟩ := h
  refine ⟨hsent.trans hs, ⟨parent, q, hT.congr fun z hz => hmem z (Or.inl hz), ?_⟩, hd⟩
  rw [hroot]
  exact hup.congr fun z hz => hmem z (Or.inr hz)

theorem append_iff : Shape t s (k ++ k') T ↔ Shape t s k' (plug k T) := by
  rw [plug_iff, plug_append, ← plug_iff]

/-- The side on which a node stands, as the code finds it. -/
theorem side_eq (h : Shape t s (f :: k) T) (ht : T.top = some n) :
    (if some n = (t.mem f.x).left then Side.left else Side.right) = sideOf f.right := by
  obtain ⟨-, -, -, hchild, hother⟩ := h.above ht
  cases hf : f.right with
  | false =>
    rw [hf] at hchild
    exact if_pos hchild.symm
  | true =>
    rw [hf] at hother
    exact if_neg fun heq => hother heq.symm

end Shape

section Unlinking

/-- `y` hangs in the place below the frames, with the parent `p`. -/
def unlinked (t : StlRbtree K D) (s : ℕ) (k : List (Frame ℕ)) (y : ColorTree ℕ) (p : ℕ) :
    StlRbtree K D :=
  { t with mem := tether s y (some p) (relink k (some (spot s y)) t.mem) }

theorem Shape.child_eq (h : Shape t s k (join d c u n y)) :
    (t.mem n).child (sideOf !d) = some (spot s y) := by
  obtain ⟨parent, q, hT, -⟩ := h.links
  obtain ⟨-, -, -, -, hy⟩ := rep_join.mp hT
  exact hy.pointer_eq

theorem Shape.nodup_without (h : Shape t s k (join d c .leaf n y)) :
    (s :: n :: (y.inorder ++ members k)).Nodup := by
  have hperm : ((join d c .leaf n y).inorder ++ members k).Perm
      (n :: (y.inorder ++ members k)) := by
    have hjoin : (join d c .leaf n y).inorder.Perm (n :: y.inorder) := inorder_join_perm
    exact hjoin.append_right _
  exact (hperm.cons s).nodup_iff.mp h.nodup

variable (h : Shape t s (f :: k) (join d c .leaf n y))
include h

theorem unlink_eq : ∃ t₁, t.setChild (some f.x)
      (if some n = (t.mem f.x).left then .left else .right) (some (spot s y)) = .ok t₁ ∧
    t₁.mem n = t.mem n ∧ ∀ p, t₁.setParent (some (spot s y)) (some p) =
      .ok (unlinked t s (f :: k) y p) := by
  have hn : n ∉ members (f :: k) := h.apart.2.2.2
  rw [h.side_eq top_join]
  exact ⟨{ t with mem := relink (f :: k) (some (spot s y)) t.mem }, rfl, relink_other hn,
    fun p => rfl⟩

theorem unlinked_spec (p : ℕ) : Rep (unlinked t s (f :: k) y p).mem s y (some p) (some (spot s y)) ∧
    Above (unlinked t s (f :: k) y p).mem s t.root (f :: k) (some f.x) (some (spot s y)) ∧
    (unlinked t s (f :: k) y p).mem n = t.mem n ∧
    Alike t.mem (unlinked t s (f :: k) y p).mem := by
  have hd := h.nodup_without
  simp only [List.nodup_cons, List.mem_cons, List.mem_append, not_or, List.nodup_append] at hd
  obtain ⟨⟨hsn, hsy, hsk⟩, ⟨hny, hnk⟩, hy, hk, hyk⟩ := hd
  obtain ⟨parent, q, hT, hup⟩ := h.links
  obtain ⟨-, -, -, -, hrep⟩ := rep_join.mp hT
  rw [h.child_eq] at hrep
  have hout : ∀ z ∈ y.inorder, z ∉ members (f :: k) := fun z hz hzk => hyk z hz z hzk rfl
  have hparent : parent = some f.x := hup.1
  refine ⟨?_, ?_, ?_, (alike_relink _ _).trans alike_tether⟩
  · exact (hrep.congr fun z hz => relink_other (hout z hz)).tether hy (some p)
  · have hlink := hup.relink hk (some (spot s y))
    rw [hparent] at hlink
    refine hlink.congr fun z hz => tether_other ?_ fun hzy => hout z hzy hz
    rintro rfl
    exact hsk hz
  · change tether s y (some p) (relink (f :: k) (some (spot s y)) t.mem) n = t.mem n
    rw [tether_other (Ne.symm hsn) hny, relink_other hnk]

theorem unlinked_sentinel (p : ℕ) : ((unlinked t s (f :: k) y p).mem s).color = (t.mem s).color ∧
    (y = .leaf → ((unlinked t s (f :: k) y p).mem s).parent = some p) := by
  have hsk := h.sentinel_out.2
  constructor
  · change (tether s y (some p) (relink (f :: k) (some (spot s y)) t.mem) s).color = _
    rw [color_tether, relink_other hsk]
  · rintro rfl
    exact congrArg StlRbtreeNode.parent tether_leaf

end Unlinking

namespace StlRbtree
variable (t : StlRbtree K D)

/-- The part of `substitute` after the parent of `temp` is set. -/
def takePlace (node subst : Option ℕ) : Except Fault (StlRbtree K D) := do
  let x ← t.load node
  let t ← t.modify subst fun s =>
    { s with left := x.left, right := x.right, parent := x.parent, color := x.color }
  let t ← t.relinkParent node subst .left
  let s ← t.load subst
  let t ← if s.left ≠ t.sentinel then t.setParent s.left subst else pure t
  let s ← t.load subst
  if s.right ≠ t.sentinel then t.setParent s.right subst else pure t

theorem substitute_eq (node subst temp : Option ℕ) : t.substitute node subst temp = (do
    let s ← t.load subst
    let t ← t.setParent temp (if s.parent = node then subst else s.parent)
    t.takePlace node subst) := by
  unfold substitute takePlace
  refine bind_congr fun s => ?_
  split <;> rfl

end StlRbtree

section Replacing

/-- The node `n` is to leave its place between `l` and `u`, and `m` is not in the tree. -/
structure Vacant (t : StlRbtree K D) (s n m : ℕ) (k : List (Frame ℕ)) (c : Bool)
    (l u : ColorTree ℕ) : Prop where
  sentinel : t.sentinel = some s
  color : (t.mem n).color = hue c
  left : ∃ p, Rep t.mem s l p (t.mem n).left
  right : ∃ p, Rep t.mem s u p (t.mem n).right
  above : Above t.mem s t.root k (t.mem n).parent (some n)
  nodup : (s :: m :: n :: (l.inorder ++ (u.inorder ++ members k))).Nodup

def copied (mem : ℕ → StlRbtreeNode K D) (n m : ℕ) : ℕ → StlRbtreeNode K D :=
  update mem m { mem m with
    left := (mem n).left, right := (mem n).right, parent := (mem n).parent, color := (mem n).color }

def replaced (mem : ℕ → StlRbtreeNode K D) (k : List (Frame ℕ)) (l u : ColorTree ℕ) (n m : ℕ) :
    ℕ → StlRbtreeNode K D :=
  reparent u (some m) (reparent l (some m) (relink k (some m) (copied mem n m)))

theorem alike_replaced : Alike mem (replaced mem k l u n m) := by
  have hcopy : Alike mem (copied mem n m) := alike_update rfl rfl
  exact hcopy.trans ((alike_relink _ _).trans ((alike_reparent _ _).trans (alike_reparent _ _)))

structure Distinct (s n m : ℕ) (k : List (Frame ℕ)) (l u : ColorTree ℕ) : Prop where
  sm : s ≠ m
  sn : s ≠ n
  sl : s ∉ l.inorder
  su : s ∉ u.inorder
  sk : s ∉ members k
  mn : m ≠ n
  ml : m ∉ l.inorder
  mu : m ∉ u.inorder
  mUp : m ∉ members k
  nUp : n ∉ members k
  left : l.inorder.Nodup
  right : u.inorder.Nodup
  frames : (members k).Nodup
  lu : ∀ z ∈ l.inorder, z ∉ u.inorder
  lk : ∀ z ∈ l.inorder, z ∉ members k
  uk : ∀ z ∈ u.inorder, z ∉ members k

theorem Vacant.distinct (h : Vacant t s n m k c l u) : Distinct s n m k l u := by
  have hd := h.nodup
  simp only [List.nodup_cons, List.mem_cons, List.mem_append, not_or, List.nodup_append] at hd
  obtain ⟨⟨hsm, hsn, hsl, hsu, hsk⟩, ⟨hmn, hml, hmu, hmk⟩, ⟨-, -, hnk⟩, hl, ⟨hu, hk, huk⟩,
    hrest⟩ := hd
  refine ⟨hsm, hsn, hsl, hsu, hsk, hmn, hml, hmu, hmk, hnk, hl, hu, hk, ?_, ?_, ?_⟩
  · exact fun z hz hzu => hrest z hz z (Or.inl hzu) rfl
  · exact fun z hz hzk => hrest z hz z (Or.inr hzk) rfl
  · exact fun z hz hzk => huk z hz z hzk rfl

namespace Distinct
variable (h : Distinct s n m k l u)
include h

theorem relinked_m (mem : ℕ → StlRbtreeNode K D) : relink k (some m) (copied mem n m) m =
    { mem m with left := (mem n).left, right := (mem n).right, parent := (mem n).parent,
                 color := (mem n).color } := by
  rw [relink_other h.mUp, copied, update_self]

theorem replaced_m (mem : ℕ → StlRbtreeNode K D) : replaced mem k l u n m m =
    { mem m with left := (mem n).left, right := (mem n).right, parent := (mem n).parent,
                 color := (mem n).color } := by
  rw [replaced, reparent_other h.mu, reparent_other h.ml, h.relinked_m]

theorem rep_left (hl : Rep mem s l p q) : Rep (relink k (some m) (copied mem n m)) s l p q := by
  refine hl.congr fun z hz => ?_
  rw [relink_other (h.lk z hz), copied, update_of_ne]
  rintro rfl
  exact h.ml hz

theorem rep_right (hu : Rep mem s u p q) :
    Rep (reparent l (some m) (relink k (some m) (copied mem n m))) s u p q := by
  refine hu.congr fun z hz => ?_
  rw [reparent_other fun hzl => h.lu z hzl hz, relink_other (h.uk z hz), copied, update_of_ne]
  rintro rfl
  exact h.mu hz

theorem above_copied {root : Option ℕ} (hup : Above mem s root k p q) :
    Above (copied mem n m) s root k p q := by
  refine hup.congr fun z hz => update_of_ne ?_ _ _
  rintro rfl
  exact h.mUp hz

theorem copied_n (mem : ℕ → StlRbtreeNode K D) : copied mem n m n = mem n :=
  update_of_ne h.mn.symm _ _

theorem rep_replaced (hcolor : (mem n).color = hue c) (hl : Rep mem s l p (mem n).left)
    (hu : Rep mem s u q (mem n).right) :
    Rep (replaced mem k l u n m) s (.node c l m u) (mem n).parent (some m) := by
  have hm := h.replaced_m mem
  refine ⟨rfl, ?_, ?_, ?_, ?_⟩
  · rw [hm]
    exact hcolor
  · rw [hm]
  · rw [hm]
    refine ((h.rep_left hl).reparent h.left (some m)).congr fun z hz => ?_
    exact reparent_other (h.lu z hz)
  · rw [hm]
    exact (h.rep_right hu).reparent h.right (some m)

theorem above_replaced {root : Option ℕ} (hup : Above mem s root k p q) :
    Above (replaced mem k l u n m) s (rootAfter k root (some m)) k p (some m) := by
  refine ((h.above_copied hup).relink h.frames (some m)).congr fun z hz => ?_
  rw [replaced, reparent_other fun hzu => h.uk z hzu hz, reparent_other fun hzl => h.lk z hzl hz]

theorem replaced_sentinel (mem : ℕ → StlRbtreeNode K D) : replaced mem k l u n m s = mem s := by
  rw [replaced, reparent_other h.su, reparent_other h.sl, relink_other h.sk, copied,
    update_of_ne h.sm]

end Distinct

namespace Vacant

theorem takePlace_eq (h : Vacant t s n m k c l u) : t.takePlace (some n) (some m) =
    .ok { t with root := rootAfter k t.root (some m), mem := replaced t.mem k l u n m } := by
  have hd := h.distinct
  obtain ⟨hsent, -, ⟨pl, hl⟩, ⟨pu, hu⟩, hup, -⟩ := h
  let t₁ := { t with mem := copied t.mem n m }
  let t₂ := { t with
    root := rootAfter k t.root (some m), mem := relink k (some m) (copied t.mem n m) }
  let t₃ := { t₂ with mem := reparent l (some m) t₂.mem }
  have hup₁ : Above t₁.mem s t₁.root k (t₁.mem n).parent (some n) := by
    have hn : t₁.mem n = t.mem n := hd.copied_n t.mem
    rw [hn]
    exact hd.above_copied hup
  have hlink : t₁.relinkParent (some n) (some m) .left = .ok t₂ :=
    relinkParent_eq hup₁ hd.nUp hd.sn.symm (some m) false
  have hm₂ := hd.relinked_m t.mem
  have hl₂ : (t₂.mem m).left = (t.mem n).left := by
    change (relink k (some m) (copied t.mem n m) m).left = _
    rw [hm₂]
  have hr₃ : (t₃.mem m).right = (t.mem n).right := by
    have hm₃ : t₃.mem m = t₂.mem m := reparent_other hd.ml
    rw [hm₃]
    change (relink k (some m) (copied t.mem n m) m).right = _
    rw [hm₂]
  have hleft : (if (t.mem n).left ≠ t₂.sentinel then t₂.setParent (t.mem n).left (some m)
      else pure t₂) = .ok t₃ :=
    reparent_eq (t := t₂) hsent (hd.rep_left hl) hd.sl (some m)
  have hright := reparent_eq (t := t₃) hsent (hd.rep_right hu) hd.su (some m)
  have hload : t.load (some n) = .ok (t.mem n) := rfl
  have hload₂ : t₂.load (some m) = .ok (t₂.mem m) := rfl
  have hload₃ : t₃.load (some m) = .ok (t₃.mem m) := rfl
  have hmod : t.modify (some m) (fun s => { s with
      left := (t.mem n).left, right := (t.mem n).right, parent := (t.mem n).parent,
      color := (t.mem n).color }) = .ok t₁ := rfl
  rw [StlRbtree.takePlace, hload, ok_bind, hmod, ok_bind, hlink, ok_bind, hload₂, ok_bind, hl₂,
    ite_bind, hleft, ok_bind]
  dsimp only
  rw [hload₃, ok_bind, hr₃]
  exact hright

theorem takePlace (h : Vacant t s n m k c l u) :
    ∃ t', t.takePlace (some n) (some m) = .ok t' ∧ Shape t' s k (.node c l m u) ∧
      Keeps s t t' := by
  have hd := h.distinct
  have hrun := h.takePlace_eq
  obtain ⟨hsent, hcolor, ⟨pl, hl⟩, ⟨pu, hu⟩, hup, hnodup⟩ := h
  refine ⟨_, hrun, ⟨hsent, ⟨_, _, hd.rep_replaced hcolor hl hu, hd.above_replaced hup⟩, ?_⟩,
    alike_replaced.keeps (hd.replaced_sentinel t.mem) _⟩
  have hperm : ((ColorTree.node c l m u).inorder ++ members k).Perm
      (m :: (l.inorder ++ (u.inorder ++ members k))) := by
    rw [inorder, List.append_assoc, List.cons_append]
    exact List.perm_middle
  refine (hperm.cons s).nodup_iff.mpr (hnodup.sublist ?_)
  exact ((List.sublist_cons_self n _).cons_cons m).cons_cons s

end Vacant

end Replacing

end KirinFS.Rbtree
