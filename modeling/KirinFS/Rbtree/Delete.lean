import KirinFS.Rbtree.Insert
import KirinFS.Rbtree.Unlink

/-! # Deletion from a red-black tree

A node leaves its place, and where a black node is missing then the tree is
repaired.
-/

namespace KirinFS.Rbtree
open Foundation.RedBlack Foundation.RedBlack.ColorTree Function

variable {K D : Type} {t t' : StlRbtree K D} {s n m : ℕ} {k : List (Frame ℕ)} {f : Frame ℕ}
  {T l u y : ColorTree ℕ} {c d e r : Bool} {xs : List ℕ} {h : ℕ}

namespace StlRbtree
variable (t : StlRbtree K D)

/-- What follows the removal of a node of the colour `color`. -/
def closeUp (fuel : ℕ) (temp : Option ℕ) (color : Color) :
    Except Fault (StlRbtree K D × Option ℤ) := do
  if color = .red then return (t, none)
  let t ← t.repay fuel temp
  return (t, some 0)

/-- What `stl_rbtree_delete` does once it has chosen `subst` and `temp`. -/
def deleteAt (fuel : ℕ) (node subst temp : Option ℕ) : Except Fault (StlRbtree K D × Option ℤ) := do
  if subst = t.root then
    let t ← { t with root := temp }.paint temp .black
    let t ← t.forget node
    return (t, some 0)
  let s ← t.load subst
  let up ← t.load s.parent
  let t ← t.setChild s.parent (if subst = up.left then .left else .right) temp
  let t ← if subst = node then t.setParent temp s.parent else t.substitute node subst temp
  let t ← t.forget node
  t.closeUp fuel temp s.color

theorem stlRbtreeDelete_eq (min : RbtreeMin K D) (fuel : ℕ) (node : Option ℕ) :
    t.stlRbtreeDelete min fuel node = (do
      let x ← t.load node
      if x.left = t.sentinel then t.deleteAt fuel node node x.right
      else if x.right = t.sentinel then t.deleteAt fuel node node x.left
      else
        let subst ← min t x.right t.sentinel
        let s ← t.load subst
        t.deleteAt fuel node subst s.right) := by
  unfold stlRbtreeDelete
  refine bind_congr fun x => ?_
  split
  · simp only [pure_bind, deleteAt, closeUp, repay, bind_assoc]
  · split
    · simp only [pure_bind, deleteAt, closeUp, repay, bind_assoc]
    · simp only [pure_bind, deleteAt, closeUp, repay, bind_assoc]

end StlRbtree

/-- All but `n` keeps its key, and everything its data. -/
structure Spares (n : ℕ) (t t' : StlRbtree K D) : Prop where
  key : ∀ x, x ≠ n → (t'.mem x).key = (t.mem x).key
  data : ∀ x, (t'.mem x).data = (t.mem x).data
  cmp : t'.cmp = t.cmp

theorem Keeps.spares (h : Keeps s t t') (n : ℕ) : Spares n t t' :=
  ⟨fun x _ => h.key x, h.data, h.cmp⟩

theorem Spares.trans {t'' : StlRbtree K D} (h : Spares n t t') (h' : Spares n t' t'') :
    Spares n t t'' where
  key x hx := (h'.key x hx).trans (h.key x hx)
  data x := (h'.data x).trans (h.data x)
  cmp := h'.cmp.trans h.cmp

theorem Alike.spares {mem : ℕ → StlRbtreeNode K D} (h : Alike t.mem mem) (root : Option ℕ) (n : ℕ) :
    Spares n t { t with mem := mem, root := root } :=
  ⟨fun x _ => (h x).1, fun x => (h x).2, rfl⟩

/-- A tree with the nodes `xs`, in which only `n` is lost. -/
structure Removed (t t' : StlRbtree K D) (s n : ℕ) (xs : List ℕ) : Prop where
  tree : ∃ T h, Shape t' s [] T ∧ Balanced false h T ∧ T.inorder = xs
  black : (t'.mem s).color = .black
  spares : Spares n t t'

theorem Removed.after {t'' : StlRbtree K D} (hspares : Spares n t t') (h : Removed t' t'' s n xs) :
    Removed t t'' s n xs :=
  ⟨h.tree, h.black, hspares.trans h.spares⟩

section Forgetting

theorem forget_spec (hs : Shape t s k T) (hn : n ∉ T.inorder) (hnk : n ∉ members k) (hns : n ≠ s) :
    ∃ t', t.forget (some n) = .ok t' ∧ Shape t' s k T ∧ t'.mem s = t.mem s ∧ Spares n t t' := by
  refine ⟨_, rfl, hs.congr rfl rfl fun z hz => update_of_ne ?_ _ _, update_of_ne hns.symm _ _,
    ⟨fun x hx => ?_, fun x => ?_, rfl⟩⟩
  · rintro rfl
    rcases hz with hz | hz
    · exact hn hz
    · exact hnk hz
  · exact congrArg StlRbtreeNode.key (update_of_ne hx _ _)
  · by_cases hx : x = n
    · subst hx
      change (update t.mem x _ x).data = _
      rw [update_self]
    · exact congrArg StlRbtreeNode.data (update_of_ne hx _ _)

/-- From the unlinked node to the end: a node of the colour `c` is missing above `y`. -/
theorem forget_closeUp (hs : Shape t s k y) (ht : Tethered t s k y)
    (hblack : (t.mem s).color = .black) (hn : n ∉ y.inorder) (hnk : n ∉ members k) (hns : n ≠ s)
    (hk : Hole r h k) (hbal : Balanced e h (join d c .leaf m y)) (he : e = true → r = false) :
    ∃ t₁ t' v, t.forget (some n) = .ok t₁ ∧
      (∀ fuel, k.length < fuel → t₁.closeUp fuel (some (spot s y)) (hue c) = .ok (t', v)) ∧
      Removed t t' s n (plug k y).inorder := by
  obtain ⟨t₁, hrun, hs₁, hsent, hspares⟩ := forget_spec hs hn hnk hns
  have hblack₁ : (t₁.mem s).color = .black := by rw [hsent, hblack]
  obtain ⟨hred, hfix⟩ := hk.without hbal he
  cases c with
  | true =>
    obtain ⟨h', hbal'⟩ := hred rfl
    refine ⟨t₁, t₁, none, hrun, fun fuel _ => ?_,
      ⟨_, h', Shape.plug_iff.mp hs₁, hbal', rfl⟩, hblack₁, hspares⟩
    rw [StlRbtree.closeUp, if_pos (by decide)]
    rfl
  | false =>
    obtain ⟨h', howes, hk'⟩ := hfix rfl
    have ht₁ : Tethered t₁ s k y := by
      intro hleaf p hp
      rw [hsent]
      exact ht hleaf p hp
    obtain ⟨t', T', h'', hpay, hs', hbal', horder, hkeep⟩ := repay_spec hs₁ ht₁ hblack₁ howes hk'
    refine ⟨t₁, t', some 0, hrun, fun fuel hfuel => ?_, ⟨T', h'', hs', hbal', horder⟩, ?_,
      hspares.trans (hkeep.spares n)⟩
    · rw [StlRbtree.closeUp, if_neg (by decide), hpay fuel hfuel]
      rfl
    · rw [hkeep.sentinel, hblack₁]

end Forgetting

section Cases

theorem deleteAt_root (hs : Shape t s [] (join d c .leaf n y)) (hblack : (t.mem s).color = .black)
    (hbal : Balanced e h (join d c .leaf n y)) :
    ∃ t' v, (∀ fuel, t.deleteAt fuel (some n) (some n) (some (spot s y)) = .ok (t', v)) ∧
      Removed t t' s n y.inorder := by
  obtain ⟨hns, -, hny, -⟩ := hs.apart
  have hroot : t.root = some n := by rw [hs.root_spot, spot_join]
  have hhead : Shape { t with root := some (spot s y) } s [] y := by
    obtain ⟨hsent, ⟨parent, q, hT, -⟩, hd⟩ := id hs
    obtain ⟨-, -, -, -, hy⟩ := rep_join.mp hT
    exact ⟨hsent, ⟨_, _, hy, hy.pointer_eq.symm⟩,
      hs.nodup_without.sublist ((List.sublist_cons_self n _).cons_cons s)⟩
  have hdown : ∃ h', Balanced false h' y.blacken := by
    cases c with
    | true => exact ((balanced_join_red.mp hbal).2.2).blacken
    | false =>
      obtain ⟨-, h', b, b', -, -, hy⟩ := balanced_join_black.mp hbal
      exact hy.blacken
  obtain ⟨h', hbal'⟩ := hdown
  obtain ⟨t₁, h₁, hs₁, hk₁⟩ := hhead.blacken hblack
  obtain ⟨t₂, h₂, hs₂, hsent₂, hspares₂⟩ := forget_spec hs₁ (n := n)
    (by rw [inorder_blacken]; exact hny) (by simp [members]) hns
  refine ⟨t₂, some 0, fun fuel => ?_, ⟨_, h', hs₂, hbal', inorder_blacken⟩, ?_, ?_⟩
  · rw [StlRbtree.deleteAt, if_pos hroot.symm, h₁, ok_bind, h₂, ok_bind]
    rfl
  · rw [hsent₂, hk₁.sentinel]
    exact hblack
  · have hstart : Spares n t { t with root := some (spot s y) } :=
      ⟨fun _ _ => rfl, fun _ => rfl, rfl⟩
    exact (hstart.trans (hk₁.spares n)).trans hspares₂

/-- A node with a leaf on one side, below another node. -/
theorem deleteAt_self (hs : Shape t s (f :: k) (join d c .leaf n y))
    (hblack : (t.mem s).color = .black) (hk : Hole r h (f :: k))
    (hbal : Balanced e h (join d c .leaf n y)) (he : e = true → r = false) :
    ∃ t' v, (∀ fuel, (f :: k).length < fuel →
        t.deleteAt fuel (some n) (some n) (some (spot s y)) = .ok (t', v)) ∧
      Removed t t' s n (plug (f :: k) y).inorder := by
  obtain ⟨hns, -, hny, hnk⟩ := hs.apart
  obtain ⟨hroot, hpar, -, -, -⟩ := hs.above top_join
  obtain ⟨t₁, h₁, hn₁, hset⟩ := unlink_eq hs
  obtain ⟨hrep, hup, -, halike⟩ := unlinked_spec hs f.x
  obtain ⟨hcolor, htether⟩ := unlinked_sentinel hs f.x
  have hs₂ : Shape (unlinked t s (f :: k) y f.x) s (f :: k) y :=
    ⟨hs.sentinel, ⟨_, _, hrep, hup⟩,
      hs.nodup_without.sublist ((List.sublist_cons_self n _).cons_cons s)⟩
  have ht₂ : Tethered (unlinked t s (f :: k) y f.x) s (f :: k) y := by
    intro hleaf p hp
    cases hp
    exact htether hleaf
  obtain ⟨t₃, t', v, hforget, hclose, hremoved⟩ :=
    forget_closeUp hs₂ ht₂ (by rw [hcolor, hblack]) hny hnk hns hk hbal he
  refine ⟨t', v, ?_, hremoved.after (halike.spares _ n)⟩
  intro fuel hfuel
  obtain ⟨parent, q, hT, -⟩ := hs.links
  have hc : (t.mem n).color = hue c := (rep_join.mp hT).2.1
  have hload : t.load (some n) = .ok (t.mem n) := rfl
  have hloadx : t.load (some f.x) = .ok (t.mem f.x) := rfl
  rw [StlRbtree.deleteAt, if_neg hroot, hload, ok_bind, hpar, hloadx, ok_bind, h₁, ok_bind,
    if_pos rfl, hset, ok_bind]
  dsimp only
  rw [hforget, ok_bind, hc]
  exact hclose fuel hfuel

theorem deleteAt_half (hs : Shape t s k (join d c .leaf n y)) (hblack : (t.mem s).color = .black)
    (hT : Balanced false h (plug k (join d c .leaf n y))) :
    ∃ t' v, (∀ fuel, k.length < fuel →
        t.deleteAt fuel (some n) (some n) (some (spot s y)) = .ok (t', v)) ∧
      Removed t t' s n (plug k y).inorder := by
  obtain ⟨r, h', e, hk, hbal, he⟩ := hT.hole
  cases k with
  | nil =>
    obtain ⟨t', v, hrun, hremoved⟩ := deleteAt_root hs hblack hbal
    exact ⟨t', v, fun fuel _ => hrun fuel, hremoved⟩
  | cons f k => exact deleteAt_self hs hblack hk hbal he

variable {kr : List (Frame ℕ)} {c' : Bool}

theorem members_append {k₁ k₂ : List (Frame ℕ)} :
    members (k₁ ++ k₂) = members k₁ ++ members k₂ := by
  induction k₁ with
  | nil => rfl
  | cons f k₁ ih => rw [List.cons_append, members, members, ih, List.append_assoc]

/-- The parent of the successor after its removal: the frame above it or the successor itself. -/
def adopter (kr : List (Frame ℕ)) (m : ℕ) : ℕ := (kr.head?.map Frame.x).getD m

theorem successor_perm : (y.inorder ++ members (kr ++ ⟨true, c', n, l⟩ :: k)).Perm
    (n :: (l.inorder ++ ((plug kr y).inorder ++ members k))) := by
  rw [members_append, members, ← List.append_assoc]
  refine List.perm_middle.trans (List.Perm.cons n ?_)
  refine (List.perm_append_comm_assoc _ _ _).trans (List.Perm.append_left _ ?_)
  exact ((plug_perm kr y).symm).append_right _

/-- The successor `m` of `n` has left its place in the right subtree. -/
theorem vacant_unlinked
    (hs : Shape t s (kr ++ ⟨true, c', n, l⟩ :: k) (join false c .leaf m y)) :
    Vacant (unlinked t s (kr ++ ⟨true, c', n, l⟩ :: k) y (adopter kr m)) s n m k c' l
      (plug kr y) := by
  have hnodup : (s :: m :: n :: (l.inorder ++ ((plug kr y).inorder ++ members k))).Nodup := by
    exact (((successor_perm.cons m).cons s).nodup_iff).mp hs.nodup_without
  have hparts : ∀ {root p q mem}, Above mem s root (⟨true, c', n, l⟩ :: k) p q →
      (mem n).color = hue c' ∧ (mem n).right = q ∧ (∃ p, Rep mem s l p (mem n).left) ∧
        Above (K := K) (D := D) mem s root k (mem n).parent (some n) := by
    rintro root p q mem ⟨-, hcolor, hright, hleft, hup⟩
    exact ⟨hcolor, hright, ⟨_, hleft⟩, hup⟩
  cases kr with
  | nil =>
    obtain ⟨hrep, hup, -, -⟩ := unlinked_spec hs m
    obtain ⟨hcolor, hright, hleft, hup⟩ := hparts hup
    exact ⟨hs.sentinel, hcolor, hleft, ⟨_, hright ▸ hrep⟩, hup, hnodup⟩
  | cons f kr =>
    obtain ⟨hrep, hup, -, -⟩ := unlinked_spec hs f.x
    have hs₁ : Shape (unlinked t s (f :: kr ++ ⟨true, c', n, l⟩ :: k) y f.x) s
        (f :: kr ++ ⟨true, c', n, l⟩ :: k) y :=
      ⟨hs.sentinel, ⟨_, _, hrep, hup⟩,
        hs.nodup_without.sublist ((List.sublist_cons_self m _).cons_cons s)⟩
    obtain ⟨parent, q, hrep, hup⟩ := (Shape.append_iff.mp hs₁).links
    obtain ⟨hcolor, hright, hleft, hup⟩ := hparts hup
    exact ⟨hs.sentinel, hcolor, hleft, ⟨_, hright ▸ hrep⟩, hup, hnodup⟩

theorem deleteAt_successor
    (hs : Shape t s (kr ++ ⟨true, c', n, l⟩ :: k) (join false c .leaf m y))
    (hblack : (t.mem s).color = .black) (hk : Hole r h (kr ++ ⟨true, c', n, l⟩ :: k))
    (hbal : Balanced e h (join false c .leaf m y)) (he : e = true → r = false) :
    ∃ t' v, (∀ fuel, (kr ++ ⟨true, c', n, l⟩ :: k).length < fuel →
        t.deleteAt fuel (some n) (some m) (some (spot s y)) = .ok (t', v)) ∧
      Removed t t' s n (plug (kr ++ ⟨true, c', m, l⟩ :: k) y).inorder := by
  obtain ⟨hms, -, hmy, hmk⟩ := hs.apart
  have hnk : n ∈ members (kr ++ ⟨true, c', n, l⟩ :: k) := by
    rw [members_append]
    simp [members]
  have hmn : some m ≠ some n := by
    rintro heq
    cases heq
    exact hmk hnk
  have hvacant := vacant_unlinked hs
  have hd := hvacant.distinct
  obtain ⟨t₂, h₂, hs₂, hkeep₂⟩ := hvacant.takePlace
  obtain ⟨g, k', hcons, hadopt⟩ : ∃ g k', kr ++ ⟨true, c', n, l⟩ :: k = g :: k' ∧
      (if some g.x = some n then some m else some g.x) = some (adopter kr m) := by
    cases kr with
    | nil => exact ⟨_, _, rfl, if_pos rfl⟩
    | cons f kr =>
      refine ⟨f, _, rfl, if_neg ?_⟩
      have hdup := (List.nodup_append.mp (List.nodup_cons.mp hs.nodup).2).2.1
      rw [List.cons_append, members, List.cons_append, List.nodup_cons, members_append] at hdup
      intro heq
      refine hdup.1 ?_
      rw [Option.some.inj heq]
      simp [members]
  rw [hcons] at hs hk h₂ hkeep₂ ⊢
  obtain ⟨hroot, hpar, -, -, -⟩ := hs.above top_join
  obtain ⟨t₁, h₁, hm₁, hset⟩ := unlink_eq hs
  obtain ⟨-, -, -, halike⟩ := unlinked_spec hs (adopter kr m)
  obtain ⟨hcolor, htether⟩ := unlinked_sentinel hs (adopter kr m)
  have hs₃ : Shape t₂ s (kr ++ ⟨true, c', m, l⟩ :: k) y :=
    Shape.append_iff.mpr (Shape.up_iff.mpr hs₂)
  have ht₃ : Tethered t₂ s (kr ++ ⟨true, c', m, l⟩ :: k) y := by
    intro hleaf p hp
    rw [hkeep₂.sentinel, htether hleaf]
    cases kr with
    | nil =>
      cases hp
      rfl
    | cons f kr =>
      cases hp
      rfl
  have hout : n ∉ y.inorder ++ members (kr ++ ⟨true, c', m, l⟩ :: k) := by
    intro hin
    rcases List.mem_cons.mp (successor_perm.mem_iff.mp hin) with heq | hrest
    · exact hmn (congrArg some heq.symm)
    · obtain ⟨-, hnodup⟩ := List.nodup_cons.mp (List.nodup_cons.mp hvacant.nodup).2
      exact (List.nodup_cons.mp hnodup).1 hrest
  rw [List.mem_append, not_or] at hout
  rw [← hcons] at hk
  obtain ⟨t₄, t', v, hforget, hclose, hremoved⟩ :=
    forget_closeUp hs₃ ht₃ (by rw [hkeep₂.sentinel, hcolor, hblack]) hout.1 hout.2 hd.sn.symm
      (hk.relabel (y := m)) hbal he
  refine ⟨t', v, ?_, hremoved.after ((halike.spares _ n).trans (hkeep₂.spares n))⟩
  intro fuel hfuel
  obtain ⟨parent, q, hT, -⟩ := hs.links
  have hc : (t.mem m).color = hue c := (rep_join.mp hT).2.1
  have hload : t.load (some m) = .ok (t.mem m) := rfl
  have hloadg : t.load (some g.x) = .ok (t.mem g.x) := rfl
  have hload₁ : t₁.load (some m) = .ok (t.mem m) := congrArg Except.ok hm₁
  rw [StlRbtree.deleteAt, if_neg hroot, hload, ok_bind, hpar, hloadg, ok_bind, h₁, ok_bind,
    if_neg hmn, StlRbtree.substitute_eq, hload₁, ok_bind, hpar, hadopt, hset, ok_bind, h₂, ok_bind]
  dsimp only
  rw [hforget, ok_bind, hc]
  refine hclose fuel ?_
  rw [← hcons] at hfuel
  simpa using hfuel

end Cases

section Deletion

/-- `stl_rbtree_min` returns the leftmost node of every subtree of the tree with the nodes `xs`. -/
def ReturnsMin (min : RbtreeMin K D) (t : StlRbtree K D) (s : ℕ) (xs : List ℕ) : Prop :=
  ∀ T parent q m rest, Rep t.mem s T parent q → T.inorder.Sublist xs → T.inorder = m :: rest →
    min t q (some s) = .ok (some m)

theorem delete_removed {min : RbtreeMin K D} (hs : Shape t s k (.node c l n u))
    (hblack : (t.mem s).color = .black) (hT : Balanced false h (plug k (.node c l n u)))
    (hmin : ReturnsMin min t s (plug k (.node c l n u)).inorder) :
    ∃ t' v, (∀ fuel, (plug k (.node c l n u)).inorder.length < fuel →
        t.stlRbtreeDelete min fuel (some n) = .ok (t', v)) ∧
      Removed t t' s n (before k ++ (l.inorder ++ u.inorder) ++ after k) := by
  have hfuel : ∀ (k : List (Frame ℕ)) (T : ColorTree ℕ) fuel,
      (plug k T).inorder.length < fuel → k.length < fuel := by
    intro k T fuel hlt
    have hlen := (plug_perm k T).length_eq
    rw [List.length_append] at hlen
    have := length_le_members k
    omega
  have hload : t.load (some n) = .ok (t.mem n) := rfl
  have hout := hs.sentinel_out.1
  rw [inorder, List.mem_append, List.mem_cons, not_or, not_or] at hout
  obtain ⟨hsent, ⟨parent, q, hrep, -⟩, -⟩ := id hs
  obtain ⟨-, -, -, hl, hu⟩ := hrep
  have hleft : (t.mem n).left = t.sentinel ↔ l = .leaf := by
    rw [hsent]
    exact hl.eq_sentinel hout.1
  have hright : (t.mem n).right = t.sentinel ↔ u = .leaf := by
    rw [hsent]
    exact hu.eq_sentinel hout.2.2
  by_cases hlleaf : l = .leaf
  · obtain ⟨t', v, hrun, hremoved⟩ := deleteAt_half (d := false) (hlleaf ▸ hs) hblack
      (hlleaf ▸ hT)
    rw [inorder_plug] at hremoved
    refine ⟨t', v, fun fuel hlt => ?_, by rw [hlleaf]; exact hremoved⟩
    rw [StlRbtree.stlRbtreeDelete_eq, hload, ok_bind, if_pos (hleft.mpr hlleaf)]
    have htemp : (t.mem n).right = some (spot s u) := hu.pointer_eq
    rw [htemp]
    exact hrun fuel (hfuel _ _ _ hlt)
  · by_cases huleaf : u = .leaf
    · obtain ⟨t', v, hrun, hremoved⟩ := deleteAt_half (d := true) (y := l) (huleaf ▸ hs) hblack
        (huleaf ▸ hT)
      rw [inorder_plug] at hremoved
      refine ⟨t', v, fun fuel hlt => ?_, by rw [huleaf]; simpa [inorder] using hremoved⟩
      rw [StlRbtree.stlRbtreeDelete_eq, hload, ok_bind, if_neg (mt hleft.mp hlleaf),
        if_pos (hright.mpr huleaf)]
      have htemp : (t.mem n).left = some (spot s l) := hl.pointer_eq
      rw [htemp]
      exact hrun fuel (hfuel _ _ _ hlt)
    · obtain ⟨kr, cm, m, y, rfl, hkr⟩ := exists_leftmost huleaf
      have hinorder : (plug kr (join false cm .leaf m y)).inorder =
          m :: (plug kr y).inorder := by
        rw [inorder_plug, inorder_plug, hkr]
        rfl
      have hplug : ∀ z, plug (kr ++ ⟨true, c, n, l⟩ :: k) z =
          plug k (.node c l n (plug kr z)) := by
        intro z
        rw [plug_append]
        rfl
      have hs' : Shape t s (kr ++ ⟨true, c, n, l⟩ :: k) (join false cm .leaf m y) :=
        Shape.append_iff.mpr (Shape.up_iff.mpr hs)
      rw [← hplug] at hT
      obtain ⟨r, h', e, hk, hbal, he⟩ := hT.hole
      obtain ⟨t', v, hrun, hremoved⟩ := deleteAt_successor hs' hblack hk hbal he
      have hmin' := hmin _ _ _ m _ hu ?_ hinorder
      · refine ⟨t', v, fun fuel hlt => ?_, ?_⟩
        · have hloadm : t.load (some m) = .ok (t.mem m) := rfl
          have hchild : (t.mem m).right = some (spot s y) := hs'.child_eq
          rw [StlRbtree.stlRbtreeDelete_eq, hload, ok_bind, if_neg (mt hleft.mp hlleaf),
            if_neg (mt hright.mp huleaf), hsent]
          have hmin'' : min t (t.mem n).right (some s) = .ok (some m) := hmin'
          rw [hmin'', ok_bind, hloadm, ok_bind, hchild]
          rw [← hplug] at hlt
          exact hrun fuel (hfuel _ _ _ hlt)
        · rw [hinorder]
          have hplug' : plug (kr ++ ⟨true, c, m, l⟩ :: k) y = plug k (.node c l m (plug kr y)) := by
            rw [plug_append]
            rfl
          rw [hplug', inorder_plug] at hremoved
          exact hremoved
      · rw [inorder_plug k]
        exact ((List.sublist_cons_self n _).trans (List.sublist_append_right _ _)).trans
          ((List.sublist_append_right _ _).trans (List.sublist_append_left _ _))

theorem StlRbtree.KeyLe.spare {x y : ℕ} (h : t.KeyLe x y) (hs : Spares n t t') (hx : x ≠ n)
    (hy : y ≠ n) : t'.KeyLe x y := by
  rw [StlRbtree.KeyLe, hs.cmp, hs.key x hx, hs.key y hy]
  exact h

/-- Deletion of a node of a well-formed tree returns, with any fuel beyond the number of nodes, and
leaves a well-formed tree of the others in their order. -/
theorem delete_wellFormed {min : RbtreeMin K D} (h : WellFormed t s xs) (hn : n ∈ xs)
    (hmin : ReturnsMin min t s xs) :
    ∃ t' v as bs, (∀ fuel, xs.length < fuel →
        t.stlRbtreeDelete min fuel (some n) = .ok (t', v)) ∧
      xs = as ++ n :: bs ∧ WellFormed t' s (as ++ bs) ∧ Spares n t t' := by
  obtain ⟨⟨T, hgt, hs, hT, rfl⟩, hblack, hsorted⟩ := h
  obtain ⟨k, c, l, u, rfl⟩ := exists_plug hn
  have hnodup : (plug k (.node c l n u)).inorder.Nodup := by
    have hd := (List.nodup_cons.mp hs.nodup).2
    exact (List.nodup_append.mp hd).1
  obtain ⟨t', v, hrun, ⟨T', h', hs', hbal, horder⟩, hblack', hspares⟩ :=
    delete_removed (Shape.plug_iff.mpr hs) hblack hT hmin
  have hsplit : (plug k (.node c l n u)).inorder =
      (before k ++ l.inorder) ++ n :: (u.inorder ++ after k) := by
    rw [inorder_plug]
    simp [inorder]
  have hrest : before k ++ (l.inorder ++ u.inorder) ++ after k =
      (before k ++ l.inorder) ++ (u.inorder ++ after k) := by
    simp
  rw [hrest] at horder
  refine ⟨t', v, _, _, hrun, hsplit, ⟨⟨T', h', hs', hbal, horder⟩, hblack', ?_⟩, hspares⟩
  rw [hsplit] at hnodup hsorted
  have hne : ∀ x ∈ (before k ++ l.inorder) ++ (u.inorder ++ after k), x ≠ n := by
    rintro x hx rfl
    exact (List.nodup_cons.mp (List.perm_middle.nodup_iff.mp hnodup)).1 hx
  have hsub : ((before k ++ l.inorder) ++ (u.inorder ++ after k)).Pairwise t.KeyLe :=
    hsorted.sublist (List.Sublist.append (.refl _) (List.sublist_cons_self n _))
  exact hsub.imp_of_mem fun hx hy hle => hle.spare hspares (hne _ hx) (hne _ hy)

/-- The leftmost node by the left links, for trees of at most `fuel` nodes. -/
def leftmost : (fuel : ℕ) → RbtreeMin K D
  | 0, _, _, _ => .error .fuel
  | fuel + 1, t, q, sentinel => do
    let x ← t.load q
    if x.left = sentinel then return q
    leftmost fuel t x.left sentinel

theorem leftmost_eq {fuel : ℕ} {parent q : Option ℕ} {rest : List ℕ}
    (hT : Rep t.mem s T parent q) (hs : s ∉ T.inorder) (hm : T.inorder = m :: rest)
    (hfuel : T.inorder.length ≤ fuel) : leftmost fuel t q (some s) = .ok (some m) := by
  induction T generalizing parent q rest fuel with
  | leaf => cases hm
  | node c l x r ihl ihr =>
    obtain ⟨rfl, -, -, hl, -⟩ := hT
    rw [inorder, List.length_append, List.length_cons] at hfuel
    obtain ⟨fuel, rfl⟩ : ∃ i, fuel = i + 1 := ⟨fuel - 1, by omega⟩
    have hload : t.load (some x) = .ok (t.mem x) := rfl
    have hout : s ∉ l.inorder := fun hin => hs (by simp [inorder, hin])
    have htest : (t.mem x).left = some s ↔ l = .leaf := hl.eq_sentinel hout
    rw [leftmost, hload, ok_bind]
    by_cases hleaf : l = .leaf
    · subst hleaf
      rw [if_pos (htest.mpr rfl)]
      cases hm
      rfl
    · rw [if_neg (mt htest.mp hleaf)]
      cases horder : l.inorder with
      | nil =>
        cases l with
        | leaf => exact absurd rfl hleaf
        | node c' l' y r' => simp [inorder] at horder
      | cons z zs =>
        rw [inorder, horder] at hm
        obtain rfl : z = m := (List.cons.inj hm).1
        exact ihl hl hout horder (by omega)

theorem returnsMin_leftmost {fuel : ℕ} (hs : s ∉ xs) (hfuel : xs.length ≤ fuel) :
    ReturnsMin (leftmost fuel) t s xs := by
  intro T parent q m rest hT hsub hm
  exact leftmost_eq hT (fun hin => hs (hsub.subset hin)) hm (hsub.length_le.trans hfuel)

def threeNodes : StlRbtree ℕ Unit where
  root := some 1
  sentinel := some 0
  cmp := cmpOf
  mem
    | 1 => ⟨some 5, some 2, some 3, none, .black, none⟩
    | 2 => ⟨some 3, some 0, some 0, some 1, .black, none⟩
    | 3 => ⟨some 7, some 0, some 0, some 1, .black, none⟩
    | _ => .zero

theorem delete_wellFormed_root : ∃ t' v as bs, (∀ fuel, 3 < fuel →
      threeNodes.stlRbtreeDelete (leftmost 3) fuel (some 1) = .ok (t', v)) ∧
    [2, 1, 3] = as ++ 1 :: bs ∧ WellFormed t' 0 (as ++ bs) ∧ Spares 1 threeNodes t' := by
  have hnodes : WellFormed threeNodes 0 [2, 1, 3] := by
    refine ⟨⟨.node false (.node false .leaf 2 .leaf) 1 (.node false .leaf 3 .leaf), 2,
      ⟨rfl, ⟨none, some 1, ⟨rfl, rfl, rfl, ?_, ?_⟩, rfl⟩, by decide⟩, ?_, rfl⟩, rfl, ?_⟩
    · exact ⟨rfl, rfl, rfl, rfl, rfl⟩
    · exact ⟨rfl, rfl, rfl, rfl, rfl⟩
    · exact .black (.black .leaf .leaf) (.black .leaf .leaf)
    · have hle : ∀ x y : ℕ, x ≤ y → Le cmpOf (some x) (some y) := fun x y => le_cmpOf.mpr
      refine List.Pairwise.cons ?_ (List.pairwise_pair.mpr (hle 5 7 (by decide)))
      intro y hy
      rcases List.mem_pair.mp hy with rfl | rfl
      · exact hle 3 5 (by decide)
      · exact hle 3 7 (by decide)
  exact delete_wellFormed hnodes (by decide) (returnsMin_leftmost (by decide) (by decide))

end Deletion

end KirinFS.Rbtree
