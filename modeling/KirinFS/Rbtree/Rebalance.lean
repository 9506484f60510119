import KirinFS.Rbtree.Repair

/-! # The repair after a deletion

A tree that is one black node short takes it from its sibling, or hands the debt
up. A leaf in this place is the sentinel, whose parent field says where it is.
-/

namespace KirinFS.Rbtree
open Foundation.RedBlack Foundation.RedBlack.ColorTree Function

variable {K D : Type} {t t' : StlRbtree K D} {s n p w : ℕ} {k : List (Frame ℕ)} {f : Frame ℕ}
  {T a b u v : ColorTree ℕ} {c c' d : Bool}

namespace StlRbtree
variable (t : StlRbtree K D)

/-- The part of a turn that makes the sibling black. -/
def lowerSibling (d : Side) (temp : Option ℕ) : Except Fault (StlRbtree K D × Option ℕ) := do
  let x ← t.load temp
  let p ← t.load x.parent
  let w := p.child d.other
  let y ← t.load w
  if y.color = .red then
    let t ← t.paint w .black
    let t ← t.paint x.parent .red
    let t ← t.rotate d x.parent
    let x ← t.load temp
    let p ← t.load x.parent
    return (t, p.child d.other)
  return (t, w)

/-- The end of the last turn, for a red node beyond the sibling. -/
def settle (d : Side) (temp w : Option ℕ) : Except Fault (StlRbtree K D × Option ℕ) := do
  let x ← t.load temp
  let p ← t.load x.parent
  let t ← t.paint w p.color
  let t ← t.paint x.parent .black
  let y ← t.load w
  let t ← t.paint (y.child d.other) .black
  let t ← t.rotate d x.parent
  return (t, t.root)

def bothBlack (y : StlRbtreeNode K D) : Except Fault Bool := do
  let l ← t.load y.left
  if l.color = .black then
    let r ← t.load y.right
    return decide (r.color = .black)
  return false

/-- What a turn does with a black sibling `w`, which holds `y`. -/
def byChildren (d : Side) (temp w : Option ℕ) (y : StlRbtreeNode K D) (both : Bool) :
    Except Fault (StlRbtree K D × Option ℕ) := do
  let x ← t.load temp
  if both then
    let t ← t.paint w .red
    return (t, x.parent)
  let far ← t.load (y.child d.other)
  if far.color = .black then
    let t ← t.paint (y.child d) .black
    let t ← t.paint w .red
    let t ← t.rotate d.other w
    let x ← t.load temp
    let p ← t.load x.parent
    t.settle d temp (p.child d.other)
  else t.settle d temp w

def afterSibling (d : Side) (temp w : Option ℕ) : Except Fault (StlRbtree K D × Option ℕ) := do
  let y ← t.load w
  let both ← t.bothBlack y
  t.byChildren d temp w y both

theorem deleteFixStep_eq (d : Side) (temp : Option ℕ) :
    t.deleteFixStep d temp = t.lowerSibling d temp >>= fun a => a.1.afterSibling d temp a.2 := by
  unfold deleteFixStep lowerSibling
  simp only [bind_assoc]
  refine bind_congr fun x => bind_congr fun p => bind_congr fun y => ?_
  have hsplit : ∀ (t : StlRbtree K D) (w : Option ℕ), t.afterSibling d temp w = (do
      let y ← t.load w
      let l ← t.load y.left
      if l.color = .black then
        let r ← t.load y.right
        t.byChildren d temp w y (decide (r.color = .black))
      else t.byChildren d temp w y false) := by
    intro t w
    unfold afterSibling bothBlack
    refine bind_congr fun y => ?_
    rw [bind_assoc]
    refine bind_congr fun l => ?_
    split <;> simp only [bind_assoc, pure_bind]
  split
  · simp only [bind_assoc, pure_bind, hsplit]
    rfl
  · simp only [pure_bind, hsplit]
    rfl

def repay (fuel : ℕ) (temp : Option ℕ) : Except Fault (StlRbtree K D) := do
  let (t, temp) ← deleteFix fuel t temp
  t.paint temp .black

end StlRbtree

def spot (s : ℕ) (T : ColorTree ℕ) : ℕ := T.top.getD s

/-- The sentinel in the place of a leaf knows its parent. -/
def Tethered (t : StlRbtree K D) (s : ℕ) (k : List (Frame ℕ)) (T : ColorTree ℕ) : Prop :=
  T = .leaf → ∀ p ∈ k.head?.map Frame.x, (t.mem s).parent = some p

theorem Rep.spot {mem : ℕ → StlRbtreeNode K D} {parent q : Option ℕ} (h : Rep mem s T parent q)
    (hblack : (mem s).color = .black) : q = some (spot s T) ∧
      (mem (Rbtree.spot s T)).color = hue T.isRed := by
  cases T with
  | leaf => exact ⟨h, hblack⟩
  | node red l x r => exact ⟨h.1, h.2.1⟩

theorem spot_join : spot s (join d c a w b) = w := by
  rw [spot, top_join, Option.getD_some]

theorem tethered_join : Tethered t s k (join d c a w b) := by
  intro h
  cases d <;> cases h

namespace Shape

theorem across : Shape t s (⟨d, c, p, u⟩ :: k) T ↔ Shape t s (⟨!d, c, p, T⟩ :: k) u := by
  rw [up_iff, up_iff, Frame.fill, Frame.fill, join_not]

theorem root_spot (h : Shape t s [] T) : t.root = some (spot s T) := by
  obtain ⟨-, ⟨parent, q, hT, hroot⟩, -⟩ := h
  cases T with
  | leaf => exact Eq.trans hroot hT
  | node red l x r => exact Eq.trans hroot hT.1

/-- What the loop reads of the nodes above the hole, with a sibling that is not a leaf. -/
theorem spot_above (h : Shape t s (f :: k) T) (ht : Tethered t s (f :: k) T)
    (hw : f.sibling.top = some w) :
    some (spot s T) ≠ t.root ∧ (t.mem (spot s T)).parent = some f.x ∧
      (t.mem f.x).color = hue f.red ∧ (t.mem f.x).child (sideOf f.right) = some (spot s T) ∧
      (t.mem f.x).child (sideOf !f.right) = some w ∧ w ≠ spot s T ∧
      (t.mem w).color = hue f.sibling.isRed := by
  have hin := top_mem hw
  obtain ⟨-, hsk⟩ := h.sentinel_out
  have hwk : w ∈ members (f :: k) := by simp [members, hin]
  obtain ⟨parent, q, hT, hall⟩ := h.links
  obtain ⟨hparent, hcolor, hchild, hsib, hup⟩ := id hall
  obtain ⟨hother, hwcolor, -⟩ := hsib.top hw
  cases T with
  | node red l x r =>
    obtain ⟨hroot, hpar, -, -, hne⟩ := h.above rfl
    refine ⟨hroot, hpar, hcolor, hchild.trans hT.1, hother, ?_, hwcolor⟩
    rintro rfl
    exact hne hother
  | leaf =>
    have hq : q = some s := hT
    refine ⟨?_, ht rfl f.x rfl, hcolor, hchild.trans hq, hother, ?_, hwcolor⟩
    · obtain ⟨m, hm, hroot⟩ := hall.root_mem (List.cons_ne_nil f k)
      rw [hroot]
      intro heq
      cases heq
      exact hsk hm
    · rintro rfl
      exact hsk hwk

theorem below (h : Shape t s k (join d c a w b)) (hblack : (t.mem s).color = .black) :
    (t.mem w).child (sideOf d) = some (spot s a) ∧ (t.mem (spot s a)).color = hue a.isRed ∧
      (t.mem w).child (sideOf !d) = some (spot s b) ∧
      (t.mem (spot s b)).color = hue b.isRed := by
  obtain ⟨-, ⟨parent, q, hT, -⟩, -⟩ := h
  obtain ⟨-, -, -, ha, hb⟩ := rep_join.mp hT
  exact ⟨(ha.spot hblack).1, (ha.spot hblack).2, (hb.spot hblack).1, (hb.spot hblack).2⟩

/-- Making the root of a subtree black, which the sentinel is already. -/
theorem blacken (h : Shape t s k u) (hblack : (t.mem s).color = .black) :
    ∃ t', t.paint (some (spot s u)) .black = .ok t' ∧ Shape t' s k u.blacken ∧ Keeps s t t' := by
  cases u with
  | leaf =>
    have hsame : { t.mem s with color := .black } = t.mem s := by
      rw [← hblack]
    have hmem : update t.mem s { t.mem s with color := .black } = t.mem := by
      rw [hsame, update_eq_self]
    refine ⟨t, ?_, h, .refl s t⟩
    change Except.ok { t with mem := update t.mem s { t.mem s with color := .black } } = _
    rw [hmem]
  | node red l x r => exact Shape.paint (d := false) (c := red) h false

end Shape

theorem Tethered.keep (h : Tethered t s k T) (hk : Keeps s t t') : Tethered t' s k T := by
  intro hleaf f hf
  rw [hk.sentinel]
  exact h hleaf f hf

section Turn
variable {h : ℕ} {r : Bool}

/-- The sibling takes the colour of the parent, and the parent is rotated below it. -/
theorem settle_spec (hs : Shape t s (⟨d, c, p, join d false a w b⟩ :: k) T)
    (ht : Tethered t s (⟨d, c, p, join d false a w b⟩ :: k) T) (hblack : (t.mem s).color = .black) :
    ∃ t', t.settle (sideOf d) (some (spot s T)) (some w) = .ok (t', t'.root) ∧
      Shape t' s k (join d c (join d false T p a) w b.blacken) ∧ Keeps s t t' := by
  obtain ⟨-, hpar, hcolor, -, -, -, -⟩ := hs.spot_above ht top_join
  dsimp only at hpar hcolor
  obtain ⟨t₁, h₁, hs₁, hk₁⟩ := (Shape.across.mp hs).paint c
  have hup₁ := Shape.up_iff.mp (Shape.across.mpr hs₁)
  obtain ⟨t₂, h₂, hs₂, hk₂⟩ := hup₁.paint false
  have hw₂ : Shape t₂ s (⟨!d, false, p, T⟩ :: k) (join d c a w b) :=
    Shape.across.mp (Shape.up_iff.mpr hs₂)
  have hblack₂ : (t₂.mem s).color = .black := by
    rw [hk₂.sentinel, hk₁.sentinel, hblack]
  obtain ⟨-, -, hfar, -⟩ := hw₂.below hblack₂
  have hb₂ : Shape t₂ s (⟨!d, c, w, a⟩ :: ⟨!d, false, p, T⟩ :: k) b :=
    Shape.across.mp (Shape.up_iff.mpr hw₂)
  obtain ⟨t₃, h₃, hs₃, hk₃⟩ := hb₂.blacken hblack₂
  have hup₃ := Shape.up_iff.mp (Shape.across.mpr (Shape.up_iff.mp (Shape.across.mpr hs₃)))
  obtain ⟨t₄, h₄, hs₄, hk₄⟩ := hup₃.rotate
  refine ⟨t₄, ?_, hs₄, ((hk₁.trans hk₂).trans hk₃).trans hk₄⟩
  have hload : t.load (some (spot s T)) = .ok (t.mem (spot s T)) := rfl
  have hloadp : t.load (some p) = .ok (t.mem p) := rfl
  have hloadw : t₂.load (some w) = .ok (t₂.mem w) := rfl
  rw [StlRbtree.settle, hload, ok_bind, hpar, hloadp, ok_bind, hcolor, h₁, ok_bind]
  have h₂' : t₁.paint (some p) .black = .ok t₂ := h₂
  rw [h₂', ok_bind, hloadw, ok_bind, sideOf_not, hfar, h₃, ok_bind, h₄, ok_bind]
  rfl

/-- A red child of the sibling on the near side is rotated up to be the sibling. -/
theorem turnOut_spec {m : ColorTree ℕ} {y : ℕ}
    (hs : Shape t s (⟨d, c, p, join d false (join d true u y m) w b⟩ :: k) T) :
    ∃ t₁ t₂ t₃, t.paint (some y) .black = .ok t₁ ∧ t₁.paint (some w) .red = .ok t₂ ∧
      t₂.rotate (sideOf !d) (some w) = .ok t₃ ∧
      Shape t₃ s (⟨d, c, p, join d false u y (join d true m w b)⟩ :: k) T ∧ Keeps s t t₃ := by
  have hnear : Shape t s (⟨d, false, w, b⟩ :: ⟨!d, c, p, T⟩ :: k) (join d true u y m) :=
    Shape.up_iff.mpr (Shape.across.mp hs)
  obtain ⟨t₁, h₁, hs₁, hk₁⟩ := hnear.paint false
  obtain ⟨t₂, h₂, hs₂, hk₂⟩ := (Shape.up_iff.mp hs₁).paint true
  rw [← join_not (d := d) (x := w), ← join_not (d := d) (x := y)] at hs₂
  obtain ⟨t₃, h₃, hs₃, hk₃⟩ := hs₂.rotate
  rw [join_not, join_not] at hs₃
  exact ⟨t₁, t₂, t₃, h₁, h₂, h₃, Shape.across.mpr hs₃, (hk₁.trans hk₂).trans hk₃⟩

theorem bothBlack_eq (hs : Shape t s k (join d c a w b)) (hblack : (t.mem s).color = .black) :
    t.bothBlack (t.mem w) = .ok (!a.isRed && !b.isRed) := by
  have hread : ∀ m, t.load (some m) = .ok (t.mem m) := fun _ => rfl
  obtain ⟨ha, hacolor, hb, hbcolor⟩ := hs.below hblack
  cases d with
  | false =>
    have hl : (t.mem w).left = some (spot s a) := ha
    have hr : (t.mem w).right = some (spot s b) := hb
    rw [StlRbtree.bothBlack, hl, hr, hread, ok_bind, hread, ok_bind, hacolor, hbcolor]
    cases a.isRed <;> cases b.isRed <;> rfl
  | true =>
    have hl : (t.mem w).left = some (spot s b) := hb
    have hr : (t.mem w).right = some (spot s a) := ha
    rw [StlRbtree.bothBlack, hl, hr, hread, ok_bind, hread, ok_bind, hacolor, hbcolor]
    cases a.isRed <;> cases b.isRed <;> rfl

/-- After a turn the debt is smaller, or waits below a black node, or has been paid. -/
structure Turned (t t' : StlRbtree K D) (s : ℕ) (k : List (Frame ℕ)) (T : ColorTree ℕ)
    (k' : List (Frame ℕ)) (T' : ColorTree ℕ) : Prop where
  shape : Shape t' s k' T'
  keeps : Keeps s t t'
  node : Tethered t' s k' T'
  order : (plug k' T').inorder = (plug k T).inorder
  owes : ∃ r h, Owes h T' ∧ Hole r (h + 1) k'

theorem afterSibling_spec (hs : Shape t s (⟨d, c, p, join d false a w b⟩ :: k) T)
    (ht : Tethered t s (⟨d, c, p, join d false a w b⟩ :: k) T) (hblack : (t.mem s).color = .black)
    (hT : Balanced false h T) (hk : Hole r (h + 1) (⟨d, c, p, join d false a w b⟩ :: k)) :
    ∃ t' k' T', t.afterSibling (sideOf d) (some (spot s T)) (some w) =
        .ok (t', some (spot s T')) ∧
      Turned t t' s (⟨d, c, p, join d false a w b⟩ :: k) T k' T' ∧ k'.length ≤ k.length ∧
      (c = true → T'.isRed = true ∨ k' = []) := by
  have hread : ∀ (t : StlRbtree K D) m, t.load (some m) = .ok (t.mem m) := fun _ _ => rfl
  obtain ⟨-, hpar, -, -, -, -, -⟩ := hs.spot_above ht top_join
  have hS := Shape.across.mp hs
  obtain ⟨hnear, hnearcolor, hfar, hfarcolor⟩ := hS.below hblack
  dsimp only at hpar
  have hlast : ∀ {t₀ a' w' b'}, Shape t₀ s (⟨d, c, p, join d false a' w' b'⟩ :: k) T →
      Keeps s t t₀ → b'.isRed = true → Hole r (h + 1) (⟨d, c, p, join d false a' w' b'⟩ :: k) →
      (join d false a' w' b').inorder = (join d false a w b).inorder →
      ∃ t' k' T', t₀.settle (sideOf d) (some (spot s T)) (some w') = .ok (t', some (spot s T')) ∧
        Turned t t' s (⟨d, c, p, join d false a w b⟩ :: k) T k' T' ∧ k'.length ≤ k.length ∧
        (c = true → T'.isRed = true ∨ k' = []) := by
    intro t₀ a' w' b' hs₀ hkeep hb' hk₀ horder
    have ht₀ : Tethered t₀ s (⟨d, c, p, join d false a' w' b'⟩ :: k) T := ht.keep hkeep
    obtain ⟨t', hrun, hs', hkeep'⟩ := settle_spec hs₀ ht₀ (by rw [hkeep.sentinel, hblack])
    obtain ⟨h', hbal⟩ := hk₀.settle hT hb'
    have hwhole := Shape.plug_iff.mp hs'
    refine ⟨t', [], _, by rw [hrun, hwhole.root_spot], ⟨hwhole, hkeep.trans hkeep', ?_, ?_,
      true, h', .black hbal, .top⟩, Nat.zero_le _, fun _ => Or.inr rfl⟩
    · intro _ f hf
      cases hf
    · rw [plug, plug]
      refine inorder_plug_congr ?_
      rw [inorder_rotate (e := c) (r := false)]
      refine inorder_join_congr rfl ?_
      exact (inorder_join_congr rfl inorder_blacken).trans horder
  rw [StlRbtree.afterSibling, hread, ok_bind, bothBlack_eq hS hblack, ok_bind,
    StlRbtree.byChildren, hread, ok_bind]
  cases hbred : b.isRed with
  | true =>
    obtain ⟨t', k', T', hrun, hturned, hshort, hend⟩ := hlast hs (.refl s t) hbred hk rfl
    refine ⟨t', k', T', ?_, hturned, hshort, hend⟩
    rw [hbred] at hfarcolor
    have hstay : ¬ (!a.isRed && !true) = true := by simp
    have hred : ¬ (t.mem (spot s b)).color = .black := by
      rw [hfarcolor]
      decide
    rw [if_neg hstay, sideOf_not, hfar, hread, ok_bind, if_neg hred]
    exact hrun
  | false =>
    rw [hbred] at hfarcolor
    cases hared : a.isRed with
    | false =>
      obtain ⟨t₁, h₁, hs₁, hk₁⟩ := hS.paint true
      obtain ⟨r', h', howes, hhole⟩ := hk.handUp hT hared hbred
      refine ⟨t₁, k, _, ?_,
        ⟨Shape.up_iff.mp (Shape.across.mpr hs₁), hk₁, tethered_join, ?_, r', h', howes, hhole⟩,
        Nat.le_refl _, ?_⟩
      · have h₁' : t.paint (some w) .red = .ok t₁ := h₁
        rw [if_pos (by decide), h₁', ok_bind, hpar, Frame.fill, spot_join]
        rfl
      · rw [plug]
        exact inorder_plug_congr (inorder_join_congr rfl inorder_recolour)
      · rw [Frame.fill, isRed_join]
        exact Or.inl
    | true =>
      obtain ⟨u, y, m, rfl⟩ := exists_join hared d
      obtain ⟨t₁, t₂, t₃, h₁, h₂, h₃, hs₃, hk₃⟩ := turnOut_spec hs
      obtain ⟨t', k', T', hrun, hturned, hshort, hend⟩ := hlast hs₃ hk₃ isRed_join
        (hk.turnOut hbred) inorder_rotate.symm
      refine ⟨t', k', T', ?_, hturned, hshort, hend⟩
      obtain ⟨-, hpar₃, -, -, hother₃, -, -⟩ := hs₃.spot_above (ht.keep hk₃) top_join
      dsimp only at hpar₃ hother₃
      have hfarblack : (t.mem (spot s b)).color = .black := hfarcolor
      rw [spot_join] at hnear
      rw [if_neg (by decide), sideOf_not, hfar, hread, ok_bind, if_pos hfarblack, hnear, h₁,
        ok_bind, h₂, ok_bind, h₃, ok_bind, hread, ok_bind, hpar₃, hread, ok_bind, hother₃]
      exact hrun

/-- A red sibling goes above the hole, and a child of it becomes the sibling. -/
theorem lowerSibling_spec (hs : Shape t s (⟨d, c, p, u⟩ :: k) T)
    (ht : Tethered t s (⟨d, c, p, u⟩ :: k) T) (hk : Hole r (h + 1) (⟨d, c, p, u⟩ :: k)) :
    ∃ t' r' c' k' a w b, t.lowerSibling (sideOf d) (some (spot s T)) = .ok (t', some w) ∧
      Shape t' s (⟨d, c', p, join d false a w b⟩ :: k') T ∧ Keeps s t t' ∧
      (plug (⟨d, c', p, join d false a w b⟩ :: k') T).inorder =
        (plug (⟨d, c, p, u⟩ :: k) T).inorder ∧
      Hole r' (h + 1) (⟨d, c', p, join d false a w b⟩ :: k') ∧
      (k'.length = k.length ∨ c' = true ∧ k'.length = k.length + 1) := by
  have hread : ∀ (t : StlRbtree K D) m, t.load (some m) = .ok (t.mem m) := fun _ _ => rfl
  obtain ⟨a, w, b, hu⟩ := hk.sibling d
  dsimp only at hu
  have hw : u.top = some w := by
    rw [hu, top_join]
  obtain ⟨-, hpar, -, -, hother, -, hcolor⟩ := hs.spot_above ht hw
  dsimp only at hpar hother hcolor
  rw [StlRbtree.lowerSibling, hread, ok_bind, hpar, hread, ok_bind, sideOf_not, hother]
  dsimp only
  rw [hread, ok_bind, hcolor]
  cases hred : u.isRed with
  | false =>
    rw [hred] at hu
    subst hu
    exact ⟨t, r, c, k, a, w, b, rfl, hs, .refl s t, rfl, hk, Or.inl rfl⟩
  | true =>
    rw [hred] at hu
    subst hu
    obtain ⟨hk', hared⟩ := hk.lower
    obtain ⟨t₁, h₁, hs₁, hk₁⟩ := (Shape.across.mp hs).paint false
    obtain ⟨t₂, h₂, hs₂, hk₂⟩ := (Shape.up_iff.mp (Shape.across.mpr hs₁)).paint true
    obtain ⟨t₃, h₃, hs₃, hk₃⟩ := hs₂.rotate
    have hlow : Shape t₃ s (⟨d, true, p, a⟩ :: ⟨d, false, w, b⟩ :: k) T :=
      Shape.up_iff.mpr (Shape.up_iff.mpr hs₃)
    have hkeep := (hk₁.trans hk₂).trans hk₃
    obtain ⟨x, y, z, ha⟩ := hk'.sibling d
    dsimp only at ha
    rw [hared] at ha
    subst ha
    obtain ⟨-, hpar₃, -, -, hother₃, -, -⟩ := hlow.spot_above (ht.keep hkeep) top_join
    dsimp only at hpar₃ hother₃
    refine ⟨t₃, true, true, _, x, y, z, ?_, hlow, hkeep, ?_, hk', Or.inr ⟨rfl, rfl⟩⟩
    · have h₁' : t.paint (some w) .black = .ok t₁ := h₁
      have h₂' : t₁.paint (some p) .red = .ok t₂ := h₂
      rw [if_pos (by decide), h₁', ok_bind, h₂', ok_bind, h₃, ok_bind, hread, ok_bind, hpar₃, hread,
        ok_bind, hother₃]
      rfl
    · exact inorder_plug_congr inorder_rotate

/-- A turn leaves the debt nearer to the root, or at a red node. -/
theorem deleteFixStep_spec (hs : Shape t s (⟨d, c, p, u⟩ :: k) T)
    (ht : Tethered t s (⟨d, c, p, u⟩ :: k) T) (hblack : (t.mem s).color = .black)
    (hT : Balanced false h T) (hk : Hole r (h + 1) (⟨d, c, p, u⟩ :: k)) :
    ∃ t' k' T', t.deleteFixStep (sideOf d) (some (spot s T)) = .ok (t', some (spot s T')) ∧
      Turned t t' s (⟨d, c, p, u⟩ :: k) T k' T' ∧
      (k'.length ≤ k.length ∨ T'.isRed = true) := by
  obtain ⟨t₁, r', c', k₁, a, w, b, h₁, hs₁, hkeep₁, horder₁, hk₁, hlen₁⟩ :=
    lowerSibling_spec hs ht hk
  have hblack₁ : (t₁.mem s).color = .black := by rw [hkeep₁.sentinel, hblack]
  obtain ⟨t', k', T', h', hturned, hlen, hend⟩ :=
    afterSibling_spec hs₁ (ht.keep hkeep₁) hblack₁ hT hk₁
  refine ⟨t', k', T', ?_, ⟨hturned.shape, hkeep₁.trans hturned.keeps, hturned.node,
    hturned.order.trans horder₁, hturned.owes⟩, ?_⟩
  · rw [StlRbtree.deleteFixStep_eq, h₁, ok_bind]
    exact h'
  · rcases hlen₁ with heq | ⟨hc, -⟩
    · exact Or.inl (heq ▸ hlen)
    · rcases hend hc with hred | rfl
      · exact Or.inr hred
      · exact Or.inl (Nat.zero_le _)

/-- The loop stops at a red node or at the root, and the debt is paid. -/
theorem repay_stop (hs : Shape t s k T) (hblack : (t.mem s).color = .black) (hT : Owes h T)
    (hk : Hole r (h + 1) k) (hend : T.isRed = true ∨ k = []) :
    ∃ t' T' h', (∀ fuel, 0 < fuel → t.repay fuel (some (spot s T)) = .ok t') ∧
      Shape t' s [] T' ∧ Balanced false h' T' ∧ T'.inorder = (plug k T).inorder ∧ Keeps s t t' := by
  obtain ⟨t', hpaint, hs', hkeep⟩ := hs.blacken hblack
  obtain ⟨h', hbal⟩ := hT.pay hk hend
  refine ⟨t', _, h', ?_, Shape.plug_iff.mp hs', hbal, inorder_plug_congr inorder_blacken, hkeep⟩
  intro fuel hfuel
  obtain ⟨fuel, rfl⟩ : ∃ i, fuel = i + 1 := ⟨fuel - 1, by omega⟩
  have hstop : StlRbtree.deleteFix (fuel + 1) t (some (spot s T)) = .ok (t, some (spot s T)) := by
    rw [StlRbtree.deleteFix]
    by_cases hroot : some (spot s T) = t.root
    · rw [if_pos hroot]
      rfl
    · rcases hend with hred | rfl
      · obtain ⟨parent, q, hrep, -⟩ := hs.links
        have hcolor : (t.mem (spot s T)).color = .red := by
          rw [(hrep.spot hblack).2, hred]
          rfl
        have hload : t.load (some (spot s T)) = .ok (t.mem (spot s T)) := rfl
        rw [if_neg hroot, hload, ok_bind, if_pos hcolor]
        rfl
      · exact absurd hs.root_spot.symm hroot
  rw [StlRbtree.repay, hstop, ok_bind]
  exact hpaint

theorem repay_spec (hs : Shape t s k T) (ht : Tethered t s k T)
    (hblack : (t.mem s).color = .black) (hT : Owes h T) (hk : Hole r (h + 1) k) :
    ∃ t' T' h', (∀ fuel, k.length < fuel → t.repay fuel (some (spot s T)) = .ok t') ∧
      Shape t' s [] T' ∧ Balanced false h' T' ∧ T'.inorder = (plug k T).inorder ∧ Keeps s t t' := by
  induction hm : k.length using Nat.strongRecOn generalizing t k T h r with
  | ind m ih =>
    by_cases hend : T.isRed = true ∨ k = []
    · obtain ⟨t', T', h', hrun, hrest⟩ := repay_stop hs hblack hT hk hend
      exact ⟨t', T', h', fun fuel hfuel => hrun fuel (by omega), hrest⟩
    · rw [not_or, Bool.not_eq_true] at hend
      obtain ⟨hTblack, hnil⟩ := hend
      obtain ⟨⟨d, c, p, u⟩, k, rfl⟩ := List.exists_cons_of_ne_nil hnil
      obtain ⟨a, w, b, hu⟩ := hk.sibling d
      dsimp only at hu
      have hw : u.top = some w := by
        rw [hu, top_join]
      obtain ⟨t₁, k₁, T₁, h₁, ⟨hs₁, hkeep₁, ht₁, horder₁, r₁, h', howes₁, hk₁⟩, hlen₁⟩ :=
        deleteFixStep_spec hs ht hblack (hT.balanced hTblack) hk
      have hblack₁ : (t₁.mem s).color = .black := by rw [hkeep₁.sentinel, hblack]
      have hnext : ∃ t' T' h', (∀ fuel, k.length < fuel →
          t₁.repay fuel (some (spot s T₁)) = .ok t') ∧ Shape t' s [] T' ∧ Balanced false h' T' ∧
          T'.inorder = (plug k₁ T₁).inorder ∧ Keeps s t₁ t' := by
        rcases hlen₁ with hlen | hred
        · obtain ⟨t', T', h', hrun, hrest⟩ := ih k₁.length (by rw [← hm, List.length_cons]; omega)
            hs₁ ht₁ hblack₁ howes₁ hk₁ rfl
          exact ⟨t', T', h', fun fuel hfuel => hrun fuel (by omega), hrest⟩
        · obtain ⟨t', T', h', hrun, hrest⟩ :=
            repay_stop hs₁ hblack₁ howes₁ hk₁ (Or.inl hred)
          exact ⟨t', T', h', fun fuel hfuel => hrun fuel (by omega), hrest⟩
      obtain ⟨t', T', h'', hrun, hs', hbal, horder, hkeep⟩ := hnext
      refine ⟨t', T', h'', ?_, hs', hbal, horder.trans horder₁, hkeep₁.trans hkeep⟩
      intro fuel hfuel
      rw [← hm, List.length_cons] at hfuel
      obtain ⟨fuel, rfl⟩ : ∃ i, fuel = i + 1 := ⟨fuel - 1, by omega⟩
      obtain ⟨hroot, hpar, -, hchild, hother, hne, -⟩ := hs.spot_above ht hw
      dsimp only at hpar hchild hother
      obtain ⟨parent, q, hrep, -⟩ := hs.links
      have hcolor : ¬ (t.mem (spot s T)).color = .red := by
        rw [(hrep.spot hblack).2, hTblack]
        decide
      have hside : (if some (spot s T) = (t.mem p).left then Side.left else Side.right) =
          sideOf d := by
        cases d with
        | false => exact if_pos hchild.symm
        | true =>
          refine if_neg fun heq => hne ?_
          exact (Option.some.inj (heq.trans hother)).symm
      have hread : ∀ m, t.load (some m) = .ok (t.mem m) := fun _ => rfl
      have hrun' := hrun fuel (by omega)
      rw [StlRbtree.repay] at hrun' ⊢
      rw [StlRbtree.deleteFix, if_neg hroot, hread, ok_bind, if_neg hcolor, hpar, hread, ok_bind,
        hside, h₁, ok_bind]
      exact hrun'

end Turn

end KirinFS.Rbtree
