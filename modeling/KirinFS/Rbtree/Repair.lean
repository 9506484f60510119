import KirinFS.Rbtree.Rotate

/-! # The repair after an insertion

A red node moves up until the node above it is black or it is the root.
-/

namespace KirinFS.Rbtree
open Foundation.RedBlack Foundation.RedBlack.ColorTree Function

variable {K D : Type} {t : StlRbtree K D} {s n p g : ℕ} {k : List (Frame ℕ)} {f : Frame ℕ}
  {T u v : ColorTree ℕ} {d e r : Bool} {parent q : Option ℕ}

theorem Rep.top {mem : ℕ → StlRbtreeNode K D} (h : Rep mem s T parent q) (ht : T.top = some n) :
    q = some n ∧ (mem n).color = hue T.isRed ∧ (mem n).parent = parent := by
  cases T with
  | leaf => cases ht
  | node red l x r =>
    cases ht
    exact ⟨h.1, h.2.1, h.2.2.1⟩

theorem top_mem (ht : T.top = some n) : n ∈ T.inorder := by
  cases T with
  | leaf => cases ht
  | node red l x r =>
    cases ht
    simp [inorder]

namespace Shape

theorem above (h : Shape t s (f :: k) T) (ht : T.top = some n) :
    some n ≠ t.root ∧ (t.mem n).parent = some f.x ∧ (t.mem f.x).color = hue f.red ∧
      (t.mem f.x).child (sideOf f.right) = some n ∧
      (t.mem f.x).child (sideOf !f.right) ≠ some n := by
  have hn := top_mem ht
  obtain ⟨hs, ⟨parent, q, hT, hup⟩, hd⟩ := h
  obtain ⟨hsout, hd⟩ := List.nodup_cons.mp hd
  obtain ⟨-, -, hapart⟩ := List.nodup_append.mp hd
  obtain ⟨m, hm, hroot⟩ := hup.root_mem (List.cons_ne_nil f k)
  obtain ⟨rfl, -, rfl⟩ := hT.top ht
  obtain ⟨hparent, hcolor, hchild, hsib, -⟩ := hup
  refine ⟨?_, hparent, hcolor, hchild, ?_⟩
  · rw [hroot]
    intro heq
    exact hapart n hn m hm (Option.some.inj heq)
  · intro heq
    rw [heq] at hsib
    cases hS : f.sibling with
    | leaf =>
      rw [hS] at hsib
      obtain rfl := Option.some.inj hsib
      exact hsout (List.mem_append_left _ hn)
    | node red l x r =>
      rw [hS] at hsib
      have hx := Option.some.inj hsib.1
      exact hapart n hn x (by simp [members, hS, inorder]) hx

theorem beside (h : Shape t s (f :: k) T) (hblack : (t.mem s).color = .black) :
    ∃ m, (t.mem f.x).child (sideOf !f.right) = some m ∧
      (t.mem m).color = hue f.sibling.isRed ∧ (f.sibling.isRed = true → f.sibling.top = some m) := by
  obtain ⟨-, ⟨parent, q, -, -, -, -, hsib, -⟩, -⟩ := h
  obtain ⟨m, hm, hcolor, -⟩ := hsib.pointer hblack
  refine ⟨m, hm, hcolor, ?_⟩
  intro hred
  cases hS : f.sibling with
  | leaf =>
    rw [hS] at hred
    cases hred
  | node red l x r =>
    rw [hS] at hsib
    exact hsib.1.symm.trans hm

/-- Parent and grandparent change their colours, and the parent is rotated up. -/
theorem lift (h : Shape t s (⟨e, false, g, u⟩ :: k) (join e true T p v)) :
    ∃ t₁ t₂ t₃, t.paint (some p) .black = .ok t₁ ∧ t₁.paint (some g) .red = .ok t₂ ∧
      t₂.rotate (sideOf !e) (some g) = .ok t₃ ∧
      Shape t₃ s (⟨e, false, p, join e true v g u⟩ :: k) T ∧ Keeps s t t₃ := by
  obtain ⟨t₁, h₁, hs₁, hk₁⟩ := h.paint false
  obtain ⟨t₂, h₂, hs₂, hk₂⟩ := (up_iff.mp hs₁).paint true
  rw [← join_not (d := e) (x := g), ← join_not (d := e)] at hs₂
  obtain ⟨t₃, h₃, hs₃, hk₃⟩ := hs₂.rotate
  refine ⟨t₁, t₂, t₃, h₁, h₂, h₃, ?_, (hk₁.trans hk₂).trans hk₃⟩
  rw [join_not, join_not] at hs₃
  exact up_iff.mpr hs₃

/-- Parent, uncle and grandparent change their colours. -/
theorem recolour {m : ℕ} (h : Shape t s (⟨d, true, p, v⟩ :: ⟨e, false, g, u⟩ :: k) T)
    (hu : u.isRed = true) (hm : u.top = some m) :
    ∃ t₁ t₂ t₃, t.paint (some p) .black = .ok t₁ ∧ t₁.paint (some m) .black = .ok t₂ ∧
      t₂.paint (some g) .red = .ok t₃ ∧
      Shape t₃ s k (join e true (join d false T p v) g u.blacken) ∧ Keeps s t t₃ := by
  obtain ⟨t₁, h₁, hs₁, hk₁⟩ := (up_iff.mp h).paint false
  have hs₁' := up_iff.mp hs₁
  rw [Frame.fill] at hs₁'
  rw [← join_not (d := e)] at hs₁'
  have huncle : Shape t₁ s (⟨!e, false, g, join d false T p v⟩ :: k) u := up_iff.mpr hs₁'
  cases u with
  | leaf => cases hm
  | node red a x b =>
    cases hu
    cases hm
    have huncle' : Shape t₁ s (⟨!e, false, g, join d false T p v⟩ :: k) (join false true a m b) :=
      huncle
    obtain ⟨t₂, h₂, hs₂, hk₂⟩ := huncle'.paint false
    have hs₂' := up_iff.mp hs₂
    rw [Frame.fill, join_not] at hs₂'
    obtain ⟨t₃, h₃, hs₃, hk₃⟩ := hs₂'.paint true
    exact ⟨t₁, t₂, t₃, h₁, h₂, h₃, hs₃, (hk₁.trans hk₂).trans hk₃⟩

end Shape

section Repair
variable {h : ℕ}

theorem insertFixStep_spec (hs : Shape t s (⟨d, true, p, v⟩ :: ⟨e, false, g, u⟩ :: k) T)
    (hblack : (t.mem s).color = .black) (ht : T.top = some n) (hred : T.isRed = true) :
    ∃ t' n' T' k', t.insertFixStep (sideOf e) (some n) = .ok (t', some n') ∧
      Turn T (⟨d, true, p, v⟩ :: ⟨e, false, g, u⟩ :: k) T' k' ∧ T'.top = some n' ∧
      Shape t' s k' T' ∧ Keeps s t t' := by
  have hup : Shape t s (⟨e, false, g, u⟩ :: k) (join d true T p v) := Shape.up_iff.mp hs
  obtain ⟨-, hpar, -, hchild, hnot⟩ := hs.above ht
  obtain ⟨-, hgrand, -, -, -⟩ := hup.above top_join
  obtain ⟨m, huncle, hcolor, hm⟩ := hup.beside hblack
  dsimp only at hpar hchild hnot hgrand huncle hcolor hm
  have hloadn : t.load (some n) = .ok (t.mem n) := rfl
  have hloadp : t.load (some p) = .ok (t.mem p) := rfl
  have hloadg : t.load (some g) = .ok (t.mem g) := rfl
  have hloadm : t.load (some m) = .ok (t.mem m) := rfl
  rw [StlRbtree.insertFixStep, hloadn, ok_bind]
  simp only [hpar, hloadp, ok_bind, hgrand, hloadg, sideOf_not, huncle, hloadm]
  cases hu : u.isRed with
  | true =>
    obtain ⟨t₁, t₂, t₃, h₁, h₂, h₃, hs₃, hk₃⟩ := hs.recolour hu (hm hu)
    have hcol : (t.mem m).color = .red := by
      rw [hcolor, hu]
      rfl
    refine ⟨t₃, g, _, k, ?_, .recolour hu, top_join, hs₃, hk₃⟩
    rw [if_pos hcol, h₁, ok_bind, h₂, ok_bind, h₃, ok_bind]
    rfl
  | false =>
    have hcol : ¬ (t.mem m).color = .red := by
      rw [hcolor, hu]
      decide
    rw [if_neg hcol]
    by_cases hde : d = e
    · subst hde
      have hout : ¬ some n = (t.mem p).child (sideOf !d) := fun heq => hnot heq.symm
      obtain ⟨t₁, t₂, t₃, h₁, h₂, h₃, hs₃, hk₃⟩ := hup.lift
      refine ⟨t₃, n, T, _, ?_, .outer hu, ht, hs₃, hk₃⟩
      simp only [if_neg hout, pure_bind, hloadn, ok_bind, hpar, hloadp, hgrand, h₁, h₂, h₃]
      rfl
    · obtain rfl : d = !e := by
        cases d <;> cases e <;> simp_all
      have hin : some n = (t.mem p).child (sideOf !e) := hchild.symm
      obtain ⟨a, b, rfl⟩ : ∃ a b, T = join e true a n b := by
        obtain ⟨a, b, hT⟩ := eq_join ht e
        rw [hred] at hT
        exact ⟨a, b, hT⟩
      rw [join_not] at hup
      obtain ⟨t₀, h₀, hs₀, hk₀⟩ := hup.rotate
      obtain ⟨t₁, t₂, t₃, h₁, h₂, h₃, hs₃, hk₃⟩ := hs₀.lift
      have hlow : Shape t₀ s (⟨e, true, n, b⟩ :: ⟨e, false, g, u⟩ :: k) (join e true v p a) :=
        Shape.up_iff.mpr hs₀
      obtain ⟨-, hpar₀, -, -, -⟩ := hlow.above top_join
      obtain ⟨-, hgrand₀, -, -, -⟩ := hs₀.above top_join
      have hloadp₀ : t₀.load (some p) = .ok (t₀.mem p) := rfl
      have hloadn₀ : t₀.load (some n) = .ok (t₀.mem n) := rfl
      refine ⟨t₃, p, _, _, ?_, .inner hu, top_join, hs₃, hk₀.trans hk₃⟩
      dsimp only at hpar₀ hgrand₀
      simp only [if_pos hin, h₀, pure_bind, ok_bind, hloadp₀, hpar₀, hloadn₀, hgrand₀, h₁, h₂, h₃]
      rfl

/-- The loop stops at the root or below a black node. -/
theorem insertFix_spec (hs : Shape t s k T) (hblack : (t.mem s).color = .black)
    (ht : T.top = some n) (hT : Balanced true h T) (hk : Hole r h k) :
    ∃ t' k' T' r' h', (∀ fuel, k.length < fuel → t.insertFix fuel (some n) = .ok t') ∧
      Shape t' s k' T' ∧ Keeps s t t' ∧ (plug k' T').inorder = (plug k T).inorder ∧
      Balanced true h' T' ∧ Hole r' h' k' ∧ (r' = false ∨ k' = []) := by
  induction hm : k.length using Nat.strongRecOn generalizing t n k T h r with
  | ind m ih =>
    have hloadn : t.load (some n) = .ok (t.mem n) := rfl
    cases k with
    | nil =>
      refine ⟨t, [], T, r, h, ?_, hs, .refl s t, rfl, hT, hk, Or.inr rfl⟩
      intro fuel hfuel
      obtain ⟨fuel, rfl⟩ : ∃ f, fuel = f + 1 := ⟨fuel - 1, by omega⟩
      obtain ⟨-, ⟨parent, q, hrep, hroot⟩, -⟩ := hs
      obtain ⟨rfl, -⟩ := hrep.top ht
      have hroot' : some n = t.root := hroot.symm
      rw [StlRbtree.insertFix, if_pos hroot']
      rfl
    | cons f k =>
      obtain ⟨d, red, p, v⟩ := f
      obtain ⟨hroot, hpar, hcolor, -, -⟩ := hs.above ht
      dsimp only at hpar hcolor
      have hloadp : t.load (some p) = .ok (t.mem p) := rfl
      cases hk with
      | black hv hk =>
        refine ⟨t, _, T, false, h, ?_, hs, .refl s t, rfl, hT, .black hv hk, Or.inl rfl⟩
        intro fuel hfuel
        obtain ⟨fuel, rfl⟩ : ∃ f, fuel = f + 1 := ⟨fuel - 1, by omega⟩
        have hstop : (t.mem p).color = .black := hcolor
        rw [StlRbtree.insertFix, if_neg hroot, hloadn, ok_bind, hpar, hloadp, ok_bind, if_pos hstop]
        rfl
      | red hv hk =>
        cases hk with
        | @black _ c r' e g u k hu hk =>
          have hup : Shape t s (⟨e, false, g, u⟩ :: k) (join d true T p v) := Shape.up_iff.mp hs
          obtain ⟨-, hgrand, -, hon, hoff⟩ := hup.above top_join
          dsimp only at hgrand hon hoff
          obtain ⟨t₁, n₁, T₁, k₁, hstep, hturn, ht₁, hs₁, hkeep₁⟩ :=
            insertFixStep_spec hs hblack ht hT.isRed_eq
          have hhole : Hole true h (⟨d, true, p, v⟩ :: ⟨e, false, g, u⟩ :: k) :=
            .red hv (.black hu hk)
          obtain ⟨r₁, h₁, hT₁, hk₁⟩ := hturn.balanced hT hhole
          have hblack₁ : (t₁.mem s).color = .black := by
            rw [hkeep₁.sentinel]
            exact hblack
          have hshort := hturn.shorter
          obtain ⟨t', k', T', r', h', hrun, hs', hkeep, horder, hT', hk', hend⟩ :=
            ih k₁.length (by rw [← hm]; exact hshort) hs₁ hblack₁ ht₁ hT₁ hk₁ rfl
          refine ⟨t', k', T', r', h', ?_, hs', hkeep₁.trans hkeep, horder.trans hturn.inorder_eq,
            hT', hk', hend⟩
          intro fuel hfuel
          obtain ⟨fuel, rfl⟩ : ∃ f, fuel = f + 1 := ⟨fuel - 1, by omega⟩
          have hred : ¬ (t.mem p).color = .black := by
            rw [hcolor]
            decide
          have hside : (if some p = (t.mem g).left then Side.left else Side.right) = sideOf e := by
            cases e with
            | false => exact if_pos hon.symm
            | true => exact if_neg fun heq => hoff heq.symm
          have hloadg : t.load (some g) = .ok (t.mem g) := rfl
          rw [StlRbtree.insertFix, if_neg hroot, hloadn, ok_bind]
          simp only [hpar, hloadp, ok_bind, if_neg hred, hgrand, hloadg]
          rw [hside, hstep, ok_bind]
          exact hrun fuel (by omega)

end Repair

end KirinFS.Rbtree
