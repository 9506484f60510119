import Mathlib.Data.List.Perm.Basic

/-! # Red-black trees and their holes

A subtree and the frames above it make up a tree. The frames carry the side of
the hole, so that mirror images are one case.
-/

namespace KirinFS.Foundation.RedBlack

inductive ColorTree (α : Type*) where
  | leaf
  | node (red : Bool) (left : ColorTree α) (x : α) (right : ColorTree α)

variable {α : Type*} {c c' d e r : Bool} {h : ℕ} {x : α} {t near far : ColorTree α}

namespace ColorTree

def inorder : ColorTree α → List α
  | leaf => []
  | node _ l x r => l.inorder ++ x :: r.inorder

/-- A node with the subtree `near` on its right side if `d`, and on its left side if not. -/
def join (d red : Bool) (near : ColorTree α) (x : α) (far : ColorTree α) : ColorTree α :=
  if d then node red far x near else node red near x far

theorem join_not : join (!d) c far x near = join d c near x far := by
  cases d <;> rfl

def isRed : ColorTree α → Bool
  | leaf => false
  | node red _ _ _ => red

@[simp] theorem isRed_join : (join d c near x far).isRed = c := by
  cases d <;> rfl

def top : ColorTree α → Option α
  | leaf => none
  | node _ _ x _ => some x

theorem top_join : (join d c near x far).top = some x := by
  cases d <;> rfl

/-- A tree seen from either side. -/
theorem eq_join (ht : t.top = some x) (d : Bool) :
    ∃ near far, t = join d t.isRed near x far := by
  cases t with
  | leaf => cases ht
  | node red l y r =>
    cases ht
    cases d with
    | false => exact ⟨l, r, rfl⟩
    | true => exact ⟨r, l, rfl⟩

theorem exists_join (ht : t.isRed = true) (d : Bool) :
    ∃ near x far, t = join d true near x far := by
  cases t with
  | leaf => cases ht
  | node red l x r =>
    cases ht
    obtain ⟨near, far, hjoin⟩ := eq_join (t := node true l x r) rfl d
    exact ⟨near, x, far, hjoin⟩

def blacken : ColorTree α → ColorTree α
  | leaf => leaf
  | node _ l x r => node false l x r

@[simp] theorem inorder_blacken : t.blacken.inorder = t.inorder := by
  cases t <;> rfl

end ColorTree

open ColorTree

/-- No red node has a red child, and there are `h` black nodes on the way to every leaf. The root
is red if `c`. -/
inductive Balanced : (c : Bool) → (h : ℕ) → ColorTree α → Prop where
  | leaf : Balanced false 0 .leaf
  | red {h : ℕ} {l r : ColorTree α} {x : α} (hl : Balanced false h l) (hr : Balanced false h r) :
    Balanced true h (.node true l x r)
  | black {c c' : Bool} {h : ℕ} {l r : ColorTree α} {x : α} (hl : Balanced c h l)
    (hr : Balanced c' h r) : Balanced false (h + 1) (.node false l x r)

theorem Balanced.isRed_eq (ht : Balanced c h t) : t.isRed = c := by
  cases ht <;> rfl

theorem balanced_join_red :
    Balanced c h (join d true near x far) ↔
      c = true ∧ Balanced false h near ∧ Balanced false h far := by
  cases d with
  | false =>
    constructor
    · rintro ⟨hl, hr⟩
      exact ⟨rfl, ‹_›, ‹_›⟩
    · rintro ⟨rfl, hl, hr⟩
      exact .red hl hr
  | true =>
    constructor
    · rintro ⟨hl, hr⟩
      exact ⟨rfl, ‹_›, ‹_›⟩
    · rintro ⟨rfl, hl, hr⟩
      exact .red hr hl

theorem balanced_join_black :
    Balanced c h (join d false near x far) ↔
      c = false ∧ ∃ h' b b', h = h' + 1 ∧ Balanced b h' near ∧ Balanced b' h' far := by
  cases d with
  | false =>
    constructor
    · intro ht
      cases ht with
      | black hl hr => exact ⟨rfl, _, _, _, rfl, hl, hr⟩
    · rintro ⟨rfl, h', b, b', rfl, hl, hr⟩
      exact .black hl hr
  | true =>
    constructor
    · intro ht
      cases ht with
      | black hl hr => exact ⟨rfl, _, _, _, rfl, hr, hl⟩
    · rintro ⟨rfl, h', b, b', rfl, hl, hr⟩
      exact .black hr hl

theorem Balanced.blacken (ht : Balanced c h t) : ∃ h', Balanced false h' t.blacken := by
  cases ht with
  | leaf => exact ⟨0, .leaf⟩
  | red hl hr => exact ⟨_, .black hl hr⟩
  | black hl hr => exact ⟨_, .black hl hr⟩

/-- A node above a hole, with its other subtree. -/
structure Frame (α : Type*) where
  right : Bool
  red : Bool
  x : α
  sibling : ColorTree α

def Frame.fill (f : Frame α) (t : ColorTree α) : ColorTree α := join f.right f.red t f.x f.sibling

/-- The tree with `t` in the hole below the frames, the innermost one first. -/
def plug : List (Frame α) → ColorTree α → ColorTree α
  | [], t => t
  | f :: k, t => plug k (f.fill t)

def before : List (Frame α) → List α
  | [] => []
  | f :: k => before k ++ if f.right then f.sibling.inorder ++ [f.x] else []

def after : List (Frame α) → List α
  | [] => []
  | f :: k => (if f.right then [] else f.x :: f.sibling.inorder) ++ after k

theorem inorder_plug (k : List (Frame α)) (t : ColorTree α) :
    (plug k t).inorder = before k ++ t.inorder ++ after k := by
  induction k generalizing t with
  | nil => simp [plug, before, after]
  | cons f k ih =>
    rw [plug, ih, before, after, Frame.fill]
    cases f.right <;> simp [join, inorder]

def members : List (Frame α) → List α
  | [] => []
  | f :: k => f.x :: f.sibling.inorder ++ members k

theorem length_le_members (k : List (Frame α)) : k.length ≤ (members k).length := by
  induction k with
  | nil => exact Nat.le_refl 0
  | cons f k ih =>
    rw [members, List.cons_append, List.length_cons, List.length_cons, List.length_append]
    omega

theorem inorder_join_perm : (join d c near x far).inorder.Perm
    (near.inorder ++ x :: far.inorder) := by
  cases d with
  | false => rfl
  | true =>
    refine List.perm_middle.trans ?_
    refine List.Perm.trans ?_ List.perm_middle.symm
    exact (List.perm_append_comm).cons x

theorem plug_perm (k : List (Frame α)) (t : ColorTree α) :
    (plug k t).inorder.Perm (t.inorder ++ members k) := by
  induction k generalizing t with
  | nil => rw [plug, members, List.append_nil]
  | cons f k ih =>
    refine (ih (f.fill t)).trans ?_
    rw [members, ← List.append_assoc]
    exact inorder_join_perm.append_right _

section Holes
variable {k k' : List (Frame α)} {t' : ColorTree α}

/-- A black tree of black height `h` fits below the frames, and a red one if not `r`. -/
inductive Hole : (r : Bool) → (h : ℕ) → List (Frame α) → Prop where
  | top {h : ℕ} : Hole true h []
  | red {h : ℕ} {d : Bool} {x : α} {s : ColorTree α} {k : List (Frame α)} (hs : Balanced false h s)
    (hk : Hole false h k) : Hole true h (⟨d, true, x, s⟩ :: k)
  | black {h : ℕ} {c r d : Bool} {x : α} {s : ColorTree α} {k : List (Frame α)} (hs : Balanced c h s)
    (hk : Hole r (h + 1) k) : Hole false h (⟨d, false, x, s⟩ :: k)

theorem Hole.plug (hk : Hole r h k) (ht : Balanced c h t) (hc : c = true → r = false ∨ k = []) :
    ∃ c' h', Balanced c' h' (plug k t) := by
  induction hk generalizing t c with
  | top => exact ⟨c, _, ht⟩
  | red hs hk ih =>
    have hblack : c = false := by
      cases c with
      | false => rfl
      | true => simpa using hc rfl
    rw [hblack] at ht
    exact ih (balanced_join_red.mpr ⟨rfl, ht, hs⟩) fun _ => Or.inl rfl
  | black hs hk ih =>
    exact ih (balanced_join_black.mpr ⟨rfl, _, _, _, rfl, ht, hs⟩) (by simp)

theorem Balanced.hole (ht : Balanced false h (plug k t)) :
    ∃ r h' c, Hole r h' k ∧ Balanced c h' t ∧ (c = true → r = false) := by
  induction k generalizing t with
  | nil => exact ⟨true, h, false, .top, ht, by simp⟩
  | cons f k ih =>
    obtain ⟨r, h', c, hk, hfill, hc⟩ := ih ht
    obtain ⟨d, red, x, s⟩ := f
    cases red with
    | true =>
      obtain ⟨rfl, hnear, hfar⟩ := balanced_join_red.mp hfill
      rw [hc rfl] at hk
      exact ⟨true, h', false, .red hfar hk, hnear, by simp⟩
    | false =>
      obtain ⟨rfl, h', b, b', rfl, hnear, hfar⟩ := balanced_join_black.mp hfill
      exact ⟨false, h', b, .black hfar hk, hnear, fun _ => rfl⟩

/-- Repairing a red node `t` below a red node, where the node above the two is black. -/
inductive Turn : ColorTree α → List (Frame α) → ColorTree α → List (Frame α) → Prop where
  | recolour {d e : Bool} {p g : α} {t s u : ColorTree α} {k : List (Frame α)} (hu : u.isRed = true) :
    Turn t (⟨d, true, p, s⟩ :: ⟨e, false, g, u⟩ :: k)
      (join e true (join d false t p s) g u.blacken) k
  | outer {e : Bool} {p g : α} {t s u : ColorTree α} {k : List (Frame α)} (hu : u.isRed = false) :
    Turn t (⟨e, true, p, s⟩ :: ⟨e, false, g, u⟩ :: k)
      t (⟨e, false, p, join e true s g u⟩ :: k)
  | inner {e : Bool} {n p g : α} {a b s u : ColorTree α} {k : List (Frame α)} (hu : u.isRed = false) :
    Turn (join e true a n b) (⟨!e, true, p, s⟩ :: ⟨e, false, g, u⟩ :: k)
      (join e true s p a) (⟨e, false, n, join e true b g u⟩ :: k)

theorem Turn.inorder_eq (ht : Turn t k t' k') :
    (plug k' t').inorder = (plug k t).inorder := by
  cases ht with
  | @recolour d e p g t s u k hu =>
    simp only [inorder_plug, before, after]
    cases d <;> cases e <;> simp [join, inorder]
  | @outer e p g t s u k hu =>
    simp only [inorder_plug, before, after]
    cases e <;> simp [join, inorder]
  | @inner e n p g a b s u k hu =>
    simp only [inorder_plug, before, after]
    cases e <;> simp [join, inorder]

theorem Turn.shorter (ht : Turn t k t' k') : k'.length < k.length := by
  cases ht <;> simp only [List.length_cons] <;> omega

/-- After a turn the red node is the only one that may be out of place. -/
theorem Turn.balanced (ht : Turn t k t' k') (hred : Balanced true h t) (hk : Hole r h k) :
    ∃ r' h', Balanced true h' t' ∧ Hole r' h' k' := by
  cases ht with
  | recolour hu =>
    cases hk with
    | red hs hk =>
      cases hk with
      | black hu' hk =>
        obtain rfl := hu'.isRed_eq.symm.trans hu
        cases hu' with
        | red hl hr =>
          refine ⟨_, _, balanced_join_red.mpr ⟨rfl, ?_, .black hl hr⟩, hk⟩
          exact balanced_join_black.mpr ⟨rfl, _, _, _, rfl, hred, hs⟩
  | outer hu =>
    cases hk with
    | red hs hk =>
      cases hk with
      | black hu' hk =>
        obtain rfl := hu'.isRed_eq.symm.trans hu
        exact ⟨_, _, hred, .black (balanced_join_red.mpr ⟨rfl, hs, hu'⟩) hk⟩
  | inner hu =>
    cases hk with
    | red hs hk =>
      cases hk with
      | black hu' hk =>
        obtain rfl := hu'.isRed_eq.symm.trans hu
        obtain ⟨-, ha, hb⟩ := balanced_join_red.mp hred
        exact ⟨_, _, balanced_join_red.mpr ⟨rfl, hs, ha⟩,
          .black (balanced_join_red.mpr ⟨rfl, hb, hu'⟩) hk⟩

end Holes

section Deficit
variable {k : List (Frame α)} {t' a b m u : ColorTree α} {p w y : α}

theorem Hole.plug_black (hk : Hole r h k) (ht : Balanced c h t) (hc : c = true → r = false) :
    ∃ h', Balanced false h' (RedBlack.plug k t) := by
  induction hk generalizing t c with
  | top =>
    cases c with
    | false => exact ⟨_, ht⟩
    | true => cases hc rfl
  | red hs hk ih =>
    cases c with
    | false => exact ih (balanced_join_red.mpr ⟨rfl, ht, hs⟩) fun _ => rfl
    | true => cases hc rfl
  | black hs hk ih =>
    exact ih (balanced_join_black.mpr ⟨rfl, _, _, _, rfl, ht, hs⟩) (by simp)

/-- The tree has one black node too few on all its paths, `h` instead of `h + 1`. A red root, which
may be above another red node, can make up for it. -/
inductive Owes : (h : ℕ) → ColorTree α → Prop where
  | red {h : ℕ} {l r : ColorTree α} {x : α} (ht : Balanced false (h + 1) (.node false l x r)) :
    Owes h (.node true l x r)
  | black {h : ℕ} {t : ColorTree α} (ht : Balanced false h t) : Owes h t

theorem Balanced.owes (ht : Balanced c h t) : Owes h t := by
  cases ht with
  | leaf => exact .black .leaf
  | red hl hr => exact .red (.black hl hr)
  | black hl hr => exact .black (.black hl hr)

theorem Owes.balanced (ht : Owes h t) (hblack : t.isRed = false) : Balanced false h t := by
  cases ht with
  | red ht => cases hblack
  | black ht => exact ht

/-- The debt is paid where the root is red, and nobody claims it at the top. -/
theorem Owes.pay (ht : Owes h t) (hk : Hole r (h + 1) k) (hend : t.isRed = true ∨ k = []) :
    ∃ h', Balanced false h' (plug k t.blacken) := by
  cases ht with
  | red ht => exact hk.plug_black ht (by simp)
  | black ht =>
    rcases hend with hred | rfl
    · rw [ht.isRed_eq] at hred
      cases hred
    · exact ht.blacken

theorem inorder_plug_congr (h : t.inorder = t'.inorder) :
    (plug k t).inorder = (plug k t').inorder := by
  rw [inorder_plug, inorder_plug, h]

theorem inorder_recolour : (join d c near x far).inorder = (join d c' near x far).inorder := by
  cases d <;> rfl

theorem inorder_join_congr (hn : near.inorder = t.inorder) (hf : far.inorder = t'.inorder) :
    (join d c near x far).inorder = (join d c t x t').inorder := by
  cases d <;> simp [join, inorder, hn, hf]

theorem inorder_rotate : (join d c (join d c' t p a) w b).inorder =
    (join d e t p (join d r a w b)).inorder := by
  cases d <;> simp [join, inorder]

/-- The sibling of a tree that has black nodes is not a leaf. -/
theorem Hole.sibling {f : Frame α} (hk : Hole r (h + 1) (f :: k)) (d : Bool) :
    ∃ a w b, f.sibling = join d f.sibling.isRed a w b := by
  have hnode : ∀ {c} {u : ColorTree α}, Balanced c (h + 1) u →
      ∃ a w b, u = join d u.isRed a w b := by
    intro c u hu
    have htop : ∃ m, u.top = some m := by
      cases hu with
      | red hl hr => exact ⟨_, rfl⟩
      | black hl hr => exact ⟨_, rfl⟩
    obtain ⟨m, hm⟩ := htop
    obtain ⟨a, b, hjoin⟩ := eq_join hm d
    exact ⟨a, m, b, hjoin⟩
  cases hk with
  | red hs hk => exact hnode hs
  | black hs hk => exact hnode hs

theorem Hole.lower (hk : Hole r h (⟨d, c, p, join d true a w b⟩ :: k)) :
    Hole true h (⟨d, true, p, a⟩ :: ⟨d, false, w, b⟩ :: k) ∧ a.isRed = false := by
  cases hk with
  | red hs hk => cases (balanced_join_red.mp hs).1
  | black hs hk =>
    obtain ⟨-, ha, hb⟩ := balanced_join_red.mp hs
    exact ⟨.red ha (.black hb hk), ha.isRed_eq⟩

/-- A black sibling with black children turns red, and the debt moves up. -/
theorem Hole.handUp (hk : Hole r (h + 1) (⟨d, c, p, join d false a w b⟩ :: k))
    (ht : Balanced false h t) (ha : a.isRed = false) (hb : b.isRed = false) :
    ∃ r' h', Owes h' (join d c t p (join d true a w b)) ∧ Hole r' (h' + 1) k := by
  have hsib : ∀ {e}, Balanced e (h + 1) (join d false a w b) →
      Balanced false (h + 1) (join d false t p (join d true a w b)) := by
    intro e hs
    obtain ⟨-, h', e, e', heq, hA, hB⟩ := balanced_join_black.mp hs
    cases heq
    rw [← hA.isRed_eq, ha] at hA
    rw [← hB.isRed_eq, hb] at hB
    exact balanced_join_black.mpr ⟨rfl, _, _, _, rfl, ht, balanced_join_red.mpr ⟨rfl, hA, hB⟩⟩
  cases hk with
  | red hs hk =>
    refine ⟨_, h, ?_, hk⟩
    have hbal := hsib hs
    cases d with
    | false => exact .red hbal
    | true => exact .red hbal
  | black hs hk => exact ⟨_, h + 1, .black (hsib hs), hk⟩

/-- A red child `y` of the sibling `w` on the side of the hole takes its place. -/
theorem Hole.turnOut (hk : Hole r (h + 1) (⟨d, c, p, join d false (join d true u y m) w b⟩ :: k))
    (hb : b.isRed = false) :
    Hole r (h + 1) (⟨d, c, p, join d false u y (join d true m w b)⟩ :: k) := by
  have hsib : ∀ {e}, Balanced e (h + 1) (join d false (join d true u y m) w b) →
      Balanced e (h + 1) (join d false u y (join d true m w b)) := by
    intro e hs
    obtain ⟨rfl, h', e, e', heq, hA, hB⟩ := balanced_join_black.mp hs
    obtain ⟨-, hu, hm⟩ := balanced_join_red.mp hA
    rw [← hB.isRed_eq, hb] at hB
    exact balanced_join_black.mpr
      ⟨rfl, h', _, _, heq, hu, balanced_join_red.mpr ⟨rfl, hm, hB⟩⟩
  cases hk with
  | red hs hk => exact .red (hsib hs) hk
  | black hs hk => exact .black (hsib hs) hk

/-- A red child of the sibling on the far side pays the debt. -/
theorem Hole.settle (hk : Hole r (h + 1) (⟨d, c, p, join d false a w b⟩ :: k))
    (ht : Balanced false h t) (hb : b.isRed = true) :
    ∃ h', Balanced false h' (RedBlack.plug k (join d c (join d false t p a) w b.blacken)) := by
  have hsib : ∀ {e}, Balanced e (h + 1) (join d false a w b) →
      Balanced false (h + 1) (join d false t p a) ∧ Balanced false (h + 1) b.blacken := by
    intro e hs
    obtain ⟨-, h', e, e', heq, hA, hB⟩ := balanced_join_black.mp hs
    cases heq
    refine ⟨balanced_join_black.mpr ⟨rfl, _, _, _, rfl, ht, hA⟩, ?_⟩
    rw [← hB.isRed_eq, hb] at hB
    cases hB with
    | red hl hr => exact .black hl hr
  cases hk with
  | red hs hk =>
    obtain ⟨hA, hB⟩ := hsib hs
    exact hk.plug_black (balanced_join_red.mpr ⟨rfl, hA, hB⟩) fun _ => rfl
  | black hs hk =>
    obtain ⟨hA, hB⟩ := hsib hs
    exact hk.plug_black (balanced_join_black.mpr ⟨rfl, _, _, _, rfl, hA, hB⟩) (by simp)

/-- A tree has lost a node with a leaf on one side: a red one without loss, and a black one at the
cost of a debt. -/
theorem Hole.without (hk : Hole r h k) (ht : Balanced e h (join d c .leaf x t))
    (he : e = true → r = false) :
    (c = true → ∃ h', Balanced false h' (RedBlack.plug k t)) ∧
      (c = false → ∃ h', Owes h' t ∧ Hole r (h' + 1) k) := by
  constructor
  · rintro rfl
    obtain ⟨rfl, -, ht⟩ := balanced_join_red.mp ht
    exact hk.plug_black ht (by simp)
  · rintro rfl
    obtain ⟨-, h', b, b', rfl, -, ht⟩ := balanced_join_black.mp ht
    exact ⟨h', ht.owes, hk⟩

end Deficit

section Places
variable {k k' : List (Frame α)} {l : ColorTree α} {y : α}

theorem plug_append : plug (k ++ k') t = plug k' (plug k t) := by
  induction k generalizing t with
  | nil => rfl
  | cons f k ih => exact ih

theorem exists_plug (hx : x ∈ t.inorder) : ∃ k c l r, t = plug k (.node c l x r) := by
  induction t with
  | leaf => cases hx
  | node c l y r ihl ihr =>
    rcases List.mem_append.mp hx with hl | hr
    · obtain ⟨k, c', l', r', rfl⟩ := ihl hl
      exact ⟨k ++ [⟨false, c, y, r⟩], c', l', r', by rw [plug_append]; rfl⟩
    · rcases List.mem_cons.mp hr with rfl | hr
      · exact ⟨[], c, l, r, rfl⟩
      · obtain ⟨k, c', l', r', rfl⟩ := ihr hr
        exact ⟨k ++ [⟨true, c, y, l⟩], c', l', r', by rw [plug_append]; rfl⟩

theorem exists_leftmost (ht : t ≠ .leaf) :
    ∃ k c x u, t = plug k (join false c .leaf x u) ∧ before k = [] := by
  induction t with
  | leaf => exact absurd rfl ht
  | node c l y r ihl ihr =>
    by_cases hl : l = .leaf
    · subst hl
      exact ⟨[], c, y, r, rfl, rfl⟩
    · obtain ⟨k, c', x, u, rfl, hk⟩ := ihl hl
      refine ⟨k ++ [⟨false, c, y, r⟩], c', x, u, by rw [plug_append]; rfl, ?_⟩
      have happ : ∀ k : List (Frame α), before (k ++ [⟨false, c, y, r⟩]) = before k := by
        intro k
        induction k with
        | nil => rfl
        | cons f k ih => rw [List.cons_append, before, before, ih]
      rw [happ, hk]

theorem Hole.relabel (hk : Hole r h (k ++ ⟨d, c, x, l⟩ :: k')) :
    Hole r h (k ++ ⟨d, c, y, l⟩ :: k') := by
  induction k generalizing r h with
  | nil =>
    cases hk with
    | red hs hk => exact .red hs hk
    | black hs hk => exact .black hs hk
  | cons f k ih =>
    cases hk with
    | red hs hk => exact .red hs (ih hk)
    | black hs hk => exact .black hs (ih hk)

end Places

end KirinFS.Foundation.RedBlack
