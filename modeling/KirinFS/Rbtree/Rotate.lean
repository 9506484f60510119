import KirinFS.Rbtree.Shape

/-! # Painting and rotating

Both work on the root of a subtree and leave the frames above it alone, apart
from the link that leads to it.
-/

namespace KirinFS.Rbtree
open Foundation.RedBlack Foundation.RedBlack.ColorTree Function

variable {K D : Type} {t t' t'' : StlRbtree K D} {s x y : ℕ} {k : List (Frame ℕ)} {f : Frame ℕ}
  {T a b r near far : ColorTree ℕ} {c c' d e : Bool} {parent q p : Option ℕ}

/-- The subtree `T` with the frames above it, `s` being the sentinel. -/
structure Shape (t : StlRbtree K D) (s : ℕ) (k : List (Frame ℕ)) (T : ColorTree ℕ) : Prop where
  sentinel : t.sentinel = some s
  links : ∃ parent q, Rep t.mem s T parent q ∧ Above t.mem s t.root k parent q
  nodup : (s :: (T.inorder ++ members k)).Nodup

/-- Only links and colours have changed, and nothing in the sentinel. -/
structure Keeps (s : ℕ) (t t' : StlRbtree K D) : Prop where
  sentinel : t'.mem s = t.mem s
  key : ∀ x, (t'.mem x).key = (t.mem x).key
  data : ∀ x, (t'.mem x).data = (t.mem x).data
  cmp : t'.cmp = t.cmp

theorem Keeps.refl (s : ℕ) (t : StlRbtree K D) : Keeps s t t :=
  ⟨rfl, fun _ => rfl, fun _ => rfl, rfl⟩

theorem Keeps.trans (h : Keeps s t t') (h' : Keeps s t' t'') : Keeps s t t'' where
  sentinel := h'.sentinel.trans h.sentinel
  key x := (h'.key x).trans (h.key x)
  data x := (h'.data x).trans (h.data x)
  cmp := h'.cmp.trans h.cmp

def Alike (mem mem' : ℕ → StlRbtreeNode K D) : Prop :=
  ∀ z, (mem' z).key = (mem z).key ∧ (mem' z).data = (mem z).data

theorem Alike.trans {mem mem' mem'' : ℕ → StlRbtreeNode K D} (h : Alike mem mem')
    (h' : Alike mem' mem'') : Alike mem mem'' :=
  fun z => ⟨(h' z).1.trans (h z).1, (h' z).2.trans (h z).2⟩

theorem alike_update {mem : ℕ → StlRbtreeNode K D} {n : ℕ} {v : StlRbtreeNode K D}
    (hkey : v.key = (mem n).key) (hdata : v.data = (mem n).data) : Alike mem (update mem n v) := by
  intro z
  by_cases hz : z = n
  · rw [hz, update_self]
    exact ⟨hkey, hdata⟩
  · rw [update_of_ne hz]
    exact ⟨rfl, rfl⟩

theorem Alike.keeps {mem : ℕ → StlRbtreeNode K D} (h : Alike t.mem mem) (hs : mem s = t.mem s)
    (root : Option ℕ) : Keeps s t { t with mem := mem, root := root } :=
  ⟨hs, fun z => (h z).1, fun z => (h z).2, rfl⟩

theorem ite_bind {α β : Type} {P : Prop} [Decidable P] (u v : Except Fault α)
    (g : α → Except Fault β) :
    (if P then u >>= g else v >>= g) = (if P then u else v) >>= g := by
  split <;> rfl

theorem ok_bind {α β : Type} (a : α) (g : α → Except Fault β) : (Except.ok a >>= g) = g a := rfl

namespace Shape

theorem up_iff : Shape t s (f :: k) T ↔ Shape t s k (f.fill T) := by
  have hperm : (T.inorder ++ members (f :: k)).Perm ((f.fill T).inorder ++ members k) := by
    rw [members, ← List.append_assoc]
    exact inorder_join_perm.symm.append_right _
  constructor
  · rintro ⟨hs, ⟨parent, q, hT, hparent, hcolor, hchild, hsib, hup⟩, hd⟩
    refine ⟨hs, ⟨_, _, rep_join.mpr ⟨rfl, hcolor, rfl, ?_, hsib⟩, hup⟩,
      (hperm.cons s).nodup_iff.mp hd⟩
    rw [hchild, ← hparent]
    exact hT
  · rintro ⟨hs, ⟨parent, q, hT, hup⟩, hd⟩
    obtain ⟨rfl, hcolor, rfl, hnear, hfar⟩ := rep_join.mp hT
    exact ⟨hs, ⟨_, _, hnear, rfl, hcolor, rfl, hfar, hup⟩, (hperm.cons s).nodup_iff.mpr hd⟩

theorem plug_iff : Shape t s k T ↔ Shape t s [] (plug k T) := by
  induction k generalizing T with
  | nil => rfl
  | cons f k ih => rw [up_iff, ih, plug]

/-- The node at the hole is neither the sentinel nor elsewhere in the tree. -/
theorem apart (h : Shape t s k (join d c near x far)) :
    x ≠ s ∧ x ∉ near.inorder ∧ x ∉ far.inorder ∧ x ∉ members k := by
  have hperm : ((join d c near x far).inorder ++ members k).Perm
      (x :: (near.inorder ++ far.inorder ++ members k)) :=
    (inorder_join_perm.trans List.perm_middle).append_right _
  obtain ⟨hs, hd⟩ := List.nodup_cons.mp ((hperm.cons s).nodup_iff.mp h.nodup)
  obtain ⟨hx, -⟩ := List.nodup_cons.mp hd
  simp only [List.mem_append, not_or] at hx
  refine ⟨?_, hx.1.1, hx.1.2, hx.2⟩
  rintro rfl
  exact hs (by simp)

theorem sentinel_out (h : Shape t s k T) : s ∉ T.inorder ∧ s ∉ members k := by
  have hs := (List.nodup_cons.mp h.nodup).1
  rw [List.mem_append, not_or] at hs
  exact hs

theorem paint (h : Shape t s k (join d c near x far)) (c' : Bool) :
    ∃ t', t.paint (some x) (hue c') = .ok t' ∧ Shape t' s k (join d c' near x far) ∧
      Keeps s t t' := by
  obtain ⟨hxs, hnear, hfar, hk⟩ := h.apart
  obtain ⟨hs, ⟨parent, q, hT, hup⟩, hd⟩ := h
  obtain ⟨rfl, -, rfl, hn, hf⟩ := rep_join.mp hT
  obtain ⟨mem', hmem⟩ : ∃ mem', mem' = update t.mem x { t.mem x with color := hue c' } := ⟨_, rfl⟩
  have hself : mem' x = { t.mem x with color := hue c' } := by
    rw [hmem]
    exact update_self _ _ _
  have hother : ∀ z, z ≠ x → mem' z = t.mem z := by
    intro z hz
    rw [hmem]
    exact update_of_ne hz _ _
  have halike : Alike t.mem mem' := by
    rw [hmem]
    exact alike_update rfl rfl
  refine ⟨{ t with mem := mem' }, by rw [hmem]; rfl,
    ⟨hs, ⟨(t.mem x).parent, some x, rep_join.mpr ⟨rfl, ?_, ?_, ?_, ?_⟩, ?_⟩, ?_⟩,
    halike.keeps (hother s (Ne.symm hxs)) t.root⟩
  · exact congrArg StlRbtreeNode.color hself
  · change (mem' x).parent = (t.mem x).parent
    rw [hself]
  · have hchild : (mem' x).child (sideOf d) = (t.mem x).child (sideOf d) := by
      rw [hself]
      cases d <;> rfl
    rw [hchild]
    exact hn.congr fun z hz => hother z (by rintro rfl; exact hnear hz)
  · have hchild : (mem' x).child (sideOf !d) = (t.mem x).child (sideOf !d) := by
      rw [hself]
      cases d <;> rfl
    rw [hchild]
    exact hf.congr fun z hz => hother z (by rintro rfl; exact hfar hz)
  · exact hup.congr fun z hz => hother z (by rintro rfl; exact hk hz)
  · refine (List.Perm.nodup_iff (List.Perm.cons s ?_)).mp hd
    exact (inorder_join_perm.trans inorder_join_perm.symm).append_right _

end Shape

section Stages

/-- The root is the node at the hole or one of the frames. -/
theorem Above.root_mem (h : Above t.mem s t.root k parent q) (hk : k ≠ []) :
    ∃ m ∈ members k, t.root = some m := by
  induction k generalizing parent q with
  | nil => exact absurd rfl hk
  | cons f k ih =>
    obtain ⟨-, -, -, -, hup⟩ := h
    by_cases hnil : k = []
    · subst hnil
      exact ⟨f.x, by simp [members], hup⟩
    · obtain ⟨m, hm, hroot⟩ := ih hup hnil
      exact ⟨m, by simp [members, hm], hroot⟩

/-- `if (temp->left != sentinel) temp->left->parent = node` and its mirror image. -/
theorem reparent_eq (hs : t.sentinel = some s) (hb : Rep t.mem s b parent q)
    (hout : s ∉ b.inorder) (p : Option ℕ) :
    (if q ≠ t.sentinel then t.setParent q p else pure t) =
      .ok { t with mem := reparent b p t.mem } := by
  cases b with
  | leaf =>
    have hq : q = some s := hb
    rw [if_neg (not_not.mpr (hq.trans hs.symm))]
    rfl
  | node red l n r =>
    have hq : q = some n := hb.1
    have hne : n ≠ s := by
      rintro rfl
      exact hout (by simp [inorder])
    have hdiff : q ≠ t.sentinel := by
      rw [hq, hs]
      simpa using hne
    rw [if_pos hdiff, hq]
    rfl

theorem relinkParent_eq (hup : Above t.mem s t.root k (t.mem x).parent (some x))
    (hx : x ∉ members k) (hxs : x ≠ s) (temp : Option ℕ) (d : Bool) :
    t.relinkParent (some x) temp (sideOf d) =
      .ok { t with root := rootAfter k t.root temp, mem := relink k temp t.mem } := by
  cases k with
  | nil =>
    have hroot : t.root = some x := hup
    rw [StlRbtree.relinkParent, if_pos hroot.symm]
    rfl
  | cons f k =>
    obtain ⟨m, hm, hroot⟩ := hup.root_mem (List.cons_ne_nil _ _)
    obtain ⟨hparent, -, hchild, hsib, -⟩ := hup
    have hne : some x ≠ t.root := by
      rw [hroot]
      rintro heq
      cases heq
      exact hx hm
    have hload : t.load (t.mem x).parent = .ok (t.mem f.x) := by
      rw [hparent]
      rfl
    have hset : ∀ e, sideOf e = sideOf f.right → t.setChild (t.mem x).parent (sideOf e) temp =
        .ok { t with root := rootAfter (f :: k) t.root temp, mem := relink (f :: k) temp t.mem } := by
      intro e he
      rw [hparent, he]
      rfl
    rw [StlRbtree.relinkParent, if_neg hne]
    change (t.load (t.mem x).parent >>= _) = _
    rw [hload, ok_bind]
    by_cases hd : d = f.right
    · rw [if_pos (by rw [hd]; exact hchild.symm)]
      exact hset d (by rw [hd])
    · have hother : (!d) = f.right := by
        cases d <;> cases hf : f.right <;> simp_all
      have hfar : (!f.right) = d := by
        rw [← hother, Bool.not_not]
      rw [hfar] at hsib
      have hnot : some x ≠ (t.mem f.x).child (sideOf d) := by
        intro heq
        rw [← heq] at hsib
        cases hS : f.sibling with
        | leaf =>
          rw [hS] at hsib
          exact hxs (Option.some.inj hsib)
        | node red l n r =>
          rw [hS] at hsib
          have hn := Option.some.inj hsib.1
          exact hx (by simp [members, hS, inorder, hn])
      rw [if_neg hnot, sideOf_not]
      exact hset (!d) (by rw [hother])

end Stages

section Rotation

/-- The memory after a rotation of `x` below `y`, where `b` changes sides. -/
def rotated (mem : ℕ → StlRbtreeNode K D) (k : List (Frame ℕ)) (d : Bool) (x y : ℕ) (b : ColorTree ℕ) :
    ℕ → StlRbtreeNode K D :=
  let mem₁ := update mem x ((mem x).setChild (sideOf !d) ((mem y).child (sideOf d)))
  let mem₂ := reparent b (some x) mem₁
  let mem₃ := update mem₂ y { mem₂ y with parent := (mem x).parent }
  let mem₄ := relink k (some y) mem₃
  let mem₅ := update mem₄ y ((mem₄ y).setChild (sideOf d) (some x))
  update mem₅ x { mem₅ x with parent := some y }

structure Places (s x y : ℕ) (a b r : ColorTree ℕ) (k : List (Frame ℕ)) : Prop where
  xs : x ≠ s
  ys : y ≠ s
  xy : x ≠ y
  xb : x ∉ b.inorder
  yb : y ∉ b.inorder
  xk : x ∉ members k
  yk : y ∉ members k
  sb : s ∉ b.inorder
  sk : s ∉ members k
  near : ∀ z ∈ a.inorder, z ≠ x ∧ z ≠ y ∧ z ∉ b.inorder ∧ z ∉ members k
  moved : ∀ z ∈ b.inorder, z ∉ members k
  far : ∀ z ∈ r.inorder, z ≠ x ∧ z ≠ y ∧ z ∉ b.inorder ∧ z ∉ members k
  nodup : b.inorder.Nodup
  nodupFrames : (members k).Nodup

theorem Shape.places (h : Shape t s k (join d c a x (join d c' b y r))) :
    Places s x y a b r k := by
  have hperm : ((join d c a x (join d c' b y r)).inorder ++ members k).Perm
      (x :: y :: (a.inorder ++ (b.inorder ++ (r.inorder ++ members k)))) := by
    have hy : (join d c' b y r).inorder.Perm (y :: (b.inorder ++ r.inorder)) :=
      inorder_join_perm.trans List.perm_middle
    have hx : (join d c a x (join d c' b y r)).inorder.Perm
        (x :: (a.inorder ++ (y :: (b.inorder ++ r.inorder)))) :=
      (inorder_join_perm.trans List.perm_middle).trans ((hy.append_left _).cons x)
    refine ((hx.trans (List.perm_middle.cons x)).append_right _).trans ?_
    simp
  have hd := ((hperm.cons s).nodup_iff).mp h.nodup
  simp only [List.nodup_cons, List.mem_cons, List.mem_append, not_or, List.nodup_append] at hd
  obtain ⟨⟨hsx, hsy, -, hsb, -, hsk⟩, ⟨hxy, hxa, hxb, hxr, hxk⟩, ⟨hya, hyb, hyr, hyk⟩, -,
    ⟨hb, ⟨-, hk, hrk⟩, hbrk⟩, habrk⟩ := hd
  refine ⟨Ne.symm hsx, Ne.symm hsy, hxy, hxb, hyb, hxk, hyk, hsb, hsk, ?_, ?_, ?_, hb, hk⟩
  · intro z hz
    refine ⟨by rintro rfl; exact hxa hz, by rintro rfl; exact hya hz, ?_, ?_⟩
    · exact fun hzb => habrk z hz z (Or.inl hzb) rfl
    · exact fun hzk => habrk z hz z (Or.inr (Or.inr hzk)) rfl
  · exact fun z hz hzk => hbrk z hz z (Or.inr hzk) rfl
  · intro z hz
    refine ⟨by rintro rfl; exact hxr hz, by rintro rfl; exact hyr hz, ?_, ?_⟩
    · exact fun hzb => hbrk z hzb z (Or.inl hz) rfl
    · exact fun hzk => hrk z hz z hzk rfl

section Rotated
variable {mem : ℕ → StlRbtreeNode K D} {z : ℕ}

theorem rotated_other (hzx : z ≠ x) (hzy : z ≠ y)
    (hzb : z ∉ b.inorder) (hzk : z ∉ members k) : rotated mem k d x y b z = mem z := by
  rw [rotated, update_of_ne hzx, update_of_ne hzy, relink_other hzk, update_of_ne hzy,
    reparent_other hzb, update_of_ne hzx]

theorem Places.rotated_x (h : Places s x y a b r k) (mem : ℕ → StlRbtreeNode K D) (d : Bool) :
    rotated mem k d x y b x =
    { (mem x).setChild (sideOf !d) ((mem y).child (sideOf d)) with parent := some y } := by
  rw [rotated, update_self, update_of_ne h.xy, relink_other h.xk, update_of_ne h.xy,
    reparent_other h.xb, update_self]

theorem Places.rotated_y (h : Places s x y a b r k) (mem : ℕ → StlRbtreeNode K D) (d : Bool) :
    rotated mem k d x y b y =
    { mem y with parent := (mem x).parent }.setChild (sideOf d) (some x) := by
  rw [rotated, update_of_ne h.xy.symm, update_self, relink_other h.yk, update_self,
    reparent_other h.yb, update_of_ne h.xy.symm]

theorem Places.rotated_b (h : Places s x y a b r k) (hz : z ∈ b.inorder) : rotated mem k d x y b z =
    reparent b (some x) (update mem x ((mem x).setChild (sideOf !d) ((mem y).child (sideOf d)))) z := by
  have hzx : z ≠ x := by
    rintro rfl
    exact h.xb hz
  have hzy : z ≠ y := by
    rintro rfl
    exact h.yb hz
  rw [rotated, update_of_ne hzx, update_of_ne hzy, relink_other (h.moved z hz), update_of_ne hzy]

end Rotated

theorem alike_reparent (mem : ℕ → StlRbtreeNode K D) (p : Option ℕ) :
    Alike mem (reparent T p mem) := by
  cases T with
  | leaf => exact fun _ => ⟨rfl, rfl⟩
  | node red l n r => exact alike_update rfl rfl

theorem alike_relink (mem : ℕ → StlRbtreeNode K D) (q : Option ℕ) :
    Alike mem (relink k q mem) := by
  cases k with
  | nil => exact fun _ => ⟨rfl, rfl⟩
  | cons f k => exact alike_update (StlRbtreeNode.setChild_key) (StlRbtreeNode.setChild_data)

theorem alike_rotated (mem : ℕ → StlRbtreeNode K D) : Alike mem (rotated mem k d x y b) := by
  have hchild : ∀ (mem : ℕ → StlRbtreeNode K D) n e q,
      Alike mem (update mem n ((mem n).setChild e q)) := fun mem n e q =>
    alike_update StlRbtreeNode.setChild_key StlRbtreeNode.setChild_data
  have hparent : ∀ (mem : ℕ → StlRbtreeNode K D) n p,
      Alike mem (update mem n { mem n with parent := p }) := fun mem n p => alike_update rfl rfl
  exact (hchild _ x _ _).trans ((alike_reparent _ _).trans ((hparent _ y _).trans
    ((alike_relink _ _).trans ((hchild _ y _ _).trans (hparent _ x _)))))

theorem Places.rotate_eq (h : Places s x y a b r k) (hs : t.sentinel = some s)
    (hx : (t.mem x).child (sideOf !d) = some y)
    (hb : Rep t.mem s b (some y) ((t.mem y).child (sideOf d)))
    (hup : Above t.mem s t.root k (t.mem x).parent (some x)) :
    t.rotate (sideOf d) (some x) =
      .ok { t with root := rootAfter k t.root (some y), mem := rotated t.mem k d x y b } := by
  let mem₁ := update t.mem x ((t.mem x).setChild (sideOf !d) ((t.mem y).child (sideOf d)))
  let mem₂ := reparent b (some x) mem₁
  let mem₃ := update mem₂ y { mem₂ y with parent := (t.mem x).parent }
  have hm₁ : mem₁ y = t.mem y := update_of_ne h.xy.symm _ _
  have hm₂ : (mem₂ x).parent = (t.mem x).parent := by
    have hx₂ : mem₂ x = mem₁ x := reparent_other h.xb
    have hx₁ : mem₁ x = (t.mem x).setChild (sideOf !d) ((t.mem y).child (sideOf d)) :=
      update_self _ _ _
    rw [hx₂, hx₁, StlRbtreeNode.setChild_parent]
  have hm₃ : (mem₃ x).parent = (t.mem x).parent := by
    have hx₃ : mem₃ x = mem₂ x := update_of_ne h.xy _ _
    rw [hx₃, hm₂]
  have hb₁ : Rep mem₁ s b (some y) ((t.mem y).child (sideOf d)) := by
    refine hb.congr fun z hz => update_of_ne ?_ _ _
    rintro rfl
    exact h.xb hz
  have hsame₃ : ∀ z ∈ members k, mem₃ z = t.mem z := by
    intro z hz
    have hzy : z ≠ y := by
      rintro rfl
      exact h.yk hz
    have hzx : z ≠ x := by
      rintro rfl
      exact h.xk hz
    have hz₃ : mem₃ z = mem₂ z := update_of_ne hzy _ _
    have hz₂ : mem₂ z = mem₁ z := reparent_other fun hzb => h.moved z hzb hz
    rw [hz₃, hz₂]
    exact update_of_ne hzx _ _
  have hup₃ : Above mem₃ s t.root k (mem₃ x).parent (some x) := by
    rw [hm₃]
    exact hup.congr hsame₃
  have hloadx : t.load (some x) = .ok (t.mem x) := rfl
  have hloady : t.load (some y) = .ok (t.mem y) := rfl
  rw [StlRbtree.rotate, hloadx, ok_bind]
  dsimp only
  rw [sideOf_not, hx, hloady, ok_bind]
  have hset : t.setChild (some x) (sideOf !d) ((t.mem y).child (sideOf d)) =
      .ok { t with mem := mem₁ } := rfl
  have hload₁ : StlRbtree.load { t with mem := mem₁ } (some y) = .ok (t.mem y) :=
    congrArg Except.ok hm₁
  rw [hset, ok_bind, hload₁, ok_bind, ite_bind]
  have hstage : (if (t.mem y).child (sideOf d) ≠ t.sentinel then
        StlRbtree.setParent { t with mem := mem₁ } ((t.mem y).child (sideOf d)) (some x)
      else pure { t with mem := mem₁ }) = .ok { t with mem := mem₂ } :=
    reparent_eq (t := { t with mem := mem₁ }) hs hb₁ h.sb (some x)
  have hload₂ : StlRbtree.load { t with mem := mem₂ } (some x) = .ok (mem₂ x) := rfl
  have hset₂ : StlRbtree.setParent { t with mem := mem₂ } (some y) (t.mem x).parent =
      .ok { t with mem := mem₃ } := rfl
  have hstage₃ := relinkParent_eq (t := { t with mem := mem₃ }) hup₃ h.xk h.xs (some y) d
  rw [hstage, ok_bind, hload₂, ok_bind, hm₂, hset₂, ok_bind, hstage₃, ok_bind]
  rfl

theorem Places.rep_rotated {mem : ℕ → StlRbtreeNode K D} (h : Places s x y a b r k)
    (hT : Rep mem s (join d c a x (join d c' b y r)) parent q) :
    Rep (rotated mem k d x y b) s (join d c' (join d c a x b) y r) parent (some y) := by
  have hside : sideOf d ≠ sideOf !d := by
    cases d <;> simp [sideOf]
  obtain ⟨-, hcx, hpx, ha, hy⟩ := rep_join.mp hT
  obtain ⟨-, hcy, -, hb, hr⟩ := rep_join.mp hy
  have hX := h.rotated_x mem d
  have hY := h.rotated_y mem d
  refine rep_join.mpr ⟨rfl, ?_, ?_, rep_join.mpr ⟨?_, ?_, ?_, ?_, ?_⟩, ?_⟩
  · rw [hY, StlRbtreeNode.setChild_color, hcy]
  · rw [hY, StlRbtreeNode.setChild_parent, hpx]
  · rw [hY, StlRbtreeNode.child_setChild, if_pos rfl]
  · rw [hX]
    exact StlRbtreeNode.setChild_color.trans hcx
  · rw [hX]
  · rw [hX, StlRbtreeNode.child_withParent, StlRbtreeNode.child_setChild, if_neg hside]
    refine ha.congr fun z hz => ?_
    obtain ⟨hzx, hzy, hzb, hzk⟩ := h.near z hz
    exact rotated_other hzx hzy hzb hzk
  · rw [hX, StlRbtreeNode.child_withParent, StlRbtreeNode.child_setChild, if_pos rfl]
    have hb₁ : Rep (update mem x ((mem x).setChild (sideOf !d) ((mem y).child (sideOf d)))) s b
        (some y) ((mem y).child (sideOf d)) := by
      refine hb.congr fun z hz => update_of_ne ?_ _ _
      rintro rfl
      exact h.xb hz
    exact (hb₁.reparent h.nodup (some x)).congr fun z hz => h.rotated_b hz
  · rw [hY, StlRbtreeNode.child_setChild, if_neg hside.symm, StlRbtreeNode.child_withParent]
    refine hr.congr fun z hz => ?_
    obtain ⟨hzx, hzy, hzb, hzk⟩ := h.far z hz
    exact rotated_other hzx hzy hzb hzk

theorem Places.above_rotated {mem : ℕ → StlRbtreeNode K D} {root : Option ℕ}
    (h : Places s x y a b r k) (hup : Above mem s root k parent q) :
    Above (rotated mem k d x y b) s (rootAfter k root (some y)) k parent (some y) := by
  have hout : ∀ z ∈ members k, z ≠ x ∧ z ≠ y ∧ z ∉ b.inorder := by
    intro z hz
    refine ⟨?_, ?_, fun hzb => h.moved z hzb hz⟩
    · rintro rfl
      exact h.xk hz
    · rintro rfl
      exact h.yk hz
  have hbefore : Above (update (reparent b (some x)
      (update mem x ((mem x).setChild (sideOf !d) ((mem y).child (sideOf d))))) y
      { reparent b (some x) (update mem x ((mem x).setChild (sideOf !d)
        ((mem y).child (sideOf d)))) y with parent := (mem x).parent }) s root k parent q := by
    refine hup.congr fun z hz => ?_
    obtain ⟨hzx, hzy, hzb⟩ := hout z hz
    rw [update_of_ne hzy, reparent_other hzb, update_of_ne hzx]
  refine (hbefore.relink h.nodupFrames (some y)).congr fun z hz => ?_
  obtain ⟨hzx, hzy, -⟩ := hout z hz
  rw [rotated, update_of_ne hzx, update_of_ne hzy]

namespace Shape

/-- `x` turns down to the side `d`, and its child on the other side takes its place. -/
theorem rotate (h : Shape t s k (join d c a x (join d c' b y r))) :
    ∃ t', t.rotate (sideOf d) (some x) = .ok t' ∧
      Shape t' s k (join d c' (join d c a x b) y r) ∧ Keeps s t t' := by
  have hpl := h.places
  have hout := h.sentinel_out
  obtain ⟨hs, ⟨parent, q, hT, hup⟩, hd⟩ := h
  obtain ⟨rfl, -, rfl, -, hy⟩ := rep_join.mp hT
  obtain ⟨hxy, -, -, hb, -⟩ := rep_join.mp hy
  have hperm : (join d c' (join d c a x b) y r).inorder.Perm
      (join d c a x (join d c' b y r)).inorder := by
    cases d <;> simp [join, inorder]
  refine ⟨_, hpl.rotate_eq hs hxy hb hup, ⟨hs, ⟨_, _, hpl.rep_rotated hT, hpl.above_rotated hup⟩,
    (((hperm.append_right _).cons s).nodup_iff).mpr hd⟩, (alike_rotated t.mem).keeps ?_ _⟩
  exact rotated_other hpl.xs.symm hpl.ys.symm hpl.sb hpl.sk

end Shape

end Rotation

end KirinFS.Rbtree
