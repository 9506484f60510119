import KirinFS.Rbtree.Init
import KirinFS.Rbtree.Repair

/-! # Insertion into a red-black tree

The new node is hung below the last node of the descent, and the tree repaired.
-/

namespace KirinFS.Rbtree
open Foundation.RedBlack Foundation.RedBlack.ColorTree Function

section Order
variable {K : Type}

def Le (cmp : Option K → Option K → Except Fault ℤ) (a b : Option K) : Prop :=
  ∃ c ≤ 0, cmp a b = .ok c

/-- The comparison is defined on the keys `S`, with one sign for both directions, and
transitive. -/
structure TotalPreorder (cmp : Option K → Option K → Except Fault ℤ) (S : Option K → Prop) :
    Prop where
  defined : ∀ a b, S a → S b → ∃ c, cmp a b = .ok c
  sign : ∀ a b c, S a → S b → cmp a b = .ok c → (c < 0 ↔ ¬ Le cmp b a)
  trans : ∀ a b c, S a → S b → S c → Le cmp a b → Le cmp b c → Le cmp a c

variable [LinearOrder K]

theorem le_cmpOf {a b : K} : Le cmpOf (some a) (some b) ↔ a ≤ b := by
  rw [Le, cmpOf]
  rcases lt_trichotomy a b with hlt | rfl | hlt
  · rw [if_pos hlt]
    exact iff_of_true ⟨-1, by decide, rfl⟩ hlt.le
  · rw [if_neg (lt_irrefl a), if_pos rfl]
    exact iff_of_true ⟨0, le_refl 0, rfl⟩ (le_refl a)
  · rw [if_neg hlt.not_gt, if_neg hlt.ne']
    refine iff_of_false ?_ hlt.not_ge
    rintro ⟨c, hc, heq⟩
    cases heq
    exact absurd hc (by decide)

/-- The comparison of a linear order, if no key is null. -/
theorem totalPreorder_cmpOf {S : Option K → Prop} (hS : ∀ a, S a → a.isSome) :
    TotalPreorder cmpOf S where
  defined a b ha hb := by
    obtain ⟨x, rfl⟩ := Option.isSome_iff_exists.mp (hS a ha)
    obtain ⟨y, rfl⟩ := Option.isSome_iff_exists.mp (hS b hb)
    exact ⟨_, rfl⟩
  sign a b c ha hb heq := by
    obtain ⟨x, rfl⟩ := Option.isSome_iff_exists.mp (hS a ha)
    obtain ⟨y, rfl⟩ := Option.isSome_iff_exists.mp (hS b hb)
    rw [le_cmpOf, not_le]
    cases heq
    split
    · next hlt => exact iff_of_true (by decide) hlt
    · next hlt =>
      refine iff_of_false ?_ hlt
      split <;> decide
  trans a b c ha hb hc hab hbc := by
    obtain ⟨x, rfl⟩ := Option.isSome_iff_exists.mp (hS a ha)
    obtain ⟨y, rfl⟩ := Option.isSome_iff_exists.mp (hS b hb)
    obtain ⟨z, rfl⟩ := Option.isSome_iff_exists.mp (hS c hc)
    rw [le_cmpOf] at hab hbc ⊢
    exact hab.trans hbc

end Order

variable {K D : Type} {t t' : StlRbtree K D} {s n : ℕ} {k : List (Frame ℕ)} {f : Frame ℕ}
  {T : ColorTree ℕ} {xs : List ℕ}

namespace StlRbtree

def KeyLe (t : StlRbtree K D) (x y : ℕ) : Prop := Le t.cmp (t.mem x).key (t.mem y).key

def keysOf (t : StlRbtree K D) (xs : List ℕ) (a : Option K) : Prop := ∃ x ∈ xs, a = (t.mem x).key

end StlRbtree

/-- A red-black tree with the nodes `xs` from left to right: leaves are the black sentinel, nodes
other than the root know their parents, the root is black, no red node has a red child, all paths
have as many black nodes, and the keys do not decrease. -/
structure WellFormed (t : StlRbtree K D) (s : ℕ) (xs : List ℕ) : Prop where
  tree : ∃ T h, Shape t s [] T ∧ Balanced false h T ∧ T.inorder = xs
  black : (t.mem s).color = .black
  sorted : xs.Pairwise t.KeyLe

section Descent

/-- The hole that the descent finds, with nothing greater before it and nothing smaller behind. -/
structure Slot (t : StlRbtree K D) (s n : ℕ) (f : Frame ℕ) (k : List (Frame ℕ)) (T : ColorTree ℕ) :
    Prop where
  shape : Shape t s (f :: k) .leaf
  plug : plug (f :: k) .leaf = T
  before : ∀ x ∈ before (f :: k), t.KeyLe x n
  after : ∀ x ∈ after (f :: k), t.KeyLe n x

/-- One turn of the descent, to the child `T` of `x` on side `d`. -/
theorem findSlot_child {A u : ColorTree ℕ} {d c : Bool} {x : ℕ} {v : ℤ}
    (hs : Shape t s (⟨d, c, x, u⟩ :: k) T) (hA : plug (⟨d, c, x, u⟩ :: k) T = A)
    (hv : t.cmp (t.mem n).key (t.mem x).key = .ok v)
    (hd : (if v < 0 then Side.left else Side.right) = sideOf d)
    (hbefore : ∀ z ∈ before (⟨d, c, x, u⟩ :: k), t.KeyLe z n)
    (hafter : ∀ z ∈ after (⟨d, c, x, u⟩ :: k), t.KeyLe n z)
    (ih : ∀ m, T.top = some m → ∃ f k', Slot t s n f k' A ∧ ∀ fuel, T.inorder.length ≤ fuel →
      t.findSlot (some n) fuel (some m) = .ok (some f.x, sideOf f.right)) :
    ∃ f k', Slot t s n f k' A ∧ ∀ fuel, T.inorder.length + 1 ≤ fuel →
      t.findSlot (some n) fuel (some x) = .ok (some f.x, sideOf f.right) := by
  have hloadn : t.load (some n) = .ok (t.mem n) := rfl
  have hloadx : t.load (some x) = .ok (t.mem x) := rfl
  have hout := hs.sentinel_out.1
  obtain ⟨hsent, ⟨parent, q, hT, hup⟩, -⟩ := id hs
  have hchild : (t.mem x).child (sideOf d) = q := hup.2.2.1
  have hstep : ∀ fuel, t.findSlot (some n) (fuel + 1) (some x) =
      if q = some s then pure (some x, sideOf d) else t.findSlot (some n) fuel q := by
    intro fuel
    rw [StlRbtree.findSlot, hloadn, ok_bind, hloadx, ok_bind, hv, ok_bind]
    simp only [hd, hchild, hsent]
  cases T with
  | leaf =>
    have hq : q = some s := hT
    refine ⟨⟨d, c, x, u⟩, k, ⟨hs, hA, hbefore, hafter⟩, ?_⟩
    intro fuel hfuel
    obtain ⟨fuel, rfl⟩ : ∃ i, fuel = i + 1 := ⟨fuel - 1, by omega⟩
    rw [hstep, if_pos hq]
    rfl
  | node red l m r =>
    obtain ⟨f, k', hslot, hfind⟩ := ih m rfl
    have hq : q = some m := hT.1
    have hne : q ≠ some s := by
      rw [hq]
      rintro heq
      cases heq
      exact hout (by simp [inorder])
    refine ⟨f, k', hslot, ?_⟩
    intro fuel hfuel
    obtain ⟨fuel, rfl⟩ : ∃ i, fuel = i + 1 := ⟨fuel - 1, by omega⟩
    rw [hstep, if_neg hne, hq]
    exact hfind fuel (by omega)

theorem findSlot_spec {A : ColorTree ℕ} (hs : Shape t s k T) (hA : plug k T = A) {m : ℕ}
    (ht : T.top = some m) (hcmp : TotalPreorder t.cmp (t.keysOf (n :: A.inorder)))
    (hsorted : A.inorder.Pairwise t.KeyLe) (hbefore : ∀ x ∈ before k, t.KeyLe x n)
    (hafter : ∀ x ∈ after k, t.KeyLe n x) :
    ∃ f k', Slot t s n f k' A ∧ ∀ fuel, T.inorder.length ≤ fuel →
      t.findSlot (some n) fuel (some m) = .ok (some f.x, sideOf f.right) := by
  induction T generalizing k m with
  | leaf => cases ht
  | node c l x r ihl ihr =>
    obtain rfl := Option.some.inj ht
    have hall : A.inorder = before k ++ (l.inorder ++ x :: r.inorder) ++ after k := by
      rw [← hA, inorder_plug]
      rfl
    have hkey : ∀ z ∈ l.inorder ++ x :: r.inorder, t.keysOf (n :: A.inorder) (t.mem z).key := by
      intro z hz
      refine ⟨z, List.mem_cons_of_mem n ?_, rfl⟩
      rw [hall]
      exact List.mem_append_left _ (List.mem_append_right _ hz)
    have hn : t.keysOf (n :: A.inorder) (t.mem n).key := ⟨n, by simp, rfl⟩
    have hx := hkey x (by simp)
    obtain ⟨v, hv⟩ := hcmp.defined _ _ hn hx
    have hsub : (l.inorder ++ x :: r.inorder).Pairwise t.KeyLe := by
      rw [hall] at hsorted
      exact (List.pairwise_append.mp (List.pairwise_append.mp hsorted).1).2.1
    obtain ⟨-, hright, hleft⟩ := List.pairwise_append.mp hsub
    by_cases hneg : v < 0
    · have hnx : t.KeyLe n x := ⟨v, Int.le_of_lt hneg, hv⟩
      have hmore : ∀ z ∈ x :: r.inorder, t.KeyLe n z := by
        intro z hz
        rcases List.mem_cons.mp hz with rfl | hz
        · exact hnx
        · exact hcmp.trans _ _ _ hn hx (hkey z (by simp [hz])) hnx
            ((List.pairwise_cons.mp hright).1 z hz)
      have hbefore' : ∀ z ∈ before (⟨false, c, x, r⟩ :: k), t.KeyLe z n := by
        intro z hz
        exact hbefore z (by simpa [before] using hz)
      have hafter' : ∀ z ∈ after (⟨false, c, x, r⟩ :: k), t.KeyLe n z := by
        intro z hz
        rcases List.mem_append.mp hz with hz | hz
        · exact hmore z hz
        · exact hafter z hz
      have hs' : Shape t s (⟨false, c, x, r⟩ :: k) l := Shape.up_iff.mpr hs
      obtain ⟨f, k', hslot, hfind⟩ := findSlot_child hs' hA hv (if_pos hneg) hbefore' hafter'
        fun m hm => ihl hs' hA hm hbefore' hafter'
      refine ⟨f, k', hslot, fun fuel hfuel => hfind fuel ?_⟩
      simp only [inorder, List.length_append, List.length_cons] at hfuel
      omega
    · have hxn : t.KeyLe x n := by
        have hsign := hcmp.sign _ _ v hn hx hv
        exact not_not.mp fun hle => hneg (hsign.mpr hle)
      have hless : ∀ z ∈ l.inorder ++ [x], t.KeyLe z n := by
        intro z hz
        rcases List.mem_append.mp hz with hz | hz
        · exact hcmp.trans _ _ _ (hkey z (by simp [hz])) hx hn (hleft z hz x (by simp)) hxn
        · rw [List.mem_singleton.mp hz]
          exact hxn
      have hbefore' : ∀ z ∈ before (⟨true, c, x, l⟩ :: k), t.KeyLe z n := by
        intro z hz
        rcases List.mem_append.mp hz with hz | hz
        · exact hbefore z hz
        · exact hless z hz
      have hafter' : ∀ z ∈ after (⟨true, c, x, l⟩ :: k), t.KeyLe n z := by
        intro z hz
        exact hafter z (by simpa [after] using hz)
      have hs' : Shape t s (⟨true, c, x, l⟩ :: k) r := Shape.up_iff.mpr hs
      obtain ⟨f, k', hslot, hfind⟩ := findSlot_child hs' hA hv (if_neg hneg) hbefore' hafter'
        fun m hm => ihr hs' hA hm hbefore' hafter'
      refine ⟨f, k', hslot, fun fuel hfuel => hfind fuel ?_⟩
      simp only [inorder, List.length_append, List.length_cons] at hfuel
      omega

end Descent

section Insertion

theorem rep_written {mem : ℕ → StlRbtreeNode K D} {x : StlRbtreeNode K D} {c : Bool}
    {parent : Option ℕ} (hsent : t.sentinel = some s) (hself : mem n = { x with
      parent := parent, left := t.sentinel, right := t.sentinel, color := hue c }) :
    Rep mem s (.node c .leaf n .leaf) parent (some n) := by
  refine ⟨rfl, by rw [hself], by rw [hself], ?_, ?_⟩
  · rw [hself]
    exact hsent
  · rw [hself]
    exact hsent

theorem insertValue_spec (hs : Shape t s (f :: k) .leaf) (hn : n ∉ members (f :: k))
    (hns : n ≠ s) :
    ∃ t', (∀ fuel temp, t.findSlot (some n) fuel temp = .ok (some f.x, sideOf f.right) →
        t.stlRbtreeInsertValue fuel temp (some n) = .ok t') ∧
      Shape t' s (f :: k) (.node true .leaf n .leaf) ∧ Keeps s t t' := by
  have hsout := hs.sentinel_out.2
  obtain ⟨hsent, ⟨parent, q, -, hup⟩, hd⟩ := hs
  obtain ⟨mem', hmem⟩ : ∃ mem', mem' = update (relink (f :: k) (some n) t.mem) n
      { relink (f :: k) (some n) t.mem n with
        parent := some f.x, left := t.sentinel, right := t.sentinel, color := .red } := ⟨_, rfl⟩
  have hother : ∀ z, z ≠ n → mem' z = relink (f :: k) (some n) t.mem z := by
    intro z hz
    rw [hmem]
    exact update_of_ne hz _ _
  have hself : mem' n = { t.mem n with
      parent := some f.x, left := t.sentinel, right := t.sentinel, color := .red } := by
    rw [hmem, update_self, relink_other hn]
  have hnodup := List.nodup_cons.mp hd
  have halike : Alike t.mem mem' := by
    rw [hmem]
    exact (alike_relink t.mem (some n)).trans (alike_update rfl rfl)
  have hparent : parent = some f.x := hup.1
  refine ⟨{ t with mem := mem' }, ?_,
    ⟨hsent, ⟨some f.x, some n, rep_written hsent hself, ?_⟩, ?_⟩, halike.keeps ?_ t.root⟩
  · intro fuel temp hfind
    rw [StlRbtree.stlRbtreeInsertValue, hfind, ok_bind, hmem]
    rfl
  · have hlink := hup.relink hnodup.2 (some n)
    rw [hparent] at hlink
    refine hlink.congr fun z hz => hother z ?_
    rintro rfl
    exact hn hz
  · refine List.nodup_cons.mpr ⟨?_, List.nodup_cons.mpr ⟨hn, hnodup.2⟩⟩
    exact List.not_mem_cons_of_ne_of_not_mem hns.symm hsout
  · rw [hother s hns.symm, relink_other hsout]

theorem insert_empty (hs : Shape t s [] .leaf) (hns : n ≠ s) :
    ∃ t', (∀ fuel, t.stlRbtreeInsert fuel (some n) = .ok t') ∧
      Shape t' s [] (.node false .leaf n .leaf) ∧ Keeps s t t' := by
  obtain ⟨hsent, ⟨parent, q, hleaf, hroot⟩, hd⟩ := hs
  have hq : q = some s := hleaf
  have heq : t.root = t.sentinel := hroot.trans (hq.trans hsent.symm)
  obtain ⟨mem', hmem⟩ : ∃ mem', mem' = update t.mem n { t.mem n with
      parent := none, left := t.sentinel, right := t.sentinel, color := .black } := ⟨_, rfl⟩
  have hself : mem' n = { t.mem n with
      parent := none, left := t.sentinel, right := t.sentinel, color := .black } := by
    rw [hmem, update_self]
  have halike : Alike t.mem mem' := by
    rw [hmem]
    exact alike_update rfl rfl
  refine ⟨{ t with mem := mem', root := some n }, ?_,
    ⟨hsent, ⟨none, some n, rep_written hsent hself, rfl⟩, ?_⟩, halike.keeps ?_ _⟩
  · intro fuel
    rw [StlRbtree.stlRbtreeInsert, if_pos heq, hmem]
    rfl
  · simpa [inorder, members] using hns.symm
  · rw [hmem]
    exact update_of_ne hns.symm _ _

theorem StlRbtree.KeyLe.keep {x y : ℕ} (h : t.KeyLe x y) (hk : Keeps s t t') : t'.KeyLe x y := by
  rw [StlRbtree.KeyLe, hk.cmp, hk.key, hk.key]
  exact h

/-- A new node between what is not greater and what is not smaller. -/
theorem pairwise_insert {as bs : List ℕ} (h : (as ++ bs).Pairwise t.KeyLe)
    (ha : ∀ x ∈ as, t.KeyLe x n) (hb : ∀ x ∈ bs, t.KeyLe n x) :
    (as ++ n :: bs).Pairwise t.KeyLe := by
  obtain ⟨has, hbs, hab⟩ := List.pairwise_append.mp h
  refine List.pairwise_append.mpr ⟨has, List.pairwise_cons.mpr ⟨hb, hbs⟩, ?_⟩
  intro x hx y hy
  rcases List.mem_cons.mp hy with rfl | hy
  · exact ha x hx
  · exact hab x hx y hy

theorem Shape.root_eq {m : ℕ} (hs : Shape t s [] T) (hm : T.top = some m) :
    t.root = some m ∧ t.root ≠ t.sentinel := by
  have hout := hs.sentinel_out.1
  obtain ⟨hsent, ⟨parent, q, hrep, hup⟩, -⟩ := hs
  have hroot : t.root = some m := Eq.trans hup (hrep.top hm).1
  refine ⟨hroot, ?_⟩
  rw [hroot, hsent]
  rintro heq
  cases heq
  exact hout (top_mem hm)

theorem Slot.inorder_eq (h : Slot t s n f k T) :
    T.inorder = Foundation.RedBlack.before (f :: k) ++ Foundation.RedBlack.after (f :: k) := by
  rw [← h.plug, inorder_plug]
  simp [inorder]

theorem Slot.perm (h : Slot t s n f k T) : T.inorder.Perm (members (f :: k)) := by
  have hperm := plug_perm (f :: k) (.leaf : ColorTree ℕ)
  rw [h.plug] at hperm
  exact hperm

theorem blacken_root (hs : Shape t s [] T) (hT : T.inorder ≠ []) :
    ∃ t', t.paint t.root .black = .ok t' ∧ Shape t' s [] T.blacken ∧ Keeps s t t' := by
  cases T with
  | leaf => exact absurd rfl hT
  | node red l x r =>
    obtain ⟨t', h', hs', hkeep⟩ := Shape.paint (c := red) (d := false) hs false
    rw [(hs.root_eq rfl).1]
    exact ⟨t', h', hs', hkeep⟩

theorem Slot.insert {h : ℕ} (hslot : Slot t s n f k T) (hblack : (t.mem s).color = .black)
    (hT : Balanced false h T) (hn : n ∉ T.inorder) (hns : n ≠ s) (hroot : t.root ≠ t.sentinel) :
    ∃ t' T' h', (∀ fuel, t.findSlot (some n) fuel t.root = .ok (some f.x, sideOf f.right) →
        T.inorder.length < fuel → t.stlRbtreeInsert fuel (some n) = .ok t') ∧
      Shape t' s [] T' ∧ Balanced false h' T' ∧
      T'.inorder = Foundation.RedBlack.before (f :: k) ++
        n :: Foundation.RedBlack.after (f :: k) ∧ Keeps s t t' := by
  have hout : n ∉ members (f :: k) := fun hmem => hn (hslot.perm.mem_iff.mpr hmem)
  obtain ⟨t₁, hvalue, hs₁, hkeep₁⟩ := insertValue_spec hslot.shape hout hns
  rw [← hslot.plug] at hT
  obtain ⟨r, h₀, c, hhole, hleaf, -⟩ := hT.hole
  cases hleaf with
  | leaf =>
    have hblack₁ : (t₁.mem s).color = .black := by rw [hkeep₁.sentinel, hblack]
    obtain ⟨t₂, k', T', r', h', hfix, hs₂, hkeep₂, horder, hT', hhole', hend⟩ :=
      insertFix_spec hs₁ hblack₁ rfl (.red .leaf .leaf) hhole
    obtain ⟨c', h₁, hbal⟩ := hhole'.plug hT' fun _ => hend
    have horder' : (Foundation.RedBlack.plug k' T').inorder =
        Foundation.RedBlack.before (f :: k) ++ n :: Foundation.RedBlack.after (f :: k) := by
      rw [horder, inorder_plug]
      simp [inorder]
    obtain ⟨t₃, hpaint, hs₃, hkeep₃⟩ := blacken_root (Shape.plug_iff.mp hs₂)
      (by rw [horder']; simp)
    obtain ⟨h₂, hbal'⟩ := hbal.blacken
    refine ⟨t₃, _, h₂, ?_, hs₃, hbal', inorder_blacken.trans horder',
      (hkeep₁.trans hkeep₂).trans hkeep₃⟩
    intro fuel hfind hfuel
    have hlen := length_le_members (f :: k)
    rw [hslot.perm.length_eq] at hfuel
    rw [StlRbtree.stlRbtreeInsert, if_neg hroot, hvalue fuel t.root hfind, ok_bind,
      hfix fuel (by omega), ok_bind, hpaint]

/-- Insertion of a node that is not in the tree returns, with any fuel beyond the number of nodes,
and leaves a well-formed tree in which the node stands at a place that keeps the order. -/
theorem insert_wellFormed (h : WellFormed t s xs) (hcmp : TotalPreorder t.cmp (t.keysOf (n :: xs)))
    (hn : n ∉ xs) (hns : n ≠ s) :
    ∃ t' as bs, (∀ fuel, xs.length < fuel → t.stlRbtreeInsert fuel (some n) = .ok t') ∧
      xs = as ++ bs ∧ WellFormed t' s (as ++ n :: bs) ∧ Keeps s t t' := by
  obtain ⟨⟨T, hgt, hs, hT, rfl⟩, hblack, hsorted⟩ := h
  cases hm : T.top with
  | none =>
    cases T with
    | node red l x r => cases hm
    | leaf =>
      obtain ⟨t', hrun, hs', hkeep⟩ := insert_empty hs hns
      refine ⟨t', [], [], fun fuel _ => hrun fuel, rfl,
        ⟨⟨_, 1, hs', .black .leaf .leaf, rfl⟩, by rw [hkeep.sentinel, hblack], ?_⟩, hkeep⟩
      exact List.pairwise_singleton _ _
  | some m =>
    obtain ⟨hrootm, hroot⟩ := hs.root_eq hm
    obtain ⟨f, k, hslot, hfind⟩ := findSlot_spec (A := T) hs rfl hm hcmp hsorted
      (by simp [before]) (by simp [after])
    obtain ⟨t', T', h', hrun, hs', hT', horder, hkeep⟩ := hslot.insert hblack hT hn hns hroot
    refine ⟨t', _, _, ?_, hslot.inorder_eq,
      ⟨⟨T', h', hs', hT', horder⟩, by rw [hkeep.sentinel, hblack], ?_⟩, hkeep⟩
    · intro fuel hfuel
      refine hrun fuel ?_ hfuel
      rw [hrootm]
      exact hfind fuel (by omega)
    · rw [hslot.inorder_eq] at hsorted
      exact (pairwise_insert hsorted hslot.before hslot.after).imp fun hle => hle.keep hkeep

/-- A black root with a red child on the left, and a third node aside. -/
def twoNodes : StlRbtree ℕ Unit where
  root := some 1
  sentinel := some 0
  cmp := cmpOf
  mem
    | 1 => ⟨some 5, some 2, some 0, none, .black, none⟩
    | 2 => ⟨some 3, some 0, some 0, some 1, .red, none⟩
    | 3 => ⟨some 1, none, none, none, .black, none⟩
    | _ => .zero

theorem twoNodes_wellFormed : WellFormed twoNodes 0 [2, 1] := by
  refine ⟨⟨.node false (.node true .leaf 2 .leaf) 1 .leaf, 1, ⟨rfl, ?_, by decide⟩,
    .black (.red .leaf .leaf) .leaf, rfl⟩, rfl, ?_⟩
  · exact ⟨none, some 1, ⟨rfl, rfl, rfl, ⟨rfl, rfl, rfl, rfl, rfl⟩, rfl⟩, rfl⟩
  · exact List.pairwise_pair.mpr ⟨-1, by decide, rfl⟩

theorem insert_wellFormed_third : ∃ t' as bs,
    (∀ fuel, 2 < fuel → twoNodes.stlRbtreeInsert fuel (some 3) = .ok t') ∧
      [2, 1] = as ++ bs ∧ WellFormed t' 0 (as ++ 3 :: bs) ∧ Keeps 0 twoNodes t' := by
  refine insert_wellFormed twoNodes_wellFormed (totalPreorder_cmpOf ?_) (by decide) (by decide)
  rintro a ⟨x, hx, rfl⟩
  have hcases : x = 3 ∨ x = 2 ∨ x = 1 := by simpa using hx
  rcases hcases with rfl | rfl | rfl <;> rfl

end Insertion

end KirinFS.Rbtree
