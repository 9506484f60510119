import KirinFS.Rbtree.Insert

/-! # Searching in a red-black tree

The loop of the search ends at a null pointer, but the leaves of the tree are the
sentinel.
-/

namespace KirinFS.Rbtree
open Foundation.RedBlack Foundation.RedBlack.ColorTree

variable {K D : Type} {t : StlRbtree K D} {s : ℕ} {T : ColorTree ℕ} {xs : List ℕ} {key : Option K}
  {q : Option ℕ}

namespace StlRbtree
variable (t : StlRbtree K D)

/-- The loop of `stl_btree_search` with the nodes whose keys it has compared. -/
def searchLogged (key : Option K) : (fuel : ℕ) → (tmp : Option ℕ) →
    Except Fault (Option ℕ) × List ℕ
  | 0, _ => (.error .fuel, [])
  | _ + 1, none => (.ok none, [])
  | fuel + 1, some n =>
    match t.cmp (t.mem n).key key with
    | .error e => (.error e, [n])
    | .ok c =>
      if c = 0 then (.ok (some n), [n])
      else
        match t.cmp key (t.mem n).key with
        | .error e => (.error e, [n])
        | .ok c =>
          let rest := searchLogged key fuel ((t.mem n).child (if 0 < c then .right else .left))
          (rest.1, n :: rest.2)

theorem searchLogged_fst (key : Option K) (fuel : ℕ) (tmp : Option ℕ) :
    (t.searchLogged key fuel tmp).1 = t.searchFrom key fuel tmp := by
  induction fuel generalizing tmp with
  | zero => rfl
  | succ fuel ih =>
    cases tmp with
    | none => rfl
    | some n =>
      rw [searchLogged, searchFrom]
      cases t.cmp (t.mem n).key key with
      | error e => rfl
      | ok c =>
        rw [ok_bind]
        dsimp only
        split
        · rfl
        · cases t.cmp key (t.mem n).key with
          | error e => rfl
          | ok c => exact ih _

def Matches (key : Option K) (x : ℕ) : Prop := t.cmp (t.mem x).key key = .ok 0

end StlRbtree

/-- The links of a tree, whatever its colours and parents are. -/
def Linked (mem : ℕ → StlRbtreeNode K D) (s : ℕ) : ColorTree ℕ → (q : Option ℕ) → Prop
  | .leaf, q => q = some s
  | .node _ l n r, q => q = some n ∧ Linked mem s l (mem n).left ∧ Linked mem s r (mem n).right

/-- A tree with the nodes `xs` from left to right, whose keys do not decrease. Empty subtrees are
the sentinel. -/
structure SearchTree (t : StlRbtree K D) (s : ℕ) (xs : List ℕ) : Prop where
  tree : ∃ T, Linked t.mem s T t.root ∧ T.inorder = xs
  apart : s ∉ xs
  sorted : xs.Pairwise t.KeyLe

theorem Rep.linked {mem : ℕ → StlRbtreeNode K D} {parent : Option ℕ} (h : Rep mem s T parent q) :
    Linked mem s T q := by
  induction T generalizing parent q with
  | leaf => exact h
  | node c l n r ihl ihr => exact ⟨h.1, ihl h.2.2.2.1, ihr h.2.2.2.2⟩

theorem WellFormed.searchTree (h : WellFormed t s xs) : SearchTree t s xs := by
  obtain ⟨⟨T, hgt, hs, -, rfl⟩, -, hsorted⟩ := h
  obtain ⟨parent, q, hT, hroot⟩ := hs.links
  refine ⟨⟨T, ?_, rfl⟩, hs.sentinel_out.1, hsorted⟩
  have hq : t.root = q := hroot
  rw [hq]
  exact hT.linked

/-- The result of a search of the nodes `xs` for `key`. -/
def Answers (t : StlRbtree K D) (xs : List ℕ) (key : Option K) : Option ℕ → Prop
  | some m => m ∈ xs ∧ t.Matches key m
  | none => ∀ x ∈ xs, ¬ t.Matches key x

/-- The search returns a node with the key if there is one and null otherwise, and compares the
keys of nodes of the tree only. -/
structure SearchesWell (t : StlRbtree K D) (xs : List ℕ) (key : Option K) : Prop where
  answers : ∃ r, (∀ fuel, xs.length < fuel → t.stlBtreeSearch fuel key = .ok r) ∧
    Answers t xs key r
  reads : ∀ fuel, ∀ x ∈ (t.searchLogged key fuel t.root).2, x ∈ xs

def StlRbtree.keysWith (t : StlRbtree K D) (xs : List ℕ) (key a : Option K) : Prop :=
  a = key ∨ t.keysOf xs a

section Descent

theorem TotalPreorder.eq_zero_iff {cmp : Option K → Option K → Except Fault ℤ}
    {S : Option K → Prop} (h : TotalPreorder cmp S) {a b : Option K} (ha : S a) (hb : S b) :
    cmp a b = .ok 0 ↔ Le cmp a b ∧ Le cmp b a := by
  obtain ⟨c, hc⟩ := h.defined a b ha hb
  have hsign := h.sign a b c ha hb hc
  constructor
  · intro heq
    have hzero : c = 0 := Except.ok.inj (hc.symm.trans heq)
    exact ⟨⟨0, le_refl 0, heq⟩, not_not.mp fun hle => by have := hsign.mpr hle; omega⟩
  · rintro ⟨⟨c', hneg, heq⟩, hle⟩
    obtain rfl : c = c' := Except.ok.inj (hc.symm.trans heq)
    have hnot : ¬ c < 0 := fun hlt => hsign.mp hlt hle
    obtain rfl : c = 0 := by omega
    exact hc

theorem searchLogged_found {n : ℕ} (hn : t.Matches key n) (fuel : ℕ) :
    t.searchLogged key (fuel + 1) (some n) = (.ok (some n), [n]) := by
  rw [StlRbtree.searchLogged, hn]
  rfl

variable {n : ℕ} (hcmp : TotalPreorder t.cmp (t.keysWith xs key))
include hcmp

/-- A turn of the loop at a node that does not match: it goes right from a smaller key, and left
from a greater one. -/
theorem searchLogged_turn (hn : n ∈ xs) (hne : ¬ t.Matches key n) :
    ∃ d, (∀ fuel, t.searchLogged key (fuel + 1) (some n) =
        ((t.searchLogged key fuel ((t.mem n).child (sideOf d))).1,
          n :: (t.searchLogged key fuel ((t.mem n).child (sideOf d))).2)) ∧
      (d = true ↔ ¬ Le t.cmp key (t.mem n).key) := by
  have hS : t.keysWith xs key (t.mem n).key := Or.inr ⟨n, hn, rfl⟩
  obtain ⟨c, hc⟩ := hcmp.defined _ _ hS (Or.inl rfl)
  obtain ⟨c', hc'⟩ := hcmp.defined _ _ (Or.inl rfl) hS
  have hc0 : c ≠ 0 := by
    rintro rfl
    exact hne hc
  have hle : Le t.cmp key (t.mem n).key ↔ c' ≤ 0 := by
    constructor
    · rintro ⟨v, hv, heq⟩
      obtain rfl : c' = v := Except.ok.inj (hc'.symm.trans heq)
      exact hv
    · exact fun hv => ⟨c', hv, hc'⟩
  refine ⟨decide (0 < c'), fun fuel => ?_, ?_⟩
  · rw [StlRbtree.searchLogged, hc]
    dsimp only
    rw [if_neg hc0, hc']
    by_cases hpos : 0 < c'
    · simp [hpos, sideOf]
    · simp [hpos, sideOf]
  · rw [hle, decide_eq_true_iff]
    omega

theorem search_present (hT : Linked t.mem s T q) (hsub : T.inorder.Sublist xs)
    (hsorted : T.inorder.Pairwise t.KeyLe) {x : ℕ} (hx : x ∈ T.inorder) (hmatch : t.Matches key x) :
    ∃ m ∈ T.inorder, t.Matches key m ∧
      (∀ fuel, T.inorder.length ≤ fuel → (t.searchLogged key fuel q).1 = .ok (some m)) ∧
      ∀ fuel, ∀ z ∈ (t.searchLogged key fuel q).2, z ∈ T.inorder := by
  induction T generalizing q with
  | leaf => cases hx
  | node c l n r ihl ihr =>
    obtain ⟨rfl, hl, hr⟩ := hT
    rw [inorder] at hsub hsorted hx ⊢
    have hn : n ∈ xs := hsub.subset (by simp)
    have hkey : ∀ z ∈ l.inorder ++ n :: r.inorder, t.keysWith xs key (t.mem z).key :=
      fun z hz => Or.inr ⟨z, hsub.subset hz, rfl⟩
    have hself : t.keysWith xs key key := Or.inl rfl
    by_cases hnm : t.Matches key n
    · refine ⟨n, by simp, hnm, fun fuel hfuel => ?_, fun fuel z hz => ?_⟩
      · rw [List.length_append, List.length_cons] at hfuel
        obtain ⟨fuel, rfl⟩ : ∃ i, fuel = i + 1 := ⟨fuel - 1, by omega⟩
        rw [searchLogged_found hnm]
      · cases fuel with
        | zero => cases hz
        | succ fuel =>
          rw [searchLogged_found hnm] at hz
          rw [List.mem_singleton.mp hz]
          simp
    · obtain ⟨d, hturn, hd⟩ := searchLogged_turn hcmp hn hnm
      have hlift : ∀ A : ColorTree ℕ, A.inorder.length < (l.inorder ++ n :: r.inorder).length →
          (∀ z ∈ A.inorder, z ∈ l.inorder ++ n :: r.inorder) →
          (∃ m ∈ A.inorder, t.Matches key m ∧ (∀ fuel, A.inorder.length ≤ fuel →
            (t.searchLogged key fuel ((t.mem n).child (sideOf d))).1 = .ok (some m)) ∧
            ∀ fuel, ∀ z ∈ (t.searchLogged key fuel ((t.mem n).child (sideOf d))).2,
              z ∈ A.inorder) →
          ∃ m ∈ l.inorder ++ n :: r.inorder, t.Matches key m ∧
            (∀ fuel, (l.inorder ++ n :: r.inorder).length ≤ fuel →
              (t.searchLogged key fuel (some n)).1 = .ok (some m)) ∧
            ∀ fuel, ∀ z ∈ (t.searchLogged key fuel (some n)).2,
              z ∈ l.inorder ++ n :: r.inorder := by
        rintro A hlen hA ⟨m, hm, hmm, hrun, hreads⟩
        refine ⟨m, hA m hm, hmm, fun fuel hfuel => ?_, fun fuel z hz => ?_⟩
        · obtain ⟨fuel, rfl⟩ : ∃ i, fuel = i + 1 := ⟨fuel - 1, by omega⟩
          rw [hturn]
          exact hrun fuel (by omega)
        · cases fuel with
          | zero => cases hz
          | succ fuel =>
            rw [hturn] at hz
            rcases List.mem_cons.mp hz with rfl | hz
            · simp
            · exact hA z (hreads fuel z hz)
      obtain ⟨hsortl, hsortnr, hln⟩ := List.pairwise_append.mp hsorted
      obtain ⟨hnr, hsortr⟩ := List.pairwise_cons.mp hsortnr
      have hkx := hkey x hx
      have hkn := hkey n (by simp)
      obtain ⟨hxkey, hkeyx⟩ := (hcmp.eq_zero_iff hkx hself).mp hmatch
      cases d with
      | true =>
        have hgt := hd.mp rfl
        have hxr : x ∈ r.inorder := by
          rcases List.mem_append.mp hx with hxl | hxnr
          · exact absurd (hcmp.trans _ _ _ hself hkx hkn hkeyx (hln x hxl n (by simp))) hgt
          · rcases List.mem_cons.mp hxnr with rfl | hxr
            · exact absurd hmatch hnm
            · exact hxr
        refine hlift r (by rw [List.length_append, List.length_cons]; omega)
          (fun z hz => by simp [hz]) (ihr hr ?_ hsortr hxr)
        exact ((List.sublist_cons_self n _).trans (List.sublist_append_right _ _)).trans hsub
      | false =>
        have hle : Le t.cmp key (t.mem n).key := by
          by_contra hnot
          exact absurd (hd.mpr hnot) (by decide)
        have hxl : x ∈ l.inorder := by
          rcases List.mem_append.mp hx with hxl | hxnr
          · exact hxl
          · rcases List.mem_cons.mp hxnr with rfl | hxr
            · exact absurd hmatch hnm
            · have hback := hcmp.trans _ _ _ hkn hkx hself (hnr x hxr) hxkey
              exact absurd ((hcmp.eq_zero_iff hkn hself).mpr ⟨hback, hle⟩) hnm
        refine hlift l (by rw [List.length_append, List.length_cons]; omega)
          (fun z hz => by simp [hz]) (ihl hl ?_ hsortl hxl)
        exact (List.sublist_append_left _ _).trans hsub

/-- A search that finds nothing comes to the sentinel. -/
theorem search_absent (hT : Linked t.mem s T q) (hsub : T.inorder.Sublist xs)
    (habsent : ∀ x ∈ T.inorder, ¬ t.Matches key x) (fuel : ℕ) (hfuel : T.inorder.length < fuel) :
    s ∈ (t.searchLogged key fuel q).2 := by
  induction T generalizing q fuel with
  | leaf =>
    obtain ⟨fuel, rfl⟩ : ∃ i, fuel = i + 1 := ⟨fuel - 1, by omega⟩
    have hq : q = some s := hT
    rw [hq, StlRbtree.searchLogged]
    cases t.cmp (t.mem s).key key with
    | error e => simp
    | ok c =>
      dsimp only
      split
      · simp
      · cases t.cmp key (t.mem s).key with
        | error e => simp
        | ok c => simp
  | node c l n r ihl ihr =>
    obtain ⟨rfl, hl, hr⟩ := hT
    rw [inorder] at hsub habsent hfuel
    rw [List.length_append, List.length_cons] at hfuel
    obtain ⟨fuel, rfl⟩ : ∃ i, fuel = i + 1 := ⟨fuel - 1, by omega⟩
    obtain ⟨d, hturn, -⟩ :=
      searchLogged_turn hcmp (hsub.subset (by simp)) (habsent n (by simp))
    rw [hturn]
    refine List.mem_cons_of_mem n ?_
    cases d with
    | false =>
      refine ihl hl ?_ (fun x hx => habsent x (by simp [hx])) fuel (by omega)
      exact (List.sublist_append_left _ _).trans hsub
    | true =>
      refine ihr hr ?_ (fun x hx => habsent x (by simp [hx])) fuel (by omega)
      exact ((List.sublist_cons_self n _).trans (List.sublist_append_right _ _)).trans hsub

end Descent

/-- The search does what it is to do exactly for the keys that are in the tree. The others lead it
to the sentinel. -/
theorem searchesWell_iff (h : SearchTree t s xs)
    (hcmp : TotalPreorder t.cmp (t.keysWith xs key)) :
    SearchesWell t xs key ↔ ∃ x ∈ xs, t.Matches key x := by
  obtain ⟨⟨T, hT, rfl⟩, hs, hsorted⟩ := h
  constructor
  · intro hwell
    by_contra habsent
    refine hs (hwell.reads (T.inorder.length + 1) s ?_)
    refine search_absent hcmp hT (.refl _) ?_ _ (Nat.lt_succ_self _)
    exact fun x hx hm => habsent ⟨x, hx, hm⟩
  · rintro ⟨x, hx, hmatch⟩
    obtain ⟨m, hm, hmm, hrun, hreads⟩ := search_present hcmp hT (.refl _) hsorted hx hmatch
    refine ⟨⟨some m, fun fuel hfuel => ?_, hm, hmm⟩, hreads⟩
    rw [StlRbtree.stlBtreeSearch, ← StlRbtree.searchLogged_fst]
    exact hrun fuel (by omega)

/-- A key between the two of the tree. -/
theorem search_sentinel : SearchTree twoNodes 0 [2, 1] ∧
    TotalPreorder twoNodes.cmp (twoNodes.keysWith [2, 1] (some 4)) ∧
    ¬ SearchesWell twoNodes [2, 1] (some 4) := by
  refine ⟨twoNodes_wellFormed.searchTree, totalPreorder_cmpOf ?_, fun hwell => ?_⟩
  · rintro a (rfl | ⟨x, hx, rfl⟩)
    · rfl
    · rcases List.mem_pair.mp hx with rfl | rfl <;> rfl
  · exact absurd (hwell.reads 3 0 (by decide)) (by decide)

theorem searchesWell_iff_five :
    SearchesWell twoNodes [2, 1] (some 5) ↔ ∃ x ∈ [2, 1], twoNodes.Matches (some 5) x := by
  refine searchesWell_iff twoNodes_wellFormed.searchTree (totalPreorder_cmpOf ?_)
  rintro a (rfl | ⟨x, hx, rfl⟩)
  · rfl
  · rcases List.mem_pair.mp hx with rfl | rfl <;> rfl

end KirinFS.Rbtree
