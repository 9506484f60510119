import KirinFS.Foundation.WordBits
import KirinFS.Radix.Edits

/-! # The three walks down the tree

Each loop follows the bits of the key until the mask ends, a link is null or
the tree ends. A mask only matters through the number of ones it leads with.
-/

namespace KirinFS.Radix
open Foundation.PrefixTable Foundation.WordBits Function

def Leads (mask : BitVec 32) (n : ℕ) : Prop :=
  (∀ d < n, keyBit mask d = true) ∧ keyBit mask n = false

def netmask (n : ℕ) : BitVec 32 := BitVec.allOnes 32 <<< (32 - n)

theorem bitAt_eq {d : ℕ} (h : d < 32) : bitAt d = BitVec.twoPow 32 (31 - d) := by
  revert d
  decide

theorem keyBit_of_ge (key : BitVec 32) {d : ℕ} (h : 32 ≤ d) : keyBit key d = false := by
  rw [keyBit, bitAt, BitVec.ushiftRight_eq_zero h]
  simp

theorem keyBit_eq (key : BitVec 32) {d : ℕ} (h : d < 32) :
    keyBit key d = key.getLsbD (31 - d) := by
  rw [Bool.eq_iff_iff, keyBit, bitAt_eq h, bne_iff_ne, Ne]
  rw [and_bit_eq_zero_iff, Bool.not_eq_false]

theorem leads_netmask {n : ℕ} (hn : n ≤ 32) : Leads (netmask n) n := by
  constructor
  · intro d hd
    rw [keyBit_eq _ (by omega), netmask, BitVec.getLsbD_shiftLeft, BitVec.getLsbD_allOnes,
      decide_eq_true (by omega), decide_eq_false (by omega), decide_eq_true (by omega)]
    rfl
  · by_cases h : n < 32
    · rw [keyBit_eq _ h, netmask, BitVec.getLsbD_shiftLeft]
      simp
      omega
    · exact keyBit_of_ge _ (by omega)

theorem Leads.le {mask : BitVec 32} {n : ℕ} (h : Leads mask n) : n ≤ 32 := by
  by_contra hc
  have hbit := h.1 32 (by omega)
  rw [keyBit_of_ge mask (by omega)] at hbit
  exact absurd hbit (by simp)

theorem Leads.bit {mask : BitVec 32} {n d : ℕ} (h : Leads mask n) (hd : d ≤ n) :
    keyBit mask d = true ↔ d < n := by
  rcases Nat.lt_or_eq_of_le hd with hlt | rfl
  · exact iff_of_true (h.1 d hlt) hlt
  · rw [h.2]
    simp

variable {t : StlRadixTree} {pos : Places} {l : List ℕ} {key mask : BitVec 32} {L d n fuel : ℕ}

theorem descend_spec (key : BitVec 32) (h : Layout t pos) (hm : Leads mask L) (hd : d ≤ L) (hf : L < fuel + d)
    (hp : pos (path (keyBit key) d) = some n) :
    (∃ m, pos (path (keyBit key) L) = some m ∧
        t.descend key mask fuel d n = some (L, m, some m)) ∨
      ∃ e m, e < L ∧ pos (path (keyBit key) e) = some m ∧
        pos (path (keyBit key) (e + 1)) = none ∧
        t.descend key mask fuel d n = some (e, m, none) := by
  induction fuel generalizing d n with
  | zero => omega
  | succ fuel ih =>
    have hbit := hm.bit hd
    by_cases hlt : d < L
    · have hnext : (t.node n).toward (keyBit key d) = pos (path (keyBit key) (d + 1)) :=
        h.child hp _
      rw [StlRadixTree.descend, if_pos (hbit.mpr hlt), StlRadixTree.load_some (h.carved hp),
        Option.bind_some, hnext]
      cases hq : pos (path (keyBit key) (d + 1)) with
      | none => exact Or.inr ⟨d, n, hlt, hp, hq, rfl⟩
      | some m => exact ih hlt (by omega) hq
    · obtain rfl : d = L := by omega
      rw [StlRadixTree.descend, if_neg (by rw [hbit]; exact hlt)]
      exact Or.inl ⟨n, hp, rfl⟩

theorem seek_spec (key : BitVec 32) (h : Layout t pos) (hm : Leads mask L) (hd : d ≤ L) (hf : L < fuel + d) :
    t.seek key mask fuel d (pos (path (keyBit key) d)) = some (pos (path (keyBit key) L)) := by
  induction fuel generalizing d with
  | zero => omega
  | succ fuel ih =>
    have hbit := hm.bit hd
    rw [StlRadixTree.seek]
    cases hp : pos (path (keyBit key) d) with
    | none =>
      rw [if_neg (by simp), h.path_none hp hd]
    | some n =>
      by_cases hlt : d < L
      · have hnext : (t.node n).toward (keyBit key d) = pos (path (keyBit key) (d + 1)) :=
          h.child hp _
        rw [if_pos ⟨rfl, hbit.mpr hlt⟩, StlRadixTree.load_some (h.carved hp), Option.bind_some,
          hnext]
        exact ih hlt (by omega)
      · obtain rfl : d = L := by omega
        rw [if_neg (by rw [hbit]; simp), hp]

theorem valueAt_none (h : pos p = none) : valueAt t pos p = none := by
  rw [valueAt, h, Option.bind_none]

theorem valueAt_some {p : List Bool} (h : pos p = some n) :
    valueAt t pos p = if (t.node n).value = noValue then none else some (t.node n).value := by
  rw [valueAt, h, Option.bind_some]

theorem findFrom_spec (key : BitVec 32) (h : Layout t pos) (hd : d ≤ 33) (hf : 33 < fuel + d) :
    t.findFrom key fuel d (pos (path (keyBit key) d))
        ((longest (valueAt t pos) (keyBit key) d).getD noValue) =
      some ((longest (valueAt t pos) (keyBit key) 33).getD noValue) := by
  induction fuel generalizing d with
  | zero => omega
  | succ fuel ih =>
    rw [StlRadixTree.findFrom]
    cases hp : pos (path (keyBit key) d) with
    | none =>
      have hnone : ∀ e, d ≤ e → valueAt t pos (path (keyBit key) e) = none :=
        fun e he => valueAt_none (h.path_none hp he)
      rw [if_neg (by simp), longest_of_none hd hnone]
    | some n =>
      have hdepth := h.depth hp
      rw [path_length] at hdepth
      have hnext : (t.node n).toward (keyBit key d) = pos (path (keyBit key) (d + 1)) :=
        h.child hp _
      have hbest : (if (t.node n).value ≠ noValue then (t.node n).value
          else (longest (valueAt t pos) (keyBit key) d).getD noValue) =
          (longest (valueAt t pos) (keyBit key) (d + 1)).getD noValue := by
        rw [longest, valueAt_some hp]
        by_cases hv : (t.node n).value = noValue
        · rw [if_neg (not_not.mpr hv), if_pos hv, Option.none_or]
        · rw [if_pos hv, if_neg hv]
          rfl
      rw [if_pos Option.isSome_some, StlRadixTree.load_some (h.carved hp), Option.bind_some, hnext,
        hbest]
      exact ih (by omega) (by omega)

theorem find_spec (h : Layout t pos) (key : BitVec 32) :
    t.stlRadix32treeFind key =
      some ((longest (valueAt t pos) (keyBit key) 33).getD noValue) := by
  have hfind := findFrom_spec key h (Nat.zero_le 33) (by omega : 33 < 34 + 0)
  rw [StlRadixTree.stlRadix32treeFind, h.root]
  exact hfind

end KirinFS.Radix
