import Mathlib.Data.Nat.Notation

/-! # Stretches of a memory that change places

Two stretches that do not overlap change places by way of a copy of one of
them. Whether their length matters depends on what lies between two lengths.
-/

namespace KirinFS.Foundation.Exchange

variable {B : Type*}

/-- The `n` cells from `dst` on take the first `n` of `src`. -/
def write (mem : ℕ → B) (dst n : ℕ) (src : ℕ → B) (b : ℕ) : B :=
  if dst ≤ b ∧ b < dst + n then src (b - dst) else mem b

/-- The `n` cells from `p` on and the `n` cells from `q` on change places. -/
def exchange (mem : ℕ → B) (p q n b : ℕ) : B :=
  if p ≤ b ∧ b < p + n then mem (q + (b - p))
  else if q ≤ b ∧ b < q + n then mem (p + (b - q))
  else mem b

def Apart (p q n : ℕ) : Prop := p + n ≤ q ∨ q + n ≤ p

instance (p q n : ℕ) : Decidable (Apart p q n) := inferInstanceAs (Decidable (_ ∨ _))

variable {mem : ℕ → B} {src : ℕ → B} {p q n m o b N : ℕ}

section Writes

theorem write_inside (h : o < n) : write mem p n src (p + o) = src o := by
  rw [write, if_pos ⟨Nat.le_add_right p o, Nat.add_lt_add_left h p⟩, Nat.add_sub_cancel_left]

theorem write_outside (h : b < p ∨ p + n ≤ b) : write mem p n src b = mem b :=
  if_neg (by omega)

/-- The second stretch takes the first, and the first takes a copy of the second. -/
theorem write_write (mem : ℕ → B) (p q n : ℕ) :
    write (write mem q n fun o => mem (p + o)) p n (fun o => mem (q + o)) = exchange mem p q n :=
  rfl

end Writes

section Exchanges

theorem Apart.symm (h : Apart p q n) : Apart q p n := Or.symm h

theorem exchange_left (h : o < n) : exchange mem p q n (p + o) = mem (q + o) := by
  rw [exchange, if_pos ⟨Nat.le_add_right p o, Nat.add_lt_add_left h p⟩, Nat.add_sub_cancel_left]

theorem exchange_right (hapart : Apart p q n) (h : o < n) :
    exchange mem p q n (q + o) = mem (p + o) := by
  have hnot : ¬(p ≤ q + o ∧ q + o < p + n) := by
    unfold Apart at hapart
    omega
  rw [exchange, if_neg hnot, if_pos ⟨Nat.le_add_right q o, Nat.add_lt_add_left h q⟩,
    Nat.add_sub_cancel_left]

theorem exchange_outside (hp : b < p ∨ p + n ≤ b) (hq : b < q ∨ q + n ≤ b) :
    exchange mem p q n b = mem b := by
  rw [exchange, if_neg (by omega), if_neg (by omega)]

theorem cell_cases (p q n b : ℕ) : (∃ o < n, b = p + o) ∨ (∃ o < n, b = q + o) ∨
    (b < p ∨ p + n ≤ b) ∧ (b < q ∨ q + n ≤ b) := by
  by_cases hp : p ≤ b ∧ b < p + n
  · exact Or.inl ⟨b - p, by omega, by omega⟩
  · by_cases hq : q ≤ b ∧ b < q + n
    · exact Or.inr (Or.inl ⟨b - q, by omega, by omega⟩)
    · exact Or.inr (Or.inr ⟨by omega, by omega⟩)

theorem exchange_comm (hapart : Apart p q n) : exchange mem p q n = exchange mem q p n := by
  funext b
  rcases cell_cases p q n b with ⟨o, ho, rfl⟩ | ⟨o, ho, rfl⟩ | ⟨hp, hq⟩
  · rw [exchange_left ho, exchange_right hapart.symm ho]
  · rw [exchange_right hapart ho, exchange_left ho]
  · rw [exchange_outside hp hq, exchange_outside hq hp]

theorem exchange_exchange (hapart : Apart p q n) :
    exchange (exchange mem p q n) p q n = mem := by
  funext b
  rcases cell_cases p q n b with ⟨o, ho, rfl⟩ | ⟨o, ho, rfl⟩ | ⟨hp, hq⟩
  · rw [exchange_left ho, exchange_right hapart ho]
  · rw [exchange_right hapart ho, exchange_left ho]
  · rw [exchange_outside hp hq, exchange_outside hp hq]

end Exchanges

section Lengths

/-- Longer stretches come to the same if the cells that they have in addition are the same. -/
theorem exchange_longer (hnm : n ≤ m) (hapart : Apart p q m)
    (hsame : ∀ o, n ≤ o → o < m → mem (p + o) = mem (q + o)) :
    exchange mem p q n = exchange mem p q m := by
  have hn : Apart p q n := by
    unfold Apart at hapart ⊢
    omega
  funext b
  rcases cell_cases p q m b with ⟨o, ho, rfl⟩ | ⟨o, ho, rfl⟩ | ⟨hp, hq⟩
  · rw [exchange_left ho]
    rcases Nat.lt_or_ge o n with hlt | hge
    · rw [exchange_left hlt]
    · rw [exchange_outside (by omega) (by unfold Apart at hapart; omega), hsame o hge ho]
  · rw [exchange_right hapart ho]
    rcases Nat.lt_or_ge o n with hlt | hge
    · rw [exchange_right hn hlt]
    · rw [exchange_outside (by unfold Apart at hapart; omega) (by omega), hsame o hge ho]
  · rw [exchange_outside hp hq, exchange_outside (by omega) (by omega)]

/-- The stretch that comes first tells: its cells lie before the other stretch. -/
theorem same_of_exchange (hfirst : p + m ≤ q) (hN : q ≤ N)
    (h : ∀ b < N, exchange mem p q n b = exchange mem p q m b) :
    ∀ o, n ≤ o → o < m → mem (p + o) = mem (q + o) := by
  intro o hge hlt
  have hcell := h (p + o) (by omega)
  rwa [exchange_outside (by omega) (by omega), exchange_left hlt] at hcell

theorem exchange_longer_iff (hnm : n ≤ m) (hapart : Apart p q m) (hp : p ≤ N) (hq : q ≤ N) :
    (∀ b < N, exchange mem p q n b = exchange mem p q m b) ↔
      ∀ o, n ≤ o → o < m → mem (p + o) = mem (q + o) := by
  constructor
  · intro h
    rcases hapart with hfirst | hfirst
    · exact same_of_exchange hfirst hq h
    · have hn : Apart p q n := Or.inr (by omega)
      have hm : Apart p q m := Or.inr hfirst
      rw [exchange_comm hn, exchange_comm hm] at h
      exact fun o hge hlt => (same_of_exchange hfirst hp h o hge hlt).symm
  · intro hsame b _
    rw [exchange_longer hnm hapart hsame]

/-- Exchanging `n` cells does what exchanging `m` cells does exactly if the cells between the two
lengths are the same in both stretches. -/
theorem exchange_agree_iff (hn : Apart p q n) (hm : Apart p q m) (hp : p ≤ N) (hq : q ≤ N) :
    (∀ b < N, exchange mem p q n b = exchange mem p q m b) ↔
      ∀ o, min n m ≤ o → o < max n m → mem (p + o) = mem (q + o) := by
  rcases Nat.le_total n m with hnm | hmn
  · rw [Nat.min_eq_left hnm, Nat.max_eq_right hnm]
    exact exchange_longer_iff hnm hm hp hq
  · rw [Nat.min_eq_right hmn, Nat.max_eq_left hmn, ← exchange_longer_iff hmn hn hp hq]
    exact forall₂_congr fun b _ => eq_comm

end Lengths

end KirinFS.Foundation.Exchange
