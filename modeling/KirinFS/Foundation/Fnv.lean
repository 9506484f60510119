import Mathlib.Data.Finite.Prod
import Mathlib.Data.List.Induction
import Mathlib.Dynamics.PeriodicPts.Lemmas

/-! # FNV hashes

The register is multiplied by a prime and takes up one octet at a time, after
the product or before it. How an octet is widened to the register is a parameter.
-/

namespace KirinFS.Foundation.Fnv
open Function

variable {v w : ℕ}

/-- The octet with zeros above it, as the hashes are defined. -/
def octet (w : ℕ) (c : UInt8) : BitVec w := c.toBitVec.setWidth w

def fnv1 (widen : UInt8 → BitVec w) (init prime : BitVec w) (key : List UInt8) : BitVec w :=
  key.foldl (fun hash c => hash * prime ^^^ widen c) init

def fnv1a (widen : UInt8 → BitVec w) (init prime : BitVec w) (key : List UInt8) : BitVec w :=
  key.foldl (fun hash c => (hash ^^^ widen c) * prime) init

variable (widen other : UInt8 → BitVec w) (init prime : BitVec w) (key : List UInt8)

theorem fnv1_concat (c : UInt8) :
    fnv1 widen init prime (key ++ [c]) = fnv1 widen init prime key * prime ^^^ widen c := by
  simp [fnv1]

theorem fnv1a_concat (c : UInt8) :
    fnv1a widen init prime (key ++ [c]) = (fnv1a widen init prime key ^^^ widen c) * prime := by
  simp [fnv1a]

section Truncation

/-- The low bits can be computed on their own. -/
theorem fnv1_setWidth (h : v ≤ w) : (fnv1 widen init prime key).setWidth v =
    fnv1 (fun c => (widen c).setWidth v) (init.setWidth v) (prime.setWidth v) key := by
  induction key using List.reverseRecOn with
  | nil => rfl
  | append_singleton key c ih =>
    rw [fnv1_concat, fnv1_concat, BitVec.setWidth_xor, BitVec.setWidth_mul _ _ h, ih]

theorem fnv1a_setWidth (h : v ≤ w) : (fnv1a widen init prime key).setWidth v =
    fnv1a (fun c => (widen c).setWidth v) (init.setWidth v) (prime.setWidth v) key := by
  induction key using List.reverseRecOn with
  | nil => rfl
  | append_singleton key c ih =>
    rw [fnv1a_concat, fnv1a_concat, BitVec.setWidth_mul _ _ h, BitVec.setWidth_xor, ih]

end Truncation

section Agreement

/-- Two folds whose steps differ in some letters only, whatever the state is. They agree on a word
and on what stands before it exactly if none of these letters occurs. -/
theorem foldl_prefixes_iff {S C : Type*} {f g : S → C → S} {same : C → Prop}
    (hstep : ∀ s c, f s c = g s c ↔ same c) (s : S) (word : List C) :
    (∀ l, l <+: word → l.foldl f s = l.foldl g s) ↔ ∀ c ∈ word, same c := by
  induction word using List.reverseRecOn with
  | nil => simp
  | append_singleton word c ih =>
    constructor
    · intro h
      have hword := ih.mp fun l hl => h l (hl.trans (List.prefix_append word [c]))
      have hbefore := h word (List.prefix_append word [c])
      have hall := h (word ++ [c]) (List.prefix_refl _)
      rw [List.foldl_append, List.foldl_append, hbefore] at hall
      intro d hd
      rcases List.mem_append.mp hd with hd | hd
      · exact hword d hd
      · rw [List.mem_singleton.mp hd]
        exact (hstep _ _).mp hall
    · intro h l hl
      have hword := ih.mpr fun d hd => h d (List.mem_append_left _ hd)
      rcases List.prefix_concat_iff.mp hl with rfl | hl
      · rw [List.foldl_append, List.foldl_append, hword word (List.prefix_refl word)]
        exact (hstep _ _).mpr (h c (by simp))
      · exact hword l hl

variable {widen other init prime key}

theorem fnv1_prefixes_iff :
    (∀ l, l <+: key → fnv1 widen init prime l = fnv1 other init prime l) ↔
      ∀ c ∈ key, widen c = other c := by
  refine foldl_prefixes_iff (fun hash c => ?_) init key
  exact BitVec.xor_right_inj (hash * prime)

/-- With an odd prime the product loses nothing. -/
theorem mul_injective {inverse : BitVec w} (hprime : prime * inverse = 1) :
    Injective fun hash => hash * prime := by
  intro a b h
  have hback := congrArg (· * inverse) h
  simp only [BitVec.mul_assoc, hprime] at hback
  simpa using hback

theorem fnv1a_prefixes_iff {inverse : BitVec w} (hprime : prime * inverse = 1) :
    (∀ l, l <+: key → fnv1a widen init prime l = fnv1a other init prime l) ↔
      ∀ c ∈ key, widen c = other c := by
  refine foldl_prefixes_iff (fun hash c => ⟨fun h => ?_, fun h => by rw [h]⟩) init key
  exact (BitVec.xor_right_inj hash).mp (mul_injective hprime h)

end Agreement

section Cycle

/-- Loops through finitely many states come back to where they start, and at the same time. -/
theorem exists_common_period {ι S : Type*} [Finite ι] [Finite S] {f : ι → S → S}
    (hf : ∀ i, Injective (f i)) (s : ι → S) : ∃ n > 0, ∀ i, (f i)^[n] (s i) = s i := by
  have hinj : Injective fun (t : ι → S) i => f i (t i) := fun t u h =>
    funext fun i => hf i (congrFun h i)
  obtain ⟨n, hn, hper⟩ := mem_periodicPts.mp (hinj.mem_periodicPts s)
  have hiter : ∀ (n : ℕ) (t : ι → S), (fun (t : ι → S) i => f i (t i))^[n] t =
      fun i => (f i)^[n] (t i) := by
    intro n
    induction n with
    | zero => exact fun _ => rfl
    | succ n ih => exact fun t => ih _
  refine ⟨n, hn, fun i => ?_⟩
  have hback := congrFun hper i
  rw [hiter] at hback
  exact hback

theorem foldl_replicate {S C : Type*} (step : S → C → S) (c : C) (n : ℕ) (s : S) :
    (List.replicate n c).foldl step s = (fun s => step s c)^[n] s := by
  induction n generalizing s with
  | zero => rfl
  | succ n ih => exact ih _

end Cycle

end KirinFS.Foundation.Fnv
