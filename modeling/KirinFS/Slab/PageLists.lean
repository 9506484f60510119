import KirinFS.Slab.Invariant

/-! # The list operations of the allocator on rings of descriptors -/

namespace KirinFS.Slab
open Foundation.Tiling Foundation.IntrusiveRing Function

namespace StlSlab
variable {pool : StlSlab} {s x : PageRef} {M : Set PageRef} {t : PageType}

theorem valid_page {i : ℕ} (hi : i < pool.last) : pool.valid (.page i) = true := by
  simp [valid, hi]

@[simp] theorem valid_free (pool : StlSlab) : pool.valid .free = true := rfl

theorem valid_slot {k : ℕ} (hk : k < pool.nslots) : pool.valid (.slot k) = true := by
  simp [valid, hk]

/-- Validity only depends on the numbers of slots and of pages. -/
theorem valid_congr {q : StlSlab} (hn : q.nslots = pool.nslots) (hl : q.last = pool.last)
    {r : PageRef} (h : pool.valid r = true) : q.valid r = true := by
  rw [← h]
  cases r <;> simp [valid, hn, hl]

@[simp] theorem within_page (lo n i : ℕ) :
    (PageRef.page i).within lo n = true ↔ lo ≤ i ∧ i < lo + n := by
  simp [PageRef.within]

/-- A descriptor outside of a run is not among the pages behind its first. -/
theorem within_outside {r : PageRef} {i k : ℕ} (hk : 0 < k)
    (h : ∀ j, i ≤ j → j < i + k → r ≠ .page j) : r.within (i + 1) (k - 1) = false := by
  cases r with
  | page j =>
    have hj : ¬ (i ≤ j ∧ j < i + k) := fun hj => h j hj.1 hj.2 rfl
    simp only [PageRef.within, decide_eq_false_iff_not]
    omega
  | null => rfl
  | free => rfl
  | slot _ => rfl

def withLinks (pool : StlSlab) (n : PageRef → PageRef) (p : PageRef → TaggedRef) : StlSlab :=
  { pool with next := n, prev := p }

def withStats (pool : StlSlab) (st : ℕ → StlSlabStat) : StlSlab :=
  { pool with stats := st }

def KeepsLinks (pool : StlSlab) (n : PageRef → PageRef) (p : PageRef → TaggedRef) (s : PageRef)
    (M : Set PageRef) : Prop :=
  ∀ r, r ≠ s → r ∉ M → n r = pool.next r ∧ p r = pool.prev r

theorem unlinkPage_spec (pool : StlSlab)
    (hr : Ring pool.next pool.prev (backLink t) s M) (hx : x ∈ M)
    (hv : ∀ r, r = s ∨ r ∈ M → pool.valid r = true) :
    ∃ n p, pool.unlinkPage x = some (pool.withLinks n p) ∧
      Ring n p (backLink t) s (M \ {x}) ∧ KeepsLinks pool n p s M := by
  obtain ⟨a, ha, -, hamem, -, hnmem, -⟩ := hr.neighbours hx
  refine ⟨_, _, ?_, hr.unlink hx ha (backLink_injective t), ?_⟩
  · have hva := hv a hamem
    have hvn := fun q hn hl => valid_congr (q := q) hn hl (hv (pool.next x) hnmem)
    simp [unlinkPage, setNext, setPrev, ha, backLink, hva, hvn, withLinks]
  · intro r hrs hrM
    have hra : r ≠ a := by
      rintro rfl
      rcases hamem with h | h
      · exact hrs h
      · exact hrM h
    have hrn : r ≠ pool.next x := by
      rintro rfl
      rcases hnmem with h | h
      · exact hrs h
      · exact hrM h
    exact ⟨update_of_ne hra _ _, update_of_ne hrn _ _⟩

theorem retirePage_spec {i : ℕ} (hr : Ring pool.next pool.prev (backLink t) s M)
    (hx : .page i ∈ M) (hs : s ≠ .page i) (hv : ∀ r, r = s ∨ r ∈ M → pool.valid r = true) :
    ∃ n p, pool.retirePage i t = some (pool.withLinks n p) ∧
      Ring n p (backLink t) s (M \ {.page i}) ∧ n (.page i) = .null ∧
      p (.page i) = bareTag t ∧ KeepsLinks pool n p s M := by
  obtain ⟨n, p, hu, hring, hkeep⟩ := unlinkPage_spec pool hr hx hv
  refine ⟨update n (.page i) .null, update p (.page i) (bareTag t), ?_, ?_, by simp, by simp, ?_⟩
  · have hvi := fun q hn hl => valid_congr (q := q) hn hl (hv _ (Or.inr hx))
    simp [retirePage, hu, withLinks, setNext, setPrev, hvi]
  · refine hring.frame (update_of_ne hs _ _) ?_ ?_
    · intro r hr
      exact update_of_ne hr.2 _ _
    · intro r hr
      exact update_of_ne hr.2 _ _
  · intro r hrs hrM
    have hri : r ≠ .page i := by
      rintro rfl
      exact hrM hx
    rw [update_of_ne hri, update_of_ne hri]
    exact hkeep r hrs hrM

theorem relistPage_spec {i k : ℕ} (hr : Ring pool.next pool.prev (backLink t) (.slot k) M)
    (hx : .page i ∉ M) (hi : i < pool.last)
    (hv : ∀ r, r = .slot k ∨ r ∈ M → pool.valid r = true) :
    ∃ n p, pool.relistPage i k t = some (pool.withLinks n p) ∧
      Ring n p (backLink t) (.slot k) (insert (.page i) M) ∧
      KeepsLinks pool n p (.slot k) (insert (.page i) M) := by
  have hne : PageRef.page i ≠ .slot k := by simp
  have hmem : pool.next (.slot k) = .slot k ∨ pool.next (.slot k) ∈ M := hr.next_sentinel
  have hvs := hv _ (Or.inl rfl)
  have hvn := hv _ hmem
  have hnx : pool.next (.slot k) ≠ .page i := by
    intro h
    rw [h] at hmem
    rcases hmem with h' | h'
    · exact hne h'
    · exact hx h'
  refine ⟨_, _, ?_, hr.push hne hx, ?_⟩
  · have hvs' := fun q hn hl => valid_congr (q := q) hn hl hvs
    have hvn' := fun q hn hl => valid_congr (q := q) hn hl hvn
    have hvi := fun q hn hl => valid_congr (q := q) hn hl (valid_page hi)
    simp [relistPage, setNext, setPrev, hvs', hvn', hvi, withLinks, backLink]
  · intro r hrs hrM
    have hri : r ≠ .page i := fun h => hrM (h ▸ Set.mem_insert _ _)
    have hrn : r ≠ pool.next (.slot k) := by
      rintro rfl
      rcases hmem with h' | h'
      · exact hrs h'
      · exact hrM (Set.mem_insert_of_mem _ h')
    simp [update_of_ne hri, update_of_ne hrs, update_of_ne hrn]

/-- The two last steps of `stl_slab_free_pages`: back pointer and push on the free list. -/
theorem pushRun_spec {i tail : ℕ} (hr : Ring pool.next pool.prev (backLink .page) .free M)
    (hx : .page i ∉ M) (hlast : .page (i + tail) ∉ M) (hi : i + tail < pool.last)
    (hv : ∀ r, r = .free ∨ r ∈ M → pool.valid r = true) :
    ∃ n p, pool.pushRun (.page i) tail = some (pool.withLinks n p) ∧
      Ring n p (backLink .page) .free (insert (.page i) M) ∧
      (tail ≠ 0 → p (.page (i + tail)) = backLink .page (.page i)) ∧
      (∀ r, r ≠ .free → r ∉ insert (.page i) M → n r = pool.next r ∧
        (r ≠ .page (i + tail) → p r = pool.prev r)) := by
  have hne : PageRef.page i ≠ .free := by simp
  have hmem := hr.next_sentinel
  have hvn := fun q hn hl => valid_congr (q := q) hn hl (hv _ hmem)
  have hvi := fun q hn hl => valid_congr (q := q) hn hl
    (valid_page (by omega : i < pool.last))
  have hvt := fun q hn hl => valid_congr (q := q) hn hl (valid_page hi)
  have hnl : PageRef.page (i + tail) ≠ pool.next .free := by
    intro h
    rcases hmem with h' | h'
    · rw [h'] at h; simp at h
    · rw [← h] at h'; exact hlast h'
  let p₁ := if tail = 0 then pool.prev
    else update pool.prev (.page (i + tail)) ⟨.page i, .page⟩
  have hp₁ : ∀ r, r ≠ .page (i + tail) → p₁ r = pool.prev r := by
    intro r hrl
    by_cases ht : tail = 0
    · simp [p₁, ht]
    · simp [p₁, ht, update_of_ne hrl]
  have hr₁ : Ring pool.next p₁ (backLink .page) .free M := by
    refine hr.frame rfl (fun _ _ => rfl) ?_
    intro r hrM
    apply hp₁
    rintro rfl
    exact hlast hrM
  refine ⟨_, _, ?_, hr₁.push hne hx, ?_, ?_⟩
  · by_cases ht : tail = 0
    · simp [pushRun, ht, setPrev, setNext, hvn, hvi, withLinks, p₁, backLink]
    · simp [pushRun, ht, setPrev, setNext, hvn, hvi, hvt, withLinks, p₁, backLink]
  · intro ht
    have hil : PageRef.page (i + tail) ≠ .page i := by simp [ht]
    rw [update_of_ne hnl, update_of_ne hil]
    simp [p₁, ht, backLink]
  · intro r hrs hrM
    have hri : r ≠ .page i := fun h => hrM (h ▸ Set.mem_insert _ _)
    have hrn : r ≠ pool.next .free := by
      rintro rfl
      rcases hmem with h' | h'
      · exact hrs h'
      · exact hrM (Set.mem_insert_of_mem _ h')
    refine ⟨by rw [update_of_ne hrs, update_of_ne hri], fun hrl => ?_⟩
    rw [update_of_ne hrn, update_of_ne hri, hp₁ r hrl]

/-- Splitting hands the place of the run in the free list to its remainder. -/
theorem splitRun_spec {i k len : ℕ} (hr : Ring pool.next pool.prev (backLink .page) .free M)
    (hx : .page i ∈ M) (hlen : (pool.slab (.page i)).toNat = len) (hk : k < len)
    (hfit : i + len ≤ pool.last)
    (hrest : .page (i + k) ∉ M) (hlast : .page (i + len - 1) ∉ M)
    (hv : ∀ r, r = .free ∨ r ∈ M → pool.valid r = true) :
    ∃ n p, pool.splitRun i k = some { pool.withLinks n p with
        slab := update pool.slab (.page (i + k)) (BitVec.ofNat 64 (len - k)) } ∧
      Ring n p (backLink .page) .free (insert (.page (i + k)) (M \ {.page i})) ∧
      (k + 1 < len → p (.page (i + len - 1)) = backLink .page (.page (i + k))) ∧
      (∀ r, r ≠ .free → r ∉ M → r ≠ .page (i + k) → n r = pool.next r ∧
        (r ≠ .page (i + len - 1) → p r = pool.prev r)) := by
  obtain ⟨a, ha, -, hamem, hax, hnmem, hnx⟩ := hr.neighbours hx
  have hil : PageRef.page i ≠ .page (i + len - 1) := fun h => hlast (h ▸ hx)
  have hik : PageRef.page i ≠ .page (i + k) := fun h => hrest (h ▸ hx)
  let p₁ := update pool.prev (.page (i + len - 1)) ⟨.page (i + k), .page⟩
  have hp₁ : p₁ (.page i) = backLink .page a := (update_of_ne hil _ _).trans ha
  have hr₁ : Ring pool.next p₁ (backLink .page) .free M := by
    refine hr.frame rfl (fun _ _ => rfl) ?_
    intro r hrM
    refine update_of_ne ?_ _ _
    rintro rfl
    exact hlast hrM
  have hva := fun q hn hl => valid_congr (q := q) hn hl (hv _ hamem)
  have hvn := fun q hn hl => valid_congr (q := q) hn hl (hv _ hnmem)
  have hvk := fun q hn hl => valid_congr (q := q) hn hl
    (valid_page (by omega : i + k < pool.last))
  have hvl := fun q hn hl => valid_congr (q := q) hn hl
    (valid_page (by omega : i + len - 1 < pool.last))
  have hnl : ∀ r : PageRef, r ∉ M → r ≠ .free → r ≠ pool.next (.page i) := by
    rintro r hrM hrs rfl
    rcases hnmem with h' | h'
    · exact hrs h'
    · exact hrM h'
  refine ⟨_, _, ?_, hr₁.replace hx (by simp) hrest hp₁ (backLink_injective _), ?_, ?_⟩
  · simp only [p₁, update_of_ne hil] at hp₁
    simp [splitRun, hlen, setPrev, setPage, setNext, hva, hvn, hvk, hvl, withLinks, p₁, backLink,
      update_of_ne hil, update_of_ne hik, update_of_ne (Ne.symm hax), hp₁]
  · intro hk1
    have hlr : PageRef.page (i + len - 1) ≠ .page (i + k) := by
      intro h
      have h' := PageRef.page.inj h
      omega
    rw [update_of_ne (hnl _ hlast (by simp)), update_of_ne hlr]
    exact update_self _ _ _
  · intro r hrs hrM hrk
    have hra : r ≠ a := by
      rintro rfl
      rcases hamem with h' | h'
      · exact hrs h'
      · exact hrM h'
    refine ⟨by rw [update_of_ne hra, update_of_ne hrk], fun hrl => ?_⟩
    rw [update_of_ne (hnl r hrM hrs), update_of_ne hrk]
    exact update_of_ne hrl _ _

theorem searchRun_links {k fuel : ℕ} {a : PageRef} {l : List PageRef}
    (hl : Links pool.next pool.prev (backLink .page) a l .free) (hf : l.length < fuel)
    (hv : ∀ r ∈ l, r ≠ .free ∧ pool.valid r = true) :
    (pool.searchRun k fuel (pool.next a) = some .free ∧
        ∀ r ∈ l, (pool.slab r).toNat < k) ∨
      ∃ r ∈ l, pool.searchRun k fuel (pool.next a) = some r ∧ k ≤ (pool.slab r).toNat := by
  induction l generalizing a fuel with
  | nil =>
    obtain ⟨fuel, rfl⟩ : ∃ f, fuel = f + 1 := ⟨fuel - 1, by simp at hf; omega⟩
    have hn : pool.next a = .free := hl
    exact Or.inl ⟨by simp [searchRun, hn], by simp⟩
  | cons x l ih =>
    obtain ⟨hn, -, hl'⟩ := hl
    obtain ⟨fuel, rfl⟩ : ∃ f, fuel = f + 1 := ⟨fuel - 1, by simp at hf; omega⟩
    obtain ⟨hxf, hxv⟩ := hv x (by simp)
    rw [hn, searchRun, if_neg hxf, if_pos hxv]
    by_cases hk : k ≤ (pool.slab x).toNat
    · rw [if_pos hk]
      exact Or.inr ⟨x, by simp, rfl, hk⟩
    · rw [if_neg hk]
      rcases ih hl' (by simp at hf; omega) (fun r hr => hv r (by simp [hr])) with h | h
      · refine Or.inl ⟨h.1, ?_⟩
        intro r hr
        rcases List.mem_cons.mp hr with rfl | hr
        · omega
        · exact h.2 r hr
      · obtain ⟨r, hr, hs, hk'⟩ := h
        exact Or.inr ⟨r, by simp [hr], hs, hk'⟩

/-- The search stops at a long enough run of the list, or has seen that there is none. -/
theorem searchRun_spec {k N : ℕ} (fuel : ℕ)
    (hr : Ring pool.next pool.prev (backLink .page) .free M)
    (hf : N < fuel) (hN : N ≤ max pool.last 1) (hM : ∀ r ∈ M, ∃ i < N, r = .page i) :
    (pool.searchRun k fuel (pool.next .free) = some .free ∧
        ∀ r ∈ M, (pool.slab r).toNat < k) ∨
      ∃ r ∈ M, pool.searchRun k fuel (pool.next .free) = some r ∧
        k ≤ (pool.slab r).toNat := by
  obtain ⟨l, hl, hd, hm⟩ := hr
  have hsub : l ⊆ (List.range N).map PageRef.page := by
    intro r hr
    obtain ⟨i, hi, rfl⟩ := hM r ((hm r).mp hr)
    exact List.mem_map.mpr ⟨i, List.mem_range.mpr hi, rfl⟩
  have hlen : l.length ≤ N := by
    simpa using ((List.nodup_cons.mp hd).2.subperm hsub).length_le
  have hv : ∀ r ∈ l, r ≠ .free ∧ pool.valid r = true := by
    intro r hr
    obtain ⟨i, hi, rfl⟩ := hM r ((hm r).mp hr)
    simp only [valid, decide_eq_true_eq]
    exact ⟨by simp, by omega⟩
  simpa only [hm] using searchRun_links (k := k) hl (lt_of_le_of_lt hlen hf) hv

end StlSlab
end KirinFS.Slab
