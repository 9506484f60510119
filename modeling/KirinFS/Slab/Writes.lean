import KirinFS.Slab.Surgery

/-! # What the calls write

A call only writes descriptors of the pool, whatever state the pool is in. Page
surgery writes nothing else, apart from the count of vacant pages.
-/

namespace KirinFS.Slab
open Function

variable {pool pool' q : StlSlab}

/-- No word of a descriptor outside of the pool has changed. -/
structure Confined (pool q : StlSlab) : Prop extends SameFrame pool q where
  spare : q.spare = pool.spare
  words : ∀ r, pool.valid r = false →
    q.slab r = pool.slab r ∧ q.next r = pool.next r ∧ q.prev r = pool.prev r

/-- Nothing but descriptors of the pool and the count of vacant pages has changed. -/
structure Relinked (pool q : StlSlab) : Prop extends Confined pool q where
  stats : q.stats = pool.stats
  mem : q.mem = pool.mem

/-- Beside descriptors of the pool and its pages only the statistics of one slot have changed. -/
structure Counts (slot : ℕ) (f : StlSlabStat → StlSlabStat) (pool q : StlSlab) : Prop
    extends Confined pool q where
  stats : q.stats = update pool.stats slot (f (pool.stats slot))

theorem Confined.refl (pool : StlSlab) : Confined pool pool :=
  ⟨.refl pool, rfl, fun _ _ => ⟨rfl, rfl, rfl⟩⟩

theorem SameFrame.valid_eq (h : SameFrame pool q) (r : PageRef) : q.valid r = pool.valid r := by
  cases r <;> simp [StlSlab.valid, h.nslots, h.last]

theorem Confined.trans (h : Confined pool pool') (h' : Confined pool' q) : Confined pool q := by
  refine ⟨h.toSameFrame.trans h'.toSameFrame, h'.spare.trans h.spare, fun r hr => ?_⟩
  obtain ⟨h₁, h₂, h₃⟩ := h.words r hr
  obtain ⟨h₁', h₂', h₃'⟩ := h'.words r ((h.valid_eq r).trans hr)
  exact ⟨h₁'.trans h₁, h₂'.trans h₂, h₃'.trans h₃⟩

theorem Relinked.refl (pool : StlSlab) : Relinked pool pool := ⟨.refl pool, rfl, rfl⟩

theorem Relinked.trans (h : Relinked pool pool') (h' : Relinked pool' q) : Relinked pool q :=
  ⟨h.toConfined.trans h'.toConfined, h'.stats.trans h.stats, h'.mem.trans h.mem⟩

section Counts
variable {slot : ℕ} {f : StlSlabStat → StlSlabStat}

theorem Counts.relinked (h : Counts slot f pool pool') (h' : Relinked pool' q) :
    Counts slot f pool q :=
  ⟨h.toConfined.trans h'.toConfined, h'.stats.trans h.stats⟩

theorem Relinked.counts (h : Relinked pool pool') (h' : Counts slot f pool' q) :
    Counts slot f pool q := by
  refine ⟨h.toConfined.trans h'.toConfined, ?_⟩
  rw [h'.stats, h.stats]

end Counts

theorem relinked_of_write {r : PageRef} (h : (if pool.valid r then some pool' else none) = some q)
    (hf : Frozen pool pool') (hs : pool'.spare = pool.spare)
    (hw : ∀ r', r' ≠ r → pool'.slab r' = pool.slab r' ∧ pool'.next r' = pool.next r' ∧
      pool'.prev r' = pool.prev r') : Relinked pool q := by
  split at h
  · rename_i hv
    obtain rfl := Option.some.inj h
    refine ⟨⟨hf.toSameFrame, hs, fun r' hr' => hw r' ?_⟩, hf.stats, hf.mem⟩
    rintro rfl
    rw [hv] at hr'
    exact absurd hr' (by decide)
  · cases h

theorem bind_of_ite {α β : Type*} {b : Prop} [Decidable b] {x y : Option α} {f : α → Option β}
    {z : β} (h : (if b then x.bind f else y.bind f) = some z) :
    ∃ a, (if b then x else y) = some a ∧ f a = some z := by
  split at h
  · rename_i hb
    rw [if_pos hb]
    exact Option.bind_eq_some_iff.mp h
  · rename_i hb
    rw [if_neg hb]
    exact Option.bind_eq_some_iff.mp h

namespace StlSlab
variable {g : SlabGlobals} {i n p shift slot size tail a : ℕ} {r v : PageRef} {w : Word}
  {t : TaggedRef} {ty : PageType}

section Pages

theorem setSlab_relinked (h : pool.setSlab r w = some q) : Relinked pool q :=
  relinked_of_write h ⟨⟨rfl, rfl, rfl, rfl, rfl, rfl⟩, rfl, rfl⟩ rfl
    fun _ hr => ⟨update_of_ne hr _ _, rfl, rfl⟩

theorem setNext_relinked (h : pool.setNext r v = some q) : Relinked pool q :=
  relinked_of_write h ⟨⟨rfl, rfl, rfl, rfl, rfl, rfl⟩, rfl, rfl⟩ rfl
    fun _ hr => ⟨rfl, update_of_ne hr _ _, rfl⟩

theorem setPrev_relinked (h : pool.setPrev r t = some q) : Relinked pool q :=
  relinked_of_write h ⟨⟨rfl, rfl, rfl, rfl, rfl, rfl⟩, rfl, rfl⟩ rfl
    fun _ hr => ⟨rfl, rfl, update_of_ne hr _ _⟩

theorem setPage_relinked (h : pool.setPage r w v t = some q) : Relinked pool q :=
  relinked_of_write h ⟨⟨rfl, rfl, rfl, rfl, rfl, rfl⟩, rfl, rfl⟩ rfl
    fun _ hr => ⟨update_of_ne hr _ _, update_of_ne hr _ _, update_of_ne hr _ _⟩

theorem fillPages_relinked {lo : ℕ} (h : pool.fillPages lo n w = some q) : Relinked pool q := by
  rw [fillPages] at h
  split at h
  · rename_i hfit
    obtain rfl := Option.some.inj h
    refine ⟨⟨⟨rfl, rfl, rfl, rfl, rfl, rfl⟩, rfl, fun r hr => ?_⟩, rfl, rfl⟩
    have hout : r.within lo n = false := by
      cases r with
      | page i =>
        rw [valid, decide_eq_false_iff_not] at hr
        exact decide_eq_false (by omega)
      | _ => rfl
    simp [hout]
  · cases h

theorem unlinkPage_relinked (h : pool.unlinkPage r = some q) : Relinked pool q := by
  obtain ⟨q₁, h₁, h₂⟩ := Option.bind_eq_some_iff.mp h
  exact (setNext_relinked h₁).trans (setPrev_relinked h₂)

theorem retirePage_relinked (h : pool.retirePage i ty = some q) : Relinked pool q := by
  obtain ⟨q₁, h₁, h⟩ := Option.bind_eq_some_iff.mp h
  obtain ⟨q₂, h₂, h₃⟩ := Option.bind_eq_some_iff.mp h
  exact (unlinkPage_relinked h₁).trans ((setNext_relinked h₂).trans (setPrev_relinked h₃))

theorem listPage_relinked (h : pool.listPage i slot w ty = some q) : Relinked pool q := by
  obtain ⟨q₁, h₁, h₂⟩ := Option.bind_eq_some_iff.mp h
  exact (setPage_relinked h₁).trans (setNext_relinked h₂)

theorem relinked_of_ite {b : Prop} [Decidable b] {x : Option StlSlab}
    (hx : x = some q → Relinked pool q) (h : (if b then x else some pool) = some q) :
    Relinked pool q := by
  split at h
  · exact hx h
  · obtain rfl := Option.some.inj h
    exact .refl pool

theorem relistPage_relinked (h : pool.relistPage i slot ty = some q) : Relinked pool q := by
  obtain ⟨q₁, h₁, h⟩ := bind_of_ite h
  obtain ⟨q₂, h₂, h⟩ := Option.bind_eq_some_iff.mp h
  obtain ⟨q₃, h₃, h₄⟩ := Option.bind_eq_some_iff.mp h
  have hfirst : Relinked pool q₁ := by
    split at h₁
    · exact setNext_relinked h₁
    · cases h₁
  exact hfirst.trans ((setNext_relinked h₂).trans
    ((setPrev_relinked h₃).trans (setPrev_relinked h₄)))

theorem splitRun_relinked (h : pool.splitRun i n = some q) : Relinked pool q := by
  obtain ⟨q₁, h₁, h⟩ := Option.bind_eq_some_iff.mp h
  obtain ⟨q₂, h₂, h⟩ := Option.bind_eq_some_iff.mp h
  obtain ⟨q₃, h₃, h₄⟩ := Option.bind_eq_some_iff.mp h
  exact (setPrev_relinked h₁).trans ((setPage_relinked h₂).trans
    ((setNext_relinked h₃).trans (setPrev_relinked h₄)))

theorem stlSlabAllocPages_relinked (h : pool.stlSlabAllocPages n = some (q, r)) :
    Relinked pool q := by
  obtain ⟨r₀, -, h⟩ := Option.bind_eq_some_iff.mp h
  split at h
  · obtain ⟨q₁, h₁, h⟩ := bind_of_ite h
    obtain ⟨q₂, h₂, h⟩ := Option.bind_eq_some_iff.mp h
    obtain ⟨q₃, h₃, h⟩ := Option.bind_eq_some_iff.mp h
    obtain ⟨rfl, -⟩ := Prod.mk.inj (Option.some.inj h)
    have hcut : Relinked pool q₁ := by
      split at h₁
      · exact splitRun_relinked h₁
      · exact unlinkPage_relinked h₁
    have hmark : Relinked q₂ { q₂ with pfree := q₂.pfree - BitVec.ofNat 64 n } :=
      ⟨⟨⟨rfl, rfl, rfl, rfl, rfl, rfl⟩, rfl, fun _ _ => ⟨rfl, rfl, rfl⟩⟩, rfl, rfl⟩
    exact hcut.trans ((setPage_relinked h₂).trans (hmark.trans (fillPages_relinked h₃)))
  · obtain ⟨rfl, -⟩ := Prod.mk.inj (Option.some.inj h)
    exact .refl pool

theorem joinNext_relinked (h : pool.joinNext i tail = some (q, n)) : Relinked pool q := by
  rw [joinNext] at h
  split at h
  · obtain ⟨q₁, h₁, h⟩ := Option.bind_eq_some_iff.mp h
    obtain ⟨q₂, h₂, h⟩ := Option.bind_eq_some_iff.mp h
    obtain ⟨q₃, h₃, h⟩ := Option.bind_eq_some_iff.mp h
    obtain ⟨rfl, -⟩ := Prod.mk.inj (Option.some.inj h)
    exact (setSlab_relinked h₁).trans ((unlinkPage_relinked h₂).trans (setPage_relinked h₃))
  · obtain ⟨rfl, -⟩ := Prod.mk.inj (Option.some.inj h)
    exact .refl pool

theorem joinPrev_relinked (h : pool.joinPrev i tail = some (q, r, n)) : Relinked pool q := by
  rw [joinPrev] at h
  split at h
  · simp only at h
    split at h
    · split at h
      · obtain ⟨q₁, h₁, h⟩ := Option.bind_eq_some_iff.mp h
        obtain ⟨q₂, h₂, h⟩ := Option.bind_eq_some_iff.mp h
        obtain ⟨q₃, h₃, h⟩ := Option.bind_eq_some_iff.mp h
        obtain ⟨rfl, -⟩ := Prod.mk.inj (Option.some.inj h)
        exact (setSlab_relinked h₁).trans ((unlinkPage_relinked h₂).trans (setPage_relinked h₃))
      · obtain ⟨rfl, -⟩ := Prod.mk.inj (Option.some.inj h)
        exact .refl pool
    · cases h
  · obtain ⟨rfl, -⟩ := Prod.mk.inj (Option.some.inj h)
    exact .refl pool

theorem pushRun_relinked (h : pool.pushRun r tail = some q) : Relinked pool q := by
  cases r with
  | page i =>
    obtain ⟨q₁, h₁, h⟩ := bind_of_ite h
    obtain ⟨q₂, h₂, h⟩ := Option.bind_eq_some_iff.mp h
    obtain ⟨q₃, h₃, h⟩ := Option.bind_eq_some_iff.mp h
    obtain ⟨q₄, h₄, h₅⟩ := Option.bind_eq_some_iff.mp h
    exact (relinked_of_ite setPrev_relinked h₁).trans ((setPrev_relinked h₂).trans
      ((setNext_relinked h₃).trans ((setPrev_relinked h₄).trans (setNext_relinked h₅))))
  | _ => cases h

theorem stlSlabFreePages_relinked (h : pool.stlSlabFreePages i n = some q) : Relinked pool q := by
  obtain ⟨q₁, h₁, h⟩ := Option.bind_eq_some_iff.mp h
  obtain ⟨q₂, h₂, h⟩ := Option.bind_eq_some_iff.mp h
  obtain ⟨q₃, h₃, h⟩ := bind_of_ite h
  obtain ⟨⟨q₄, t₄⟩, h₄, h⟩ := Option.bind_eq_some_iff.mp h
  obtain ⟨⟨q₅, r₅, t₅⟩, h₅, h₆⟩ := Option.bind_eq_some_iff.mp h
  have hcount : Relinked pool { pool with pfree := pool.pfree + BitVec.ofNat 64 n } :=
    ⟨⟨⟨rfl, rfl, rfl, rfl, rfl, rfl⟩, rfl, fun _ _ => ⟨rfl, rfl, rfl⟩⟩, rfl, rfl⟩
  have hlist := relinked_of_ite unlinkPage_relinked h₃
  exact hcount.trans ((setSlab_relinked h₁).trans ((fillPages_relinked h₂).trans
    (hlist.trans ((joinNext_relinked h₄).trans ((joinPrev_relinked h₅).trans
      (pushRun_relinked h₆))))))

end Pages

section Chunks

section Counting
variable {f : StlSlabStat → StlSlabStat}

theorem setStat_counts (h : pool.setStat slot f = some q) : Counts slot f pool q := by
  rw [setStat] at h
  split at h
  · obtain rfl := Option.some.inj h
    exact ⟨⟨⟨rfl, rfl, rfl, rfl, rfl, rfl⟩, rfl, fun _ _ => ⟨rfl, rfl, rfl⟩⟩, rfl⟩
  · cases h

theorem confined_withMem (pool : StlSlab) (mem : ℕ → Word) : Confined pool { pool with mem } :=
  ⟨⟨rfl, rfl, rfl, rfl, rfl, rfl⟩, rfl, fun _ _ => ⟨rfl, rfl, rfl⟩⟩

theorem counts_withMem {mem : ℕ → Word} (h : Counts slot f { pool with mem } q) :
    Counts slot f pool q :=
  ⟨(confined_withMem pool mem).trans h.toConfined, h.stats⟩

end Counting

theorem takeSmall_counts (h : pool.takeSmall g i shift slot = some (some (q, a))) :
    Counts slot (fun st => { st with used := st.used + 1 }) pool q := by
  rw [takeSmall] at h
  split at h
  · cases h
  · obtain ⟨q₁, h₁, h⟩ := Option.bind_eq_some_iff.mp h
    obtain ⟨q₂, h₂, h⟩ := bind_of_ite h
    obtain ⟨rfl, -⟩ := Prod.mk.inj (Option.some.inj (Option.some.inj h))
    exact (counts_withMem (setStat_counts h₁)).relinked (relinked_of_ite retirePage_relinked h₂)

theorem takeExact_counts (h : pool.takeExact g i shift slot = some (some (q, a))) :
    Counts slot (fun st => { st with used := st.used + 1 }) pool q := by
  rw [takeExact] at h
  split at h
  · cases h
  · obtain ⟨q₁, h₁, h⟩ := Option.bind_eq_some_iff.mp h
    obtain ⟨q₂, h₂, h⟩ := bind_of_ite h
    obtain ⟨q₃, h₃, h⟩ := Option.bind_eq_some_iff.mp h
    obtain ⟨rfl, -⟩ := Prod.mk.inj (Option.some.inj (Option.some.inj h))
    exact (setSlab_relinked h₁).counts
      ((relinked_of_ite retirePage_relinked h₂).counts (setStat_counts h₃))

theorem takeBig_counts (h : pool.takeBig g i shift slot = some (some (q, a))) :
    Counts slot (fun st => { st with used := st.used + 1 }) pool q := by
  rw [takeBig] at h
  simp only at h
  split at h
  · cases h
  · obtain ⟨q₁, h₁, h⟩ := Option.bind_eq_some_iff.mp h
    obtain ⟨q₂, h₂, h⟩ := bind_of_ite h
    obtain ⟨q₃, h₃, h⟩ := Option.bind_eq_some_iff.mp h
    obtain ⟨rfl, -⟩ := Prod.mk.inj (Option.some.inj (Option.some.inj h))
    exact (setSlab_relinked h₁).counts
      ((relinked_of_ite retirePage_relinked h₂).counts (setStat_counts h₃))

theorem takeChunk_counts (h : pool.takeChunk g r shift slot = some (some (q, a))) :
    Counts slot (fun st => { st with used := st.used + 1 }) pool q := by
  cases r with
  | page i =>
    simp only [takeChunk] at h
    split at h
    · exact takeSmall_counts h
    · split at h
      · exact takeExact_counts h
      · exact takeBig_counts h
  | _ => cases h

theorem listed_counts {f : StlSlabStat → StlSlabStat} {x : StlSlab → ℕ}
    (h : ((pool.listPage i slot w ty).bind fun q =>
      (q.setStat slot f).bind fun q => some (q, x q)) = some (q, a)) : Counts slot f pool q := by
  obtain ⟨q₁, h₁, h⟩ := Option.bind_eq_some_iff.mp h
  obtain ⟨q₂, h₂, h⟩ := Option.bind_eq_some_iff.mp h
  obtain ⟨rfl, -⟩ := Prod.mk.inj (Option.some.inj h)
  exact (listPage_relinked h₁).counts (setStat_counts h₂)

theorem newChunkPage_confined (h : pool.newChunkPage g shift slot = some (q, a)) :
    Confined pool q := by
  obtain ⟨⟨q₁, r⟩, h₁, h⟩ := Option.bind_eq_some_iff.mp h
  refine (stlSlabAllocPages_relinked h₁).toConfined.trans ?_
  simp only at h
  split at h
  · split at h
    · exact (counts_withMem (listed_counts (x := fun _ => _) h)).toConfined
    · split at h
      · exact (listed_counts h).toConfined
      · exact (listed_counts h).toConfined
  · obtain ⟨q₂, h₂, h⟩ := Option.bind_eq_some_iff.mp h
    obtain ⟨rfl, -⟩ := Prod.mk.inj (Option.some.inj h)
    exact (setStat_counts h₂).toConfined

theorem stlSlabAlloc_confined (h : pool.stlSlabAlloc g size = some (q, a)) : Confined pool q := by
  rw [stlSlabAlloc] at h
  split at h
  · obtain ⟨⟨q₁, r⟩, h₁, h⟩ := Option.bind_eq_some_iff.mp h
    have hrun := (stlSlabAllocPages_relinked h₁).toConfined
    simp only at h
    split at h
    · obtain ⟨rfl, -⟩ := Prod.mk.inj (Option.some.inj h)
      exact hrun
    · obtain ⟨rfl, -⟩ := Prod.mk.inj (Option.some.inj h)
      exact hrun
  · obtain ⟨q₁, h₁, h⟩ := Option.bind_eq_some_iff.mp h
    refine (setStat_counts h₁).toConfined.trans ?_
    dsimp only at h
    split at h
    · split at h
      · obtain ⟨taken, htaken, h⟩ := Option.bind_eq_some_iff.mp h
        cases taken with
        | some r =>
          obtain rfl := Option.some.inj h
          exact (takeChunk_counts htaken).toConfined
        | none => exact newChunkPage_confined h
      · exact newChunkPage_confined h
    · cases h

theorem freeDone_counts (h : pool.freeDone p size slot = some q) :
    Counts slot (fun st => { st with used := st.used - 1 }) pool q := by
  obtain ⟨q₁, h₁, h⟩ := Option.bind_eq_some_iff.mp h
  obtain rfl := Option.some.inj h
  have hcounts := setStat_counts h₁
  exact ⟨hcounts.toConfined.trans (confined_withMem q₁ _), hcounts.stats⟩

section Finish
variable {b : Prop} [Decidable b] {f : StlSlabStat → StlSlabStat}
  (h : (if b then (pool.stlSlabFreePages i 1).bind fun q =>
      (q.setStat slot f).bind fun q => q.freeDone p size slot
    else (some pool).bind fun q => q.freeDone p size slot) = some q)

include h

/-- The branches for chunks end alike: the page of the last chunk goes, and one chunk less is
counted. -/
theorem finish_confined : Confined pool q := by
  split at h
  · obtain ⟨q₁, h₁, h⟩ := Option.bind_eq_some_iff.mp h
    obtain ⟨q₂, h₂, h⟩ := Option.bind_eq_some_iff.mp h
    exact (stlSlabFreePages_relinked h₁).toConfined.trans
      ((setStat_counts h₂).toConfined.trans (freeDone_counts h).toConfined)
  · exact (freeDone_counts h).toConfined

end Finish

theorem freeSmall_confined (h : pool.freeSmall g i p = some q) : Confined pool q := by
  rw [freeSmall] at h
  simp only at h
  split at h
  · obtain rfl := Option.some.inj h
    exact .refl pool
  · split at h
    · obtain ⟨q₁, h₁, h⟩ := bind_of_ite h
      exact (relinked_of_ite relistPage_relinked h₁).toConfined.trans
        ((confined_withMem q₁ _).trans (finish_confined h))
    · obtain rfl := Option.some.inj h
      exact .refl pool

theorem freeExact_confined (h : pool.freeExact g i p = some q) : Confined pool q := by
  rw [freeExact] at h
  simp only at h
  split at h
  · obtain rfl := Option.some.inj h
    exact .refl pool
  · split at h
    · obtain ⟨q₁, h₁, h⟩ := bind_of_ite h
      obtain ⟨q₂, h₂, h⟩ := Option.bind_eq_some_iff.mp h
      exact (relinked_of_ite relistPage_relinked h₁).toConfined.trans
        ((setSlab_relinked h₂).toConfined.trans (finish_confined h))
    · obtain rfl := Option.some.inj h
      exact .refl pool

theorem freeBig_confined (h : pool.freeBig g i p = some q) : Confined pool q := by
  rw [freeBig] at h
  simp only at h
  split at h
  · obtain rfl := Option.some.inj h
    exact .refl pool
  · split at h
    · obtain ⟨q₁, h₁, h⟩ := bind_of_ite h
      obtain ⟨q₂, h₂, h⟩ := Option.bind_eq_some_iff.mp h
      exact (relinked_of_ite relistPage_relinked h₁).toConfined.trans
        ((setSlab_relinked h₂).toConfined.trans (finish_confined h))
    · obtain rfl := Option.some.inj h
      exact .refl pool

theorem freeRun_confined (h : pool.freeRun g i p = some q) : Confined pool q := by
  rw [freeRun] at h
  simp only at h
  split at h
  · obtain rfl := Option.some.inj h
    exact .refl pool
  · split at h
    · obtain rfl := Option.some.inj h
      exact .refl pool
    · split at h
      · obtain rfl := Option.some.inj h
        exact .refl pool
      · obtain ⟨q₁, h₁, h⟩ := Option.bind_eq_some_iff.mp h
        obtain rfl := Option.some.inj h
        exact (stlSlabFreePages_relinked h₁).toConfined.trans (confined_withMem q₁ _)

theorem stlSlabFree_confined (h : pool.stlSlabFree g p = some q) : Confined pool q := by
  rw [stlSlabFree] at h
  split at h
  · obtain rfl := Option.some.inj h
    exact .refl pool
  · dsimp only at h
    split at h
    · split at h
      · exact freeSmall_confined h
      · exact freeExact_confined h
      · exact freeBig_confined h
      · exact freeRun_confined h
    · split at h
      · cases h
      · obtain rfl := Option.some.inj h
        exact .refl pool

end Chunks

end StlSlab

end KirinFS.Slab
