import Xv6.Pa3.Tables

/-!
# Frames and eviction

The frames and the clock under the invariant of `Xv6.Pa3.Coherent`. Evicting the victim moves its
page to the slot that it was given, or nowhere if that is slot `0`. Without a free slot nothing is
evicted, and the frame table stays full.
-/

namespace Xv6

namespace Pa3

open WeakestPre
open Mem (Pte Page Halt pteV pteR pteW pteU has pa2pte pte2pa mapPte swapIdx Valid Managed)
open Function (update update_self update_of_ne)

section

variable {top : ℕ → ℕ} {place : ℕ → ℕ → Place} {f : ℕ → ℕ → Page} {s s' s'' : Kernel} {p v a i : ℕ}
  {frames : ℕ → FrameEntry} {E : Halt → Kernel → Prop}

/-! ### Frames -/

/-- A page gets a frame. -/
theorem Inv.track (h : Inv top place f s) (hi : i < maxFrames)
    (hfree : (s.frameTable i).inUse = false) (hx : place p v = .page a)
    (hun : ∀ j < maxFrames, (s.frameTable j).inUse = true → (s.frameTable j).physicalAddr ≠ a) :
    Inv top place f { s with
      frameTable := update s.frameTable i ⟨true, some p, v * pgsize, a, 1⟩
      userFrames := s.userFrames + 1 } :=
  { h with
    frame := fun j hj hin => by
      by_cases hji : j = i
      · subst hji
        exact ⟨p, v, by simp [hx]⟩
      · simp only [update_of_ne hji] at hin ⊢
        exact h.frame j hj hin
    frameInj := fun j hj k hk hjn hkn he => by
      by_cases hji : j = i <;> by_cases hki : k = i
      · rw [hji, hki]
      · subst hji
        simp only [update_self, update_of_ne hki] at hkn he
        exact absurd he.symm (hun k hk hkn)
      · subst hki
        simp only [update_self, update_of_ne hji] at hjn he
        exact absurd he (hun j hj hjn)
      · simp only [update_of_ne hji, update_of_ne hki] at hjn hkn he
        exact h.frameInj j hj k hk hjn hkn he
    count := Counted.alloc h.count hi hfree rfl }

/-- A page in nobody's hands has no frame. -/
theorem Inv.untracked (h : Inv top place f s) (ha : Fresh place s a) :
    ∀ i < maxFrames, (s.frameTable i).inUse = true → (s.frameTable i).physicalAddr ≠ a := by
  intro i hi hin he
  obtain ⟨q, u, -, -, hx⟩ := h.frame i hi hin
  exact ha.unmapped q u (he ▸ hx)

/-- `frame_alloc` succeeds below the bound. -/
theorem frameAlloc_of_room (h : Inv top place f s) (hx : place p v = .page a)
    (hun : ∀ j < maxFrames, (s.frameTable j).inUse = true → (s.frameTable j).physicalAddr ≠ a)
    (hroom : s.userFrames < maxFrames) :
    wp (frameAlloc (some p) (v * pgsize) a) (fun r s' => r = 0 ∧ Inv top place f s' ∧ Calm s s' ∧
      s'.procs = s.procs ∧ ∀ q u, s'.value q u = s.value q u) E s := by
  refine wp_imp (frameAlloc_spec h.count (some p) (v * pgsize) a) fun r s' hs' => ?_
  rcases hs' with ⟨rfl, -, i, hi, hfree, rfl⟩ | ⟨-, hfull, -⟩
  · exact ⟨rfl, h.track hi hfree hx hun, ⟨fun _ => rfl, rfl⟩, rfl, fun _ _ => rfl⟩
  · exact absurd hroom hfull

/-- `frame_free`: no frame of the page is left. -/
theorem frameFree_spec (hcount : s.userFrames = inUseCount s.frameTable)
    (hinj : ∀ i < maxFrames, ∀ j < maxFrames, (s.frameTable i).inUse = true →
      (s.frameTable j).inUse = true →
      (s.frameTable i).physicalAddr = (s.frameTable j).physicalAddr → i = j) (pa : ℕ) :
    wp (frameFree pa) (fun _ s' => ∃ frames n,
      s' = { s with frameTable := frames, userFrames := n } ∧
      n = inUseCount frames ∧
      (∀ i < maxFrames, (frames i).inUse = true →
        frames i = s.frameTable i ∧ (s.frameTable i).physicalAddr ≠ pa) ∧
      ((∃ i < maxFrames, (s.frameTable i).inUse = true ∧ (s.frameTable i).physicalAddr = pa) →
        n + 1 = s.userFrames)) E s := by
  rw [frameFree, wp_bind, wp_get]
  rcases frameOf_cases s pa with ⟨i, hi, hof, hin, hpa⟩ | ⟨hof, hnone⟩ <;> rw [hof]
  · refine ⟨_, _, rfl, Counted.free hcount hi hin rfl, fun j hj hjn => ?_, fun _ => by omega⟩
    have hji : j ≠ i := by
      rintro rfl
      simp at hjn
    rw [update_of_ne hji] at hjn ⊢
    exact ⟨rfl, fun he => hji (hinj j hj i hi hjn hin (he.trans hpa.symm))⟩
  · refine ⟨s.frameTable, s.userFrames, rfl, hcount, fun i hi hin => ⟨rfl, hnone i hi hin⟩, ?_⟩
    rintro ⟨i, hi, hin, hpa⟩
    exact absurd hpa (hnone i hi hin)

theorem Inv.ticked (h : Inv top place f s) (ht : Ticked s s') : Inv top place f s' := by
  have hcount := Counted.ticked h.count ht
  rw [ht.eq] at hcount ⊢
  exact { h with
    frame := fun i hi hin => by
      rw [ht.inUse] at hin
      rw [(ht.owner i).1, (ht.owner i).2.1, (ht.owner i).2.2]
      exact h.frame i hi hin
    frameInj := fun i hi j hj hin hjn he => by
      rw [ht.inUse] at hin hjn
      rw [(ht.owner i).2.2, (ht.owner j).2.2] at he
      exact h.frameInj i hi j hj hin hjn he
    count := hcount }

/-! ### Eviction -/

/-- The swap area has a free slot. -/
def SlotFree (s : Kernel) : Prop := ∃ n : ℕ, n < maxSwap ∧ s.swapUsed n = false

/-- `swap_out` with a free slot. -/
theorem swapOut_spec (hfree : SlotFree s) (pa : ℕ) :
    wp (swapOut pa) (fun o s' => ∃ n : ℕ, o = some n ∧ n < maxSwap ∧ s.swapUsed n = false ∧
      s' = { s with
        swapUsed := update s.swapUsed n true
        swapSpace := update s.swapSpace n (s.mem pa) }) E s := by
  obtain ⟨n, hn, hun⟩ := hfree
  obtain ⟨n, hn, hun, hfind⟩ := find_range_of_exists
    (P := fun n : ℕ => !s.swapUsed n) ⟨n, hn, by simp [hun]⟩
  rw [swapOut, swapAlloc, wp_bind, wp_bind, wp_get, hfind]
  exact ⟨n, rfl, hn, by simpa using hun, rfl⟩

/-- `swap_out` without one. -/
theorem swapOut_of_not_slotFree (hno : ¬ SlotFree s) (pa : ℕ) :
    wp (swapOut pa) (fun o s' => o = none ∧ s' = s) E s := by
  have hfind : ((List.range maxSwap).find? fun n : ℕ => !s.swapUsed n) = none := by
    refine List.find?_eq_none.mpr fun n hn hun => hno ⟨n, List.mem_range.mp hn, ?_⟩
    simpa using hun
  rw [swapOut, swapAlloc, wp_bind, wp_bind, wp_get, hfind]
  exact ⟨rfl, rfl⟩

/-- The states before and after an eviction. -/
theorem Inv.evict (h : Inv top place f s) (hx : place p v = .page a) {n : ℕ} (hn : n < maxSwap)
    (hun : s.swapUsed n = false) (hframes : ∀ i < maxFrames, (frames i).inUse = true →
      frames i = s.frameTable i ∧ (s.frameTable i).physicalAddr ≠ a) :
    Inv top (setPlace place p v (evictedTo n)) f { s.setPte p v (slotPte n) with
      swapUsed := update s.swapUsed n true
      swapSpace := update s.swapSpace n (s.mem a)
      frameTable := frames
      userFrames := inUseCount frames
      freelist := a :: s.freelist
      mem := update s.mem a (Page.fill 1)
      evictions := ⟨n, p, v * pgsize⟩ :: s.evictions } := by
  obtain ⟨hman, hnf⟩ := h.page p v a hx
  have habs : place p v ≠ .absent := by
    rw [hx]
    simp
  have hslot : ∀ p' v' m, place p' v' = .slot m → (m : ℤ) ≠ n := by
    intro p' v' m hm he
    have hused := (h.slot p' v' m hm).2.2
    rw [he, hun] at hused
    cases hused
  refine h.move
    { kend := rfl
      entry := h.ofPte_setPte (ofPte_slotPte n hn)
      tables := fun q => (setPte_procs s p v _ q).2
      nodup := List.nodup_cons.mpr ⟨hnf, h.nodup⟩
      managed := fun b hb => by
        rcases List.mem_cons.mp hb with rfl | hb
        · exact hman
        · exact h.managed b hb
      page := fun p' v' b hne hb => by
        have hba : b ≠ a := fun he => hne (h.pageInj p' v' p v b hb (he ▸ hx))
        refine ⟨fun hmem => ?_, update_of_ne hba _ _, evictedTo_ne_page n b⟩
        rcases List.mem_cons.mp hmem with he | hmem
        · exact hba he
        · exact (h.page p' v' b hb).2 hmem
      slot := fun p' v' m _ hm => by
        have hmn := hslot p' v' m hm
        refine ⟨?_, update_of_ne hmn _ _, fun he => ?_⟩
        · exact (update_of_ne hmn _ _).trans (h.slot p' v' m hm).2.2
        · exact hmn (by rw [(evictedTo_eq_slot he).1])
      toPage := fun b hb => absurd hb (evictedTo_ne_page n b)
      toSlot := fun m hm => by
        obtain ⟨rfl, h0⟩ := evictedTo_eq_slot hm
        exact ⟨h0, hn, update_self _ _ _⟩
      below := fun hle => absurd (h.above p v hle).1 habs
      inTable := fun _ => h.tables p v habs
      frame := fun i hi hin => ⟨(hframes i hi hin).1, fun he =>
        absurd (Place.page.inj (he.symm.trans hx)) (hframes i hi hin).2⟩
      count := rfl
      zero := fun h0 => ?_
      history := fun _ he => List.mem_cons_of_mem _ he
      evicted := fun e he hold => ?_
      contents := fun hl => ?_ } fun _ _ _ => rfl
  · by_cases hn0 : (0 : ℤ) = n
    · simp [← hn0]
    · simpa [update_of_ne hn0] using h0
  · rcases List.mem_cons.mp he with rfl | he
    · refine ⟨rfl, rfl, fun h0 => ?_⟩
      simp only at h0
      rw [h0] at hun ⊢
      exact ⟨hun, by simp⟩
    · exact absurd he hold
  · -- the page is not lost, so the slot is not slot `0`
    have hn0 : n ≠ 0 := fun h0 => hl ⟨_, List.mem_cons_self, by simp [h0], rfl, rfl⟩
    have hold : ¬ Lost s p v := by
      rintro ⟨e, he, hrest⟩
      exact hl ⟨e, List.mem_cons_of_mem _ he, hrest⟩
    rw [evictedTo, if_neg hn0, ← h.contents p v hold, hx]
    exact update_self _ _ _

/-- **An eviction** moves a page out of memory: to a slot, or nowhere if the slot is `0`. -/
theorem evict_spec (h : Inv top place f s) (hi : i < maxFrames)
    (hin : (s.frameTable i).inUse = true) (hfree : SlotFree s) :
    wp (evict i) (fun _ s' => ∃ q u n, (∃ a, place q u = .page a) ∧
      Inv top (setPlace place q u (evictedTo n)) f s' ∧ s'.userFrames + 1 = s.userFrames ∧
      (∀ q, (s'.procs q).sz = (s.procs q).sz) ∧
      ∀ q' u' m, place q' u' = .slot m → s'.swapSpace m = s.swapSpace m) E s := by
  obtain ⟨q, u, hq, hu, hx⟩ := h.frame i hi hin
  have habs : place q u ≠ .absent := by
    rw [hx]
    simp
  have hdiv : u * pgsize / pgsize = u := Nat.mul_div_cancel u (by decide)
  rw [evict, wp_bind, wp_get]
  refine wp_call (swapOut_spec hfree _) fun o s₁ hs₁ => ?_
  obtain ⟨n, rfl, hn, hun, hs₁⟩ := hs₁
  have hprocs : s₁.procs = s.procs := by rw [hs₁]
  have htab : HasTables s₁ q u := by
    rw [HasTables, hprocs]
    exact h.tables q u habs
  simp only [hq, hu]
  rw [wp_bind, wp_walk (h.lt_maxva habs), hdiv, if_pos htab]
  dsimp only
  rw [wp_bind, wp_modify, hs₁]
  refine wp_call (frameFree_spec (by exact h.count) (by exact h.frameInj) _) fun _ s₃ hs₃ => ?_
  obtain ⟨frames, m, rfl, rfl, hframes, hdec⟩ := hs₃
  rw [wp_bind, wp_kfree (by exact (h.page q u _ hx).1), wp_modify]
  refine ⟨q, u, n, ⟨_, hx⟩, ?_, hdec ⟨i, hi, hin, rfl⟩, fun q' => ?_, fun q' u' m hm => ?_⟩
  · exact (h.evict hx hn hun hframes).modProc_of_pagetable
      (g := fun q => { q with
        pagesEvicted := q.pagesEvicted + 1
        pagesSwappedOut := q.pagesSwappedOut + 1
        residentPages := q.residentPages - 1 }) (fun _ => rfl) q
  · by_cases hq' : q' = q
    · subst hq'
      simp [Kernel.setPte, Kernel.modProc]
    · simp [Kernel.setPte, Kernel.modProc, hq']
  · -- the slot was not free
    have hmn : (m : ℤ) ≠ n := by
      intro he
      have hused := (h.slot q' u' m hm).2.2
      rw [he, hun] at hused
      cases hused
    exact update_of_ne hmn _ _

/-- Nothing is evicted without a free slot. -/
theorem evict_of_not_slotFree (hno : ¬ SlotFree s) (i : ℕ) :
    wp (evict i) (fun _ s' => s' = s) E s := by
  rw [evict, wp_bind, wp_get]
  refine wp_call (swapOut_of_not_slotFree hno _) fun o s₁ hs₁ => ?_
  obtain ⟨rfl, rfl⟩ := hs₁
  exact rfl

/-- `clck_victim` with a full table. -/
theorem clckVictim_of_full (h : Inv top place f s) (hfull : s.userFrames ≥ maxFrames) :
    wp clckVictim (fun o s' => Ticked s s' ∧ ∃ b, o = some b ∧ b < maxFrames ∧
      (s'.frameTable b).inUse = true) E s := by
  refine wp_imp (clckVictim_spec h.count) fun o s' hs' => ?_
  obtain ⟨hsel, -⟩ := hs'
  have hne : s.userFrames ≠ 0 := by
    simp only [maxFrames_eq] at hfull
    omega
  cases o with
  | none => exact absurd ((Counted.eq_zero_iff h.count).mpr (hsel.none_iff.mp rfl)) hne
  | some b => exact ⟨hsel.ticked, b, rfl, hsel.inUse b rfl⟩

/-- The eviction branch of `vmfault` leaves room in the frame table. The pages that are not in
memory are not touched. -/
theorem evictIfFull_spec (h : Inv top place f s) (hfree : s.userFrames ≥ maxFrames → SlotFree s) :
    wp evictIfFull (fun _ s' => ∃ place', Inv top place' f s' ∧
      (∀ q u, (∀ a, place q u ≠ .page a) →
        place' q u = place q u ∧ s'.value q u = s.value q u) ∧
      s'.userFrames < maxFrames ∧ ∀ q, (s'.procs q).sz = (s.procs q).sz) E s := by
  have hle := Counted.le h.count
  rw [evictIfFull, wp_bind, framesFull, wp_bind, wp_get, wp_pure]
  by_cases hfull : s.userFrames ≥ maxFrames
  · rw [decide_eq_true hfull, if_pos rfl]
    refine wp_call (clckVictim_of_full h hfull) fun o s₁ hs₁ => ?_
    obtain ⟨ht, b, rfl, hb, hin⟩ := hs₁
    have hfree₁ : SlotFree s₁ := by
      rw [ht.eq]
      exact hfree hfull
    have huf : s₁.userFrames = s.userFrames := by rw [ht.eq]
    have hprocs : s₁.procs = s.procs := by rw [ht.eq]
    have hswap : s₁.swapSpace = s.swapSpace := by rw [ht.eq]
    refine wp_imp (evict_spec (h.ticked ht) hb hin hfree₁) fun _ s₂ hs₂ => ?_
    obtain ⟨q, u, n, ⟨a, hx⟩, h₂, hdec, hsz₂, hslots⟩ := hs₂
    refine ⟨_, h₂, fun q' u' hno => ?_, by omega, fun q' => by rw [hsz₂, hprocs]⟩
    have hne : ¬ (q' = q ∧ u' = u) := by
      rintro ⟨rfl, rfl⟩
      exact hno a hx
    have hsame : setPlace place q u (evictedTo n) q' u' = place q' u' := setPlace_of_ne hne
    refine ⟨hsame, ?_⟩
    rw [h₂.value_eq, hsame, h.value_eq]
    cases hx' : place q' u' with
    | absent => rfl
    | page b => exact absurd hx' (hno b)
    | slot m => exact (hslots q' u' m hx').trans (congrFun hswap m)
  · rw [decide_eq_false hfull, if_neg Bool.false_ne_true]
    exact ⟨place, h, fun _ _ _ => ⟨rfl, rfl⟩, not_le.mp hfull, fun _ => rfl⟩

/-- The eviction branch with a full table and no free slot. -/
theorem evictIfFull_of_not_slotFree (h : Inv top place f s) (hfull : s.userFrames ≥ maxFrames)
    (hno : ¬ SlotFree s) : wp evictIfFull (fun _ s' => Ticked s s') E s := by
  rw [evictIfFull, wp_bind, framesFull, wp_bind, wp_get, wp_pure, decide_eq_true hfull, if_pos rfl]
  refine wp_call (clckVictim_of_full h hfull) fun o s₁ hs₁ => ?_
  obtain ⟨ht, b, rfl, -, -⟩ := hs₁
  have hno₁ : ¬ SlotFree s₁ := by
    rw [ht.eq]
    exact hno
  refine wp_imp (evict_of_not_slotFree hno₁ b) fun _ s₂ hs₂ => ?_
  rw [hs₂]
  exact ht

end

end Pa3

end Xv6
