import Xv6.Mem.Clock

/-!
# Which pages the frame table covers

`kinit` and `freerange` (`kernel/kalloc.c`) put `NFRAME` pages from the end of the kernel image on
on the free list. The frame table has `NFRAME` entries too, but they are counted from `KERNBASE`,
where the kernel image begins. So each page of kernel image takes an entry away from a page at the
other end of the range, whose index is too large: `track_frame` ignores that page.

`Pool` is the allocator with the pages that it has handed out. Between two calls of the allocator
the rest of the kernel may do anything but touch the free list, and a page that it gives back is
one that it was given.

## Main results

* `kinit_spec` — the free list that `kinit` leaves is that of `bootState`
* `Pool.Covered.step`, `Pool.Covered.run` — if all free pages have an entry, all pages that are ever
  handed out have one
* `managed_tracked_iff` — which is the case exactly if the kernel image ends in its first page
-/

namespace Xv6

namespace Mem

open WeakestPre
open Transition

/-! ### `kinit` -/

/-- The loop of `freerange`, with at most `n` iterations left. -/
def freerangeLoop (paEnd : ℕ) : ℕ → ℕ → M Unit
  | 0, _ => pure ()
  | n + 1, p =>
    if p + pgsize ≤ paEnd then do
      kfree p
      freerangeLoop paEnd n (p + pgsize)
    else pure ()

/-- `freerange` -/
def freerange (paStart paEnd : ℕ) : M Unit :=
  freerangeLoop paEnd (paEnd / pgsize) (pgroundup paStart)

/-- The two loops of `kinit`, over the frame table and over the swap slots. -/
def Kernel.initTables (s : Kernel) : Kernel :=
  { s with
    frames := fun i => if i < nframe then
      { s.frames i with inUse := false, p := none, referenceBit := false } else s.frames i
    swapInUse := fun n => if 0 ≤ n ∧ n < nswapspace then false else s.swapInUse n }

@[simp] theorem Kernel.initTables_kend (s : Kernel) : s.initTables.kend = s.kend := by
  rw [Kernel.initTables]

@[simp] theorem Kernel.initTables_freelist (s : Kernel) : s.initTables.freelist = s.freelist := by
  rw [Kernel.initTables]

/-- `kinit` -/
def kinit : M Unit := do
  modify Kernel.initTables
  let s ← get
  freerange s.kend (s.kend + nframe * pgsize)

section

variable {s : Kernel}

/-- The loop frees the pages that fit, and the last one comes first. -/
theorem freerangeLoop_spec {paEnd n p : ℕ} (hn : (paEnd - p) / pgsize ≤ n) (hal : p % pgsize = 0)
    (hlo : s.kend ≤ p) (hhi : paEnd ≤ phystop) :
    wp (freerangeLoop paEnd n p) (fun _ s' => s'.freelist =
      ((List.range ((paEnd - p) / pgsize)).map fun j => p + j * pgsize).reverse ++ s.freelist)
      (fun _ _ => False) s := by
  have hpos : 0 < pgsize := by simp
  induction n generalizing p s with
  | zero =>
    rw [Nat.le_zero.mp hn]
    rfl
  | succ n ih =>
    rw [freerangeLoop]
    by_cases hp : p + pgsize ≤ paEnd
    · have hcount : (paEnd - p) / pgsize = (paEnd - (p + pgsize)) / pgsize + 1 := by
        rw [← Nat.add_div_right _ hpos]
        congr 1
        omega
      rw [if_pos hp, wp_bind, wp_kfree ⟨hal, hlo, by omega⟩]
      refine wp_imp (ih (by omega) (by simpa using hal) (hlo.trans (Nat.le_add_right _ _)))
        fun _ s' hs' => ?_
      rw [hs', hcount, List.range_succ_eq_map, List.map_cons, List.map_map, List.reverse_cons,
        List.append_assoc, Nat.zero_mul]
      congr 2
      refine List.map_congr_left fun j _ => ?_
      simp only [Function.comp, Nat.succ_mul]
      omega
    · have hzero : (paEnd - p) / pgsize = 0 := Nat.div_eq_of_lt (by omega)
      rw [if_neg hp, hzero]
      rfl

theorem freerange_spec {paStart paEnd : ℕ} (hup : s.kend ≤ pgroundup paStart)
    (hhi : paEnd ≤ phystop) :
    wp (freerange paStart paEnd) (fun _ s' => s'.freelist =
      (freerangePages paStart paEnd).reverse ++ s.freelist) (fun _ _ => False) s :=
  freerangeLoop_spec (Nat.div_le_div_right (Nat.sub_le _ _)) (Nat.mul_mod_left _ _) hup hhi

/-- **`kinit` returns**, and leaves the free list of `bootState`. -/
theorem kinit_spec (hhi : s.kend + nframe * pgsize ≤ phystop) (hfree : s.freelist = [])
    (trampolinePa : ℕ) :
    ∃ s', kinit s = .ok () s' ∧ s'.freelist = (bootState s.kend trampolinePa).freelist := by
  have hup : s.kend ≤ pgroundup s.kend := by
    simp only [phystop_eq, nframe_eq, pgsize_eq] at hhi
    simp only [pgroundup, pgsize_eq]
    omega
  have hspec : wp kinit (fun _ s' => s'.freelist = (bootState s.kend trampolinePa).freelist)
      (fun _ _ => False) s := by
    rw [kinit, wp_bind, wp_modify, wp_bind, wp_get, Kernel.initTables_kend]
    refine wp_imp (freerange_spec (by rwa [Kernel.initTables_kend]) hhi) fun _ s' hs' => ?_
    rw [hs', Kernel.initTables_freelist, hfree, List.append_nil, bootState]
  obtain ⟨u, s', hs'⟩ := exists_ok_of_wp hspec
  exact ⟨s', hs', (wp_ok hspec hs' :)⟩

end

/-! ### The entries of the pages -/

/-- The pages that `kinit` frees. -/
theorem mem_boot_freelist {kend trampolinePa pa : ℕ} (hhi : kend + nframe * pgsize ≤ phystop) :
    pa ∈ (bootState kend trampolinePa).freelist ↔
      pa % 4096 = 0 ∧ kend ≤ pa ∧ pa + 4096 ≤ kend + 512 * 4096 := by
  simp only [phystop_eq, nframe_eq, pgsize_eq] at hhi
  simp only [bootState, freerangePages, List.mem_reverse, List.mem_map, List.mem_range, pgroundup,
    pgsize_eq, nframe_eq]
  constructor
  · rintro ⟨j, hj, rfl⟩
    omega
  · rintro ⟨h0, h1, h2⟩
    exact ⟨(pa - (kend + 4096 - 1) % 2 ^ 64 / 4096 * 4096) / 4096, by omega, by omega⟩

/-- The page that `kalloc` returns first is the last one of the range. -/
theorem boot_freelist_eq_cons {kend : ℕ} (trampolinePa : ℕ)
    (hhi : kend + nframe * pgsize ≤ phystop) :
    ∃ rest, (bootState kend trampolinePa).freelist
      = (kend + 511 * 4096) / 4096 * 4096 :: rest := by
  simp only [phystop_eq, nframe_eq, pgsize_eq] at hhi
  simp only [bootState, freerangePages, pgroundup, pgsize_eq, nframe_eq]
  obtain ⟨m, hm⟩ : ∃ m, (kend + 512 * 4096 - (kend + 4096 - 1) % 2 ^ 64 / 4096 * 4096) / 4096
      = m + 1 :=
    ⟨(kend + 512 * 4096 - (kend + 4096 - 1) % 2 ^ 64 / 4096 * 4096) / 4096 - 1, by omega⟩
  rw [hm, List.range_succ, List.map_append, List.reverse_append]
  refine ⟨_, congrArg (· :: _) ?_⟩
  dsimp only
  omega

/-- The page has an entry in the frame table. -/
def HasEntry (pa : ℕ) : Prop := kernbase ≤ pa ∧ pa < phystop ∧ frameIndex pa < nframe

/-- A page of physical memory below `KERNBASE` has a very large index. -/
theorem hasEntry_of_index {pa : ℕ} (hhi : pa < phystop) (h : frameIndex pa < nframe) :
    HasEntry pa := by
  refine ⟨?_, hhi, h⟩
  simp only [phystop_eq] at hhi
  simp only [frameIndex, kernbase_eq, pgsize_eq, nframe_eq] at h ⊢
  omega

theorem HasEntry.index_mod {pa : ℕ} (h : HasEntry pa) : frameIndex pa % 2 ^ 32 = frameIndex pa := by
  have := h.2.2
  simp only [nframe_eq] at this
  omega

/-- `track_frame` ignores a page that has no entry. -/
theorem trackFrame_of_not_hasEntry {pa : ℕ} (h : ¬ HasEntry pa) (p : Option ℕ) (va : ℕ)
    (s : Kernel) : trackFrame p va pa s = .ok () s := by
  rw [trackFrame, bind_of_ok (show (get : M Kernel) s = .ok s s from rfl)]
  by_cases hin : pa < kernbase ∨ pa ≥ phystop
  · rw [if_pos hin]
    rfl
  · rw [if_neg hin, if_pos]
    · rfl
    · by_contra hge
      push Not at hin hge
      refine h ⟨hin.1, hin.2, ?_⟩
      simp only [kernbase_eq, phystop_eq] at hin
      simp only [frameIndex, kernbase_eq, pgsize_eq, nframe_eq] at hge ⊢
      omega

/-- Whatever is to be stored for the page, `track_frame` stores it in the entry of the page. -/
def Recorded (pa : ℕ) : Prop := ∀ p va s s', trackFrame p va pa s = .ok () s' →
  s'.frames (frameIndex pa % 2 ^ 32) = ⟨true, p, true, va⟩

theorem recorded_iff {pa : ℕ} : Recorded pa ↔ HasEntry pa := by
  constructor
  · intro hrec
    by_contra hno
    cases hrec none 0 _ _ (trackFrame_of_not_hasEntry hno none 0 (bootState 0 0))
  · intro hent p va s s' hs'
    have hspec : wp (trackFrame p va pa)
        (fun _ s' => s'.frames (frameIndex pa % 2 ^ 32) = ⟨true, p, true, va⟩) (fun _ _ => True)
        s := by
      rw [trackFrame, wp_bind, wp_get, if_neg (by have := hent.1; have := hent.2.1; omega),
        hent.index_mod, if_neg (not_le.mpr hent.2.2), wp_set]
      exact Function.update_self _ _ _
    exact (wp_ok hspec hs' :)

/-! ### Pages in circulation -/

/-- The kernel, with the pages that `kalloc` has returned so far. -/
structure Pool where
  kernel : Kernel
  handed : List ℕ

inductive PoolAct where
  | kalloc
  | kfree (pa : ℕ)
  /-- The rest of the kernel works. -/
  | work (s : Kernel)

/-- A call of the allocator, or work that leaves the free list alone. A page is freed by somebody
to whom it was handed out. -/
def Pool.step (h : Pool) : PoolAct → Option Pool
  | .kalloc =>
    match Mem.kalloc h.kernel with
    | .ok pa s => some ⟨s, pa :: h.handed⟩
    | .error _ _ => none
  | .kfree pa =>
    if pa ∈ h.handed then
      match Mem.kfree pa h.kernel with
      | .ok _ s => some ⟨s, h.handed⟩
      | .error _ _ => none
    else none
  | .work s => if s.freelist = h.kernel.freelist then some ⟨s, h.handed⟩ else none

/-- Every page in circulation has an entry in the frame table. -/
structure Pool.Covered (h : Pool) : Prop where
  free : ∀ pa ∈ h.kernel.freelist, HasEntry pa
  handed : ∀ pa ∈ h.handed, HasEntry pa

section

variable {s : Kernel}

/-- A page that is evicted has an entry, or the visit would not have found its bit. -/
theorem evictLoop_covered {fuel : ℕ} (hfree : s.freelist = []) :
    wp (evictLoop (kallocN 1) fuel) (fun pa s' => HasEntry pa ∧ s'.freelist = [])
      (fun _ _ => True) s := by
  induction fuel generalizing s with
  | zero => trivial
  | succ fuel ih =>
    rw [evictLoop, wp_bind]
    refine wp_mono clockStep_visit (fun victim s' hstep => ?_) fun _ _ _ => trivial
    cases hstep.1 with
    | skip hlook => exact ih hfree
    | pass j hlook hbit => exact ih hfree
    | stop j p b hlook hj hbit hp hlow =>
      obtain ⟨q, -, hq, -, -, hidx⟩ := lookAt_eq_some.mp hlook
      obtain rfl : p = q := Option.some.inj (hp.symm.trans hq)
      refine wp_evictVictim (congrArg pte2pa (readPte_low hlow)) (fun s₁ _ hman hev => ?_)
        (fun _ _ => trivial) fun _ _ => trivial
      rw [wp_kallocN_cons hev.freelist]
      exact ⟨hasEntry_of_index hman.2.2 (by rw [hidx]; exact hj), hfree⟩

/-- What `kalloc` returns has an entry if every free page has one. -/
theorem kalloc_covered (hfree : ∀ pa ∈ s.freelist, HasEntry pa) :
    wp kalloc (fun pa s' => HasEntry pa ∧ ∀ a ∈ s'.freelist, HasEntry a) (fun _ _ => True) s := by
  rw [kalloc, kallocN, wp_bind, wp_get]
  cases hf : s.freelist with
  | nil =>
    refine wp_mono (evictLoop_covered hf) (fun pa s' hpa => ⟨hpa.1, ?_⟩) fun _ _ _ => trivial
    rw [hpa.2]
    simp
  | cons a rest =>
    rw [hf] at hfree
    exact ⟨hfree a List.mem_cons_self, fun b hb => hfree b (List.mem_cons_of_mem a hb)⟩

end

/-- **Pages in circulation stay covered.** -/
theorem Pool.Covered.step {h h' : Pool} {a : PoolAct} (hc : h.Covered) (hs : h.step a = some h') :
    h'.Covered := by
  cases a with
  | kalloc =>
    simp only [Pool.step] at hs
    split at hs
    · rename_i pa s hok
      cases hs
      obtain ⟨hpa, hfree⟩ := wp_ok (kalloc_covered hc.free) hok
      refine ⟨hfree, fun b hb => ?_⟩
      rcases List.mem_cons.mp hb with rfl | hb
      · exact hpa
      · exact hc.handed b hb
    · cases hs
  | kfree pa =>
    simp only [Pool.step, Option.ite_none_right_eq_some] at hs
    obtain ⟨hmem, hs⟩ := hs
    split at hs
    · rename_i s hok
      cases hs
      have hspec : wp (Mem.kfree pa) (fun _ s' => s'.freelist = pa :: h.kernel.freelist)
          (fun _ _ => True) h.kernel := by
        rw [Mem.kfree, wp_bind, wp_get, wp_ite]
        exact ⟨fun _ => trivial, fun _ => rfl⟩
      refine ⟨fun b hb => ?_, hc.handed⟩
      rw [wp_ok hspec hok] at hb
      rcases List.mem_cons.mp hb with rfl | hb
      · exact hc.handed b hmem
      · exact hc.free b hb
    · cases hs
  | work s =>
    simp only [Pool.step, Option.ite_none_right_eq_some, Option.some.injEq] at hs
    obtain ⟨hfree, rfl⟩ := hs
    exact ⟨by rw [hfree]; exact hc.free, hc.handed⟩

theorem Pool.Covered.run {h h' : Pool} {acts : List PoolAct} (hc : h.Covered)
    (hrun : run Pool.step acts h = some h') : h'.Covered :=
  run_invariant (C := fun _ _ => True) (fun _ _ _ hc _ hs => hc.step hs) hc
    (meets_true _ _) hrun

/-- **All managed memory is tracked** exactly if the kernel image ends in its first page. For every
end of the kernel image with room for `NFRAME` pages behind it: `kinit` returns; every page on the
free list has an index below `NFRAME` exactly under that condition, and exactly under it
`track_frame` records every page that `kalloc` ever returns. Two pages never have the same index. -/
theorem managed_tracked_iff {s : Kernel} (hlo : kernbase ≤ s.kend)
    (hhi : s.kend + nframe * pgsize ≤ phystop) (hfree : s.freelist = []) :
    ∃ s', kinit s = .ok () s' ∧
      ((∀ pa ∈ s'.freelist, frameIndex pa < nframe) ↔ s.kend < kernbase + pgsize) ∧
      ((∀ acts h, run Pool.step acts ⟨s', []⟩ = some h → ∀ pa ∈ h.handed, Recorded pa) ↔
        s.kend < kernbase + pgsize) ∧
      ∀ a ∈ s'.freelist, ∀ b ∈ s'.freelist, frameIndex a = frameIndex b → a = b := by
  obtain ⟨s', hs', hlist⟩ := kinit_spec hhi hfree 0
  have hmem : ∀ pa, pa ∈ s'.freelist ↔
      pa % 4096 = 0 ∧ s.kend ≤ pa ∧ pa + 4096 ≤ s.kend + 512 * 4096 := by
    intro pa
    rw [hlist]
    exact mem_boot_freelist hhi
  have hrange : ∀ pa ∈ s'.freelist, kernbase ≤ pa ∧ pa < phystop := by
    intro pa hpa
    obtain ⟨-, h1, h2⟩ := (hmem pa).mp hpa
    simp only [phystop_eq, nframe_eq, pgsize_eq] at hhi ⊢
    omega
  have hindex : ∀ pa ∈ s'.freelist, frameIndex pa = (pa - kernbase) / 4096 := by
    intro pa hpa
    obtain ⟨h1, h2⟩ := hrange pa hpa
    simp only [kernbase_eq, phystop_eq] at h1 h2
    simp only [frameIndex, kernbase_eq, pgsize_eq]
    omega
  obtain ⟨rest, hcons⟩ := boot_freelist_eq_cons 0 hhi
  rw [← hlist] at hcons
  generalize hlast : (s.kend + 511 * 4096) / 4096 * 4096 = last at hcons
  have hlastMem : last ∈ s'.freelist := by
    rw [hcons]
    exact List.mem_cons_self
  -- the last page has the largest index
  have hend : frameIndex last < nframe → s.kend < kernbase + pgsize := by
    rw [hindex last hlastMem, nframe_eq]
    simp only [kernbase_eq, pgsize_eq] at hlo ⊢
    omega
  have hcov : s.kend < kernbase + pgsize → ∀ pa ∈ s'.freelist, frameIndex pa < nframe := by
    intro hlt pa hpa
    obtain ⟨h0, h1, h2⟩ := (hmem pa).mp hpa
    rw [hindex pa hpa, nframe_eq]
    simp only [kernbase_eq, pgsize_eq] at hlo hlt ⊢
    omega
  refine ⟨s', hs', ⟨fun hall => hend (hall last hlastMem), hcov⟩, ⟨fun hrec => ?_, ?_⟩,
    fun a ha b hb hab => ?_⟩
  · have hspec : wp kalloc (fun pa _ => pa = last) (fun _ _ => False) s' := by
      rw [kalloc, wp_kallocN_cons hcons]
    obtain ⟨pa, s₁, hok⟩ := exists_ok_of_wp hspec
    obtain rfl := wp_ok hspec hok
    have hrun : run Pool.step [.kalloc] ⟨s', []⟩ = some ⟨s₁, [pa]⟩ := by
      simp [run, Pool.step, hok]
    exact hend (recorded_iff.mp (hrec _ _ hrun pa (by simp))).2.2
  · intro hlt acts h hrun pa hpa
    have hc : Pool.Covered ⟨s', []⟩ :=
      ⟨fun a ha => ⟨(hrange a ha).1, (hrange a ha).2, hcov hlt a ha⟩, by simp⟩
    exact recorded_iff.mpr ((hc.run hrun).handed pa hpa)
  · rw [hindex a ha, hindex b hb] at hab
    have h0 := ((hmem a).mp ha).1
    have h0' := ((hmem b).mp hb).1
    have h1 := (hrange a ha).1
    have h1' := (hrange b hb).1
    simp only [kernbase_eq] at *
    omega

/-- The machine before `kinit`, with a kernel image of `48` pages. -/
def unbooted : Kernel := { bootState 0x80030000 0 with freelist := [] }

theorem managed_tracked_unbooted : kernbase ≤ unbooted.kend ∧
    unbooted.kend + nframe * pgsize ≤ phystop ∧ unbooted.freelist = [] ∧
    ∃ s', kinit unbooted = .ok () s' ∧
      ¬ ∀ acts h, run Pool.step acts ⟨s', []⟩ = some h →
        ∀ pa ∈ h.handed, Recorded pa := by
  have hlo : kernbase ≤ unbooted.kend := by decide
  have hhi : unbooted.kend + nframe * pgsize ≤ phystop := by decide
  obtain ⟨s', hs', -, hiff, -⟩ := managed_tracked_iff hlo hhi rfl
  exact ⟨hlo, hhi, rfl, s', hs', fun hall => absurd (hiff.mp hall) (by decide)⟩

/-- The first page that `kalloc` returns has index `559`, and `track_frame` ignores it. -/
theorem managed_tracked_counterexample : kernbase ≤ unbooted.kend ∧
    unbooted.kend + nframe * pgsize ≤ phystop ∧
    ∃ s' pa s'', kinit unbooted = .ok () s' ∧ kalloc s' = .ok pa s'' ∧ frameIndex pa = 559 ∧
      ∀ p va, trackFrame p va pa s'' = .ok () s'' := by
  obtain ⟨u, s', hs', pa, s'', hok, hidx⟩ : ∃ u s', kinit unbooted = .ok u s' ∧
      ∃ pa s'', kalloc s' = .ok pa s'' ∧ frameIndex pa = 559 := by
    decide +kernel
  have hno : ¬ HasEntry pa := by
    rintro ⟨-, -, hlt⟩
    rw [hidx, nframe_eq] at hlt
    omega
  exact ⟨by decide, by decide, s', pa, s'', hs', hok, hidx, fun p va =>
    trackFrame_of_not_hasEntry hno p va s''⟩

end Mem

end Xv6
