import Mathlib.Algebra.BigOperators.Group.Finset.Piecewise
import Xv6.Lib.Agree
import Xv6.Mem.Frames

/-!
# Counting resident pages

`resident_pages` is meant to be the number of frames that are in use for a process. `track_frame`
adds one when it takes a frame, `evict_pages` takes one off when it clears a frame, and `swap_in`
adds one for a page that is tracked as well, so a page that is swapped in counts twice. The
*surplus* of a process is what is left of the counter when the frames held and the pages swapped in
are taken off.

The functions that allocate leave every surplus as it is (`Balanced`), provided that the allocator
is called only where the frame table is right and no free page is in it (`Orderly`). This is what
the allocator is watched for: each function with the watched allocator agrees with the function
itself until the watch stops it, and leaves the accounts balanced. The functions that only free are
treated in `Xv6.Mem.ResidentPages`.
-/

namespace Xv6

namespace Mem

open WeakestPre
open Function (update update_self update_of_ne)

variable {E : Halt → Kernel → Prop} {a i p : ℕ} {pte : PteRef}

/-! ### Surplus -/

/-- The frame is in use for `p`. -/
def Frame.IsOf (p : ℕ) (f : Frame) : Prop := f.inUse = true ∧ f.p = some p

instance (p : ℕ) : DecidablePred (Frame.IsOf p) := fun f =>
  inferInstanceAs (Decidable (f.inUse = true ∧ f.p = some p))

/-- The number of entries of a frame table that are in use for `p`. -/
def heldIn (frames : ℕ → Frame) (p : ℕ) : ℕ :=
  ((Finset.range nframe).filter fun i => (frames i).IsOf p).card

/-- The number of frames in use for `p`. -/
def held (s : Kernel) (p : ℕ) : ℕ := heldIn s.frames p

/-- What the counter of resident pages has above the frames held and the pages swapped in. -/
def surplus (s : Kernel) (p : ℕ) : ℤ :=
  (s.procs p).residentPages - (s.procs p).pagesSwappedIn - held s p

/-- The surplus of every process is the same, and so are the processes. -/
structure Balanced (s s' : Kernel) : Prop where
  surplus : ∀ p, surplus s' p = surplus s p
  used : ∀ p, (s'.procs p).used = (s.procs p).used

/-- Moreover no frame is taken. -/
structure Quiet (s s' : Kernel) : Prop extends Balanced s s' where
  inUse : ∀ i, (s'.frames i).inUse = true → (s.frames i).inUse = true

section

variable {f f' : ℕ → Frame} {s s' s'' : Kernel}

theorem heldIn_congr (h : ∀ i, (f' i).inUse = (f i).inUse) (hp : ∀ i, (f' i).p = (f i).p) (p : ℕ) :
    heldIn f' p = heldIn f p := by
  have hof : ∀ i, (f' i).IsOf p ↔ (f i).IsOf p := fun i => by
    rw [Frame.IsOf, Frame.IsOf, h, hp]
  simp only [heldIn, hof]

theorem not_isOf_clear (f : Frame) (p : ℕ) : ¬ f.clear.IsOf p :=
  fun h => absurd h.1 (by simp [Frame.clear])

/-- One entry is replaced. -/
theorem heldIn_update (hi : i < nframe) (x : Frame) (p : ℕ) :
    heldIn (update f i x) p + (if (f i).IsOf p then 1 else 0)
      = heldIn f p + if x.IsOf p then 1 else 0 := by
  have hmem : i ∈ Finset.range nframe := Finset.mem_range.mpr hi
  have hrest : ∀ j ∈ (Finset.range nframe).erase i,
      (if (update f i x j).IsOf p then 1 else 0)
        = if (f j).IsOf p then 1 else 0 := fun j hj => by
    rw [update_of_ne (Finset.ne_of_mem_erase hj)]
  simp only [heldIn, Finset.card_filter]
  rw [← Finset.add_sum_erase _ _ hmem, ← Finset.add_sum_erase _ (fun j => if (f j).IsOf p
    then 1 else 0) hmem, Finset.sum_congr rfl hrest, update_self]
  omega

theorem Balanced.refl (s : Kernel) : Balanced s s := ⟨fun _ => rfl, fun _ => rfl⟩

theorem Balanced.trans (h : Balanced s s') (h' : Balanced s' s'') : Balanced s s'' :=
  ⟨fun p => (h'.surplus p).trans (h.surplus p), fun p => (h'.used p).trans (h.used p)⟩

theorem Quiet.refl (s : Kernel) : Quiet s s := ⟨Balanced.refl s, fun _ h => h⟩

theorem Quiet.trans (h : Quiet s s') (h' : Quiet s' s'') : Quiet s s'' :=
  ⟨h.toBalanced.trans h'.toBalanced, fun i hi => h.inUse i (h'.inUse i hi)⟩

/-- Memory, the free list and the swap area do not matter. -/
theorem Quiet.of_eq (hf : s'.frames = s.frames) (hp : s'.procs = s.procs) : Quiet s s' := by
  refine ⟨⟨fun p => ?_, fun p => by rw [hp]⟩, fun i hi => by rwa [← hf]⟩
  rw [surplus, surplus, held, held, hf, hp]

theorem Quiet.writePte (h : Quiet s s') (pte : PteRef) (v : Pte) : Quiet s (s'.writePte pte v) :=
  h.trans (Quiet.of_eq rfl rfl)

theorem Quiet.setPage (h : Quiet s s') (pa : ℕ) (pg : Page) : Quiet s (s'.setPage pa pg) :=
  h.trans (Quiet.of_eq rfl rfl)

/-- The page has no frame that is in use. -/
def Untracked (s : Kernel) (a : ℕ) : Prop :=
  frameIndex a % 2 ^ 32 < nframe → (s.frames (frameIndex a % 2 ^ 32)).inUse = false

instance (s : Kernel) (a : ℕ) : Decidable (Untracked s a) :=
  inferInstanceAs (Decidable (_ → _))

theorem Untracked.quiet (h : Untracked s a) (hq : Quiet s s') : Untracked s' a := fun hlt =>
  Bool.eq_false_of_not_eq_true fun hin => by
    have hno := h hlt
    rw [hq.inUse _ hin] at hno
    cases hno

/-- Another field of a process is updated. -/
theorem Quiet.modProc {f : Proc → Proc} (s : Kernel) (o : Option ℕ)
    (hr : ∀ q, (f q).residentPages = q.residentPages)
    (hs : ∀ q, (f q).pagesSwappedIn = q.pagesSwappedIn) (hu : ∀ q, (f q).used = q.used) :
    Quiet s (s.modProc o f) := by
  cases o with
  | none => exact Quiet.refl s
  | some p =>
    refine ⟨⟨fun q => ?_, fun q => ?_⟩, fun _ h => h⟩ <;> by_cases hq : q = p
    · subst hq
      simp only [Mem.surplus, Kernel.modProc, held, update_self, hr, hs]
    · simp only [Mem.surplus, Kernel.modProc, held, update_of_ne hq]
    · subst hq
      simp [Kernel.modProc, hu]
    · simp [Kernel.modProc, update_of_ne hq]

theorem Balanced.modProc {f : Proc → Proc} (s : Kernel) (o : Option ℕ)
    (hr : ∀ q, (f q).residentPages = q.residentPages)
    (hs : ∀ q, (f q).pagesSwappedIn = q.pagesSwappedIn) (hu : ∀ q, (f q).used = q.used) :
    Balanced s (s.modProc o f) := (Quiet.modProc s o hr hs hu).toBalanced

end

/-! ### The primitives -/

section

variable {s : Kernel}

/-- A walk that allocates nothing changes nothing. -/
theorem walk_none_same {r va : ℕ} :
    wp (walk none r va) (fun _ s' => s' = s) (fun _ _ => True) s := by
  by_cases hva : va < maxva
  · rw [wp_walk_none hva]
  · rw [walk, if_pos (not_lt.mp hva), wp_throw]
    trivial

/-- A page that is swapped in is counted, and taken off again. -/
theorem swapIn_balanced (pa : ℕ) (slot : ℤ) : wp (swapIn pa slot) (fun _ s' => Quiet s s') E s := by
  rw [swapIn, wp_modify]
  cases hmy : s.myproc with
  | none => exact ⟨⟨fun _ => rfl, fun _ => rfl⟩, fun _ h => h⟩
  | some p =>
    refine ⟨⟨fun q => ?_, fun q => ?_⟩, fun _ h => h⟩ <;> by_cases hq : q = p
    · subst hq
      simp only [surplus, Kernel.modProc, held, update_self]
      omega
    · simp only [surplus, Kernel.modProc, held, update_of_ne hq]
    · subst hq
      simp [Kernel.modProc]
    · simp [Kernel.modProc, update_of_ne hq]

/-- **A frame is taken**: the owner gets a frame and one on its counter. -/
theorem trackFrame_balanced (h : Untracked s a) (o : Option ℕ) (va : ℕ) :
    wp (trackFrame o va a) (fun _ s' => Balanced s s') E s := by
  rw [trackFrame, wp_bind, wp_get]
  refine wp_ite.mpr ⟨fun _ => Balanced.refl s, fun _ =>
    wp_ite.mpr ⟨fun _ => Balanced.refl s, fun hlt => ?_⟩⟩
  have hlt := not_le.mp hlt
  have hno := h hlt
  rw [if_pos hno, wp_set]
  have hheld := heldIn_update (f := s.frames) hlt ⟨true, o, true, va⟩
  simp only [Frame.IsOf, hno, Bool.false_eq_true, false_and, if_false, true_and] at hheld
  cases o with
  | none =>
    refine ⟨fun q => ?_, fun _ => rfl⟩
    have := hheld q
    simp only [reduceCtorEq, if_false] at this
    simp only [surplus, Kernel.modProc, held]
    omega
  | some p =>
    refine ⟨fun q => ?_, fun q => ?_⟩
    · have := hheld q
      by_cases hq : q = p
      · subst hq
        simp only [if_true] at this
        simp only [surplus, Kernel.modProc, held, update_self]
        omega
      · rw [if_neg fun he => hq (Option.some.inj he).symm] at this
        simp only [surplus, Kernel.modProc, held, update_of_ne hq]
        omega
    · by_cases hq : q = p
      · subst hq
        simp [Kernel.modProc]
      · simp [Kernel.modProc, update_of_ne hq]

/-- **A frame is cleared** by eviction: its owner loses a frame and one on its counter. -/
theorem evicted_quiet (hi : i < nframe) (hin : (s.frames i).IsOf p) : Quiet s
    (Kernel.modProc (s.frames i).p
      (fun p => { p with
        pagesEvicted := p.pagesEvicted + 1
        residentPages := p.residentPages - 1 })
      { s with frames := update s.frames i (s.frames i).clear }) := by
  have hheld := heldIn_update (f := s.frames) hi (s.frames i).clear
  rw [hin.2]
  refine ⟨⟨fun q => ?_, fun q => ?_⟩, fun j hj => ?_⟩
  · have := hheld q
    rw [if_neg (not_isOf_clear _ q)] at this
    by_cases hq : q = p
    · subst hq
      rw [if_pos hin] at this
      simp only [surplus, Kernel.modProc, held, update_self]
      omega
    · rw [if_neg fun hc : (s.frames i).IsOf q =>
        hq (Option.some.inj (hc.2.symm.trans hin.2))] at this
      simp only [surplus, Kernel.modProc, held, update_of_ne hq]
      omega
  · by_cases hq : q = p
    · subst hq
      simp [Kernel.modProc]
    · simp [Kernel.modProc, update_of_ne hq]
  · by_cases hj' : j = i
    · subst hj'
      simp [Kernel.modProc, Frame.clear] at hj
    · simpa [Kernel.modProc, update_of_ne hj'] using hj

end

/-! ### The allocator -/

/-- The frame table is right, and no free page is in it. -/
def Orderly (s : Kernel) : Prop := FrameCoherent s ∧ ∀ a ∈ s.freelist, a ≠ 0 ∧ Untracked s a

instance : DecidablePred Orderly := fun _ => inferInstanceAs (Decidable (_ ∧ _))

/-- What an allocation does to the accounts. -/
def Handed (s : Kernel) (pa : ℕ) (s' : Kernel) : Prop := Quiet s s' ∧ pa ≠ 0 ∧ Untracked s' pa

section

variable {g : Ghost} {s s' : Kernel}

theorem Inv.untracked_of_not_user (h : Inv NoTable g s) (hman : Managed s.kend a)
    (hu : ∀ r k, g.own a ≠ .user r k) : Untracked s a := fun _ =>
  Bool.eq_false_of_not_eq_true fun hin => by
    obtain ⟨p, r, -, -, -, -, hown⟩ := h.frameTable.tracked _ hin
    rw [frameIndex_of_managed h.layout.kend hman] at hown
    exact hu _ _ hown

theorem Inv.orderly (h : Inv NoTable g s) : Orderly s := by
  refine ⟨h.frameCoherent, fun a ha => ?_⟩
  have hfree := (h.layout.free a).mp ha
  have hman := h.managed hfree (by simp)
  exact ⟨hman.ne_zero h.layout.kend, h.untracked_of_not_user hman fun r k => by simp [hfree]⟩

theorem Visited.quiet (h : Visited s s') : Quiet s s' := by
  refine ⟨⟨fun p => ?_, fun p => by rw [h.procs]⟩, fun i hi => (h.inUse i).symm.trans hi⟩
  rw [surplus, surplus, held, held, h.procs, heldIn_congr h.inUse h.p]

/-- A victim is in use for a process. -/
theorem clockStep_victim : wp clockStep (fun victim s' => Visited s s' ∧
    ∀ i pte, victim = some (i, pte) → ∃ p, (s.frames i).IsOf p) (fun _ _ => True) s := by
  refine wp_mono clockStep_visit (fun victim s' hstep => ⟨hstep.1.visited, ?_⟩) fun _ _ _ => trivial
  rintro i pte rfl
  cases hstep.1 with
  | stop j p b hlook hj hbit hp hlow =>
    obtain ⟨-, hin, -⟩ := lookAt_eq_some.mp hlook
    exact ⟨p, hin, hp⟩

theorem kfree_kfreed : wp (kfree a) (fun _ s' => s' = s.kfreed a) (fun _ _ => True) s := by
  rw [kfree, wp_bind, wp_get]
  exact wp_ite.mpr ⟨fun _ => trivial, fun _ => rfl⟩

theorem clearFrame_inUse_self (frames : ℕ → Frame) (ha : frameIndex a % 2 ^ 32 < nframe) :
    (clearFrame a frames (frameIndex a % 2 ^ 32)).inUse = false := by
  rw [clearFrame, if_pos ha, update_self]
  rfl

theorem untracked_kfreed (s : Kernel) (a : ℕ) : Untracked (s.kfreed a) a :=
  clearFrame_inUse_self s.frames

theorem heldIn_clear {frames : ℕ → Frame} (hi : i < nframe) (hno : (frames i).inUse = false) :
    heldIn (update frames i (frames i).clear) p = heldIn frames p := by
  have hof : ¬ (frames i).IsOf p := fun hf => by
    rw [hf.1] at hno
    cases hno
  have hupd := heldIn_update (f := frames) hi (frames i).clear p
  rwa [if_neg hof, if_neg (not_isOf_clear _ p), Nat.add_zero, Nat.add_zero] at hupd

/-- A page without a frame is freed. -/
theorem Untracked.kfreed (h : Untracked s a) : Quiet s (s.kfreed a) := by
  have hheld : ∀ p, heldIn (clearFrame a s.frames) p = heldIn s.frames p := fun p => by
    rw [clearFrame]
    split
    · exact heldIn_clear ‹_› (h ‹_›)
    · rfl
  refine ⟨⟨fun p => ?_, fun _ => rfl⟩, fun i hi => ?_⟩
  · rw [surplus, surplus, held, held, ← hheld]
    rfl
  · rwa [show (s.kfreed a).frames i = s.frames i from clearFrame_of_inUse hi] at hi

theorem swapOut_quiet {pa : ℕ} :
    wp (swapOut pa) (fun _ s' => Quiet s s' ∧ s'.frames = s.frames) E s := by
  rw [swapOut, wp_bind, wp_get]
  cases firstFreeSlot s.swapInUse 0 nswapspace with
  | none => exact ⟨Quiet.refl s, rfl⟩
  | some n =>
    simp only [wp_bind, wp_set, wp_pure, Kernel.modProc_frames, and_true]
    refine (Quiet.of_eq ?_ ?_).trans (Quiet.modProc _ s.myproc (fun _ => rfl) (fun _ => rfl)
      fun _ => rfl) <;> rfl

/-- **Eviction**: the frame of the victim is that of its page. -/
theorem evictVictim_handed (hi : i < nframe) (hof : (s.frames i).IsOf p)
    (hpa : pte2pa (s.readPte pte) = kernbase + i * pgsize) :
    wp (evictVictim (kallocN 1) i pte) (fun pa s' => Handed s pa s') (fun _ _ => True) s := by
  rw [evictVictim, wp_bind, wp_get, wp_bind, wp_modify]
  refine wp_call swapOut_quiet fun index s₁ hout => wp_ite.mpr ⟨fun _ => ?_, fun _ => trivial⟩
  obtain ⟨hq, hframes⟩ := hout
  obtain ⟨s₂, hs₂⟩ : ∃ s₂, s₁.writePte pte (slotPte index (s₁.readPte pte)) = s₂ := ⟨_, rfl⟩
  have hq₂ : Quiet s s₂ := by
    rw [← hs₂]
    exact (((Quiet.refl s).writePte _ _).trans hq).writePte _ _
  have hof₂ : (s₂.frames i).IsOf p := by
    rw [← hs₂, show (s₁.writePte pte _).frames = s.frames from hframes]
    exact hof
  rw [wp_bind, wp_modify, hs₂, wp_bind, wp_modify]
  have hev := evicted_quiet hi hof₂
  generalize hs₃ : Kernel.modProc (s₂.frames i).p _ _ = s₃ at hev ⊢
  have hframe : s₃.frames i = (s₂.frames i).clear := by
    rw [← hs₃]
    simp
  have hun : Untracked s₃ (pte2pa (s.readPte pte)) := fun _ => by
    rw [hpa, pgsize_eq, frameIndex_kernbase hi, Nat.mod_eq_of_lt (hi.trans (by simp)), hframe]
    rfl
  refine wp_call kfree_kfreed fun _ s₄ hs₄ => ?_
  rw [hs₄, kallocN, wp_bind, wp_get]
  refine ⟨((hq₂.trans hev).trans hun.kfreed).trans (Quiet.of_eq rfl rfl), ?_,
    untracked_kfreed s₃ _⟩
  rw [hpa]
  simp

theorem evictLoop_handed {fuel : ℕ} (h : FrameCoherent s) :
    wp (evictLoop (kallocN 1) fuel) (fun pa s' => Handed s pa s') (fun _ _ => True) s := by
  induction fuel generalizing s with
  | zero => trivial
  | succ fuel ih =>
    rw [evictLoop, wp_bind]
    refine wp_mono (wp_and h.clockStep_spec clockStep_victim) (fun victim s₁ hv => ?_)
      fun _ _ _ => trivial
    obtain ⟨⟨hc, hpage⟩, hv, hof⟩ := hv
    cases victim with
    | none => exact wp_imp (ih hc) fun _ _ hh => ⟨hv.quiet.trans hh.1, hh.2⟩
    | some v =>
      obtain ⟨i, pte⟩ := v
      obtain ⟨hi, hpa, -⟩ := hpage i pte rfl
      obtain ⟨p, hin, hp⟩ := hof i pte rfl
      exact wp_imp (evictVictim_handed hi ⟨(hv.inUse i).trans hin, (hv.p i).trans hp⟩ hpa)
        fun _ _ hh => ⟨hv.quiet.trans hh.1, hh.2⟩

/-- **`kalloc`** in an orderly state. -/
theorem kalloc_handed (h : Orderly s) :
    wp kalloc (fun pa s' => Handed s pa s') (fun _ _ => True) s := by
  rw [kalloc, kallocN, wp_bind, wp_get]
  cases hf : s.freelist with
  | nil => exact evictLoop_handed h.1
  | cons a rest =>
    obtain ⟨h0, hun⟩ := h.2 a (by rw [hf]; exact List.mem_cons_self)
    exact ⟨Quiet.of_eq rfl rfl, h0, hun⟩

end

/-- The allocator, watched for order. -/
def orderlyKalloc : M ℕ := watch Orderly kalloc

/-- What stops the watched allocator. -/
abbrev unwatched : Halt := .panic "watch"

theorem orderlyKalloc_spec : Allocates NoTable orderlyKalloc :=
  watch_spec kalloc_spec fun h => h.orderly

theorem orderlyKalloc_agree (s : Kernel) : agree unwatched orderlyKalloc kalloc (Handed s) s := by
  rw [orderlyKalloc, watch]
  show agree unwatched (if Orderly s then kalloc else throw unwatched) kalloc (Handed s) s
  by_cases h : Orderly s
  · rw [if_pos h]
    exact agree_self (kalloc_handed h)
  · rw [if_neg h]
    exact agree_stop

/-! ### Mapping -/

section

variable {s : Kernel}

theorem walkLevel_agree (level va r : ℕ) :
    agree unwatched (walkLevel (some orderlyKalloc) level va r) (walkLevel (some kalloc) level va r)
      (fun o s' => Quiet s s' ∧ o.isSome = true) s := by
  refine agree_get.mpr (agree_ite (fun _ => agree_pure ⟨Quiet.refl s, rfl⟩) fun _ => ?_)
  refine (orderlyKalloc_agree s).bind fun page s₁ h => ?_
  rw [if_neg h.2.1]
  exact agree_modify.mpr (agree_pure ⟨(h.1.setPage _ _).writePte _ _, rfl⟩)

theorem walk_agree (r va : ℕ) :
    agree unwatched (walk (some orderlyKalloc) r va) (walk (some kalloc) r va)
      (fun o s' => Quiet s s' ∧ o.isSome = true) s := by
  refine agree_ite (fun _ => agree_throw) fun _ => (walkLevel_agree 2 va r).bind fun o s₁ h => ?_
  obtain ⟨t, rfl⟩ := Option.isSome_iff_exists.mp h.2
  refine (walkLevel_agree 1 va t).bind fun o s₂ h₂ => ?_
  obtain ⟨t', rfl⟩ := Option.isSome_iff_exists.mp h₂.2
  exact agree_pure ⟨h.1.trans h₂.1, rfl⟩

theorem mappagesLoop_agree (r : ℕ) (perm : Pte) (n a pa : ℕ) :
    agree unwatched (mappagesLoop orderlyKalloc r perm n a pa) (mappagesLoop kalloc r perm n a pa)
      (fun ret s' => Quiet s s' ∧ ret = 0) s := by
  induction n generalizing a pa s with
  | zero =>
    rw [mappagesLoop, mappagesLoop]
    refine (walk_agree r a).bind fun o s₁ h => ?_
    obtain ⟨pte, rfl⟩ := Option.isSome_iff_exists.mp h.2
    refine agree_get.mpr (agree_ite (fun _ => agree_throw) fun _ => ?_)
    exact agree_modify.mpr (agree_pure ⟨h.1.writePte _ _, rfl⟩)
  | succ n ih =>
    rw [mappagesLoop, mappagesLoop]
    refine (walk_agree r a).bind fun o s₁ h => ?_
    obtain ⟨pte, rfl⟩ := Option.isSome_iff_exists.mp h.2
    refine agree_get.mpr (agree_ite (fun _ => agree_throw) fun _ => ?_)
    exact agree_modify.mpr ((ih _ _).mono fun _ _ hl => ⟨(h.1.writePte _ _).trans hl.1, hl.2⟩)

theorem mappages_agree (r va size pa : ℕ) (perm : Pte) :
    agree unwatched (mappages orderlyKalloc r va size pa perm) (mappages kalloc r va size pa perm)
      (fun ret s' => Quiet s s' ∧ ret = 0) s :=
  agree_ite (fun _ => agree_throw) fun _ => agree_ite (fun _ => agree_throw) fun _ =>
    agree_ite (fun _ => agree_throw) fun _ => mappagesLoop_agree r perm _ va pa

theorem getMyproc_same : wp getMyproc (fun _ s' => s' = s) (fun _ _ => True) s := by
  rw [getMyproc, wp_bind, wp_get]
  cases s.myproc <;> trivial

theorem ismapped_same {r va : ℕ} : wp (ismapped r va) (fun _ s' => s' = s) (fun _ _ => True) s := by
  rw [ismapped]
  refine wp_call walk_none_same fun o s₁ hs => ?_
  cases o <;> exact hs

/-- The frame of a page that has been allocated is taken. -/
theorem Handed.track {s₁ s₂ : Kernel} {mem : ℕ} (h : Handed s mem s₁) (hq : Quiet s₁ s₂)
    (o : Option ℕ) (va : ℕ) : wp (trackFrame o va mem) (fun _ s' => Balanced s s') E s₂ :=
  wp_imp (trackFrame_balanced (h.2.2.quiet hq) o va)
    fun _ _ ht => (h.1.trans hq).toBalanced.trans ht

/-- Both map the page, and nothing that is watched happens. -/
theorem Quiet.map {α : Type} {s₁ s₂ : Kernel} {mem r va : ℕ} {perm : Pte} {f f' : ℤ → M α}
    {Q : α → Kernel → Prop} (hq : Quiet s₁ s₂)
    (hf : ∀ s₃, Quiet s₁ s₃ → agree unwatched (f 0) (f' 0) Q s₃) :
    agree unwatched (mappages orderlyKalloc r va pgsize mem perm >>= f)
      (mappages kalloc r va pgsize mem perm >>= f') Q s₂ :=
  (mappages_agree _ _ _ _ _).bind fun ret s₃ hm => by
    obtain ⟨hm, rfl⟩ := hm
    exact hf s₃ (hq.trans hm)

theorem vmfault_agree (r va : ℕ) :
    agree unwatched (vmfault orderlyKalloc r va) (vmfault kalloc r va)
      (fun _ s' => Balanced s s') s := by
  have hidle : Balanced s s := Balanced.refl s
  rw [vmfault, vmfault]
  refine agree_call getMyproc_same fun p s' hs => ?_
  subst hs
  refine agree_get.mpr (agree_ite (fun _ => agree_pure hidle) fun _ => ?_)
  refine agree_call ismapped_same fun b s' hs => ?_
  subst hs
  refine agree_ite (fun _ => agree_pure hidle) fun _ => ?_
  refine (orderlyKalloc_agree s').bind fun mem s₁ h => ?_
  simp only [if_neg h.2.1, pure_bind]
  refine agree_modify.mpr (((Quiet.refl s₁).setPage _ _).map fun s₂ hq => ?_)
  rw [if_neg (by simp)]
  exact agree_call (h.track hq _ _) fun _ _ ht => agree_pure ht

theorem userPage_same : wp (userPage pte) (fun _ s' => s' = s) E s := by
  rw [userPage, wp_bind, wp_get]
  exact wp_ite.mpr ⟨fun _ => rfl, fun _ => rfl⟩

theorem walkaddr_agree (r va : ℕ) : agree unwatched (walkaddr orderlyKalloc r va)
    (walkaddr kalloc r va) (fun _ s' => Balanced s s') s := by
  have hidle : Balanced s s := Balanced.refl s
  refine agree_ite (fun _ => agree_pure hidle) fun _ => ?_
  refine agree_call walk_none_same fun o s' hs => ?_
  subst hs
  cases o with
  | none => exact agree_pure hidle
  | some pte =>
    refine agree_get.mpr (agree_ite (fun _ => ?_) fun _ => agree_ite (fun _ => ?_) fun _ =>
      agree_pure hidle)
    · exact agree_self (wp_imp userPage_same fun _ _ hs => hs ▸ hidle)
    · refine (orderlyKalloc_agree s').bind fun mem s₁ h => ?_
      rw [if_neg h.2.1]
      refine agree_get.mpr (agree_call (swapIn_balanced _ _) fun _ s₂ hq => agree_modify.mpr ?_)
      refine agree_self (wp_imp userPage_same fun _ _ hs => ?_)
      subst hs
      exact ((h.1.trans hq).writePte _ _).toBalanced

theorem copyPage_agree (r va : ℕ) : agree unwatched (copyPage orderlyKalloc r va)
    (copyPage kalloc r va) (fun _ s' => Balanced s s') s := by
  refine (walkaddr_agree r va).bind fun pa s₁ h => agree_ite (fun _ => ?_) fun _ => agree_pure h
  exact (vmfault_agree r va).mono fun _ _ h' => h.trans h'

theorem copyoutLoop_agree (r n dstva : ℕ) (src : List (BitVec 8)) :
    agree unwatched (copyoutLoop orderlyKalloc r n dstva src) (copyoutLoop kalloc r n dstva src)
      (fun _ s' => Balanced s s') s := by
  induction n generalizing dstva src s with
  | zero => exact agree_pure (Balanced.refl s)
  | succ n ih =>
    have hidle : Balanced s s := Balanced.refl s
    refine agree_ite (fun _ => agree_pure hidle) fun _ => agree_ite (fun _ => agree_pure hidle)
      fun _ => (copyPage_agree r _).bind fun pa s₁ h =>
        agree_ite (fun _ => agree_pure h) fun _ => ?_
    refine agree_call walk_none_same fun o s' hs => ?_
    subst hs
    cases o with
    | none => exact agree_throw
    | some pte =>
      refine agree_get.mpr (agree_ite (fun _ => agree_modify.mpr ?_) fun _ => agree_pure h)
      exact (ih _ _).mono fun _ _ h' => h.trans
        (((Quiet.refl _).setPage _ _).toBalanced.trans h')

theorem copyinLoop_agree (r n srcva len : ℕ) (dst : List (BitVec 8)) :
    agree unwatched (copyinLoop orderlyKalloc r n srcva len dst)
    (copyinLoop kalloc r n srcva len dst)
      (fun _ s' => Balanced s s') s := by
  induction n generalizing srcva len dst s with
  | zero => exact agree_pure (Balanced.refl s)
  | succ n ih =>
    refine agree_ite (fun _ => agree_pure (Balanced.refl s)) fun _ => ?_
    refine (copyPage_agree r _).bind fun pa s₁ h => agree_ite (fun _ => agree_pure h) fun _ => ?_
    exact agree_get.mpr ((ih _ _ _).mono fun _ _ h' => h.trans h')

/-! ### Growing -/

theorem uvmallocLoop_agree (r oldsz newsz : ℕ) (xperm : Pte) (n a : ℕ) :
    agree unwatched (uvmallocLoop orderlyKalloc r oldsz newsz xperm n a)
      (uvmallocLoop kalloc r oldsz newsz xperm n a) (fun _ s' => Balanced s s') s := by
  induction n generalizing a s with
  | zero => exact agree_pure (Balanced.refl s)
  | succ n ih =>
    rw [uvmallocLoop, uvmallocLoop]
    refine agree_ite (fun _ => ?_) fun _ => agree_pure (Balanced.refl s)
    refine (orderlyKalloc_agree s).bind fun mem s₁ h => ?_
    simp only [if_neg h.2.1]
    refine agree_modify.mpr (((Quiet.refl s₁).setPage _ _).map fun s₂ hq => ?_)
    rw [if_neg (by simp)]
    refine agree_get.mpr (agree_call (h.track hq _ _) fun _ s₃ ht => ?_)
    exact (ih _).mono fun _ _ h' => ht.trans h'

theorem uvmalloc_agree (r oldsz newsz : ℕ) (xperm : Pte) :
    agree unwatched (uvmalloc orderlyKalloc r oldsz newsz xperm)
    (uvmalloc kalloc r oldsz newsz xperm)
      (fun _ s' => Balanced s s') s :=
  agree_ite (fun _ => agree_pure (Balanced.refl s)) fun _ => uvmallocLoop_agree _ _ _ _ _ _

/-- Only `n ≥ 0` is treated here: nothing is allocated by a process that shrinks. -/
theorem growproc_agree (n : ℤ) : agree unwatched (growproc orderlyKalloc n) (growproc kalloc n)
    (fun _ s' => 0 ≤ n → Balanced s s') s := by
  rw [growproc, growproc]
  refine agree_call getMyproc_same fun p s' hs => ?_
  subst hs
  have hsz : ∀ (s : Kernel) (sz : ℕ),
      Balanced s (s.modProc (some p) fun q => { q with sz := sz }) :=
    fun s _ => Balanced.modProc s _ (fun _ => rfl) (fun _ => rfl) fun _ => rfl
  refine agree_get.mpr (agree_ite (fun _ => agree_ite (fun _ => ?_) fun _ => ?_) fun _ =>
    agree_ite (fun hn => ?_) fun _ => ?_)
  · exact agree_pure fun _ => Balanced.refl s'
  · refine (uvmalloc_agree _ _ _ _).bind fun ret s₁ h => agree_ite (fun _ => agree_pure fun _ => h)
      fun _ => agree_modify.mpr (agree_pure fun _ => h.trans (hsz _ _))
  · exact agree_self (wp_mono (wp_true _ _) (fun _ _ _ h0 => absurd hn (not_lt.mpr h0))
      fun _ _ _ => trivial)
  · exact agree_modify.mpr (agree_pure fun _ => hsz _ _)

theorem sysSbrk_agree (n : ℤ) (eager : Bool) :
    agree unwatched (sysSbrk orderlyKalloc n eager) (sysSbrk kalloc n eager)
      (fun _ s' => 0 ≤ n → Balanced s s') s := by
  rw [sysSbrk, sysSbrk]
  refine agree_call getMyproc_same fun p s' hs => ?_
  subst hs
  have hidle : 0 ≤ n → Balanced s' s' := fun _ => Balanced.refl s'
  refine agree_get.mpr (agree_ite (fun _ => ?_) fun _ => agree_ite (fun _ => agree_pure hidle)
    fun _ => agree_ite (fun _ => agree_pure hidle) fun _ => ?_)
  · exact (growproc_agree n).bind fun ret s₁ h => agree_ite (fun _ => agree_pure h) fun _ =>
      agree_pure h
  · exact agree_modify.mpr (agree_pure fun _ =>
      Balanced.modProc s' _ (fun _ => rfl) (fun _ => rfl) fun _ => rfl)

/-! ### Faults -/

theorem setkilled_balanced (p : ℕ) : wp (setkilled p) (fun _ s' => Balanced s s') E s := by
  rw [setkilled, wp_modify]
  exact Balanced.modProc s _ (fun _ => rfl) (fun _ => rfl) fun _ => rfl

theorem pageFault_agree (stval : ℕ) : agree unwatched (pageFault orderlyKalloc stval)
    (pageFault kalloc stval) (fun _ s' => Balanced s s') s := by
  rw [pageFault, pageFault]
  refine agree_call getMyproc_same fun p s' hs => ?_
  subst hs
  refine agree_modify.mpr (agree_get.mpr ?_)
  have hcount := (Quiet.modProc s' (some p)
    (f := fun q => { q with pageFaults := q.pageFaults + 1 })
    (fun _ => rfl) (fun _ => rfl) fun _ => rfl).toBalanced
  generalize s'.modProc _ _ = s at hcount ⊢
  have hfault : agree unwatched
      (vmfault orderlyKalloc (s.procs p).pagetable stval >>= fun r =>
        if r ≠ 0 then pure () else setkilled p)
      (vmfault kalloc (s.procs p).pagetable stval >>= fun r =>
        if r ≠ 0 then pure () else setkilled p) (fun _ s₁ => Balanced s' s₁) s := by
    refine (vmfault_agree _ _).bind fun r s₁ h => agree_ite (fun _ => ?_) fun _ => ?_
    · exact agree_pure (hcount.trans h)
    · exact agree_self (wp_imp (setkilled_balanced p) fun _ _ hk => (hcount.trans h).trans hk)
  refine agree_call walk_none_same fun o s₁ hs => ?_
  subst hs
  cases o with
  | none => exact hfault
  | some pte =>
    refine agree_get.mpr (agree_ite (fun _ => ?_) fun _ => hfault)
    refine (orderlyKalloc_agree s₁).bind fun mem s₂ h => ?_
    rw [if_neg h.2.1]
    refine agree_get.mpr (agree_call (swapIn_balanced _ _) fun _ s₃ hq => agree_modify.mpr ?_)
    refine agree_self (wp_imp (h.track (hq.writePte _ _) _ _) fun _ _ ht => hcount.trans ht)

theorem userAccess_agree (need : Pte) (va n : ℕ) : agree unwatched
    (userAccess orderlyKalloc need va n) (userAccess kalloc need va n)
    (fun _ s' => Balanced s s') s := by
  induction n generalizing s with
  | zero => exact agree_pure (Balanced.refl s)
  | succ n ih =>
    rw [userAccess, userAccess]
    refine agree_call getMyproc_same fun p s' hs => ?_
    subst hs
    refine agree_get.mpr (agree_ite (fun _ => agree_pure (Balanced.refl s')) fun _ => ?_)
    refine (pageFault_agree va).bind fun _ s₁ h => agree_get.mpr (agree_ite (fun _ => agree_pure h)
      fun _ => ih.mono fun _ _ h' => h.trans h')

theorem userLoad_agree (va : ℕ) : agree unwatched (userLoad orderlyKalloc va) (userLoad kalloc va)
    (fun _ s' => Balanced s s') s := by
  refine (userAccess_agree _ _ _).bind fun o s₁ h => ?_
  cases o with
  | none => exact agree_pure h
  | some pa => exact agree_get.mpr (agree_pure h)

theorem userStore_agree (va : ℕ) (b : BitVec 8) : agree unwatched (userStore orderlyKalloc va b)
    (userStore kalloc va b) (fun _ s' => Balanced s s') s := by
  refine (userAccess_agree _ _ _).bind fun o s₁ h => ?_
  cases o with
  | none => exact agree_pure h
  | some pa =>
    exact agree_modify.mpr (agree_pure (h.trans ((Quiet.refl _).setPage _ _).toBalanced))

end

/-! ### New processes -/

/-- A process starts with counters at zero, and with the frames that are in use for its entry. -/
structure Begun (s : Kernel) (p : ℕ) (s' : Kernel) : Prop where
  unused : (s.procs p).used = false
  self : surplus s' p = -(held s p : ℤ)
  others : ∀ q, q ≠ p → surplus s' q = surplus s q ∧ (s'.procs q).used = (s.procs q).used

/-- What `allocproc` and `kfork` do to the accounts. -/
def Created (s : Kernel) (o : Option ℕ) (s' : Kernel) : Prop :=
  match o with
  | none => Balanced s s'
  | some p => Begun s p s'

section

variable {s : Kernel}

theorem Begun.balanced {s₁ s₂ : Kernel} (h : Begun s p s₁) (hb : Balanced s₁ s₂) : Begun s p s₂ :=
  ⟨h.unused, (hb.surplus p).trans h.self, fun q hq =>
    ⟨(hb.surplus q).trans (h.others q hq).1, (hb.used q).trans (h.others q hq).2⟩⟩

theorem procPagetable_agree (p : ℕ) :
    agree unwatched (procPagetable orderlyKalloc p) (procPagetable kalloc p)
      (fun r s' => Quiet s s' ∧ r ≠ 0) s := by
  rw [procPagetable, procPagetable, uvmcreate, uvmcreate]
  simp only [bind_assoc]
  refine (orderlyKalloc_agree s).bind fun r s₁ h => ?_
  simp only [if_neg h.2.1, bind_assoc, pure_bind]
  refine agree_modify.mpr (agree_get.mpr ?_)
  refine (mappages_agree _ _ _ _ _).bind fun ret s₂ hm => ?_
  obtain ⟨hm, rfl⟩ := hm
  refine agree_get.mpr ((mappages_agree _ _ _ _ _).bind fun ret s₃ hm' => ?_)
  obtain ⟨hm', rfl⟩ := hm'
  exact agree_pure ⟨((h.1.setPage _ _).trans hm).trans hm', h.2.1⟩

theorem allocproc_agree :
    agree unwatched (allocproc orderlyKalloc) (allocproc kalloc) (Created s) s := by
  rw [allocproc, allocproc]
  refine agree_get.mpr ?_
  cases hun : unusedProc s with
  | none => exact agree_pure (Balanced.refl s)
  | some p =>
    refine agree_modify.mpr ?_
    have hbegun : Begun s p (s.modProc (some p) fun q => { q with
        used := true
        pageFaults := 0
        pagesEvicted := 0
        pagesSwappedIn := 0
        pagesSwappedOut := 0
        residentPages := 0
        diskReads := 0
        diskWrites := 0 }) := by
      refine ⟨unusedProc_eq_some hun, ?_, fun q hq => ⟨?_, ?_⟩⟩
      · simp only [surplus, Kernel.modProc, held, update_self]
        rw [sub_self, zero_sub]
      · simp only [surplus, Kernel.modProc, held, update_of_ne hq]
      · simp [Kernel.modProc, update_of_ne hq]
    generalize s.modProc _ _ = s₁ at hbegun ⊢
    refine (orderlyKalloc_agree s₁).bind fun mem s₂ h => ?_
    simp only [if_neg h.2.1]
    refine agree_modify.mpr ((procPagetable_agree p).bind fun r s₃ hr => ?_)
    simp only [if_neg hr.2]
    refine agree_modify.mpr (agree_pure (hbegun.balanced ?_))
    refine (h.1.toBalanced.trans ?_).trans ((hr.1.toBalanced).trans ?_)
    · exact Balanced.modProc s₂ _ (fun _ => rfl) (fun _ => rfl) fun _ => rfl
    · exact Balanced.modProc s₃ _ (fun _ => rfl) (fun _ => rfl) fun _ => rfl

theorem uvmcopyPage_agree (old new np i : ℕ) :
    agree unwatched (uvmcopyPage orderlyKalloc old new np i) (uvmcopyPage kalloc old new np i)
      (fun ok s' => Balanced s s' ∧ ok = true) s := by
  have hidle : Balanced s s := Balanced.refl s
  rw [uvmcopyPage, uvmcopyPage]
  refine agree_call walk_none_same fun o s' hs => ?_
  subst hs
  cases o with
  | none => exact agree_pure ⟨hidle, rfl⟩
  | some pte =>
    refine agree_get.mpr (agree_ite (fun _ => ?_) fun _ => agree_ite (fun _ => ?_) fun _ =>
      agree_pure ⟨hidle, rfl⟩)
    · refine (orderlyKalloc_agree s').bind fun mem s₁ h => ?_
      simp only [if_neg h.2.1]
      refine agree_modify.mpr (((Quiet.refl s₁).setPage _ _).map fun s₂ hq => ?_)
      rw [if_neg (by simp)]
      exact agree_call (h.track hq _ _) fun _ _ ht => agree_pure ⟨ht, rfl⟩
    · refine (orderlyKalloc_agree s').bind fun mem s₁ h => ?_
      simp only [if_neg h.2.1]
      refine agree_call (swapIn_balanced _ _) fun _ s₂ hin => hin.map fun s₃ hq => ?_
      rw [if_neg (by simp)]
      exact agree_call (h.track hq _ _) fun _ _ ht => agree_pure ⟨ht, rfl⟩

theorem uvmcopyLoop_agree (old new np n i : ℕ) :
    agree unwatched (uvmcopyLoop orderlyKalloc old new np n i) (uvmcopyLoop kalloc old new np n i)
      (fun ret s' => Balanced s s' ∧ ret = 0) s := by
  induction n generalizing i s with
  | zero => exact agree_pure ⟨Balanced.refl s, rfl⟩
  | succ n ih =>
    refine (uvmcopyPage_agree old new np i).bind fun ok s₁ h => ?_
    obtain ⟨h, rfl⟩ := h
    exact (ih _).mono fun _ _ h' => ⟨h.trans h'.1, h'.2⟩

theorem kfork_agree : agree unwatched (kfork orderlyKalloc) (kfork kalloc) (Created s) s := by
  rw [kfork, kfork]
  refine agree_call getMyproc_same fun p s' hs => ?_
  subst hs
  refine allocproc_agree.bind fun o s₁ h => ?_
  cases o with
  | none => exact agree_pure h
  | some np =>
    refine agree_get.mpr ((uvmcopyLoop_agree _ _ _ _ _).bind fun ret s₂ hc => ?_)
    obtain ⟨hc, rfl⟩ := hc
    refine agree_modify.mpr (agree_modify.mpr (agree_pure (Begun.balanced h ?_)))
    refine (hc.trans ?_).trans (((Quiet.refl _).setPage _ _).writePte _ _).toBalanced
    exact Balanced.modProc s₂ _ (fun _ => rfl) (fun _ => rfl) fun _ => rfl

end

end Mem

end Xv6
