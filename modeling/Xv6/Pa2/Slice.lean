import Mathlib.Algebra.Order.Ring.Int
import Xv6.Pa2.Sched

/-!
# Demotion after a full slice

In the scheduler of the second assignment the ticks of a slice are counted in one number,
`ticksConsumed`, whatever the level of the process is when they come. The demotion rule compares
that number with the quantum of the level at the end of the slice.

As long as no boost reaches a running process in the middle of its slice (`Undisturbed`), all ticks
of a slice have come at its level (`SliceOk`), and a process is demoted only after it has consumed
the quantum of its level at that level (`demoted_after_full_slice`). A boost in the middle of a
slice moves the process to level 0 and leaves the ticks of the other level in the count
(`demoted_after_full_slice_counterexample`).

## Main results

* `demoted_after_full_slice`, `demoted_after_full_slice_counterexample`
-/

namespace Xv6

namespace Pa2

open Sched (ProcState nproc)
open Transition

variable {i q : ℕ} {p : Proc} {seen : ℤ → ℕ} {st : ProcState}

/-- The count of a slice is the number of ticks at the level; between slices it is zero. -/
structure SliceOk (p : Proc) (seen : ℤ → ℕ) : Prop where
  level : 0 ≤ p.level ∧ p.level ≤ 3
  seen_level : p.state = .running → p.ticksConsumed = seen p.level
  seen_le : p.state = .running → ∀ L, (seen L : ℤ) ≤ p.ticksConsumed
  rest : p.state ≠ .running → p.ticksConsumed = 0

/-- The ticks that a hart may still charge to the slice of its process before it compares the count
with the quantum. -/
def Pc.ahead : Pc → ℤ
  | .record _ | .check _ => 0
  | _ => 1

variable {ι : Type}

/-- What holds in every state as long as no boost comes in the middle of a slice. -/
structure Inv (s : Sys ι) : Prop where
  slice : ∀ i, SliceOk (s.procs i) (s.seen i)
  on : ∀ h i, (s.pc h).proc = some i →
    (s.procs i).state = .running ∧ (s.procs i).ticksConsumed + (s.pc h).ahead ≤ 16
  unique : ∀ h h' i, (s.pc h).proc = some i → (s.pc h').proc = some i → h = h'

/-- The step does not boost a process in the middle of a slice at another level than 0. -/
def Undisturbed (s : Sys ι) : Act ι → Prop
  | .trap h =>
    match s.pc h with
    | .boost _ j => j < nproc → (s.procs j).state = .running →
        (s.procs j).level = 0 ∨ (s.procs j).ticksConsumed = 0
    | _ => True
  | _ => True

instance (s : Sys ι) : ∀ a, Decidable (Undisturbed s a)
  | .trap h =>
    show Decidable (match s.pc h with | .boost _ _ => _ | _ => True) from
    match s.pc h with
    | .boost _ j => inferInstanceAs (Decidable (j < nproc → (s.procs j).state = .running →
        (s.procs j).level = 0 ∨ (s.procs j).ticksConsumed = 0))
    | .top | .scan _ _ | .wfi | .running _ | .count _ | .record _ | .check _ => isTrue trivial
  | .sched _ | .tick _ | .syscall _ | .yield _ | .sleep _ | .exit _ | .wakeup _ | .alloc _
  | .start _ | .free _ => isTrue trivial

/-- Whenever a step raises the level of a process, the process has consumed the quantum of its level
at that level since its last dispatch. -/
def FullSlice [DecidableEq ι] (s : Sys ι) : Prop :=
  ∀ a s' i, s.step a = some s' → (s'.procs i).level = (s.procs i).level + 1 →
    quantum (s.procs i).level ≤ s.seen i (s.procs i).level

theorem quantum_le (level : ℤ) : quantum level ≤ 16 := by
  unfold quantum
  split_ifs <;> decide

theorem SliceOk.nonneg (h : SliceOk p seen) : 0 ≤ p.ticksConsumed := by
  by_cases hr : p.state = .running
  · rw [h.seen_level hr]
    exact Int.natCast_nonneg _
  · exact (h.rest hr).ge

/-- A change of a process that does not run and has not begun a slice. -/
theorem SliceOk.of_not_running (hlevel : 0 ≤ p.level ∧ p.level ≤ 3) (hstate : p.state ≠ .running)
    (hticks : p.ticksConsumed = 0) : SliceOk p seen :=
  ⟨hlevel, fun h => absurd h hstate, fun h => absurd h hstate, fun _ => hticks⟩

theorem SliceOk.boosted (h : SliceOk p seen)
    (hquiet : p.state = .running → p.level = 0 ∨ p.ticksConsumed = 0) : SliceOk p.boosted seen := by
  unfold Proc.boosted
  split
  · refine ⟨by simp, fun hr => ?_, h.seen_le, h.rest⟩
    -- either the level does not change, or there are no ticks at all
    rcases hquiet hr with hl | ht
    · rw [← hl]
      exact h.seen_level hr
    · have := h.seen_le hr 0
      simp only at this ⊢
      omega
  · exact h

theorem SliceOk.endSlice (h : SliceOk p seen) (hst : st ≠ .running) :
    SliceOk { p with state := st }.endSlice seen := by
  refine .of_not_running ?_ hst rfl
  have := h.level
  simp only [Proc.endSlice]
  split <;> omega

theorem SliceOk.consumeTick (h : SliceOk p seen) (hrun : p.state = .running)
    (hle : p.ticksConsumed + 1 ≤ 16) :
    SliceOk p.consumeTick (Function.update seen p.level (seen p.level + 1)) ∧
      p.consumeTick.ticksConsumed = p.ticksConsumed + 1 := by
  have hticks : p.consumeTick.ticksConsumed = p.ticksConsumed + 1 := by
    have := h.nonneg
    exact int32_of_mem (by omega) (by omega)
  refine ⟨⟨h.level, fun _ => ?_, fun _ L => ?_, fun hr => absurd hrun hr⟩, hticks⟩
  · rw [hticks, h.seen_level hrun]
    simp [Proc.consumeTick]
  · rw [hticks]
    by_cases hL : L = p.level
    · rw [hL, Function.update_self, h.seen_level hrun]
      push_cast
      rfl
    · rw [Function.update_of_ne hL]
      have := h.seen_le hrun L
      omega

namespace Inv

variable [DecidableEq ι] {s : Sys ι} {h : ι}

theorem goto (hinv : Inv s) {pc : Pc} (hproc : pc.proc = (s.pc h).proc)
    (hle : ∀ i, pc.proc = some i → (s.procs i).ticksConsumed + pc.ahead ≤ 16) :
    Inv (s.goto h pc) := by
  have hsame : ∀ h', ((s.goto h pc).pc h').proc = (s.pc h').proc := by
    intro h'
    by_cases hh : h' = h
    · simp [Sys.goto, hh, hproc]
    · simp [Sys.goto, hh]
  refine ⟨hinv.slice, fun h' i hi => ?_, fun h₁ h₂ i h₁i h₂i => ?_⟩
  · have hon := hinv.on h' i ((hsame h').symm.trans hi)
    refine ⟨hon.1, ?_⟩
    by_cases hh : h' = h
    · subst hh
      simp only [Sys.goto, Function.update_self] at hi ⊢
      exact hle i hi
    · simpa [Sys.goto, hh] using hon.2
  · exact hinv.unique h₁ h₂ i ((hsame h₁).symm.trans h₁i) ((hsame h₂).symm.trans h₂i)

/-- The hart goes on with its process. -/
theorem goto_same (hinv : Inv s) {c : Pc} (hi : (s.pc h).proc = some i) (hpc : c.proc = some i)
    (hle : (s.procs i).ticksConsumed + c.ahead ≤ 16) : Inv (s.goto h c) := by
  refine hinv.goto (hpc.trans hi.symm) fun j hj => ?_
  obtain rfl := Option.some.inj (hpc.symm.trans hj)
  exact hle

omit [DecidableEq ι] in
/-- The counter of the boosts does not matter. -/
theorem of_boostTicks {s' : Sys ι} (hinv : Inv s) (hprocs : s'.procs = s.procs)
    (hpc : s'.pc = s.pc) (hseen : s'.seen = s.seen) : Inv s' := by
  obtain ⟨procs, boostTicks, pc, seen⟩ := s'
  subst hprocs hpc hseen
  exact ⟨hinv.slice, hinv.on, hinv.unique⟩

omit [DecidableEq ι] in
theorem modProc (hinv : Inv s) {f : Proc → Proc} (hok : SliceOk (f (s.procs q)) (s.seen q))
    (hrun : (s.procs q).state = .running → (f (s.procs q)).state = .running ∧
      (f (s.procs q)).ticksConsumed = (s.procs q).ticksConsumed) : Inv (s.modProc q f) := by
  refine ⟨fun i => ?_, fun h i hi => ?_, hinv.unique⟩
  · by_cases hq : i = q
    · subst hq
      simpa [Sys.modProc] using hok
    · simpa [Sys.modProc, hq] using hinv.slice i
  · obtain ⟨hstate, hle⟩ := hinv.on h i hi
    by_cases hq : i = q
    · subst hq
      obtain ⟨hstate', hticks⟩ := hrun hstate
      simp only [Sys.modProc, Function.update_self, hticks]
      exact ⟨hstate', hle⟩
    · simpa [Sys.modProc, hq] using And.intro hstate hle

/-- The process of the hart leaves it. -/
theorem giveUp (hinv : Inv s) (hi : (s.pc h).proc = some i) (hst : st ≠ .running) :
    Inv (s.giveUp h i st) := by
  have hother : ∀ h' j, ((s.giveUp h i st).pc h').proc = some j →
      (s.pc h').proc = some j ∧ (s.giveUp h i st).pc h' = s.pc h' ∧ j ≠ i := by
    intro h' j hj
    by_cases hh : h' = h
    · subst hh
      simp [Sys.giveUp, Sys.goto, Pc.proc] at hj
    · have heq : (s.giveUp h i st).pc h' = s.pc h' := by
        simp [Sys.giveUp, Sys.goto, Sys.modProc, hh]
      rw [heq] at hj
      exact ⟨hj, heq, fun hji => hh (hinv.unique h' h i (hji ▸ hj) hi)⟩
  refine ⟨fun j => ?_, fun h' j hj => ?_, fun h₁ h₂ j h₁j h₂j =>
    hinv.unique h₁ h₂ j (hother h₁ j h₁j).1 (hother h₂ j h₂j).1⟩
  · by_cases hj : j = i
    · subst hj
      simpa [Sys.giveUp, Sys.goto, Sys.modProc] using (hinv.slice j).endSlice hst
    · simpa [Sys.giveUp, Sys.goto, Sys.modProc, hj] using hinv.slice j
  · obtain ⟨hj', heq, hne⟩ := hother h' j hj
    rw [heq]
    simpa [Sys.giveUp, Sys.goto, Sys.modProc, hne] using hinv.on h' j hj'

/-- A runnable process is put on an empty hart. -/
theorem dispatch (hinv : Inv s) (hfree : (s.pc h).proc = none)
    (hr : (s.procs i).state = .runnable) : Inv (s.dispatch h i) := by
  have hrest : (s.procs i).ticksConsumed = 0 := (hinv.slice i).rest (by rw [hr]; decide)
  -- no hart has the process yet
  have hnone : ∀ h', (s.pc h').proc ≠ some i := by
    intro h' hi
    have := (hinv.on h' i hi).1
    rw [hr] at this
    cases this
  have hpc : ∀ h', h' ≠ h → (s.dispatch h i).pc h' = s.pc h' := fun h' hh => by
    simp [Sys.dispatch, Sys.goto, Sys.modProc, hh]
  have hself : (s.dispatch h i).pc h = .running i := by simp [Sys.dispatch, Sys.goto]
  refine ⟨fun j => ?_, fun h' j hj => ?_, fun h₁ h₂ j h₁j h₂j => ?_⟩
  · by_cases hj : j = i
    · subst hj
      simp only [Sys.dispatch, Sys.goto, Sys.modProc, Function.update_self]
      refine ⟨(hinv.slice j).level, fun _ => ?_, fun _ L => ?_, fun hs => absurd rfl hs⟩
      · simpa [Proc.dispatch] using hrest
      · simpa [Proc.dispatch] using hrest.ge
    · simpa [Sys.dispatch, Sys.goto, Sys.modProc, hj] using hinv.slice j
  · by_cases hh : h' = h
    · subst hh
      rw [hself] at hj ⊢
      obtain rfl := Option.some.inj hj
      simp [Sys.dispatch, Sys.goto, Sys.modProc, Proc.dispatch, hrest, Pc.ahead]
    · rw [hpc h' hh] at hj ⊢
      have hne : j ≠ i := fun hji => hnone h' (hji ▸ hj)
      simpa [Sys.dispatch, Sys.goto, Sys.modProc, hne] using hinv.on h' j hj
  · by_cases hh₁ : h₁ = h <;> by_cases hh₂ : h₂ = h
    · rw [hh₁, hh₂]
    · rw [hh₁, hself] at h₁j
      rw [hpc h₂ hh₂, ← Option.some.inj h₁j] at h₂j
      exact absurd h₂j (hnone h₂)
    · rw [hh₂, hself] at h₂j
      rw [hpc h₁ hh₁, ← Option.some.inj h₂j] at h₁j
      exact absurd h₁j (hnone h₁)
    · rw [hpc h₁ hh₁] at h₁j
      rw [hpc h₂ hh₂] at h₂j
      exact hinv.unique h₁ h₂ j h₁j h₂j

theorem consume (hinv : Inv s) (hpc : s.pc h = .count i) : Inv (s.consume h i) := by
  have hi : (s.pc h).proc = some i := by rw [hpc]; rfl
  obtain ⟨hrun, hle⟩ := hinv.on h i hi
  rw [hpc] at hle
  obtain ⟨hok, hticks⟩ := (hinv.slice i).consumeTick hrun hle
  have hsame : ∀ h', ((s.consume h i).pc h').proc = (s.pc h').proc := by
    intro h'
    by_cases hh : h' = h
    · rw [hh, hi]
      simp [Sys.consume, Sys.goto, Pc.proc]
    · simp [Sys.consume, Sys.goto, Sys.modProc, hh]
  refine ⟨fun j => ?_, fun h' j hj => ?_, fun h₁ h₂ j h₁j h₂j =>
    hinv.unique h₁ h₂ j ((hsame h₁).symm.trans h₁j) ((hsame h₂).symm.trans h₂j)⟩
  · by_cases hj : j = i
    · subst hj
      simpa [Sys.consume, Sys.goto, Sys.modProc] using hok
    · simpa [Sys.consume, Sys.goto, Sys.modProc, hj] using hinv.slice j
  · rw [hsame h'] at hj
    by_cases hh : h' = h
    · subst hh
      obtain rfl := Option.some.inj (hi.symm.trans hj)
      simp only [Sys.consume, Sys.goto, Sys.modProc, Function.update_self, hticks]
      exact ⟨hrun, by simpa [Pc.ahead] using hle⟩
    · have hne : j ≠ i := fun hji => hh (hinv.unique h' h i (hji ▸ hj) hi)
      simpa [Sys.consume, Sys.goto, Sys.modProc, hh, hne] using hinv.on h' j hj

omit [DecidableEq ι] in
/-- A change of a slot whose process does not run. -/
theorem slot (hinv : Inv s) {states : List ProcState} {f : Proc → Proc} {s' : Sys ι}
    (hstep : s.slot q states f = some s') (hstates : ProcState.running ∉ states)
    (hf : ∀ p, (f p).state ≠ .running ∧ ((f p).level = p.level ∨ (f p).level = 0) ∧
      ((f p).ticksConsumed = p.ticksConsumed ∨ (f p).ticksConsumed = 0)) : Inv s' := by
  obtain ⟨⟨-, hq⟩, rfl⟩ := slot_eq_some.mp hstep
  have hidle : (s.procs q).state ≠ .running := fun hr => hstates (hr ▸ hq)
  obtain ⟨hstate, hlevel, hticks⟩ := hf (s.procs q)
  have hl := (hinv.slice q).level
  have ht := (hinv.slice q).rest hidle
  exact hinv.modProc (.of_not_running (by omega) hstate (by omega))
    fun hr => absurd hr hidle

/-- A step of the timer branch of `usertrap`. -/
theorem trap (hinv : Inv s) {s' : Sys ι} (hquiet : Undisturbed s (.trap h)) (htrap : Traps s h s') :
    Inv s' := by
  cases htrap with
  | @boost i j hpc hj =>
    have hboost : Inv (s.modProc j Proc.boosted) := by
      simp only [Undisturbed, hpc] at hquiet
      refine hinv.modProc ((hinv.slice j).boosted (hquiet hj)) fun hr => ?_
      rw [Proc.boosted, if_pos (Or.inr hr)]
      exact ⟨hr, rfl⟩
    have hi : (s.pc h).proc = some i := by rw [hpc]; rfl
    have hle := (hboost.on h i hi).2
    rw [show (s.modProc j Proc.boosted).pc h = .boost i j from hpc] at hle
    exact hboost.goto_same hi rfl hle
  | @boosted i j hpc =>
    have hi : (s.pc h).proc = some i := by rw [hpc]; rfl
    have hle := (hinv.on h i hi).2
    rw [hpc] at hle
    exact hinv.goto_same hi rfl hle
  | count hpc hr => exact hinv.consume hpc
  | @skip i hpc =>
    have hi : (s.pc h).proc = some i := by rw [hpc]; rfl
    have hle := (hinv.on h i hi).2
    rw [hpc] at hle
    exact hinv.goto_same hi rfl hle
  | @record i hpc =>
    have hi : (s.pc h).proc = some i := by rw [hpc]; rfl
    have hrecord : Inv (s.modProc i Proc.recordTick) := by
      obtain ⟨h₁, h₂, h₃, h₄⟩ := hinv.slice i
      exact hinv.modProc ⟨h₁, h₂, h₃, h₄⟩ fun hr => ⟨hr, rfl⟩
    have hle := (hrecord.on h i hi).2
    rw [show (s.modProc i Proc.recordTick).pc h = .record i from hpc] at hle
    exact hrecord.goto_same hi rfl hle
  | @full i hpc => exact hinv.giveUp (by rw [hpc]; rfl) (by decide)
  | @go i hpc hlt =>
    -- the count has not reached the quantum, so there is room for one more tick
    refine hinv.goto_same (i := i) (by rw [hpc]; rfl) rfl ?_
    have := quantum_le (s.procs i).level
    simp only [Pc.ahead]
    omega

/-- **A step that does not boost a process in the middle of a slice keeps the invariant.** -/
theorem step (hinv : Inv s) {a : Act ι} {s' : Sys ι} (hquiet : Undisturbed s a)
    (hstep : s.step a = some s') : Inv s' := by
  cases a with
  | sched h =>
    rcases sched_cases hstep with ⟨level, i, hd, rfl⟩ | ⟨pc, hm, rfl⟩
    · exact hinv.dispatch (by rw [hd.1]; rfl) hd.2.2.1
    · obtain ⟨hnew, hold⟩ := hm.proc
      refine hinv.goto (hnew.trans hold.symm) fun i hi => ?_
      rw [hnew] at hi
      cases hi
  | tick h =>
    obtain ⟨i, hpc, rfl⟩ := process_eq_some.mp hstep
    have hi : (s.pc h).proc = some i := by rw [hpc]; rfl
    have hle := (hinv.on h i hi).2
    rw [hpc] at hle
    unfold Sys.tick
    split
    · exact (hinv.goto_same (c := .boost i 0) hi rfl hle).of_boostTicks rfl rfl rfl
    · exact (hinv.goto_same (c := .count i) hi rfl hle).of_boostTicks rfl rfl rfl
  | trap h => exact hinv.trap hquiet (traps_of_trap hstep)
  | syscall h =>
    obtain ⟨i, hpc, rfl⟩ := process_eq_some.mp hstep
    obtain ⟨h₁, h₂, h₃, h₄⟩ := hinv.slice i
    exact hinv.modProc ⟨h₁, h₂, h₃, h₄⟩ fun hr => ⟨hr, rfl⟩
  | yield h | sleep h | exit h =>
    obtain ⟨i, hpc, rfl⟩ := process_eq_some.mp hstep
    exact hinv.giveUp (by rw [hpc]; rfl) (by decide)
  | wakeup q | alloc q | start q | free q =>
    exact hinv.slot hstep (by decide) fun p => by simp [Proc.alloc]

omit [DecidableEq ι] in
theorem of_fresh {s : Sys ι} (h : Fresh s) : Inv s := by
  have hnone : ∀ k i, (s.pc k).proc ≠ some i := fun k i hi => by
    rw [h.pc k] at hi
    cases hi
  exact ⟨fun i => .of_not_running (h.level i) (h.state i) (h.ticksConsumed i),
    fun k i hi => absurd hi (hnone k i), fun k _ i hi => absurd hi (hnone k i)⟩

end Inv

/-! ### Which steps demote -/

section

variable [DecidableEq ι] {s s' : Sys ι} {a : Act ι}

/-- What a step can do to the level of the process of slot `i`: only a process on a hart whose count
has reached the quantum is demoted. -/
def LevelStep (s s' : Sys ι) (i : ℕ) : Prop :=
  (s'.procs i).level = (s.procs i).level ∨ (s'.procs i).level = 0 ∨
    (∃ h, (s.pc h).proc = some i) ∧ quantum (s.procs i).level ≤ (s.procs i).ticksConsumed

omit [DecidableEq ι] in
theorem LevelStep.of_update {f : Proc → Proc} (hprocs : s'.procs = (s.modProc q f).procs)
    (hf : ∀ p : Proc, (f p).level = p.level ∨ (f p).level = 0) (i : ℕ) : LevelStep s s' i := by
  unfold LevelStep
  rw [hprocs]
  by_cases hi : i = q
  · subst hi
    simpa [Sys.modProc] using (hf (s.procs i)).imp_right Or.inl
  · simp [Sys.modProc, hi]

theorem levelStep_giveUp {h : ι} {j : ℕ} (hj : (s.pc h).proc = some j) (st : ProcState) (i : ℕ) :
    LevelStep s (s.giveUp h j st) i := by
  by_cases hi : i = j
  · subst hi
    simp only [LevelStep, Sys.giveUp, Sys.goto, Sys.modProc, Function.update_self, Proc.endSlice]
    split
    · rename_i hc
      exact Or.inr (Or.inr ⟨⟨h, hj⟩, hc.1⟩)
    · exact Or.inl rfl
  · simp [LevelStep, Sys.giveUp, Sys.goto, Sys.modProc, hi]

theorem step_level (hstep : s.step a = some s') (i : ℕ) : LevelStep s s' i := by
  cases a with
  | sched h =>
    rcases sched_cases hstep with ⟨_, j, _, rfl⟩ | ⟨pc, _, rfl⟩
    · exact .of_update (f := Proc.dispatch) rfl (fun p => Or.inl rfl) i
    · exact Or.inl rfl
  | tick h =>
    obtain ⟨j, hpc, rfl⟩ := process_eq_some.mp hstep
    unfold Sys.tick
    split <;> exact Or.inl rfl
  | trap h =>
    cases traps_of_trap hstep with
    | boost =>
      refine .of_update (f := Proc.boosted) rfl (fun p => ?_) i
      unfold Proc.boosted
      split
      · exact Or.inr rfl
      · exact Or.inl rfl
    | boosted | skip | go => exact Or.inl rfl
    | count => exact .of_update (f := Proc.consumeTick) rfl (fun p => Or.inl rfl) i
    | record => exact .of_update (f := Proc.recordTick) rfl (fun p => Or.inl rfl) i
    | full hpc => exact levelStep_giveUp (by rw [hpc]; rfl) _ i
  | syscall h =>
    obtain ⟨j, hpc, rfl⟩ := process_eq_some.mp hstep
    exact .of_update (f := Proc.syscall) rfl (fun p => Or.inl rfl) i
  | yield h | sleep h | exit h =>
    obtain ⟨j, hpc, rfl⟩ := process_eq_some.mp hstep
    exact levelStep_giveUp (by rw [hpc]; rfl) _ i
  | wakeup q | alloc q | start q | free q =>
    obtain ⟨-, rfl⟩ := slot_eq_some.mp hstep
    exact .of_update rfl (fun p => by simp [Proc.alloc]) i

theorem Inv.fullSlice (hinv : Inv s) : FullSlice s := by
  intro a s' i hstep hraise
  have hlevel := (hinv.slice i).level
  rcases step_level hstep i with hl | hl | ⟨⟨h, hi⟩, hq⟩
  · omega
  · omega
  · rw [← (hinv.slice i).seen_level (hinv.on h i hi).1]
    exact hq

end

/-- **Demotion only after a full slice.** In every run in which no boost finds a running process in
the middle of a slice at another level than 0, a process is demoted only after it has consumed the
quantum of its level at that level since its last dispatch. -/
theorem demoted_after_full_slice [DecidableEq ι] {s₀ s : Sys ι} {acts : List (Act ι)}
    (hfresh : Fresh s₀) (hquiet : Meets Sys.step Undisturbed acts s₀)
    (hrun : run Sys.step acts s₀ = some s) : FullSlice s :=
  (run_invariant (P := Inv) (fun _ _ _ hinv hC hstep => hinv.step hC hstep) (.of_fresh hfresh)
    hquiet hrun).fullSlice

/-- One runnable process, with `boostTicks` ticks since the last boost. -/
def onlyOne (level boostTicks : ℤ) : Sys Unit where
  procs i := ⟨if i = 0 then .runnable else .unused, if i = 0 then level else 0, 0,
    fun _ => 0, 0, 0, 0⟩
  boostTicks := boostTicks
  pc _ := .top
  seen _ _ := 0

theorem onlyOne_fresh {level boostTicks : ℤ} (h : 0 ≤ level ∧ level ≤ 3) :
    Fresh (onlyOne level boostTicks) := by
  refine ⟨fun _ => rfl, fun i => ?_, fun i => ?_, fun i => rfl⟩ <;> simp only [onlyOne] <;>
    split <;> simp [h]

/-- The scan up to the dispatch of slot 0 at `level`. -/
def toDispatch (level : ℕ) : List (Act Unit) := List.replicate (65 * level + 2) (.sched ())

/-- A tick in user mode that does not boost. -/
def plainTick : List (Act Unit) := [.tick (), .trap (), .trap (), .trap ()]

/-- The first tick of a slice at level 1 boosts; the process goes on at level 0 for one more tick,
up to the comparison that demotes it. -/
def earlyBoost : List (Act Unit) :=
  toDispatch 1 ++ .tick () :: List.replicate 68 (.trap ()) ++ plainTick.dropLast

theorem demoted_after_full_slice_earlyBoost :
    Fresh (onlyOne 1 127) ∧ Meets Sys.step Undisturbed earlyBoost (onlyOne 1 127) ∧
      ∃ s s', run Sys.step earlyBoost (onlyOne 1 127) = some s ∧
        s.step (.trap ()) = some s' ∧ (s.procs 0).level = 0 ∧ (s'.procs 0).level = 1 ∧
        quantum 0 ≤ s.seen 0 0 := by
  have hmeets : Meets Sys.step Undisturbed earlyBoost (onlyOne 1 127) := by
    decide +kernel
  have hout : ((run Sys.step earlyBoost (onlyOne 1 127)).bind
      fun s => (s.step (.trap ())).map fun s' => ((s.procs 0).level, (s'.procs 0).level)) =
        some (0, 1) := by
    decide +kernel
  obtain ⟨s, hrun, hmap⟩ := Option.bind_eq_some_iff.mp hout
  obtain ⟨s', hstep, he⟩ := Option.map_eq_some_iff.mp hmap
  obtain ⟨hl, hl'⟩ := Prod.mk.inj he
  have hfull := demoted_after_full_slice (onlyOne_fresh (by decide)) hmeets hrun _ s' 0 hstep
    (by rw [hl, hl']; rfl)
  rw [hl] at hfull
  exact ⟨onlyOne_fresh (by decide), hmeets, s, s', hrun, hstep, hl, hl', hfull⟩

/-- At level 1 the process consumes two ticks; the third one boosts. The count of three is above the
quantum of level 0, and the process is demoted after one tick at that level. -/
theorem demoted_after_full_slice_counterexample :
    Fresh (onlyOne 1 125) ∧
      ∃ s s', run Sys.step (toDispatch 1 ++ plainTick ++ plainTick ++
          (.tick () :: List.replicate 67 (.trap ()))) (onlyOne 1 125) = some s ∧
        s.step (.trap ()) = some s' ∧ (s.procs 0).level = 0 ∧ (s'.procs 0).level = 1 ∧
        s.seen 0 0 = 1 ∧ quantum 0 = 2 := by
  have hout : ((run Sys.step (toDispatch 1 ++ plainTick ++ plainTick ++
      (.tick () :: List.replicate 67 (.trap ()))) (onlyOne 1 125)).bind
      fun s => (s.step (.trap ())).map fun s' =>
        ((s.procs 0).level, (s'.procs 0).level, s.seen 0 0)) = some (0, 1, 1) := by
    decide +kernel
  obtain ⟨s, hrun, hmap⟩ := Option.bind_eq_some_iff.mp hout
  obtain ⟨s', hstep, he⟩ := Option.map_eq_some_iff.mp hmap
  simp only [Prod.mk.injEq] at he
  exact ⟨onlyOne_fresh (by decide), s, s', hrun, hstep, he.1, he.2.1, he.2.2, rfl⟩

end Pa2

end Xv6
