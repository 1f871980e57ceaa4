import Mathlib.Algebra.Order.Ring.Int
import Xv6.Sched.Proc

/-!
# Which process is dispatched

The first pass of `scheduler` looks for the most urgent level at which a process is runnable; the
second pass runs every process of that level. Each slot is visited on its own, and between the
visits, and while a process runs, the table changes.

## Strict priority

When a process is dispatched a more urgent one may be runnable: it became so at a level, or in a
slot, that the first pass of the current round had already gone past (`Passed`). If no step does
that (`Quiet`), every dispatch respects the levels (`strict_priority`).

## Round robin

Between two dispatches of `p` at a level the second pass goes past every other slot at that level,
whatever happens to the table meanwhile (`round_robin`). The quantity that carries the argument is
the place of the scan relative to the slots of `p` and `q` (`Waiting`).

## Main results

* `strict_priority`, `strict_priority_counterexample`
* `round_robin`
-/

namespace Xv6

namespace Sched

open Transition

variable {i : ℕ} {p : Proc} {s : Sys}

/-- The next step of the scheduler switches to the process of slot `i`, which is at `level`. -/
def Dispatches (s : Sys) (i level : ℕ) : Prop :=
  (∃ found, s.pc = .pass2 level i found) ∧ i < nproc ∧ (s.procs i).state = .runnable ∧
    (s.procs i).curQLevel = level

/-! ### What a step can do -/

/-- The moves of the scheduler that leave the table alone. -/
inductive Moves (s : Sys) : Pc → Prop where
  | start : s.pc = .top → Moves s (.pass1 0 0)
  | find {level i : ℕ} : s.pc = .pass1 level i → (s.procs i).state = .runnable →
      (s.procs i).curQLevel = level → Moves s (.pass2 level 0 false)
  | next1 {level i : ℕ} : s.pc = .pass1 level i →
      ¬ ((s.procs i).state = .runnable ∧ (s.procs i).curQLevel = level) →
      Moves s (.pass1 level (i + 1))
  | nextLevel {level i : ℕ} : s.pc = .pass1 level i → nproc ≤ i → Moves s (.pass1 (level + 1) 0)
  | next2 {t i : ℕ} {found : Bool} : s.pc = .pass2 t i found → ¬ Dispatches s i t →
      Moves s (.pass2 t (i + 1) found)
  | endRound {t i : ℕ} {found : Bool} : s.pc = .pass2 t i found → nproc ≤ i → Moves s .top
  | wait : (∀ t i, s.pc = .pass2 t i false → nproc ≤ i) → (∀ t i, s.pc ≠ .running t i) →
      (∀ t i, s.pc ≠ .pass2 t i true) → Moves s .wfi
  | wake : s.pc = .wfi → Moves s .top

theorem sched_cases {s' : Sys} (h : s.sched = some s') :
    (∃ t i, Dispatches s i t ∧
      s' = ⟨Function.update s.procs i (s.procs i).dispatch, .running t i⟩) ∨
    (s'.procs = s.procs ∧ Moves s s'.pc) := by
  rw [Sys.sched] at h
  split at h
  · obtain rfl := Option.some.inj h
    exact Or.inr ⟨rfl, .start ‹_›⟩
  · rename_i level i hpc
    split at h
    · split at h
      · obtain rfl := Option.some.inj h
        rename_i hc
        exact Or.inr ⟨rfl, .find hpc hc.1 hc.2⟩
      · obtain rfl := Option.some.inj h
        exact Or.inr ⟨rfl, .next1 hpc ‹_›⟩
    · split at h
      · obtain rfl := Option.some.inj h
        exact Or.inr ⟨rfl, .nextLevel hpc (not_lt.mp ‹_›)⟩
      · obtain rfl := Option.some.inj h
        refine Or.inr ⟨rfl, .wait (fun t j => ?_) (fun t j => ?_) fun t j => ?_⟩ <;> simp [hpc]
  · rename_i t i found hpc
    split at h
    · split at h
      · obtain rfl := Option.some.inj h
        rename_i hi hc
        exact Or.inl ⟨t, i, ⟨⟨found, hpc⟩, hi, hc.2, hc.1⟩, rfl⟩
      · obtain rfl := Option.some.inj h
        rename_i hi hc
        exact Or.inr ⟨rfl, .next2 hpc fun hd => hc ⟨hd.2.2.2, hd.2.2.1⟩⟩
    · split at h
      · obtain rfl := Option.some.inj h
        exact Or.inr ⟨rfl, .endRound hpc (not_lt.mp ‹_›)⟩
      · obtain rfl := Option.some.inj h
        rename_i hi hf
        refine Or.inr ⟨rfl, .wait (fun t' j hj => ?_) (fun t' j => ?_) fun t' j => ?_⟩
        · rw [hpc] at hj
          cases hj
          exact not_lt.mp hi
        · simp [hpc]
        · rw [hpc]
          rintro ⟨⟩
          exact hf rfl
  · cases h
  · obtain rfl := Option.some.inj h
    exact Or.inr ⟨rfl, .wake ‹_›⟩

/-- The event that a step of the system is for the process of a slot. -/
inductive Causes (s : Sys) : Act → ℕ → Event → Prop where
  | dispatch {i t : ℕ} : Dispatches s i t → Causes s .sched i .dispatch
  | wakeup {i chan : ℕ} : i < nproc → (s.procs i).chan = chan → Causes s (.wakeup chan) i .wakeup
  | kill {i : ℕ} : i < nproc → Causes s (.kill i) i .wakeup
  | start {i : ℕ} : i < nproc → Causes s (.start i) i .start
  | boost {i : ℕ} : i < nproc → Causes s .boost i .boost
  | tick {t i : ℕ} : s.pc = .running t i → Causes s .tick i .tick
  | syscall {t i : ℕ} : s.pc = .running t i → Causes s .syscall i .syscall
  | sleep {t i chan : ℕ} : s.pc = .running t i → Causes s (.sleep chan) i (.sleep chan)
  | exit {t i : ℕ} : s.pc = .running t i → Causes s .exit i .exit

/-- How a step changes one slot: not at all, by one event of its process, or because the slot gets
a new process or loses its process. -/
inductive SlotStep (s s' : Sys) (a : Act) (i : ℕ) : Prop where
  | same : s'.procs i = s.procs i → SlotStep s s' a i
  | event {e : Event} : Causes s a i e → (s.procs i).step e = some (s'.procs i) → SlotStep s s' a i
  | alloc : a = .alloc → (s.procs i).state = .unused → s'.procs i = (s.procs i).alloc →
      SlotStep s s' a i
  | free : a = .free i → (s.procs i).state = .zombie ∨ (s.procs i).state = .used →
      s'.procs i = (s.procs i).free → SlotStep s s' a i

/-- While a process runs it is marked as running, at the level of the pass. -/
def Sys.Ok (s : Sys) : Prop :=
  ∀ t i, s.pc = .running t i → (s.procs i).state = .running ∧ (s.procs i).curQLevel = t

section

variable {s' : Sys} {a : Act}

/-- A step that changes one slot. -/
theorem slot_of_update (hprocs : s'.procs = Function.update s.procs i p)
    (hself : s'.procs i = p → SlotStep s s' a i) (j : ℕ) : SlotStep s s' a j := by
  by_cases hj : j = i
  · subst hj
    exact hself (by rw [hprocs, Function.update_self])
  · exact .same (by rw [hprocs, Function.update_of_ne hj])

/-- A step of the running process, for each slot. -/
theorem process_slot {t : ℕ} (hok : s.Ok) (hpc : s.pc = .running t i)
    (h : s.process t i a = some s') (j : ℕ) : SlotStep s s' a j := by
  obtain ⟨hrun, -⟩ := hok t i hpc
  cases a <;> simp only [Sys.process] at h
  case tick =>
    obtain rfl := Option.some.inj h
    exact slot_of_update rfl (fun hi => .event (.tick hpc) (by rw [hi]; exact if_pos hrun)) j
  case syscall =>
    obtain rfl := Option.some.inj h
    exact slot_of_update rfl (fun hi => .event (.syscall hpc) (by rw [hi]; exact if_pos hrun)) j
  case sleep chan =>
    obtain rfl := Option.some.inj h
    exact slot_of_update rfl (fun hi => .event (.sleep hpc) (by rw [hi]; exact if_pos hrun)) j
  case exit =>
    obtain rfl := Option.some.inj h
    exact slot_of_update rfl (fun hi => .event (.exit hpc) (by rw [hi]; exact if_pos hrun)) j
  case alloc =>
    split at h
    · obtain rfl := Option.some.inj h
      exact .same rfl
    · rename_i q hq
      obtain rfl := Option.some.inj h
      exact slot_of_update rfl (fun hi => .alloc rfl (by simpa using List.find?_some hq) hi) j
  case start q =>
    split at h
    · rename_i hq
      obtain rfl := Option.some.inj h
      exact slot_of_update rfl (fun hi => .event (.start hq.1) (by rw [hi]; exact if_pos hq.2)) j
    · cases h
  case kill q =>
    split at h
    · rename_i hq
      obtain rfl := Option.some.inj h
      refine slot_of_update rfl (fun hi => ?_) j
      by_cases hs : (s.procs q).state = .sleeping
      · refine .event (.kill hq) ?_
        rw [hi, Proc.kill, if_pos hs]
        exact if_pos hs
      · exact .same (by rw [hi, Proc.kill, if_neg hs])
    · cases h
  case free q =>
    split at h
    · rename_i hq
      obtain rfl := Option.some.inj h
      exact slot_of_update rfl (fun hi => .free rfl hq.2 hi) j
    · cases h
  all_goals cases h

/-- **A step of the system, for each slot.** -/
theorem step_slot (hok : s.Ok) (h : s.step a = some s') (j : ℕ) : SlotStep s s' a j := by
  cases a <;> simp only [Sys.step] at h
  case sched =>
    rcases sched_cases h with ⟨t, i, hd, rfl⟩ | ⟨hprocs, -⟩
    · refine slot_of_update rfl (fun hi => .event (.dispatch hd) ?_) j
      rw [hi]
      exact if_pos hd.2.2.1
    · exact .same (by rw [hprocs])
  case wakeup chan =>
    obtain rfl := Option.some.inj h
    by_cases hj : j < nproc ∧ s.myproc ≠ some j
    · by_cases hs : (s.procs j).state = .sleeping ∧ (s.procs j).chan = chan
      · refine .event (.wakeup hj.1 hs.2) ((if_pos hs.1).trans (congrArg some ?_))
        simp only [if_pos hj, Proc.wakeup, if_pos hs]
      · exact .same (by simp only [if_pos hj, Proc.wakeup, if_neg hs])
    · exact .same (if_neg hj)
  case boost =>
    obtain rfl := Option.some.inj h
    by_cases hj : j < nproc
    · by_cases hs : (s.procs j).state = .runnable
      · refine .event (.boost hj) ((if_pos hs).trans (congrArg some ?_))
        simp only [if_pos hj]
      · exact .same (by simp only [if_pos hj, Proc.boosted, if_neg hs])
    · exact .same (if_neg hj)
  all_goals
    split at h
    · exact process_slot hok ‹_› h j
    · cases h

/-- Where the hart is after a step of the running process. -/
theorem process_pc {t : ℕ} (h : s.process t i a = some s') :
    s'.pc = s.pc ∨ s'.pc = .pass2 t (i + 1) true := by
  cases a <;> simp only [Sys.process] at h
  case alloc => split at h <;> cases h <;> exact Or.inl rfl
  case tick | sleep | exit =>
    cases h
    exact Or.inr rfl
  case syscall =>
    cases h
    exact Or.inl rfl
  all_goals first
    | cases h
    | (split at h <;> cases h; exact Or.inl rfl)

/-- **Where the hart is after a step.** -/
theorem step_pc (h : s.step a = some s') :
    (a = .sched ∧ s.sched = some s') ∨ s'.pc = s.pc ∨
      ∃ t i, s.pc = .running t i ∧ s'.pc = .pass2 t (i + 1) true := by
  cases a <;> simp only [Sys.step] at h
  case sched => exact Or.inl ⟨rfl, h⟩
  case wakeup | boost =>
    obtain rfl := Option.some.inj h
    exact Or.inr (Or.inl rfl)
  all_goals
    split at h
    · rename_i t i hpc
      rcases process_pc h with hs | hs
      · exact Or.inr (Or.inl hs)
      · exact Or.inr (Or.inr ⟨t, i, hpc, hs⟩)
    · cases h

theorem Sys.Ok.step (hok : s.Ok) (h : s.step a = some s') : s'.Ok := by
  intro t i hpc'
  rcases step_pc h with ⟨rfl, hsched⟩ | hpc | ⟨t', i', -, hpc⟩
  · rcases sched_cases hsched with ⟨t', i', hd, rfl⟩ | ⟨-, hmove⟩
    · cases hpc'
      simp only [Function.update_self]
      exact ⟨rfl, hd.2.2.2⟩
    · rw [hpc'] at hmove
      cases hmove
  · have hrun := hok t i (hpc.symm.trans hpc')
    -- what could end the process also takes the hart from it
    cases step_slot hok h i with
    | same hi => rwa [hi]
    | event hc he =>
      cases hc with
      | dispatch hd =>
        rw [hd.2.2.1] at hrun
        cases hrun.1
      | syscall =>
        rw [← Option.some.inj ((if_pos hrun.1).symm.trans he)]
        exact hrun
      | tick hp | sleep hp | exit hp =>
        simp only [Sys.step, hp, Sys.process, Option.some.injEq] at h
        rw [← h] at hpc'
        cases hpc'
      | _ => simp [Proc.step, hrun.1] at he
    | alloc _ hs _ =>
      rw [hs] at hrun
      cases hrun.1
    | free _ hs _ =>
      rw [hrun.1] at hs
      rcases hs with hs | hs <;> cases hs
  · rw [hpc] at hpc'
    cases hpc'

end

/-- **A run of the system is a history for each process** that lives through it. -/
theorem exists_history {as : List Act} {s' : Sys} (hok : s.Ok) (hlive : Meets Sys.step
      (fun s a => (a = .alloc → (s.procs i).state ≠ .unused) ∧ a ≠ .free i) as s)
    (hrun : run Sys.step as s = some s') : ∃ h, (s.procs i).after h = some (s'.procs i) := by
  -- the history grows at its front, so the induction fixes the process at the beginning
  refine (run_invariant (P := fun t => t.Ok ∧ ∃ h, (s.procs i).after h = some (t.procs i))
    (fun t a t' ht hC hstep => ?_) ⟨hok, [], rfl⟩ hlive hrun).2
  obtain ⟨hok', h, hh⟩ := ht
  refine ⟨hok'.step hstep, ?_⟩
  cases step_slot hok' hstep i with
  | same hi => exact ⟨h, by rw [hi]; exact hh⟩
  | event _ he => exact ⟨_ :: h, Proc.after_cons_eq_some.mpr ⟨_, hh, he⟩⟩
  | alloc ha hs _ => exact absurd hs (hC.1 ha)
  | free ha _ _ => exact absurd ha hC.2

/-! ### Strict priority -/

/-- In this round the first pass has gone past `level` at slot `i`. -/
def Passed : Pc → ℕ → ℤ → Prop
  | .pass1 l j, i, level => level < l ∨ (level = l ∧ i < j)
  | .pass2 t _ _, _, level => level < t
  | .running t _, _, level => level < t
  | _, _, _ => False

/-- The step makes no process runnable at a place that the first pass of the round has gone past. -/
def Quiet (s : Sys) : Act → Prop
  | .wakeup chan => ∀ i < nproc, (s.procs i).state = .sleeping → (s.procs i).chan = chan →
      ¬ Passed s.pc i (s.procs i).curQLevel
  | .kill i => (s.procs i).state = .sleeping → ¬ Passed s.pc i (s.procs i).curQLevel
  | .start i => ¬ Passed s.pc i (s.procs i).curQLevel
  | .boost => ∀ i < nproc, (s.procs i).state = .runnable → (s.procs i).curQLevel ≠ 0 →
      ¬ Passed s.pc i 0
  | _ => True

/-- Nobody is runnable at a place that the first pass has gone past. -/
structure Clear (s : Sys) : Prop where
  ok : s.Ok
  nonneg : ∀ i, 0 ≤ (s.procs i).curQLevel
  clear : ∀ i < nproc, (s.procs i).state = .runnable → ¬ Passed s.pc i (s.procs i).curQLevel

theorem mlfqTick_level (h : 0 ≤ p.curQLevel) : p.curQLevel ≤ p.mlfqTick.curQLevel := by
  have hlevel : p.countTick.curQLevel = p.curQLevel := rfl
  simp only [Proc.mlfqTick, Proc.endSlice, hlevel]
  split
  · dsimp only
    split
    · rename_i hc
      rw [int32_of_mem (by omega) (by omega)]
      omega
    · exact le_refl _
  · exact le_of_eq hlevel.symm

/-- A level never becomes negative. -/
theorem nonneg_of_step {p' : Proc} {e : Event} (h : p.step e = some p') (hp : 0 ≤ p.curQLevel) :
    0 ≤ p'.curQLevel := by
  cases e <;> simp only [Proc.step, Option.ite_none_right_eq_some, Option.some.injEq] at h <;>
    obtain ⟨hs, rfl⟩ := h
  case tick => exact hp.trans (mlfqTick_level hp)
  case boost => simp [Proc.boosted, hs]
  all_goals exact hp

/-- A move of the scheduler goes past no runnable process. -/
theorem Clear.moves {pc : Pc} (hc : Clear s) (hm : Moves s pc) (hi : i < nproc)
    (hr : (s.procs i).state = .runnable) : ¬ Passed pc i (s.procs i).curQLevel := by
  have hold := hc.clear i hi hr
  have hn := hc.nonneg i
  cases hm with
  | start hpc =>
    simp only [Passed]
    omega
  | find hpc _ _ =>
    simp only [hpc, Passed] at hold ⊢
    omega
  | @next1 level j hpc hno =>
    simp only [hpc, Passed] at hold ⊢
    rintro (hlt | ⟨heq, hij⟩)
    · exact hold (Or.inl hlt)
    · rcases Nat.lt_succ_iff_lt_or_eq.mp hij with hlt | rfl
      · exact hold (Or.inr ⟨heq, hlt⟩)
      · exact hno ⟨hr, heq⟩
  | nextLevel hpc hj =>
    simp only [hpc, Passed] at hold ⊢
    push_cast
    omega
  | next2 hpc _ =>
    simp only [hpc, Passed] at hold ⊢
    exact hold
  | endRound | wait | wake => exact id

/-- **One quiet step.** -/
theorem Clear.step {s' : Sys} {a : Act} (hc : Clear s) (hq : Quiet s a) (h : s.step a = some s') :
    Clear s' := by
  have hslot := step_slot hc.ok h
  refine ⟨hc.ok.step h, fun i => ?_, fun i hi hr => ?_⟩
  · cases hslot i with
    | same he => exact (congrArg Proc.curQLevel he).symm ▸ hc.nonneg i
    | event _ he => exact nonneg_of_step he (hc.nonneg i)
    | alloc _ _ he => rw [he]; exact le_refl _
    | free _ _ he => rw [he]; exact hc.nonneg i
  · rcases step_pc h with ⟨rfl, hsched⟩ | hpc
    · rcases sched_cases hsched with ⟨t, j, hd, rfl⟩ | ⟨hprocs, hmove⟩
      · by_cases hij : i = j
        · subst hij
          simp [Proc.dispatch] at hr
        · simp only [Function.update_of_ne hij] at hr ⊢
          obtain ⟨⟨found, hpc⟩, -⟩ := hd
          have := hc.clear i hi hr
          rwa [hpc] at this
      · rw [hprocs] at hr ⊢
        exact hc.moves hmove hi hr
    · -- the place of the first pass is the same after the step
      have hpassed : ∀ level, Passed s'.pc i level ↔ Passed s.pc i level := by
        rcases hpc with hpc | ⟨t, j, hpc, hpc'⟩
        · exact fun _ => by rw [hpc]
        · exact fun _ => by rw [hpc, hpc', Passed, Passed]
      rw [hpassed]
      cases hslot i with
      | same he =>
        rw [he] at hr ⊢
        exact hc.clear i hi hr
      | alloc _ _ he =>
        rw [he] at hr
        cases hr
      | free _ _ he =>
        rw [he] at hr
        cases hr
      | event hcause he =>
        cases hcause with
        | dispatch hd => simp [Proc.step, hd.2.2.1] at he; simp [← he, Proc.dispatch] at hr
        | wakeup _ hchan =>
          simp only [Proc.step, Option.ite_none_right_eq_some, Option.some.injEq] at he
          rw [← he.2]
          exact hq i hi he.1 hchan
        | kill =>
          simp only [Proc.step, Option.ite_none_right_eq_some, Option.some.injEq] at he
          rw [← he.2]
          exact hq he.1
        | start =>
          simp only [Proc.step, Option.ite_none_right_eq_some, Option.some.injEq] at he
          rw [← he.2]
          exact hq
        | boost =>
          simp only [Proc.step, Option.ite_none_right_eq_some, Option.some.injEq] at he
          rw [← he.2, Proc.boosted, if_pos he.1]
          by_cases h0 : (s.procs i).curQLevel = 0
          · have := hc.clear i hi he.1
            rwa [h0] at this
          · exact hq i hi he.1 h0
        | tick hpc =>
          obtain ⟨hrun, hlevel⟩ := hc.ok _ i hpc
          simp only [Proc.step, Option.ite_none_right_eq_some, Option.some.injEq] at he
          have hle := mlfqTick_level (hc.nonneg i)
          rw [← he.2, hpc]
          simp only [Passed]
          omega
        | syscall hpc =>
          obtain ⟨hrun, -⟩ := hc.ok _ i hpc
          simp only [Proc.step, Option.ite_none_right_eq_some, Option.some.injEq] at he
          rw [← he.2, Proc.syscall, hrun] at hr
          cases hr
        | sleep | exit =>
          simp only [Proc.step, Option.ite_none_right_eq_some, Option.some.injEq] at he
          rw [← he.2] at hr
          cases hr

/-- **Strict priority, in quiet runs.** In every run from the top of the scheduler loop in which no
step makes a process runnable at a level and slot that the first pass of the current round has gone
past, every dispatch is of a process of the most urgent level at which a process is runnable. -/
theorem strict_priority {as : List Act} {s s' : Sys} (hpc : s.pc = .top)
    (hlevel : ∀ i, 0 ≤ (s.procs i).curQLevel) (hrun : run Sys.step as s = some s')
    (hC : Meets Sys.step Quiet as s) :
    ∀ i level, Dispatches s' i level →
      ∀ q < nproc, (s'.procs q).state = .runnable →
        (s'.procs i).curQLevel ≤ (s'.procs q).curQLevel := by
  have hclear : Clear s := by
    refine ⟨fun t i h => ?_, hlevel, fun i _ _ => ?_⟩
    · rw [hpc] at h
      cases h
    · rw [hpc]
      exact id
  have hend := run_invariant (fun t a t' ht hq hstep => Clear.step ht hq hstep) hclear hC hrun
  intro i level hd q hq hr
  obtain ⟨⟨found, hpc'⟩, -, -, hlev⟩ := hd
  have := hend.clear q hq hr
  rw [hpc'] at this
  simp only [Passed, not_lt] at this
  omega

/-- A process that has made no system calls and used no ticks. -/
def idleProc (state : ProcState) (chan : ℕ) (level : ℤ) : Proc :=
  ⟨state, chan, 0, level, 0, fun _ => 0, 0, 0⟩

/-- Two runnable processes at level 1, and a process of level 0 that sleeps on channel 7. -/
def twoAndSleeper : Sys where
  procs i := if i < 2 then idleProc .runnable 0 1
    else if i = 2 then idleProc .sleeping 7 0 else idleProc .unused 0 0
  pc := .top

/-- The steps of the scheduler up to the first dispatch: nobody at level 0, slot 0 at level 1. -/
def toFirstDispatch : List Act := List.replicate 68 .sched

theorem strict_priority_first_dispatch :
    ∃ s', run Sys.step (toFirstDispatch.dropLast) twoAndSleeper = some s' ∧ Dispatches s' 0 1 ∧
      ∀ q < nproc, (s'.procs q).state = .runnable →
        (s'.procs 0).curQLevel ≤ (s'.procs q).curQLevel := by
  have hlevel : ∀ i, 0 ≤ (twoAndSleeper.procs i).curQLevel := fun i => by
    simp only [twoAndSleeper]
    split
    · decide
    · split <;> decide
  have hquiet : ∀ n s, Meets Sys.step Quiet (List.replicate n .sched) s := by
    intro n
    induction n with
    | zero => exact fun _ => trivial
    | succ n ih => exact fun s => ⟨trivial, fun s' _ => ih s'⟩
  have hout : (run Sys.step (toFirstDispatch.dropLast) twoAndSleeper).map
      (fun s' => (s'.pc, (s'.procs 0).state, (s'.procs 0).curQLevel))
      = some (.pass2 1 0 false, .runnable, 1) := by
    decide +kernel
  obtain ⟨s', hrun, he⟩ := Option.map_eq_some_iff.mp hout
  obtain ⟨hpc, hstate, hlev⟩ : s'.pc = .pass2 1 0 false ∧ (s'.procs 0).state = .runnable ∧
      (s'.procs 0).curQLevel = 1 := by
    simpa using he
  have hd : Dispatches s' 0 1 := ⟨⟨false, hpc⟩, by decide, hstate, hlev⟩
  exact ⟨s', hrun, hd, strict_priority rfl hlevel hrun (hquiet 67 _) 0 1 hd⟩

/-- While the process of slot 0 runs at level 1 the sleeper is woken at level 0; the second pass
goes on with slot 1, at level 1. -/
theorem strict_priority_counterexample :
    ∃ s', run Sys.step (toFirstDispatch ++ [.wakeup 7, .tick]) twoAndSleeper = some s' ∧
      Dispatches s' 1 1 ∧ (s'.procs 2).state = .runnable ∧
      (s'.procs 2).curQLevel < (s'.procs 1).curQLevel := by
  have hout : (run Sys.step (toFirstDispatch ++ [.wakeup 7, .tick]) twoAndSleeper).map
      (fun s' => (s'.pc, (s'.procs 1).state, (s'.procs 1).curQLevel, (s'.procs 2).state,
        (s'.procs 2).curQLevel))
      = some (.pass2 1 1 true, .runnable, 1, .runnable, 0) := by
    decide +kernel
  obtain ⟨s', hrun, he⟩ := Option.map_eq_some_iff.mp hout
  simp only [Prod.mk.injEq] at he
  obtain ⟨hpc, hstate, hlev, hstate', hlev'⟩ := he
  refine ⟨s', hrun, ⟨⟨true, hpc⟩, by decide, hstate, hlev⟩, hstate', ?_⟩
  rw [hlev, hlev']
  decide

/-! ### Round robin -/

/-- Some step of the run dispatches the process of slot `q`. -/
def DispatchedIn (q : ℕ) : List Act → Sys → Prop
  | [], _ => False
  | a :: as, s => (a = .sched ∧ ∃ level, Dispatches s q level) ∨
      ∃ s', s.step a = some s' ∧ DispatchedIn q as s'

/-- The process of slot `q` is runnable at `level` in every state of the run until it is
dispatched. -/
def RunnableUntil (q level : ℕ) : List Act → Sys → Prop
  | [], s => (s.procs q).state = .runnable ∧ (s.procs q).curQLevel = level
  | a :: as, s => ((s.procs q).state = .runnable ∧ (s.procs q).curQLevel = level) ∧
      ((a = .sched ∧ ∃ level, Dispatches s q level) ∨
        ∀ s', s.step a = some s' → RunnableUntil q level as s')

/-- Where the scan can be after a dispatch of `p` at level `l` as long as `q` waits at that level:
beyond `p` in the same pass, and not beyond `q`; or in a later round, and then `q` comes before `p`
and the scan of that level is not beyond `q`. -/
def Waiting (p q l : ℕ) : Pc → Prop
  | .pass2 t j _ => if t = l then (p < j ∧ (p < q → j ≤ q)) ∨ (q < p ∧ j ≤ q) else q < p
  | .running t j => if t = l then (p ≤ j ∧ (p < q → j < q)) ∨ (q < p ∧ j < q) else q < p
  | _ => q < p

theorem Waiting.step {p q l : ℕ} {s' : Sys} {a : Act} (hw : Waiting p q l s.pc) (hpq : p ≠ q)
    (hq : q < nproc) (hr : (s.procs q).state = .runnable) (hl : (s.procs q).curQLevel = l)
    (hno : ¬ (a = .sched ∧ ∃ level, Dispatches s q level)) (h : s.step a = some s') :
    Waiting p q l s'.pc := by
  rcases step_pc h with ⟨rfl, hsched⟩ | hpc | ⟨t, i, hpc, hpc'⟩
  · have hno' : ∀ level, ¬ Dispatches s q level := fun level hd => hno ⟨rfl, level, hd⟩
    rcases sched_cases hsched with ⟨t, i, hd, rfl⟩ | ⟨-, hmove⟩
    · -- a dispatch, and not of `q`
      obtain ⟨⟨found, hpc⟩, -⟩ := id hd
      have hiq : i ≠ q := by
        rintro rfl
        exact hno' t hd
      rw [hpc] at hw
      simp only [Waiting] at hw ⊢
      split at hw
      · rw [if_pos ‹_›]
        omega
      · rwa [if_neg ‹_›]
    · generalize s'.pc = pc' at hmove
      cases hmove with
      | start hpc => rw [hpc] at hw; exact hw
      | find hpc _ _ =>
        rw [hpc] at hw
        simp only [Waiting] at hw ⊢
        split
        · exact Or.inr ⟨hw, Nat.zero_le _⟩
        · exact hw
      | next1 hpc _ => rw [hpc] at hw; exact hw
      | nextLevel hpc _ => rw [hpc] at hw; exact hw
      | @next2 t i found hpc hd =>
        -- slot `q` is not passed at its level, since it would be dispatched
        have hiq : t = l → i ≠ q := by
          rintro rfl rfl
          exact hd ⟨⟨found, hpc⟩, hq, hr, hl⟩
        rw [hpc] at hw
        simp only [Waiting] at hw ⊢
        split at hw
        · have := hiq ‹_›
          rw [if_pos ‹_›]
          omega
        · rwa [if_neg ‹_›]
      | @endRound t i found hpc hi =>
        rw [hpc] at hw
        simp only [Waiting] at hw ⊢
        split at hw <;> omega
      | wait hend hrun hfound =>
        cases hpc : s.pc with
        | running t i => exact absurd hpc (hrun t i)
        | pass2 t i found =>
          cases found with
          | true => exact absurd hpc (hfound t i)
          | false =>
            have := hend t i hpc
            rw [hpc] at hw
            simp only [Waiting] at hw ⊢
            split at hw <;> omega
        | _ => rw [hpc] at hw; exact hw
      | wake hpc => rw [hpc] at hw; exact hw
  · rwa [hpc]
  · rw [hpc] at hw
    rw [hpc']
    simp only [Waiting] at hw ⊢
    split at hw
    · rw [if_pos ‹_›]
      omega
    · rwa [if_neg ‹_›]

/-- While `q` waits, `p` is not dispatched at that level. -/
theorem Waiting.not_dispatches {p q l : ℕ} (hw : Waiting p q l s.pc) : ¬ Dispatches s p l := by
  rintro ⟨⟨found, hpc⟩, -⟩
  rw [hpc] at hw
  simp only [Waiting, if_true] at hw
  omega

/-- **Round robin within a level.** Let `p` be dispatched at a level and, some steps later, be about
to be dispatched at that level again. If `q` is runnable at the level all the time, unless it is
dispatched itself, then it is dispatched in between. -/
theorem round_robin {s s₁ s₂ : Sys} {p q level : ℕ} {mid : List Act} (hpq : p ≠ q) (hq : q < nproc)
    (hfirst : Dispatches s p level) (hstep : s.step .sched = some s₁)
    (hmid : run Sys.step mid s₁ = some s₂) (hsecond : Dispatches s₂ p level)
    (hwait : RunnableUntil q level mid s₁) : DispatchedIn q mid s₁ := by
  have hw : Waiting p q level s₁.pc := by
    obtain ⟨⟨found, hpc⟩, hlt, hr, hl⟩ := hfirst
    simp only [Sys.step, Sys.sched, hpc, hlt, if_true, hl, hr, and_self, Option.some.injEq] at hstep
    rw [← hstep]
    simp [Waiting]
  clear hfirst hstep
  induction mid generalizing s₁ with
  | nil =>
    obtain rfl := Option.some.inj hmid
    exact absurd hsecond hw.not_dispatches
  | cons a mid ih =>
    obtain ⟨t, ht, hrest⟩ := run_cons_eq_some.mp hmid
    by_cases hd : a = .sched ∧ ∃ level, Dispatches s₁ q level
    · exact Or.inl hd
    · have hrest' := hwait.2.resolve_left hd t ht
      exact Or.inr ⟨t, ht, ih hrest hrest' (hw.step hpq hq hwait.1.1 hwait.1.2 hd ht)⟩

/-- Two runnable processes at level 0, with the second pass at the first of them. -/
def pair : Sys where
  procs i := if i < 2 then idleProc .runnable 0 0 else idleProc .unused 0 0
  pc := .pass2 0 0 false

/-- Each of the two takes a tick, and the scheduler comes round. -/
def oneRound : List Act := [.tick, .sched, .tick] ++ List.replicate 65 .sched

theorem round_robin_pair :
    ∃ s₁ s₂, pair.step .sched = some s₁ ∧ run Sys.step oneRound s₁ = some s₂ ∧
      Dispatches pair 0 0 ∧ Dispatches s₂ 0 0 ∧ DispatchedIn 1 oneRound s₁ := by
  have hout : (pair.step .sched).bind (fun s₁ => (run Sys.step oneRound s₁).map fun s₂ =>
      ((s₁.procs 1).state, (s₁.procs 1).curQLevel, s₂.pc, (s₂.procs 0).state,
        (s₂.procs 0).curQLevel))
      = some (.runnable, 0, .pass2 0 0 false, .runnable, 0) := by
    decide +kernel
  obtain ⟨s₁, h₁, hmap⟩ := Option.bind_eq_some_iff.mp hout
  obtain ⟨s₂, h₂, he⟩ := Option.map_eq_some_iff.mp hmap
  simp only [Prod.mk.injEq] at he
  obtain ⟨hr, hl, hpc, hstate, hlev⟩ := he
  have hfirst : Dispatches pair 0 0 := ⟨⟨false, rfl⟩, by decide, rfl, rfl⟩
  have hsecond : Dispatches s₂ 0 0 := ⟨⟨false, hpc⟩, by decide, hstate, hlev⟩
  obtain rfl : (⟨Function.update pair.procs 0 (pair.procs 0).dispatch, .running 0 0⟩ : Sys) = s₁ :=
    Option.some.inj h₁
  have hwait : RunnableUntil 1 0 oneRound
      ⟨Function.update pair.procs 0 (pair.procs 0).dispatch, .running 0 0⟩ := by
    refine ⟨⟨hr, hl⟩, Or.inr fun t ht => ?_⟩
    obtain rfl := Option.some.inj ht
    exact ⟨⟨rfl, rfl⟩, Or.inl ⟨rfl, 0, ⟨true, rfl⟩, by decide, rfl, rfl⟩⟩
  exact ⟨_, s₂, h₁, h₂, hfirst, hsecond,
    round_robin (by decide) (by decide) hfirst h₁ h₂ hsecond hwait⟩

end Sched

end Xv6
