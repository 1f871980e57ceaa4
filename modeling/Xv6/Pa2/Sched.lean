import Mathlib.Logic.Function.Basic
import Xv6.Sched.Proc

/-!
# The scheduler of the second assignment

`PA2/proc.c` and `PA2/trap.c`: an earlier multi-level feedback queue. `scheduler` looks for the
first runnable process of the most urgent level, runs it, applies the demotion rule when the process
comes back, and starts again at level 0 and slot 0. The ticks of a slice are counted by `usertrap`,
for timer interrupts in user mode only; a timer interrupt in the kernel is a plain `yield`. Every
128th tick boosts all processes that are runnable or running.

The harts `ι` take steps in any order. A step is what happens under one acquisition of a lock: the
visit of one slot by the scan or by the boost, or one of the unlocked updates of `usertrap`. A
process that gives up its hart holds its lock until the scheduler has applied the demotion rule, so
that is one step. The channel of a sleep is left out: any sleeping process may be woken.
-/

namespace Xv6

namespace Pa2

open Sched (ProcState nproc)
open Function (update)

/-- The fields of `struct proc` that scheduling reads and updates. -/
structure Proc where
  state : ProcState
  level : ℤ
  ticksConsumed : ℤ
  ticks : ℤ → ℤ
  timesScheduled : ℤ
  sliceSyscalls : ℤ
  syscallCount : ℕ

/-- The table `quantum` -/
def quantum (level : ℤ) : ℤ :=
  if level = 0 then 2 else if level = 1 then 4 else if level = 2 then 8 else 16

/-! ### One process -/

/-- What `allocproc` does to the slot it has found. -/
def Proc.alloc (p : Proc) : Proc :=
  { p with
    state := .used
    syscallCount := 0
    level := 0
    ticksConsumed := 0
    ticks := fun i => if 0 ≤ i ∧ i < 4 then 0 else p.ticks i
    timesScheduled := 0
    sliceSyscalls := 0 }

/-- What `scheduler` does to a process before it switches to it. -/
def Proc.dispatch (p : Proc) : Proc :=
  { p with
    state := .running
    timesScheduled := int32 (p.timesScheduled + 1)
    sliceSyscalls := int32 p.syscallCount }

/-- What `scheduler` does when the process has switched back. -/
def Proc.endSlice (p : Proc) : Proc :=
  let deltaT := p.ticksConsumed
  let deltaS := int32 (p.syscallCount - p.sliceSyscalls)
  { p with
    level :=
      if quantum p.level ≤ deltaT ∧ deltaS < deltaT ∧ p.level < 3 then p.level + 1 else p.level
    ticksConsumed := 0 }

/-- What `syscall` does first. -/
def Proc.syscall (p : Proc) : Proc :=
  { p with syscallCount := (p.syscallCount + 1) % 2 ^ 64 }

/-- What the boost of `usertrap` does to one process. -/
def Proc.boosted (p : Proc) : Proc :=
  if p.state = .runnable ∨ p.state = .running then { p with level := 0 } else p

/-- The tick that `usertrap` charges to the slice. -/
def Proc.consumeTick (p : Proc) : Proc :=
  { p with ticksConsumed := int32 (p.ticksConsumed + 1) }

/-- The tick that `usertrap` records for the level. -/
def Proc.recordTick (p : Proc) : Proc :=
  { p with ticks := update p.ticks p.level (int32 (p.ticks p.level + 1)) }

/-! ### The system -/

/-- Where a hart is. -/
inductive Pc where
  /-- At the top of the loop of `scheduler`. -/
  | top
  /-- Before the visit of slot `i` for `level`. -/
  | scan (level i : ℕ)
  | wfi
  /-- In the process of slot `i`. -/
  | running (i : ℕ)
  /-- In the timer branch of `usertrap`, before the boost of slot `j`. -/
  | boost (i j : ℕ)
  /-- Before the tick is charged to the slice. -/
  | count (i : ℕ)
  /-- Before the tick is recorded for the level. -/
  | record (i : ℕ)
  /-- Before the comparison with the quantum. -/
  | check (i : ℕ)
  deriving DecidableEq

/-- The slot whose process is on the hart. -/
def Pc.proc : Pc → Option ℕ
  | .top | .scan _ _ | .wfi => none
  | .running i | .boost i _ | .count i | .record i | .check i => some i

/-- The harts and the process table. `seen i L` counts the ticks that the process of slot `i` has
consumed at level `L` since its last dispatch; no function of the kernel reads it. -/
structure Sys (ι : Type) where
  procs : ℕ → Proc
  boostTicks : ℤ
  pc : ι → Pc
  seen : ℕ → ℤ → ℕ

variable {ι : Type} [DecidableEq ι]

/-- A hart goes on elsewhere. -/
def Sys.goto (s : Sys ι) (h : ι) (pc : Pc) : Sys ι := { s with pc := update s.pc h pc }

/-- Update one slot. -/
def Sys.modProc (s : Sys ι) (i : ℕ) (f : Proc → Proc) : Sys ι :=
  { s with procs := update s.procs i (f (s.procs i)) }

/-- The scheduler switches to the process of slot `i`. -/
def Sys.dispatch (s : Sys ι) (h : ι) (i : ℕ) : Sys ι :=
  { (s.modProc i Proc.dispatch).goto h (.running i) with seen := update s.seen i 0 }

/-- The process of slot `i` switches back to the scheduler, in the state `st`. -/
def Sys.giveUp (s : Sys ι) (h : ι) (i : ℕ) (st : ProcState) : Sys ι :=
  (s.modProc i fun p => { p with state := st }.endSlice).goto h .top

/-- The next step of `scheduler`; none while a process is on the hart. -/
def Sys.sched (s : Sys ι) (h : ι) : Option (Sys ι) :=
  match s.pc h with
  | .top => some (s.goto h (.scan 0 0))
  | .scan level i =>
    if i < nproc then
      if (s.procs i).state = .runnable ∧ (s.procs i).level = level then some (s.dispatch h i)
      else some (s.goto h (.scan level (i + 1)))
    else if level + 1 < 4 then some (s.goto h (.scan (level + 1) 0))
    else some (s.goto h .wfi)
  | .wfi => some (s.goto h .top)
  | _ => none

/-- `usertrap` for a timer interrupt up to the boost: every 128th tick goes through the table. -/
def Sys.tick (s : Sys ι) (h : ι) (i : ℕ) : Sys ι :=
  if s.boostTicks + 1 ≥ 128 then { s.goto h (.boost i 0) with boostTicks := 0 }
  else { s.goto h (.count i) with boostTicks := s.boostTicks + 1 }

/-- `usertrap` charges a tick to the slice of the process of slot `i`. -/
def Sys.consume (s : Sys ι) (h : ι) (i : ℕ) : Sys ι :=
  { (s.modProc i Proc.consumeTick).goto h (.record i) with
    seen := update s.seen i
      (update (s.seen i) (s.procs i).level (s.seen i (s.procs i).level + 1)) }

/-- The next step of the timer branch of `usertrap`. -/
def Sys.trap (s : Sys ι) (h : ι) : Option (Sys ι) :=
  match s.pc h with
  | .boost i j =>
    if j < nproc then some ((s.modProc j Proc.boosted).goto h (.boost i (j + 1)))
    else some (s.goto h (.count i))
  | .count i =>
    if (s.procs i).state = .running then some (s.consume h i)
    else some (s.goto h (.running i))
  | .record i => some ((s.modProc i Proc.recordTick).goto h (.check i))
  | .check i =>
    if (s.procs i).ticksConsumed ≥ quantum (s.procs i).level then some (s.giveUp h i .runnable)
    else some (s.goto h (.running i))
  | _ => none

/-- The steps of the system. -/
inductive Act (ι : Type) where
  /-- The next step of `scheduler` on the hart. -/
  | sched (h : ι)
  /-- A timer interrupt in user mode. -/
  | tick (h : ι)
  /-- The next step of the timer branch of `usertrap`. -/
  | trap (h : ι)
  | syscall (h : ι)
  /-- A timer interrupt in the kernel: `kerneltrap` calls `yield`. -/
  | yield (h : ι)
  | sleep (h : ι)
  | exit (h : ι)
  /-- `wakeup` or `kkill` ends a sleep. -/
  | wakeup (q : ℕ)
  | alloc (q : ℕ)
  /-- `kfork` or `userinit` has finished the process. -/
  | start (q : ℕ)
  | free (q : ℕ)
  deriving DecidableEq

/-- A step of the process that is on the hart; none when there is no such process. -/
def Sys.process (s : Sys ι) (h : ι) (f : ℕ → Sys ι) : Option (Sys ι) :=
  match s.pc h with
  | .running i => some (f i)
  | _ => none

/-- A change of a slot whose process is in one of the given states. -/
def Sys.slot (s : Sys ι) (q : ℕ) (states : List ProcState) (f : Proc → Proc) : Option (Sys ι) :=
  if q < nproc ∧ (s.procs q).state ∈ states then some (s.modProc q f) else none

/-- One step. -/
def Sys.step (s : Sys ι) : Act ι → Option (Sys ι)
  | .sched h => s.sched h
  | .tick h => s.process h (s.tick h)
  | .trap h => s.trap h
  | .syscall h => s.process h fun i => s.modProc i Proc.syscall
  | .yield h => s.process h fun i => s.giveUp h i .runnable
  | .sleep h => s.process h fun i => s.giveUp h i .sleeping
  | .exit h => s.process h fun i => s.giveUp h i .zombie
  | .wakeup q => s.slot q [.sleeping] fun p => { p with state := .runnable }
  | .alloc q => s.slot q [.unused] Proc.alloc
  | .start q => s.slot q [.used] fun p => { p with state := .runnable }
  | .free q => s.slot q [.used, .zombie] fun p => { p with state := .unused }

/-- The harts are about to scan, no process runs, and no slice has begun. -/
structure Fresh (s : Sys ι) : Prop where
  pc : ∀ h, s.pc h = .top
  state : ∀ i, (s.procs i).state ≠ .running
  level : ∀ i, 0 ≤ (s.procs i).level ∧ (s.procs i).level ≤ 3
  ticksConsumed : ∀ i, (s.procs i).ticksConsumed = 0

/-- The next step of the scheduler on the hart switches to the process of slot `i`, which is at
`level`. -/
def Dispatches (s : Sys ι) (h : ι) (i level : ℕ) : Prop :=
  s.pc h = .scan level i ∧ i < nproc ∧ (s.procs i).state = .runnable ∧ (s.procs i).level = level

/-! ### What a step can do -/

section

variable {s s' : Sys ι} {h : ι}

omit [DecidableEq ι] in
theorem process_eq_some {f : ℕ → Sys ι} :
    s.process h f = some s' ↔ ∃ i, s.pc h = .running i ∧ f i = s' := by
  unfold Sys.process
  split <;> simp_all

omit [DecidableEq ι] in
theorem slot_eq_some {q : ℕ} {states : List ProcState} {f : Proc → Proc} :
    s.slot q states f = some s' ↔
      (q < nproc ∧ (s.procs q).state ∈ states) ∧ s.modProc q f = s' := by
  simp [Sys.slot]

/-- The moves of the scheduler that leave the table alone. -/
inductive Moves (s : Sys ι) (h : ι) : Pc → Prop where
  | start : s.pc h = .top → Moves s h (.scan 0 0)
  | next {level i : ℕ} : s.pc h = .scan level i → ¬ Dispatches s h i level →
      Moves s h (.scan level (i + 1))
  | nextLevel {level i : ℕ} : s.pc h = .scan level i → nproc ≤ i → Moves s h (.scan (level + 1) 0)
  | wait {level i : ℕ} : s.pc h = .scan level i → Moves s h .wfi
  | wake : s.pc h = .wfi → Moves s h .top

omit [DecidableEq ι] in
theorem Moves.proc {pc : Pc} (hm : Moves s h pc) : pc.proc = none ∧ (s.pc h).proc = none := by
  cases hm <;> simp_all [Pc.proc]

/-- A step of `scheduler` dispatches a process or leaves the table alone. -/
theorem sched_cases (hstep : s.sched h = some s') :
    (∃ level i, Dispatches s h i level ∧ s' = s.dispatch h i) ∨
      ∃ pc, Moves s h pc ∧ s' = s.goto h pc := by
  rw [Sys.sched] at hstep
  split at hstep
  case h_1 hpc => exact Or.inr ⟨_, .start hpc, (Option.some.inj hstep).symm⟩
  case h_2 level i hpc =>
    split at hstep
    · rename_i hi
      split at hstep
      · exact Or.inl ⟨level, i, ⟨hpc, hi, ‹_›⟩, (Option.some.inj hstep).symm⟩
      · rename_i hc
        exact Or.inr ⟨_, .next hpc fun hd => hc hd.2.2, (Option.some.inj hstep).symm⟩
    · rename_i hi
      split at hstep
      · exact Or.inr ⟨_, .nextLevel hpc (not_lt.mp hi), (Option.some.inj hstep).symm⟩
      · exact Or.inr ⟨_, .wait hpc, (Option.some.inj hstep).symm⟩
  case h_3 hpc => exact Or.inr ⟨_, .wake hpc, (Option.some.inj hstep).symm⟩
  case h_4 => cases hstep

/-- The steps of the timer branch of `usertrap`. -/
inductive Traps (s : Sys ι) (h : ι) : Sys ι → Prop where
  | boost {i j : ℕ} : s.pc h = .boost i j → j < nproc →
      Traps s h ((s.modProc j Proc.boosted).goto h (.boost i (j + 1)))
  | boosted {i j : ℕ} : s.pc h = .boost i j → Traps s h (s.goto h (.count i))
  | count {i : ℕ} : s.pc h = .count i → (s.procs i).state = .running → Traps s h (s.consume h i)
  | skip {i : ℕ} : s.pc h = .count i → Traps s h (s.goto h (.running i))
  | record {i : ℕ} : s.pc h = .record i →
      Traps s h ((s.modProc i Proc.recordTick).goto h (.check i))
  | full {i : ℕ} : s.pc h = .check i → Traps s h (s.giveUp h i .runnable)
  | go {i : ℕ} : s.pc h = .check i → (s.procs i).ticksConsumed < quantum (s.procs i).level →
      Traps s h (s.goto h (.running i))

theorem traps_of_trap (hstep : s.trap h = some s') : Traps s h s' := by
  rw [Sys.trap] at hstep
  split at hstep
  case h_1 hpc =>
    split at hstep <;> obtain rfl := Option.some.inj hstep
    · exact .boost hpc ‹_›
    · exact .boosted hpc
  case h_2 hpc =>
    split at hstep <;> obtain rfl := Option.some.inj hstep
    · exact .count hpc ‹_›
    · exact .skip hpc
  case h_3 hpc =>
    obtain rfl := Option.some.inj hstep
    exact .record hpc
  case h_4 hpc =>
    split at hstep <;> obtain rfl := Option.some.inj hstep
    · exact .full hpc
    · exact .go hpc (not_le.mp ‹_›)
  case h_5 => cases hstep

end

end Pa2

end Xv6
