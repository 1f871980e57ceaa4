import Xv6.Params
import Xv6.Lib.Transition

/-!
# The scheduler

The process table of `kernel/proc.c` as the multi-level feedback queue sees it: `mlfq_tick`,
`global_boost`, `allocproc`, `freeproc`, `sleep`, `wakeup`, `kkill`, `yield`, and the two passes of
`scheduler`; the count of system calls of `kernel/syscall.c`; and the timer interrupt of
`kernel/trap.c`, which calls `mlfq_tick` and then `yield`.

First come the functions on one process, then the events of one process, then the system: one hart,
on which the scheduler visits the slots of the table one at a time, each with the lock of the slot
held, and on which a dispatched process runs until it gives the hart up. Interrupts come between the
visits and while a process runs.

Fields of `struct proc` that none of these functions reads are left out. `sleep` clears `chan` when
the process runs again; `wakeup` looks at `chan` only of a process that sleeps, so the field is left
as it is here.
-/

namespace Xv6

namespace Sched

/-- `enum procstate` -/
inductive ProcState where
  | unused
  | used
  | sleeping
  | runnable
  | running
  | zombie
  deriving DecidableEq

/-- The fields of `struct proc` that scheduling reads and updates. -/
structure Proc where
  state : ProcState
  chan : ℕ
  totalSyscalls : ℤ
  curQLevel : ℤ
  ticksAtCurLevel : ℤ
  ticksPerLevel : ℤ → ℤ
  numTimesSched : ℤ
  temp : ℤ

/-! ### One process -/

/-- The quantum that `mlfq_tick` looks up. -/
def quantum (level : ℤ) : ℤ :=
  if level = 1 then 4 else if level = 2 then 8 else if level = 3 then 16 else 2

/-- The counters that a timer tick advances. -/
def Proc.countTick (p : Proc) : Proc :=
  { p with
    ticksAtCurLevel := int32 (p.ticksAtCurLevel + 1)
    ticksPerLevel := Function.update p.ticksPerLevel p.curQLevel
      (int32 (p.ticksPerLevel p.curQLevel + 1)) }

/-- The end of a slice: the demotion rule, and the counters for the next slice. -/
def Proc.endSlice (p : Proc) : Proc :=
  let deltaS := int32 (p.totalSyscalls - p.temp)
  let deltaT := p.ticksAtCurLevel
  { p with
    curQLevel := if deltaS < deltaT ∧ p.curQLevel < 3 then int32 (p.curQLevel + 1) else p.curQLevel
    ticksAtCurLevel := 0
    temp := p.totalSyscalls }

/-- `mlfq_tick` -/
def Proc.mlfqTick (p : Proc) : Proc :=
  let p := p.countTick
  if p.ticksAtCurLevel ≥ quantum p.curQLevel then p.endSlice else p

/-- What `global_boost` does to one process. -/
def Proc.boosted (p : Proc) : Proc :=
  if p.state = .runnable then
    { p with curQLevel := 0, ticksAtCurLevel := 0, temp := p.totalSyscalls }
  else p

/-- What `allocproc` does to the slot it has found. -/
def Proc.alloc (p : Proc) : Proc :=
  { p with
    state := .used
    totalSyscalls := 0
    curQLevel := 0
    ticksAtCurLevel := 0
    ticksPerLevel := fun i => if 0 ≤ i ∧ i < 4 then 0 else p.ticksPerLevel i
    temp := 0 }

/-- What `freeproc` does to a slot. -/
def Proc.free (p : Proc) : Proc := { p with chan := 0, state := .unused, totalSyscalls := 0 }

/-- What the second pass of `scheduler` does to a process before it switches to it. -/
def Proc.dispatch (p : Proc) : Proc :=
  { p with
    state := .running
    numTimesSched := int32 (p.numTimesSched + 1)
    temp := if p.ticksAtCurLevel = 0 then p.totalSyscalls else p.temp }

/-- What `syscall` does for a number it knows. -/
def Proc.syscall (p : Proc) : Proc := { p with totalSyscalls := int32 (p.totalSyscalls + 1) }

/-- What `wakeup` does to one process. -/
def Proc.wakeup (chan : ℕ) (p : Proc) : Proc :=
  if p.state = .sleeping ∧ p.chan = chan then { p with state := .runnable } else p

/-- What `kkill` does to the process it has found. -/
def Proc.kill (p : Proc) : Proc :=
  if p.state = .sleeping then { p with state := .runnable } else p

/-! ### The events of one process -/

/-- What can happen to a process between its creation and its end. -/
inductive Event where
  /-- `kfork` has finished the child. -/
  | start
  | dispatch
  /-- A system call with a known number. -/
  | syscall
  /-- A timer interrupt: `mlfq_tick`, then `yield`. -/
  | tick
  | sleep (chan : ℕ)
  /-- `wakeup` or `kkill` ends a sleep. -/
  | wakeup
  /-- `global_boost` finds the process runnable. -/
  | boost
  | exit
  deriving DecidableEq

/-- One event; `none` when the process is not in the state for it. -/
def Proc.step (p : Proc) : Event → Option Proc
  | .start => if p.state = .used then some { p with state := .runnable } else none
  | .dispatch => if p.state = .runnable then some p.dispatch else none
  | .syscall => if p.state = .running then some p.syscall else none
  | .tick => if p.state = .running then some { p.mlfqTick with state := .runnable } else none
  | .sleep chan =>
    if p.state = .running then some { p with chan := chan, state := .sleeping } else none
  | .wakeup => if p.state = .sleeping then some { p with state := .runnable } else none
  | .boost => if p.state = .runnable then some p.boosted else none
  | .exit => if p.state = .running then some { p with state := .zombie } else none

/-- The process after a history, which lists its events from the latest to the first. -/
def Proc.after (p : Proc) : List Event → Option Proc
  | [] => some p
  | e :: h => (p.after h).bind (Proc.step · e)

theorem Proc.after_cons_eq_some {p p' : Proc} {e : Event} {h : List Event} :
    p.after (e :: h) = some p' ↔ ∃ m, p.after h = some m ∧ m.step e = some p' :=
  Option.bind_eq_some_iff

/-! ### The system -/

/-- `NPROC` -/
def nproc : ℕ := 64

/-- Where the hart is. -/
inductive Pc where
  /-- At the top of the loop of `scheduler`. -/
  | top
  /-- In the first pass, before the visit of slot `i` for `level`. -/
  | pass1 (level i : ℕ)
  /-- In the second pass, before the visit of slot `i`. -/
  | pass2 (tLevel i : ℕ) (found : Bool)
  /-- In the process of slot `i`, which the second pass has dispatched. -/
  | running (tLevel i : ℕ)
  | wfi
  deriving DecidableEq

/-- One hart and the process table. -/
structure Sys where
  procs : ℕ → Proc
  pc : Pc

/-- The next step of `scheduler`; none while a process runs. -/
def Sys.sched (s : Sys) : Option Sys :=
  match s.pc with
  | .top => some { s with pc := .pass1 0 0 }
  | .pass1 level i =>
    if i < nproc then
      if (s.procs i).state = .runnable ∧ (s.procs i).curQLevel = level then
        some { s with pc := .pass2 level 0 false }
      else some { s with pc := .pass1 level (i + 1) }
    else if level + 1 < 4 then some { s with pc := .pass1 (level + 1) 0 }
    else some { s with pc := .wfi }
  | .pass2 tLevel i found =>
    if i < nproc then
      if (s.procs i).curQLevel = tLevel ∧ (s.procs i).state = .runnable then
        some ⟨Function.update s.procs i (s.procs i).dispatch, .running tLevel i⟩
      else some { s with pc := .pass2 tLevel (i + 1) found }
    else if found then some { s with pc := .top }
    else some { s with pc := .wfi }
  | .running _ _ => none
  | .wfi => some { s with pc := .top }

/-- The steps of the system. -/
inductive Act where
  /-- The next step of `scheduler`. -/
  | sched
  /-- `wakeup`, called by an interrupt handler or by the running process. -/
  | wakeup (chan : ℕ)
  /-- `global_boost`, called by the clock interrupt. -/
  | boost
  /-- The running process is interrupted by the timer. -/
  | tick
  | syscall
  | sleep (chan : ℕ)
  | exit
  /-- The running process calls `allocproc`. -/
  | alloc
  /-- The running process makes the child it has finished runnable. -/
  | start (q : ℕ)
  | kill (q : ℕ)
  /-- The running process calls `freeproc` on a child. -/
  | free (q : ℕ)
  deriving DecidableEq

/-- Update one slot. -/
def Sys.modProc (s : Sys) (i : ℕ) (f : Proc → Proc) : Sys :=
  { s with procs := Function.update s.procs i (f (s.procs i)) }

/-- The running process changes its own slot and switches back to the scheduler. -/
def Sys.giveUp (s : Sys) (tLevel i : ℕ) (f : Proc → Proc) : Sys :=
  { s.modProc i f with pc := .pass2 tLevel (i + 1) true }

/-- A step of the process that runs at slot `i`. -/
def Sys.process (s : Sys) (tLevel i : ℕ) : Act → Option Sys
  | .tick => some (s.giveUp tLevel i fun p => { p.mlfqTick with state := .runnable })
  | .syscall => some (s.modProc i Proc.syscall)
  | .sleep chan =>
    some (s.giveUp tLevel i fun p => { p with chan := chan, state := .sleeping })
  | .exit => some (s.giveUp tLevel i fun p => { p with state := .zombie })
  | .alloc =>
    match (List.range nproc).find? fun q => (s.procs q).state = .unused with
    | none => some s
    | some q => some (s.modProc q Proc.alloc)
  | .start q =>
    if q < nproc ∧ (s.procs q).state = .used then
      some (s.modProc q fun p => { p with state := .runnable })
    else none
  | .kill q => if q < nproc then some (s.modProc q Proc.kill) else none
  | .free q =>
    if q < nproc ∧ ((s.procs q).state = .zombie ∨ (s.procs q).state = .used) then
      some (s.modProc q Proc.free)
    else none
  | _ => none

/-- `myproc()` -/
def Sys.myproc (s : Sys) : Option ℕ :=
  match s.pc with
  | .running _ i => some i
  | _ => none

/-- The step of the system. -/
def Sys.step (s : Sys) : Act → Option Sys
  | .sched => s.sched
  | .wakeup chan =>
    some { s with procs := fun q =>
      if q < nproc ∧ s.myproc ≠ some q then (s.procs q).wakeup chan else s.procs q }
  | .boost =>
    some { s with procs := fun q => if q < nproc then (s.procs q).boosted else s.procs q }
  | a =>
    match s.pc with
    | .running tLevel i => s.process tLevel i a
    | _ => none

end Sched

end Xv6
