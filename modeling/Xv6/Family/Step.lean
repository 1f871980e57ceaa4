import Xv6.Sched.Proc

/-!
# Processes, their parents and their children

`kfork`, `kexit`, `kwait` and `kkill` of `kernel/proc.c`, with `allocproc`, `freeproc` and
`reparent`, as steps of the processes that run them. Every process has its own place in this code
(`Pc`), and the processes take steps in any order.

A step is what happens under one acquisition of the lock of a slot. `wait_lock` is held over several
steps, so the state says who holds it; the lock of a slot is held over several steps only by an
exiting process, from the moment it is a zombie until the scheduler has switched away from it.
`allocproc` has no lock while it allocates memory, `kfork` none while it copies memory, `kwait` none
during `copyout`, and in all three places the process may sleep.

A process that has slept clears `chan` when it runs again; `wakeup` looks at `chan` only of a
process that sleeps, so the field is left as it is here. The fields of `struct proc` that none of
these functions reads are left out, and so are the memory and the files of a process.
-/

namespace Xv6

namespace Family

open Sched (ProcState nproc)

/-- What a process sleeps on: the slot of a process, or something else. -/
inductive Chan where
  | proc (p : ℕ)
  | other (n : ℕ)
  deriving DecidableEq

/-- Where a process is in the code. -/
inductive Pc where
  /-- In user space, or in kernel code that does nothing of what follows. -/
  | user
  /-- In the loop of `allocproc`, before the visit of slot `i`. -/
  | forkScan (i : ℕ)
  /-- `allocproc` has claimed slot `c` and allocates memory. -/
  | forkAlloc (c : ℕ) (pid : ℤ)
  /-- `kfork` copies the memory. -/
  | forkCopy (c : ℕ) (pid : ℤ)
  /-- Before `np->parent = p`. -/
  | forkParent (c : ℕ) (pid : ℤ)
  /-- Before `np->state = RUNNABLE`. -/
  | forkStart (c : ℕ) (pid : ℤ)
  /-- `kexit`, before it acquires `wait_lock`. -/
  | exitEnter (status : ℤ)
  /-- In `reparent`, before slot `i`. -/
  | reparent (status : ℤ) (i : ℕ)
  /-- In `reparent`, slot `i` has been given to `initproc`, which is woken: before slot `j`. -/
  | reparentWake (status : ℤ) (i j : ℕ)
  /-- The parent of the exiting process is woken: before slot `j`. -/
  | exitWake (status : ℤ) (parent : Option ℕ) (j : ℕ)
  /-- Before `p->state = ZOMBIE`. -/
  | exitZombie (status : ℤ)
  /-- The zombie holds its own lock, and has not switched away yet. -/
  | switch
  /-- `kwait`, before it acquires `wait_lock`, at first or after a sleep. -/
  | waitEnter
  /-- In the loop of `kwait`, before slot `i`. -/
  | waitScan (i : ℕ) (havekids : Bool)
  /-- After the loop. -/
  | waitEnd (havekids : Bool)
  /-- Before `sleep(p, &wait_lock)`. -/
  | waitSleep
  /-- `kwait` has found the zombie in slot `c` and copies out its status. -/
  | waitCopyout (c : ℕ) (pid xstate : ℤ)
  /-- Before it acquires the locks again. -/
  | waitReturn (c : ℕ) (pid : ℤ) (ok : Bool)
  /-- Before `freeproc`. -/
  | waitFree (c : ℕ) (pid : ℤ) (ok : Bool)
  deriving DecidableEq

/-- A slot of the process table, and the place of its process in the code. -/
structure Proc where
  state : ProcState
  pid : ℤ
  parent : Option ℕ
  chan : Option Chan
  killed : Bool
  xstate : ℤ
  pc : Pc

/-- The process table, `nextpid` and `wait_lock`. `reaped` lists the pids that calls of `kwait` have
returned; no function of the kernel reads it. -/
structure Sys where
  procs : ℕ → Proc
  nextpid : ℤ
  waitLock : Option ℕ
  reaped : List ℤ

/-- The slot of the first process. -/
def initproc : ℕ := 0

/-- What `freeproc` does to a slot. -/
def Proc.freeproc (p : Proc) : Proc :=
  { p with state := .unused, pid := 0, parent := none, chan := none, killed := false, xstate := 0 }

/-- What `wakeup` does to a slot. -/
def Proc.wakeup (chan : Option Chan) (p : Proc) : Proc :=
  if p.state = .sleeping ∧ p.chan = chan then { p with state := .runnable } else p

/-- What `kkill` does to the slot it has found. -/
def Proc.kill (p : Proc) : Proc :=
  { p with killed := true, state := if p.state = .sleeping then .runnable else p.state }

/-- Places at which `wait_lock` is held. -/
def Pc.holdsWait : Pc → Bool
  | .reparent _ _ | .reparentWake _ _ _ | .exitWake _ _ _ | .exitZombie _ => true
  | .waitScan _ _ | .waitEnd _ | .waitSleep | .waitFree _ _ _ => true
  | .user | .forkScan _ | .forkAlloc _ _ | .forkCopy _ _ | .forkParent _ _ | .forkStart _ _ => false
  | .exitEnter _ | .switch | .waitEnter | .waitCopyout _ _ _ | .waitReturn _ _ _ => false

/-- Places at which no spinlock is held and the code may sleep. -/
def Pc.maySleep : Pc → Bool
  | .user | .forkAlloc _ _ | .forkCopy _ _ | .waitCopyout _ _ _ => true
  | _ => false

namespace Sys

/-- Update one slot. -/
def mod (s : Sys) (i : ℕ) (f : Proc → Proc) : Sys :=
  { s with procs := Function.update s.procs i (f (s.procs i)) }

/-- A process goes on elsewhere. -/
def goto (s : Sys) (p : ℕ) (pc : Pc) : Sys := s.mod p fun q => { q with pc := pc }

/-- Set the holder of `wait_lock`. -/
def lock (s : Sys) (holder : Option ℕ) : Sys := { s with waitLock := holder }

/-- The lock of the slot is free. -/
def Unlocked (s : Sys) (c : ℕ) : Prop := (s.procs c).pc ≠ .switch

instance (s : Sys) (c : ℕ) : Decidable (s.Unlocked c) := inferInstanceAs (Decidable (_ ≠ _))

/-- One slot of the loop of `wakeup`, called by process `p`. -/
def wake (s : Sys) (p j : ℕ) (chan : Option ℕ) : Option Sys :=
  if j = p then some s
  else if s.Unlocked j then some (s.mod j (Proc.wakeup (chan.map .proc)))
  else none

/-- One slot of the loop of `allocproc`. `allocpid` has no defined result when `nextpid` is the
greatest `int`. -/
def claim (s : Sys) (p i : ℕ) : Option Sys :=
  if ¬ s.Unlocked i then none
  else if (s.procs i).state = .unused then
    if s.nextpid < 2 ^ 31 - 1 then
      some { (s.mod i fun c => { c with pid := s.nextpid, state := .used }).goto p
        (.forkAlloc i s.nextpid) with nextpid := s.nextpid + 1 }
    else none
  else some (s.goto p (.forkScan (i + 1)))

/-- A failed `kfork` or `allocproc` gives the slot back and returns -1. -/
def unclaim (s : Sys) (p c : ℕ) : Option Sys :=
  if s.Unlocked c then some ((s.mod c Proc.freeproc).goto p .user) else none

/-- One slot of the loop of `kwait`. -/
def visit (s : Sys) (p i : ℕ) (havekids : Bool) : Option Sys :=
  if (s.procs i).parent = some p then
    if ¬ s.Unlocked i then none
    else if (s.procs i).state = .zombie then
      some ((s.goto p (.waitCopyout i (s.procs i).pid (s.procs i).xstate)).lock none)
    else some (s.goto p (.waitScan (i + 1) true))
  else some (s.goto p (.waitScan (i + 1) havekids))

/-- `kwait` frees the child and returns. -/
def reap (s : Sys) (p c : ℕ) (pid : ℤ) (ok : Bool) : Option Sys :=
  if s.Unlocked c then
    some { ((s.mod c Proc.freeproc).goto p .user).lock none with
      reaped := if ok then pid :: s.reaped else s.reaped }
  else none

/-- The next step of a process that runs. -/
def next (s : Sys) (p : ℕ) : Option Sys :=
  match (s.procs p).pc with
  | .forkScan i => if i < nproc then s.claim p i else some (s.goto p .user)
  | .forkParent c pid =>
    if s.waitLock = none then
      some ((s.mod c fun q => { q with parent := some p }).goto p (.forkStart c pid))
    else none
  | .forkStart c _ =>
    if s.Unlocked c then
      some ((s.mod c fun q => { q with state := .runnable, pc := .user }).goto p .user)
    else none
  | .exitEnter status =>
    if s.waitLock = none then some ((s.goto p (.reparent status 0)).lock (some p)) else none
  | .reparent status i =>
    if i < nproc then
      if (s.procs i).parent = some p then
        some ((s.mod i fun q => { q with parent := some initproc }).goto p
          (.reparentWake status i 0))
      else some (s.goto p (.reparent status (i + 1)))
    else some (s.goto p (.exitWake status (s.procs p).parent 0))
  | .reparentWake status i j =>
    if j < nproc then
      (s.wake p j (some initproc)).map fun s => s.goto p (.reparentWake status i (j + 1))
    else some (s.goto p (.reparent status (i + 1)))
  | .exitWake status parent j =>
    if j < nproc then (s.wake p j parent).map fun s => s.goto p (.exitWake status parent (j + 1))
    else some (s.goto p (.exitZombie status))
  | .exitZombie status =>
    some ((s.mod p fun q => { q with state := .zombie, xstate := status, pc := .switch }).lock none)
  | .waitEnter =>
    if s.waitLock = none then some ((s.goto p (.waitScan 0 false)).lock (some p)) else none
  | .waitScan i havekids =>
    if i < nproc then s.visit p i havekids else some (s.goto p (.waitEnd havekids))
  | .waitEnd havekids =>
    if havekids = false ∨ (s.procs p).killed then some ((s.goto p .user).lock none)
    else some (s.goto p .waitSleep)
  | .waitSleep =>
    some ((s.mod p fun q =>
      { q with state := .sleeping, chan := some (.proc p), pc := .waitEnter }).lock none)
  | .waitReturn c pid ok =>
    if s.waitLock = none then some ((s.goto p (.waitFree c pid ok)).lock (some p)) else none
  | .waitFree c pid ok => s.reap p c pid ok
  | .user | .forkAlloc _ _ | .forkCopy _ _ | .waitCopyout _ _ _ | .switch => none

/-- The end of an operation on memory, which may fail. -/
def result (s : Sys) (p : ℕ) (ok : Bool) : Option Sys :=
  match (s.procs p).pc with
  | .forkAlloc c pid => if ok then some (s.goto p (.forkCopy c pid)) else s.unclaim p c
  | .forkCopy c pid => if ok then some (s.goto p (.forkParent c pid)) else s.unclaim p c
  | .waitCopyout c pid _ => some (s.goto p (.waitReturn c pid ok))
  | _ => none

end Sys

/-- The steps of the system. -/
inductive Act where
  /-- A system call of a process. -/
  | fork (p : ℕ)
  | exit (p : ℕ) (status : ℤ)
  | wait (p : ℕ)
  /-- The next step of a process in one of these functions. -/
  | next (p : ℕ)
  /-- The end of an operation on memory. -/
  | result (p : ℕ) (ok : Bool)
  /-- The scheduler switches away from a zombie. -/
  | switched (p : ℕ)
  | dispatch (p : ℕ)
  | yield (p : ℕ)
  /-- The process sleeps, on something that is not a process. -/
  | sleep (p n : ℕ)
  /-- The process is woken by other code. -/
  | wakeup (c : ℕ)
  | kill (c : ℕ)
  deriving DecidableEq

/-- A step of a running process at a place in the code. -/
def Sys.call (s : Sys) (p : ℕ) (pc : Pc) : Option Sys :=
  if (s.procs p).state = .running ∧ (s.procs p).pc = .user then some (s.goto p pc) else none

/-- One step. `kexit` panics for the first process. -/
def Sys.step (s : Sys) : Act → Option Sys
  | .fork p => s.call p (.forkScan 0)
  | .exit p status => if p = initproc then none else s.call p (.exitEnter status)
  | .wait p => s.call p .waitEnter
  | .next p => if (s.procs p).state = .running then s.next p else none
  | .result p ok => if (s.procs p).state = .running then s.result p ok else none
  | .switched p => if (s.procs p).pc = .switch then some (s.goto p .user) else none
  | .dispatch p =>
    if (s.procs p).state = .runnable then some (s.mod p fun q => { q with state := .running })
    else none
  | .yield p =>
    if (s.procs p).state = .running ∧ (s.procs p).pc.holdsWait = false then
      some (s.mod p fun q => { q with state := .runnable })
    else none
  | .sleep p n =>
    if (s.procs p).state = .running ∧ (s.procs p).pc.maySleep then
      some (s.mod p fun q => { q with state := .sleeping, chan := some (.other n) })
    else none
  | .wakeup c =>
    match (s.procs c).chan with
    | some (.other n) => some (s.mod c (Proc.wakeup (some (.other n))))
    | _ => none
  | .kill c => if c < nproc ∧ s.Unlocked c then some (s.mod c Proc.kill) else none

/-- The table when `userinit` has made the first process. -/
def Sys.boot : Sys where
  procs c :=
    if c = initproc then ⟨.runnable, 1, none, none, false, 0, .user⟩
    else ⟨.unused, 0, none, none, false, 0, .user⟩
  nextpid := 2
  waitLock := none
  reaped := []

/-- `sys_getppid` -/
def Sys.sysGetppid (s : Sys) (p : ℕ) : ℤ :=
  match (s.procs p).parent with
  | none => -1
  | some q => (s.procs q).pid

end Family

end Xv6
