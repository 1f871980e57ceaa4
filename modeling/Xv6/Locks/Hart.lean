import Xv6.Disk.SwapPage
import Xv6.Mem.Pte
import Xv6.Sched.Proc

/-!
# Spinlocks, interrupts and sleeping on one hart

`kernel/spinlock.c` (`acquire`, `release`, `push_off`, `pop_off`), and `sched`, `sleep`, `wakeup`
and `killed` of `kernel/proc.c`, as one hart executes them for a process. What counts here is the
nesting depth `noff`: `sched` gives the hart away and panics unless exactly one spinlock is held.

The other harts are an environment. What they do between two moments at which this hart takes a
lock is a function on the shared data, and a `Hart` carries the stream of these functions. They
cannot touch what a held lock protects (`Shared.guarded`). While the process is off the hart, after
`sched`, the environment takes its turn as well.

Which processes sleep and on what is part of the environment, so `sleep` and `wakeup` have no
channel here; the locks that they take are all there.
-/

namespace Xv6

namespace Locks

open Mem (Pte Key)
open Sched (nproc)

/-- The spinlocks on the way from a pipe to the disk. -/
inductive Lock where
  | pipe
  | proc (i : ℕ)
  | kmem
  | frametable
  | swap
  | disksched
  | bcache
  /-- The spinlock inside the sleep lock of buffer `b`. -/
  | sleep (b : ℕ)
  | vdisk
  deriving DecidableEq, Repr

/-- `struct pipe` -/
structure Pipe where
  data : ℕ → BitVec 8
  nread : BitVec 32
  nwrite : BitVec 32
  readopen : Bool
  writeopen : Bool

/-- A page table: which table pages exist, and the leaf entries of those of the last level. -/
structure Table where
  root : Bool
  mid : Fin 512 → Bool
  low : Fin 512 → Fin 512 → Bool
  leaf : Key → Pte

/-- `struct frame` -/
structure Frame where
  inUse : Bool
  p : Option ℕ
  va : ℕ
  referenceBit : Bool

/-- `struct buf`, with the fields of its sleep lock. -/
structure Buf where
  blockno : ℕ
  valid : Bool
  refcnt : ℕ
  locked : Bool
  pid : ℕ
  disk : Bool

/-- The data that the harts share. -/
structure Shared where
  pipe : Pipe
  killed : ℕ → Bool
  sz : ℕ → ℕ
  curQLevel : ℕ → ℤ
  tables : ℕ → Table
  /-- The bytes of user memory, by process and address. -/
  user : ℕ → ℕ → BitVec 8
  freelist : List ℕ
  frames : ℕ → Frame
  clockHand : ℕ
  swapInUse : ℤ → Bool
  disk : Disk.DiskState
  bufs : ℕ → Buf
  /-- `bcache`'s list, most recently used first. -/
  lru : List ℕ
  /-- The free descriptors of the disk's ring. -/
  freeDescs : ℕ
  /-- The linker symbol `end`. -/
  kend : ℕ

/-- `t`, except for what `lk` protects, which is as in `s`. -/
def Shared.guarded (s t : Shared) : Lock → Shared
  | .pipe => { t with pipe := s.pipe }
  | .proc i => { t with killed := Function.update t.killed i (s.killed i) }
  | .kmem => { t with freelist := s.freelist }
  | .frametable => { t with frames := s.frames, clockHand := s.clockHand }
  | .swap => { t with swapInUse := s.swapInUse }
  | .disksched => { t with disk := s.disk }
  | .bcache => { t with
      lru := s.lru
      bufs := fun b =>
        { t.bufs b with blockno := (s.bufs b).blockno, refcnt := (s.bufs b).refcnt } }
  | .sleep b => { t with
      bufs := Function.update t.bufs b
        { t.bufs b with locked := (s.bufs b).locked, pid := (s.bufs b).pid } }
  | .vdisk => { t with
      freeDescs := s.freeDescs
      bufs := fun b => { t.bufs b with disk := (s.bufs b).disk } }

/-- What the code finds at the two places where it turns to the disk or not. -/
inductive Look where
  /-- The entry that `walkaddr` finds. -/
  | pte (pte : Option Pte)
  /-- The pages that `kalloc` finds on the free list. -/
  | free (pages : ℕ)

/-- The hart, the process on it, and the rest of the machine. -/
structure Hart where
  noff : ℤ
  intena : Bool
  /-- Interrupts are on. -/
  intr : Bool
  held : List Lock
  /-- The process that runs here. -/
  proc : ℕ
  /-- Its state is `RUNNING`. -/
  running : Bool
  shared : Shared
  /-- What the other harts do, each time this one looks up. -/
  env : ℕ → Shared → Shared
  /-- What was found so far, newest first. No function reads it. -/
  log : List Look

/-- The ways kernel code does not return: a panic, or the end of the steps that are followed. -/
inductive Stop where
  | panic (msg : String)
  | more
  deriving DecidableEq, Repr

/-- Kernel code on a hart. -/
abbrev M := EStateM Stop Hart

/-- The shared data as the hart finds it when it looks up. -/
def Hart.sees (h : Hart) : Shared :=
  h.held.foldl (fun t lk => h.shared.guarded t lk) (h.env 0 h.shared)

/-- The other harts take their turn. -/
def interfere : M Unit :=
  modify fun h => { h with shared := h.sees, env := fun n => h.env (n + 1) }

/-- Update the shared data. -/
def modShared (f : Shared → Shared) : M Unit := modify fun h => { h with shared := f h.shared }

/-- The shared data. -/
def getShared : M Shared := do
  let h ← get
  pure h.shared

/-! ### `spinlock.c` -/

/-- `push_off` -/
def pushOff : M Unit := modify fun h => { h with
  intr := false
  intena := if h.noff = 0 then h.intr else h.intena
  noff := h.noff + 1 }

/-- `pop_off` -/
def popOff : M Unit := do
  let h ← get
  if h.intr then throw (.panic "pop_off - interruptible")
  else if h.noff < 1 then throw (.panic "pop_off")
  else set { h with
    noff := h.noff - 1
    intr := if h.noff - 1 = 0 ∧ h.intena then true else h.intr }

/-- `holding` -/
def holding (lk : Lock) : M Bool := do
  let h ← get
  pure (decide (lk ∈ h.held))

/-- `acquire`: the other harts go on while this one spins. -/
def acquire (lk : Lock) : M Unit := do
  pushOff
  if ← holding lk then throw (.panic "acquire")
  else
    interfere
    modify fun h => { h with held := lk :: h.held }

/-- `release` -/
def release (lk : Lock) : M Unit := do
  if ← holding lk then
    modify fun h => { h with held := h.held.erase lk }
    popOff
  else throw (.panic "release")

/-! ### `proc.c` -/

/-- `myproc` -/
def myproc : M ℕ := do
  pushOff
  let h ← get
  popOff
  pure h.proc

/-- `swtch` into the scheduler and, some time later, back out of it: the process resumes on a hart
whose scheduler has taken `p->lock`, and nothing else. -/
def swtch : M Unit := do
  interfere
  modify fun h => { h with
    noff := 1, held := [.proc h.proc], intr := false, running := true }

/-- `sched` -/
def sched : M Unit := do
  let p ← myproc
  let h ← get
  if h.noff ≠ 1 then throw (.panic "sched locks")
  else if .proc p ∉ h.held then throw (.panic "sched p->lock")
  else if h.running then throw (.panic "sched RUNNING")
  else if h.intr then throw (.panic "sched interruptible")
  else
    swtch
    modify fun h' => { h' with intena := h.intena }

/-- `sleep` -/
def sleep (lk : Lock) : M Unit := do
  let p ← myproc
  acquire (.proc p)
  release lk
  modify fun h => { h with running := false }
  sched
  release (.proc p)
  acquire lk

/-- `wakeup`, over the given slots of the process table. -/
def wakeupLoop : List ℕ → M Unit
  | [] => pure ()
  | i :: is => do
    let p ← myproc
    if i ≠ p then
      acquire (.proc i)
      release (.proc i)
      wakeupLoop is
    else wakeupLoop is

/-- `wakeup` -/
def wakeup : M Unit := wakeupLoop (List.range nproc)

/-- `killed` -/
def killed (p : ℕ) : M Bool := do
  acquire (.proc p)
  let s ← getShared
  release (.proc p)
  pure (s.killed p)

end Locks

end Xv6
