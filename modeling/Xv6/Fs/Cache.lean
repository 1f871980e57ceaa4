import Xv6.Fs.Log
import Xv6.Lib.Ring

/-!
# The buffer cache

`bio.c` over the pointers its list is made of: `binit`, `bget`, `bread`, `bwrite`, `brelse`,
`bpin` and `bunpin`, with the sleep lock of each buffer.

## Scope

`ι` is the type of the uses of buffers: a process that holds several buffers appears once for
each of them. One action is what a use does under `bcache.lock`, under a buffer's sleep lock, or
as one transfer of the disk; in between any other use may act. So a use that has found its buffer
may wait for the lock while others take, write and release the buffer, and `brelse` gives the
lock back some time before it drops its reference.

The driver addresses the disk by block number alone and ignores the device, as
`virtio_disk_rw` does. Two fields are ghosts, read by no function: `pins`, how often `bpin` holds
a buffer, and `last`, when `brelse` last moved a buffer to the front of the list.
-/

namespace Xv6

namespace Fs

namespace Cache

open Disk (Block)
open Function (update)

/-- `NBUF`. -/
def nbuf : ℕ := maxopblocks * 3

/-- A node of the list: a buffer, or `none` for `bcache.head`. -/
abbrev Node := Option (Fin nbuf)

/-- `struct buf`; `lock` is the process in whose hands its sleep lock is. -/
structure Buf (ι : Type) where
  dev : ℕ
  blockno : ℕ
  valid : Bool
  refcnt : ℤ
  data : Block
  lock : Option ι

/-- How far a use of a buffer has come. -/
inductive Phase where
  /-- Has a reference, is about to acquire the lock. -/
  | wait
  /-- Holds the lock; `bread` reads the block from the disk. -/
  | fill
  /-- Holds the lock; `bread` has returned. -/
  | use
  /-- `brelse` has released the lock but not dropped the reference. -/
  | drop
  deriving DecidableEq, Repr

/-- What a use is doing: nothing, or something with buffer `i`, which it got for block `b` of
`dev`. -/
inductive Pc where
  | idle
  | held (ph : Phase) (i : Fin nbuf) (dev b : ℕ)
  deriving DecidableEq

/-- The cache and the disk. -/
structure State (ι : Type) where
  links : Links Node
  buf : Fin nbuf → Buf ι
  disk : ℕ → Block
  pc : ι → Pc
  pins : Fin nbuf → ℕ
  last : Fin nbuf → ℕ
  clock : ℕ

section Functions

variable {ι : Type}

/-- The pointers `binit` leaves: one buffer after the other goes to the front. -/
def binitLinks : Links Node :=
  (List.finRange nbuf).foldl (fun p i => p.pushFront none (some i))
    (((⟨fun _ => none, fun _ => none⟩ : Links Node).setPrev none none).setNext none none)

/-- `binit`: the buffers are zero. -/
def binit (d : ℕ → Block) : State ι where
  links := binitLinks
  buf := fun _ => ⟨0, 0, false, 0, fun _ => 0, none⟩
  disk := d
  pc := fun _ => .idle
  pins := fun _ => 0
  last := fun i => i
  clock := nbuf

namespace State

/-- The first loop of `bget`. -/
def findCached (dev b : ℕ) (s : State ι) : Option (Fin nbuf) :=
  (Links.scan s.links.next none
    (fun n => n.elim false fun i => (s.buf i).dev == dev && (s.buf i).blockno == b)
    (nbuf + 1) (s.links.next none)).join

/-- The second loop of `bget`, from the other end of the list. -/
def findUnused (s : State ι) : Option (Fin nbuf) :=
  (Links.scan s.links.prev none (fun n => n.elim false fun i => (s.buf i).refcnt == 0)
    (nbuf + 1) (s.links.prev none)).join

def setBuf (i : Fin nbuf) (x : Buf ι) (s : State ι) : State ι :=
  { s with buf := update s.buf i x }

/-- `bget`, up to the call of `acquiresleep`. -/
def bget (dev b : ℕ) (s : State ι) : Except String (Fin nbuf × State ι) :=
  match s.findCached dev b with
  | some i => .ok (i, s.setBuf i { s.buf i with refcnt := (s.buf i).refcnt + 1 })
  | none =>
    match s.findUnused with
    | some i => .ok (i, s.setBuf i
        { s.buf i with dev := dev, blockno := b, valid := false, refcnt := 1 })
    | none => .error "bget: no buffers"

/-- `b->refcnt--`. -/
def decRef (i : Fin nbuf) (s : State ι) : State ι :=
  s.setBuf i { s.buf i with refcnt := (s.buf i).refcnt - 1 }

/-- Move a buffer to the front of the list. -/
def toFront (i : Fin nbuf) (s : State ι) : State ι :=
  { s with
    links := (s.links.unlink (some i)).pushFront none (some i)
    last := update s.last i s.clock
    clock := s.clock + 1 }

/-- `brelse`, after `releasesleep`. -/
def putBuf (i : Fin nbuf) (s : State ι) : State ι :=
  if ((s.decRef i).buf i).refcnt = 0 then (s.decRef i).toFront i else s.decRef i

end State

end Functions

/-- What a use may do next. -/
inductive Act (ι : Type) where
  | bget (u : ι) (dev b : ℕ)
  | acquiresleep (u : ι)
  /-- `bread` reads the block and marks the buffer valid. -/
  | fill (u : ι)
  /-- The use changes the bytes in the buffer. -/
  | store (u : ι) (v : Block)
  | bwrite (u : ι)
  | bpin (u : ι)
  | bunpin (u : ι)
  /-- `brelse` up to its `releasesleep`. -/
  | releasesleep (u : ι)
  /-- The rest of `brelse`. -/
  | put (u : ι)

variable {ι : Type} [DecidableEq ι]

/-- `holdingsleep`. -/
def holdingsleep (s : State ι) (i : Fin nbuf) (u : ι) : Bool := (s.buf i).lock == some u

/-- Use `u` goes on at `x`. -/
def State.goto (u : ι) (x : Pc) (s : State ι) : State ι :=
  { s with pc := update s.pc u x }

/-- One action. A panic, of `bget` or of a failed `holdingsleep`, is not a step. A use unpins only
what has been pinned. -/
def step (s : State ι) : Act ι → Option (State ι)
  | .bget u dev b =>
    match s.pc u with
    | .idle => (s.bget dev b).toOption.map fun r => r.2.goto u (.held .wait r.1 dev b)
    | _ => none
  | .acquiresleep u =>
    match s.pc u with
    | .held .wait i dev b =>
      if (s.buf i).lock.isSome then none
      else some ((s.setBuf i { s.buf i with lock := some u }).goto u
        (.held (if (s.buf i).valid then .use else .fill) i dev b))
    | _ => none
  | .fill u =>
    match s.pc u with
    | .held .fill i dev b =>
      some ((s.setBuf i { s.buf i with data := s.disk (s.buf i).blockno, valid := true }).goto u
        (.held .use i dev b))
    | _ => none
  | .store u v =>
    match s.pc u with
    | .held .use i _ _ => some (s.setBuf i { s.buf i with data := v })
    | _ => none
  | .bwrite u =>
    match s.pc u with
    | .held .use i _ _ =>
      if holdingsleep s i u then
        some { s with disk := update s.disk (s.buf i).blockno (s.buf i).data }
      else none
    | _ => none
  | .bpin u =>
    match s.pc u with
    | .held .use i _ _ =>
      some { s.setBuf i { s.buf i with refcnt := (s.buf i).refcnt + 1 } with
        pins := update s.pins i (s.pins i + 1) }
    | _ => none
  | .bunpin u =>
    match s.pc u with
    | .held .use i _ _ =>
      if s.pins i = 0 then none
      else some { s.setBuf i { s.buf i with refcnt := (s.buf i).refcnt - 1 } with
        pins := update s.pins i (s.pins i - 1) }
    | _ => none
  | .releasesleep u =>
    match s.pc u with
    | .held .use i dev b =>
      if holdingsleep s i u then
        some ((s.setBuf i { s.buf i with lock := none }).goto u (.held .drop i dev b))
      else none
    | _ => none
  | .put u =>
    match s.pc u with
    | .held .drop i _ _ => some ((s.putBuf i).goto u .idle)
    | _ => none

/-! ### What a step does -/

/-- What one action does, and when it is possible. -/
inductive Step (s : State ι) : Act ι → State ι → Prop where
  | hit {u dev b i} (hpc : s.pc u = .idle) (hi : s.findCached dev b = some i) :
    Step s (.bget u dev b)
      ((s.setBuf i { s.buf i with refcnt := (s.buf i).refcnt + 1 }).goto u (.held .wait i dev b))
  | recycle {u dev b i} (hpc : s.pc u = .idle) (hc : s.findCached dev b = none)
    (hi : s.findUnused = some i) :
    Step s (.bget u dev b)
      ((s.setBuf i { s.buf i with dev := dev, blockno := b, valid := false, refcnt := 1 }).goto u
        (.held .wait i dev b))
  | acquiresleep {u i dev b} (hpc : s.pc u = .held .wait i dev b) (hl : (s.buf i).lock = none) :
    Step s (.acquiresleep u)
      ((s.setBuf i { s.buf i with lock := some u }).goto u
        (.held (if (s.buf i).valid then .use else .fill) i dev b))
  | fill {u i dev b} (hpc : s.pc u = .held .fill i dev b) :
    Step s (.fill u)
      ((s.setBuf i { s.buf i with data := s.disk (s.buf i).blockno, valid := true }).goto u
        (.held .use i dev b))
  | store {u v i dev b} (hpc : s.pc u = .held .use i dev b) :
    Step s (.store u v) (s.setBuf i { s.buf i with data := v })
  | bwrite {u i dev b} (hpc : s.pc u = .held .use i dev b) :
    Step s (.bwrite u) { s with disk := update s.disk (s.buf i).blockno (s.buf i).data }
  | bpin {u i dev b} (hpc : s.pc u = .held .use i dev b) :
    Step s (.bpin u) { s.setBuf i { s.buf i with refcnt := (s.buf i).refcnt + 1 } with
      pins := update s.pins i (s.pins i + 1) }
  | bunpin {u i dev b} (hpc : s.pc u = .held .use i dev b) (hp : s.pins i ≠ 0) :
    Step s (.bunpin u) { s.setBuf i { s.buf i with refcnt := (s.buf i).refcnt - 1 } with
      pins := update s.pins i (s.pins i - 1) }
  | releasesleep {u i dev b} (hpc : s.pc u = .held .use i dev b) :
    Step s (.releasesleep u)
      ((s.setBuf i { s.buf i with lock := none }).goto u (.held .drop i dev b))
  | put {u i dev b} (hpc : s.pc u = .held .drop i dev b) :
    Step s (.put u) ((s.putBuf i).goto u .idle)

theorem step_cases {s s' : State ι} {a : Act ι} (h : step s a = some s') : Step s a s' := by
  cases a with
  | bget u dev b =>
    simp only [step, State.bget] at h
    split at h
    next hpc =>
      cases hc : s.findCached dev b with
      | some i =>
        rw [hc] at h
        cases h
        exact .hit hpc hc
      | none =>
        cases hu : s.findUnused with
        | some i =>
          rw [hc, hu] at h
          cases h
          exact .recycle hpc hc hu
        | none =>
          rw [hc, hu] at h
          cases h
    next => cases h
  | acquiresleep u =>
    simp only [step] at h
    split at h
    next i dev b hpc =>
      cases hl : (s.buf i).lock with
      | some w =>
        rw [hl] at h
        cases h
      | none =>
        rw [hl] at h
        cases h
        exact .acquiresleep hpc hl
    next => cases h
  | fill u =>
    simp only [step] at h
    split at h
    next i dev b hpc =>
      cases h
      exact .fill hpc
    next => cases h
  | store u v =>
    simp only [step] at h
    split at h
    next i dev b hpc =>
      cases h
      exact .store hpc
    next => cases h
  | bwrite u =>
    simp only [step] at h
    split at h
    next i dev b hpc =>
      split_ifs at h
      cases h
      exact .bwrite hpc
    next => cases h
  | bpin u =>
    simp only [step] at h
    split at h
    next i dev b hpc =>
      cases h
      exact .bpin hpc
    next => cases h
  | bunpin u =>
    simp only [step] at h
    split at h
    next i dev b hpc =>
      split_ifs at h with hp
      cases h
      exact .bunpin hpc hp
    next => cases h
  | releasesleep u =>
    simp only [step] at h
    split at h
    next i dev b hpc =>
      split_ifs at h
      cases h
      exact .releasesleep hpc
    next => cases h
  | put u =>
    simp only [step] at h
    split at h
    next i dev b hpc =>
      cases h
      exact .put hpc
    next => cases h

end Cache

end Fs

end Xv6
