import Xv6.Fs.Block
import Xv6.Lib.Transition

/-!
# The log of the file system

`log.c`: system calls bracket their block updates by `begin_op` and `end_op`; `log_write` records
a changed block in the in-memory header and pins its buffer; the last `end_op` copies the recorded
blocks into the log on the disk, writes the header (the commit point), installs the blocks at
their home places and erases the header. At boot `recover_from_log` installs what a committed
header lists.

## Scope

The state is one machine with its disk. A buffer is the cached copy of a block (`cache`); any
buffer that the log has not pinned may be dropped at any moment, which is all that the recycling
of `bio.c` does to it. One action is one stretch of code that no other process can interleave
with: a call of `begin_op`, of `end_op`, one update of a block between `bread` and `brelse` (its
buffer is locked throughout), or up to one block write of the commit or of the recovery. Which
process acts next is free, so a run is an arbitrary interleaving.

The machine may stop at any point, also in the middle of a block write (`tear`), and the recovery
itself may be cut short. Blocks of the swap area are written directly, without the log, at any
time.

What a call of the file system writes is left open: an update stores arbitrary bytes in an
arbitrary block. `ops` is a ghost: which processes are between `begin_op` and `end_op`, and which
blocks each of them has logged; no function of the log reads it.
-/

namespace Xv6

namespace Fs

open Disk (Block)
open Function (update)

/-- `MAXOPBLOCKS`. -/
def maxopblocks : ℕ := 10

/-- `LOGBLOCKS`. -/
def logblocks : ℕ := maxopblocks * 3

@[simp] theorem maxopblocks_eq : maxopblocks = 10 := rfl

@[simp] theorem logblocks_eq : logblocks = 30 := rfl

namespace Log

/-! ### The header block -/

/-- What `write_head` makes of the header block: it stores the count and as many block numbers
and leaves the other bytes as they are. -/
def putHead (lh : List ℕ) (hb : Block) : Block :=
  setWords 1 lh (setWord hb 0 (BitVec.ofNat 32 lh.length))

/-- What `read_head` takes from the header block. The count is a signed `int`. -/
def getHead (hb : Block) : List ℕ :=
  (List.range (word hb 0).toInt.toNat).map fun i => (word hb (1 + i)).toNat

/-! ### The machine -/

/-- The log on the disk, and the blocks that are updated through it. -/
structure Layout where
  /-- `log.start`, the header block; the logged blocks follow it. -/
  start : ℕ
  /-- The blocks of the file system. -/
  home : ℕ → Bool
  home_outside : ∀ b, home b = true → b < start ∨ start + logblocks < b
  home_lt : ∀ b, home b = true → b < 2 ^ 32

/-- The place of logged block `i`. -/
def Layout.slot (L : Layout) (i : ℕ) : ℕ := L.start + i + 1

/-- Where the code that works on the log on the disk is. -/
inductive Pc where
  /-- No such code is running. -/
  | idle
  /-- `write_log`, before iteration `tail`. -/
  | writeLog (tail : ℕ)
  /-- `commit`, before its first `write_head`. -/
  | writeHead
  /-- `install_trans`, before iteration `tail`. -/
  | install (recovering : Bool) (tail : ℕ)
  /-- `lh.n` is zero, before the `write_head` that erases the log. -/
  | erase (recovering : Bool)
  /-- `end_op`, after `commit`. -/
  | leave
  /-- `recover_from_log`, before `read_head`. -/
  | boot
  deriving DecidableEq, Repr

/-- The machine has not finished `recover_from_log`. -/
def Pc.recovering : Pc → Bool
  | .boot => true
  | .install r _ => r
  | .erase r => r
  | _ => false

/-- The machine; `ι` is the type of its processes. -/
structure State (ι : Type) where
  disk : ℕ → Block
  /-- The valid buffers. -/
  cache : ℕ → Option Block
  /-- The blocks whose buffers `bpin` holds, once for every `bpin`. -/
  pins : List ℕ
  /-- `log.lh`. -/
  lh : List ℕ
  outstanding : ℤ
  committing : Bool
  pc : Pc
  /-- The processes inside an operation, each with the blocks it has logged. -/
  ops : ι → Option (List ℕ)

namespace State

variable {ι : Type}

/-- The bytes `bread` finds: those of the buffer, or those of the disk. -/
def read (s : State ι) (b : ℕ) : Block := (s.cache b).getD (s.disk b)

/-- `bread`, when `bget` has a buffer for the block. -/
def bread (b : ℕ) (s : State ι) : State ι :=
  { s with cache := update s.cache b (some (s.read b)) }

/-- `memmove` into the buffer of block `b`. -/
def store (b : ℕ) (d : Block) (s : State ι) : State ι :=
  { s with cache := update s.cache b (some d) }

/-- `bwrite`. -/
def bwrite (b : ℕ) (s : State ι) : State ι :=
  { s with disk := update s.disk b (s.read b) }

/-- Read block `src`, copy it over block `dst` and write that block. -/
def copyBlock (src dst : ℕ) (s : State ι) : State ι :=
  let s := (s.bread src).bread dst
  (s.store dst (s.read src)).bwrite dst

/-- `write_head`. -/
def writeHead (L : Layout) (s : State ι) : State ι :=
  let s := s.bread L.start
  (s.store L.start (putHead s.lh (s.read L.start))).bwrite L.start

/-- `log_write`. The check for room is made before the search for the block, so also when the
block is in the log already. -/
def logWrite (b : ℕ) (s : State ι) : Except String (State ι) :=
  if logblocks ≤ s.lh.length then .error "too big a transaction"
  else if s.outstanding < 1 then .error "log_write outside of trans"
  else if b ∈ s.lh then .ok s
  else .ok { s with lh := s.lh ++ [b], pins := b :: s.pins }

/-- `begin_op`: `none` while it sleeps. -/
def beginOp (s : State ι) : Option (State ι) :=
  if s.committing then none
  else if (logblocks : ℤ) < s.lh.length + (s.outstanding + 1) * maxopblocks then none
  else some { s with outstanding := s.outstanding + 1 }

/-- `end_op` up to the call of `commit`, whose test of `lh.n` is made here. -/
def endOp (s : State ι) : Except String (State ι) :=
  if s.committing then .error "log.committing"
  else if s.outstanding - 1 = 0 then
    .ok { s with
      outstanding := s.outstanding - 1
      committing := true
      pc := if 0 < s.lh.length then .writeLog 0 else .leave }
  else .ok { s with outstanding := s.outstanding - 1 }

/-- The next stretch of the code that works on the log on the disk: `commit` and the end of
`end_op`, or `recover_from_log`. -/
def tick (L : Layout) (s : State ι) : Option (State ι) :=
  match s.pc with
  | .idle => none
  | .writeLog tail =>
    match s.lh[tail]? with
    | some b => some { s.copyBlock b (L.slot tail) with pc := .writeLog (tail + 1) }
    | none => some { s with pc := .writeHead }
  | .writeHead => some { s.writeHead L with pc := .install false 0 }
  | .install r tail =>
    match s.lh[tail]? with
    | some b => some { s.copyBlock (L.slot tail) b with
        pins := if r then s.pins else s.pins.erase b
        pc := .install r (tail + 1) }
    | none => some { s with lh := [], pc := .erase r }
  | .erase r => some { s.writeHead L with pc := if r then .idle else .leave }
  | .leave => some { s with committing := false, pc := .idle }
  | .boot => some { s.bread L.start with
      lh := getHead (s.read L.start)
      pc := .install true 0 }

/-- A machine that is switched on with disk `d`. -/
def powerOn (d : ℕ → Block) : State ι where
  disk := d
  cache := fun _ => none
  pins := []
  lh := []
  outstanding := 0
  committing := false
  pc := .boot
  ops := fun _ => none

/-- The machine stops and starts again. The block write that was under way, if there was one, has
stored its sectors as `lo` and `hi` say. -/
def crash (L : Layout) (lo hi : Bool) (s : State ι) : State ι :=
  powerOn fun b => tear lo hi (s.disk b) (((s.tick L).getD s).disk b)

end State

/-- What may happen next. -/
inductive Act (ι : Type) where
  | beginOp (p : ι)
  /-- A process reads block `b`, stores `d` in its buffer, and calls `log_write`. -/
  | write (p : ι) (b : ℕ) (d : Block)
  | endOp (p : ι)
  /-- The commit or the recovery goes on. -/
  | tick
  /-- Some process reads a block. -/
  | bread (b : ℕ)
  /-- A buffer that is not pinned is recycled. -/
  | recycle (b : ℕ)
  /-- A block outside the file system is written without the log. -/
  | direct (b : ℕ) (d : Block)
  | crash (lo hi : Bool)

variable {ι : Type} [DecidableEq ι]

open State in
/-- One action. No process runs before the recovery has finished, and a process updates blocks
only between its `begin_op` and its `end_op`. A call that panics is not a step. -/
def step (L : Layout) (s : State ι) : Act ι → Option (State ι)
  | .beginOp p =>
    if s.pc.recovering ∨ (s.ops p).isSome then none
    else s.beginOp.map fun s => { s with ops := update s.ops p (some []) }
  | .write p b d =>
    match s.ops p with
    | none => none
    | some l => ((s.bread b).store b d |>.logWrite b).toOption.map fun s =>
        { s with ops := update s.ops p (some (if b ∈ l then l else b :: l)) }
  | .endOp p =>
    match s.ops p with
    | none => none
    | some _ => s.endOp.toOption.map fun s => { s with ops := update s.ops p none }
  | .tick => s.tick L
  | .bread b => some (s.bread b)
  | .recycle b =>
    if b ∈ s.pins then none else some { s with cache := update s.cache b none }
  | .direct b d => some (((s.bread b).store b d).bwrite b)
  | .crash lo hi => some (s.crash L lo hi)

/-- What the file system and the swap code promise: the log carries blocks of the file system, and
a direct write goes neither to one of them nor to the log. -/
def Allowed {ι : Type} (L : Layout) : Act ι → Prop
  | .write _ b _ => L.home b = true
  | .direct b _ => L.home b = false ∧ (b < L.start ∨ L.start + logblocks < b)
  | _ => True

instance decidableAllowed {ι : Type} (L : Layout) : ∀ a : Act ι, Decidable (Allowed L a)
  | .write _ b _ => inferInstanceAs (Decidable (L.home b = true))
  | .direct b _ =>
    inferInstanceAs (Decidable (L.home b = false ∧ (b < L.start ∨ L.start + logblocks < b)))
  | .beginOp _ | .endOp _ | .tick | .bread _ | .recycle _ | .crash _ _ => isTrue trivial

/-! ### What a step does -/

section Inversion

variable {ι : Type} {L : Layout} {s : State ι}

/-- What one stretch of the commit or of the recovery does. -/
inductive Tick (L : Layout) (s : State ι) : State ι → Prop where
  | writeLog {tail b} (hpc : s.pc = .writeLog tail) (hb : s.lh[tail]? = some b) :
    Tick L s { s.copyBlock b (L.slot tail) with pc := .writeLog (tail + 1) }
  | writeLogEnd {tail} (hpc : s.pc = .writeLog tail) (hb : s.lh[tail]? = none) :
    Tick L s { s with pc := .writeHead }
  | writeHead (hpc : s.pc = .writeHead) : Tick L s { s.writeHead L with pc := .install false 0 }
  | install {r tail b} (hpc : s.pc = .install r tail) (hb : s.lh[tail]? = some b) :
    Tick L s { s.copyBlock (L.slot tail) b with
      pins := if r then s.pins else s.pins.erase b
      pc := .install r (tail + 1) }
  | installEnd {r tail} (hpc : s.pc = .install r tail) (hb : s.lh[tail]? = none) :
    Tick L s { s with lh := [], pc := .erase r }
  | erase {r} (hpc : s.pc = .erase r) :
    Tick L s { s.writeHead L with pc := if r then .idle else .leave }
  | leave (hpc : s.pc = .leave) : Tick L s { s with committing := false, pc := .idle }
  | boot (hpc : s.pc = .boot) :
    Tick L s { s.bread L.start with lh := getHead (s.read L.start), pc := .install true 0 }

theorem tick_cases {m : State ι} (h : s.tick L = some m) : Tick L s m := by
  unfold State.tick at h
  split at h
  next => cases h
  next tail hpc =>
    split at h
    next b hb =>
      cases h
      exact .writeLog hpc hb
    next hb =>
      cases h
      exact .writeLogEnd hpc hb
  next hpc =>
    cases h
    exact .writeHead hpc
  next r tail hpc =>
    split at h
    next b hb =>
      cases h
      exact .install hpc hb
    next hb =>
      cases h
      exact .installEnd hpc hb
  next r hpc =>
    cases h
    exact .erase hpc
  next hpc =>
    cases h
    exact .leave hpc
  next hpc =>
    cases h
    exact .boot hpc

private theorem toOption_eq_some {ε α : Type} {x : Except ε α} {a : α} (h : x.toOption = some a) :
    x = .ok a := by
  cases x with
  | error e => cases h
  | ok b => exact congrArg _ (Option.some.inj h)

/-- What one action does, and when it is possible. -/
inductive Step [DecidableEq ι] (L : Layout) (s : State ι) : Act ι → State ι → Prop where
  | beginOp {p m} (hrec : s.pc.recovering = false) (hops : s.ops p = none)
    (hm : s.beginOp = some m) :
    Step L s (.beginOp p) { m with ops := update m.ops p (some []) }
  | write {p b v l m} (hops : s.ops p = some l)
    (hm : ((s.bread b).store b v).logWrite b = .ok m) :
    Step L s (.write p b v)
      { m with ops := update m.ops p (some (if b ∈ l then l else b :: l)) }
  | endOp {p l m} (hops : s.ops p = some l) (hm : s.endOp = .ok m) :
    Step L s (.endOp p) { m with ops := update m.ops p none }
  | tick {m} (hm : s.tick L = some m) : Step L s .tick m
  | bread (b) : Step L s (.bread b) (s.bread b)
  | recycle {b} (hb : b ∉ s.pins) :
    Step L s (.recycle b) { s with cache := update s.cache b none }
  | direct (b v) : Step L s (.direct b v) (((s.bread b).store b v).bwrite b)
  | crash (lo hi) : Step L s (.crash lo hi) (s.crash L lo hi)

theorem step_cases [DecidableEq ι] {a : Act ι} {s' : State ι} (h : step L s a = some s') :
    Step L s a s' := by
  cases a with
  | beginOp p =>
    simp only [step] at h
    split_ifs at h with hguard
    obtain ⟨hrec, hops⟩ := not_or.mp hguard
    obtain ⟨m, hm, rfl⟩ := Option.map_eq_some_iff.mp h
    exact .beginOp (Bool.eq_false_iff.mpr hrec) (Option.not_isSome_iff_eq_none.mp hops) hm
  | write p b v =>
    simp only [step] at h
    split at h
    next => cases h
    next l hops =>
      obtain ⟨m, hm, rfl⟩ := Option.map_eq_some_iff.mp h
      exact .write hops (toOption_eq_some hm)
  | endOp p =>
    simp only [step] at h
    split at h
    next => cases h
    next l hops =>
      obtain ⟨m, hm, rfl⟩ := Option.map_eq_some_iff.mp h
      exact .endOp hops (toOption_eq_some hm)
  | tick => exact .tick h
  | bread b =>
    cases h
    exact .bread b
  | recycle b =>
    simp only [step] at h
    split_ifs at h with hb
    cases h
    exact .recycle hb
  | direct b v =>
    cases h
    exact .direct b v
  | crash lo hi =>
    cases h
    exact .crash lo hi

end Inversion

end Log

end Fs

end Xv6
