import Xv6.Lib.Transition
import Xv6.Mem.Vm

/-!
# Eviction step by step

`Xv6.Mem` runs kernel operations one at a time. Here they are cut where the source lets another
process in: `evict_pages` marks the entry of its victim under `frametable_lock` and then releases
the lock, `swap_out` takes a slot under `swap_lock`, the disk write sleeps, the slot is stored in
the entry without a lock, and the frame and the page are given back. A process that allocates goes
through these steps whenever the free list is empty, whatever it wanted the page for: a page fault
(`usertrap`, `vmfault`), a copy between kernel and user memory (`walkaddr`), or something of the
kernel's own.

The words of the entries, the frame table, the clock and the swap slots are those of `Xv6.Mem`. A
step that panics or that C leaves undefined is not enabled.

## What is left out

The pages of the page tables are there, so `walk` allocates nothing. Every page table has one
process at work on it; when a process has exited that is its parent, and the steps are still counted
as those of the page table's process. Entries are read by the hardware itself: translations that a
hart keeps after an entry has changed are left out. `kfree` is one step. There is no `fork`.

The field `last` is no state of the source: it is what the process has written to the page, and
nothing reads it.
-/

namespace Xv6

namespace Swap

open Mem (Pte Page Frame pteV pteR pteW pteU pteSwapped has pte2pa swapIdx markedPte slotPte
  usertrapPte walkaddrPte mapPte frameIndex firstFreeSlot)
open Function (update update_self update_of_ne update_eq_self)

/-- `g` with another value at page `v` of process `p`. -/
def put {α : Type} (g : ℕ → ℕ → α) (p v : ℕ) (x : α) : ℕ → ℕ → α :=
  update g p (update (g p) v x)

@[simp] theorem put_self {α : Type} (g : ℕ → ℕ → α) (p v : ℕ) (x : α) : put g p v x p v = x := by
  rw [put, update_self, update_self]

theorem put_of_ne {α : Type} {g : ℕ → ℕ → α} {p v q u : ℕ} {x : α} (h : ¬ (q = p ∧ u = v)) :
    put g p v x q u = g q u := by
  rw [put]
  by_cases hq : q = p
  · subst hq
    rw [update_self, update_of_ne fun hu => h ⟨rfl, hu⟩]
  · rw [update_of_ne hq]

theorem put_eq_self {α : Type} {g : ℕ → ℕ → α} {p v : ℕ} {x : α} (h : g p v = x) :
    put g p v x = g := by
  rw [put, ← h, update_eq_self, update_eq_self]

/-- `NPROC` -/
def nproc : ℕ := 64

/-- What a page is allocated for. -/
inductive Want where
  /-- `usertrap`: page `v` is to come back from its slot. -/
  | trap (v : ℕ)
  /-- `walkaddr`: likewise. -/
  | walkaddr (v : ℕ)
  /-- `vmfault`, called by `usertrap` or by a copy. -/
  | lazy (v : ℕ) (copy : Bool)
  /-- The kernel's own use. -/
  | other
  deriving DecidableEq

/-- Where a process is. -/
inductive Pc where
  /-- In user code, or in kernel code that does not touch pages. -/
  | idle
  /-- At the call of `kalloc`. -/
  | alloc (w : Want)
  /-- In the loop of `evict_pages`. -/
  | scan (w : Want)
  /-- Page `v` of process `p` is marked; its frame is `f` and its page is `pa`. -/
  | marked (w : Want) (f p v pa : ℕ)
  /-- `swap_out` has taken slot `n`. -/
  | chosen (w : Want) (f p v pa n : ℕ)
  /-- The disk write is done. -/
  | written (w : Want) (f p v pa n : ℕ)
  /-- The slot is in the entry. -/
  | stored (w : Want) (f pa : ℕ)
  /-- The frame is cleared. -/
  | released (w : Want) (pa : ℕ)
  /-- `kalloc` has returned `pa`. -/
  | got (w : Want) (pa : ℕ)
  /-- At the disk read of `swap_in`. -/
  | reading (w : Want) (pa : ℕ) (n : ℤ)
  /-- The disk read is done. -/
  | read (w : Want) (pa : ℕ) (n : ℤ)
  /-- The slot is given back. -/
  | freed (w : Want) (pa : ℕ)
  /-- At `track_frame`. -/
  | track (v pa : ℕ) (copy : Bool)
  /-- At the `memmove` of a copy. -/
  | copying (v pa : ℕ)
  /-- In `uvmunmap`, at `kfree`. -/
  | unmapPage (v pa : ℕ)
  /-- In `uvmunmap`, at `swap_free`. -/
  | unmapSlot (v : ℕ) (n : ℤ)
  /-- In `uvmunmap`, at `*pte = 0`, after `kfree`. -/
  | clearPage (v : ℕ)
  /-- In `uvmunmap`, at `*pte = 0`, after `swap_free`. -/
  | clearSlot (v : ℕ)
  deriving DecidableEq

structure State where
  /-- The leaf entries, by process and page number. -/
  pte : ℕ → ℕ → Pte
  /-- Physical memory by page address. -/
  mem : ℕ → Page
  freelist : List ℕ
  frames : ℕ → Frame
  clockHand : ℕ
  /-- `swap_space[n].in_use` -/
  swapInUse : ℤ → Bool
  /-- The page last written to each slot. -/
  disk : ℤ → Page
  sz : ℕ → ℕ
  pc : ℕ → Pc
  /-- The linker symbol `end`. -/
  kend : ℕ
  /-- The last contents of each page, as its process wrote them. -/
  last : ℕ → ℕ → Page

def State.setPte (s : State) (p v : ℕ) (w : Pte) : State :=
  { s with pte := put s.pte p v w }

def State.setPage (s : State) (pa : ℕ) (pg : Page) : State :=
  { s with mem := update s.mem pa pg }

def State.setLast (s : State) (p v : ℕ) (pg : Page) : State :=
  { s with last := put s.last p v pg }

def State.goto (s : State) (t : ℕ) (c : Pc) : State := { s with pc := update s.pc t c }

/-! ### The pieces of the source -/

/-- `kfree`; `none` for the panic. -/
def kfree (s : State) (pa : ℕ) : Option State :=
  if pa % pgsize ≠ 0 ∨ pa < s.kend ∨ pa ≥ phystop then none
  else
    let index := frameIndex pa % 2 ^ 32
    some { s with
      frames := if index < nframe then
        update s.frames index (s.frames index).clear else s.frames
      mem := update s.mem pa (Page.fill 1)
      freelist := pa :: s.freelist }

/-- `track_frame` -/
def trackFrame (s : State) (p va pa : ℕ) : State :=
  let index := frameIndex pa % 2 ^ 32
  if pa < kernbase ∨ pa ≥ phystop then s
  else if index ≥ nframe then s
  else { s with frames := update s.frames index ⟨true, some p, true, va⟩ }

/-- What the clock finds at the hand. -/
inductive Visit where
  /-- Nothing to evict. -/
  | skip
  /-- A referenced page: the bit of this frame is cleared. -/
  | clear (index : ℕ)
  /-- Page `v` of process `p`. -/
  | victim (p v : ℕ)
  /-- An index outside the frame table. -/
  | undefined
  deriving DecidableEq

/-- The tests of one iteration of `evict_pages`. -/
def visit (s : State) : Visit :=
  let f := s.frames s.clockHand
  match f.inUse, f.p with
  | true, some p =>
    let pte := s.pte p (f.va / pgsize)
    if has pte pteV then
      let index := frameIndex (pte2pa pte)
      if index ≥ nframe then .undefined
      else if (s.frames index).referenceBit then .clear index
      else .victim p (f.va / pgsize)
    else .skip
  | _, _ => .skip

/-- One iteration of `evict_pages`, up to the release of `frametable_lock`. -/
def scanStep (s : State) (t : ℕ) (w : Want) : Option State :=
  let hand := s.clockHand
  let s' := { s with clockHand := (hand + 1) % nframe }
  match visit s with
  | .skip => some s'
  | .clear index => some { s' with
      frames := update s.frames index { s.frames index with referenceBit := false } }
  | .victim p v =>
    some ((s'.setPte p v (markedPte (s.pte p v))).goto t (.marked w hand p v (pte2pa (s.pte p v))))
  | .undefined => none

/-- What follows `kalloc`. -/
def gotStep (s : State) (t pa : ℕ) : Want → Option State
  | .trap v => some (s.goto t (.reading (.trap v) pa (swapIdx (s.pte t v))))
  | .walkaddr v => some (s.goto t (.reading (.walkaddr v) pa (swapIdx (s.pte t v))))
  | .lazy v copy =>
    -- `mappages` panics on a valid entry
    if has (s.pte t v) pteV then none
    else some ((((s.setPage pa Page.zero).setPte t v (mapPte pa (pteW ||| pteU ||| pteR))).setLast
      t v Page.zero).goto t (.track v pa copy))
  | .other => some (s.goto t .idle)

/-- The end of a swap-in: the entry is written. -/
def backStep (s : State) (t pa : ℕ) : Want → Option State
  | .trap v => some ((s.setPte t v (usertrapPte pa (s.pte t v))).goto t (.track v pa false))
  | .walkaddr v =>
    let s' := s.setPte t v (walkaddrPte pa (s.pte t v))
    some (s'.goto t (if has (s'.pte t v) pteU then .copying v (pte2pa (s'.pte t v)) else .idle))
  | _ => none

/-- The next step of a process in the middle of an operation. -/
def next (s : State) (t : ℕ) : Pc → Option State
  | .idle => none
  | .alloc w =>
    match s.freelist with
    | r :: rest => some ({ s with
        freelist := rest
        mem := update s.mem r (Page.fill 5) }.goto t (.got w r))
    | [] => some (s.goto t (.scan w))
  | .scan w => scanStep s t w
  | .marked w f p v pa =>
    -- `panic("evict_pages: swap full")` when there is no slot
    (firstFreeSlot s.swapInUse 0 nswapspace).map fun n =>
      { s with swapInUse := update s.swapInUse n true }.goto t (.chosen w f p v pa n)
  | .chosen w f p v pa n =>
    some ({ s with disk := update s.disk n (s.mem pa) }.goto t (.written w f p v pa n))
  | .written w f p v pa n =>
    some ((s.setPte p v (slotPte n (s.pte p v))).goto t (.stored w f pa))
  | .stored w f pa =>
    some ({ s with frames := update s.frames f (s.frames f).clear }.goto t
      (.released w pa))
  | .released w pa => (kfree s pa).map fun s' => s'.goto t (.alloc w)
  | .got w pa => gotStep s t pa w
  | .reading w pa n => some ((s.setPage pa (s.disk n)).goto t (.read w pa n))
  | .read w pa n =>
    some ({ s with
      swapInUse := if 0 ≤ n ∧ n < nswapspace then update s.swapInUse n false
        else s.swapInUse }.goto t (.freed w pa))
  | .freed w pa => backStep s t pa w
  | .track v pa copy =>
    some ((trackFrame s t (v * pgsize) pa).goto t (if copy then .copying v pa else .idle))
  | .copying _ _ => none
  | .unmapPage v pa => (kfree s pa).map fun s' => s'.goto t (.clearPage v)
  | .unmapSlot v n =>
    -- `swap_free` does not check its index
    if 0 ≤ n ∧ n < nswapspace then
      some ({ s with swapInUse := update s.swapInUse n false }.goto t (.clearSlot v))
    else none
  | .clearPage v => some ((s.setPte t v 0#64).goto t .idle)
  | .clearSlot v => some ((s.setPte t v 0#64).goto t .idle)

/-! ### Steps -/

/-- What a process can do. -/
inductive Act where
  /-- A user store. -/
  | store (v off : ℕ) (b : BitVec 8)
  /-- A page fault of user code. -/
  | fault (v : ℕ)
  /-- An iteration of `copyin` or `copyout` begins. -/
  | copy (v : ℕ)
  /-- The `memmove` of `copyout` (`some`) or `copyin` (`none`). -/
  | memmove (bytes : Option (ℕ × List (BitVec 8)))
  /-- An iteration of `uvmunmap` begins. -/
  | unmap (v : ℕ)
  /-- Another allocation. -/
  | alloc
  /-- The size changes. -/
  | setSz (sz : ℕ)
  /-- The operation goes on. -/
  | next
  deriving DecidableEq

/-- `vmfault`, up to its allocation. A process that is refused is killed, or the copy fails. -/
def vmfault (s : State) (t v : ℕ) (copy : Bool) : State :=
  if v * pgsize ≥ s.sz t then s
  else if has (s.pte t v) pteV then s
  else s.goto t (.alloc (.lazy v copy))

/-- A process that is idle begins something. -/
def begin (s : State) (t : ℕ) : Act → Option State
  | .store v off b =>
    if has (s.pte t v) pteV ∧ has (s.pte t v) pteU ∧ has (s.pte t v) pteW then
      some ((s.setPage (pte2pa (s.pte t v))
        ((s.mem (pte2pa (s.pte t v))).setByte off b)).setLast t v ((s.last t v).setByte off b))
    else none
  | .fault v =>
    if has (s.pte t v) pteSwapped then some (s.goto t (.alloc (.trap v)))
    else some (vmfault s t v false)
  | .copy v =>
    if has (s.pte t v) pteV then
      if has (s.pte t v) pteU then some (s.goto t (.copying v (pte2pa (s.pte t v))))
      else some (vmfault s t v true)
    else if has (s.pte t v) pteSwapped then some (s.goto t (.alloc (.walkaddr v)))
    else some (vmfault s t v true)
  | .unmap v =>
    if has (s.pte t v) pteV then some (s.goto t (.unmapPage v (pte2pa (s.pte t v))))
    else if has (s.pte t v) pteSwapped then some (s.goto t (.unmapSlot v (swapIdx (s.pte t v))))
    else some s
  | .alloc => some (s.goto t (.alloc .other))
  | .setSz sz => some { s with sz := update s.sz t sz }
  | .memmove _ => none
  | .next => none

/-- The `memmove` of a copy; `copyout` gives up on a page that user code may not write. -/
def copyStep (s : State) (t v pa : ℕ) : Option (ℕ × List (BitVec 8)) → State
  | none => s.goto t .idle
  | some (off, bytes) =>
    if has (s.pte t v) pteW then
      ((s.setPage pa ((s.mem pa).setBytes off bytes)).setLast t v
        ((s.last t v).setBytes off bytes)).goto t .idle
    else s.goto t .idle

/-- Process `t` takes a step. -/
def step (s : State) (ta : ℕ × Act) : Option State :=
  if ta.1 < nproc then
    match s.pc ta.1, ta.2 with
    | .idle, a => begin s ta.1 a
    | .copying v pa, .memmove bytes => some (copyStep s ta.1 v pa bytes)
    | c, .next => next s ta.1 c
    | _, _ => none
  else none

/-! ### The property -/

/-- The process is between marking page `v` of process `p` and storing its slot. -/
def Pc.Evicts (p v : ℕ) : Pc → Prop
  | .marked _ _ p' v' _ => p' = p ∧ v' = v
  | .chosen _ _ p' v' _ _ => p' = p ∧ v' = v
  | .written _ _ p' v' _ _ => p' = p ∧ v' = v
  | _ => False

/-- The process has given a slot back and not yet rewritten the entry that names it. -/
def Pc.GivesBack : Pc → Prop
  | .freed _ _ => True
  | .clearSlot _ => True
  | _ => False

/-- **Every swapped entry carries a real slot** that holds the page. -/
def SwappedOk (s : State) : Prop :=
  ∀ p v, Mem.Swapped (s.pte p v) →
    (s.pte p v >>> 10).toNat < nswapspace ∧ s.swapInUse ((s.pte p v >>> 10).toNat : ℕ) = true ∧
      s.disk ((s.pte p v >>> 10).toNat : ℕ) = s.last p v

/-! ### The condition -/

/-- The process is in the middle of an operation on its page `v`, which is in memory. -/
def Pc.Uses (v : ℕ) : Pc → Prop
  | .track v' _ _ => v' = v
  | .copying v' _ => v' = v
  | .unmapPage v' _ => v' = v
  | .clearPage v' => v' = v
  | _ => False

instance (p v : ℕ) (c : Pc) : Decidable (c.Evicts p v) := by
  cases c <;> unfold Pc.Evicts <;> infer_instance

instance (v : ℕ) (c : Pc) : Decidable (c.Uses v) := by
  cases c <;> unfold Pc.Uses <;> infer_instance

instance (c : Pc) : Decidable c.GivesBack := by
  cases c <;> unfold Pc.GivesBack <;> infer_instance

/-- No operation on a page overlaps with its eviction. -/
def Exclusive (s : State) (ta : ℕ × Act) : Prop :=
  match ta.2 with
  | .fault v | .copy v | .unmap v => ∀ e < nproc, ¬ (s.pc e).Evicts ta.1 v
  | .next =>
    match s.pc ta.1, visit s with
    | .scan _, .victim p v => ¬ (s.pc p).Uses v
    | _, _ => True
  | _ => True

instance (s : State) (ta : ℕ × Act) : Decidable (Exclusive s ta) := by
  unfold Exclusive
  split <;> first | infer_instance | (split <;> infer_instance)

end Swap

end Xv6
