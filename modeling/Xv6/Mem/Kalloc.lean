import Xv6.Mem.Pte
import Xv6.Lib.WeakestPre
import Mathlib.Logic.Function.Basic

/-!
# Physical memory, the frame table and the swap area

`kernel/kalloc.c`, and `walk` of `kernel/vm.c`, which `evict_pages` calls.

Kernel operations run one at a time, so locks are left out. A function of the source is a
computation that returns or halts: with a `panic`, by running forever, or by an access outside an
array or through a null pointer, which C leaves undefined.

Memory is one array of pages: page-table pages, user pages and free pages are told apart only by
who points to them, and nothing in the model keeps the kernel from writing a table entry into a
user page. What keeps it from doing so is the invariant of `Xv6.Mem.Invariant`.

The free list is kept as a list of addresses; the source threads it through the free pages. A
swap slot is kept as the page that `disk_swap_write` last stored in it, which is what
`disk_swap_read` returns; `Xv6.Disk` is about when that is so.

## Loops

`evict_pages` calls `kalloc` once it has freed a page, and that call finds the free list
non-empty. `kallocN` bounds the depth of the mutual recursion. The clock loop is cut off after
`2 * NFRAME` visits: a loop that has not found a victim by then never will
(`Xv6.Mem.Evict`), so the cut-off is `Halt.spin`.
-/

namespace Xv6

namespace Mem

open Function (update)

/-! ### State -/

/-- A page of memory, as 64-bit words. -/
abbrev Page := Fin 512 → BitVec 64

/-- `memset(pa, b, PGSIZE)` -/
def Page.fill (b : BitVec 8) : Page := fun _ => b ++ b ++ b ++ b ++ b ++ b ++ b ++ b

/-- The page of zeros. -/
def Page.zero : Page := fun _ => 0#64

/-- `struct frame`; `p` is a process-table index, `none` for the null pointer. -/
structure Frame where
  inUse : Bool
  p : Option ℕ
  referenceBit : Bool
  va : ℕ
  deriving DecidableEq

/-- The fields of `struct proc` that memory management reads and updates. -/
structure Proc where
  /-- `state != UNUSED` -/
  used : Bool
  killed : Bool
  sz : ℕ
  pagetable : ℕ
  trapframe : ℕ
  pageFaults : ℤ
  pagesEvicted : ℤ
  pagesSwappedIn : ℤ
  pagesSwappedOut : ℤ
  residentPages : ℤ
  diskReads : ℤ
  diskWrites : ℤ
  deriving DecidableEq

/-- The kernel's memory and the tables that manage it. -/
structure Kernel where
  /-- Physical memory by page address. -/
  mem : ℕ → Page
  freelist : List ℕ
  frames : ℕ → Frame
  clockHand : ℕ
  /-- `swap_space[s].in_use` -/
  swapInUse : ℤ → Bool
  /-- The page last stored in each slot. -/
  swapStore : ℤ → Page
  procs : ℕ → Proc
  myproc : Option ℕ
  /-- The linker symbol `end`. -/
  kend : ℕ
  /-- The physical page of the trampoline code. -/
  trampolinePa : ℕ

/-- The ways a kernel function does not return. -/
inductive Halt where
  | panic (msg : String)
  /-- An endless loop. -/
  | spin
  /-- Undefined behaviour of C: an index outside its array, a null pointer. -/
  | undefined
  deriving DecidableEq

/-- Kernel code. -/
abbrev M := EStateM Halt Kernel

/-- The place of a page-table entry: a table page and an index. -/
abbrev PteRef := ℕ × Fin 512

/-- `*pte` -/
def Kernel.readPte (s : Kernel) (pte : PteRef) : Pte := s.mem pte.1 pte.2

/-- `*pte = v` -/
def Kernel.writePte (pte : PteRef) (v : Pte) (s : Kernel) : Kernel :=
  { s with mem := update s.mem pte.1 (update (s.mem pte.1) pte.2 v) }

/-- Replace the contents of a page. -/
def Kernel.setPage (pa : ℕ) (pg : Page) (s : Kernel) : Kernel :=
  { s with mem := update s.mem pa pg }

/-- Update a process through a pointer that may be null. -/
def Kernel.modProc (o : Option ℕ) (f : Proc → Proc) (s : Kernel) : Kernel :=
  match o with
  | some p => { s with procs := update s.procs p (f (s.procs p)) }
  | none => s

section

variable (o : Option ℕ) (f : Proc → Proc) (s : Kernel)

@[simp] theorem Kernel.modProc_mem : (s.modProc o f).mem = s.mem := by cases o <;> rfl
@[simp] theorem Kernel.modProc_freelist : (s.modProc o f).freelist = s.freelist := by
  cases o <;> rfl
@[simp] theorem Kernel.modProc_frames : (s.modProc o f).frames = s.frames := by cases o <;> rfl
@[simp] theorem Kernel.modProc_clockHand : (s.modProc o f).clockHand = s.clockHand := by
  cases o <;> rfl
@[simp] theorem Kernel.modProc_swapInUse : (s.modProc o f).swapInUse = s.swapInUse := by
  cases o <;> rfl
@[simp] theorem Kernel.modProc_swapStore : (s.modProc o f).swapStore = s.swapStore := by
  cases o <;> rfl
@[simp] theorem Kernel.modProc_myproc : (s.modProc o f).myproc = s.myproc := by cases o <;> rfl
@[simp] theorem Kernel.modProc_kend : (s.modProc o f).kend = s.kend := by cases o <;> rfl
@[simp] theorem Kernel.modProc_trampolinePa : (s.modProc o f).trampolinePa = s.trampolinePa := by
  cases o <;> rfl

end

/-! ### Freeing -/

/-- `(pa - KERNBASE) >> 12` on 64-bit words. -/
def frameIndex (pa : ℕ) : ℕ := (pa + 2 ^ 64 - kernbase) % 2 ^ 64 / pgsize

/-- `in_use = 0; p = 0; va = 0` -/
def Frame.clear (f : Frame) : Frame := { f with inUse := false, p := none, va := 0 }

/-- `kfree` -/
def kfree (pa : ℕ) : M Unit := do
  let s ← get
  if pa % pgsize ≠ 0 ∨ pa < s.kend ∨ pa ≥ phystop then throw (.panic "kfree")
  else
    let index := frameIndex pa % 2 ^ 32
    set { s with
      frames := if index < nframe then
        update s.frames index (s.frames index).clear else s.frames
      mem := update s.mem pa (Page.fill 1)
      freelist := pa :: s.freelist }

/-! ### The swap area -/

/-- The search loop of `swap_out`, from slot `i`. -/
def firstFreeSlot (inUse : ℤ → Bool) : ℕ → ℕ → Option ℕ
  | _, 0 => none
  | i, n + 1 => if inUse i then firstFreeSlot inUse (i + 1) n else some i

/-- `swap_out`: `-1` when every slot is in use. -/
def swapOut (pa : ℕ) : M ℤ := do
  let s ← get
  match firstFreeSlot s.swapInUse 0 nswapspace with
  | none => pure (-1)
  | some slot =>
    set (Kernel.modProc s.myproc
      (fun p => { p with
        pagesSwappedOut := p.pagesSwappedOut + 1
        diskWrites := p.diskWrites + 1 })
      { s with
        swapInUse := update s.swapInUse slot true
        swapStore := update s.swapStore slot (s.mem pa) })
    pure slot

/-- `swap_in` -/
def swapIn (pa : ℕ) (slot : ℤ) : M Unit :=
  modify fun s => Kernel.modProc s.myproc
    (fun p => { p with
      diskReads := p.diskReads + 1
      pagesSwappedIn := p.pagesSwappedIn + 1
      residentPages := p.residentPages + 1 })
    { s with
      mem := update s.mem pa (s.swapStore slot)
      swapInUse := if 0 ≤ slot ∧ slot < nswapspace then
        update s.swapInUse slot false else s.swapInUse }

/-- `swap_free`, which does not check its index. -/
def swapFree (index : ℤ) : M Unit := do
  let s ← get
  if 0 ≤ index ∧ index < nswapspace then
    set { s with swapInUse := update s.swapInUse index false }
  else throw .undefined

/-! ### Walking a page table -/

/-- One iteration of the loop of `walk`: the table page of the next level. `alloc` is `none` for
`alloc == 0`, and otherwise the allocator to call. -/
def walkLevel (alloc : Option (M ℕ)) (level va pagetable : ℕ) : M (Option ℕ) := do
  let s ← get
  let pte := s.readPte (pagetable, px level va)
  if has pte pteV then pure (some (pte2pa pte))
  else match alloc with
    | none => pure none
    | some kalloc =>
      let page ← kalloc
      if page = 0 then pure none
      else
        modify fun s => (s.setPage page Page.zero).writePte (pagetable, px level va)
          (pa2pte page ||| pteV)
        pure (some page)

/-- `walk` -/
def walk (alloc : Option (M ℕ)) (pagetable va : ℕ) : M (Option PteRef) :=
  if va ≥ maxva then throw (.panic "walk")
  else do
    match ← walkLevel alloc 2 va pagetable with
    | none => pure none
    | some pagetable =>
      match ← walkLevel alloc 1 va pagetable with
      | none => pure none
      | some pagetable => pure (some (pagetable, px 0 va))

/-! ### Eviction -/

/-- One visit of the clock hand. A victim is reported with its frame and its page-table entry;
`none` means that the hand moves on. -/
def clockStep : M (Option (ℕ × PteRef)) := do
  let s ← get
  let hand := s.clockHand
  let f := s.frames hand
  set { s with clockHand := (hand + 1) % nframe }
  match f.inUse, f.p with
  | true, some p =>
    if (s.procs p).pagetable ≠ 0 then
      match ← walk none (s.procs p).pagetable f.va with
      | some pte =>
        if has (s.readPte pte) pteV then
          let index := frameIndex (pte2pa (s.readPte pte))
          if index ≥ nframe then throw .undefined
          else if (s.frames index).referenceBit then
            modify fun s => { s with
              frames := update s.frames index
                { s.frames index with referenceBit := false } }
            pure none
          else pure (some (hand, pte))
        else pure none
      | none => pure none
    else pure none
  | _, _ => pure none

/-- The victim branch of `evict_pages`. -/
def evictVictim (kalloc : M ℕ) (i : ℕ) (pte : PteRef) : M ℕ := do
  let s ← get
  let pa := pte2pa (s.readPte pte)
  modify (Kernel.writePte pte (markedPte (s.readPte pte)))
  let swapIndex ← swapOut pa
  if swapIndex ≠ -1 then
    modify fun s => s.writePte pte (slotPte swapIndex (s.readPte pte))
    modify fun s => Kernel.modProc (s.frames i).p
      (fun p => { p with
        pagesEvicted := p.pagesEvicted + 1
        residentPages := p.residentPages - 1 })
      { s with frames := update s.frames i (s.frames i).clear }
    kfree pa
    kalloc
  else throw (.panic "evict_pages: swap full")

/-- The clock loop, cut off after `fuel` visits. -/
def evictLoop (kalloc : M ℕ) : ℕ → M ℕ
  | 0 => throw .spin
  | fuel + 1 => do
    match ← clockStep with
    | none => evictLoop kalloc fuel
    | some (i, pte) => evictVictim kalloc i pte

/-- `kalloc`, to a given depth of the recursion through `evict_pages`. -/
def kallocN : ℕ → M ℕ
  | 0 => throw .spin
  | n + 1 => do
    let s ← get
    match s.freelist with
    | r :: rest =>
      set { s with freelist := rest, mem := update s.mem r (Page.fill 5) }
      pure r
    | [] => evictLoop (kallocN n) (2 * nframe)

/-- `kalloc` -/
def kalloc : M ℕ := kallocN 2

/-- `evict_pages` -/
def evictPages : M ℕ := evictLoop kalloc (2 * nframe)

/-! ### Tracking -/

/-- `track_frame` -/
def trackFrame (p : Option ℕ) (va pa : ℕ) : M Unit := do
  let s ← get
  let index := frameIndex pa % 2 ^ 32
  if pa < kernbase ∨ pa ≥ phystop then pure ()
  else if index ≥ nframe then pure ()
  else
    let s := if (s.frames index).inUse = false then
      s.modProc p fun p => { p with residentPages := p.residentPages + 1 } else s
    set { s with frames := update s.frames index ⟨true, p, true, va⟩ }

end Mem

end Xv6
