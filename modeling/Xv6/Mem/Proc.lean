import Xv6.Mem.Vm

/-!
# Processes and their address spaces

`kernel/proc.c`: creating a process, giving its memory back, and `fork`; `freewalk` and `uvmfree`
of `kernel/vm.c`; `kinit` of `kernel/kalloc.c`.

Only the fields that memory management reads are kept. `kexit` touches no memory: a killed
process keeps its pages until its parent calls `freeproc` on it.
-/

namespace Xv6

namespace Mem

variable (kalloc : M ℕ)

/-- `NPROC` -/
def nproc : ℕ := 64

/-! ### Giving memory back -/

/-- The loop of `freewalk` over the entries of one table page; `free` is the recursive call. -/
def freewalkEntries (free : ℕ → M Unit) (pagetable : ℕ) : List (Fin 512) → M Unit
  | [] => pure ()
  | i :: is => do
    let s ← get
    let pte := s.readPte (pagetable, i)
    if has pte pteV ∧ pte &&& (pteR ||| pteW ||| pteX) = 0#64 then
      free (pte2pa pte)
      modify (Kernel.writePte (pagetable, i) 0#64)
      freewalkEntries free pagetable is
    else if has pte pteV then throw (.panic "freewalk: leaf")
    else freewalkEntries free pagetable is

/-- `freewalk` on a tree of at most `n` levels. -/
def freewalk : ℕ → ℕ → M Unit
  | 0, _ => throw .undefined
  | n + 1, pagetable => do
    freewalkEntries (freewalk n) pagetable (List.finRange 512)
    kfree pagetable

/-- `uvmfree` -/
def uvmfree (pagetable sz : ℕ) : M Unit := do
  if sz > 0 then uvmunmap pagetable 0 (pgroundup sz / pgsize) true
  freewalk 3 pagetable

/-- `proc_freepagetable` -/
def procFreepagetable (pagetable sz : ℕ) : M Unit := do
  uvmunmap pagetable trampoline 1 false
  uvmunmap pagetable trapframe 1 false
  uvmfree pagetable sz

/-- `freeproc` -/
def freeproc (p : ℕ) : M Unit := do
  let s ← get
  if (s.procs p).trapframe ≠ 0 then kfree (s.procs p).trapframe
  modify (Kernel.modProc (some p) fun q => { q with trapframe := 0 })
  let s ← get
  if (s.procs p).pagetable ≠ 0 then procFreepagetable (s.procs p).pagetable (s.procs p).sz
  modify (Kernel.modProc (some p) fun q =>
    { q with pagetable := 0, sz := 0, killed := false, used := false })

/-! ### Creating a process -/

/-- `proc_pagetable` -/
def procPagetable (p : ℕ) : M ℕ := do
  let pagetable ← uvmcreate kalloc
  if pagetable = 0 then pure 0
  else
    let s ← get
    let r ← mappages kalloc pagetable trampoline pgsize s.trampolinePa (pteR ||| pteX)
    if r < 0 then
      uvmfree pagetable 0
      pure 0
    else
      let s ← get
      let r ← mappages kalloc pagetable trapframe pgsize (s.procs p).trapframe (pteR ||| pteW)
      if r < 0 then
        uvmunmap pagetable trampoline 1 false
        uvmfree pagetable 0
        pure 0
      else pure pagetable

/-- The first `UNUSED` entry of the process table. -/
def unusedProc (s : Kernel) : Option ℕ := (List.range nproc).find? fun p => !(s.procs p).used

/-- `allocproc` -/
def allocproc : M (Option ℕ) := do
  let s ← get
  match unusedProc s with
  | none => pure none
  | some p =>
    modify (Kernel.modProc (some p) fun q =>
      { q with
        used := true
        pageFaults := 0
        pagesEvicted := 0
        pagesSwappedIn := 0
        pagesSwappedOut := 0
        residentPages := 0
        diskReads := 0
        diskWrites := 0 })
    let mem ← kalloc
    modify (Kernel.modProc (some p) fun q => { q with trapframe := mem })
    if mem = 0 then
      freeproc p
      pure none
    else
      let pagetable ← procPagetable kalloc p
      modify (Kernel.modProc (some p) fun q => { q with pagetable := pagetable })
      if pagetable = 0 then
        freeproc p
        pure none
      else pure (some p)

/-- The word of `a0` in `struct trapframe`. -/
def trapframeA0 : Fin 512 := 14

/-- The words of `epc`, `sp` and `a1` in `struct trapframe`. -/
def trapframeEpc : Fin 512 := 3

@[inherit_doc trapframeEpc] def trapframeSp : Fin 512 := 6

@[inherit_doc trapframeEpc] def trapframeA1 : Fin 512 := 15

/-- `kfork`: the index of the child, or `none` for `-1`. -/
def kfork : M (Option ℕ) := do
  let p ← getMyproc
  match ← allocproc kalloc with
  | none => pure none
  | some np =>
    let s ← get
    let r ← uvmcopy kalloc (s.procs p).pagetable (s.procs np).pagetable (s.procs p).sz np
    if r < 0 then
      freeproc np
      pure none
    else
      modify fun s => Kernel.modProc (some np) (fun q => { q with sz := (s.procs p).sz }) s
      modify fun s => (s.setPage (s.procs np).trapframe (s.mem (s.procs p).trapframe)).writePte
        ((s.procs np).trapframe, trapframeA0) 0#64
      pure (some np)

/-! ### Boot -/

/-- The pages `freerange` passes to `kfree`, in order. -/
def freerangePages (paStart paEnd : ℕ) : List ℕ :=
  (List.range ((paEnd - pgroundup paStart) / pgsize)).map fun j => pgroundup paStart + j * pgsize

/-- The state `kinit` leaves: every page of `freerange` on the free list, last one first. -/
def bootState (kend trampolinePa : ℕ) : Kernel where
  mem := fun _ => Page.fill 1
  freelist := (freerangePages kend (kend + nframe * pgsize)).reverse
  frames := fun _ => ⟨false, none, false, 0⟩
  clockHand := 0
  swapInUse := fun _ => false
  swapStore := fun _ => Page.zero
  procs := fun _ => ⟨false, false, 0, 0, 0, 0, 0, 0, 0, 0, 0, 0⟩
  myproc := none
  kend := kend
  trampolinePa := trampolinePa

end Mem

end Xv6
