import Xv6.Mem.Vm

/-!
# The memory system of the third assignment

`PA3/kalloc.c` and `PA3/vm.c`: a frame table of fifty entries, a clock that picks victims by the
level of their owners, and a swap area of 128 slots in memory. `kalloc` does not evict; `vmfault`
does, before it looks at the page it was called for, whenever the frame table is full. Pages of
`uvmalloc` are not in the frame table and stay in memory.

A page that has been evicted has an entry without `PTE_V` that holds its slot above the flags, and
nothing else. `vmfault` and `uvmunmap` take an entry that is zero for a page that was never
allocated; that slot `0` gives such an entry too is the subject of `Xv6.Pa3.Transparency`.

## What is left out

A page table is kept by its leaf entries and by which of its table pages exist: what `walk` finds in
memory is that (`Xv6.Mem.Tables`), and the table pages that it allocates come from the free list.
Kernel operations run one at a time, so locks are left out. `pagetable` is always that of the
process, so the functions take the process. Of `fork` there is what it does to memory, `uvmcopy`.

The list `evictions` is no state of the source: it records which page each slot was given to, and
nothing reads it.
-/

namespace Xv6

namespace Pa3

open Mem (Pte Page Halt pteV pteR pteW pteU has pa2pte pte2pa pteFlags mapPte swapIdx)
open Function (update)

/-! ### State -/

/-- `MAX_FRAMES` -/
def maxFrames : ℕ := 50

/-- `MAX_SWAP` -/
def maxSwap : ℕ := 128

@[simp] theorem maxFrames_eq : maxFrames = 50 := rfl
@[simp] theorem maxSwap_eq : maxSwap = 128 := rfl

/-- `struct frame_entry` -/
structure FrameEntry where
  inUse : Bool
  p : Option ℕ
  virtualAddr : ℕ
  physicalAddr : ℕ
  refBit : ℤ
  deriving DecidableEq

/-- A user page table. -/
structure PageTable where
  /-- The middle table pages that exist, by the index in the root. -/
  mid : ℕ → Bool
  /-- The last table pages that exist, by both indices. -/
  low : ℕ → Bool
  /-- The leaf entries, by page number. -/
  pte : ℕ → Pte

/-- The fields of `struct proc` that the memory system reads and updates. -/
structure Proc where
  /-- `state != UNUSED` -/
  used : Bool
  killed : Bool
  level : ℤ
  sz : ℕ
  pagetable : PageTable
  pageFaults : ℤ
  pagesEvicted : ℤ
  pagesSwappedIn : ℤ
  pagesSwappedOut : ℤ
  residentPages : ℤ

/-- A page that was given a slot. -/
structure Eviction where
  slot : ℤ
  p : ℕ
  va : ℕ
  deriving DecidableEq

structure Kernel where
  /-- Physical memory by page address. -/
  mem : ℕ → Page
  freelist : List ℕ
  frameTable : ℕ → FrameEntry
  userFrames : ℤ
  clockHand : ℕ
  swapUsed : ℤ → Bool
  swapSpace : ℤ → Page
  procs : ℕ → Proc
  /-- The linker symbol `end`. -/
  kend : ℕ
  /-- History: the pages evicted, last one first. -/
  evictions : List Eviction

/-- Kernel code. -/
abbrev M := EStateM Halt Kernel

/-- `*walk(p->pagetable, v * PGSIZE, 0)`, and `0` where that is null. -/
def Kernel.entry (s : Kernel) (p v : ℕ) : Pte := (s.procs p).pagetable.pte v

def Kernel.modProc (p : ℕ) (f : Proc → Proc) (s : Kernel) : Kernel :=
  { s with procs := update s.procs p (f (s.procs p)) }

/-- `*pte = w` -/
def Kernel.setPte (p v : ℕ) (w : Pte) (s : Kernel) : Kernel :=
  s.modProc p fun q =>
    { q with pagetable := { q.pagetable with pte := update q.pagetable.pte v w } }

/-- Replace the contents of a page. -/
def Kernel.setPage (pa : ℕ) (pg : Page) (s : Kernel) : Kernel :=
  { s with mem := update s.mem pa pg }

/-! ### Physical memory -/

/-- `kalloc` -/
def kalloc : M ℕ := do
  let s ← get
  match s.freelist with
  | [] => pure 0
  | r :: rest =>
    set { s with freelist := rest, mem := update s.mem r (Page.fill 5) }
    pure r

/-- `kfree` -/
def kfree (pa : ℕ) : M Unit := do
  let s ← get
  if pa % pgsize ≠ 0 ∨ pa < s.kend ∨ pa ≥ phystop then throw (.panic "kfree")
  else set { s with freelist := pa :: s.freelist, mem := update s.mem pa (Page.fill 1) }

/-! ### The frame table -/

/-- `frame_alloc`; `1` when the table is full. -/
def frameAlloc (p : Option ℕ) (va pa : ℕ) : M ℤ := do
  let s ← get
  if s.userFrames < maxFrames then
    match (List.range maxFrames).find? fun i => !(s.frameTable i).inUse with
    | some i =>
      set { s with
        frameTable := update s.frameTable i ⟨true, p, va, pa, 1⟩
        userFrames := s.userFrames + 1 }
      pure 0
    | none => pure 1
  else pure 1

/-- The entry of a page in the frame table. -/
def frameOf (s : Kernel) (pa : ℕ) : Option ℕ :=
  (List.range maxFrames).find? fun i =>
    (s.frameTable i).inUse && (s.frameTable i).physicalAddr == pa

/-- `frame_free` -/
def frameFree (pa : ℕ) : M Unit := do
  let s ← get
  match frameOf s pa with
  | some i => set { s with
      frameTable := update s.frameTable i ⟨false, none, 0, 0, 0⟩
      userFrames := s.userFrames - 1 }
  | none => pure ()

/-- `frame_set_ref` -/
def frameSetRef (pa : ℕ) (ref : ℤ) : M Unit := do
  let s ← get
  match frameOf s pa with
  | some i => set { s with
      frameTable := update s.frameTable i { s.frameTable i with refBit := ref } }
  | none => pure ()

/-- `frames_full` -/
def framesFull : M Bool := do
  let s ← get
  pure (decide (s.userFrames ≥ maxFrames))

/-- The level of a frame's owner. -/
def frameLevel (s : Kernel) (i : ℕ) : ℤ :=
  match (s.frameTable i).p with
  | some p => (s.procs p).level
  | none => 0

/-- One iteration of the loop for the best victim. -/
def better (s : Kernel) (best : ℕ × ℤ) (k : ℕ) : ℕ × ℤ :=
  if (s.frameTable k).inUse = false ∨ (s.frameTable k).refBit ≠ 0 then best
  else if frameLevel s k > best.2 then (k, frameLevel s k) else best

/-- The victim: of the frames that have not been referenced, the first of the highest level above
that of `j`, or else `j`. -/
def bestVictim (s : Kernel) (j : ℕ) : ℕ :=
  ((List.range maxFrames).foldl (better s) (j, frameLevel s j)).1

/-- A pass of the clock from `clock_hand + i`, with `n` frames left. -/
def clockPass : ℕ → ℕ → M (Option ℕ)
  | 0, _ => pure none
  | n + 1, i => do
    let s ← get
    let j := (s.clockHand + i) % maxFrames
    if (s.frameTable j).inUse = false then clockPass n (i + 1)
    else if (s.frameTable j).refBit = 1 then
      set { s with
        frameTable := update s.frameTable j { s.frameTable j with refBit := 0 } }
      clockPass n (i + 1)
    else
      set { s with clockHand := (bestVictim s j + 1) % maxFrames }
      pure (some (bestVictim s j))

/-- `clck_victim`; `none` for `-1`. -/
def clckVictim : M (Option ℕ) := do
  let s ← get
  if s.userFrames = 0 then pure none
  else
    match ← clockPass maxFrames 0 with
    | some victim => pure (some victim)
    | none => clockPass maxFrames 0

/-! ### The swap area -/

/-- `swap_alloc`; `none` for `-1`. -/
def swapAlloc : M (Option ℕ) := do
  let s ← get
  match (List.range maxSwap).find? fun slot : ℕ => !s.swapUsed slot with
  | some slot =>
    set { s with swapUsed := update s.swapUsed slot true }
    pure (some slot)
  | none => pure none

/-- `swap_free` -/
def swapFree (slot : ℤ) : M Unit := do
  let s ← get
  if slot < 0 ∨ slot ≥ maxSwap then pure ()
  else set { s with swapUsed := update s.swapUsed slot false }

/-- `swap_out` -/
def swapOut (pa : ℕ) : M (Option ℕ) := do
  match ← swapAlloc with
  | none => pure none
  | some slot =>
    modify fun s => { s with swapSpace := update s.swapSpace slot (s.mem pa) }
    pure (some slot)

/-- `swap_in` -/
def swapIn (slot : ℤ) (pa : ℕ) : M Unit :=
  if slot < 0 ∨ slot ≥ maxSwap then throw (.panic "swap_in: bad slot")
  else do
    modify fun s => s.setPage pa (s.swapSpace slot)
    swapFree slot

/-! ### Page tables -/

/-- A table page on the way of `walk`: whether it is there, after it has been allocated if `alloc`
is set. -/
def needTable (alloc : Bool) (present : Kernel → Bool) (add : Kernel → Kernel) : M Bool := do
  let s ← get
  if present s then pure true
  else if alloc = false then pure false
  else
    let pagetable ← kalloc
    if pagetable = 0 then pure false
    else
      modify fun s => add (s.setPage pagetable Page.zero)
      pure true

/-- `walk` -/
def walk (p va : ℕ) (alloc : Bool) : M (Option ℕ) :=
  if va ≥ maxva then throw (.panic "walk")
  else do
    let v := va / pgsize
    if ← needTable alloc (fun s => (s.procs p).pagetable.mid (v / 512 / 512)) (fun s =>
        s.modProc p fun q => { q with pagetable := { q.pagetable with
          mid := update q.pagetable.mid (v / 512 / 512) true } }) then
      if ← needTable alloc (fun s => (s.procs p).pagetable.low (v / 512)) (fun s =>
          s.modProc p fun q => { q with pagetable := { q.pagetable with
            low := update q.pagetable.low (v / 512) true
            pte := fun u => if u / 512 = v / 512 then 0#64 else q.pagetable.pte u } }) then
        pure (some v)
      else pure none
    else pure none

/-- `mappages` of one page. -/
def mappages (p va pa : ℕ) (perm : Pte) : M ℤ :=
  if va % pgsize ≠ 0 then throw (.panic "mappages: va not aligned")
  else do
    match ← walk p va true with
    | none => pure (-1)
    | some v =>
      let s ← get
      if has (s.entry p v) pteV then throw (.panic "mappages: remap")
      else
        modify (Kernel.setPte p v (mapPte pa perm))
        pure 0

/-- One iteration of `uvmunmap` with `do_free`. -/
def uvmunmapPage (p a : ℕ) : M Unit := do
  match ← walk p a false with
  | none => pure ()
  | some v =>
    let s ← get
    let pte := s.entry p v
    if has pte pteV = false then
      if pte ≠ 0#64 then
        swapFree (swapIdx pte)
        modify (Kernel.setPte p v 0#64)
    else
      frameFree (pte2pa pte)
      kfree (pte2pa pte)
      modify (Kernel.setPte p v 0#64)

/-- The loop of `uvmunmap`. -/
def uvmunmapLoop (p : ℕ) : ℕ → ℕ → M Unit
  | 0, _ => pure ()
  | n + 1, a => do
    uvmunmapPage p a
    uvmunmapLoop p n (a + pgsize)

/-- `uvmunmap` with `do_free`. -/
def uvmunmap (p va npages : ℕ) : M Unit :=
  if va % pgsize ≠ 0 then throw (.panic "uvmunmap: not aligned")
  else uvmunmapLoop p npages va

/-- `uvmdealloc` -/
def uvmdealloc (p oldsz newsz : ℕ) : M ℕ :=
  if newsz ≥ oldsz then pure oldsz
  else do
    if pgroundup newsz < pgroundup oldsz then
      uvmunmap p (pgroundup newsz) ((pgroundup oldsz - pgroundup newsz) / pgsize)
    pure newsz

/-- The loop of `uvmalloc` from address `a`, with at most `n` pages left. -/
def uvmallocLoop (p oldsz newsz : ℕ) (xperm : Pte) : ℕ → ℕ → M ℕ
  | 0, _ => pure newsz
  | n + 1, a =>
    if a < newsz then do
      let mem ← kalloc
      if mem = 0 then
        let _ ← uvmdealloc p a oldsz
        pure 0
      else
        modify (Kernel.setPage mem Page.zero)
        let r ← mappages p a mem (pteR ||| pteU ||| xperm)
        if r ≠ 0 then
          kfree mem
          let _ ← uvmdealloc p a oldsz
          pure 0
        else uvmallocLoop p oldsz newsz xperm n (a + pgsize)
    else pure newsz

/-- `uvmalloc` -/
def uvmalloc (p oldsz newsz : ℕ) (xperm : Pte) : M ℕ :=
  if newsz < oldsz then pure oldsz
  else
    let oldsz := pgroundup oldsz
    uvmallocLoop p oldsz newsz xperm ((newsz + pgsize - 1 - oldsz) / pgsize) oldsz

/-! ### Faults -/

/-- `(uint64)slot << 10` -/
def slotPte (slot : ℕ) : Pte := BitVec.ofNat 64 slot <<< 10

/-- The body of the eviction branch of `vmfault`, for the victim `i`. -/
def evict (i : ℕ) : M Unit := do
  let s ← get
  let f := s.frameTable i
  match ← swapOut f.physicalAddr with
  | none => pure ()
  | some slot =>
    match f.p with
    -- the owner of a frame is dereferenced
    | none => throw .undefined
    | some vp =>
      match ← walk vp f.virtualAddr false with
      | none => pure ()
      | some v => modify (Kernel.setPte vp v (slotPte slot))
      frameFree f.physicalAddr
      kfree f.physicalAddr
      modify fun s => { s.modProc vp fun q => { q with
          pagesEvicted := q.pagesEvicted + 1
          pagesSwappedOut := q.pagesSwappedOut + 1
          residentPages := q.residentPages - 1 } with
        evictions := ⟨slot, vp, f.virtualAddr⟩ :: s.evictions }

/-- The eviction branch of `vmfault`. -/
def evictIfFull : M Unit := do
  if ← framesFull then
    match ← clckVictim with
    | some i => evict i
    | none => pure ()

/-- `vmfault`, for the process that runs; the argument `read` is not used by the source. -/
def vmfault (p va : ℕ) : M ℕ := do
  let s ← get
  if va ≥ (s.procs p).sz then pure 0
  else
    let va := pgrounddown va
    match ← walk p va false with
    | some v =>
      let s ← get
      if has (s.entry p v) pteV then pure 0
      else
        evictIfFull
        let s ← get
        if s.entry p v ≠ 0#64 ∧ has (s.entry p v) pteV = false then
          swapBack va v (swapIdx (s.entry p v))
        else normal va
    | none =>
      evictIfFull
      normal va
where
  /-- The branch of `vmfault` for a page in the swap area. -/
  swapBack (va v : ℕ) (slot : ℤ) : M ℕ := do
    let mem ← kalloc
    if mem = 0 then pure 0
    else
      swapIn slot mem
      modify (Kernel.setPte p v (pa2pte mem ||| pteR ||| pteW ||| pteU ||| pteV))
      let r ← frameAlloc (some p) va mem
      if r ≠ 0 then
        kfree mem
        pure 0
      else
        modify (Kernel.modProc p fun q => { q with
          pageFaults := q.pageFaults + 1
          pagesSwappedIn := q.pagesSwappedIn + 1
          residentPages := q.residentPages + 1 })
        pure mem
  /-- The rest of `vmfault`, for a page that is not in the swap area. -/
  normal (va : ℕ) : M ℕ := do
    let mem ← kalloc
    if mem = 0 then pure 0
    else
      modify (Kernel.setPage mem Page.zero)
      let r ← mappages p va mem (pteW ||| pteU ||| pteR)
      if r ≠ 0 then
        kfree mem
        pure 0
      else
        let r ← frameAlloc (some p) va mem
        if r ≠ 0 then
          uvmunmap p va 1
          pure 0
        else
          modify (Kernel.modProc p fun q => { q with
            pageFaults := q.pageFaults + 1
            residentPages := q.residentPages + 1 })
          pure mem

/-! ### Growing and shrinking -/

/-- `growproc` -/
def growproc (p : ℕ) (n : ℤ) : M ℤ := do
  let s ← get
  let sz := (s.procs p).sz
  let newsz := ((sz + n) % 2 ^ 64).toNat
  let setSz (sz : ℕ) : M Unit := modify (Kernel.modProc p fun q => { q with sz := sz })
  if n > 0 then
    if newsz > trapframe then pure (-1)
    else
      let r ← uvmalloc p sz newsz pteW
      if r = 0 then pure (-1)
      else
        setSz r
        pure 0
  else if n < 0 then
    let r ← uvmdealloc p sz newsz
    setSz r
    pure 0
  else
    setSz sz
    pure 0

/-- `sys_sbrk`: the old size, or `-1`. `eager` is the test `t == SBRK_EAGER`. -/
def sysSbrk (p : ℕ) (n : ℤ) (eager : Bool) : M ℤ := do
  let s ← get
  let addr := (s.procs p).sz
  if eager = true ∨ n < 0 then
    let r ← growproc p n
    if r < 0 then pure (-1) else pure addr
  else
    let newsz := ((addr + n) % 2 ^ 64).toNat
    if newsz < addr then pure (-1)
    else if newsz > trapframe then pure (-1)
    else
      modify (Kernel.modProc p fun q => { q with sz := newsz })
      pure addr

/-! ### Fork -/

/-- One iteration of the loop of `uvmcopy`; `false` takes the `err` exit. -/
def uvmcopyPage (old new i : ℕ) : M Bool := do
  match ← walk old i false with
  | none => pure true
  | some v =>
    let s ← get
    let pte := s.entry old v
    if has pte pteV = false then pure true
    else
      let mem ← kalloc
      if mem = 0 then pure false
      else
        modify fun s => s.setPage mem (s.mem (pte2pa pte))
        let r ← mappages new i mem (pteFlags pte)
        if r ≠ 0 then
          kfree mem
          pure false
        else pure true

/-- The loop of `uvmcopy` from address `i`, with `n` pages left. -/
def uvmcopyLoop (old new : ℕ) : ℕ → ℕ → M ℤ
  | 0, _ => pure 0
  | n + 1, i => do
    if ← uvmcopyPage old new i then uvmcopyLoop old new n (i + pgsize)
    else
      uvmunmap new 0 (i / pgsize)
      pure (-1)

/-- `uvmcopy`, from the page table of process `old` to that of process `new`. -/
def uvmcopy (old new sz : ℕ) : M ℤ := uvmcopyLoop old new ((sz + pgsize - 1) / pgsize) 0

/-! ### User loads and stores -/

/-- The hardware's check of an entry for a user access that needs the flag `need`. -/
def userMay (need pte : Pte) : Bool := has pte pteV && has pte pteU && has pte need

/-- A user access to `va`: the page it touches. A fault runs `vmfault` from `usertrap`, and the
access is made again unless the process was killed. `none`: killed. -/
def userAccess (p : ℕ) (need : Pte) (va : ℕ) : ℕ → M (Option ℕ)
  | 0 => pure none
  | n + 1 => do
    let s ← get
    let pte := s.entry p (va / pgsize)
    if va < maxva ∧ userMay need pte then pure (some (pte2pa pte))
    else
      let r ← vmfault p va
      if r = 0 then
        modify (Kernel.modProc p fun q => { q with killed := true })
        pure none
      else userAccess p need va n

/-- A user load of one byte. -/
def userLoad (p va : ℕ) : M (Option (BitVec 8)) := do
  match ← userAccess p pteR va 2 with
  | none => pure none
  | some pa =>
    let s ← get
    pure (some ((s.mem pa).getByte (va % pgsize)))

/-- A user store of one byte; `false` when the process was killed. -/
def userStore (p va : ℕ) (b : BitVec 8) : M Bool := do
  match ← userAccess p pteW va 2 with
  | none => pure false
  | some pa =>
    modify fun s => s.setPage pa ((s.mem pa).setByte (va % pgsize) b)
    pure true

/-! ### Requests -/

/-- What can happen: user code accesses memory and calls `sbrk`, the scheduler changes a level, and
some other part of the kernel allocates a page. -/
inductive Act where
  | load (p va : ℕ)
  | store (p va : ℕ) (b : BitVec 8)
  | sbrk (p : ℕ) (n : BitVec 32) (eager : Bool)
  | setLevel (p : ℕ) (level : ℤ)
  | alloc

/-- What a request returns. -/
inductive Out where
  /-- The process does not run. -/
  | idle
  | byte (b : Option (BitVec 8))
  | done (ok : Bool)
  | ret (n : ℤ)
  | page (pa : ℕ)
  deriving DecidableEq

/-- Process `p` runs `m`; a killed process does not come back to user code. -/
def asProc (p : ℕ) (m : M Out) : M Out := do
  let s ← get
  if (s.procs p).used = true ∧ (s.procs p).killed = false then m else pure .idle

/-- A request is served. -/
def Act.exec : Act → M Out
  | .load p va => asProc p do
    let b ← userLoad p va
    pure (.byte b)
  | .store p va b => asProc p do
    let ok ← userStore p va b
    pure (.done ok)
  | .sbrk p n eager => asProc p do
    let r ← sysSbrk p n.toInt eager
    pure (.ret r)
  | .setLevel p level => do
    modify (Kernel.modProc p fun q => { q with level := level })
    pure (.done true)
  | .alloc => do
    let pa ← kalloc
    pure (.page pa)

end Pa3

end Xv6
