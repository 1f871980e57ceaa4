import Xv6.Mem.Kalloc

/-!
# User memory

`kernel/vm.c`: mapping and unmapping, growing and shrinking, the lazy fault handler, the copies
between kernel and user memory, and the copy made by `fork`; the page-fault branch of `usertrap`
(`kernel/trap.c`), `growproc` (`kernel/proc.c`) and `sys_sbrk` (`kernel/sysproc.c`); and the loads
and stores of user code, which fault into `usertrap` and are then executed again.

Functions that allocate take the allocator as an argument, as `walk` does: a run can then be
watched at each of its allocations. The kernel's own is `kalloc`. The branches for a failed
allocation are kept although `kalloc` never returns `0`.

A loop over pages is a recursion over the number of pages left.
-/

namespace Xv6

namespace Mem

variable (kalloc : M ℕ)

/-- `myproc()`, where the source dereferences it. -/
def getMyproc : M ℕ := do
  match (← get).myproc with
  | some p => pure p
  | none => throw .undefined

/-! ### Translation -/

/-- The tail of `walkaddr`: the page of an entry that user code may use, else `0`. -/
def userPage (pte : PteRef) : M ℕ := do
  let s ← get
  if has (s.readPte pte) pteU then pure (pte2pa (s.readPte pte)) else pure 0

/-- `walkaddr`, which brings a swapped page back but does not track it. -/
def walkaddr (pagetable va : ℕ) : M ℕ :=
  if va ≥ maxva then pure 0
  else do
    match ← walk none pagetable va with
    | none => pure 0
    | some pte =>
      let s ← get
      if has (s.readPte pte) pteV then userPage pte
      else if has (s.readPte pte) pteSwapped then
        let mem ← kalloc
        if mem = 0 then pure 0
        else
          let s ← get
          swapIn mem (swapIdx (s.readPte pte))
          modify fun s => s.writePte pte (walkaddrPte mem (s.readPte pte))
          userPage pte
      else pure 0

/-- `ismapped` -/
def ismapped (pagetable va : ℕ) : M Bool := do
  match ← walk none pagetable va with
  | none => pure false
  | some pte =>
    let s ← get
    pure (has (s.readPte pte) pteV)

/-! ### Mapping -/

/-- The loop of `mappages`, with `n` pages left after this one. -/
def mappagesLoop (pagetable : ℕ) (perm : Pte) : ℕ → ℕ → ℕ → M ℤ
  | n, a, pa => do
    match ← walk (some kalloc) pagetable a with
    | none => pure (-1)
    | some pte =>
      let s ← get
      if has (s.readPte pte) pteV then throw (.panic "mappages: remap")
      else
        modify (Kernel.writePte pte (mapPte pa perm))
        match n with
        | 0 => pure 0
        | n + 1 => mappagesLoop pagetable perm n (a + pgsize) (pa + pgsize)

/-- `mappages` -/
def mappages (pagetable va size pa : ℕ) (perm : Pte) : M ℤ :=
  if va % pgsize ≠ 0 then throw (.panic "mappages: va not aligned")
  else if size % pgsize ≠ 0 then throw (.panic "mappages: size not aligned")
  else if size = 0 then throw (.panic "mappages: size")
  else mappagesLoop kalloc pagetable perm (size / pgsize - 1) va pa

/-- `uvmcreate` -/
def uvmcreate : M ℕ := do
  let pagetable ← kalloc
  if pagetable = 0 then pure 0
  else
    modify (Kernel.setPage pagetable Page.zero)
    pure pagetable

/-- One iteration of `uvmunmap`. -/
def uvmunmapPage (pagetable : ℕ) (doFree : Bool) (a : ℕ) : M Unit := do
  match ← walk none pagetable a with
  | none => pure ()
  | some pte =>
    let s ← get
    if has (s.readPte pte) pteV then
      if doFree then kfree (pte2pa (s.readPte pte))
      modify (Kernel.writePte pte 0#64)
    else if has (s.readPte pte) pteSwapped then
      swapFree (swapIdx (s.readPte pte))
      modify (Kernel.writePte pte 0#64)
    else pure ()

/-- The loop of `uvmunmap`. -/
def uvmunmapLoop (pagetable : ℕ) (doFree : Bool) : ℕ → ℕ → M Unit
  | 0, _ => pure ()
  | n + 1, a => do
    uvmunmapPage pagetable doFree a
    uvmunmapLoop pagetable doFree n (a + pgsize)

/-- `uvmunmap` -/
def uvmunmap (pagetable va npages : ℕ) (doFree : Bool) : M Unit :=
  if va % pgsize ≠ 0 then throw (.panic "uvmunmap: not aligned")
  else uvmunmapLoop pagetable doFree npages va

/-- `uvmdealloc` -/
def uvmdealloc (pagetable oldsz newsz : ℕ) : M ℕ :=
  if newsz ≥ oldsz then pure oldsz
  else do
    if pgroundup newsz < pgroundup oldsz then
      let npages := (pgroundup oldsz - pgroundup newsz) / pgsize
      uvmunmap pagetable (pgroundup newsz) npages true
    pure newsz

/-- The loop of `uvmalloc` from address `a`, with at most `n` pages left. -/
def uvmallocLoop (pagetable oldsz newsz : ℕ) (xperm : Pte) : ℕ → ℕ → M ℕ
  | 0, _ => pure newsz
  | n + 1, a =>
    if a < newsz then do
      let mem ← kalloc
      if mem = 0 then
        let _ ← uvmdealloc pagetable a oldsz
        pure 0
      else
        modify (Kernel.setPage mem Page.zero)
        let r ← mappages kalloc pagetable a pgsize mem (pteR ||| pteU ||| xperm)
        if r ≠ 0 then
          kfree mem
          let _ ← uvmdealloc pagetable a oldsz
          pure 0
        else
          trackFrame (← get).myproc a mem
          uvmallocLoop pagetable oldsz newsz xperm n (a + pgsize)
    else pure newsz

/-- `uvmalloc` -/
def uvmalloc (pagetable oldsz newsz : ℕ) (xperm : Pte) : M ℕ :=
  if newsz < oldsz then pure oldsz
  else
    let oldsz := pgroundup oldsz
    uvmallocLoop kalloc pagetable oldsz newsz xperm ((newsz + pgsize - 1 - oldsz) / pgsize) oldsz

/-- `vmfault`; the argument `read` is not used by the source. -/
def vmfault (pagetable va : ℕ) : M ℕ := do
  let p ← getMyproc
  let s ← get
  if va ≥ (s.procs p).sz then pure 0
  else
    let va := pgrounddown va
    if ← ismapped pagetable va then pure 0
    else
      let mem ← kalloc
      let mem ← if mem = 0 then evictPages else pure mem
      if mem = 0 then pure 0
      else
        modify (Kernel.setPage mem Page.zero)
        let r ← mappages kalloc pagetable va pgsize mem (pteW ||| pteU ||| pteR)
        if r ≠ 0 then
          kfree mem
          pure 0
        else
          trackFrame (some p) va mem
          pure mem

/-! ### Copying between kernel and user memory -/

theorem word_lt (off : ℕ) : off / 8 % 512 < 512 :=
  Nat.mod_lt _ (by decide)

/-- The byte at offset `off` of a page. -/
def Page.getByte (pg : Page) (off : ℕ) : BitVec 8 :=
  (pg ⟨off / 8 % 512, word_lt off⟩).extractLsb' (8 * (off % 8)) 8

/-- Replace the byte at offset `off` of a page. -/
def Page.setByte (pg : Page) (off : ℕ) (b : BitVec 8) : Page :=
  Function.update pg ⟨off / 8 % 512, word_lt off⟩
    (let w := pg ⟨off / 8 % 512, word_lt off⟩
     w &&& ~~~(0xFF#64 <<< (8 * (off % 8))) ||| (b.zeroExtend 64) <<< (8 * (off % 8)))

/-- `memmove` of `n` bytes out of a page. -/
def Page.getBytes (pg : Page) (off n : ℕ) : List (BitVec 8) :=
  (List.range n).map fun j => pg.getByte (off + j)

/-- `memmove` into a page. -/
def Page.setBytes (pg : Page) : ℕ → List (BitVec 8) → Page
  | _, [] => pg
  | off, b :: bs => (pg.setByte off b).setBytes (off + 1) bs

/-- The page for one iteration of a copy: `walkaddr`, then `vmfault`. -/
def copyPage (pagetable va0 : ℕ) : M ℕ := do
  let pa0 ← walkaddr kalloc pagetable va0
  if pa0 = 0 then vmfault kalloc pagetable va0 else pure pa0

/-- The loop of `copyout`, with at most `n` iterations left. -/
def copyoutLoop (pagetable : ℕ) : ℕ → ℕ → List (BitVec 8) → M ℤ
  | 0, _, _ => pure 0
  | n + 1, dstva, src =>
    if src.length = 0 then pure 0
    else
      let va0 := pgrounddown dstva
      if va0 ≥ maxva then pure (-1)
      else do
        let pa0 ← copyPage kalloc pagetable va0
        if pa0 = 0 then pure (-1)
        else
          match ← walk none pagetable va0 with
          | none => throw .undefined
          | some pte =>
            let s ← get
            if has (s.readPte pte) pteW then
              let n' := min (pgsize - (dstva - va0)) src.length
              modify fun s => s.setPage pa0 ((s.mem pa0).setBytes (dstva - va0) (src.take n'))
              copyoutLoop pagetable n (va0 + pgsize) (src.drop n')
            else pure (-1)

/-- `copyout`; every iteration stores at least one byte. -/
def copyout (pagetable dstva : ℕ) (src : List (BitVec 8)) : M ℤ :=
  copyoutLoop kalloc pagetable src.length dstva src

/-- The loop of `copyin`, with at most `n` iterations left; `dst` is what has been copied. -/
def copyinLoop (pagetable : ℕ) : ℕ → ℕ → ℕ → List (BitVec 8) → M (Option (List (BitVec 8)))
  | 0, _, _, dst => pure (some dst)
  | n + 1, srcva, len, dst =>
    if len = 0 then pure (some dst)
    else do
      let va0 := pgrounddown srcva
      let pa0 ← copyPage kalloc pagetable va0
      if pa0 = 0 then pure none
      else
        let n' := min (pgsize - (srcva - va0)) len
        let s ← get
        copyinLoop pagetable n (va0 + pgsize) (len - n')
          (dst ++ (s.mem pa0).getBytes (srcva - va0) n')

/-- `copyin`: the bytes copied, or `none` for `-1`. -/
def copyin (pagetable srcva len : ℕ) : M (Option (List (BitVec 8))) :=
  copyinLoop kalloc pagetable len srcva len []

/-! ### Fork -/

/-- One iteration of the loop of `uvmcopy`; `false` takes the `err` exit. -/
def uvmcopyPage (old new np i : ℕ) : M Bool := do
  match ← walk none old i with
  | none => pure true
  | some pte =>
    let s ← get
    let e := s.readPte pte
    if has e pteV then
      let mem ← kalloc
      if mem = 0 then pure false
      else
        modify fun s => s.setPage mem (s.mem (pte2pa e))
        let r ← mappages kalloc new i pgsize mem (pteFlags e)
        if r ≠ 0 then
          kfree mem
          pure false
        else
          trackFrame (some np) i mem
          pure true
    else if has e pteSwapped then
      let mem ← kalloc
      if mem = 0 then pure false
      else
        swapIn mem (swapIdx e)
        let r ← mappages kalloc new i pgsize mem ((pteFlags e ||| pteV) &&& ~~~pteSwapped)
        if r ≠ 0 then
          kfree mem
          pure false
        else
          trackFrame (some np) i mem
          pure true
    else pure true

/-- The loop of `uvmcopy` from address `i`, with `n` pages left. -/
def uvmcopyLoop (old new np : ℕ) : ℕ → ℕ → M ℤ
  | 0, _ => pure 0
  | n + 1, i => do
    if ← uvmcopyPage kalloc old new np i then uvmcopyLoop old new np n (i + pgsize)
    else
      uvmunmap new 0 (i / pgsize) true
      pure (-1)

/-- `uvmcopy` -/
def uvmcopy (old new sz np : ℕ) : M ℤ :=
  uvmcopyLoop kalloc old new np ((sz + pgsize - 1) / pgsize) 0

/-! ### Growing and shrinking -/

/-- `growproc` -/
def growproc (n : ℤ) : M ℤ := do
  let p ← getMyproc
  let s ← get
  let sz := (s.procs p).sz
  let newsz := ((sz + n) % 2 ^ 64).toNat
  let setSz (sz : ℕ) : M Unit := modify (Kernel.modProc (some p) fun q => { q with sz := sz })
  if n > 0 then
    if newsz > trapframe then pure (-1)
    else
      let r ← uvmalloc kalloc (s.procs p).pagetable sz newsz pteW
      if r = 0 then pure (-1)
      else
        setSz r
        pure 0
  else if n < 0 then
    let r ← uvmdealloc (s.procs p).pagetable sz newsz
    setSz r
    pure 0
  else
    setSz sz
    pure 0

/-- `sys_sbrk`: the old size, or `-1`. `eager` is the test `t == SBRK_EAGER`. -/
def sysSbrk (n : ℤ) (eager : Bool) : M ℤ := do
  let p ← getMyproc
  let s ← get
  let addr := (s.procs p).sz
  if eager = true ∨ n < 0 then
    let r ← growproc kalloc n
    if r < 0 then pure (-1) else pure addr
  else
    let newsz := ((addr + n) % 2 ^ 64).toNat
    if newsz < addr then pure (-1)
    else if newsz > trapframe then pure (-1)
    else
      modify (Kernel.modProc (some p) fun q => { q with sz := newsz })
      pure addr

/-! ### Faults -/

/-- `setkilled` -/
def setkilled (p : ℕ) : M Unit :=
  modify (Kernel.modProc (some p) fun q => { q with killed := true })

/-- The page-fault branch of `usertrap`. -/
def pageFault (stval : ℕ) : M Unit := do
  let p ← getMyproc
  modify (Kernel.modProc (some p) fun q => { q with pageFaults := q.pageFaults + 1 })
  let s ← get
  let faultVa := pgrounddown stval
  match ← walk none (s.procs p).pagetable faultVa with
  | some pte =>
    let s ← get
    if has (s.readPte pte) pteSwapped then
      let mem ← kalloc
      if mem = 0 then setkilled p
      else
        let s ← get
        swapIn mem (swapIdx (s.readPte pte))
        modify fun s => s.writePte pte (usertrapPte mem (s.readPte pte))
        trackFrame (some p) faultVa mem
    else
      let r ← vmfault kalloc (s.procs p).pagetable stval
      if r ≠ 0 then pure () else setkilled p
  | none =>
    let r ← vmfault kalloc (s.procs p).pagetable stval
    if r ≠ 0 then pure () else setkilled p

/-! ### User loads and stores -/

/-- The table page of the next level, as the hardware follows an entry. -/
def child (pte : Pte) : Option ℕ := if has pte pteV then some (pte2pa pte) else none

/-- The last-level table page for the indices `i`, `j`. -/
def lowPage (mem : ℕ → Page) (pagetable : ℕ) (i j : Fin 512) : Option ℕ :=
  (child (mem pagetable i)).bind fun t => child (mem t j)

/-- The leaf entry for a page, `0` when a table is missing. -/
def leaf (mem : ℕ → Page) (pagetable : ℕ) (k : Key) : Pte :=
  match lowPage mem pagetable k.1 k.2.1 with
  | none => 0#64
  | some t => mem t k.2.2

/-- The hardware's check of an entry for a user access that needs the flag `need`. -/
def userMay (need pte : Pte) : Bool := has pte pteV && has pte pteU && has pte need

/-- A user access to `va`: the page it touches. A fault runs `usertrap`, and the access is made
again unless the process was killed. `none`: killed. -/
def userAccess (need : Pte) (va : ℕ) : ℕ → M (Option ℕ)
  | 0 => pure none
  | n + 1 => do
    let p ← getMyproc
    let s ← get
    let pte := leaf s.mem (s.procs p).pagetable (vkey va)
    if va < maxva ∧ userMay need pte then pure (some (pte2pa pte))
    else
      pageFault kalloc va
      let s ← get
      if (s.procs p).killed then pure none else userAccess need va n

/-- A user load of one byte. -/
def userLoad (va : ℕ) : M (Option (BitVec 8)) := do
  match ← userAccess kalloc pteR va 3 with
  | none => pure none
  | some pa =>
    let s ← get
    pure (some ((s.mem pa).getByte (va % pgsize)))

/-- A user store of one byte; `false` when the process was killed. -/
def userStore (va : ℕ) (b : BitVec 8) : M Bool := do
  match ← userAccess kalloc pteW va 3 with
  | none => pure false
  | some pa =>
    modify fun s => s.setPage pa ((s.mem pa).setByte (va % pgsize) b)
    pure true

end Mem

end Xv6
