import Xv6.Locks.Hart
import Xv6.Mem.Kalloc

/-!
# From a user address to the disk

The calls between `copyin` or `copyout` and the disk, with the locks that each of them takes:
`walkaddr`, `vmfault` and `mappages` of `kernel/vm.c`; `kalloc`, `kfree`, `track_frame`, `swap_out`,
`swap_in` and `evict_pages` of `kernel/kalloc.c`; the request queue and `virtio_disk_rw` of
`kernel/virtio_disk.c`; `bread`, `bwrite` and `brelse` of `kernel/bio.c`; `kernel/sleeplock.c`.

Data that decides where the code goes is kept: page tables, the free list, the frame table, the swap
slots, the request queue, the buffer cache and the disk's descriptors. The queue and what is done
to it under `sched_lock` are those of `Xv6.Disk`. Counters of `struct proc` that nothing on this
path reads are left out, and so are the contents of physical pages.

`kalloc` takes a page from the free list or stays in `evict_pages`, so it has no null result, and
what its callers do with one is left out. Loops that wait, or search without a bound, are followed
for `fuel` rounds.
-/

namespace Xv6

namespace Locks

open Mem
open Function (update)

/-! ### `sleeplock.c` -/

/-- Update a buffer. -/
def modBuf (b : ℕ) (f : Buf → Buf) : M Unit :=
  modShared fun s => { s with bufs := update s.bufs b (f (s.bufs b)) }

/-- The loop of `acquiresleep`. -/
def acquiresleepLoop (b : ℕ) : ℕ → M Unit
  | 0 => throw .more
  | fuel + 1 => do
    let s ← getShared
    if (s.bufs b).locked then
      sleep (.sleep b)
      acquiresleepLoop b fuel
    else pure ()

/-- `acquiresleep`, on the lock of a buffer. -/
def acquiresleep (fuel b : ℕ) : M Unit := do
  acquire (.sleep b)
  acquiresleepLoop b fuel
  let p ← myproc
  modBuf b fun buf => { buf with locked := true, pid := p }
  release (.sleep b)

/-- `releasesleep` -/
def releasesleep (b : ℕ) : M Unit := do
  acquire (.sleep b)
  modBuf b fun buf => { buf with locked := false, pid := 0 }
  wakeup
  release (.sleep b)

/-- `holdingsleep` -/
def holdingsleep (b : ℕ) : M Bool := do
  acquire (.sleep b)
  let s ← getShared
  let p ← myproc
  release (.sleep b)
  pure ((s.bufs b).locked && decide ((s.bufs b).pid = p))

/-! ### The disk -/

/-- `free_desc`, for the given number of descriptors. -/
def freeDescs : ℕ → M Unit
  | 0 => pure ()
  | n + 1 => do
    modShared fun s => { s with freeDescs := s.freeDescs + 1 }
    wakeup
    freeDescs n

/-- `alloc3_desc`: with fewer than three free, those taken are given back. -/
def alloc3Desc : M Bool := do
  let s ← getShared
  if 3 ≤ s.freeDescs then
    modShared fun s => { s with freeDescs := s.freeDescs - 3 }
    pure true
  else
    modShared fun s => { s with freeDescs := 0 }
    freeDescs s.freeDescs
    pure false

/-- The first loop of `virtio_disk_rw`. -/
def descLoop : ℕ → M Unit
  | 0 => throw .more
  | fuel + 1 => do
    if ← alloc3Desc then pure ()
    else
      sleep .vdisk
      descLoop fuel

/-- The last loop of `virtio_disk_rw`: `virtio_disk_intr` clears the flag. -/
def transferLoop (b : ℕ) : ℕ → M Unit
  | 0 => throw .more
  | fuel + 1 => do
    let s ← getShared
    if (s.bufs b).disk then
      sleep .vdisk
      transferLoop b fuel
    else pure ()

/-- `virtio_disk_rw` -/
def virtioDiskRw (fuel b : ℕ) : M Unit := do
  acquire .vdisk
  descLoop fuel
  modBuf b fun buf => { buf with disk := true }
  transferLoop b fuel
  freeDescs 3
  release .vdisk

/-! ### `bio.c` -/

/-- `bget` -/
def bget (fuel blockno : ℕ) : M ℕ := do
  acquire .bcache
  let s ← getShared
  match s.lru.find? fun b => (s.bufs b).blockno = blockno with
  | some b =>
    modBuf b fun buf => { buf with refcnt := buf.refcnt + 1 }
    release .bcache
    acquiresleep fuel b
    pure b
  | none =>
    match s.lru.reverse.find? fun b => (s.bufs b).refcnt = 0 with
    | some b =>
      modBuf b fun buf => { buf with blockno := blockno, valid := false, refcnt := 1 }
      release .bcache
      acquiresleep fuel b
      pure b
    | none => throw (.panic "bget: no buffers")

/-- `bread` -/
def bread (fuel blockno : ℕ) : M ℕ := do
  let b ← bget fuel blockno
  let s ← getShared
  if (s.bufs b).valid then pure b
  else
    virtioDiskRw fuel b
    modBuf b fun buf => { buf with valid := true }
    pure b

/-- `bwrite` -/
def bwrite (fuel b : ℕ) : M Unit := do
  if ← holdingsleep b then virtioDiskRw fuel b
  else throw (.panic "bwrite")

/-- `brelse` -/
def brelse (b : ℕ) : M Unit := do
  if ← holdingsleep b then
    releasesleep b
    acquire .bcache
    modBuf b fun buf => { buf with refcnt := buf.refcnt - 1 }
    modShared fun s => if (s.bufs b).refcnt = 0 then { s with lru := b :: s.lru.erase b } else s
    release .bcache
  else throw (.panic "brelse")

/-! ### The request queue -/

/-- Update the swap disk. -/
def modDisk (f : Disk.DiskState → Disk.DiskState) : M Unit :=
  modShared fun s => { s with disk := f s.disk }

/-- `do_disk_read` or `do_disk_write` -/
def doDisk (fuel : ℕ) (r : Disk.DiskReq) : M Unit := do
  let b ← bread fuel r.blockno
  modDisk (Disk.perform r)
  if r.write then
    bwrite fuel b
    brelse b
  else brelse b

/-- The critical sections of `raid*_write_page` and `raid*_read_page`. -/
def raidOps : List Disk.RaidOp → M Unit
  | [] => pure ()
  | op :: ops => do
    acquire .disksched
    modDisk op.exec
    release .disksched
    raidOps ops

/-- `run_disk_queue` -/
def runDiskQueue : ℕ → M Unit
  | 0 => throw .more
  | fuel + 1 => do
    acquire .disksched
    let s ← getShared
    match Disk.pickRequest s.disk with
    | none => release .disksched
    | some i =>
      match s.disk.reqQueue i with
      | none => release .disksched
      | some r =>
        let p ← myproc
        acquire (.proc p)
        modDisk (Disk.extract i r)
        release (.proc p)
        release .disksched
        doDisk fuel r
        runDiskQueue fuel

/-- `disk_swap_write` -/
def diskSwapWrite (fuel slot page : ℕ) (priority : ℤ) : M Unit := do
  acquire .disksched
  let s ← getShared
  release .disksched
  let mode := s.disk.raidMode
  modDisk fun d => if slot < 4096 then
    { d with slotRaidMode := update d.slotRaidMode slot mode } else d
  raidOps (Disk.writePageOps mode slot page priority)
  runDiskQueue fuel

/-- `disk_swap_read` -/
def diskSwapRead (fuel : ℕ) (slot : ℤ) (page : ℕ) (priority : ℤ) : M Unit := do
  let s ← getShared
  let mode := if 0 ≤ slot ∧ slot < 4096 then s.disk.slotRaidMode slot.toNat else 0
  raidOps (Disk.readPageOps mode slot.toNat page priority)
  runDiskQueue fuel

/-! ### `kalloc.c` -/

/-- `swap_out`: `none` when every slot is in use. -/
def swapOut (fuel pa : ℕ) : M (Option ℕ) := do
  let p ← myproc
  let s ← getShared
  let priority := s.curQLevel p
  acquire .swap
  let s ← getShared
  match firstFreeSlot s.swapInUse 0 nswapspace with
  | none =>
    release .swap
    pure none
  | some slot =>
    modShared fun s => { s with swapInUse := update s.swapInUse slot true }
    release .swap
    diskSwapWrite fuel slot pa priority
    acquire (.proc p)
    modDisk fun d => { d with
      myproc := d.myproc.map fun q => { q with diskWrites := q.diskWrites + 1 } }
    release (.proc p)
    pure (some slot)

/-- `swap_in` -/
def swapIn (fuel pa : ℕ) (slot : ℤ) : M Unit := do
  let p ← myproc
  let s ← getShared
  diskSwapRead fuel slot pa (s.curQLevel p)
  acquire .swap
  modShared fun s => if 0 ≤ slot ∧ slot < nswapspace then
    { s with swapInUse := update s.swapInUse slot false } else s
  release .swap
  let count := modDisk fun d => { d with
    myproc := d.myproc.map fun q => { q with diskReads := q.diskReads + 1 } }
  if ← holding (.proc p) then count
  else
    acquire (.proc p)
    count
    release (.proc p)

/-- `in_use = 0; p = 0; va = 0`, under `frametable_lock`; the owner until then. -/
def clearFrame (i : ℕ) : M (Option ℕ) := do
  acquire .frametable
  let s ← getShared
  modShared fun s => { s with
    frames := update s.frames i { s.frames i with inUse := false, p := none, va := 0 } }
  release .frametable
  pure (s.frames i).p

/-- The part of `kfree` about the frame table. -/
def untrack (index : ℕ) : M Unit :=
  if index < nframe then do
    let _ ← clearFrame index
    pure ()
  else pure ()

/-- `kfree` -/
def kfree (pa : ℕ) : M Unit := do
  let s ← getShared
  if pa % pgsize ≠ 0 ∨ pa < s.kend ∨ pa ≥ phystop then throw (.panic "kfree")
  else
    untrack (frameIndex pa % 2 ^ 32)
    acquire .kmem
    modShared fun s => { s with freelist := pa :: s.freelist }
    release .kmem

/-- The leaf entry that `walk(pagetable, va, 0)` points to, for process `p`. -/
def Shared.walk (s : Shared) (p va : ℕ) : Option Pte :=
  if (s.tables p).mid (px 2 va) && (s.tables p).low (px 2 va) (px 1 va) then
    some ((s.tables p).leaf (vkey va))
  else none

/-- `*pte = v` for the leaf entry of `va`. -/
def setLeaf (p va : ℕ) (v : Pte) : M Unit := modShared fun s => { s with
  tables := update s.tables p
    { s.tables p with leaf := update (s.tables p).leaf (vkey va) v } }

/-- `walk(pagetable, va, 0)` -/
def walk (p va : ℕ) : M (Option Pte) := do
  if va ≥ maxva then throw (.panic "walk")
  else
    let s ← getShared
    pure (s.walk p va)

/-- The victim branch of `evict_pages`, after `frametable_lock` has been released. -/
def evictVictim (fuel : ℕ) (kalloc : M ℕ) (i p va pa : ℕ) : M ℕ := do
  match ← swapOut fuel pa with
  | none => throw (.panic "evict_pages: swap full")
  | some slot =>
    let s ← getShared
    setLeaf p va (slotPte slot ((s.tables p).leaf (vkey va)))
    match ← clearFrame i with
    | some evictedProc =>
      acquire (.proc evictedProc)
      release (.proc evictedProc)
    | none => pure ()
    kfree pa
    kalloc

/-- `f->in_use && f->p != 0 && f->p->pagetable != 0`: the process with the page in `f`. -/
def Shared.owner (s : Shared) (f : Frame) : Option ℕ :=
  if f.inUse then f.p.filter fun q => (s.tables q).root else none

/-- The loop of `evict_pages`. -/
def evictLoop (fuel : ℕ) (kalloc : M ℕ) : ℕ → M ℕ
  | 0 => throw .more
  | n + 1 => do
    acquire .frametable
    let s ← getShared
    let i := s.clockHand
    let f := s.frames i
    modShared fun s => { s with clockHand := (i + 1) % nframe }
    match s.owner f with
    | some q =>
      match ← walk q f.va with
      | some pte =>
        if has pte pteV then
          let pa := pte2pa pte
          if (s.frames (frameIndex pa)).referenceBit then
            modShared fun s => { s with
              frames := update s.frames (frameIndex pa)
                { s.frames (frameIndex pa) with referenceBit := false } }
            release .frametable
            evictLoop fuel kalloc n
          else
            setLeaf q f.va (markedPte pte)
            release .frametable
            evictVictim fuel kalloc i q f.va pa
        else
          release .frametable
          evictLoop fuel kalloc n
      | none =>
        release .frametable
        evictLoop fuel kalloc n
    | none =>
      release .frametable
      evictLoop fuel kalloc n

/-- `kalloc` -/
def kalloc : ℕ → M ℕ
  | 0 => throw .more
  | fuel + 1 => do
    acquire .kmem
    let s ← getShared
    modify fun h => { h with log := .free s.freelist.length :: h.log }
    match s.freelist with
    | r :: rest =>
      modShared fun s => { s with freelist := rest }
      release .kmem
      pure r
    | [] =>
      release .kmem
      evictLoop fuel (kalloc fuel) fuel

/-- `track_frame` -/
def trackFrame (p va pa : ℕ) : M Unit := do
  let index := frameIndex pa % 2 ^ 32
  if pa < kernbase ∨ pa ≥ phystop then pure ()
  else if index ≥ nframe then pure ()
  else
    acquire .frametable
    modShared fun s => { s with frames := update s.frames index ⟨true, some p, va, true⟩ }
    release .frametable

/-! ### `vm.c` -/

/-- A new table page of the middle level: it has no tables below. -/
def Table.addMid (t : Table) (i : Fin 512) : Table :=
  { t with mid := update t.mid i true, low := update t.low i fun _ => false }

/-- A new table page of the last level: all its entries are zero. -/
def Table.addLow (t : Table) (i j : Fin 512) : Table :=
  { t with
    low := update t.low i (update (t.low i) j true)
    leaf := fun k => if k.1 = i ∧ k.2.1 = j then 0#64 else t.leaf k }

/-- One level of `walk(pagetable, va, 1)`: a missing table page is allocated. -/
def walkLevel (fuel p : ℕ) (present : Table → Bool) (add : Table → Table) : M Unit := do
  let s ← getShared
  if present (s.tables p) then pure ()
  else
    let _ ← kalloc fuel
    modShared fun s => { s with tables := update s.tables p (add (s.tables p)) }

/-- `walk(pagetable, va, 1)` -/
def walkAlloc (fuel p va : ℕ) : M Unit := do
  if va ≥ maxva then throw (.panic "walk")
  else
    walkLevel fuel p (fun t => t.mid (px 2 va)) fun t => t.addMid (px 2 va)
    walkLevel fuel p (fun t => t.low (px 2 va) (px 1 va)) fun t => t.addLow (px 2 va) (px 1 va)

/-- `mappages`, for one page. -/
def mappages (fuel p va pa : ℕ) (perm : Pte) : M Unit := do
  if va % pgsize ≠ 0 then throw (.panic "mappages: va not aligned")
  else
    walkAlloc fuel p va
    let s ← getShared
    if has ((s.tables p).leaf (vkey va)) pteV then throw (.panic "mappages: remap")
    else setLeaf p va (mapPte pa perm)

/-- The look of `walkaddr` at the entry of a page. -/
def lookPte (p va : ℕ) : M (Option Pte) := do
  interfere
  let pte ← walk p va
  modify fun h => { h with log := .pte pte :: h.log }
  pure pte

/-- The end of `walkaddr`. -/
def userPage (pte : Pte) : ℕ := if has pte pteU then pte2pa pte else 0

/-- The branch of `walkaddr` for a page that is swapped out. -/
def walkaddrSwapIn (fuel p va : ℕ) : M ℕ := do
  let mem ← kalloc fuel
  let s ← getShared
  swapIn fuel mem (swapIdx ((s.tables p).leaf (vkey va)))
  let s ← getShared
  let pte := walkaddrPte mem ((s.tables p).leaf (vkey va))
  setLeaf p va pte
  pure (userPage pte)

/-- `walkaddr` -/
def walkaddr (fuel p va : ℕ) : M ℕ := do
  if va ≥ maxva then pure 0
  else
    match ← lookPte p va with
    | none => pure 0
    | some pte =>
      if has pte pteV then pure (userPage pte)
      else if has pte pteSwapped then walkaddrSwapIn fuel p va
      else pure 0

/-- `ismapped` -/
def ismapped (p va : ℕ) : M Bool := do
  let pte ← walk p va
  pure (pte.any fun pte => has pte pteV)

/-- `vmfault` -/
def vmfault (fuel va : ℕ) : M ℕ := do
  let p ← myproc
  let s ← getShared
  if va ≥ s.sz p then pure 0
  else if ← ismapped p (pgrounddown va) then pure 0
  else
    let mem ← kalloc fuel
    mappages fuel p (pgrounddown va) mem (pteW ||| pteU ||| pteR)
    trackFrame p (pgrounddown va) mem
    pure mem

/-- The page that a copy goes through: `walkaddr`, and `vmfault` when that fails. -/
def copyPage (fuel p va0 : ℕ) : M ℕ := do
  let pa0 ← walkaddr fuel p va0
  if pa0 = 0 then vmfault fuel va0 else pure pa0

/-- `copyin`, for one byte. -/
def copyin (fuel p srcva : ℕ) : M (Option (BitVec 8)) := do
  let pa0 ← copyPage fuel p (pgrounddown srcva)
  if pa0 = 0 then pure none
  else
    let s ← getShared
    pure (some (s.user p srcva))

/-- `copyout`, for one byte. -/
def copyout (fuel p dstva : ℕ) (ch : BitVec 8) : M Bool := do
  let va0 := pgrounddown dstva
  if va0 ≥ maxva then pure false
  else
    let pa0 ← copyPage fuel p va0
    if pa0 = 0 then pure false
    else
      let s ← getShared
      if has ((s.tables p).leaf (vkey va0)) pteW then
        modShared fun s => { s with
          user := update s.user p (update (s.user p) dstva ch) }
        pure true
      else pure false

end Locks

end Xv6
