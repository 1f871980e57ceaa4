import Xv6.Disk.Queue
import Xv6.Lib.RingBuffer
import Xv6.Lib.Transition

/-!
# The disk driver and the device

`virtio_disk_rw` and `virtio_disk_intr` of `virtio_disk.c`, together with the device at the other
end of the two rings.

A request is a chain of three descriptors out of a set of `NUM`: the command, the data, the status
byte. The driver puts the number of the first one into the *avail* ring; the device fetches it,
performs the request at some later time and puts the number into the *used* ring; the interrupt
handler marks the buffer as done and wakes the caller, who frees the chain.

## Scope

One action is what a process does between taking `vdisk_lock` and sleeping or releasing it; the
handler is cut into the iterations of its loop, and the device into fetching one request and
performing one. Everything else is free: which process runs, how many requests the device has
fetched, the order in which it performs them, when it interrupts. Memory is sequentially
consistent, which is what the fences around the ring updates are for.

The device follows the descriptors as they are in memory when it performs the request. It answers
every well-formed request with success; what it would do with another one is not modelled, and
reported as an error.

The counters of the rings are 16-bit words, and count on when the rings wrap.
-/

namespace Xv6

namespace Virtio

open Disk (Block)
open Function (update)

/-- `NUM` -/
def num : ℕ := 8

/-- The counters are of type `uint16`. -/
def words : ℕ := 2 ^ 16

/-- `VRING_DESC_F_NEXT` -/
def fNext : BitVec 16 := 1#16

/-- `VRING_DESC_F_WRITE` -/
def fWrite : BitVec 16 := 2#16

/-- What a descriptor may point to. -/
inductive Ptr (κ : Type) where
  | null
  /-- `&disk.ops[i]` -/
  | op (i : ℕ)
  /-- `b->data` -/
  | data (b : κ)
  /-- `&disk.info[i].status` -/
  | status (i : ℕ)
  deriving DecidableEq

/-- `struct virtq_desc` -/
structure Desc (κ : Type) where
  addr : Ptr κ
  len : ℕ
  flags : BitVec 16
  next : ℕ
  deriving DecidableEq

/-- `struct virtio_blk_req`; `out` says that the type is `VIRTIO_BLK_T_OUT`. -/
structure Req where
  out : Bool
  sector : ℕ
  deriving DecidableEq

/-- An entry of `disk.info`. -/
structure Info (κ : Type) where
  b : Option κ
  status : BitVec 8

/-- The fields of a buffer that the driver uses. -/
structure Buf where
  data : Block
  disk : Bool

/-- Where a process is in `virtio_disk_rw`. -/
inductive Pc (κ : Type) where
  | idle
  /-- asleep on `&disk.free[0]`, or woken -/
  | wantDesc (b : κ) (blockno : ℕ) (write woken : Bool)
  /-- asleep on `b`, or woken; `i` is `idx[0]` -/
  | waitIo (b : κ) (blockno : ℕ) (write : Bool) (i : ℕ) (woken : Bool)
  deriving DecidableEq

namespace Pc

variable {κ : Type} [DecidableEq κ]

/-- `wakeup(&disk.free[0])` -/
def wakeDesc : Pc κ → Pc κ
  | wantDesc b n w _ => wantDesc b n w true
  | pc => pc

/-- `wakeup(b)` -/
def wakeBuf (b : κ) : Pc κ → Pc κ
  | waitIo c n w i woken => waitIo c n w i (woken || decide (c = b))
  | pc => pc

/-- The buffer of a call. -/
def buf : Pc κ → Option κ
  | idle => none
  | wantDesc b _ _ _ => some b
  | waitIo b _ _ _ _ => some b

end Pc

/-! ### Descriptors -/

/-- `disk.free` and `disk.desc`. -/
structure Descs (κ : Type) where
  free : ℕ → Bool
  desc : ℕ → Desc κ

namespace Descs

variable {κ : Type}

/-- `alloc_desc`; `none` is `-1`. -/
def allocDesc (d : Descs κ) : Option ℕ × Descs κ :=
  match (List.range num).find? d.free with
  | some i => (some i, ⟨update d.free i false, d.desc⟩)
  | none => (none, d)

/-- `free_desc`, without the wakeup at its end. -/
def freeDesc (i : ℕ) (d : Descs κ) : Except String (Descs κ) :=
  if num ≤ i then .error "free_desc 1"
  else if d.free i then .error "free_desc 2"
  else .ok ⟨update d.free i true, update d.desc i ⟨.null, 0, 0, 0⟩⟩

/-- `free_chain`, with at most the given number of iterations left. -/
def freeChain : ℕ → ℕ → Descs κ → Except String (Descs κ)
  | 0, _, _ => .error "free_chain"
  | fuel + 1, i, d =>
    let flag := (d.desc i).flags
    let nxt := (d.desc i).next
    (freeDesc i d).bind fun d =>
      if flag &&& fNext ≠ 0 then freeChain fuel nxt d else .ok d

/-- `alloc3_desc`: the three descriptors (`none` is `-1`), and whether `free_desc` was called, which
wakes the processes that wait for descriptors. -/
def alloc3Desc (d : Descs κ) : Except String (Option (ℕ × ℕ × ℕ) × Bool × Descs κ) :=
  match d.allocDesc with
  | (none, d) => .ok (none, false, d)
  | (some i, d) =>
    match d.allocDesc with
    | (none, d) => (freeDesc i d).map fun d => (none, true, d)
    | (some j, d) =>
      match d.allocDesc with
      | (none, d) => ((freeDesc i d).bind (freeDesc j)).map fun d => (none, true, d)
      | (some k, d) => .ok (some (i, j, k), false, d)

/-- The chain `i`, `j`, `k` for a transfer of buffer `b`. -/
def format (b : κ) (write : Bool) (i j k : ℕ) (d : Descs κ) : Descs κ :=
  ⟨d.free, update (update (update d.desc
    i ⟨.op i, 16, fNext, j⟩)
    j ⟨.data b, bsize, (if write then 0 else fWrite) ||| fNext, k⟩)
    k ⟨.status i, 1, fWrite, 0⟩⟩

end Descs

/-! ### Rings -/

/-- The two rings with their counters, and the chains that the device has fetched and not yet
performed. -/
structure Rings where
  availRing : ℕ → ℕ
  availIdx : ℕ
  usedRing : ℕ → ℕ
  /-- `disk.used->idx`, the device's counter -/
  usedIdx : ℕ
  /-- `disk.used_idx`, the driver's counter -/
  seenIdx : ℕ
  /-- how far the device has read the avail ring -/
  fetchedIdx : ℕ
  pending : List ℕ

namespace Rings

/-- The driver makes chain `i` available. -/
def offer (i : ℕ) (q : Rings) : Rings :=
  { q with
    availRing := update q.availRing (q.availIdx % num) i
    availIdx := (q.availIdx + 1) % words }

/-- The device reads one entry of the avail ring. -/
def fetch (q : Rings) : Option Rings :=
  if q.fetchedIdx ≠ q.availIdx then
    some { q with
      pending := q.pending ++ [q.availRing (q.fetchedIdx % num)]
      fetchedIdx := (q.fetchedIdx + 1) % words }
  else none

/-- The device returns chain `h`. -/
def finish (h : ℕ) (q : Rings) : Rings :=
  { q with
    usedRing := update q.usedRing (q.usedIdx % num) h
    usedIdx := (q.usedIdx + 1) % words
    pending := q.pending.erase h }

/-- The handler reads one entry of the used ring. -/
def see (q : Rings) : Option (ℕ × Rings) :=
  if q.seenIdx ≠ q.usedIdx then
    some (q.usedRing (q.seenIdx % num), { q with seenIdx := (q.seenIdx + 1) % words })
  else none

end Rings

/-! ### The driver -/

/-- The driver, the rings, the device and the disk. -/
structure State (ι κ : Type) where
  descs : Descs κ
  ops : ℕ → Req
  info : ℕ → Info κ
  rings : Rings
  buf : κ → Buf
  platter : ℕ → Block
  pc : ι → Pc κ

namespace State

variable {ι κ : Type} [DecidableEq ι] [DecidableEq κ]

/-- `wakeup(&disk.free[0])` -/
def wakeDesc (pc : ι → Pc κ) : ι → Pc κ := fun u => (pc u).wakeDesc

/-- `virtio_disk_rw` from the first loop on: the process sleeps for descriptors, or formats a chain,
gives it to the device and sleeps for its answer. -/
def start (u : ι) (b : κ) (blockno : ℕ) (write : Bool) (s : State ι κ) :
    Except String (State ι κ) :=
  s.descs.alloc3Desc.map fun r =>
    match r.1 with
    | none => { s with
        descs := r.2.2
        pc := update (if r.2.1 then wakeDesc s.pc else s.pc) u
          (.wantDesc b blockno write false) }
    | some (i, j, k) => { s with
        descs := r.2.2.format b write i j k
        ops := update s.ops i ⟨write, blockno * (bsize / 512) % 2 ^ 32⟩
        info := update s.info i ⟨some b, 0xff⟩
        buf := update s.buf b { s.buf b with disk := true }
        rings := s.rings.offer i
        pc := update s.pc u (.waitIo b blockno write i false) }

/-- The device performs the request whose chain begins at `h`. -/
def perform (h : ℕ) (s : State ι κ) : Except String (State ι κ) :=
  let d₀ := s.descs.desc h
  let d₁ := s.descs.desc d₀.next
  let d₂ := s.descs.desc d₁.next
  match d₀.addr, d₁.addr, d₂.addr with
  | .op i, .data b, .status j =>
    let r := s.ops i
    if d₀.flags = fNext ∧ d₁.flags = (if r.out then 0 else fWrite) ||| fNext ∧
        d₂.flags = fWrite ∧ d₀.len = 16 ∧ d₁.len = bsize ∧ d₂.len = 1 ∧ r.sector % 2 = 0 then
      .ok { s with
        buf := if r.out then s.buf
          else update s.buf b { s.buf b with data := s.platter (r.sector / 2) }
        platter := if r.out then update s.platter (r.sector / 2) (s.buf b).data
          else s.platter
        info := update s.info j { s.info j with status := 0 }
        rings := s.rings.finish h }
    else .error "device"
  | _, _, _ => .error "device"

/-- One iteration of the loop of `virtio_disk_intr`. -/
def intr (s : State ι κ) : Option (Except String (State ι κ)) :=
  s.rings.see.map fun r =>
    if (s.info r.1).status ≠ 0 then .error "virtio_disk_intr status"
    else
      match (s.info r.1).b with
      | none => .error "null"
      | some b => .ok { s with
          buf := update s.buf b { s.buf b with disk := false }
          pc := fun u => (s.pc u).wakeBuf b
          rings := r.2 }

/-- A process that was woken in the second loop of `virtio_disk_rw`: it sleeps again, or frees its
chain and returns. -/
def resume (u : ι) (b : κ) (blockno : ℕ) (write : Bool) (i : ℕ) (s : State ι κ) :
    Except String (State ι κ) :=
  if (s.buf b).disk then
    .ok { s with pc := update s.pc u (.waitIo b blockno write i false) }
  else
    (s.descs.freeChain (num + 1) i).map fun d => { s with
      descs := d
      info := update s.info i { s.info i with b := none }
      pc := update (wakeDesc s.pc) u .idle }

end State

/-- Who acts: a process calls, a woken one goes on, the device fetches or performs, the handler
looks at one entry; or the owner of a buffer that is in no call changes its bytes. -/
inductive Act (ι κ : Type) where
  | call (u : ι) (b : κ) (blockno : ℕ) (write : Bool)
  | goOn (u : ι)
  | fetch
  | perform (h : ℕ)
  | intr
  | touch (b : κ) (data : Block)

variable {ι κ : Type} [DecidableEq ι] [DecidableEq κ]

/-- An action: `none` when there is nothing to do, an error for a panic. -/
def attempt (s : State ι κ) : Act ι κ → Option (Except String (State ι κ))
  | .call u b n w =>
    match s.pc u with
    | .idle => some (s.start u b n w)
    | _ => none
  | .goOn u =>
    match s.pc u with
    | .wantDesc b n w true => some (s.start u b n w)
    | .waitIo b n w i true => some (s.resume u b n w i)
    | _ => none
  | .fetch => s.rings.fetch.map fun q => .ok { s with rings := q }
  | .perform h => if h ∈ s.rings.pending then some (s.perform h) else none
  | .intr => s.intr
  | .touch b x => some (.ok { s with buf := update s.buf b { s.buf b with data := x } })

/-- The state after an action that does not panic. -/
def step (s : State ι κ) (a : Act ι κ) : Option (State ι κ) :=
  (attempt s a).bind Except.toOption

/-- `virtio_disk_init`: all descriptors are free, the rings are empty. -/
def init (data : κ → Block) (platter : ℕ → Block) : State ι κ where
  descs := ⟨fun _ => true, fun _ => ⟨.null, 0, 0, 0⟩⟩
  ops := fun _ => ⟨false, 0⟩
  info := fun _ => ⟨none, 0⟩
  rings := ⟨fun _ => 0, 0, fun _ => 0, 0, 0, 0, []⟩
  buf := fun b => ⟨data b, false⟩
  platter := platter
  pc := fun _ => .idle

/-- What the callers promise: a buffer is in one call at a time and is not changed while it is in
one (its sleep lock is held), and block numbers are small enough to be counted in sectors. -/
def Careful (s : State ι κ) : Act ι κ → Prop
  | .call _ b n _ => (∀ v, (s.pc v).buf ≠ some b) ∧ n < 2 ^ 31
  | .touch b _ => ∀ v, (s.pc v).buf ≠ some b
  | _ => True

end Virtio

end Xv6
