import Xv6.Disk.Blocks
import Xv6.Fs.Log

/-!
# Files as inodes

The middle of `fs.c`: `bmap`, `readi`, `writei`, `itrunc`, `iupdate` and the load of an inode in
`ilock`, over the allocator of `Xv6.Disk.Blocks`, and the loop of `filewrite`.

## Scope

The blocks are those that `bread` returns inside a running call; beside them a volume records
which blocks the call has passed to `log_write`, and whether one of these calls has panicked
because the log was full. The functions do not look at the record: a call goes on after such a
panic, and the place where the call is made has to reject its result (`Files.step`,
`filewriteLoop`). A call runs without interruption: calls on one inode exclude each other by its
lock, and calls on different inodes share only the bitmap, every change of which is made under the
lock of the bitmap block.

Copies from and to user memory may fail. The source of a write is the list of the bytes that can
be read, which may be shorter than the `n` bytes asked for; `either_copyin` copies as far as it
can before it reports the failure, so that the bytes before the bad address are already in the
buffer. These bytes are not logged, and are lost when the buffer is recycled. The target of a read
is given by the number of bytes that can be stored.

`uint` values are natural numbers; the sums that can leave their range are tested as the code
tests them.
-/

namespace Xv6

namespace Fs

open Disk (Block)

/-- `NDIRECT` -/
def ndirect : ℕ := 12

/-- `NINDIRECT` -/
def nindirect : ℕ := bsize / 4

/-- `MAXFILE` -/
def maxfile : ℕ := ndirect + nindirect

/-- `IPB`: inodes per block. -/
def ipb : ℕ := 16

/-- The words of an inode on the disk. -/
def dinodeWords : ℕ := 16

@[simp] theorem ndirect_eq : ndirect = 12 := rfl
@[simp] theorem nindirect_eq : nindirect = 256 := rfl
@[simp] theorem maxfile_eq : maxfile = 268 := rfl

/-! ### Volumes -/

/-- The superblock's fields that files need. -/
structure Superblock extends Disk.Superblock where
  inodestart : ℕ

/-- `IBLOCK` -/
def Superblock.iblock (sb : Superblock) (inum : ℕ) : ℕ := inum / ipb + sb.inodestart

/-- The blocks as a call sees them, those it has passed to `log_write`, and whether `log_write` has
panicked with "too big a transaction". -/
structure Vol where
  blocks : ℕ → Block
  logged : List ℕ
  tooBig : Bool

namespace Vol

/-- `log_write`. It looks whether there is room before it looks whether the block is there. -/
def note (b : ℕ) (v : Vol) : Vol :=
  { v with
    logged := if b ∈ v.logged then v.logged else b :: v.logged
    tooBig := v.tooBig || decide (logblocks ≤ v.logged.length) }

/-- Change the buffer of block `b` without `log_write`. -/
def poke (b : ℕ) (x : Block) (v : Vol) : Vol := { v with blocks := Function.update v.blocks b x }

/-- Change the buffer of block `b` and call `log_write`. -/
def write (b : ℕ) (x : Block) (v : Vol) : Vol := (v.poke b x).note b

@[simp] theorem note_blocks (b : ℕ) (v : Vol) : (v.note b).blocks = v.blocks := rfl

@[simp] theorem poke_blocks (b : ℕ) (x : Block) (v : Vol) :
    (v.poke b x).blocks = Function.update v.blocks b x := rfl

@[simp] theorem write_blocks (b : ℕ) (x : Block) (v : Vol) :
    (v.write b x).blocks = Function.update v.blocks b x := rfl

theorem mem_note {v : Vol} {b c : ℕ} : c ∈ (v.note b).logged ↔ c = b ∨ c ∈ v.logged := by
  unfold note
  dsimp only
  split_ifs with h
  · exact ⟨Or.inr, fun hc => hc.elim (fun he => by rwa [he]) id⟩
  · exact List.mem_cons

theorem nodup_note {v : Vol} (b : ℕ) (h : v.logged.Nodup) : (v.note b).logged.Nodup := by
  unfold note
  dsimp only
  split_ifs with hb
  · exact h
  · exact List.nodup_cons.mpr ⟨hb, h⟩

/-- `log_write` has panicked only if the log is full. -/
def Fits (v : Vol) : Prop := v.tooBig = true → logblocks ≤ v.logged.length

theorem Fits.note {v : Vol} (h : v.Fits) (b : ℕ) : (v.note b).Fits := by
  intro hbig
  have hfull : logblocks ≤ v.logged.length := by
    rcases (Bool.or_eq_true _ _).mp hbig with hbig | hbig
    · exact h hbig
    · exact of_decide_eq_true hbig
  refine hfull.trans ?_
  unfold Vol.note
  dsimp only
  split_ifs
  · exact Nat.le_refl _
  · exact Nat.le_succ _

/-- `balloc`. A block was found when the block returned is one whose bit was clear. -/
def balloc (sb : Superblock) (v : Vol) : ℕ × Vol :=
  let r := Disk.balloc sb.toSuperblock v.blocks
  (r.1, if r.1 < sb.size ∧ ¬ Disk.Used sb.toSuperblock v.blocks r.1 then
      (({ v with blocks := r.2 } : Vol).note (sb.bblock r.1)).note r.1
    else v)

/-- `bfree`; `none` is the panic. -/
def bfree (sb : Superblock) (b : ℕ) (v : Vol) : Option Vol :=
  (Disk.bfree sb.toSuperblock b v.blocks).map fun d =>
    ({ v with blocks := d } : Vol).note (sb.bblock b)

end Vol

/-! ### Inodes -/

/-- `struct inode`, without what the inode table needs. -/
structure Inode where
  inum : ℕ
  type : BitVec 16
  major : BitVec 16
  minor : BitVec 16
  nlink : BitVec 16
  size : ℕ
  addrs : Fin 13 → ℕ

namespace Inode

/-- `ip->addrs[k]` -/
def addr (ip : Inode) (k : ℕ) : ℕ := if h : k < 13 then ip.addrs ⟨k, h⟩ else 0

/-- `ip->addrs[k] = x` -/
def setAddr (ip : Inode) (k x : ℕ) : Inode :=
  { ip with addrs := fun j => if j.val = k then x else ip.addrs j }

/-- The words of `struct dinode`: two `short`s in each of the first two, the size, the
addresses. -/
def words (ip : Inode) : List ℕ :=
  [ip.type.toNat + 2 ^ 16 * ip.major.toNat, ip.minor.toNat + 2 ^ 16 * ip.nlink.toNat, ip.size] ++
    (List.finRange 13).map ip.addrs

end Inode

/-- The inode that `ilock` reads from block `b`. -/
def loadInode (inum : ℕ) (b : Block) : Inode where
  inum := inum
  type := (word b (dinodeWords * (inum % ipb))).extractLsb' 0 16
  major := (word b (dinodeWords * (inum % ipb))).extractLsb' 16 16
  minor := (word b (dinodeWords * (inum % ipb) + 1)).extractLsb' 0 16
  nlink := (word b (dinodeWords * (inum % ipb) + 1)).extractLsb' 16 16
  size := (word b (dinodeWords * (inum % ipb) + 2)).toNat
  addrs := fun k => (word b (dinodeWords * (inum % ipb) + 3 + k)).toNat

/-- `iupdate` -/
def iupdate (sb : Superblock) (ip : Inode) (v : Vol) : Vol :=
  v.write (sb.iblock ip.inum)
    (setWords (dinodeWords * (ip.inum % ipb)) ip.words (v.blocks (sb.iblock ip.inum)))

/-- The numbers in an inode are `uint`s. -/
def Inode.Fits (ip : Inode) : Prop := ip.size < 2 ^ 32 ∧ ∀ k, ip.addrs k < 2 ^ 32

theorem Inode.length_words (ip : Inode) : ip.words.length = dinodeWords := by
  simp [words, dinodeWords]

theorem Inode.words_fit (ip : Inode) (inum : ℕ) :
    dinodeWords * (inum % ipb) + ip.words.length ≤ wordsPerBlock := by
  have hmod : inum % ipb < 16 := Nat.mod_lt _ (by decide)
  rw [Inode.length_words, dinodeWords]
  show _ ≤ 256
  omega

/-- The words of an inode, after `iupdate` has stored it. -/
theorem word_dinode (ip : Inode) {j x : ℕ} (b : Block) (hj : ip.words[j]? = some x) :
    word (setWords (dinodeWords * (ip.inum % ipb)) ip.words b) (dinodeWords * (ip.inum % ipb) + j) =
      BitVec.ofNat 32 x := by
  rw [word_setWords (ip.words_fit ip.inum), if_pos (Nat.le_add_right _ _), Nat.add_sub_cancel_left,
    hj]
  rfl

/-- Two `short`s that share a word. -/
theorem extractLsb'_pair (a b : BitVec 16) :
    (BitVec.ofNat 32 (a.toNat + 2 ^ 16 * b.toNat)).extractLsb' 0 16 = a ∧
    (BitVec.ofNat 32 (a.toNat + 2 ^ 16 * b.toNat)).extractLsb' 16 16 = b := by
  have ha := a.isLt
  have hb := b.isLt
  constructor
  · apply BitVec.eq_of_toNat_eq
    rw [BitVec.extractLsb'_toNat, BitVec.toNat_ofNat, Nat.shiftRight_eq_div_pow]
    omega
  · apply BitVec.eq_of_toNat_eq
    rw [BitVec.extractLsb'_toNat, BitVec.toNat_ofNat, Nat.shiftRight_eq_div_pow]
    omega

theorem Inode.words_addr (ip : Inode) (k : Fin 13) : ip.words[3 + k.val]? = some (ip.addrs k) := by
  rw [words, List.getElem?_append_right (Nat.le_add_right 3 _)]
  simp

/-- **The inode round trip**: `ilock` reads back what `iupdate` has stored. -/
theorem loadInode_setWords {ip : Inode} (h : ip.Fits) (b : Block) :
    loadInode ip.inum (setWords (dinodeWords * (ip.inum % ipb)) ip.words b) = ip := by
  have h0 := word_dinode ip (j := 0) b rfl
  have h1 := word_dinode ip (j := 1) b rfl
  have h2 := word_dinode ip (j := 2) b rfl
  have hk : ∀ k, (word (setWords (dinodeWords * (ip.inum % ipb)) ip.words b)
      (dinodeWords * (ip.inum % ipb) + 3 + k.val)).toNat = ip.addrs k := fun k => by
    rw [Nat.add_assoc, word_dinode ip b (ip.words_addr k), BitVec.toNat_ofNat,
      Nat.mod_eq_of_lt (h.2 k)]
  rw [Nat.add_zero] at h0
  rw [loadInode, h0, h1, h2, (extractLsb'_pair _ _).1, (extractLsb'_pair _ _).2,
    (extractLsb'_pair _ _).1, (extractLsb'_pair _ _).2, BitVec.toNat_ofNat, Nat.mod_eq_of_lt h.1,
    funext hk]

/-- The inodes that share a block with it are not touched. -/
theorem loadInode_setWords_of_ne {ip : Inode} {inum : ℕ} (hne : inum % ipb ≠ ip.inum % ipb)
    (b : Block) :
    loadInode inum (setWords (dinodeWords * (ip.inum % ipb)) ip.words b) = loadInode inum b := by
  have key : ∀ j < dinodeWords,
      word (setWords (dinodeWords * (ip.inum % ipb)) ip.words b) (dinodeWords * (inum % ipb) + j) =
        word b (dinodeWords * (inum % ipb) + j) := by
    intro j hj
    rw [word_setWords (ip.words_fit ip.inum)]
    by_cases hle : dinodeWords * (ip.inum % ipb) ≤ dinodeWords * (inum % ipb) + j
    · rw [if_pos hle, List.getElem?_eq_none]
      · rfl
      · rw [Inode.length_words]
        unfold dinodeWords at *
        omega
    · rw [if_neg hle]
  have h0 := key 0 (by decide)
  rw [Nat.add_zero] at h0
  have hk : ∀ k : Fin 13, (word (setWords (dinodeWords * (ip.inum % ipb)) ip.words b)
      (dinodeWords * (inum % ipb) + 3 + k.val)).toNat =
        (word b (dinodeWords * (inum % ipb) + 3 + k.val)).toNat := fun k => by
    rw [Nat.add_assoc, key _ (by unfold dinodeWords; omega)]
  rw [loadInode, loadInode, h0, key 1 (by decide), key 2 (by decide), funext hk]

/-! ### The block map -/

/-- The part of `bmap` for the indirect block `ind`. -/
def bmapIndirect (sb : Superblock) (ind bn : ℕ) (v : Vol) : ℕ × Vol :=
  let addr := (word (v.blocks ind) bn).toNat
  if addr = 0 then
    let r := v.balloc sb
    if r.1 = 0 then (0, r.2)
    else (r.1, r.2.write ind (setWord (r.2.blocks ind) bn (BitVec.ofNat 32 r.1)))
  else (addr, v)

/-- `bmap`; `none` is the panic. -/
def bmap (sb : Superblock) (bn : ℕ) (ip : Inode) (v : Vol) : Option (ℕ × Inode × Vol) :=
  if bn < ndirect then
    if ip.addr bn = 0 then
      let r := v.balloc sb
      if r.1 = 0 then some (0, ip, r.2) else some (r.1, ip.setAddr bn r.1, r.2)
    else some (ip.addr bn, ip, v)
  else if bn - ndirect < nindirect then
    if ip.addr ndirect = 0 then
      let r := v.balloc sb
      if r.1 = 0 then some (0, ip, r.2)
      else
        let q := bmapIndirect sb r.1 (bn - ndirect) r.2
        some (q.1, ip.setAddr ndirect r.1, q.2)
    else
      let q := bmapIndirect sb (ip.addr ndirect) (bn - ndirect) v
      some (q.1, ip, q.2)
  else none

/-! ### Reading and writing -/

/-- Bytes `src` copied over those of block `b` from byte `o` on. -/
def copyBytes (o : ℕ) (src : List (BitVec 8)) (b : Block) : Block :=
  fun j => if o ≤ j.val then (src[j.val - o]?).getD (b j) else b j

/-- The loop of `writei`, with at most the given number of iterations left. `src` are the bytes
that can be read; a piece that is not all there is copied as far as it goes, and not logged. -/
def writeLoop (sb : Superblock) (src : List (BitVec 8)) (n : ℕ) :
    ℕ → ℕ → ℕ → Inode → Vol → Option (ℕ × ℕ × Inode × Vol)
  | 0, tot, off, ip, v => some (tot, off, ip, v)
  | fuel + 1, tot, off, ip, v =>
    if tot < n then
      (bmap sb (off / bsize) ip v).bind fun r =>
        if r.1 = 0 then some (tot, off, r.2.1, r.2.2)
        else
          let m := min (n - tot) (bsize - off % bsize)
          let piece := (src.drop tot).take m
          let data := copyBytes (off % bsize) piece (r.2.2.blocks r.1)
          if piece.length < m then some (tot, off, r.2.1, r.2.2.poke r.1 data)
          else writeLoop sb src n fuel (tot + m) (off + m) r.2.1 (r.2.2.write r.1 data)
    else some (tot, off, ip, v)

/-- `writei`: the value it returns, the inode and the volume. -/
def writei (sb : Superblock) (src : List (BitVec 8)) (off n : ℕ) (ip : Inode) (v : Vol) :
    Option (ℤ × Inode × Vol) :=
  if ip.size < off ∨ 2 ^ 32 ≤ off + n then some (-1, ip, v)
  else if maxfile * bsize < off + n then some (-1, ip, v)
  else (writeLoop sb src n n 0 off ip v).map fun r =>
    let ip := if r.2.2.1.size < r.2.1 then { r.2.2.1 with size := r.2.1 } else r.2.2.1
    (r.1, ip, iupdate sb ip r.2.2.2)

/-- The loop of `readi`, with at most the given number of iterations left: the bytes delivered,
and whether a copy failed. -/
def readLoop (sb : Superblock) (room n : ℕ) :
    ℕ → ℕ → ℕ → Inode → Vol → Option ((List (BitVec 8) × Bool) × Inode × Vol)
  | 0, _, _, ip, v => some (([], true), ip, v)
  | fuel + 1, tot, off, ip, v =>
    if tot < n then
      (bmap sb (off / bsize) ip v).bind fun r =>
        if r.1 = 0 then some (([], true), r.2.1, r.2.2)
        else
          let m := min (n - tot) (bsize - off % bsize)
          let piece := (List.range m).map fun j => byte (r.2.2.blocks r.1) (off % bsize + j)
          if room < tot + m then some ((piece.take (room - tot), false), r.2.1, r.2.2)
          else (readLoop sb room n fuel (tot + m) (off + m) r.2.1 r.2.2).map fun q =>
            ((piece ++ q.1.1, q.1.2), q.2)
    else some (([], true), ip, v)

/-- `readi`: the value it returns, the bytes delivered, the inode and the volume. -/
def readi (sb : Superblock) (room off n : ℕ) (ip : Inode) (v : Vol) :
    Option (ℤ × List (BitVec 8) × Inode × Vol) :=
  if ip.size < off ∨ 2 ^ 32 ≤ off + n then some (0, [], ip, v)
  else
    let n := if ip.size < off + n then ip.size - off else n
    (readLoop sb room n n 0 off ip v).map fun r =>
      (if r.1.2 then (r.1.1.length : ℤ) else -1, r.1.1, r.2)

/-! ### Truncating -/

/-- Free the blocks of a list, leaving out zeros. -/
def freeAll (sb : Superblock) : List ℕ → Vol → Option Vol
  | [], v => some v
  | b :: bs, v => if b = 0 then freeAll sb bs v else (v.bfree sb b).bind (freeAll sb bs)

/-- The entries of an indirect block. -/
def entries (b : Block) : List ℕ := (List.range nindirect).map fun j => (word b j).toNat

/-- `itrunc` -/
def itrunc (sb : Superblock) (ip : Inode) (v : Vol) : Option (Inode × Vol) :=
  (freeAll sb ((List.range ndirect).map ip.addr) v).bind fun v =>
    (if ip.addr ndirect = 0 then some v
      else (freeAll sb (entries (v.blocks (ip.addr ndirect))) v).bind
        (Vol.bfree sb (ip.addr ndirect))).map fun v =>
      let ip := { ip with size := 0, addrs := fun _ => 0 }
      (ip, iupdate sb ip v)

end Fs

end Xv6
