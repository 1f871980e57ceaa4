import Xv6.Fs.FileWrite
import Xv6.Lib.Simulation

/-!
# Files as lists of bytes

Whole runs of `writei`, `readi`, `itrunc` and the load of an inode in `ilock`, on any files of a
volume. Above them the files are lists of bytes (`ByteFiles`), and a run of calls shows what it
would show there; a write may stop early, when the disk is full.

## Scope

Each call that changes a file is a transaction of its own, with nothing else in the log, and a run
has no value when a call panics: `bmap`, `bfree`, `ilock` on an inode without a type, or
`log_write` in a full log. A write is at most one piece of `filewrite`, and its source can be read
(`Op.Allowed`): the bytes that a failed copy has left in a buffer are not logged, so whether a later
read finds them depends on the recycling of buffers. What calls do to the log together is the
matter of `Xv6.Fs.LogSpace`; that `itrunc` may log more than its share there is
`itrunc_logs`.
-/

namespace Xv6

namespace Fs

open Disk (Block Used)
open Function (update update_eq_self)
open Transition

variable {sb : Superblock} {ι : Type} [DecidableEq ι]

/-- The calls on the files: the last one is the load of an inode that has left the inode table. -/
inductive Op (ι : Type) where
  | writei (i : ι) (src : List (BitVec 8)) (off n : ℕ)
  | readi (i : ι) (room off n : ℕ)
  | itrunc (i : ι)
  | load (i : ι)

/-- A write is a piece of `filewrite`, or smaller, with a source that can be read. -/
def Op.Allowed : Op ι → Prop
  | .writei _ src _ n => n ≤ filewriteMax ∧ n ≤ src.length
  | _ => True

instance : DecidablePred (Op.Allowed (ι := ι))
  | .writei _ src _ n => inferInstanceAs (Decidable (n ≤ filewriteMax ∧ n ≤ src.length))
  | .readi .. | .itrunc _ | .load _ => instDecidableTrue

/-- What a caller sees: the value returned, for a read the bytes delivered, for a write whether the
disk is full. -/
inductive Seen (ι : Type) where
  | wrote (i : ι) (src : List (BitVec 8)) (off n : ℕ) (ret : ℤ) (full : Bool)
  | read (i : ι) (room off n : ℕ) (ret : ℤ) (bytes : List (BitVec 8))
  | truncated (i : ι)

instance (blocks : ℕ → Block) : Decidable (Full sb blocks) :=
  inferInstanceAs (Decidable (∀ b < sb.size, Used sb.toSuperblock blocks b))

namespace Files

/-- The files after a transaction, unless `log_write` has panicked in it. -/
def endOp (s : Files ι) (i : ι) (ip : Inode) (v : Vol) : Option (Files ι) :=
  if v.tooBig = true then none else some ⟨v, update s.inode i ip⟩

/-- One call; `none` is a panic. -/
def step (sb : Superblock) (s : Files ι) : Op ι → Option (Files ι)
  | .writei i src off n => (writei sb src off n (s.inode i) s.vol.beginOp).bind fun r =>
      s.endOp i r.2.1 r.2.2
  | .readi i room off n => (readi sb room off n (s.inode i) s.vol).bind fun r =>
      s.endOp i r.2.2.1 r.2.2.2
  | .itrunc i => (itrunc sb (s.inode i) s.vol.beginOp).bind fun r => s.endOp i r.1 r.2
  | .load i =>
    let ip := loadInode (s.inode i).inum (s.vol.blocks (sb.iblock (s.inode i).inum))
    -- `panic("ilock: no type")`
    if ip.type = 0 then none else some ⟨s.vol, update s.inode i ip⟩

/-- What the caller sees of it. -/
def obs (sb : Superblock) (s : Files ι) : Op ι → List (Seen ι)
  | .writei i src off n => (writei sb src off n (s.inode i) s.vol.beginOp).elim [] fun r =>
      [.wrote i src off n r.1 (decide (Full sb r.2.2.blocks))]
  | .readi i room off n => (readi sb room off n (s.inode i) s.vol).elim [] fun r =>
      [.read i room off n r.1 r.2.1]
  | .itrunc i => [.truncated i]
  | .load _ => []

end Files

/-- The files as lists of bytes. -/
abbrev ByteFiles (ι : Type) := ι → List (BitVec 8)

namespace ByteFiles

inductive Act (ι : Type) where
  | refuse (i : ι) (src : List (BitVec 8)) (off n : ℕ) (full : Bool)
  | write (i : ι) (src : List (BitVec 8)) (off n tot : ℕ) (full : Bool)
  | read (i : ι) (room off n : ℕ)
  | truncate (i : ι)

/-- A write beyond the end of the file or the largest size is refused; any other one stores the
first `tot` bytes, and all of them unless the disk is full. -/
def step (t : ByteFiles ι) : Act ι → Option (ByteFiles ι)
  | .refuse i _ off n _ =>
    if (t i).length < off ∨ maxfile * bsize < off + n then some t else none
  | .write i src off n tot full =>
    if off ≤ (t i).length ∧ off + n ≤ maxfile * bsize ∧ tot ≤ n ∧ (tot < n → full = true) then
      some (update t i (written (t i) off src tot tot))
    else none
  | .read _ _ _ _ => some t
  | .truncate i => some (update t i [])

def obs (t : ByteFiles ι) : Act ι → List (Seen ι)
  | .refuse i src off n full => [.wrote i src off n (-1) full]
  | .write i src off n tot full => [.wrote i src off n tot full]
  | .read i room off n =>
    [.read i room off n (readBytes (t i) room off n).1 (readBytes (t i) room off n).2]
  | .truncate i => [.truncated i]

end ByteFiles

/-- The bytes are those of the files, the file system is sound, and its inodes are in use. -/
structure Stores (g : Geometry sb) (s : Files ι) (t : ByteFiles ι) : Prop where
  ok : s.Ok g
  typed : ∀ i, (s.inode i).type ≠ 0
  fits : s.vol.tooBig = false
  bytes : s.bytes = t

variable {g : Geometry sb} {s : Files ι} {t : ByteFiles ι}

omit [DecidableEq ι] in
theorem Stores.beginOp (h : Stores g s t) : Stores g ⟨s.vol.beginOp, s.inode⟩ t :=
  ⟨h.ok.beginOp, h.typed, rfl, h.bytes⟩

theorem Stores.update_self (h : Stores g s t) (i : ι) :
    Stores g ⟨s.vol, update s.inode i (s.inode i)⟩ t := by
  rwa [update_eq_self]

/-- A call on file `i` that keeps its type. -/
theorem Stores.endOp (h : Stores g s t) {i : ι} {ip : Inode} {v : Vol} {c : List (BitVec 8)}
    (hok : Files.Ok g ⟨v, update s.inode i ip⟩) (htype : ip.type = (s.inode i).type)
    (hfits : v.tooBig = false)
    (hbytes : ∀ j, Files.bytes ⟨v, update s.inode i ip⟩ j = update s.bytes i c j) :
    s.endOp i ip v = some ⟨v, update s.inode i ip⟩ ∧
      Stores g ⟨v, update s.inode i ip⟩ (update t i c) := by
  refine ⟨by rw [Files.endOp, hfits]; rfl, hok, fun j => ?_, hfits, ?_⟩
  · by_cases hj : j = i
    · subst hj
      dsimp only
      rw [Function.update_self, htype]
      exact h.typed j
    · dsimp only
      rw [Function.update_of_ne hj]
      exact h.typed j
  · rw [← h.bytes]
    exact funext hbytes

/-- A source that can be read leaves no bytes that are not counted. -/
theorem Outcome.readable {len n tot cnt : ℕ} {full : Prop} (h : Outcome len n full tot cnt)
    (hlen : n ≤ len) : cnt = tot ∧ tot ≤ n ∧ (tot < n → full) :=
  ⟨h.uncounted.resolve_right fun h => Nat.not_le.mpr h.2 hlen, h.tot_le,
    fun hlt => (h.short hlt).resolve_right (Nat.not_lt.mpr hlen)⟩

/-- One call on a sound file system does not panic and does what the list of bytes does. -/
theorem step_matched (hsb : sb.size ≤ (logblocks - 1) * Disk.bpb) (h : Stores g s t) (op : Op ι)
    (hop : op.Allowed) :
    ∃ s', s.step sb op = some s' ∧ ∃ as t', run ByteFiles.step as t = some t' ∧
      trace ByteFiles.step ByteFiles.obs as t = s.obs sb op ∧ Stores g s' t' := by
  have hlen : ∀ i, (t i).length = (s.inode i).size := fun i => by rw [← h.bytes, s.length_bytes]
  cases op with
  | writei i src off n =>
    obtain ⟨hn, hsrc⟩ := hop
    by_cases hrefuse : (s.inode i).size < off ∨ maxfile * bsize < off + n
    · rw [Files.step, Files.obs, writei_refused hrefuse]
      refine ⟨_, rfl, matched_by_one
        (ByteFiles.Act.refuse i src off n (decide (Full sb s.vol.blocks))) ?_
          (h.beginOp.update_self i)⟩
      rw [ByteFiles.step, hlen, if_pos hrefuse]
    · obtain ⟨hoff, hmax⟩ := not_or.mp hrefuse
      obtain ⟨tot, cnt, ip', v', heq, hok', hbytes, hout, htype⟩ :=
        writei_spec h.ok.beginOp i src (Nat.not_lt.mp hoff) (Nat.not_lt.mp hmax)
      obtain ⟨rfl, hshort⟩ := hout.readable hsrc
      obtain ⟨hstep, hstores⟩ := h.endOp hok' htype (writei_fits h.ok hn heq).2 hbytes
      rw [Files.step, Files.obs, heq]
      refine ⟨_, hstep, matched_by_one
        (ByteFiles.Act.write i src off n cnt (decide (Full sb v'.blocks))) ?_ hstores⟩
      rw [ByteFiles.step, hlen, if_pos, ← h.bytes]
      · rfl
      · refine ⟨Nat.not_lt.mp hoff, Nat.not_lt.mp hmax, ?_⟩
        rwa [decide_eq_true_eq]
  | readi i room off n =>
    rw [Files.step, Files.obs, readi_spec h.ok, h.bytes, Option.bind_some, Files.endOp, h.fits]
    exact ⟨_, rfl, matched_by_one (ByteFiles.Act.read i room off n) rfl (h.update_self i)⟩
  | itrunc i =>
    obtain ⟨ip', v', heq, hok', hbytes, htype⟩ := itrunc_spec h.ok.beginOp i
    obtain ⟨ip'', v'', heq', -, -, hbig⟩ := itrunc_logged h.ok i
    obtain ⟨rfl, rfl⟩ := Prod.mk.inj (Option.some.inj (heq'.symm.trans heq))
    have hfits : v''.tooBig = false := Bool.eq_false_iff.mpr fun hb => by
      have := h.ok.wf.card_bitmapBlocks_le i hsb
      have := hbig.mp hb
      rw [logblocks_eq] at *
      omega
    obtain ⟨hstep, hstores⟩ := h.endOp hok' htype hfits hbytes
    rw [Files.step, heq']
    exact ⟨_, hstep, matched_by_one (ByteFiles.Act.truncate i) rfl hstores⟩
  | load i =>
    refine ⟨⟨s.vol, update s.inode i (s.inode i)⟩, ?_, matched_by_none (h.update_self i)⟩
    rw [Files.step, h.ok.synced i]
    exact if_neg (h.typed i)

theorem step_simulates (g : Geometry sb) (hsb : sb.size ≤ (logblocks - 1) * Disk.bpb) :
    Simulates (Files.step (ι := ι) sb) ByteFiles.step (Files.obs sb) ByteFiles.obs
      (fun _ op => op.Allowed) (Stores g) := by
  intro s t op s' h hop hs'
  obtain ⟨m, hm, hrest⟩ := step_matched hsb h op hop
  obtain rfl : m = s' := Option.some.inj (hm.symm.trans hs')
  exact hrest

/-- **Files are lists of bytes.** From a sound file system whose inodes are in use, and whose bitmap
has fewer than `LOGBLOCKS` blocks, no sequence of calls panics, the file system stays sound (so no
block is lost, shared or freed twice), and what the callers see is what they would see of one list
of bytes for each file. -/
theorem files_refine_byte_lists (g : Geometry sb) (s : Files ι) (h : s.Ok g)
    (htyped : ∀ i, (s.inode i).type ≠ 0) (hfits : s.vol.tooBig = false)
    (hsb : sb.size ≤ (logblocks - 1) * Disk.bpb) (ops : List (Op ι))
    (hops : ∀ op ∈ ops, op.Allowed) :
    ∃ s', run (Files.step sb) ops s = some s' ∧ s'.Ok g ∧
      ∃ as, run ByteFiles.step as s.bytes = some s'.bytes ∧
        trace ByteFiles.step ByteFiles.obs as s.bytes =
          trace (Files.step sb) (Files.obs sb) ops s := by
  have hsim := step_simulates (ι := ι) g hsb
  have hstores : Stores g s s.bytes := ⟨h, htyped, hfits, rfl⟩
  obtain ⟨s', hrun⟩ := hsim.exists_run
    (fun s t op hR hop => (step_matched hsb hR op hop).imp fun _ hs' => hs'.1)
    (fun op hop _ => hops op hop) hstores
  obtain ⟨as, t', has, htrace, hend⟩ :=
    hsim.run hstores (meets_of_forall (fun op hop _ => hops op hop) _) hrun
  obtain rfl := hend.bytes
  exact ⟨s', hrun, hend.ok, as, has, htrace⟩

/-- Writes to both files, one that is refused, one into the middle, a load, a truncation, and a
write that fills the disk. -/
def smallOps : List (Op Bool) :=
  [.writei true (List.replicate 1500 1) 0 1500, .writei false (List.replicate 900 2) 0 900,
    .writei false [3] 901 1, .writei true [4, 4] 1022 2, .load true, .itrunc false,
    .writei false (List.replicate 3000 5) 0 3000, .writei false (List.replicate 3000 6) 3000 3000,
    .readi false 7 3070 9]

theorem files_refine_byte_lists_small :
    ∃ s', run (Files.step smallSb) smallOps smallFiles = some s' ∧ s'.Ok smallGeometry ∧
      (s'.bytes true).length = 1500 ∧ (s'.bytes true)[1023]? = some 4 ∧
      (s'.bytes false).length = 3072 ∧ Full smallSb s'.vol.blocks := by
  obtain ⟨s', hrun, hok, -⟩ := files_refine_byte_lists smallGeometry smallFiles smallFiles_ok
    (by decide) rfl (by decide) smallOps (by decide +kernel)
  obtain ⟨s'', hrun', hfacts⟩ : ∃ s', run (Files.step smallSb) smallOps smallFiles = some s' ∧
      ((s'.bytes true).length = 1500 ∧ (s'.bytes true)[1023]? = some 4 ∧
      (s'.bytes false).length = 3072 ∧ Full smallSb s'.vol.blocks) := by decide +kernel
  obtain rfl : s' = s'' := Option.some.inj (hrun.symm.trans hrun')
  exact ⟨s', hrun, hok, hfacts⟩

end Fs

end Xv6
