import Mathlib.Data.Finset.Card
import Xv6.Fs.Log
import Xv6.Lib.Simulation

/-!
# The log makes groups of calls atomic

What the log is for: a disk on which the updates of a group of calls take effect together or not
at all. `Txn` says that without a log: a `view` that the running calls see and update, a `saved`
store that survives a crash, and a `commit` that saves the view and is possible only while no
call is running. `log.c` refines it (`step_simulates`): every run of the machine, with any
interleaving of calls, with crashes at any point of the commit, inside a block write or inside the
recovery, shows the events of some run of `Txn`.

The relation `Refines` has two sides. What a reader of the cache sees is the view. What the disk
*alone* determines, `durable` (the home blocks with the logged blocks over them if the header lists
any), is the saved store; a block write of `write_log`, of `install_trans` or of the erasing
`write_head` changes the disk but not `durable`, even when it is torn, and the `write_head` of
`commit` turns it into the view in one step, since the header lies in the first sector of its
block.

## Main results

* `getHead_putHead` — the header that `read_head` finds is the one `write_head` stored
* `step_simulates` — one step of the machine
* `log_refines_txn` — whole runs
-/

namespace Xv6

namespace Fs

namespace Log

open Disk (Block)
open Transition
open Function (update update_self update_of_ne)

variable {i k tail : ℕ} {l lh : List ℕ} {r : Bool} {v : Block}

/-! ### The header round trip -/

/-- **The header round trip.** -/
theorem getHead_putHead (hn : lh.length ≤ logblocks) (hlt : ∀ b ∈ lh, b < 2 ^ 32) (hb : Block) :
    getHead (putHead lh hb) = lh := by
  rw [logblocks_eq] at hn
  have hwords : 1 + lh.length ≤ wordsPerBlock := by
    show 1 + lh.length ≤ 256
    omega
  have hcount : (word (putHead lh hb) 0).toInt.toNat = lh.length := by
    rw [putHead, word_setWords hwords, if_neg (by omega), word_setWord_self (by decide),
      BitVec.toInt_eq_toNat_of_lt (by rw [BitVec.toNat_ofNat]; omega), BitVec.toNat_ofNat,
      Nat.mod_eq_of_lt (by omega)]
    exact Int.toNat_natCast _
  have hblock : ∀ i b, lh[i]? = some b → (word (putHead lh hb) (1 + i)).toNat = b := by
    intro i b hi
    rw [putHead, word_setWords hwords, if_pos (by omega), Nat.add_sub_cancel_left, hi]
    exact Nat.mod_eq_of_lt (hlt b (List.mem_of_getElem? hi))
  rw [getHead, hcount]
  refine List.ext_getElem (by simp) fun i h₁ h₂ => ?_
  rw [List.getElem_map, List.getElem_range]
  exact hblock i _ (List.getElem?_eq_getElem h₂)

/-- The header lies in the first sector: a torn header block holds the new header or the old
one. -/
theorem getHead_tear {lo hi : Bool} {old new : Block} (ho : (getHead old).length ≤ logblocks)
    (hn : (getHead new).length ≤ logblocks) :
    getHead (tear lo hi old new) = if lo then getHead new else getHead old := by
  have hword : ∀ {b : Block}, (∀ i ≤ logblocks, word (tear lo hi old new) i = word b i) →
      (getHead b).length ≤ logblocks → getHead (tear lo hi old new) = getHead b := by
    intro b hb hlen
    rw [getHead, List.length_map, List.length_range] at hlen
    unfold getHead
    rw [hb 0 (Nat.zero_le _)]
    refine List.map_congr_left fun i hi => ?_
    rw [hb (1 + i) (by have := List.mem_range.mp hi; omega)]
  have hsector : ∀ i ≤ logblocks, 4 * i < sectorSize := by
    intro i hi
    rw [logblocks_eq] at hi
    show 4 * i < 512
    omega
  cases lo with
  | true => exact hword (fun i hi => word_tear (hsector i hi)) hn
  | false => exact hword (fun i hi => word_tear (hsector i hi)) ho

/-! ### What the disk alone determines -/

/-- The header on the disk. -/
def head (L : Layout) (d : ℕ → Block) : List ℕ := getHead (d L.start)

/-- The header on the disk lists different home blocks, no more than the log can hold. -/
structure HeadOk (L : Layout) (d : ℕ → Block) : Prop where
  nodup : (head L d).Nodup
  home : ∀ b ∈ head L d, L.home b = true
  length_le : (head L d).length ≤ logblocks

/-- Block `b` as the recovery will leave it. -/
def durable (L : Layout) (d : ℕ → Block) (b : ℕ) : Block :=
  if b ∈ head L d then d (L.slot ((head L d).idxOf b)) else d b

variable {L : Layout} {d d' : ℕ → Block} {b : ℕ}

theorem durable_of_notMem (h : b ∉ head L d) : durable L d b = d b := if_neg h

theorem durable_of_getElem? (hn : (head L d).Nodup) (h : (head L d)[i]? = some b) :
    durable L d b = d (L.slot i) := by
  obtain ⟨hi, rfl⟩ := List.getElem?_eq_some_iff.mp h
  rw [durable, if_pos (List.getElem_mem hi), hn.idxOf_getElem]

theorem slot_ne_start (i : ℕ) : L.slot i ≠ L.start := by
  unfold Layout.slot
  omega

theorem slot_ne_of_home (hi : i < logblocks) (hb : L.home b = true) : L.slot i ≠ b := by
  have := L.home_outside b hb
  unfold Layout.slot
  omega

theorem start_ne_of_home (hb : L.home b = true) : L.start ≠ b := by
  have := L.home_outside b hb
  omega

/-- Two disks that differ in at most one block. -/
def AgreeOff (k : ℕ) (d d' : ℕ → Block) : Prop := ∀ c, c ≠ k → d' c = d c

theorem head_of_agreeOff (h : AgreeOff k d d') (hk : k ≠ L.start) : head L d' = head L d := by
  unfold head
  rw [h L.start hk.symm]

theorem HeadOk.of_head_eq (h : HeadOk L d) (he : head L d' = head L d) : HeadOk L d' where
  nodup := by
    rw [he]
    exact h.nodup
  home := by
    rw [he]
    exact h.home
  length_le := by
    rw [he]
    exact h.length_le

theorem HeadOk.of_head_nil (h : head L d = []) : HeadOk L d where
  nodup := by
    rw [h]
    exact List.nodup_nil
  home := by
    intro b hb
    rw [h] at hb
    cases hb
  length_le := by
    rw [h]
    exact Nat.zero_le _

theorem durable_of_head_nil (h : head L d = []) : durable L d b = d b :=
  durable_of_notMem (by rw [h]; exact List.not_mem_nil)

/-- **Writing the log.** While the header is empty, the logged blocks do not matter. -/
theorem durable_write_slot (hi : i < logblocks) (hh : head L d = []) (h : AgreeOff (L.slot i) d d')
    (hb : L.home b = true) : durable L d' b = durable L d b := by
  have hh' : head L d' = [] := (head_of_agreeOff h (slot_ne_start i)).trans hh
  rw [durable_of_head_nil hh, durable_of_head_nil hh', h b (slot_ne_of_home hi hb).symm]

/-- **Installing.** The home place of a block that the header lists does not matter. -/
theorem durable_install (hok : HeadOk L d) (hk : k ∈ head L d) (h : AgreeOff k d d') (b : ℕ) :
    durable L d' b = durable L d b := by
  have hhome := hok.home k hk
  have hhead : head L d' = head L d := head_of_agreeOff h (start_ne_of_home hhome).symm
  unfold durable
  rw [hhead]
  by_cases hb : b ∈ head L d
  · have hi : (head L d).idxOf b < logblocks :=
      (List.idxOf_lt_length_iff.mpr hb).trans_le hok.length_le
    rw [if_pos hb, if_pos hb, h _ (slot_ne_of_home hi hhome)]
  · rw [if_neg hb, if_neg hb, h b fun hbk => hb (hbk ▸ hk)]

/-- **Committing.** Once the header lists the blocks of `lh`, what the log holds counts. -/
theorem durable_commit {r : ℕ → Block} (hok : HeadOk L d') (hh : head L d' = lh)
    (h : AgreeOff L.start d d') (hlog : ∀ i c, lh[i]? = some c → d (L.slot i) = r c)
    (hrest : ∀ c ∉ lh, r c = d c) (hb : L.home b = true) : durable L d' b = r b := by
  by_cases hmem : b ∈ lh
  · obtain ⟨i, hi⟩ := List.getElem?_of_mem hmem
    rw [durable_of_getElem? hok.nodup (hh ▸ hi), h _ (slot_ne_start i), hlog i b hi]
  · rw [durable_of_notMem (hh ▸ hmem), h b (start_ne_of_home hb).symm, hrest b hmem]

/-- **Erasing.** When all listed blocks are at home the header is not needed. -/
theorem durable_erase (hok : HeadOk L d) (hh : head L d' = []) (h : AgreeOff L.start d d')
    (hlog : ∀ i c, (head L d)[i]? = some c → d (L.slot i) = d c) (hb : L.home b = true) :
    durable L d' b = durable L d b := by
  rw [durable_of_head_nil hh, h b (start_ne_of_home hb).symm]
  by_cases hmem : b ∈ head L d
  · obtain ⟨i, hi⟩ := List.getElem?_of_mem hmem
    rw [durable_of_getElem? hok.nodup hi, hlog i b hi]
  · rw [durable_of_notMem hmem]

/-! ### The atomic disk -/

/-- A disk with transactions: what the calls see, what survives, and which calls are running. -/
structure Txn (ι : Type) where
  view : ℕ → Block
  saved : ℕ → Block
  active : Finset ι

namespace Txn

inductive Act (ι : Type) where
  | begin (p : ι)
  | write (p : ι) (b : ℕ) (d : Block)
  | finish (p : ι)
  | commit
  | crash

variable {ι : Type} [DecidableEq ι]

/-- The disk after a crash. -/
def restart {ι : Type} (t : Txn ι) : Txn ι := { t with view := t.saved, active := ∅ }

/-- The group of calls since the last commit is saved as a whole, and only when none of them is
still running; a crash throws the group away. -/
def step (t : Txn ι) : Act ι → Option (Txn ι)
  | .begin p => if p ∈ t.active then none else some { t with active := insert p t.active }
  | .write p b d =>
    if p ∈ t.active then some { t with view := update t.view b d } else none
  | .finish p => if p ∈ t.active then some { t with active := t.active.erase p } else none
  | .commit => if t.active = ∅ then some { t with saved := t.view } else none
  | .crash => some t.restart

end Txn

/-- What happens to the calls and their blocks, seen from outside. -/
inductive Event (ι : Type) where
  | begin (p : ι)
  | write (p : ι) (b : ℕ) (d : Block)
  | finish (p : ι)
  | crash

/-- A commit is not visible. -/
def Txn.obs {ι : Type} : Txn.Act ι → List (Event ι)
  | .begin p => [.begin p]
  | .write p b d => [.write p b d]
  | .finish p => [.finish p]
  | .commit => []
  | .crash => [.crash]

def obs {ι : Type} : Act ι → List (Event ι)
  | .beginOp p => [.begin p]
  | .write p b d => [.write p b d]
  | .endOp p => [.finish p]
  | .crash _ _ => [.crash]
  | _ => []

/-! ### The machine's own lemmas -/

namespace State

variable {ι : Type} (s : State ι)

@[simp] theorem read_bread (b c : ℕ) : (s.bread b).read c = s.read c := by
  by_cases h : c = b
  · subst h
    simp [read, bread]
  · simp [read, bread, h]

theorem read_store (b : ℕ) (v : Block) (c : ℕ) :
    (s.store b v).read c = if c = b then v else s.read c := by
  by_cases h : c = b
  · subst h
    simp [read, store]
  · simp [read, store, h]

theorem read_bwrite (b c : ℕ) : (s.bwrite b).read c = s.read c := by
  by_cases h : c = b
  · subst h
    cases hc : s.cache c <;> simp [read, bwrite, hc]
  · simp [read, bwrite, h]

theorem read_copyBlock (src dst c : ℕ) :
    (s.copyBlock src dst).read c = if c = dst then s.read src else s.read c := by
  simp [copyBlock, read_bwrite, read_store]

theorem disk_copyBlock (src dst : ℕ) :
    (s.copyBlock src dst).disk = update s.disk dst (s.read src) := by
  show update s.disk dst (State.read _ dst) = _
  rw [read_store, if_pos rfl, read_bread, read_bread]

theorem read_writeHead (L : Layout) (c : ℕ) :
    (s.writeHead L).read c = if c = L.start then putHead s.lh (s.read L.start) else s.read c := by
  simp [writeHead, read_bwrite, read_store]
  rfl

theorem disk_writeHead (L : Layout) :
    (s.writeHead L).disk = update s.disk L.start (putHead s.lh (s.read L.start)) := by
  show update s.disk L.start (State.read _ L.start) = _
  rw [read_store, if_pos rfl, read_bread]
  rfl

/-- `copyBlock` changes the disk in one block. -/
theorem agreeOff_copyBlock (src dst : ℕ) : AgreeOff dst s.disk (s.copyBlock src dst).disk := by
  intro c hc
  rw [disk_copyBlock, update_of_ne hc]

theorem agreeOff_writeHead (L : Layout) : AgreeOff L.start s.disk (s.writeHead L).disk := by
  intro c hc
  rw [disk_writeHead, update_of_ne hc]

end State

/-! ### The relation -/

/-- `commit` or the rest of `end_op` is running. -/
def Pc.committing : Pc → Bool
  | .writeLog _ => true
  | .writeHead => true
  | .install r _ => !r
  | .erase r => !r
  | .leave => true
  | _ => false

section Relation

variable {ι : Type}

/-- The logged blocks whose home places are still the old ones. -/
def Pc.dirty (pc : Pc) (lh : List ℕ) : List ℕ :=
  match pc with
  | .install true _ => []
  | .install false tail => lh.drop tail
  | _ => lh

theorem Pc.dirty_sublist (pc : Pc) (lh : List ℕ) : (pc.dirty lh).Sublist lh := by
  unfold Pc.dirty
  split
  · exact List.nil_sublist _
  · exact List.drop_sublist _ _
  · exact List.Sublist.refl _

theorem dirty_install_cons (hb : lh[tail]? = some b) :
    (Pc.install false tail).dirty lh = b :: (Pc.install false (tail + 1)).dirty lh := by
  obtain ⟨hlt, rfl⟩ := List.getElem?_eq_some_iff.mp hb
  exact List.drop_eq_getElem_cons hlt

/-- What the log on the disk holds, by the point the code has reached: `lh` is the header in
memory, `d` the disk and `r` what a reader sees. -/
def OnDisk (L : Layout) (lh : List ℕ) (d r : ℕ → Block) : Pc → Prop
  | .idle => head L d = []
  | .writeLog tail =>
    head L d = [] ∧ ∀ i c, i < tail → lh[i]? = some c → d (L.slot i) = r c
  | .writeHead => head L d = [] ∧ ∀ i c, lh[i]? = some c → d (L.slot i) = r c
  | .install recovering tail => head L d = lh ∧
      ∀ i c, lh[i]? = some c → (recovering = true → i < tail) → d (L.slot i) = r c
  | .erase _ => lh = [] ∧ ∀ i c, (head L d)[i]? = some c → d (L.slot i) = d c
  | .leave => lh = [] ∧ head L d = []
  | .boot => lh = []

/-- **The machine holds the atomic disk**, when its log code is at `pc`. -/
structure RefinesAt (L : Layout) (pc : Pc) (s : State ι) (t : Txn ι) : Prop where
  nodup : s.lh.Nodup
  home : ∀ b ∈ s.lh, L.home b = true
  length_le : s.lh.length ≤ logblocks
  pins : s.pins.Perm (pc.dirty s.lh)
  /-- Only a block that waits for its installation differs between cache and disk. -/
  fresh : ∀ b ∉ pc.dirty s.lh, s.read b = s.disk b
  active : ∀ p, p ∈ t.active ↔ (s.ops p).isSome = true
  count : s.outstanding = t.active.card
  committing : s.committing = pc.committing
  /-- No call is running while the log on the disk is being worked on. -/
  busy : pc ≠ .idle → t.active = ∅
  /-- Nothing is left to commit when the last call has returned. -/
  quiet : pc = .idle → t.active = ∅ → s.lh = []
  headOk : HeadOk L s.disk
  onDisk : OnDisk L s.lh s.disk s.read pc
  saved : ∀ b, L.home b = true → durable L s.disk b = t.saved b
  view : pc.recovering = false → ∀ b, L.home b = true → s.read b = t.view b
  restored : pc.recovering = true → ∀ b, L.home b = true → t.view b = t.saved b

/-- The machine holds the atomic disk. -/
def Refines (L : Layout) (s : State ι) (t : Txn ι) : Prop := RefinesAt L s.pc s t

/-- A machine that is switched on refines the atomic disk with the recovered contents. -/
theorem refines_powerOn {u : Txn ι} (hok : HeadOk L d)
    (hd : ∀ b, L.home b = true → durable L d b = u.saved b) :
    RefinesAt L .boot (State.powerOn d) u.restart where
  nodup := List.nodup_nil
  home := by
    intro b hb
    cases hb
  length_le := Nat.zero_le _
  pins := List.Perm.nil
  fresh := fun _ _ => rfl
  active := by simp [State.powerOn, Txn.restart]
  count := rfl
  committing := rfl
  busy := fun _ => rfl
  quiet := fun _ _ => rfl
  headOk := hok
  onDisk := rfl
  saved := hd
  view := by
    intro h
    cases h
  restored := fun _ _ _ => rfl

variable {s s' : State ι} {t : Txn ι} {pc : Pc}

theorem Refines.at (h : Refines L s t) (hpc : s.pc = pc) : RefinesAt L pc s t := by
  rw [← hpc]
  exact h

theorem Refines.of_at (hpc : s.pc = pc) (h : RefinesAt L pc s t) : Refines L s t := by
  rw [Refines, hpc]
  exact h

namespace RefinesAt

/-! ### The calls -/

theorem idle_of_active (h : RefinesAt L pc s t) {p : ι} (hp : s.ops p = some l) :
    p ∈ t.active ∧ pc = .idle := by
  have hpt : p ∈ t.active := (h.active p).mpr (Option.isSome_iff_exists.mpr ⟨l, hp⟩)
  refine ⟨hpt, ?_⟩
  by_contra hpc
  rw [h.busy hpc] at hpt
  exact absurd hpt (Finset.notMem_empty p)

/-- The flag keeps calls from starting during a commit. -/
theorem idle_of_not_committing (h : RefinesAt L pc s t) (hrec : pc.recovering = false)
    (hc : s.committing ≠ true) : pc = .idle := by
  rw [h.committing] at hc
  cases pc with
  | idle => rfl
  | boot => cases hrec
  | install r _ | erase r =>
    obtain rfl : r = false := hrec
    exact absurd rfl hc
  | _ => exact absurd rfl hc

theorem beginOp [DecidableEq ι] (h : RefinesAt L .idle s t) {p : ι} (hp : s.ops p = none)
    {m : State ι} (hm : s.beginOp = some m) :
    m.pc = s.pc ∧ RefinesAt L .idle { m with ops := update m.ops p (some []) }
      { t with active := insert p t.active } := by
  unfold State.beginOp at hm
  split_ifs at hm with hc hroom
  cases hm
  have hpt : p ∉ t.active := by
    rw [h.active, hp]
    exact Bool.false_ne_true
  refine ⟨rfl, { h with active := ?_, count := ?_, busy := ?_, quiet := ?_ }⟩
  · intro q
    show q ∈ insert p t.active ↔ (update s.ops p (some []) q).isSome = true
    by_cases hq : q = p
    · subst hq
      simp
    · simp [hq, h.active]
  · show s.outstanding + 1 = ((insert p t.active).card : ℤ)
    rw [Finset.card_insert_of_notMem hpt, h.count]
    rfl
  · exact fun hne => absurd rfl hne
  · exact fun _ he => absurd he (Finset.insert_ne_empty p _)

end RefinesAt

/-- What a successful `log_write` did: the block is in the header, once, and pinned, once. -/
theorem State.logWrite_ok {m m' : State ι} (h : m.logWrite b = .ok m') (hn : m.lh.Nodup)
    (hp : m.pins.Perm m.lh) :
    ∃ lh pins, m' = { m with lh := lh, pins := pins } ∧ (∀ c, c ∈ lh ↔ c ∈ m.lh ∨ c = b) ∧
      lh.Nodup ∧ pins.Perm lh ∧ lh.length ≤ logblocks := by
  unfold logWrite at h
  split_ifs at h with hroom hout hmem
  · cases h
    refine ⟨m.lh, m.pins, rfl, ?_, hn, hp, (Nat.lt_of_not_le hroom).le⟩
    intro c
    constructor
    · exact Or.inl
    · rintro (hc | rfl)
      · exact hc
      · exact hmem
  · cases h
    refine ⟨m.lh ++ [b], b :: m.pins, rfl, by simp, ?_, ?_, ?_⟩
    · exact List.nodup_append_comm.mp (List.nodup_cons.mpr ⟨hmem, hn⟩)
    · exact (hp.cons b).trans (List.perm_append_singleton b m.lh).symm
    · rw [List.length_append]
      exact Nat.lt_of_not_le hroom

namespace RefinesAt

/-- Updating a block of a running call: the view changes, the disk does not. -/
theorem write [DecidableEq ι] (h : RefinesAt L .idle s t) {p : ι} {m : State ι} (hpt : p ∈ t.active)
    (hb : L.home b = true) (hm : ((s.bread b).store b v).logWrite b = .ok m) :
    m.pc = s.pc ∧ RefinesAt L .idle { m with ops := update m.ops p (some l) }
      { t with view := update t.view b v } := by
  have hread : ∀ c, ((s.bread b).store b v).read c = if c = b then v else s.read c := by
    intro c
    rw [State.read_store, State.read_bread]
  obtain ⟨lh, pins, rfl, hmem, hnodup, hperm, hlen⟩ := State.logWrite_ok hm h.nodup h.pins
  refine ⟨rfl,
    { h with
      nodup := hnodup, length_le := hlen, home := ?_, pins := hperm, fresh := ?_, active := ?_
      quiet := ?_, view := ?_, restored := ?_ }⟩
  · intro c hc
    rcases (hmem c).mp hc with hc | rfl
    · exact h.home c hc
    · exact hb
  · intro c hc
    obtain ⟨hc, hcb⟩ := not_or.mp (mt (hmem c).mpr hc)
    show ((s.bread b).store b v).read c = s.disk c
    rw [hread, if_neg hcb]
    exact h.fresh c hc
  · intro q
    show q ∈ t.active ↔ (update s.ops p (some l) q).isSome = true
    by_cases hq : q = p
    · subst hq
      simp [hpt]
    · simp [hq, h.active]
  · intro _ he
    rw [show t.active = ∅ from he] at hpt
    exact absurd hpt (Finset.notMem_empty p)
  · intro _ c hc
    show ((s.bread b).store b v).read c = update t.view b v c
    rw [hread, Function.update_apply]
    split_ifs with hcb
    · rfl
    · exact h.view rfl c hc
  · intro hrec
    cases hrec

/-- A call returns; the last one starts the commit. -/
theorem endOp [DecidableEq ι] (h : RefinesAt L .idle s t) (hpc : s.pc = .idle) {p : ι}
    {m : State ι} (hpt : p ∈ t.active) (hm : s.endOp = .ok m) :
    RefinesAt L m.pc { m with ops := update m.ops p none }
      { t with active := t.active.erase p } := by
  have hcard : ((t.active.erase p).card : ℤ) = s.outstanding - 1 := by
    have hpos : 0 < t.active.card := Finset.card_pos.mpr ⟨p, hpt⟩
    rw [Finset.card_erase_of_mem hpt, h.count]
    omega
  have hactive : ∀ q, q ∈ t.active.erase p ↔ (update s.ops p none q).isSome = true := by
    intro q
    by_cases hq : q = p
    · subst hq
      simp
    · simp [hq, h.active]
  have hempty : s.outstanding - 1 = 0 → t.active.erase p = ∅ := by
    intro hlast
    rw [← Finset.card_eq_zero]
    omega
  unfold State.endOp at hm
  split_ifs at hm with hcom hlast hsome
  · cases hm
    exact
      { h with
        active := hactive, count := hcard.symm, committing := rfl, busy := fun _ => hempty hlast
        quiet := fun hpc => by cases hpc
        onDisk := ⟨h.onDisk, fun i c hi => absurd hi (Nat.not_lt_zero i)⟩
        restored := fun hrec => by cases hrec }
  · cases hm
    exact
      { h with
        active := hactive, count := hcard.symm, committing := rfl, busy := fun _ => hempty hlast
        quiet := fun hpc => by cases hpc
        onDisk := ⟨List.length_eq_zero_iff.mp (Nat.eq_zero_of_not_pos hsome), h.onDisk⟩
        restored := fun hrec => by cases hrec }
  · cases hm
    show RefinesAt L s.pc _ _
    rw [hpc]
    refine
      { h with
        active := hactive, count := hcard.symm
        busy := fun hne => absurd rfl hne
        quiet := fun _ he => absurd ?_ hlast }
    rw [show t.active.erase p = ∅ from he] at hcard
    exact hcard.symm

/-! ### The commit and the recovery -/

/-- `write_head` stores the header. -/
theorem head_writeHead (h : RefinesAt L pc s t) : head L (s.writeHead L).disk = s.lh := by
  unfold head
  rw [State.disk_writeHead, update_self]
  exact getHead_putHead h.length_le (fun b hb => L.home_lt b (h.home b hb)) _

theorem lt_logblocks (h : RefinesAt L pc s t) (hi : s.lh[i]? = some b) : i < logblocks :=
  (List.getElem?_eq_some_iff.mp hi).1.trans_le h.length_le

/-- The log's own blocks are never dirty. -/
theorem read_slot (h : RefinesAt L pc s t) (hi : i < logblocks) :
    s.read (L.slot i) = s.disk (L.slot i) :=
  h.fresh _ fun hmem => slot_ne_of_home hi (h.home _ ((pc.dirty_sublist s.lh).subset hmem)) rfl

/-- After `write_head` cache and disk agree on as many blocks as before. -/
theorem fresh_writeHead (h : RefinesAt L pc s t) (hc : b ∉ pc.dirty s.lh) :
    (s.writeHead L).read b = (s.writeHead L).disk b := by
  by_cases hcs : b = L.start
  · rw [hcs, State.read_writeHead, if_pos rfl, State.disk_writeHead, update_self]
  · rw [State.read_writeHead, if_neg hcs, s.agreeOff_writeHead L b hcs, h.fresh b hc]

/-- One block of `write_log`. -/
theorem writeLog (h : RefinesAt L (.writeLog tail) s t) (hb : s.lh[tail]? = some b) :
    RefinesAt L (.writeLog (tail + 1))
      { s.copyBlock b (L.slot tail) with pc := .writeLog (tail + 1) } t := by
  have hlt : tail < logblocks := h.lt_logblocks hb
  have hagree := s.agreeOff_copyBlock b (L.slot tail)
  have hne : ∀ c, L.home c = true → c ≠ L.slot tail := fun c hc => (slot_ne_of_home hlt hc).symm
  have hread : ∀ c, c ≠ L.slot tail → (s.copyBlock b (L.slot tail)).read c = s.read c := by
    intro c hc
    rw [State.read_copyBlock, if_neg hc]
  have hslot : (s.copyBlock b (L.slot tail)).disk (L.slot tail) = s.read b := by
    rw [State.disk_copyBlock, update_self]
  obtain ⟨hhead, hlog⟩ := h.onDisk
  have hhead' : head L (s.copyBlock b (L.slot tail)).disk = [] :=
    (head_of_agreeOff hagree (slot_ne_start tail)).trans hhead
  refine
    { h with
      fresh := ?_, quiet := fun hidle => by cases hidle
      busy := fun _ => h.busy Pc.noConfusion
      headOk := HeadOk.of_head_nil hhead', onDisk := ⟨hhead', ?_⟩, saved := ?_, view := ?_ }
  · intro c hc
    show (s.copyBlock b (L.slot tail)).read c = (s.copyBlock b (L.slot tail)).disk c
    by_cases hcs : c = L.slot tail
    · rw [hcs, hslot, State.read_copyBlock, if_pos rfl]
    · rw [hread c hcs, hagree c hcs]
      exact h.fresh c hc
  · intro i c hi hc
    show (s.copyBlock b (L.slot tail)).disk (L.slot i) = (s.copyBlock b (L.slot tail)).read c
    have hch : L.home c = true := h.home c (List.mem_of_getElem? hc)
    rw [hread c (hne c hch)]
    rcases Nat.lt_succ_iff_lt_or_eq.mp hi with hi | rfl
    · rw [hagree _ (by unfold Layout.slot; omega), hlog i c hi hc]
    · obtain rfl : b = c := Option.some.inj (hb.symm.trans hc)
      exact hslot
  · intro c hc
    exact (durable_write_slot hlt hhead hagree hc).trans (h.saved c hc)
  · intro _ c hc
    exact (hread c (hne c hc)).trans (h.view rfl c hc)

/-- The end of the loop of `write_log`. -/
theorem writeLog_end (h : RefinesAt L (.writeLog tail) s t) (hb : s.lh[tail]? = none) :
    RefinesAt L .writeHead { s with pc := .writeHead } t := by
  have hlen : s.lh.length ≤ tail := List.getElem?_eq_none_iff.mp hb
  refine
    { h with
      busy := fun _ => h.busy Pc.noConfusion, quiet := fun hidle => by cases hidle
      onDisk := ⟨h.onDisk.1, ?_⟩ }
  intro i c hc
  exact h.onDisk.2 i c ((List.getElem?_eq_some_iff.mp hc).1.trans_le hlen) hc

/-- **The commit point.** The header reaches the disk and the view is saved. -/
theorem commit (h : RefinesAt L .writeHead s t) :
    RefinesAt L (.install false 0) { s.writeHead L with pc := .install false 0 }
      { t with saved := t.view } := by
  have hagree := s.agreeOff_writeHead L
  have hhead := h.head_writeHead
  have hread : ∀ c, L.home c = true → (s.writeHead L).read c = s.read c := by
    intro c hc
    rw [State.read_writeHead, if_neg (start_ne_of_home hc).symm]
  have hok : HeadOk L (s.writeHead L).disk :=
    ⟨hhead ▸ h.nodup, hhead ▸ h.home, hhead ▸ h.length_le⟩
  refine
    { h with
      fresh := fun c hc => h.fresh_writeHead hc, busy := fun _ => h.busy Pc.noConfusion
      quiet := fun hidle => by cases hidle
      headOk := hok, onDisk := ⟨hhead, ?_⟩, saved := ?_, view := ?_
      restored := fun hrec => by cases hrec }
  · intro i c hc _
    show (s.writeHead L).disk (L.slot i) = (s.writeHead L).read c
    rw [hagree _ (slot_ne_start i), hread c (h.home c (List.mem_of_getElem? hc)),
      h.onDisk.2 i c hc]
  · intro c hc
    exact (durable_commit hok hhead hagree h.onDisk.2 h.fresh hc).trans (h.view rfl c hc)
  · exact fun _ c hc => (hread c hc).trans (h.view rfl c hc)

/-- One block of `install_trans`, in a commit or in a recovery. -/
theorem install (h : RefinesAt L (.install r tail) s t) (hb : s.lh[tail]? = some b) :
    RefinesAt L (.install r (tail + 1)) { s.copyBlock (L.slot tail) b with
      pins := if r then s.pins else s.pins.erase b
      pc := .install r (tail + 1) } t := by
  have hlt : tail < logblocks := h.lt_logblocks hb
  have hbh : L.home b = true := h.home b (List.mem_of_getElem? hb)
  have hagree := s.agreeOff_copyBlock (L.slot tail) b
  obtain ⟨hhead, hlog⟩ := h.onDisk
  have hhead' : head L (s.copyBlock (L.slot tail) b).disk = head L s.disk :=
    head_of_agreeOff hagree (start_ne_of_home hbh).symm
  have hdiskb : (s.copyBlock (L.slot tail) b).disk b = s.disk (L.slot tail) := by
    rw [State.disk_copyBlock, update_self, h.read_slot hlt]
  have hread : ∀ c, (s.copyBlock (L.slot tail) b).read c =
      if c = b then s.disk (L.slot tail) else s.read c := by
    intro c
    rw [State.read_copyBlock, h.read_slot hlt]
  refine
    { h with
      pins := ?_, fresh := ?_, busy := fun _ => h.busy Pc.noConfusion
      quiet := fun hidle => by cases hidle
      headOk := h.headOk.of_head_eq hhead', onDisk := ⟨hhead'.trans hhead, ?_⟩, saved := ?_
      view := ?_ }
  · cases r with
    | true => exact h.pins
    | false =>
      have hpins := h.pins
      rw [dirty_install_cons hb] at hpins
      have := hpins.erase b
      rwa [List.erase_cons_head] at this
  · intro c hc
    show (s.copyBlock (L.slot tail) b).read c = (s.copyBlock (L.slot tail) b).disk c
    by_cases hcb : c = b
    · rw [hread, if_pos hcb, hcb, hdiskb]
    · rw [hread, if_neg hcb, hagree c hcb]
      refine h.fresh c ?_
      cases r with
      | true => exact hc
      | false =>
        rw [dirty_install_cons hb, List.mem_cons, not_or]
        exact ⟨hcb, hc⟩
  · intro i c hc hi
    show (s.copyBlock (L.slot tail) b).disk (L.slot i) = (s.copyBlock (L.slot tail) b).read c
    rw [hagree _ (slot_ne_of_home (h.lt_logblocks hc) hbh), hread]
    by_cases hcb : c = b
    · -- a block is listed once
      subst hcb
      rw [if_pos rfl, (List.getElem?_inj (List.getElem?_eq_some_iff.mp hc).1 h.nodup).mp
        (hc.trans hb.symm)]
    · rw [if_neg hcb]
      refine hlog i c hc fun hr => ?_
      rcases Nat.lt_succ_iff_lt_or_eq.mp (hi hr) with hi | rfl
      · exact hi
      · exact absurd (Option.some.inj (hc.symm.trans hb)) hcb
  · intro c hc
    exact (durable_install h.headOk (hhead ▸ List.mem_of_getElem? hb) hagree c).trans (h.saved c hc)
  · intro hr c hc
    show (s.copyBlock (L.slot tail) b).read c = t.view c
    rw [hread]
    split_ifs with hcb
    · rw [hcb, ← h.view hr b hbh]
      refine hlog tail b hb fun hrec => ?_
      rw [show r = false from hr] at hrec
      cases hrec
    · exact h.view hr c hc

/-- The end of the loop of `install_trans`. -/
theorem install_end (h : RefinesAt L (.install r tail) s t) (hb : s.lh[tail]? = none) :
    RefinesAt L (.erase r) { s with lh := [], pc := .erase r } t := by
  have hlen : s.lh.length ≤ tail := List.getElem?_eq_none_iff.mp hb
  have hnil : (Pc.install r tail).dirty s.lh = [] := by
    cases r with
    | true => rfl
    | false => exact List.drop_of_length_le hlen
  have hpins := h.pins
  have hfresh := h.fresh
  rw [hnil] at hpins hfresh
  obtain ⟨hhead, hlog⟩ := h.onDisk
  refine
    { h with
      nodup := List.nodup_nil, length_le := Nat.zero_le _, home := ?_, pins := hpins
      fresh := hfresh, busy := fun _ => h.busy Pc.noConfusion, quiet := fun _ _ => rfl
      onDisk := ⟨rfl, ?_⟩ }
  · intro c hc
    cases hc
  · intro i c hc
    rw [hhead] at hc
    rw [hlog i c hc fun _ => (List.getElem?_eq_some_iff.mp hc).1.trans_le hlen]
    exact hfresh c List.not_mem_nil

/-- The erasing `write_head`. -/
theorem erase (h : RefinesAt L (.erase r) s t) :
    RefinesAt L (if r then .idle else .leave)
      { s.writeHead L with pc := if r then .idle else .leave } t := by
  have hagree := s.agreeOff_writeHead L
  obtain ⟨hnil, hlog⟩ := h.onDisk
  have hhead : head L (s.writeHead L).disk = [] := h.head_writeHead.trans hnil
  have hclean : ∀ c, c ∉ (Pc.erase r).dirty s.lh := by
    intro c hc
    rw [show (Pc.erase r).dirty s.lh = [] from hnil] at hc
    cases hc
  have hread : ∀ c, L.home c = true → (s.writeHead L).read c = s.read c := by
    intro c hc
    rw [State.read_writeHead, if_neg (start_ne_of_home hc).symm]
  have hsaved : ∀ c, L.home c = true → durable L (s.writeHead L).disk c = t.saved c := by
    intro c hc
    exact (durable_erase h.headOk hhead hagree hlog hc).trans (h.saved c hc)
  cases r with
  | false =>
    exact
      { h with
        fresh := fun c _ => h.fresh_writeHead (hclean c), busy := fun _ => h.busy Pc.noConfusion
        quiet := fun hidle => by cases hidle
        headOk := HeadOk.of_head_nil hhead, onDisk := ⟨hnil, hhead⟩, saved := hsaved
        view := fun _ c hc => (hread c hc).trans (h.view rfl c hc)
        restored := fun hrec => by cases hrec }
  | true =>
    refine
      { h with
        fresh := fun c _ => h.fresh_writeHead (hclean c), busy := fun _ => h.busy Pc.noConfusion
        quiet := fun _ _ => hnil
        headOk := HeadOk.of_head_nil hhead, onDisk := hhead, saved := hsaved
        view := ?_
        restored := fun hrec => by cases hrec }
    -- after a recovery the reader sees what the disk says, and that is the saved store
    intro _ c hc
    rw [h.restored rfl c hc, ← hsaved c hc, durable_of_head_nil hhead]
    exact h.fresh_writeHead (hclean c)

theorem leave (h : RefinesAt L .leave s t) :
    RefinesAt L .idle { s with committing := false, pc := .idle } t :=
  { h with
    committing := rfl, busy := fun _ => h.busy Pc.noConfusion
    quiet := fun _ _ => h.onDisk.1, onDisk := h.onDisk.2 }

/-- `read_head` at boot. -/
theorem boot (h : RefinesAt L .boot s t) :
    RefinesAt L (.install true 0) { s.bread L.start with
      lh := getHead (s.read L.start)
      pc := .install true 0 } t := by
  have hnil : s.lh = [] := h.onDisk
  have hclean : ∀ c, s.read c = s.disk c := by
    intro c
    refine h.fresh c ?_
    rw [show Pc.boot.dirty s.lh = [] from hnil]
    exact List.not_mem_nil
  have hhead : getHead (s.read L.start) = head L s.disk := by
    rw [hclean]
    rfl
  refine
    { h with
      nodup := hhead ▸ h.headOk.nodup, length_le := hhead ▸ h.headOk.length_le
      home := hhead ▸ h.headOk.home, pins := ?_, fresh := ?_
      busy := fun _ => h.busy Pc.noConfusion, quiet := fun hidle => by cases hidle
      onDisk := ⟨hhead.symm, fun i c _ hi => absurd (hi rfl) (Nat.not_lt_zero i)⟩
      view := fun hr => by cases hr }
  · have hpins := h.pins
    rw [hnil] at hpins
    exact hpins
  · intro c _
    exact (State.read_bread s L.start c).trans (hclean c)

/-! ### Everyone else -/

/-- The relation reads the cache through `read` only. -/
theorem of_read_eq (h : RefinesAt L pc s t) {cache : ℕ → Option Block}
    (hr : ∀ c, State.read { s with cache := cache } c = s.read c) :
    RefinesAt L pc { s with cache := cache } t := by
  have hr' : State.read { s with cache := cache } = s.read := funext hr
  refine { h with fresh := ?_, onDisk := ?_, view := ?_ }
  · rw [hr']
    exact h.fresh
  · rw [hr']
    exact h.onDisk
  · rw [hr']
    exact h.view

theorem recycle (h : RefinesAt L pc s t) (hb : b ∉ s.pins) :
    RefinesAt L pc { s with cache := update s.cache b none } t := by
  refine h.of_read_eq fun c => ?_
  by_cases hcb : c = b
  · subst hcb
    show (update s.cache c none c).getD (s.disk c) = s.read c
    rw [update_self, h.fresh c (mt h.pins.mem_iff.mpr hb)]
    rfl
  · show (update s.cache b none c).getD (s.disk c) = s.read c
    rw [update_of_ne hcb]
    rfl

/-- A write that bypasses the log touches nothing the log is about. -/
theorem direct (h : RefinesAt L pc s t) (hb : L.home b = false)
    (hout : b < L.start ∨ L.start + logblocks < b) :
    RefinesAt L pc (((s.bread b).store b v).bwrite b) t := by
  have hread : ∀ c, (((s.bread b).store b v).bwrite b).read c = if c = b then v else s.read c := by
    intro c
    rw [State.read_bwrite, State.read_store, State.read_bread]
  have hdisk : (((s.bread b).store b v).bwrite b).disk = update s.disk b v := by
    show update s.disk b (State.read _ b) = _
    rw [State.read_store, if_pos rfl]
  have hagree : AgreeOff b s.disk (((s.bread b).store b v).bwrite b).disk := by
    intro c hc
    rw [hdisk, update_of_ne hc]
  have hhome : ∀ c, L.home c = true → c ≠ b := by
    intro c hc hcb
    rw [hcb, hb] at hc
    cases hc
  have hslot : ∀ i < logblocks, L.slot i ≠ b := by
    intro i hi
    unfold Layout.slot
    omega
  have hhead : head L (((s.bread b).store b v).bwrite b).disk = head L s.disk :=
    head_of_agreeOff hagree (by omega)
  have hentry : ∀ {i c}, s.lh[i]? = some c → (((s.bread b).store b v).bwrite b).disk (L.slot i) =
      s.disk (L.slot i) ∧ (((s.bread b).store b v).bwrite b).read c = s.read c := by
    intro i c hc
    refine ⟨hagree _ (hslot i (h.lt_logblocks hc)), ?_⟩
    rw [hread, if_neg (hhome c (h.home c (List.mem_of_getElem? hc)))]
  refine
    { h with
      fresh := ?_, headOk := h.headOk.of_head_eq hhead, onDisk := ?_, saved := ?_, view := ?_ }
  · intro c hc
    by_cases hcb : c = b
    · rw [hread, if_pos hcb, hdisk, hcb, update_self]
    · rw [hread, if_neg hcb, hagree c hcb]
      exact h.fresh c hc
  · have honDisk := h.onDisk
    cases pc with
    | idle => exact hhead.trans honDisk
    | writeLog tail =>
      refine ⟨hhead.trans honDisk.1, fun i c hi hc => ?_⟩
      rw [(hentry hc).1, (hentry hc).2, honDisk.2 i c hi hc]
    | writeHead =>
      refine ⟨hhead.trans honDisk.1, fun i c hc => ?_⟩
      rw [(hentry hc).1, (hentry hc).2, honDisk.2 i c hc]
    | install r tail =>
      refine ⟨hhead.trans honDisk.1, fun i c hc hr => ?_⟩
      rw [(hentry hc).1, (hentry hc).2, honDisk.2 i c hc hr]
    | erase r =>
      refine ⟨honDisk.1, fun i c hc => ?_⟩
      rw [hhead] at hc
      have hi := (List.getElem?_eq_some_iff.mp hc).1.trans_le h.headOk.length_le
      rw [hagree _ (hslot i hi), hagree c (hhome c (h.headOk.home c (List.mem_of_getElem? hc))),
        honDisk.2 i c hc]
    | leave => exact ⟨honDisk.1, hhead.trans honDisk.2⟩
    | boot => exact honDisk
  · intro c hc
    rw [← h.saved c hc]
    unfold durable
    rw [hhead]
    split_ifs with hmem
    · exact hagree _ (hslot _ ((List.idxOf_lt_length_iff.mpr hmem).trans_le h.headOk.length_le))
    · exact hagree c (hhome c hc)
  · intro hr c hc
    rw [hread, if_neg (hhome c hc)]
    exact h.view hr c hc

/-! ### Crashes -/

/-- The disk after a crash, when the write under way was one of block `k`. -/
theorem agreeOff_tear (lo hi : Bool) {d d' : ℕ → Block} (h : AgreeOff k d d') :
    AgreeOff k d fun c => tear lo hi (d c) (d' c) := by
  intro c hc
  show tear lo hi (d c) (d' c) = d c
  rw [h c hc, tear_self]

/-- A torn header block holds the old header or the one in memory. -/
theorem head_tear (h : RefinesAt L pc s t) (lo hi : Bool) :
    head L (fun c => tear lo hi (s.disk c) ((s.writeHead L).disk c)) =
      if lo then s.lh else head L s.disk := by
  have hhead := h.head_writeHead
  unfold head at hhead ⊢
  rw [getHead_tear h.headOk.length_le (by rw [hhead]; exact h.length_le), hhead]

end RefinesAt

/-- A disk from which the recovery restores the saved store, or the view, which then counts as
saved; the latter only while no call is running. -/
def Survives (L : Layout) (t : Txn ι) (d : ℕ → Block) : Prop :=
  HeadOk L d ∧ ((∀ b, L.home b = true → durable L d b = t.saved b) ∨
    t.active = ∅ ∧ ∀ b, L.home b = true → durable L d b = t.view b)

namespace RefinesAt

theorem survives (h : RefinesAt L pc s t) : Survives L t s.disk := ⟨h.headOk, Or.inl h.saved⟩

variable (lo hi : Bool)

theorem survives_writeLog (h : RefinesAt L (.writeLog tail) s t) (hb : s.lh[tail]? = some b) :
    Survives L t fun c => tear lo hi (s.disk c) ((s.copyBlock b (L.slot tail)).disk c) := by
  have hagree := agreeOff_tear lo hi (s.agreeOff_copyBlock b (L.slot tail))
  refine ⟨h.headOk.of_head_eq (head_of_agreeOff hagree (slot_ne_start tail)), Or.inl ?_⟩
  intro c hc
  exact (durable_write_slot (h.lt_logblocks hb) h.onDisk.1 hagree hc).trans (h.saved c hc)

theorem survives_install (h : RefinesAt L (.install r tail) s t) (hb : s.lh[tail]? = some b) :
    Survives L t fun c => tear lo hi (s.disk c) ((s.copyBlock (L.slot tail) b).disk c) := by
  have hagree := agreeOff_tear lo hi (s.agreeOff_copyBlock (L.slot tail) b)
  have hmem : b ∈ head L s.disk := h.onDisk.1 ▸ List.mem_of_getElem? hb
  have hhead := head_of_agreeOff hagree (start_ne_of_home (h.headOk.home b hmem)).symm
  refine ⟨h.headOk.of_head_eq hhead, Or.inl ?_⟩
  intro c hc
  exact (durable_install h.headOk hmem hagree c).trans (h.saved c hc)

/-- A header block whose first sector was not stored. -/
theorem survives_old_head (h : RefinesAt L pc s t) :
    Survives L t fun c => tear false hi (s.disk c) ((s.writeHead L).disk c) := by
  have hagree := agreeOff_tear false hi (s.agreeOff_writeHead L)
  have hhead := h.head_tear false hi
  refine ⟨h.headOk.of_head_eq hhead, Or.inl ?_⟩
  intro c hc
  rw [← h.saved c hc]
  unfold durable
  rw [hhead, hagree _ (slot_ne_start _), hagree c (start_ne_of_home hc).symm]
  rfl

theorem survives_commit (h : RefinesAt L .writeHead s t) :
    Survives L t fun c => tear true hi (s.disk c) ((s.writeHead L).disk c) := by
  have hagree := agreeOff_tear true hi (s.agreeOff_writeHead L)
  have hhead := h.head_tear true hi
  have hok : HeadOk L fun c => tear true hi (s.disk c) ((s.writeHead L).disk c) :=
    ⟨hhead ▸ h.nodup, hhead ▸ h.home, hhead ▸ h.length_le⟩
  refine ⟨hok, Or.inr ⟨h.busy Pc.noConfusion, ?_⟩⟩
  intro c hc
  exact (durable_commit hok hhead hagree h.onDisk.2 h.fresh hc).trans (h.view rfl c hc)

theorem survives_erase (h : RefinesAt L (.erase r) s t) :
    Survives L t fun c => tear true hi (s.disk c) ((s.writeHead L).disk c) := by
  have hagree := agreeOff_tear true hi (s.agreeOff_writeHead L)
  have hhead := (h.head_tear true hi).trans h.onDisk.1
  refine ⟨HeadOk.of_head_nil hhead, Or.inl ?_⟩
  intro c hc
  exact (durable_erase h.headOk hhead hagree h.onDisk.2 hc).trans (h.saved c hc)

end RefinesAt

theorem State.disk_crash (lo hi : Bool) {m : State ι} (h : (s.tick L).getD s = m) :
    (s.crash L lo hi).disk = fun c => tear lo hi (s.disk c) (m.disk c) := by
  rw [State.crash, h]
  rfl

/-- Outside a block write the disk is as it was. -/
theorem State.disk_crash_of_eq (lo hi : Bool) (h : ((s.tick L).getD s).disk = s.disk) :
    (s.crash L lo hi).disk = s.disk := by
  rw [State.disk_crash lo hi rfl, h]
  funext c
  exact tear_self lo hi (s.disk c)

/-- **A crash at any point** leaves a disk from which the recovery restores what was saved. -/
theorem Refines.crash (h : Refines L s t) (lo hi : Bool) : Survives L t (s.crash L lo hi).disk := by
  have hsame : ((s.tick L).getD s).disk = s.disk → Survives L t (s.crash L lo hi).disk := by
    intro hd
    rw [State.disk_crash_of_eq lo hi hd]
    exact RefinesAt.survives h
  cases htick : s.tick L with
  | none => exact hsame (by rw [htick]; rfl)
  | some m =>
    rw [htick] at hsame
    have hdisk := State.disk_crash lo hi (show (s.tick L).getD s = m by rw [htick]; rfl)
    cases tick_cases htick with
    | writeLog hpc hb =>
      rw [hdisk]
      exact (h.at hpc).survives_writeLog lo hi hb
    | writeLogEnd hpc hb => exact hsame rfl
    | writeHead hpc =>
      rw [hdisk]
      cases lo with
      | false => exact (h.at hpc).survives_old_head hi
      | true => exact (h.at hpc).survives_commit hi
    | install hpc hb =>
      rw [hdisk]
      exact (h.at hpc).survives_install lo hi hb
    | installEnd hpc hb => exact hsame rfl
    | erase hpc =>
      rw [hdisk]
      cases lo with
      | false => exact (h.at hpc).survives_old_head hi
      | true => exact (h.at hpc).survives_erase hi
    | leave hpc => exact hsame rfl
    | boot hpc => exact hsame rfl

/-! ### The simulation -/

variable [DecidableEq ι]

/-- A commit or a recovery that goes on is invisible, but for the commit point. -/
theorem Refines.tick (h : Refines L s t) {m : State ι} (hm : s.tick L = some m) :
    ∃ bs t', run Txn.step bs t = some t' ∧
      trace Txn.step (fun _ => Txn.obs) bs t = ([] : List (Event ι)) ∧ Refines L m t' := by
  cases tick_cases hm with
  | writeLog hpc hb => exact matched_by_none ((h.at hpc).writeLog hb)
  | writeLogEnd hpc hb => exact matched_by_none ((h.at hpc).writeLog_end hb)
  | writeHead hpc =>
    refine matched_by_one Txn.Act.commit ?_ (h.at hpc).commit
    exact if_pos ((h.at hpc).busy Pc.noConfusion)
  | install hpc hb => exact matched_by_none ((h.at hpc).install hb)
  | installEnd hpc hb => exact matched_by_none ((h.at hpc).install_end hb)
  | erase hpc => exact matched_by_none (h.at hpc).erase
  | leave hpc => exact matched_by_none (h.at hpc).leave
  | boot hpc => exact matched_by_none (h.at hpc).boot

/-- **Every step of the machine is one of the atomic disk**, up to the commits nobody sees. -/
theorem step_simulates (L : Layout) :
    Simulates (step L) Txn.step (fun _ => obs) (fun _ => Txn.obs) (fun _ a => Allowed L a)
      (Refines L : State ι → Txn ι → Prop) := by
  intro s t a s' h hallowed hstep
  cases step_cases hstep with
  | @beginOp p m hrec hops hm =>
    have hidle : s.pc = .idle := by
      refine RefinesAt.idle_of_not_committing h hrec fun hc => ?_
      rw [State.beginOp, if_pos hc] at hm
      cases hm
    obtain ⟨hpc, hr⟩ := (h.at hidle).beginOp hops hm
    refine matched_by_one (Txn.Act.begin p) (if_neg ?_) (Refines.of_at (hpc.trans hidle) hr)
    rw [RefinesAt.active h, hops]
    exact Bool.false_ne_true
  | @write p b v l m hops hm =>
    obtain ⟨hpt, hidle⟩ := RefinesAt.idle_of_active h hops
    obtain ⟨hpc, hr⟩ := (h.at hidle).write hpt hallowed hm
    exact matched_by_one (Txn.Act.write p b v) (if_pos hpt) (Refines.of_at (hpc.trans hidle) hr)
  | @endOp p l m hops hm =>
    obtain ⟨hpt, hidle⟩ := RefinesAt.idle_of_active h hops
    exact matched_by_one (Txn.Act.finish p) (if_pos hpt) ((h.at hidle).endOp hidle hpt hm)
  | tick hm => exact h.tick hm
  | bread b => exact matched_by_none (RefinesAt.of_read_eq h fun c => State.read_bread s b c)
  | recycle hb => exact matched_by_none (RefinesAt.recycle h hb)
  | direct b v => exact matched_by_none (RefinesAt.direct h hallowed.1 hallowed.2)
  | crash lo hi =>
    obtain ⟨hok, hsaved | ⟨hactive, hview⟩⟩ := h.crash lo hi
    · exact matched_by_one Txn.Act.crash rfl (refines_powerOn hok hsaved)
    · -- the header of the running commit reached the disk: commit, then crash
      have hcommit : Txn.step t .commit = some { t with saved := t.view } := if_pos hactive
      refine ⟨[.commit, .crash], Txn.restart { t with saved := t.view }, ?_, ?_,
        refines_powerOn (u := { t with saved := t.view }) hok hview⟩
      · rw [run, hcommit]
        rfl
      · rw [trace, hcommit]
        rfl

end Relation

/-- **Crash atomicity of the file system's log.** Take any machine whose disk holds a well-formed
header, switch it on, and let it run: any interleaving of calls, commits, recycled buffers and
direct writes, with crashes at any point. The calls and crashes that happened are those of a run
of the atomic disk. In the end the disk alone determines the saved store; a reader sees the view
once the recovery is over; and the view is saved whenever the log code is idle and no call is
running. -/
theorem log_refines_txn {ι : Type} [DecidableEq ι] (L : Layout) (d : ℕ → Block)
    (hd : HeadOk L d) (as : List (Act ι)) (has : ∀ a ∈ as, Allowed L a) (s : State ι)
    (h : run (step L) as (State.powerOn d) = some s) :
    ∃ bs t, run Txn.step bs ⟨durable L d, durable L d, ∅⟩ = some t ∧
      events Txn.obs bs = events obs as ∧
      (∀ b, L.home b = true → durable L s.disk b = t.saved b) ∧
      (s.pc.recovering = false → ∀ b, L.home b = true → s.read b = t.view b) ∧
      (s.pc = .idle → t.active = ∅ → ∀ b, L.home b = true → t.view b = t.saved b) := by
  have h₀ : Refines L (State.powerOn d : State ι) ⟨durable L d, durable L d, ∅⟩ :=
    refines_powerOn (u := ⟨durable L d, durable L d, ∅⟩) hd fun _ _ => rfl
  obtain ⟨bs, t, hbs, hev, ht⟩ :=
    (step_simulates L).run h₀ (meets_of_forall (fun a ha _ => has a ha) _) h
  rw [trace_const hbs, trace_const h] at hev
  refine ⟨bs, t, hbs, hev, ht.saved, ht.view, ?_⟩
  intro hidle hactive b hb
  have ht' := ht.at hidle
  rw [← ht'.saved b hb, ← ht'.view rfl b hb, durable_of_head_nil ht'.onDisk]
  refine ht'.fresh b ?_
  rw [show Pc.idle.dirty s.lh = [] from ht'.quiet rfl hactive]
  exact List.not_mem_nil

/-- A log at block 2, and home blocks from 33 to 99. -/
def smallLayout : Layout where
  start := 2
  home := fun b => 33 ≤ b && b < 100
  home_outside := by
    intro b hb
    simp only [Bool.and_eq_true, decide_eq_true_eq] at hb
    rw [logblocks_eq]
    omega
  home_lt := by
    intro b hb
    simp only [Bool.and_eq_true, decide_eq_true_eq] at hb
    omega

/-- Recovery of an empty log; two calls that update three blocks; the machine stops in the middle
of the write of the header, and again in the middle of the installation. -/
def tornCommit : List (Act Bool) :=
  [.tick, .tick, .tick,
    .beginOp false, .write false 40 (fun _ => 1), .beginOp true, .recycle 41,
    .write true 41 (fun _ => 2),
    .endOp false, .write true 40 (fun _ => 3), .endOp true,
    .tick, .tick, .tick, .direct 200 (fun _ => 9), .crash true false,
    .tick, .crash false true,
    .tick, .tick, .tick, .tick, .tick]

theorem log_refines_txn_torn :
    ∃ s, run (step smallLayout) tornCommit (State.powerOn fun _ _ => 0) = some s ∧
      (s.pc = .idle ∧ byte (s.read 40) 0 = 3 ∧ byte (s.read 41) 0 = 2) ∧
      ∃ bs t, run Txn.step bs ⟨durable smallLayout fun _ _ => 0,
          durable smallLayout fun _ _ => 0, ∅⟩ = some t ∧
        events Txn.obs bs = events obs tornCommit ∧ byte (t.view 40) 0 = 3 := by
  obtain ⟨s, hs, hfacts⟩ : ∃ s,
      run (step smallLayout) tornCommit (State.powerOn fun _ _ => 0) = some s ∧
      (s.pc = .idle ∧ byte (s.read 40) 0 = 3 ∧ byte (s.read 41) 0 = 2) := by decide +kernel
  have hhead : head smallLayout (fun _ _ => 0) = [] := by decide +kernel
  obtain ⟨bs, t, hbs, hev, _, hview, _⟩ := log_refines_txn smallLayout (fun _ _ => 0)
    (HeadOk.of_head_nil hhead) tornCommit (by decide +kernel) s hs
  refine ⟨s, hs, hfacts, bs, t, hbs, hev, ?_⟩
  rw [← hview (by rw [hfacts.1]; rfl) 40 (by decide)]
  exact hfacts.2.1

end Log

end Fs

end Xv6
