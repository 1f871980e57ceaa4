import Mathlib.Algebra.BigOperators.Group.Finset.Basic
import Mathlib.Algebra.Order.BigOperators.Group.Finset
import Xv6.Fs.Cache
import Xv6.Fs.Recovery

/-!
# The log has room, and the commit comes to an end

`begin_op` lets a call start only if the log could hold `MAXOPBLOCKS` blocks for every running
call beside what it holds already. A call that keeps to `MAXOPBLOCKS` different blocks therefore
has a *reservation* for the blocks it has not logged yet, and the invariant `Reserved` says that
the log has room for all of them. `log_write` makes its check before it looks whether the block
is in the log already, so the last reserved place is needed even for a block that needs none: a
call is safe from the panic while it has logged fewer than `MAXOPBLOCKS` blocks, and the panic
occurs exactly when the log is full, that is when every running call has spent its reservation.

The second part is progress: the code that works on the log on the disk needs at most
`2 * LOGBLOCKS + 5` stretches from any reachable state, so a commit and a recovery end, and
afterwards a waiting `begin_op` is let in. Each stretch reads one or two blocks of the log or of
the file system, and `bget` panics when the pinned blocks and the other processes leave no buffer
for them (`State.tickIn`); which of the two happens is decided by the number of pinned blocks.
-/

namespace Xv6

namespace Fs

namespace Log

open Disk (Block)
open Transition
open Function (update update_self update_of_ne)

variable {L : Layout} {lh : List ℕ}

/-! ### The reservation -/

section Reservation

variable {ι : Type} [DecidableEq ι] {ops : ι → Option (List ℕ)} {A : Finset ι} {p : ι} {b : ℕ}
  {l : List ℕ}

/-- The number of blocks process `p` may still log. -/
def reserve {ι : Type} (ops : ι → Option (List ℕ)) (p : ι) : ℕ :=
  maxopblocks - ((ops p).getD []).length

/-- What the file system promises: a call logs at most `MAXOPBLOCKS` different blocks. -/
def WithinQuota {ι : Type} (s : State ι) : Act ι → Prop
  | .write p b _ => ∀ l ∈ s.ops p, b ∉ l → l.length < maxopblocks
  | _ => True

instance decidableWithinQuota {ι : Type} (s : State ι) : ∀ a : Act ι, Decidable (WithinQuota s a)
  | .write p b _ => inferInstanceAs (Decidable (∀ l ∈ s.ops p, b ∉ l → l.length < maxopblocks))
  | .beginOp _ | .endOp _ | .tick | .bread _ | .recycle _ | .direct _ _ | .crash _ _ =>
    isTrue trivial

/-- The running calls are those of `A`; the log holds their blocks and has room for the rest. -/
structure Reserved (lh : List ℕ) (ops : ι → Option (List ℕ)) (A : Finset ι) : Prop where
  running : ∀ p, p ∈ A ↔ (ops p).isSome = true
  logged : ∀ p l, ops p = some l → l ⊆ lh
  room : lh.length + ∑ p ∈ A, reserve ops p ≤ logblocks

theorem sum_reserve_update_of_notMem (hp : p ∉ A) (o : Option (List ℕ)) :
    ∑ q ∈ A, reserve (update ops p o) q = ∑ q ∈ A, reserve ops q := by
  refine Finset.sum_congr rfl fun q hq => ?_
  have hqp : q ≠ p := fun hqp => hp (hqp ▸ hq)
  unfold reserve
  rw [update_of_ne hqp]

/-- Changing what one running call has logged. -/
theorem sum_reserve_update (ops : ι → Option (List ℕ)) (hp : p ∈ A) (o : Option (List ℕ)) :
    ∑ q ∈ A, reserve (update ops p o) q + reserve ops p =
      ∑ q ∈ A, reserve ops q + (maxopblocks - (o.getD []).length) := by
  have hself : reserve (update ops p o) p = maxopblocks - (o.getD []).length := by
    unfold reserve
    rw [update_self]
  rw [← Finset.add_sum_erase A _ hp, ← Finset.add_sum_erase A (reserve ops) hp, hself,
    sum_reserve_update_of_notMem (Finset.notMem_erase p A)]
  omega

/-- `begin_op` makes the reservation: its test leaves room for one more call. -/
theorem Reserved.begin (h : Reserved lh ops A) (hp : ops p = none)
    (hroom : lh.length + (A.card + 1) * maxopblocks ≤ logblocks) :
    Reserved lh (update ops p (some [])) (insert p A) := by
  have hpA : p ∉ A := by
    rw [h.running, hp]
    exact Bool.false_ne_true
  constructor
  · intro q
    by_cases hq : q = p
    · subst hq
      simp
    · simp [hq, h.running]
  · intro q l hl
    by_cases hq : q = p
    · subst hq
      rw [update_self] at hl
      cases hl
      exact List.nil_subset _
    · rw [update_of_ne hq] at hl
      exact h.logged q l hl
  · have hsum : ∑ q ∈ A, reserve ops q ≤ A.card * maxopblocks :=
      Finset.sum_le_card_nsmul A _ _ fun q _ => Nat.sub_le _ _
    have hself : reserve (update ops p (some [])) p ≤ maxopblocks := Nat.sub_le _ _
    rw [Finset.sum_insert hpA, sum_reserve_update_of_notMem hpA]
    rw [Nat.add_mul] at hroom
    omega

/-- A call logs one more block. When the block is new to the log it takes a place that was
reserved for the call, and otherwise no place at all. -/
theorem Reserved.log (h : Reserved lh ops A) (hops : ops p = some l) {lh' : List ℕ}
    (hsub : lh ⊆ lh') (hb : b ∈ lh')
    (hlen : lh'.length = lh.length ∨ lh'.length = lh.length + 1 ∧ l.length < maxopblocks) :
    Reserved lh' (update ops p (some (b :: l))) A := by
  have hpA : p ∈ A := (h.running p).mpr (Option.isSome_iff_exists.mpr ⟨l, hops⟩)
  constructor
  · intro q
    by_cases hq : q = p
    · subst hq
      simp [hpA]
    · simp [hq, h.running]
  · intro q l' hl
    by_cases hq : q = p
    · subst hq
      rw [update_self] at hl
      cases hl
      exact List.cons_subset.mpr ⟨hb, List.Subset.trans (h.logged q l hops) hsub⟩
    · rw [update_of_ne hq] at hl
      exact List.Subset.trans (h.logged q l' hl) hsub
  · have hsum := sum_reserve_update ops hpA (some (b :: l))
    have hroom := h.room
    have hl : reserve ops p = maxopblocks - l.length := by
      rw [reserve, hops]
      rfl
    rw [hl, Option.getD_some, List.length_cons] at hsum
    omega

/-- `end_op` gives the rest of the reservation back. -/
theorem Reserved.finish (h : Reserved lh ops A) : Reserved lh (update ops p none) (A.erase p) := by
  constructor
  · intro q
    by_cases hq : q = p
    · subst hq
      simp
    · simp [hq, h.running]
  · intro q l hl
    by_cases hq : q = p
    · subst hq
      rw [update_self] at hl
      cases hl
    · rw [update_of_ne hq] at hl
      exact h.logged q l hl
  · rw [sum_reserve_update_of_notMem (Finset.notMem_erase p A)]
    have hsum : ∑ q ∈ A.erase p, reserve ops q ≤ ∑ q ∈ A, reserve ops q :=
      Finset.sum_le_sum_of_subset (Finset.erase_subset p A)
    have hroom := h.room
    omega

omit [DecidableEq ι] in
/-- With no call running, only the blocks in the log count. -/
theorem reserved_of_none (hops : ∀ p, ops p = none) (hlen : lh.length ≤ logblocks) :
    Reserved lh ops ∅ where
  running := by simp [hops]
  logged := by
    intro p l hl
    rw [hops] at hl
    cases hl
  room := by simpa using hlen

omit [DecidableEq ι] in
/-- The running calls are determined. -/
theorem Reserved.of_running (h : Reserved lh ops A) {B : Finset ι}
    (hB : ∀ p, p ∈ B ↔ (ops p).isSome = true) : Reserved lh ops B := by
  obtain rfl : B = A := by
    ext p
    rw [hB, h.running]
  exact h

end Reservation

section Runs

variable {ι : Type} {s s' : State ι} {t : Txn ι}

/-! ### Over whole runs -/

/-- The machine holds the atomic disk, and the log has room for what the calls may still log. -/
def Spaced (L : Layout) (s : State ι) : Prop :=
  ∃ t : Txn ι, Refines L s t ∧ Reserved s.lh s.ops t.active

/-- While the log on the disk is worked on there is no reservation. -/
theorem Refines.reserved_of_busy (h : Refines L s t) (hpc : s.pc ≠ .idle)
    (hlen : lh.length ≤ logblocks) : Reserved lh s.ops ∅ := by
  refine reserved_of_none (fun p => ?_) hlen
  rw [← Option.not_isSome_iff_eq_none, ← RefinesAt.active h, RefinesAt.busy h hpc]
  exact Finset.notMem_empty p

theorem State.ops_tick {m : State ι} (h : s.tick L = some m) : m.ops = s.ops ∧ s.pc ≠ .idle := by
  cases tick_cases h with
  | writeLog hpc _ | writeLogEnd hpc _ | writeHead hpc | install hpc _ | installEnd hpc _
  | erase hpc | leave hpc | boot hpc =>
    refine ⟨rfl, ?_⟩
    rw [hpc]
    exact Pc.noConfusion

variable [DecidableEq ι]

/-- **One step keeps the reservations.** -/
theorem reserved_step (h : Refines L s t) (hres : Reserved s.lh s.ops t.active) {a : Act ι}
    (hq : WithinQuota s a) {t' : Txn ι} (h' : Refines L s' t') (hstep : step L s a = some s') :
    ∃ A, Reserved s'.lh s'.ops A := by
  cases step_cases hstep with
  | @beginOp p m hrec hops hm =>
    unfold State.beginOp at hm
    split_ifs at hm with hc hroom
    cases hm
    refine ⟨insert p t.active, hres.begin hops ?_⟩
    rw [RefinesAt.count h] at hroom
    rw [maxopblocks_eq, logblocks_eq] at hroom ⊢
    omega
  | @write p b v l m hops hm =>
    refine ⟨t.active, ?_⟩
    unfold State.logWrite at hm
    split_ifs at hm with hfull hout hmem
    · cases hm
      show Reserved s.lh (update s.ops p (some (if b ∈ l then l else b :: l))) t.active
      split_ifs with hbl
      · rw [← hops, Function.update_eq_self]
        exact hres
      · exact hres.log hops (List.Subset.refl _) hmem (Or.inl rfl)
    · cases hm
      show Reserved (s.lh ++ [b])
        (update s.ops p (some (if b ∈ l then l else b :: l))) t.active
      have hbl : b ∉ l := fun hb => hmem (hres.logged p l hops hb)
      rw [if_neg hbl]
      exact hres.log hops (List.subset_append_left _ _) (by simp)
        (Or.inr ⟨by simp, hq l hops hbl⟩)
  | @endOp p l m hops hm =>
    refine ⟨t.active.erase p, ?_⟩
    unfold State.endOp at hm
    split_ifs at hm <;> cases hm <;> exact hres.finish
  | tick hm =>
    obtain ⟨hops, hpc⟩ := State.ops_tick hm
    refine ⟨∅, ?_⟩
    rw [hops]
    exact h.reserved_of_busy hpc (RefinesAt.length_le h')
  | bread b => exact ⟨_, hres⟩
  | recycle hb => exact ⟨_, hres⟩
  | direct b v => exact ⟨_, hres⟩
  | crash lo hi => exact ⟨∅, reserved_of_none (fun _ => rfl) (Nat.zero_le _)⟩

theorem spaced_step {a : Act ι} (h : Spaced L s) (hC : Allowed L a ∧ WithinQuota s a)
    (hstep : step L s a = some s') : Spaced L s' := by
  obtain ⟨t, ht, hres⟩ := h
  obtain ⟨_, t', -, -, ht'⟩ := step_simulates L s t a s' ht hC.1 hstep
  obtain ⟨A, hA⟩ := reserved_step ht hres hC.2 ht' hstep
  exact ⟨t', ht', hA.of_running (RefinesAt.active ht')⟩

theorem spaced_run {d : ℕ → Block} (hd : HeadOk L d) {as : List (Act ι)}
    (has : Meets (step L) (fun s a => Allowed L a ∧ WithinQuota s a) as (State.powerOn d))
    (h : run (step L) as (State.powerOn d) = some s) : Spaced L s := by
  refine run_invariant (fun _ _ _ => spaced_step) ⟨⟨durable L d, durable L d, ∅⟩, ?_, ?_⟩ has h
  · exact refines_powerOn (u := ⟨durable L d, durable L d, ∅⟩) hd fun _ _ => rfl
  · exact reserved_of_none (fun _ => rfl) (Nat.zero_le _)

omit [DecidableEq ι] in
/-- Inside a transaction the outcome of `log_write` depends on the room alone. -/
theorem State.exists_logWrite_ok {m : State ι} {b : ℕ} (hlt : m.lh.length < logblocks)
    (hone : ¬ m.outstanding < 1) : ∃ m', m.logWrite b = .ok m' := by
  unfold State.logWrite
  rw [if_neg (Nat.not_le.mpr hlt), if_neg hone]
  split_ifs
  · exact ⟨_, rfl⟩
  · exact ⟨_, rfl⟩

omit [DecidableEq ι] in
/-- When the log is full every running call has spent its reservation. -/
theorem Reserved.spent {ops : ι → Option (List ℕ)} {A : Finset ι} (h : Reserved lh ops A)
    (hfull : logblocks ≤ lh.length) {p : ι} {l : List ℕ} (hp : ops p = some l) :
    maxopblocks ≤ l.length := by
  have hpA : p ∈ A := (h.running p).mpr (Option.isSome_iff_exists.mpr ⟨l, hp⟩)
  have hle : reserve ops p ≤ ∑ q ∈ A, reserve ops q :=
    Finset.single_le_sum (fun _ _ => Nat.zero_le _) hpA
  have hroom := h.room
  rw [reserve, hp, Option.getD_some] at hle
  omega

/-- **No call that keeps to its quota runs into a panic of the log.** In every run in which no
call logs more than `MAXOPBLOCKS` different blocks: `end_op` succeeds; `log_write` succeeds for a
call that has logged fewer than `MAXOPBLOCKS` blocks; and the only panic of `log_write` is for a
full log, when every running call has logged `MAXOPBLOCKS` blocks. -/
theorem log_write_panics_only_if_spent (L : Layout) (d : ℕ → Block) (hd : HeadOk L d)
    (as : List (Act ι))
    (has : Meets (step L) (fun s a => Allowed L a ∧ WithinQuota s a) as (State.powerOn d))
    (s : State ι) (h : run (step L) as (State.powerOn d) = some s) (p : ι) (l : List ℕ)
    (hp : s.ops p = some l) (b : ℕ) (v : Block) :
    (∃ m, s.endOp = .ok m) ∧
      (l.length < maxopblocks → ∃ m, ((s.bread b).store b v).logWrite b = .ok m) ∧
      ∀ e, ((s.bread b).store b v).logWrite b = .error e →
        e = "too big a transaction" ∧ s.lh.length = logblocks ∧
          ∀ q l', s.ops q = some l' → maxopblocks ≤ l'.length := by
  obtain ⟨t, ht, hres⟩ := spaced_run hd has h
  obtain ⟨hpt, hidle⟩ := RefinesAt.idle_of_active ht hp
  have hone : ¬ s.outstanding < 1 := by
    have hpos : 0 < t.active.card := Finset.card_pos.mpr ⟨p, hpt⟩
    rw [RefinesAt.count ht]
    omega
  have hcom : s.committing = false := by
    rw [RefinesAt.committing ht, hidle]
    rfl
  have hok : s.lh.length < logblocks → ∃ m, ((s.bread b).store b v).logWrite b = .ok m :=
    fun hlt => State.exists_logWrite_ok hlt hone
  refine ⟨?_, ?_, ?_⟩
  · unfold State.endOp
    rw [hcom, if_neg Bool.false_ne_true]
    split_ifs
    · exact ⟨_, rfl⟩
    · exact ⟨_, rfl⟩
    · exact ⟨_, rfl⟩
  · intro hl
    refine hok ?_
    by_contra hfull
    exact absurd (hres.spent (Nat.le_of_not_lt hfull) hp) (Nat.not_le.mpr hl)
  · intro e he
    have hfull : ¬ s.lh.length < logblocks := by
      intro hlt
      obtain ⟨m, hm⟩ := hok hlt
      rw [hm] at he
      cases he
    refine ⟨?_, ?_, fun q l' hq => hres.spent (Nat.le_of_not_lt hfull) hq⟩
    · have hlen : logblocks ≤ ((s.bread b).store b v).lh.length := Nat.le_of_not_lt hfull
      rw [State.logWrite, if_pos hlen] at he
      cases he
      rfl
    · exact Nat.le_antisymm (RefinesAt.length_le ht) (Nat.le_of_not_lt hfull)

/-- Three calls at once, one of which has logged a block of another. -/
theorem log_write_succeeds_three_calls :
    ∃ s, run (step smallLayout) [.tick, .tick, .tick, .beginOp 0, .beginOp 1, .beginOp 2,
        .write 0 40 fun _ => 1, .write 1 41 fun _ => 2, .write 2 40 fun _ => 3]
        (State.powerOn fun _ _ => 0 : State (Fin 3)) = some s ∧
      (s.lh = [40, 41] ∧ s.ops 2 = some [40]) ∧
      ∃ m, ((s.bread 42).store 42 fun _ => 4).logWrite 42 = .ok m := by
  obtain ⟨s, hs, hfacts⟩ : ∃ s, run (step smallLayout) [.tick, .tick, .tick, .beginOp 0,
        .beginOp 1, .beginOp 2, .write 0 40 fun _ => 1, .write 1 41 fun _ => 2,
        .write 2 40 fun _ => 3]
        (State.powerOn fun _ _ => 0 : State (Fin 3)) = some s ∧
      (s.lh = [40, 41] ∧ s.ops 2 = some [40]) := by decide +kernel
  have hhead : head smallLayout (fun _ _ => 0) = [] := by decide +kernel
  have := log_write_panics_only_if_spent smallLayout (fun _ _ => 0) (HeadOk.of_head_nil hhead) _
    (by decide +kernel) s hs 2 [40] hfacts.2 42 fun _ => 4
  exact ⟨s, hs, hfacts, this.2.1 (by decide)⟩

/-! ### Progress -/

/-- The stretches that the code which works on the log on the disk still has to do, when the
header lists `n` blocks in memory and `k` on the disk. -/
def Pc.remaining (n k : ℕ) : Pc → ℕ
  | .idle => 0
  | .leave => 1
  | .erase r => if r then 1 else 2
  | .install r tail => (n - tail) + 1 + (if r then 1 else 2)
  | .writeHead => 1 + (n + 1 + 2)
  | .writeLog tail => (n - tail) + 1 + (1 + (n + 1 + 2))
  | .boot => 1 + (k + 1 + 1)

def remaining {ι : Type} (L : Layout) (s : State ι) : ℕ :=
  s.pc.remaining s.lh.length (getHead (s.read L.start)).length

theorem remaining_tick {ι : Type} {s m : State ι} (h : s.tick L = some m) :
    remaining L m + 1 = remaining L s := by
  have hlt : ∀ {i b}, s.lh[i]? = some b → i < s.lh.length :=
    fun h => (List.getElem?_eq_some_iff.mp h).1
  have hge : ∀ {i}, s.lh[i]? = none → s.lh.length ≤ i := List.getElem?_eq_none_iff.mp
  cases tick_cases h with
  | @writeLog tail b hpc hb =>
    rw [remaining, remaining, hpc]
    have := hlt hb
    show s.lh.length - (tail + 1) + 1 + (1 + (s.lh.length + 1 + 2)) + 1 =
      s.lh.length - tail + 1 + (1 + (s.lh.length + 1 + 2))
    omega
  | @writeLogEnd tail hpc hb =>
    rw [remaining, remaining, hpc]
    have := hge hb
    show 1 + (s.lh.length + 1 + 2) + 1 = s.lh.length - tail + 1 + (1 + (s.lh.length + 1 + 2))
    omega
  | writeHead hpc =>
    rw [remaining, remaining, hpc]
    show s.lh.length - 0 + 1 + 2 + 1 = 1 + (s.lh.length + 1 + 2)
    omega
  | @install r tail b hpc hb =>
    rw [remaining, remaining, hpc]
    have := hlt hb
    show s.lh.length - (tail + 1) + 1 + (if r then 1 else 2) + 1 =
      s.lh.length - tail + 1 + (if r then 1 else 2)
    omega
  | @installEnd r tail hpc hb =>
    rw [remaining, remaining, hpc]
    have := hge hb
    show (if r then 1 else 2) + 1 = s.lh.length - tail + 1 + (if r then 1 else 2)
    omega
  | @erase r hpc =>
    rw [remaining, remaining, hpc]
    cases r <;> rfl
  | leave hpc =>
    rw [remaining, remaining, hpc]
    rfl
  | boot hpc =>
    rw [remaining, remaining, hpc]
    show (getHead (s.read L.start)).length - 0 + 1 + 1 + 1 =
      1 + ((getHead (s.read L.start)).length + 1 + 1)
    omega

theorem exists_tick {ι : Type} {s : State ι} (h : s.pc ≠ .idle) : ∃ m, s.tick L = some m := by
  unfold State.tick
  split
  next hpc => exact absurd hpc h
  all_goals first | exact ⟨_, rfl⟩ | split <;> exact ⟨_, rfl⟩

theorem remaining_eq_zero {ι : Type} {s : State ι} (h : remaining L s = 0) : s.pc = .idle := by
  by_contra hpc
  obtain ⟨m, hm⟩ := exists_tick (L := L) hpc
  have := remaining_tick hm
  omega

omit [DecidableEq ι] in
theorem Refines.remaining_le (h : Refines L s t) : remaining L s ≤ 2 * logblocks + 5 := by
  have hlen := RefinesAt.length_le h
  rw [remaining, logblocks_eq] at *
  cases hpc : s.pc with
  | idle => exact Nat.zero_le _
  | leave => show 1 ≤ _; omega
  | erase r => cases r <;> simp [Pc.remaining]
  | writeHead => show 1 + (s.lh.length + 1 + 2) ≤ _; omega
  | writeLog tail => show s.lh.length - tail + 1 + (1 + (s.lh.length + 1 + 2)) ≤ _; omega
  | install r tail =>
    show s.lh.length - tail + 1 + (if r then 1 else 2) ≤ _
    split <;> omega
  | boot =>
    have hnil : s.lh = [] := (h.at hpc).onDisk
    have hread : s.read L.start = s.disk L.start := by
      refine (h.at hpc).fresh _ ?_
      rw [show Pc.boot.dirty s.lh = [] from hnil]
      exact List.not_mem_nil
    have hhead := (RefinesAt.headOk h).length_le
    rw [head, logblocks_eq] at hhead
    rw [hread]
    show 1 + ((getHead (s.disk L.start)).length + 1 + 1) ≤ _
    omega

/-! ### Buffers for the log -/

/-- The blocks that the next stretch reads, in the order of its calls of `bread`; it holds them
until it ends. -/
def State.reads {ι : Type} (L : Layout) (s : State ι) : List ℕ :=
  match s.pc with
  | .writeLog tail | .install _ tail => (s.lh[tail]?).elim [] fun b => [L.slot tail, b]
  | .writeHead | .erase _ | .boot => [L.start]
  | .idle | .leave => []

/-- `bget` for each of the blocks, when the blocks of `held` have a buffer that is in use and `n`
buffers are in use for other blocks. A block of `held` is found; any other one takes a buffer that
nobody uses, be it its own, and without one `bget` panics. -/
def bgets (n : ℕ) : List ℕ → List ℕ → Except String Unit
  | [], _ => .ok ()
  | b :: bs, held =>
    if b ∈ held then bgets n bs held
    else if held.length + n < Cache.nbuf then bgets n bs (b :: held)
    else .error "bget: no buffers"

/-- `State.tick` while other processes use `n` buffers. -/
def State.tickIn {ι : Type} (L : Layout) (n : ℕ) (s : State ι) : Option (Except String (State ι)) :=
  (s.tick L).map fun m => (bgets n (s.reads L) s.pins.dedup).map fun _ => m

/-- The code runs by itself until it is idle; `ns` are the numbers of buffers that other processes
use during its stretches. -/
def ticksIn {ι : Type} (L : Layout) : List ℕ → State ι → Except String (State ι)
  | [], s => .ok s
  | n :: ns, s => (s.tickIn L n).elim (.ok s) fun r => r.bind (ticksIn L ns)

theorem pins_tick {ι : Type} {s m : State ι} (h : s.tick L = some m) :
    m.pins.length ≤ s.pins.length := by
  cases tick_cases h with
  | writeLog | writeLogEnd | writeHead | installEnd | erase | leave | boot => exact Nat.le_refl _
  | @install r tail b hpc hb =>
    show (if r then s.pins else s.pins.erase b).length ≤ _
    split
    · exact Nat.le_refl _
    · exact List.length_erase_le

section Buffers

variable {n b : ℕ} {bs ns : List ℕ}

omit [DecidableEq ι] in
/-- No buffer is pinned for a block of the log itself. -/
theorem Refines.notMem_pins (h : Refines L s t) (hlo : L.start ≤ b)
    (hhi : b ≤ L.start + logblocks) : b ∉ s.pins := by
  intro hb
  have hlh := (s.pc.dirty_sublist s.lh).subset ((RefinesAt.pins h).mem_iff.mp hb)
  have := L.home_outside b (RefinesAt.home h b hlh)
  omega

omit [DecidableEq ι] in
theorem Refines.slot_notMem_pins (h : Refines L s t) {tail : ℕ} (hb : s.lh[tail]? = some b) :
    L.slot tail ∉ s.pins := by
  have hlt := (List.getElem?_eq_some_iff.mp hb).1
  have hle := RefinesAt.length_le h
  refine h.notMem_pins ?_ ?_ <;> rw [Layout.slot] <;> omega

omit [DecidableEq ι] in
theorem Refines.dedup_pins (h : Refines L s t) : s.pins.dedup = s.pins :=
  List.Nodup.dedup ((RefinesAt.pins h).nodup_iff.mpr
    ((RefinesAt.nodup h).sublist (s.pc.dirty_sublist s.lh)))

omit [DecidableEq ι] in
/-- A block that waits for its installation has its buffer; the recovery has nothing pinned. -/
theorem Refines.mem_pins (h : Refines L s t) {tail : ℕ} (hb : s.lh[tail]? = some b)
    (hpc : s.pc = .writeLog tail ∨ ∃ r, s.pc = .install r tail) : b ∈ s.pins ∨ s.pins = [] := by
  have hperm := RefinesAt.pins h
  rcases hpc with hpc | ⟨r, hpc⟩
  · rw [hpc] at hperm
    exact Or.inl (hperm.mem_iff.mpr (List.mem_of_getElem? hb))
  · rw [hpc] at hperm
    cases r with
    | true => exact Or.inr hperm.eq_nil
    | false =>
      refine Or.inl (hperm.mem_iff.mpr (List.mem_of_getElem? (i := 0) ?_))
      exact (List.getElem?_drop).trans hb

/-- Two blocks, of which the second may have its buffer already. -/
theorem bgets_pair {a : ℕ} {held : List ℕ} (ha : a ∉ held)
    (hb : b ∈ held ∨ held = []) (hn : n + max 2 (held.length + 1) ≤ Cache.nbuf) :
    bgets n [a, b] held = .ok () := by
  rw [bgets, if_neg ha, if_pos (by omega), bgets]
  by_cases hmem : b ∈ a :: held
  · rw [if_pos hmem, bgets]
  · obtain rfl := hb.resolve_left fun h => hmem (List.mem_cons_of_mem _ h)
    rw [if_neg hmem, if_pos (by rw [List.length_singleton]; omega), bgets]

omit [DecidableEq ι] in
theorem Refines.bgets_ok (h : Refines L s t) (hn : n + max 2 (s.pins.length + 1) ≤ Cache.nbuf) :
    bgets n (s.reads L) s.pins.dedup = .ok () := by
  rw [h.dedup_pins, State.reads]
  have hstart : bgets n [L.start] s.pins = .ok () := by
    rw [bgets, if_neg (h.notMem_pins (Nat.le_refl _) (Nat.le_add_right _ _)), if_pos (by omega),
      bgets]
  have hpair : ∀ tail, (s.pc = .writeLog tail ∨ ∃ r, s.pc = .install r tail) →
      bgets n ((s.lh[tail]?).elim [] fun b => [L.slot tail, b]) s.pins = .ok () := by
    intro tail hpc
    cases hb : s.lh[tail]? with
    | none => rfl
    | some b => exact bgets_pair (h.slot_notMem_pins hb) (h.mem_pins hb hpc) hn
  cases hpc : s.pc with
  | idle | leave => rfl
  | writeHead | erase | boot => exact hstart
  | writeLog tail => exact hpair tail (Or.inl hpc)
  | install r tail => exact hpair tail (Or.inr ⟨r, hpc⟩)

/-- With buffers for it the code reaches its end. -/
theorem Refines.ticksIn_ok (h : Refines L s t) (hlen : remaining L s ≤ ns.length)
    (hn : ∀ n ∈ ns, n + max 2 (s.pins.length + 1) ≤ Cache.nbuf) :
    ∃ m u, ticksIn L ns s = .ok m ∧ m.pc = .idle ∧ m.ops = s.ops ∧ Refines L m u := by
  induction ns generalizing s t with
  | nil => exact ⟨s, t, rfl, remaining_eq_zero (Nat.le_zero.mp hlen), rfl, h⟩
  | cons n ns ih =>
    cases hm : s.tick L with
    | none =>
      refine ⟨s, t, by rw [ticksIn, State.tickIn, hm]; rfl, ?_, rfl, h⟩
      by_contra hpc
      obtain ⟨m, hm'⟩ := exists_tick (L := L) hpc
      exact Option.some_ne_none m (hm'.symm.trans hm)
    | some m =>
      obtain ⟨_, u, -, -, hu⟩ := h.tick hm
      have hrem := remaining_tick hm
      have hpins := pins_tick hm
      rw [List.length_cons] at hlen
      obtain ⟨m', u', hrun, hidle, hops, hu'⟩ := ih hu (by omega) fun k hk => by
        have := hn k (List.mem_cons_of_mem _ hk)
        omega
      refine ⟨m', u', ?_, hidle, hops.trans (State.ops_tick hm).1, hu'⟩
      rw [ticksIn, State.tickIn, hm, Option.map_some, h.bgets_ok (hn n List.mem_cons_self)]
      exact hrun

omit [DecidableEq ι] in
/-- Without a buffer for its first block a stretch panics. -/
theorem Refines.ticksIn_panics (h : Refines L s t) (hreads : s.reads L = b :: bs)
    (hb : b ∉ s.pins) (hn : Cache.nbuf ≤ s.pins.length + n) :
    ticksIn L (n :: ns) s = .error "bget: no buffers" := by
  have hpc : s.pc ≠ .idle := by
    intro hpc
    rw [State.reads, hpc] at hreads
    cases hreads
  obtain ⟨m, hm⟩ := exists_tick (L := L) hpc
  rw [ticksIn, State.tickIn, hm, hreads, h.dedup_pins, bgets, if_neg hb,
    if_neg (Nat.not_lt.mpr hn)]
  rfl

/-- Without a buffer left the code panics in one of its next two stretches: the end of a loop reads
nothing, and the stretch after it reads the header. -/
theorem Refines.ticksIn_fails (h : Refines L s t) (hidle : s.pc ≠ .idle) (hleave : s.pc ≠ .leave)
    {k : ℕ} (hn : Cache.nbuf ≤ s.pins.length + n) (hk : Cache.nbuf ≤ s.pins.length + k) :
    ticksIn L (n :: k :: ns) s = .error "bget: no buffers" := by
  have hstart : ∀ {s : State ι} {t}, Refines L s t → L.start ∉ s.pins := fun h =>
    h.notMem_pins (Nat.le_refl _) (Nat.le_add_right _ _)
  have hloop : ∀ {tail : ℕ} {m : State ι},
      s.reads L = (s.lh[tail]?).elim [] (fun b => [L.slot tail, b]) →
      (s.lh[tail]? = none → s.tick L = some m) → m.reads L = [L.start] → m.pins = s.pins →
      ticksIn L (n :: k :: ns) s = .error "bget: no buffers" := by
    intro tail m hreads hm hreads' hpins
    cases hb : s.lh[tail]? with
    | some b =>
      exact h.ticksIn_panics (hreads.trans (by rw [hb]; rfl)) (h.slot_notMem_pins hb) hn
    | none =>
      obtain ⟨_, u, -, -, hu⟩ := h.tick (hm hb)
      rw [ticksIn, State.tickIn, hm hb, hreads, hb]
      exact hu.ticksIn_panics hreads' (hstart hu) (by rwa [hpins])
  cases hpc : s.pc with
  | idle => exact absurd hpc hidle
  | leave => exact absurd hpc hleave
  | writeHead | erase | boot =>
    exact h.ticksIn_panics (by rw [State.reads, hpc]) (hstart h) hn
  | writeLog tail =>
    exact hloop (m := { s with pc := .writeHead }) (by rw [State.reads, hpc])
      (fun hb => by simp only [State.tick, hpc, hb]) rfl rfl
  | install r tail =>
    exact hloop (m := { s with lh := [], pc := .erase r }) (by rw [State.reads, hpc])
      (fun hb => by simp only [State.tick, hpc, hb]) rfl rfl

end Buffers

/-- **Every commit and every recovery comes to an end if there are buffers for it**: from any state
that any run reaches, after at most `2 * LOGBLOCKS + 5` stretches, when during each of them two
buffers, and one more than are pinned, are left to the log; and if no call is running then, the
next `begin_op` is let in. When the pinned blocks and the other processes use all buffers it
panics. As `NBUF` is `LOGBLOCKS`, it does so after any transaction that fills the log. -/
theorem log_code_terminates (L : Layout) (d : ℕ → Block) (hd : HeadOk L d) (as : List (Act ι))
    (has : ∀ a ∈ as, Allowed L a) (s : State ι) (h : run (step L) as (State.powerOn d) = some s) :
    (∀ ns : List ℕ, 2 * logblocks + 5 ≤ ns.length →
      (∀ n ∈ ns, n + max 2 (s.pins.length + 1) ≤ Cache.nbuf) →
      ∃ m, ticksIn L ns s = .ok m ∧ m.pc = .idle ∧
        ((∀ p, s.ops p = none) → m.lh = [] ∧ ∃ m', m.beginOp = some m')) ∧
    ∀ ns : List ℕ, 2 ≤ ns.length → (∀ n ∈ ns, Cache.nbuf ≤ s.pins.length + n) →
      s.pc ≠ .idle → s.pc ≠ .leave → ticksIn L ns s = .error "bget: no buffers" := by
  have h₀ : Refines L (State.powerOn d : State ι) ⟨durable L d, durable L d, ∅⟩ :=
    refines_powerOn (u := ⟨durable L d, durable L d, ∅⟩) hd fun _ _ => rfl
  obtain ⟨_, t, -, -, ht⟩ :=
    (step_simulates L).run h₀ (meets_of_forall (fun a ha _ => has a ha) _) h
  refine ⟨fun ns hlen hns => ?_, fun ns hlen hns hidle hleave => ?_⟩
  · obtain ⟨m, u, hrun, hidle, hops, hu⟩ := ht.ticksIn_ok (ht.remaining_le.trans hlen) hns
    refine ⟨m, hrun, hidle, fun hnone => ?_⟩
    have hactive : u.active = ∅ := by
      rw [Finset.eq_empty_iff_forall_notMem]
      intro p
      rw [RefinesAt.active hu, hops, hnone]
      exact Bool.false_ne_true
    have hnil : m.lh = [] := RefinesAt.quiet hu hidle hactive
    have hcom : m.committing = false := by
      rw [RefinesAt.committing hu, hidle]
      rfl
    refine ⟨hnil, ?_⟩
    unfold State.beginOp
    rw [hcom, if_neg Bool.false_ne_true, if_neg]
    · exact ⟨_, rfl⟩
    · rw [RefinesAt.count hu, hactive, hnil, Finset.card_empty, List.length_nil]
      decide
  · rcases ns with _ | ⟨n, _ | ⟨k, ns⟩⟩
    · exact absurd hlen (by decide)
    · exact absurd hlen (by simp)
    · exact ht.ticksIn_fails hidle hleave (hns n List.mem_cons_self)
        (hns k (List.mem_cons_of_mem _ List.mem_cons_self))

/-- A commit of two blocks beside 27 buffers that are in use, and beside 28. -/
theorem log_code_terminates_torn :
    ∃ s, run (step smallLayout) (tornCommit.take 11) (State.powerOn fun _ _ => 0) = some s ∧
      (s.pc = .writeLog 0 ∧ s.pins.length = 2) ∧
      (∃ m, ticksIn smallLayout (List.replicate 65 27) s = .ok m ∧ m.pc = .idle) ∧
      ticksIn smallLayout (List.replicate 2 28) s = .error "bget: no buffers" := by
  obtain ⟨s, hs, hpc, hpins⟩ : ∃ s,
      run (step smallLayout) (tornCommit.take 11) (State.powerOn fun _ _ => 0) = some s ∧
      s.pc = .writeLog 0 ∧ s.pins.length = 2 := by decide +kernel
  have hhead : head smallLayout (fun _ _ => 0) = [] := by decide +kernel
  obtain ⟨hok, hfails⟩ := log_code_terminates smallLayout (fun _ _ => 0)
    (HeadOk.of_head_nil hhead) (tornCommit.take 11) (by decide +kernel) s hs
  rw [hpins] at hok hfails
  obtain ⟨m, hm, hidle, -⟩ := hok (List.replicate 65 27) (by decide) (by decide)
  exact ⟨s, hs, ⟨hpc, hpins⟩, ⟨m, hm, hidle⟩, hfails (List.replicate 2 28) (by decide) (by decide)
    (by rw [hpc]; exact Pc.noConfusion) (by rw [hpc]; exact Pc.noConfusion)⟩

end Runs

end Log

end Fs

end Xv6
