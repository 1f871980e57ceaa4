import Mathlib.Data.List.Basic
import Xv6.Disk.Queue
import Xv6.Sched.Proc

/-!
# What a process can learn from the statistics

`sys_getmlfqinfo` and `sys_getvmstats` report the counters of one slot of the process table. They
are reset by `allocproc`, some of them by `freeproc` and `kexec`, and advanced by the scheduler, the
timer and page-fault traps, the swap code and the disk driver. Here a slot has all of them, and the
kernel is the table with the events of each slot.

For two histories of the kernel after which `allocproc` claims the same slot, and two continuations
in which the new process has the same events, the reports differ in exactly one field:
`times_scheduled` is advanced from what the previous process of the slot left there, since nothing
resets `num_times_sched` (`reports_eq_iff`).

## Main results

* `reports_eq_iff`, `reports_eq_counterexample`
-/

namespace Xv6

namespace Stats

open Sched (Proc ProcState nproc)
open Disk (ProcStats)
open Transition

variable {as : List Act} {e : Sched.Event} {i : ℕ} {t : Table}

/-- The counters of `struct proc` for pages. -/
structure VmCounts where
  pageFaults : ℤ
  pagesEvicted : ℤ
  pagesSwappedIn : ℤ
  pagesSwappedOut : ℤ
  residentPages : ℤ
  deriving DecidableEq

/-- The counters that `allocproc` and `kexec` reset. -/
def VmCounts.zero : VmCounts := ⟨0, 0, 0, 0, 0⟩

/-- A slot of the process table: `pid`, the fields for scheduling, and the counters. -/
structure Slot where
  pid : ℤ
  proc : Proc
  vm : VmCounts
  disk : ProcStats

/-- The events that change the fields of a slot. -/
inductive Event where
  /-- An event of scheduling. -/
  | sched (e : Sched.Event)
  /-- `usertrap` for a page fault. -/
  | pageFault
  /-- `track_frame` enters a frame that was not in use for the process. -/
  | trackFrame
  /-- `evict_pages` has evicted a page of the process. -/
  | evicted
  /-- The process has swapped out a page, its own or another's. -/
  | swapOut
  | swapIn
  /-- The driver serves a request on the process's hart, at the given latency. -/
  | diskRequest (lat : ℤ)
  | exec
  deriving DecidableEq

/-- What an event does to the counters for pages. -/
def Event.vm (v : VmCounts) : Event → VmCounts
  | .pageFault => { v with pageFaults := int32 (v.pageFaults + 1) }
  | .trackFrame => { v with residentPages := int32 (v.residentPages + 1) }
  | .evicted =>
    { v with
      pagesEvicted := int32 (v.pagesEvicted + 1)
      residentPages := int32 (v.residentPages - 1) }
  | .swapOut => { v with pagesSwappedOut := int32 (v.pagesSwappedOut + 1) }
  | .swapIn =>
    { v with
      pagesSwappedIn := int32 (v.pagesSwappedIn + 1)
      residentPages := int32 (v.residentPages + 1) }
  | .exec => .zero
  | .sched _ | .diskRequest _ => v

/-- What an event does to the counters for the disk. -/
def Event.disk (d : ProcStats) : Event → ProcStats
  | .swapOut => { d with diskWrites := int32 (d.diskWrites + 1) }
  | .swapIn => { d with diskReads := int32 (d.diskReads + 1) }
  | .diskRequest lat => d.addLatency lat
  | .sched _ | .pageFault | .trackFrame | .evicted | .exec => d

/-- What an event does to the fields for scheduling; `none` when the process is not in the state for
it. An eviction is charged to the slot after the disk write, and a frame is tracked for a child that
is being made, so these two come in any state. -/
def Event.proc (p : Proc) : Event → Option Proc
  | .sched e => p.step e
  | .trackFrame | .evicted => some p
  | .pageFault | .swapOut | .swapIn | .diskRequest _ | .exec =>
    if p.state = .running then some p else none

/-- One event. -/
def Slot.step (s : Slot) (e : Event) : Option Slot :=
  (e.proc s.proc).map fun p => ⟨s.pid, p, e.vm s.vm, e.disk s.disk⟩

/-- What `allocproc` does to the slot it has found. -/
def Slot.alloc (pid : ℤ) (s : Slot) : Slot := ⟨pid, s.proc.alloc, .zero, ⟨0, 0, 0⟩⟩

/-- What `freeproc` does to a slot. -/
def Slot.free (s : Slot) : Slot := { s with pid := 0, proc := s.proc.free }

/-- `struct mlfqinfo` -/
structure Mlfqinfo where
  level : ℤ
  ticks : List ℤ
  timesScheduled : ℤ
  totalSyscalls : ℤ
  deriving DecidableEq

/-- `struct vmstats` -/
structure Vmstats where
  vm : VmCounts
  disk : ProcStats
  deriving DecidableEq

def Slot.mlfqinfo (s : Slot) : Mlfqinfo where
  level := s.proc.curQLevel
  ticks := [s.proc.ticksPerLevel 0, s.proc.ticksPerLevel 1, s.proc.ticksPerLevel 2,
    s.proc.ticksPerLevel 3]
  timesScheduled := s.proc.numTimesSched
  totalSyscalls := s.proc.totalSyscalls

def Slot.vmstats (s : Slot) : Vmstats := ⟨s.vm, s.disk⟩

/-! ### The table -/

/-- The process table and the next process number. -/
structure Table where
  slots : ℕ → Slot
  nextpid : ℤ

/-- The table at boot. -/
def Table.boot : Table where
  slots _ := ⟨0, ⟨.unused, 0, 0, 0, 0, fun _ => 0, 0, 0⟩, .zero, ⟨0, 0, 0⟩⟩
  nextpid := 1

/-- The slot that `allocproc` finds. -/
def Table.unused (t : Table) : Option ℕ :=
  (List.range nproc).find? fun i => decide ((t.slots i).proc.state = .unused)

/-- The loop of `sys_getmlfqinfo` and `sys_getvmstats`. -/
def Table.search (t : Table) (pid : ℤ) : Option ℕ :=
  (List.range nproc).find? fun i =>
    decide ((t.slots i).pid = pid ∧ (t.slots i).proc.state ≠ .unused)

/-- The information that `sys_getmlfqinfo` copies out; `none` when it returns -1. -/
def sysGetmlfqinfo (t : Table) (pid : ℤ) : Option Mlfqinfo :=
  (t.search pid).map fun i => (t.slots i).mlfqinfo

/-- The information that `sys_getvmstats` copies out; `none` when it returns -1. -/
def sysGetvmstats (t : Table) (pid : ℤ) : Option Vmstats :=
  (t.search pid).map fun i => (t.slots i).vmstats

/-- What happens in the kernel, as far as the table goes. -/
inductive Act where
  | alloc
  | free (i : ℕ)
  | event (i : ℕ) (e : Event)
  deriving DecidableEq

def Table.set (t : Table) (i : ℕ) (s : Slot) : Table :=
  { t with slots := Function.update t.slots i s }

/-- One step. `allocpid` has no defined result when `nextpid` is the greatest `int`. -/
def Table.step (t : Table) : Act → Option Table
  | .alloc =>
    match t.unused with
    | none => some t
    | some i =>
      if t.nextpid < 2 ^ 31 - 1 then
        some { t.set i ((t.slots i).alloc t.nextpid) with nextpid := t.nextpid + 1 }
      else none
  | .free i =>
    if i < nproc ∧ ((t.slots i).proc.state = .zombie ∨ (t.slots i).proc.state = .used) then
      some (t.set i (t.slots i).free)
    else none
  | .event i e => if i < nproc then ((t.slots i).step e).map (t.set i) else none

/-- The event of slot `i` that the step is, if it is one. -/
def Act.ofSlot (i : ℕ) : Act → Option Event
  | .event j e => if j = i then some e else none
  | .alloc | .free _ => none

/-- The events of slot `i`. -/
def own (i : ℕ) (as : List Act) : List Event := as.filterMap (Act.ofSlot i)

/-- In `t`, `allocproc` claims slot `i`; the kernel goes on with `as`, and at `u` the new process is
still there. -/
structure Claims (t : Table) (i : ℕ) (as : List Act) (u : Table) : Prop where
  unused : t.unused = some i
  goes_on : run Table.step (.alloc :: as) t = some u
  kept : Act.free i ∉ as

/-! ### One slot through a run -/

/-- An event of scheduling, or one that leaves the fields for scheduling alone. -/
theorem Event.proc_cases {p p' : Proc} {e : Event} (h : e.proc p = some p') :
    (∃ e', e = .sched e' ∧ p.step e' = some p') ∨ p' = p := by
  cases e with
  | sched e' => exact Or.inl ⟨e', rfl, h⟩
  | trackFrame | evicted => exact Or.inr (Option.some.inj h).symm
  | _ =>
    simp only [Event.proc, Option.ite_none_right_eq_some, Option.some.injEq] at h
    exact Or.inr h.2.symm

theorem proc_step_state {p p' : Proc} (h : p.step e = some p') : p'.state ≠ .unused := by
  cases e <;> simp only [Proc.step, Option.ite_none_right_eq_some, Option.some.injEq] at h <;>
    obtain ⟨hs, rfl⟩ := h <;> simp [Proc.dispatch, Proc.syscall, Proc.boosted, hs]

theorem Slot.step_state {s s' : Slot} {e : Event} (h : s.step e = some s')
    (hs : s.proc.state ≠ .unused) : s'.proc.state ≠ .unused := by
  obtain ⟨p, hp, rfl⟩ := Option.map_eq_some_iff.mp h
  rcases Event.proc_cases hp with ⟨e', -, he'⟩ | rfl
  · exact proc_step_state he'
  · exact hs

theorem Table.unused_eq_some (h : t.unused = some i) :
    i < nproc ∧ (t.slots i).proc.state = .unused :=
  ⟨List.mem_range.mp (List.mem_of_find?_eq_some h), by simpa using List.find?_some h⟩

section

variable {t' : Table} {a : Act}

/-- What a step does: it claims a slot, frees one, is an event of one, or does nothing. -/
theorem step_cases (h : t.step a = some t') :
    (a = .alloc ∧ t' = t) ∨
    (∃ i, a = .alloc ∧ t.unused = some i ∧ t.nextpid < 2 ^ 31 - 1 ∧
      t' = { t.set i ((t.slots i).alloc t.nextpid) with nextpid := t.nextpid + 1 }) ∨
    (∃ i, a = .free i ∧ t' = t.set i (t.slots i).free) ∨
    ∃ i e s, a = .event i e ∧ i < nproc ∧ (t.slots i).step e = some s ∧ t' = t.set i s := by
  cases a with
  | alloc =>
    simp only [Table.step] at h
    split at h
    · exact Or.inl ⟨rfl, (Option.some.inj h).symm⟩
    · rename_i i hi
      obtain ⟨hlt, h⟩ := Option.ite_none_right_eq_some.mp h
      exact Or.inr (Or.inl ⟨i, rfl, hi, hlt, (Option.some.inj h).symm⟩)
  | free i =>
    obtain ⟨-, h⟩ := Option.ite_none_right_eq_some.mp h
    exact Or.inr (Or.inr (Or.inl ⟨i, rfl, (Option.some.inj h).symm⟩))
  | event i e =>
    obtain ⟨hi, h⟩ := Option.ite_none_right_eq_some.mp h
    obtain ⟨s, hs, rfl⟩ := Option.map_eq_some_iff.mp h
    exact Or.inr (Or.inr (Or.inr ⟨i, e, s, rfl, hi, hs, rfl⟩))

@[simp] theorem set_slots_self (i : ℕ) (s : Slot) : (t.set i s).slots i = s := by simp [Table.set]

theorem set_slots_of_ne {j : ℕ} (s : Slot) (h : j ≠ i) : (t.set i s).slots j = t.slots j := by
  simp [Table.set, h]

/-- **A step, for the slot of a process that it does not free.** -/
theorem step_slot (h : t.step a = some t') (hi : (t.slots i).proc.state ≠ .unused)
    (ha : a ≠ .free i) : run Slot.step (a.ofSlot i).toList (t.slots i) = some (t'.slots i) := by
  rcases step_cases h with
    ⟨rfl, rfl⟩ | ⟨j, rfl, hj, -, rfl⟩ | ⟨j, rfl, rfl⟩ | ⟨j, e, s, rfl, -, hs, rfl⟩
  · rfl
  · have hne : i ≠ j := by
      rintro rfl
      exact hi (Table.unused_eq_some hj).2
    exact congrArg some (set_slots_of_ne _ hne).symm
  · have hne : i ≠ j := by
      rintro rfl
      exact ha rfl
    exact congrArg some (set_slots_of_ne _ hne).symm
  · by_cases hne : j = i
    · subst hne
      simp [Act.ofSlot, run, hs]
    · simp [Act.ofSlot, hne, run, set_slots_of_ne s (Ne.symm hne)]

/-- A step does not end a process except by freeing its slot. -/
theorem step_state (h : t.step a = some t') (hi : (t.slots i).proc.state ≠ .unused)
    (ha : a ≠ .free i) : (t'.slots i).proc.state ≠ .unused :=
  run_invariant (P := fun s : Slot => s.proc.state ≠ .unused)
    (fun _ _ _ hs _ hstep => Slot.step_state hstep hs) hi (meets_true _ _) (step_slot h hi ha)

end

/-- **A run, for the slot of a process that it does not free.** -/
theorem run_slot {u : Table} (h : run Table.step as t = some u)
    (hi : (t.slots i).proc.state ≠ .unused) (hkept : Act.free i ∉ as) :
    run Slot.step (own i as) (t.slots i) = some (u.slots i) ∧
      (u.slots i).proc.state ≠ .unused := by
  induction as generalizing t with
  | nil =>
    obtain rfl := Option.some.inj h
    exact ⟨rfl, hi⟩
  | cons a as ih =>
    obtain ⟨m, hm, hr⟩ := run_cons_eq_some.mp h
    have ha : a ≠ .free i := fun h => hkept (h ▸ List.mem_cons_self)
    obtain ⟨hrun, hstate⟩ :=
      ih hr (step_state hm hi ha) fun hmem => hkept (List.mem_cons_of_mem a hmem)
    refine ⟨?_, hstate⟩
    have hown : own i (a :: as) = (a.ofSlot i).toList ++ own i as := by
      cases ha : a.ofSlot i <;> simp [own, ha]
    rw [hown, run_append, step_slot hm hi ha]
    exact hrun

/-! ### Process numbers -/

/-- What the reports rely on: two processes have different numbers, and the counter of dispatches is
an `int`. -/
structure Table.Ok (t : Table) : Prop where
  lt : ∀ i, (t.slots i).proc.state ≠ .unused → (t.slots i).pid < t.nextpid
  inj : ∀ i j, (t.slots i).proc.state ≠ .unused → (t.slots j).proc.state ≠ .unused →
    (t.slots i).pid = (t.slots j).pid → i = j
  int : ∀ i, int32 (t.slots i).proc.numTimesSched = (t.slots i).proc.numTimesSched

/-- A step that changes one slot. -/
theorem Table.Ok.set (h : t.Ok) {s : Slot} {n : ℤ} (hn : t.nextpid ≤ n)
    (hpid : s.proc.state ≠ .unused → s.pid < n ∧
      ∀ j, j ≠ i → (t.slots j).proc.state ≠ .unused → s.pid ≠ (t.slots j).pid)
    (hint : int32 s.proc.numTimesSched = s.proc.numTimesSched) :
    Table.Ok { t.set i s with nextpid := n } := by
  refine ⟨fun j hj => ?_, fun j k hj hk hjk => ?_, fun j => ?_⟩
  · by_cases hji : j = i
    · subst hji
      rw [set_slots_self] at hj ⊢
      exact (hpid hj).1
    · rw [set_slots_of_ne s hji] at hj ⊢
      exact (h.lt j hj).trans_le hn
  · by_cases hji : j = i <;> by_cases hki : k = i
    · rw [hji, hki]
    · subst hji
      rw [set_slots_self] at hj hjk
      rw [set_slots_of_ne s hki] at hk hjk
      exact absurd hjk ((hpid hj).2 k hki hk)
    · subst hki
      rw [set_slots_self] at hk hjk
      rw [set_slots_of_ne s hji] at hj hjk
      exact absurd hjk.symm ((hpid hk).2 j hji hj)
    · rw [set_slots_of_ne s hji] at hj hjk
      rw [set_slots_of_ne s hki] at hk hjk
      exact h.inj j k hj hk hjk
  · by_cases hji : j = i
    · subst hji
      rwa [set_slots_self]
    · rw [set_slots_of_ne s hji]
      exact h.int j

theorem int32_idem (x : ℤ) : int32 (int32 x) = int32 x := by
  simpa using int32_add x 0

/-- What an event does to the number of dispatches. -/
theorem proc_step_numTimesSched {p p' : Proc} (h : p.step e = some p') :
    p'.numTimesSched = if e = .dispatch then int32 (p.numTimesSched + 1) else p.numTimesSched := by
  cases e <;> simp only [Proc.step, Option.ite_none_right_eq_some, Option.some.injEq] at h <;>
    obtain ⟨hs, rfl⟩ := h
  case dispatch => rfl
  case tick =>
    simp only [Proc.mlfqTick]
    split <;> rfl
  case boost => simp [Proc.boosted, hs]
  all_goals rfl

theorem event_numTimesSched {p p' : Proc} {e : Event} (h : e.proc p = some p') :
    p'.numTimesSched =
      if e = .sched .dispatch then int32 (p.numTimesSched + 1) else p.numTimesSched := by
  cases e with
  | sched e => simpa using proc_step_numTimesSched h
  | _ =>
    rcases Event.proc_cases h with ⟨e', he', -⟩ | rfl
    · cases he'
    · rfl

/-- No event makes a process of a free slot. -/
theorem Slot.live_of_step {s s' : Slot} {e : Event} (h : s.step e = some s')
    (hs : s'.proc.state ≠ .unused) : s.proc.state ≠ .unused := by
  obtain ⟨p, hp, rfl⟩ := Option.map_eq_some_iff.mp h
  rcases Event.proc_cases hp with ⟨e', -, he'⟩ | rfl
  · intro hunused
    cases e' <;> simp [Proc.step, hunused] at he'
  · exact hs

theorem Table.Ok.step {t' : Table} {a : Act} (h : t.Ok) (hstep : t.step a = some t') : t'.Ok := by
  rcases step_cases hstep with ⟨-, rfl⟩ | ⟨i, -, -, -, rfl⟩ | ⟨i, -, rfl⟩ | ⟨i, e, s, -, -, hs, rfl⟩
  · exact h
  · refine h.set (by omega) (fun _ => ⟨?_, fun j _ hj => (h.lt j hj).ne'⟩) (h.int i)
    simp only [Slot.alloc]
    omega
  · exact h.set le_rfl (fun hs => absurd rfl hs) (h.int i)
  · obtain ⟨p, hp, hs'⟩ := Option.map_eq_some_iff.mp hs
    have hpid : s.pid = (t.slots i).pid := by rw [← hs']
    refine h.set le_rfl (fun hlive => ?_) ?_
    · have hold := Slot.live_of_step hs hlive
      rw [hpid]
      exact ⟨h.lt i hold, fun j hji hj heq => hji (h.inj j i hj hold heq.symm)⟩
    · rw [← hs', event_numTimesSched hp]
      split
      · exact int32_idem _
      · exact h.int i

theorem ok_of_run (h : run Table.step as .boot = some t) : t.Ok :=
  run_invariant (P := Table.Ok) (fun _ _ _ ht _ hstep => ht.step hstep)
    ⟨fun _ h => absurd rfl h, fun _ _ h => absurd rfl h, fun _ => int32_zero⟩ (meets_true _ _) h

/-- The search finds the slot of the process. -/
theorem Table.Ok.search (h : t.Ok) (hi : i < nproc) (hlive : (t.slots i).proc.state ≠ .unused) :
    t.search (t.slots i).pid = some i := by
  have hfound : (t.search (t.slots i).pid).isSome := by
    rw [Table.search, List.find?_isSome]
    exact ⟨i, List.mem_range.mpr hi, by simp [hlive]⟩
  obtain ⟨j, hj⟩ := Option.isSome_iff_exists.mp hfound
  obtain ⟨hpid, hj'⟩ : (t.slots j).pid = (t.slots i).pid ∧ (t.slots j).proc.state ≠ .unused := by
    simpa using List.find?_some hj
  rw [hj, h.inj j i hj' hlive hpid]

/-! ### Two histories -/

/-- Two slots agree in all that is reported, but for the number of dispatches, and in all that the
reported fields depend on. -/
structure Agree (p q : Proc) : Prop where
  state : p.state = q.state
  totalSyscalls : p.totalSyscalls = q.totalSyscalls
  curQLevel : p.curQLevel = q.curQLevel
  ticksAtCurLevel : p.ticksAtCurLevel = q.ticksAtCurLevel
  ticksPerLevel : ∀ l, 0 ≤ l → l < 4 → p.ticksPerLevel l = q.ticksPerLevel l
  temp : p.temp = q.temp

/-- Whatever was left in the slots, `allocproc` makes them agree. -/
theorem agree_alloc (p q : Proc) : Agree p.alloc q.alloc :=
  ⟨rfl, rfl, rfl, rfl, fun l h₀ h₄ => by simp [Proc.alloc, h₀, h₄], rfl⟩

namespace Agree

variable {p q : Proc}

theorem countTick (h : Agree p q) : Agree p.countTick q.countTick := by
  refine ⟨h.state, h.totalSyscalls, h.curQLevel, ?_, fun l h₀ h₄ => ?_, h.temp⟩
  · simp [Proc.countTick, h.ticksAtCurLevel]
  · simp only [Proc.countTick, ← h.curQLevel]
    by_cases hl : l = p.curQLevel
    · subst hl
      simp [h.ticksPerLevel _ h₀ h₄]
    · simp [hl, h.ticksPerLevel l h₀ h₄]

theorem endSlice (h : Agree p q) : Agree p.endSlice q.endSlice :=
  ⟨h.state, h.totalSyscalls, by simp only [Proc.endSlice, h.totalSyscalls, h.temp,
    h.ticksAtCurLevel, h.curQLevel], rfl, h.ticksPerLevel, h.totalSyscalls⟩

theorem mlfqTick (h : Agree p q) : Agree p.mlfqTick q.mlfqTick := by
  have hc := h.countTick
  simp only [Proc.mlfqTick, hc.ticksAtCurLevel, hc.curQLevel]
  split
  · exact hc.endSlice
  · exact hc

/-- A change of the state does not depend on anything else. -/
theorem withState (h : Agree p q) (st : ProcState) (c d : ℕ) :
    Agree { p with state := st, chan := c } { q with state := st, chan := d } :=
  ⟨rfl, h.totalSyscalls, h.curQLevel, h.ticksAtCurLevel, h.ticksPerLevel, h.temp⟩

theorem step (h : Agree p q) {p' q' : Proc} (hp : p.step e = some p') (hq : q.step e = some q') :
    Agree p' q' := by
  cases e <;>
    simp only [Proc.step, Option.ite_none_right_eq_some, Option.some.injEq] at hp hq <;>
    obtain ⟨hps, rfl⟩ := hp <;> obtain ⟨hqs, rfl⟩ := hq
  case tick => exact h.mlfqTick.withState _ _ _
  case dispatch =>
    exact ⟨rfl, h.totalSyscalls, h.curQLevel, h.ticksAtCurLevel, h.ticksPerLevel, by
      simp only [Proc.dispatch, h.ticksAtCurLevel, h.totalSyscalls, h.temp]⟩
  case syscall =>
    exact ⟨h.state, by simp [Proc.syscall, h.totalSyscalls], h.curQLevel, h.ticksAtCurLevel,
      h.ticksPerLevel, h.temp⟩
  case boost =>
    simp only [Proc.boosted, hps, hqs, if_true]
    exact ⟨rfl, h.totalSyscalls, rfl, rfl, h.ticksPerLevel, h.totalSyscalls⟩
  all_goals exact h.withState _ _ _

end Agree

/-- The same events keep two slots in agreement, and keep the distance of their numbers of
dispatches. -/
theorem agree_of_run {es : List Event} {s t s' t' : Slot} (hs : run Slot.step es s = some s')
    (ht : run Slot.step es t = some t') (h : Agree s.proc t.proc) (hvm : s.vm = t.vm)
    (hdisk : s.disk = t.disk) :
    Agree s'.proc t'.proc ∧ s'.vm = t'.vm ∧ s'.disk = t'.disk ∧
      int32 (s'.proc.numTimesSched - t'.proc.numTimesSched) =
        int32 (s.proc.numTimesSched - t.proc.numTimesSched) := by
  induction es generalizing s t with
  | nil =>
    obtain rfl := Option.some.inj hs
    obtain rfl := Option.some.inj ht
    exact ⟨h, hvm, hdisk, rfl⟩
  | cons e es ih =>
    obtain ⟨s₁, hs₁, hs'⟩ := run_cons_eq_some.mp hs
    obtain ⟨t₁, ht₁, ht'⟩ := run_cons_eq_some.mp ht
    obtain ⟨p, hp, rfl⟩ := Option.map_eq_some_iff.mp hs₁
    obtain ⟨q, hq, rfl⟩ := Option.map_eq_some_iff.mp ht₁
    have hagree : Agree p q := by
      rcases Event.proc_cases hp with ⟨e', rfl, hp'⟩ | rfl
      · exact h.step hp' hq
      · rcases Event.proc_cases hq with ⟨e', rfl, hq'⟩ | rfl
        · exact h.step hp hq'
        · exact h
    obtain ⟨h₁, h₂, h₃, h₄⟩ := ih hs' ht' hagree (by simp [hvm]) (by simp [hdisk])
    refine ⟨h₁, h₂, h₃, h₄.trans ?_⟩
    simp only [event_numTimesSched hp, event_numTimesSched hq]
    split
    · rw [int32_sub]
      congr 1
      omega
    · rfl

/-- Two `int`s are equal if their difference is zero as an `int`. -/
theorem int32_sub_eq_zero {x y : ℤ} (hx : int32 x = x) (hy : int32 y = y) :
    int32 (x - y) = 0 ↔ x = y := by
  constructor
  · intro h
    rw [← int32_sub, hx, hy, int32] at h
    obtain ⟨k, hk⟩ := Int.dvd_of_bmod_eq_zero h
    have := Int.bmod_lt (x := x) (m := 2 ^ 32) (by norm_num)
    have := Int.le_bmod (x := x) (m := 2 ^ 32) (by norm_num)
    have := Int.bmod_lt (x := y) (m := 2 ^ 32) (by norm_num)
    have := Int.le_bmod (x := y) (m := 2 ^ 32) (by norm_num)
    rw [int32] at hx hy
    rw [hx, hy] at *
    push_cast at *
    omega
  · rintro rfl
    simp

/-- The slot of the new process at the end of the continuation. -/
theorem Claims.slot {u : Table} (h : Claims t i as u) (ht : t.Ok) :
    i < nproc ∧ u.Ok ∧ (u.slots i).proc.state ≠ .unused ∧
      run Slot.step (own i as) ((t.slots i).alloc t.nextpid) = some (u.slots i) := by
  obtain ⟨m, hm, hrun⟩ := run_cons_eq_some.mp h.goes_on
  have hslot : m.slots i = (t.slots i).alloc t.nextpid := by
    simp only [Table.step, h.unused, Option.ite_none_right_eq_some, Option.some.injEq] at hm
    rw [← hm.2]
    exact set_slots_self _ _
  have hlive : (m.slots i).proc.state ≠ .unused := by
    rw [hslot]
    simp [Slot.alloc, Proc.alloc]
  obtain ⟨hslots, hlive'⟩ := run_slot hrun hlive h.kept
  refine ⟨(Table.unused_eq_some h.unused).1, ?_, hlive', hslot ▸ hslots⟩
  exact run_invariant (P := Table.Ok) (fun _ _ _ ht _ hstep => ht.step hstep) (ht.step hm)
    (meets_true _ _) hrun

/-- **What the previous process of a slot leaves behind.** Take two histories of the kernel after
which `allocproc` claims slot `i`, and two continuations in which the new process has the same
events. Both system calls find it, and they report the same in both histories if and only if the
previous processes of the slot had left the same `num_times_sched`. -/
theorem reports_eq_iff {before₁ before₂ after₁ after₂ : List Act} {i : ℕ} {t₁ t₂ u₁ u₂ : Table}
    (hbefore₁ : run Table.step before₁ .boot = some t₁) (hclaims₁ : Claims t₁ i after₁ u₁)
    (hbefore₂ : run Table.step before₂ .boot = some t₂) (hclaims₂ : Claims t₂ i after₂ u₂)
    (hown : own i after₁ = own i after₂) :
    ∃ m₁ m₂ v₁ v₂,
      sysGetmlfqinfo u₁ (u₁.slots i).pid = some m₁ ∧ sysGetvmstats u₁ (u₁.slots i).pid = some v₁ ∧
      sysGetmlfqinfo u₂ (u₂.slots i).pid = some m₂ ∧ sysGetvmstats u₂ (u₂.slots i).pid = some v₂ ∧
      (m₁ = m₂ ∧ v₁ = v₂ ↔
        (t₁.slots i).proc.numTimesSched = (t₂.slots i).proc.numTimesSched) := by
  have ht₁ := ok_of_run hbefore₁
  have ht₂ := ok_of_run hbefore₂
  obtain ⟨hi, hu₁, hlive₁, hrun₁⟩ := hclaims₁.slot ht₁
  obtain ⟨-, hu₂, hlive₂, hrun₂⟩ := hclaims₂.slot ht₂
  rw [← hown] at hrun₂
  obtain ⟨hagree, hvm, hdisk, hnum⟩ := agree_of_run hrun₁ hrun₂ (agree_alloc _ _) rfl rfl
  have hnum' : (u₁.slots i).proc.numTimesSched = (u₂.slots i).proc.numTimesSched ↔
      (t₁.slots i).proc.numTimesSched = (t₂.slots i).proc.numTimesSched := by
    rw [← int32_sub_eq_zero (hu₁.int i) (hu₂.int i), hnum,
      ← int32_sub_eq_zero (ht₁.int i) (ht₂.int i)]
    rfl
  refine ⟨_, _, _, _, by rw [sysGetmlfqinfo, hu₁.search hi hlive₁]; rfl,
    by rw [sysGetvmstats, hu₁.search hi hlive₁]; rfl,
    by rw [sysGetmlfqinfo, hu₂.search hi hlive₂]; rfl,
    by rw [sysGetvmstats, hu₂.search hi hlive₂]; rfl, ?_⟩
  rw [← hnum']
  have hticks : ∀ l, 0 ≤ l → l < 4 → (u₁.slots i).proc.ticksPerLevel l = _ := hagree.ticksPerLevel
  simp [Slot.mlfqinfo, Slot.vmstats, hvm, hdisk, hagree.curQLevel, hagree.totalSyscalls, hticks]

/-- The life of a first process in slot 0, which is dispatched once. -/
def firstLife : List Act :=
  [.alloc, .event 0 (.sched .start), .event 0 (.sched .dispatch), .event 0 (.sched .exit), .free 0]

/-- At boot, and after the life of a first process, a new process has the same events. -/
def laterLife : List Act :=
  [.event 0 (.sched .start), .event 0 (.sched .dispatch), .event 0 .pageFault,
    .event 0 .trackFrame, .event 0 (.sched .syscall), .event 0 (.sched .tick)]

/-- `times_scheduled` is 1 in the first history and 2 in the second one. -/
theorem reports_eq_counterexample :
    ∃ t u₁ u₂, run Table.step firstLife .boot = some t ∧ Claims .boot 0 laterLife u₁ ∧
      Claims t 0 laterLife u₂ ∧
      (sysGetmlfqinfo u₁ (u₁.slots 0).pid).map Mlfqinfo.timesScheduled = some 1 ∧
      (sysGetmlfqinfo u₂ (u₂.slots 0).pid).map Mlfqinfo.timesScheduled = some 2 := by
  refine ⟨_, _, _, rfl, ⟨rfl, rfl, by decide⟩, ⟨rfl, rfl, by decide⟩, ?_, ?_⟩ <;> decide +kernel

/-- Another life of a first process, which is also dispatched once. -/
def otherLife : List Act :=
  [.alloc, .event 0 (.sched .start), .event 0 (.sched .dispatch), .event 0 .pageFault,
    .event 0 .swapIn, .event 0 (.diskRequest 12), .event 0 (.sched .exit), .free 0]

theorem reports_eq_otherLife :
    ∃ t₁ t₂ u₁ u₂, run Table.step firstLife .boot = some t₁ ∧
      run Table.step otherLife .boot = some t₂ ∧ Claims t₁ 0 laterLife u₁ ∧
      Claims t₂ 0 laterLife u₂ ∧
      sysGetmlfqinfo u₁ (u₁.slots 0).pid = sysGetmlfqinfo u₂ (u₂.slots 0).pid ∧
      sysGetvmstats u₁ (u₁.slots 0).pid = sysGetvmstats u₂ (u₂.slots 0).pid := by
  obtain ⟨t₁, u₁, ht₁, hu₁, hnum₁⟩ : ∃ t u, run Table.step firstLife .boot = some t ∧
      Claims t 0 laterLife u ∧ (t.slots 0).proc.numTimesSched = 1 :=
    ⟨_, _, rfl, ⟨rfl, rfl, by decide⟩, by decide +kernel⟩
  obtain ⟨t₂, u₂, ht₂, hu₂, hnum₂⟩ : ∃ t u, run Table.step otherLife .boot = some t ∧
      Claims t 0 laterLife u ∧ (t.slots 0).proc.numTimesSched = 1 :=
    ⟨_, _, rfl, ⟨rfl, rfl, by decide⟩, by decide +kernel⟩
  obtain ⟨m₁, m₂, v₁, v₂, hm₁, hv₁, hm₂, hv₂, hiff⟩ := reports_eq_iff ht₁ hu₁ ht₂ hu₂ rfl
  obtain ⟨rfl, rfl⟩ := hiff.mpr (hnum₁.trans hnum₂.symm)
  exact ⟨t₁, t₂, u₁, u₂, ht₁, ht₂, hu₁, hu₂, hm₁.trans hm₂.symm, hv₁.trans hv₂.symm⟩

end Stats

end Xv6
