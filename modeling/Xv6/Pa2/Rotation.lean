import Mathlib.Algebra.Order.Ring.Int
import Xv6.Pa2.Sched

/-!
# Who is dispatched next within a level

On one hart, the scheduler of the second assignment begins its scan again at level 0 and slot 0
after every dispatch. Between two dispatches of `p` at a level it therefore goes past exactly the
slots before that of `p`, and a process that waits at the level is dispatched in between if and only
if its slot comes before the slot of `p` (`round_robin_iff`).

One direction is an invariant of the scan: as long as `q` waits at level `L`, no scan goes beyond it
at that level (`Waiting`). For the other one, `p` gives up the hart at once and the next scan finds
it again (`Sweep`).

## Main results

* `round_robin_iff`, `round_robin_counterexample`
-/

namespace Xv6

namespace Pa2

open Sched (ProcState nproc)
open Transition

variable {L level : ℕ} {a : Act Unit} {as mid : List (Act Unit)} {s : Sys Unit}

/-- The process of slot `q` waits at `level`. -/
def WaitsAt (s : Sys Unit) (q level : ℕ) : Prop :=
  (s.procs q).state = .runnable ∧ (s.procs q).level = level

/-- The step dispatches the process of slot `q`. -/
def DispatchStep (s : Sys Unit) (a : Act Unit) (q : ℕ) : Prop :=
  a = .sched () ∧ ∃ level, Dispatches s () q level

/-- Some step of the run dispatches the process of slot `q`. -/
def DispatchedIn (q : ℕ) : List (Act Unit) → Sys Unit → Prop
  | [], _ => False
  | a :: as, s => DispatchStep s a q ∨ ∃ s', s.step a = some s' ∧ DispatchedIn q as s'

/-- The process of slot `q` waits at `level` in every state of the run until it is dispatched. -/
def RunnableUntil (q level : ℕ) : List (Act Unit) → Sys Unit → Prop
  | [], s => WaitsAt s q level
  | a :: as, s => WaitsAt s q level ∧
      (DispatchStep s a q ∨ ∀ s', s.step a = some s' → RunnableUntil q level as s')

/-- In every run, between two dispatches of `p` at level `L` with none in between, `q` is dispatched
if it waits at that level all the time until then. -/
def RoundRobin (p q L : ℕ) : Prop :=
  ∀ (s₀ s s₁ s₂ : Sys Unit) (before mid : List (Act Unit)), Fresh s₀ →
    run Sys.step before s₀ = some s → Dispatches s () p L → s.step (.sched ()) = some s₁ →
    run Sys.step mid s₁ = some s₂ → Dispatches s₂ () p L → ¬ DispatchedIn p mid s₁ →
    RunnableUntil q L mid s₁ → DispatchedIn q mid s₁

/-! ### While a process waits -/

/-- No scan has gone beyond slot `q` at level `L`. -/
def Waiting (q L : ℕ) : Pc → Prop
  | .scan level i => level < L ∨ level = L ∧ i ≤ q
  | _ => True

/-- Only the scheduler moves the scan. -/
theorem scan_of_step {s' : Sys Unit} (hstep : s.step a = some s') (ha : a ≠ .sched ()) {i : ℕ}
    (hpc : s'.pc () = .scan level i) : s.pc () = .scan level i := by
  cases a with
  | sched h => exact absurd rfl ha
  | trap h =>
    cases traps_of_trap hstep <;> simp [Sys.goto, Sys.giveUp, Sys.consume] at hpc
  | tick h =>
    obtain ⟨j, -, rfl⟩ := process_eq_some.mp hstep
    unfold Sys.tick at hpc
    split at hpc <;> simp [Sys.goto] at hpc
  | syscall h =>
    obtain ⟨j, -, rfl⟩ := process_eq_some.mp hstep
    exact hpc
  | yield h | sleep h | exit h =>
    obtain ⟨j, -, rfl⟩ := process_eq_some.mp hstep
    simp [Sys.giveUp, Sys.goto] at hpc
  | wakeup q | alloc q | start q | free q =>
    obtain ⟨-, rfl⟩ := slot_eq_some.mp hstep
    exact hpc

theorem Waiting.step {q : ℕ} {s' : Sys Unit} (hw : Waiting q L (s.pc ())) (hq : q < nproc)
    (hwait : WaitsAt s q L) (hno : ¬ DispatchStep s a q) (hstep : s.step a = some s') :
    Waiting q L (s'.pc ()) := by
  by_cases ha : a = .sched ()
  · subst ha
    rcases sched_cases hstep with ⟨level, i, -, rfl⟩ | ⟨pc, hm, rfl⟩
    · simp [Sys.dispatch, Sys.goto, Waiting]
    · simp only [Sys.goto, Function.update_self]
      cases hm with
      | start =>
        simp only [Waiting]
        omega
      | @next level i hpc hd =>
        -- slot `q` is not passed at its level, since it would be dispatched
        have hne : level = L → i ≠ q := by
          rintro rfl rfl
          exact hd ⟨hpc, hq, hwait⟩
        rw [hpc] at hw
        simp only [Waiting] at hw ⊢
        omega
      | nextLevel hpc hi =>
        rw [hpc] at hw
        simp only [Waiting] at hw ⊢
        omega
      | wait | wake => trivial
  · cases hpc : s'.pc () with
    | scan level i =>
      rw [scan_of_step hstep ha hpc] at hw
      exact hw
    | _ => trivial

/-- While `q` waits at a level, no process behind it is dispatched at that level. -/
theorem dispatchedIn_of_waiting {p q : ℕ} (hqp : q < p) (hq : q < nproc) {s₂ : Sys Unit}
    (hw : Waiting q L (s.pc ())) (hmid : run Sys.step mid s = some s₂)
    (hsecond : Dispatches s₂ () p L) (hwait : RunnableUntil q L mid s) : DispatchedIn q mid s := by
  induction mid generalizing s with
  | nil =>
    obtain rfl := Option.some.inj hmid
    rw [hsecond.1] at hw
    simp only [Waiting] at hw
    omega
  | cons a mid ih =>
    obtain ⟨t, ht, hrest⟩ := run_cons_eq_some.mp hmid
    by_cases hd : DispatchStep s a q
    · exact Or.inl hd
    · exact Or.inr ⟨t, ht, ih (hw.step hq hwait.1 hd ht) hrest (hwait.2.resolve_left hd t ht)⟩

/-! ### A scan that dispatches nobody -/

/-- The step is one of the scheduler and dispatches nobody. -/
def ScanStep (s : Sys Unit) (a : Act Unit) : Prop :=
  a = .sched () ∧ ∀ i level, ¬ Dispatches s () i level

theorem ScanStep.procs {s' : Sys Unit} (h : ScanStep s a) (hstep : s.step a = some s') :
    s'.procs = s.procs := by
  obtain ⟨rfl, hno⟩ := h
  rcases sched_cases hstep with ⟨level, i, hd, -⟩ | ⟨pc, -, rfl⟩
  · exact absurd hd (hno i level)
  · rfl

theorem not_dispatchedIn_of_scan {r : ℕ} (h : Meets Sys.step ScanStep as s) :
    ¬ DispatchedIn r as s := by
  induction as generalizing s with
  | nil => exact id
  | cons a as ih =>
    rintro (⟨-, level, hd⟩ | ⟨s', hs', hd⟩)
    · exact h.1.2 r level hd
    · exact ih (h.2 s' hs') hd

theorem runnableUntil_of_scan {q : ℕ} (h : Meets Sys.step ScanStep as s) (hwait : WaitsAt s q L) :
    RunnableUntil q L as s := by
  induction as generalizing s with
  | nil => exact hwait
  | cons a as ih =>
    refine ⟨hwait, Or.inr fun s' hs' => ih (h.2 s' hs') ?_⟩
    rw [WaitsAt, h.1.procs hs']
    exact hwait

/-- The scheduler comes from `s` to `s'` and dispatches nobody on the way. -/
def Sweep (s s' : Sys Unit) : Prop :=
  ∃ as, run Sys.step as s = some s' ∧ Meets Sys.step ScanStep as s

theorem Sweep.trans {t u : Sys Unit} : Sweep s t → Sweep t u → Sweep s u := by
  rintro ⟨as, has, hmas⟩ ⟨bs, hbs, hmbs⟩
  refine ⟨as ++ bs, ?_, meets_append.mpr ⟨hmas, fun t' ht' => ?_⟩⟩
  · rw [run_append, has]
    exact hbs
  · obtain rfl : t = t' := Option.some.inj (has.symm.trans ht')
    exact hmbs

theorem Sweep.single {s' : Sys Unit} (hstep : s.sched () = some s')
    (hno : ∀ i level, ¬ Dispatches s () i level) : Sweep s s' :=
  ⟨[.sched ()], run_cons_eq_some.mpr ⟨s', hstep, rfl⟩, ⟨rfl, hno⟩, fun _ _ => trivial⟩

@[simp] theorem goto_goto (s : Sys Unit) (a b : Pc) : (s.goto () a).goto () b = s.goto () b := by
  simp [Sys.goto]

@[simp] theorem goto_pc (s : Sys Unit) (a : Pc) : (s.goto () a).pc () = a := by simp [Sys.goto]

@[simp] theorem goto_procs (s : Sys Unit) (a : Pc) : (s.goto () a).procs = s.procs := rfl

/-- The scan goes past slots that are not for it. -/
theorem sweep_slots (s : Sys Unit) {n : ℕ} (hn : n ≤ nproc) (hno : ∀ i < n, ¬ WaitsAt s i level) :
    Sweep (s.goto () (.scan level 0)) (s.goto () (.scan level n)) := by
  induction n with
  | zero => exact ⟨[], rfl, trivial⟩
  | succ n ih =>
    refine (ih (by omega) fun i hi => hno i (by omega)).trans (.single ?_ ?_)
    · have := hno n (by omega)
      rw [WaitsAt] at this
      simp [Sys.sched, this, show n < nproc by omega]
    · rintro i l ⟨hpc, -, hw⟩
      obtain ⟨rfl, rfl⟩ : level = l ∧ n = i := by simpa using hpc
      exact hno n (by omega) hw

/-- The scan goes past levels at which nobody waits. -/
theorem sweep_levels (s : Sys Unit) (hL : L < 4)
    (hno : ∀ level < L, ∀ i < nproc, ¬ WaitsAt s i level) :
    Sweep (s.goto () (.scan 0 0)) (s.goto () (.scan L 0)) := by
  induction L with
  | zero => exact ⟨[], rfl, trivial⟩
  | succ L ih =>
    refine ((ih (by omega) fun l hl => hno l (by omega)).trans
      (sweep_slots s le_rfl (hno L (by omega)))).trans (.single ?_ ?_)
    · simp [Sys.sched, hL]
    · rintro i l ⟨hpc, hi, -⟩
      obtain ⟨-, rfl⟩ : L = l ∧ nproc = i := by simpa using hpc
      exact lt_irrefl _ hi

/-- From the top of its loop the scheduler comes to slot `p` at level `L` if nobody waits at a place
that comes first. -/
theorem sweep_to (s : Sys Unit) (hpc : s.pc () = .top) {p : ℕ} (hp : p ≤ nproc) (hL : L < 4)
    (hlevels : ∀ level < L, ∀ i < nproc, ¬ WaitsAt s i level) (hslots : ∀ i < p, ¬ WaitsAt s i L) :
    Sweep s (s.goto () (.scan L p)) := by
  have hstart : Sweep s (s.goto () (.scan 0 0)) := by
    refine .single (by simp [Sys.sched, hpc]) ?_
    rintro i l ⟨hscan, -⟩
    rw [hpc] at hscan
    cases hscan
  exact (hstart.trans (sweep_levels s hL hlevels)).trans (sweep_slots s hp hslots)

/-! ### The order of the slots decides -/

/-- Two runnable processes at level `L`, in the slots `p` and `q`. -/
def twoAt (p q L : ℕ) : Sys Unit where
  procs i :=
    if i = p ∨ i = q then ⟨.runnable, L, 0, fun _ => 0, 0, 0, 0⟩
    else ⟨.unused, 0, 0, fun _ => 0, 0, 0, 0⟩
  boostTicks := 0
  pc _ := .top
  seen _ _ := 0

theorem twoAt_fresh {p q : ℕ} (hL : L < 4) : Fresh (twoAt p q L) := by
  refine ⟨fun _ => rfl, fun i => ?_, fun i => ?_, fun i => ?_⟩ <;> simp only [twoAt] <;> split <;>
    simp
  omega

theorem twoAt_waitsAt {p q i : ℕ} :
    WaitsAt (twoAt p q L) i level ↔ (i = p ∨ i = q) ∧ L = level := by
  by_cases hi : i = p ∨ i = q <;> simp [WaitsAt, twoAt, hi]

/-- A slice without a tick ends without a demotion. -/
theorem endSlice_dispatch {p : Proc} (hticks : p.ticksConsumed = 0) :
    ({ p.dispatch with state := .runnable }.endSlice).level = p.level := by
  have hpos : 0 < quantum p.level := by
    unfold quantum
    split_ifs <;> decide
  simp only [Proc.endSlice, Proc.dispatch, hticks]
  exact if_neg fun hc => absurd hc.1 (not_le.mpr hpos)

/-- If the slot of `p` comes first, the scheduler finds `p` again when `p` gives up the hart. -/
theorem not_roundRobin {p q : ℕ} (hpq : p < q) (hp : p < nproc) (hL : L < 4) :
    ¬ RoundRobin p q L := by
  intro hrr
  have hself : WaitsAt (twoAt p q L) p L := twoAt_waitsAt.mpr ⟨Or.inl rfl, rfl⟩
  obtain ⟨before, hbefore, -⟩ : Sweep (twoAt p q L) ((twoAt p q L).goto () (.scan L p)) :=
    sweep_to _ rfl hp.le hL (fun level hl i _ hw => hl.ne' (twoAt_waitsAt.mp hw).2)
      fun i hi hw => by have := (twoAt_waitsAt.mp hw).1; omega
  have hfirst : Dispatches ((twoAt p q L).goto () (.scan L p)) () p L := ⟨goto_pc _ _, hp, hself⟩
  -- `p` is dispatched and gives up the hart at once
  let s₁ := ((twoAt p q L).goto () (.scan L p)).dispatch () p
  let t := s₁.giveUp () p .runnable
  have hwaits : ∀ i level, WaitsAt t i level ↔ (i = p ∨ i = q) ∧ L = level := by
    intro i level
    rw [← twoAt_waitsAt]
    by_cases hi : i = p
    · subst hi
      have hlevel := endSlice_dispatch (p := (twoAt i q L).procs i) (by simp [twoAt])
      have hp' : t.procs i =
          { ((twoAt i q L).procs i).dispatch with state := .runnable }.endSlice := by
        simp [t, s₁, Sys.giveUp, Sys.dispatch, Sys.goto, Sys.modProc]
      simp only [WaitsAt, hp', hlevel]
      simp [Proc.endSlice, hself.1]
    · simp [t, s₁, WaitsAt, Sys.giveUp, Sys.dispatch, Sys.goto, Sys.modProc, hi]
  obtain ⟨mid, hmid, hscan⟩ : Sweep t (t.goto () (.scan L p)) :=
    sweep_to t (by simp [t, Sys.giveUp]) hp.le hL
      (fun level hl i _ hw => hl.ne' ((hwaits i level).mp hw).2)
      fun i hi hw => by have := ((hwaits i L).mp hw).1; omega
  have hyield : s₁.step (.yield ()) = some t := by
    simp [Sys.step, Sys.process, s₁, t, Sys.dispatch]
  have hsecond : Dispatches (t.goto () (.scan L p)) () p L :=
    ⟨goto_pc _ _, hp, (hwaits p L).mpr ⟨Or.inl rfl, rfl⟩⟩
  have hnot : ∀ r, ¬ DispatchedIn r (.yield () :: mid) s₁ := by
    rintro r (⟨ha, -⟩ | ⟨t', ht', hd⟩)
    · cases ha
    · obtain rfl : t = t' := Option.some.inj (hyield.symm.trans ht')
      exact not_dispatchedIn_of_scan hscan hd
  refine hnot q (hrr _ _ s₁ _ before (.yield () :: mid) (twoAt_fresh hL) hbefore hfirst ?_
    (run_cons_eq_some.mpr ⟨t, hyield, hmid⟩) hsecond (hnot p) ⟨?_, Or.inr fun t' ht' => ?_⟩)
  · have hw : ((twoAt p q L).procs p).state = .runnable ∧ ((twoAt p q L).procs p).level = L := hself
    simp [Sys.step, Sys.sched, hp, hw, s₁]
  · have hw : WaitsAt (twoAt p q L) q L := twoAt_waitsAt.mpr ⟨Or.inr rfl, rfl⟩
    simpa [WaitsAt, s₁, Sys.dispatch, Sys.goto, Sys.modProc, hpq.ne'] using hw
  · obtain rfl : t = t' := Option.some.inj (hyield.symm.trans ht')
    exact runnableUntil_of_scan hscan ((hwaits q L).mpr ⟨Or.inr rfl, rfl⟩)

/-- **Round robin within a level.** Between two dispatches of `p` at a level, a process that waits
at the level is dispatched in every run if and only if its slot comes before the slot of `p`. -/
theorem round_robin_iff {p q L : ℕ} (hp : p < nproc) (hq : q < nproc) (hpq : p ≠ q) (hL : L < 4) :
    RoundRobin p q L ↔ q < p := by
  constructor
  · intro hrr
    by_contra hle
    exact not_roundRobin (by omega) hp hL hrr
  · intro hqp s₀ s s₁ s₂ before mid _ _ hfirst hstep hmid hsecond _ hwait
    refine dispatchedIn_of_waiting hqp hq ?_ hmid hsecond hwait
    obtain ⟨hpc, hlt, hw⟩ := hfirst
    simp only [Sys.step, Sys.sched, hpc, hlt, if_true, hw, and_self, Option.some.injEq] at hstep
    rw [← hstep]
    simp [Sys.dispatch, Waiting]

theorem round_robin_first_slots : ¬ RoundRobin 2 3 1 ∧ RoundRobin 3 2 1 :=
  ⟨fun h => absurd ((round_robin_iff (by decide) (by decide) (by decide) (by decide)).mp h)
      (by decide),
    (round_robin_iff (by decide) (by decide) (by decide) (by decide)).mpr (by decide)⟩

/-- Two processes wait at level 0. The one in slot 0 is dispatched, a timer interrupt in the kernel
makes it yield, and the scan, which begins at slot 0 again, dispatches it again. -/
theorem round_robin_counterexample :
    ∃ s s₁ s₂, Fresh (twoAt 0 1 0) ∧ run Sys.step [.sched ()] (twoAt 0 1 0) = some s ∧
      Dispatches s () 0 0 ∧ s.step (.sched ()) = some s₁ ∧
      run Sys.step [.yield (), .sched ()] s₁ = some s₂ ∧ Dispatches s₂ () 0 0 ∧
      ¬ DispatchedIn 0 [.yield (), .sched ()] s₁ ∧ RunnableUntil 1 0 [.yield (), .sched ()] s₁ ∧
      ¬ DispatchedIn 1 [.yield (), .sched ()] s₁ := by
  refine ⟨_, _, _, twoAt_fresh (by decide), rfl, ⟨rfl, by decide, rfl, rfl⟩, rfl, rfl,
    ⟨rfl, by decide, rfl, rfl⟩, ?_, ⟨⟨rfl, rfl⟩, Or.inr fun t ht => ?_⟩, ?_⟩
  · rintro (⟨ha, -⟩ | ⟨t, ht, ⟨-, level, hpc, -⟩ | ⟨_, -, hd⟩⟩)
    · cases ha
    · obtain rfl := Option.some.inj ht
      cases hpc
    · exact hd
  · obtain rfl := Option.some.inj ht
    refine ⟨⟨rfl, rfl⟩, Or.inr fun u hu => ?_⟩
    obtain rfl := Option.some.inj hu
    exact ⟨rfl, rfl⟩
  · rintro (⟨ha, -⟩ | ⟨t, ht, ⟨-, level, hpc, -⟩ | ⟨_, -, hd⟩⟩)
    · cases ha
    · obtain rfl := Option.some.inj ht
      cases hpc
    · exact hd

end Pa2

end Xv6
