import Xv6.Sched.Proc

/-!
# The periodic boost

`clockintr` of `kernel/trap.c`: hart `0` counts the ticks, wakes the processes that sleep until a
tick, and calls `global_boost` at every multiple of 128.

`global_boost` lifts only the processes that it finds runnable. The processes that run at that
moment, the one that was interrupted among them, and those that sleep on anything but the ticks
keep their levels and their counters. So the boost reaches everybody only if they have nothing to
gain (`clockintr_boosts_iff`).
-/

namespace Xv6

namespace Sched

/-- One hart, the process table, and the count of ticks. -/
structure Timed where
  sys : Sys
  /-- `uint ticks` -/
  ticks : ℕ

/-- `clockintr` on hart `cpuid`; `tickChan` is the address `&ticks`, on which `sys_pause` sleeps. -/
def clockintr (tickChan cpuid : ℕ) (s : Timed) : Timed :=
  if cpuid = 0 then
    let ticks := (s.ticks + 1) % 2 ^ 32
    let woken : Sys := { s.sys with procs := fun q =>
      if q < nproc ∧ s.sys.myproc ≠ some q then (s.sys.procs q).wakeup tickChan else s.sys.procs q }
    let sys := if ticks % 128 = 0 then
      { woken with procs := fun q =>
        if q < nproc then (woken.procs q).boosted else woken.procs q } else woken
    ⟨sys, ticks⟩
  else s

/-- The steps of the system that a clock interrupt on hart `0` makes. -/
theorem run_clockintr (tickChan : ℕ) (s : Timed) :
    Transition.run Sys.step
      (.wakeup tickChan :: if (s.ticks + 1) % 2 ^ 32 % 128 = 0 then [.boost] else []) s.sys
      = some (clockintr tickChan 0 s).sys := by
  simp only [clockintr, if_pos]
  split <;> rfl

/-- The process competes for the hart, or will. -/
def Proc.Live (p : Proc) : Prop := p.state = .runnable ∨ p.state = .running ∨ p.state = .sleeping

/-- The process is at the top, with its whole slice before it. -/
def Proc.AtTop (p : Proc) : Prop := p.curQLevel = 0 ∧ p.ticksAtCurLevel = 0

/-- The boost goes past the process of slot `q`: it runs, or it sleeps and a tick does not wake
it. -/
def Missed (tickChan : ℕ) (s : Sys) (q : ℕ) : Prop :=
  (s.procs q).state = .running ∨
    (s.procs q).state = .sleeping ∧ (s.myproc = some q ∨ (s.procs q).chan ≠ tickChan)

theorem Proc.boosted_of_runnable {p : Proc} (h : p.state = .runnable) : p.boosted.AtTop := by
  rw [boosted, if_pos h]
  exact ⟨rfl, rfl⟩

theorem Proc.boosted_of_ne {p : Proc} (h : p.state ≠ .runnable) : p.boosted = p := if_neg h

/-- The process of a slot after the tick has woken those that wait for it. -/
def afterWakeup (tickChan : ℕ) (s : Sys) (q : ℕ) : Proc :=
  if s.myproc ≠ some q then (s.procs q).wakeup tickChan else s.procs q

/-- What a boosting interrupt makes of one process. -/
theorem clockintr_procs {tickChan : ℕ} {s : Timed} (h : (clockintr tickChan 0 s).ticks % 128 = 0)
    {q : ℕ} (hq : q < nproc) :
    (clockintr tickChan 0 s).sys.procs q = (afterWakeup tickChan s.sys q).boosted := by
  have h' : (s.ticks + 1) % 2 ^ 32 % 128 = 0 := h
  simp only [clockintr, afterWakeup, if_pos, h', hq, true_and]

section

variable {tickChan q : ℕ} {s : Sys}

/-- A process that the boost goes past is not woken either. -/
theorem Missed.afterWakeup (h : Missed tickChan s q) : afterWakeup tickChan s q = s.procs q := by
  rw [Sched.afterWakeup]
  split
  · rename_i hmy
    refine if_neg fun hw => ?_
    rcases h with hr | ⟨-, hr | hr⟩
    · rw [hr] at hw
      cases hw.1
    · exact hmy hr
    · exact hr hw.2
  · rfl

/-- The others are found runnable, or do not compete for a hart. -/
theorem afterWakeup_of_not_missed (h : ¬ Missed tickChan s q)
    (hl : (afterWakeup tickChan s q).Live) : (afterWakeup tickChan s q).state = .runnable := by
  have hrun : (s.procs q).state ≠ .running := fun hr => h (Or.inl hr)
  have hwake : (s.procs q).state = .sleeping → s.myproc ≠ some q ∧ (s.procs q).chan = tickChan :=
    fun hs => ⟨fun hmy => h (Or.inr ⟨hs, Or.inl hmy⟩),
      by_contra fun hc => h (Or.inr ⟨hs, Or.inr hc⟩)⟩
  rw [afterWakeup] at hl ⊢
  by_cases hs : (s.procs q).state = .sleeping
  · rw [if_pos (hwake hs).1, Proc.wakeup, if_pos ⟨hs, (hwake hs).2⟩]
  · have hsame : (s.procs q).wakeup tickChan = s.procs q := if_neg fun hc => hs hc.1
    rw [hsame, ite_self] at hl ⊢
    exact hl.resolve_right fun hc => hc.elim hrun hs

end

/-- **The boost** reaches every process that competes for a hart exactly if those that it goes past
are at the top already. -/
theorem clockintr_boosts_iff (tickChan : ℕ) (s : Timed)
    (h : (clockintr tickChan 0 s).ticks % 128 = 0) :
    (∀ q < nproc, ((clockintr tickChan 0 s).sys.procs q).Live →
      ((clockintr tickChan 0 s).sys.procs q).AtTop) ↔
    ∀ q < nproc, Missed tickChan s.sys q → (s.sys.procs q).AtTop := by
  refine forall₂_congr fun q hq => ?_
  rw [clockintr_procs h hq]
  by_cases hm : Missed tickChan s.sys q
  · have hne : (s.sys.procs q).state ≠ .runnable := by
      rcases hm with hs | ⟨hs, -⟩ <;> rw [hs] <;> decide
    rw [hm.afterWakeup, Proc.boosted_of_ne hne]
    exact imp_congr_left (iff_of_true (Or.inr (hm.imp_right And.left)) hm)
  · refine iff_of_true (fun hl => ?_) fun hm' => absurd hm' hm
    by_cases hr : (afterWakeup tickChan s.sys q).state = .runnable
    · exact Proc.boosted_of_runnable hr
    · rw [Proc.boosted_of_ne hr] at hl
      exact absurd (afterWakeup_of_not_missed hm hl) hr

/-- A process at level `2` is interrupted by tick 128, and a second one waits at level `3`. -/
def boostTable : Timed where
  sys :=
    { procs := fun q =>
        ⟨if q = 0 then .running else if q = 1 then .runnable else .unused, 0, 0,
          if q = 0 then 2 else 3, 1, fun _ => 0, 0, 0⟩
      pc := .running 2 0 }
  ticks := 127

/-- The one that waits is lifted to the top, the one that runs is not. -/
theorem clockintr_boosts_counterexample :
    (clockintr 1 0 boostTable).ticks % 128 = 0 ∧
      ((clockintr 1 0 boostTable).sys.procs 1).AtTop ∧
      ((clockintr 1 0 boostTable).sys.procs 0).Live ∧
      ¬ ((clockintr 1 0 boostTable).sys.procs 0).AtTop := by
  refine ⟨by decide, ⟨by decide, by decide⟩, Or.inr (Or.inl (by decide)), fun h => ?_⟩
  exact absurd h.1 (by decide)

/-- The hart is in `scheduler`, and every process waits at level `3`. -/
def waitingTable : Timed where
  sys := { procs := fun _ => ⟨.runnable, 0, 0, 3, 1, fun _ => 0, 0, 0⟩, pc := .top }
  ticks := 127

theorem clockintr_boosts_waitingTable :
    (clockintr 1 0 waitingTable).ticks % 128 = 0 ∧
      ∀ q < nproc, ((clockintr 1 0 waitingTable).sys.procs q).AtTop := by
  refine ⟨by decide, fun q hq => (clockintr_boosts_iff 1 waitingTable (by decide)).mpr ?_ q hq ?_⟩
  · rintro q - (hs | ⟨hs, -⟩) <;> cases hs
  · rw [clockintr_procs (by decide) hq]
    exact Or.inl rfl

end Sched

end Xv6
