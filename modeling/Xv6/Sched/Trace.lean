import Mathlib.Algebra.Order.Ring.Int
import Mathlib.Data.List.Infix
import Mathlib.Tactic.IntervalCases
import Xv6.Sched.Proc

/-!
# What the counters of a process mean

`mlfq_tick`, the dispatch of `scheduler`, `syscall` and `global_boost` update three counters of a
process, `ticks_at_cur_level`, `total_syscalls` and `temp`. The specification has no counters. It
reads the level off the history of the process: the events since the last *slice start*, that is
since the creation, a boost, or a tick that used up the quantum.

`Agrees` relates the two, one lemma per event; `mlfq_refines_trace` is the result about whole
histories.

## Interactive processes

The documentation of the scheduler promises that a process with at least as many system calls as
ticks is not demoted. The counters lose the system calls made before a boost, and before a dispatch
that finds no tick in the slice: `demoted_counterexample` is a process that makes a system call
between any two ticks and is demoted. It is safe if it makes a call *after* the last such event
before each tick (`interactive_not_demoted`).

## Main results

* `mlfq_refines_trace`
* `interactive_not_demoted`, `demoted_counterexample`
-/

namespace Xv6

namespace Sched

/-! ### The specification -/

/-- The quantum of a level, in ticks. -/
def q (level : ℕ) : ℕ := 2 ^ (level + 1)

/-- The ticks among the events of a slice. -/
def ticks (slice : List Event) : ℕ := slice.count .tick

/-- The system calls among the events of a slice since its start, or since the last dispatch before
its first tick if that is later. -/
def calls : List Event → ℕ
  | [] => 0
  | .syscall :: slice => calls slice + 1
  | .dispatch :: slice => if ticks slice = 0 then 0 else calls slice
  | _ :: slice => calls slice

/-- What the specification knows of a history: the level, and the events since the last slice
start. -/
structure View where
  level : ℕ
  slice : List Event

/-- A tick now would use up the quantum. -/
def View.LastTick (v : View) : Prop := ticks v.slice + 1 = q v.level

/-- A tick now would be one of a slice with too few system calls. -/
def View.Demotes (v : View) : Prop := v.level < 3 ∧ v.LastTick ∧ calls v.slice < q v.level

instance (v : View) : Decidable v.LastTick := inferInstanceAs (Decidable (_ = _))
instance (v : View) : Decidable v.Demotes := inferInstanceAs (Decidable (_ ∧ _ ∧ _))

/-- One event more. -/
def View.observe (v : View) : Event → View
  | .boost => ⟨0, []⟩
  | .tick => ⟨if v.Demotes then v.level + 1 else v.level,
      if v.LastTick then [] else .tick :: v.slice⟩
  | e => ⟨v.level, e :: v.slice⟩

/-- The view of a history, which lists the events from the latest to the first. -/
def view : List Event → View
  | [] => ⟨0, []⟩
  | e :: h => (view h).observe e

/-- The ticks of a history that were taken at a level. -/
def ticksAt (level : ℕ) : List Event → ℕ
  | [] => 0
  | .tick :: h => ticksAt level h + if (view h).level = level then 1 else 0
  | _ :: h => ticksAt level h

/-! ### Small facts about the specification -/

theorem quantum_eq {level : ℕ} (h : level ≤ 3) : quantum level = q level := by
  interval_cases level <;> rfl

theorem q_le {level : ℕ} (h : level ≤ 3) : q level ≤ 16 := by
  interval_cases level <;> decide

theorem q_pos (level : ℕ) : 0 < q level := Nat.pow_pos (by omega)

/-- The events of a slice are events of the history. -/
theorem calls_slice_le (h : List Event) : calls (view h).slice ≤ h.length := by
  have hle : ∀ slice, calls slice ≤ slice.length := by
    intro slice
    induction slice with
    | nil => exact Nat.le_refl _
    | cons e slice ih =>
      cases e <;> simp only [calls, List.length_cons] <;> first | omega | (split <;> omega)
  refine (hle _).trans ?_
  induction h with
  | nil => exact Nat.le_refl _
  | cons e h ih =>
    cases e <;> simp only [view, View.observe, List.length_cons, List.length_nil] <;>
      first | omega | ((split <;> simp); omega)

theorem ticksAt_le (level : ℕ) (h : List Event) : ticksAt level h ≤ h.length := by
  induction h with
  | nil => exact Nat.le_refl _
  | cons e h ih =>
    cases e <;> simp only [ticksAt, List.length_cons] <;> first | omega | (split <;> omega)

/-! ### The counters agree with the specification -/

/-- The counters of a process say what its history does. The counts that grow without bound wrap
around. -/
structure Agrees (p : Proc) (h : List Event) : Prop where
  level : p.curQLevel = (view h).level
  level_le : (view h).level ≤ 3
  ticks : p.ticksAtCurLevel = ticks (view h).slice
  ticks_lt : Sched.ticks (view h).slice < q (view h).level
  total : p.totalSyscalls = int32 (h.count .syscall)
  temp : p.temp = int32 (h.count .syscall - calls (view h).slice)
  perLevel : ∀ l : ℕ, l ≤ 3 → p.ticksPerLevel l = int32 (ticksAt l h)

section

variable {p : Proc} {h : List Event}

/-- A process that has just been created. -/
theorem agrees_alloc (p : Proc) : Agrees p.alloc [] where
  level := rfl
  level_le := Nat.zero_le 3
  ticks := rfl
  ticks_lt := q_pos 0
  total := int32_zero.symm
  temp := int32_zero.symm
  perLevel l hl := (if_pos (by omega)).trans int32_zero.symm

/-- An event that none of the counters records. -/
theorem Agrees.idle (ha : Agrees p h) {e : Event} (state : ProcState) (chan : ℕ)
    (hview : view (e :: h) = ⟨(view h).level, e :: (view h).slice⟩)
    (hcalls : calls (e :: (view h).slice) = calls (view h).slice) (htick : e ≠ .tick)
    (hcall : e ≠ .syscall) (hat : ∀ l, ticksAt l (e :: h) = ticksAt l h) :
    Agrees { p with state := state, chan := chan } (e :: h) := by
  have hticks : Sched.ticks (e :: (view h).slice) = Sched.ticks (view h).slice := by
    rw [Sched.ticks, List.count_cons_of_ne htick, Sched.ticks]
  refine ⟨?_, ?_, ?_, ?_, ?_, ?_, fun l hl => ?_⟩
  · rw [hview]
    exact ha.level
  · rw [hview]
    exact ha.level_le
  · rw [hview, hticks]
    exact ha.ticks
  · rw [hview, hticks]
    exact ha.ticks_lt
  · rw [List.count_cons_of_ne hcall]
    exact ha.total
  · rw [hview, hcalls, List.count_cons_of_ne hcall]
    exact ha.temp
  · rw [hat]
    exact ha.perLevel l hl

theorem Agrees.dispatch (ha : Agrees p h) : Agrees p.dispatch (.dispatch :: h) where
  level := ha.level
  level_le := ha.level_le
  ticks := ha.ticks.trans (by simp [view, View.observe, Sched.ticks])
  ticks_lt := by simpa [view, View.observe, Sched.ticks] using ha.ticks_lt
  total := ha.total.trans (by simp)
  temp := by
    have hiff : p.ticksAtCurLevel = 0 ↔ Sched.ticks (view h).slice = 0 := by
      rw [ha.ticks]
      exact Int.natCast_eq_zero
    have hcount : (Event.dispatch :: h).count .syscall = h.count .syscall := by simp
    simp only [Proc.dispatch, view, View.observe, calls, hiff, hcount]
    split
    · simpa using ha.total
    · exact ha.temp
  perLevel l hl := ha.perLevel l hl

theorem Agrees.syscall (ha : Agrees p h) : Agrees p.syscall (.syscall :: h) := by
  have hcount : ((Event.syscall :: h).count .syscall : ℤ) = h.count .syscall + 1 := by
    rw [List.count_cons_self, Nat.cast_succ]
  refine ⟨ha.level, ha.level_le, ha.ticks.trans (by simp [view, View.observe, Sched.ticks]),
    by simpa [view, View.observe, Sched.ticks] using ha.ticks_lt, ?_, ?_, ha.perLevel⟩
  · rw [hcount, ← int32_add, ← ha.total]
    rfl
  · rw [hcount]
    refine ha.temp.trans (congrArg int32 ?_)
    simp only [view, View.observe, calls]
    omega

theorem Agrees.boost (ha : Agrees p h) (hp : p.state = .runnable) :
    Agrees p.boosted (.boost :: h) := by
  have hcount : (Event.boost :: h).count .syscall = h.count .syscall := by simp
  rw [Proc.boosted, if_pos hp]
  refine ⟨rfl, Nat.zero_le 3, rfl, q_pos 0, ?_, ?_, ha.perLevel⟩
  · rw [hcount]
    exact ha.total
  · rw [hcount]
    simpa [view, View.observe, calls] using ha.total

/-- The counters after a tick, before the quantum is looked at. -/
theorem Agrees.countTick (ha : Agrees p h) :
    p.countTick.ticksAtCurLevel = Sched.ticks (view h).slice + 1 ∧
      ∀ l : ℕ, l ≤ 3 → p.countTick.ticksPerLevel l = int32 (ticksAt l (.tick :: h)) := by
  have hq := ha.ticks_lt
  have hq' := q_le ha.level_le
  refine ⟨?_, fun l hl => ?_⟩
  · simp only [Proc.countTick, ha.ticks]
    exact int32_of_mem (by omega) (by omega)
  · simp only [Proc.countTick, ticksAt, ha.level]
    by_cases hll : (view h).level = l
    · rw [hll, Function.update_self, ha.perLevel l hl, if_pos rfl, int32_add, Nat.cast_succ]
    · rw [Function.update_of_ne (fun he => hll (by exact_mod_cast he.symm)), if_neg hll]
      exact ha.perLevel l hl

/-- The demotion rule of the code is that of the specification, as long as the system calls of the
slice can be counted. -/
theorem Agrees.demotes_iff (ha : Agrees p h) (hcalls : calls (view h).slice < 2 ^ 31)
    (hlast : (view h).LastTick) :
    (int32 (p.countTick.totalSyscalls - p.countTick.temp) < p.countTick.ticksAtCurLevel ∧
      p.countTick.curQLevel < 3) ↔ (view h).Demotes := by
  have hdelta : int32 (p.countTick.totalSyscalls - p.countTick.temp) = calls (view h).slice := by
    have : int32 (p.totalSyscalls - p.temp) = int32 (calls (view h).slice) := by
      rw [ha.total, ha.temp, int32_sub]
      exact congrArg int32 (by omega)
    refine Eq.trans this ?_
    exact int32_of_mem (by omega) (by omega)
  have hlevel : p.countTick.curQLevel = (view h).level := ha.level
  have hlast' : Sched.ticks (view h).slice + 1 = q (view h).level := hlast
  rw [hdelta, ha.countTick.1, hlevel, View.Demotes]
  constructor
  · rintro ⟨h1, h2⟩
    exact ⟨by omega, hlast, by omega⟩
  · rintro ⟨h1, -, h3⟩
    omega

theorem Agrees.tick (ha : Agrees p h) (hcalls : calls (view h).slice < 2 ^ 31) (state : ProcState) :
    Agrees { p.mlfqTick with state := state } (.tick :: h) := by
  obtain ⟨hticks, hper⟩ := ha.countTick
  have hlevel : p.countTick.curQLevel = (view h).level := ha.level
  have hquant : quantum p.countTick.curQLevel = q (view h).level := by
    rw [hlevel, quantum_eq ha.level_le]
  have hlt := ha.ticks_lt
  have hle := ha.level_le
  have hcount : (Event.tick :: h).count .syscall = h.count .syscall := by simp
  rw [Proc.mlfqTick]
  by_cases hlast : (view h).LastTick
  · have hlast' : Sched.ticks (view h).slice + 1 = q (view h).level := hlast
    have hrule := ha.demotes_iff hcalls hlast
    have hnew : int32 (p.countTick.curQLevel + 1) = (view h).level + 1 := by
      rw [hlevel]
      exact int32_of_mem (by omega) (by omega)
    rw [if_pos (by rw [hquant, hticks]; omega)]
    refine ⟨?_, ?_, ?_, ?_, ?_, ?_, hper⟩
    · simp only [Proc.endSlice, view, View.observe]
      by_cases hd : (view h).Demotes
      · rw [if_pos (hrule.mpr hd), if_pos hd, hnew, Nat.cast_succ]
      · rw [if_neg fun hc => hd (hrule.mp hc), if_neg hd, hlevel]
    · simp only [view, View.observe]
      split
      · have : (view h).Demotes := ‹_›
        exact this.1
      · exact hle
    · simp [Proc.endSlice, view, View.observe, hlast, Sched.ticks]
    · simp only [view, View.observe, hlast, if_true]
      exact q_pos _
    · rw [hcount]
      exact ha.total
    · rw [hcount]
      simp only [view, View.observe, hlast, if_true, calls, Nat.cast_zero, sub_zero]
      exact ha.total
  · have hlast' : Sched.ticks (view h).slice + 1 ≠ q (view h).level := hlast
    have hno : ¬ (view h).Demotes := fun hd => hlast hd.2.1
    rw [if_neg (by rw [hquant, hticks]; omega)]
    refine ⟨?_, ?_, ?_, ?_, ?_, ?_, hper⟩
    · simp only [view, View.observe, hno, if_false]
      exact hlevel
    · simp only [view, View.observe, hno, if_false]
      exact hle
    · simp only [view, View.observe, hlast, if_false]
      rw [hticks]
      simp [Sched.ticks]
    · simp only [view, View.observe, hlast, hno, if_false]
      rw [Sched.ticks, List.count_cons_self]
      rw [Sched.ticks] at hlast' hlt
      omega
    · rw [hcount]
      exact ha.total
    · rw [hcount]
      simp only [view, View.observe, hlast, if_false, calls]
      exact ha.temp

/-- **One event.** -/
theorem Agrees.step (ha : Agrees p h) {e : Event} {p' : Proc}
    (hcalls : e = .tick → calls (view h).slice < 2 ^ 31) (hstep : p.step e = some p') :
    Agrees p' (e :: h) := by
  cases e <;> simp only [Proc.step, Option.ite_none_right_eq_some, Option.some.injEq] at hstep <;>
    obtain ⟨hp, rfl⟩ := hstep
  case dispatch => exact ha.dispatch
  case syscall => exact ha.syscall
  case tick => exact ha.tick (hcalls rfl) _
  case boost => exact ha.boost hp
  all_goals exact ha.idle _ _ rfl rfl (by simp) (by simp) fun _ => rfl

/-- No slice of the history before a tick has more system calls than an `int` can count. -/
def Countable (h : List Event) : Prop :=
  ∀ pre, .tick :: pre <:+ h → calls (view pre).slice < 2 ^ 31

theorem Countable.of_cons {e : Event} (hc : Countable (e :: h)) : Countable h := fun pre hpre =>
  hc pre (hpre.trans (List.suffix_cons e h))

theorem countable_of_length (hlen : h.length < 2 ^ 31) : Countable h := fun pre hpre => by
  have := hpre.length_le
  have := calls_slice_le pre
  rw [List.length_cons] at *
  omega

/-- **Whole histories.** -/
theorem agrees_after (p₀ : Proc) (hc : Countable h) (hp : p₀.alloc.after h = some p) :
    Agrees p h := by
  induction h generalizing p with
  | nil =>
    obtain rfl := Option.some.inj hp
    exact agrees_alloc p₀
  | cons e h ih =>
    obtain ⟨m, hm, hstep⟩ := Proc.after_cons_eq_some.mp hp
    refine (ih hc.of_cons hm).step (fun he => hc h ?_) hstep
    rw [he]

end

/-- **The counters refine the trace specification.** For every history of fewer than `2 ^ 31` events
after the creation: the level and the ticks of the slice are in range, the ticks of each level are
those of the history, the level is that of the specification; only a boost lowers it; and a tick
raises it exactly if the level is below 3, the tick is the last of the quantum, and the slice has
fewer system calls than the quantum has ticks. -/
theorem mlfq_refines_trace (p₀ : Proc) {h : List Event} {p : Proc} (hlen : h.length < 2 ^ 31)
    (hp : p₀.alloc.after h = some p) :
    (0 ≤ p.curQLevel ∧ p.curQLevel ≤ 3) ∧
    (0 ≤ p.ticksAtCurLevel ∧ p.ticksAtCurLevel < quantum p.curQLevel) ∧
    (∀ l : ℕ, l ≤ 3 → p.ticksPerLevel l = ticksAt l h) ∧
    p.curQLevel = (view h).level ∧
    ∀ e p', p.step e = some p' →
      (p'.curQLevel < p.curQLevel → e = .boost) ∧ (p.curQLevel < p'.curQLevel → e = .tick) ∧
      (e = .tick → p'.curQLevel =
        if p.curQLevel < 3 ∧ (ticks (view h).slice + 1 : ℤ) = quantum p.curQLevel ∧
            (calls (view h).slice : ℤ) < quantum p.curQLevel
        then p.curQLevel + 1 else p.curQLevel) := by
  have ha := agrees_after p₀ (countable_of_length hlen) hp
  have hquant : quantum p.curQLevel = q (view h).level := by
    rw [ha.level, quantum_eq ha.level_le]
  have hle := ha.level_le
  have hlt := ha.ticks_lt
  have hcalls := calls_slice_le h
  refine ⟨⟨by rw [ha.level]; omega, by rw [ha.level]; omega⟩, ⟨by rw [ha.ticks]; omega, ?_⟩,
    fun l hl => ?_, ha.level, fun e p' hstep => ?_⟩
  · rw [ha.ticks, hquant]
    exact_mod_cast hlt
  · have := ticksAt_le l h
    rw [ha.perLevel l hl]
    exact int32_of_mem (by omega) (by omega)
  · have hnew := (ha.step (fun _ => by omega) hstep).level
    rw [view] at hnew
    have hdem : (view h).Demotes ↔ p.curQLevel < 3 ∧
        (ticks (view h).slice + 1 : ℤ) = quantum p.curQLevel ∧
        (calls (view h).slice : ℤ) < quantum p.curQLevel := by
      rw [hquant, ha.level, View.Demotes, View.LastTick]
      omega
    refine ⟨fun hlower => ?_, fun hraise => ?_, fun he => ?_⟩
    · rw [hnew, ha.level] at hlower
      cases e with
      | boost => rfl
      | tick =>
        simp only [View.observe] at hlower
        split at hlower <;> omega
      | _ => exact absurd hlower (lt_irrefl _)
    · rw [hnew, ha.level] at hraise
      cases e with
      | tick => rfl
      | boost =>
        simp only [View.observe] at hraise
        omega
      | _ => exact absurd hraise (lt_irrefl _)
    · rw [he] at hnew
      simp only [View.observe] at hnew
      by_cases hd : (view h).Demotes
      · rw [if_pos (hdem.mp hd), hnew, if_pos hd, ha.level, Nat.cast_succ]
      · rw [if_neg fun hc => hd (hdem.mpr hc), hnew, if_neg hd, ha.level]

/-- A slot of the process table that was never used. -/
def freshProc : Proc := ⟨.unused, 0, 0, 0, 0, fun _ => 0, 0, 0⟩

/-- A process without system calls is demoted by its second tick. -/
theorem mlfq_refines_trace_two_ticks :
    ∃ p, freshProc.alloc.after [.tick, .dispatch, .tick, .dispatch, .start] = some p ∧
      p.curQLevel = 1 ∧ p.curQLevel ≤ 3 ∧ p.ticksPerLevel 0
        = ticksAt 0 [.tick, .dispatch, .tick, .dispatch, .start] := by
  have hlevel : (freshProc.alloc.after [.tick, .dispatch, .tick, .dispatch, .start]).map
      Proc.curQLevel = some 1 := by
    decide +kernel
  obtain ⟨p, hp, h1⟩ := Option.map_eq_some_iff.mp hlevel
  have h := mlfq_refines_trace freshProc (by decide) hp
  exact ⟨p, hp, h1, h.1.2, h.2.2.1 0 (by decide)⟩

/-! ### Interactive processes -/

/-- The process makes a system call before its first tick and between any two ticks. -/
def Interactive (h : List Event) : Prop :=
  ∀ pre, .tick :: pre <:+ h → .syscall ∈ pre.takeWhile (· ≠ .tick)

/-- The system calls since the last tick, boost, or dispatch that found no tick in the slice. -/
def recent : List Event → ℕ
  | [] => 0
  | .tick :: _ => 0
  | .boost :: _ => 0
  | .dispatch :: h => if ticks (view h).slice = 0 then 0 else recent h
  | .syscall :: h => recent h + 1
  | _ :: h => recent h

/-- Before each tick the process makes a system call that the counters do not lose. -/
def Engaged (h : List Event) : Prop :=
  ∀ pre, .tick :: pre <:+ h → 0 < recent pre ∧ calls (view pre).slice < 2 ^ 31

theorem Engaged.of_suffix {h h' : List Event} (hC : Engaged h) (hs : h' <:+ h) : Engaged h' :=
  fun pre hpre => hC pre (hpre.trans hs)

/-- There is a system call for every tick of the slice, besides the recent ones. -/
theorem Engaged.ticks_le {h : List Event} (hC : Engaged h) :
    ticks (view h).slice + recent h ≤ calls (view h).slice := by
  induction h with
  | nil => exact Nat.le_refl _
  | cons e h ih =>
    have := ih (hC.of_suffix (List.suffix_cons e h))
    cases e with
    | tick =>
      have hpos := (hC h (List.suffix_refl _)).1
      simp only [view, View.observe, recent]
      split
      · exact Nat.le_refl _
      · simp only [ticks, List.count_cons_self, calls] at this ⊢
        omega
    | boost => exact Nat.le_refl _
    | dispatch =>
      simp only [view, View.observe, recent, calls]
      split
      · simpa [ticks] using ‹ticks (view h).slice = 0›
      · simpa [ticks] using this
    | syscall =>
      simp only [view, View.observe, recent, calls]
      simp only [ticks, List.count_cons] at this ⊢
      simp only [beq_iff_eq, reduceCtorEq, if_false]
      omega
    | _ => simpa [view, View.observe, recent, calls, ticks] using this

/-- **An engaged process is never demoted.** In every run in which, before each tick of the process,
it makes a system call after the last boost and after the last dispatch that found no tick in the
slice, no tick raises its level. -/
theorem interactive_not_demoted (p₀ : Proc) {h : List Event} (hC : Engaged h) :
    ∀ pre p p', .tick :: pre <:+ h → p₀.alloc.after pre = some p → p.step .tick = some p' →
      p'.curQLevel ≤ p.curQLevel := by
  intro pre p p' hpre hp hstep
  have hpre' : pre <:+ h := (List.suffix_cons _ _).trans hpre
  have hcount : Countable pre := fun pre' hs => (hC pre' (hs.trans hpre')).2
  have ha := agrees_after p₀ hcount hp
  have hnew := (ha.step (fun _ => (hC pre hpre).2) hstep).level
  have hpos := (hC pre hpre).1
  have hle := (hC.of_suffix hpre').ticks_le
  have hno : ¬ (view pre).Demotes := by
    rintro ⟨-, hlast, hlt⟩
    rw [View.LastTick] at hlast
    omega
  rw [hnew, ha.level, view, View.observe, if_neg hno]

/-- Two ticks, with a system call before each that comes after the dispatch. -/
theorem interactive_not_demoted_two_ticks :
    Engaged [.tick, .syscall, .dispatch, .tick, .syscall, .dispatch, .start] ∧
    ∃ p p',
      freshProc.alloc.after [.syscall, .dispatch, .tick, .syscall, .dispatch, .start] = some p ∧
      p.step .tick = some p' ∧ p'.curQLevel ≤ p.curQLevel := by
  have hC : Engaged [.tick, .syscall, .dispatch, .tick, .syscall, .dispatch, .start] := by
    intro pre hpre
    have hall : ∀ t ∈ [Event.tick, .syscall, .dispatch, .tick, .syscall, .dispatch, .start].tails,
        t.head? = some .tick → 0 < recent t.tail ∧ calls (view t.tail).slice < 2 ^ 31 := by
      decide
    exact hall (.tick :: pre) (List.mem_tails _ _ |>.mpr hpre) rfl
  have hrun :
      ((freshProc.alloc.after [.syscall, .dispatch, .tick, .syscall, .dispatch, .start]).bind
        (Proc.step · .tick)).isSome := by
    decide +kernel
  obtain ⟨p', hp'⟩ := Option.isSome_iff_exists.mp hrun
  obtain ⟨p, hp, hstep⟩ := Option.bind_eq_some_iff.mp hp'
  exact ⟨hC, p, p', hp, hstep, interactive_not_demoted freshProc hC _ p p' (List.suffix_refl _) hp
    hstep⟩

/-- The process makes its first system call, which sleeps; it is dispatched again before its first
tick, and that call is lost. Its second tick demotes it although it made a call before each. -/
theorem demoted_counterexample :
    Interactive [.tick, .syscall, .dispatch, .tick, .dispatch, .wakeup, .sleep 1, .syscall,
      .dispatch, .start] ∧
    ∃ p p', freshProc.alloc.after [.syscall, .dispatch, .tick, .dispatch, .wakeup, .sleep 1,
        .syscall, .dispatch, .start] = some p ∧
      p.step .tick = some p' ∧ p.curQLevel = 0 ∧ p'.curQLevel = 1 := by
  refine ⟨fun pre hpre => ?_, ?_⟩
  · have hall : ∀ t ∈ [Event.tick, .syscall, .dispatch, .tick, .dispatch, .wakeup, .sleep 1,
        .syscall, .dispatch, .start].tails, t.head? = some .tick →
        .syscall ∈ t.tail.takeWhile (· ≠ .tick) := by
      decide
    exact hall (.tick :: pre) (List.mem_tails _ _ |>.mpr hpre) rfl
  · have hrun : ((freshProc.alloc.after [.syscall, .dispatch, .tick, .dispatch, .wakeup, .sleep 1,
        .syscall, .dispatch, .start]).bind fun p => (p.step .tick).map fun p' =>
          (p.curQLevel, p'.curQLevel)) = some (0, 1) := by
      decide +kernel
    obtain ⟨p, hp, hmap⟩ := Option.bind_eq_some_iff.mp hrun
    obtain ⟨p', hstep, hpair⟩ := Option.map_eq_some_iff.mp hmap
    exact ⟨p, p', hp, hstep, congrArg Prod.fst hpair, congrArg Prod.snd hpair⟩

end Sched

end Xv6
