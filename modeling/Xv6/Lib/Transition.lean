import Mathlib.Logic.Function.Basic

/-!
# Runs of a partial step function

A system is a step function `S → A → Option S`: an action that is not enabled gives `none`. A run
is a list of actions all of which are enabled.

Many facts hold only along runs whose steps meet a side condition on the action and on the state
before it. `Meets` says that of a run, and `run_invariant` is the induction: what one step that
meets the condition keeps, every such run keeps.
-/

namespace Transition

variable {S A : Type*} (step : S → A → Option S)

/-- The state a run reaches; `none` when one of its actions is not enabled. -/
def run : List A → S → Option S
  | [], s => some s
  | a :: as, s => (step s a).bind (run as)

/-- Every step of the run meets the condition `C` in the state before it. -/
def Meets (C : S → A → Prop) : List A → S → Prop
  | [], _ => True
  | a :: as, s => C s a ∧ ∀ s', step s a = some s' → Meets C as s'

variable {step}

theorem run_cons_eq_some {a : A} {as : List A} {s s' : S} :
    run step (a :: as) s = some s' ↔ ∃ m, step s a = some m ∧ run step as m = some s' :=
  Option.bind_eq_some_iff

theorem run_append (as bs : List A) (s : S) :
    run step (as ++ bs) s = (run step as s).bind (run step bs) := by
  induction as generalizing s with
  | nil => rfl
  | cons a as ih =>
    rw [List.cons_append, run, run, Option.bind_assoc]
    exact congrArg _ (funext ih)

/-- **Induction over runs.** -/
theorem run_invariant {C : S → A → Prop} {P : S → Prop}
    (hstep : ∀ s a s', P s → C s a → step s a = some s' → P s') {as : List A} {s s' : S}
    (hs : P s) (hC : Meets step C as s) (h : run step as s = some s') : P s' := by
  induction as generalizing s with
  | nil =>
    obtain rfl : s = s' := Option.some.inj h
    exact hs
  | cons a as ih =>
    obtain ⟨m, hm, hr⟩ := run_cons_eq_some.mp h
    exact ih (hstep s a m hs hC.1 hm) (hC.2 m hm) hr

/-- **Exact conditions.** If a step that meets `D` reaches `P` exactly from `P` by meeting the
condition, a run whose steps all meet `D` does. `W` is what the argument needs to know of the
states. -/
theorem run_iff_meets_of {C D : S → A → Prop} {P W : S → Prop}
    (hkeep : ∀ s a s', W s → D s a → step s a = some s' → W s')
    (hstep : ∀ s a s', W s → D s a → step s a = some s' → (P s' ↔ P s ∧ C s a)) {as : List A}
    {s s' : S} (hs : W s) (hD : Meets step D as s) (h : run step as s = some s') :
    P s' ↔ P s ∧ Meets step C as s := by
  induction as generalizing s with
  | nil =>
    obtain rfl : s = s' := Option.some.inj h
    exact (and_iff_left trivial).symm
  | cons a as ih =>
    obtain ⟨m, hm, hr⟩ := run_cons_eq_some.mp h
    rw [ih (hkeep s a m hs hD.1 hm) (hD.2 m hm) hr, hstep s a m hs hD.1 hm, and_assoc, Meets]
    refine and_congr_right fun _ => and_congr_right fun _ => ⟨fun hmeets m' hm' => ?_, fun hmeets =>
      hmeets m hm⟩
    obtain rfl : m = m' := Option.some.inj (hm.symm.trans hm')
    exact hmeets

/-- A condition that follows from another one in the states of the run. -/
theorem Meets.imp {C C' : S → A → Prop} {W : S → Prop}
    (hkeep : ∀ s a s', W s → step s a = some s' → W s') (himp : ∀ s a, W s → C s a → C' s a)
    {as : List A} {s : S} (hs : W s) (h : Meets step C as s) : Meets step C' as s := by
  induction as generalizing s with
  | nil => trivial
  | cons a as ih => exact ⟨himp s a hs h.1, fun m hm => ih (hkeep s a m hs hm) (h.2 m hm)⟩

/-- A condition that holds of an action in every state. -/
theorem meets_of_forall {C : S → A → Prop} {as : List A} (h : ∀ a ∈ as, ∀ s, C s a) (s : S) :
    Meets step C as s := by
  induction as generalizing s with
  | nil => trivial
  | cons a as ih =>
    exact ⟨h a List.mem_cons_self s,
      fun s' _ => ih (fun b hb => h b (List.mem_cons_of_mem a hb)) s'⟩

/-- The condition that asks nothing is met by every run. -/
theorem meets_true (as : List A) (s : S) : Meets step (fun _ _ => True) as s :=
  meets_of_forall (fun _ _ _ => trivial) s

/-- Exact conditions on every run. -/
theorem run_iff_meets {C : S → A → Prop} {P W : S → Prop}
    (hkeep : ∀ s a s', W s → step s a = some s' → W s')
    (hstep : ∀ s a s', W s → step s a = some s' → (P s' ↔ P s ∧ C s a)) {as : List A} {s s' : S}
    (hs : W s) (h : run step as s = some s') : P s' ↔ P s ∧ Meets step C as s :=
  run_iff_meets_of (fun s a s' hw _ => hkeep s a s' hw) (fun s a s' hw _ => hstep s a s' hw) hs
    (meets_true as s) h

/-- A run can be checked against a decidable condition. -/
instance decidableMeets {C : S → A → Prop} [∀ s a, Decidable (C s a)] :
    ∀ (as : List A) (s : S), Decidable (Meets step C as s)
  | [], _ => isTrue trivial
  | a :: as, s =>
    haveI : ∀ s', Decidable (Meets step C as s') := decidableMeets as
    inferInstanceAs (Decidable (C s a ∧ ∀ s' ∈ step s a, Meets step C as s'))

/-- The end of a run can be checked against a decidable property. -/
instance decidableRun {P : S → Prop} [DecidablePred P] (as : List A) (s : S) :
    Decidable (∃ s', run step as s = some s' ∧ P s') :=
  inferInstanceAs (Decidable (∃ s' ∈ run step as s, P s'))

theorem meets_append {C : S → A → Prop} {as bs : List A} {s : S} :
    Meets step C (as ++ bs) s ↔
      Meets step C as s ∧ ∀ s', run step as s = some s' → Meets step C bs s' := by
  induction as generalizing s with
  | nil => exact ⟨fun h => ⟨trivial, fun s' hs => Option.some.inj hs ▸ h⟩, fun h => h.2 s rfl⟩
  | cons a as ih =>
    constructor
    · rintro ⟨ha, h⟩
      refine ⟨⟨ha, fun m hm => (ih.mp (h m hm)).1⟩, fun s' hs' => ?_⟩
      obtain ⟨m, hm, hr⟩ := run_cons_eq_some.mp hs'
      exact (ih.mp (h m hm)).2 s' hr
    · rintro ⟨⟨ha, h⟩, hbs⟩
      exact ⟨ha, fun m hm => ih.mpr ⟨h m hm,
        fun s' hr => hbs s' (run_cons_eq_some.mpr ⟨m, hm, hr⟩)⟩⟩

end Transition
