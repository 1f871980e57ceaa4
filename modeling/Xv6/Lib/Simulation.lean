import Xv6.Lib.Transition

/-!
# Simulation with observations

Two systems given by step functions, a concrete one and an abstract one, each of whose steps
shows a list of events. The abstract system simulates the concrete one when every concrete step
from related states is matched by some abstract run (empty, one step or several) that shows the
same events and ends in related states. One step is what is proved about a program;
`Simulates.run` carries it to whole runs, so that what an observer sees of a run of the concrete
system is something the abstract system can do as well.

What a step shows may depend on the state before it (a read shows the value it returns). Where it
depends on the action alone the events of a run are those of its actions (`trace_const`).

The side condition `C` is the one of `Transition.Meets`: what the environment of the concrete
system promises about its actions.
-/

namespace Transition

variable {S A T B E : Type*}

/-- What a run shows. -/
def trace (step : S → A → Option S) (obs : S → A → List E) : List A → S → List E
  | [], _ => []
  | a :: as, s => obs s a ++ (step s a).elim [] (trace step obs as)

/-- The events of a list of actions. -/
def events (obs : A → List E) (as : List A) : List E := as.flatMap obs

/-- Every step from related states that meets `C` is matched by an abstract run that shows the
same. -/
def Simulates (step : S → A → Option S) (astep : T → B → Option T) (obs : S → A → List E)
    (aobs : T → B → List E) (C : S → A → Prop) (R : S → T → Prop) : Prop :=
  ∀ s t a s', R s t → C s a → step s a = some s' →
    ∃ bs t', run astep bs t = some t' ∧ trace astep aobs bs t = obs s a ∧ R s' t'

variable {step : S → A → Option S} {astep : T → B → Option T} {obs : S → A → List E}
  {aobs : T → B → List E} {C : S → A → Prop} {R : S → T → Prop}

theorem trace_append {as bs : List A} {s m : S} (h : run step as s = some m) :
    trace step obs (as ++ bs) s = trace step obs as s ++ trace step obs bs m := by
  induction as generalizing s with
  | nil =>
    obtain rfl : s = m := Option.some.inj h
    rfl
  | cons a as ih =>
    obtain ⟨s', hs', hr⟩ := run_cons_eq_some.mp h
    rw [List.cons_append, trace, trace, hs', List.append_assoc]
    exact congrArg _ (ih hr)

theorem trace_const {f : A → List E} {as : List A} {s s' : S} (h : run step as s = some s') :
    trace step (fun _ => f) as s = events f as := by
  induction as generalizing s with
  | nil => rfl
  | cons a as ih =>
    obtain ⟨m, hm, hr⟩ := run_cons_eq_some.mp h
    rw [trace, hm]
    exact congrArg _ (ih hr)

/-- **Whole runs.** The abstract system can show what every concrete run shows. -/
theorem Simulates.run (h : Simulates step astep obs aobs C R) {as : List A} {s s' : S} {t : T}
    (hR : R s t) (hC : Meets step C as s) (hrun : run step as s = some s') :
    ∃ bs t', run astep bs t = some t' ∧ trace astep aobs bs t = trace step obs as s ∧
      R s' t' := by
  induction as generalizing s t with
  | nil =>
    obtain rfl : s = s' := Option.some.inj hrun
    exact ⟨[], t, rfl, rfl, hR⟩
  | cons a as ih =>
    obtain ⟨m, hm, hr⟩ := run_cons_eq_some.mp hrun
    obtain ⟨bs, tm, hbs, hev, hRm⟩ := h s t a m hR hC.1 hm
    obtain ⟨cs, t', hcs, hev', hR'⟩ := ih hRm (hC.2 m hm) hr
    refine ⟨bs ++ cs, t', ?_, ?_, hR'⟩
    · rw [run_append, hbs]
      exact hcs
    · rw [trace_append hbs, hev, hev', trace, hm]
      rfl

/-- Where every step from related states that meets `C` succeeds, every run of such steps does. -/
theorem Simulates.exists_run (h : Simulates step astep obs aobs C R)
    (hp : ∀ s t a, R s t → C s a → ∃ s', step s a = some s') {as : List A}
    (hC : ∀ a ∈ as, ∀ s, C s a) {s : S} {t : T} (hR : R s t) :
    ∃ s', Transition.run step as s = some s' := by
  induction as generalizing s t with
  | nil => exact ⟨s, rfl⟩
  | cons a as ih =>
    have ha := hC a List.mem_cons_self s
    obtain ⟨m, hm⟩ := hp s t a hR ha
    obtain ⟨-, tm, -, -, hRm⟩ := h s t a m hR ha hm
    obtain ⟨s', hr⟩ := ih (fun b hb => hC b (List.mem_cons_of_mem _ hb)) hRm
    exact ⟨s', run_cons_eq_some.mpr ⟨m, hm, hr⟩⟩

/-- A step that shows nothing and that the abstract system does not see. -/
theorem matched_by_none {t : T} {s' : S} (h : R s' t) :
    ∃ bs t', run astep bs t = some t' ∧ trace astep aobs bs t = ([] : List E) ∧ R s' t' :=
  ⟨[], t, rfl, rfl, h⟩

/-- A step that is matched by one abstract step. -/
theorem matched_by_one {t t' : T} {s' : S} (b : B) (hb : astep t b = some t') (h : R s' t') :
    ∃ bs t', run astep bs t = some t' ∧ trace astep aobs bs t = aobs t b ∧ R s' t' := by
  refine ⟨[b], t', ?_, ?_, h⟩
  · rw [run, hb]
    rfl
  · rw [trace, hb]
    exact List.append_nil _

end Transition
