import Mathlib.Logic.Basic

/-!
# Weakest preconditions for a state monad with errors

`EStateM ε σ` computations either return a value or stop with an error, and in both cases leave a
state. `wp m Q E s` says that `m` started in `s` ends in `Q` if it returns and in `E` if it stops:
an error is not a failure of the specification but an outcome with a postcondition of its own.

The rules are one equation per construct, so that `simp only` turns the `wp` of a program text
into the `wp` of the calls it makes; a call is then replaced by its specification with `wp_mono`.
-/

namespace WeakestPre

variable {ε σ α β : Type} {m : EStateM ε σ α} {f : β → EStateM ε σ α} {Q : α → σ → Prop}
  {E : ε → σ → Prop} {s s' : σ}

/-- `m` started in `s` returns in `Q` or stops in `E`. -/
def wp (m : EStateM ε σ α) (Q : α → σ → Prop) (E : ε → σ → Prop) (s : σ) : Prop :=
  match m s with
  | .ok a s' => Q a s'
  | .error e s' => E e s'

theorem wp_ok {a : α} (h : wp m Q E s) (hm : m s = .ok a s') : Q a s' := by
  rwa [wp, hm] at h

theorem wp_error {e : ε} (h : wp m Q E s) (hm : m s = .error e s') : E e s' := by
  rwa [wp, hm] at h

theorem wp_of_eq_ok {a : α} (hm : m s = .ok a s') : wp m Q E s ↔ Q a s' := by
  rw [wp, hm]

/-- A computation that does not stop returns. -/
theorem exists_ok_of_wp (h : wp m Q (fun _ _ => False) s) : ∃ a s', m s = .ok a s' := by
  cases hm : m s with
  | ok a s' => exact ⟨a, s', rfl⟩
  | error e s' => exact (wp_error h hm).elim

@[simp] theorem wp_pure {a : α} : wp (pure a : EStateM ε σ α) Q E s ↔ Q a s := Iff.rfl

@[simp] theorem wp_bind {m : EStateM ε σ β} :
    wp (m >>= f) Q E s ↔ wp m (fun b => wp (f b) Q E) E s := by
  simp only [wp, bind, EStateM.bind]
  cases m s <;> rfl

@[simp] theorem wp_get {Q : σ → σ → Prop} : wp (get : EStateM ε σ σ) Q E s ↔ Q s s := Iff.rfl

@[simp] theorem wp_set {Q : PUnit → σ → Prop} {s' : σ} :
    wp (set s' : EStateM ε σ PUnit) Q E s ↔ Q ⟨⟩ s' := Iff.rfl

@[simp] theorem wp_modify {Q : PUnit → σ → Prop} {f : σ → σ} :
    wp (modify f : EStateM ε σ PUnit) Q E s ↔ Q ⟨⟩ (f s) := Iff.rfl

@[simp] theorem wp_throw {e : ε} : wp (throw e : EStateM ε σ α) Q E s ↔ E e s := Iff.rfl

theorem wp_ite {c : Prop} [Decidable c] {n : EStateM ε σ α} :
    wp (if c then m else n) Q E s ↔ (c → wp m Q E s) ∧ (¬c → wp n Q E s) := by
  by_cases h : c <;> simp [h]

/-- A conditional statement, followed by the rest of the program. -/
theorem wp_ite_bind {c : Prop} [Decidable c] {m : EStateM ε σ Unit} {f : Unit → EStateM ε σ α} :
    wp (if c then m >>= f else f ()) Q E s ↔
      wp (if c then m else pure ()) (fun b => wp (f b) Q E) E s := by
  by_cases h : c <;> simp [h]

/-- Consequence. -/
theorem wp_mono {Q Q' : α → σ → Prop} {E E' : ε → σ → Prop} (h : wp m Q E s)
    (hQ : ∀ a s', Q a s' → Q' a s') (hE : ∀ e s', E e s' → E' e s') : wp m Q' E' s := by
  unfold wp at h ⊢
  cases hm : m s with
  | ok a s' => rw [hm] at h; exact hQ a s' h
  | error e s' => rw [hm] at h; exact hE e s' h

theorem wp_imp {Q' : α → σ → Prop} (h : wp m Q E s) (hQ : ∀ a s', Q a s' → Q' a s') :
    wp m Q' E s := wp_mono h hQ fun _ _ he => he

theorem wp_error_imp {E' : ε → σ → Prop} (h : wp m Q E s) (hE : ∀ e s', E e s' → E' e s') :
    wp m Q E' s := wp_mono h (fun _ _ h => h) hE

/-- Every computation ends somehow. -/
theorem wp_true (m : EStateM ε σ α) (s : σ) : wp m (fun _ _ => True) (fun _ _ => True) s := by
  unfold wp
  split <;> trivial

/-- What a computation returns may be used where its specification is. -/
theorem wp_run (h : wp m Q E s) : wp m (fun a s' => m s = .ok a s' ∧ Q a s') E s := by
  unfold wp at h ⊢
  cases hm : m s with
  | ok a s' => rw [hm] at h; exact ⟨rfl, h⟩
  | error e s' => rw [hm] at h; exact h

/-- The specification of a call, followed by the rest of the program. -/
theorem wp_call {m : EStateM ε σ β} {R : β → σ → Prop}
    (hm : wp m R E s) (hf : ∀ b s', R b s' → wp (f b) Q E s') : wp (m >>= f) Q E s :=
  wp_bind.mpr (wp_mono hm hf fun _ _ h => h)

/-! ### Runs -/

theorem bind_of_ok {m : EStateM ε σ β} {b : β} (h : m s = .ok b s') (f : β → EStateM ε σ α) :
    (m >>= f) s = f b s' := by
  simp only [bind, EStateM.bind, h]

/-- A sequence returns if both parts do. -/
theorem bind_eq_ok {m : EStateM ε σ β} {s s'' : σ} {a : α} :
    (m >>= f) s = .ok a s'' ↔ ∃ b s', m s = .ok b s' ∧ f b s' = .ok a s'' := by
  simp only [bind, EStateM.bind]
  cases m s <;> simp [and_assoc]

/-! ### Evaluation -/

/-- What a computation returns can be checked against a decidable property. -/
instance decidableOk {m : EStateM ε σ α} {P : α → σ → Prop} [∀ a s, Decidable (P a s)] (s : σ) :
    Decidable (∃ a s', m s = .ok a s' ∧ P a s') :=
  match m s with
  | .ok a s' => decidable_of_iff (P a s') (by simp [and_assoc])
  | .error _ _ => isFalse (by simp)

@[inherit_doc decidableOk]
instance decidableAllOk {m : EStateM ε σ α} {P : α → σ → Prop} [∀ a s, Decidable (P a s)] (s : σ) :
    Decidable (∀ a s', m s = .ok a s' → P a s') :=
  match m s with
  | .ok a s' => decidable_of_iff (P a s') (by simp)
  | .error _ _ => isTrue (by simp)

@[inherit_doc decidableOk]
instance decidableError {m : EStateM ε σ α} {P : ε → σ → Prop} [∀ e s, Decidable (P e s)] (s : σ) :
    Decidable (∃ e s', m s = .error e s' ∧ P e s') :=
  match m s with
  | .ok _ _ => isFalse (by simp)
  | .error e s' => decidable_of_iff (P e s') (by simp [and_assoc])

end WeakestPre
