import Xv6.Lib.WeakestPre

/-!
# Two runs that agree until the first one is stopped

A computation that calls an instrumented routine does what the computation with the routine itself
does, unless the instrument stops it. `agree e m m' Q s` says this of the runs of `m` and `m'` from
`s`, and that they end in `Q` if they return; `e` is the error of the instrument.

The rules are those of `wp`, for two program texts at once: where the texts are the same up to the
routine, one pass over them shows that they agree and what they do. Where the instrument is known
never to stop the first run, `agree.eq` then carries the result to the second one.
-/

namespace WeakestPre

variable {ε σ α β : Type} {e : ε} {s : σ}

/-- From `s`, `m` stops with `e`, or does what `m'` does and is in `Q` if it returns. -/
def agree (e : ε) (m m' : EStateM ε σ α) (Q : α → σ → Prop) (s : σ) : Prop :=
  (∃ s', m s = .error e s') ∨ m s = m' s ∧ ∀ a s', m s = .ok a s' → Q a s'

section

variable {m m' : EStateM ε σ α} {Q Q' : α → σ → Prop}

/-- The instrument does not stop the first run. -/
theorem agree.eq (h : agree e m m' Q s) (hne : ∀ s', m s ≠ .error e s') :
    m s = m' s ∧ ∀ a s', m s = .ok a s' → Q a s' :=
  h.resolve_left (by rintro ⟨s', hs'⟩; exact hne s' hs')

/-- One text. -/
theorem agree_self (h : wp m Q (fun _ _ => True) s) : agree e m m Q s :=
  Or.inr ⟨rfl, fun _ _ hm => wp_ok h hm⟩

theorem agree_pure {a : α} (h : Q a s) : agree e (pure a) (pure a) Q s := agree_self h

theorem agree_throw {e' : ε} : agree e (throw e') (throw e' : EStateM ε σ α) Q s :=
  agree_self trivial

theorem agree_stop : agree e (throw e) m' Q s := Or.inl ⟨s, rfl⟩

/-- Consequence. -/
theorem agree.mono (h : agree e m m' Q s) (hQ : ∀ a s', Q a s' → Q' a s') : agree e m m' Q' s :=
  h.imp_right fun hm => ⟨hm.1, fun a s' ha => hQ a s' (hm.2 a s' ha)⟩

theorem agree_ite {c : Prop} [Decidable c] {n n' : EStateM ε σ α} (hm : c → agree e m m' Q s)
    (hn : ¬c → agree e n n' Q s) : agree e (if c then m else n) (if c then m' else n') Q s := by
  by_cases h : c
  · simpa only [if_pos h] using hm h
  · simpa only [if_neg h] using hn h

end

section

variable {m m' : EStateM ε σ β} {f f' : β → EStateM ε σ α} {R : β → σ → Prop} {Q : α → σ → Prop}

/-- Two calls that agree, followed by the rest of the texts. -/
theorem agree.bind (hm : agree e m m' R s) (hf : ∀ b s', R b s' → agree e (f b) (f' b) Q s') :
    agree e (m >>= f) (m' >>= f') Q s := by
  simp only [agree, Bind.bind, EStateM.bind] at hm ⊢
  rcases hm with ⟨s', hs'⟩ | ⟨heq, hok⟩
  · exact Or.inl ⟨s', by rw [hs']⟩
  · rw [← heq]
    cases hs : m s with
    | ok b s' => exact hf b s' (hok b s' hs)
    | error e' s' => exact Or.inr ⟨rfl, by simp⟩

/-- A call that is the same in both texts. -/
theorem agree_call (hm : wp m R (fun _ _ => True) s)
    (hf : ∀ b s', R b s' → agree e (f b) (f' b) Q s') : agree e (m >>= f) (m >>= f') Q s :=
  (agree_self hm).bind hf

theorem agree_get {f f' : σ → EStateM ε σ α} :
    agree e (get >>= f) (get >>= f') Q s ↔ agree e (f s) (f' s) Q s := Iff.rfl

theorem agree_set {f f' : PUnit → EStateM ε σ α} {s' : σ} :
    agree e (set s' >>= f) (set s' >>= f') Q s ↔ agree e (f ⟨⟩) (f' ⟨⟩) Q s' := Iff.rfl

theorem agree_modify {f f' : PUnit → EStateM ε σ α} {u : σ → σ} :
    agree e (modify u >>= f) (modify u >>= f') Q s ↔ agree e (f ⟨⟩) (f' ⟨⟩) Q (u s) := Iff.rfl

end

/-- Two specifications of one computation. -/
theorem wp_and {m : EStateM ε σ α} {Q Q' : α → σ → Prop} {E E' : ε → σ → Prop} (h : wp m Q E s)
    (h' : wp m Q' E' s) :
    wp m (fun a s' => Q a s' ∧ Q' a s') (fun err s' => E err s' ∧ E' err s') s := by
  unfold wp at h h' ⊢
  cases hm : m s with
  | ok a s' =>
    rw [hm] at h h'
    exact ⟨h, h'⟩
  | error err s' =>
    rw [hm] at h h'
    exact ⟨h, h'⟩

end WeakestPre
