import Mathlib.Data.List.Basic
import Mathlib.Logic.Function.Basic

/-!
# Stores that change by patches

A *patch* `K → Option V` gives new values to some keys of a store `K → V` and leaves the others
alone. A system that answers actions with outputs is seen from outside as a store: `Explains` says
that every action changed the store by a patch it was `asked` for, and that every output `agrees`
with the store as the earlier patches left it.

## Main results

* `last_cons_getD` — after a list of patches a key has the last value given to it
* `Explains.nil`, `Explains.cons` — explanations are built action by action
-/

namespace Patch

variable {K V A O : Type*}

/-- The store after a patch. -/
def apply (w : K → Option V) (f : K → V) : K → V := fun k => (w k).getD (f k)

/-- The last value that a list of patches gives to a key. -/
def last : List (K → Option V) → K → Option V
  | [], _ => none
  | w :: ws, k => (last ws k).or (w k)

theorem last_cons_getD (w : K → Option V) (ws : List (K → Option V)) (f : K → V) (k : K) :
    (last (w :: ws) k).getD (f k) = (last ws k).getD (apply w f k) := by
  rw [last, apply]
  cases last ws k <;> rfl

/-- The patches `ws` explain the outputs `os` of the actions `as` and the change of the store from
`f` to `f'`. -/
structure Explains (asked : A → O → (K → Option V) → Prop) (agrees : A → O → (K → V) → Prop)
    (f : K → V) (as : List A) (os : List O) (ws : List (K → Option V)) (f' : K → V) : Prop where
  length_outputs : os.length = as.length
  length_patches : ws.length = as.length
  /-- Each patch was asked for. -/
  asked : ∀ (i : ℕ) a o w, as[i]? = some a → os[i]? = some o → ws[i]? = some w → asked a o w
  /-- Each output agrees with the last values given before it. -/
  agrees : ∀ (i : ℕ) a o, as[i]? = some a → os[i]? = some o →
    agrees a o fun k => (last (ws.take i) k).getD (f k)
  final : ∀ k, f' k = (last ws k).getD (f k)

section

variable {asked : A → O → (K → Option V) → Prop} {agrees : A → O → (K → V) → Prop}
  {f f' : K → V} {as : List A} {os : List O} {ws : List (K → Option V)}

theorem Explains.nil : Explains asked agrees f [] [] [] f :=
  ⟨rfl, rfl, by simp, by simp, fun _ => rfl⟩

/-- **One action more.** -/
theorem Explains.cons {a : A} {o : O} {w : K → Option V} (hasked : asked a o w)
    (hagrees : agrees a o f) (h : Explains asked agrees (apply w f) as os ws f') :
    Explains asked agrees f (a :: as) (o :: os) (w :: ws) f' where
  length_outputs := congrArg (· + 1) h.length_outputs
  length_patches := congrArg (· + 1) h.length_patches
  asked i a' o' w' ha ho hw := by
    cases i with
    | zero =>
      obtain rfl := Option.some.inj ha
      obtain rfl := Option.some.inj ho
      obtain rfl := Option.some.inj hw
      exact hasked
    | succ i => exact h.asked i a' o' w' ha ho hw
  agrees i a' o' ha ho := by
    cases i with
    | zero =>
      obtain rfl := Option.some.inj ha
      obtain rfl := Option.some.inj ho
      exact hagrees
    | succ i =>
      have := h.agrees i a' o' ha ho
      simpa only [List.take_succ_cons, last_cons_getD] using this
  final k := by
    rw [last_cons_getD]
    exact h.final k

end

end Patch
