import Mathlib.Logic.Function.Basic
import Mathlib.Order.Basic
import Mathlib.Order.WellFounded

/-!
# The clock

A hand goes round `size` positions. Each position looks at one of a set of bits, or at none. The
hand passes a position that looks at no bit; it clears a bit that is set and passes; at a bit that
is clear it stops. This is the second-chance rule for choosing a page to replace.

The scan changes only the bits and the hand, and what it has changed after `t` visits can be said
outright: a bit has been cleared if one of the first `t` visits looked at it (`bitsAfter`). So the
hand stops at the first visit that looks at a bit which was clear from the start or has been looked
at before (`FirstStop`), and since two turns look at every bit twice, it stops within two turns
unless nothing is looked at (`exists_firstStop`).

When every position looks at its own bit, if at any, the hand stops at the first clear bit, and if
all bits are set at the first position that looks at one, one turn later (`firstStop_of_clear`,
`firstStop_of_set`).
-/

/-- Positions that look at bits, and a hand. -/
structure Clock where
  size : ℕ
  /-- The bit that a position looks at. -/
  look : ℕ → Option ℕ
  hand : ℕ
  bits : ℕ → Bool

namespace Clock

variable {t v : ℕ}

variable (c : Clock)

/-- Where the hand is after `t` visits. -/
def pos (t : ℕ) : ℕ := (c.hand + t) % c.size

/-- One of the first `t` visits looks at bit `j`. -/
def Seen (t j : ℕ) : Prop := ∃ u < t, c.look (c.pos u) = some j

instance (t j : ℕ) : Decidable (c.Seen t j) := inferInstanceAs (Decidable (∃ u < t, _))

/-- The bits after `t` visits that have not stopped. -/
def bitsAfter (t : ℕ) : ℕ → Bool := fun j => c.bits j && !decide (c.Seen t j)

/-- The hand stops at visit `t`, if it comes so far. -/
def Stops (t : ℕ) : Prop := ∃ j, c.look (c.pos t) = some j ∧ c.bitsAfter t j = false

/-- Visit `t` is the one at which the hand stops. -/
structure FirstStop (t : ℕ) : Prop where
  stops : c.Stops t
  first : ∀ u < t, ¬ c.Stops u

variable {c}

/-! ### One visit -/

theorem seen_succ {j : ℕ} : c.Seen (t + 1) j ↔ c.Seen t j ∨ c.look (c.pos t) = some j := by
  constructor
  · rintro ⟨u, hu, hlook⟩
    rcases Nat.lt_succ_iff_lt_or_eq.mp hu with hu | rfl
    · exact Or.inl ⟨u, hu, hlook⟩
    · exact Or.inr hlook
  · rintro (⟨u, hu, hlook⟩ | hlook)
    · exact ⟨u, hu.trans (Nat.lt_succ_self t), hlook⟩
    · exact ⟨t, Nat.lt_succ_self t, hlook⟩

theorem bitsAfter_eq_false {j : ℕ} : c.bitsAfter t j = false ↔ c.bits j = false ∨ c.Seen t j := by
  rw [bitsAfter, Bool.and_eq_false_iff, Bool.not_eq_false', decide_eq_true_eq]

@[simp] theorem bitsAfter_zero : c.bitsAfter 0 = c.bits := by
  funext j
  simp [bitsAfter, Seen]

/-- A visit that looks at nothing. -/
theorem bitsAfter_succ_of_none (h : c.look (c.pos t) = none) :
    c.bitsAfter (t + 1) = c.bitsAfter t := by
  funext j
  simp [bitsAfter, seen_succ, h]

/-- A visit that looks at bit `j`. -/
theorem bitsAfter_succ_of_some {j : ℕ} (h : c.look (c.pos t) = some j) :
    c.bitsAfter (t + 1) = Function.update (c.bitsAfter t) j false := by
  funext i
  by_cases hij : i = j
  · subst hij
    rw [Function.update_self, bitsAfter_eq_false]
    exact Or.inr (seen_succ.mpr (Or.inr h))
  · rw [Function.update_of_ne hij]
    have hne : ¬ j = i := fun he => hij he.symm
    simp [bitsAfter, seen_succ, h, hne]

/-! ### Where the hand stops -/

theorem FirstStop.unique {t' : ℕ} (h : c.FirstStop t) (h' : c.FirstStop t') : t = t' := by
  rcases Nat.lt_trichotomy t t' with hlt | heq | hgt
  · exact absurd h.stops (h'.first t hlt)
  · exact heq
  · exact absurd h'.stops (h.first t' hgt)

theorem exists_firstStop_of_stops (h : c.Stops t) : ∃ u ≤ t, c.FirstStop u := by
  induction t using Nat.strong_induction_on with
  | _ t ih =>
    by_cases hbefore : ∃ u < t, c.Stops u
    · obtain ⟨u, hu, hstop⟩ := hbefore
      obtain ⟨v, hv, hfirst⟩ := ih u hu hstop
      exact ⟨v, hv.trans hu.le, hfirst⟩
    · push Not at hbefore
      exact ⟨t, le_rfl, h, hbefore⟩

theorem pos_lt (hsize : 0 < c.size) (t : ℕ) : c.pos t < c.size := Nat.mod_lt _ hsize

theorem pos_succ (t : ℕ) : c.pos (t + 1) = (c.pos t + 1) % c.size := by
  rw [pos, pos, Nat.mod_add_mod, Nat.add_assoc]

theorem pos_size_add (t : ℕ) : c.pos (c.size + t) = c.pos t := by
  rw [pos, pos, show c.hand + (c.size + t) = c.hand + t + c.size by omega, Nat.add_mod_right]

/-- The visits before the hand is at position `i` for the first time. -/
def ahead (c : Clock) (i : ℕ) : ℕ := (i + c.size - c.hand) % c.size

theorem ahead_lt (hsize : 0 < c.size) (i : ℕ) : c.ahead i < c.size := Nat.mod_lt _ hsize

section

variable (hhand : c.hand < c.size)

include hhand

theorem pos_ahead {i : ℕ} (hi : i < c.size) : c.pos (c.ahead i) = i := by
  rw [pos, ahead, Nat.add_mod_mod, show c.hand + (i + c.size - c.hand) = i + c.size by omega,
    Nat.add_mod_right, Nat.mod_eq_of_lt hi]

theorem ahead_pos (ht : t < c.size) : c.ahead (c.pos t) = t := by
  have hpos : c.pos t = c.hand + t ∨ c.pos t + c.size = c.hand + t := by
    rw [pos]
    rcases Nat.lt_or_ge (c.hand + t) c.size with hlt | hge
    · exact Or.inl (Nat.mod_eq_of_lt hlt)
    · right
      rw [Nat.mod_eq_sub_mod hge, Nat.mod_eq_of_lt (by omega)]
      omega
  rw [ahead]
  rcases hpos with hpos | hpos
  · rw [show c.pos t + c.size - c.hand = t + c.size by omega, Nat.add_mod_right,
      Nat.mod_eq_of_lt ht]
  · rw [show c.pos t + c.size - c.hand = t by omega, Nat.mod_eq_of_lt ht]

/-- **Two turns are enough** if any position looks at a bit: the second turn looks at it again. -/
theorem exists_firstStop {i j : ℕ} (hi : i < c.size) (hlook : c.look i = some j) :
    ∃ t < 2 * c.size, c.FirstStop t := by
  have hsize : 0 < c.size := by omega
  have hlt := ahead_lt hsize i
  have hstop : c.Stops (c.size + c.ahead i) := by
    refine ⟨j, ?_, bitsAfter_eq_false.mpr (Or.inr ⟨c.ahead i, by omega, ?_⟩)⟩
    · rw [pos_size_add, pos_ahead hhand hi, hlook]
    · rw [pos_ahead hhand hi, hlook]
  obtain ⟨t, ht, hfirst⟩ := exists_firstStop_of_stops hstop
  exact ⟨t, by omega, hfirst⟩

end

/-! ### Every position looks at its own bit -/

section

variable (hhand : c.hand < c.size) (hown : ∀ i < c.size, ∀ j, c.look i = some j → j = i)

include hhand hown

/-- In the first turn a bit has been looked at if its position has been visited. -/
theorem seen_iff {j : ℕ} (ht : t ≤ c.size) (hj : j < c.size) :
    c.Seen t j ↔ c.look j = some j ∧ c.ahead j < t := by
  constructor
  · rintro ⟨u, hu, hlook⟩
    have hsize : 0 < c.size := by omega
    obtain rfl := hown _ (pos_lt hsize u) j hlook
    exact ⟨hlook, by rwa [ahead_pos hhand (by omega)]⟩
  · rintro ⟨hlook, hlt⟩
    exact ⟨c.ahead j, hlt, by rwa [pos_ahead hhand hj]⟩

/-- After the first turn every bit that is ever looked at has been. -/
theorem seen_iff_of_le {j : ℕ} (ht : c.size ≤ t) (hj : j < c.size) :
    c.Seen t j ↔ c.look j = some j := by
  have hsize : 0 < c.size := by omega
  constructor
  · rintro ⟨u, -, hlook⟩
    obtain rfl := hown _ (pos_lt hsize u) j hlook
    exact hlook
  · intro hlook
    have hlt := ahead_lt hsize j
    exact ⟨c.ahead j, by omega, by rwa [pos_ahead hhand hj]⟩

/-- In the first turn the hand stops only at bits that were clear. -/
theorem stops_iff (ht : t < c.size) :
    c.Stops t ↔ c.look (c.pos t) = some (c.pos t) ∧ c.bits (c.pos t) = false := by
  have hsize : 0 < c.size := by omega
  have hpos := pos_lt hsize t
  constructor
  · rintro ⟨j, hlook, hbit⟩
    obtain rfl := hown _ hpos j hlook
    refine ⟨hlook, (bitsAfter_eq_false.mp hbit).resolve_right fun hseen => ?_⟩
    have hlt := ((seen_iff hhand hown ht.le hpos).mp hseen).2
    rw [ahead_pos hhand ht] at hlt
    omega
  · rintro ⟨hlook, hbit⟩
    exact ⟨_, hlook, bitsAfter_eq_false.mpr (Or.inl hbit)⟩

/-- **The nearest clear bit** is where the hand stops. -/
theorem firstStop_of_clear (hv : v < c.size) (hlook : c.look v = some v) (hbit : c.bits v = false)
    (hnear : ∀ j < c.size, c.look j = some j → c.bits j = false →
      c.ahead v ≤ c.ahead j) : c.FirstStop (c.ahead v) := by
  have hsize : 0 < c.size := by omega
  have hlt := ahead_lt hsize v
  constructor
  · rw [stops_iff hhand hown hlt, pos_ahead hhand hv]
    exact ⟨hlook, hbit⟩
  · intro u hu hstop
    obtain ⟨hlook', hbit'⟩ := (stops_iff hhand hown (by omega)).mp hstop
    have hle := hnear _ (pos_lt hsize u) hlook' hbit'
    rw [ahead_pos hhand (by omega)] at hle
    omega

/-- **With every bit set** the hand stops one turn later, at the nearest position that looks at a
bit. -/
theorem firstStop_of_set (hv : v < c.size) (hlook : c.look v = some v)
    (hset : ∀ j < c.size, c.look j = some j → c.bits j = true)
    (hnear : ∀ j < c.size, c.look j = some j → c.ahead v ≤ c.ahead j) :
    c.FirstStop (c.size + c.ahead v) := by
  have hsize : 0 < c.size := by omega
  have hlt := ahead_lt hsize v
  constructor
  · refine ⟨v, ?_, bitsAfter_eq_false.mpr (Or.inr ?_)⟩
    · rw [pos_size_add, pos_ahead hhand hv, hlook]
    · exact (seen_iff_of_le hhand hown (by omega) hv).mpr hlook
  · intro u hu hstop
    rcases Nat.lt_or_ge u c.size with hlow | hhigh
    · obtain ⟨hlook', hbit'⟩ := (stops_iff hhand hown hlow).mp hstop
      rw [hset _ (pos_lt hsize u) hlook'] at hbit'
      cases hbit'
    · obtain ⟨j, hlook', -⟩ := hstop
      obtain rfl := hown _ (pos_lt hsize u) j hlook'
      have hle := hnear _ (pos_lt hsize u) hlook'
      obtain ⟨w, rfl⟩ := Nat.exists_eq_add_of_le hhigh
      rw [pos_size_add, ahead_pos hhand (by omega)] at hle
      omega

end

end Clock
