import Mathlib.Data.Fintype.Card
import Mathlib.Data.Finset.Card
import Mathlib.Tactic.Common

/-!
# Counting the indices whose value passes a test

A reference counter counts the holders in a table of holders. The table changes one entry at a
time, and `count_update` says what that does to the count: the old entry goes, the new one comes.
-/

namespace Count

variable {ι β : Type*} [Fintype ι]

/-- The number of indices at which `f` passes the test. -/
def count (test : β → Bool) (f : ι → β) : ℕ := (Finset.univ.filter fun u => test (f u) = true).card

variable {test : β → Bool} {f : ι → β} {u : ι}

theorem count_eq_zero : count test f = 0 ↔ ∀ u, test (f u) = false := by
  rw [count, Finset.card_eq_zero, Finset.filter_eq_empty_iff]
  simp

/-- **One entry changes.** -/
theorem count_update [DecidableEq ι] (test : β → Bool) (f : ι → β) (u : ι) (v : β) :
    count test (Function.update f u v) + (test (f u)).toNat = count test f + (test v).toNat := by
  have hrest : ∀ g : ι → β, count test g =
      ((Finset.univ.erase u).filter fun w => test (g w) = true).card + (test (g u)).toNat := by
    intro g
    rw [count, ← Finset.insert_erase (Finset.mem_univ u), Finset.filter_insert]
    cases test (g u) with
    | true =>
      rw [if_pos rfl, Finset.card_insert_of_notMem (by simp),
        Finset.insert_erase (Finset.mem_univ u)]
      rfl
    | false =>
      rw [if_neg Bool.false_ne_true, Finset.insert_erase (Finset.mem_univ u)]
      rfl
  have hsame : ((Finset.univ.erase u).filter fun w => test (Function.update f u v w) = true) =
      (Finset.univ.erase u).filter fun w => test (f w) = true := by
    refine Finset.filter_congr fun w hw => ?_
    rw [Function.update_of_ne (Finset.ne_of_mem_erase hw)]
  rw [hrest (Function.update f u v), hrest f, hsame, Function.update_self]
  omega

end Count
