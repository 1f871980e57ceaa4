
import Mathlib.Data.List.Range
import Mathlib.Data.Nat.ModEq
import Mathlib.Logic.Function.Basic
import Mathlib.Tactic.Common

/-!
# Ring buffers with free-running counters

A queue in `n` cells with two counters, for reading and for writing, that are never reduced to an
index: they count on and wrap at the word size `M`, and cell `c % n` is the one that counter `c`
names. The number of entries is the difference of the counters as words (`count`), so the buffer
can be full without looking empty. This works when the number of cells divides the word size and is
less than it, which every lemma below assumes.

`contents` is the queue that the cells and the counters stand for. A write at the end appends to it
(`contents_push`), a read at the front takes its head (`contents_pop`).
-/

namespace RingBuffer

variable {α : Type*} {n M r w : ℕ} {cells : ℕ → α}

/-- The number of entries: the counter `w` less the counter `r`, as words. -/
def count (M r w : ℕ) : ℕ := (w + (M - r)) % M

/-- The entries, the oldest first. -/
def contents (n M : ℕ) (cells : ℕ → α) (r w : ℕ) : List α :=
  (List.range (count M r w)).map fun k => cells ((r + k) % n)

@[simp] theorem length_contents : (contents n M cells r w).length = count M r w := by
  rw [contents, List.length_map, List.length_range]

/-- The counters, without wrapping. -/
theorem count_cases (hr : r < M) (hw : w < M) :
    (r ≤ w ∧ count M r w = w - r) ∨ (w < r ∧ count M r w = w + M - r) := by
  unfold count
  rcases Nat.lt_or_ge w r with h | h
  · exact Or.inr ⟨h, by rw [Nat.mod_eq_of_lt (by omega)]; omega⟩
  · refine Or.inl ⟨h, ?_⟩
    rw [show w + (M - r) = (w - r) + M by omega, Nat.add_mod_right, Nat.mod_eq_of_lt (by omega)]

theorem count_eq_zero (hr : r < M) (hw : w < M) : count M r w = 0 ↔ r = w := by
  rcases count_cases hr hw with ⟨h, he⟩ | ⟨h, he⟩ <;> omega

theorem contents_eq_nil (hr : r < M) (hw : w < M) : contents n M cells r w = [] ↔ r = w := by
  rw [← List.length_eq_zero_iff, length_contents, count_eq_zero hr hw]

theorem succ_mod_cases (hw : w < M) :
    ((w + 1) % M = w + 1 ∧ w + 1 < M) ∨ ((w + 1) % M = 0 ∧ w + 1 = M) := by
  rcases Nat.lt_or_ge (w + 1) M with h | h
  · exact Or.inl ⟨Nat.mod_eq_of_lt h, h⟩
  · have he : w + 1 = M := by omega
    exact Or.inr ⟨by rw [he, Nat.mod_self], he⟩

theorem count_push (hr : r < M) (hw : w < M) (h : count M r w + 1 < M) :
    count M r ((w + 1) % M) = count M r w + 1 := by
  have hw' : (w + 1) % M < M := Nat.mod_lt _ (by omega)
  rcases count_cases hr hw with ⟨h1, e1⟩ | ⟨h1, e1⟩ <;>
    rcases count_cases hr hw' with ⟨h2, e2⟩ | ⟨h2, e2⟩ <;>
      rcases succ_mod_cases hw with ⟨e3, h3⟩ | ⟨e3, h3⟩ <;> omega

theorem count_pop (hr : r < M) (hw : w < M) (h : r ≠ w) :
    count M r w = count M ((r + 1) % M) w + 1 := by
  have hr' : (r + 1) % M < M := Nat.mod_lt _ (by omega)
  rcases count_cases hr hw with ⟨h1, e1⟩ | ⟨h1, e1⟩ <;>
    rcases count_cases hr' hw with ⟨h2, e2⟩ | ⟨h2, e2⟩ <;>
      rcases succ_mod_cases hr with ⟨e3, h3⟩ | ⟨e3, h3⟩ <;> omega

section

variable (hd : n ∣ M) (hr : r < M) (hw : w < M)

include hd hr hw

/-- The cell behind the last entry is the one that the write counter names. -/
theorem add_count_mod : (r + count M r w) % n = w % n := by
  rcases count_cases hr hw with ⟨h, he⟩ | ⟨h, he⟩
  · rw [he, Nat.add_sub_cancel' h]
  · rw [he, show r + (w + M - r) = w + M by omega, Nat.add_mod, Nat.mod_eq_zero_of_dvd hd,
      Nat.add_zero, Nat.mod_mod]

/-- Writing a cell behind the last entry of a buffer that is not full. -/
theorem contents_push (hlt : n < M) (hfull : count M r w < n) (x : α) :
    contents n M (Function.update cells (w % n) x) r ((w + 1) % M) =
      contents n M cells r w ++ [x] := by
  rw [contents, count_push hr hw (by omega), List.range_succ, List.map_append, List.map_singleton,
    add_count_mod hd hr hw, Function.update_self]
  refine congrArg (· ++ [x]) (List.map_congr_left fun k hk => Function.update_of_ne ?_ _ _)
  have hk' := List.mem_range.mp hk
  rw [← add_count_mod hd hr hw]
  intro he
  have hdvd := (Nat.modEq_iff_dvd' (by omega)).mp he
  rw [show r + count M r w - (r + k) = count M r w - k by omega] at hdvd
  exact absurd (Nat.le_of_dvd (by omega) hdvd) (by omega)

/-- The oldest entry of a buffer that is not empty. -/
theorem contents_pop (h : r ≠ w) :
    contents n M cells r w = cells (r % n) :: contents n M cells ((r + 1) % M) w := by
  rw [contents, count_pop hr hw h, List.range_succ_eq_map, List.map_cons, Nat.add_zero,
    List.map_map, contents]
  refine congrArg _ (List.map_congr_left fun k _ => congrArg cells ?_)
  rw [Nat.add_mod ((r + 1) % M), Nat.mod_mod_of_dvd _ hd, ← Nat.add_mod]
  show (r + (k + 1)) % n = _
  rw [Nat.add_assoc, Nat.add_comm 1 k]

end

end RingBuffer
