import Mathlib.Order.Lattice
import Mathlib.Data.List.Range

/-!
# The scan for a largest key

A loop over the indices below `n` that starts from a first choice `j`, which need not be one of
them, and changes its choice whenever an index that is a candidate has a larger key. On equal keys
the earlier choice stays, and the first choice stays against all.

`scan_best` says what the loop chooses. `Outranks` is the order in which it prefers, and the choice
is the one that no other outranks (`Best.outranks`, `Best.ne_of_outranks`).
-/

namespace FirstMax

variable {κ : Type*} [LinearOrder κ] (ok : ℕ → Prop) (key : ℕ → κ)

/-- One iteration, on the choice and its key. -/
def step [DecidablePred ok] (best : ℕ × κ) (k : ℕ) : ℕ × κ :=
  if ok k ∧ best.2 < key k then (k, key k) else best

/-- What the loop over the indices below `n` makes of the choice `j`. -/
def scan [DecidablePred ok] (j n : ℕ) : ℕ × κ := (List.range n).foldl (step ok key) (j, key j)

/-- `v` is the choice among `j` and the candidates below `n`. -/
structure Best (j n v : ℕ) : Prop where
  candidate : v = j ∨ v < n ∧ ok v ∧ key j < key v
  start_le : key j ≤ key v
  le : ∀ k < n, ok k → key k ≤ key v
  first : v = j ∨ ∀ k < n, ok k → key k = key v → v ≤ k

/-- The loop that started from `j` prefers `z` to `c`. -/
def Outranks (j z c : ℕ) : Prop := key c < key z ∨ key c = key z ∧ (z = j ∨ z < c)

variable {ok key} {j n v : ℕ}

/-- One more index. -/
theorem Best.step [DecidablePred ok] (h : Best ok key j n v) : Best ok key j (n + 1)
    (if ok n ∧ key v < key n then n else v) := by
  split
  · rename_i hn
    refine ⟨Or.inr ⟨n.lt_succ_self, hn.1, h.start_le.trans_lt hn.2⟩, h.start_le.trans hn.2.le,
      fun k hk hok => ?_, Or.inr fun k hk hok heq => ?_⟩
    · rcases Nat.lt_succ_iff_lt_or_eq.mp hk with hlt | rfl
      · exact (h.le k hlt hok).trans hn.2.le
      · exact le_rfl
    · by_contra hlt
      have hle := h.le k (not_le.mp hlt) hok
      rw [heq] at hle
      exact absurd hle (not_le.mpr hn.2)
  · rename_i hn
    refine ⟨h.candidate.imp_right fun hv => ⟨hv.1.trans n.lt_succ_self, hv.2⟩, h.start_le,
      fun k hk hok => ?_, ?_⟩
    · rcases Nat.lt_succ_iff_lt_or_eq.mp hk with hlt | rfl
      · exact h.le k hlt hok
      · exact not_lt.mp fun hgt => hn ⟨hok, hgt⟩
    · rcases h.candidate with hj | hv
      · exact Or.inl hj
      · refine h.first.imp_right fun hfirst k hk hok heq => ?_
        rcases Nat.lt_succ_iff_lt_or_eq.mp hk with hlt | rfl
        · exact hfirst k hlt hok heq
        · exact hv.1.le

/-- **What the loop chooses.** -/
theorem scan_best [DecidablePred ok] (j n : ℕ) :
    Best ok key j n (scan ok key j n).1 ∧ (scan ok key j n).2 = key (scan ok key j n).1 := by
  induction n with
  | zero => exact ⟨⟨Or.inl rfl, le_rfl, fun k hk => absurd hk k.not_lt_zero, Or.inl rfl⟩, rfl⟩
  | succ n ih =>
    obtain ⟨hbest, hkey⟩ := ih
    have hscan : scan ok key j (n + 1) = step ok key (scan ok key j n) n := by
      rw [scan, List.range_succ, List.foldl_append]
      rfl
    have hnext := hbest.step
    rw [hscan, step, hkey]
    split
    · rename_i hn
      rw [if_pos hn] at hnext
      exact ⟨hnext, rfl⟩
    · rename_i hn
      rw [if_neg hn] at hnext
      exact ⟨hnext, hkey⟩

/-- The choice outranks every other candidate. -/
theorem Best.outranks (h : Best ok key j n v) {c : ℕ} (hc : c < n) (hok : ok c) (hne : c ≠ v) :
    Outranks key j v c := by
  rcases (h.le c hc hok).lt_or_eq with hlt | heq
  · exact Or.inl hlt
  · refine Or.inr ⟨heq, h.first.imp_right fun hfirst => ?_⟩
    exact lt_of_le_of_ne (hfirst c hc hok heq) hne.symm

/-- What is outranked is not chosen. -/
theorem Best.ne_of_outranks (h : Best ok key j n v) {c z : ℕ} (hc : c ≠ j)
    (hz : z = j ∨ z < n ∧ ok z) (hout : Outranks key j z c) : c ≠ v := by
  rintro rfl
  have hj := (h.candidate.resolve_left hc).2.2
  rcases hz with rfl | ⟨hz, hok⟩
  · rcases hout with hlt | ⟨heq, -⟩
    · exact lt_asymm hj hlt
    · exact absurd heq hj.ne'
  · rcases hout with hlt | ⟨heq, rfl | hlt⟩
    · exact absurd (h.le z hz hok) (not_le.mpr hlt)
    · exact absurd heq hj.ne'
    · exact absurd (h.first.resolve_left hc z hz hok heq.symm) (not_le.mpr hlt)

end FirstMax
