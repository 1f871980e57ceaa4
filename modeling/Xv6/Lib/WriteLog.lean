import Mathlib.Data.List.Perm.Basic
import Mathlib.Logic.Function.Basic

/-!
# Sequences of point writes

A store `K → V` on which a list of writes is executed from left to right. The value a key ends
up with is decided by the writes to *that* key alone, in their relative order; so two service
orders that agree key by key leave the same store. This is the form in which a reordering
scheduler is harmless, and the only one the disk queue can promise: it never promises an order
between different keys.

## Main results

* `applyWrites_eq_of_filter_eq` — agreement key by key is enough
* `applyWrites_eq_of_perm` — with pairwise different keys any order is enough
* `applyWrites_apply_of_notMem` — the frame: an unwritten key keeps its value
-/

namespace WriteLog

variable {K V : Type*} [DecidableEq K]

/-- Execute a list of writes, first one first. -/
def applyWrites (l : List (K × V)) (f : K → V) : K → V :=
  l.foldl (fun g w => Function.update g w.1 w.2) f

@[simp] theorem applyWrites_nil (f : K → V) : applyWrites [] f = f := rfl

@[simp] theorem applyWrites_cons (w : K × V) (l : List (K × V)) (f : K → V) :
    applyWrites (w :: l) f = applyWrites l (Function.update f w.1 w.2) := rfl

/-- **Only the writes to `k` decide the value at `k`.** -/
theorem applyWrites_apply_filter (l : List (K × V)) (f : K → V) (k : K) :
    applyWrites l f k = applyWrites (l.filter fun w => w.1 = k) f k := by
  induction l generalizing f with
  | nil => rfl
  | cons w l ih =>
    by_cases hw : w.1 = k
    · rw [List.filter_cons_of_pos (by simpa using hw), applyWrites_cons, applyWrites_cons]
      exact ih _
    · rw [List.filter_cons_of_neg (by simpa using hw), applyWrites_cons, ih]
      -- the two starting stores agree at `k`, and only `k` is written from here on
      have key : ∀ (m : List (K × V)) (g g' : K → V), (∀ v ∈ m, v.1 = k) → g k = g' k →
          applyWrites m g k = applyWrites m g' k := by
        intro m
        induction m with
        | nil => intro g g' _ h; exact h
        | cons v m ihm =>
          intro g g' hm _
          refine ihm _ _ (fun u hu => hm u (List.mem_cons_of_mem _ hu)) ?_
          have hv : v.1 = k := hm v List.mem_cons_self
          simp [← hv]
      refine key _ _ _ (fun v hv => ?_) (Function.update_of_ne (Ne.symm hw) _ _)
      simpa using (List.mem_filter.mp hv).2

/-- A key that no write names keeps its value. -/
theorem applyWrites_apply_of_notMem {l : List (K × V)} {k : K} (h : ∀ w ∈ l, w.1 ≠ k) (f : K → V) :
    applyWrites l f k = f k := by
  rw [applyWrites_apply_filter, List.filter_eq_nil_iff.mpr (by simpa using h), applyWrites_nil]

/-- Among writes to pairwise different keys each one sticks. -/
theorem applyWrites_apply_of_mem {l : List (K × V)} {k : K} {v : V}
    (hn : (l.map Prod.fst).Nodup) (h : (k, v) ∈ l) (f : K → V) : applyWrites l f k = v := by
  induction l generalizing f with
  | nil => cases h
  | cons w l ih =>
    rw [List.map_cons, List.nodup_cons] at hn
    rw [applyWrites_cons]
    rcases List.mem_cons.mp h with rfl | h
    · rw [applyWrites_apply_of_notMem fun w hw hk => hn.1 (List.mem_map.mpr ⟨w, hw, hk⟩)]
      exact Function.update_self ..
    · exact ih hn.2 h _

/-- **Agreement key by key.** Two orders of service in which the writes to each single key come
in the same relative order leave the same store. -/
theorem applyWrites_eq_of_filter_eq {l l' : List (K × V)}
    (h : ∀ k, (l.filter fun w => w.1 = k) = l'.filter fun w => w.1 = k) (f : K → V) :
    applyWrites l f = applyWrites l' f := by
  funext k
  rw [applyWrites_apply_filter l, applyWrites_apply_filter l', h k]

/-- With pairwise different keys every order of service leaves the same store. -/
theorem applyWrites_eq_of_perm {l l' : List (K × V)} (hp : l.Perm l')
    (hn : (l.map Prod.fst).Nodup) (f : K → V) : applyWrites l f = applyWrites l' f := by
  induction hp generalizing f with
  | nil => rfl
  | cons w _ ih =>
    rw [List.map_cons, List.nodup_cons] at hn
    rw [applyWrites_cons, applyWrites_cons, ih hn.2]
  | swap w v l =>
    simp only [List.map_cons, List.nodup_cons, List.mem_cons, not_or] at hn
    simp only [applyWrites_cons]
    rw [Function.update_comm hn.1.1]
  | trans h₁ _ ih₁ ih₂ =>
    rw [ih₁ hn, ih₂ ((h₁.map Prod.fst).nodup_iff.mp hn)]

end WriteLog
