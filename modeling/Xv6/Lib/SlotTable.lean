import Mathlib.Data.List.FinRange
import Mathlib.Data.Fin.Basic
import Mathlib.Logic.Function.Basic
import Mathlib.Tactic.Common

/-!
# Fixed tables of optional entries

A table of `n` places, each empty or holding one entry: the shape of a request queue kept in an
array with a `valid` flag. Entries go into the first empty place and leave from any place, so
the table has holes in general and the order of the places is *not* the order of insertion.

`contents` lists the entries by place. The two facts every use needs are how one removal changes
it (`contents_erase`), and that a table filled from empty is its list of entries in order of
insertion (`insertFirst_ofList`, `contents_ofList`).
-/

/-- A table of `n` places, each of them possibly empty. -/
abbrev SlotTable (n : ℕ) (α : Type*) := Fin n → Option α

namespace SlotTable

variable {n : ℕ} {α : Type*}
variable {t : SlotTable n α} {i : Fin n} {a : α} {score : α → ℤ} {top : ℤ}

/-- The first empty place. -/
def firstFree (t : SlotTable n α) : Option (Fin n) :=
  (List.finRange n).find? fun i => (t i).isNone

/-- The first occupied place. -/
def firstUsed (t : SlotTable n α) : Option (Fin n) :=
  (List.finRange n).find? fun i => (t i).isSome

/-- Put an entry into the first empty place; a full table is left as it is. -/
def insertFirst (t : SlotTable n α) (a : α) : SlotTable n α :=
  match t.firstFree with
  | some i => Function.update t i (some a)
  | none => t

/-- Empty one place. -/
def erase (t : SlotTable n α) (i : Fin n) : SlotTable n α := Function.update t i none

/-- The entries, by place. -/
def contents (t : SlotTable n α) : List α := (List.finRange n).filterMap t

theorem mem_contents : a ∈ t.contents ↔ ∃ i, t i = some a := by
  simp [contents]

theorem contents_eq_nil : t.contents = [] ↔ ∀ i, t i = none := by
  simp [contents, List.filterMap_eq_nil_iff]

theorem length_contents_le (t : SlotTable n α) : t.contents.length ≤ n := by
  have h := List.length_filterMap_le t (List.finRange n)
  rwa [List.length_finRange] at h

theorem finRange_split (i : Fin n) :
    ∃ l₁ l₂, List.finRange n = l₁ ++ i :: l₂ ∧ (∀ j ∈ l₁, j < i) ∧ ∀ j ∈ l₂, i < j := by
  obtain ⟨l₁, l₂, h⟩ := List.append_of_mem (List.mem_finRange i)
  have hs : (List.finRange n).Pairwise (· < ·) := List.pairwise_lt_finRange n
  rw [h, List.pairwise_append, List.pairwise_cons] at hs
  exact ⟨l₁, l₂, h, fun j hj => hs.2.2 j hj i List.mem_cons_self, hs.2.1.1⟩

/-- **One removal.** The removed entry is cut out of `contents`; what stands before it comes
from earlier places. -/
theorem contents_erase (h : t i = some a) :
    ∃ l₁ l₂, t.contents = l₁ ++ a :: l₂ ∧ (t.erase i).contents = l₁ ++ l₂ ∧
      ∀ b ∈ l₁, ∃ j < i, t j = some b := by
  obtain ⟨p, q, hpq, hp, hq⟩ := finRange_split i
  have hne : ∀ l : List (Fin n), i ∉ l → l.filterMap (t.erase i) = l.filterMap t := by
    intro l hl
    refine List.filterMap_congr fun j hj => ?_
    exact Function.update_of_ne (by rintro rfl; exact hl hj) _ _
  refine ⟨p.filterMap t, q.filterMap t, ?_, ?_, ?_⟩
  · simp [contents, hpq, h]
  · have hpi : i ∉ p := fun hc => lt_irrefl _ (hp i hc)
    have hqi : i ∉ q := fun hc => lt_irrefl _ (hq i hc)
    simp only [contents, hpq, List.filterMap_append, List.filterMap_cons]
    rw [hne p hpi, hne q hqi]
    simp [erase]
  · intro b hb
    obtain ⟨j, hj, hjb⟩ := List.mem_filterMap.mp hb
    exact ⟨j, hp j hj, hjb⟩

theorem length_contents_erase (h : t i = some a) :
    (t.erase i).contents.length + 1 = t.contents.length := by
  obtain ⟨l₁, l₂, h₁, h₂, -⟩ := contents_erase h
  rw [h₁, h₂]
  simp only [List.length_append, List.length_cons]
  omega

theorem contents_perm_erase (h : t i = some a) : (a :: (t.erase i).contents).Perm t.contents := by
  obtain ⟨l₁, l₂, h₁, h₂, -⟩ := contents_erase h
  rw [h₁, h₂]
  exact List.perm_middle.symm

theorem mem_contents_erase {b : α} (h : b ∈ (t.erase i).contents) : b ∈ t.contents := by
  obtain ⟨j, hj⟩ := mem_contents.mp h
  by_cases hji : j = i
  · subst hji; simp [erase] at hj
  · exact mem_contents.mpr ⟨j, by rwa [erase, Function.update_of_ne hji] at hj⟩

/-! ### The first places -/

theorem firstUsed_eq_some (h : t.firstUsed = some i) : (t i).isSome ∧ ∀ j < i, t j = none := by
  obtain ⟨hi, as, bs, hl, has⟩ := List.find?_eq_some_iff_append.mp h
  refine ⟨hi, fun j hj => ?_⟩
  have hs : (List.finRange n).Pairwise (· < ·) := List.pairwise_lt_finRange n
  have hmem : j ∈ as ++ i :: bs := hl ▸ List.mem_finRange j
  rw [hl, List.pairwise_append, List.pairwise_cons] at hs
  rcases List.mem_append.mp hmem with hj' | hj'
  · have := has j hj'
    simpa using this
  · rcases List.mem_cons.mp hj' with rfl | hj'
    · exact absurd hj (lt_irrefl _)
    · exact absurd hj (not_lt.mpr (le_of_lt (hs.2.1.1 j hj')))

theorem firstUsed_eq_none (h : t.firstUsed = none) : ∀ i, t i = none := by
  intro i
  have := List.find?_eq_none.mp h i (List.mem_finRange i)
  simpa using this

theorem firstFree_eq_some (h : t.firstFree = some i) : t i = none := by
  simpa using List.find?_some h

theorem firstFree_eq_none (h : t.firstFree = none) : ∀ i, (t i).isSome := by
  intro i
  have := List.find?_eq_none.mp h i (List.mem_finRange i)
  cases ht : t i with
  | none => simp [ht] at this
  | some a => rfl

/-- **One insertion.** The new entry stands between the entries of earlier and of later places. -/
theorem contents_insertFirst (hi : t.firstFree = some i) (a : α) :
    ∃ l₁ l₂, t.contents = l₁ ++ l₂ ∧ (t.insertFirst a).contents = l₁ ++ a :: l₂ ∧
      (l₂ = [] ↔ ∀ j, i < j → t j = none) := by
  obtain ⟨p, q, hpq, hp, hq⟩ := finRange_split i
  have hne : ∀ l : List (Fin n), i ∉ l →
      l.filterMap (Function.update t i (some a)) = l.filterMap t := fun l hl =>
    List.filterMap_congr fun j hj => Function.update_of_ne (by rintro rfl; exact hl hj) _ _
  have hpi : i ∉ p := fun hc => lt_irrefl _ (hp i hc)
  have hqi : i ∉ q := fun hc => lt_irrefl _ (hq i hc)
  refine ⟨p.filterMap t, q.filterMap t, ?_, ?_, ?_⟩
  · simp [contents, hpq, firstFree_eq_some hi]
  · simp only [insertFirst, hi, contents, hpq, List.filterMap_append, List.filterMap_cons,
      Function.update_self]
    rw [hne p hpi, hne q hqi]
  · rw [List.filterMap_eq_nil_iff]
    refine ⟨fun h j hj => h j ?_, fun h j hj => h j (hq j hj)⟩
    have hmem : j ∈ p ++ i :: q := hpq ▸ List.mem_finRange j
    rcases List.mem_append.mp hmem with hjp | hjq
    · exact absurd (hp j hjp) (lt_asymm hj)
    · exact (List.mem_cons.mp hjq).resolve_left (ne_of_gt hj)

/-- Taking the first entry. -/
theorem contents_firstUsed (hi : t.firstUsed = some i) (ha : t i = some a) :
    t.contents = a :: (t.erase i).contents := by
  obtain ⟨l₁, l₂, hc, he, hbefore⟩ := contents_erase ha
  have hl₁ : l₁ = [] := by
    refine List.eq_nil_iff_forall_not_mem.mpr fun b hb => ?_
    obtain ⟨j, hj, hjb⟩ := hbefore b hb
    rw [(firstUsed_eq_some hi).2 j hj] at hjb
    cases hjb
  rw [hc, he, hl₁]
  rfl

/-! ### The place of least score

The selection loop keeps the best place so far and its score, starts from a score `top` that
nothing reaches, and replaces the best one only on a strict improvement. -/

/-- One visit of the selection loop. -/
def minStep (t : SlotTable n α) (score : α → ℤ) (best : Option (Fin n) × ℤ) (i : Fin n) :
    Option (Fin n) × ℤ :=
  match t i with
  | none => best
  | some a => if score a < best.2 then (some i, score a) else best

/-- The selection loop. -/
def minBy (t : SlotTable n α) (score : α → ℤ) (top : ℤ) : Option (Fin n) :=
  ((List.finRange n).foldl (t.minStep score) (none, top)).1

/-- What the loop knows after visiting the places of `l`: its score is at most every score seen
and at most `top`, and a recorded place is the earliest one with the recorded score. -/
structure MinInv (t : SlotTable n α) (score : α → ℤ) (top : ℤ) (l : List (Fin n))
    (best : Option (Fin n) × ℤ) : Prop where
  /-- Without a recorded place nothing seen was below `top`. -/
  none : best.1 = .none → best.2 = top
  /-- A recorded place is occupied, has the recorded score, and ties are resolved to it. -/
  some : ∀ i, best.1 = .some i → ∃ a, t i = .some a ∧ score a = best.2 ∧ best.2 < top ∧
    ∀ j ∈ l, ∀ b, t j = .some b → j < i → best.2 < score b
  /-- The recorded score is a lower bound. -/
  le : ∀ j ∈ l, ∀ b, t j = .some b → best.2 ≤ score b
  /-- Only visited places are recorded. -/
  mem : ∀ i, best.1 = .some i → i ∈ l

theorem MinInv.step {l : List (Fin n)} {best : Option (Fin n) × ℤ} (h : MinInv t score top l best)
    (htop : best.2 ≤ top) (hi : ∀ j ∈ l, j < i) :
    MinInv t score top (l ++ [i]) (t.minStep score best i) ∧
      (t.minStep score best i).2 ≤ top := by
  have hsplit : ∀ {P : Fin n → Prop}, (∀ j ∈ l, P j) → P i → ∀ j ∈ l ++ [i], P j := by
    intro P hl hP j hj
    rcases List.mem_append.mp hj with hj | hj
    · exact hl j hj
    · rw [List.mem_singleton.mp hj]; exact hP
  have hmem : ∀ {j}, j ∈ l → j ∈ l ++ [i] := fun hj => List.mem_append_left _ hj
  cases hti : t i with
  | none =>
    simp only [minStep, hti]
    refine ⟨⟨h.none, fun k hk => ?_, hsplit h.le (by simp [hti]), fun k hk => hmem (h.mem k hk)⟩,
      htop⟩
    obtain ⟨a, ha, hs, hlt, hfirst⟩ := h.some k hk
    exact ⟨a, ha, hs, hlt, hsplit hfirst (by simp [hti])⟩
  | some a =>
    simp only [minStep, hti]
    split
    · rename_i hlt
      refine ⟨⟨by simp, fun k hk => ?_, hsplit (fun j hj b hb => ?_) ?_, ?_⟩, by simp; omega⟩
      · obtain rfl : i = k := by simpa using hk
        refine ⟨a, hti, rfl, by simp; omega, hsplit (fun j hj b hb _ => ?_) ?_⟩
        · exact lt_of_lt_of_le hlt (h.le j hj b hb)
        · intro b _ hii; exact absurd hii (lt_irrefl _)
      · exact le_of_lt (lt_of_lt_of_le hlt (h.le j hj b hb))
      · intro b hb
        obtain rfl : a = b := by simpa [hti] using hb
        exact le_refl _
      · intro k hk
        obtain rfl : i = k := by simpa using hk
        simp
    · rename_i hge
      refine ⟨⟨h.none, fun k hk => ?_, hsplit h.le ?_, fun k hk => hmem (h.mem k hk)⟩, htop⟩
      · obtain ⟨c, hc, hs, hlt, hfirst⟩ := h.some k hk
        refine ⟨c, hc, hs, hlt, hsplit hfirst ?_⟩
        intro b _ hik
        exact absurd hik (not_lt.mpr (le_of_lt (hi k (h.mem k hk))))
      · intro b hb
        obtain rfl : a = b := by simpa [hti] using hb
        omega

theorem minInv_foldl (t : SlotTable n α) (score : α → ℤ) (top : ℤ) :
    MinInv t score top (List.finRange n)
      ((List.finRange n).foldl (t.minStep score) (none, top)) := by
  -- the invariant holds of every initial segment of the places
  have key : ∀ (l₂ l₁ : List (Fin n)) (best : Option (Fin n) × ℤ),
      (l₁ ++ l₂).Pairwise (· < ·) → MinInv t score top l₁ best → best.2 ≤ top →
        MinInv t score top (l₁ ++ l₂) (l₂.foldl (t.minStep score) best) := by
    intro l₂
    induction l₂ with
    | nil => intro l₁ best _ h _; simpa using h
    | cons i l₂ ih =>
      intro l₁ best hp h htop
      have hlt : ∀ j ∈ l₁, j < i := fun j hj =>
        (List.pairwise_append.mp hp).2.2 j hj i List.mem_cons_self
      obtain ⟨h', htop'⟩ := h.step htop hlt
      have := ih (l₁ ++ [i]) _ (by simpa using hp) h' htop'
      simpa using this
  have hinit : MinInv t score top [] (none, top) := ⟨by simp, by simp, by simp, by simp⟩
  simpa using key (List.finRange n) [] (none, top)
    (by simpa using List.pairwise_lt_finRange n) hinit (le_refl _)

/-- **The selection is minimal, and ties go to the earliest place.** -/
theorem minBy_eq_some (h : t.minBy score top = some i) :
    ∃ a, t i = some a ∧ score a < top ∧ (∀ j b, t j = some b → score a ≤ score b) ∧
      ∀ j < i, ∀ b, t j = some b → score a < score b := by
  have hinv := minInv_foldl t score top
  obtain ⟨a, ha, hs, hlt, hfirst⟩ := hinv.some i h
  refine ⟨a, ha, hs ▸ hlt, fun j b hb => hs ▸ hinv.le j (List.mem_finRange j) b hb, ?_⟩
  intro j hj b hb
  exact hs ▸ hfirst j (List.mem_finRange j) b hb hj

/-- Nothing is selected only when no entry scores below `top`. -/
theorem minBy_eq_none (h : t.minBy score top = none) : ∀ j b, t j = some b → top ≤ score b := by
  have hinv := minInv_foldl t score top
  intro j b hb
  have := hinv.le j (List.mem_finRange j) b hb
  rwa [hinv.none h] at this

/-! ### Tables filled from empty -/

/-- The table holding the entries of a list in its first places. -/
def ofList (l : List α) : SlotTable n α := fun i => l[(i : ℕ)]?

theorem contents_ofList {l : List α} (h : l.length ≤ n) :
    (ofList l : SlotTable n α).contents = l := by
  induction l generalizing n with
  | nil =>
    exact contents_eq_nil.mpr fun i => by simp [ofList]
  | cons a l ih =>
    cases n with
    | zero => simp at h
    | succ n =>
      have htail : (fun i : Fin n => (ofList (a :: l) : SlotTable (n + 1) α) i.succ)
          = (ofList l : SlotTable n α) := by
        funext i; simp [ofList]
      rw [contents, List.finRange_succ, List.filterMap_cons]
      simp only [ofList, Fin.val_zero, List.getElem?_cons_zero, List.filterMap_map]
      congr 1
      have := ih (n := n) (by simpa using h)
      rw [contents, ← htail] at this
      exact this

/-- Inserting into a table filled from empty appends to its list. -/
theorem insertFirst_ofList {l : List α} (h : l.length < n) (a : α) :
    (ofList l : SlotTable n α).insertFirst a = ofList (l ++ [a]) := by
  have hfree : (ofList l : SlotTable n α).firstFree = some ⟨l.length, h⟩ := by
    obtain ⟨p, q, hpq, hp, -⟩ := finRange_split (⟨l.length, h⟩ : Fin n)
    refine List.find?_eq_some_iff_append.mpr ⟨by simp [ofList], p, q, hpq, fun j hj => ?_⟩
    have : (j : ℕ) < l.length := hp j hj
    simp [ofList, this]
  rw [insertFirst, hfree]
  funext i
  by_cases hi : i = ⟨l.length, h⟩
  · subst hi; simp [ofList]
  · have hne : (i : ℕ) ≠ l.length := fun hc => hi (Fin.ext hc)
    simp only [Function.update_of_ne hi, ofList]
    rcases Nat.lt_or_gt_of_ne hne with hlt | hgt
    · rw [List.getElem?_append_left hlt]
    · rw [List.getElem?_eq_none (by omega), List.getElem?_eq_none (by simp; omega)]

end SlotTable
