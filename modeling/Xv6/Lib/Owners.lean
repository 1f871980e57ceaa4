import Mathlib.Tactic.Common

/-!
# Cells and their owners

An allocator keeps a set of used cells; elsewhere some structure holds references to cells. The
two agree when every used cell is reserved or held by exactly one place, and nothing held is
reserved or unused: then no cell is lost, shared or freed while it is held. `Exact` says this for
any type of cells and any type of places. It is kept when unused cells are taken for a place
(`Exact.takeAll`, `Exact.take`) and when places are emptied and what they held is freed
(`Exact.release`).
-/

namespace Owners

variable {κ β : Type*}

/-- The used cells are the reserved ones and those that are held, each by one place. -/
structure Exact (used reserved : β → Prop) (holds : κ → β → Prop) : Prop where
  inj : ∀ {k l b}, holds k b → holds l b → k = l
  apart : ∀ {k b}, holds k b → ¬ reserved b
  used_iff : ∀ b, used b ↔ reserved b ∨ ∃ k, holds k b

variable {used used' reserved : β → Prop} {holds holds' : κ → β → Prop}

theorem Exact.used_of_holds (h : Exact used reserved holds) {k : κ} {b : β} (hk : holds k b) :
    used b :=
  (h.used_iff b).mpr (Or.inr ⟨k, hk⟩)

theorem Exact.used_of_reserved (h : Exact used reserved holds) {b : β} (hb : reserved b) : used b :=
  (h.used_iff b).mpr (Or.inl hb)

/-- Nothing holds an unused cell. -/
theorem Exact.not_holds (h : Exact used reserved holds) {b : β} (hb : ¬ used b) (k : κ) :
    ¬ holds k b :=
  fun hk => hb (h.used_of_holds hk)

/-- The unused cells in `X` are taken for place `k`. -/
theorem Exact.takeAll (h : Exact used reserved holds) {k : κ} {X : β → Prop}
    (hX : ∀ x, X x → ¬ used x) (hused : ∀ b, used' b ↔ used b ∨ X b)
    (hholds : ∀ l b, holds' l b ↔ holds l b ∨ (l = k ∧ X b)) :
    Exact used' reserved holds' where
  inj := by
    intro l m b hl hm
    rw [hholds] at hl hm
    rcases hl with hl | ⟨rfl, hb⟩
    · rcases hm with hm | ⟨rfl, hb⟩
      · exact h.inj hl hm
      · exact absurd hl (h.not_holds (hX b hb) l)
    · rcases hm with hm | ⟨rfl, -⟩
      · exact absurd hm (h.not_holds (hX b hb) m)
      · rfl
  apart := by
    intro l b hl hb
    rw [hholds] at hl
    rcases hl with hl | ⟨-, hX'⟩
    · exact h.apart hl hb
    · exact hX b hX' (h.used_of_reserved hb)
  used_iff := by
    intro b
    rw [hused, h.used_iff, or_assoc]
    refine or_congr_right ?_
    constructor
    · rintro (⟨l, hl⟩ | hb)
      · exact ⟨l, (hholds l b).mpr (Or.inl hl)⟩
      · exact ⟨k, (hholds k b).mpr (Or.inr ⟨rfl, hb⟩)⟩
    · rintro ⟨l, hl⟩
      rcases (hholds l b).mp hl with hl | ⟨-, hb⟩
      · exact Or.inl ⟨l, hl⟩
      · exact Or.inr hb

/-- An unused cell `x` is taken for place `k`. -/
theorem Exact.take (h : Exact used reserved holds) {k : κ} {x : β} (hx : ¬ used x)
    (hused : ∀ b, used' b ↔ used b ∨ b = x)
    (hholds : ∀ l b, holds' l b ↔ holds l b ∨ (l = k ∧ b = x)) : Exact used' reserved holds' :=
  h.takeAll (by rintro b rfl; exact hx) hused hholds

/-- The places in `P` are emptied and what they held is freed. -/
theorem Exact.release (h : Exact used reserved holds) (P : κ → Prop)
    (hused : ∀ b, used' b ↔ used b ∧ ¬ ∃ k, P k ∧ holds k b)
    (hholds : ∀ l b, holds' l b ↔ holds l b ∧ ¬ P l) :
    Exact used' reserved holds' where
  inj := by
    intro l m b hl hm
    exact h.inj ((hholds l b).mp hl).1 ((hholds m b).mp hm).1
  apart := by
    intro l b hl
    exact h.apart ((hholds l b).mp hl).1
  used_iff := by
    intro b
    rw [hused, h.used_iff]
    constructor
    · rintro ⟨hb | ⟨k, hk⟩, hfree⟩
      · exact Or.inl hb
      · exact Or.inr ⟨k, (hholds k b).mpr ⟨hk, fun hP => hfree ⟨k, hP, hk⟩⟩⟩
    · rintro (hb | ⟨k, hk⟩)
      · exact ⟨Or.inl hb, fun hfree => h.apart hfree.choose_spec.2 hb⟩
      · obtain ⟨hk, hP⟩ := (hholds k b).mp hk
        refine ⟨Or.inr ⟨k, hk⟩, fun hfree => ?_⟩
        obtain ⟨l, hl, hlb⟩ := hfree
        exact hP (by rw [h.inj hk hlb]; exact hl)

end Owners
