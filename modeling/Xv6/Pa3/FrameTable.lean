import Xv6.Lib.Clock
import Xv6.Lib.FirstMax
import Xv6.Lib.Transition
import Xv6.Pa3.Memory
import Mathlib.Algebra.BigOperators.Group.Finset.Piecewise

/-!
# The frame table and its clock

`clck_victim` combines two rules. A hand goes round the frames in use and clears the reference bits
that are set, until it comes to one that is not; this is the clock of `Xv6.Lib.Clock`. There it does
not take the frame it has come to, but looks through the whole table for a frame with a clear
bit and a higher level; this is the scan of `Xv6.Lib.FirstMax`.

The two rules work against each other. The scan reads bits that the hand has just cleared, so a
frame that was referenced a moment ago can be chosen before one that was not. `second_chance_iff`
says when this does not happen.

The reference bit is an `int`, and `frame_set_ref` stores what it is given. A value other than `0`
and `1` stops the hand, but does not count as clear in the scan. Nothing in the kernel calls
`frame_set_ref`.

## Main results

* `clckVictim_picks` — where the hand stops, and what is chosen there
* `victim_selection` — what holds in every state of the frame table
* `second_chance_iff` — when a frame keeps its second chance
-/

namespace Xv6

namespace Pa3

open WeakestPre
open Function (update update_of_ne update_self)
open Mem (Halt Page)

variable {e : FrameEntry} {i : ℕ}

section

variable {frames : ℕ → FrameEntry}

/-! ### Counting -/

/-- The number of entries of a frame table that are in use. -/
def inUseCount (frames : ℕ → FrameEntry) : ℕ :=
  ((Finset.range maxFrames).filter fun i => (frames i).inUse = true).card

theorem inUseCount_eq_sum (frames : ℕ → FrameEntry) :
    inUseCount frames = ∑ i ∈ Finset.range maxFrames, (frames i).inUse.toNat := by
  rw [inUseCount, Finset.card_filter]
  refine Finset.sum_congr rfl fun i _ => ?_
  cases (frames i).inUse <;> rfl

/-- Replacing an entry. -/
theorem inUseCount_update (frames : ℕ → FrameEntry) (hi : i < maxFrames) (e : FrameEntry) :
    inUseCount (update frames i e) + (frames i).inUse.toNat
      = inUseCount frames + e.inUse.toNat := by
  have hmem : i ∈ Finset.range maxFrames := Finset.mem_range.mpr hi
  have hrest : ∑ j ∈ (Finset.range maxFrames).erase i, (update frames i e j).inUse.toNat
      = ∑ j ∈ (Finset.range maxFrames).erase i, (frames j).inUse.toNat :=
    Finset.sum_congr rfl fun j hj => by
      rw [update_of_ne (Finset.ne_of_mem_erase hj)]
  rw [inUseCount_eq_sum, inUseCount_eq_sum, ← Finset.add_sum_erase _ _ hmem,
    ← Finset.add_sum_erase _ (fun j => (frames j).inUse.toNat) hmem, hrest, update_self]
  omega

theorem exists_free_of_inUseCount_lt (h : inUseCount frames < maxFrames) :
    ∃ i < maxFrames, (frames i).inUse = false := by
  by_contra hall
  push Not at hall
  have hcard : inUseCount frames = maxFrames := by
    rw [inUseCount, Finset.filter_true_of_mem, Finset.card_range]
    exact fun i hi => Bool.not_eq_false _ ▸ hall i (Finset.mem_range.mp hi)
  omega

theorem exists_inUse_of_inUseCount_ne (h : inUseCount frames ≠ 0) :
    ∃ i < maxFrames, (frames i).inUse = true := by
  obtain ⟨i, hi⟩ := Finset.card_pos.mp (Nat.pos_of_ne_zero h)
  rw [Finset.mem_filter, Finset.mem_range] at hi
  exact ⟨i, hi⟩

theorem inUseCount_le (frames : ℕ → FrameEntry) : inUseCount frames ≤ maxFrames :=
  (Finset.card_filter_le _ _).trans (Finset.card_range _).le

/-- The count does not depend on the other fields. -/
theorem inUseCount_congr {frames' : ℕ → FrameEntry}
    (h : ∀ i, (frames' i).inUse = (frames i).inUse) : inUseCount frames' = inUseCount frames := by
  rw [inUseCount_eq_sum, inUseCount_eq_sum]
  exact Finset.sum_congr rfl fun i _ => by rw [h]

/-- The loops over a table find the first index with the property if there is one. -/
theorem find_range_of_exists {n : ℕ} {P : ℕ → Bool} (h : ∃ i < n, P i = true) :
    ∃ i < n, P i = true ∧ (List.range n).find? P = some i := by
  cases hf : (List.range n).find? P with
  | none =>
    obtain ⟨i, hi, hP⟩ := h
    exact absurd hP (List.find?_eq_none.mp hf i (List.mem_range.mpr hi))
  | some i =>
    exact ⟨i, List.mem_range.mp (List.mem_of_find?_eq_some hf), List.find?_some hf, rfl⟩

end

/-! ### The clock -/

/-- The frame table as a clock. A bit is set if it is `1`. -/
def Kernel.clock (s : Kernel) : Clock where
  size := maxFrames
  look i := if (s.frameTable i).inUse then some i else none
  hand := s.clockHand % maxFrames
  bits j := decide ((s.frameTable j).refBit = 1)

/-- The state after `t` visits that have not stopped. -/
def Kernel.turned (s : Kernel) (t : ℕ) : Kernel :=
  { s with
    frameTable := fun j => { s.frameTable j with
      refBit := if (s.frameTable j).refBit = 1 ∧ s.clock.Seen t j then 0
        else (s.frameTable j).refBit } }

section

variable {s s' : Kernel} {t j v : ℕ} {E : Halt → Kernel → Prop}

theorem hand_lt (s : Kernel) : s.clock.hand < s.clock.size := Nat.mod_lt _ (by decide)

theorem size_pos (s : Kernel) : 0 < s.clock.size := (hand_lt s).pos

theorem pos_eq (s : Kernel) (t : ℕ) : s.clock.pos t = (s.clockHand + t) % maxFrames :=
  Nat.mod_add_mod _ _ _

theorem look_eq_some : s.clock.look i = some j ↔ (s.frameTable i).inUse = true ∧ i = j := by
  simp only [Kernel.clock, Option.ite_none_right_eq_some, Option.some.injEq]

theorem look_own (s : Kernel) : ∀ i < s.clock.size, ∀ j, s.clock.look i = some j → j = i :=
  fun _ _ _ h => (look_eq_some.mp h).2.symm

theorem turned_zero (s : Kernel) : s.turned 0 = s := by
  have hnot : ∀ j, ¬ s.clock.Seen 0 j := by
    rintro j ⟨u, hu, -⟩
    exact absurd hu u.not_lt_zero
  simp only [Kernel.turned, hnot, and_false, if_false]

/-- A bit that the hand finds set. -/
theorem turned_refBit (t j : ℕ) :
    ((s.turned t).frameTable j).refBit ≠ 1 ↔ s.clock.bitsAfter t j = false := by
  rw [Clock.bitsAfter_eq_false]
  change (if _ ∧ _ then (0 : ℤ) else _) ≠ 1 ↔ decide _ = false ∨ _
  rw [decide_eq_false_iff_not]
  split
  · rename_i h
    exact ⟨fun _ => Or.inr h.2, fun _ => zero_ne_one⟩
  · rename_i h
    exact ⟨Or.inl, fun hor hone => hor.elim (fun hne => hne hone) fun hseen => h ⟨hone, hseen⟩⟩

/-- Whether the hand stops can be read off the frame it is at. -/
theorem stops_iff_turned : s.clock.Stops t ↔
    ((s.turned t).frameTable (s.clock.pos t)).inUse = true ∧
    ((s.turned t).frameTable (s.clock.pos t)).refBit ≠ 1 := by
  simp only [Clock.Stops, look_eq_some, turned_refBit]
  constructor
  · rintro ⟨j, ⟨hin, rfl⟩, hbit⟩
    exact ⟨hin, hbit⟩
  · rintro ⟨hin, hbit⟩
    exact ⟨_, ⟨hin, rfl⟩, hbit⟩

/-- A visit to an entry that is not in use. -/
theorem turned_succ_of_free (h : (s.frameTable (s.clock.pos t)).inUse = false) :
    s.turned (t + 1) = s.turned t := by
  have hlook : ∀ j, s.clock.look (s.clock.pos t) ≠ some j := by
    intro j hj
    rw [(look_eq_some.mp hj).1] at h
    cases h
  simp only [Kernel.turned, Clock.seen_succ, hlook, or_false]

/-- A visit to a frame whose bit is set. -/
theorem turned_succ_of_set (hin : (s.frameTable (s.clock.pos t)).inUse = true)
    (hbit : ((s.turned t).frameTable (s.clock.pos t)).refBit = 1) :
    { s.turned t with
      frameTable := update (s.turned t).frameTable (s.clock.pos t)
        { (s.turned t).frameTable (s.clock.pos t) with refBit := 0 } } = s.turned (t + 1) := by
  have hset : (s.frameTable (s.clock.pos t)).refBit = 1 := by
    by_contra hne
    refine (turned_refBit t _).mpr (Clock.bitsAfter_eq_false.mpr (Or.inl ?_)) hbit
    exact decide_eq_false hne
  have hframes : update (s.turned t).frameTable (s.clock.pos t)
      { (s.turned t).frameTable (s.clock.pos t) with refBit := 0 }
      = (s.turned (t + 1)).frameTable := by
    funext j
    by_cases hj : j = s.clock.pos t
    · subst hj
      have hseen : s.clock.Seen (t + 1) (s.clock.pos t) :=
        Clock.seen_succ.mpr (Or.inr (look_eq_some.mpr ⟨hin, rfl⟩))
      simp only [update_self, Kernel.turned, hset, hseen, and_self, if_true]
    · have hseen : s.clock.Seen (t + 1) j ↔ s.clock.Seen t j := by
        rw [Clock.seen_succ, look_eq_some]
        exact or_iff_left fun h => hj h.2.symm
      simp only [update_of_ne hj, Kernel.turned, hseen]
  rw [hframes]
  rfl

/-! ### The victim -/

/-- An entry that the scan takes into account. -/
def Candidate (s : Kernel) (k : ℕ) : Prop :=
  (s.frameTable k).inUse = true ∧ (s.frameTable k).refBit = 0

instance (s : Kernel) : DecidablePred (Candidate s) :=
  fun _ => inferInstanceAs (Decidable (_ ∧ _))

theorem better_eq_step (s : Kernel) : better s = FirstMax.step (Candidate s) (frameLevel s) := by
  funext best k
  have hskip : ((s.frameTable k).inUse = false ∨ (s.frameTable k).refBit ≠ 0) ↔
      ¬ Candidate s k := by
    rw [Candidate, not_and_or, Bool.not_eq_true]
  rw [better, FirstMax.step]
  by_cases hk : Candidate s k
  · rw [if_neg (mt hskip.mp (not_not_intro hk)), if_congr (and_iff_right hk).symm rfl rfl]
  · rw [if_pos (hskip.mpr hk), if_neg fun h => hk h.1]

/-- The victim is the highest of the candidates and the frame where the hand stopped. -/
theorem bestVictim_best (s : Kernel) (j : ℕ) :
    FirstMax.Best (Candidate s) (frameLevel s) j maxFrames (bestVictim s j) := by
  rw [bestVictim, better_eq_step]
  exact (FirstMax.scan_best j maxFrames).1

/-- The hand stops at visit `t`, and entry `v` is chosen there. -/
structure Picks (s : Kernel) (t v : ℕ) (s' : Kernel) : Prop where
  stop : s.clock.FirstStop t
  victim : v = bestVictim (s.turned t) (s.clock.pos t)
  state : s' = { s.turned t with clockHand := (v + 1) % maxFrames }

/-- What the hand does from visit `t` on, if it has come so far. -/
theorem clockPass_picks {n : ℕ}
    (hpos : ∀ u, s.clock.pos (t + u) = (s.clockHand + (i + u)) % maxFrames)
    (hfirst : ∀ u < t, ¬ s.clock.Stops u) :
    wp (clockPass n i) (fun o s' =>
      (o = none ∧ s' = s.turned (t + n) ∧ ∀ u < t + n, ¬ s.clock.Stops u) ∨
      ∃ v, o = some v ∧ ∃ u < t + n, Picks s u v s') E (s.turned t) := by
  induction n generalizing t i with
  | zero => exact Or.inl ⟨rfl, rfl, hfirst⟩
  | succ n ih =>
    have hj : ((s.turned t).clockHand + i) % maxFrames = s.clock.pos t := (hpos 0).symm
    have hpos' : ∀ u, s.clock.pos (t + 1 + u) = (s.clockHand + (i + 1 + u)) % maxFrames := by
      intro u
      rw [Nat.add_assoc t, hpos, Nat.add_assoc i]
    have hnext : ¬ s.clock.Stops t → ∀ u < t + 1, ¬ s.clock.Stops u := by
      intro hnot u hu
      rcases Nat.lt_succ_iff_lt_or_eq.mp hu with hlt | rfl
      · exact hfirst u hlt
      · exact hnot
    have hlen : t + 1 + n = t + (n + 1) := by omega
    rw [clockPass, wp_bind, wp_get]
    dsimp only
    rw [hj]
    split_ifs with hfree hset
    · have hnot : ¬ s.clock.Stops t := by
        intro hstop
        rw [(stops_iff_turned.mp hstop).1] at hfree
        cases hfree
      have hrest := ih hpos' (hnext hnot)
      rwa [turned_succ_of_free (s := s) hfree, hlen] at hrest
    · have hnot : ¬ s.clock.Stops t := fun hstop => (stops_iff_turned.mp hstop).2 hset
      have hrest := ih hpos' (hnext hnot)
      rw [← turned_succ_of_set (s := s) (Bool.not_eq_false _ ▸ hfree) hset, hlen] at hrest
      rw [wp_bind, wp_set]
      exact hrest
    · rw [wp_bind, wp_set]
      have hstop : s.clock.Stops t := stops_iff_turned.mpr ⟨Bool.not_eq_false _ ▸ hfree, hset⟩
      exact Or.inr ⟨_, rfl, t, by omega, ⟨hstop, hfirst⟩, rfl, rfl⟩

/-- **What `clck_victim` does** with a table that counts as not empty. -/
theorem clckVictim_picks (hne : s.userFrames ≠ 0) :
    wp clckVictim (fun o s' =>
      (o = none ∧ s' = s.turned (2 * maxFrames) ∧ ∀ u < 2 * maxFrames, ¬ s.clock.Stops u) ∨
      ∃ v, o = some v ∧ ∃ t < 2 * maxFrames, Picks s t v s') E s := by
  have hround : ∀ u, s.clock.pos (maxFrames + u) = (s.clockHand + (0 + u)) % maxFrames := by
    intro u
    rw [Nat.zero_add, ← pos_eq]
    exact Clock.pos_size_add u
  have hfirst := clockPass_picks (E := E) (s := s) (t := 0) (n := maxFrames) (i := 0)
    (fun u => by rw [pos_eq]) fun u hu => absurd hu u.not_lt_zero
  rw [turned_zero] at hfirst
  rw [clckVictim, wp_bind, wp_get, if_neg hne]
  refine wp_call hfirst fun o s₁ hs₁ => ?_
  rcases hs₁ with ⟨rfl, rfl, hnot⟩ | ⟨v, rfl, t, ht, hpick⟩
  · rw [Nat.zero_add] at hnot ⊢
    have hsecond := clockPass_picks (E := E) (n := maxFrames) hround hnot
    rwa [← two_mul] at hsecond
  · exact Or.inr ⟨v, rfl, t, by omega, hpick⟩

/-! ### What a call changes -/

/-- Reference bits have been cleared, and the hand has moved. -/
structure Ticked (s s' : Kernel) : Prop where
  eq : s' = { s with frameTable := s'.frameTable, clockHand := s'.clockHand }
  cleared : ∀ i, s'.frameTable i = s.frameTable i ∨
    (s.frameTable i).refBit = 1 ∧ s'.frameTable i = { s.frameTable i with refBit := 0 }

theorem Ticked.refl (s : Kernel) : Ticked s s := ⟨rfl, fun _ => Or.inl rfl⟩

theorem Ticked.inUse (h : Ticked s s') (i : ℕ) :
    (s'.frameTable i).inUse = (s.frameTable i).inUse := by
  rcases h.cleared i with hi | ⟨-, hi⟩ <;> rw [hi]

theorem Ticked.owner (h : Ticked s s') (i : ℕ) : (s'.frameTable i).p = (s.frameTable i).p ∧
    (s'.frameTable i).virtualAddr = (s.frameTable i).virtualAddr ∧
    (s'.frameTable i).physicalAddr = (s.frameTable i).physicalAddr := by
  rcases h.cleared i with hi | ⟨-, hi⟩ <;> rw [hi] <;> exact ⟨rfl, rfl, rfl⟩

theorem turned_cleared (s : Kernel) (t i : ℕ) : (s.turned t).frameTable i = s.frameTable i ∨
    (s.frameTable i).refBit = 1 ∧
      (s.turned t).frameTable i = { s.frameTable i with refBit := 0 } := by
  by_cases h : (s.frameTable i).refBit = 1 ∧ s.clock.Seen t i
  · exact Or.inr ⟨h.1, by simp only [Kernel.turned, if_pos h]⟩
  · exact Or.inl (by simp only [Kernel.turned, if_neg h])

theorem turned_ticked (s : Kernel) (t : ℕ) : Ticked s (s.turned t) := ⟨rfl, turned_cleared s t⟩

theorem Picks.ticked (h : Picks s t v s') : Ticked s s' := by
  rw [h.state]
  exact ⟨rfl, turned_cleared s t⟩

/-- The levels are those of the call. -/
theorem Picks.best (h : Picks s t v s') :
    FirstMax.Best (Candidate (s.turned t)) (frameLevel s) (s.clock.pos t) maxFrames v := by
  have hbest := bestVictim_best (s.turned t) (s.clock.pos t)
  rw [← h.victim] at hbest
  exact hbest

/-- The victim is a frame in use. -/
theorem Picks.inUse (h : Picks s t v s') : v < maxFrames ∧ (s.frameTable v).inUse = true := by
  rcases h.best.candidate with rfl | ⟨hv, hcand, -⟩
  · exact ⟨Clock.pos_lt (size_pos s) t, (stops_iff_turned.mp h.stop.stops).1⟩
  · exact ⟨hv, hcand.1⟩

/-! ### Every state of the table -/

/-- The counter is right. -/
def Counted (s : Kernel) : Prop := s.userFrames = inUseCount s.frameTable

/-- No reference bit is other than `0` and `1`. -/
def Binary (s : Kernel) : Prop := ∀ i, (s.frameTable i).refBit = 0 ∨ (s.frameTable i).refBit = 1

theorem Counted.le (h : Counted s) : s.userFrames ≤ maxFrames := by
  rw [h]
  exact_mod_cast inUseCount_le s.frameTable

/-- A table that counts as empty is empty. -/
theorem Counted.eq_zero_iff (h : Counted s) :
    s.userFrames = 0 ↔ ∀ i < maxFrames, (s.frameTable i).inUse = false := by
  rw [h, Nat.cast_eq_zero]
  constructor
  · intro h0 i hi
    by_contra hin
    rw [inUseCount, Finset.card_eq_zero, Finset.filter_eq_empty_iff] at h0
    exact h0 (Finset.mem_range.mpr hi) (Bool.not_eq_false _ ▸ hin)
  · intro hall
    by_contra hne
    obtain ⟨i, hi, hin⟩ := exists_inUse_of_inUseCount_ne hne
    rw [hall i hi] at hin
    cases hin

theorem Counted.ticked (h : Counted s) (ht : Ticked s s') : Counted s' := by
  rw [Counted, inUseCount_congr ht.inUse, ← h, ht.eq]

theorem Binary.ticked (h : Binary s) (ht : Ticked s s') : Binary s' := by
  intro i
  rcases ht.cleared i with hi | ⟨-, hi⟩ <;> rw [hi]
  · exact h i
  · exact Or.inl rfl

theorem Binary.update (h : Binary s) (he : e.refBit = 0 ∨ e.refBit = 1) (i j : ℕ) :
    (update s.frameTable i e j).refBit = 0 ∨
      (update s.frameTable i e j).refBit = 1 := by
  by_cases hj : j = i
  · subst hj
    rwa [update_self]
  · rw [update_of_ne hj]
    exact h j

/-- **`frame_alloc`** fails exactly when the table is full. -/
theorem frameAlloc_spec (h : Counted s) (p : Option ℕ) (va pa : ℕ) :
    wp (frameAlloc p va pa) (fun r s' =>
      (r = 0 ∧ s.userFrames < maxFrames ∧ ∃ i < maxFrames, (s.frameTable i).inUse = false ∧
        s' = { s with
          frameTable := update s.frameTable i ⟨true, p, va, pa, 1⟩
          userFrames := s.userFrames + 1 }) ∨
      (r = 1 ∧ ¬ s.userFrames < maxFrames ∧ s' = s)) E s := by
  rw [frameAlloc, wp_bind, wp_get]
  by_cases hroom : s.userFrames < maxFrames
  · have hlt : inUseCount s.frameTable < maxFrames := by
      rw [h] at hroom
      exact_mod_cast hroom
    obtain ⟨i, hi, hfree⟩ := exists_free_of_inUseCount_lt hlt
    obtain ⟨i, hi, hfree, hfind⟩ := find_range_of_exists
      (P := fun i => !(s.frameTable i).inUse) ⟨i, hi, by simp [hfree]⟩
    rw [if_pos hroom, hfind]
    exact Or.inl ⟨rfl, hroom, i, hi, by simpa using hfree, rfl⟩
  · rw [if_neg hroom]
    exact Or.inr ⟨rfl, hroom, rfl⟩

/-- The entry of a page. -/
theorem frameOf_cases (s : Kernel) (pa : ℕ) :
    (∃ i < maxFrames, frameOf s pa = some i ∧ (s.frameTable i).inUse = true ∧
      (s.frameTable i).physicalAddr = pa) ∨
    (frameOf s pa = none ∧ ∀ i < maxFrames, (s.frameTable i).inUse = true →
      (s.frameTable i).physicalAddr ≠ pa) := by
  have hP : ∀ i, ((s.frameTable i).inUse && (s.frameTable i).physicalAddr == pa) = true ↔
      (s.frameTable i).inUse = true ∧ (s.frameTable i).physicalAddr = pa := by
    intro i
    rw [Bool.and_eq_true, beq_iff_eq]
  rw [frameOf]
  cases hof : (List.range maxFrames).find?
      (fun i => (s.frameTable i).inUse && (s.frameTable i).physicalAddr == pa) with
  | some i =>
    have hi := List.mem_range.mp (List.mem_of_find?_eq_some hof)
    have hPi := List.find?_some hof
    exact Or.inl ⟨i, hi, rfl, (hP i).mp hPi⟩
  | none =>
    refine Or.inr ⟨rfl, fun i hi hin hpa => ?_⟩
    exact List.find?_eq_none.mp hof i (List.mem_range.mpr hi) ((hP i).mpr ⟨hin, hpa⟩)

theorem Counted.alloc (h : Counted s) (hi : i < maxFrames) (hfree : (s.frameTable i).inUse = false)
    (he : e.inUse = true) : s.userFrames + 1 = inUseCount (update s.frameTable i e) := by
  have hupd := inUseCount_update s.frameTable hi e
  rw [hfree, he, Bool.toNat_false, Bool.toNat_true] at hupd
  rw [h, ← Nat.cast_succ, Nat.succ_eq_add_one, ← hupd, Nat.add_zero]

theorem Counted.free (h : Counted s) (hi : i < maxFrames) (hin : (s.frameTable i).inUse = true)
    (he : e.inUse = false) : s.userFrames - 1 = inUseCount (update s.frameTable i e) := by
  have hupd := inUseCount_update s.frameTable hi e
  rw [hin, he, Bool.toNat_false, Bool.toNat_true] at hupd
  rw [h]
  omega

/-- The calls of the frame table, and what the scheduler does to a process between them. -/
inductive FrameCall where
  | alloc (p : Option ℕ) (va pa : ℕ)
  | free (pa : ℕ)
  | setRef (pa : ℕ) (ref : ℤ)
  | victim
  | setLevel (p : ℕ) (level : ℤ)

/-- The call does not store a reference bit other than `0` and `1`. -/
def FrameCall.IsBit : FrameCall → Prop
  | .setRef _ ref => ref = 0 ∨ ref = 1
  | _ => True

def FrameCall.exec : FrameCall → M Unit
  | .alloc p va pa => do
    let _ ← frameAlloc p va pa
    pure ()
  | .free pa => frameFree pa
  | .setRef pa ref => frameSetRef pa ref
  | .victim => do
    let _ ← clckVictim
    pure ()
  | .setLevel p level => modify (Kernel.modProc p fun q => { q with level := level })

/-- A sequence of calls. -/
def execCalls : List FrameCall → M Unit
  | [] => pure ()
  | c :: cs => do
    c.exec
    execCalls cs

/-- What a caller of `clck_victim` can rely on. -/
structure Selects (s : Kernel) (o : Option ℕ) (s' : Kernel) : Prop where
  none_iff : o = none ↔ ∀ i < maxFrames, (s.frameTable i).inUse = false
  inUse : ∀ v, o = some v → v < maxFrames ∧ (s'.frameTable v).inUse = true
  highest : ∀ v, o = some v → ∀ k < maxFrames, Candidate s' k → frameLevel s' k ≤ frameLevel s' v
  ticked : Ticked s s'

/-- **The clock finds a victim** if there is a frame in use. -/
theorem clckVictim_spec (h : Counted s) :
    wp clckVictim (fun o s' => Selects s o s' ∧
      (Binary s → ∀ v, o = some v → (s'.frameTable v).refBit = 0)) E s := by
  by_cases h0 : s.userFrames = 0
  · rw [clckVictim, wp_bind, wp_get, if_pos h0]
    exact ⟨⟨iff_of_true rfl (h.eq_zero_iff.mp h0), by simp, by simp, .refl s⟩, by simp⟩
  · have hused : ∃ i < maxFrames, (s.frameTable i).inUse = true := by
      refine exists_inUse_of_inUseCount_ne fun hcount => h0 ?_
      rw [h, hcount, Nat.cast_zero]
    refine wp_imp (clckVictim_picks h0) fun o s' hpick => ?_
    rcases hpick with ⟨-, -, hnot⟩ | ⟨v, rfl, t, -, hpick⟩
    · obtain ⟨i, hi, hin⟩ := hused
      obtain ⟨t, ht, hstop⟩ := Clock.exists_firstStop (hand_lt s) hi (look_eq_some.mpr ⟨hin, rfl⟩)
      exact absurd hstop.stops (hnot t ht)
    · have hbest := hpick.best
      have hin := hpick.inUse
      have ht := hpick.ticked
      refine ⟨⟨iff_of_false (by simp) fun hall => ?_, ?_, ?_, ht⟩, ?_⟩
      · rw [hall v hin.1] at hin
        cases hin.2
      · rintro _ ⟨rfl⟩
        rw [ht.inUse]
        exact hin
      · rintro _ ⟨rfl⟩ k hk hcand
        rw [hpick.state] at hcand ⊢
        exact hbest.le k hk hcand
      · rintro hbin _ ⟨rfl⟩
        rw [hpick.state]
        rcases hbest.candidate with rfl | ⟨-, hcand, -⟩
        · have hne := (stops_iff_turned.mp hpick.stop.stops).2
          exact (hbin.ticked (turned_ticked s t) _).resolve_right hne
        · exact hcand.2

/-- One call. -/
theorem FrameCall.exec_spec (h : Counted s) (c : FrameCall) :
    wp c.exec (fun _ s' => Counted s' ∧ (c.IsBit → Binary s → Binary s')) E s := by
  cases c with
  | alloc p va pa =>
    refine wp_call (frameAlloc_spec h p va pa) fun r s' hs' => ?_
    rcases hs' with ⟨-, -, i, hi, hfree, rfl⟩ | ⟨-, -, rfl⟩
    · exact ⟨h.alloc hi hfree rfl, fun _ hbin => hbin.update (Or.inr rfl) i⟩
    · exact ⟨h, fun _ hbin => hbin⟩
  | free pa =>
    rw [FrameCall.exec, frameFree, wp_bind, wp_get]
    rcases frameOf_cases s pa with ⟨i, hi, hof, hin, -⟩ | ⟨hof, -⟩ <;> rw [hof]
    · exact ⟨h.free hi hin rfl, fun _ hbin => hbin.update (Or.inl rfl) i⟩
    · exact ⟨h, fun _ hbin => hbin⟩
  | setRef pa ref =>
    rw [FrameCall.exec, frameSetRef, wp_bind, wp_get]
    rcases frameOf_cases s pa with ⟨i, hi, hof, hin, -⟩ | ⟨hof, -⟩ <;> rw [hof]
    · refine ⟨?_, fun hbit hbin => hbin.update (e := { s.frameTable i with refBit := ref }) hbit i⟩
      have hupd := inUseCount_update s.frameTable hi { s.frameTable i with refBit := ref }
      exact h.trans (by rw [← Nat.add_right_cancel hupd])
    · exact ⟨h, fun _ hbin => hbin⟩
  | victim =>
    refine wp_call (clckVictim_spec h) fun o s' hs' => ?_
    exact ⟨h.ticked hs'.1.ticked, fun _ hbin => hbin.ticked hs'.1.ticked⟩
  | setLevel p level => exact ⟨h, fun _ hbin => hbin⟩

/-- Any sequence of calls. -/
theorem execCalls_spec (h : Counted s) (cs : List FrameCall) : wp (execCalls cs)
    (fun _ s' => Counted s' ∧ ((∀ c ∈ cs, c.IsBit) → Binary s → Binary s')) E s := by
  induction cs generalizing s with
  | nil => exact ⟨h, fun _ hbin => hbin⟩
  | cons c cs ih =>
    rw [execCalls]
    refine wp_call (FrameCall.exec_spec h c) fun _ s₁ hs₁ => ?_
    refine wp_imp (ih hs₁.1) fun _ s₂ hs₂ => ⟨hs₂.1, fun hbits hbin => ?_⟩
    exact hs₂.2 (fun c' hc' => hbits c' (List.mem_cons_of_mem c hc'))
      (hs₁.2 (hbits c List.mem_cons_self) hbin)

/-- **Victim selection.** In every state that calls lead to from an empty table the counter is
right, and `clck_victim` finds a frame whenever there is one, of the highest level among those whose
bit is clear on return. That its own bit is clear needs that only `0` and `1` were stored. -/
theorem victim_selection {s₀ s : Kernel} {cs : List FrameCall}
    (hempty : s₀.frameTable = fun _ => ⟨false, none, 0, 0, 0⟩) (hnone : s₀.userFrames = 0)
    (hrun : execCalls cs s₀ = .ok () s) :
    s.userFrames = inUseCount s.frameTable ∧ s.userFrames ≤ maxFrames ∧
    ∃ o s', clckVictim s = .ok o s' ∧ Selects s o s' ∧
      ((∀ c ∈ cs, c.IsBit) → ∀ v, o = some v → (s'.frameTable v).refBit = 0) := by
  have hcount₀ : Counted s₀ := by
    rw [Counted, hnone, hempty]
    rfl
  have hbin₀ : Binary s₀ := fun i => by rw [hempty]; exact Or.inl rfl
  obtain ⟨hcount, hbin⟩ := wp_ok (execCalls_spec (E := fun _ _ => True) hcount₀ cs) hrun
  have hspec := clckVictim_spec (E := fun _ _ => False) hcount
  obtain ⟨o, s', hok⟩ := exists_ok_of_wp hspec
  obtain ⟨hsel, hbit⟩ := wp_ok hspec hok
  exact ⟨hcount, hcount.le, o, s', hok, hsel, fun hbits => hbit (hbin hbits hbin₀)⟩

end

/-- The kernel after `kinit`, with sixty free pages and two processes without memory. -/
def bootKernel : Kernel where
  mem _ := Page.fill 1
  freelist := (List.range 60).map fun i => 0x80100000 + i * 4096
  frameTable _ := ⟨false, none, 0, 0, 0⟩
  userFrames := 0
  clockHand := 0
  swapUsed _ := false
  swapSpace _ := Page.zero
  procs p := ⟨decide (p < 2), false, 0, 0, ⟨fun _ => false, fun _ => false, fun _ => 0#64⟩,
    0, 0, 0, 0, 0⟩
  kend := 0x80030000
  evictions := []

/-- Three processes of levels `2`, `3` and `0` have a frame each. Twice a victim is evicted, and a
page of the same process gets its frame. -/
def threeFrames : List FrameCall :=
  [.setLevel 0 2, .setLevel 1 3, .alloc (some 0) 0 0x80100000, .alloc (some 1) 0 0x80101000,
    .alloc (some 2) 0 0x80102000,
    .victim, .free 0x80101000, .alloc (some 1) 4096 0x80103000,
    .victim, .free 0x80100000, .alloc (some 0) 4096 0x80104000]

theorem victim_selection_threeFrames : ∃ s, execCalls threeFrames bootKernel = .ok () s ∧
    ∃ o s', clckVictim s = .ok o s' ∧ Selects s o s' ∧
      ∀ v, o = some v → (s'.frameTable v).refBit = 0 := by
  have hfacts : ∃ a s, execCalls threeFrames bootKernel = .ok a s ∧ s.userFrames = 3 := by
    decide +kernel
  obtain ⟨_, s, hrun, -⟩ := hfacts
  have hempty : bootKernel.frameTable = fun _ => ⟨false, none, 0, 0, 0⟩ := rfl
  obtain ⟨-, -, o, s', hok, hsel, hbit⟩ := victim_selection hempty rfl hrun
  exact ⟨s, hrun, o, s', hok, hsel, hbit (by simp [threeFrames, FrameCall.IsBit])⟩

/-- After `frame_set_ref(pa, 2)` the victim's bit is not clear on return. -/
theorem victim_selection_counterexample :
    ∃ a s, execCalls [.alloc (some 0) 0 0x80100000, .setRef 0x80100000 2] bootKernel = .ok a s ∧
    ∃ o s', clckVictim s = .ok o s' ∧ o = some 0 ∧ (s'.frameTable 0).refBit = 2 := by
  decide +kernel

/-! ### The second chance -/

/-- A victim that respects the reference bits of the call: one that was not referenced if there is
one, and one that was only if all were. -/
def SecondChance (s : Kernel) (v : ℕ) : Prop :=
  ((∃ k < maxFrames, Candidate s k) → (s.frameTable v).refBit = 0) ∧
  ((s.frameTable v).refBit = 1 →
    ∀ k < maxFrames, (s.frameTable k).inUse = true → (s.frameTable k).refBit = 1)

instance (s : Kernel) (v : ℕ) : Decidable (SecondChance s v) :=
  inferInstanceAs (Decidable (_ ∧ _))

/-- The first frame from the hand on whose bit is not set. -/
structure FirstUnset (s : Kernel) (j : ℕ) : Prop where
  lt : j < maxFrames
  inUse : (s.frameTable j).inUse = true
  unset : (s.frameTable j).refBit ≠ 1
  first : ∀ k < maxFrames, (s.frameTable k).inUse = true → (s.frameTable k).refBit ≠ 1 →
    s.clock.ahead j ≤ s.clock.ahead k

/-- The bit of frame `c` is cleared before the hand comes to `j`. -/
structure Passed (s : Kernel) (j c : ℕ) : Prop where
  lt : c < maxFrames
  inUse : (s.frameTable c).inUse = true
  set : (s.frameTable c).refBit = 1
  ahead : s.clock.ahead c < s.clock.ahead j

/-- Every frame that the hand has passed has a rival that was not referenced, and that the scan
prefers; and a frame with a bit other than `0` and `1` has one if there is any. -/
structure Spared (s : Kernel) (j : ℕ) : Prop where
  passed : ∀ c, Passed s j c → ∃ z, (z = j ∨ z < maxFrames ∧ Candidate s z) ∧
    FirstMax.Outranks (frameLevel s) j z c
  unset : (∃ k < maxFrames, Candidate s k) → (s.frameTable j).refBit = 0 ∨
    ∃ k < maxFrames, Candidate s k ∧ frameLevel s j < frameLevel s k

section

variable {s s' : Kernel} {t j v : ℕ}

theorem exists_firstUnset (h : ∃ k, k < maxFrames ∧ (s.frameTable k).inUse = true ∧
    (s.frameTable k).refBit ≠ 1) : ∃ j, FirstUnset s j := by
  obtain ⟨j, ⟨hlt, hin, hbit⟩, hmin⟩ := (measure s.clock.ahead).wf.has_min
    {k | k < maxFrames ∧ (s.frameTable k).inUse = true ∧ (s.frameTable k).refBit ≠ 1} h
  exact ⟨j, hlt, hin, hbit, fun k hk hin' hbit' => not_lt.mp (hmin k ⟨hk, hin', hbit'⟩)⟩

/-- The hand stops there. -/
theorem FirstUnset.firstStop (h : FirstUnset s j) : s.clock.FirstStop (s.clock.ahead j) :=
  Clock.firstStop_of_clear (hand_lt s) (look_own s) h.lt (look_eq_some.mpr ⟨h.inUse, rfl⟩)
    (decide_eq_false h.unset) fun k hk hlook hbit =>
      h.first k hk (look_eq_some.mp hlook).1 (of_decide_eq_false hbit)

theorem FirstUnset.unique (h : FirstUnset s j) (hi : FirstUnset s i) : i = j := by
  have hahead := hi.firstStop.unique h.firstStop
  rw [← Clock.pos_ahead (hand_lt s) hi.lt, hahead, Clock.pos_ahead (hand_lt s) h.lt]

/-- What the scan takes into account there. -/
theorem candidate_turned (s : Kernel) (j : ℕ) {k : ℕ} (hk : k < maxFrames) :
    Candidate (s.turned (s.clock.ahead j)) k ↔ Candidate s k ∨ Passed s j k := by
  have hseen := Clock.seen_iff (hand_lt s) (look_own s) (Clock.ahead_lt (size_pos s) j).le hk
  rw [look_eq_some] at hseen
  constructor
  · rintro ⟨hin, hbit⟩
    rcases turned_cleared s (s.clock.ahead j) k with hsame | ⟨hone, hcl⟩
    · rw [hsame] at hbit
      exact Or.inl ⟨hin, hbit⟩
    · by_contra hnot
      push Not at hnot
      have hns : ¬ s.clock.Seen (s.clock.ahead j) k :=
        fun hs => hnot.2 ⟨hk, hin, hone, (hseen.mp hs).2⟩
      simp only [Kernel.turned, hns, and_false, if_false] at hbit
      rw [hone] at hbit
      cases hbit
  · rintro (⟨hin, hbit⟩ | ⟨-, hin, hone, hahead⟩)
    · refine ⟨hin, ?_⟩
      rcases turned_cleared s (s.clock.ahead j) k with hsame | ⟨-, hcl⟩
      · rw [hsame, hbit]
      · rw [hcl]
    · have hs : s.clock.Seen (s.clock.ahead j) k := hseen.mpr ⟨⟨hin, rfl⟩, hahead⟩
      exact ⟨hin, if_pos ⟨hone, hs⟩⟩

/-- The choice that is made at the first frame whose bit is not set. -/
theorem FirstUnset.best (h : FirstUnset s j) (hpick : Picks s t v s') :
    FirstMax.Best (fun k => Candidate s k ∨ Passed s j k) (frameLevel s) j maxFrames v := by
  obtain rfl := hpick.stop.unique h.firstStop
  have hbest := hpick.best
  rw [Clock.pos_ahead (hand_lt s) h.lt] at hbest
  exact ⟨hbest.candidate.imp_right fun hv => ⟨hv.1, (candidate_turned s j hv.1).mp hv.2.1, hv.2.2⟩,
    hbest.start_le, fun k hk hok => hbest.le k hk ((candidate_turned s j hk).mpr hok),
    hbest.first.imp_right fun hfirst k hk hok => hfirst k hk ((candidate_turned s j hk).mpr hok)⟩

/-- The victim respects the reference bits exactly if it is not one of the frames that the hand has
passed, and not a frame with an odd bit while others are clear. -/
theorem FirstUnset.secondChance_iff (h : FirstUnset s j) (hpick : Picks s t v s') :
    SecondChance s v ↔ Spared s j := by
  have hbest := h.best hpick
  have hv : v = j ∨ Candidate s v ∨ Passed s j v :=
    hbest.candidate.imp_right fun hv => hv.2.1
  constructor
  · rintro ⟨hclear, hset⟩
    have hnot : ¬ Passed s j v := fun hp => h.unset (hset hp.set j h.lt h.inUse)
    have hv' : v = j ∨ v < maxFrames ∧ Candidate s v :=
      hv.imp_right fun hor => ⟨hpick.inUse.1, hor.resolve_right hnot⟩
    refine ⟨fun c hc => ⟨v, hv', ?_⟩, fun hex => ?_⟩
    · exact hbest.outranks hc.lt (Or.inr hc) fun he => hnot (he ▸ hc)
    · have hzero := hclear hex
      rcases hbest.candidate with rfl | ⟨hlt, -, hlevel⟩
      · exact Or.inl hzero
      · exact Or.inr ⟨v, hlt, ⟨hpick.inUse.2, hzero⟩, hlevel⟩
  · intro hsp
    have hnot : ¬ Passed s j v := by
      intro hp
      obtain ⟨z, hz, hout⟩ := hsp.passed v hp
      refine hbest.ne_of_outranks (fun he => h.unset (he ▸ hp.set)) ?_ hout rfl
      exact hz.imp_right fun hz => ⟨hz.1, Or.inl hz.2⟩
    rcases hv with rfl | hcand | hp
    · refine ⟨fun hex => ?_, fun hone => absurd hone h.unset⟩
      refine (hsp.unset hex).resolve_right ?_
      rintro ⟨k, hk, hcand, hlt⟩
      exact absurd (hbest.le k hk (Or.inl hcand)) (not_le.mpr hlt)
    · refine ⟨fun _ => hcand.2, fun hone => ?_⟩
      rw [hcand.2] at hone
      cases hone
    · exact absurd hp hnot

/-- **The second chance.** The victim respects the reference bits exactly if the frames that the
hand passes are outranked by frames that were not referenced. -/
theorem second_chance_iff (hrun : clckVictim s = .ok (some v) s') :
    SecondChance s v ↔ ∀ j, FirstUnset s j → Spared s j := by
  have hne : s.userFrames ≠ 0 := by
    intro h0
    have hnone : wp clckVictim (fun o _ => o = none) (fun _ _ => False) s := by
      rw [clckVictim, wp_bind, wp_get, if_pos h0]
      rfl
    cases wp_ok hnone hrun
  have hpick : ∃ t, Picks s t v s' := by
    rcases wp_ok (clckVictim_picks (E := fun _ _ => False) hne) hrun with
      ⟨hnone, -, -⟩ | ⟨w, hw, t, -, hpick⟩
    · cases hnone
    · obtain rfl := Option.some.inj hw
      exact ⟨t, hpick⟩
  obtain ⟨t, hpick⟩ := hpick
  by_cases hex : ∃ k, k < maxFrames ∧ (s.frameTable k).inUse = true ∧ (s.frameTable k).refBit ≠ 1
  · obtain ⟨j, hj⟩ := exists_firstUnset hex
    rw [hj.secondChance_iff hpick]
    exact ⟨fun hsp i hi => hj.unique hi ▸ hsp, fun hall => hall j hj⟩
  · -- every frame was referenced, and there is nothing to respect
    push Not at hex
    refine iff_of_true ⟨?_, fun _ => hex⟩ fun j hj => absurd (hex j hj.lt hj.inUse) hj.unset
    rintro ⟨k, hk, hin, hzero⟩
    rw [hex k hk hin] at hzero
    cases hzero

end

/-- Before the second victim is evicted the hand is at frame `2`, which it does not pass. -/
theorem second_chance_threeFrames :
    ∃ s s', clckVictim s = .ok (some 0) s' ∧ Candidate s 2 ∧ (s.frameTable 1).refBit = 1 ∧
      ∀ j, FirstUnset s j → Spared s j := by
  have hfacts : ∃ a s, execCalls (threeFrames.take 8) bootKernel = .ok a s ∧ Candidate s 2 ∧
      (s.frameTable 1).refBit = 1 ∧
      ∃ o s', clckVictim s = .ok o s' ∧ o = some 0 ∧ SecondChance s 0 := by
    decide +kernel
  obtain ⟨-, s, -, hcand, hset, _, s', hrun, rfl, hchance⟩ := hfacts
  exact ⟨s, s', hrun, hcand, hset, (second_chance_iff hrun).mp hchance⟩

/-- Before a third one would be, frames `0` and `1` have been referenced and frame `2` has not. The
hand is at `1`, and the victim is frame `1`. -/
theorem second_chance_counterexample :
    ∃ a s, execCalls threeFrames bootKernel = .ok a s ∧ Candidate s 2 ∧
    (s.frameTable 1).refBit = 1 ∧
    ∃ o s', clckVictim s = .ok o s' ∧ o = some 1 ∧ ¬ SecondChance s 1 := by
  decide +kernel

end Pa3

end Xv6
