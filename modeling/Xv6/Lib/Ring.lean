import Mathlib.Data.List.Nodup
import Mathlib.Logic.Function.Basic
import Mathlib.Tactic.Common

/-!
# Circular doubly linked lists

Nodes with two pointer fields, `next` and `prev`, and one node `h` that is the head of a ring.
The operations are sequences of pointer assignments; `IsRing p h l` says which list they stand
for: starting at `h`, the `next` pointers visit `l` and return to `h`, and the `prev` pointers
lead back. The two things a program does with such a ring are covered: moving nodes (`unlink`,
`pushFront`) and walking along it until a node is found (`scan`).

The ring read backwards is the ring of the swapped pointers with the reversed list, so that a walk
along `prev` needs no lemma of its own.

## Main results

* `IsRing.unlink`, `IsRing.pushFront`, `IsRing.foldl_pushFront` — what the pointer assignments do to
  the list
* `IsRing.scan_next`, `IsRing.scan_prev` — a walk is a search of the list from either end
-/

/-- The pointer fields of all nodes. -/
structure Links (α : Type*) where
  next : α → α
  prev : α → α

namespace Links

open Function (update update_self update_of_ne update_apply)

variable {α : Type*} {p p' : Links α} {h x y b : α} {l l₁ l₂ : List α}

/-- From `x` the pointers lead over the nodes of `l` to `y`, and back. -/
def Path (p : Links α) : α → List α → α → Prop
  | x, [], y => p.next x = y ∧ p.prev y = x
  | x, a :: l, y => (p.next x = a ∧ p.prev a = x) ∧ Path p a l y

/-- The ring with head `h` and nodes `l`. -/
def IsRing (p : Links α) (h : α) (l : List α) : Prop := (h :: l).Nodup ∧ Path p h l h

/-- The ring read backwards. -/
def swap (p : Links α) : Links α := ⟨p.prev, p.next⟩

theorem path_append_cons : Path p x (l₁ ++ b :: l₂) y ↔ Path p x l₁ b ∧ Path p b l₂ y := by
  induction l₁ generalizing x with
  | nil => exact Iff.rfl
  | cons a l₁ ih =>
    rw [List.cons_append, Path, Path, ih]
    exact and_assoc.symm

theorem Path.swap (hp : Path p x l y) : Path p.swap y l.reverse x := by
  induction l generalizing x with
  | nil => exact ⟨hp.2, hp.1⟩
  | cons a l ih =>
    rw [List.reverse_cons]
    exact path_append_cons.mpr ⟨ih hp.2, hp.1.2, hp.1.1⟩

theorem IsRing.swap (hr : IsRing p h l) : IsRing p.swap h l.reverse := by
  refine ⟨?_, hr.2.swap⟩
  have hn := List.nodup_cons.mp hr.1
  exact List.nodup_cons.mpr ⟨by simpa using hn.1, List.nodup_reverse.mpr hn.2⟩

/-- A path depends on the `next` pointers of its nodes but the last and on the `prev` pointers of
its nodes but the first. -/
theorem Path.congr (hp : Path p x l y) (hn : ∀ a ∈ x :: l, p'.next a = p.next a)
    (hv : ∀ a ∈ l ++ [y], p'.prev a = p.prev a) : Path p' x l y := by
  induction l generalizing x with
  | nil => exact ⟨(hn x (by simp)).trans hp.1, (hv y (by simp)).trans hp.2⟩
  | cons a l ih =>
    refine ⟨⟨(hn x (by simp)).trans hp.1.1, (hv a (by simp)).trans hp.1.2⟩, ih hp.2 ?_ ?_⟩
    · exact fun c hc => hn c (List.mem_cons_of_mem x hc)
    · exact fun c hc => hv c (List.mem_cons_of_mem a hc)

/-- The node before the end of a path is on the path. -/
theorem Path.prev_mem (hp : Path p x l y) : p.prev y ∈ x :: l := by
  induction l generalizing x with
  | nil =>
    rw [hp.2]
    exact List.mem_singleton_self x
  | cons a l ih => exact List.mem_cons_of_mem x (ih hp.2)

/-- The node after the start of a path is on the path. -/
theorem Path.next_mem (hp : Path p x l y) : p.next x ∈ l ++ [y] := by
  cases l with
  | nil =>
    rw [hp.1]
    exact List.mem_singleton_self y
  | cons a l =>
    rw [hp.1.1]
    exact List.mem_cons_self

/-- A path whose last node is made to point elsewhere. -/
theorem Path.redirect (hp : Path p x l y) (hnd : (x :: l).Nodup) {z : α}
    (hn : ∀ a ∈ x :: l, a ≠ p.prev y → p'.next a = p.next a)
    (hv : ∀ a ∈ l, p'.prev a = p.prev a) (hz : p'.next (p.prev y) = z)
    (hz' : p'.prev z = p.prev y) : Path p' x l z := by
  induction l generalizing x with
  | nil =>
    obtain ⟨-, rfl⟩ := hp
    exact ⟨hz, hz'⟩
  | cons a l ih =>
    have hnd' := List.nodup_cons.mp hnd
    have hx : x ≠ p.prev y := fun hx => hnd'.1 (hx ▸ hp.2.prev_mem)
    refine ⟨⟨(hn x (by simp) hx).trans hp.1.1, (hv a (by simp)).trans hp.1.2⟩,
      ih hp.2 hnd'.2 ?_ ?_⟩
    · exact fun c hc => hn c (List.mem_cons_of_mem x hc)
    · exact fun c hc => hv c (List.mem_cons_of_mem a hc)

section Assign

variable [DecidableEq α]

/-- `a->next = v`. -/
def setNext (p : Links α) (a v : α) : Links α := { p with next := update p.next a v }

/-- `a->prev = v`. -/
def setPrev (p : Links α) (a v : α) : Links α := { p with prev := update p.prev a v }

/-- Take node `b` out of the ring it is in. -/
def unlink (p : Links α) (b : α) : Links α :=
  let p := p.setPrev (p.next b) (p.prev b)
  p.setNext (p.prev b) (p.next b)

/-- Put node `b` behind the head. -/
def pushFront (p : Links α) (h b : α) : Links α :=
  let p := p.setNext b (p.next h)
  let p := p.setPrev b h
  let p := p.setPrev (p.next h) b
  p.setNext h b

/-- The head that points to itself is the empty ring. -/
theorem isRing_nil (p : Links α) (h : α) : IsRing ((p.setPrev h h).setNext h h) h [] :=
  ⟨List.nodup_singleton h, update_self .., update_self ..⟩

/-- **Taking a node out.** -/
theorem IsRing.unlink (hr : IsRing p h (l₁ ++ b :: l₂)) : IsRing (p.unlink b) h (l₁ ++ l₂) := by
  obtain ⟨hnd, hp⟩ := hr
  obtain ⟨hp₁, hp₂⟩ := path_append_cons.mp hp
  have hperm : (h :: (l₁ ++ b :: l₂)).Perm (b :: h :: (l₁ ++ l₂)) :=
    (List.perm_middle.cons h).trans (List.Perm.swap b h _)
  have hndb := List.nodup_cons.mp (hperm.nodup_iff.mp hnd)
  -- the two neighbours of `b`
  have hnext : p.next b ≠ b := by
    intro he
    have hm := hp₂.next_mem
    rw [he] at hm
    exact hndb.1 (by simp at hm ⊢; tauto)
  have hprev : ((p.setPrev (p.next b) (p.prev b)).prev b) = p.prev b :=
    update_of_ne hnext.symm _ _
  have hunlink : p.unlink b = (p.setPrev (p.next b) (p.prev b)).setNext (p.prev b) (p.next b) := by
    show (p.setPrev (p.next b) (p.prev b)).setNext ((p.setPrev (p.next b) (p.prev b)).prev b)
      (p.next b) = _
    rw [hprev]
  have hl₁ : (h :: l₁).Nodup := by
    refine hndb.2.sublist ?_
    exact (List.sublist_append_left l₁ l₂).cons_cons h
  refine ⟨hndb.2, ?_⟩
  rw [hunlink]
  cases l₂ with
  | nil =>
    rw [List.append_nil] at hndb ⊢
    have hnb : p.next b = h := hp₂.1
    refine hp₁.redirect hl₁ (fun a _ ha => ?_) (fun a ha => ?_) ?_ ?_
    · exact update_of_ne ha _ _
    · refine update_of_ne (fun hah => ?_) _ _
      exact (List.nodup_cons.mp hl₁).1 (hnb ▸ hah ▸ ha)
    · exact (update_self ..).trans hnb
    · rw [← hnb]
      exact update_self ..
  | cons c l₂ =>
    have hnb : p.next b = c := hp₂.1.1
    have hdisj : ∀ a ∈ h :: l₁, a ∉ c :: l₂ := by
      intro a ha ha'
      have := List.nodup_append.mp (show ((h :: l₁) ++ (c :: l₂)).Nodup from hndb.2)
      exact this.2.2 a ha a ha' rfl
    have hcl : (c :: l₂).Nodup := (List.nodup_append.mp (List.nodup_cons.mp hndb.2).2).2.1
    refine path_append_cons.mpr ⟨hp₁.redirect hl₁ (fun a _ ha => ?_) (fun a ha => ?_) ?_ ?_, ?_⟩
    · exact update_of_ne ha _ _
    · refine update_of_ne (fun hac => ?_) _ _
      exact hdisj a (List.mem_cons_of_mem h ha) (by rw [hac, hnb]; exact List.mem_cons_self)
    · exact (update_self ..).trans hnb
    · rw [← hnb]
      exact update_self ..
    · refine hp₂.2.congr (fun a ha => ?_) fun a ha => ?_
      · exact update_of_ne (fun hab => hdisj _ (hab ▸ hp₁.prev_mem) ha) _ _
      · refine update_of_ne (fun hac => ?_) _ _
        rw [hnb] at hac
        subst hac
        rcases List.mem_append.mp ha with ha | ha
        · exact (List.nodup_cons.mp hcl).1 ha
        · rw [List.mem_singleton] at ha
          exact hdisj h List.mem_cons_self (ha ▸ List.mem_cons_self)

/-- **Putting a node in front.** -/
theorem IsRing.pushFront (hr : IsRing p h l) (hb : b ∉ h :: l) :
    IsRing (p.pushFront h b) h (b :: l) := by
  obtain ⟨hnd, hp⟩ := hr
  obtain ⟨hbh, hbl⟩ := not_or.mp (mt List.mem_cons.mpr hb)
  have hnb : p.next h ≠ b := by
    intro he
    have hm := hp.next_mem
    rw [he] at hm
    rcases List.mem_append.mp hm with hm | hm
    · exact hbl hm
    · exact hbh (List.mem_singleton.mp hm)
  have hnext : ∀ a, (p.pushFront h b).next a =
      if a = h then b else if a = b then p.next h else p.next a := by
    intro a
    show update (update p.next b (p.next h)) h b a = _
    rw [update_apply, update_apply]
  have hprev : ∀ a, (p.pushFront h b).prev a =
      if a = p.next h then b else if a = b then h else p.prev a := by
    intro a
    show update (update p.prev b h)
      (update p.next b (p.next h) h) b a = _
    rw [update_of_ne (Ne.symm hbh), update_apply, update_apply]
  refine ⟨?_, ?_⟩
  · rw [List.nodup_cons] at hnd ⊢
    refine ⟨?_, List.nodup_cons.mpr ⟨hbl, hnd.2⟩⟩
    rw [List.mem_cons, not_or]
    exact ⟨Ne.symm hbh, hnd.1⟩
  · refine ⟨⟨?_, ?_⟩, ?_⟩
    · rw [hnext, if_pos rfl]
    · rw [hprev, if_neg hnb.symm, if_pos rfl]
    · cases l with
      | nil =>
        have hnh : p.next h = h := hp.1
        constructor
        · rw [hnext, if_neg hbh, if_pos rfl, hnh]
        · rw [hprev, hnh, if_pos rfl]
      | cons c l =>
        have hnh : p.next h = c := hp.1.1
        have hnd' := List.nodup_cons.mp hnd
        refine ⟨⟨?_, ?_⟩, hp.2.congr (fun a ha => ?_) fun a ha => ?_⟩
        · rw [hnext, if_neg hbh, if_pos rfl, hnh]
        · rw [hprev, hnh, if_pos rfl]
        · have hah : a ≠ h := fun hah => hnd'.1 (hah ▸ ha)
          have hab : a ≠ b := fun hab => hbl (hab ▸ ha)
          rw [hnext, if_neg hah, if_neg hab]
        · have hac : a ≠ c := by
            rintro rfl
            rcases List.mem_append.mp ha with ha | ha
            · exact (List.nodup_cons.mp hnd'.2).1 ha
            · exact hnd'.1 (List.mem_singleton.mp ha ▸ List.mem_cons_self)
          have hab : a ≠ b := by
            rintro rfl
            rcases List.mem_append.mp ha with ha | ha
            · exact hbl (List.mem_cons_of_mem c ha)
            · exact hbh (List.mem_singleton.mp ha)
          rw [hprev, hnh, if_neg hac, if_neg hab]

/-- Several nodes put in front, one after the other. -/
theorem IsRing.foldl_pushFront (hr : IsRing p h l) (xs : List α) (hnd : (xs ++ h :: l).Nodup) :
    IsRing (xs.foldl (fun p b => p.pushFront h b) p) h (xs.reverse ++ l) := by
  induction xs generalizing p l with
  | nil => exact hr
  | cons b xs ih =>
    have hnd' := List.nodup_cons.mp hnd
    have hb : b ∉ h :: l := fun hb => hnd'.1 (List.mem_append_right xs hb)
    rw [List.reverse_cons, List.append_assoc]
    refine ih (hr.pushFront hb) ?_
    have hperm : (b :: (xs ++ h :: l)).Perm (xs ++ h :: b :: l) := by
      refine List.perm_middle.symm.trans (List.Perm.append_left xs ?_)
      exact List.Perm.swap h b l
    exact hperm.nodup_iff.mp hnd

/-! ### Walking along the ring -/

/-- Follow `f` from a node until the head `h` is reached or a node passes the test. -/
def scan (f : α → α) (h : α) (test : α → Bool) : ℕ → α → Option α
  | 0, _ => none
  | n + 1, a => if a = h then none else if test a then some a else scan f h test n (f a)

theorem Path.scan_eq {test : α → Bool} (hp : Path p x l h) (hl : h ∉ l) {n : ℕ}
    (hn : l.length < n) : scan p.next h test n (p.next x) = l.find? test := by
  induction l generalizing x n with
  | nil =>
    obtain ⟨n, rfl⟩ := Nat.exists_eq_succ_of_ne_zero (Nat.ne_of_gt hn)
    rw [scan, if_pos hp.1]
    rfl
  | cons a l ih =>
    obtain ⟨n, rfl⟩ := Nat.exists_eq_succ_of_ne_zero (Nat.ne_of_gt (Nat.zero_lt_of_lt hn))
    rw [List.length_cons, Nat.succ_lt_succ_iff] at hn
    obtain ⟨hah, hl⟩ := not_or.mp (mt List.mem_cons.mpr hl)
    rw [hp.1.1, scan, if_neg (Ne.symm hah), List.find?_cons]
    cases htest : test a with
    | true => rw [if_pos rfl]
    | false =>
      rw [if_neg Bool.false_ne_true]
      exact ih hp.2 hl hn

/-- **A walk along `next`** finds the first node that passes. -/
theorem IsRing.scan_next {test : α → Bool} (hr : IsRing p h l) {n : ℕ} (hn : l.length < n) :
    scan p.next h test n (p.next h) = l.find? test :=
  hr.2.scan_eq (List.nodup_cons.mp hr.1).1 hn

/-- **A walk along `prev`** finds the last one. -/
theorem IsRing.scan_prev {test : α → Bool} (hr : IsRing p h l) {n : ℕ} (hn : l.length < n) :
    scan p.prev h test n (p.prev h) = l.reverse.find? test :=
  hr.swap.scan_next (by rwa [List.length_reverse])

end Assign

end Links
