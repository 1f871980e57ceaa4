import Xv6.Mem.Invariant
import Xv6.Swap.Steps

/-!
# Who holds what

At any time a page of memory is free, or is the page of one entry, or is in the hands of one process
on its way through `evict_pages` or `swap_in`; and the same for a swap slot (`Holder`). An entry is
in one of six conditions (`Place`): three of them last, and three are in the middle of an operation
of some process.

`Inv place pg sl s` says that these ghost maps describe the state: `EntryOk` says what the condition
of an entry means, and `ProcOk` what a process may rely on where it is. A step of one process
changes only what that process holds, and one entry that no other process is at work on
(`Inv.change`), so what the other processes rely on stays.
-/

namespace Xv6

namespace Swap

open Mem (Pte Page pte2pa Valid Swapped MapsTo Managed)

/-! ### Ghost state -/

/-- The condition of an entry. -/
inductive Place where
  /-- No page. -/
  | absent
  /-- In memory. -/
  | page (a : ℕ)
  /-- Process `t` has marked it and not yet stored its slot. -/
  | window (t a : ℕ)
  /-- In the swap area. -/
  | slot (n : ℕ)
  /-- Its process has given the slot back, and is about to rewrite the entry. -/
  | spent
  /-- Its process has freed the page, and is about to clear the entry. -/
  | dying
  deriving DecidableEq

/-- Who holds a page or a slot. -/
inductive Holder where
  | free
  | entry (p v : ℕ)
  | hand (t : ℕ)
  | kernel
  deriving DecidableEq

/-- The page that the process wants to have mapped. -/
def Want.page : Want → Option ℕ
  | .trap v => some v
  | .walkaddr v => some v
  | .lazy v _ => some v
  | .other => none

/-- The page of its own that a process is at work on. -/
def Pc.page : Pc → Option ℕ
  | .idle => none
  | .alloc w | .scan w | .marked w _ _ _ _ | .chosen w _ _ _ _ _ | .written w _ _ _ _ _
  | .stored w _ _ | .released w _ | .got w _ | .reading w _ _ | .read w _ _ | .freed w _ => w.page
  | .track v _ _ | .copying v _ | .unmapPage v _ | .unmapSlot v _ | .clearPage v
  | .clearSlot v => some v

/-- Process `t` is at work on page `v` of process `p`. -/
def Pc.Controls (c : Pc) (t p v : ℕ) : Prop := c.Evicts p v ∨ (p = t ∧ c.page = some v)

/-- What the condition of an entry means. -/
def EntryOk (pg sl : ℕ → Holder) (s : State) (p v : ℕ) : Place → Prop
  | .absent => (s.pte p v).getLsbD 0 = false ∧ (s.pte p v).getLsbD 8 = false
  | .page a => MapsTo (s.pte p v) a ∧ pg a = .entry p v ∧ Managed s.kend a ∧ s.mem a = s.last p v
  | .window t a => Swapped (s.pte p v) ∧ pte2pa (s.pte p v) = a ∧ pg a = .entry p v ∧
      Managed s.kend a ∧ s.mem a = s.last p v ∧ (s.pc t).Evicts p v
  | .slot n => Swapped (s.pte p v) ∧ (s.pte p v >>> 10).toNat = n ∧ n < nswapspace ∧
      sl n = .entry p v ∧ s.disk n = s.last p v
  | .spent => Swapped (s.pte p v) ∧ (s.pc p).GivesBack ∧ (s.pc p).page = some v
  | .dying => Valid (s.pte p v) ∧ (s.pte p v).getLsbD 8 = false ∧ s.pc p = .clearPage v

/-- What is wanted is where it was. -/
def Want.Ok (place : ℕ → ℕ → Place) (t : ℕ) : Want → Prop
  | .trap v => ∃ n, place t v = .slot n
  | .walkaddr v => ∃ n, place t v = .slot n
  | .lazy v _ => place t v = .absent
  | .other => True

/-- The page that comes back from the swap area. -/
def Want.Back : Want → ℕ → Prop
  | .trap v, v' => v = v'
  | .walkaddr v, v' => v = v'
  | _, _ => False

/-- A page in the hands of a process. -/
def InHand (pg : ℕ → Holder) (s : State) (t a : ℕ) : Prop := pg a = .hand t ∧ Managed s.kend a

/-- What process `t` may rely on. -/
def ProcOk (place : ℕ → ℕ → Place) (pg sl : ℕ → Holder) (s : State) (t : ℕ) : Pc → Prop
  | .idle => True
  | .alloc w | .scan w => w.Ok place t
  | .marked w _ p v a => place p v = .window t a ∧ w.Ok place t
  | .chosen w _ p v a n => place p v = .window t a ∧ n < nswapspace ∧ sl n = .hand t ∧ w.Ok place t
  | .written w _ p v a n => place p v = .window t a ∧ n < nswapspace ∧ sl n = .hand t ∧
      s.disk n = s.last p v ∧ w.Ok place t
  | .stored w _ a | .released w a | .got w a => InHand pg s t a ∧ w.Ok place t
  | .reading w a n => InHand pg s t a ∧ ∃ v m, w.Back v ∧ n = (m : ℕ) ∧ place t v = .slot m
  | .read w a n => InHand pg s t a ∧ ∃ v m, w.Back v ∧ n = (m : ℕ) ∧ place t v = .slot m ∧
      s.mem a = s.last t v
  | .freed w a => InHand pg s t a ∧ ∃ v, w.Back v ∧ place t v = .spent ∧ s.mem a = s.last t v
  | .track v a _ | .copying v a | .unmapPage v a => place t v = .page a
  | .unmapSlot v n => ∃ m, n = (m : ℕ) ∧ place t v = .slot m
  | .clearPage v => place t v = .dying
  | .clearSlot v => place t v = .spent

/-- **The invariant.** -/
structure Inv (place : ℕ → ℕ → Place) (pg sl : ℕ → Holder) (s : State) : Prop where
  kend : kernbase ≤ s.kend
  nodup : s.freelist.Nodup
  free : ∀ a ∈ s.freelist, Managed s.kend a ∧ pg a = .free
  used : ∀ n : ℕ, n < nswapspace → sl n ≠ .free → s.swapInUse n = true
  entry : ∀ p v, EntryOk pg sl s p v (place p v)
  proc : ∀ t, ProcOk place pg sl s t (s.pc t)
  idle : ∀ t, nproc ≤ t → s.pc t = .idle

section

variable {place place' : ℕ → ℕ → Place} {pg pg' sl sl' : ℕ → Holder} {s s' : State} {t p v a : ℕ}
  {x : Place} {c : Pc} {w : Want}

/-! ### What the other processes rely on -/

theorem Want.Ok.congr (h : w.Ok place t) (hplace : ∀ u, w.page = some u → place' t u = place t u) :
    w.Ok place' t := by
  cases w <;> simp only [Want.Ok, Want.page, Option.some.injEq, forall_eq'] at h hplace ⊢ <;>
    simpa [hplace] using h

theorem Want.Back.page (h : w.Back v) : w.page = some v := by
  cases w <;> simp_all [Want.Back, Want.page]

theorem InHand.congr (h : InHand pg s t a) (hkend : s'.kend = s.kend)
    (hpg : ∀ a, pg a = .hand t → pg' a = .hand t) : InHand pg' s' t a :=
  ⟨hpg a h.1, hkend ▸ h.2⟩

/-- A process relies only on what it holds and on the entries that it is at work on. -/
theorem ProcOk.congr (h : ProcOk place pg sl s t c) (hkend : s'.kend = s.kend)
    (hplace : ∀ q u, c.Controls t q u → place' q u = place q u ∧ s'.last q u = s.last q u)
    (hpg : ∀ a, pg a = .hand t → pg' a = .hand t ∧ s'.mem a = s.mem a)
    (hsl : ∀ n, sl n = .hand t → sl' n = .hand t ∧ s'.disk n = s.disk n) :
    ProcOk place' pg' sl' s' t c := by
  have hw : ∀ {w : Want}, c.page = w.page → w.Ok place t → w.Ok place' t := fun hc hok =>
    hok.congr fun u hu => (hplace t u (Or.inr ⟨rfl, hc.trans hu⟩)).1
  have hown : ∀ u, c.page = some u → place' t u = place t u ∧ s'.last t u = s.last t u :=
    fun u hu =>
    hplace t u (Or.inr ⟨rfl, hu⟩)
  have hhand : ∀ {a}, InHand pg s t a → InHand pg' s' t a :=
    fun h => h.congr hkend fun a ha => (hpg a ha).1
  cases c with
  | idle => trivial
  | alloc w => exact hw rfl h
  | scan w => exact hw rfl h
  | marked w f p v a =>
    obtain ⟨hx, hok⟩ := h
    exact ⟨(hplace p v (Or.inl ⟨rfl, rfl⟩)).1.trans hx, hw rfl hok⟩
  | chosen w f p v a n =>
    obtain ⟨hx, hn, hs, hok⟩ := h
    exact ⟨(hplace p v (Or.inl ⟨rfl, rfl⟩)).1.trans hx, hn, (hsl n hs).1, hw rfl hok⟩
  | written w f p v a n =>
    obtain ⟨hx, hn, hs, hd, hok⟩ := h
    obtain ⟨hx', hl'⟩ := hplace p v (Or.inl ⟨rfl, rfl⟩)
    exact ⟨hx'.trans hx, hn, (hsl n hs).1, by rw [(hsl n hs).2, hl', hd], hw rfl hok⟩
  | stored w f a => exact ⟨hhand h.1, hw rfl h.2⟩
  | released w a => exact ⟨hhand h.1, hw rfl h.2⟩
  | got w a => exact ⟨hhand h.1, hw rfl h.2⟩
  | reading w a n =>
    obtain ⟨ha, u, m, hb, hn, hx⟩ := h
    exact ⟨hhand ha, u, m, hb, hn, (hown u hb.page).1.trans hx⟩
  | read w a n =>
    obtain ⟨ha, u, m, hb, hn, hx, hm⟩ := h
    exact ⟨hhand ha, u, m, hb, hn, (hown u hb.page).1.trans hx, by
      rw [(hpg a ha.1).2, (hown u hb.page).2, hm]⟩
  | freed w a =>
    obtain ⟨ha, u, hb, hx, hm⟩ := h
    exact ⟨hhand ha, u, hb, (hown u hb.page).1.trans hx, by
      rw [(hpg a ha.1).2, (hown u hb.page).2, hm]⟩
  | track v a copy => exact (hown v rfl).1.trans h
  | copying v a => exact (hown v rfl).1.trans h
  | unmapPage v a => exact (hown v rfl).1.trans h
  | unmapSlot v n =>
    obtain ⟨m, hn, hx⟩ := h
    exact ⟨m, hn, (hown v rfl).1.trans hx⟩
  | clearPage v => exact (hown v rfl).1.trans h
  | clearSlot v => exact (hown v rfl).1.trans h

/-- The condition of an entry is about the entry, what it holds, and the process at work on it. -/
theorem EntryOk.congr (h : EntryOk pg sl s p v x) (hkend : s'.kend = s.kend)
    (hpte : s'.pte p v = s.pte p v) (hlast : s'.last p v = s.last p v)
    (hpg : ∀ a, pg a = .entry p v → pg' a = .entry p v ∧ s'.mem a = s.mem a)
    (hsl : ∀ n, sl n = .entry p v → sl' n = .entry p v ∧ s'.disk n = s.disk n)
    (hev : ∀ t, (s.pc t).Evicts p v → (s'.pc t).Evicts p v)
    (hback : (s.pc p).page = some v → (s.pc p).GivesBack ∨ s.pc p = .clearPage v →
      s'.pc p = s.pc p) : EntryOk pg' sl' s' p v x := by
  cases x with
  | absent => rwa [EntryOk, hpte]
  | page a =>
    obtain ⟨hm, ha, hman, hc⟩ := h
    exact ⟨hpte ▸ hm, (hpg a ha).1, hkend ▸ hman, by rw [(hpg a ha).2, hlast, hc]⟩
  | window t a =>
    obtain ⟨hs, hpa, ha, hman, hc, he⟩ := h
    exact ⟨hpte ▸ hs, hpte ▸ hpa, (hpg a ha).1, hkend ▸ hman, by rw [(hpg a ha).2, hlast, hc],
      hev t he⟩
  | slot n =>
    obtain ⟨hs, hi, hn, ha, hd⟩ := h
    exact ⟨hpte ▸ hs, hpte ▸ hi, hn, (hsl n ha).1, by rw [(hsl n ha).2, hlast, hd]⟩
  | spent =>
    obtain ⟨hs, hg, hv⟩ := h
    have hpc := hback hv (Or.inl hg)
    exact ⟨hpte ▸ hs, hpc ▸ hg, hpc ▸ hv⟩
  | dying =>
    obtain ⟨hs, h8, hc⟩ := h
    have hpc := hback (by rw [hc]; rfl) (Or.inr hc)
    exact ⟨hpte ▸ hs, hpte ▸ h8, hpc.trans hc⟩

/-! ### A step of one process -/

/-- A page or slot that process `t` may change in a step that is about page `v` of process `p`. -/
def Holder.Mine (t p v : ℕ) (k : Holder) : Prop := k = .free ∨ k = .entry p v ∨ k = .hand t

/-- **A step of process `t`** about page `v` of process `p`, on which nobody else is at work. -/
theorem Inv.change (h : Inv place pg sl s) (ht : t < nproc) (hkend : s'.kend = s.kend)
    (hnodup : s'.freelist.Nodup) (hfree : ∀ a ∈ s'.freelist, Managed s.kend a ∧ pg' a = .free)
    (hused : ∀ n : ℕ, n < nswapspace → sl' n ≠ .free → s'.swapInUse n = true)
    (hpc : s'.pc = Function.update s.pc t c) (hkey : ∀ q u, ¬ (q = p ∧ u = v) →
      place' q u = place q u ∧ s'.pte q u = s.pte q u ∧ s'.last q u = s.last q u)
    (hpg : ∀ b, ¬ (pg b).Mine t p v → pg' b = pg b ∧ s'.mem b = s.mem b)
    (hsl : ∀ n, ¬ (sl n).Mine t p v → sl' n = sl n ∧ s'.disk n = s.disk n)
    (halone : ∀ t', t' ≠ t → (s.pc t').Controls t' p v →
      place' p v = place p v ∧ s'.last p v = s.last p v)
    (hev : ∀ q u, ¬ (q = p ∧ u = v) → (s.pc t).Evicts q u → c.Evicts q u)
    (hback : ∀ u, (s.pc t).page = some u → (s.pc t).GivesBack ∨ s.pc t = .clearPage u →
      t = p ∧ u = v)
    (hentry : EntryOk pg' sl' s' p v (place' p v)) (hproc : ProcOk place' pg' sl' s' t c) :
    Inv place' pg' sl' s' := by
  have hself : s'.pc t = c := by rw [hpc, Function.update_self]
  have hother : ∀ t', t' ≠ t → s'.pc t' = s.pc t' := fun t' hne => by
    rw [hpc, Function.update_of_ne hne]
  refine ⟨hkend ▸ h.kend, hnodup, fun a ha => hkend ▸ hfree a ha, hused, fun q u => ?_,
    fun t' => ?_,
    fun t' ht' => ?_⟩
  · by_cases hqu : q = p ∧ u = v
    · obtain ⟨rfl, rfl⟩ := hqu
      exact hentry
    obtain ⟨hplace, hpte, hlast⟩ := hkey q u hqu
    have hne : ∀ {k : Holder}, k = .entry q u → ¬ k.Mine t p v := by
      rintro k rfl (h | h | h)
      · cases h
      · exact hqu (by simpa using h)
      · cases h
    rw [hplace]
    refine (h.entry q u).congr hkend hpte hlast (fun b hb => ?_) (fun n hn => ?_) (fun e he => ?_)
      fun hv hg => ?_
    · obtain ⟨h₁, h₂⟩ := hpg b (hne hb)
      exact ⟨h₁.trans hb, h₂⟩
    · obtain ⟨h₁, h₂⟩ := hsl n (hne hn)
      exact ⟨h₁.trans hn, h₂⟩
    · by_cases he' : e = t
      · subst he'
        rw [hself]
        exact hev q u hqu he
      · rwa [hother e he']
    · by_cases hqt : q = t
      · subst hqt
        exact absurd (hback u hv hg) hqu
      · exact hother q hqt
  · by_cases htt : t' = t
    · subst htt
      rwa [hself]
    rw [hother t' htt]
    have hne : ∀ {k : Holder}, k = .hand t' → ¬ k.Mine t p v := by
      rintro k rfl (h | h | h)
      · cases h
      · cases h
      · exact htt (by simpa using h)
    refine (h.proc t').congr hkend (fun q u hc => ?_) (fun b hb => ?_) fun n hn => ?_
    · by_cases hqu : q = p ∧ u = v
      · obtain ⟨rfl, rfl⟩ := hqu
        exact halone t' htt hc
      · exact ⟨(hkey q u hqu).1, (hkey q u hqu).2.2⟩
    · obtain ⟨h₁, h₂⟩ := hpg b (hne hb)
      exact ⟨h₁.trans hb, h₂⟩
    · obtain ⟨h₁, h₂⟩ := hsl n (hne hn)
      exact ⟨h₁.trans hn, h₂⟩
  · rw [hother t' (by omega)]
    exact h.idle t' ht'

/-- A step that changes no entry. -/
theorem Inv.hands (h : Inv place pg sl s) (ht : t < nproc) (hkend : s'.kend = s.kend)
    (hnodup : s'.freelist.Nodup) (hfree : ∀ a ∈ s'.freelist, Managed s.kend a ∧ pg' a = .free)
    (hused : ∀ n : ℕ, n < nswapspace → sl' n ≠ .free → s'.swapInUse n = true)
    (hpc : s'.pc = Function.update s.pc t c) (hpte : s'.pte = s.pte) (hlast : s'.last = s.last)
    (hpg : ∀ b, pg b ≠ .free → pg b ≠ .hand t → pg' b = pg b ∧ s'.mem b = s.mem b)
    (hsl : ∀ n, sl n ≠ .free → sl n ≠ .hand t → sl' n = sl n ∧ s'.disk n = s.disk n)
    (hev : ∀ q u, (s.pc t).Evicts q u → c.Evicts q u)
    (hmid : ¬ (s.pc t).GivesBack ∧ ∀ u, s.pc t ≠ .clearPage u)
    (hproc : ProcOk place pg' sl' s' t c) : Inv place pg' sl' s' := by
  have hback : ∀ u, ¬ ((s.pc t).GivesBack ∨ s.pc t = .clearPage u) := fun u hg =>
    hg.elim hmid.1 (hmid.2 u)
  have hentry : ∀ {k : Holder}, k = .entry t 0 → k ≠ .free ∧ k ≠ .hand t := by
    rintro k rfl
    exact ⟨by simp, by simp⟩
  refine h.change (p := t) (v := 0) ht hkend hnodup hfree hused hpc
    (fun q u _ => ⟨rfl, by rw [hpte], by rw [hlast]⟩)
    (fun b hb => hpg b (fun hf => hb (Or.inl hf)) fun hh => hb (Or.inr (Or.inr hh)))
    (fun n hn => hsl n (fun hf => hn (Or.inl hf)) fun hh => hn (Or.inr (Or.inr hh)))
    (fun _ _ _ => ⟨rfl, by rw [hlast]⟩) (fun q u _ => hev q u)
    (fun u _ hg => absurd hg (hback u)) ?_ hproc
  have hself : s'.pc t = c := by rw [hpc, Function.update_self]
  refine (h.entry t 0).congr hkend (by rw [hpte]) (by rw [hlast]) (fun b hb => ?_) (fun n hn => ?_)
    (fun e he => ?_) fun _ hg => absurd hg (hback 0)
  · obtain ⟨h₁, h₂⟩ := hpg b (hentry hb).1 (hentry hb).2
    exact ⟨h₁.trans hb, h₂⟩
  · obtain ⟨h₁, h₂⟩ := hsl n (hentry hn).1 (hentry hn).2
    exact ⟨h₁.trans hn, h₂⟩
  · by_cases het : e = t
    · subst het
      rw [hself]
      exact hev _ _ he
    · rwa [hpc, Function.update_of_ne het]

end

end Swap

end Xv6
