import Xv6.Mem.Evict
import Xv6.Swap.Ownership

/-!
# Every step keeps the invariant

One lemma for each thing that a process does to the pages, the slots or an entry. A step is about
one entry; that nobody else is at work on it follows from its condition (`Inv.alone`,
`Inv.alone_window`), except where an operation begins or a victim is marked, where it is assumed.
-/

namespace Xv6

namespace Swap

open Mem (Pte Page pteV pteR pteW pteU pteSwapped has pte2pa swapIdx markedPte slotPte usertrapPte
  walkaddrPte mapPte firstFreeSlot Valid Swapped MapsTo Managed)
open Function (update update_self update_of_ne)

section

variable {place : ℕ → ℕ → Place} {pg sl : ℕ → Holder} {s s' : State} {t p v a : ℕ} {c : Pc}
  {w : Want}

/-! ### Who is at work on an entry -/

theorem Inv.window_of_evicts (h : Inv place pg sl s) (he : (s.pc t).Evicts p v) :
    ∃ a, place p v = .window t a := by
  have hp := h.proc t
  cases hc : s.pc t <;> rw [hc] at he hp <;> simp only [Pc.Evicts] at he <;>
    obtain ⟨rfl, rfl⟩ := he <;> exact ⟨_, hp.1⟩

/-- The condition of a page that its own process is at work on. -/
theorem Inv.own_place (h : Inv place pg sl s) (hv : (s.pc t).page = some v) :
    (∃ n, place t v = .slot n) ∨ place t v = .absent ∨ place t v = .spent ∨
      ((place t v = .dying ∨ ∃ a, place t v = .page a) ∧ (s.pc t).Uses v) := by
  have hp := h.proc t
  have hwant : ∀ {w : Want}, w.page = some v → w.Ok place t →
      (∃ n, place t v = .slot n) ∨ place t v = .absent := by
    intro w hw hok
    cases w <;> simp only [Want.page, Option.some.injEq, reduceCtorEq] at hw <;> subst hw
    exacts [Or.inl hok, Or.inl hok, Or.inr hok]
  have hleft : ∀ {w : Want}, w.page = some v → w.Ok place t → (∃ n, place t v = .slot n) ∨
      place t v = .absent ∨ place t v = .spent ∨
      ((place t v = .dying ∨ ∃ a, place t v = .page a) ∧ (s.pc t).Uses v) :=
    fun hw hok => (hwant hw hok).imp_right Or.inl
  have hback : ∀ {w : Want} {u : ℕ}, w.page = some v → w.Back u → u = v := fun hw hb =>
    Option.some.inj (hb.page.symm.trans hw)
  cases hc : s.pc t <;> rw [hc] at hp hv <;> rw [hc] at hleft <;>
    simp only [Pc.page, Option.some.injEq, reduceCtorEq] at hv
  case alloc w => exact hleft hv hp
  case scan w => exact hleft hv hp
  case marked w f q u b => exact hleft hv hp.2
  case chosen w f q u b n => exact hleft hv hp.2.2.2
  case written w f q u b n => exact hleft hv hp.2.2.2.2
  case stored w f b => exact hleft hv hp.2
  case released w b => exact hleft hv hp.2
  case got w b => exact hleft hv hp.2
  case reading w b n =>
    obtain ⟨-, u, m, hb, -, hu⟩ := hp
    exact Or.inl ⟨m, hback hv hb ▸ hu⟩
  case read w b n =>
    obtain ⟨-, u, m, hb, -, hu, -⟩ := hp
    exact Or.inl ⟨m, hback hv hb ▸ hu⟩
  case freed w b =>
    obtain ⟨-, u, hb, hu, -⟩ := hp
    exact Or.inr (Or.inr (Or.inl (hback hv hb ▸ hu)))
  all_goals subst hv
  case track u b copy => exact Or.inr (Or.inr (Or.inr ⟨Or.inr ⟨b, hp⟩, rfl⟩))
  case copying u b => exact Or.inr (Or.inr (Or.inr ⟨Or.inr ⟨b, hp⟩, rfl⟩))
  case unmapPage u b => exact Or.inr (Or.inr (Or.inr ⟨Or.inr ⟨b, hp⟩, rfl⟩))
  case unmapSlot u n => exact Or.inl (hp.imp fun _ hm => hm.2)
  case clearPage u => exact Or.inr (Or.inr (Or.inr ⟨Or.inl hp, rfl⟩))
  case clearSlot u => exact Or.inr (Or.inr (Or.inl hp))

/-- Nobody else is at work on an entry of process `t` that is not being evicted. -/
theorem Inv.alone (h : Inv place pg sl s) (hx : ∀ e a, place t v ≠ .window e a) :
    ∀ t', t' ≠ t → ¬ (s.pc t').Controls t' t v := by
  rintro t' hne (he | ⟨rfl, -⟩)
  · obtain ⟨a, ha⟩ := h.window_of_evicts he
    exact hx t' a ha
  · exact hne rfl

/-- Nobody else is at work on an entry that process `t` evicts. -/
theorem Inv.alone_window (h : Inv place pg sl s) (hx : place p v = .window t a) :
    ∀ t', t' ≠ t → ¬ (s.pc t').Controls t' p v := by
  rintro t' hne (he | ⟨rfl, hv⟩)
  · obtain ⟨b, hb⟩ := h.window_of_evicts he
    rw [hx] at hb
    exact hne (Place.window.inj hb).1.symm
  · rcases h.own_place hv with ⟨n, hn⟩ | hn | hn | ⟨hn | ⟨b, hn⟩, -⟩ <;> rw [hx] at hn <;> cases hn

/-- Nobody else is at work on a page in memory that its process does not use. -/
theorem Inv.alone_page (h : Inv place pg sl s) (hx : place p v = .page a)
    (huse : ¬ (s.pc p).Uses v) : ∀ t', ¬ (s.pc t').Controls t' p v := by
  rintro t' (he | ⟨rfl, hv⟩)
  · obtain ⟨b, hb⟩ := h.window_of_evicts he
    rw [hx] at hb
    cases hb
  · rcases h.own_place hv with ⟨n, hn⟩ | hn | hn | ⟨-, hu⟩
    · cases hx.symm.trans hn
    · cases hx.symm.trans hn
    · cases hx.symm.trans hn
    · exact huse hu

theorem Inv.ne_of_free (h : Inv place pg sl s) {b : ℕ} (hb : b ∈ s.freelist) (ha : pg a ≠ .free) :
    b ≠ a := fun he => ha (he ▸ (h.free b hb).2)

/-! ### What an entry tells -/

theorem Inv.place_of_valid (h : Inv place pg sl s) (hv : has (s.pte t v) pteV = true)
    (hidle : s.pc t ≠ .clearPage v) : place t v = .page (pte2pa (s.pte t v)) := by
  have he := h.entry t v
  rw [Mem.has_pteV] at hv
  cases hx : place t v <;> rw [hx] at he
  case page a => rw [he.1.pa]
  case absent => cases hv.symm.trans he.1
  case window e a => cases hv.symm.trans he.1.1
  case slot n => cases hv.symm.trans he.1.1
  case spent => cases hv.symm.trans he.1.1
  case dying => exact (hidle he.2.2).elim

theorem Inv.place_of_swapped (h : Inv place pg sl s) (hs : has (s.pte t v) pteSwapped = true)
    (hback : ¬ (s.pc t).GivesBack) (hexcl : ∀ e < nproc, ¬ (s.pc e).Evicts t v) :
    ∃ n : ℕ, place t v = .slot n ∧ swapIdx (s.pte t v) = n := by
  have he := h.entry t v
  rw [Mem.has_pteSwapped] at hs
  cases hx : place t v <;> rw [hx] at he
  case slot n =>
    obtain ⟨-, hi, hn, -⟩ := he
    simp only [nswapspace_eq] at hn
    exact ⟨n, rfl, by rw [swapIdx, hi]; exact int32_of_mem (by omega) (by omega)⟩
  case absent => cases hs.symm.trans he.2
  case page a => cases hs.symm.trans he.1.not_swapped
  case window e a =>
    have hlt : e < nproc := by
      by_contra hge
      have hev := he.2.2.2.2.2
      rw [h.idle e (not_lt.mp hge)] at hev
      exact hev
    exact (hexcl e hlt he.2.2.2.2.2).elim
  case spent => exact (hback he.2.1).elim
  case dying => cases hs.symm.trans he.2.1

theorem Inv.place_of_neither (h : Inv place pg sl s) (hv : has (s.pte t v) pteV = false)
    (hs : has (s.pte t v) pteSwapped = false) : place t v = .absent := by
  have he := h.entry t v
  rw [Mem.has_pteV] at hv
  rw [Mem.has_pteSwapped] at hs
  cases hx : place t v <;> rw [hx] at he
  case page a => cases hv.symm.trans he.1.valid
  case window e a => cases hs.symm.trans he.1.2
  case slot n => cases hs.symm.trans he.1.2
  case spent => cases hs.symm.trans he.1.2
  case dying => cases hv.symm.trans he.1

/-! ### Steps that change no entry -/

theorem State.goto_self (hc : s.pc t = c) : s.goto t c = s := by
  rw [State.goto, ← hc, Function.update_eq_self]

/-- A process goes on without changing anything. -/
theorem Inv.goto (h : Inv place pg sl s) (ht : t < nproc)
    (hev : ∀ q u, (s.pc t).Evicts q u → c.Evicts q u)
    (hmid : ¬ (s.pc t).GivesBack ∧ ∀ u, s.pc t ≠ .clearPage u) (hproc : ProcOk place pg sl s t c) :
    Inv place pg sl (s.goto t c) :=
  h.hands ht rfl h.nodup h.free h.used rfl rfl rfl (fun _ _ _ => ⟨rfl, rfl⟩)
    (fun _ _ _ => ⟨rfl, rfl⟩) hev hmid hproc

/-- A process that is idle begins something. -/
theorem Inv.goto_of_idle (h : Inv place pg sl s) (ht : t < nproc) (hc : s.pc t = .idle)
    (hproc : ProcOk place pg sl s t c) : Inv place pg sl (s.goto t c) :=
  h.goto ht (by simp [hc, Pc.Evicts]) (by simp [hc, Pc.GivesBack]) hproc

theorem Inv.frames (h : Inv place pg sl s) (frames : ℕ → Mem.Frame) (hand : ℕ) :
    Inv place pg sl { s with frames := frames, clockHand := hand } :=
  ⟨h.kend, h.nodup, h.free, h.used, h.entry, h.proc, h.idle⟩

theorem Inv.setSz (h : Inv place pg sl s) (sz : ℕ → ℕ) : Inv place pg sl { s with sz := sz } :=
  ⟨h.kend, h.nodup, h.free, h.used, h.entry, h.proc, h.idle⟩

/-- `kalloc` takes a page. -/
theorem Inv.take (h : Inv place pg sl s) (ht : t < nproc) (hc : s.pc t = .alloc w) {r : ℕ}
    {rest : List ℕ} (hf : s.freelist = r :: rest) :
    Inv place (update pg r (.hand t)) sl
      ({ s with freelist := rest, mem := update s.mem r (Page.fill 5) }.goto t
      (.got w r)) := by
  have hnd := h.nodup
  rw [hf, List.nodup_cons] at hnd
  obtain ⟨hman, hpg⟩ := h.free r (hf ▸ List.mem_cons_self)
  have hok := h.proc t
  rw [hc] at hok
  have hne : ∀ b, pg b ≠ .free → b ≠ r := fun b hb he => hb (he ▸ hpg)
  refine h.hands ht rfl hnd.2 (fun b hb => ?_) h.used rfl rfl rfl (fun b hb _ => ?_)
    (fun _ _ _ => ⟨rfl, rfl⟩) (by simp [hc, Pc.Evicts]) (by simp [hc, Pc.GivesBack])
    ⟨⟨update_self _ _ _, hman⟩, hok⟩
  · have hbr : b ≠ r := fun he => hnd.1 (he ▸ hb)
    rw [update_of_ne hbr]
    exact h.free b (hf ▸ List.mem_cons_of_mem r hb)
  · exact ⟨update_of_ne (hne b hb) _ _, update_of_ne (hne b hb) _ _⟩

/-- `swap_out` takes a slot. -/
theorem Inv.choose (h : Inv place pg sl s) (ht : t < nproc) {f n : ℕ}
    (hc : s.pc t = .marked w f p v a) (hn : firstFreeSlot s.swapInUse 0 nswapspace = some n) :
    Inv place pg (update sl n (.hand t))
      ({ s with swapInUse := update s.swapInUse n true }.goto t
      (.chosen w f p v a n)) := by
  obtain ⟨hlt, hun⟩ := Mem.firstFreeSlot_eq_some hn
  rw [Nat.zero_add] at hlt
  have hsl : sl n = .free := by
    by_contra hne
    rw [h.used n hlt hne] at hun
    cases hun
  have hp := h.proc t
  rw [hc] at hp
  refine h.hands ht rfl h.nodup h.free (fun m hm hne => ?_) rfl rfl rfl (fun _ _ _ => ⟨rfl, rfl⟩)
    (fun m hm _ => ?_) (by simp [hc, Pc.Evicts]) (by simp [hc, Pc.GivesBack])
    ⟨hp.1, hlt, update_self _ _ _, hp.2⟩
  · by_cases hmn : m = n
    · subst hmn
      exact update_self _ _ _
    · rw [update_of_ne hmn] at hne
      exact (update_of_ne (fun he => hmn (Nat.cast_inj.mp he)) _ _).trans (h.used m hm hne)
  · have hmn : m ≠ n := fun he => hm (he ▸ hsl)
    exact ⟨update_of_ne hmn _ _, rfl⟩

/-- The page is written to its slot. -/
theorem Inv.writeSlot (h : Inv place pg sl s) (ht : t < nproc) {f n : ℕ}
    (hc : s.pc t = .chosen w f p v a n) :
    Inv place pg sl
      ({ s with disk := update s.disk n (s.mem a) }.goto t (.written w f p v a n)) := by
  have hp := h.proc t
  rw [hc] at hp
  obtain ⟨hx, hn, hsl, hok⟩ := hp
  have he := h.entry p v
  rw [hx] at he
  refine h.hands ht rfl h.nodup h.free h.used rfl rfl rfl (fun _ _ _ => ⟨rfl, rfl⟩)
    (fun m _ hm => ?_) (by simp [hc, Pc.Evicts]) (by simp [hc, Pc.GivesBack])
    ⟨hx, hn, hsl, (update_self _ _ _).trans he.2.2.2.2.1, hok⟩
  · have hmn : (m : ℤ) ≠ n := fun he => hm (by rw [Nat.cast_inj.mp he, hsl])
    exact ⟨rfl, update_of_ne hmn _ _⟩

/-- The slot is read back. -/
theorem Inv.readSlot (h : Inv place pg sl s) (ht : t < nproc) {n : ℤ}
    (hc : s.pc t = .reading w a n) :
    Inv place pg sl ((s.setPage a (s.disk n)).goto t (.read w a n)) := by
  have hp := h.proc t
  rw [hc] at hp
  obtain ⟨ha, u, m, hb, rfl, hx⟩ := hp
  have he := h.entry t u
  rw [hx] at he
  refine h.hands ht rfl h.nodup h.free h.used rfl rfl rfl (fun b _ hb' => ?_)
    (fun _ _ _ => ⟨rfl, rfl⟩) (by simp [hc, Pc.Evicts]) (by simp [hc, Pc.GivesBack])
    ⟨ha, u, m, hb, rfl, hx, (update_self _ _ _).trans he.2.2.2.2⟩
  · have hba : b ≠ a := fun he => hb' (he ▸ ha.1)
    exact ⟨rfl, update_of_ne hba _ _⟩

/-- A page that is not free can be put on the free list. -/
theorem Inv.nodup_cons (h : Inv place pg sl s) (hpg : pg a ≠ .free) : (a :: s.freelist).Nodup :=
  List.nodup_cons.mpr ⟨fun hmem => hpg (h.free a hmem).2, h.nodup⟩

theorem Inv.free_cons (h : Inv place pg sl s) (hpg : pg a ≠ .free) (hman : Managed s.kend a) :
    ∀ b ∈ a :: s.freelist, Managed s.kend b ∧ update pg a .free b = .free := by
  intro b hb
  rcases List.mem_cons.mp hb with rfl | hb
  · exact ⟨hman, update_self _ _ _⟩
  · have hba : b ≠ a := fun he => hpg (he ▸ (h.free b hb).2)
    rw [update_of_ne hba]
    exact h.free b hb

/-- The page of a victim is freed. -/
theorem Inv.freeHand (h : Inv place pg sl s) (ht : t < nproc) (hc : s.pc t = .released w a)
    (hs : kfree s a = some s') : ∃ pg', Inv place pg' sl (s'.goto t (.alloc w)) := by
  have hp := h.proc t
  rw [hc] at hp
  obtain ⟨⟨hpg, hman⟩, hok⟩ := hp
  rw [kfree] at hs
  split at hs
  · cases hs
  obtain rfl := Option.some.inj hs
  have hne : pg a ≠ .free := by rw [hpg]; simp
  refine ⟨update pg a .free, h.hands ht rfl (h.nodup_cons hne) (h.free_cons hne hman)
    h.used rfl rfl rfl (fun b _ hb => ?_) (fun _ _ _ => ⟨rfl, rfl⟩)
    (by simp [hc, Pc.Evicts]) (by simp [hc, Pc.GivesBack]) hok⟩
  · have hba : b ≠ a := fun he => hb (he ▸ hpg)
    exact ⟨update_of_ne hba _ _, update_of_ne hba _ _⟩

/-! ### Steps that change an entry -/

theorem Want.Ok.put (h : w.Ok place t) {x : Place}
    (hne : ∀ u, w.page = some u → ¬ (t = p ∧ u = v)) : w.Ok (put place p v x) t :=
  h.congr fun u hu => put_of_ne (hne u hu)

/-- A victim is marked. -/
theorem Inv.mark (h : Inv place pg sl s) (ht : t < nproc) (hc : s.pc t = .scan w) {f : ℕ}
    (hv : has (s.pte p v) pteV = true) (huse : ¬ (s.pc p).Uses v) :
    Inv (put place p v (.window t (pte2pa (s.pte p v)))) pg sl
      ((s.setPte p v (markedPte (s.pte p v))).goto t (.marked w f p v (pte2pa (s.pte p v)))) := by
  have hx := h.place_of_valid hv fun hcl => huse (by rw [hcl]; rfl)
  have halone := h.alone_page hx huse
  have he := h.entry p v
  rw [hx] at he
  obtain ⟨-, hpg, hman, hmem⟩ := he
  have hok := h.proc t
  rw [hc] at hok
  refine h.change (p := p) (v := v) ht rfl h.nodup h.free h.used rfl
    (fun q u hne => ⟨put_of_ne hne, put_of_ne hne, rfl⟩) (fun _ _ => ⟨rfl, rfl⟩)
    (fun _ _ => ⟨rfl, rfl⟩) (fun t' _ hct => absurd hct (halone t')) (by simp [hc, Pc.Evicts])
    (by simp [hc, Pc.GivesBack]) ?_ ⟨put_self _ _ _ _, Want.Ok.put hok fun u hu htp => ?_⟩
  · rw [put_self]
    refine ⟨?_, ?_, hpg, hman, hmem, ?_⟩
    · simpa [State.goto, State.setPte] using Mem.swapped_markedPte (s.pte p v)
    · simp [State.goto, State.setPte, pte2pa, Mem.ushiftRight_markedPte]
    · simp [State.goto, Pc.Evicts]
  · obtain ⟨rfl, rfl⟩ := htp
    exact halone t (Or.inr ⟨rfl, by rw [hc]; exact hu⟩)

/-- The slot is stored in the entry. -/
theorem Inv.storeSlot (h : Inv place pg sl s) (ht : t < nproc) {f n : ℕ}
    (hc : s.pc t = .written w f p v a n) :
    Inv (put place p v (.slot n)) (update pg a (.hand t)) (update sl n (.entry p v))
      ((s.setPte p v (slotPte n (s.pte p v))).goto t (.stored w f a)) := by
  have hp := h.proc t
  rw [hc] at hp
  obtain ⟨hx, hn, hsl, hdisk, hok⟩ := hp
  have he := h.entry p v
  rw [hx] at he
  obtain ⟨⟨h0, -⟩, -, hpg, hman, -, -⟩ := he
  have hne : ∀ u, w.page = some u → ¬ (t = p ∧ u = v) := by
    rintro u hu ⟨rfl, rfl⟩
    rcases h.own_place (t := t) (v := u) (by rw [hc]; exact hu) with
      ⟨m, hm⟩ | hm | hm | ⟨hm | ⟨b, hm⟩, -⟩ <;> rw [hx] at hm <;> cases hm
  refine h.change (p := p) (v := v) ht rfl h.nodup (fun b hb => ?_) (fun m hm hm' => ?_) rfl
    (fun q u hne => ⟨put_of_ne hne, put_of_ne hne, rfl⟩) (fun b hb => ?_) (fun m hm => ?_)
    (fun t' htt hct => absurd hct (h.alone_window hx t' htt)) (fun q u hne he => ?_)
    (by simp [hc, Pc.GivesBack]) ?_ ⟨⟨update_self _ _ _, hman⟩, Want.Ok.put hok hne⟩
  · rw [update_of_ne (h.ne_of_free hb (by rw [hpg]; simp))]
    exact h.free b hb
  · by_cases hmn : m = n
    · subst hmn
      exact h.used m hm (by rw [hsl]; simp)
    · rw [update_of_ne hmn] at hm'
      exact h.used m hm hm'
  · have hba : b ≠ a := fun he => hb (Or.inr (Or.inl (he ▸ hpg)))
    exact ⟨update_of_ne hba _ _, rfl⟩
  · have hmn : m ≠ n := fun he => hm (Or.inr (Or.inr (he ▸ hsl)))
    exact ⟨update_of_ne hmn _ _, rfl⟩
  · rw [hc] at he
    exact absurd ⟨he.1.symm, he.2.symm⟩ hne
  · rw [put_self]
    refine ⟨⟨?_, ?_⟩, ?_, hn, update_self _ _ _, hdisk⟩
    · simp only [State.goto, State.setPte, put_self]
      rw [Mem.getLsbD_slotPte hn (by omega), h0]
      rfl
    · simp only [State.goto, State.setPte, put_self]
      rw [Mem.getLsbD_slotPte hn (by omega)]
      simp
    · simp only [nswapspace_eq] at hn
      simp only [State.goto, State.setPte, put_self]
      rw [Mem.ushiftRight_slotPte hn, BitVec.toNat_ofNat, Nat.mod_eq_of_lt (by omega)]

/-- A page in the hands of a process becomes the page of one of its entries. -/
theorem Inv.map (h : Inv place pg sl s) (ht : t < nproc) (ha : InHand pg s t a)
    (hx : place t v = .absent ∨ place t v = .spent) {pte : Pte} (hpte : MapsTo pte a)
    (content : Page) (hevicts : ∀ q u, ¬ (s.pc t).Evicts q u)
    (hback : ∀ u, (s.pc t).page = some u → (s.pc t).GivesBack ∨ s.pc t = .clearPage u → u = v)
    (hc : c = .idle ∨ (∃ copy, c = .track v a copy) ∨ c = .copying v a) :
    Inv (put place t v (.page a)) (update pg a (.entry t v)) sl
      ((((s.setPage a content).setPte t v pte).setLast t v content).goto t c) := by
  have hnw : ∀ e b, place t v ≠ .window e b := by
    rintro e b hw
    rcases hx with hx | hx <;> rw [hw] at hx <;> cases hx
  refine h.change (p := t) (v := v) ht rfl h.nodup (fun b hb => ?_) h.used rfl
    (fun q u hne => ⟨put_of_ne hne, put_of_ne hne, put_of_ne hne⟩) (fun b hb => ?_)
    (fun _ _ => ⟨rfl, rfl⟩) (fun t' htt hct => absurd hct (h.alone hnw t' htt))
    (fun q u _ he => absurd he (hevicts q u)) (fun u hu hg => ⟨rfl, hback u hu hg⟩) ?_ ?_
  · rw [update_of_ne (h.ne_of_free hb (by rw [ha.1]; simp))]
    exact h.free b hb
  · have hba : b ≠ a := fun he => hb (Or.inr (Or.inr (he ▸ ha.1)))
    exact ⟨update_of_ne hba _ _, update_of_ne hba _ _⟩
  · rw [put_self]
    refine ⟨?_, update_self _ _ _, ha.2, ?_⟩
    · simpa [State.goto, State.setPte, State.setLast] using hpte
    · simp [State.goto, State.setPte, State.setPage, State.setLast]
  · rcases hc with rfl | ⟨copy, rfl⟩ | rfl
    · trivial
    · exact put_self _ _ _ _
    · exact put_self _ _ _ _

/-- The page of an entry is written, and the process is done. -/
theorem Inv.write (h : Inv place pg sl s) (ht : t < nproc) (hx : place t v = .page a)
    (hc : s.pc t = .idle ∨ s.pc t = .copying v a) (g : Page → Page) :
    Inv place pg sl (((s.setPage a (g (s.mem a))).setLast t v (g (s.last t v))).goto t .idle) := by
  have he := h.entry t v
  rw [hx] at he
  obtain ⟨hm, hpg, hman, hmem⟩ := he
  have hnw : ∀ e b, place t v ≠ .window e b := by
    rintro e b hw
    rw [hx] at hw
    cases hw
  refine h.change (p := t) (v := v) ht rfl h.nodup h.free h.used rfl
    (fun q u hne => ⟨rfl, rfl, put_of_ne hne⟩) (fun b hb => ?_) (fun _ _ => ⟨rfl, rfl⟩)
    (fun t' htt hct => absurd hct (h.alone hnw t' htt)) (fun q u _ he => ?_) (fun u _ hg => ?_) ?_
    trivial
  · have hba : b ≠ a := fun he => hb (Or.inr (Or.inl (he ▸ hpg)))
    exact ⟨rfl, update_of_ne hba _ _⟩
  · rcases hc with hc | hc <;> rw [hc] at he <;> exact he.elim
  · rcases hc with hc | hc <;> simp [hc, Pc.GivesBack] at hg
  · rw [hx]
    refine ⟨hm, hpg, hman, ?_⟩
    simp [State.goto, State.setPage, State.setLast, hmem]

/-- A process gives back the slot of a page of its own. -/
theorem Inv.giveBack (h : Inv place pg sl s) (ht : t < nproc) {m : ℕ} (hx : place t v = .slot m)
    (hevicts : ∀ q u, ¬ (s.pc t).Evicts q u)
    (hmid : ¬ (s.pc t).GivesBack ∧ ∀ u, s.pc t ≠ .clearPage u) (hc : c.GivesBack ∧ c.page = some v)
    (hproc : ProcOk (put place t v .spent) pg (update sl m .free) s t c) :
    Inv (put place t v .spent) pg (update sl m .free)
      ({ s with swapInUse := update s.swapInUse m false }.goto t c) := by
  have he := h.entry t v
  rw [hx] at he
  obtain ⟨hs, -, -, hsl, -⟩ := he
  have hnw : ∀ e b, place t v ≠ .window e b := by
    rintro e b hw
    rw [hx] at hw
    cases hw
  refine h.change (p := t) (v := v) ht rfl h.nodup h.free (fun n hn hn' => ?_) rfl
    (fun q u hne => ⟨put_of_ne hne, rfl, rfl⟩) (fun _ _ => ⟨rfl, rfl⟩) (fun n hn => ?_)
    (fun t' htt hct => absurd hct (h.alone hnw t' htt)) (fun q u _ he => absurd he (hevicts q u))
    (fun u _ hg => (hg.elim hmid.1 (hmid.2 u)).elim) ?_ hproc
  · by_cases hnm : n = m
    · subst hnm
      rw [update_self] at hn'
      exact absurd rfl hn'
    · rw [update_of_ne hnm] at hn'
      exact (update_of_ne (fun he => hnm (Nat.cast_inj.mp he)) _ _).trans (h.used n hn hn')
  · have hnm : n ≠ m := fun he => hn (Or.inr (Or.inl (he ▸ hsl)))
    exact ⟨update_of_ne hnm _ _, rfl⟩
  · rw [put_self]
    refine ⟨hs, ?_, ?_⟩
    · simpa [State.goto] using hc.1
    · simpa [State.goto] using hc.2

/-- A process frees a page of its own. -/
theorem Inv.freePage (h : Inv place pg sl s) (ht : t < nproc) (hc : s.pc t = .unmapPage v a)
    (hs : kfree s a = some s') :
    Inv (put place t v .dying) (update pg a .free) sl (s'.goto t (.clearPage v)) := by
  have hx := h.proc t
  rw [hc] at hx
  have he := h.entry t v
  rw [show place t v = .page a from hx] at he
  obtain ⟨hm, hpg, hman, -⟩ := he
  have hnw : ∀ e b, place t v ≠ .window e b := by
    rintro e b hw
    cases hw.symm.trans hx
  rw [kfree] at hs
  split at hs
  · cases hs
  obtain rfl := Option.some.inj hs
  have hne : pg a ≠ .free := by rw [hpg]; simp
  refine h.change (p := t) (v := v) ht rfl (h.nodup_cons hne) (h.free_cons hne hman)
    h.used rfl (fun q u hne => ⟨put_of_ne hne, rfl, rfl⟩) (fun b hb => ?_) (fun _ _ => ⟨rfl, rfl⟩)
    (fun t' htt hct => absurd hct (h.alone hnw t' htt)) (by simp [hc, Pc.Evicts])
    (by simp [hc, Pc.GivesBack]) ?_ (put_self _ _ _ _)
  · have hba : b ≠ a := fun he => hb (Or.inr (Or.inl (he ▸ hpg)))
    exact ⟨update_of_ne hba _ _, update_of_ne hba _ _⟩
  · rw [put_self]
    exact ⟨hm.valid, hm.not_swapped, update_self _ _ _⟩

/-- A process clears an entry of its own. -/
theorem Inv.clear (h : Inv place pg sl s) (ht : t < nproc)
    (hc : s.pc t = .clearPage v ∨ s.pc t = .clearSlot v) :
    Inv (put place t v .absent) pg sl ((s.setPte t v 0#64).goto t .idle) := by
  have hnw : ∀ e b, place t v ≠ .window e b := by
    rintro e b hw
    have hp := h.proc t
    rcases hc with hc | hc <;> rw [hc] at hp <;> cases hw.symm.trans hp
  refine h.change (p := t) (v := v) ht rfl h.nodup h.free h.used rfl
    (fun q u hne => ⟨put_of_ne hne, put_of_ne hne, rfl⟩) (fun _ _ => ⟨rfl, rfl⟩)
    (fun _ _ => ⟨rfl, rfl⟩) (fun t' htt hct => absurd hct (h.alone hnw t' htt))
    (fun q u _ he => ?_) (fun u hu _ => ⟨rfl, ?_⟩) ?_ trivial
  · rcases hc with hc | hc <;> rw [hc] at he <;> exact he.elim
  · rcases hc with hc | hc <;> rw [hc] at hu <;> exact (Option.some.inj hu).symm
  · rw [put_self, EntryOk]
    simp [State.goto, State.setPte]

end

end Swap

end Xv6
