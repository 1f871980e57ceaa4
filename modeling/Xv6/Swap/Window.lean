import Xv6.Swap.Preserve

/-!
# The eviction window

`evict_pages` publishes the entry of its victim as swapped before the page has a slot. From then on
until the slot is stored, the entry has the number of a page above its flags where every reader
expects a slot (`window_counterexample`). The other two windows are shorter: `swap_in` and
`uvmunmap` give a slot back before they rewrite the entry that names it.

Outside these windows every swapped entry carries a real slot, provided that nobody has used a
window: no page fault, copy or unmapping of a page has begun during its eviction, and no page has
become a victim while its process was in the middle of an operation on it (`Exclusive`). That is
`swappedOk_iff`, which is exact for the first window: while some eviction is in it, the property
fails.
-/

namespace Xv6

namespace Swap

open Mem (Pte Page pteV pteR pteW pteU pteSwapped has pte2pa swapIdx markedPte slotPte usertrapPte
  walkaddrPte mapPte firstFreeSlot Valid Swapped MapsTo Managed)
open Transition

section

variable {place : ℕ → ℕ → Place} {pg sl : ℕ → Holder} {s s' : State} {t p v a : ℕ} {c : Pc}
  {w : Want}

/-! ### The invariant along runs -/

/-- The invariant of the system. -/
def Coherent (s : State) : Prop := ∃ place pg sl, Inv place pg sl s

/-- `vmfault` begins. -/
theorem Inv.vmfault (h : Inv place pg sl s) (ht : t < nproc) (hc : s.pc t = .idle) (copy : Bool)
    (hs : has (s.pte t v) pteSwapped = false) : Inv place pg sl (vmfault s t v copy) := by
  rw [Swap.vmfault]
  split_ifs with hsz hv
  · exact h
  · exact h
  · exact h.goto_of_idle ht hc (h.place_of_neither (by simpa using hv) hs)

/-- A process that is idle takes a step. -/
theorem Inv.begin (h : Inv place pg sl s) (ht : t < nproc) (hc : s.pc t = .idle) {act : Act}
    (hexcl : Exclusive s (t, act)) (hs : begin s t act = some s') : Inv place pg sl s' := by
  have hcl : ∀ u, s.pc t ≠ .clearPage u := fun u => by rw [hc]; simp
  have hgb : ¬ (s.pc t).GivesBack := by rw [hc]; exact id
  have hbit8 : ∀ {u}, has (s.pte t u) pteV = true → has (s.pte t u) pteSwapped = false := by
    intro u hv
    have he := h.entry t u
    rw [h.place_of_valid hv (hcl u)] at he
    rw [Mem.has_pteSwapped]
    exact he.1.not_swapped
  cases act with
  | store u off b =>
    rw [Swap.begin] at hs
    split at hs
    next hv =>
      obtain rfl := Option.some.inj hs
      have hw := h.write ht (h.place_of_valid hv.1 (hcl u)) (Or.inl hc) fun pg => pg.setByte off b
      rwa [State.goto_self] at hw
      exact hc
    next => cases hs
  | fault u =>
    rw [Swap.begin] at hs
    split at hs
    next hsw =>
      obtain rfl := Option.some.inj hs
      obtain ⟨n, hn, -⟩ := h.place_of_swapped hsw hgb hexcl
      exact h.goto_of_idle ht hc ⟨n, hn⟩
    next hsw =>
      obtain rfl := Option.some.inj hs
      exact h.vmfault ht hc false (by simpa using hsw)
  | copy u =>
    rw [Swap.begin] at hs
    split_ifs at hs with hv hu hsw <;> obtain rfl := Option.some.inj hs
    · exact h.goto_of_idle ht hc (h.place_of_valid hv (hcl u))
    · exact h.vmfault ht hc true (hbit8 hv)
    · obtain ⟨n, hn, -⟩ := h.place_of_swapped hsw hgb hexcl
      exact h.goto_of_idle ht hc ⟨n, hn⟩
    · exact h.vmfault ht hc true (by simpa using hsw)
  | unmap u =>
    rw [Swap.begin] at hs
    split_ifs at hs with hv hsw <;> obtain rfl := Option.some.inj hs
    · exact h.goto_of_idle ht hc (h.place_of_valid hv (hcl u))
    · obtain ⟨n, hn, hi⟩ := h.place_of_swapped hsw hgb hexcl
      exact h.goto_of_idle ht hc ⟨n, hi, hn⟩
    · exact h
  | alloc =>
    obtain rfl := Option.some.inj hs
    exact h.goto_of_idle ht hc trivial
  | setSz sz =>
    obtain rfl := Option.some.inj hs
    exact h.setSz _
  | memmove bytes => cases hs
  | next => cases hs

theorem has_pteV_of_visit (h : visit s = .victim p v) : has (s.pte p v) pteV = true := by
  rw [visit] at h
  split at h
  next q _ _ =>
    dsimp only at h
    split_ifs at h with hv
    obtain ⟨rfl, rfl⟩ := Visit.victim.inj h
    exact hv
  next => cases h

/-- One visit of the clock. -/
theorem Inv.scan (h : Inv place pg sl s) (ht : t < nproc) (hc : s.pc t = .scan w)
    (hexcl : Exclusive s (t, .next)) (hs : scanStep s t w = some s') : Coherent s' := by
  rw [scanStep] at hs
  rw [Exclusive] at hexcl
  simp only [hc] at hexcl
  cases hvis : visit s with
  | skip =>
    rw [hvis] at hs
    obtain rfl := Option.some.inj hs
    exact ⟨place, pg, sl, h.frames _ _⟩
  | clear index =>
    rw [hvis] at hs
    obtain rfl := Option.some.inj hs
    exact ⟨place, pg, sl, h.frames _ _⟩
  | undefined =>
    rw [hvis] at hs
    cases hs
  | victim p v =>
    rw [hvis] at hs hexcl
    obtain rfl := Option.some.inj hs
    have hv := has_pteV_of_visit hvis
    exact ⟨_, pg, sl, (h.frames s.frames ((s.clockHand + 1) % nframe)).mark ht hc hv hexcl⟩

/-- The allocation of a page returns. -/
theorem Inv.got (h : Inv place pg sl s) (ht : t < nproc) (hc : s.pc t = .got w a)
    (hs : gotStep s t a w = some s') : Coherent s' := by
  have hp := h.proc t
  rw [hc] at hp
  obtain ⟨ha, hok⟩ := hp
  have hread : ∀ {w' : Want} {u : ℕ}, w'.Back u → (∃ n, place t u = .slot n) →
      Coherent (s.goto t (.reading w' a (swapIdx (s.pte t u)))) := by
    rintro w' u hb ⟨n, hn⟩
    have he := h.entry t u
    rw [hn] at he
    obtain ⟨-, hi, hlt, -⟩ := he
    simp only [nswapspace_eq] at hlt
    have hidx : swapIdx (s.pte t u) = n := by
      rw [swapIdx, hi]
      exact int32_of_mem (by omega) (by omega)
    exact ⟨place, pg, sl, h.goto ht (by simp [hc, Pc.Evicts]) (by simp [hc, Pc.GivesBack])
      ⟨ha, u, n, hb, hidx, hn⟩⟩
  cases w with
  | trap u =>
    obtain rfl := Option.some.inj hs
    exact hread rfl hok
  | walkaddr u =>
    obtain rfl := Option.some.inj hs
    exact hread rfl hok
  | lazy u copy =>
    rw [gotStep] at hs
    split at hs
    · cases hs
    obtain rfl := Option.some.inj hs
    have hpte : MapsTo (mapPte a (pteW ||| pteU ||| pteR)) a :=
      Mem.mapsTo_mapPte ha.2.1 ha.2.pageAddr.2 (by decide) (by decide)
    exact ⟨_, _, sl, h.map ht ha (Or.inl hok) hpte _ (by simp [hc, Pc.Evicts])
      (by simp [hc, Pc.GivesBack]) (Or.inr (Or.inl ⟨copy, rfl⟩))⟩
  | other =>
    obtain rfl := Option.some.inj hs
    exact ⟨place, pg, sl, h.goto ht (by simp [hc, Pc.Evicts]) (by simp [hc, Pc.GivesBack]) trivial⟩

/-- The entry of a page that has come back is written. -/
theorem Inv.back (h : Inv place pg sl s) (ht : t < nproc) (hc : s.pc t = .freed w a)
    (hs : backStep s t a w = some s') : Coherent s' := by
  have hp := h.proc t
  rw [hc] at hp
  obtain ⟨ha, u, hb, hx, hmem⟩ := hp
  have hmap : ∀ {c : Pc}, (c = .idle ∨ (∃ copy, c = .track u a copy) ∨ c = .copying u a) →
      Coherent ((s.setPte t u (usertrapPte a (s.pte t u))).goto t c) := by
    intro c hcc
    have hm := h.map ht ha (Or.inr hx)
      (Mem.mapsTo_usertrapPte ha.2.1 ha.2.pageAddr.2 (s.pte t u)) (s.mem a)
        (by simp [hc, Pc.Evicts])
      (fun u' hu' _ => by
        rw [hc] at hu'
        exact Option.some.inj (hu'.symm.trans hb.page)) hcc
    have hpage : s.setPage a (s.mem a) = s := by rw [State.setPage, Function.update_eq_self]
    have hlast : (s.setPte t u (usertrapPte a (s.pte t u))).setLast t u (s.mem a)
        = s.setPte t u (usertrapPte a (s.pte t u)) := by
      rw [State.setLast, put_eq_self]
      exact hmem.symm
    rw [hpage, hlast] at hm
    exact ⟨_, _, sl, hm⟩
  have hpa : pte2pa (usertrapPte a (s.pte t u)) = a :=
    (Mem.mapsTo_usertrapPte ha.2.1 ha.2.pageAddr.2 (s.pte t u)).pa
  cases w with
  | trap u' =>
    obtain rfl : u' = u := hb
    obtain rfl := Option.some.inj hs
    exact hmap (Or.inr (Or.inl ⟨false, rfl⟩))
  | walkaddr u' =>
    obtain rfl : u' = u := hb
    obtain rfl := Option.some.inj hs
    rw [Mem.walkaddrPte_eq]
    refine hmap ?_
    split
    · exact Or.inr (Or.inr (by rw [State.setPte]; simp only [put_self]; rw [hpa]))
    · exact Or.inl rfl
  | lazy u' copy => exact hb.elim
  | other => exact hb.elim

theorem trackFrame_eq (s : State) (p va pa : ℕ) :
    ∃ frames, trackFrame s p va pa = { s with frames := frames } := by
  rw [trackFrame]
  split_ifs
  · exact ⟨s.frames, rfl⟩
  · exact ⟨s.frames, rfl⟩
  · exact ⟨_, rfl⟩

/-- A process goes on. -/
theorem Inv.next (h : Inv place pg sl s) (ht : t < nproc) (hexcl : Exclusive s (t, .next))
    (hs : next s t (s.pc t) = some s') : Coherent s' := by
  have hp := h.proc t
  cases hc : s.pc t <;> rw [hc] at hs hp
  case idle => cases hs
  case alloc w =>
    rw [Swap.next] at hs
    split at hs <;> obtain rfl := Option.some.inj hs
    next r rest hf => exact ⟨place, _, sl, h.take ht hc hf⟩
    next =>
      exact ⟨place, pg, sl, h.goto ht (by simp [hc, Pc.Evicts]) (by simp [hc, Pc.GivesBack]) hp⟩
  case scan w => exact h.scan ht hc hexcl hs
  case marked w f p v a =>
    rw [Swap.next, Option.map_eq_some_iff] at hs
    obtain ⟨n, hn, rfl⟩ := hs
    exact ⟨place, pg, _, h.choose ht hc hn⟩
  case chosen w f p v a n =>
    obtain rfl := Option.some.inj hs
    exact ⟨place, pg, sl, h.writeSlot ht hc⟩
  case written w f p v a n =>
    obtain rfl := Option.some.inj hs
    exact ⟨_, _, _, h.storeSlot ht hc⟩
  case stored w f a =>
    obtain rfl := Option.some.inj hs
    exact ⟨place, pg, sl, (h.frames _ s.clockHand).goto ht (by simp [hc, Pc.Evicts])
      (by simp [hc, Pc.GivesBack]) hp⟩
  case released w a =>
    rw [Swap.next, Option.map_eq_some_iff] at hs
    obtain ⟨s₁, hs₁, rfl⟩ := hs
    obtain ⟨pg', h'⟩ := h.freeHand ht hc hs₁
    exact ⟨place, pg', sl, h'⟩
  case got w a => exact h.got ht hc hs
  case reading w a n =>
    obtain rfl := Option.some.inj hs
    exact ⟨place, pg, sl, h.readSlot ht hc⟩
  case read w a n =>
    obtain ⟨ha, u, m, hb, rfl, hx, hmem⟩ := hp
    have he := h.entry t u
    rw [hx] at he
    have hin : 0 ≤ (m : ℤ) ∧ (m : ℤ) < nswapspace := ⟨by omega, by have := he.2.2.1; omega⟩
    rw [Swap.next, if_pos hin] at hs
    obtain rfl := Option.some.inj hs
    exact ⟨_, pg, _, h.giveBack ht hx (by simp [hc, Pc.Evicts]) (by simp [hc, Pc.GivesBack])
      ⟨trivial, hb.page⟩ ⟨ha, u, hb, put_self _ _ _ _, hmem⟩⟩
  case freed w a => exact h.back ht hc hs
  case track v a copy =>
    obtain rfl := Option.some.inj hs
    obtain ⟨frames, hf⟩ := trackFrame_eq s t (v * pgsize) a
    rw [hf]
    refine ⟨place, pg, sl, (h.frames frames s.clockHand).goto ht (by simp [hc, Pc.Evicts])
      (by simp [hc, Pc.GivesBack]) ?_⟩
    cases copy
    · trivial
    · exact hp
  case copying v a => cases hs
  case unmapPage v a =>
    rw [Swap.next, Option.map_eq_some_iff] at hs
    obtain ⟨s₁, hs₁, rfl⟩ := hs
    exact ⟨_, _, sl, h.freePage ht hc hs₁⟩
  case unmapSlot v n =>
    obtain ⟨m, rfl, hx⟩ := hp
    rw [Swap.next] at hs
    split at hs
    next =>
      obtain rfl := Option.some.inj hs
      exact ⟨_, pg, _, h.giveBack ht hx (by simp [hc, Pc.Evicts]) (by simp [hc, Pc.GivesBack])
        ⟨trivial, rfl⟩ (put_self _ _ _ _)⟩
    next => cases hs
  case clearPage v =>
    obtain rfl := Option.some.inj hs
    exact ⟨_, pg, sl, h.clear ht (Or.inl hc)⟩
  case clearSlot v =>
    obtain rfl := Option.some.inj hs
    exact ⟨_, pg, sl, h.clear ht (Or.inr hc)⟩

theorem Coherent.step {ta : ℕ × Act} (h : Coherent s) (hexcl : Exclusive s ta)
    (hs : step s ta = some s') : Coherent s' := by
  obtain ⟨place, pg, sl, h⟩ := h
  obtain ⟨t, act⟩ := ta
  rw [Swap.step] at hs
  split at hs
  next ht =>
    split at hs
    next hc => exact ⟨place, pg, sl, h.begin ht hc hexcl hs⟩
    next v a bytes hc hact =>
      obtain rfl := Option.some.inj hs
      have hx := h.proc t
      rw [hc] at hx
      have hdone : Inv place pg sl (s.goto t .idle) :=
        h.goto ht (by simp [hc, Pc.Evicts]) (by simp [hc, Pc.GivesBack]) trivial
      refine ⟨place, pg, sl, ?_⟩
      cases bytes with
      | none => exact hdone
      | some b =>
        rw [copyStep]
        split
        · exact h.write ht hx (Or.inr hc) fun pg => pg.setBytes b.1 b.2
        · exact hdone
    next hact _ =>
      obtain rfl : act = .next := hact
      exact h.next ht hexcl hs
    next => cases hs
  next => cases hs

/-- Processes without memory. -/
structure Started (s : State) : Prop where
  kend : kernbase ≤ s.kend
  nodup : s.freelist.Nodup
  managed : ∀ a ∈ s.freelist, Managed s.kend a
  untouched : ∀ p v, s.pte p v = 0#64
  idle : ∀ t, s.pc t = .idle

theorem Started.coherent (h : Started s) : Coherent s := by
  refine ⟨fun _ _ => .absent, fun _ => .free, fun _ => .free, ⟨h.kend, h.nodup,
    fun a ha => ⟨h.managed a ha, rfl⟩, fun _ _ hne => absurd rfl hne, fun p v => ?_, fun t => ?_,
    fun t _ => h.idle t⟩⟩
  · rw [EntryOk, h.untouched]
    simp
  · rw [h.idle t]
    trivial

/-- **Swapped entries and the eviction window.** In a state that no process has left between giving
a slot back and rewriting its entry, and that was reached without overlap, every swapped entry
carries a real slot exactly if no eviction is between its mark and the storing of its slot. -/
theorem swappedOk_iff {acts : List (ℕ × Act)} {s₀ : State}
    (hrun : run step acts s₀ = some s) (h₀ : Started s₀)
    (hexcl : Meets step Exclusive acts s₀) (hback : ∀ t < nproc, ¬ (s.pc t).GivesBack) :
    SwappedOk s ↔ ∀ t < nproc, ∀ p v, ¬ (s.pc t).Evicts p v := by
  obtain ⟨place, pg, sl, h⟩ := run_invariant (P := Coherent)
    (fun _ _ _ h hC hs => h.step hC hs) h₀.coherent hexcl hrun
  have hlt : ∀ {t}, s.pc t ≠ .idle → t < nproc := fun {t} hne => by
    by_contra hge
    exact hne (h.idle t (not_lt.mp hge))
  constructor
  · -- above the flags of a marked entry is the number of a page, which is no slot
    intro hok t _ p v hev
    obtain ⟨a, hx⟩ := h.window_of_evicts hev
    have he := h.entry p v
    rw [hx] at he
    obtain ⟨hs, hpa, -, hman, -⟩ := he
    have hslot := (hok p v hs).1
    have hk := h.kend.trans hman.2.1
    rw [← hpa, pte2pa, BitVec.toNat_shiftLeft, Nat.shiftLeft_eq] at hk
    simp only [nswapspace_eq, kernbase_eq] at hslot hk
    omega
  · intro hno p v hs
    have he := h.entry p v
    cases hx : place p v <;> rw [hx] at he
    case slot n =>
      obtain ⟨-, hi, hn, hsl, hd⟩ := he
      rw [hi]
      exact ⟨hn, h.used n hn (by rw [hsl]; simp), hd⟩
    case absent => cases hs.2.symm.trans he.2
    case page a => exact absurd he.1.valid hs.not_valid
    case window t a =>
      obtain ⟨-, -, -, -, -, hev⟩ := he
      refine absurd hev (hno t (hlt fun hc => ?_) p v)
      rw [hc] at hev
      exact hev
    case spent =>
      obtain ⟨-, hg, -⟩ := he
      refine absurd hg (hback p (hlt fun hc => ?_))
      rw [hc] at hg
      exact hg
    case dying => exact absurd he.1 hs.not_valid

/-! ### A run -/

/-- Two processes, and one page of memory. -/
def boot : State where
  pte _ _ := 0#64
  mem _ := Page.zero
  freelist := [0x80030000]
  frames _ := ⟨false, none, false, 0⟩
  clockHand := 0
  swapInUse _ := false
  disk _ := Page.zero
  sz _ := 0
  pc _ := .idle
  kend := 0x80030000
  last _ _ := Page.zero

theorem started_boot : Started boot where
  kend := by decide
  nodup := by decide
  managed a ha := by
    obtain rfl := List.mem_singleton.mp ha
    exact ⟨by decide, by decide, by decide⟩
  untouched _ _ := rfl
  idle _ := rfl

/-- Process `0` touches its first page, and process `1` allocates a page after it: the clock goes
round once before it evicts the page of process `0`. -/
def evictFirst : List (ℕ × Act) :=
  [(0, .setSz pgsize), (0, .fault 0), (0, .next), (0, .next), (0, .next), (0, .store 0 0 7#8),
    (1, .alloc)] ++ List.replicate 562 (1, .next)

/-- The page of process `0` is out, and its entry carries its slot. -/
theorem swappedOk_evictFirst : ∃ s,
    run step (evictFirst ++ List.replicate 7 (1, .next)) boot = some s ∧
      Swapped (s.pte 0 0) ∧ (s.last 0 0).getByte 0 = 7#8 ∧ SwappedOk s := by
  have hfacts : ∀ s ∈ run step (evictFirst ++ List.replicate 7 (1, .next)) boot,
      Swapped (s.pte 0 0) ∧ (s.last 0 0).getByte 0 = 7#8 ∧ ∀ t < nproc, s.pc t = .idle := by
    decide +kernel
  obtain ⟨s, hs⟩ := Option.isSome_iff_exists.mp
    (show (run step (evictFirst ++ List.replicate 7 (1, .next)) boot).isSome = true by
      decide +kernel)
  obtain ⟨hout, hlast, hidle⟩ := hfacts s hs
  refine ⟨s, hs, hout, hlast, (swappedOk_iff hs started_boot (by decide +kernel) fun t ht => ?_).mpr
    fun t ht p v => ?_⟩
  · rw [hidle t ht]
    exact id
  · rw [hidle t ht]
    exact id

/-- Nobody has used a window, no slot has been given back, and the first page that is evicted has
the number of a page in its entry where its slot should be. -/
theorem window_counterexample : Started boot ∧ Meets step Exclusive evictFirst boot ∧
    ∃ s, run step evictFirst boot = some s ∧ Swapped (s.pte 0 0) ∧
      (s.pte 0 0 >>> 10).toNat = 0x80030 ∧ ¬ SwappedOk s := by
  have hfacts : ∀ s ∈ run step evictFirst boot,
      Swapped (s.pte 0 0) ∧ (s.pte 0 0 >>> 10).toNat = 0x80030 := by
    decide +kernel
  obtain ⟨s, hs⟩ := Option.isSome_iff_exists.mp
    (show (run step evictFirst boot).isSome = true by decide +kernel)
  obtain ⟨hout, hnum⟩ := hfacts s hs
  refine ⟨started_boot, by decide +kernel, s, hs, hout, hnum, fun hok => ?_⟩
  have hslot := (hok 0 0 hout).1
  rw [hnum, nswapspace_eq] at hslot
  omega

end

end Swap

end Xv6
