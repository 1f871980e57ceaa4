import Xv6.Mem.Clock
import Xv6.Mem.Slots

/-!
# Out of memory

`kalloc` promises to return `0` when no memory can be allocated. It never returns `0`: with an empty
free list it calls `evict_pages`, which goes round the frame table until it finds a victim, and
stops the kernel if there is no slot for it. So `kalloc` returns exactly if it can provide a page.

That it does not return has to be said of the loop itself and not of a loop that is cut off after a
number of visits, so the bounds of the model are made explicit (`kallocIn`) and all of them are
considered. Two turns are enough whenever any number of visits is.

Between two calls the condition is a simple one (`provides_iff`): a free page, or a frame in use and
a free slot. Inside a call the frame table may be wrong, and the condition is where the hand
goes (`CanEvict`).

## Main results

* `kalloc_answers_iff`, `kalloc_answers_counterexample`
-/

namespace Xv6

namespace Mem

open WeakestPre
open Transition

/-! ### Every bound -/

/-- `kalloc`, with a bound on the visits of every scan and on the depth of the recursion. -/
def kallocIn (visits : ℕ) : ℕ → M ℕ
  | 0 => throw .spin
  | n + 1 => do
    let s ← get
    match s.freelist with
    | r :: rest =>
      set { s with freelist := rest, mem := Function.update s.mem r (Page.fill 5) }
      pure r
    | [] => evictLoop (kallocIn visits n) visits

theorem kallocN_eq (n : ℕ) : kallocN n = kallocIn (2 * nframe) n := by
  induction n with
  | zero => rfl
  | succ n ih =>
    rw [kallocN, kallocIn]
    refine bind_congr fun s => ?_
    cases s.freelist with
    | nil => exact congrArg (evictLoop · (2 * nframe)) ih
    | cons r rest => rfl

/-- The hand comes to a victim at visit `t`, there is a slot for its page, and the page may be
freed. -/
structure CanEvict (s : Kernel) (t : ℕ) : Prop where
  stop : s.clock.FirstStop t
  inside : ∀ u ≤ t, Inside s (s.clock.pos u)
  slot : ∃ n < nswapspace, s.swapInUse n = false
  page : ∀ p, (s.frames (s.clock.pos t)).p = some p → Managed s.kend
    (pte2pa (leaf s.mem (s.procs p).pagetable (vkey (s.frames (s.clock.pos t)).va)))

/-- A page can be provided. -/
def Provides (s : Kernel) : Prop := s.freelist ≠ [] ∨ ∃ t, CanEvict s t

/-- `kalloc` returns, and returns `0` if no page can be provided. -/
def Answers (s : Kernel) : Prop :=
  ∃ visits depth pa s', kallocIn visits depth s = .ok pa s' ∧ (¬ Provides s → pa = 0)

section

variable {s : Kernel} (hhand : s.clockHand < nframe)

include hhand

theorem CanEvict.lt {t : ℕ} (h : CanEvict s t) : t < 2 * nframe := by
  obtain ⟨j, hlook, -⟩ := h.stop.stops
  have hsize : 0 < s.clock.size := (Nat.zero_le _).trans_lt hhand
  obtain ⟨u, hu, hfirst⟩ := Clock.exists_firstStop hhand (Clock.pos_lt hsize t) hlook
  rwa [h.stop.unique hfirst]

/-- **What can be provided is provided.** -/
theorem Provides.kalloc (h : Provides s) : ∃ pa s', kalloc s = .ok pa s' := by
  refine exists_ok_of_wp (Q := fun _ _ => True) ?_
  cases hf : s.freelist with
  | cons r rest =>
    rw [Mem.kalloc, wp_kallocN_cons hf]
    trivial
  | nil =>
    obtain ⟨t, ht⟩ := h.resolve_left fun hne => hne hf
    obtain ⟨v, s', hscan, hat⟩ := scanLoop_eq_ok hhand ht.stop ht.inside (ht.lt hhand)
    obtain ⟨p, hp, hread⟩ := hat.owner
    have hman : Managed s'.kend (pte2pa (s'.readPte v.2)) := by
      rw [hat.entry] at hp hread
      have hpage := ht.page p hp
      rw [← hread] at hpage
      rw [hat.state]
      exact hpage
    rw [Mem.kalloc, kallocN, wp_bind, wp_get, hf]
    show wp (evictLoop (kallocN 1) (2 * nframe)) _ _ s
    rw [evictLoop_eq, wp_bind, wp_of_eq_ok hscan]
    refine wp_evictVictim rfl (fun s₁ _ _ hev => ?_) (fun hno => absurd hman hno) fun hfull => ?_
    · rw [wp_kallocN_cons hev.freelist]
      trivial
    · obtain ⟨n, hn, hfree⟩ := ht.slot
      have hused := hfull n hn
      rw [hat.state] at hused
      cases hfree.symm.trans hused

/-- **What cannot be provided is not answered**, whatever the bounds. -/
theorem provides_of_ok {visits depth pa : ℕ} {s' : Kernel}
    (h : kallocIn visits depth s = .ok pa s') : Provides s := by
  cases depth with
  | zero => cases h
  | succ n =>
    cases hf : s.freelist with
    | cons r rest => exact Or.inl (by rw [hf]; exact List.cons_ne_nil r rest)
    | nil =>
      refine Or.inr (wp_ok (Q := fun _ _ => ∃ t, CanEvict s t) (E := fun _ _ => True) ?_ h)
      rw [kallocIn, wp_bind, wp_get, hf]
      show wp (evictLoop (kallocIn visits n) visits) _ _ s
      rw [evictLoop_eq]
      refine wp_call (wp_error_imp (scanLoop_spec visits hhand) fun _ _ _ => trivial)
        fun v s₁ hfound => ?_
      obtain ⟨t, -, hfirst, hinside, hat⟩ := hfound
      obtain ⟨p, hp, hread⟩ := hat.owner
      rw [hat.entry] at hp hread
      obtain rfl := hat.state
      refine wp_evictVictim rfl (fun s₂ hslot hman _ => ?_) (fun _ _ => trivial) fun _ _ => trivial
      refine wp_mono (wp_true _ _) (fun _ _ _ => ⟨t, hfirst, hinside, hslot, fun q hq => ?_⟩)
        fun _ _ _ => trivial
      obtain rfl : p = q := Option.some.inj (hp.symm.trans hq)
      rw [← hread]
      exact hman

theorem answers_iff : Answers s ↔ Provides s := by
  constructor
  · rintro ⟨visits, depth, pa, s', hok, -⟩
    exact provides_of_ok hhand hok
  · intro h
    obtain ⟨pa, s', hok⟩ := h.kalloc hhand
    rw [kalloc, kallocN_eq] at hok
    exact ⟨_, _, pa, s', hok, fun hno => absurd h hno⟩

end

/-! ### Between calls -/

/-- In a sound state every frame in use can be evicted. -/
theorem Sound.provides_iff {s : Kernel} (h : Sound s) : Provides s ↔ s.freelist ≠ [] ∨
    (∃ i, (s.frames i).inUse = true) ∧ ∃ n < nswapspace, s.swapInUse n = false := by
  obtain ⟨g, hinv, -⟩ := h
  have hc := hinv.frameCoherent
  have hsize : 0 < s.clock.size := (Nat.zero_le _).trans_lt hc.1
  refine or_congr Iff.rfl ⟨?_, ?_⟩
  · rintro ⟨t, ht⟩
    obtain ⟨j, hlook, -⟩ := ht.stop.stops
    obtain ⟨-, hin, -⟩ := lookAt_eq_some.mp hlook
    exact ⟨⟨_, hin⟩, ht.slot⟩
  · rintro ⟨⟨i, hin⟩, hslot⟩
    have hlook := (hinv.lookAt_self hin).resolve_left (by rintro ⟨_, _, hN⟩; exact hN)
    obtain ⟨-, -, -, hi, -⟩ := hinv.frameTable.tracked i hin
    obtain ⟨t, -, hfirst⟩ := Clock.exists_firstStop (c := s.clock) hc.1 hi hlook
    refine ⟨t, hfirst, fun u _ => hc.inside (Clock.pos_lt hsize u), hslot, fun p hp => ?_⟩
    obtain ⟨j, hstop, -⟩ := hfirst.stops
    obtain ⟨-, hin', -⟩ := lookAt_eq_some.mp hstop
    obtain ⟨q, hm⟩ := frameRight_iff.mp (hc.2 _ (Clock.pos_lt hsize t)) hin'
    obtain rfl : p = q := Option.some.inj (hp.symm.trans hm.owner)
    obtain ⟨_, _, -, -, -, -, hown⟩ := hinv.frameTable.tracked _ hin'
    rw [hm.page]
    exact hinv.managed hown (by simp)

/-- **`kalloc` answers exactly if it can provide a page.** In the states between the calls of any
run this means that a page is free, or that a frame is in use and a slot is free. -/
theorem kalloc_answers_iff {kend : ℕ} (trampolinePa : ℕ) (hlo : kernbase ≤ kend)
    (hhi : kend + nframe * pgsize ≤ phystop) {cs : List Call} {s : Kernel}
    (hrun : run (callStep kalloc) cs (bootState kend trampolinePa) = some s) :
    (Answers s ↔ s.freelist ≠ [] ∨
      (∃ i, (s.frames i).inUse = true) ∧ ∃ n < nswapspace, s.swapInUse n = false) ∧
    ∀ s' : Kernel, s'.clockHand < nframe → (Answers s' ↔ Provides s') := by
  have hsound := sound_of_run trampolinePa hlo hhi hrun
  refine ⟨?_, fun s' hhand => answers_iff hhand⟩
  obtain ⟨g, hinv, -⟩ := id hsound
  rw [answers_iff hinv.frameTable.hand, hsound.provides_iff]

/-- The free list is empty: one of the frames in use has to be evicted. -/
theorem kalloc_answers_forkSwapped : kernbase ≤ 0x80030000 ∧
    0x80030000 + nframe * pgsize ≤ phystop ∧
    ∃ s, run (callStep kalloc) (forkSwapped.take 496) (bootState 0x80030000 0) = some s ∧
      s.freelist = [] ∧ Answers s := by
  obtain ⟨s, hs, hfree, hframe, hslot⟩ : ∃ s,
      run (callStep kalloc) (forkSwapped.take 496) (bootState 0x80030000 0) = some s ∧
      s.freelist = [] ∧ (s.frames 50).inUse = true ∧ s.swapInUse 1 = false := by
    decide +kernel
  exact ⟨by simp, by simp, s, hs, hfree, (kalloc_answers_iff 0 (by simp) (by simp) hs).1.mpr
    (Or.inr ⟨⟨50, hframe⟩, 1, by simp, hslot⟩)⟩

/-- Allocations by other parts of the kernel take pages off the free list. -/
theorem run_alloc {n : ℕ} {s : Kernel} (h : n ≤ s.freelist.length) :
    ∃ s', run (callStep kalloc) (List.replicate n (.act .alloc)) s = some s' ∧
      s'.freelist = s.freelist.drop n ∧ s'.frames = s.frames ∧ s'.swapInUse = s.swapInUse := by
  induction n generalizing s with
  | zero => exact ⟨s, rfl, rfl, rfl, rfl⟩
  | succ n ih =>
    cases hf : s.freelist with
    | nil =>
      rw [hf] at h
      cases h
    | cons r rest =>
      have hspec : wp ((Call.act .alloc).run kalloc) (fun _ s₁ => s₁.freelist = rest ∧
          s₁.frames = s.frames ∧ s₁.swapInUse = s.swapInUse) (fun _ _ => False) s := by
        rw [Call.run, Act.exec, wp_bind, kalloc, wp_kallocN_cons hf]
        exact ⟨rfl, rfl, rfl⟩
      obtain ⟨o, s₁, hok⟩ := exists_ok_of_wp hspec
      obtain ⟨hfree, hframes, hslots⟩ := wp_ok hspec hok
      have hlen : n ≤ s₁.freelist.length := by
        rw [hf, List.length_cons] at h
        rw [hfree]
        omega
      obtain ⟨s', hrun, hfree', hframes', hslots'⟩ := ih hlen
      refine ⟨s', run_cons_eq_some.mpr ⟨s₁, callStep_eq_some.mpr ⟨o, hok⟩, hrun⟩, ?_,
        hframes'.trans hframes, hslots'.trans hslots⟩
      rw [hfree', hfree, List.drop_succ_cons]

/-- All pages have been handed out to the kernel, which never gives one back: the hand goes round a
frame table with no entry in use. -/
theorem kalloc_answers_counterexample :
    ∃ s, run (callStep kalloc) (List.replicate nframe (.act .alloc))
        (bootState 0x80030000 0) = some s ∧
      s.freelist = [] ∧ (∀ n < nswapspace, s.swapInUse n = false) ∧ ¬ Answers s := by
  have hlen : (bootState 0x80030000 0).freelist.length = nframe := by
    simp [bootState, freerangePages, pgroundup]
  obtain ⟨s, hrun, hfree, hframes, hslots⟩ := run_alloc (s := bootState 0x80030000 0) hlen.ge
  have hempty : s.freelist = [] := by
    rw [hfree, ← hlen, List.drop_length]
  have hsound := sound_of_run 0 (by simp) (by simp) hrun
  refine ⟨s, hrun, hempty, fun n _ => by rw [hslots]; rfl, ?_⟩
  obtain ⟨g, hinv, -⟩ := id hsound
  rw [answers_iff hinv.frameTable.hand, hsound.provides_iff]
  rintro (hne | ⟨⟨i, hin⟩, -⟩)
  · exact hne hempty
  · rw [hframes] at hin
    cases hin

end Mem

end Xv6
