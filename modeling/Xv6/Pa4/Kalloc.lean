import Xv6.Mem.OutOfMemory

/-!
# The allocator of the fourth assignment

`PA4/kalloc.c` is the allocator of the final kernel but for the loop of `evict_pages`: it makes one
sweep over the frame table, `NFRAME` visits, and then gives up and returns `0`. A visit is what it
is in the final kernel (`clockStep`), and so is the eviction of a victim (`evictVictim`).

One sweep is not enough. The visits of the sweep clear reference bits, and it is the visits after it
that would find them clear: with all bits set the sweep clears all of them and finds nothing. The
next call finds a victim at once.

## Main results

* `wp_evictLoop` — the sweep is the scan of the final kernel with `NFRAME` visits
* `kalloc_returns_iff`, `kalloc_returns_counterexample`
-/

namespace Xv6

namespace Pa4

open Mem WeakestPre

variable {E : Halt → Kernel → Prop} {Q : ℕ → Kernel → Prop}

/-! ### One sweep -/

/-- The loop of `evict_pages`, with `fuel` visits left. -/
def evictLoop (kalloc : M ℕ) : ℕ → M ℕ
  | 0 => pure 0
  | fuel + 1 => do
    match ← clockStep with
    | none => evictLoop kalloc fuel
    | some (i, pte) => evictVictim kalloc i pte

/-- `kalloc`, to a given depth of the recursion through `evict_pages`. -/
def kallocN : ℕ → M ℕ
  | 0 => throw .spin
  | n + 1 => do
    let s ← get
    match s.freelist with
    | r :: rest =>
      set { s with freelist := rest, mem := Function.update s.mem r (Page.fill 5) }
      pure r
    | [] => evictLoop (kallocN n) nframe

/-- `kalloc`. The call in `evict_pages` finds the page that has just been freed. -/
def kalloc : M ℕ := kallocN 2

section

variable {s s' : Kernel} {t : ℕ}

theorem wp_kallocN_cons {m r : ℕ} {rest : List ℕ}
    (h : s.freelist = r :: rest) : wp (kallocN (m + 1)) Q E s ↔
      Q r { s with freelist := rest, mem := Function.update s.mem r (Page.fill 5) } := by
  rw [kallocN, wp_bind, wp_get, h]
  rfl

/-- A visit does not run forever. -/
theorem ne_spin_of_clockStep {e : Halt} (h : clockStep s = .error e s') : e ≠ .spin := by
  cases wp_error clockStep_visit h with
  | address => simp
  | index => simp

/-- **The sweep is the scan of the final kernel** with as many visits, but for what happens when it
finds no victim. -/
theorem wp_evictLoop {m : M ℕ} {fuel : ℕ} :
    wp (evictLoop m fuel) Q E s ↔ wp (scanLoop fuel) (fun v => wp (evictVictim m v.1 v.2) Q E)
      (fun e s' => if e = .spin then Q 0 s' else E e s') s := by
  induction fuel generalizing s with
  | zero => simp [evictLoop, scanLoop]
  | succ fuel ih =>
    rw [evictLoop, scanLoop, wp_bind, wp_bind]
    cases hstep : clockStep s with
    | ok victim s' =>
      rw [wp_of_eq_ok hstep, wp_of_eq_ok hstep]
      cases victim with
      | none => exact ih
      | some v => exact Iff.rfl
    | error e s' =>
      simp only [wp, hstep, if_neg (ne_spin_of_clockStep hstep)]

/-- What `kalloc` does on an empty free list. -/
theorem wp_kalloc_nil (hfree : s.freelist = []) : wp kalloc Q E s ↔
      wp (scanLoop nframe) (fun v => wp (evictVictim (kallocN 1) v.1 v.2) Q E)
        (fun e s' => if e = .spin then Q 0 s' else E e s') s := by
  rw [← wp_evictLoop, kalloc, kallocN, wp_bind, wp_get, hfree]

variable (hhand : s.clockHand < nframe) (hfree : s.freelist = [])

include hhand hfree

/-- A victim that the sweep comes to is evicted, and its page is handed out. -/
theorem kalloc_of_canEvict (hend : kernbase ≤ s.kend) (ht : t < nframe) (h : CanEvict s t) :
    ∃ pa s', kalloc s = .ok pa s' ∧ pa ≠ 0 := by
  obtain ⟨v, s₁, hscan, hat⟩ := scanLoop_eq_ok hhand h.stop h.inside ht
  obtain ⟨p, hp, hread⟩ := hat.owner
  rw [hat.entry] at hp hread
  have hpage := h.page p hp
  rw [← hread] at hpage
  obtain rfl := hat.state
  have hspec : wp kalloc (fun pa _ => pa ≠ 0) (fun _ _ => False) s := by
    rw [wp_kalloc_nil hfree, wp_of_eq_ok hscan]
    refine wp_evictVictim rfl (fun s₂ _ hman hev => ?_) (fun hno => absurd hpage hno)
      fun hfull => ?_
    · rw [wp_kallocN_cons hev.freelist]
      exact hman.ne_zero hend
    · obtain ⟨n, hn, hslot⟩ := h.slot
      cases hslot.symm.trans (hfull n hn)
  obtain ⟨pa, s', hok⟩ := exists_ok_of_wp hspec
  exact ⟨pa, s', hok, (wp_ok hspec hok :)⟩

/-- A page that is handed out is that of a victim which the sweep came to. -/
theorem canEvict_of_kalloc {pa : ℕ} (hok : kalloc s = .ok pa s') (hpa : pa ≠ 0) :
    ∃ t < nframe, CanEvict s t := by
  have hspec : wp kalloc (fun pa _ => pa ≠ 0 → ∃ t < nframe, CanEvict s t) (fun _ _ => True) s := by
    rw [wp_kalloc_nil hfree]
    refine wp_mono (scanLoop_spec nframe hhand) (fun v s₁ hfound => ?_) fun e s₁ _ => ?_
    · obtain ⟨t, ht, hfirst, hinside, hat⟩ := hfound
      obtain ⟨p, hp, hread⟩ := hat.owner
      rw [hat.entry] at hp hread
      obtain rfl := hat.state
      refine wp_evictVictim rfl (fun s₂ hslot hman _ => ?_) (fun _ _ => trivial) fun _ _ => trivial
      refine wp_mono (wp_true _ _) (fun _ _ _ _ => ⟨t, ht, hfirst, hinside, hslot, fun q hq => ?_⟩)
        fun _ _ _ => trivial
      obtain rfl : p = q := Option.some.inj (hp.symm.trans hq)
      rw [← hread]
      exact hman
    · split
      · exact fun hne => absurd rfl hne
      · trivial
  exact wp_ok hspec hok hpa

end

/-- In a frame table that is right, the sweep comes to a victim exactly if a reference bit of an
entry in use is clear. -/
theorem canEvict_iff {s : Kernel} (hhand : s.clockHand < nframe)
    (hslot : ∃ n < nswapspace, s.swapInUse n = false)
    (hmaps : ∀ i < nframe, (s.frames i).inUse = true →
      (∃ p, Backed s i p) ∧ Managed s.kend (kernbase + i * pgsize)) :
    (∃ t < nframe, CanEvict s t) ↔
      ∃ i < nframe, (s.frames i).inUse = true ∧ (s.frames i).referenceBit = false := by
  have hback : ∀ i < nframe, (s.frames i).inUse = true → ∃ p, Backed s i p :=
    fun i hi hin => (hmaps i hi hin).1
  have hsize : 0 < s.clock.size := (Nat.zero_le _).trans_lt hhand
  constructor
  · rintro ⟨t, ht, hev⟩
    obtain ⟨j, hlook, -⟩ := hev.stop.stops
    obtain ⟨-, hin, -⟩ := lookAt_eq_some.mp hlook
    obtain ⟨v, hv⟩ := exists_isVictim ⟨_, Clock.pos_lt hsize t, hin⟩
    rcases hv.first with ⟨hbit, -⟩ | ⟨hset, -⟩
    · exact ⟨v, hv.lt, hv.inUse, hbit⟩
    · -- with all bits set the hand stops in the second turn
      have hneed := hev.stop.unique (hv.firstStop hhand hback)
      rw [need_of_set (hset v hv.lt hv.inUse)] at hneed
      exact absurd ht (by rw [hneed]; exact not_lt.mpr (Nat.le_add_right _ _))
  · rintro ⟨i, hi, hin, hbit⟩
    obtain ⟨v, hv⟩ := exists_isVictim ⟨i, hi, hin⟩
    have hclear : (s.frames v).referenceBit = false := by
      rcases hv.first with ⟨hbit', -⟩ | ⟨hset, -⟩
      · exact hbit'
      · cases hbit.symm.trans (hset i hi hin)
    have hlt : need s v < nframe := by
      rw [need_of_clear hclear]
      exact Clock.ahead_lt hsize v
    refine ⟨need s v, hlt, hv.firstStop hhand hback,
      fun u _ => inside_of_backed hback (Clock.pos_lt hsize u), hslot, fun p hp => ?_⟩
    rw [pos_need hhand hv.lt] at hp ⊢
    obtain ⟨⟨q, hq⟩, hman⟩ := hmaps v hv.lt hv.inUse
    obtain rfl : p = q := Option.some.inj (hp.symm.trans hq.owner)
    rw [hq.page]
    exact hman

/-- **Allocation fails although a page can be evicted**, exactly if the first sweep finds no victim.
With an empty free list, a free slot and a hand inside the table, `kalloc` returns a page exactly if
the hand stops within `NFRAME` visits at an entry whose page may be freed. In a table all of whose
entries in use are right, this means that one of them has a clear reference bit. -/
theorem kalloc_returns_iff {s : Kernel} (hend : kernbase ≤ s.kend) (hhand : s.clockHand < nframe)
    (hfree : s.freelist = []) (hslot : ∃ n < nswapspace, s.swapInUse n = false) :
    ((∃ pa s', kalloc s = .ok pa s' ∧ pa ≠ 0) ↔ ∃ t < nframe, CanEvict s t) ∧
    ((∀ i < nframe, (s.frames i).inUse = true →
        (∃ p, Backed s i p) ∧ Managed s.kend (kernbase + i * pgsize)) →
      ((∃ pa s', kalloc s = .ok pa s' ∧ pa ≠ 0) ↔
        ∃ i < nframe, (s.frames i).inUse = true ∧ (s.frames i).referenceBit = false)) := by
  have hiff : (∃ pa s', kalloc s = .ok pa s' ∧ pa ≠ 0) ↔ ∃ t < nframe, CanEvict s t := by
    constructor
    · rintro ⟨pa, s', hok, hpa⟩
      exact canEvict_of_kalloc hhand hfree hok hpa
    · rintro ⟨t, ht, hev⟩
      exact kalloc_of_canEvict hhand hfree hend ht hev
  exact ⟨hiff, fun hmaps => hiff.trans (canEvict_iff hhand hslot hmaps)⟩

/-- A process touches two pages, and no page is left. -/
def touchTwo : List Act :=
  [.spawn, .sbrk 0 8192#32 false, .store 0 100 7#8, .store 0 5000 9#8]

/-- An eviction has taken one of the pages, and has cleared the bit of the other one. -/
theorem kalloc_returns_touchTwo : ∃ s, kernbase ≤ s.kend ∧ s.clockHand < nframe ∧
    s.freelist = [] ∧ (∃ n < nswapspace, s.swapInUse n = false) ∧
    (∀ i < nframe, (s.frames i).inUse = true →
      (∃ p, Backed s i p) ∧ Managed s.kend (kernbase + i * pgsize)) ∧
    ∃ pa s', kalloc s = .ok pa s' ∧ pa ≠ 0 := by
  obtain ⟨os, s, hserve, hfree, hslot, hbit⟩ : ∃ os s,
      serve Mem.kalloc (touchTwo ++ [.alloc]) (smallBoot 8) = .ok os s ∧ s.freelist = [] ∧
      s.swapInUse 1 = false ∧
      ∃ i < nframe, (s.frames i).inUse = true ∧ (s.frames i).referenceBit = false := by
    decide +kernel
  obtain ⟨g, -, hinv, -⟩ := (wp_ok (serve_spec (coherent_smallBoot (by decide)) _) hserve).coherent
  have hsome : ∃ n < nswapspace, s.swapInUse n = false := ⟨1, by simp, hslot⟩
  have h := kalloc_returns_iff hinv.layout.kend hinv.frameTable.hand hfree hsome
  exact ⟨s, hinv.layout.kend, hinv.frameTable.hand, hfree, hsome, fun i _ hin => hinv.backed hin,
    (h.2 fun i _ hin => hinv.backed hin).mpr hbit⟩

/-- Both bits are set. The sweep clears them and `kalloc` returns `0`; called again it returns a
page. -/
theorem kalloc_returns_counterexample : ∃ s s' pa s'', s.freelist = [] ∧
    (∃ n < nswapspace, s.swapInUse n = false) ∧
    (∃ i < nframe, (s.frames i).inUse = true ∧ ∃ p, Backed s i p) ∧
    kalloc s = .ok 0 s' ∧ kalloc s' = .ok pa s'' ∧ pa ≠ 0 := by
  obtain ⟨os, s, hserve, hfree, hslot, ⟨i, hi, hin⟩, pa, s', hok, rfl, pa', s'', hok', hpa'⟩ :
      ∃ os s, serve Mem.kalloc touchTwo (smallBoot 8) = .ok os s ∧ s.freelist = [] ∧
        s.swapInUse 0 = false ∧ (∃ i < nframe, (s.frames i).inUse = true) ∧
        ∃ pa s', kalloc s = .ok pa s' ∧ pa = 0 ∧
          ∃ pa' s'', kalloc s' = .ok pa' s'' ∧ pa' ≠ 0 := by
    decide +kernel
  obtain ⟨g, -, hinv, -⟩ := (wp_ok (serve_spec (coherent_smallBoot (by decide)) _) hserve).coherent
  exact ⟨s, s', pa', s'', hfree, ⟨0, by simp, hslot⟩, ⟨i, hi, hin, (hinv.backed hin).1⟩, hok, hok',
    hpa'⟩

end Pa4

end Xv6
