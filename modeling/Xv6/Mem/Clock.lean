import Xv6.Lib.Clock
import Xv6.Mem.Frames

/-!
# The clock scan

`evict_pages` goes round the frame table until it finds a page to evict. It looks at the reference
bit of the page that the owner of an entry maps at the entry's address, which need not be the
entry's own page. So every frame table is an instance of `Clock`: what the scan does in `t` visits
is `Kernel.turned t`, and it ends at the first visit that stops (`scanLoop_spec`).

When every entry in use is right, the victim can be named (`IsVictim`), and so can the entries that
lose their bit. Nowhere does the scan read the level of a process.

## Main results

* `clock_scan`
* `evict_priority_iff`, `evict_priority_counterexample`
-/

namespace Xv6

namespace Mem

open WeakestPre
open Function (update update_of_ne)
open Transition

variable {E : Halt → Kernel → Prop} {Q : ℕ → Kernel → Prop} {fuel i j v : ℕ} {pte : PteRef}
  {s : Kernel}

/-- The frame table as a clock. -/
def Kernel.clock (s : Kernel) : Clock where
  size := nframe
  look := lookAt s
  hand := s.clockHand
  bits j := (s.frames j).referenceBit

/-- The state after `t` visits that have not stopped. -/
def Kernel.turned (s : Kernel) (t : ℕ) : Kernel :=
  { s with
    clockHand := s.clock.pos t
    frames := fun j => { s.frames j with referenceBit := s.clock.bitsAfter t j } }

/-- The loop of `evict_pages` up to the victim, cut off after `fuel` visits. -/
def scanLoop : ℕ → M (ℕ × PteRef)
  | 0 => throw .spin
  | fuel + 1 => do
    match ← clockStep with
    | none => scanLoop fuel
    | some v => pure v

theorem evictLoop_eq (kalloc : M ℕ) (fuel : ℕ) :
    evictLoop kalloc fuel = scanLoop fuel >>= fun v => evictVictim kalloc v.1 v.2 := by
  induction fuel with
  | zero => rfl
  | succ fuel ih =>
    rw [evictLoop, scanLoop, bind_assoc]
    congr 1
    funext victim
    cases victim with
    | none => exact ih
    | some v => rfl

section

variable {s' : Kernel} {t : ℕ}

theorem turned_zero (h : s.clockHand < nframe) : s.turned 0 = s := by
  have hhand : s.clock.pos 0 = s.clockHand := Nat.mod_eq_of_lt h
  rw [Kernel.turned, hhand, Clock.bitsAfter_zero]
  rfl

/-- A visit that looks at nothing. -/
theorem turned_of_none (h : s.clock.look (s.clock.pos t) = none) :
    ¬ s.clock.Stops t ∧ ({ s.turned t with clockHand := (s.clock.pos t + 1) % nframe } : Kernel)
      = s.turned (t + 1) := by
  constructor
  · rintro ⟨j, hlook, -⟩
    rw [h] at hlook
    cases hlook
  · rw [Kernel.turned, Kernel.turned, Clock.bitsAfter_succ_of_none h, Clock.pos_succ]
    rfl

/-- A visit that clears bit `j`. -/
theorem turned_of_some (h : s.clock.look (s.clock.pos t) = some j) :
    ({ s.turned t with
        clockHand := (s.clock.pos t + 1) % nframe
        frames := update (s.turned t).frames j
          { (s.turned t).frames j with referenceBit := false } } : Kernel) = s.turned (t + 1) := by
  have hframes : update (s.turned t).frames j
      { (s.turned t).frames j with referenceBit := false } = (s.turned (t + 1)).frames := by
    funext i
    simp only [Kernel.turned, Clock.bitsAfter_succ_of_some h]
    by_cases hij : i = j
    · subst hij
      simp
    · simp [update_of_ne hij]
  rw [hframes]
  simp only [Kernel.turned, Clock.pos_succ]
  rfl

/-- The hand stops at visit `t`: the entry there is reported, with the place of the page-table entry
for its page. -/
structure StopsAt (s : Kernel) (t : ℕ) (v : ℕ × PteRef) (s' : Kernel) : Prop where
  entry : v.1 = s.clock.pos t
  inUse : (s.frames v.1).inUse = true
  owner : ∃ p, (s.frames v.1).p = some p ∧
    s.readPte v.2 = leaf s.mem (s.procs p).pagetable (vkey (s.frames v.1).va)
  state : s' = { s.turned t with clockHand := s.clock.pos (t + 1) }

theorem inside_turned : Inside (s.turned t) i ↔ Inside s i :=
  ⟨fun h => ⟨h.address, h.index⟩, fun h => ⟨h.address, h.index⟩⟩

/-- A visit in terms of the clock. -/
theorem clockStep_turned : wp clockStep (fun victim s' => Inside s (s.clock.pos t) ∧
    match victim with
    | none => ¬ s.clock.Stops t ∧ s' = s.turned (t + 1)
    | some v => s.clock.Stops t ∧ StopsAt s t v s')
    (fun _ _ => ¬ Inside s (s.clock.pos t)) (s.turned t) := by
  refine wp_mono clockStep_visit (fun victim s' hstep => ?_)
    fun _ _ ho hin => Inside.not_outside (inside_turned.mpr hin) ho
  obtain ⟨hvisit, hin⟩ := hstep
  refine ⟨inside_turned.mp hin, ?_⟩
  cases hvisit with
  | skip hlook => exact turned_of_none hlook
  | pass j hlook hbit =>
    refine ⟨?_, turned_of_some hlook⟩
    rintro ⟨i, hlook', hclear⟩
    obtain rfl : j = i := Option.some.inj (hlook.symm.trans hlook')
    rw [show s.clock.bitsAfter t j = true from hbit] at hclear
    cases hclear
  | stop j p b hlook hj hbit hp hlow =>
    obtain ⟨-, hin, -⟩ := lookAt_eq_some.mp hlook
    refine ⟨⟨j, hlook, hbit⟩, rfl, hin, ⟨p, hp, readPte_low hlow⟩, ?_⟩
    rw [Clock.pos_succ]
    rfl

/-- The scan reports the entry of the first visit that stops; every visit up to it has stayed inside
the tables. -/
def Found (s : Kernel) (fuel : ℕ) (v : ℕ × PteRef) (s' : Kernel) : Prop :=
  ∃ u < fuel, s.clock.FirstStop u ∧ (∀ w ≤ u, Inside s (s.clock.pos w)) ∧ StopsAt s u v s'

/-- The scan reports nothing: no visit stops, or one goes outside the tables before any stops. -/
def NotFound (s : Kernel) (fuel : ℕ) (e : Halt) : Prop :=
  (e = .spin ∧ ∀ u < fuel, ¬ s.clock.Stops u) ∨
    ∃ u, ¬ Inside s (s.clock.pos u) ∧ ∀ w < u, ¬ s.clock.Stops w

theorem scanLoop_turned (hbefore : ∀ u < t, ¬ s.clock.Stops u)
    (hinside : ∀ u < t, Inside s (s.clock.pos u)) :
    wp (scanLoop fuel) (Found s (t + fuel)) (fun e _ => NotFound s (t + fuel) e) (s.turned t) := by
  induction fuel generalizing t with
  | zero => exact Or.inl ⟨rfl, hbefore⟩
  | succ fuel ih =>
    rw [scanLoop, wp_bind]
    refine wp_mono clockStep_turned (fun victim s' hstep => ?_)
      fun _ _ he => Or.inr ⟨t, he, hbefore⟩
    obtain ⟨hin, hstep⟩ := hstep
    have hinside' : ∀ u < t + 1, Inside s (s.clock.pos u) := by
      intro u hu
      rcases Nat.lt_succ_iff_lt_or_eq.mp hu with hu | rfl
      · exact hinside u hu
      · exact hin
    cases victim with
    | none =>
      obtain ⟨hnot, rfl⟩ := hstep
      rw [show t + (fuel + 1) = t + 1 + fuel by omega]
      refine ih (fun u hu => ?_) hinside'
      rcases Nat.lt_succ_iff_lt_or_eq.mp hu with hu | rfl
      · exact hbefore u hu
      · exact hnot
    | some v =>
      obtain ⟨hstop, hat⟩ := hstep
      exact ⟨t, by omega, ⟨hstop, hbefore⟩, fun w hw => hinside' w (by omega), hat⟩

/-- **The scan** ends at the first visit that stops, if it comes so far. -/
theorem scanLoop_spec (fuel : ℕ) (hhand : s.clockHand < nframe) :
    wp (scanLoop fuel) (Found s fuel) (fun e _ => NotFound s fuel e) s := by
  have hscan : wp (scanLoop fuel) (Found s (0 + fuel)) (fun e _ => NotFound s (0 + fuel) e)
      (s.turned 0) :=
    scanLoop_turned (fun u hu => absurd hu (by omega)) fun u hu => absurd hu (by omega)
  rwa [turned_zero hhand, Nat.zero_add] at hscan

/-- A scan that can reach its first stop reaches it. -/
theorem scanLoop_eq_ok (hhand : s.clockHand < nframe) (hfirst : s.clock.FirstStop t)
    (hinside : ∀ w ≤ t, Inside s (s.clock.pos w)) (hfuel : t < fuel) :
    ∃ v s', scanLoop fuel s = .ok v s' ∧ StopsAt s t v s' := by
  have hspec := scanLoop_spec fuel hhand
  cases hscan : scanLoop fuel s with
  | ok v s' =>
    obtain ⟨u, -, hu, -, hat⟩ := wp_ok hspec hscan
    obtain rfl := hu.unique hfirst
    exact ⟨v, s', rfl, hat⟩
  | error e s' =>
    rcases wp_error hspec hscan with ⟨-, hnone⟩ | ⟨u, hout, hnone⟩
    · exact absurd hfirst.stops (hnone t hfuel)
    · refine absurd (hinside u ?_) hout
      by_contra hlt
      exact hnone t (by omega) hfirst.stops

end

/-! ### The victim -/

/-- The owner's page table maps the entry's address to the entry's page. -/
structure Backed (s : Kernel) (i p : ℕ) : Prop extends MapsFrame s i p where
  pagetable : (s.procs p).pagetable ≠ 0

/-- Without a second table, an entry in use has the page of its place. -/
theorem Inv.backed {g : Ghost} (h : Inv NoTable g s) (hin : (s.frames i).inUse = true) :
    (∃ p, Backed s i p) ∧ Managed s.kend (kernbase + i * pgsize) := by
  obtain ⟨p, r, hp, -, hva, ht, hown⟩ := h.frameTable.tracked i hin
  obtain rfl : (s.procs p).pagetable = r := ht.resolve_right id
  obtain ⟨hr, -, hm⟩ := h.entries.user _ _ _ hown
  exact ⟨⟨p, ⟨hp, lt_maxva hva, hm.valid, hm.pa⟩, h.root_ne_zero hr⟩, h.managed hown (by simp)⟩

/-- The first entry in use, in circular order from the hand, whose reference bit is clear, and if
there is none the first entry in use. -/
structure IsVictim (s : Kernel) (v : ℕ) : Prop where
  lt : v < nframe
  inUse : (s.frames v).inUse = true
  first : ((s.frames v).referenceBit = false ∧ ∀ j < nframe, (s.frames j).inUse = true →
      (s.frames j).referenceBit = false → s.clock.ahead v ≤ s.clock.ahead j) ∨
    ((∀ j < nframe, (s.frames j).inUse = true → (s.frames j).referenceBit = true) ∧
      ∀ j < nframe, (s.frames j).inUse = true → s.clock.ahead v ≤ s.clock.ahead j)

/-- The hand visits entry `j` before it stops at the victim `v`. If the victim's bit was set, a
whole turn lies before it. -/
def VisitedBefore (s : Kernel) (v j : ℕ) : Prop :=
  (s.frames v).referenceBit = true ∨ s.clock.ahead j < s.clock.ahead v

instance (s : Kernel) (v j : ℕ) : Decidable (VisitedBefore s v j) :=
  inferInstanceAs (Decidable (_ ∨ _))

/-- What a scan that stops at `v` leaves of the frame table. -/
structure Scanned (s : Kernel) (v : ℕ) (s' : Kernel) : Prop where
  hand : s'.clockHand = (v + 1) % nframe
  frames : ∀ j < nframe, j ≠ v → s'.frames j =
    if (s.frames j).inUse = true ∧ VisitedBefore s v j then
      { s.frames j with referenceBit := false } else s.frames j

theorem exists_isVictim (hsome : ∃ i < nframe, (s.frames i).inUse = true) : ∃ v, IsVictim s v := by
  by_cases hclear : ∃ i, i < nframe ∧ (s.frames i).inUse = true ∧ (s.frames i).referenceBit = false
  · obtain ⟨v, ⟨hlt, hin, hbit⟩, hmin⟩ := (measure s.clock.ahead).wf.has_min
      {i | i < nframe ∧ (s.frames i).inUse = true ∧ (s.frames i).referenceBit = false} hclear
    exact ⟨v, hlt, hin, Or.inl ⟨hbit, fun j hj hin' hbit' =>
      not_lt.mp (hmin j ⟨hj, hin', hbit'⟩)⟩⟩
  · push Not at hclear
    obtain ⟨v, ⟨hlt, hin⟩, hmin⟩ := (measure s.clock.ahead).wf.has_min
      {i | i < nframe ∧ (s.frames i).inUse = true} hsome
    exact ⟨v, hlt, hin, Or.inr ⟨fun j hj hin' => by simpa using hclear j hj hin',
      fun j hj hin' => not_lt.mp (hmin j ⟨hj, hin'⟩)⟩⟩

theorem need_of_set (h : (s.frames v).referenceBit = true) :
    need s v = s.clock.size + s.clock.ahead v := by
  rw [need, h, Nat.add_comm]
  rfl

theorem need_of_clear (h : (s.frames v).referenceBit = false) : need s v = s.clock.ahead v := by
  rw [need, h]
  rfl

theorem pos_need (hhand : s.clockHand < nframe) (hv : v < nframe) : s.clock.pos (need s v) = v := by
  cases hbit : (s.frames v).referenceBit with
  | false => rw [need_of_clear hbit, Clock.pos_ahead hhand hv]
  | true => rw [need_of_set hbit, Clock.pos_size_add, Clock.pos_ahead hhand hv]

section

variable {s' : Kernel} (hhand : s.clockHand < nframe)
  (hmaps : ∀ i < nframe, (s.frames i).inUse = true → ∃ p, Backed s i p)

include hmaps

/-- The entries in use look at their own bits. -/
theorem look_iff (hi : i < nframe) : s.clock.look i = some i ↔ (s.frames i).inUse = true := by
  constructor
  · intro hlook
    obtain ⟨-, hin, -⟩ := lookAt_eq_some.mp hlook
    exact hin
  · intro hin
    obtain ⟨p, hm⟩ := hmaps i hi hin
    refine lookAt_eq_some.mpr ⟨p, hin, hm.owner, hm.pagetable, hm.valid, ?_⟩
    rw [hm.page]
    exact frameIndex_kernbase hi

theorem look_own : ∀ i < nframe, ∀ j, s.clock.look i = some j → j = i := by
  intro i hi j hlook
  obtain ⟨-, hin, -⟩ := lookAt_eq_some.mp hlook
  exact Option.some.inj (hlook.symm.trans ((look_iff hmaps hi).mpr hin))

theorem inside_of_backed (hi : i < nframe) : Inside s i := by
  constructor
  · intro p hin _ _
    obtain ⟨q, hm⟩ := hmaps i hi hin
    exact hm.va
  · intro j hlook
    rwa [look_own hmaps i hi j hlook]

include hhand

/-- **The hand stops at the victim**, in the first turn if its bit is clear and in the second
otherwise. -/
theorem IsVictim.firstStop (h : IsVictim s v) : s.clock.FirstStop (need s v) := by
  have hlook := (look_iff hmaps h.lt).mpr h.inUse
  obtain ⟨hbit, hnear⟩ | ⟨hset, hnear⟩ := h.first
  · rw [need_of_clear hbit]
    refine Clock.firstStop_of_clear hhand (look_own hmaps) h.lt hlook hbit fun j hj hj' => ?_
    exact hnear j hj ((look_iff hmaps hj).mp hj')
  · rw [need_of_set (hset v h.lt h.inUse)]
    refine Clock.firstStop_of_set hhand (look_own hmaps) h.lt hlook (fun j hj hj' => ?_)
      fun j hj hj' => ?_
    · exact hset j hj ((look_iff hmaps hj).mp hj')
    · exact hnear j hj ((look_iff hmaps hj).mp hj')

theorem seen_need_iff (hj : j < nframe) :
    s.clock.Seen (need s v) j ↔ (s.frames j).inUse = true ∧ VisitedBefore s v j := by
  have hlt := Clock.ahead_lt (c := s.clock) (by exact (Nat.zero_le _).trans_lt hhand) v
  rw [← look_iff hmaps hj, VisitedBefore]
  cases hbit : (s.frames v).referenceBit with
  | false =>
    rw [need_of_clear hbit, Clock.seen_iff hhand (look_own hmaps) hlt.le hj]
    simp
  | true =>
    rw [need_of_set hbit, Clock.seen_iff_of_le hhand (look_own hmaps) (Nat.le_add_right _ _) hj]
    simp

theorem StopsAt.scanned (h : StopsAt s (need s v) (v, pte) s') : Scanned s v s' := by
  obtain rfl := h.state
  constructor
  · show s.clock.pos (need s v + 1) = (v + 1) % nframe
    rw [Clock.pos_succ, ← h.entry]
    rfl
  · intro j hj _
    have hbits : s.clock.bitsAfter (need s v) j = ((s.frames j).referenceBit &&
        !decide ((s.frames j).inUse = true ∧ VisitedBefore s v j)) := by
      simp only [Clock.bitsAfter, seen_need_iff hhand hmaps hj]
      rfl
    show { s.frames j with referenceBit := s.clock.bitsAfter (need s v) j } = _
    rw [hbits]
    split
    · simp [*]
    · simp [*]

/-- The scan reaches the victim within two turns. -/
theorem IsVictim.scan (h : IsVictim s v) :
    ∃ pte s', scanLoop (2 * nframe) s = .ok (v, pte) s' ∧ StopsAt s (need s v) (v, pte) s' := by
  have hsize : 0 < s.clock.size := (Nat.zero_le _).trans_lt hhand
  obtain ⟨⟨w, pte⟩, s', hscan, hat⟩ := scanLoop_eq_ok hhand (h.firstStop hhand hmaps)
    (fun w _ => inside_of_backed hmaps (Clock.pos_lt hsize w)) (need_lt s v)
  obtain rfl : w = v := hat.entry.trans (pos_need hhand h.lt)
  exact ⟨pte, s', hscan, hat⟩

end

/-- What eviction leaves of the tables when it calls the allocator again. -/
structure Evicted (s : Kernel) (i pa : ℕ) (s' : Kernel) : Prop where
  freelist : s'.freelist = pa :: s.freelist
  hand : s'.clockHand = s.clockHand
  frames : ∀ j, j ≠ i → j ≠ frameIndex pa % 2 ^ 32 → s'.frames j = s.frames j

/-- **The victim branch** needs a free slot, and a page that may be freed. -/
theorem wp_evictVictim {m : M ℕ} {pa : ℕ} (hpa : pte2pa (s.readPte pte) = pa)
    (hcall : ∀ s', (∃ n < nswapspace, s.swapInUse n = false) → Managed s.kend pa →
      Evicted s i pa s' → wp m Q E s') (hfree : ¬ Managed s.kend pa → ∀ s', E (.panic "kfree") s')
    (hfull : (∀ n < nswapspace, s.swapInUse n = true) →
      ∀ s', E (.panic "evict_pages: swap full") s') : wp (evictVictim m i pte) Q E s := by
  rw [evictVictim, wp_bind, wp_get, hpa, wp_bind, wp_modify]
  refine wp_call swapOut_spec fun index s₁ hout => ?_
  obtain ⟨n, rfl, hout⟩ | ⟨rfl, rfl, hused⟩ := hout
  · rw [if_pos (by omega), wp_bind, wp_modify, wp_bind, wp_modify, wp_bind, kfree, wp_bind, wp_get]
    refine wp_ite.mpr ⟨fun hbad => ?_, fun hgood => ?_⟩
    · refine hfree (fun hman => ?_) _
      obtain ⟨h0, h1, h2⟩ := hman
      rw [Kernel.modProc_kend] at hbad
      rcases hbad with hbad | hbad | hbad
      · exact hbad h0
      · exact absurd (hout.kend.le.trans h1) (not_le.mpr hbad)
      · exact absurd h2 (not_lt.mpr hbad)
    · push Not at hgood
      obtain ⟨h0, h1, h2⟩ := hgood
      rw [Kernel.modProc_kend] at h1
      rw [wp_set]
      refine hcall _ ⟨n, hout.lt, hout.free⟩ ⟨h0, hout.kend.ge.trans h1, h2⟩
        ⟨?_, ?_, fun j hi hj => ?_⟩
      · rw [Kernel.modProc_freelist]
        exact congrArg _ hout.freelist
      · rw [Kernel.modProc_clockHand]
        exact hout.clockHand
      · simp only [Kernel.modProc_frames, Kernel.writePte, hout.frames]
        split
        · rw [update_of_ne hj, update_of_ne hi]
        · rw [update_of_ne hi]
  · rw [if_neg (by simp), wp_throw]
    exact hfull hused _

/-- A page on the free list is handed out. -/
theorem wp_kallocN_cons {m r : ℕ} {rest : List ℕ}
    (h : s.freelist = r :: rest) : wp (kallocN (m + 1)) Q E s ↔
      Q r { s with freelist := rest, mem := update s.mem r (Page.fill 5) } := by
  rw [kallocN, wp_bind, wp_get, h]
  rfl

/-- **The clock scan.** Whatever the hand and the bits, if every entry in use is right the scan
reaches its victim within two turns; it has cleared the bits of exactly the entries in use that it
visited before, and the hand stands just past the victim. The rest of `evict_pages` changes no other
entry, and fails only for a page of the kernel itself. -/
theorem clock_scan {s : Kernel} (hhand : s.clockHand < nframe)
    (hmaps : ∀ i < nframe, (s.frames i).inUse = true → ∃ p, Backed s i p)
    (hsome : ∃ i < nframe, (s.frames i).inUse = true ∧ (s.frames i).p ≠ none)
    (hslot : ∃ n < nswapspace, s.swapInUse n = false) :
    ∃ v pte s', IsVictim s v ∧ scanLoop (2 * nframe) s = .ok (v, pte) s' ∧ Scanned s v s' ∧
      evictPages s = evictVictim kalloc v pte s' ∧
      wp evictPages (fun pa s'' => pa = kernbase + v * pgsize ∧ Scanned s v s'')
        (fun e _ => e = .panic "kfree" ∧ kernbase + v * pgsize < s.kend) s := by
  obtain ⟨i, hi, hin, -⟩ := hsome
  obtain ⟨v, hv⟩ := exists_isVictim ⟨i, hi, hin⟩
  obtain ⟨pte, s', hscan, hat⟩ := hv.scan hhand hmaps
  have hscanned := hat.scanned hhand hmaps
  have hevict : evictPages s = evictVictim kalloc v pte s' := by
    rw [evictPages, evictLoop_eq]
    simp only [bind, EStateM.bind, hscan]
  refine ⟨v, pte, s', hv, hscan, hscanned, hevict, ?_⟩
  -- the page-table entry of the victim is that of its frame
  obtain ⟨q, hm⟩ := hmaps v hv.lt hv.inUse
  obtain ⟨p, hp, hread⟩ := hat.owner
  obtain rfl : p = q := Option.some.inj (hp.symm.trans hm.owner)
  have hpa : pte2pa (s'.readPte pte) = kernbase + v * pgsize := by
    rw [hat.state, ← hm.page, ← hread]
    rfl
  have hkend : s'.kend = s.kend := by rw [hat.state]; rfl
  have hindex : frameIndex (kernbase + v * pgsize) % 2 ^ 32 = v := by
    have hlt := hv.lt
    rw [show frameIndex (kernbase + v * pgsize) = v from frameIndex_kernbase hv.lt]
    simp only [nframe_eq] at hlt
    omega
  rw [wp, hevict]
  refine wp_evictVictim (m := kalloc) hpa (fun s₁ _ hman hev => ?_) (fun hno s₁ => ⟨rfl, ?_⟩)
    fun hfull => ?_
  · rw [kalloc, wp_kallocN_cons hev.freelist]
    refine ⟨rfl, hev.hand.trans hscanned.hand, fun j hj hne => ?_⟩
    exact (hev.frames j hne (hindex.symm ▸ hne)).trans (hscanned.frames j hj hne)
  · -- the page has a frame, so it is aligned and lies below the end of memory
    by_contra hle
    have hlt := hv.lt
    refine hno ⟨?_, hkend.le.trans (not_lt.mp hle), ?_⟩
    · simp only [kernbase_eq, pgsize_eq]
      omega
    · simp only [kernbase_eq, pgsize_eq, phystop_eq, nframe_eq] at hlt ⊢
      omega
  · obtain ⟨n, hn, hfree⟩ := hslot
    have hused := hfull n hn
    rw [hat.state] at hused
    cases hfree.symm.trans hused

/-- Two processes have a page each, and both bits are set. -/
theorem clock_scan_trackedRun :
    ∃ s, run (callStep kalloc) trackedRun (bootState 0x80030000 0) = some s ∧
      s.clockHand < nframe ∧
      (∀ i < nframe, (s.frames i).inUse = true → ∃ p, Backed s i p) ∧
      (∃ i < nframe, (s.frames i).inUse = true ∧ (s.frames i).p ≠ none) ∧
      (∃ n < nswapspace, s.swapInUse n = false) ∧
      ∃ v pte s', IsVictim s v ∧ scanLoop (2 * nframe) s = .ok (v, pte) s' := by
  obtain ⟨s, hs, hsome, hslot⟩ : ∃ s,
      run (callStep kalloc) trackedRun (bootState 0x80030000 0) = some s ∧
      (∃ i < nframe, (s.frames i).inUse = true ∧ (s.frames i).p ≠ none) ∧
      s.swapInUse 0 = false := by
    decide +kernel
  obtain ⟨g, hinv, -⟩ := sound_of_run 0 (by simp) (by simp) hs
  have hhand := hinv.frameTable.hand
  have hmaps : ∀ i < nframe, (s.frames i).inUse = true → ∃ p, Backed s i p :=
    fun i _ hin => (hinv.backed hin).1
  have hfree : ∃ n < nswapspace, s.swapInUse n = false := ⟨0, by simp, hslot⟩
  obtain ⟨v, pte, s', hv, hscan, -⟩ := clock_scan hhand hmaps hsome hfree
  exact ⟨s, hs, hhand, hmaps, hsome, hfree, v, pte, s', hv, hscan⟩

/-! ### Priorities -/

/-- Among the owners of the entries in use whose bit is clear, that of entry `v` has the largest
level. -/
def LowestPriority (level : ℕ → ℤ) (s : Kernel) (v : ℕ) : Prop :=
  ∀ p, (s.frames v).p = some p → ∀ j < nframe, ∀ q, (s.frames j).inUse = true →
    (s.frames j).p = some q → (s.frames j).referenceBit = false → level q ≤ level p

/-- The owner of the entry where the hand will stop has the largest level among those of the entries
in use whose bit is clear already or is looked at before. -/
def RespectsPriority (level : ℕ → ℤ) (s : Kernel) : Prop :=
  ∀ t, s.clock.FirstStop t → ∀ p, (s.frames (s.clock.pos t)).p = some p → ∀ j < nframe, ∀ q,
    (s.frames j).inUse = true → (s.frames j).p = some q →
    (s.frames j).referenceBit = false ∨ s.clock.Seen t j → level q ≤ level p

/-- **The level of a process plays no part** in the choice of the victim: the victim has the lowest
priority exactly if the levels happen to agree with the order of the frames and their bits. -/
theorem evict_priority_iff {s s' : Kernel} {fuel v : ℕ} {pte : PteRef} (level : ℕ → ℤ)
    (hhand : s.clockHand < nframe) (hscan : scanLoop fuel s = .ok (v, pte) s') :
    evictLoop kalloc fuel s = evictVictim kalloc v pte s' ∧
      (LowestPriority level s' v ↔ RespectsPriority level s) := by
  obtain ⟨t, -, hfirst, -, hat⟩ := wp_ok (scanLoop_spec fuel hhand) hscan
  obtain rfl : v = s.clock.pos t := hat.entry
  have hbit : ∀ j, (s'.frames j).referenceBit = false ↔
      (s.frames j).referenceBit = false ∨ s.clock.Seen t j := by
    intro j
    rw [hat.state]
    exact Clock.bitsAfter_eq_false
  have hentry : ∀ j, (s'.frames j).inUse = (s.frames j).inUse ∧
      (s'.frames j).p = (s.frames j).p := by
    intro j
    rw [hat.state]
    exact ⟨rfl, rfl⟩
  constructor
  · rw [evictLoop_eq]
    simp only [bind, EStateM.bind, hscan]
  · constructor
    · intro hlow u hu p hp j hj q hin hq hclear
      obtain rfl := hu.unique hfirst
      exact hlow p ((hentry _).2.trans hp) j hj q ((hentry j).1.trans hin) ((hentry j).2.trans hq)
        ((hbit j).mpr hclear)
    · intro hresp p hp j hj q hin hq hclear
      exact hresp t hfirst p ((hentry _).2.symm.trans hp) j hj q ((hentry j).1.symm.trans hin)
        ((hentry j).2.symm.trans hq) ((hbit j).mp hclear)

/-- A process and its child have a page each. The page of the child comes first. -/
theorem scanLoop_trackedRun :
    ∃ s v pte s', run (callStep kalloc) trackedRun (bootState 0x80030000 0) = some s ∧
      s.clockHand < nframe ∧ scanLoop (2 * nframe) s = .ok (v, pte) s' ∧
      (s'.frames v).p = some 1 ∧
      (∃ j < nframe, (s'.frames j).inUse = true ∧ (s'.frames j).p = some 0 ∧
        (s'.frames j).referenceBit = false) ∧
      ∀ j < nframe, ((s'.frames j).p.all fun q => q ≤ 1) = true := by
  obtain ⟨s, hs, hhand, v, s', hv, hscan⟩ : ∃ s,
      run (callStep kalloc) trackedRun (bootState 0x80030000 0) = some s ∧
      s.clockHand < nframe ∧ ∃ v s', scanLoop (2 * nframe) s = .ok v s' ∧
        (s'.frames v.1).p = some 1 ∧
        (∃ j < nframe, (s'.frames j).inUse = true ∧ (s'.frames j).p = some 0 ∧
          (s'.frames j).referenceBit = false) ∧
        ∀ j < nframe, ((s'.frames j).p.all fun q => q ≤ 1) = true := by
    decide +kernel
  exact ⟨s, v.1, v.2, s', hs, hhand, hv, hscan⟩

/-- The child has the lower priority. -/
theorem evict_priority_trackedRun :
    ∃ s v pte s', run (callStep kalloc) trackedRun (bootState 0x80030000 0) = some s ∧
      s.clockHand < nframe ∧ scanLoop (2 * nframe) s = .ok (v, pte) s' ∧
      LowestPriority (fun p => p) s' v ∧ RespectsPriority (fun p => p) s := by
  obtain ⟨s, v, pte, s', hs, hhand, hscan, hv, -, hall⟩ := scanLoop_trackedRun
  have hlow : LowestPriority (fun p => p) s' v := by
    intro p hp j hj q _ hq _
    obtain rfl : p = 1 := Option.some.inj (hp.symm.trans hv)
    have hle := hall j hj
    rw [hq, Option.all_some, decide_eq_true_eq] at hle
    show (q : ℤ) ≤ ((1 : ℕ) : ℤ)
    exact_mod_cast hle
  exact ⟨s, v, pte, s', hs, hhand, hscan, hlow, (evict_priority_iff _ hhand hscan).2.mp hlow⟩

/-- The parent has the lower priority: the page of the child is evicted nevertheless. -/
theorem evict_priority_counterexample :
    ∃ s v pte s', run (callStep kalloc) trackedRun (bootState 0x80030000 0) = some s ∧
      scanLoop (2 * nframe) s = .ok (v, pte) s' ∧
      ¬ LowestPriority (fun p => if p = 0 then 3 else 0) s' v := by
  obtain ⟨s, v, pte, s', hs, -, hscan, hv, ⟨j, hj, hin, hp, hbit⟩, -⟩ := scanLoop_trackedRun
  refine ⟨s, v, pte, s', hs, hscan, fun hlow => ?_⟩
  have hle := hlow 1 hv j hj 0 hin hp hbit
  revert hle
  decide

end Mem

end Xv6
