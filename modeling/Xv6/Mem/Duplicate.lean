import Xv6.Mem.Clock

/-!
# Fork duplicates memory

What `Xv6.Mem.Fork` leaves open is which pages `kalloc` spares. With a page on the free list it
spares all pages of users; without one it spares all but the page of the clock's victim.

## Main results

* `uvmcopy_duplicates` — if no page is swapped out and no page is evicted for its own copy, the
  child gets the parent's pages, and the parent keeps them
* `uvmcopy_counterexample` — a run in which the parent loses a page
-/

namespace Xv6

namespace Mem

open WeakestPre

/-- `kalloc` leaves page `a` alone: a page is free, or the victim of the clock is another page. -/
def Spared (s : Kernel) (a : ℕ) : Prop :=
  s.freelist = [] → ∀ v, IsVictim s v → a ≠ kernbase + v * pgsize

/-- Without a free page `kalloc` returns that of the victim. -/
theorem kalloc_victim {g : Ghost} {s : Kernel} (h : Inv NoTable g s) (hf : s.freelist = []) :
    wp kalloc (fun pa _ => (∃ v, IsVictim s v) ∧ ∀ v, IsVictim s v → pa = kernbase + v * pgsize)
      (fun _ _ => True) s := by
  have hhand := h.frameTable.hand
  have hsize : 0 < s.clock.size := (Nat.zero_le _).trans_lt hhand
  have hmaps : ∀ i < nframe, (s.frames i).inUse = true → ∃ p, Backed s i p :=
    fun i _ hin => (h.backed hin).1
  rw [kalloc, kallocN, wp_bind, wp_get, hf]
  show wp (evictLoop (kallocN 1) (2 * nframe)) _ _ s
  rw [evictLoop_eq]
  refine wp_call (wp_error_imp (scanLoop_spec _ hhand) fun _ _ _ => trivial) fun v s₁ hfound => ?_
  obtain ⟨t, -, hfirst, -, hat⟩ := hfound
  have hlt : v.1 < nframe := by
    rw [hat.entry]
    exact Clock.pos_lt hsize t
  obtain ⟨p, hp, hread⟩ := hat.owner
  obtain ⟨q, hm⟩ := hmaps v.1 hlt hat.inUse
  obtain rfl : p = q := Option.some.inj (hp.symm.trans hm.owner)
  have hpa : pte2pa (s₁.readPte v.2) = kernbase + v.1 * pgsize := by
    rw [hat.state, ← hm.page, ← hread]
    rfl
  refine wp_evictVictim hpa (fun s₂ _ _ hev => ?_) (fun _ _ => trivial) fun _ _ => trivial
  rw [wp_kallocN_cons hev.freelist]
  refine ⟨exists_isVictim ⟨v.1, hlt, hat.inUse⟩, fun w hw => ?_⟩
  rw [hat.entry, hfirst.unique (hw.firstStop hhand hmaps), pos_need hhand hw.lt]

theorem kalloc_spares : Spares NoTable kalloc Spared := by
  intro g s s' mem a r k h hrun hown
  cases hf : s.freelist with
  | cons b rest =>
    have hspec : wp kalloc (fun pa _ => pa = b) (fun _ _ => True) s := by
      rw [kalloc, wp_kallocN_cons hf]
    refine iff_of_true (fun he => ?_) fun hnil => absurd (hf.symm.trans hnil) (List.cons_ne_nil _ _)
    obtain rfl := (wp_ok hspec hrun).symm.trans he
    have hfree := (h.layout.free b).mp (by rw [hf]; exact List.mem_cons_self)
    rw [hown] at hfree
    cases hfree
  | nil =>
    obtain ⟨⟨v, hv⟩, hall⟩ := wp_ok (kalloc_victim h hf) hrun
    exact ⟨fun hne _ w hw he => hne ((hall w hw).trans he.symm),
      fun hsp he => hsp hf v hv (he.symm.trans (hall v hv))⟩

/-- **A fork that meets no swapped page.** The child's pages are the parent's exactly if no page
but one of junk was evicted to make room for its own copy; the parent's pages are the same after
the call, and in every later run of requests a byte of the parent changes only if the parent is
asked to store or to unmap it. -/
theorem uvmcopy_duplicates {s s' : Kernel} {p np : ℕ} {ret : ℤ} (hs : Coherent s)
    (hp : (s.procs p).used = true) (hnp : (s.procs np).used = true) (hne : p ≠ np)
    (hempty : (s.procs np).sz = 0) (hns : ForkMeets kalloc NotSwapped p np s)
    (hrun : uvmcopy kalloc (s.procs p).pagetable (s.procs np).pagetable (s.procs p).sz np s
      = .ok ret s') :
    ret = 0 ∧
    ((∀ va < (s.procs p).sz, logicalPage s' (s.procs np).pagetable (vkey va)
      = logicalPage s (s.procs p).pagetable (vkey va)) ↔
        ForkMeets kalloc (SourceStays Spared) p np s) ∧
    (∀ va < trapframe, logicalPage s' (s.procs p).pagetable (vkey va)
      = logicalPage s (s.procs p).pagetable (vkey va)) ∧
    ∀ as os s'', serve kalloc as (s'.forkCommit p np) = .ok os s'' →
      ∃ ws, Patch.Explains Asked Returns (userByte (s'.forkCommit p np)) as os ws (userByte s'') ∧
        ∀ va, Patch.last ws (p, va) = none → userByte s'' (p, va) = userByte s (p, va) := by
  obtain ⟨g, ho, h, hset⟩ := hs
  obtain ⟨hret, hd⟩ := wp_ok (uvmcopy_spec kalloc_spec kalloc_spares h hset hp hnp hne hempty
    fun _ => hns) hrun
  have hpt := hset.used p hp
  refine ⟨hret, hd.child ho, fun va hva => hd.others ho _ _ (h.procTable.root p hpt)
    (fun he => hne (h.procTable.inj p np hpt he)) (userKey_vkey hva), fun as os s'' hserve => ?_⟩
  obtain ⟨g', ho', h', hset'⟩ := hd.commit
  obtain ⟨ws, hws⟩ := (wp_ok (serve_spec ⟨g', ho' ▸ ho, h', hset'⟩ as) hserve).explained
  refine ⟨ws, hws, fun va hva => ?_⟩
  rw [hws.final, hva]
  exact hd.userByte_eq ho h hne va

/-- A process touches the first and the third of its pages, and a second process is created. -/
def forkReady : List Act :=
  [.spawn, .sbrk 0 12288#32 false, .store 0 100 7#8, .store 0 8200 9#8, .spawn]

/-- With enough free pages the child gets the pages that have been touched, and only these. -/
theorem uvmcopy_duplicates_threePages :
    ∃ s s', Coherent s ∧ (s.procs 0).used = true ∧ (s.procs 1).used = true ∧ (s.procs 1).sz = 0 ∧
      (s.procs 0).sz = 12288 ∧ ForkMeets kalloc NotSwapped 0 1 s ∧
      (Valid (leaf s.mem (s.procs 0).pagetable (vkey 0)) ∧
        leaf s.mem (s.procs 0).pagetable (vkey 4096) = 0#64 ∧
        Valid (leaf s.mem (s.procs 0).pagetable (vkey 8192))) ∧
      uvmcopy kalloc (s.procs 0).pagetable (s.procs 1).pagetable (s.procs 0).sz 1 s = .ok 0 s' ∧
      ∀ va < 12288, logicalPage s' (s.procs 1).pagetable (vkey va)
        = logicalPage s (s.procs 0).pagetable (vkey va) := by
  obtain ⟨os, s, hserve, hp, hnp, hempty, hsz, hpages, hboth, ret, s', hr, -⟩ :
      ∃ os s, serve kalloc forkReady (smallBoot 30) = .ok os s ∧
        (s.procs 0).used = true ∧ (s.procs 1).used = true ∧ (s.procs 1).sz = 0 ∧
        (s.procs 0).sz = 12288 ∧
        (Valid (leaf s.mem (s.procs 0).pagetable (vkey 0)) ∧
          leaf s.mem (s.procs 0).pagetable (vkey 4096) = 0#64 ∧
          Valid (leaf s.mem (s.procs 0).pagetable (vkey 8192))) ∧
        ForkMeets kalloc (fun old s i => NotSwapped old s i ∧ s.freelist ≠ []) 0 1 s ∧
        ∃ ret s', uvmcopy kalloc (s.procs 0).pagetable (s.procs 1).pagetable (s.procs 0).sz 1 s
          = .ok ret s' ∧ True := by
    decide +kernel
  have hcoh := (wp_ok (serve_spec (coherent_smallBoot (by decide)) forkReady) hserve).coherent
  have hmeets : ForkMeets kalloc NotSwapped 0 1 s := hboth.mono fun _ _ h => h.1
  have hstays : ForkMeets kalloc (SourceStays Spared) 0 1 s :=
    hboth.mono fun _ _ h _ => Or.inl fun hnil => absurd hnil h.2
  obtain ⟨rfl, hchild, -⟩ := uvmcopy_duplicates hcoh hp hnp (by decide) hempty hmeets hr
  exact ⟨s, s', hcoh, hp, hnp, hempty, hsz, hmeets, hpages, hr, fun va hva => hchild.mpr hstays va
    (hsz ▸ hva)⟩

/-- A process touches a page, another process takes all pages that are left, and the first one
evicts its page to get a second one; then the other process gives pages back. -/
def forkPressed : List Act :=
  [.spawn, .sbrk 0 8192#32 false, .store 0 100 7#8, .spawn, .sbrk 1 36864#32 true,
    .store 0 5000 9#8, .sbrk 1 (-32768#32) false, .spawn]

/-- The copy frees the slot of the parent's first page. The next eviction takes the slot, and the
parent's byte at `100` is lost. -/
theorem uvmcopy_counterexample :
    ∃ s s' s'' os, Coherent s ∧ (s.procs 0).used = true ∧ (s.procs 2).used = true ∧
      uvmcopy kalloc (s.procs 0).pagetable (s.procs 2).pagetable (s.procs 0).sz 2 s = .ok 0 s' ∧
      serve kalloc [.alloc] (s'.forkCommit 0 2) = .ok os s'' ∧
      userByte s (0, ⟨100, by simp⟩) = 7#8 ∧ userByte s'' (0, ⟨100, by simp⟩) = 0#8 := by
  obtain ⟨os, s, hserve, hp, hnp, hbefore, ret, s', hr, rfl, os', s'', hlast, hafter⟩ :
      ∃ os s, serve kalloc forkPressed (smallBoot 22) = .ok os s ∧
        (s.procs 0).used = true ∧ (s.procs 2).used = true ∧
        userByte s (0, ⟨100, by simp⟩) = 7#8 ∧
        ∃ ret s', uvmcopy kalloc (s.procs 0).pagetable (s.procs 2).pagetable (s.procs 0).sz 2 s
          = .ok ret s' ∧ ret = 0 ∧
          ∃ os s'', serve kalloc [.alloc] (s'.forkCommit 0 2) = .ok os s'' ∧
            userByte s'' (0, ⟨100, by simp⟩) = 0#8 := by
    decide +kernel
  have hcoh := (wp_ok (serve_spec (coherent_smallBoot (by decide)) forkPressed) hserve).coherent
  exact ⟨s, s', s'', os', hcoh, hp, hnp, hr, hlast, hbefore, hafter⟩

end Mem

end Xv6
