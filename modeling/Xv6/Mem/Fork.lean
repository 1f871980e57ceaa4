import Xv6.Mem.Transparency

/-!
# Fork

`uvmcopy` copies the parent's pages into the child's table. It has two defects.

* A page that is swapped out is read from its slot with `swap_in`, which also frees the slot; the
  parent's entry still names it. The next eviction may put another page there.
* A resident page is copied from the address that its entry had before `kalloc`. If `kalloc` has
  to evict that very page, it returns the same page, filled with junk, and the child gets the junk.

So a fork duplicates memory if, before every iteration, the parent's page is not swapped out
(`NotSwapped`) and an allocation spares it (`SourceStays`). The first condition alone keeps the
memory invariant, and with it the slots; without it the invariant holds but for the ownership of
slots (`uvmcopyLoop_spec`). Which pages an allocation spares is left open here (`Spares`).
-/

namespace Xv6

namespace Mem

open WeakestPre

variable {a r : ℕ} {g₁ : Ghost} {spared : Kernel → ℕ → Prop} {s₁ : Kernel}

variable {N : ℕ → ℕ → Prop} {alloc : M ℕ}

/-! ### The conditions -/

/-- The parent's page is not swapped out. -/
def NotSwapped (old : ℕ) (s : Kernel) (i : ℕ) : Prop := ¬ Swapped (leaf s.mem old (vkey i))

instance (old : ℕ) (s : Kernel) (i : ℕ) : Decidable (NotSwapped old s i) :=
  inferInstanceAs (Decidable (¬ _))

/-- `spared` tells which user pages an allocation does not return. -/
def Spares (N : ℕ → ℕ → Prop) (alloc : M ℕ) (spared : Kernel → ℕ → Prop) : Prop :=
  ∀ {g : Ghost} {s s' : Kernel} {mem a r : ℕ} {k : Key}, Inv N g s → alloc s = .ok mem s' →
    g.own a = .user r k → (mem ≠ a ↔ spared s a)

theorem spares_self : Spares N alloc fun s a => ∀ mem s', alloc s = .ok mem s' → mem ≠ a := by
  intro g s s' mem a r k _ hrun _
  refine ⟨fun hne mem' s'' hrun' => ?_, fun h => h mem s' hrun⟩
  obtain ⟨rfl, -⟩ := EStateM.Result.ok.inj (hrun.symm.trans hrun')
  exact hne

/-- The parent's page is spared, or it is a page of junk, to which an allocation does no harm. -/
def SourceStays (spared : Kernel → ℕ → Prop) (old : ℕ) (s : Kernel) (i : ℕ) : Prop :=
  Valid (leaf s.mem old (vkey i)) →
    spared s (pte2pa (leaf s.mem old (vkey i))) ∨
      s.mem (pte2pa (leaf s.mem old (vkey i))) = Page.fill 5

/-- The condition holds before each of `n` iterations of the loop from `i`. -/
def CopyMeets (alloc : M ℕ) (C : Kernel → ℕ → Prop) (old new np : ℕ) : ℕ → ℕ → Kernel → Prop
  | 0, _, _ => True
  | n + 1, i, s => C s i ∧ ∀ ok s', uvmcopyPage alloc old new np i s = .ok ok s' →
    CopyMeets alloc C old new np n (i + pgsize) s'

theorem CopyMeets.mono {C D : Kernel → ℕ → Prop} {old new np : ℕ} (hCD : ∀ s i, C s i → D s i) :
    ∀ {n i : ℕ} {s : Kernel}, CopyMeets alloc C old new np n i s →
      CopyMeets alloc D old new np n i s
  | 0, _, _, _ => trivial
  | _ + 1, _, _, h => ⟨hCD _ _ h.1, fun ok s' hs' => (h.2 ok s' hs').mono hCD⟩

instance decidableCopyMeets {C : Kernel → ℕ → Prop} [∀ s i, Decidable (C s i)] {old new np : ℕ} :
    ∀ (n i : ℕ) (s : Kernel), Decidable (CopyMeets alloc C old new np n i s)
  | 0, _, _ => instDecidableTrue
  | n + 1, i, s =>
    haveI : ∀ s, Decidable (CopyMeets alloc C old new np n (i + pgsize) s) :=
      decidableCopyMeets n (i + pgsize)
    inferInstanceAs (Decidable (C s i ∧ ∀ ok s', uvmcopyPage alloc old new np i s = .ok ok s' →
      CopyMeets alloc C old new np n (i + pgsize) s'))

/-! ### One page -/

section

variable {g : Ghost} {s : Kernel} {old new np i : ℕ}

/-- What one iteration gives: an entry of the child, and if (and only if) the parent's page has not
been evicted for it, the parent's page. -/
structure PageCopied (N : ℕ → ℕ → Prop) (spared : Kernel → ℕ → Prop) (g : Ghost) (s s' : Kernel)
    (old new i : ℕ) : Prop where
  inv : ∃ g', Inv N g' s' ∧
    Background (EntryAt new (vkey i)) (EntryAt new (vkey i)) NoEntry NoPage g g' s s'
  logical : g.owned →
    (logicalPage s' new (vkey i) = logicalPage s old (vkey i) ↔ SourceStays spared old s i)

/-- Nothing to copy. -/
theorem PageCopied.skip (h : Inv N g s) (h0 : leaf s.mem new (vkey i) = 0#64)
    (hold : leaf s.mem old (vkey i) = 0#64) : PageCopied N spared g s s old new i :=
  ⟨⟨g, h, Background.refl h⟩, fun _ =>
    iff_of_true (by rw [logicalPage_of_zero h0, logicalPage_of_zero hold])
      fun hv => absurd hv (by rw [hold]; exact not_valid_zero)⟩

/-- The parent's page, if it has not been evicted by the allocation. -/
theorem Allocated.source {mem : ℕ} {k : Key} (ha : Allocated N g g₁ s s₁ mem) (ho : g.owned)
    (h : Inv N g s) (hold : g.own old = .root) (hk : UserKey k) (hv : Valid (leaf s.mem old k))
    (hne : mem ≠ pte2pa (leaf s.mem old k)) :
    s₁.mem (pte2pa (leaf s.mem old k)) = logicalPage s old k := by
  have hm := h.mapsTo hold hk hv
  have hleaf : leaf s₁.mem old k = leaf s.mem old k := by
    refine (ha.victim old k hold hk).resolve_right fun hown => hne ?_
    exact ((h.entries.user _ _ _ hown).2.2.pa).symm
  rw [← ha.background.logical ho old k hold hk not_false,
    logicalPage_of_valid (a := pte2pa (leaf s.mem old k)) (by rw [hleaf]; exact hm)]

theorem Allocated.source_iff {mem : ℕ} (ha : Allocated N g g₁ s s₁ mem)
    (hsp : Spares N alloc spared) (ho : g.owned) (h : Inv N g s) (hold : g.own old = .root)
    (hk : UserKey (vkey i)) (hv : Valid (leaf s.mem old (vkey i))) (hrun : alloc s = .ok mem s₁) :
    s₁.mem (pte2pa (leaf s.mem old (vkey i))) = logicalPage s old (vkey i) ↔
      SourceStays spared old s i := by
  have hjunk := ha.junk
  have hpage := logicalPage_of_valid (h.mapsTo hold hk hv)
  have hspared := hsp h hrun (h.entries.page old _ hold hk hv)
  by_cases hne : mem = pte2pa (leaf s.mem old (vkey i))
  · have hnot : ¬ spared s (pte2pa (leaf s.mem old (vkey i))) := fun hs => hspared.mpr hs hne
    rw [SourceStays, or_iff_right hnot, hpage, ← hne, hjunk]
    exact ⟨fun heq _ => heq.symm, fun hstays => (hstays hv).symm⟩
  · exact iff_of_true (ha.source ho h hold hk hv hne) fun _ => Or.inl (hspared.mp hne)

/-- Without the ownership of slots their marks do not matter. -/
theorem Inv.setSlots (h : Inv N g s) (ho : ¬ g.owned) (inUse : ℤ → Bool) :
    Inv N g { s with swapInUse := inUse } ∧
      Background NoEntry NoEntry NoEntry NoPage g g s { s with swapInUse := inUse } :=
  ⟨⟨⟨h.layout.kend, h.layout.tables, h.layout.managed, h.layout.nodup, h.layout.free⟩,
    ⟨h.entries.wf, h.entries.top, h.entries.page, h.entries.user, h.entries.range,
      fun ho' => absurd ho' ho, fun ho' => absurd ho' ho, fun ho' => absurd ho' ho⟩,
    ⟨h.frameTable.hand, h.frameTable.tracked⟩,
    ⟨h.procTable.root, h.procTable.inj, h.procTable.trapframe⟩⟩,
    .of_mem h (fun _ => False.elim) (fun _ _ => rfl) (fun _ => FrameKept.refl _) rfl
      (fun _ => SameProc.refl _) rfl
      rfl rfl⟩

/-- The kernel reads a slot into a page that it holds. -/
theorem Inv.swappedIn (h : Inv N g s) (ho : ¬ g.owned) (ha : g.own a = .reserved) (slot : ℤ) :
    Inv N g (s.swappedIn a slot) ∧
      Background NoEntry NoEntry NoEntry (· = a) g g s (s.swappedIn a slot) := by
  have h₁ := h.setPage ha (s.swapStore slot)
  obtain ⟨h₂, hback₂⟩ := h₁.setSlots ho (if 0 ≤ slot ∧ slot < nswapspace then
    Function.update s.swapInUse slot false else s.swapInUse)
  obtain ⟨h₃, hback₃⟩ := h₂.stats (o := s.myproc) (f := fun p => { p with
    diskReads := p.diskReads + 1
    pagesSwappedIn := p.pagesSwappedIn + 1
    residentPages := p.residentPages + 1 }) fun _ => by constructor <;> rfl
  exact ⟨h₃, (Background.setPage h ha _).trans (hback₂.seq hback₃)
    fun _ _ h => h.elim id False.elim⟩

/-- The flags with which `uvmcopy` maps a page read from a slot. -/
theorem getLsbD_unswapped {pte : Pte} :
    ((pteFlags pte ||| pteV) &&& ~~~pteSwapped).getLsbD 8 = false := by
  have : pteSwapped.getLsbD 8 = true := by decide
  simp [this]

theorem toNat_unswapped_lt (pte : Pte) :
    ((pteFlags pte ||| pteV) &&& ~~~pteSwapped).toNat < 1024 := by
  rw [BitVec.toNat_and, BitVec.toNat_or]
  refine Nat.and_le_left.trans_lt (Nat.or_lt_two_pow (n := 10) (toNat_pteFlags_lt pte) (by decide))

/-- **One iteration of `uvmcopy`.** -/
theorem uvmcopyPage_spec (halloc : Allocates N alloc) (hsp : Spares N alloc spared)
    (h : Inv N g s) (hold : g.own old = .root) (hnew : g.own new = .root)
    (ht : (s.procs np).pagetable = new) (hi : i < trapframe) (hal : i % 4096 = 0)
    (h0 : leaf s.mem new (vkey i) = 0#64) (hns : g.owned → NotSwapped old s i) :
    wp (uvmcopyPage alloc old new np i)
      (fun ok s' => ok = true ∧ PageCopied N spared g s s' old new i) (Exhausted N) s := by
  have hk := userKey_vkey hi
  rw [uvmcopyPage, wp_bind, wp_walk_none (lt_maxva hi)]
  cases hlow : lowPage s.mem old (vkey i).1 (vkey i).2.1 with
  | none => exact ⟨rfl, .skip h h0 (leaf_of_lowPage_none hlow)⟩
  | some b =>
    simp only [Option.map_some, wp_bind, wp_get, readPte_low hlow, valid_iff, has_pteSwapped]
    by_cases hv : Valid (leaf s.mem old (vkey i))
    · rw [if_pos hv]
      refine wp_call (wp_run (halloc h)) fun mem s₁ hall => ?_
      obtain ⟨hrun, g₁, ha⟩ := hall
      have h8 : (pteFlags (leaf s.mem old (vkey i))).getLsbD 8 = false := by
        rw [getLsbD_pteFlags, (h.mapsTo hold hk hv).not_swapped, Bool.false_and]
      rw [if_neg (ha.ne_zero h), wp_bind, wp_modify]
      refine wp_call (ha.fill_spec halloc hnew hi hal (toNat_pteFlags_lt _) h8 h0 _)
        fun ret s₂ hm => ?_
      obtain ⟨rfl, g₂, hm⟩ := hm
      rw [if_neg (by simp)]
      refine wp_call (hm.track_spec ht hi hal) fun _ s₃ htr => ?_
      obtain ⟨h₃, hback, hlog⟩ := htr
      refine ⟨rfl, ⟨g₂, h₃, hback⟩, fun ho => ?_⟩
      rw [hlog ho hnew]
      exact ha.source_iff hsp ho h hold hk hv hrun
    · rw [if_neg hv]
      by_cases h8 : (leaf s.mem old (vkey i)).getLsbD 8 = true
      · have hs : Swapped (leaf s.mem old (vkey i)) := ⟨by simpa [Valid] using hv, h8⟩
        have ho : ¬ g.owned := fun ho => hns ho hs
        rw [if_pos h8]
        refine wp_call (halloc h) fun mem s₁ hall => ?_
        obtain ⟨g₁, ha⟩ := hall
        obtain ⟨h₂, hback₂⟩ := ha.inv.swappedIn (ha.background.owned ▸ ho) ha.reserved
          (swapIdx (leaf s.mem old (vkey i)))
        rw [if_neg (ha.ne_zero h), wp_bind, wp_swapIn]
        refine wp_call (ha.map_spec halloc h₂ hback₂ hnew hi hal (toNat_unswapped_lt _)
          getLsbD_unswapped
          h0) fun ret s₂ hm => ?_
        obtain ⟨rfl, g₂, hm⟩ := hm
        rw [if_neg (by simp)]
        refine wp_call (hm.track_spec ht hi hal) fun _ s₃ htr => ?_
        obtain ⟨h₃, hback, -⟩ := htr
        exact ⟨rfl, ⟨g₂, h₃, hback⟩, fun ho' => absurd ho' ho⟩
      · rw [if_neg h8]
        exact ⟨rfl, .skip h h0 (h.leaf_eq_zero hold hk hv fun hs => h8 hs.2)⟩

end

/-! ### The loop -/

/-- **The loop of `uvmcopy`.** The slots keep their owners as long as it meets no page that is
swapped out. -/
theorem uvmcopyLoop_spec {g : Ghost} {s : Kernel} {old new np n i : ℕ} (halloc : Allocates N alloc)
    (hsp : Spares N alloc spared) (h : Inv N g s) (hold : g.own old = .root)
    (hnew : g.own new = .root) (hne : old ≠ new) (ht : (s.procs np).pagetable = new)
    (htop : i + n * 4096 ≤ trapframe) (hal : i % 4096 = 0)
    (habs : ∀ k, UserKey k → i ≤ k.addr → leaf s.mem new k = 0#64)
    (hns : g.owned → CopyMeets alloc (NotSwapped old) old new np n i s) :
    wp (uvmcopyLoop alloc old new np n i) (fun ret s' => ret = 0 ∧
      (∃ g', Inv N g' s' ∧ Background (Range new i (i + n * 4096)) (Range new i (i + n * 4096))
        NoEntry NoPage g g' s s') ∧
      (g.owned → ((∀ k : Key, i ≤ k.addr → k.addr < i + n * 4096 →
          logicalPage s' new k = logicalPage s old k) ↔
        CopyMeets alloc (SourceStays spared old) old new np n i s))) (Exhausted N) s := by
  induction n generalizing g s i with
  | zero =>
    exact ⟨rfl, ⟨g, h, Background.refl h⟩, fun _ => iff_of_true (fun k hlo hhi => by omega) trivial⟩
  | succ n ih =>
    have hi : i < trapframe := by
      simp only [trapframe_eq] at htop ⊢
      omega
    have hkey : (vkey i).addr = i := by
      simp only [trapframe_eq] at hi
      rw [addr_vkey (by omega)]
      omega
    rw [uvmcopyLoop]
    refine wp_call (wp_run (uvmcopyPage_spec halloc hsp h hold hnew ht hi hal
      (habs _ (userKey_vkey hi) hkey.ge) fun ho => (hns ho).1)) fun ok s₁ hp => ?_
    obtain ⟨hrun, rfl, ⟨g₁, h₁, hback⟩, hlog⟩ := hp
    have hrange : ∀ r' k', EntryAt new (vkey i) r' k' → Range new i (i + (n + 1) * 4096) r' k' :=
      entryAt_range hi (by omega) (by omega)
    have habs₁ : ∀ k, UserKey k → i + pgsize ≤ k.addr → leaf s₁.mem new k = 0#64 := by
      intro k hk hlo
      rw [pgsize_eq] at hlo
      have h0 := habs k hk (by omega)
      have hnot : ¬ EntryAt new (vkey i) new k := fun hx => by
        rw [hx.2, hkey] at hlo
        omega
      rw [hback.leaf_eq hnew hnot (by rw [h0]; exact not_valid_zero), h0]
    rw [if_pos rfl]
    refine wp_imp (ih h₁ (hback.own_root hold) (hback.own_root hnew)
      ((hback.pagetable np).trans ht)
      (by simp only [pgsize_eq]; omega) (by simp only [pgsize_eq]; omega) habs₁
      fun ho => (hns (hback.owned ▸ ho)).2 true s₁ hrun) fun ret s' hl => ?_
    obtain ⟨rfl, ⟨g', h', hback'⟩, hlog'⟩ := hl
    simp only [pgsize_eq] at hback' hlog'
    have hsub : ∀ r' k', Range new (i + 4096) (i + 4096 + n * 4096) r' k' →
        Range new i (i + (n + 1) * 4096) r' k' := fun _ _ hx => ⟨hx.1, by have := hx.2; omega⟩
    refine ⟨rfl, ⟨g', h', (hback.mono hrange hrange NoEntry.le fun _ _ h => h).seq
      (hback'.mono hsub hsub NoEntry.le fun _ _ h => h)⟩, fun ho => ?_⟩
    have ho₁ : g₁.owned := hback.owned ▸ ho
    have hlog := hlog ho
    have hlog' := hlog' ho₁
    have hfirst : logicalPage s' new (vkey i) = logicalPage s₁ new (vkey i) := by
      refine hback'.logical ho₁ new _ (hback.own_root hnew) (userKey_vkey hi) fun hx => ?_
      have := hx.2.1
      omega
    have hrest : ∀ k, UserKey k → logicalPage s₁ old k = logicalPage s old k := fun k hk =>
      hback.logical ho old k hold hk fun hx => hne hx.1
    refine ⟨fun heq => ⟨?_, fun ok t hrun' => ?_⟩, fun hsrc k hlo hhi => ?_⟩
    · exact hlog.mp (hfirst.symm.trans (heq _ hkey.ge (by omega)))
    · obtain rfl : s₁ = t := by
        rw [hrun] at hrun'
        exact (EStateM.Result.ok.inj hrun').2
      refine hlog'.mp fun k hlo hhi => ?_
      rw [hrest k (hhi.trans_le (by omega))]
      exact heq k (by omega) (by omega)
    · rcases eq_or_range hal hi hlo hhi with rfl | hin
      · exact hfirst.trans (hlog.mpr hsrc.1)
      · rw [hlog'.mpr (hsrc.2 true s₁ hrun) k hin.1 hin.2]
        exact hrest k (hhi.trans_le htop)

/-! ### The rest of `kfork` -/

/-- `*(np->trapframe) = *(p->trapframe); np->trapframe->a0 = 0` -/
def Kernel.copyTrapframe (p np : ℕ) (s : Kernel) : Kernel :=
  (s.setPage (s.procs np).trapframe (s.mem (s.procs p).trapframe)).writePte
    ((s.procs np).trapframe, trapframeA0) 0#64

/-- The state `kfork` leaves after a copy. -/
def Kernel.forkCommit (p np : ℕ) (s : Kernel) : Kernel :=
  (s.setSz np (s.procs p).sz).copyTrapframe p np

section

variable {g g' : Ghost} {s s' : Kernel} {p np : ℕ}

/-- The trap frame of a process is neither a table nor a user page. -/
theorem Inv.plain_trapframe (h : Inv N g s) (q : ℕ) :
    (g.own (s.procs q).trapframe).isPlain = true := by
  by_cases h0 : (s.procs q).trapframe = 0
  · have hres : g.own 0 = .reserved := by
      by_contra hne
      exact (h.layout.managed 0 hne).ne_zero h.layout.kend rfl
    rw [h0, hres]
    rfl
  · rw [h.procTable.trapframe q h0]
    rfl

theorem copyTrapframe_mem_of_ne (s : Kernel) (p : ℕ) (ha : a ≠ (s.procs np).trapframe) :
    (s.copyTrapframe p np).mem a = s.mem a := by
  rw [Kernel.copyTrapframe, writePte_mem, setWord_of_ne _ _ ha]
  exact Function.update_of_ne ha _ _

theorem Inv.copyTrapframe (h : Inv N g s) (p np : ℕ) : Inv N g (s.copyTrapframe p np) := by
  refine h.frame (fun a ha => copyTrapframe_mem_of_ne s p ?_) rfl rfl rfl (FramesShrink.refl s)
    h.frameTable.hand fun _ => ⟨rfl, rfl⟩
  rintro rfl
  rw [Use.isTable_of_isPlain (h.plain_trapframe np)] at ha
  cases ha

theorem Inv.leaf_copyTrapframe (h : Inv N g s) (hr : g.own r = .root) (k : Key) :
    leaf (s.copyTrapframe p np).mem r k = leaf s.mem r k := by
  refine leaf_congr h.layout.tables hr (fun a ha => copyTrapframe_mem_of_ne s p ?_) k
  rintro rfl
  rw [Use.isTable_of_isPlain (h.plain_trapframe np)] at ha
  cases ha

theorem Inv.logicalPage_copyTrapframe (h : Inv N g s) (hr : g.own r = .root) {k : Key}
    (hk : UserKey k) : logicalPage (s.copyTrapframe p np) r k = logicalPage s r k := by
  refine logicalPage_congr (h.leaf_copyTrapframe hr k) (fun hv => ?_) fun _ => rfl
  refine copyTrapframe_mem_of_ne s p fun he => ?_
  have hplain := h.plain_trapframe np
  rw [← he, h.entries.page r k hr hk hv] at hplain
  cases hplain

/-- The child has its size, and the state is settled again. -/
theorem Settled.fork {j : ℕ} {Z T : ℕ → Key → Prop} (hs : Settled g s) (h : Inv N g s)
    (hnp : (s.procs np).used = true) (hempty : (s.procs np).sz = 0) (h' : Inv N g' s')
    (hb : Background (Range (s.procs np).pagetable 0 j) Z T NoPage g g' s s')
    (hj : ∀ k : Key, (s.procs p).sz ≤ k.addr → j ≤ k.addr) : Settled g' (s'.forkCommit p np) := by
  have hproc : ∀ q, q ≠ np → (s'.forkCommit p np).procs q = s'.procs q := fun q hq =>
    setSz_procs_of_ne _ _ hq
  have hself : (s'.forkCommit p np).procs np = { s'.procs np with sz := (s'.procs p).sz } :=
    setSz_procs_self _ _ _
  have hsz : Inv N g' (s'.setSz np (s'.procs p).sz) := h'.setProc rfl rfl
  refine hs.step hb.root (fun q => ?_) (fun q => ?_) (fun q => ?_) (fun q => ?_) (fun q hq => ?_)
    fun q k hq hk htop => ?_
  all_goals by_cases hqp : q = np
  · rw [hqp, hself]
    exact (hb.procs np).used
  · rw [hproc q hqp]
    exact (hb.procs q).used
  · rw [hqp, hself]
    exact hb.pagetable np
  · rw [hproc q hqp]
    exact hb.pagetable q
  · rw [hqp, hself]
    exact (hb.procs np).trapframe
  · rw [hproc q hqp]
    exact (hb.procs q).trapframe
  · rw [hqp, hself]
    exact (hb.procs p).sz.trans_le (hs.sz p)
  · rw [hproc q hqp, (hb.procs q).sz]
    exact hs.sz q
  · rw [hqp, hnp] at hq
    cases hq
  · rw [hproc q hqp]
    exact (hb.procs q).sz
  all_goals
    have hroot := h.procTable.root q hq
    refine (hsz.leaf_copyTrapframe (hb.own_root hroot) k).trans ?_
  · rw [hqp, hself] at hk
    have h0 := hs.absent q k hq (by rw [hqp, hempty]; exact Nat.zero_le _) htop
    refine (hb.leaf_eq hroot (fun hx => ?_) (by rw [h0]; exact not_valid_zero)).trans h0
    have := hj k ((hb.procs p).sz.symm.trans_le hk)
    exact absurd hx.2.2 (not_lt.mpr this)
  · rw [hproc q hqp, (hb.procs q).sz] at hk
    have h0 := hs.absent q k hq hk htop
    refine (hb.leaf_eq hroot (fun hx => hqp ?_) (by rw [h0]; exact not_valid_zero)).trans h0
    exact h.procTable.inj q np hq hx.1

/-! ### A fork -/

/-- The number of iterations of `uvmcopy` on the memory of `p`. -/
def copyPages (s : Kernel) (p : ℕ) : ℕ := ((s.procs p).sz + pgsize - 1) / pgsize

/-- The condition `C` holds before every iteration of the copy of the memory of `p` to `np`. -/
def ForkMeets (alloc : M ℕ) (C : ℕ → Kernel → ℕ → Prop) (p np : ℕ) (s : Kernel) : Prop :=
  CopyMeets alloc (C (s.procs p).pagetable) (s.procs p).pagetable (s.procs np).pagetable np
    (copyPages s p) 0 s

instance {C : ℕ → Kernel → ℕ → Prop} [∀ old s i, Decidable (C old s i)] (p np : ℕ) (s : Kernel) :
    Decidable (ForkMeets alloc C p np s) := decidableCopyMeets _ _ _

theorem le_copyPages (s : Kernel) (p : ℕ) (k : Key) :
    (s.procs p).sz ≤ k.addr ↔ copyPages s p * 4096 ≤ k.addr := by
  have := addr_mod k
  simp only [copyPages, pgsize_eq]
  omega

/-- What `uvmcopy` gives; the pages only as long as it meets none that is swapped out. -/
structure Duplicated (N : ℕ → ℕ → Prop) (alloc : M ℕ) (spared : Kernel → ℕ → Prop) (g : Ghost)
    (s s' : Kernel) (p np : ℕ) : Prop where
  inv : ∃ g', g'.owned = g.owned ∧ Inv N g' s' ∧ Settled g' (s'.forkCommit p np)
  resident : Resident s → Resident s'
  /-- The child's pages are the parent's exactly if no source page was lost. -/
  child : g.owned → ((∀ va < (s.procs p).sz, logicalPage s' (s.procs np).pagetable (vkey va)
    = logicalPage s (s.procs p).pagetable (vkey va)) ↔
      ForkMeets alloc (SourceStays spared) p np s)
  /-- The other pages are as before. -/
  others : g.owned → ∀ r k, g.own r = .root → r ≠ (s.procs np).pagetable → UserKey k →
    logicalPage s' r k = logicalPage s r k
  procs : ∀ q, SameProc (s.procs q) (s'.procs q)
  myproc : s'.myproc = s.myproc

/-- **`uvmcopy`** -/
theorem uvmcopy_spec (halloc : Allocates N alloc) (hsp : Spares N alloc spared) (h : Inv N g s)
    (hs : Settled g s) (hp : (s.procs p).used = true) (hnp : (s.procs np).used = true)
    (hne : p ≠ np) (hempty : (s.procs np).sz = 0)
    (hns : g.owned → ForkMeets alloc NotSwapped p np s) :
    wp (uvmcopy alloc (s.procs p).pagetable (s.procs np).pagetable (s.procs p).sz np)
      (fun ret s' => ret = 0 ∧ Duplicated N alloc spared g s s' p np) (Exhausted N) s := by
  have hold := h.procTable.root p (hs.used p hp)
  have hnew := h.procTable.root np (hs.used np hnp)
  have hdiff : (s.procs p).pagetable ≠ (s.procs np).pagetable := fun he =>
    hne (h.procTable.inj p np (hs.used p hp) he)
  have hsz := hs.sz p
  have htop : 0 + copyPages s p * 4096 ≤ trapframe := by
    simp only [copyPages, pgsize_eq, trapframe_eq] at hsz ⊢
    omega
  refine wp_imp (uvmcopyLoop_spec halloc hsp h hold hnew hdiff rfl htop rfl (fun k hk _ => ?_) hns)
    fun ret s' hl => ?_
  · exact hs.absent np k (hs.used np hnp) (by rw [hempty]; exact Nat.zero_le _) (not_topPage hk)
  obtain ⟨rfl, ⟨g', h', hback⟩, hlog⟩ := hl
  refine ⟨rfl, ⟨g', hback.owned, h', hs.fork h hnp hempty h' hback fun k hk => ?_⟩,
    fun hr => hback.resident h hr fun _ _ => id, fun ho => Iff.trans ?_ (hlog ho),
    fun ho r k hr hrn hk => hback.logical ho r k hr hk fun hx => hrn hx.1, hback.procs,
    hback.myproc⟩
  · rw [Nat.zero_add]
    exact (le_copyPages s p k).mp hk
  · have hkey := le_copyPages s p
    constructor
    · intro heq k _ hhi
      have hlt : k.addr < (s.procs p).sz := by
        have := hkey k
        change _ < 0 + copyPages s p * 4096 at hhi
        omega
      have := heq k.addr hlt
      rwa [vkey_addr] at this
    · intro heq va hva
      have := hkey (vkey va)
      have haddr : (vkey va).addr = va / 4096 * 4096 := addr_vkey (by
        simp only [trapframe_eq] at hsz
        omega)
      refine heq (vkey va) (Nat.zero_le _) ?_
      change _ < 0 + copyPages s p * 4096
      omega

/-- The commit changes no user memory. -/
theorem userByte_forkCommit (h : Inv N g s) (p np : ℕ) (x : ℕ × UserAddr) :
    userByte (s.forkCommit p np) x = userByte s x := by
  have hsz : Inv N g (s.setSz np (s.procs p).sz) := h.setProc rfl rfl
  rw [← userByte_setSz s np (s.procs p).sz x]
  refine userByte_congr rfl fun hpt => ?_
  exact hsz.logicalPage_copyTrapframe (hsz.procTable.root x.1 hpt) (userKey_vkey x.2.property)

section

variable (hd : Duplicated N alloc spared g s s' p np)

include hd

/-- The state after a fork. -/
theorem Duplicated.commit :
    ∃ g', g'.owned = g.owned ∧ Inv N g' (s'.forkCommit p np) ∧ Settled g' (s'.forkCommit p np) := by
  obtain ⟨g', ho, h', hs'⟩ := hd.inv
  have hsz : Inv N g' (s'.setSz np (s'.procs p).sz) := h'.setProc rfl rfl
  exact ⟨g', ho, hsz.copyTrapframe p np, hs'⟩

/-- The parent keeps its memory. -/
theorem Duplicated.userByte_eq (ho : g.owned) (h : Inv N g s) (hne : p ≠ np) (va : UserAddr) :
    userByte (s'.forkCommit p np) (p, va) = userByte s (p, va) := by
  obtain ⟨g', -, h', -⟩ := hd.inv
  rw [userByte_forkCommit h']
  refine userByte_congr (hd.procs p).pagetable fun hpt => ?_
  exact hd.others ho _ _ (h.procTable.root p hpt) (fun he => hne (h.procTable.inj p np hpt he))
    (userKey_vkey va.property)

end

end

end Mem

end Xv6
