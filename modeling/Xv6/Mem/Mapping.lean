import Xv6.Mem.Evict

/-!
# Mapping, unmapping and bringing back

Specifications of the functions that change leaf entries: `walk` with allocation, `mappages` of
one page, one iteration of `uvmunmap`, the swap-in of `usertrap` and `walkaddr`, and
`track_frame`.

Each of them is one of the changes of `Xv6.Mem.Invariant`, preceded by allocations. A page that
an allocation has returned is `reserved` until an entry maps it, so no later allocation of the
same function can take it (`Background.held`).
-/

namespace Xv6

namespace Mem

open WeakestPre
open Function (update update_self update_of_ne)

variable {E : Halt → Kernel → Prop} {Q : Option ℕ → Kernel → Prop} {a level r t va : ℕ} {g : Ghost}
  {k : Key} {perm v : Pte} {s s₂ : Kernel}

variable {N : ℕ → ℕ → Prop} {alloc : M ℕ}

/-! ### Pages in the hands of the kernel -/

section

variable {g₁ : Ghost} {s₁ : Kernel} {page : ℕ}

/-- The kernel writes a page that it holds. -/
theorem Inv.setPage (h : Inv N g s) (ha : g.own a = .reserved) (pg : Page) :
    Inv N g (s.setPage a pg) :=
  h.frame (fun b hb => update_of_ne (fun hba => by rw [hba, ha] at hb; cases hb) _ _) rfl
    rfl rfl (FramesShrink.refl s) h.frameTable.hand fun _ => ⟨rfl, rfl⟩

theorem Background.setPage (h : Inv N g s) (ha : g.own a = .reserved) (pg : Page) :
    Background NoEntry NoEntry NoEntry (· = a) g g s (s.setPage a pg) :=
  .of_mem h (fun b hb => Or.inl (by rw [hb]; exact ha)) (fun b hb => update_of_ne hb _ _)
    (fun _ => FrameKept.refl _) rfl (fun _ => SameProc.refl _) rfl rfl rfl

/-- A page just allocated is not one that the kernel held before. -/
theorem Allocated.ne_held (ha : Allocated N g g₁ s s₁ page) (h : g.own a = .reserved) :
    a ≠ page := fun he => ha.fresh (he ▸ h)

theorem Allocated.ne_zero (ha : Allocated N g g₁ s s₁ page) (h : Inv N g s) : page ≠ 0 :=
  ha.managed.ne_zero h.layout.kend

/-- **Allocate, then work on the page.** What happens to the new page is no business of those who
held other pages before. -/
theorem Allocated.background_trans (ha : Allocated N g g₁ s s₁ page) {g₂ : Ghost}
    {X Z T : ℕ → Key → Prop} (h : Background X Z T (· = page) g₁ g₂ s₁ s₂) :
    Background X Z T NoPage g g₂ s s₂ := by
  refine (ha.background.weaken).trans h fun a hres hor => ?_
  rcases hor with hor | hor
  · exact hor
  · exact ha.ne_held hres hor

/-- A page that has just been allocated becomes a table page. -/
theorem Allocated.addTable (ha : Allocated N g g₁ s s₁ page) {i : Fin 512} {u : Use}
    (hu : (g₁.own t).below t i = some u) (h0 : (s₁.setPage page Page.zero).mem t i = 0#64) :
    Inv N (g₁.setOwn page u) ((s₁.setPage page Page.zero).writePte (t, i) (tablePte page)) ∧
      Background NoEntry NoEntry NoEntry NoPage g (g₁.setOwn page u) s
        ((s₁.setPage page Page.zero).writePte (t, i) (tablePte page)) := by
  obtain ⟨ht, htable, hroot⟩ := isTable_of_below hu
  have hinv := ha.inv.setPage ha.reserved Page.zero
  have hzero : (s₁.setPage page Page.zero).mem page = Page.zero := update_self _ _ _
  have hleaf : ∀ r k, g₁.own r = .root →
      leaf (setWord (s₁.setPage page Page.zero).mem t i (tablePte page)) r k
        = leaf (s₁.setPage page Page.zero).mem r k := fun r k hr =>
    hinv.layout.tables.leaf_link hu ha.reserved ha.managed.pageAddr hzero h0 hr k
  have hman : Managed (s₁.setPage page Page.zero).kend page := by
    rw [show (s₁.setPage page Page.zero).kend = s.kend from ha.background.kend]
    exact ha.managed
  have hother : ∀ {x : ℕ} {w : Use}, g₁.own x = w → w.isTable = false →
      ((s₁.setPage page Page.zero).writePte (t, i) (tablePte page)).mem x
        = (s₁.setPage page Page.zero).mem x := fun {x w} hx hw =>
    setWord_of_ne _ _ (ne_of_own hx rfl fun he => by rw [← he, hw] at ht; cases ht)
  have hne : ∀ {x : ℕ} {w : Use}, g₁.own x = w → w ≠ .reserved → x ≠ page := fun hx hw =>
    ne_of_own hx ha.reserved hw
  refine ⟨hinv.relink (by rw [ha.reserved]; rfl) (isLink_of_isTable htable hroot) hman
    (hinv.layout.tables.link hu ha.reserved ha.managed.pageAddr hzero h0) hleaf,
    ha.background_trans ?_⟩
  refine (Background.setPage ha.inv ha.reserved Page.zero).trans (V := (· = page)) ?_
    fun a _ hor => hor.elim id id
  refine .of_entries hinv rfl (fun x hx => Ghost.setOwn_of_ne _ (hne rfl ?_)) (fun r hr => ?_)
    (fun x hx hres => ⟨(Ghost.setOwn_of_ne u hx).trans hres, hother hres rfl⟩)
    (fun x p hx => ⟨(Ghost.setOwn_of_ne u (hne hx (by simp))).trans hx, hother hx rfl⟩) hleaf
    (fun x r k hx => hother hx rfl) (fun _ _ _ _ => FrameKept.refl _) rfl
    (fun _ => SameProc.refl _) rfl rfl rfl
  · intro he
    rw [he] at hx
    cases hx
  · by_cases hrp : r = page
    · rw [hrp, Ghost.setOwn_self] at hr
      exact absurd hr hroot
    · rwa [Ghost.setOwn_of_ne u hrp] at hr

end

/-! ### Walking with allocation -/

/-- The branch of `walk` that follows an entry. -/
theorem wp_walkLevel_table {alloc : Option (M ℕ)} (ha : PageAddr a)
    (he : s.mem t (px level va) = tablePte a) :
    wp (walkLevel alloc level va t) Q E s ↔ Q (some a) s := by
  have hm := mapsTo_tablePte ha
  have hv : has (tablePte a) pteV = true := by
    rw [has_pteV]
    exact hm.valid
  simp only [walkLevel, wp_bind, wp_get, Kernel.readPte, he, hv, if_true, wp_pure, hm.pa]

/-- The branch of `walk` that allocates. -/
theorem walkLevel_alloc_spec (halloc : Allocates N alloc) (h : Inv N g s)
    (h0 : s.mem t (px level va) = 0#64) (hQ : ∀ g₁ s₁ page, Allocated N g g₁ s s₁ page →
      Q (some page) ((s₁.setPage page Page.zero).writePte (t, px level va) (tablePte page))) :
    wp (walkLevel (some alloc) level va t) Q (Exhausted N) s := by
  have hv : has (0#64) pteV = false := by decide
  simp only [walkLevel, wp_bind, wp_get, Kernel.readPte, h0, hv, Bool.false_eq_true, if_false]
  refine wp_imp (halloc h) fun page s₁ ha => ?_
  obtain ⟨g₁, ha⟩ := ha
  simp only [if_neg (ha.ne_zero h), wp_bind, wp_modify, wp_pure]
  exact hQ g₁ s₁ page ha

/-- **One level of `walk`** finds or builds the page below its entry. -/
theorem walkLevel_spec (halloc : Allocates N alloc) (h : Inv N g s) {u : Use}
    (hu : (g.own t).below t (px level va) = some u) :
    wp (walkLevel (some alloc) level va t) (fun o s' => ∃ g' a, o = some a ∧ Inv N g' s' ∧
      Background NoEntry NoEntry NoEntry NoPage g g' s s' ∧ g'.own a = u) (Exhausted N) s := by
  obtain ⟨ht, htable, -⟩ := isTable_of_below hu
  rcases h.layout.tables.links.entry t _ u hu with h0 | ⟨a, ha, he⟩
  · refine walkLevel_alloc_spec halloc h h0 fun g₁ s₁ page ha => ?_
    have hu₁ : (g₁.own t).below t (px level va) = some u := by rwa [ha.background.table t ht]
    have hinv := ha.inv.setPage ha.reserved Page.zero
    have hentry : (s₁.setPage page Page.zero).mem t (px level va) = 0#64 := by
      refine (hinv.layout.tables.links.entry t _ u hu₁).resolve_right ?_
      rintro ⟨a, ha₁, -⟩
      -- the page would have been there before
      have hold := ha.background.table a (ha.isTable a (by rwa [ha₁]))
      exact h.layout.tables.own_ne_of_entry hu h0 a (hold.symm.trans ha₁)
    obtain ⟨hinv', hback⟩ := ha.addTable hu₁ hentry
    exact ⟨_, page, rfl, hinv', hback, Ghost.setOwn_self _ _ _⟩
  · rw [wp_walkLevel_table (h.layout.tables.addr a (by rwa [ha])) he]
    exact ⟨g, a, rfl, h, Background.refl h, ha⟩

/-- **`walk(pagetable, va, 1)`** finds or builds the last-level table page. -/
theorem walkAlloc_spec (halloc : Allocates N alloc) (h : Inv N g s) (hr : g.own r = .root)
    (hva : va < maxva) :
    wp (walk (some alloc) r va) (fun o s' => ∃ g' b, o = some (b, (vkey va).2.2) ∧ Inv N g' s' ∧
      Background NoEntry NoEntry NoEntry NoPage g g' s s' ∧
      g'.own b = .low r (vkey va).1 (vkey va).2.1) (Exhausted N) s := by
  rw [walk, if_neg (not_le.mpr hva)]
  refine wp_call (walkLevel_spec halloc h (below_eq_mid.mpr ⟨hr, rfl, rfl⟩)) fun o s₁ ho => ?_
  obtain ⟨g₁, m, rfl, h₁, hback₁, hm⟩ := ho
  refine wp_call (walkLevel_spec halloc h₁ (below_eq_low.mpr ⟨hm, rfl⟩)) fun o s₂ ho => ?_
  obtain ⟨g₂, b, rfl, h₂, hback₂, hb⟩ := ho
  exact ⟨g₂, b, rfl, h₂, hback₁.seq hback₂, hb⟩

/-! ### Changes of an entry -/

section

variable {s' : Kernel} {b : ℕ}

/-- The slots in use after an entry has got a value that is not swapped. -/
theorem Entries.inUse_assign {L : ℕ → Key → Pte} {inUse : ℤ → Bool} (h : Entries g L inUse)
    (ho : g.owned) (hr : g.own r = .root) (hk : UserKey k) (hv : ¬ Swapped v) (n : ℤ) :
    ((g.assign r k v).slot n).isSome
      = if Swapped (L r k) ∧ swapIdx (L r k) = n then false else inUse n := by
  simp only [Ghost.assign]
  rw [if_neg fun hs => hv hs.1]
  by_cases hn : g.slot n = some (r, k)
  · obtain ⟨-, -, hs, hidx⟩ := h.slot ho n r k hn
    rw [if_pos hn, if_pos ⟨hs, hidx⟩]
    rfl
  · rw [if_neg hn, if_neg ?_, h.inUse ho n]
    rintro ⟨hs, rfl⟩
    exact hn (h.named ho r k hr hk hs)

/-- **An entry changes**, and with it at most the page it now maps. -/
theorem Background.assign (h : Inv N g s) (ha : Assignable g r k v)
    (hb : g.own b = .low r k.1 k.2.1)
    (hmem : ∀ x, ¬ (Valid v ∧ pte2pa v = x) → s'.mem x = setWord s.mem b k.2.2 v x)
    (hframes : ∀ a r' k', g.own a = .user r' k' → ¬ EntryAt r k r' k' →
      FrameKept (s.frames (frameIndex a)) (s'.frames (frameIndex a)))
    (hstore : s'.swapStore = s.swapStore) (hprocs : ∀ p, SameProc (s.procs p) (s'.procs p))
    (hmy : s'.myproc = s.myproc) (hkend : s'.kend = s.kend)
    (htr : s'.trampolinePa = s.trampolinePa) :
    Background (EntryAt r k) (EntryAt r k) (EntryAt r k) (fun x => Valid v ∧ pte2pa v = x) g
      (g.assign r k v) s s' := by
  -- the page mapped was in the hands of the kernel, so other pages are as the write leaves them
  have hsame : ∀ {x : ℕ} {u : Use}, g.own x = u → u ≠ .reserved →
    s'.mem x = setWord s.mem b k.2.2 v x :=
    fun {x u} hx hu => hmem x fun hv => hu (by rw [← hx, ← hv.2, ha.page hv.1])
  have hpage : ∀ {x : ℕ} {u : Use}, g.own x = u → u ≠ .reserved → u.isTable = false →
      s'.mem x = s.mem x := fun {x u} hx hres hu => by
    rw [hsame hx hres]
    exact setWord_of_ne _ _ (ne_of_own hx hb fun he => by rw [he] at hu; cases hu)
  have hleaf : ∀ r' k', g.own r' = .root → ¬ EntryAt r k r' k' →
      leaf s'.mem r' k' = leaf s.mem r' k' := fun r' k' hr' hne => by
    rw [← h.layout.tables.leaf_write_of_ne hb hr' v hne]
    refine leaf_congr (h.layout.tables.write hb k.2.2 v) hr' (fun x hx => hsame rfl ?_) k'
    intro he
    rw [he] at hx
    cases hx
  refine ⟨g.assign_owned _ _ _, fun x hx => ha.own_table (Or.inl hx),
    fun x hx => (ha.own_root x).mp hx, fun x hY hx =>
      ⟨own_assign_reserved hx fun hv he => hY ⟨hv, he⟩, ?_⟩,
    fun x p hx => ⟨ha.own_of_ne hx (by simp) (by simp), hpage hx (by simp) rfl⟩,
    fun r' k' hr' hX => by rw [hleaf r' k' hr' hX]; exact Evolves.refl _,
    fun _ r' k' hr' hk' hZ => ?_, fun r' k' hr' hk' hT ht => ?_, hprocs, hmy, hkend, htr⟩
  · rw [hmem x hY]
    exact setWord_of_ne _ _ (ne_of_own hx hb (by simp))
  · exact logicalPage_congr (hleaf r' k' hr' hZ)
      (fun hv => hpage (h.entries.page r' k' hr' hk' hv) (by simp) rfl) fun _ => by rw [hstore]
  · refine ht.step (by rw [hleaf r' k' hr' hT]; exact Evolves.refl _)
      (fun a ha => hframes a r' k' ?_ hT) fun p hp => (hprocs p).pagetable.trans hp
    rw [← ha.pa]
    exact h.entries.page r' k' hr' hk' ha.valid

/-- If the logical page of the entry worked on is the same, all logical pages are. -/
theorem Background.of_logical {g' : Ghost} {X T : ℕ → Key → Prop} {Y : ℕ → Prop}
    (h : Background X (EntryAt r k) T Y g g' s s') (he : logicalPage s' r k = logicalPage s r k) :
    Background X NoEntry T Y g g' s s' :=
  ⟨h.owned, h.table, h.root, h.held, h.trapframe, h.entry, fun ho r' k' hr' hk' _ => by
    by_cases hne : EntryAt r k r' k'
    · rw [hne.1, hne.2, he]
    · exact h.logical ho r' k' hr' hk' hne, h.tracked, h.procs, h.myproc, h.kend, h.trampolinePa⟩

/-- **A page is mapped** at an entry that was not valid. -/
theorem Inv.fill (h : Inv N g s) (s' : Kernel) (hr : g.own r = .root) (hk : UserKey k)
    (hb : g.own b = .low r k.1 k.2.1) (ha : g.own a = .reserved) (hman : Managed s.kend a)
    (hv : MapsTo v a) (hold : ¬ Valid (leaf s.mem r k))
    (hmem : ∀ x, x ≠ a → s'.mem x = setWord s.mem b k.2.2 v x) (hfree : s'.freelist = s.freelist)
    (hframes : s'.frames = s.frames) (hhand : s'.clockHand = s.clockHand)
    (hinUse : ∀ n, s'.swapInUse n
      = if Swapped (leaf s.mem r k) ∧ swapIdx (leaf s.mem r k) = n then false else s.swapInUse n)
    (hstore : s'.swapStore = s.swapStore) (hprocs : ∀ p, SameProc (s.procs p) (s'.procs p))
    (hmy : s'.myproc = s.myproc) (hkend : s'.kend = s.kend)
    (htr : s'.trampolinePa = s.trampolinePa) :
    Inv N (g.assign r k v) s' ∧
      Background (EntryAt r k) (EntryAt r k) (EntryAt r k) (· = a) g (g.assign r k v) s s' ∧
      (g.assign r k v).own a = .user r k ∧ leaf s'.mem r k = v := by
  have hnsw : ¬ Swapped v := fun hs => hs.not_valid hv.valid
  have hassign : Assignable g r k v := ⟨hr, hk, Or.inr (Or.inl ⟨hv.valid, hv.not_swapped⟩),
    fun _ => by rw [hv.pa]; exact ha, fun hs => absurd hs hnsw, fun _ hs => absurd hs hnsw⟩
  have htab : ∀ x, (g.own x).isTable → s'.mem x = setWord s.mem b k.2.2 v x := fun x hx =>
    hmem x fun hxa => by rw [hxa, ha] at hx; cases hx
  have hown : (g.assign r k v).own a = .user r k := by
    have := own_assign_page (g := g) (r := r) (k := k) hv.valid
    rwa [hv.pa] at this
  refine ⟨h.assign hassign (fun _ => by rw [hv.pa]; exact hman) hb htab hfree hkend (fun ho n => ?_)
    (fun i hi => by rw [hframes] at hi ⊢; exact ⟨hi, rfl, rfl⟩) (fun i _ hi => ?_)
    (by rw [hhand]; exact h.frameTable.hand) fun p => ⟨(hprocs p).pagetable, (hprocs p).trapframe⟩,
    (Background.assign h hassign hb (fun x hx => hmem x fun hxa =>
      hx ⟨hv.valid, hv.pa.trans hxa.symm⟩)
      (fun _ _ _ _ _ => by rw [hframes]; exact FrameKept.refl _) hstore hprocs hmy hkend htr).mono
      (fun _ _ h => h) (fun _ _ h => h) (fun _ _ h => h) fun x _ hx =>
        hx.2.symm.trans hv.pa, hown, ?_⟩
  · rw [hinUse n, h.entries.inUse_assign ho hr hk hnsw n]
  · exact hold (h.entries.user _ _ _ hi).2.2.valid
  · rw [leaf_congr (h.layout.tables.write hb k.2.2 v) hr htab k]
    exact h.layout.tables.leaf_write_self hb k.2.2 v

end

/-! ### Mapping one page -/

/-- `mappages` of one page at an entry that is zero comes down to one write. -/
theorem mappages_write_spec (halloc : Allocates N alloc) (h : Inv N g s) {pa : ℕ}
    (hr : g.own r = .root) (hva : va < maxva) (hal : va % 4096 = 0)
    (h0 : leaf s.mem r (vkey va) = 0#64) {Q : ℤ → Kernel → Prop}
    (hQ : ∀ g₁ s₁ b, Inv N g₁ s₁ → Background NoEntry NoEntry NoEntry NoPage g g₁ s s₁ →
      g₁.own b = .low r (vkey va).1 (vkey va).2.1 → leaf s₁.mem r (vkey va) = 0#64 →
      Q 0 (s₁.writePte (b, (vkey va).2.2) (mapPte pa perm))) :
    wp (mappages alloc r va pgsize pa perm) Q (Exhausted N) s := by
  rw [mappages, if_neg (by simpa using hal), if_neg (by simp), if_neg (by simp)]
  rw [show pgsize / pgsize - 1 = 0 by simp, mappagesLoop]
  refine wp_call (walkAlloc_spec halloc h hr hva) fun o s₁ ho => ?_
  obtain ⟨g₁, b, rfl, h₁, hback, hb⟩ := ho
  have hleaf : leaf s₁.mem r (vkey va) = 0#64 := by
    rw [hback.leaf_eq hr not_false (by rw [h0]; exact not_valid_zero), h0]
  have hread : s₁.readPte (b, (vkey va).2.2) = 0#64 := by
    rw [readPte_low ((h₁.layout.tables.lowPage_eq_some (hback.own_root hr)).mpr hb), hleaf]
  simp only [wp_bind, wp_get, hread]
  rw [if_neg (by decide)]
  simp only [wp_bind, wp_modify, wp_pure]
  exact hQ g₁ s₁ b h₁ hback hb hleaf

/-- What mapping a page gives. -/
structure Mapped (N : ℕ → ℕ → Prop) (g g' : Ghost) (s s' : Kernel) (r : ℕ) (k : Key) (pa : ℕ)
    (pte : Pte) : Prop where
  inv : Inv N g' s'
  background : Background (EntryAt r k) (EntryAt r k) (EntryAt r k) (· = pa) g g' s s'
  user : g'.own pa = .user r k
  leaf : leaf s'.mem r k = pte
  mem : s'.mem pa = s.mem pa

/-- **`mappages`** of one user page. -/
theorem mappages_spec (halloc : Allocates N alloc) (h : Inv N g s) {pa : ℕ} (hr : g.own r = .root)
    (hva : va < trapframe) (hal : va % 4096 = 0) (hpa : g.own pa = .reserved)
    (hman : Managed s.kend pa) (hf : perm.toNat < 1024) (hs : perm.getLsbD 8 = false)
    (h0 : leaf s.mem r (vkey va) = 0#64) :
    wp (mappages alloc r va pgsize pa perm)
      (fun ret s' => ret = 0 ∧ ∃ g', Mapped N g g' s s' r (vkey va) pa (mapPte pa perm))
      (Exhausted N) s := by
  have hva' : va < maxva := by
    simp only [trapframe_eq, maxva_eq] at hva ⊢
    omega
  refine mappages_write_spec halloc h hr hva' hal h0 fun g₁ s₁ b h₁ hback hb hleaf => ⟨rfl, ?_⟩
  obtain ⟨hres, hmem⟩ := hback.held pa not_false hpa
  have hm : MapsTo (mapPte pa perm) pa := mapsTo_mapPte hman.1 hman.pageAddr.2 hf hs
  have hns : ¬ Swapped (Mem.leaf s₁.mem r (vkey va)) := by
    rw [hleaf]
    exact not_swapped_zero
  obtain ⟨hinv, hback', hown, hleaf'⟩ := h₁.fill
    (s₁.writePte (b, (vkey va).2.2) (mapPte pa perm)) (hback.own_root hr) (userKey_vkey hva) hb hres
      (hback.kend ▸ hman) hm
    (by rw [hleaf]; exact not_valid_zero) (fun _ _ => rfl) rfl rfl rfl
    (fun n => by rw [if_neg fun hn => hns hn.1]; rfl) rfl (fun _ => SameProc.refl _) rfl rfl rfl
  refine ⟨_, hinv, (hback.weaken).trans hback' fun x _ hor =>
    hor.elim False.elim id, hown, hleaf', ?_⟩
  rw [writePte_mem, setWord_of_ne _ _ (ne_of_own hres hb (by simp)), hmem]

/-- The entry `v` holds what `pte` holds: the same page, the same slot, or nothing. -/
structure SameHolding (pte v : Pte) : Prop where
  valid : v.getLsbD 0 = pte.getLsbD 0
  flag : v.getLsbD 8 = pte.getLsbD 8
  field : v >>> 10 = pte >>> 10
  zero : pte = 0#64 → v = 0#64

section

variable {pte : Pte}

theorem SameHolding.refl (pte : Pte) : SameHolding pte pte := ⟨rfl, rfl, rfl, id⟩

theorem SameHolding.valid_iff (h : SameHolding pte v) : Valid v ↔ Valid pte := by
  rw [Valid, Valid, h.valid]

theorem SameHolding.swapped_iff (h : SameHolding pte v) : Swapped v ↔ Swapped pte := by
  rw [Swapped, Swapped, h.valid, h.flag]

theorem SameHolding.pa (h : SameHolding pte v) : pte2pa v = pte2pa pte := by
  rw [pte2pa, pte2pa, h.field]

theorem SameHolding.slot (h : SameHolding pte v) : swapIdx v = swapIdx pte := by
  rw [swapIdx, swapIdx, h.field]

theorem SameHolding.mapsTo_iff (h : SameHolding pte v) : MapsTo v a ↔ MapsTo pte a :=
  ⟨fun hm => ⟨h.valid_iff.mp hm.valid, h.flag.symm.trans hm.not_swapped, h.pa.symm.trans hm.pa⟩,
    fun hm => ⟨h.valid_iff.mpr hm.valid, h.flag.trans hm.not_swapped, h.pa.trans hm.pa⟩⟩

theorem SameHolding.wellFormed (h : SameHolding pte v) (hw : WellFormed pte) : WellFormed v :=
  hw.imp h.zero (Or.imp (fun hv => ⟨h.valid_iff.mpr hv.1, h.flag.trans hv.2⟩) h.swapped_iff.mpr)

end

/-- **An entry is written that holds the same**, or one above user memory. -/
theorem Inv.rewrite (h : Inv N g s) {b : ℕ} (hb : g.own b = .low r k.1 k.2.1)
    (hsame : UserKey k → SameHolding (leaf s.mem r k) v) (htop : ¬ UserKey k → TopEntry v) :
    Inv N g (s.writePte (b, k.2.2) v) ∧
      Background (EntryAt r k) NoEntry NoEntry NoPage g g s (s.writePte (b, k.2.2) v) ∧
      leaf (s.writePte (b, k.2.2) v).mem r k = v := by
  have hself : leaf (s.writePte (b, k.2.2) v).mem r k = v :=
    h.layout.tables.leaf_write_self hb k.2.2 v
  have hother : ∀ r' k', g.own r' = .root → ¬ (r' = r ∧ k' = k) →
      leaf (s.writePte (b, k.2.2) v).mem r' k' = leaf s.mem r' k' := fun r' k' hr' hne =>
    h.layout.tables.leaf_write_of_ne hb hr' v hne
  have huser : ∀ r' k', g.own r' = .root → UserKey k' →
      SameHolding (leaf s.mem r' k') (leaf (s.writePte (b, k.2.2) v).mem r' k') :=
    fun r' k' hr' hk' => by
      by_cases hne : r' = r ∧ k' = k
      · obtain ⟨rfl, rfl⟩ := hne
        rw [hself]
        exact hsame hk'
      · rw [hother r' k' hr' hne]
        exact .refl _
  have hpage : ∀ {x : ℕ} {u : Use}, g.own x = u → u.isTable = false →
      (s.writePte (b, k.2.2) v).mem x = s.mem x := fun hx hu =>
    setWord_of_ne _ _ (ne_of_own hx hb fun he => by rw [he] at hu; cases hu)
  refine ⟨⟨⟨h.layout.kend, h.layout.tables.write hb k.2.2 v, h.layout.managed, h.layout.nodup,
    h.layout.free⟩, ⟨fun r' k' hr' hk' => (huser r' k' hr' hk').wellFormed
      (h.entries.wf r' k' hr' hk'),
    fun r' k' hr' hk' => ?_, fun r' k' hr' hk' hv => ?_, fun x r' k' hx => ?_,
    fun r' k' hr' hk' hs => ?_, fun ho r' k' hr' hk' hs => ?_, fun ho n r' k' hn => ?_,
    h.entries.inUse⟩, ⟨h.frameTable.hand, h.frameTable.tracked⟩,
    ⟨h.procTable.root, h.procTable.inj, h.procTable.trapframe⟩⟩,
    ⟨rfl, fun _ _ => rfl, fun _ hx => hx, fun x _ hx => ⟨hx, hpage hx rfl⟩,
    fun x p hx => ⟨hx, hpage hx rfl⟩, fun r' k' hr' hX => ?_, fun _ r' k' hr' hk' _ => ?_,
    fun r' k' hr' hk' _ ht => ?_, fun _ => SameProc.refl _, rfl, rfl, rfl⟩, hself⟩
  · by_cases hne : r' = r ∧ k' = k
    · obtain ⟨rfl, rfl⟩ := hne
      rw [hself]
      exact htop hk'
    · rw [hother r' k' hr' hne]
      exact h.entries.top r' k' hr' hk'
  · have hh := huser r' k' hr' hk'
    rw [hh.pa]
    exact h.entries.page r' k' hr' hk' (hh.valid_iff.mp hv)
  · obtain ⟨hr', hk', hm⟩ := h.entries.user x r' k' hx
    exact ⟨hr', hk', (huser r' k' hr' hk').mapsTo_iff.mpr hm⟩
  · have hh := huser r' k' hr' hk'
    rw [hh.slot]
    exact h.entries.range r' k' hr' hk' (hh.swapped_iff.mp hs)
  · have hh := huser r' k' hr' hk'
    rw [hh.slot]
    exact h.entries.named ho r' k' hr' hk' (hh.swapped_iff.mp hs)
  · obtain ⟨hr', hk', hs, hn⟩ := h.entries.slot ho n r' k' hn
    have hh := huser r' k' hr' hk'
    exact ⟨hr', hk', hh.swapped_iff.mpr hs, hh.slot.trans hn⟩
  · rw [hother r' k' hr' hX]
    exact Evolves.refl _
  · have hh := huser r' k' hr' hk'
    simp only [logicalPage, hh.valid_iff, hh.swapped_iff, hh.pa, hh.slot]
    split
    · exact hpage (h.entries.page r' k' hr' hk' ‹_›) rfl
    · rfl
  · exact fun a ha => ht a ((huser r' k' hr' hk').mapsTo_iff.mp ha)

/-- Entries above user memory are written. -/
theorem Inv.writeTop (h : Inv N g s) {b : ℕ} (hk : ¬ UserKey k) (hb : g.own b = .low r k.1 k.2.1)
    (hv : TopEntry v) :
    Inv N g (s.writePte (b, k.2.2) v) ∧
      Background (EntryAt r k) NoEntry NoEntry NoPage g g s (s.writePte (b, k.2.2) v) ∧
      leaf (s.writePte (b, k.2.2) v).mem r k = v :=
  h.rewrite hb (fun hk' => absurd hk' hk) fun _ => hv

/-! ### Bringing a page back -/

/-- The state after `swap_in`. -/
def Kernel.swappedIn (pa : ℕ) (slot : ℤ) (s : Kernel) : Kernel :=
  Kernel.modProc s.myproc
    (fun p => { p with
      diskReads := p.diskReads + 1
      pagesSwappedIn := p.pagesSwappedIn + 1
      residentPages := p.residentPages + 1 })
    { s with
      mem := update s.mem pa (s.swapStore slot)
      swapInUse := if 0 ≤ slot ∧ slot < nswapspace then
        update s.swapInUse slot false else s.swapInUse }

@[simp] theorem Kernel.swappedIn_mem (pa : ℕ) (slot : ℤ) (s : Kernel) :
    (s.swappedIn pa slot).mem = update s.mem pa (s.swapStore slot) :=
  Kernel.modProc_mem _ _ _

theorem wp_swapIn {pa : ℕ} {slot : ℤ} {Q : Unit → Kernel → Prop} :
    wp (swapIn pa slot) Q E s ↔ Q () (s.swappedIn pa slot) := Iff.rfl

/-- **A page comes back**: into a page just allocated, from the slot its entry names. -/
theorem Allocated.swapIn {g₁ : Ghost} {s₁ : Kernel} {pa b : ℕ} (ha : Allocated N g g₁ s s₁ pa)
    (hr : g.own r = .root) (hk : UserKey k) (hb : g.own b = .low r k.1 k.2.1)
    (hs : Swapped (leaf s.mem r k)) {s₃ : Kernel}
    (hs₂ : s₂ = s₁.swappedIn pa (swapIdx (s₁.readPte (b, k.2.2))))
    (hs₃ : s₃ = s₂.writePte (b, k.2.2) (usertrapPte pa (s₂.readPte (b, k.2.2)))) :
    ∃ g', Inv N g' s₃ ∧ Background (EntryAt r k) NoEntry (EntryAt r k) NoPage g g' s s₃ ∧
      g'.own pa = .user r k ∧ leaf s₃.mem r k = usertrapPte pa (leaf s.mem r k) := by
  have h₁ := ha.inv
  have hr₁ := ha.background.own_root hr
  have hb₁ := ha.background.own_low hb
  have hleaf : leaf s₁.mem r k = leaf s.mem r k := ha.background.leaf_eq hr not_false hs.not_valid
  have hread : s₁.readPte (b, k.2.2) = leaf s.mem r k := by
    rw [readPte_low ((h₁.layout.tables.lowPage_eq_some hr₁).mpr hb₁), hleaf]
  have hbp : b ≠ pa := ne_of_own hb₁ ha.reserved (by simp)
  have hread₂ : s₂.readPte (b, k.2.2) = leaf s.mem r k := by
    rw [hs₂, Kernel.readPte, Kernel.swappedIn_mem, update_of_ne hbp]
    exact hread
  have hrange := h₁.entries.range r k hr₁ hk (by rwa [hleaf])
  rw [hleaf] at hrange
  have hman := ha.managed
  have hm := mapsTo_usertrapPte hman.1 hman.pageAddr.2 (leaf s.mem r k)
  rw [hread₂] at hs₃
  rw [hread] at hs₂
  obtain ⟨hinv, hback, hown, hleaf₃⟩ := h₁.fill s₃ hr₁ hk hb₁ ha.reserved
    (ha.background.kend ▸ hman) hm (by rw [hleaf]; exact hs.not_valid)
    (fun x hx => by
      simp only [hs₃, hs₂, writePte_mem, setWord, Kernel.swappedIn_mem]
      by_cases hxb : x = b
      · subst hxb
        simp [hx]
      · simp [hx, hxb])
    (by simp [hs₃, hs₂, Kernel.writePte, Kernel.swappedIn])
    (by simp [hs₃, hs₂, Kernel.writePte, Kernel.swappedIn])
    (by simp [hs₃, hs₂, Kernel.writePte, Kernel.swappedIn])
    (fun n => by
      simp only [hs₃, hs₂, Kernel.writePte, Kernel.swappedIn, Kernel.modProc_swapInUse, hleaf,
        if_pos hrange]
      by_cases hn : n = swapIdx (leaf s.mem r k)
      · rw [hn, update_self, if_pos ⟨hs, rfl⟩]
      · rw [update_of_ne hn, if_neg fun he => hn he.2.symm])
    (by simp [hs₃, hs₂, Kernel.writePte, Kernel.swappedIn])
    (fun p => by
      rw [hs₃, hs₂]
      exact .modProc (by intro; constructor <;> rfl) (.refl _))
    (by simp [hs₃, hs₂, Kernel.writePte, Kernel.swappedIn])
    (by simp [hs₃, hs₂, Kernel.writePte, Kernel.swappedIn])
    (by simp [hs₃, hs₂, Kernel.writePte, Kernel.swappedIn])
  have hlogical : logicalPage s₃ r k = logicalPage s₁ r k := by
    rw [logicalPage_of_valid (by rw [hleaf₃]; exact hm), logicalPage_of_swapped (by rwa [hleaf]),
      hleaf, hs₃, hs₂, writePte_mem, setWord_of_ne _ _ (Ne.symm hbp), Kernel.swappedIn_mem,
      update_self]
  exact ⟨_, hinv, ha.background_trans (hback.of_logical hlogical), hown, hleaf₃⟩

/-! ### Tracking -/

/-- **`track_frame`** on a page that its process maps: if that is the table of the process, the page
is in the frame table. -/
theorem trackFrame_spec (h : Inv N g s) {p pa : ℕ} (ht : HasTable N s p r)
    (hu : g.own pa = .user r (vkey va)) (hva : va < trapframe) :
    wp (trackFrame (some p) va pa) (fun _ s' => Inv N g s' ∧
      Background NoEntry NoEntry (EntryAt r (vkey va)) NoPage g g s s' ∧ s'.mem = s.mem ∧
      ((s.procs p).pagetable = r → va % 4096 = 0 → Tracked s' r (vkey va))) E s := by
  obtain ⟨hr, hk, hmaps⟩ := h.entries.user pa r _ hu
  have hman := h.managed hu (by simp)
  have hpa := frameIndex_of_managed h.layout.kend hman
  have hin : ¬ (pa < kernbase ∨ pa ≥ phystop) := by
    have := hman.2
    have := h.layout.kend
    omega
  rw [trackFrame, wp_bind, wp_get, if_neg hin]
  split
  · rename_i hge
    refine ⟨h, Background.refl h, rfl, fun _ _ a ha hlt => ?_⟩
    rw [← hmaps.pa, ha.pa, Nat.mod_eq_of_lt (by simp only [nframe_eq] at hlt; omega)] at hge
    exact absurd hlt (not_lt.mpr hge)
  · rename_i hlt
    rw [wp_set]
    generalize hs₁ : (if (s.frames (frameIndex pa % 2 ^ 32)).inUse = false then
      s.modProc (some p) fun p => { p with residentPages := p.residentPages + 1 } else s) = s₁
    have hsame : s₁.mem = s.mem ∧ s₁.freelist = s.freelist ∧ s₁.frames = s.frames ∧
        s₁.clockHand = s.clockHand ∧ s₁.swapInUse = s.swapInUse ∧ s₁.swapStore = s.swapStore ∧
        s₁.myproc = s.myproc ∧ s₁.kend = s.kend ∧ s₁.trampolinePa = s.trampolinePa := by
      rw [← hs₁]
      split <;> simp
    have hprocs : ∀ q, SameProc (s.procs q) (s₁.procs q) := fun q => by
      rw [← hs₁]
      split
      · exact .modProc (by intro; constructor <;> rfl) (.refl _)
      · exact .refl _
    obtain ⟨hmem, hfree, hframes, hhand, hinUse, hstore, hmy, hkend, htr⟩ := hsame
    have h₁ : Inv N g s₁ := h.frame (fun _ _ => by rw [hmem]) hfree hkend hinUse
      (fun i hi => by rw [hframes] at hi ⊢; exact ⟨hi, rfl, rfl⟩)
      (by rw [hhand]; exact h.frameTable.hand)
      fun q => ⟨(hprocs q).pagetable, (hprocs q).trapframe⟩
    refine ⟨⟨⟨h₁.layout.kend, h₁.layout.tables, h₁.layout.managed, h₁.layout.nodup, h₁.layout.free⟩,
      h₁.entries, ⟨h₁.frameTable.hand, fun i hi => ?_⟩,
      ⟨h₁.procTable.root, h₁.procTable.inj, h₁.procTable.trapframe⟩⟩, ?_, hmem,
      fun hpt hal a ha hlta => ?_⟩
    · by_cases hi' : i = frameIndex pa % 2 ^ 32
      · subst hi'
        refine ⟨p, r, by simp, by omega, by simpa using hva, ht.congr (hprocs p).pagetable, ?_⟩
        rw [hpa, hu]
        simp
      · simp only [update_of_ne hi'] at hi ⊢
        exact h₁.frameTable.tracked i hi
    · -- only the frame of the page changes, and only its own entry maps the page
      refine .of_frames h (fun _ => congrFun hmem _) (fun a r' k' hown hne => ?_) hstore hprocs hmy
        hkend htr
      have hidx : frameIndex a ≠ frameIndex pa % 2 ^ 32 := fun he => hne (by
        rw [← frameIndex_of_managed h.layout.kend (h.managed hown (by simp)), he, Nat.mod_mod, hpa,
          hu] at hown
        exact (Use.user.inj hown).imp Eq.symm Eq.symm)
      simp only [update_of_ne hidx, hframes]
      exact FrameKept.refl _
    · have hpaa : a = pa := by
        rw [← ha.pa, ← hmaps.pa]
        exact congrArg (fun mem => pte2pa (leaf mem r (vkey va))) hmem
      rw [hpaa] at hlta ⊢
      have hmod : frameIndex pa % 2 ^ 32 = frameIndex pa :=
        Nat.mod_eq_of_lt (by simp only [nframe_eq] at hlta; omega)
      rw [hmod]
      simp only [update_self, true_and]
      refine ⟨?_, p, rfl, (hprocs p).pagetable.trans hpt⟩
      simp only [trapframe_eq] at hva
      rw [addr_vkey (by omega)]
      omega

/-! ### Unmapping one page -/

theorem setWord_update_comm (mem : ℕ → Page) {b : ℕ} (i : Fin 512) (v : Pte) (pg : Page)
    (h : b ≠ a) : setWord (update mem a pg) b i v = update (setWord mem b i v) a pg := by
  rw [setWord, setWord, update_of_ne h, Function.update_comm h]

/-- Freeing a page and writing an entry of another page commute. -/
theorem kfreed_writePte (s : Kernel) (i : Fin 512) (v : Pte) (h : t ≠ a) :
    (s.writePte (t, i) v).kfreed a = (s.kfreed a).writePte (t, i) v := by
  have hmem := setWord_update_comm s.mem i v (Page.fill 1) h
  simp only [setWord] at hmem
  simp only [Kernel.kfreed, Kernel.writePte, hmem]

section

variable {s' : Kernel} {b : ℕ}

/-- **An entry is cleared.** -/
theorem Inv.clear (h : Inv N g s) (s' : Kernel) (hr : g.own r = .root) (hk : UserKey k)
    (hb : g.own b = .low r k.1 k.2.1) (hmem : s'.mem = setWord s.mem b k.2.2 0#64)
    (hfree : s'.freelist = s.freelist) (hframes : FramesShrink s s')
    (hgone : ∀ i, (s'.frames i).inUse = true → g.own (kernbase + i * 4096) ≠ .user r k)
    (hkept : ∀ a r' k', g.own a = .user r' k' → ¬ EntryAt r k r' k' →
      FrameKept (s.frames (frameIndex a)) (s'.frames (frameIndex a)))
    (hhand : s'.clockHand = s.clockHand) (hinUse : ∀ n, s'.swapInUse n
      = if Swapped (leaf s.mem r k) ∧ swapIdx (leaf s.mem r k) = n then false else s.swapInUse n)
    (hstore : s'.swapStore = s.swapStore) (hprocs : ∀ p, SameProc (s.procs p) (s'.procs p))
    (hmy : s'.myproc = s.myproc) (hkend : s'.kend = s.kend)
    (htr : s'.trampolinePa = s.trampolinePa) :
    Inv N (g.assign r k 0#64) s' ∧
      Background (EntryAt r k) (EntryAt r k) NoEntry NoPage g (g.assign r k 0#64) s s' ∧
      leaf s'.mem r k = 0#64 := by
  have hassign : Assignable g r k 0#64 := ⟨hr, hk, Or.inl rfl, fun hv => absurd hv not_valid_zero,
    fun hs => absurd hs not_swapped_zero, fun _ hs => absurd hs not_swapped_zero⟩
  have hzero : leaf s'.mem r k = 0#64 := by
    rw [hmem]
    exact h.layout.tables.leaf_write_self hb k.2.2 _
  refine ⟨h.assign hassign (fun hv => absurd hv not_valid_zero) hb (fun _ _ => by rw [hmem]) hfree
    hkend (fun ho n => ?_) hframes hgone (by rw [hhand]; exact h.frameTable.hand)
    fun p => ⟨(hprocs p).pagetable, (hprocs p).trapframe⟩,
    .mono (.track (.assign h hassign hb (fun _ _ => by rw [hmem]) hkept hstore hprocs hmy hkend htr)
      fun r' k' _ he => by rw [he.1, he.2]; exact tracked_of_zero hzero)
      (fun _ _ h => h) (fun _ _ h => h) (fun _ _ h => h) fun x _ hx => absurd hx.1 not_valid_zero,
    hzero⟩
  rw [hinUse n, h.entries.inUse_assign ho hr hk not_swapped_zero n]

/-- The branch of `uvmunmap` for a resident page. -/
theorem Inv.unmapResident (h : Inv N g s) (hr : g.own r = .root) (hk : UserKey k)
    (hb : g.own b = .low r k.1 k.2.1) (hm : MapsTo (leaf s.mem r k) a) :
    ∃ g', Inv N g' ((s.kfreed a).writePte (b, k.2.2) 0#64) ∧
      Background (EntryAt r k) (EntryAt r k) NoEntry NoPage g g' s
        ((s.kfreed a).writePte (b, k.2.2) 0#64) ∧
      leaf ((s.kfreed a).writePte (b, k.2.2) 0#64).mem r k = 0#64 := by
  have ha : g.own a = .user r k := by
    have := h.entries.page r k hr hk hm.valid
    rwa [hm.pa] at this
  have hman := h.managed ha (by simp)
  have hba : b ≠ a := ne_of_own hb ha (by simp)
  have hgone : ∀ i, (clearFrame a s.frames i).inUse = true →
      g.own (kernbase + i * 4096) ≠ .user r k := fun i hi hown => by
    have hia : kernbase + i * 4096 = a := by
      rw [← hm.pa, (h.entries.user _ _ _ hown).2.2.pa]
    obtain ⟨-, -, -, hlt, -⟩ := h.frameTable.tracked i (by rw [← clearFrame_of_inUse hi]; exact hi)
    rw [← hia, clearFrame_kernbase hlt, update_self] at hi
    cases hi
  -- the frame is given up and the entry cleared first; freeing the page comes last
  obtain ⟨h₁, hback, hleaf⟩ := h.clear
    { s.writePte (b, k.2.2) 0#64 with frames := clearFrame a s.frames } hr hk hb rfl rfl
    (framesShrink_clearFrame rfl) hgone
    (fun x r' k' hx hne => frameKept_clearFrame h.layout.kend hman
      (h.managed hx (by simp)) fun he =>
      hne ((Use.user.inj (hx.symm.trans (he ▸ ha))))) rfl
    (fun n => by rw [if_neg fun hn => hn.1.not_valid hm.valid]; rfl)
    rfl (fun _ => SameProc.refl _) rfl rfl rfl
  have hf := h₁.kfreed (own_assign_freed ha not_valid_zero) hman
  have heq : ({ s.writePte (b, k.2.2) 0#64 with frames := clearFrame a s.frames } : Kernel).kfreed a
      = (s.kfreed a).writePte (b, k.2.2) 0#64 := by
    rw [← kfreed_writePte s k.2.2 0#64 hba]
    simp only [Kernel.kfreed, Kernel.writePte, clearFrame_idem]
  rw [heq] at hf
  refine ⟨_, hf.inv, hback.trans (hf.background.weaken) ?_, ?_⟩
  · rintro x hx (hor | rfl)
    · exact hor
    · rw [ha] at hx
      cases hx
  · rw [hf.leaf r k (hback.own_root hr), hleaf]

/-- The user page of an entry is written. -/
theorem Inv.writeUser (h : Inv N g s) (ha : g.own a = .user r k) (pg : Page) :
    Inv N g (s.setPage a pg) ∧
      Background NoEntry (EntryAt r k) NoEntry NoPage g g s (s.setPage a pg) ∧
      logicalPage (s.setPage a pg) r k = pg := by
  have hother : ∀ {x : ℕ} {u : Use}, g.own x = u → u ≠ .user r k →
      (s.setPage a pg).mem x = s.mem x := fun hx hu =>
    update_of_ne (ne_of_own hx ha hu) _ _
  have htab : ∀ x, (g.own x).isTable → (s.setPage a pg).mem x = s.mem x := fun x hx =>
    hother rfl fun he => by rw [he] at hx; cases hx
  have hleaf : ∀ r' k', g.own r' = .root → leaf (s.setPage a pg).mem r' k' = leaf s.mem r' k' :=
    fun r' k' hr' => leaf_congr h.layout.tables hr' htab k'
  obtain ⟨hr, hk, hm⟩ := h.entries.user a r k ha
  refine ⟨h.frame htab rfl rfl rfl (FramesShrink.refl s) h.frameTable.hand fun _ => ⟨rfl, rfl⟩,
    ⟨rfl, fun _ _ => rfl, fun _ hx => hx, fun x _ hx => ⟨hx, hother hx (by simp)⟩,
    fun x p hx => ⟨hx, hother hx (by simp)⟩, fun r' k' hr' _ => ?_, fun _ r' k' hr' hk' hZ => ?_,
    fun r' k' hr' _ _ ht => ht.step (by rw [hleaf r' k' hr']; exact Evolves.refl _)
      (fun _ _ => FrameKept.refl _) fun _ hp => hp, fun _ => SameProc.refl _, rfl, rfl, rfl⟩, ?_⟩
  · rw [hleaf r' k' hr']
    exact Evolves.refl _
  · refine logicalPage_congr (hleaf r' k' hr')
      (fun hv => hother (h.entries.page r' k' hr' hk' hv) ?_)
      fun _ => rfl
    exact fun he => hZ (Use.user.inj he)
  · rw [logicalPage_of_valid (a := a) (by rw [hleaf r k hr]; exact hm)]
    exact update_self _ _ _

end

/-- A well-formed entry is zero if it is neither valid nor swapped. -/
theorem Inv.leaf_eq_zero (h : Inv N g s) (hr : g.own r = .root) (hk : UserKey k)
    (hv : ¬ Valid (leaf s.mem r k)) (hs : ¬ Swapped (leaf s.mem r k)) : leaf s.mem r k = 0#64 := by
  rcases h.entries.wf r k hr hk with h0 | ⟨hv', -⟩ | hs'
  · exact h0
  · exact absurd hv' hv
  · exact absurd hs' hs

/-- **One iteration of `uvmunmap`** on user memory. -/
theorem uvmunmapPage_spec (h : Inv N g s) (hr : g.own r = .root) (hva : va < trapframe) :
    wp (uvmunmapPage r true va) (fun _ s' => ∃ g', Inv N g' s' ∧
      Background (EntryAt r (vkey va)) (EntryAt r (vkey va)) NoEntry NoPage g g' s s' ∧
      leaf s'.mem r (vkey va) = 0#64) E s := by
  have hk := userKey_vkey hva
  have hva' : va < maxva := by
    simp only [trapframe_eq, maxva_eq] at hva ⊢
    omega
  have hdone : leaf s.mem r (vkey va) = 0#64 → ∃ g', Inv N g' s ∧
      Background (EntryAt r (vkey va)) (EntryAt r (vkey va)) NoEntry NoPage g g' s s ∧
      leaf s.mem r (vkey va) = 0#64 := fun h0 =>
    ⟨g, h, Background.refl h, h0⟩
  rw [uvmunmapPage, wp_bind, wp_walk_none hva']
  cases hlow : lowPage s.mem r (vkey va).1 (vkey va).2.1 with
  | none => exact hdone (leaf_of_lowPage_none hlow)
  | some b =>
    have hb := (h.layout.tables.lowPage_eq_some hr).mp hlow
    have hread := readPte_low hlow
    simp only [Option.map_some, wp_bind, wp_get, hread, valid_iff, has_pteSwapped]
    by_cases hv : Valid (leaf s.mem r (vkey va))
    · have hm := h.mapsTo hr hk hv
      have hman := h.managed (h.entries.page r _ hr hk hv) (by simp)
      rw [if_pos hv]
      simp only [if_true, wp_bind, wp_kfree hman, wp_modify]
      exact h.unmapResident hr hk hb hm
    · rw [if_neg hv]
      by_cases h8 : (leaf s.mem r (vkey va)).getLsbD 8 = true
      · have hs : Swapped (leaf s.mem r (vkey va)) := ⟨by simpa [Valid] using hv, h8⟩
        have hrange := h.entries.range r _ hr hk hs
        rw [if_pos h8, wp_bind, swapFree, wp_bind, wp_get, if_pos hrange, wp_set, wp_modify]
        have hinUse : ∀ n, update s.swapInUse (swapIdx (leaf s.mem r (vkey va))) false n
            = if Swapped (leaf s.mem r (vkey va)) ∧ swapIdx (leaf s.mem r (vkey va)) = n then false
              else s.swapInUse n := fun n => by
          by_cases hn : n = swapIdx (leaf s.mem r (vkey va))
          · rw [hn, update_self, if_pos ⟨hs, rfl⟩]
          · rw [update_of_ne hn, if_neg fun he => hn he.2.symm]
        exact ⟨_, h.clear _ hr hk hb rfl rfl (FramesShrink.refl s)
          (fun i _ hi => hv (h.entries.user _ _ _ hi).2.2.valid) (fun _ _ _ _ _ => FrameKept.refl _)
          rfl hinUse rfl
          (fun _ => SameProc.refl _) rfl rfl rfl⟩
      · rw [if_neg h8, wp_pure]
        exact hdone (h.leaf_eq_zero hr hk hv fun hs => h8 hs.2)

end Mem

end Xv6
