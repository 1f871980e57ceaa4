import Xv6.Mem.Transparency

/-!
# Page faults at arbitrary addresses

The page-fault branch of `usertrap` hands the faulting address to `walk` before anything has looked
at it, and `walk` panics at and above `MAXVA`. Below `MAXVA` the branch always comes to an end: the
page is there, or the process is marked killed.

Nothing is assumed here about the process or about what its page table says: any size, any entries.
Only the table pages that the walk goes through have to be pages of a table, different from each
other and from the free pages, and there are free pages enough for a page and two tables.

## Main results

* `pageFault_returns_iff` — the branch comes to an end exactly for addresses below `MAXVA`
* `pageFault_counterexample` — the first address beyond
-/

namespace Xv6

namespace Mem

open WeakestPre
open Function (update update_of_ne update_self)

variable {E : Halt → Kernel → Prop} {a p pa : ℕ} {rest : List ℕ}

/-- The table pages on the way to entry `k` of the table `r` are different pages, and none of them
is free. -/
structure Walkable (s : Kernel) (r : ℕ) (k : Key) : Prop where
  root : r ∉ s.freelist
  mid : ∀ m, child (s.mem r k.1) = some m → m ∉ s.freelist ∧ m ≠ r
  low : ∀ m b, child (s.mem r k.1) = some m → child (s.mem m k.2.1) = some b →
    b ∉ s.freelist ∧ b ≠ r ∧ b ≠ m

/-- There are at least `n` free pages. -/
structure FreePages (s : Kernel) (n : ℕ) : Prop where
  count : n ≤ s.freelist.length
  nodup : s.freelist.Nodup
  managed : ∀ a ∈ s.freelist, Managed s.kend a
  kend : kernbase ≤ s.kend

section

variable {s s' : Kernel} {r va n : ℕ} {k : Key}

theorem FreePages.mono {m : ℕ} (h : FreePages s n) (hm : m ≤ n) : FreePages s m :=
  ⟨hm.trans h.count, h.nodup, h.managed, h.kend⟩

theorem FreePages.ne_zero (h : FreePages s n) (ha : a ∈ s.freelist) : a ≠ 0 := by
  have := (h.managed a ha).2.1
  have := h.kend
  simp only [kernbase_eq] at this
  omega

/-- The free list has a first page. -/
theorem FreePages.exists_cons (h : FreePages s (n + 1)) : ∃ a rest, s.freelist = a :: rest := by
  cases hl : s.freelist with
  | nil =>
    have := h.count
    rw [hl, List.length_nil] at this
    omega
  | cons a rest => exact ⟨a, rest, rfl⟩

/-- What remains when the first page is taken. -/
theorem FreePages.tail (h : FreePages s (n + 1)) (hl : s.freelist = a :: rest)
    (hl' : s'.freelist = rest) (hkend : s'.kend = s.kend) : FreePages s' n := by
  have hc := h.count
  have hn := h.nodup
  have hm := h.managed
  rw [hl] at hc hn hm
  refine ⟨?_, ?_, fun x hx => ?_, by rw [hkend]; exact h.kend⟩
  · rw [hl']
    simpa using hc
  · rw [hl']
    exact hn.of_cons
  · rw [hl'] at hx
    rw [hkend]
    exact hm x (List.mem_cons_of_mem _ hx)

theorem wp_kalloc_cons (hl : s.freelist = a :: rest) {Q : ℕ → Kernel → Prop} : wp kalloc Q E s ↔
      Q a { s with freelist := rest, mem := update s.mem a (Page.fill 5) } := by
  simp only [kalloc, kallocN, wp_bind, wp_get, hl, wp_set, wp_pure]

/-- One level of `walk` with allocation: the table is there, or the first free page becomes one. -/
structure Level (s s' : Kernel) (t : ℕ) (i : Fin 512) (m : ℕ) : Prop where
  child : child (s'.mem t i) = some m
  procs : s'.procs = s.procs
  kend : s'.kend = s.kend
  myproc : s'.myproc = s.myproc
  cases : s' = s ∨ (m ∈ s.freelist ∧ m ∉ s'.freelist ∧ s'.freelist ⊆ s.freelist ∧
    s'.mem m = Page.zero ∧ Mem.child (s.mem t i) = none ∧ ∀ x, x ≠ t → x ≠ m → s'.mem x = s.mem x)

theorem walkLevel_free {level t : ℕ} (hf : FreePages s (n + 1))
    (ht : t ∉ s.freelist) : wp (walkLevel (some kalloc) level va t)
      (fun o s' => ∃ m, o = some m ∧ FreePages s' n ∧ Level s s' t (px level va) m) E s := by
  rw [walkLevel, wp_bind, wp_get]
  by_cases hv : has (s.readPte (t, px level va)) pteV = true
  · rw [if_pos hv, wp_pure]
    exact ⟨_, rfl, hf.mono (Nat.le_succ n), if_pos hv, rfl, rfl, rfl, Or.inl rfl⟩
  · obtain ⟨a, rest, hl⟩ := hf.exists_cons
    have ha : a ∈ s.freelist := by rw [hl]; exact List.mem_cons_self
    have hta : t ≠ a := fun h => ht (h ▸ ha)
    have hn := hf.nodup
    rw [hl, List.nodup_cons] at hn
    rw [if_neg hv]
    simp only [wp_bind, wp_kalloc_cons hl, if_neg (hf.ne_zero ha), wp_modify, wp_pure]
    refine ⟨a, rfl, hf.tail hl rfl rfl, ?_, rfl, rfl, rfl, Or.inr ⟨ha, hn.1, ?_, ?_, if_neg hv, ?_⟩⟩
    · simp only [Kernel.writePte, Kernel.setPage, update_self]
      exact child_tablePte (hf.managed a ha).pageAddr
    · rw [hl]
      exact List.subset_cons_self _ _
    · simp only [Kernel.writePte, Kernel.setPage, update_of_ne hta.symm,
        update_self]
    · intro x hxt hxa
      simp only [Kernel.writePte, Kernel.setPage, update_of_ne hxt,
        update_of_ne hxa]

/-- **`walk` with allocation** finds an entry that says what the entry said before. -/
theorem walkAlloc_free (hf : FreePages s 2) (hw : Walkable s r (vkey va))
    (hva : va < maxva) : wp (walk (some kalloc) r va) (fun o s' => ∃ b,
      o = some (b, (vkey va).2.2) ∧ lowPage s'.mem r (vkey va).1 (vkey va).2.1 = some b ∧
      Walkable s' r (vkey va) ∧ leaf s'.mem r (vkey va) = leaf s.mem r (vkey va) ∧
      s'.procs = s.procs) E s := by
  rw [walk, if_neg (not_le.mpr hva)]
  refine wp_call (walkLevel_free hf hw.root) fun o s₁ h₁ => ?_
  obtain ⟨m, rfl, hf₁, h₁⟩ := h₁
  have hi : px 2 va = (vkey va).1 := rfl
  have hj : px 1 va = (vkey va).2.1 := rfl
  have hl : px 0 va = (vkey va).2.2 := rfl
  rw [hi] at h₁
  generalize vkey va = k at *
  -- the table page of the middle level, and what is below it
  have hroot : r ∉ s₁.freelist := by
    rcases h₁.cases with rfl | ⟨-, -, hsub, -⟩
    · exact hw.root
    · exact fun h => hw.root (hsub h)
  have hm : m ∉ s₁.freelist ∧ m ≠ r := by
    rcases h₁.cases with rfl | ⟨hmem, hnot, -⟩
    · exact hw.mid m h₁.child
    · exact ⟨hnot, fun h => hw.root (h ▸ hmem)⟩
  have hbelow : ∀ b, child (s₁.mem m k.2.1) = some b → s₁ = s := fun b hb => by
    rcases h₁.cases with rfl | ⟨-, -, -, hzero, -⟩
    · rfl
    · have hnone : child (Page.zero k.2.1) = none := child_zero
      rw [hzero, hnone] at hb
      cases hb
  refine wp_call (walkLevel_free hf₁ hm.1) fun o s₂ h₂ => ?_
  obtain ⟨b, rfl, -, h₂⟩ := h₂
  rw [hj] at h₂
  refine ⟨b, by rw [hl], ?_⟩
  have hchild : child (s₂.mem r k.1) = some m := by
    rcases h₂.cases with rfl | ⟨hmem, -, -, -, -, hsame⟩
    · exact h₁.child
    · rw [hsame r hm.2.symm fun h => hroot (h ▸ hmem), h₁.child]
  have hlow : lowPage s₂.mem r k.1 k.2.1 = some b := by
    rw [lowPage, hchild, Option.bind_some, h₂.child]
  have hleaf : leaf s₂.mem r k = s₂.mem b k.2.2 := by rw [leaf, hlow]
  rcases h₂.cases with rfl | ⟨hmem, hnot, hsub, hzero, hnone, hsame⟩
  · obtain rfl := hbelow b h₂.child
    exact ⟨hlow, hw, rfl, rfl⟩
  · refine ⟨hlow, ⟨fun h => hroot (hsub h), fun m' hm' => ?_, fun m' b' hm' hb' => ?_⟩, ?_,
      h₂.procs.trans h₁.procs⟩
    · obtain rfl : m = m' := Option.some.inj (hchild.symm.trans hm')
      exact ⟨fun h => hm.1 (hsub h), hm.2⟩
    · obtain rfl : m = m' := Option.some.inj (hchild.symm.trans hm')
      obtain rfl : b = b' := Option.some.inj (h₂.child.symm.trans hb')
      exact ⟨hnot, fun h => hroot (h ▸ hmem), fun h => hm.1 (h ▸ hmem)⟩
    · have hbefore : lowPage s.mem r k.1 k.2.1 = none := by
        rcases h₁.cases with rfl | ⟨-, -, -, -, hnone₁, -⟩
        · rw [lowPage, h₁.child, Option.bind_some, hnone]
        · rw [lowPage, hnone₁, Option.bind_none]
      rw [hleaf, hzero, leaf, hbefore]
      rfl

/-- An entry is written. -/
theorem leaf_writePte {b : ℕ} (hw : Walkable s r k) (hlow : lowPage s.mem r k.1 k.2.1 = some b)
    (v : Pte) : leaf (s.writePte (b, k.2.2) v).mem r k = v := by
  obtain ⟨m, hm, hb⟩ := Option.bind_eq_some_iff.mp hlow
  obtain ⟨-, hbr, hbm⟩ := hw.low m b hm hb
  have hlow' : lowPage (s.writePte (b, k.2.2) v).mem r k.1 k.2.1 = some b := by
    simp only [lowPage, Kernel.writePte, update_of_ne hbr.symm, hm, Option.bind_some,
      update_of_ne hbm.symm, hb]
  rw [leaf, hlow']
  simp only [Kernel.writePte, update_self]

/-- A free page is taken: the walk stays as it is. -/
theorem Walkable.take (hw : Walkable s r k) (s' : Kernel) (hl : s.freelist = a :: rest)
    (hl' : s'.freelist = rest) (hmem : ∀ x, x ≠ a → s'.mem x = s.mem x) :
    Walkable s' r k ∧ lowPage s'.mem r k.1 k.2.1 = lowPage s.mem r k.1 k.2.1 ∧
      leaf s'.mem r k = leaf s.mem r k := by
  have hne : ∀ x, x ∉ s.freelist → x ≠ a ∧ x ∉ s'.freelist := fun x hx => by
    rw [hl, List.mem_cons, not_or] at hx
    exact ⟨hx.1, by rw [hl']; exact hx.2⟩
  have hroot : s'.mem r = s.mem r := hmem r (hne r hw.root).1
  have hmid : ∀ m, child (s.mem r k.1) = some m → s'.mem m = s.mem m := fun m hm =>
    hmem m (hne m (hw.mid m hm).1).1
  have hlow : lowPage s'.mem r k.1 k.2.1 = lowPage s.mem r k.1 k.2.1 := by
    rw [lowPage, lowPage, hroot]
    cases hm : child (s.mem r k.1) with
    | none => rfl
    | some m => rw [Option.bind_some, Option.bind_some, hmid m hm]
  refine ⟨⟨(hne r hw.root).2, fun m hm => ?_, fun m b hm hb => ?_⟩, hlow, ?_⟩
  · rw [hroot] at hm
    exact ⟨(hne m (hw.mid m hm).1).2, (hw.mid m hm).2⟩
  · rw [hroot] at hm
    rw [hmid m hm] at hb
    have h := hw.low m b hm hb
    exact ⟨(hne b h.1).2, h.2⟩
  · rw [leaf, leaf, hlow]
    cases hb : lowPage s.mem r k.1 k.2.1 with
    | none => rfl
    | some b =>
      obtain ⟨m, hm, hmb⟩ := Option.bind_eq_some_iff.mp hb
      simp only [hmem b (hne b (hw.low m b hm hmb).1).1]

theorem mappages_free {perm : Pte} (hf : FreePages s 2) (hw : Walkable s r (vkey va))
    (hva : va < maxva) (hal : va % pgsize = 0) (hnv : ¬ Valid (leaf s.mem r (vkey va))) :
    wp (mappages kalloc r va pgsize pa perm) (fun ret s' => ret = 0 ∧
      Valid (leaf s'.mem r (vkey va)) ∧ s'.procs = s.procs) E s := by
  rw [mappages, if_neg (by omega), if_neg (by decide), if_neg (by decide),
    show pgsize / pgsize - 1 = 0 by decide, mappagesLoop]
  refine wp_call (walkAlloc_free hf hw hva) fun o s₁ h₁ => ?_
  obtain ⟨b, rfl, hlow, hw₁, hleaf, hprocs⟩ := h₁
  simp only [wp_bind, wp_get, readPte_low hlow, hleaf, if_neg (mt valid_iff.mp hnv),
    wp_modify, wp_pure]
  refine ⟨trivial, ?_, hprocs⟩
  rw [leaf_writePte hw₁ hlow]
  exact valid_mapPte _ _

theorem wp_trackFrame_mem {o : Option ℕ} :
    wp (trackFrame o va pa) (fun _ s' => s'.mem = s.mem) E s := by
  simp only [trackFrame, wp_bind, wp_get, wp_ite, wp_pure, wp_set]
  refine ⟨fun _ => trivial, fun _ => ⟨fun _ => trivial, fun _ => ?_⟩⟩
  split
  · exact Kernel.modProc_mem _ _ _
  · rfl

/-- **`vmfault`** comes back, and with a page only when the page is mapped. -/
theorem vmfault_free (hmy : s.myproc = some p) (hf : FreePages s 3) (hw : Walkable s r (vkey va))
    (hva : va < maxva) :
    wp (vmfault kalloc r va) (fun pa s' => pa ≠ 0 → Valid (leaf s'.mem r (vkey va))) E s := by
  have hkey := vkey_pgrounddown hva
  have hdown : pgrounddown va < maxva := (Nat.div_mul_le_self _ _).trans_lt hva
  rw [vmfault, wp_bind, wp_getMyproc hmy, wp_bind, wp_get, wp_ite]
  refine ⟨fun _ h => absurd rfl h, fun _ => ?_⟩
  rw [wp_bind, wp_ismapped hdown, hkey, wp_ite]
  refine ⟨fun _ h => absurd rfl h, fun hnv => ?_⟩
  obtain ⟨a, rest, hl⟩ := hf.exists_cons
  have ha : a ∈ s.freelist := by rw [hl]; exact List.mem_cons_self
  simp only [wp_bind, wp_kalloc_cons hl, if_neg (hf.ne_zero ha), wp_pure, wp_modify]
  generalize hs₁ : ({ s with
    freelist := rest
    mem := update s.mem a (Page.fill 5) } : Kernel).setPage a Page.zero = s₁
  have hf₁ : FreePages s₁ 2 := hf.tail hl (by rw [← hs₁]; rfl) (by rw [← hs₁]; rfl)
  obtain ⟨hw₁, -, hleaf⟩ := hw.take s₁ hl (by rw [← hs₁]; rfl) fun x hx => by
    rw [← hs₁]
    simp only [Kernel.setPage, update_of_ne hx]
  rw [← hkey] at hw₁ hleaf hnv ⊢
  refine wp_imp (mappages_free hf₁ hw₁ hdown (Nat.mul_mod_left _ _) ?_) fun ret s₂ h₂ => ?_
  · rw [hleaf]
    exact mt valid_iff.mpr hnv
  · obtain ⟨rfl, hvalid, -⟩ := h₂
    rw [if_neg (by simp), wp_bind]
    refine wp_imp wp_trackFrame_mem fun _ s₃ h₃ _ => ?_
    rw [h₃]
    exact hvalid

/-- The end of the branch: the process goes on only with its page. -/
theorem vmfault_or_kill_free (hmy : s.myproc = some p) (hf : FreePages s 3)
    (hw : Walkable s r (vkey va)) (hva : va < maxva) :
    wp (do
      let pa ← vmfault kalloc r va
      if pa ≠ 0 then pure () else setkilled p)
      (fun _ s' => (s'.procs p).killed = true ∨ Valid (leaf s'.mem r (vkey va))) E s := by
  refine wp_call (vmfault_free hmy hf hw hva) fun pa s₁ h₁ => wp_ite.mpr ⟨fun h => Or.inr (h₁ h),
    fun _ => Or.inl ?_⟩
  simp [Kernel.modProc]

/-- **The page-fault branch of `usertrap`**, below `MAXVA`. -/
theorem pageFault_free (hmy : s.myproc = some p) (hr : (s.procs p).pagetable = r)
    (hf : FreePages s 3) (hw : Walkable s r (vkey va)) (hva : va < maxva) : wp (pageFault kalloc va)
      (fun _ s' => (s'.procs p).killed = true ∨ Valid (leaf s'.mem r (vkey va))) E s := by
  have hkey := vkey_pgrounddown hva
  have hdown : pgrounddown va < maxva := (Nat.div_mul_le_self _ _).trans_lt hva
  rw [pageFault, wp_bind, wp_getMyproc hmy, wp_bind, wp_modify, wp_bind, wp_get]
  -- the count of faults changes nothing that the rest reads
  generalize hs₀ : s.modProc (some p) (fun q => { q with pageFaults := q.pageFaults + 1 }) = s₀
  have hmem : s₀.mem = s.mem := by rw [← hs₀, Kernel.modProc_mem]
  have hfree : s₀.freelist = s.freelist := by rw [← hs₀, Kernel.modProc_freelist]
  have hkend : s₀.kend = s.kend := by rw [← hs₀, Kernel.modProc_kend]
  have hmy₀ : s₀.myproc = some p := by rw [← hs₀, Kernel.modProc_myproc, hmy]
  have hr₀ : (s₀.procs p).pagetable = r := by rw [← hs₀, ← hr]; simp [Kernel.modProc]
  have hf₀ : FreePages s₀ 3 := ⟨hfree ▸ hf.count, hfree ▸ hf.nodup, by
    rw [hfree, hkend]; exact hf.managed, hkend ▸ hf.kend⟩
  have hw₀ : Walkable s₀ r (vkey va) := ⟨hfree ▸ hw.root, by rw [hmem, hfree]; exact hw.mid, by
    rw [hmem, hfree]; exact hw.low⟩
  rw [hr₀, wp_bind, wp_walk_none hdown, hkey]
  cases hlow : lowPage s₀.mem r (vkey va).1 (vkey va).2.1 with
  | none =>
    rw [Option.map_none]
    exact vmfault_or_kill_free hmy₀ hf₀ hw₀ hva
  | some b =>
    simp only [Option.map_some, wp_bind, wp_get]
    rw [wp_ite]
    refine ⟨fun _ => ?_, fun _ => by rw [hr₀]; exact vmfault_or_kill_free hmy₀ hf₀ hw₀ hva⟩
    obtain ⟨a, rest, hl⟩ := hf₀.exists_cons
    have ha : a ∈ s₀.freelist := by rw [hl]; exact List.mem_cons_self
    simp only [wp_bind, wp_kalloc_cons hl, if_neg (hf₀.ne_zero ha), wp_get, wp_swapIn, wp_modify]
    refine wp_imp wp_trackFrame_mem fun _ s' hs' => Or.inr ?_
    rw [hs']
    generalize swapIdx _ = slot
    obtain ⟨hw₁, hlow₁, -⟩ := hw₀.take (Kernel.swappedIn a slot { s₀ with
        freelist := rest, mem := update s₀.mem a (Page.fill 5) }) hl
      (Kernel.modProc_freelist _ _ _) fun x hx => by
        rw [Kernel.swappedIn_mem, update_of_ne hx]
        exact update_of_ne hx _ _
    rw [leaf_writePte hw₁ (hlow₁.trans hlow), usertrapPte_eq]
    exact valid_mapPte _ _

end

/-! ### Every address -/

/-- The process is killed, or its page is there. -/
def Handled (s' : Kernel) (p r : ℕ) (k : Key) : Prop :=
  (s'.procs p).killed = true ∨ Valid (leaf s'.mem r k)

theorem pageFault_beyond {s : Kernel} {va : ℕ} (hmy : s.myproc = some p) (hva : maxva ≤ va) :
    ∃ s', pageFault kalloc va s = .error (.panic "walk") s' := by
  have hdown : pgrounddown va ≥ maxva := by
    simp only [pgrounddown, pgsize_eq, maxva_eq] at hva ⊢
    omega
  have h : wp (pageFault kalloc va) (fun _ _ => False) (fun e _ => e = .panic "walk") s := by
    rw [pageFault, wp_bind, wp_getMyproc hmy, wp_bind, wp_modify, wp_bind, wp_get, wp_bind, walk,
      if_pos hdown, wp_throw]
  cases hm : pageFault kalloc va s with
  | ok a s' => exact (wp_ok h hm).elim
  | error e s' => exact ⟨s', by rw [wp_error h hm]⟩

/-- **The page-fault branch of `usertrap` comes to an end exactly for addresses below `MAXVA`.**
With three free pages that holds whatever the size of the process and the entries of its table are;
in a coherent state it holds however few pages are free, as long as there is something to evict and
a slot to put it. -/
theorem pageFault_returns_iff {s : Kernel} {p : ℕ} (hmy : s.myproc = some p) (stval : BitVec 64) :
    (FreePages s 3 → Walkable s (s.procs p).pagetable (vkey stval.toNat) →
      ((∃ s', pageFault kalloc stval.toNat s = .ok () s' ∧
        Handled s' p (s.procs p).pagetable (vkey stval.toNat)) ↔ stval.toNat < maxva)) ∧
    (Coherent s → (s.procs p).used = true →
      (wp (pageFault kalloc stval.toNat)
        (fun _ s' => Handled s' p (s.procs p).pagetable (vkey stval.toNat)) (Exhausted NoTable) s ↔
          stval.toNat < maxva)) := by
  refine ⟨fun hf hw => ⟨fun hret => ?_, fun hva => ?_⟩,
    fun hc hused => ⟨fun hwp => ?_, fun hva => ?_⟩⟩
  · obtain ⟨s', hok, -⟩ := hret
    refine not_le.mp fun hge => ?_
    obtain ⟨s'', herr⟩ := pageFault_beyond hmy hge
    rw [herr] at hok
    cases hok
  · have h : wp (pageFault kalloc stval.toNat)
        (fun _ s' => Handled s' p (s.procs p).pagetable (vkey stval.toNat)) (fun _ _ => False) s :=
      pageFault_free hmy rfl hf hw hva
    cases hm : pageFault kalloc stval.toNat s with
    | ok a s' =>
      have hq := wp_ok h hm
      exact ⟨s', rfl, hq⟩
    | error e s' => exact (wp_error h hm).elim
  · refine not_le.mp fun hge => ?_
    obtain ⟨s', herr⟩ := pageFault_beyond hmy hge
    have hmsg := (wp_error hwp herr).1
    exact absurd hmsg (by decide)
  · obtain ⟨g, -, hinv, hs⟩ := hc
    refine wp_mono (pageFault_spec kalloc_spec hinv (hs.running hinv hused hmy)) (fun _ s' hq => ?_)
      fun e s' he => ?_
    · obtain ⟨g', s₁, -, -, ⟨rfl, -, hv⟩ | rfl⟩ := hq.outcome
      · exact Or.inr hv
      · exact Or.inl (by simp [Kernel.kill, Kernel.modProc])
    · exact he.resolve_right fun hwalk => absurd hva (not_lt.mpr hwalk.2)

/-- A machine with ten free pages; process 0 runs on it with two pages that it has not touched. -/
def faultBoot : Kernel :=
  { smallBoot 10 with
    mem := fun _ => Page.zero
    procs := fun p =>
      { (smallBoot 10).procs p with used := true, pagetable := 0x80200000, sz := 8192 }
    myproc := some 0 }

theorem pageFault_returns_iff_low : FreePages faultBoot 3 ∧
    ∃ s', pageFault kalloc (4096#64).toNat faultBoot = .ok () s' ∧
      Handled s' 0 (faultBoot.procs 0).pagetable (vkey (4096#64).toNat) := by
  have hf : FreePages faultBoot 3 := by
    refine ⟨by decide, by decide, fun a ha => ?_, by decide⟩
    obtain ⟨i, hi, rfl⟩ := List.mem_map.mp ha
    have := List.mem_range.mp hi
    simp only [Managed, phystop_eq, faultBoot, smallBoot, bootState]
    omega
  have hw : Walkable faultBoot (faultBoot.procs 0).pagetable (vkey (4096#64).toNat) := by
    have hnone :
        child (faultBoot.mem (faultBoot.procs 0).pagetable (vkey (4096#64).toNat).1) = none := by
      decide
    refine ⟨by decide, fun m hm => ?_, fun m b hm => ?_⟩ <;> rw [hnone] at hm <;> cases hm
  exact ⟨hf, ((pageFault_returns_iff (p := 0) rfl 4096#64).1 hf hw).mpr (by decide)⟩

/-- A process that has just been created touches the first address that is not an address. -/
theorem pageFault_counterexample : ∃ s s',
    serve kalloc [.spawn] (smallBoot 10) = .ok [.proc (some 0)] s ∧
    pageFault kalloc (0x4000000000#64).toNat { s with myproc := some 0 } =
      .error (.panic "walk") s' := by
  obtain ⟨os, s, hs, rfl⟩ : ∃ os s, serve kalloc [.spawn] (smallBoot 10) = .ok os s ∧
      os = [.proc (some 0)] := by
    decide +kernel
  have hva : maxva ≤ (0x4000000000#64).toNat := by decide
  obtain ⟨s', hs'⟩ := pageFault_beyond (s := { s with myproc := some 0 }) (p := 0) rfl hva
  exact ⟨s, s', hs, hs'⟩

end Mem

end Xv6
