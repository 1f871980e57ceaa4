import Xv6.Mem.Spawn

/-!
# Giving a process's memory back

`freeproc` frees the trap frame, unmaps every page of the address space, and frees the page
table with `freewalk`. Nothing is allocated, so no page of another process moves.

`freewalk` frees a table page before it clears the entry that points to it. The two steps are
taken together (`Inv.freeTable`), because between them the tree has a dangling entry. In the same
way the root is freed before the process forgets it; the proof takes the steps in the other order
(`Inv.setPagetable`, `Inv.dropRoot`).

The loop over the entries of a table page is treated once, for any invariant
(`freewalkEntries_spec`), and used for the middle pages and for the root.
-/

namespace Xv6

namespace Mem

open WeakestPre

variable {E : Halt → Kernel → Prop} {Q : Unit → Kernel → Prop} {a sz t : ℕ} {g' : Ghost}
  {i : Fin 512} {s' : Kernel}

variable {N : ℕ → ℕ → Prop}

/-! ### Freeing table pages -/

section

variable {g : Ghost} {s : Kernel}

theorem Ghost.setOwn_setOwn (g : Ghost) (a : ℕ) (u v : Use) :
    (g.setOwn a u).setOwn a v = g.setOwn a v := by
  simp [Ghost.setOwn]

/-- **A table page is freed and its entry cleared.** -/
theorem Inv.freeTable (h : Inv N g s) (hu : (g.own t).below t i = some (g.own a))
    (hzero : ∀ l, s.mem a l = 0#64) :
    Inv N (g.setOwn a .free) ((s.kfreed a).writePte (t, i) 0#64) ∧
      Keeps NoPage g (g.setOwn a .free) s ((s.kfreed a).writePte (t, i) 0#64) := by
  obtain ⟨ht, ha, hroot⟩ := isTable_of_below hu
  have hleaf : ∀ r k, g.own r = .root → leaf (setWord s.mem t i 0#64) r k = leaf s.mem r k :=
    fun r k hr => h.layout.tables.leaf_unlink hu hzero hr k
  have hman : Managed s.kend a := h.layout.managed a fun he => by rw [he] at ha; cases ha
  have h₁ : Inv N (g.setOwn a .reserved) (s.writePte (t, i) 0#64) :=
    h.relink (isLink_of_isTable ha hroot) rfl hman (h.layout.tables.unlink hu hzero) hleaf
  have hf := h₁.kfreed (Ghost.setOwn_self _ _ _) hman
  rw [kfreed_writePte s i _ (ne_of_own rfl rfl (ne_of_below hu)), Ghost.setOwn_setOwn] at hf
  have hkeeps : Keeps NoPage g (g.setOwn a .reserved) s (s.writePte (t, i) 0#64) := by
    refine ⟨rfl, fun r hr _ => ?_, fun r k hr _ => ?_, fun _ r k hr _ hk => ?_,
      fun r k hr _ _ htr => htr.step ?_ (fun _ _ => FrameKept.refl _) fun _ hp => hp⟩
    · rw [Ghost.setOwn_of_ne _ (ne_of_own hr rfl fun he => hroot he.symm)]
      exact hr
    · rw [show leaf (s.writePte (t, i) 0#64).mem r k = leaf s.mem r k from hleaf r k hr]
      exact Evolves.refl _
    · refine logicalPage_congr (hleaf r k hr) (fun hv => ?_) fun _ => rfl
      have hu := h.entries.page r k hr hk hv
      have hne : pte2pa (leaf s.mem r k) ≠ t := fun he => by
        rw [← he, hu] at ht
        cases ht
      rw [writePte_mem, setWord_of_ne i 0#64 hne]
    · rw [show leaf (s.writePte (t, i) 0#64).mem r k = leaf s.mem r k from hleaf r k hr]
      exact Evolves.refl _
  exact ⟨hf.inv, hkeeps.background hf.background (fun _ _ _ _ => id) fun _ _ _ _ => id⟩

end

/-! ### Walking the tree -/

/-- An entry for a table page passes the test of `freewalk`. -/
theorem tablePte_and_rwx : tablePte a &&& (pteR ||| pteW ||| pteX) = 0#64 := by
  refine BitVec.eq_of_getLsbD_eq fun i hi => ?_
  rw [BitVec.getLsbD_and, tablePte, BitVec.getLsbD_or]
  by_cases h10 : i < 10
  · rw [getLsbD_pa2pte h10, Bool.false_or]
    have : ∀ j < 10, (pteV.getLsbD j && (pteR ||| pteW ||| pteX).getLsbD j) = false := by decide
    rw [this i h10]
    simp
  · have : ∀ j < 64, ¬ j < 10 → (pteR ||| pteW ||| pteX).getLsbD j = false := by decide
    rw [this i hi h10, Bool.and_false]
    simp

/-- The loop over the entries of a table page `t`, for any invariant `I` that freeing the page
below an entry and clearing the entry keeps. -/
theorem freewalkEntries_spec {free : ℕ → M Unit} {I : Kernel → Prop}
    (hstep : ∀ s i, I s → s.mem t i = 0#64 ∨ ∃ a, PageAddr a ∧ s.mem t i = tablePte a ∧
      wp (free a) (fun _ s₁ => I (s₁.writePte (t, i) 0#64) ∧ s₁.mem t = s.mem t) E s)
    {is : List (Fin 512)} {s : Kernel} (h : I s) :
    wp (freewalkEntries free t is) (fun _ s' => I s' ∧ (∀ i ∈ is, s'.mem t i = 0#64) ∧
      ∀ i, s.mem t i = 0#64 → s'.mem t i = 0#64) E s := by
  induction is generalizing s with
  | nil => exact ⟨h, by simp, fun _ h0 => h0⟩
  | cons i is ih =>
    rw [freewalkEntries, wp_bind, wp_get]
    have hread : s.readPte (t, i) = s.mem t i := rfl
    rcases hstep s i h with h0 | ⟨a, ha, he, hfree⟩
    · rw [if_neg (by rw [hread, h0]; decide), if_neg (by rw [hread, h0]; decide)]
      refine wp_imp (ih h) fun _ s' hl => ?_
      obtain ⟨hI, hall, hkeep⟩ := hl
      refine ⟨hI, fun j hj => ?_, hkeep⟩
      rcases List.mem_cons.mp hj with rfl | hj
      · exact hkeep j h0
      · exact hall j hj
    · have hm := mapsTo_tablePte ha
      rw [if_pos (by rw [hread, he]; exact ⟨valid_iff.mpr hm.valid, tablePte_and_rwx⟩),
        hread, he, hm.pa]
      refine wp_call hfree fun _ s₁ hs₁ => ?_
      obtain ⟨hI₁, hmem⟩ := hs₁
      have hset : ∀ j, s.mem t j = 0#64 ∨ j = i → (s₁.writePte (t, i) 0#64).mem t j = 0#64 := by
        intro j hj
        by_cases hji : j = i
        · rw [hji]
          exact setWord_self _ _ _
        · rw [writePte_mem, setWord_of_index_ne _ hji, hmem]
          exact hj.resolve_right hji
      rw [wp_bind, wp_modify]
      refine wp_imp (ih hI₁) fun _ s' hl => ?_
      obtain ⟨hI, hall, hkeep⟩ := hl
      refine ⟨hI, fun j hj => ?_, fun j h0 => hkeep j (hset j (Or.inl h0))⟩
      rcases List.mem_cons.mp hj with rfl | hj
      · exact hkeep j (hset j (Or.inr rfl))
      · exact hall j hj

-- A tree is walked by its loop rule; unfolding would run through all 512 entries.
attribute [local irreducible] freewalk

/-- What freeing the tables of `r` keeps: every address space, and that of `r` stays empty. -/
structure Freeing (N : ℕ → ℕ → Prop) (g₀ g : Ghost) (s₀ s : Kernel) (r : ℕ) : Prop where
  inv : Inv N g s
  keeps : Keeps NoPage g₀ g s₀ s
  root : ∀ x, g.own x = .root → g₀.own x = .root
  empty : ∀ k, leaf s.mem r k = 0#64
  procs : s.procs = s₀.procs
  kend : s.kend = s₀.kend

section

variable {g₀ g : Ghost} {s₀ s : Kernel} {r : ℕ}

theorem Freeing.refl (h : Inv N g s) (hz : ∀ k, leaf s.mem r k = 0#64) : Freeing N g g s s r :=
  ⟨h, Keeps.refl _ _ _, fun _ h => h, hz, rfl, rfl⟩

theorem Freeing.own_root (hf : Freeing N g₀ g s₀ s r) (hr : g₀.own r = .root) : g.own r = .root :=
  hf.keeps.root r hr id

/-- One table page below `r` is freed. -/
theorem Freeing.step (hf : Freeing N g₀ g s₀ s r) (hr : g₀.own r = .root)
    (hu : (g.own t).below t i = some (g.own a)) (hzero : ∀ l, s.mem a l = 0#64) :
    Freeing N g₀ (g.setOwn a .free) s₀ ((s.kfreed a).writePte (t, i) 0#64) r := by
  obtain ⟨hinv, hkeeps⟩ := hf.inv.freeTable hu hzero
  refine ⟨hinv, hf.keeps.trans hkeeps, fun x hx => hf.root x ?_, fun k => ?_, hf.procs, hf.kend⟩
  · by_cases hxa : x = a
    · rw [hxa, Ghost.setOwn_self] at hx
      cases hx
    · rwa [Ghost.setOwn_of_ne _ hxa] at hx
  · exact hkeeps.leaf_eq_zero (hf.own_root hr) id (hf.empty k)

/-- The loop of `freewalk` visits every entry. -/
theorem freewalk_succ_spec {n : ℕ} {R : Kernel → Prop}
    (hloop : ∀ is : List (Fin 512), (∀ i, i ∈ is) →
      wp (freewalkEntries (freewalk n) t is) (fun _ s' => R s') E s)
    (hfree : ∀ s', R s' → wp (kfree t) Q E s') : wp (freewalk (n + 1) t) Q E s := by
  rw [freewalk, wp_bind]
  have hmem : ∀ i : Fin 512, i ∈ List.finRange 512 := List.mem_finRange
  generalize List.finRange 512 = is at hmem ⊢
  exact wp_imp (hloop is hmem) fun _ s' h => hfree s' h

/-- `freewalk` on a last-level page. -/
theorem wp_freewalk_low (hf : Freeing N g₀ g s₀ s r) {b : ℕ} {j : Fin 512}
    (hb : g.own b = .low r i j) (hQ : Q () (s.kfreed b)) : wp (freewalk 1 b) Q E s := by
  have hzero : ∀ l, s.mem b l = 0#64 := fun l => by
    rw [← hf.inv.layout.tables.leaf_of_low (l := l) hb, hf.empty]
  refine freewalk_succ_spec (R := fun s' => s' = s) (fun is _ => ?_) ?_
  · refine wp_imp (freewalkEntries_spec (I := fun s' => s' = s) (fun s' l hs => Or.inl ?_) rfl)
      fun _ _ hl => hl.1
    rw [hs, hzero]
  · rintro s' rfl
    rw [wp_kfree (hf.inv.managed hb (by simp))]
    exact hQ

/-- `freewalk` on a middle page: its last-level pages are freed, then the page itself. -/
theorem freewalk_mid_spec (hf : Freeing N g₀ g s₀ s r) (hr : g₀.own r = .root) {m : ℕ}
    (hm : g.own m = .mid r i) :
    wp (freewalk 2 m) (fun _ s' => ∃ g₁ s₁, Freeing N g₀ g₁ s₀ s₁ r ∧ g₁.own m = .mid r i ∧
      (∀ j, s₁.mem m j = 0#64) ∧ s₁.mem r = s.mem r ∧ s' = s₁.kfreed m) E s := by
  refine freewalk_succ_spec (R := fun s₁ => (∃ g₁, Freeing N g₀ g₁ s₀ s₁ r ∧
    g₁.own m = .mid r i ∧ s₁.mem r = s.mem r) ∧ ∀ j, s₁.mem m j = 0#64) (fun is his => ?_) ?_
  · refine wp_imp (freewalkEntries_spec (I := fun s₁ => ∃ g₁, Freeing N g₀ g₁ s₀ s₁ r ∧
      g₁.own m = .mid r i ∧ s₁.mem r = s.mem r) ?_ ⟨g, hf, hm, rfl⟩)
      fun _ s₁ hl => ⟨hl.1, fun j => hl.2.1 j (his j)⟩
    rintro s₁ j ⟨g₁, hf₁, hm₁, hmem⟩
    have hr₁ := hf₁.own_root hr
    rcases hf₁.inv.layout.tables.mid_entry m r i hm₁ j with h0 | ⟨b, hb, he⟩
    · exact Or.inl h0
    · have hmb : m ≠ b := ne_of_own hm₁ hb (by simp)
      have hrb : r ≠ b := ne_of_own hr₁ hb (by simp)
      have hzero : ∀ l, s₁.mem b l = 0#64 := fun l => by
        rw [← hf₁.inv.layout.tables.leaf_of_low (l := l) hb, hf₁.empty]
      refine Or.inr ⟨b, hf₁.inv.layout.tables.addr_low hb, he, wp_freewalk_low hf₁ hb
        ⟨⟨_, hf₁.step hr (by rw [hm₁, hb]; rfl) hzero, ?_, ?_⟩, Function.update_of_ne hmb _ _⟩⟩
      · rw [Ghost.setOwn_of_ne _ hmb, hm₁]
      · rw [writePte_mem, setWord_of_ne _ _ (ne_of_own hr₁ hm₁ (by simp)), ← hmem]
        exact Function.update_of_ne hrb _ _
  · rintro s₁ ⟨⟨g₁, hf₁, hm₁, hmem⟩, hall⟩
    rw [wp_kfree (hf₁.inv.managed hm₁ (by simp))]
    exact ⟨g₁, s₁, hf₁, hm₁, hall, hmem, rfl⟩

/-- **`freewalk`** on the root of an empty address space: all its table pages are freed, then the
root. -/
theorem freewalk_spec (h : Inv N g s) (hr : g.own r = .root) (hz : ∀ k, leaf s.mem r k = 0#64) :
    wp (freewalk 3 r) (fun _ s' => ∃ g₁ s₁, Freeing N g g₁ s s₁ r ∧
      (∀ i, s₁.mem r i = 0#64) ∧ s' = s₁.kfreed r) E s := by
  refine freewalk_succ_spec (R := fun s₁ => (∃ g₁, Freeing N g g₁ s s₁ r) ∧ ∀ i, s₁.mem r i = 0#64)
    (fun is his => ?_) ?_
  · refine wp_imp (freewalkEntries_spec (I := fun s₁ => ∃ g₁, Freeing N g g₁ s s₁ r) ?_
      ⟨g, Freeing.refl h hz⟩) fun _ s₁ hl => ⟨hl.1, fun i => hl.2.1 i (his i)⟩
    rintro s₁ i ⟨g₁, hf₁⟩
    have hr₁ := hf₁.own_root hr
    rcases hf₁.inv.layout.tables.root_entry r hr₁ i with h0 | ⟨m, hm, he⟩
    · exact Or.inl h0
    · refine Or.inr ⟨m, hf₁.inv.layout.tables.addr_mid hm, he, ?_⟩
      refine wp_imp (freewalk_mid_spec hf₁ hr hm) fun _ s' hl => ?_
      obtain ⟨g₂, s₂, hf₂, hm₂, hzero, hmem, rfl⟩ := hl
      have hrm : r ≠ m := ne_of_own (hf₂.own_root hr) hm₂ (by simp)
      refine ⟨⟨_, hf₂.step hr (by rw [hf₂.own_root hr, hm₂]; rfl) hzero⟩, ?_⟩
      rw [← hmem]
      exact Function.update_of_ne hrm _ _
  · rintro s₁ ⟨⟨g₁, hf₁⟩, hall⟩
    rw [wp_kfree (hf₁.inv.managed (hf₁.own_root hr) (by simp))]
    exact ⟨g₁, s₁, hf₁, hall, rfl⟩

end

/-! ### Unmapping the address space -/

section

variable {g : Ghost} {s : Kernel} {r : ℕ}

/-- **`uvmunmap`** of a page above user memory. -/
theorem uvmunmapTop_spec (h : Inv N g s) {va : ℕ} (hr : g.own r = .root) (hva : va < maxva)
    (hal : va % 4096 = 0) (hk : ¬ UserKey (vkey va)) :
    wp (uvmunmap r va 1 false) (fun _ s' => ∃ g', Inv N g' s' ∧
      Background (EntryAt r (vkey va)) NoEntry NoEntry NoPage g g' s s' ∧
      leaf s'.mem r (vkey va) = 0#64)
      E s := by
  rw [uvmunmap, if_neg (by simpa using hal), uvmunmapLoop, uvmunmapLoop, uvmunmapPage]
  simp only [wp_bind, wp_walk_none hva]
  cases hlow : lowPage s.mem r (vkey va).1 (vkey va).2.1 with
  | none => exact ⟨g, h, Background.refl h, leaf_of_lowPage_none hlow⟩
  | some b =>
    have hb := (h.layout.tables.lowPage_eq_some hr).mp hlow
    simp only [Option.map_some, wp_bind, wp_get, readPte_low hlow]
    rcases h.entries.top r (vkey va) hr hk with h0 | ⟨hv, h8, -⟩
    · rw [if_neg (by rw [h0]; decide), if_neg (by rw [h0]; decide)]
      exact ⟨g, h, Background.refl h, h0⟩
    · rw [if_pos (valid_iff.mpr hv)]
      obtain ⟨h', hback, hleaf⟩ := h.writeTop hk hb (Or.inl rfl)
      exact ⟨g, h', hback, hleaf⟩

/-- What unmapping pages of the address space `r` keeps. -/
structure Unmapped (N : ℕ → ℕ → Prop) (g g' : Ghost) (s s' : Kernel) (r : ℕ) : Prop where
  inv : Inv N g' s'
  keeps : Keeps (· = r) g g' s s'
  own_root : g'.own r = .root
  root : ∀ x, g'.own x = .root → g.own x = .root
  absent : ∀ k, leaf s.mem r k = 0#64 → leaf s'.mem r k = 0#64
  procs : ∀ p, SameProc (s.procs p) (s'.procs p)

theorem Unmapped.trans {g'' : Ghost} {s'' : Kernel} (hu : Unmapped N g g' s s' r)
    (hu' : Unmapped N g' g'' s' s'' r) : Unmapped N g g'' s s'' r :=
  ⟨hu'.inv, hu.keeps.trans hu'.keeps, hu'.own_root, fun x hx => hu.root x (hu'.root x hx),
    fun k h0 => hu'.absent k (hu.absent k h0), fun p => (hu.procs p).trans (hu'.procs p)⟩

/-- Entries of `r` are cleared. -/
theorem Unmapped.of_background {X Z : ℕ → Key → Prop} {Y : ℕ → Prop} (hr : g.own r = .root)
    (h' : Inv N g' s') (hb : Background X Z NoEntry Y g g' s s') (hX : ∀ r' k, X r' k → r' = r)
    (hZ : ∀ r' k, Z r' k → r' = r) (hclear : ∀ k, X r k → leaf s'.mem r k = 0#64) :
    Unmapped N g g' s s' r := by
  refine ⟨h', (Keeps.refl _ g s).background hb (fun r' k _ hne hx => hne (hX r' k hx))
    fun r' k _ hne hz => hne (hZ r' k hz), hb.own_root hr, hb.root, fun k h0 => ?_, hb.procs⟩
  by_cases hx : X r k
  · exact hclear k hx
  · rw [hb.leaf_eq hr hx (by rw [h0]; exact not_valid_zero), h0]

theorem topPage_iff {k : Key} : TopPage k ↔ k = vkey trampoline ∨ k = vkey trapframe := by
  rw [TopPage, ← addr_trampoline, ← addr_trapframe]
  exact or_congr ⟨addr_inj, congrArg _⟩ ⟨addr_inj, congrArg _⟩

/-- The user part of `uvmfree`. -/
theorem uvmunmapUser_spec (h : Inv N g s) (hr : g.own r = .root) (hsz : sz ≤ trapframe) :
    wp (if sz > 0 then uvmunmap r 0 (pgroundup sz / pgsize) true else pure ())
      (fun _ s' => ∃ g', Unmapped N g g' s s' r ∧ ∀ k : Key, k.addr < sz → leaf s'.mem r k = 0#64)
      E s := by
  have hup := pgroundup_eq hsz
  have hend : 0 + pgroundup sz / pgsize * 4096 = pgroundup sz := by
    rw [pgsize_eq]
    omega
  rw [wp_ite]
  refine ⟨fun _ => ?_, fun h0 => ?_⟩
  · rw [uvmunmap, if_neg (by simp)]
    refine wp_imp (uvmunmapLoop_spec h hr rfl (by rw [hend]; exact pgroundup_le hsz))
      fun _ s' hl => ?_
    obtain ⟨g', h', hback, hzero⟩ := hl
    refine ⟨g', .of_background hr h' hback (fun _ _ hx => hx.1) (fun _ _ hx => hx.1)
      fun k hx => hzero k hx.2.1 hx.2.2, fun k hk => hzero k (Nat.zero_le _) ?_⟩
    rw [hend]
    exact not_le.mp fun hle => not_le.mpr hk ((le_addr_iff hsz k).mpr hle)
  · exact ⟨g, ⟨h, Keeps.refl _ _ _, hr, fun _ h => h, fun _ h => h, fun _ => SameProc.refl _⟩,
      fun k hk => by omega⟩

/-- **`proc_freepagetable`** -/
theorem procFreepagetable_spec (h : Inv N g s) (hr : g.own r = .root) (hsz : sz ≤ trapframe)
    (habs : ∀ k : Key, sz ≤ k.addr → ¬ TopPage k → leaf s.mem r k = 0#64) :
    wp (procFreepagetable r sz) (fun _ s' => ∃ g₁ s₁, Unmapped N g g₁ s s₁ r ∧
      (∀ i, s₁.mem r i = 0#64) ∧ s' = s₁.kfreed r) E s := by
  rw [procFreepagetable, uvmfree]
  refine wp_call (uvmunmapTop_spec h hr (by simp) (by simp) not_userKey_trampoline)
    fun _ s₁ hl => ?_
  obtain ⟨g₁, h₁, hback₁, hzero₁⟩ := hl
  have hu₁ : Unmapped N g g₁ s s₁ r := .of_background hr h₁ hback₁ (fun _ _ hx => hx.1) NoEntry.le
    fun k hx => by rw [hx.2, hzero₁]
  refine wp_call (uvmunmapTop_spec h₁ hu₁.own_root (by simp) (by simp) not_userKey_trapframe)
    fun _ s₂ hl => ?_
  obtain ⟨g₂, h₂, hback₂, hzero₂⟩ := hl
  have hu₂ : Unmapped N g₁ g₂ s₁ s₂ r := .of_background hu₁.own_root h₂ hback₂ (fun _ _ hx => hx.1)
    NoEntry.le fun k hx => by rw [hx.2, hzero₂]
  rw [wp_ite_bind]
  refine wp_imp (uvmunmapUser_spec h₂ hu₂.own_root hsz) fun _ s₃ hl => ?_
  obtain ⟨g₃, hu₃, hzero₃⟩ := hl
  have hu := (hu₁.trans hu₂).trans hu₃
  -- every page is one of the two top pages, below the size, or was never there
  have hempty : ∀ k, leaf s₃.mem r k = 0#64 := fun k => by
    by_cases htop : TopPage k
    · rcases topPage_iff.mp htop with rfl | rfl
      · exact hu₃.absent _ (hu₂.absent _ hzero₁)
      · exact hu₃.absent _ hzero₂
    · by_cases hk : k.addr < sz
      · exact hzero₃ k hk
      · exact hu.absent k (habs k (not_lt.mp hk) htop)
  refine wp_imp (freewalk_spec hu.inv hu.own_root hempty) fun _ s' hl => ?_
  obtain ⟨g₄, s₄, hf, hzero, hs'⟩ := hl
  refine ⟨g₄, s₄, hu.trans ⟨hf.inv, hf.keeps.mono fun _ h => h.elim, hf.own_root hu.own_root,
    hf.root, fun k _ => hf.empty k, fun p => ?_⟩, hzero, hs'⟩
  rw [hf.procs]
  exact SameProc.refl _

end

/-! ### Ending a process -/

section

variable {g : Ghost} {s : Kernel} {p r : ℕ}

/-- An empty address space has no pages. -/
theorem Inv.user_ne_of_empty (h : Inv N g s) (hempty : ∀ k, leaf s.mem r k = 0#64) {x : ℕ} {k : Key}
    (ha : g.own a = .user x k) : x ≠ r := by
  rintro rfl
  obtain ⟨-, -, hm⟩ := h.entries.user a x k ha
  exact not_valid_zero (hempty k ▸ hm.valid)

/-- **An empty root that no process has goes to the kernel**; it need not be a second table any
more. -/
theorem Inv.dropRoot {N' : ℕ → ℕ → Prop} (h : Inv N g s) (hr : g.own r = .root)
    (hzero : ∀ i, s.mem r i = 0#64) (hnone : ∀ p, (s.procs p).pagetable ≠ r)
    (hN : ∀ p r', r' ≠ r → N p r' → N' p r') : Inv N' (g.setOwn r .reserved) s := by
  have hempty : ∀ k, leaf s.mem r k = 0#64 := leaf_of_zero_root (funext hzero)
  have hout : ∀ {x : ℕ} {u : Use}, (g.setOwn r .reserved).own x = u → u ≠ .reserved →
      x ≠ r ∧ g.own x = u := fun hx hu => of_own_retire hx hu
  have hin : ∀ {x : ℕ} {u : Use}, g.own x = u → u ≠ .root → (g.setOwn r .reserved).own x = u :=
    fun hx hu => own_retire hr hx hu
  have hroot : ∀ {x : ℕ}, g.own x = .root → x ≠ r → (g.setOwn r .reserved).own x = .root :=
    fun hx hne => (Ghost.setOwn_of_ne _ hne).trans hx
  have huser : ∀ {a x : ℕ} {k : Key}, g.own a = .user x k → x ≠ r := fun ha =>
    h.user_ne_of_empty hempty ha
  refine ⟨⟨h.layout.kend, h.layout.tables.removeRoot hr hzero, fun x hx => ?_, h.layout.nodup,
    fun x => ⟨fun hx => hin ((h.layout.free x).mp hx) (by simp), fun hx => ?_⟩⟩,
    ⟨fun r' k hr' hk => h.entries.wf r' k (hout hr' (by simp)).2 hk,
    fun r' k hr' hk => h.entries.top r' k (hout hr' (by simp)).2 hk,
    fun r' k hr' hk hv => hin (h.entries.page r' k (hout hr' (by simp)).2 hk hv) (by simp),
    fun a r' k ha => ?_, fun r' k hr' hk hs => h.entries.range r' k (hout hr' (by simp)).2 hk hs,
    fun ho r' k hr' hk hs => h.entries.named ho r' k (hout hr' (by simp)).2 hk hs,
    fun ho n r' k hn => ?_, h.entries.inUse⟩, ⟨h.frameTable.hand, fun i hi => ?_⟩,
    ⟨fun p hp => hroot (h.procTable.root p hp) (hnone p), h.procTable.inj,
      fun p hp => hin (h.procTable.trapframe p hp) (by simp)⟩⟩
  · exact h.layout.managed x ((hout rfl hx).2 ▸ hx)
  · exact (h.layout.free x).mpr (hout hx (by simp)).2
  · have ha' := (hout ha (by simp)).2
    obtain ⟨hr', hk, hm⟩ := h.entries.user a r' k ha'
    exact ⟨hroot hr' (huser ha'), hk, hm⟩
  · obtain ⟨hr', hk, hs, hrest⟩ := h.entries.slot ho n r' k hn
    refine ⟨hroot hr' ?_, hk, hs, hrest⟩
    rintro rfl
    exact not_swapped_zero (hempty k ▸ hs)
  · obtain ⟨p', r', hpi, hlt, hva, ht, ho⟩ := h.frameTable.tracked i hi
    exact ⟨p', r', hpi, hlt, hva, ht.imp_right (hN p' r' (huser ho)), hin ho (by simp)⟩

/-- **A process forgets its trap frame**, and the page goes to the kernel. -/
theorem Inv.dropTrapframe (h : Inv N g s) {q : Proc} (ha : (s.procs p).trapframe ≠ 0)
    (hpt : q.pagetable = (s.procs p).pagetable) (htf : q.trapframe = 0) :
    Inv N (g.setOwn (s.procs p).trapframe .reserved) (s.setProc p q) := by
  have hown := h.procTable.trapframe p ha
  refine h.retype (by rw [hown]; rfl) rfl (h.managed hown (by simp)) (fun _ _ => rfl) rfl rfl
    (FramesShrink.refl s) h.frameTable.hand (fun p' => ?_) (fun p' hp' => ?_) h.layout.nodup
    fun b => ?_
  · by_cases hp : p' = p
    · subst hp
      rw [setProc_self, hpt]
    · rw [setProc_of_ne s q hp]
  · by_cases hp : p' = p
    · subst hp
      rw [setProc_self, htf] at hp'
      exact absurd rfl hp'
    · rw [setProc_of_ne s q hp] at hp' ⊢
      have hown' := h.procTable.trapframe p' hp'
      rw [Ghost.setOwn_of_ne _ (ne_of_own hown' hown fun he => hp (Use.trapframe.inj he)), hown']
  · refine (h.layout.free b).trans ?_
    by_cases hb : b = (s.procs p).trapframe
    · subst hb
      rw [Ghost.setOwn_self, hown]
      simp
    · rw [Ghost.setOwn_of_ne _ hb]

/-- The first two statements of `freeproc`. -/
theorem freeTrapframe_spec (h : Inv N g s) (p : ℕ) :
    wp (if (s.procs p).trapframe ≠ 0 then kfree (s.procs p).trapframe else pure ())
      (fun _ s₁ => s₁.procs = s.procs ∧
        ∃ g₁, Inv N g₁ (s₁.setProc p { s₁.procs p with trapframe := 0 }) ∧
          Keeps NoPage g g₁ s (s₁.setProc p { s₁.procs p with trapframe := 0 }) ∧
          ∀ x, g₁.own x = .root → g.own x = .root) E s := by
  rw [wp_ite]
  refine ⟨fun ha => ?_, fun ha => ⟨rfl, g, ?_,
    (Keeps.refl _ g s).of_mem rfl (fun _ _ h => h) rfl rfl
    rfl fun _ _ _ _ hp' => pagetable_setProc hp' id, fun _ h => h⟩⟩
  · have hown := h.procTable.trapframe p ha
    have hman := h.managed hown (by simp)
    rw [wp_kfree hman]
    have hd := h.dropTrapframe (q := { s.procs p with trapframe := 0 }) ha rfl rfl
    have hf := hd.kfreed (Ghost.setOwn_self _ _ _) hman
    have hroot : ∀ x, (g.setOwn (s.procs p).trapframe .reserved).own x = .root ↔ g.own x = .root :=
      fun x => ⟨fun hx => (of_own_retire hx (by simp)).2, fun hx => own_retire hown hx (by simp)⟩
    have hkeeps : Keeps NoPage g (g.setOwn (s.procs p).trapframe .reserved) s
        (s.setProc p { s.procs p with trapframe := 0 }) :=
      (Keeps.refl _ g s).of_mem rfl (fun x _ hx => (hroot x).mpr hx) rfl rfl rfl
        fun _ _ _ _ hp' => pagetable_setProc hp' id
    exact ⟨rfl, _, hf.inv, hkeeps.background hf.background (fun _ _ _ _ => id) fun _ _ _ _ => id,
      fun x hx => (hroot x).mp (hf.background.root x hx)⟩
  · exact h.setProc rfl (not_not.mp ha).symm

/-- What `freeproc` gives. -/
structure Exited (N : ℕ → ℕ → Prop) (g g' : Ghost) (s s' : Kernel) (p : ℕ) : Prop where
  inv : Inv N g' s'
  settled : Settled g' s'
  keeps : Keeps (· = (s.procs p).pagetable) g g' s s'
  unused : (s'.procs p).used = false
  others : ∀ q, q ≠ p → SameProc (s.procs q) (s'.procs q)

/-- The process holds nothing any more, and the state is settled again. -/
theorem Settled.exit (hs : Settled g s) (h : Inv N g s)
    (hkeeps : Keeps (· = (s.procs p).pagetable) g g' s s')
    (hroot : ∀ x, g'.own x = .root → g.own x = .root ∧ x ≠ (s.procs p).pagetable)
    (hp : (s'.procs p).pagetable = 0 ∧ (s'.procs p).trapframe = 0 ∧ (s'.procs p).sz = 0 ∧
      (s'.procs p).used = false)
    (hothers : ∀ q, q ≠ p → SameProc (s.procs q) (s'.procs q)) : Settled g' s' := by
  obtain ⟨hpt', htf', hsz', hused'⟩ := hp
  refine hs.change hothers (fun x hx => Or.inr ((hroot x hx).imp_right Ne.symm))
    (fun q k hqp hq => hkeeps.leaf_eq_zero (h.procTable.root q hq) fun he => ?_) (by simp [hsz'])
    (fun k hq => absurd hpt' hq) (fun _ => ⟨hpt', htf', hsz'⟩) (by simp [hused'])
  exact hqp (h.procTable.inj q p hq he)

/-- **`freeproc`** -/
theorem freeproc_spec (h : Inv N g s) (hs : Settled g s) (hpt : (s.procs p).pagetable ≠ 0) :
    wp (freeproc p) (fun _ s' => ∃ g', Exited N g g' s s' p) E s := by
  obtain ⟨r, hr⟩ : ∃ r, (s.procs p).pagetable = r := ⟨_, rfl⟩
  rw [hr] at hpt
  have hroot : g.own r = .root := hr ▸ h.procTable.root p (hr ▸ hpt)
  rw [freeproc, wp_bind, wp_get, wp_ite_bind]
  refine wp_imp (freeTrapframe_spec h p) fun _ s₁ hl => ?_
  obtain ⟨hprocs₁, g₁, h₁, hkeeps₁, hroot₁⟩ := hl
  obtain ⟨q₁, hq₁⟩ : ∃ q₁ : Proc, { s.procs p with trapframe := 0 } = q₁ := ⟨_, rfl⟩
  have hpt₁ : q₁.pagetable = r := by rw [← hq₁, hr]
  have hsz₁ : q₁.sz = (s.procs p).sz := by rw [← hq₁]
  rw [hprocs₁, hq₁] at h₁ hkeeps₁
  rw [wp_bind, wp_modify, wp_bind, wp_get, modProc_some, hprocs₁, hq₁, setProc_self, hpt₁, hsz₁,
    if_pos hpt]
  have hroot' := hkeeps₁.root r hroot id
  refine wp_call (procFreepagetable_spec h₁ hroot' (hs.sz p) fun k hk htop =>
    hkeeps₁.leaf_eq_zero hroot id (hr ▸ hs.absent p k (hr ▸ hpt) hk htop)) fun _ s' hl => ?_
  obtain ⟨g₂, s₂, hu, hzero, rfl⟩ := hl
  have hp₂ := hu.procs p
  rw [setProc_self] at hp₂
  rw [wp_modify, modProc_some]
  -- the root is dropped and freed in one step
  obtain ⟨q, hq⟩ : ∃ q : Proc, { s₂.procs p with
      pagetable := 0
      sz := 0
      killed := false
      used := false } = q := ⟨_, rfl⟩
  have hq0 : q.pagetable = 0 := by rw [← hq]
  have hnone : ∀ p', ((s₂.setProc p q).procs p').pagetable ≠ r := fun p' => by
    by_cases hp' : p' = p
    · rw [hp', setProc_self, hq0]
      exact hpt.symm
    · rw [setProc_of_ne _ _ hp']
      exact fun he => hp' (hu.inv.procTable.inj p' p (he ▸ hpt)
        (he.trans (hp₂.pagetable.trans hpt₁).symm))
  have hforget : Inv N g₂ (s₂.setProc p q) := hu.inv.setPagetable (fun hne => absurd hq0 hne)
    (fun a x k ha hx => absurd (hx.symm.trans (hp₂.pagetable.trans hpt₁))
      (hu.inv.user_ne_of_empty (leaf_of_zero_root (funext hzero)) ha)) (fun _ _ => Or.inl)
    (by rw [← hq])
  have hd : Inv N (g₂.setOwn r .reserved) (s₂.setProc p q) :=
    hforget.dropRoot hu.own_root hzero hnone fun _ _ _ hn => hn
  have hf := hd.kfreed (Ghost.setOwn_self _ _ _) (hu.inv.managed hu.own_root (by simp))
  have hkeeps : Keeps (· = (s.procs p).pagetable) g ((g₂.setOwn r .reserved).setOwn r .free) s
      ((s₂.setProc p q).kfreed r) := by
    have hdrop : Keeps (· = r) g (g₂.setOwn r .reserved) s (s₂.setProc p q) :=
      ((hkeeps₁.mono fun _ h => h.elim).trans hu.keeps).of_mem rfl
        (fun x hne hx => (Ghost.setOwn_of_ne _ hne).trans hx) rfl rfl rfl fun x p' hne _ hp' =>
          pagetable_setProc hp' fun hp => absurd (hp.symm.trans (hp₂.pagetable.trans hpt₁)) hne
    rw [hr]
    exact hdrop.background hf.background (fun _ _ _ _ => id) fun _ _ _ _ => id
  have hothers : ∀ q', q' ≠ p → SameProc (s.procs q') ((s₂.setProc p q).procs q') :=
    fun q' hq' => by
      have := hu.procs q'
      rwa [setProc_of_ne _ _ hq', hprocs₁, ← setProc_of_ne s₂ q hq'] at this
  have hself : ((s₂.setProc p q).procs p).used = false := by rw [setProc_self, ← hq]
  rw [show (s₂.kfreed r).procs = s₂.procs from rfl, hq]
  refine ⟨_, hf.inv, hs.exit h hkeeps (fun x hx => ?_) ?_ hothers, hkeeps,
    hself, hothers⟩
  · obtain ⟨hne, hx⟩ := of_own_retire (hf.background.root x hx) (by simp)
    exact ⟨hroot₁ x (hu.root x hx), hr ▸ hne⟩
  · refine ⟨?_, ?_, ?_, hself⟩
    all_goals
      refine (congrArg _ (setProc_self s₂ p q)).trans ?_
      rw [← hq]
    rw [hp₂.trapframe, ← hq₁]

end

end Mem

end Xv6
