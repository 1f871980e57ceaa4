import Xv6.Mem.Logical

/-!
# Allocation and eviction

`kalloc` either takes a page from the free list or makes `evict_pages` take one from a process.
Both leave every logical page as it was: an evicted page is copied to a slot that no entry names,
and the entry then names that slot (`kalloc_spec`).

An allocation that does not return has run out of something, and the specification says of what:
`Exhausted` holds of the state in which it stopped.

## The clock

A tracked frame whose reference bit is clear is found when the hand reaches it, and one whose bit
is set is found one turn later. `need` counts the visits, and is at most `2 * NFRAME`; so the
cut-off of the loop is reached only when no frame is tracked, and then no further visit would
help.
-/

namespace Xv6

namespace Mem

open WeakestPre
open Function (update update_self update_of_ne)

variable {E : Halt → Kernel → Prop} {a i pa r va : ℕ} {frames : ℕ → Frame} {g : Ghost}
  {inUse : ℤ → Bool} {k : Key} {s : Kernel}

variable {N : ℕ → ℕ → Prop}

/-! ### Walking without allocation -/

theorem wp_walkLevel_none {level t : ℕ} {Q : Option ℕ → Kernel → Prop} :
    wp (walkLevel none level va t) Q E s ↔ Q (child (s.mem t (px level va))) s := by
  by_cases h : has (s.mem t (px level va)) pteV = true
  · simp only [walkLevel, wp_bind, wp_get, Kernel.readPte, child, h, if_true, wp_pure]
  · simp only [walkLevel, wp_bind, wp_get, Kernel.readPte, child, h, if_false, wp_pure,
      Bool.false_eq_true]

/-- **`walk(pagetable, va, 0)` only reads.** -/
theorem wp_walk_none {pagetable : ℕ} (hva : va < maxva) {Q : Option PteRef → Kernel → Prop} :
    wp (walk none pagetable va) Q E s ↔
      Q ((lowPage s.mem pagetable (vkey va).1 (vkey va).2.1).map
        fun t => (t, (vkey va).2.2)) s := by
  rw [walk, if_neg (not_le.mpr hva), wp_bind, wp_walkLevel_none, lowPage, vkey]
  cases child (s.mem pagetable (px 2 va)) with
  | none => exact wp_pure
  | some t =>
    simp only [wp_bind, wp_walkLevel_none, Option.bind_some]
    cases child (s.mem t (px 1 va)) <;> exact wp_pure

theorem readPte_low {t : ℕ} (h : lowPage s.mem r k.1 k.2.1 = some t) :
    s.readPte (t, k.2.2) = leaf s.mem r k := by
  rw [leaf, h]
  rfl

theorem leaf_of_lowPage_none {mem : ℕ → Page} (h : lowPage mem r k.1 k.2.1 = none) :
    leaf mem r k = 0#64 := by
  rw [leaf, h]

/-! ### Running out -/

/-- Why an allocation does not return: no frame is tracked, or every slot is in use. While a process
has a second table the clock may pass over the frames of that table, and may look up the frame of
a page that has none. -/
def Exhausted (N : ℕ → ℕ → Prop) : Halt → Kernel → Prop
  | .spin, s => (∀ i, (s.frames i).inUse = false) ∨ ∃ p r, N p r
  | .panic msg, s => msg = "evict_pages: swap full" ∧ ∀ n < nswapspace, s.swapInUse n = true
  | .undefined, _ => ∃ p r, N p r

theorem firstFreeSlot_eq_some {n m : ℕ} (h : firstFreeSlot inUse i n = some m) :
    m < i + n ∧ inUse m = false := by
  induction n generalizing i with
  | zero => cases h
  | succ n ih =>
    rw [firstFreeSlot] at h
    split at h
    · have := ih h
      exact ⟨by omega, this.2⟩
    · rename_i hi
      obtain rfl := Option.some.inj h
      exact ⟨by omega, by simpa using hi⟩

theorem firstFreeSlot_eq_none {n : ℕ} (h : firstFreeSlot inUse i n = none) :
    ∀ m, i ≤ m → m < i + n → inUse m = true := by
  induction n generalizing i with
  | zero =>
    intro m hi hm
    omega
  | succ n ih =>
    rw [firstFreeSlot] at h
    split at h
    · intro m hi hm
      rcases Nat.eq_or_lt_of_le hi with rfl | hlt
      · assumption
      · exact ih h m hlt (by omega)
    · cases h

/-! ### Taking a page from the free list -/

/-- What a successful allocation gives. -/
structure Allocated (N : ℕ → ℕ → Prop) (g g' : Ghost) (s s' : Kernel) (pa : ℕ) : Prop where
  inv : Inv N g' s'
  background : Background NoEntry NoEntry NoEntry NoPage g g' s s'
  /-- No table page is added. -/
  isTable : ∀ a, (g'.own a).isTable → (g.own a).isTable
  reserved : g'.own pa = .reserved
  /-- The page is filled with junk. -/
  junk : s'.mem pa = Page.fill 5
  fresh : g.own pa ≠ .reserved
  managed : Managed s.kend pa
  frames : FramesShrink s s'
  /-- An entry that changes is that of the page returned. -/
  victim : ∀ r k, g.own r = .root → UserKey k →
    leaf s'.mem r k = leaf s.mem r k ∨ g.own pa = .user r k

theorem isTable_setOwn {u : Use} (hu : u.isTable = false) (b : ℕ)
    (hb : ((g.setOwn a u).own b).isTable = true) : (g.own b).isTable = true := by
  by_cases hba : b = a
  · subst hba
    rw [Ghost.setOwn_self, hu] at hb
    cases hb
  · rwa [Ghost.setOwn_of_ne u hba] at hb

theorem Inv.pop (h : Inv N g s) {rest : List ℕ} (hf : s.freelist = a :: rest) :
    Allocated N g (g.setOwn a .reserved) s
      { s with freelist := rest, mem := update s.mem a (Page.fill 5) } a := by
  have ha : g.own a = .free := (h.layout.free a).mp (by rw [hf]; exact List.mem_cons_self)
  have hnd := h.layout.nodup
  rw [hf, List.nodup_cons] at hnd
  have hman := h.managed ha (by simp)
  have hmem : ∀ b, b ≠ a → update s.mem a (Page.fill 5) b = s.mem b := fun b hb =>
    update_of_ne hb _ _
  refine ⟨?_, ?_, isTable_setOwn rfl, Ghost.setOwn_self _ _ _, update_self _ _ _,
    by rw [ha]; simp, hman, FramesShrink.refl s, fun r k hr _ => Or.inl ?_⟩
  · refine h.retype (by rw [ha]; rfl) rfl hman hmem rfl rfl (FramesShrink.refl s)
      h.frameTable.hand (fun _ => rfl) (fun p hp => ?_) hnd.2 fun b => ?_
    · have htf := h.procTable.trapframe p hp
      rw [Ghost.setOwn_of_ne _ (ne_of_own htf ha (by simp))]
      exact htf
    · by_cases hb : b = a
      · subst hb
        rw [Ghost.setOwn_self]
        exact ⟨fun hm => absurd hm hnd.1, by simp⟩
      · rw [Ghost.setOwn_of_ne _ hb, ← h.layout.free b, hf, List.mem_cons]
        simp [hb]
  · refine .mono (.retype h (Or.inl ha) (Or.inr rfl) hmem (fun _ _ _ _ => FrameKept.refl _) rfl
      (fun _ => SameProc.refl _) rfl rfl rfl)
      (fun _ _ h => h) (fun _ _ h => h) (fun _ _ h => h) fun b hb hba => ?_
    rw [hba, ha] at hb
    cases hb
  · exact leaf_congr h.layout.tables hr
      (fun b hb => hmem b fun hba => by rw [hba, ha] at hb; cases hb) k

/-! ### Freeing -/

theorem frameIndex_kernbase (hi : i < nframe) : frameIndex (kernbase + i * 4096) = i := by
  simp only [nframe_eq] at hi
  simp only [frameIndex, kernbase_eq, pgsize_eq]
  omega

/-- The place of a page in the frame table. -/
theorem frameIndex_of_managed {kend : ℕ} (hk : kernbase ≤ kend) (h : Managed kend pa) :
    kernbase + frameIndex pa % 2 ^ 32 * 4096 = pa := by
  obtain ⟨h0, h1, h2⟩ := h
  simp only [kernbase_eq, phystop_eq] at hk h2
  simp only [frameIndex, kernbase_eq, pgsize_eq]
  omega

/-- The frame table after `kfree`. -/
def clearFrame (a : ℕ) (frames : ℕ → Frame) : ℕ → Frame :=
  if frameIndex a % 2 ^ 32 < nframe then
    update frames (frameIndex a % 2 ^ 32) (frames (frameIndex a % 2 ^ 32)).clear
  else frames

/-- The state after `kfree`. -/
def Kernel.kfreed (a : ℕ) (s : Kernel) : Kernel :=
  { s with
    frames := clearFrame a s.frames
    mem := update s.mem a (Page.fill 1)
    freelist := a :: s.freelist }

theorem wp_kfree (hman : Managed s.kend a) {Q : Unit → Kernel → Prop} :
    wp (kfree a) Q E s ↔ Q () (s.kfreed a) := by
  have hok : ¬ (a % pgsize ≠ 0 ∨ a < s.kend ∨ a ≥ phystop) := by
    obtain ⟨h0, h1, h2⟩ := hman
    simp only [pgsize_eq]
    omega
  rw [kfree, wp_bind, wp_get, if_neg hok]
  exact wp_set

/-- A tracked frame is as it was before. -/
theorem clearFrame_of_inUse
    (hi : (clearFrame a frames i).inUse = true) : clearFrame a frames i = frames i := by
  rw [clearFrame] at hi ⊢
  split at hi
  · rw [if_pos ‹_›]
    by_cases hij : i = frameIndex a % 2 ^ 32
    · subst hij
      rw [update_self] at hi
      cases hi
    · rw [update_of_ne hij]
  · rw [if_neg ‹_›]

theorem framesShrink_clearFrame {s' : Kernel} (h : s'.frames = clearFrame a s.frames) :
    FramesShrink s s' := fun i hi => by
  rw [h] at hi ⊢
  have he := clearFrame_of_inUse hi
  rw [he] at hi ⊢
  exact ⟨hi, rfl, rfl⟩

theorem clearFrame_idem (a : ℕ) (frames : ℕ → Frame) :
    clearFrame a (clearFrame a frames) = clearFrame a frames := by
  simp only [clearFrame]
  split <;> simp [Frame.clear]

theorem FramesShrink.trans {s' s'' : Kernel} (h : FramesShrink s s') (h' : FramesShrink s' s'') :
    FramesShrink s s'' := fun i hi => by
  obtain ⟨hi', hp, hv⟩ := h' i hi
  obtain ⟨hi'', hp', hv'⟩ := h i hi'
  exact ⟨hi'', hp.trans hp', hv.trans hv'⟩

theorem framesShrink_clear (i : ℕ) :
    FramesShrink s { s with frames := update s.frames i (s.frames i).clear } :=
  fun j hj => by
    by_cases hji : j = i
    · subst hji
      simp [Frame.clear] at hj
    · simpa [update_of_ne hji] using hj

/-- The frame of a page of the frame table. -/
theorem clearFrame_kernbase (hi : i < nframe) (frames : ℕ → Frame) :
    clearFrame (kernbase + i * 4096) frames = update frames i (frames i).clear := by
  have hmod : i % 2 ^ 32 = i := Nat.mod_eq_of_lt (by simp only [nframe_eq] at hi; omega)
  rw [clearFrame, frameIndex_kernbase hi, hmod, if_pos hi]

/-- The frames of other pages are kept. -/
theorem frameKept_clearFrame {kend b : ℕ} (hk : kernbase ≤ kend) (ha : Managed kend a)
    (hb : Managed kend b) (hne : b ≠ a) :
    FrameKept (frames (frameIndex b)) (clearFrame a frames (frameIndex b)) := by
  have hidx : frameIndex b ≠ frameIndex a % 2 ^ 32 := fun he => hne (by
    rw [← frameIndex_of_managed hk ha, ← frameIndex_of_managed hk hb, ← he, he, Nat.mod_mod])
  rw [clearFrame]
  split
  · rw [update_of_ne hidx]
    exact FrameKept.refl _
  · exact FrameKept.refl _

/-- What `kfree` gives for a page in the hands of the kernel. -/
structure Freed (N : ℕ → ℕ → Prop) (g g' : Ghost) (s s' : Kernel) (pa : ℕ) : Prop where
  inv : Inv N g' s'
  background : Background NoEntry NoEntry NoEntry (· = pa) g g' s s'
  isTable : ∀ a, (g'.own a).isTable → (g.own a).isTable
  free : g'.own pa = .free
  leaf : ∀ r k, g.own r = .root → leaf s'.mem r k = Mem.leaf s.mem r k

theorem Inv.kfreed (h : Inv N g s) (ha : g.own a = .reserved) (hman : Managed s.kend a) :
    Freed N g (g.setOwn a .free) s (s.kfreed a) a := by
  have hmem : ∀ b, b ≠ a → (s.kfreed a).mem b = s.mem b := fun b hb =>
    update_of_ne hb _ _
  refine ⟨?_, Background.retype h (Or.inr ha) (Or.inl rfl) hmem (fun b r k hb => ?_) rfl
    (fun _ => SameProc.refl _) rfl rfl rfl, isTable_setOwn rfl, Ghost.setOwn_self _ _ _,
    fun r k hr => ?_⟩
  · refine h.retype (by rw [ha]; rfl) rfl hman hmem rfl rfl (framesShrink_clearFrame rfl)
      h.frameTable.hand (fun _ => rfl) (fun p hp => ?_)
      (List.nodup_cons.mpr ⟨fun hm => ?_, h.layout.nodup⟩) fun b => ?_
    · have htf := h.procTable.trapframe p hp
      exact (Ghost.setOwn_of_ne _ (ne_of_own htf ha (by simp))).trans htf
    · rw [(h.layout.free a).mp hm] at ha
      cases ha
    · rw [Kernel.kfreed, List.mem_cons]
      by_cases hb : b = a
      · subst hb
        simp
      · rw [Ghost.setOwn_of_ne _ hb, ← h.layout.free b]
        simp [hb]
  · exact frameKept_clearFrame h.layout.kend hman (h.managed hb (by simp))
      (ne_of_own hb ha (by simp))
  · exact leaf_congr h.layout.tables hr
      (fun b hb => hmem b fun hba => by rw [hba, ha] at hb; cases hb) k

/-! ### Evicting a page -/

/-- A valid entry of user memory maps a page. -/
theorem Inv.mapsTo (h : Inv N g s) (hr : g.own r = .root) (hk : UserKey k)
    (hv : Valid (leaf s.mem r k)) : MapsTo (leaf s.mem r k) (pte2pa (leaf s.mem r k)) :=
  (h.entries.user _ r k (h.entries.page r k hr hk hv)).2.2

/-- A page that the clock finds through the frame `i`: the entry that maps it and its own frame `j`.
The two frames are the same unless the process has a second table. -/
structure Victim (g : Ghost) (s : Kernel) (p b i j : ℕ) (k : Key) : Prop where
  owner : (s.frames i).p = some p
  key : vkey (s.frames i).va = k
  low : g.own b = .low (s.procs p).pagetable k.1 k.2.1
  page : g.own (kernbase + j * 4096) = .user (s.procs p).pagetable k
  maps : MapsTo (leaf s.mem (s.procs p).pagetable k) (kernbase + j * 4096)
  index : j < nframe

section

variable {s' : Kernel} {j p b n : ℕ}

theorem Victim.root (ht : Victim g s p b i j k) (h : Inv N g s) :
    g.own (s.procs p).pagetable = .root := (h.entries.user _ _ _ ht.page).1

theorem Victim.assignable (ht : Victim g s p b i j k) (h : Inv N g s) (hn : n < nswapspace)
    (hfree : s.swapInUse n = false) :
    Assignable g (s.procs p).pagetable k
      (evictedPte n (leaf s.mem (s.procs p).pagetable k)) := by
  have hs := swapped_evictedPte hn (leaf s.mem (s.procs p).pagetable k)
  obtain ⟨hr, hk, -⟩ := h.entries.user _ _ _ ht.page
  refine ⟨hr, hk, Or.inr (Or.inr hs), fun hv => absurd hv hs.not_valid, fun _ => ?_,
    fun ho _ => ?_⟩ <;> rw [swapIdx_evictedPte hn]
  · exact ⟨by omega, by exact_mod_cast hn⟩
  rw [h.entries.inUse ho n] at hfree
  exact Option.not_isSome_iff_eq_none.mp (by rw [hfree]; simp)

/-- The frame of another page is neither that of the victim nor the one by which it was found, since
that one names the entry of the victim. -/
theorem Victim.tracked (ht : Victim g s p b i j k) (h : Inv N g s) (hframes : s'.frames
      = clearFrame (kernbase + j * 4096) (update s.frames i (s.frames i).clear))
    (hprocs : ∀ q, (s'.procs q).pagetable = (s.procs q).pagetable) {r' : ℕ} {k' : Key}
    (hr : g.own r' = .root) (hk : UserKey k') (hne : ¬ (r' = (s.procs p).pagetable ∧ k' = k))
    (hleaf : leaf s'.mem r' k' = leaf s.mem r' k') (htr : Tracked s r' k') : Tracked s' r' k' := by
  intro a hma hlt
  rw [hleaf] at hma
  have hown : g.own a = .user r' k' := hma.pa ▸ h.entries.page r' k' hr hk hma.valid
  have hpage := frameIndex_of_managed h.layout.kend (h.managed hown (by simp))
  obtain ⟨huse, hva, q, hq, hqt⟩ := htr a hma hlt
  have hi : frameIndex a ≠ i := fun he => by
    rw [he] at hq hva
    rw [ht.owner, Option.some.injEq] at hq
    exact hne ⟨by rw [hq, hqt], by rw [← ht.key, hva, vkey_addr]⟩
  have hj : frameIndex a ≠ j := fun he => by
    have hmod : j % 2 ^ 32 = j := Nat.mod_eq_of_lt (by
      have := ht.index
      simp only [nframe_eq] at this
      omega)
    rw [he, hmod] at hpage
    rw [← hpage, ht.page] at hown
    obtain ⟨hr', hk'⟩ := Use.user.inj hown
    exact hne ⟨hr'.symm, hk'.symm⟩
  rw [hframes, clearFrame_kernbase ht.index, update_of_ne hj, update_of_ne hi]
  exact ⟨huse, hva, q, hq, (hprocs q).trans hqt⟩

/-- **A page goes out.** Its copy is in the slot, the entry names the slot, and neither its frame
nor the one by which it was found is tracked any more. -/
theorem Victim.evict (ht : Victim g s p b i j k) (h : Inv N g s) (s' : Kernel) (hn : n < nswapspace)
    (hfree : s.swapInUse n = false) (hmem : s'.mem = setWord s.mem b k.2.2
      (evictedPte n (leaf s.mem (s.procs p).pagetable k)))
    (hlist : s'.freelist = s.freelist) (hinUse : s'.swapInUse = update s.swapInUse n true)
    (hstore : s'.swapStore = update s.swapStore n (s.mem (kernbase + j * 4096)))
    (hframes : s'.frames
      = clearFrame (kernbase + j * 4096) (update s.frames i (s.frames i).clear))
    (hhand : s'.clockHand = s.clockHand) (hprocs : ∀ q, SameProc (s.procs q) (s'.procs q))
    (hmy : s'.myproc = s.myproc) (hkend : s'.kend = s.kend)
    (htr : s'.trampolinePa = s.trampolinePa) :
    Inv N (g.assign (s.procs p).pagetable k
        (evictedPte n (leaf s.mem (s.procs p).pagetable k))) s' ∧
      Background NoEntry NoEntry NoEntry NoPage g (g.assign (s.procs p).pagetable k
        (evictedPte n (leaf s.mem (s.procs p).pagetable k))) s s' ∧
      (∀ x, ((g.assign (s.procs p).pagetable k
        (evictedPte n (leaf s.mem (s.procs p).pagetable k))).own x).isTable → (g.own x).isTable) ∧
      FramesShrink s s' ∧
      (∀ r' k', g.own r' = .root → ¬ (r' = (s.procs p).pagetable ∧ k' = k) →
        leaf s'.mem r' k' = leaf s.mem r' k') := by
  have ha := ht.assignable h hn hfree
  have hr := ht.root h
  have hs := swapped_evictedPte hn (leaf s.mem (s.procs p).pagetable k)
  have hidx := swapIdx_evictedPte hn (leaf s.mem (s.procs p).pagetable k)
  have hflags := sameFlags_evictedPte hn (leaf s.mem (s.procs p).pagetable k)
  have hnone : g.owned → g.slot n = none := fun ho => by
    have := ha.slot ho hs
    rwa [hidx] at this
  have hself : leaf s'.mem (s.procs p).pagetable k
      = evictedPte n (leaf s.mem (s.procs p).pagetable k) := by
    rw [hmem]
    exact h.layout.tables.leaf_write_self ht.low k.2.2 _
  have hother : ∀ r' k', g.own r' = .root → ¬ (r' = (s.procs p).pagetable ∧ k' = k) →
      leaf s'.mem r' k' = leaf s.mem r' k' := fun r' k' hr' hne => by
    rw [hmem]
    exact h.layout.tables.leaf_write_of_ne ht.low hr' _ hne
  have hpage : ∀ {x : ℕ} {u : Use}, g.own x = u → u.isTable = false → s'.mem x = s.mem x := by
    intro x u hx hu
    rw [hmem]
    refine setWord_of_ne _ _ (ne_of_own hx ht.low ?_)
    rintro rfl
    cases hu
  generalize hv : evictedPte n (leaf s.mem (s.procs p).pagetable k) = v at *
  have hshrink : FramesShrink s s' :=
    (framesShrink_clear i).trans (framesShrink_clearFrame (s := { s with
      frames := update s.frames i (s.frames i).clear }) hframes)
  refine ⟨?_, ?_, fun x hx => ha.own_table (Or.inr hx) ▸ hx, hshrink, hother⟩
  · refine h.assign ha (fun hval => absurd hval hs.not_valid) ht.low (fun x _ => by rw [hmem])
      hlist hkend (fun ho m => ?_) hshrink (fun j' hj' hown => ?_)
      (by rw [hhand]; exact h.frameTable.hand) fun q => ⟨(hprocs q).pagetable, (hprocs q).trapframe⟩
    · rw [hinUse]
      by_cases hm : m = n
      · subst hm
        have := @slot_assign_named (s.procs p).pagetable g k v hs
        rw [hidx] at this
        rw [this, update_self]
        rfl
      · rw [update_of_ne hm, slot_assign_of_ne (fun _ he => hm (by rw [← he, hidx])),
          h.entries.inUse ho m]
        intro hsome
        exact absurd ht.maps.valid (h.entries.slot ho m _ _ hsome).2.2.1.not_valid
    · have hpa := (h.entries.user _ _ _ hown).2.2.pa
      rw [ht.maps.pa] at hpa
      obtain rfl : j' = j := by omega
      rw [hframes, clearFrame_kernbase ht.index, update_self] at hj'
      cases hj'
  · refine ⟨g.assign_owned _ _ _, fun x hx => ha.own_table (Or.inl hx),
      fun x hx => (ha.own_root x).mp hx, fun x _ hx => ⟨?_, hpage hx rfl⟩,
      fun x q hx => ⟨?_, hpage hx rfl⟩,
      fun r' k' hr' _ => ?_, fun ho r' k' hr' hk' _ => ?_, fun r' k' hr' hk' _ htr' => ?_, hprocs,
      hmy, hkend, htr⟩
    · exact own_assign_reserved hx fun hval => absurd hval hs.not_valid
    · exact ha.own_of_ne hx (by simp) (by simp)
    · by_cases hne : r' = (s.procs p).pagetable ∧ k' = k
      · obtain ⟨rfl, rfl⟩ := hne
        rw [hself]
        exact Or.inr ⟨ht.maps.valid, hs, hflags⟩
      · rw [hother r' k' hr' hne]
        exact Evolves.refl _
    · by_cases hne : r' = (s.procs p).pagetable ∧ k' = k
      · obtain ⟨rfl, rfl⟩ := hne
        rw [logicalPage_of_swapped (by rw [hself]; exact hs), hself, hidx, hstore,
          update_self, logicalPage_of_valid ht.maps]
      · refine logicalPage_congr (hother r' k' hr' hne) (fun hval => ?_) fun hsw => ?_
        · exact hpage (h.entries.page r' k' hr' hk' hval) rfl
        · rw [hstore, update_of_ne]
          intro he
          have hnamed := h.entries.named ho r' k' hr' hk' hsw
          rw [he, hnone ho] at hnamed
          cases hnamed
    · by_cases hne : r' = (s.procs p).pagetable ∧ k' = k
      · obtain ⟨rfl, rfl⟩ := hne
        exact tracked_of_not_valid (by rw [hself]; exact hs.not_valid)
      · exact ht.tracked h hframes (fun q => (hprocs q).pagetable) hr' hk' hne
          (hother r' k' hr' hne) htr'

end

theorem setWord_setWord (mem : ℕ → Page) (a : ℕ) (i : Fin 512) (v w : Pte) :
    setWord (setWord mem a i v) a i w = setWord mem a i w := by
  simp [setWord]

theorem writePte_mem (s : Kernel) (pte : PteRef) (v : Pte) :
    (s.writePte pte v).mem = setWord s.mem pte.1 pte.2 v := rfl

/-- Freeing the page of an entry that is gone and taking it back from the free list. -/
theorem kfree_kallocN_spec {g₁ : Ghost} {s₁ : Kernel} (h : Inv N g₁ s₁) {m : ℕ}
    (ha : g₁.own a = .reserved) (hman : Managed s₁.kend a) :
    wp (do kfree a; kallocN (m + 1))
      (fun pa s' => pa = a ∧ ∃ g', Inv N g' s' ∧
        Background NoEntry NoEntry NoEntry (· = a) g₁ g' s₁ s' ∧
        (∀ x, (g'.own x).isTable → (g₁.own x).isTable) ∧ g'.own a = .reserved ∧
        s'.mem a = Page.fill 5 ∧ FramesShrink s₁ s' ∧
        ∀ r k, g₁.own r = .root → leaf s'.mem r k = leaf s₁.mem r k)
      (Exhausted N) s₁ := by
  have hf := h.kfreed ha hman
  have hpop : Allocated N _ _ _ _ a := hf.inv.pop rfl
  rw [wp_bind, wp_kfree hman, kallocN, wp_bind, wp_get]
  refine ⟨rfl, _, hpop.inv, hf.background.trans hpop.background fun _ _ h => h.elim id False.elim,
    fun x hx => hf.isTable x (hpop.isTable x hx), hpop.reserved, hpop.junk,
    (framesShrink_clearFrame rfl).trans hpop.frames, fun r k hr => ?_⟩
  refine (leaf_congr hf.inv.layout.tables (hf.background.own_root hr) (fun b hb => ?_) k).trans
    (hf.leaf r k hr)
  refine update_of_ne (fun hba => ?_) _ _
  rw [hba, hf.free] at hb
  cases hb

/-- The page that an entry gives up is in the hands of the kernel. -/
theorem own_assign_freed {v : Pte} (ha : g.own a = .user r k) (hv : ¬ Valid v) :
    (g.assign r k v).own a = .reserved := by
  simp only [Ghost.assign]
  rw [if_neg fun h => hv h.1, if_pos ha]

/-- What `swap_out` does when it finds the slot `n`. -/
structure SwappedOut (s s' : Kernel) (pa n : ℕ) : Prop where
  lt : n < nswapspace
  free : s.swapInUse n = false
  mem : s'.mem = s.mem
  freelist : s'.freelist = s.freelist
  frames : s'.frames = s.frames
  clockHand : s'.clockHand = s.clockHand
  swapInUse : s'.swapInUse = update s.swapInUse n true
  swapStore : s'.swapStore = update s.swapStore n (s.mem pa)
  procs : ∀ q, SameProc (s.procs q) (s'.procs q)
  myproc : s'.myproc = s.myproc
  kend : s'.kend = s.kend
  trampolinePa : s'.trampolinePa = s.trampolinePa

theorem swapOut_spec :
    wp (swapOut pa) (fun index s' => (∃ n : ℕ, index = n ∧ SwappedOut s s' pa n) ∨
      (index = -1 ∧ s' = s ∧ ∀ n < nswapspace, s.swapInUse n = true)) E s := by
  rw [swapOut, wp_bind, wp_get]
  cases hslot : firstFreeSlot s.swapInUse 0 nswapspace with
  | none =>
    exact Or.inr ⟨rfl, rfl, fun n hn => firstFreeSlot_eq_none hslot n (by omega) (by omega)⟩
  | some n =>
    obtain ⟨hn, hfree⟩ := firstFreeSlot_eq_some hslot
    rw [zero_add] at hn
    simp only [wp_bind, wp_set, wp_pure]
    exact Or.inl ⟨n, rfl, hn, hfree, by simp, by simp, by simp, by simp, by simp, by simp,
      fun q => .modProc (by intro; constructor <;> rfl) (.refl _), by simp, by simp,
      by simp⟩

/-- `kfree` clears the frame of the page whether or not it has been cleared before. -/
theorem wp_kfree_clearFrame (hman : Managed s.kend a) {α : Type} {m : M α} {Q : α → Kernel → Prop} :
    wp (do kfree a; m) Q E s ↔
      wp (do kfree a; m) Q E { s with frames := clearFrame a s.frames } := by
  have hman' : Managed { s with frames := clearFrame a s.frames }.kend a := hman
  rw [wp_bind, wp_bind, wp_kfree hman, wp_kfree hman', Kernel.kfreed, Kernel.kfreed,
    clearFrame_idem]

/-- **The victim branch of `evict_pages`.** -/
theorem evictVictim_spec {j p b m : ℕ} (ht : Victim g s p b i j k) (h : Inv N g s) :
    wp (evictVictim (kallocN (m + 1)) i (b, k.2.2))
      (fun pa s' => ∃ g', Allocated N g g' s s' pa) (Exhausted N) s := by
  have hleaf : s.readPte (b, k.2.2) = leaf s.mem (s.procs p).pagetable k :=
    (h.layout.tables.leaf_of_low ht.low).symm
  have hman := h.managed ht.page (by simp)
  have hpb : kernbase + j * 4096 ≠ b := ne_of_own ht.page ht.low (by simp)
  rw [evictVictim, wp_bind, wp_get, hleaf, ht.maps.pa, wp_bind, wp_modify]
  refine wp_call swapOut_spec fun index s₁ hout => ?_
  obtain ⟨n, rfl, hout⟩ | ⟨rfl, rfl, hfull⟩ := hout
  · rw [if_pos (by omega), wp_bind, wp_modify, wp_bind, wp_modify]
    have hread : s₁.readPte (b, k.2.2) = markedPte (leaf s.mem (s.procs p).pagetable k) := by
      rw [Kernel.readPte, hout.mem]
      exact setWord_self _ _ _
    obtain ⟨w, hw⟩ : ∃ w, s₁.writePte (b, k.2.2) (slotPte n (s₁.readPte (b, k.2.2))) = w := ⟨_, rfl⟩
    obtain ⟨s₂, hs₂⟩ : ∃ s₂, Kernel.modProc (w.frames i).p (fun p => { p with
        pagesEvicted := p.pagesEvicted + 1
        residentPages := p.residentPages - 1 })
      { w with frames := update w.frames i (w.frames i).clear } = s₂ := ⟨_, rfl⟩
    rw [hw, hs₂]
    obtain ⟨hinv, hback, htable, hframes, hother⟩ := ht.evict (i := i) h
      { s₂ with frames := clearFrame (kernbase + j * 4096) s₂.frames } hout.lt hout.free
      (by rw [← hs₂, Kernel.modProc_mem, ← hw, hread]
          exact (congrArg (setWord · b k.2.2 _) hout.mem).trans (setWord_setWord _ _ _ _ _))
      (by simpa [← hs₂, ← hw, Kernel.writePte] using hout.freelist)
      (by simpa [← hs₂, ← hw, Kernel.writePte] using hout.swapInUse)
      (by rw [← hs₂, Kernel.modProc_swapStore, ← hw]
          exact hout.swapStore.trans (congrArg _ (update_of_ne hpb _ _)))
      (by simp [← hs₂, ← hw, hout.frames, Kernel.writePte])
      (by simpa [← hs₂, ← hw, Kernel.writePte] using hout.clockHand)
      (fun q => by
        rw [← hs₂, ← hw]
        exact .modProc (by intro; constructor <;> rfl) (hout.procs q))
      (by simpa [← hs₂, ← hw, Kernel.writePte] using hout.myproc)
      (by simpa [← hs₂, ← hw, Kernel.writePte] using hout.kend)
      (by simpa [← hs₂, ← hw, Kernel.writePte] using hout.trampolinePa)
    have hman₂ : Managed s₂.kend (kernbase + j * 4096) := hback.kend ▸ hman
    have hres := own_assign_freed (v := evictedPte n (leaf s.mem (s.procs p).pagetable k)) ht.page
      fun hv => absurd hv (swapped_evictedPte hout.lt _).not_valid
    rw [wp_kfree_clearFrame hman₂]
    refine wp_mono (kfree_kallocN_spec hinv hres hman₂) ?_ fun _ _ he => he
    rintro pa s' ⟨rfl, g', hinv', hback', htable', hres', hjunk, hframes', hleaf'⟩
    refine ⟨g', hinv', hback.trans hback' fun a ha hor => ?_,
      fun x hx => htable x (htable' x hx), hres', hjunk, by rw [ht.page]; simp, hman,
      hframes.trans hframes', fun r' k' hr' _ => ?_⟩
    · rcases hor with hor | rfl
      · exact hor
      · rw [ht.page] at ha
        cases ha
    · by_cases hne : r' = (s.procs p).pagetable ∧ k' = k
      · obtain ⟨rfl, rfl⟩ := hne
        exact Or.inr ht.page
      · exact Or.inl ((hleaf' r' k' (hback.own_root hr')).trans (hother r' k' hr' hne))
  · rw [if_neg (by simp), wp_throw]
    exact ⟨rfl, hfull⟩

/-! ### The clock -/

/-- What one visit may change. -/
structure Visited (s s' : Kernel) : Prop where
  mem : s'.mem = s.mem
  freelist : s'.freelist = s.freelist
  hand : s'.clockHand = (s.clockHand + 1) % nframe
  inUse : ∀ j, (s'.frames j).inUse = (s.frames j).inUse
  p : ∀ j, (s'.frames j).p = (s.frames j).p
  va : ∀ j, (s'.frames j).va = (s.frames j).va
  swapInUse : s'.swapInUse = s.swapInUse
  swapStore : s'.swapStore = s.swapStore
  procs : s'.procs = s.procs
  myproc : s'.myproc = s.myproc
  kend : s'.kend = s.kend
  trampolinePa : s'.trampolinePa = s.trampolinePa

/-- The hand passes a frame: if the frame is tracked it loses its reference bit, and no other frame
does. -/
structure Passed (s s' : Kernel) : Prop where
  hand : (s.frames s.clockHand).inUse = true →
    (s.frames s.clockHand).referenceBit = true ∧ (s'.frames s.clockHand).referenceBit = false
  other : ∀ j, j ≠ s.clockHand → (s'.frames j).referenceBit = (s.frames j).referenceBit

theorem visited_move (s : Kernel) : Visited s { s with clockHand := (s.clockHand + 1) % nframe } :=
  ⟨rfl, rfl, rfl, fun _ => rfl, fun _ => rfl, fun _ => rfl, rfl, rfl, rfl, rfl, rfl, rfl⟩

/-- A reference bit is cleared. -/
theorem visited_clear (s : Kernel) (j : ℕ) : Visited s { s with
    clockHand := (s.clockHand + 1) % nframe
    frames := update s.frames j { s.frames j with referenceBit := false } } := by
  have hframe : ∀ i, ∃ b, update s.frames j { s.frames j with referenceBit := false } i
      = { s.frames i with referenceBit := b } := fun i => by
    by_cases hi : i = j
    · subst hi
      exact ⟨false, update_self _ _ _⟩
    · exact ⟨(s.frames i).referenceBit, update_of_ne hi _ _⟩
  refine ⟨rfl, rfl, rfl, fun i => ?_, fun i => ?_, fun i => ?_, rfl, rfl, rfl, rfl, rfl, rfl⟩ <;>
    obtain ⟨b, hb⟩ := hframe i <;> simp only [hb]

/-- The reference bit that a visit of entry `i` looks at: that of the page which the owner's page
table maps at the entry's address. -/
def lookAt (s : Kernel) (i : ℕ) : Option ℕ :=
  match (s.frames i).inUse, (s.frames i).p with
  | true, some p =>
    if (s.procs p).pagetable ≠ 0 ∧
        has (leaf s.mem (s.procs p).pagetable (vkey (s.frames i).va)) pteV = true then
      some (frameIndex (pte2pa (leaf s.mem (s.procs p).pagetable (vkey (s.frames i).va))))
    else none
  | _, _ => none

/-- What a visit finds and does: it looks at no bit, or it clears the bit it looks at, or that bit
is clear and the entry is reported with the place of the page-table entry. -/
inductive Visit (s : Kernel) : Option (ℕ × PteRef) → Kernel → Prop where
  | skip (hlook : lookAt s s.clockHand = none) :
    Visit s none { s with clockHand := (s.clockHand + 1) % nframe }
  | pass (j : ℕ) (hlook : lookAt s s.clockHand = some j)
    (hbit : (s.frames j).referenceBit = true) :
    Visit s none { s with
      clockHand := (s.clockHand + 1) % nframe
      frames := update s.frames j { s.frames j with referenceBit := false } }
  | stop (j p b : ℕ) (hlook : lookAt s s.clockHand = some j) (hj : j < nframe)
    (hbit : (s.frames j).referenceBit = false) (hp : (s.frames s.clockHand).p = some p)
    (hlow : lowPage s.mem (s.procs p).pagetable (vkey (s.frames s.clockHand).va).1
      (vkey (s.frames s.clockHand).va).2.1 = some b) :
    Visit s (some (s.clockHand, b, (vkey (s.frames s.clockHand).va).2.2))
      { s with clockHand := (s.clockHand + 1) % nframe }

/-- A visit of entry `i` stays inside the tables: the address can be walked and the page has a
place in the frame table. -/
structure Inside (s : Kernel) (i : ℕ) : Prop where
  address : ∀ p, (s.frames i).inUse = true → (s.frames i).p = some p →
    (s.procs p).pagetable ≠ 0 → (s.frames i).va < maxva
  index : ∀ j, lookAt s i = some j → j < nframe

/-- Why a visit does not end: the address cannot be walked, or the page has no place in the frame
table. -/
inductive Outside (s : Kernel) : Halt → Prop where
  | address (p : ℕ) (hin : (s.frames s.clockHand).inUse = true)
    (hp : (s.frames s.clockHand).p = some p) (hpt : (s.procs p).pagetable ≠ 0)
    (hva : maxva ≤ (s.frames s.clockHand).va) : Outside s (.panic "walk")
  | index (j : ℕ) (hlook : lookAt s s.clockHand = some j) (hj : nframe ≤ j) : Outside s .undefined

section

variable {s' : Kernel} {j p : ℕ}

theorem lt_maxva (h : va < trapframe) : va < maxva := by
  simp only [trapframe_eq, maxva_eq] at h ⊢
  omega

theorem lookAt_of_owner (hin : (s.frames i).inUse = true) (hp : (s.frames i).p = some p) :
    lookAt s i = if (s.procs p).pagetable ≠ 0 ∧
        has (leaf s.mem (s.procs p).pagetable (vkey (s.frames i).va)) pteV = true then
      some (frameIndex (pte2pa (leaf s.mem (s.procs p).pagetable (vkey (s.frames i).va))))
    else none := by
  rw [lookAt, hin, hp]

theorem lookAt_eq_some : lookAt s i = some j ↔ ∃ p, (s.frames i).inUse = true ∧
    (s.frames i).p = some p ∧ (s.procs p).pagetable ≠ 0 ∧
    Valid (leaf s.mem (s.procs p).pagetable (vkey (s.frames i).va)) ∧
    frameIndex (pte2pa (leaf s.mem (s.procs p).pagetable (vkey (s.frames i).va))) = j := by
  constructor
  · intro h
    cases hin : (s.frames i).inUse with
    | false =>
      rw [lookAt, hin] at h
      cases h
    | true =>
      cases hp : (s.frames i).p with
      | none =>
        rw [lookAt, hin, hp] at h
        cases h
      | some p =>
        rw [lookAt_of_owner hin hp, Option.ite_none_right_eq_some] at h
        exact ⟨p, rfl, rfl, h.1.1, valid_iff.mp h.1.2, Option.some.inj h.2⟩
  · rintro ⟨p, hin, hp, hpt, hv, rfl⟩
    rw [lookAt_of_owner hin hp, if_pos ⟨hpt, valid_iff.mpr hv⟩]

theorem Inside.not_outside (h : Inside s s.clockHand) {e : Halt} : ¬ Outside s e := by
  intro ho
  cases ho with
  | address p hin hp hpt hva => exact absurd (h.address p hin hp hpt) (not_lt.mpr hva)
  | index j hlook hj => exact absurd (h.index j hlook) (not_lt.mpr hj)

/-- **One visit of the clock hand.** -/
theorem clockStep_visit : wp clockStep (fun victim s' => Visit s victim s' ∧ Inside s s.clockHand)
    (fun e _ => Outside s e) s := by
  have hskip : lookAt s s.clockHand = none → (∀ p, (s.frames s.clockHand).inUse = true →
      (s.frames s.clockHand).p = some p → (s.procs p).pagetable ≠ 0 →
      (s.frames s.clockHand).va < maxva) →
      Visit s none { s with clockHand := (s.clockHand + 1) % nframe } ∧ Inside s s.clockHand := by
    intro hlook haddr
    refine ⟨.skip hlook, haddr, fun j hj => ?_⟩
    rw [hlook] at hj
    cases hj
  rw [clockStep, wp_bind, wp_get, wp_bind, wp_set]
  cases hin : (s.frames s.clockHand).inUse with
  | false => exact hskip (by rw [lookAt, hin]) fun p h => by cases hin.symm.trans h
  | true =>
    cases hp : (s.frames s.clockHand).p with
    | none => exact hskip (by rw [lookAt, hin, hp]) fun p _ h => by cases hp.symm.trans h
    | some p =>
      have hlook := lookAt_of_owner hin hp
      refine wp_ite.mpr ⟨fun hpt => ?_, fun hpt => ?_⟩
      · by_cases hva : (s.frames s.clockHand).va < maxva
        · rw [wp_bind, wp_walk_none hva]
          cases hlow : lowPage s.mem (s.procs p).pagetable (vkey (s.frames s.clockHand).va).1
              (vkey (s.frames s.clockHand).va).2.1 with
          | none =>
            refine hskip (hlook.trans (if_neg fun h => ?_)) fun _ _ _ _ => hva
            rw [leaf_of_lowPage_none hlow] at h
            exact not_valid_zero (valid_iff.mp h.2)
          | some b =>
            simp only [Option.map_some, readPte_low hlow]
            refine wp_ite.mpr ⟨fun hv => ?_, fun hv => ?_⟩
            · rw [if_pos ⟨hpt, hv⟩] at hlook
              refine wp_ite.mpr ⟨fun hge => .index _ hlook hge, fun hge => ?_⟩
              have hinside : Inside s s.clockHand := by
                refine ⟨fun _ _ _ _ => hva, fun j hj => ?_⟩
                rw [← Option.some.inj (hlook.symm.trans hj)]
                exact not_le.mp hge
              refine wp_ite.mpr ⟨fun hbit => ⟨.pass _ hlook hbit, hinside⟩, fun hbit => ?_⟩
              exact ⟨.stop _ p b hlook (not_le.mp hge) (by simpa using hbit) hp hlow, hinside⟩
            · exact hskip (hlook.trans (if_neg fun h => hv h.2)) fun _ _ _ _ => hva
        · rw [walk, if_pos (not_lt.mp hva)]
          exact .address p hin hp hpt (not_lt.mp hva)
      · refine hskip (hlook.trans (if_neg fun h => hpt h.1)) fun q _ hq hpt' => ?_
        obtain rfl := Option.some.inj (hp.symm.trans hq)
        exact absurd hpt' hpt

theorem Visit.visited {victim : Option (ℕ × PteRef)} (h : Visit s victim s') : Visited s s' := by
  cases h with
  | skip hlook => exact visited_move s
  | pass j hlook hbit => exact visited_clear s j
  | stop j p b hlook hj hbit hp hlow => exact visited_move s

/-- Without a second table an entry in use looks at its own bit. -/
theorem Inv.lookAt_self (h : Inv N g s) (hin : (s.frames i).inUse = true) :
    (∃ p r, N p r) ∨ lookAt s i = some i := by
  obtain ⟨p, r, hp, hlt, -, ht, hown⟩ := h.frameTable.tracked _ hin
  rcases ht with rfl | hN
  · obtain ⟨hr, -, hm⟩ := h.entries.user _ _ _ hown
    refine Or.inr (lookAt_eq_some.mpr ⟨p, hin, hp, h.root_ne_zero hr, hm.valid, ?_⟩)
    rw [hm.pa, frameIndex_kernbase hlt]
  · exact Or.inl ⟨p, r, hN⟩

/-- A visit goes outside the tables only if there is a second one. -/
theorem Inv.outside (h : Inv N g s) {e : Halt} (ho : Outside s e) :
    e = .undefined ∧ ∃ p r, N p r := by
  cases ho with
  | address p hin hp hpt hva =>
    obtain ⟨-, -, -, -, hva', -⟩ := h.frameTable.tracked _ hin
    exact absurd (lt_maxva hva') (not_lt.mpr hva)
  | index j hlook hj =>
    obtain ⟨-, hin, -⟩ := lookAt_eq_some.mp hlook
    refine ⟨rfl, (h.lookAt_self hin).resolve_right fun hself => ?_⟩
    obtain rfl := Option.some.inj (hlook.symm.trans hself)
    exact absurd h.frameTable.hand (not_lt.mpr hj)

/-- It stops at a tracked frame whose reference bit is clear and passes every other one, clearing
the bit of a tracked frame. -/
theorem clockStep_spec (h : Inv N g s) :
    wp clockStep (fun victim s' => Visited s s' ∧
      match victim with
      | some (i, pte) => ∃ p b j k, Victim g s p b i j k ∧ pte = (b, k.2.2)
      | none => (∃ p r, N p r) ∨ Passed s s') (Exhausted N) s := by
  refine wp_mono clockStep_visit (fun victim s' hstep => ?_) fun e s' he => ?_
  swap
  · obtain ⟨rfl, hN⟩ := h.outside he
    exact hN
  obtain ⟨hvisit, -⟩ := hstep
  refine ⟨hvisit.visited, ?_⟩
  cases hvisit with
  | skip hlook =>
    by_cases hin : (s.frames s.clockHand).inUse = true
    · refine Or.inl ((h.lookAt_self hin).resolve_right fun hself => ?_)
      rw [hlook] at hself
      cases hself
    · exact Or.inr ⟨fun hin' => absurd hin' hin, fun _ _ => rfl⟩
  | pass j hlook hbit =>
    obtain ⟨-, hin, -⟩ := lookAt_eq_some.mp hlook
    refine (h.lookAt_self hin).imp_right fun hself => ?_
    obtain rfl := Option.some.inj (hlook.symm.trans hself)
    exact ⟨fun _ => ⟨hbit, by simp⟩, fun j hj => by simp [update_of_ne hj]⟩
  | stop j p b hlook hj hbit hp hlow =>
    obtain ⟨q, hin, hq, hpt, hv, rfl⟩ := lookAt_eq_some.mp hlook
    obtain rfl : p = q := Option.some.inj (hp.symm.trans hq)
    obtain ⟨-, -, -, -, hva, -⟩ := h.frameTable.tracked _ hin
    have hr := h.procTable.root p hpt
    have hown := h.entries.page _ _ hr (userKey_vkey hva) hv
    have hm := h.mapsTo hr (userKey_vkey hva) hv
    have hidx := frameIndex_of_managed h.layout.kend (h.managed hown (by simp))
    rw [Nat.mod_eq_of_lt (by simp only [nframe_eq] at hj; omega)] at hidx
    refine ⟨p, b, _, _, ⟨hp, rfl, (h.layout.tables.lowPage_eq_some hr).mp hlow, ?_, ?_, hj⟩, rfl⟩
    · rw [hidx]
      exact hown
    · rw [hidx]
      exact hm

end

section

variable {g' : Ghost} {s' s'' : Kernel}

theorem Visited.framesShrink (hv : Visited s s') : FramesShrink s s' := fun j hj =>
  ⟨(hv.inUse j).symm.trans hj, hv.p j, hv.va j⟩

theorem Visited.inv (hv : Visited s s') (h : Inv N g s) : Inv N g s' :=
  h.frame (fun _ _ => by rw [hv.mem]) hv.freelist hv.kend hv.swapInUse hv.framesShrink
    (by rw [hv.hand]; exact Nat.mod_lt _ (by simp)) fun _ => by rw [hv.procs]; exact ⟨rfl, rfl⟩

theorem Visited.victim (hv : Visited s s') {p b j : ℕ} (ht : Victim g s p b i j k) :
    Victim g s' p b i j k :=
  ⟨(hv.p i).trans ht.owner, by rw [hv.va i]; exact ht.key, by rw [hv.procs]; exact ht.low,
    by rw [hv.procs]; exact ht.page, by rw [hv.procs, hv.mem]; exact ht.maps, ht.index⟩

theorem Visited.background (hv : Visited s s') (h : Inv N g s) :
    Background NoEntry NoEntry NoEntry NoPage g g s s' :=
  .of_mem h (fun _ => False.elim) (fun _ _ => by rw [hv.mem])
    (fun j hj => ⟨(hv.inUse j).trans hj, hv.p j, hv.va j⟩) hv.swapStore
    (fun _ => by rw [hv.procs]; exact SameProc.refl _) hv.myproc hv.kend hv.trampolinePa

theorem Visited.allocated (hv : Visited s s') (h : Inv N g s) (ha : Allocated N g g' s' s'' pa) :
    Allocated N g g' s s'' pa :=
  ⟨ha.inv, (hv.background h).seq ha.background, ha.isTable,
    ha.reserved, ha.junk, ha.fresh, hv.kend ▸ ha.managed, hv.framesShrink.trans ha.frames,
    fun r k hr hk => hv.mem ▸ ha.victim r k hr hk⟩

/-- The visits before the hand stops at frame `j` at the latest. -/
def need (s : Kernel) (j : ℕ) : ℕ :=
  (j + nframe - s.clockHand) % nframe + if (s.frames j).referenceBit then nframe else 0

theorem need_lt (s : Kernel) (j : ℕ) : need s j < 2 * nframe := by
  have := Nat.mod_lt (j + nframe - s.clockHand) (show 0 < nframe by simp)
  rw [need]
  split <;> omega

/-- A visit that does not stop brings every tracked frame one visit closer. -/
theorem Passed.need_lt (hpass : Passed s s') (hv : Visited s s') (h : Inv N g s) {j : ℕ}
    (hj : (s.frames j).inUse = true) : need s' j < need s j := by
  obtain ⟨-, -, -, hlt, -⟩ := h.frameTable.tracked j hj
  have hhand := h.frameTable.hand
  simp only [nframe_eq] at hlt hhand
  by_cases hjh : j = s.clockHand
  · subst hjh
    obtain ⟨hset, hclear⟩ := hpass.hand hj
    simp only [need, hset, hclear, hv.hand, nframe_eq, if_true]
    rw [if_neg (by simp)]
    omega
  · simp only [need, hpass.other j hjh, hv.hand, nframe_eq]
    omega

end

/-- **The clock loop** finds a victim if any frame is tracked. -/
theorem evictLoop_spec {m fuel : ℕ} (h : Inv N g s)
    (hneed : (∃ p r, N p r) ∨ ∀ j, (s.frames j).inUse = true → need s j < fuel) :
    wp (evictLoop (kallocN (m + 1)) fuel) (fun pa s' => ∃ g', Allocated N g g' s s' pa)
      (Exhausted N) s := by
  induction fuel generalizing s with
  | zero =>
    rw [evictLoop, wp_throw]
    refine hneed.symm.imp_left fun hneed j => ?_
    by_contra hj
    have := hneed j (by simpa using hj)
    omega
  | succ fuel ih =>
    rw [evictLoop, wp_bind]
    refine wp_imp (clockStep_spec h) fun victim s₁ hstep => ?_
    obtain ⟨hv, hvictim⟩ := hstep
    cases victim with
    | none =>
      have hneed₁ : (∃ p r, N p r) ∨ ∀ j, (s₁.frames j).inUse = true → need s₁ j < fuel := by
        rcases hneed with hN | hneed
        · exact Or.inl hN
        · refine hvictim.imp_right fun hpass j hj => ?_
          have hj' := (hv.inUse j).symm.trans hj
          have := hpass.need_lt hv h hj'
          have := hneed j hj'
          omega
      refine wp_imp (ih (hv.inv h) hneed₁) fun pa s' ha => ?_
      obtain ⟨g', ha⟩ := ha
      exact ⟨g', hv.allocated h ha⟩
    | some victim =>
      obtain ⟨p, b, j, k, ht, hpte⟩ := hvictim
      refine wp_imp (hpte ▸ evictVictim_spec (hv.victim ht) (hv.inv h)) fun pa s' ha => ?_
      obtain ⟨g', ha⟩ := ha
      exact ⟨g', hv.allocated h ha⟩

/-- What the kernel may expect of its allocator: a page that was free or has been evicted, with no
logical page changed; it does not return only when nothing can be evicted. -/
def Allocates (N : ℕ → ℕ → Prop) (alloc : M ℕ) : Prop :=
  ∀ {g : Ghost} {s : Kernel}, Inv N g s →
    wp alloc (fun pa s' => ∃ g', Allocated N g g' s s' pa) (Exhausted N) s

/-- **`kalloc`** allocates. -/
theorem kalloc_spec : Allocates N kalloc := fun {g s} h => by
  rw [kalloc, kallocN, wp_bind, wp_get]
  cases hf : s.freelist with
  | nil => exact evictLoop_spec h (Or.inr fun j _ => need_lt s j)
  | cons a rest => exact ⟨_, h.pop hf⟩

end Mem

end Xv6
