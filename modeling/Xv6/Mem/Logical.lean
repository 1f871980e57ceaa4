import Xv6.Mem.Invariant

/-!
# Logical pages, and what happens in the background

The *logical page* of a process at an address is the physical page if the entry is valid, the
stored page if it is swapped, and the page of zeros otherwise.

Any allocation may evict a page of any process, so almost every kernel function changes entries
that it was not asked to change. `Background X Z T Y` says how much. Entries outside `X` are the
same, or have been evicted with their flags; logical pages outside `Z` are the same; pages outside
`T` that were in the frame table are still there; pages in the hands of the kernel outside `Y` are
untouched. Every specification below has this form, and `Background.trans` chains them.
-/

namespace Xv6

namespace Mem

variable {k : Key} {r : ℕ} {s : Kernel}

variable {N : ℕ → ℕ → Prop}

/-- The logical page at `k` of the address space with root `r`. -/
def logicalPage (s : Kernel) (r : ℕ) (k : Key) : Page :=
  if Valid (leaf s.mem r k) then s.mem (pte2pa (leaf s.mem r k))
  else if Swapped (leaf s.mem r k) then s.swapStore (swapIdx (leaf s.mem r k))
  else Page.zero

theorem logicalPage_of_valid {a : ℕ} (h : MapsTo (leaf s.mem r k) a) :
    logicalPage s r k = s.mem a := by
  rw [logicalPage, if_pos h.valid, h.pa]

theorem logicalPage_of_swapped (h : Swapped (leaf s.mem r k)) :
    logicalPage s r k = s.swapStore (swapIdx (leaf s.mem r k)) := by
  rw [logicalPage, if_neg h.not_valid, if_pos h]

theorem logicalPage_of_zero (h : leaf s.mem r k = 0#64) : logicalPage s r k = Page.zero := by
  rw [logicalPage, h, if_neg not_valid_zero, if_neg not_swapped_zero]

/-- The same entry over the same page or slot is the same logical page. -/
theorem logicalPage_congr {s' : Kernel} (hleaf : leaf s'.mem r k = leaf s.mem r k)
    (hpage : Valid (leaf s.mem r k) →
      s'.mem (pte2pa (leaf s.mem r k)) = s.mem (pte2pa (leaf s.mem r k)))
    (hslot : Swapped (leaf s.mem r k) →
      s'.swapStore (swapIdx (leaf s.mem r k)) = s.swapStore (swapIdx (leaf s.mem r k))) :
    logicalPage s' r k = logicalPage s r k := by
  unfold logicalPage
  rw [hleaf]
  split
  · exact hpage ‹_›
  · split
    · exact hslot ‹_›
    · rfl

/-- An entry is the same, or has been evicted. -/
def Evolves (pte pte' : Pte) : Prop := pte' = pte ∨ (Valid pte ∧ Swapped pte' ∧ SameFlags pte pte')

theorem Evolves.refl (pte : Pte) : Evolves pte pte := Or.inl rfl

theorem Evolves.trans {a b c : Pte} (h : Evolves a b) (h' : Evolves b c) : Evolves a c := by
  rcases h with rfl | ⟨hv, hs, hf⟩
  · exact h'
  · rcases h' with rfl | ⟨hv', -, -⟩
    · exact Or.inr ⟨hv, hs, hf⟩
    · exact absurd hv' hs.not_valid

/-- An entry that is not valid stays as it is. -/
theorem Evolves.eq_of_not_valid {a b : Pte} (h : Evolves a b) (ha : ¬ Valid a) : b = a := by
  rcases h with rfl | ⟨hv, -, -⟩
  · rfl
  · exact absurd hv ha

/-! ### Resident pages in the frame table -/

/-- If a page of this entry is resident, and the frame table reaches as far, then it is there. -/
def Tracked (s : Kernel) (r : ℕ) (k : Key) : Prop :=
  ∀ a, MapsTo (leaf s.mem r k) a → frameIndex a < nframe →
    (s.frames (frameIndex a)).inUse = true ∧ (s.frames (frameIndex a)).va = k.addr ∧
    ∃ p, (s.frames (frameIndex a)).p = some p ∧ (s.procs p).pagetable = r

/-- A frame that is in use stays so, with its owner and address. -/
def FrameKept (f f' : Frame) : Prop :=
  f.inUse = true → f'.inUse = true ∧ f'.p = f.p ∧ f'.va = f.va

theorem FrameKept.refl (f : Frame) : FrameKept f f := fun h => ⟨h, rfl, rfl⟩

theorem tracked_of_not_valid (h : ¬ Valid (leaf s.mem r k)) :
    Tracked s r k := fun _ ha => absurd ha.valid h

theorem tracked_of_zero (h : leaf s.mem r k = 0#64) :
    Tracked s r k := tracked_of_not_valid (by rw [h]; exact not_valid_zero)

/-- An entry that is the same or evicted, over a frame that is kept. -/
theorem Tracked.step {s' : Kernel} (h : Tracked s r k)
    (he : Evolves (leaf s.mem r k) (leaf s'.mem r k)) (hf : ∀ a, MapsTo (leaf s.mem r k) a →
      FrameKept (s.frames (frameIndex a)) (s'.frames (frameIndex a)))
    (hp : ∀ p, (s.procs p).pagetable = r → (s'.procs p).pagetable = r) : Tracked s' r k := by
  intro a ha hlt
  have hleaf : leaf s'.mem r k = leaf s.mem r k := by
    rcases he with he | ⟨-, hs, -⟩
    · exact he
    · exact absurd ha.valid hs.not_valid
  rw [hleaf] at ha
  obtain ⟨huse, hva, p, hpf, hpt⟩ := h a ha hlt
  obtain ⟨huse', hpf', hva'⟩ := hf a ha huse
  exact ⟨huse', hva'.trans hva, p, hpf'.trans hpf, hp p hpt⟩

/-! ### Background work -/

/-- What may happen besides the work on the entries `X`, the logical pages `Z` and the pages `Y`
in the hands of the kernel; `T` are the pages that may be missing in the frame table afterwards. -/
structure Background (X Z T : ℕ → Key → Prop) (Y : ℕ → Prop) (g g' : Ghost) (s s' : Kernel) :
    Prop where
  owned : g'.owned = g.owned
  table : ∀ a, (g.own a).isTable → g'.own a = g.own a
  root : ∀ r, g'.own r = .root → g.own r = .root
  held : ∀ a, ¬ Y a → g.own a = .reserved → g'.own a = .reserved ∧ s'.mem a = s.mem a
  trapframe : ∀ a p, g.own a = .trapframe p → g'.own a = .trapframe p ∧ s'.mem a = s.mem a
  entry : ∀ r k, g.own r = .root → ¬ X r k → Evolves (leaf s.mem r k) (leaf s'.mem r k)
  logical : g.owned → ∀ r k, g.own r = .root → UserKey k → ¬ Z r k →
    logicalPage s' r k = logicalPage s r k
  tracked : ∀ r k, g.own r = .root → UserKey k → ¬ T r k → Tracked s r k → Tracked s' r k
  procs : ∀ p, SameProc (s.procs p) (s'.procs p)
  myproc : s'.myproc = s.myproc
  kend : s'.kend = s.kend
  trampolinePa : s'.trampolinePa = s.trampolinePa

/-- Work on no entry. -/
def NoEntry : ℕ → Key → Prop := fun _ _ => False

theorem NoEntry.le {X : ℕ → Key → Prop} : ∀ r k, NoEntry r k → X r k := fun _ _ => False.elim

/-- Work on one entry. -/
def EntryAt (r : ℕ) (k : Key) : ℕ → Key → Prop := fun r' k' => r' = r ∧ k' = k

/-- The pages of one address space, unless `C` holds. -/
def Lost (r : ℕ) (C : Prop) : ℕ → Key → Prop := fun r' _ => r' = r ∧ ¬ C

theorem Lost.mono {C C' : Prop} (h : C → C') (r' : ℕ) (k : Key) (hl : Lost r C' r' k) :
    Lost r C r' k := ⟨hl.1, fun hc => hl.2 (h hc)⟩

/-- Work on no page. -/
def NoPage : ℕ → Prop := fun _ => False

section

variable {g g' g'' : Ghost} {s' s'' : Kernel} {X X' Z Z' T T' : ℕ → Key → Prop} {Y V W : ℕ → Prop}

theorem Background.own_root (h : Background X Z T Y g g' s s') (hr : g.own r = .root) :
    g'.own r = .root := (h.table r (by rw [hr]; rfl)).trans hr

theorem Background.own_low (h : Background X Z T Y g g' s s') {b : ℕ} {i j : Fin 512}
    (hb : g.own b = .low r i j) : g'.own b = .low r i j := (h.table b (by rw [hb]; rfl)).trans hb

theorem Background.pagetable (h : Background X Z T Y g g' s s') (p : ℕ) :
    (s'.procs p).pagetable = (s.procs p).pagetable := (h.procs p).pagetable

/-- An entry that is not valid stays as it is. -/
theorem Background.leaf_eq (h : Background X Z T Y g g' s s') (hr : g.own r = .root) (hX : ¬ X r k)
    (hv : ¬ Valid (leaf s.mem r k)) :
    leaf s'.mem r k = leaf s.mem r k := (h.entry r k hr hX).eq_of_not_valid hv

theorem Background.trans (h : Background X Z T Y g g' s s') (h' : Background X Z T V g' g'' s' s'')
    (hY : ∀ a, g.own a = .reserved → Y a ∨ V a → W a) : Background X Z T W g g'' s s'' where
  owned := h'.owned.trans h.owned
  table a ha := by
    have ha' := h.table a ha
    rw [h'.table a (by rw [ha']; exact ha), ha']
  root r hr := h.root r (h'.root r hr)
  held a hW ha := by
    obtain ⟨ha', hm⟩ := h.held a (fun hy => hW (hY a ha (Or.inl hy))) ha
    obtain ⟨ha'', hm'⟩ := h'.held a (fun hy => hW (hY a ha (Or.inr hy))) ha'
    exact ⟨ha'', hm'.trans hm⟩
  trapframe a p ha := by
    obtain ⟨ha', hm⟩ := h.trapframe a p ha
    obtain ⟨ha'', hm'⟩ := h'.trapframe a p ha'
    exact ⟨ha'', hm'.trans hm⟩
  entry r k hr hX := (h.entry r k hr hX).trans (h'.entry r k (h.own_root hr) hX)
  logical ho r k hr hk hZ := (h'.logical (h.owned ▸ ho) r k (h.own_root hr) hk hZ).trans
    (h.logical ho r k hr hk hZ)
  tracked r k hr hk hT ht := h'.tracked r k (h.own_root hr) hk hT (h.tracked r k hr hk hT ht)
  procs p := (h.procs p).trans (h'.procs p)
  myproc := h'.myproc.trans h.myproc
  kend := h'.kend.trans h.kend
  trampolinePa := h'.trampolinePa.trans h.trampolinePa

theorem Background.seq (h : Background X Z T Y g g' s s') (h' : Background X Z T Y g' g'' s' s'') :
    Background X Z T Y g g'' s s'' := h.trans h' fun _ _ h => h.elim id id

/-- The sets may be enlarged; of the pages only those that were in the hands of the kernel
count. -/
theorem Background.mono (h : Background X Z T Y g g' s s') (hX : ∀ r k, X r k → X' r k)
    (hZ : ∀ r k, Z r k → Z' r k) (hT : ∀ r k, T r k → T' r k)
    (hY : ∀ a, g.own a = .reserved → Y a → W a) : Background X' Z' T' W g g' s s' :=
  ⟨h.owned, h.table, h.root, fun a hW ha => h.held a (fun hy => hW (hY a ha hy)) ha, h.trapframe,
    fun r k hr hx => h.entry r k hr fun hx' => hx (hX r k hx'),
    fun ho r k hr hk hz => h.logical ho r k hr hk fun hz' => hz (hZ r k hz'),
    fun r k hr hk ht => h.tracked r k hr hk fun ht' => ht (hT r k ht'), h.procs, h.myproc, h.kend,
    h.trampolinePa⟩

/-- Pages that are in the frame table afterwards may be left out of `T`. -/
theorem Background.track (h : Background X Z T Y g g' s s')
    (ht : ∀ r k, g.own r = .root → T r k → Tracked s' r k) : Background X Z NoEntry Y g g' s s' :=
  ⟨h.owned, h.table, h.root, h.held, h.trapframe, h.entry, h.logical, fun r k hr hk _ htr => by
    by_cases hT : T r k
    · exact ht r k hr hT
    · exact h.tracked r k hr hk hT htr, h.procs, h.myproc, h.kend, h.trampolinePa⟩

/-- The steps that leave all entries, user pages and slots alone. -/
theorem Background.of_entries (hinv : Inv N g s) (howned : g'.owned = g.owned)
    (htable : ∀ a, (g.own a).isTable → g'.own a = g.own a)
    (hroot : ∀ r, g'.own r = .root → g.own r = .root)
    (hheld : ∀ a, ¬ Y a → g.own a = .reserved → g'.own a = .reserved ∧ s'.mem a = s.mem a)
    (htf : ∀ a p, g.own a = .trapframe p → g'.own a = .trapframe p ∧ s'.mem a = s.mem a)
    (hleaf : ∀ r k, g.own r = .root → leaf s'.mem r k = leaf s.mem r k)
    (huser : ∀ a r k, g.own a = .user r k → s'.mem a = s.mem a)
    (hframes : ∀ a r k, g.own a = .user r k →
      FrameKept (s.frames (frameIndex a)) (s'.frames (frameIndex a)))
    (hstore : s'.swapStore = s.swapStore) (hprocs : ∀ p, SameProc (s.procs p) (s'.procs p))
    (hmy : s'.myproc = s.myproc) (hkend : s'.kend = s.kend)
    (htr : s'.trampolinePa = s.trampolinePa) : Background NoEntry NoEntry NoEntry Y g g' s s' where
  owned := howned
  table := htable
  root := hroot
  held := hheld
  trapframe := htf
  entry r k hr _ := by
    rw [hleaf r k hr]
    exact Evolves.refl _
  logical _ r k hr hk _ := by
    refine logicalPage_congr (hleaf r k hr) (fun hv => ?_) fun _ => by rw [hstore]
    exact huser _ r k (hinv.entries.page r k hr hk hv)
  tracked r k hr hk _ ht := by
    refine ht.step (by rw [hleaf r k hr]; exact Evolves.refl _) (fun a ha => hframes a r k ?_)
      fun p hp => (hprocs p).pagetable.trans hp
    rw [← ha.pa]
    exact hinv.entries.page r k hr hk ha.valid
  procs := hprocs
  myproc := hmy
  kend := hkend
  trampolinePa := htr

/-- The steps that keep every use and change memory at most in `Y`. -/
theorem Background.of_mem (hinv : Inv N g s) (hY : ∀ a, Y a → g.own a = .reserved ∨ g.own a = .free)
    (hmem : ∀ a, ¬ Y a → s'.mem a = s.mem a)
    (hframes : ∀ i, FrameKept (s.frames i) (s'.frames i)) (hstore : s'.swapStore = s.swapStore)
    (hprocs : ∀ p, SameProc (s.procs p) (s'.procs p)) (hmy : s'.myproc = s.myproc)
    (hkend : s'.kend = s.kend) (htr : s'.trampolinePa = s.trampolinePa) :
    Background NoEntry NoEntry NoEntry Y g g s s' := by
  have hout : ∀ {a : ℕ} {u : Use}, g.own a = u → u ≠ .reserved → u ≠ .free → s'.mem a = s.mem a :=
    fun {a u} ha hres hfree => hmem a fun hy => by
      rcases hY a hy with h | h <;> rw [ha] at h
      · exact hres h
      · exact hfree h
  have htab : ∀ a, (g.own a).isTable → s'.mem a = s.mem a := fun a ha =>
    hout rfl (fun he => by rw [he] at ha; cases ha) fun he => by rw [he] at ha; cases ha
  exact .of_entries hinv rfl (fun _ _ => rfl) (fun _ hr => hr) (fun a hy ha => ⟨ha, hmem a hy⟩)
    (fun a p ha => ⟨ha, hout ha (by simp) (by simp)⟩)
    (fun r k hr => leaf_congr hinv.layout.tables hr htab k)
    (fun a r k ha => hout ha (by simp) (by simp)) (fun a _ _ _ => hframes (frameIndex a)) hstore
    hprocs hmy hkend htr

/-- The steps that keep every use and all memory, and work on one frame. -/
theorem Background.of_frames (hinv : Inv N g s) (hmem : ∀ a, s'.mem a = s.mem a)
    (hframes : ∀ a r' k', g.own a = .user r' k' → ¬ EntryAt r k r' k' →
      FrameKept (s.frames (frameIndex a)) (s'.frames (frameIndex a)))
    (hstore : s'.swapStore = s.swapStore) (hprocs : ∀ p, SameProc (s.procs p) (s'.procs p))
    (hmy : s'.myproc = s.myproc) (hkend : s'.kend = s.kend)
    (htr : s'.trampolinePa = s.trampolinePa) :
    Background NoEntry NoEntry (EntryAt r k) NoPage g g s s' := by
  have hleaf : ∀ r k, leaf s'.mem r k = leaf s.mem r k := fun r k => by rw [funext hmem]
  refine ⟨rfl, fun _ _ => rfl, fun _ hr => hr, fun a _ ha => ⟨ha, hmem a⟩,
    fun a p ha => ⟨ha, hmem a⟩, fun r k _ _ => by rw [hleaf]; exact Evolves.refl _,
    fun _ r k _ _ _ => logicalPage_congr (hleaf r k) (fun _ => hmem _) fun _ => by rw [hstore],
    fun r' k' hr hk hT ht => ?_, hprocs, hmy, hkend, htr⟩
  refine ht.step (by rw [hleaf]; exact Evolves.refl _) (fun a ha => hframes a r' k' ?_ hT)
    fun p hp => (hprocs p).pagetable.trans hp
  rw [← ha.pa]
  exact hinv.entries.page r' k' hr hk ha.valid

theorem Background.weaken (h : Background NoEntry NoEntry NoEntry Y g g' s s') :
    Background X Z T Y g g' s s' := h.mono NoEntry.le NoEntry.le NoEntry.le fun _ _ h => h

theorem Background.refl (hinv : Inv N g s) : Background X Z T Y g g s s :=
  .mono (Y := NoPage)
    (.of_mem hinv (fun _ => False.elim) (fun _ _ => rfl) (fun _ => FrameKept.refl _) rfl
      (fun _ => SameProc.refl _)
      rfl rfl rfl) NoEntry.le NoEntry.le NoEntry.le fun _ _ => False.elim

/-- **A page goes from the free list to the kernel or back.** -/
theorem Background.retype (hinv : Inv N g s) {a : ℕ} {u : Use}
    (hold : g.own a = .free ∨ g.own a = .reserved) (hnew : u = .free ∨ u = .reserved)
    (hmem : ∀ b, b ≠ a → s'.mem b = s.mem b) (hframes : ∀ b r k, g.own b = .user r k →
      FrameKept (s.frames (frameIndex b)) (s'.frames (frameIndex b)))
    (hstore : s'.swapStore = s.swapStore)
    (hprocs : ∀ p, SameProc (s.procs p) (s'.procs p)) (hmy : s'.myproc = s.myproc)
    (hkend : s'.kend = s.kend) (htr : s'.trampolinePa = s.trampolinePa) :
    Background NoEntry NoEntry NoEntry (· = a) g (g.setOwn a u) s s' := by
  have hout : ∀ {b : ℕ} {w : Use}, g.own b = w → w ≠ .free → w ≠ .reserved → b ≠ a := by
    rintro b w hb hfree hres rfl
    rcases hold with h | h <;> rw [hb] at h
    · exact hfree h
    · exact hres h
  have htab : ∀ b, (g.own b).isTable → b ≠ a := fun b hb =>
    hout rfl (fun he => by rw [he] at hb; cases hb) fun he => by rw [he] at hb; cases hb
  refine .of_entries hinv rfl (fun b hb => Ghost.setOwn_of_ne u (htab b hb)) (fun r hr => ?_)
    (fun b hb hres => ⟨(Ghost.setOwn_of_ne u hb).trans hres, hmem b hb⟩) (fun b p hb => ?_)
    (fun r k hr => leaf_congr hinv.layout.tables hr (fun b hb => hmem b (htab b hb)) k)
    (fun b r k hb => hmem b (hout hb (by simp) (by simp))) hframes hstore hprocs hmy hkend htr
  · by_cases hra : r = a
    · subst hra
      rw [Ghost.setOwn_self] at hr
      rcases hnew with h | h <;> rw [h] at hr <;> cases hr
    · rwa [Ghost.setOwn_of_ne u hra] at hr
  · have hba := hout hb (by simp) (by simp)
    exact ⟨(Ghost.setOwn_of_ne u hba).trans hb, hmem b hba⟩

end

end Mem

end Xv6
