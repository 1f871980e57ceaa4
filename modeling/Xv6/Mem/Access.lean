import Xv6.Mem.Mapping

/-!
# Faults and translations

Specifications of `vmfault`, `walkaddr`, the page-fault branch of `usertrap`, and the loads and
stores that it serves, for the process that is running.

All of them bring pages in: a page that was never touched is mapped as a page of zeros, a swapped
page comes back from its slot. Neither changes a logical page, so the specifications are
`Background (Below r sz) NoEntry T NoPage`: entries of the process below its size may change,
logical pages may not. All but `walkaddr` put the page into the frame table: `T` is empty unless a
swapped page is brought back by `walkaddr`, or the table is not that of the process.

A user access faults at most twice: the first fault brings the page in, and a second one means
that the entry does not permit the access, for which the process is killed
(`userAccess_spec`).
-/

namespace Xv6

namespace Mem

open WeakestPre

variable {E : Halt → Kernel → Prop} {Q : ℕ → Kernel → Prop} {T X : ℕ → Key → Prop} {Y : ℕ → Prop}
  {g g' g₁ : Ghost} {k : Key} {perm : Pte} {r sz va : ℕ} {s s' s₁ : Kernel}

variable {N : ℕ → ℕ → Prop} {alloc : M ℕ}

/-! ### The running process -/

/-- The entries of the address space `r` below `n`. -/
def Below (r n : ℕ) : ℕ → Key → Prop := fun r' k => r' = r ∧ k.addr < n

/-- Process `p`, with page table `r`, is running. -/
structure Running (g : Ghost) (s : Kernel) (p r : ℕ) : Prop where
  myproc : s.myproc = some p
  pagetable : (s.procs p).pagetable = r
  root : g.own r = .root
  sz : (s.procs p).sz ≤ trapframe
  /-- Nothing is mapped above the size. -/
  absent : ∀ k, UserKey k → (s.procs p).sz ≤ k.addr → leaf s.mem r k = 0#64

/-- Process `p` works on the address space `r`, its own or a second one, in which nothing is mapped
from `sz` on. -/
structure Working (N : ℕ → ℕ → Prop) (g : Ghost) (s : Kernel) (p r sz : ℕ) : Prop where
  myproc : s.myproc = some p
  table : HasTable N s p r
  root : g.own r = .root
  limit : (s.procs p).sz ≤ trapframe
  le : sz ≤ trapframe
  absent : ∀ k, UserKey k → sz ≤ k.addr → leaf s.mem r k = 0#64

theorem vkey_pgrounddown (h : va < maxva) : vkey (pgrounddown va) = vkey va := by
  simp only [maxva_eq] at h
  rw [pgrounddown, pgsize_eq]
  exact (vkey_inj (by omega) (by omega)).mpr (by omega)

section

variable {p : ℕ}

theorem Running.working (hp : Running g s p r) : Working N g s p r (s.procs p).sz :=
  ⟨hp.myproc, Or.inl hp.pagetable, hp.root, hp.sz, hp.sz, hp.absent⟩

theorem Working.background (hw : Working N g s p r sz) {Z : ℕ → Key → Prop}
    (hb : Background (Below r sz) Z T Y g g' s s') : Working N g' s' p r sz where
  myproc := hb.myproc.trans hw.myproc
  table := hw.table.congr (hb.pagetable p)
  root := hb.own_root hw.root
  limit := (hb.procs p).sz.trans_le hw.limit
  le := hw.le
  absent k hk hsz := by
    have h0 := hw.absent k hk hsz
    rw [hb.leaf_eq hw.root (fun hx => absurd hx.2 (not_lt.mpr hsz))
      (by rw [h0]; exact not_valid_zero),
      h0]

theorem Running.background (hp : Running g s p r) {Z : ℕ → Key → Prop}
    (hb : Background (Below r (s.procs p).sz) Z T Y g g' s s') : Running g' s' p r := by
  have hw := (hp.working (N := NoTable)).background hb
  refine ⟨hw.myproc, (hb.pagetable p).trans hp.pagetable, hw.root, hw.limit, fun k hk hsz => ?_⟩
  rw [(hb.procs p).sz] at hsz
  exact hw.absent k hk hsz

theorem wp_getMyproc (hp : s.myproc = some p) : wp getMyproc Q E s ↔ Q p s := by
  simp only [getMyproc, wp_bind, wp_get, hp, wp_pure]

theorem wp_ismapped (hva : va < maxva) {Q : Bool → Kernel → Prop} :
    wp (ismapped r va) Q E s ↔ Q (has (leaf s.mem r (vkey va)) pteV) s := by
  rw [ismapped, wp_bind, wp_walk_none hva]
  cases hlow : lowPage s.mem r (vkey va).1 (vkey va).2.1 with
  | none =>
    rw [leaf_of_lowPage_none hlow]
    exact wp_pure
  | some b =>
    simp only [Option.map_some, wp_bind, wp_get, wp_pure, readPte_low hlow]

end

/-! ### A fresh page -/

/-- What mapping a fresh page with the contents `pg` gives. -/
structure Filled (N : ℕ → ℕ → Prop) (g g' : Ghost) (s s' : Kernel) (r : ℕ) (k : Key) (pa : ℕ)
    (perm : Pte) (pg : Page) : Prop where
  inv : Inv N g' s'
  background : Background (EntryAt r k) (EntryAt r k) (EntryAt r k) NoPage g g' s s'
  user : g'.own pa = .user r k
  leaf : leaf s'.mem r k = mapPte pa perm
  logical : logicalPage s' r k = pg

theorem Allocated.map_spec {s₂ : Kernel} {pa : ℕ} (halloc : Allocates N alloc)
    (ha : Allocated N g g₁ s s₁ pa) (h₂ : Inv N g₁ s₂)
    (hback : Background NoEntry NoEntry NoEntry (· = pa) g₁ g₁ s₁ s₂) (hr : g.own r = .root)
    (hva : va < trapframe) (hal : va % 4096 = 0) (hf : perm.toNat < 1024)
    (hs : perm.getLsbD 8 = false) (h0 : leaf s.mem r (vkey va) = 0#64) :
    wp (mappages alloc r va pgsize pa perm)
      (fun ret s' => ret = 0 ∧ ∃ g', Filled N g g' s s' r (vkey va) pa perm (s₂.mem pa))
      (Exhausted N) s₂ := by
  have hr₁ := ha.background.own_root hr
  have hnv : ∀ {pte : Pte}, pte = 0#64 → ¬ Valid pte := fun he => by rw [he]; exact not_valid_zero
  have hleaf₁ : Mem.leaf s₁.mem r (vkey va) = 0#64 :=
    (ha.background.leaf_eq hr not_false (hnv h0)).trans h0
  have hleaf₂ : Mem.leaf s₂.mem r (vkey va) = 0#64 :=
    (hback.leaf_eq hr₁ not_false (hnv hleaf₁)).trans hleaf₁
  have hman : Managed s₂.kend pa := (hback.kend.trans ha.background.kend) ▸ ha.managed
  refine wp_imp (mappages_spec halloc h₂ hr₁ hva hal ha.reserved hman hf hs hleaf₂)
    fun ret s' hm => ?_
  obtain ⟨rfl, g', hm⟩ := hm
  have hmaps : MapsTo (Mem.leaf s'.mem r (vkey va)) pa := by
    rw [hm.leaf]
    exact mapsTo_mapPte hman.1 hman.pageAddr.2 hf hs
  refine ⟨rfl, g', hm.inv, ha.background_trans (hback.weaken.seq hm.background), hm.user,
    hm.leaf, ?_⟩
  rw [logicalPage_of_valid hmaps, hm.mem]

theorem Allocated.fill_spec {pa : ℕ} (halloc : Allocates N alloc) (ha : Allocated N g g₁ s s₁ pa)
    (hr : g.own r = .root) (hva : va < trapframe) (hal : va % 4096 = 0) (hf : perm.toNat < 1024)
    (hs : perm.getLsbD 8 = false) (h0 : leaf s.mem r (vkey va) = 0#64) (pg : Page) :
    wp (mappages alloc r va pgsize pa perm)
      (fun ret s' => ret = 0 ∧ ∃ g', Filled N g g' s s' r (vkey va) pa perm pg) (Exhausted N)
      (s₁.setPage pa pg) := by
  have hm := ha.map_spec halloc (ha.inv.setPage ha.reserved pg)
    (Background.setPage ha.inv ha.reserved pg) hr hva hal hf hs h0
  rwa [show (s₁.setPage pa pg).mem pa = pg from Function.update_self _ _ _] at hm

/-- A page that has been mapped into the table of its process is tracked. -/
theorem Filled.track_spec {p pa : ℕ} {pg : Page} (hm : Filled N g g' s s' r (vkey va) pa perm pg)
    (ht : (s.procs p).pagetable = r) (hva : va < trapframe) (hal : va % 4096 = 0) :
    wp (trackFrame (some p) va pa) (fun _ s'' => Inv N g' s'' ∧
      Background (EntryAt r (vkey va)) (EntryAt r (vkey va)) NoEntry NoPage g g' s s'' ∧
      (g.owned → g.own r = .root → logicalPage s'' r (vkey va) = pg)) E s' := by
  have ht' := (hm.background.pagetable p).trans ht
  refine wp_imp (trackFrame_spec hm.inv (Or.inl ht') hm.user hva) fun _ s'' htr => ?_
  obtain ⟨h'', hback, -, htrk⟩ := htr
  refine ⟨h'', (hm.background.seq
    (hback.mono NoEntry.le NoEntry.le (fun _ _ h => h) fun _ _ h => h)).track
    fun r' k' _ he => by rw [he.1, he.2]; exact htrk ht' hal, fun ho hr => ?_⟩
  rw [hback.logical (hm.background.owned ▸ ho) r _ (hm.background.own_root hr) (userKey_vkey hva)
    not_false, hm.logical]

/-- What mapping a fresh page of zeros gives: the logical page is the same. -/
structure ZeroMapped (N : ℕ → ℕ → Prop) (g g' : Ghost) (s s' : Kernel) (r : ℕ) (k : Key) (pa : ℕ)
    (perm : Pte) : Prop where
  inv : Inv N g' s'
  background : Background (EntryAt r k) NoEntry (EntryAt r k) NoPage g g' s s'
  user : g'.own pa = .user r k
  leaf : leaf s'.mem r k = mapPte pa perm

theorem Allocated.zeroFill_spec {pa : ℕ} (halloc : Allocates N alloc)
    (ha : Allocated N g g₁ s s₁ pa) (hr : g.own r = .root) (hva : va < trapframe)
    (hal : va % 4096 = 0) (hf : perm.toNat < 1024) (hs : perm.getLsbD 8 = false)
    (h0 : leaf s.mem r (vkey va) = 0#64) :
    wp (mappages alloc r va pgsize pa perm)
      (fun ret s' => ret = 0 ∧ ∃ g', ZeroMapped N g g' s s' r (vkey va) pa perm) (Exhausted N)
      (s₁.setPage pa Page.zero) := by
  refine wp_imp (ha.fill_spec halloc hr hva hal hf hs h0 Page.zero) fun ret s' hm => ?_
  obtain ⟨rfl, g', hm⟩ := hm
  refine ⟨rfl, g', hm.inv, hm.background.of_logical ?_, hm.user, hm.leaf⟩
  rw [hm.logical, logicalPage_of_zero h0]

/-! ### The lazy fault handler -/

theorem lt_trapframe_of_userKey (hva : va < maxva) (hk : UserKey (vkey va)) : va < trapframe := by
  simp only [maxva_eq] at hva
  rw [UserKey, addr_vkey (by omega)] at hk
  simp only [trapframe_eq] at hk ⊢
  omega

/-- The page of an address below the size lies below the size. -/
theorem below_vkey {n : ℕ} (hva : va < n) (hn : n ≤ trapframe) : Below r n r (vkey va) := by
  simp only [trapframe_eq] at hn
  refine ⟨rfl, ?_⟩
  rw [addr_vkey (by omega)]
  omega

theorem entryAt_of (h : X r k) (r' : ℕ) (k' : Key) (he : EntryAt r k r' k') : X r' k' := by
  rw [he.1, he.2]
  exact h

/-- A page of the table of the process has been tracked; one of another table may be missing. -/
theorem Background.trackOwn {Z : ℕ → Key → Prop} {p : ℕ}
    (h : Background X Z (EntryAt r k) Y g g' s s') (ht : (s.procs p).pagetable = r → Tracked s' r k)
    (hT : (s.procs p).pagetable ≠ r → T r k) : Background X Z T Y g g' s s' := by
  by_cases hpt : (s.procs p).pagetable = r
  · refine (h.track fun r' k' _ he => ?_).mono (fun _ _ h => h) (fun _ _ h => h) NoEntry.le
      fun _ _ h => h
    rw [he.1, he.2]
    exact ht hpt
  · exact h.mono (fun _ _ h => h) (fun _ _ h => h) (entryAt_of (hT hpt)) fun _ _ h => h

/-- What a handled fault or a translation gives: the page of the entry `k` is present. Entries in
`X` may have changed, and pages in `T` may be missing in the frame table. -/
structure Brought (N : ℕ → ℕ → Prop) (X T : ℕ → Key → Prop) (g : Ghost) (s s' : Kernel) (r : ℕ)
    (k : Key) (pa : ℕ) : Prop where
  inv : ∃ g', Inv N g' s' ∧ Background X NoEntry T NoPage g g' s s' ∧ g'.own pa = .user r k
  maps : MapsTo (leaf s'.mem r k) pa

/-- **`vmfault`** on an entry that is not swapped: it does nothing, or it maps a page of zeros. -/
theorem vmfault_spec {p : ℕ} (halloc : Allocates N alloc) (h : Inv N g s) (hmy : s.myproc = some p)
    (ht : HasTable N s p r) (hr : g.own r = .root) (hsz : (s.procs p).sz ≤ trapframe)
    (hns : va < (s.procs p).sz → ¬ Swapped (leaf s.mem r (vkey va)))
    (hX : va < (s.procs p).sz → X r (vkey va))
    (hT : (s.procs p).pagetable ≠ r → va < (s.procs p).sz → T r (vkey va)) :
    wp (vmfault alloc r va) (fun pa s' =>
      (pa = 0 ∧ s' = s ∧ (va < (s.procs p).sz → Valid (leaf s.mem r (vkey va)))) ∨
      (pa ≠ 0 ∧ va < (s.procs p).sz ∧ ¬ Valid (leaf s.mem r (vkey va)) ∧
        Brought N X T g s s' r (vkey va) pa ∧
        leaf s'.mem r (vkey va) = mapPte pa (pteW ||| pteU ||| pteR))) (Exhausted N) s := by
  rw [vmfault, wp_bind, wp_getMyproc hmy, wp_bind, wp_get]
  by_cases hge : va ≥ (s.procs p).sz
  · rw [if_pos hge]
    exact Or.inl ⟨rfl, rfl, fun hlt => absurd hge (not_le.mpr hlt)⟩
  have hva : va < (s.procs p).sz := not_le.mp hge
  have htf : va < trapframe := hva.trans_le hsz
  have hkey := vkey_pgrounddown (lt_maxva htf)
  have hdown : pgrounddown va < trapframe := (Nat.div_mul_le_self _ _).trans_lt htf
  rw [if_neg hge, wp_bind, wp_ismapped (lt_maxva hdown), hkey]
  by_cases hv : Valid (leaf s.mem r (vkey va))
  · rw [valid_iff.mpr hv, if_pos rfl]
    exact Or.inl ⟨rfl, rfl, fun _ => hv⟩
  · rw [if_neg (mt valid_iff.mp hv)]
    have h0 := h.leaf_eq_zero hr (userKey_vkey htf) hv (hns hva)
    refine wp_call (halloc h) fun pa s₁ ha => ?_
    obtain ⟨g₁, ha⟩ := ha
    simp only [if_neg (ha.ne_zero h), wp_bind, wp_pure, wp_modify]
    refine wp_imp (ha.zeroFill_spec halloc hr hdown (Nat.mul_mod_left _ _) (by decide) (by decide)
      (by rw [hkey]; exact h0)) fun ret s₂ hm => ?_
    obtain ⟨rfl, g₂, hm⟩ := hm
    have hu := hm.user
    rw [hkey] at hm
    have hback := hm.background.mono (entryAt_of (hX hva)) (fun _ _ h => h) (fun _ _ h => h)
      fun _ _ h => h
    rw [if_neg (by simp)]
    refine wp_call (trackFrame_spec hm.inv (ht.congr (hback.pagetable p)) hu hdown)
      fun _ s₃ ht => ?_
    rw [hkey] at ht
    obtain ⟨h₃, hback₃, hmem, htr⟩ := ht
    have hall := hback.seq (hback₃.mono NoEntry.le (fun _ _ h => h) (fun _ _ h => h) fun _ _ h => h)
    refine Or.inr ⟨ha.ne_zero h, hva, hv, ⟨⟨g₂, h₃, hall.trackOwn (fun hpt => ?_)
      fun hpt => hT hpt hva, hm.user⟩, ?_⟩, by rw [hmem]; exact hm.leaf⟩
    · exact htr ((hback.pagetable p).trans hpt) (Nat.mul_mod_left _ _)
    rw [hmem]
    exact (hm.inv.entries.user _ _ _ hm.user).2.2

/-! ### Translation -/

section

variable {p : ℕ}

theorem Working.below_of_swapped (hw : Working N g s p r sz) (hk : UserKey k)
    (hs : Swapped (leaf s.mem r k)) : Below r sz r k := by
  refine ⟨rfl, not_le.mp fun hsz => ?_⟩
  rw [hw.absent k hk hsz] at hs
  exact not_swapped_zero hs

theorem Running.below_of_swapped (hp : Running g s p r) (hk : UserKey k)
    (hs : Swapped (leaf s.mem r k)) : Below r (s.procs p).sz r k :=
  (hp.working (N := NoTable)).below_of_swapped hk hs

/-- An entry with the swapped flag is one of user memory. -/
theorem Inv.swapped_of_flag (h : Inv N g s) (hr : g.own r = .root)
    (h8 : (leaf s.mem r k).getLsbD 8 = true) : UserKey k ∧ Swapped (leaf s.mem r k) := by
  have hk : UserKey k := by
    by_contra hk
    rw [(h.entries.top r k hr hk).getLsbD.1] at h8
    cases h8
  refine ⟨hk, ?_⟩
  rcases h.entries.wf r k hr hk with h0 | ⟨-, h8'⟩ | hs
  · rw [h0] at h8
    simp at h8
  · rw [h8'] at h8
    cases h8
  · exact hs

/-- An entry with the user flag is one of user memory. -/
theorem Inv.userKey_of_flag (h : Inv N g s) (hr : g.own r = .root)
    (h4 : (leaf s.mem r k).getLsbD 4 = true) : UserKey k := by
  by_contra hk
  rw [(h.entries.top r k hr hk).getLsbD.2] at h4
  cases h4

theorem wp_userPage {b : ℕ} (hread : s.readPte (b, k.2.2) = leaf s.mem r k) :
    wp (userPage (b, k.2.2)) Q E s
      ↔ Q (if (leaf s.mem r k).getLsbD 4 = true then pte2pa (leaf s.mem r k) else 0) s := by
  simp only [userPage, wp_bind, wp_get, hread, has_pteU]
  split <;> exact wp_pure

/-- The page of a user entry that is valid. -/
theorem Inv.brought (h : Inv N g' s') (hb : Background X NoEntry T NoPage g g' s s')
    (hr : g.own r = .root) (hk : UserKey k) (hv : Valid (leaf s'.mem r k)) :
    Brought N X T g s s' r k (pte2pa (leaf s'.mem r k)) :=
  ⟨⟨g', h, hb, h.entries.page r k (hb.own_root hr) hk hv⟩, h.mapsTo (hb.own_root hr) hk hv⟩

/-- What a translation gives: `0`, or the page of the entry. -/
structure Translated (N : ℕ → ℕ → Prop) (X T : ℕ → Key → Prop) (g : Ghost) (s s' : Kernel)
    (r : ℕ) (k : Key) (pa : ℕ) : Prop where
  inv : ∃ g', Inv N g' s' ∧ Background X NoEntry T NoPage g g' s s'
  not_swapped : ¬ Swapped (leaf s'.mem r k)
  page : pa ≠ 0 → UserKey k ∧ Brought N X T g s s' r k pa

/-- `walkaddr` finds the page of a valid entry. -/
theorem wp_walkaddr_valid (hva : va < maxva) (hv : Valid (leaf s.mem r (vkey va))) :
    wp (walkaddr alloc r va) Q E s ↔ Q (if (leaf s.mem r (vkey va)).getLsbD 4 = true
      then pte2pa (leaf s.mem r (vkey va)) else 0) s := by
  rw [walkaddr, if_neg (not_le.mpr hva), wp_bind, wp_walk_none hva]
  cases hlow : lowPage s.mem r (vkey va).1 (vkey va).2.1 with
  | none =>
    rw [leaf_of_lowPage_none hlow] at hv
    exact absurd hv not_valid_zero
  | some b =>
    simp only [Option.map_some, wp_bind, wp_get, readPte_low hlow, valid_iff]
    rw [if_pos hv, wp_userPage (readPte_low hlow)]

/-- `walkaddr` does nothing on an entry that is neither valid nor swapped. -/
theorem wp_walkaddr_absent (hva : va < maxva) (hv : ¬ Valid (leaf s.mem r (vkey va)))
    (h8 : (leaf s.mem r (vkey va)).getLsbD 8 = false) : wp (walkaddr alloc r va) Q E s ↔ Q 0 s := by
  rw [walkaddr, if_neg (not_le.mpr hva), wp_bind, wp_walk_none hva]
  cases hlow : lowPage s.mem r (vkey va).1 (vkey va).2.1 with
  | none => exact wp_pure
  | some b =>
    simp only [Option.map_some, wp_bind, wp_get, readPte_low hlow, valid_iff, has_pteSwapped]
    rw [if_neg hv, if_neg (by rw [h8]; simp)]
    exact wp_pure

/-- The page that `walkaddr` finds in a valid entry. -/
theorem Inv.translated (h : Inv N g' s') (hb : Background X NoEntry T NoPage g g' s s')
    (hr : g.own r = .root) (hv : Valid (leaf s'.mem r k)) :
    Translated N X T g s s' r k
      (if (leaf s'.mem r k).getLsbD 4 = true then pte2pa (leaf s'.mem r k) else 0) := by
  refine ⟨⟨g', h, hb⟩, fun hs => hs.not_valid hv, fun hpa => ?_⟩
  split at hpa
  · rename_i h4
    have hk := h.userKey_of_flag (hb.own_root hr) h4
    rw [if_pos h4]
    exact ⟨hk, h.brought hb hr hk hv⟩
  · exact absurd rfl hpa

/-- **`walkaddr` brings a swapped page back.** -/
theorem walkaddr_swapped_spec (halloc : Allocates N alloc) (h : Inv N g s) (hr : g.own r = .root)
    (hva : va < maxva) (hk : UserKey (vkey va)) (hs : Swapped (leaf s.mem r (vkey va)))
    (hX : X r (vkey va)) (hT : T r (vkey va)) :
    wp (walkaddr alloc r va) (fun pa s' => Translated N X T g s s' r (vkey va) pa ∧
      Valid (leaf s'.mem r (vkey va))) (Exhausted N) s := by
  rw [walkaddr, if_neg (not_le.mpr hva), wp_bind, wp_walk_none hva]
  cases hlow : lowPage s.mem r (vkey va).1 (vkey va).2.1 with
  | none =>
    rw [leaf_of_lowPage_none hlow] at hs
    exact absurd hs not_swapped_zero
  | some b =>
    have hb := (h.layout.tables.lowPage_eq_some hr).mp hlow
    simp only [Option.map_some, wp_bind, wp_get, readPte_low hlow, valid_iff, has_pteSwapped]
    rw [if_neg hs.not_valid, if_pos hs.2]
    refine wp_call (halloc h) fun pa s₁ ha => ?_
    obtain ⟨g₁, ha⟩ := ha
    simp only [if_neg (ha.ne_zero h), wp_bind, wp_get, wp_swapIn, wp_modify, walkaddrPte_eq]
    obtain ⟨g', hinv, hback, -, hleaf⟩ := ha.swapIn hr hk hb hs rfl rfl
    have hback' := hback.mono (entryAt_of hX) (fun _ _ h => h) (entryAt_of hT) fun _ _ h => h
    have hlow' := (hinv.layout.tables.lowPage_eq_some (hback.own_root hr)).mpr (hback.own_low hb)
    have hv := (mapsTo_usertrapPte ha.managed.1 ha.managed.pageAddr.2
      (leaf s.mem r (vkey va))).valid
    rw [← hleaf] at hv
    rw [wp_userPage (readPte_low hlow')]
    exact ⟨hinv.translated hback' hr hv, hv⟩

/-- **`walkaddr`** -/
theorem walkaddr_spec (halloc : Allocates N alloc) (h : Inv N g s) (hr : g.own r = .root)
    (hva : va < maxva) (hX : UserKey (vkey va) → Swapped (leaf s.mem r (vkey va)) → X r (vkey va))
    (hT : Swapped (leaf s.mem r (vkey va)) → T r (vkey va)) :
    wp (walkaddr alloc r va) (fun pa s' => Translated N X T g s s' r (vkey va) pa) (Exhausted N)
      s := by
  by_cases hv : Valid (leaf s.mem r (vkey va))
  · rw [wp_walkaddr_valid hva hv]
    exact h.translated (Background.refl h) hr hv
  cases h8 : (leaf s.mem r (vkey va)).getLsbD 8 with
  | true =>
    obtain ⟨hk, hs⟩ := h.swapped_of_flag hr h8
    exact wp_imp (walkaddr_swapped_spec halloc h hr hva hk hs (hX hk hs) (hT hs)) fun _ _ ht => ht.1
  | false =>
    rw [wp_walkaddr_absent hva hv h8]
    refine ⟨⟨g, h, Background.refl h⟩, fun hs => ?_, fun hne => absurd rfl hne⟩
    rw [hs.2] at h8
    cases h8

/-- **The page for one iteration of a copy**: the whole page, present, or `0`. `vmfault` looks at
the size of the process, which may be larger than that of a second address space. -/
theorem copyPage_spec (halloc : Allocates N alloc) (h : Inv N g s) (hw : Working N g s p r sz)
    (hlim : va < (s.procs p).sz → va < sz)
    (hT : va < maxva → Swapped (leaf s.mem r (vkey va)) ∨ (s.procs p).pagetable ≠ r →
      T r (vkey va)) :
    wp (copyPage alloc r va) (fun pa s' =>
      (∃ g', Inv N g' s' ∧ Background (Below r sz) NoEntry T NoPage g g' s s') ∧
      (pa ≠ 0 → va < maxva ∧ UserKey (vkey va) ∧
        Brought N (Below r sz) T g s s' r (vkey va) pa)) (Exhausted N) s := by
  rw [copyPage]
  by_cases hva : va < maxva
  · refine wp_call (walkaddr_spec halloc h hw.root hva (fun hk hs => hw.below_of_swapped hk hs)
      fun hs => hT hva (Or.inl hs)) fun pa s₁ ht => ?_
    by_cases hpa : pa = 0
    · rw [if_pos hpa]
      obtain ⟨⟨g₁, h₁, hback⟩, hns, -⟩ := ht
      have hw₁ := hw.background hback
      have hsz : (s₁.procs p).sz = (s.procs p).sz := (hback.procs p).sz
      refine wp_imp (vmfault_spec (X := Below r sz) (T := T) halloc
        h₁ hw₁.myproc hw₁.table hw₁.root
        hw₁.limit (fun _ => hns) (fun hlt => below_vkey (hlim (hsz ▸ hlt)) hw.le) fun hne _ => ?_)
        fun pa' s' hf => ?_
      · exact hT hva (Or.inr ((hback.pagetable p) ▸ hne))
      rcases hf with ⟨rfl, rfl, -⟩ | ⟨hne, hlt, -, ⟨⟨g', h', hback', hown⟩, hmaps⟩, -⟩
      · exact ⟨⟨g₁, h₁, hback⟩, fun hne => absurd rfl hne⟩
      · have hall := hback.trans hback' (W := NoPage) fun _ _ h => h.elim id id
        exact ⟨⟨g', h', hall⟩, fun _ => ⟨hva, userKey_vkey (hlt.trans_le hw₁.limit),
          ⟨g', h', hall, hown⟩, hmaps⟩⟩
    · rw [if_neg hpa]
      exact ⟨ht.inv, fun hne => ⟨hva, ht.page hne⟩⟩
  · -- neither `walkaddr` nor `vmfault` does anything here
    have hsz : ¬ va < (s.procs p).sz := fun hlt => hva (lt_maxva (hlt.trans_le hw.limit))
    rw [walkaddr, if_pos (not_lt.mp hva), wp_bind, wp_pure, if_pos rfl]
    refine wp_imp (vmfault_spec (X := Below r sz) (T := T) halloc
      h hw.myproc hw.table hw.root hw.limit
      (fun hlt => absurd hlt hsz) (fun hlt => absurd hlt hsz) fun _ hlt => absurd hlt hsz)
      fun pa' s' hf => ?_
    rcases hf with ⟨rfl, rfl, -⟩ | ⟨-, hlt, -⟩
    · exact ⟨⟨g, h, Background.refl h⟩, fun hne => absurd rfl hne⟩
    · exact absurd hlt hsz

end

/-! ### Page faults of user code -/

/-- The state with process `p` killed. -/
def Kernel.kill (p : ℕ) (s : Kernel) : Kernel :=
  s.modProc (some p) fun q => { q with killed := true }

/-- Why a user access does not return: an allocation does not, or the address is beyond what
`walk` accepts. -/
def Stops (N : ℕ → ℕ → Prop) (va : ℕ) (e : Halt) (s : Kernel) : Prop :=
  Exhausted N e s ∨ (e = .panic "walk" ∧ maxva ≤ va)

/-- What the page-fault branch of `usertrap` gives: the page is present, or the process is
killed. -/
structure Faulted (N : ℕ → ℕ → Prop) (g : Ghost) (s s' : Kernel) (p r : ℕ) (k : Key) : Prop where
  outcome : ∃ g' s₁, Inv N g' s₁ ∧
    Background (Below r (s.procs p).sz) NoEntry NoEntry NoPage g g' s s₁ ∧
    ((s' = s₁ ∧ ¬ Valid (leaf s.mem r k) ∧ Valid (leaf s₁.mem r k)) ∨ s' = s₁.kill p)

section

variable {p : ℕ}

/-- Statistics do not matter. -/
theorem Inv.stats (h : Inv N g s) {o : Option ℕ} {f : Proc → Proc} (hf : ∀ q, SameProc q (f q)) :
    Inv N g (s.modProc o f) ∧
      Background NoEntry NoEntry NoEntry NoPage g g s (s.modProc o f) := by
  have hprocs : ∀ q, SameProc (s.procs q) ((s.modProc o f).procs q) := fun q =>
    .modProc hf (.refl _)
  exact ⟨h.frame (fun _ _ => by simp) (by simp) (by simp) (by simp)
    (fun i hi => by rw [Kernel.modProc_frames] at hi ⊢; exact ⟨hi, rfl, rfl⟩)
    (by simpa using h.frameTable.hand) fun q => ⟨(hprocs q).pagetable, (hprocs q).trapframe⟩,
    .of_mem h (fun _ => False.elim) (fun _ _ => by simp) (fun _ => by simp [FrameKept])
      (by simp) hprocs (by simp) (by simp) (by simp)⟩

theorem vmfault_kill_spec {g₀ : Ghost} {s₀ : Kernel} (halloc : Allocates N alloc)
    (h : Inv N g s) (hp : Running g s p r)
    (hb : Background (Below r (s₀.procs p).sz) NoEntry NoEntry NoPage g₀ g s₀ s)
    (hleaf : leaf s.mem r (vkey va) = leaf s₀.mem r (vkey va))
    (hns : ¬ Swapped (leaf s.mem r (vkey va))) :
    wp (do
      let pa ← vmfault alloc r va
      if pa ≠ 0 then pure () else setkilled p)
      (fun _ s' => Faulted N g₀ s₀ s' p r (vkey va)) (Exhausted N) s := by
  have hsz : (s.procs p).sz = (s₀.procs p).sz := (hb.procs p).sz
  refine wp_call (vmfault_spec (T := NoEntry) halloc h hp.myproc (Or.inl hp.pagetable) hp.root hp.sz
    (fun _ => hns) (fun hlt => below_vkey hlt hp.sz)
    fun hne => absurd hp.pagetable hne) fun pa s₁ hf => ?_
  rcases hf with ⟨rfl, rfl, -⟩ | ⟨hne, -, hnv, ⟨⟨g', h', hback, -⟩, hmaps⟩, -⟩
  · rw [if_neg (by simp)]
    exact ⟨g, s₁, h, hb, Or.inr rfl⟩
  · rw [if_pos hne]
    rw [hsz] at hback
    exact ⟨g', s₁, h', hb.seq hback,
      Or.inl ⟨rfl, hleaf ▸ hnv, hmaps.valid⟩⟩

/-- **The page-fault branch of `usertrap`.** -/
theorem pageFault_spec (halloc : Allocates N alloc) (h : Inv N g s) (hp : Running g s p r) :
    wp (pageFault alloc va) (fun _ s' => Faulted N g s s' p r (vkey va)) (Stops N va) s := by
  rw [pageFault, wp_bind, wp_getMyproc hp.myproc, wp_bind, wp_modify, wp_bind, wp_get]
  obtain ⟨h₀, hback₀⟩ := h.stats (o := some p)
    (f := fun q => { q with pageFaults := q.pageFaults + 1 })
    fun _ => by constructor <;> rfl
  have hmem₀ := Kernel.modProc_mem (some p) (fun q => { q with pageFaults := q.pageFaults + 1 }) s
  generalize s.modProc (some p) (fun q => { q with pageFaults := q.pageFaults + 1 }) = s₀ at *
  have hb₀ : Background (Below r (s.procs p).sz) NoEntry NoEntry NoPage g g s s₀ :=
    hback₀.mono NoEntry.le (fun _ _ h => h) (fun _ _ h => h) fun _ _ h => h
  have hp₀ := hp.background hb₀
  rw [hp₀.pagetable]
  by_cases hva : va < maxva
  · have hkey := vkey_pgrounddown hva
    have hdown : pgrounddown va < maxva := (Nat.div_mul_le_self _ _).trans_lt hva
    have hleaf : leaf s₀.mem r (vkey va) = leaf s.mem r (vkey va) := by rw [hmem₀]
    rw [wp_bind, wp_walk_none hdown, hkey]
    cases hlow : lowPage s₀.mem r (vkey va).1 (vkey va).2.1 with
    | none =>
      refine wp_error_imp (vmfault_kill_spec halloc h₀ hp₀ hb₀ hleaf ?_) fun _ _ he => Or.inl he
      rw [leaf_of_lowPage_none hlow]
      exact not_swapped_zero
    | some b =>
      have hb := (h₀.layout.tables.lowPage_eq_some hp₀.root).mp hlow
      simp only [Option.map_some, wp_bind, wp_get, readPte_low hlow, has_pteSwapped]
      by_cases h8 : (leaf s₀.mem r (vkey va)).getLsbD 8 = true
      · obtain ⟨hk, hs⟩ := h₀.swapped_of_flag hp₀.root h8
        have htf : pgrounddown va < trapframe :=
          (Nat.div_mul_le_self _ _).trans_lt (lt_trapframe_of_userKey hva hk)
        rw [if_pos h8]
        refine wp_call (wp_error_imp (halloc h₀) fun _ _ he => Or.inl he) fun pa s₁ ha => ?_
        obtain ⟨g₁, ha⟩ := ha
        simp only [if_neg (ha.ne_zero h₀), wp_bind, wp_get, wp_swapIn, wp_modify]
        obtain ⟨g', hinv, hback, hown, hleaf'⟩ := ha.swapIn hp₀.root hk hb hs rfl rfl
        have hbelow := hp₀.below_of_swapped hk hs
        have hsz : (s₀.procs p).sz = (s.procs p).sz := (hback₀.procs p).sz
        rw [hsz] at hbelow
        have hbring := hback.mono (entryAt_of hbelow) (fun _ _ h => h) (fun _ _ h => h)
          fun _ _ h => h
        have hp₁ := hp₀.background (hsz ▸ hbring)
        have hu := hown
        rw [← hkey] at hu
        refine wp_imp (trackFrame_spec hinv (Or.inl hp₁.pagetable) hu htf) fun _ s' ht => ?_
        rw [hkey] at ht
        obtain ⟨h', hback', hmem', htr⟩ := ht
        have hall := hbring.seq (hback'.mono NoEntry.le (fun _ _ h => h) (fun _ _ h => h)
          fun _ _ h => h)
        refine ⟨g', s', h', hb₀.seq (hall.trackOwn (p := p)
          (fun _ => htr hp₁.pagetable (Nat.mul_mod_left _ _)) fun hne => absurd hp₀.pagetable hne),
          Or.inl ⟨rfl, hleaf ▸ hs.not_valid, ?_⟩⟩
        rw [hmem', hleaf']
        exact (mapsTo_usertrapPte ha.managed.1 ha.managed.pageAddr.2 _).valid
      · rw [if_neg h8, hp₀.pagetable]
        exact wp_error_imp (vmfault_kill_spec halloc h₀ hp₀ hb₀ hleaf fun hs => h8 hs.2)
          fun _ _ he => Or.inl he
  · have hdown : pgrounddown va ≥ maxva := by
      simp only [pgrounddown, pgsize_eq, maxva_eq] at hva ⊢
      omega
    rw [wp_bind, walk, if_pos hdown, wp_throw]
    exact Or.inr ⟨rfl, not_lt.mp hva⟩

end

/-! ### Loads and stores -/

/-- The process is killed, and its memory is as before. -/
def Ended (N : ℕ → ℕ → Prop) (g : Ghost) (s s' : Kernel) (p r : ℕ) : Prop :=
  ∃ g' s₁, Inv N g' s₁ ∧ Background (Below r (s.procs p).sz) NoEntry NoEntry NoPage g g' s s₁ ∧
    s' = s₁.kill p

/-- What a user access gives: the page it touches, or the end of the process. -/
def Accessed (N : ℕ → ℕ → Prop) (g : Ghost) (s s' : Kernel) (p r va : ℕ) : Option ℕ → Prop
  | some pa => va < trapframe ∧ Brought N (Below r (s.procs p).sz) NoEntry g s s' r (vkey va) pa
  | none => Ended N g s s' p r

section

variable {p : ℕ} {need : Pte}

/-- Faults and accesses compose. -/
theorem Accessed.trans {o : Option ℕ}
    (hb : Background (Below r (s.procs p).sz) NoEntry NoEntry NoPage g g₁ s s₁)
    (h : Accessed N g₁ s₁ s' p r va o) : Accessed N g s s' p r va o := by
  have hsz : (s₁.procs p).sz = (s.procs p).sz := (hb.procs p).sz
  cases o with
  | none =>
    obtain ⟨g', s₂, h', hback, he⟩ := h
    rw [hsz] at hback
    exact ⟨g', s₂, h', hb.seq hback, he⟩
  | some pa =>
    obtain ⟨hk, ⟨g', h', hback, hown⟩, hm⟩ := h
    rw [hsz] at hback
    exact ⟨hk, ⟨g', h', hb.seq hback, hown⟩, hm⟩

/-- The access succeeds at once. -/
theorem accessed_of_userMay (h : Inv N g s) (hp : Running g s p r)
    (hva : va < maxva) (hmay : userMay need (leaf s.mem r (vkey va)) = true) :
    Accessed N g s s p r va (some (pte2pa (leaf s.mem r (vkey va)))) := by
  simp only [userMay, Bool.and_eq_true, valid_iff, has_pteU] at hmay
  have hk := h.userKey_of_flag hp.root hmay.1.2
  exact ⟨lt_trapframe_of_userKey hva hk, h.brought (Background.refl h) hp.root hk
    hmay.1.1⟩

/-- One round of a user access; `rest` is what happens if the page has been brought in. -/
theorem userAccess_succ_spec (halloc : Allocates N alloc) (h : Inv N g s) (hp : Running g s p r)
    (hkill : (s.procs p).killed = false) {n : ℕ} (rest : ∀ g₁ s₁, Inv N g₁ s₁ →
      Background (Below r (s.procs p).sz) NoEntry NoEntry NoPage g g₁ s s₁ →
      ¬ Valid (leaf s.mem r (vkey va)) → Valid (leaf s₁.mem r (vkey va)) →
      wp (userAccess alloc need va n) (fun o s' => Accessed N g₁ s₁ s' p r va o) (Stops N va) s₁) :
    wp (userAccess alloc need va (n + 1)) (fun o s' => Accessed N g s s' p r va o)
    (Stops N va) s := by
  rw [userAccess, wp_bind, wp_getMyproc hp.myproc, wp_bind, wp_get, hp.pagetable]
  by_cases hmay : va < maxva ∧ userMay need (leaf s.mem r (vkey va)) = true
  · rw [if_pos hmay]
    exact accessed_of_userMay h hp hmay.1 hmay.2
  · rw [if_neg hmay]
    refine wp_call (pageFault_spec halloc h hp) fun _ s₁ hf => ?_
    obtain ⟨g₁, s₂, h₁, hback, ⟨rfl, hnv, hv⟩ | rfl⟩ := hf.outcome
    · simp only [wp_bind, wp_get, (hback.procs p).killed, hkill, Bool.false_eq_true, if_false]
      exact wp_imp (rest g₁ s₁ h₁ hback hnv hv) fun o s' ha => ha.trans hback
    · have hk : ((s₂.kill p).procs p).killed = true := by simp [Kernel.kill, Kernel.modProc]
      simp only [wp_bind, wp_get, hk, if_true, wp_pure]
      exact ⟨g₁, s₂, h₁, hback, rfl⟩

/-- **A user access** touches the page of its entry or ends the process. Two rounds after the
first are enough, because the second fault is fatal. -/
theorem userAccess_spec (halloc : Allocates N alloc) (h : Inv N g s) (hp : Running g s p r)
    (hkill : (s.procs p).killed = false) (n : ℕ) :
    wp (userAccess alloc need va (n + 2)) (fun o s' => Accessed N g s s' p r va o)
    (Stops N va) s := by
  refine userAccess_succ_spec halloc h hp hkill fun g₁ s₁ h₁ hback _ hv => ?_
  refine userAccess_succ_spec halloc h₁ (hp.background hback)
    ((hback.procs p).killed.trans hkill) ?_
  exact fun _ _ _ _ hnv => absurd hv hnv

end

end Mem

end Xv6
