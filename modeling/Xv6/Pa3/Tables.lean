import Xv6.Pa3.Coherent

/-!
# Table pages, free pages and mappings

What `kalloc`, `walk` and `mappages` do under the invariant of `Xv6.Pa3.Coherent`. Allocating a page
or a table page moves nothing (`Kept`); the pages that the caller has in its hands stay there, with
their contents. Mapping such a page is a move of the page that is mapped.
-/

namespace Xv6

namespace Pa3

open WeakestPre
open Mem (Pte Page Halt pteV pteR pteW pteU has pa2pte pte2pa mapPte swapIdx Valid Managed)

variable {g : Proc → Proc} {perm : Pte} {va : ℕ}

/-- `walk` finds the entry of page `v`. -/
def HasTables (s : Kernel) (p v : ℕ) : Prop :=
  (s.procs p).pagetable.mid (v / 512 / 512) = true ∧ (s.procs p).pagetable.low (v / 512) = true

instance (s : Kernel) (p v : ℕ) : Decidable (HasTables s p v) := by
  unfold HasTables
  infer_instance

/-- No table page has gone. -/
structure PageTable.Extends (t t' : PageTable) : Prop where
  mid : ∀ i, t.mid i = true → t'.mid i = true
  low : ∀ i, t.low i = true → t'.low i = true

theorem PageTable.Extends.refl (t : PageTable) : t.Extends t := ⟨fun _ h => h, fun _ h => h⟩

/-- No process was resized, and no page evicted. -/
structure Calm (s s' : Kernel) : Prop where
  sz : ∀ q, (s'.procs q).sz = (s.procs q).sz
  evictions : s'.evictions = s.evictions

theorem Calm.refl (s : Kernel) : Calm s s := ⟨fun _ => rfl, rfl⟩

theorem Calm.trans {s s' s'' : Kernel} (h : Calm s s') (h' : Calm s' s'') : Calm s s'' :=
  ⟨fun q => (h'.sz q).trans (h.sz q), h'.evictions.trans h.evictions⟩

theorem Calm.setPte (s : Kernel) (p v : ℕ) (w : Pte) : Calm s (s.setPte p v w) :=
  ⟨fun q => (setPte_procs s p v w q).1, rfl⟩

theorem Calm.modProc {s : Kernel} {p : ℕ} (hsz : (g (s.procs p)).sz = (s.procs p).sz) :
    Calm s (s.modProc p g) := by
  refine ⟨fun q => ?_, rfl⟩
  by_cases hq : q = p
  · subst hq
    simp [Kernel.modProc, hsz]
  · simp [Kernel.modProc, hq]

/-- Nothing has moved, every page holds what it held, and the pages in nobody's hands are as they
were. -/
structure Kept (place : ℕ → ℕ → Place) (s s' : Kernel) : Prop extends Calm s s' where
  tables : ∀ q, (s.procs q).pagetable.Extends (s'.procs q).pagetable
  frameTable : s'.frameTable = s.frameTable
  userFrames : s'.userFrames = s.userFrames
  swapUsed : s'.swapUsed = s.swapUsed
  value : ∀ q u, s'.value q u = s.value q u
  fresh : ∀ a, Fresh place s a → Fresh place s' a ∧ s'.mem a = s.mem a

section

variable {top : ℕ → ℕ} {place : ℕ → ℕ → Place} {f : ℕ → ℕ → Page} {s s' s'' : Kernel} {p v a : ℕ}
  {E : Halt → Kernel → Prop}

theorem Kept.refl (place : ℕ → ℕ → Place) (s : Kernel) : Kept place s s :=
  ⟨.refl s, fun _ => .refl _, rfl, rfl, rfl, fun _ _ => rfl, fun _ ha => ⟨ha, rfl⟩⟩

theorem Kept.trans (h : Kept place s s') (h' : Kept place s' s'') : Kept place s s'' where
  toCalm := h.toCalm.trans h'.toCalm
  tables q := ⟨fun i hi => (h'.tables q).mid i ((h.tables q).mid i hi),
    fun i hi => (h'.tables q).low i ((h.tables q).low i hi)⟩
  frameTable := h'.frameTable.trans h.frameTable
  userFrames := h'.userFrames.trans h.userFrames
  swapUsed := h'.swapUsed.trans h.swapUsed
  value q u := (h'.value q u).trans (h.value q u)
  fresh a ha :=
    have ⟨hf, hm⟩ := h.fresh a ha
    have ⟨hf', hm'⟩ := h'.fresh a hf
    ⟨hf', hm'.trans hm⟩

/-- A page with a place is below the limit of `walk`. -/
theorem Inv.lt_maxva (h : Inv top place f s) (hx : place p v ≠ .absent) : v * pgsize < maxva := by
  by_contra hge
  have htop := h.top_le p
  simp only [trapframe_eq] at htop
  simp only [maxva_eq] at hge
  exact hx (h.above p v (by omega)).1

/-! ### Updates of a process -/

theorem entry_modProc (hpte : (g (s.procs p)).pagetable.pte = (s.procs p).pagetable.pte) (q u : ℕ) :
    (s.modProc p g).entry q u = s.entry q u := by
  by_cases hq : q = p
  · subst hq
    simp [Kernel.entry, Kernel.modProc, hpte]
  · simp [Kernel.entry, Kernel.modProc, hq]

theorem value_modProc (hpte : (g (s.procs p)).pagetable.pte = (s.procs p).pagetable.pte) (q u : ℕ) :
    (s.modProc p g).value q u = s.value q u := by
  rw [Kernel.value, Kernel.value, entry_modProc hpte]
  rfl

/-- A process is updated but for its entries, and keeps its table pages. -/
theorem Inv.modProc (h : Inv top place f s)
    (hpte : (g (s.procs p)).pagetable.pte = (s.procs p).pagetable.pte)
    (htab : (s.procs p).pagetable.Extends (g (s.procs p)).pagetable) :
    Inv top place f (s.modProc p g) :=
  { h with
    entry := fun q v => by
      rw [entry_modProc hpte]
      exact h.entry q v
    tables := fun q v hx => by
      obtain ⟨hmid, hlow⟩ := h.tables q v hx
      by_cases hq : q = p
      · subst hq
        simpa [Kernel.modProc] using And.intro (htab.mid _ hmid) (htab.low _ hlow)
      · simpa [Kernel.modProc, hq] using And.intro hmid hlow }

/-- The same for an update that leaves the page table alone. -/
theorem Inv.modProc_of_pagetable (h : Inv top place f s) (hpt : ∀ q, (g q).pagetable = q.pagetable)
    (p : ℕ) : Inv top place f (s.modProc p g) :=
  h.modProc (by rw [hpt]) (by rw [hpt]; exact .refl _)

theorem Kept.modProc (hsz : (g (s.procs p)).sz = (s.procs p).sz)
    (hpte : (g (s.procs p)).pagetable.pte = (s.procs p).pagetable.pte)
    (htab : (s.procs p).pagetable.Extends (g (s.procs p)).pagetable) :
    Kept place s (s.modProc p g) where
  toCalm := .modProc hsz
  tables q := by
    by_cases hq : q = p
    · subst hq
      simpa [Kernel.modProc] using htab
    · simpa [Kernel.modProc, hq] using PageTable.Extends.refl _
  frameTable := rfl
  userFrames := rfl
  swapUsed := rfl
  value := value_modProc hpte
  fresh _ ha := ⟨⟨ha.managed, ha.not_free, ha.unmapped⟩, rfl⟩

/-! ### Free pages -/

theorem Fresh.setPage {b : ℕ} (h : Fresh place s b) (a : ℕ) (pg : Page) :
    Fresh place (s.setPage a pg) b := ⟨h.managed, h.not_free, h.unmapped⟩

/-- Nobody sees the contents of a page in nobody's hands. -/
theorem Inv.value_setPage (h : Inv top place f s) (ha : Fresh place s a) (pg : Page) (q u : ℕ) :
    (s.setPage a pg).value q u = s.value q u := by
  rw [(h.setPage ha pg).value_eq, h.value_eq]
  cases hx : place q u with
  | absent => rfl
  | slot n => rfl
  | page b =>
    have hba : b ≠ a := fun he => ha.unmapped q u (he ▸ hx)
    exact Function.update_of_ne hba _ _

theorem Inv.ne_zero (h : Inv top place f s) (ha : Managed s.kend a) : a ≠ 0 := by
  have hk := h.kend
  simp only [kernbase_eq] at hk
  have := ha.2.1
  omega

/-- `kalloc` finds no page, or takes one out of the free list. -/
theorem kalloc_spec (h : Inv top place f s) :
    wp kalloc (fun a s' => (a = 0 ∧ s.freelist = [] ∧ s' = s) ∨ (a ≠ 0 ∧ a ∈ s.freelist ∧
      Inv top place f s' ∧ Fresh place s' a ∧ Kept place s s' ∧ s'.procs = s.procs)) E s := by
  rw [kalloc, wp_bind, wp_get]
  split
  next hf => exact Or.inl ⟨rfl, hf, rfl⟩
  next a rest hf =>
    obtain ⟨hpop, hfresh⟩ := h.pop hf
    have ha : a ∈ s.freelist := hf ▸ List.mem_cons_self
    rw [wp_bind, wp_set, wp_pure]
    refine Or.inr ⟨h.ne_zero (h.managed a ha), ha, hpop.setPage hfresh _, hfresh.setPage a _,
      ⟨⟨fun _ => rfl, rfl⟩, fun _ => .refl _, rfl, rfl, rfl, hpop.value_setPage hfresh _,
        fun b hb => ?_⟩, rfl⟩
    have hne : b ≠ a := fun he => hb.not_free (he ▸ ha)
    exact ⟨⟨hb.managed, fun hmem => hb.not_free (hf ▸ List.mem_cons_of_mem a hmem), hb.unmapped⟩,
      Function.update_of_ne hne _ _⟩

/-- `kfree` of a page of the allocator. -/
theorem wp_kfree {Q : Unit → Kernel → Prop} (ha : Managed s.kend a) :
    wp (kfree a) Q E s ↔ Q () { s with
      freelist := a :: s.freelist, mem := Function.update s.mem a (Page.fill 1) } := by
  obtain ⟨h0, h1, h2⟩ := ha
  rw [kfree, wp_bind, wp_get, if_neg (by rw [pgsize_eq]; omega), wp_set]

/-- `kfree` of a page in nobody's hands. -/
theorem kfree_spec (h : Inv top place f s) (ha : Fresh place s a) :
    wp (kfree a) (fun _ s' => Inv top place f s' ∧ Calm s s') E s := by
  rw [wp_kfree ha.managed]
  exact ⟨(h.setPage ha _).push (ha.setPage a _), fun _ => rfl, rfl⟩

/-! ### Table pages -/

/-- A table page is added if there is a page for it. -/
theorem needTable_spec (h : Inv top place f s) {present : Kernel → Bool} {add : Kernel → Kernel}
    (hcongr : ∀ t, t.procs = s.procs → present t = present s)
    (hadd : ∀ t, Inv top place f t → present t = false →
      Inv top place f (add t) ∧ Kept place t (add t) ∧ present (add t) = true) :
    wp (needTable true present add) (fun b s' => Inv top place f s' ∧ Kept place s s' ∧
      (b = true → present s' = true)) E s := by
  rw [needTable, wp_bind, wp_get]
  cases hp : present s with
  | true =>
    rw [if_pos rfl]
    exact ⟨h, .refl place s, fun _ => hp⟩
  | false =>
    rw [if_neg Bool.false_ne_true, if_neg (by decide)]
    refine wp_call (kalloc_spec h) fun a s₁ ha => ?_
    rcases ha with ⟨rfl, -, rfl⟩ | ⟨hne, hmem, h₁, hfresh, hkept, hprocs⟩
    · rw [if_pos rfl]
      exact ⟨h, .refl place s₁, fun hf => absurd hf Bool.false_ne_true⟩
    · rw [if_neg hne, wp_bind, wp_modify]
      have hzero : Kept place s (s₁.setPage a Page.zero) :=
        { hkept with
          value := fun q u => (h₁.value_setPage hfresh _ q u).trans (hkept.value q u)
          fresh := fun b hb => by
            have hba : b ≠ a := fun he => hb.not_free (he ▸ hmem)
            obtain ⟨hb₁, hm₁⟩ := hkept.fresh b hb
            exact ⟨hb₁.setPage a _, by rw [← hm₁]; exact Function.update_of_ne hba _ _⟩ }
      obtain ⟨h₂, hk₂, hp₂⟩ := hadd (s₁.setPage a Page.zero) (h₁.setPage hfresh _)
        ((hcongr (s₁.setPage a Page.zero) hprocs).trans hp)
      exact ⟨h₂, hzero.trans hk₂, fun _ => hp₂⟩

/-- `walk` without `alloc`. -/
theorem wp_walk {Q : Option ℕ → Kernel → Prop} (hva : va < maxva) :
    wp (walk p va false) Q E s ↔
      Q (if HasTables s p (va / pgsize) then some (va / pgsize) else none) s := by
  have hneed : ∀ {R : Bool → Kernel → Prop} (present : Kernel → Bool) (add : Kernel → Kernel),
      wp (needTable false present add) R E s ↔ R (present s) s := by
    intro R present add
    rw [needTable, wp_bind, wp_get]
    cases present s <;> exact Iff.rfl
  rw [walk, if_neg (not_le.mpr hva), wp_bind, hneed]
  cases hmid : (s.procs p).pagetable.mid (va / pgsize / 512 / 512) with
  | false =>
    rw [if_neg Bool.false_ne_true, if_neg (by rw [HasTables, hmid]; simp)]
    exact Iff.rfl
  | true =>
    rw [if_pos rfl, wp_bind, hneed]
    cases hlow : (s.procs p).pagetable.low (va / pgsize / 512) with
    | false =>
      rw [if_neg Bool.false_ne_true, if_neg (by rw [HasTables, hlow]; simp)]
      exact Iff.rfl
    | true =>
      rw [if_pos rfl, if_pos ⟨hmid, hlow⟩]
      exact Iff.rfl

/-- A table page is added. -/
theorem PageTable.Extends.addMid (t : PageTable) (i : ℕ) :
    t.Extends { t with mid := Function.update t.mid i true } := by
  refine ⟨fun j hj => ?_, fun _ h => h⟩
  by_cases hji : j = i
  · subst hji
    simp
  · simpa [hji] using hj

theorem PageTable.Extends.addLow (t : PageTable) (i : ℕ) (pte : ℕ → Pte) :
    t.Extends { t with low := Function.update t.low i true, pte := pte } := by
  refine ⟨fun _ h => h, fun j hj => ?_⟩
  by_cases hji : j = i
  · subst hji
    simp
  · simpa [hji] using hj

/-- The entries of a table page that is not there are zero. -/
theorem Inv.entry_of_not_low (h : Inv top place f s)
    (hlow : (s.procs p).pagetable.low (v / 512) = false) : s.entry p v = 0#64 := by
  have hx : place p v = .absent := by
    by_contra hx
    rw [(h.tables p v hx).2] at hlow
    cases hlow
  exact h.entry_eq_zero.mpr hx

/-- `walk` with `alloc`. -/
theorem walk_alloc_spec (h : Inv top place f s) (hva : va < maxva) :
    wp (walk p va true) (fun o s' => Inv top place f s' ∧ Kept place s s' ∧
      ∀ w, o = some w → w = va / pgsize ∧ HasTables s' p w) E s := by
  rw [walk, if_neg (not_le.mpr hva)]
  refine wp_call (needTable_spec h (fun t ht => by rw [ht]) fun t ht _ =>
    ⟨ht.modProc rfl (.addMid _ _), .modProc rfl rfl (.addMid _ _), by simp [Kernel.modProc]⟩)
    fun b s₁ hs₁ => ?_
  obtain ⟨h₁, hk₁, hmid⟩ := hs₁
  cases b with
  | false =>
    rw [if_neg Bool.false_ne_true]
    exact ⟨h₁, hk₁, by simp⟩
  | true =>
    rw [if_pos rfl]
    refine wp_call (needTable_spec h₁ (fun t ht => by rw [ht]) fun t ht hno => ?_)
      fun b s₂ hs₂ => ?_
    · -- the new table page is zero, as were the entries that it holds
      have hpte : (fun u => if u / 512 = va / pgsize / 512 then 0#64
          else (t.procs p).pagetable.pte u) = (t.procs p).pagetable.pte := by
        funext u
        by_cases hu : u / 512 = va / pgsize / 512
        · exact (if_pos hu).trans (ht.entry_of_not_low (hu ▸ hno)).symm
        · exact if_neg hu
      exact ⟨ht.modProc hpte (.addLow _ _ _), .modProc rfl hpte (.addLow _ _ _),
        by simp [Kernel.modProc]⟩
    · obtain ⟨h₂, hk₂, hlow⟩ := hs₂
      cases b with
      | false =>
        rw [if_neg Bool.false_ne_true]
        exact ⟨h₂, hk₁.trans hk₂, by simp⟩
      | true =>
        rw [if_pos rfl]
        refine ⟨h₂, hk₁.trans hk₂, fun w hw => ?_⟩
        obtain rfl := Option.some.inj hw
        exact ⟨rfl, (hk₂.tables p).mid _ (hmid rfl), hlow rfl⟩

/-! ### Mappings -/

/-- A page in nobody's hands becomes the page of an entry without one. -/
theorem Inv.map (h : Inv top place f s) (ha : Fresh place s a) (htab : HasTables s p v)
    (hlt : v * pgsize < top p) (habs : place p v = .absent) (hperm : perm.toNat < 1024)
    {f' : ℕ → ℕ → Page} (hf : ∀ p' v', ¬ (p' = p ∧ v' = v) → f' p' v' = f p' v')
    (hmem : ¬ Lost s p v → s.mem a = f' p v) :
    Inv top (setPlace place p v (.page a)) f' (s.setPte p v (mapPte a perm)) := by
  have hframe : ∀ i < maxFrames, (s.frameTable i).inUse = true →
      place p v ≠ .page (s.frameTable i).physicalAddr := by
    intro i _ _ hx
    rw [habs] at hx
    cases hx
  exact h.move
    { kend := rfl
      entry := h.ofPte_setPte (ofPte_mapPte ha.managed hperm)
      tables := fun q => (setPte_procs s p v _ q).2
      nodup := h.nodup
      managed := h.managed
      page := fun p' v' b _ hb => ⟨(h.page p' v' b hb).2, rfl, fun he =>
        ha.unmapped p' v' (hb.trans he.symm)⟩
      slot := fun p' v' n _ hn => ⟨(h.slot p' v' n hn).2.2, rfl, by simp⟩
      toPage := fun b hb => by
        cases hb
        exact ⟨ha.managed, ha.not_free⟩
      toSlot := fun n hn => by cases hn
      below := fun hle => absurd hlt (not_lt.mpr hle)
      inTable := fun _ => htab
      frame := fun i hi hin => ⟨rfl, fun hx => absurd hx (hframe i hi hin)⟩
      count := h.count
      zero := id
      history := fun _ he => he
      evicted := fun e he hne => absurd he hne
      contents := hmem } hf

/-- Page `a` is mapped at page `v`. -/
structure Mapped (top : ℕ → ℕ) (place : ℕ → ℕ → Place) (f : ℕ → ℕ → Page) (p v a : ℕ) (perm : Pte)
    (s s' : Kernel) : Prop extends Calm s s' where
  inv : Inv top (setPlace place p v (.page a)) f s'
  entry : s'.entry p v = mapPte a perm
  frameTable : s'.frameTable = s.frameTable
  userFrames : s'.userFrames = s.userFrames
  /-- The page holds what it held before, and so do all the others. -/
  mem : s'.value p v = s.mem a
  value : ∀ q u, ¬ (q = p ∧ u = v) → s'.value q u = s.value q u

/-- `mappages` of a page in nobody's hands, at an entry without a page. -/
theorem mappages_spec (h : Inv top place f s) (ha : Fresh place s a) (hal : va % pgsize = 0)
    (hperm : perm.toNat < 1024) (hlt : va < top p) (habs : place p (va / pgsize) = .absent)
    (f' : ℕ → ℕ → Page) (hf : ∀ p' v', ¬ (p' = p ∧ v' = va / pgsize) → f' p' v' = f p' v')
    (hmem : ¬ Lost s p (va / pgsize) → s.mem a = f' p (va / pgsize)) :
    wp (mappages p va a perm) (fun r s' =>
      (r = 0 ∧ Mapped top place f' p (va / pgsize) a perm s s') ∨
      (r ≠ 0 ∧ Inv top place f s' ∧ Fresh place s' a ∧ Kept place s s')) E s := by
  have hva : va < maxva := by
    have := h.top_le p
    simp only [trapframe_eq] at this
    simp only [maxva_eq]
    omega
  rw [mappages, if_neg (not_not.mpr hal)]
  refine wp_call (walk_alloc_spec h hva) fun o s₁ hs₁ => ?_
  obtain ⟨h₁, hk, htab⟩ := hs₁
  obtain ⟨ha₁, hm₁⟩ := hk.fresh a ha
  cases o with
  | none => exact Or.inr ⟨by decide, h₁, ha₁, hk⟩
  | some w =>
    obtain ⟨rfl, htab⟩ := htab w rfl
    have hinv : has (s₁.entry p (va / pgsize)) pteV = false :=
      h₁.not_has_pteV (by rw [habs]; simp)
    simp only [wp_bind, wp_get, hinv, Bool.false_eq_true, if_false, wp_modify, wp_pure]
    have hlt' : va / pgsize * pgsize < top p := lt_of_le_of_lt (Nat.div_mul_le_self _ _) hlt
    have h₂ := h₁.map ha₁ htab hlt' habs hperm hf
      fun hl => hm₁.trans (hmem fun hl' => hl (by rwa [Lost, hk.evictions]))
    refine Or.inl ⟨trivial, hk.toCalm.trans (.setPte s₁ p _ _), h₂, ?_, hk.frameTable,
      hk.userFrames, ?_, fun q u hne => ?_⟩
    · rw [entry_setPte, if_pos ⟨rfl, rfl⟩]
    · rw [h₂.value_eq, setPlace_self]
      exact hm₁
    · rw [h₂.value_eq, setPlace_of_ne hne, ← hk.value, h₁.value_eq]
      rfl

/-- A page that is nowhere holds zeros. -/
theorem Inv.zero_of_absent (h : Inv top place f s) (hx : place p v = .absent) (hl : ¬ Lost s p v) :
    f p v = Page.zero := by
  rw [← h.contents p v hl, hx, Place.contents]

/-- A page of zeros is mapped where there is none, and no contents change. -/
theorem mappages_zero_spec (h : Inv top place f s) (ha : Fresh place s a)
    (hperm : perm.toNat < 1024) (hlt : v * pgsize < top p) (hx : place p v = .absent) :
    wp (mappages p (v * pgsize) a perm) (fun r s' =>
      (r = 0 ∧ Mapped top place f p v a perm (s.setPage a Page.zero) s') ∨
      (r ≠ 0 ∧ Inv top place f s' ∧ Fresh place s' a ∧ Kept place (s.setPage a Page.zero) s')) E
      (s.setPage a Page.zero) := by
  have hdiv : v * pgsize / pgsize = v := Nat.mul_div_cancel v (by decide)
  have hspec := mappages_spec (E := E) (h.setPage ha Page.zero) (ha.setPage a _)
    (Nat.mul_mod_left v pgsize) hperm hlt (by rw [hdiv]; exact hx) f (fun _ _ _ => rfl)
    fun hl => (Function.update_self _ _ _).trans ?_
  · rwa [hdiv] at hspec
  · rw [hdiv] at hl ⊢
    exact (h.zero_of_absent hx hl).symm

end

end Pa3

end Xv6
