import Xv6.Pa3.Eviction

/-!
# Faults and accesses

`vmfault` brings a page into memory, from its slot or as a new page of zeros, and moves a victim out
first if the frame table is full. The abstract memory is the same afterwards. A user access then
finds the page, or the process is killed.
-/

namespace Xv6

namespace Pa3

open WeakestPre
open Function (update update_of_ne update_self)
open Mem (Pte Page Halt pteV pteR pteW pteU has pa2pte pte2pa mapPte swapIdx Valid Managed)

variable {n va : ℕ} {need : Pte}

section

variable {top : ℕ → ℕ} {place : ℕ → ℕ → Place} {f : ℕ → ℕ → Page} {s s' : Kernel} {p v a : ℕ}
  {E : Halt → Kernel → Prop}

/-! ### Coming back from the swap area -/

/-- A page comes back from its slot. -/
theorem Inv.swapIn (h : Inv top place f s) (ha : Fresh place s a) (hx : place p v = .slot n) :
    Inv top (setPlace place p v (.page a)) f { s.setPte p v (userPte a) with
      mem := update s.mem a (s.swapSpace n)
      swapUsed := update s.swapUsed n false } := by
  obtain ⟨hn0, hn, -⟩ := h.slot p v n hx
  have habs : place p v ≠ .absent := by
    rw [hx]
    simp
  refine h.move
    { kend := rfl
      entry := h.ofPte_setPte (ofPte_userPte ha.managed)
      tables := fun q => (setPte_procs s p v _ q).2
      nodup := h.nodup
      managed := h.managed
      page := fun p' v' b _ hb => ?_
      slot := fun p' v' m hne hm => ?_
      toPage := fun b hb => by
        cases hb
        exact ⟨ha.managed, ha.not_free⟩
      toSlot := fun n hn => by cases hn
      below := fun hle => absurd (h.above p v hle).1 habs
      inTable := fun _ => h.tables p v habs
      frame := fun i hi hin => ⟨rfl, fun he => by rw [hx] at he; cases he⟩
      count := h.count
      zero := fun h0 => ?_
      history := fun _ he => he
      evicted := fun e he hold => absurd he hold
      contents := fun hl => ?_ } fun _ _ _ => rfl
  · have hba : b ≠ a := fun he => ha.unmapped p' v' (he ▸ hb)
    exact ⟨(h.page p' v' b hb).2, update_of_ne hba _ _,
      fun he => hba (Place.page.inj he).symm⟩
  · have hmn : (m : ℤ) ≠ n :=
      fun he => hne (h.slotInj p' v' p v m hm (by rw [Nat.cast_inj.mp he, hx]))
    exact ⟨(update_of_ne hmn _ _).trans (h.slot p' v' m hm).2.2, rfl, by simp⟩
  · have hne : (0 : ℤ) ≠ n := by omega
    exact (update_of_ne hne _ _).trans h0
  · rw [← h.contents p v hl, hx]
    exact update_self _ _ _

/-- `swap_in` from the slot of a page. -/
theorem wp_swapIn {Q : Unit → Kernel → Prop} (hn : n < maxSwap) :
    wp (swapIn n a) Q E s ↔ Q () { s with
      mem := update s.mem a (s.swapSpace n)
      swapUsed := update s.swapUsed n false } := by
  have hok : ¬ ((n : ℤ) < 0 ∨ (n : ℤ) ≥ maxSwap) := by omega
  rw [swapIn, if_neg hok, wp_bind, wp_modify, swapFree, wp_bind, wp_get, if_neg hok, wp_set]
  exact Iff.rfl

/-! ### `vmfault` -/

/-- What `vmfault` gives for page `v`: the page is where it says, and nothing has changed for user
code; in particular the page holds what it held. -/
structure Served (top : ℕ → ℕ) (f : ℕ → ℕ → Page) (p v : ℕ) (s : Kernel) (r : ℕ) (s' : Kernel) :
    Prop where
  sz : ∀ q, (s'.procs q).sz = (s.procs q).sz
  inv : ∃ place', Inv top place' f s'
  entry : r ≠ 0 → s'.entry p v = userPte r ∧ Managed s'.kend r
  value : s'.value p v = s.value p v

theorem Served.trans {s₁ : Kernel} {r : ℕ} (h : Served top f p v s₁ r s')
    (hsz : ∀ q, (s₁.procs q).sz = (s.procs q).sz) (hval : s₁.value p v = s.value p v) :
    Served top f p v s r s' :=
  ⟨fun q => (h.sz q).trans (hsz q), h.inv, h.entry, h.value.trans hval⟩

/-- `vmfault` gives up. -/
theorem Inv.refused (h : Inv top place f s') (hc : Calm s s') (hval : s'.value p v = s.value p v) :
    Served top f p v s 0 s' :=
  ⟨hc.sz, ⟨place, h⟩, fun h0 => absurd rfl h0, hval⟩

/-- The end of `vmfault`: the page gets its frame, and the process is charged. -/
theorem charge_spec {s₀ : Kernel} (h : Inv top place f s) (hx : s.entry p v = userPte a)
    (hman : Managed s.kend a) (hc : Calm s₀ s) (hval : s.value p v = s₀.value p v)
    (hun : ∀ j < maxFrames, (s.frameTable j).inUse = true → (s.frameTable j).physicalAddr ≠ a)
    (hroom : s.userFrames < maxFrames) {g : Proc → Proc} (hsz : ∀ q, (g q).sz = q.sz)
    (hpt : ∀ q, (g q).pagetable = q.pagetable) {undo : M Unit} :
    wp (do
      let r ← frameAlloc (some p) (v * pgsize) a
      if r ≠ 0 then
        undo
        pure 0
      else
        modify (Kernel.modProc p g)
        pure a) (Served top f p v s₀) E s := by
  have hplace : place p v = .page a := by
    rw [← h.entry, hx]
    exact ofPte_userPte hman
  refine wp_call (frameAlloc_of_room h hplace hun hroom) fun r s₁ hs₁ => ?_
  obtain ⟨rfl, h₁, hc₁, hprocs, hval₁⟩ := hs₁
  rw [if_neg (not_not.mpr rfl), wp_bind, wp_modify, wp_pure]
  have hc₂ : Calm s₀ (s₁.modProc p g) := (hc.trans hc₁).trans (.modProc (hsz _))
  have h₂ := h₁.modProc_of_pagetable hpt p
  have hx₂ : (s₁.modProc p g).entry p v = userPte a := by
    rw [entry_modProc (by rw [hpt]), Kernel.entry, hprocs]
    exact hx
  refine ⟨hc₂.sz, ⟨place, h₂⟩, fun _ => ⟨hx₂, (h₁.page p v a hplace).1⟩, ?_⟩
  rw [value_modProc (by rw [hpt]), hval₁, hval]

/-- A page that is nowhere. -/
theorem normal_spec (h : Inv top place f s) (hx : place p v = .absent) (hlt : v * pgsize < top p)
    (hroom : s.userFrames < maxFrames) :
    wp (vmfault.normal p (v * pgsize)) (Served top f p v s) E s := by
  rw [vmfault.normal]
  refine wp_call (kalloc_spec h) fun a s₁ hs₁ => ?_
  rcases hs₁ with ⟨rfl, -, rfl⟩ | ⟨hne, -, h₁, ha₁, hk₁, -⟩
  · rw [if_pos rfl]
    exact h.refused (.refl _) rfl
  · rw [if_neg hne, wp_bind, wp_modify]
    refine wp_call (mappages_zero_spec h₁ ha₁ (by decide) hlt hx) fun r s₂ hs₂ => ?_
    rcases hs₂ with ⟨rfl, hm⟩ | ⟨hr, h₂, ha₂, hk₂⟩
    · have hc₂ : Calm s s₂ := hk₁.toCalm.trans ⟨hm.sz, hm.evictions⟩
      have hun : ∀ j < maxFrames, (s₂.frameTable j).inUse = true →
          (s₂.frameTable j).physicalAddr ≠ a := by
        rw [hm.frameTable]
        exact h₁.untracked ha₁
      have hroom₂ : s₂.userFrames < maxFrames := by
        rw [hm.userFrames]
        exact hk₁.userFrames.trans_lt hroom
      have hman : Managed s₂.kend a := (hm.inv.page p v a (setPlace_self place p v _)).1
      have hval : s₂.value p v = s.value p v := by
        rw [hm.mem, h.value_eq, hx]
        exact update_self _ _ _
      rw [if_neg (not_not.mpr rfl)]
      refine charge_spec hm.inv hm.entry hman hc₂ hval hun hroom₂ ?_ ?_
      all_goals exact fun _ => rfl
    · have hc₂ : Calm s s₂ := hk₁.toCalm.trans ⟨hk₂.sz, hk₂.evictions⟩
      rw [if_pos hr]
      refine wp_call (kfree_spec h₂ ha₂) fun _ s₃ hs₃ => ?_
      refine hs₃.1.refused (hc₂.trans hs₃.2) ?_
      rw [hs₃.1.value_eq, h.value_eq, hx]
      rfl

/-- A page in the swap area. -/
theorem swapBack_spec (h : Inv top place f s) (hx : place p v = .slot n)
    (hroom : s.userFrames < maxFrames) :
    wp (vmfault.swapBack p (v * pgsize) v n) (Served top f p v s) E s := by
  have hn : n < maxSwap := (h.slot p v n hx).2.1
  rw [vmfault.swapBack]
  refine wp_call (kalloc_spec h) fun a s₁ hs₁ => ?_
  rcases hs₁ with ⟨rfl, -, rfl⟩ | ⟨hne, -, h₁, ha₁, hk₁, -⟩
  · rw [if_pos rfl]
    exact h.refused (.refl _) rfl
  · rw [if_neg hne, wp_bind, wp_swapIn hn, wp_bind, wp_modify, swapInPte_eq]
    have h₂ := h₁.swapIn ha₁ hx
    refine charge_spec h₂ ?_ ha₁.managed
      (hk₁.toCalm.trans ⟨fun q => (setPte_procs s₁ p v _ q).1, rfl⟩) ?_ (h₁.untracked ha₁)
      (hk₁.userFrames.trans_lt hroom) ?_ ?_
    · exact (entry_setPte _ p v _ p v).trans (if_pos ⟨rfl, rfl⟩)
    · rw [h₂.value_eq, setPlace_self, ← hk₁.value, h₁.value_eq, hx]
      exact update_self _ _ _
    all_goals exact fun _ => rfl

/-- A fault needs a slot only if it is for a page that is not in memory and the table is full. -/
def NeedsSlot (s : Kernel) (p va : ℕ) : Prop :=
  va < (s.procs p).sz ∧ has (s.entry p (va / pgsize)) pteV = false ∧ s.userFrames ≥ maxFrames

/-- The first steps of `vmfault`: it gives up at once, or the page is not in memory. -/
theorem wp_vmfault {Q : ℕ → Kernel → Prop} (h : Inv top place f s) (htop : (s.procs p).sz ≤ top p)
    (hgive : (va < (s.procs p).sz → ∃ a, place p (va / pgsize) = .page a) → Q 0 s)
    (hevict : va < (s.procs p).sz → (∀ a, place p (va / pgsize) ≠ .page a) →
      wp evictIfFull (fun _ s₁ => ∃ place₁, Inv top place₁ f s₁ ∧
        place₁ p (va / pgsize) = place p (va / pgsize) ∧
        (place p (va / pgsize) = .absent →
          wp (vmfault.normal p (va / pgsize * pgsize)) Q E s₁) ∧
        ∀ n : ℕ, place p (va / pgsize) = .slot n →
          wp (vmfault.swapBack p (va / pgsize * pgsize) (va / pgsize) n) Q E s₁) E s) :
    wp (vmfault p va) Q E s := by
  rw [vmfault, wp_bind, wp_get]
  by_cases hge : va ≥ (s.procs p).sz
  · rw [if_pos hge]
    exact hgive fun hlt => absurd hlt (not_lt.mpr hge)
  rw [if_neg hge]
  have hlt : va < (s.procs p).sz := not_le.mp hge
  have hmax : va / pgsize * pgsize < maxva := by
    have hle := h.top_le p
    have hround := Nat.div_mul_le_self va pgsize
    simp only [trapframe_eq] at hle
    rw [maxva_eq]
    omega
  have hdiv : va / pgsize * pgsize / pgsize = va / pgsize := Nat.mul_div_cancel _ (by decide)
  rw [pgrounddown]
  dsimp only
  rw [wp_bind, wp_walk hmax, hdiv]
  by_cases htab : HasTables s p (va / pgsize)
  · rw [if_pos htab]
    dsimp only
    rw [wp_bind, wp_get]
    by_cases hval : has (s.entry p (va / pgsize)) pteV = true
    · rw [if_pos hval]
      exact hgive fun _ => h.has_pteV.mp hval
    rw [if_neg hval]
    have hno : ∀ a, place p (va / pgsize) ≠ .page a := fun a ha => hval (h.has_pteV.mpr ⟨a, ha⟩)
    refine wp_call (hevict hlt hno) fun _ s₁ hs₁ => ?_
    obtain ⟨place₁, h₁, hx₁, hnormal, hback⟩ := hs₁
    rw [wp_bind, wp_get]
    cases hx : place p (va / pgsize) with
    | page a => exact absurd hx (hno a)
    | absent =>
      rw [if_neg fun hpte => hpte.1 (h₁.entry_eq_zero.mpr (hx₁.trans hx))]
      exact hnormal hx
    | slot n =>
      have hpte : s₁.entry p (va / pgsize) ≠ 0#64 := by
        rw [Ne, h₁.entry_eq_zero, hx₁, hx]
        simp
      rw [if_pos ⟨hpte, h₁.not_has_pteV (hx₁ ▸ hno)⟩, h₁.swapIdx_entry (hx₁.trans hx)]
      exact hback n hx
  · rw [if_neg htab]
    have hx : place p (va / pgsize) = .absent := by
      by_contra hx
      exact htab (h.tables p _ hx)
    refine wp_call (hevict hlt (by rw [hx]; simp)) fun _ s₁ hs₁ => ?_
    obtain ⟨-, -, -, hnormal, -⟩ := hs₁
    exact hnormal hx

/-- **`vmfault`** does not change what user code sees. -/
theorem vmfault_spec (h : Inv top place f s) (htop : (s.procs p).sz ≤ top p)
    (hfree : NeedsSlot s p va → SlotFree s) :
    wp (vmfault p va)
      (fun r s' => Served top f p (va / pgsize) s r s' ∧ (r ≠ 0 → va < top p)) E s := by
  refine wp_vmfault h htop (fun _ => ⟨h.refused (.refl s) rfl, fun h0 => absurd rfl h0⟩)
    fun hlt hno => ?_
  have hlt' : va < top p := lt_of_lt_of_le hlt htop
  refine wp_imp (evictIfFull_spec h fun hfull => hfree ⟨hlt, h.not_has_pteV hno, hfull⟩)
    fun _ s₁ hs₁ => ?_
  obtain ⟨place₁, h₁, hkeep, hroom, hsz₁⟩ := hs₁
  obtain ⟨hx₁, hval₁⟩ := hkeep p _ hno
  have hdone : ∀ r s', Served top f p (va / pgsize) s₁ r s' →
      Served top f p (va / pgsize) s r s' ∧ (r ≠ 0 → va < top p) :=
    fun r s' hs' => ⟨hs'.trans hsz₁ hval₁, fun _ => hlt'⟩
  refine ⟨place₁, h₁, hx₁, fun hx => ?_, fun n hx => ?_⟩
  · have hround := lt_of_le_of_lt (Nat.div_mul_le_self va pgsize) hlt'
    exact wp_mono (normal_spec h₁ (hx₁.trans hx) hround hroom) hdone fun _ _ he => he
  · exact wp_mono (swapBack_spec h₁ (hx₁.trans hx) hroom) hdone fun _ _ he => he

/-! ### Accesses -/

/-- An entry that the hardware accepts is that of a page in memory. -/
theorem Inv.of_userMay (h : Inv top place f s) (hmay : userMay need (s.entry p v) = true) :
    place p v = .page (pte2pa (s.entry p v)) := by
  simp only [userMay, Bool.and_eq_true] at hmay
  obtain ⟨a, ha⟩ := h.has_pteV.mp hmay.1.1
  rw [h.pte2pa_entry ha, ha]

/-- **A user access** finds the page, or the process is killed. -/
theorem userAccess_spec (h : Inv top place f s) (htop : (s.procs p).sz ≤ top p)
    (hneed : need = pteR ∨ need = pteW) (hfree : NeedsSlot s p va → SlotFree s) :
    wp (userAccess p need va 2) (fun o s' => (∀ q, (s'.procs q).sz = (s.procs q).sz) ∧
      s'.value p (va / pgsize) = s.value p (va / pgsize) ∧
      ∃ place', Inv top place' f s' ∧
        ∀ pa, o = some pa → place' p (va / pgsize) = .page pa) E s := by
  rw [userAccess, wp_bind, wp_get]
  dsimp only
  by_cases hok : va < maxva ∧ userMay need (s.entry p (va / pgsize)) = true
  · rw [if_pos hok]
    refine ⟨fun _ => rfl, rfl, place, h, fun pa hpa => ?_⟩
    obtain rfl := Option.some.inj hpa
    exact h.of_userMay hok.2
  rw [if_neg hok]
  refine wp_call (vmfault_spec h htop hfree) fun r s₁ hs₁ => ?_
  obtain ⟨⟨hsz₁, ⟨place₁, h₁⟩, hentry, hval₁⟩, hlt⟩ := hs₁
  by_cases hr : r = 0
  · rw [if_pos hr, wp_bind, wp_modify]
    have hc : Calm s₁ (s₁.modProc p fun q => { q with killed := true }) := .modProc rfl
    exact ⟨fun q => (hc.sz q).trans (hsz₁ q), (value_modProc rfl p _).trans hval₁, place₁,
      h₁.modProc_of_pagetable (g := fun q => { q with killed := true }) (fun _ => rfl) p,
      by simp⟩
  · -- the access is made again, and the page is there
    have hmax : va < maxva := by
      have hle := h.top_le p
      have := hlt hr
      simp only [trapframe_eq] at hle
      rw [maxva_eq]
      omega
    have hmay : userMay need (s₁.entry p (va / pgsize)) = true := by
      rw [(hentry hr).1]
      exact userMay_userPte hneed r
    rw [if_neg hr, userAccess, wp_bind, wp_get]
    dsimp only
    rw [if_pos ⟨hmax, hmay⟩]
    refine ⟨hsz₁, hval₁, place₁, h₁, fun pa hpa => ?_⟩
    obtain rfl := Option.some.inj hpa
    exact h₁.of_userMay hmay

/-- **A load** returns the byte that the page holds. -/
theorem userLoad_spec (h : Inv top place f s) (htop : (s.procs p).sz ≤ top p)
    (hfree : NeedsSlot s p va → SlotFree s) :
    wp (userLoad p va) (fun o s' => (∀ q, (s'.procs q).sz = (s.procs q).sz) ∧
      (∃ place', Inv top place' f s') ∧ ∀ b, o = some b → b = s.byte p va) E s := by
  rw [userLoad]
  refine wp_call (userAccess_spec h htop (Or.inl rfl) hfree) fun o s₁ hs₁ => ?_
  obtain ⟨hsz, hval, place₁, h₁, hx⟩ := hs₁
  cases o with
  | none => exact ⟨hsz, ⟨place₁, h₁⟩, by simp⟩
  | some pa =>
    refine ⟨hsz, ⟨place₁, h₁⟩, fun b hb => ?_⟩
    obtain rfl := Option.some.inj hb
    rw [Kernel.byte, ← hval, h₁.value_eq, hx pa rfl, Place.contents]

/-- A page in memory is written. -/
theorem Inv.write (h : Inv top place f s) (hx : place p v = .page a) (g : Page → Page) :
    Inv top place (fun q u => if q = p ∧ u = v then g (f q u) else f q u)
      (s.setPage a (g (s.mem a))) := by
  have habs : place p v ≠ .absent := by
    rw [hx]
    simp
  have hself : setPlace place p v (.page a) = place := setPlace_of_eq hx
  rw [← hself]
  refine h.move
    { kend := rfl
      entry := fun p' v' => ?_
      tables := fun _ => ⟨rfl, rfl⟩
      nodup := h.nodup
      managed := h.managed
      page := fun p' v' b hne hb => ?_
      slot := fun p' v' n _ hn => ⟨(h.slot p' v' n hn).2.2, rfl, by simp⟩
      toPage := fun b hb => by
        cases hb
        exact h.page p v a hx
      toSlot := fun n hn => by cases hn
      below := fun hle => absurd (h.above p v hle).1 habs
      inTable := fun _ => h.tables p v habs
      frame := fun i hi hin => ⟨rfl, fun _ => hx.symm⟩
      count := h.count
      zero := id
      history := fun _ he => he
      evicted := fun e he hold => absurd he hold
      contents := fun hl => ?_ } fun p' v' hne => if_neg hne
  · rw [hself]
    exact h.entry p' v'
  · have hba : b ≠ a := fun he => hne (h.pageInj p' v' p v b hb (he ▸ hx))
    exact ⟨(h.page p' v' b hb).2, update_of_ne hba _ _,
      fun he => hba (Place.page.inj he).symm⟩
  · have hc := h.contents p v hl
    rw [hx] at hc
    rw [if_pos ⟨rfl, rfl⟩, ← hc]
    exact update_self _ _ _

/-- A byte is stored. -/
def storeByte (f : ℕ → ℕ → Page) (p va : ℕ) (b : BitVec 8) : ℕ → ℕ → Page := fun q u =>
  if q = p ∧ u = va / pgsize then (f q u).setByte (va % pgsize) b else f q u

/-- **A store** changes one byte of the abstract memory. -/
theorem userStore_spec (h : Inv top place f s) (htop : (s.procs p).sz ≤ top p) {b : BitVec 8}
    (hfree : NeedsSlot s p va → SlotFree s) :
    wp (userStore p va b) (fun ok s' => (∀ q, (s'.procs q).sz = (s.procs q).sz) ∧
      ∃ place', Inv top place' (if ok = true then storeByte f p va b else f) s') E s := by
  rw [userStore]
  refine wp_call (userAccess_spec h htop (Or.inr rfl) hfree) fun o s₁ hs₁ => ?_
  obtain ⟨hsz, -, place₁, h₁, hx⟩ := hs₁
  cases o with
  | none => exact ⟨hsz, place₁, by rw [if_neg Bool.false_ne_true]; exact h₁⟩
  | some pa =>
    refine ⟨hsz, place₁, ?_⟩
    rw [if_pos rfl]
    exact h₁.write (hx pa rfl) fun pg => pg.setByte (va % pgsize) b

end

end Pa3

end Xv6
