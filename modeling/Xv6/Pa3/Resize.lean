import Xv6.Pa3.Fault

/-!
# Growing and shrinking

`uvmunmap` moves every page of its range nowhere and gives back its frame, its page or its slot; the
abstract memory becomes zero there. That is all that `sbrk` does to the abstract memory, also when
`uvmalloc` has to give back what it had mapped.
-/

namespace Xv6

namespace Pa3

open WeakestPre
open Mem (Pte Page Halt pteV pteR pteW pteU has pa2pte pte2pa mapPte swapIdx Valid Managed)
open Function (update update_self update_of_ne update_eq_self)

/-- `g` with the value `z` at the pages of process `p` from address `lo` to address `hi`. -/
def wipe {α : Type} (z : α) (g : ℕ → ℕ → α) (p lo hi : ℕ) : ℕ → ℕ → α := fun q v =>
  if q = p ∧ lo ≤ v * pgsize ∧ v * pgsize < hi then z else g q v

section

variable {top : ℕ → ℕ} {place : ℕ → ℕ → Place} {f : ℕ → ℕ → Page} {s s' : Kernel} {p v a : ℕ}
  {E : Halt → Kernel → Prop}

theorem wipe_of_le {α : Type} {z : α} {g : ℕ → ℕ → α} {lo hi : ℕ} (h : hi ≤ lo) :
    wipe z g p lo hi = g := by
  funext q u
  exact if_neg fun hin => by omega

/-- One more page. -/
theorem wipe_succ {α : Type} (z : α) (g : ℕ → ℕ → α) (p v n : ℕ) :
    wipe z (wipe z g p (v * pgsize) (v * pgsize + pgsize)) p (v * pgsize + pgsize)
        (v * pgsize + pgsize + n * pgsize)
      = wipe z g p (v * pgsize) (v * pgsize + (n + 1) * pgsize) := by
  funext q u
  rw [wipe, wipe, wipe]
  by_cases hrest : q = p ∧ v * pgsize + pgsize ≤ u * pgsize ∧
      u * pgsize < v * pgsize + pgsize + n * pgsize
  · rw [if_pos hrest, if_pos ⟨hrest.1, by omega, by rw [Nat.succ_mul]; omega⟩]
  · rw [if_neg hrest]
    refine if_congr ?_ rfl rfl
    rw [pgsize_eq] at hrest ⊢
    omega

theorem setPlace_absent_eq (place : ℕ → ℕ → Place) (p v : ℕ) :
    setPlace place p v .absent = wipe .absent place p (v * pgsize) (v * pgsize + pgsize) := by
  funext q u
  rw [setPlace, wipe]
  refine if_congr ?_ rfl rfl
  rw [pgsize_eq]
  omega

/-! ### Unmapping -/

/-- A page goes away, with its slot or with its page and frame. -/
theorem Inv.drop (h : Inv top place f s) {frames : ℕ → FrameEntry} {freelist : List ℕ}
    {mem : ℕ → Page} {swapUsed : ℤ → Bool} {userFrames : ℤ}
    (hcount : userFrames = inUseCount frames) (hnodup : freelist.Nodup)
    (hman : ∀ b ∈ freelist, Managed s.kend b)
    (hpage : ∀ p' v' b, ¬ (p' = p ∧ v' = v) → place p' v' = .page b →
      b ∉ freelist ∧ mem b = s.mem b)
    (hslot : ∀ p' v' n, ¬ (p' = p ∧ v' = v) → place p' v' = .slot n → swapUsed n = true)
    (hframes : ∀ i < maxFrames, (frames i).inUse = true → frames i = s.frameTable i ∧
      place p v ≠ .page (s.frameTable i).physicalAddr)
    (hzero : swapUsed 0 = s.swapUsed 0) :
    Inv top (wipe .absent place p (v * pgsize) (v * pgsize + pgsize))
      (wipe Page.zero f p (v * pgsize) (v * pgsize + pgsize)) { s.setPte p v 0#64 with
        frameTable := frames
        userFrames := userFrames
        freelist := freelist
        mem := mem
        swapUsed := swapUsed } := by
  have hself : wipe Page.zero f p (v * pgsize) (v * pgsize + pgsize) p v = Page.zero :=
    if_pos ⟨rfl, le_refl _, by rw [pgsize_eq]; omega⟩
  rw [← setPlace_absent_eq]
  refine h.move
    { kend := rfl
      entry := h.ofPte_setPte (ofPte_eq_absent.mpr rfl)
      tables := fun q => (setPte_procs s p v _ q).2
      nodup := hnodup
      managed := hman
      page := fun p' v' b hne hb => ⟨(hpage p' v' b hne hb).1, (hpage p' v' b hne hb).2, by simp⟩
      slot := fun p' v' n hne hn => ⟨hslot p' v' n hne hn, rfl, by simp⟩
      toPage := fun b hb => by cases hb
      toSlot := fun n hn => by cases hn
      below := fun _ => ⟨rfl, hself⟩
      inTable := fun hne => absurd rfl hne
      frame := fun i hi hin => ⟨(hframes i hi hin).1, fun he => absurd he (hframes i hi hin).2⟩
      count := hcount
      zero := fun h0 => hzero.trans h0
      history := fun _ he => he
      evicted := fun e he hold => absurd he hold
      contents := fun _ => hself.symm } fun p' v' hne => if_neg ?_
  rw [pgsize_eq]
  omega

/-- There is nothing to unmap. -/
theorem Inv.dropAbsent (h : Inv top place f s) (hx : place p v = .absent) :
    Inv top (wipe .absent place p (v * pgsize) (v * pgsize + pgsize))
      (wipe Page.zero f p (v * pgsize) (v * pgsize + pgsize)) s := by
  have hsame : wipe .absent place p (v * pgsize) (v * pgsize + pgsize) = place := by
    rw [← setPlace_absent_eq, setPlace_of_eq hx]
  have hf : ∀ q u, wipe Page.zero f p (v * pgsize) (v * pgsize + pgsize) q u = f q u ∨
      (wipe Page.zero f p (v * pgsize) (v * pgsize + pgsize) q u = Page.zero ∧ q = p ∧ u = v) := by
    intro q u
    rw [wipe]
    split
    next hqu =>
      rw [pgsize_eq] at hqu
      exact Or.inr ⟨rfl, hqu.1, by omega⟩
    next => exact Or.inl rfl
  rw [hsame]
  refine { h with above := fun q u hle => ⟨(h.above q u hle).1, ?_⟩, contents := fun q u hl => ?_ }
  · rcases hf q u with he | ⟨he, -⟩
    · rw [he]
      exact (h.above q u hle).2
    · exact he
  · rcases hf q u with he | ⟨he, rfl, rfl⟩
    · rw [he]
      exact h.contents q u hl
    · rw [he, hx, Place.contents]

/-- One iteration of `uvmunmap`. -/
theorem uvmunmapPage_spec (h : Inv top place f s) (hva : v * pgsize < maxva) :
    wp (uvmunmapPage p (v * pgsize)) (fun _ s' => (∀ q, (s'.procs q).sz = (s.procs q).sz) ∧
      Inv top (wipe .absent place p (v * pgsize) (v * pgsize + pgsize))
        (wipe Page.zero f p (v * pgsize) (v * pgsize + pgsize)) s') E s := by
  have hdiv : v * pgsize / pgsize = v := Nat.mul_div_cancel v (by decide)
  rw [uvmunmapPage, wp_bind, wp_walk hva, hdiv]
  by_cases htab : HasTables s p v
  · rw [if_pos htab]
    dsimp only
    rw [wp_bind, wp_get]
    cases hx : place p v with
    | absent =>
      rw [if_pos (h.not_has_pteV (by rw [hx]; simp)), if_neg (not_not.mpr (h.entry_eq_zero.mpr hx))]
      exact ⟨fun _ => rfl, h.dropAbsent hx⟩
    | slot n =>
      obtain ⟨hn0, hn, -⟩ := h.slot p v n hx
      have hpte : s.entry p v ≠ 0#64 := by
        rw [Ne, h.entry_eq_zero, hx]
        simp
      have hin : ¬ ((n : ℤ) < 0 ∨ (n : ℤ) ≥ maxSwap) := by omega
      rw [if_pos (h.not_has_pteV (by rw [hx]; simp)), if_pos hpte, h.swapIdx_entry hx, wp_bind,
        swapFree, wp_bind, wp_get, if_neg hin, wp_set, wp_modify]
      refine ⟨fun q => (setPte_procs s p v _ q).1, ?_⟩
      have hslot : ∀ p' v' m, ¬ (p' = p ∧ v' = v) → place p' v' = .slot m →
          update s.swapUsed n false m = true := by
        intro p' v' m hne hm
        have hmn : (m : ℤ) ≠ n := fun he =>
          hne (h.slotInj p' v' p v m hm (by rw [Nat.cast_inj.mp he, hx]))
        exact (update_of_ne hmn _ _).trans (h.slot p' v' m hm).2.2
      have hzero : (0 : ℤ) ≠ n := by omega
      exact h.drop h.count h.nodup h.managed (fun p' v' b _ hb => ⟨(h.page p' v' b hb).2, rfl⟩)
        hslot (fun i _ _ => ⟨rfl, by rw [hx]; simp⟩) (update_of_ne hzero _ _)
    | page a =>
      obtain ⟨hman, hnf⟩ := h.page p v a hx
      rw [if_neg (by rw [h.has_pteV.mpr ⟨a, hx⟩]; decide), h.pte2pa_entry hx]
      refine wp_call (frameFree_spec h.count h.frameInj a) fun _ s₁ hs₁ => ?_
      obtain ⟨frames, m, rfl, rfl, hframes, -⟩ := hs₁
      rw [wp_bind, wp_kfree (by exact hman), wp_modify]
      refine ⟨fun q => (setPte_procs s p v _ q).1, ?_⟩
      have hpage : ∀ p' v' b, ¬ (p' = p ∧ v' = v) → place p' v' = .page b →
          b ∉ a :: s.freelist ∧ update s.mem a (Page.fill 1) b = s.mem b := by
        intro p' v' b hne hb
        have hba : b ≠ a := fun he => hne (h.pageInj p' v' p v b hb (he ▸ hx))
        refine ⟨fun hmem => ?_, update_of_ne hba _ _⟩
        rcases List.mem_cons.mp hmem with he | hmem
        · exact hba he
        · exact (h.page p' v' b hb).2 hmem
      have hframes' : ∀ i < maxFrames, (frames i).inUse = true → frames i = s.frameTable i ∧
          place p v ≠ .page (s.frameTable i).physicalAddr := fun i hi hin =>
        ⟨(hframes i hi hin).1, by
          rw [hx]
          exact fun he => (hframes i hi hin).2 (Place.page.inj he).symm⟩
      exact h.drop rfl (List.nodup_cons.mpr ⟨hnf, h.nodup⟩)
        (List.forall_mem_cons.mpr ⟨hman, h.managed⟩) hpage
        (fun p' v' n _ hn => (h.slot p' v' n hn).2.2) hframes' rfl
  · have hx : place p v = .absent := by
      by_contra hx
      exact htab (h.tables p v hx)
    rw [if_neg htab]
    exact ⟨fun _ => rfl, h.dropAbsent hx⟩

/-- The loop of `uvmunmap`. -/
theorem uvmunmapLoop_spec {n : ℕ} (h : Inv top place f s) (hend : v * pgsize + n * pgsize ≤ maxva) :
    wp (uvmunmapLoop p n (v * pgsize)) (fun _ s' => (∀ q, (s'.procs q).sz = (s.procs q).sz) ∧
      Inv top (wipe .absent place p (v * pgsize) (v * pgsize + n * pgsize))
        (wipe Page.zero f p (v * pgsize) (v * pgsize + n * pgsize)) s') E s := by
  induction n generalizing v place f s with
  | zero =>
    rw [wipe_of_le (by simp), wipe_of_le (by simp)]
    exact ⟨fun _ => rfl, h⟩
  | succ n ih =>
    rw [Nat.succ_mul] at hend
    have hpg : 0 < pgsize := by decide
    refine wp_call (uvmunmapPage_spec h (by omega)) fun _ s₁ hs₁ => ?_
    rw [← Nat.succ_mul] at hs₁ ⊢
    refine wp_imp (ih hs₁.2 (by rw [Nat.succ_mul]; omega)) fun _ s₂ hs₂ => ?_
    rw [Nat.succ_mul v, wipe_succ, wipe_succ] at hs₂
    exact ⟨fun q => (hs₂.1 q).trans (hs₁.1 q), hs₂.2⟩

/-! ### Sizes -/

theorem pgroundup_eq {sz : ℕ} (h : sz ≤ trapframe) : ∃ k, pgroundup sz = k * pgsize ∧
    k * pgsize ≤ trapframe ∧ ∀ u, sz ≤ u * pgsize ↔ k * pgsize ≤ u * pgsize := by
  refine ⟨(sz + pgsize - 1) % 2 ^ 64 / pgsize, rfl, ?_, fun u => ?_⟩
  all_goals
    simp only [trapframe_eq, pgsize_eq] at h ⊢
    omega

theorem pgroundup_mul {k : ℕ} (h : k * pgsize ≤ trapframe) :
    pgroundup (k * pgsize) = k * pgsize := by
  simp only [pgroundup, trapframe_eq, pgsize_eq] at h ⊢
  omega

/-- `uvmdealloc` -/
theorem uvmdealloc_spec {oldsz newsz : ℕ} (h : Inv top place f s) (hold : oldsz ≤ trapframe) :
    wp (uvmdealloc p oldsz newsz) (fun r s' => r = min newsz oldsz ∧
      (∀ q, (s'.procs q).sz = (s.procs q).sz) ∧
      Inv top (wipe .absent place p (pgroundup r) (pgroundup oldsz))
        (wipe Page.zero f p (pgroundup r) (pgroundup oldsz)) s') E s := by
  rw [uvmdealloc]
  by_cases hge : newsz ≥ oldsz
  · rw [if_pos hge]
    refine ⟨(min_eq_right hge).symm, fun _ => rfl, ?_⟩
    rw [wipe_of_le le_rfl, wipe_of_le le_rfl]
    exact h
  · rw [if_neg hge]
    have hmin : newsz = min newsz oldsz := (min_eq_left (not_le.mp hge).le).symm
    by_cases hlt : pgroundup newsz < pgroundup oldsz
    · obtain ⟨k, hk, hkle, -⟩ := pgroundup_eq hold
      have hnew : newsz ≤ trapframe := by omega
      obtain ⟨j, hj, -, -⟩ := pgroundup_eq hnew
      rw [if_pos hlt, uvmunmap, if_neg (by rw [hj]; exact not_not.mpr (Nat.mul_mod_left j pgsize))]
      have hn : (pgroundup oldsz - pgroundup newsz) / pgsize * pgsize
          = pgroundup oldsz - pgroundup newsz := by
        rw [hk, hj, ← Nat.sub_mul, Nat.mul_div_cancel _ (by decide)]
      have hmax : k * pgsize ≤ maxva := by
        simp only [trapframe_eq] at hkle
        rw [maxva_eq]
        omega
      rw [hj] at hn hlt ⊢
      refine wp_call (uvmunmapLoop_spec h (by rw [hn]; omega)) fun _ s₁ hs₁ => ?_
      rw [hn, Nat.add_sub_cancel' hlt.le, ← hj] at hs₁
      exact ⟨hmin, hs₁.1, hs₁.2⟩
    · rw [if_neg hlt]
      refine ⟨hmin, fun _ => rfl, ?_⟩
      rw [wipe_of_le (not_lt.mp hlt), wipe_of_le (not_lt.mp hlt)]
      exact h

/-- Another bound for what a process has. -/
theorem Inv.retop (h : Inv top place f s) {n : ℕ} (hn : n ≤ trapframe)
    (habove : ∀ u, n ≤ u * pgsize → place p u = .absent ∧ f p u = Page.zero) :
    Inv (update top p n) place f s := by
  refine { h with top_le := fun q => ?_, above := fun q u hu => ?_ }
  · by_cases hq : q = p
    · subst hq
      rwa [update_self]
    · rw [update_of_ne hq]
      exact h.top_le q
  · by_cases hq : q = p
    · subst hq
      rw [update_self] at hu
      exact habove u hu
    · rw [update_of_ne hq] at hu
      exact h.above q u hu

/-! ### Eager growth -/

/-- The loop of `uvmalloc`, with everything from `lo` on zero in the abstract memory. -/
theorem uvmallocLoop_spec {k newsz n : ℕ} (h : Inv top place f s) (hnew : newsz = top p)
    (hz : ∀ u, k * pgsize ≤ u * pgsize → f p u = Page.zero)
    (habs : ∀ u, v * pgsize ≤ u * pgsize → place p u = .absent) (hkv : k * pgsize ≤ v * pgsize) :
    wp (uvmallocLoop p (k * pgsize) newsz pteW n (v * pgsize)) (fun r s' =>
      (∀ q, (s'.procs q).sz = (s.procs q).sz) ∧ ∃ place', Inv top place' f s' ∧
        (r = newsz ∨ (r = 0 ∧ ∀ u, k * pgsize ≤ u * pgsize → place' p u = .absent))) E s := by
  induction n generalizing v place s with
  | zero => exact ⟨fun _ => rfl, place, h, Or.inl rfl⟩
  | succ n ih =>
    rw [uvmallocLoop]
    by_cases hlt : v * pgsize < newsz
    swap
    · rw [if_neg hlt]
      exact ⟨fun _ => rfl, place, h, Or.inl rfl⟩
    rw [if_pos hlt]
    have htop : v * pgsize ≤ trapframe := (hnew ▸ hlt).le.trans (h.top_le p)
    -- the pages mapped so far are given back
    have hundo : ∀ {s₁ : Kernel}, Inv top place f s₁ →
        (∀ q, (s₁.procs q).sz = (s.procs q).sz) →
        wp (do
          let _ ← uvmdealloc p (v * pgsize) (k * pgsize)
          pure 0) (fun r s' => (∀ q, (s'.procs q).sz = (s.procs q).sz) ∧
            ∃ place', Inv top place' f s' ∧ (r = newsz ∨
              (r = 0 ∧ ∀ u, k * pgsize ≤ u * pgsize → place' p u = .absent))) E s₁ := by
      intro s₁ h₁ hsz₁
      refine wp_call (uvmdealloc_spec h₁ htop) fun r s₂ hs₂ => ?_
      obtain ⟨rfl, hsz₂, h₂⟩ := hs₂
      rw [min_eq_left hkv, pgroundup_mul (hkv.trans htop), pgroundup_mul htop] at h₂
      have hf : wipe Page.zero f p (k * pgsize) (v * pgsize) = f := by
        funext q u
        rw [wipe]
        split
        next hqu => rw [hqu.1, hz u hqu.2.1]
        next => rfl
      rw [hf] at h₂
      refine ⟨fun q => (hsz₂ q).trans (hsz₁ q), _, h₂, Or.inr ⟨rfl, fun u hu => ?_⟩⟩
      rw [wipe]
      split
      next => rfl
      next hout => exact habs u (by omega)
    refine wp_call (kalloc_spec h) fun a s₁ hs₁ => ?_
    rcases hs₁ with ⟨rfl, -, rfl⟩ | ⟨hne, -, h₁, ha₁, hk₁, -⟩
    · rw [if_pos rfl]
      exact hundo h fun _ => rfl
    rw [if_neg hne, wp_bind, wp_modify]
    refine wp_call (mappages_zero_spec h₁ ha₁ (by decide) (hnew ▸ hlt) (habs v le_rfl))
      fun r s₂ hs₂ => ?_
    rcases hs₂ with ⟨rfl, hc⟩ | ⟨hr, h₂, ha₂, hc⟩
    · rw [if_neg (not_not.mpr rfl), ← Nat.succ_mul]
      refine wp_imp (ih hc.inv (fun u hu => ?_) ?_) fun r s' hs' => ⟨fun q => ?_, hs'.2⟩
      · rw [setPlace_of_ne (by rintro ⟨-, rfl⟩; rw [pgsize_eq] at hu; omega)]
        exact habs u (by rw [Nat.succ_mul] at hu; omega)
      · rw [Nat.succ_mul]
        omega
      · exact (hs'.1 q).trans ((hc.sz q).trans (hk₁.sz q))
    · rw [if_pos hr]
      refine wp_call (kfree_spec h₂ ha₂) fun _ s₃ hs₃ => ?_
      exact hundo hs₃.1 fun q => (hs₃.2.sz q).trans ((hc.sz q).trans (hk₁.sz q))

/-- The sizes of the processes. -/
def szOf (s : Kernel) : ℕ → ℕ := fun q => (s.procs q).sz

/-- `uvmalloc`, called with the size of the process. -/
theorem uvmalloc_spec (h : Inv (szOf s) place f s) {newsz : ℕ} (hnew : newsz ≤ trapframe) :
    wp (uvmalloc p (s.procs p).sz newsz pteW) (fun r s' =>
      (∀ q, (s'.procs q).sz = (s.procs q).sz) ∧ ∃ place',
        (r = 0 → Inv (szOf s) place' f s') ∧
        (r ≠ 0 → (s.procs p).sz ≤ r ∧ Inv (update (szOf s) p r) place' f s')) E s := by
  have hsz : (s.procs p).sz ≤ trapframe := h.top_le p
  rw [uvmalloc]
  by_cases hlt : newsz < (s.procs p).sz
  · rw [if_pos hlt]
    refine ⟨fun _ => rfl, place, fun _ => h, fun _ => ⟨le_rfl, ?_⟩⟩
    rw [show (s.procs p).sz = szOf s p from rfl, update_eq_self]
    exact h
  rw [if_neg hlt]
  obtain ⟨k, hk, -, hiff⟩ := pgroundup_eq hsz
  rw [hk]
  have hz : ∀ u, k * pgsize ≤ u * pgsize → f p u = Page.zero := fun u hu =>
    (h.above p u ((hiff u).mpr hu)).2
  have hself : newsz = update (szOf s) p newsz p := by rw [update_self]
  have h₁ : Inv (update (szOf s) p newsz) place f s :=
    h.retop hnew fun u hu => h.above p u ((not_lt.mp hlt).trans hu)
  refine wp_imp (uvmallocLoop_spec h₁ hself hz
    (fun u hu => (h.above p u ((hiff u).mpr hu)).1) le_rfl) fun r s' hs' => ?_
  obtain ⟨hsz', place', h', hr⟩ := hs'
  refine ⟨hsz', place', fun h0 => ?_, fun h0 => ?_⟩
  · rcases hr with rfl | ⟨-, habs⟩
    · -- the size is zero and stays so
      rw [show r = szOf s p by rw [szOf]; omega, update_eq_self] at h'
      exact h'
    · have hback := h'.retop hsz fun u hu => ⟨habs u ((hiff u).mp hu), hz u ((hiff u).mp hu)⟩
      rwa [Function.update_idem, show (s.procs p).sz = szOf s p from rfl,
        update_eq_self] at hback
  · obtain rfl := hr.resolve_right fun hr => h0 hr.1
    exact ⟨not_lt.mp hlt, h'⟩

/-! ### `sbrk` -/

/-- The new size is stored. -/
theorem Inv.setSz {s₀ : Kernel} {n : ℕ} (h : Inv (update (szOf s₀) p n) place f s)
    (hsz : ∀ q, (s.procs q).sz = (s₀.procs q).sz) :
    Inv (szOf (s.modProc p fun q => { q with sz := n })) place f
      (s.modProc p fun q => { q with sz := n }) := by
  have htop : szOf (s.modProc p fun q => { q with sz := n }) = update (szOf s₀) p n := by
    funext q
    by_cases hq : q = p
    · subst hq
      simp [szOf, Kernel.modProc]
    · simp [szOf, Kernel.modProc, hq, hsz]
  rw [htop]
  exact h.modProc_of_pagetable (g := fun q => { q with sz := n }) (fun _ => rfl) p

/-- What `sbrk` does: the pages between the new size and the old one are gone. -/
def Resized (f : ℕ → ℕ → Page) (p : ℕ) (s s' : Kernel) : Prop :=
  (∀ q, q ≠ p → (s'.procs q).sz = (s.procs q).sz) ∧ ∃ place', Inv (szOf s') place'
    (wipe Page.zero f p (pgroundup (s'.procs p).sz) (pgroundup (s.procs p).sz)) s'

theorem Resized.of_sz (hsz : ∀ q, (s'.procs q).sz = (s.procs q).sz) (h : Inv (szOf s) place f s') :
    Resized f p s s' := by
  refine ⟨fun q _ => hsz q, place, ?_⟩
  rw [hsz, wipe_of_le le_rfl, show szOf s' = szOf s from funext hsz]
  exact h

/-- The process has grown. -/
theorem Resized.grow {n : ℕ} (hsz : ∀ q, (s'.procs q).sz = (s.procs q).sz)
    (hle : (s.procs p).sz ≤ n) (h : Inv (update (szOf s) p n) place f s') :
    Resized f p s (s'.modProc p fun q => { q with sz := n }) := by
  refine ⟨fun q hq => by simp [Kernel.modProc, hq, hsz], place, ?_⟩
  have hn := h.top_le p
  rw [update_self] at hn
  have hround : pgroundup (s.procs p).sz ≤ pgroundup n := by
    simp only [pgroundup, pgsize_eq, trapframe_eq] at hn ⊢
    omega
  have hself : ((s'.modProc p fun q => { q with sz := n }).procs p).sz = n := by
    simp [Kernel.modProc]
  rw [hself, wipe_of_le hround]
  exact h.setSz hsz

/-- The process has shrunk. -/
theorem Resized.shrink {r : ℕ} (hsz : ∀ q, (s'.procs q).sz = (s.procs q).sz)
    (hle : r ≤ (s.procs p).sz)
    (h : Inv (szOf s) (wipe .absent place p (pgroundup r) (pgroundup (s.procs p).sz))
      (wipe Page.zero f p (pgroundup r) (pgroundup (s.procs p).sz)) s') :
    Resized f p s (s'.modProc p fun q => { q with sz := r }) := by
  refine ⟨fun q hq => by simp [Kernel.modProc, hq, hsz],
    wipe .absent place p (pgroundup r) (pgroundup (s.procs p).sz), ?_⟩
  have hself : ((s'.modProc p fun q => { q with sz := r }).procs p).sz = r := by
    simp [Kernel.modProc]
  have htop : (s.procs p).sz ≤ trapframe := h.top_le p
  obtain ⟨k, hk, -, hiff⟩ := pgroundup_eq htop
  obtain ⟨j, hj, -, hiff'⟩ := pgroundup_eq (hle.trans htop)
  rw [hself]
  refine Inv.setSz (h.retop (hle.trans htop) fun u hu => ?_) hsz
  rw [hiff', ← hj] at hu
  by_cases hin : u * pgsize < pgroundup (s.procs p).sz
  · exact ⟨if_pos ⟨rfl, hu, hin⟩, if_pos ⟨rfl, hu, hin⟩⟩
  · rw [hk] at hin
    exact h.above p u ((hiff u).mpr (not_lt.mp hin))

theorem growproc_spec (h : Inv (szOf s) place f s) (n : ℤ) :
    wp (growproc p n) (fun _ s' => Resized f p s s') E s := by
  rw [growproc, wp_bind, wp_get]
  dsimp only
  generalize (((s.procs p).sz + n) % 2 ^ 64).toNat = newsz
  split_ifs with hpos hbig hneg
  · exact .of_sz (fun _ => rfl) h
  · refine wp_call (uvmalloc_spec h (not_lt.mp hbig)) fun r s₁ hs₁ => ?_
    obtain ⟨hsz₁, place₁, hfail, hok⟩ := hs₁
    by_cases hr : r = 0
    · rw [if_pos hr]
      exact .of_sz hsz₁ (hfail hr)
    · rw [if_neg hr]
      exact .grow hsz₁ (hok hr).1 (hok hr).2
  · refine wp_call (uvmdealloc_spec h (h.top_le p)) fun r s₁ hs₁ => ?_
    obtain ⟨rfl, hsz₁, h₁⟩ := hs₁
    exact .shrink hsz₁ (min_le_right _ _) h₁
  · exact .grow (fun _ => rfl) le_rfl (h.retop (h.top_le p) (h.above p))

/-- **`sbrk`** only takes away the pages between the new size and the old one. -/
theorem sysSbrk_spec (h : Inv (szOf s) place f s) (n : ℤ) (eager : Bool) :
    wp (sysSbrk p n eager) (fun _ s' => Resized f p s s') E s := by
  rw [sysSbrk, wp_bind, wp_get]
  dsimp only
  generalize (((s.procs p).sz + n) % 2 ^ 64).toNat = newsz
  split_ifs with heager hlt hbig
  · refine wp_call (growproc_spec h n) fun r s₁ hs₁ => ?_
    split <;> exact hs₁
  · exact .of_sz (fun _ => rfl) h
  · exact .of_sz (fun _ => rfl) h
  · exact .grow (fun _ => rfl) (not_lt.mp hlt) (h.retop (not_lt.mp hbig) fun u hu =>
      h.above p u ((not_lt.mp hlt).trans hu))

end

end Pa3

end Xv6
