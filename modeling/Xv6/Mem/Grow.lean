import Xv6.Mem.Copy

/-!
# Growing and shrinking

Specifications of the loops of `uvmunmap` and `uvmalloc`, of `growproc`, and of `sys_sbrk`.

A process that grows eagerly gets pages of zeros where nothing was mapped, and one that grows
lazily gets nothing, so in both cases its logical memory stays as it is. A process that shrinks
loses the pages at and above its new size, which then read as zeros.
-/

namespace Xv6

namespace Mem

open WeakestPre

variable {E : Halt → Kernel → Prop} {a newsz oldsz x : ℕ} {g : Ghost} {s : Kernel} {xperm : Pte}

variable {N : ℕ → ℕ → Prop} {alloc : M ℕ}

/-- The entries of the address space `r` between two addresses. -/
def Range (r lo hi : ℕ) : ℕ → Key → Prop := fun r' k => r' = r ∧ lo ≤ k.addr ∧ k.addr < hi

theorem addr_mod (k : Key) : k.addr % 4096 = 0 := Nat.mul_mod_left _ _

theorem entryAt_range {r va lo hi : ℕ} (hva : va < trapframe) (hlo : lo ≤ va / 4096 * 4096)
    (hhi : va < hi) (r' : ℕ) (k' : Key) (he : EntryAt r (vkey va) r' k') : Range r lo hi r' k' := by
  simp only [trapframe_eq] at hva
  refine ⟨he.1, ?_⟩
  rw [he.2, addr_vkey (by omega)]
  omega

/-- The page of the loop variable, or one after it. -/
theorem eq_or_range {n : ℕ} {k : Key} (ha : a % 4096 = 0) (htop : a < trapframe) (hlo : a ≤ k.addr)
    (hhi : k.addr < a + (n + 1) * 4096) :
    k = vkey a ∨ (a + 4096 ≤ k.addr ∧ k.addr < a + 4096 + n * 4096) := by
  simp only [trapframe_eq] at htop
  have hk := addr_mod k
  by_cases he : k.addr = a
  · left
    refine addr_inj ?_
    rw [addr_vkey (by omega)]
    omega
  · right
    omega

/-! ### Unmapping -/

/-- **The loop of `uvmunmap`** on user memory. -/
theorem uvmunmapLoop_spec (h : Inv N g s) {r n : ℕ} (hr : g.own r = .root) (ha : a % 4096 = 0)
    (htop : a + n * 4096 ≤ trapframe) :
    wp (uvmunmapLoop r true n a) (fun _ s' => ∃ g', Inv N g' s' ∧
      Background (Range r a (a + n * 4096)) (Range r a (a + n * 4096)) NoEntry NoPage g g' s s' ∧
      ∀ k : Key, a ≤ k.addr → k.addr < a + n * 4096 → leaf s'.mem r k = 0#64) E s := by
  induction n generalizing g s a with
  | zero => exact ⟨g, h, Background.refl h, fun k hlo hhi => by omega⟩
  | succ n ih =>
    have hlt : a < trapframe := by
      simp only [trapframe_eq] at htop ⊢
      omega
    rw [uvmunmapLoop]
    refine wp_call (uvmunmapPage_spec h hr hlt) fun _ s₁ hu => ?_
    obtain ⟨g₁, h₁, hback, hleaf⟩ := hu
    have hr₁ := hback.own_root hr
    refine wp_imp (ih h₁ hr₁ (by simp only [pgsize_eq]; omega) (by simp only [pgsize_eq]; omega))
      fun _ s' hl => ?_
    obtain ⟨g', h', hback', hzero⟩ := hl
    simp only [pgsize_eq] at hback' hzero
    refine ⟨g', h', ?_, fun k hlo hhi => ?_⟩
    · refine (hback.mono ?_ ?_ NoEntry.le fun _ _ h => h).seq
        (hback'.mono ?_ ?_ NoEntry.le fun _ _ h => h)
      · exact entryAt_range hlt (by omega) (by omega)
      · exact entryAt_range hlt (by omega) (by omega)
      · exact fun _ _ hx => ⟨hx.1, by have := hx.2; omega⟩
      · exact fun _ _ hx => ⟨hx.1, by have := hx.2; omega⟩
    · rcases eq_or_range ha hlt hlo hhi with rfl | hk
      · have hnot : ¬ Range r (a + 4096) (a + 4096 + n * 4096) r (vkey a) := fun hx => by
          have := hx.2.1
          simp only [trapframe_eq] at hlt
          rw [addr_vkey (by omega)] at this
          omega
        rw [hback'.leaf_eq hr₁ hnot (by rw [hleaf]; exact not_valid_zero), hleaf]
      · exact hzero k hk.1 hk.2

/-! ### Mapping pages of zeros -/

/-- **One iteration of `uvmalloc`** on user memory. -/
theorem uvmallocLoop_succ_spec (halloc : Allocates N alloc) (h : Inv N g s) {p r n : ℕ}
    (hmy : s.myproc = some p) (ht : HasTable N s p r) (hr : g.own r = .root) (ha : a % 4096 = 0)
    (htf : a < trapframe) (hlt : a < newsz) (hf : (pteR ||| pteU ||| xperm).toNat < 1024)
    (hs : (pteR ||| pteU ||| xperm).getLsbD 8 = false) (h0 : leaf s.mem r (vkey a) = 0#64)
    {Q : ℕ → Kernel → Prop} (hE : ∀ e s, Exhausted N e s → E e s)
    (rest : ∀ g₁ s₁, Inv N g₁ s₁ → Background (EntryAt r (vkey a)) NoEntry
      (Lost r ((s.procs p).pagetable = r)) NoPage g g₁ s s₁ →
      wp (uvmallocLoop alloc r oldsz newsz xperm n (a + pgsize)) Q E s₁) :
    wp (uvmallocLoop alloc r oldsz newsz xperm (n + 1) a) Q E s := by
  rw [uvmallocLoop, if_pos hlt]
  refine wp_call (wp_error_imp (halloc h) hE) fun pa s₁ hall => ?_
  obtain ⟨g₁, hall⟩ := hall
  rw [if_neg (hall.ne_zero h), wp_bind, wp_modify]
  refine wp_call (wp_error_imp (hall.zeroFill_spec halloc hr htf ha hf hs h0) hE)
    fun ret s₂ hm => ?_
  obtain ⟨rfl, g₂, hm⟩ := hm
  have hmy₂ : s₂.myproc = some p := hm.background.myproc.trans hmy
  rw [if_neg (by simp), wp_bind, wp_get, hmy₂]
  refine wp_call (trackFrame_spec hm.inv (ht.congr (hm.background.pagetable p)) hm.user htf)
    fun _ s₃ htr => ?_
  obtain ⟨h₃, hback₃, -, htrk⟩ := htr
  refine rest g₂ s₃ h₃ ((hm.background.seq (hback₃.mono NoEntry.le (fun _ _ h => h) (fun _ _ h => h)
    fun _ _ h => h)).trackOwn (p := p) (fun hpt => ?_) fun hpt => ⟨rfl, hpt⟩)
  exact htrk ((hm.background.pagetable p).trans hpt) ha

theorem addr_vkey_of_aligned (ha : a % 4096 = 0) (htf : a ≤ trapframe) : (vkey a).addr = a := by
  simp only [trapframe_eq] at htf
  rw [addr_vkey (by omega)]
  omega

/-- Nothing is mapped above the page of the loop variable. -/
theorem absent_above {g₁ : Ghost} {s₁ : Kernel} {r : ℕ} {Z T : ℕ → Key → Prop} {Y : ℕ → Prop}
    (hr : g.own r = .root) (ha : a % 4096 = 0) (htf : a ≤ trapframe)
    (hb : Background (EntryAt r (vkey a)) Z T Y g g₁ s s₁)
    (habs : ∀ k : Key, UserKey k → a ≤ k.addr → leaf s.mem r k = 0#64) (k : Key) (hk : UserKey k)
    (hlo : a + pgsize ≤ k.addr) : leaf s₁.mem r k = 0#64 := by
  rw [pgsize_eq] at hlo
  have h0 := habs k hk (by omega)
  have hne : ¬ EntryAt r (vkey a) r k := fun hx => by
    rw [hx.2, addr_vkey_of_aligned ha htf] at hlo
    omega
  rw [hb.leaf_eq hr hne (by rw [h0]; exact not_valid_zero), h0]

/-- **The loop of `uvmalloc`.** -/
theorem uvmallocLoop_spec (halloc : Allocates N alloc) (h : Inv N g s) {p r n : ℕ}
    (hmy : s.myproc = some p) (ht : HasTable N s p r) (hr : g.own r = .root) (ha : a % 4096 = 0)
    (htop : newsz ≤ trapframe) (hf : (pteR ||| pteU ||| xperm).toNat < 1024)
    (hs : (pteR ||| pteU ||| xperm).getLsbD 8 = false)
    (habs : ∀ k : Key, UserKey k → a ≤ k.addr → leaf s.mem r k = 0#64) :
    wp (uvmallocLoop alloc r oldsz newsz xperm n a) (fun ret s' => ret = newsz ∧ ∃ g', Inv N g' s' ∧
      Background (Range r a newsz) NoEntry (Lost r ((s.procs p).pagetable = r)) NoPage g g' s s')
      (Exhausted N) s := by
  induction n generalizing g s a with
  | zero => exact ⟨rfl, g, h, Background.refl h⟩
  | succ n ih =>
    by_cases hlt : a < newsz
    · have htf : a < trapframe := hlt.trans_le htop
      refine uvmallocLoop_succ_spec halloc h hmy ht hr ha htf hlt hf hs
        (habs _ (userKey_vkey htf) (addr_vkey_of_aligned ha htf.le).ge) (fun _ _ he => he)
        fun g₁ s₁ h₁ hback => ?_
      refine wp_imp (ih h₁ (hback.myproc.trans hmy) (ht.congr (hback.pagetable p))
        (hback.own_root hr) (by simp only [pgsize_eq]; omega)
        (absent_above hr ha htf.le hback habs))
        fun ret s' hl => ?_
      obtain ⟨rfl, g', h', hback'⟩ := hl
      rw [hback.pagetable p] at hback'
      refine ⟨rfl, g', h', (hback.mono (entryAt_range htf (by omega) hlt) (fun _ _ h => h)
        (fun _ _ h => h) fun _ _ h => h).seq (hback'.mono ?_ (fun _ _ h => h) (fun _ _ h => h)
        fun _ _ h => h)⟩
      exact fun _ _ hx => ⟨hx.1, by have := hx.2; simp only [pgsize_eq] at this; omega⟩
    · rw [uvmallocLoop, if_neg hlt]
      exact ⟨rfl, g, h, Background.refl h⟩

/-! ### Changing the size -/

/-- The state with another size of process `p`. -/
def Kernel.setSz (p sz : ℕ) (s : Kernel) : Kernel :=
  s.modProc (some p) fun q => { q with sz := sz }

/-- All entries of user memory of the address space `r`. -/
def UserOf (r : ℕ) : ℕ → Key → Prop := fun r' k => r' = r ∧ UserKey k

/-- The pages lost when the size goes from `sz` down to `sz'`. -/
def Cut (r sz' sz : ℕ) : ℕ → Key → Prop := fun r' k => r' = r ∧ sz' < sz ∧ sz' ≤ k.addr

theorem pgroundup_eq (h : x ≤ trapframe) : pgroundup x = (x + 4095) / 4096 * 4096 := by
  simp only [trapframe_eq] at h
  simp only [pgroundup, pgsize_eq]
  omega

theorem le_addr_iff (h : x ≤ trapframe) (k : Key) : x ≤ k.addr ↔ pgroundup x ≤ k.addr := by
  have := addr_mod k
  rw [pgroundup_eq h]
  omega

theorem pgroundup_le (h : x ≤ trapframe) : pgroundup x ≤ trapframe := by
  rw [pgroundup_eq h]
  simp only [trapframe_eq] at h ⊢
  omega

/-- What a change of size gives: nothing is mapped above the new size, and only the pages cut off
are lost. -/
structure Resized (N : ℕ → ℕ → Prop) (g : Ghost) (s s' : Kernel) (p r sz' : ℕ) : Prop where
  le : sz' ≤ trapframe
  outcome : ∃ g' s₁, Inv N g' s₁ ∧
    Background (UserOf r) (Cut r sz' (s.procs p).sz) NoEntry NoPage g g' s s₁ ∧
    (∀ k, UserKey k → sz' ≤ k.addr → leaf s₁.mem r k = 0#64) ∧ s' = s₁.setSz p sz'

section

variable {p r : ℕ}

theorem setSz_self (s : Kernel) (p : ℕ) : s.setSz p (s.procs p).sz = s := by
  simp [Kernel.setSz, Kernel.modProc]

/-- The size stays. -/
theorem resized_self (h : Inv N g s) (hp : Running g s p r) : Resized N g s s p r (s.procs p).sz :=
  ⟨hp.sz, g, s, h, Background.refl h, hp.absent, (setSz_self s p).symm⟩

/-- **`uvmalloc`** for the running process. -/
theorem uvmalloc_spec (halloc : Allocates N alloc) (h : Inv N g s) (hp : Running g s p r)
    (htop : newsz ≤ trapframe) :
    wp (uvmalloc alloc r (s.procs p).sz newsz pteW) (fun sz' s' =>
      sz' = max (s.procs p).sz newsz ∧ (s'.procs p).sz = (s.procs p).sz ∧
      Resized N g s (s'.setSz p sz') p r sz') (Exhausted N) s := by
  rw [uvmalloc]
  by_cases hlt : newsz < (s.procs p).sz
  · rw [if_pos hlt, wp_pure, max_eq_left hlt.le]
    exact ⟨rfl, rfl, by rw [setSz_self]; exact resized_self h hp⟩
  rw [if_neg hlt]
  have hle := not_lt.mp hlt
  have hup := pgroundup_eq hp.sz
  refine wp_imp (uvmallocLoop_spec halloc h hp.myproc (Or.inl hp.pagetable) hp.root
    (by rw [hup]; omega) htop (by decide) (by decide) fun k hk hlo =>
      hp.absent k hk ((le_addr_iff hp.sz k).mpr hlo))
    fun sz' s' hl => ?_
  obtain ⟨rfl, g', h', hback⟩ := hl
  refine ⟨(max_eq_right hle).symm, (hback.procs p).sz, htop, g', s', h',
    hback.mono (fun _ _ hx => ⟨hx.1, hx.2.2.trans_le htop⟩) NoEntry.le
      (fun _ _ hx => absurd hp.pagetable hx.2) fun _ _ h => h, fun k hk hsz => ?_, rfl⟩
  have h0 := hp.absent k hk (hle.trans hsz)
  rw [hback.leaf_eq hp.root (fun hx => not_lt.mpr hsz hx.2.2) (by rw [h0]; exact not_valid_zero),
    h0]

/-- The pages that `uvmdealloc` unmaps. -/
theorem uvmdealloc_unmaps (h : Inv N g s) (hr : g.own r = .root) (htop : oldsz ≤ trapframe) :
    wp (uvmdealloc r oldsz newsz) (fun sz' s' => sz' = min oldsz newsz ∧ ∃ g', Inv N g' s' ∧
      Background (Range r newsz oldsz) (Range r newsz oldsz) NoEntry NoPage g g' s s' ∧
      ∀ k : Key, newsz ≤ k.addr → k.addr < oldsz → leaf s'.mem r k = 0#64) E s := by
  rw [uvmdealloc]
  by_cases hge : newsz ≥ oldsz
  · rw [if_pos hge, wp_pure, min_eq_left hge]
    exact ⟨rfl, g, h, Background.refl h, fun k hlo hhi => by omega⟩
  have hlt := not_le.mp hge
  have htop' : newsz ≤ trapframe := hlt.le.trans htop
  have hup := pgroundup_eq htop'
  have hup' := pgroundup_eq htop
  rw [if_neg hge, min_eq_right hlt.le]
  by_cases hpages : pgroundup newsz < pgroundup oldsz
  · have hunmap : uvmunmap r (pgroundup newsz) ((pgroundup oldsz - pgroundup newsz) / pgsize) true
        = uvmunmapLoop r true ((pgroundup oldsz - pgroundup newsz) / pgsize) (pgroundup newsz) :=
      if_neg (by rw [hup, pgsize_eq]; omega)
    rw [if_pos hpages]
    simp only [hunmap]
    have hend : pgroundup newsz + (pgroundup oldsz - pgroundup newsz) / pgsize * 4096
        = pgroundup oldsz := by
      rw [pgsize_eq]
      omega
    refine wp_call (uvmunmapLoop_spec h hr (by rw [hup]; omega)
      (by rw [hend]; exact pgroundup_le htop)) fun _ s' hl => ?_
    obtain ⟨g', h', hback, hzero⟩ := hl
    rw [hend] at hback hzero
    have hrange : ∀ r' k, Range r (pgroundup newsz) (pgroundup oldsz) r' k ↔
        Range r newsz oldsz r' k := fun r' k => by
      rw [Range, Range, ← le_addr_iff htop', ← not_le, ← le_addr_iff htop, not_le]
    refine ⟨rfl, g', h', hback.mono (fun _ _ => (hrange _ _).mp)
      (fun _ _ => (hrange _ _).mp) NoEntry.le
      fun _ _ h => h, fun k hlo hhi => ?_⟩
    exact hzero k ((le_addr_iff htop' k).mp hlo)
      (not_le.mp fun hle => not_lt.mpr ((le_addr_iff htop k).mpr hle) hhi)
  · rw [if_neg hpages]
    refine ⟨rfl, g, h, Background.refl h, fun k hlo hhi => absurd hhi (not_lt.mpr ?_)⟩
    exact (le_addr_iff htop k).mpr ((not_lt.mp hpages).trans ((le_addr_iff htop' k).mp hlo))

/-- **`uvmdealloc`** for the running process. -/
theorem uvmdealloc_spec (h : Inv N g s) (hp : Running g s p r) :
    wp (uvmdealloc r (s.procs p).sz newsz) (fun sz' s' =>
      sz' = min (s.procs p).sz newsz ∧ Resized N g s (s'.setSz p sz') p r sz') E s := by
  refine wp_imp (uvmdealloc_unmaps h hp.root hp.sz) fun sz' s' hl => ?_
  obtain ⟨hsz', g', h', hback, hzero⟩ := hl
  have hsz := hp.sz
  refine ⟨hsz', by omega, g', s', h', hback.mono (fun _ _ hx => ⟨hx.1, hx.2.2.trans_le hsz⟩)
    (fun _ _ hx => ⟨hx.1, ?_⟩) NoEntry.le fun _ _ h => h, fun k hk hle => ?_, rfl⟩
  · have := hx.2
    omega
  · by_cases hold : (s.procs p).sz ≤ k.addr
    · have h0 := hp.absent k hk hold
      rw [hback.leaf_eq hp.root (fun hx => not_lt.mpr hold hx.2.2)
        (by rw [h0]; exact not_valid_zero), h0]
    · exact hzero k (by omega) (not_le.mp hold)

/-- **`growproc`**, whose argument is an `int`. -/
theorem growproc_spec (halloc : Allocates N alloc) (h : Inv N g s) (hp : Running g s p r) {n : ℤ}
    (hn : -2 ^ 31 ≤ n) :
    wp (growproc alloc n) (fun ret s' => ∃ sz', Resized N g s s' p r sz' ∧
      (sz' < (s.procs p).sz → (sz' : ℤ) = (s.procs p).sz + n) ∧
      (n < 0 → ret = 0 ∧ (0 ≤ (s.procs p).sz + n → (sz' : ℤ) = (s.procs p).sz + n) ∧
        ((s.procs p).sz + n < 0 → sz' = (s.procs p).sz))) (Exhausted N) s := by
  have hsz := hp.sz
  simp only [trapframe_eq] at hsz
  rw [growproc, wp_bind, wp_getMyproc hp.myproc, wp_bind, wp_get, hp.pagetable]
  obtain ⟨newsz, hnew⟩ : ∃ newsz, ((((s.procs p).sz : ℤ) + n) % 2 ^ 64).toNat = newsz := ⟨_, rfl⟩
  by_cases hpos : n > 0
  · rw [if_pos hpos, hnew]
    by_cases htop : newsz > trapframe
    · rw [if_pos htop]
      exact ⟨_, resized_self h hp, fun hlt => absurd hlt (lt_irrefl _), fun hneg => by omega⟩
    rw [if_neg htop]
    refine wp_call (uvmalloc_spec halloc h hp (not_lt.mp htop)) fun sz' s' hu => ?_
    obtain ⟨hmax, hsame, hres⟩ := hu
    have hge : (s.procs p).sz ≤ sz' := by omega
    by_cases h0 : sz' = 0
    · rw [if_pos h0, wp_pure]
      refine ⟨sz', ?_, fun hlt => by omega, fun hneg => by omega⟩
      have he : sz' = (s'.procs p).sz := by omega
      rw [he, setSz_self, ← he] at hres
      exact hres
    · rw [if_neg h0, wp_bind, wp_modify, wp_pure]
      exact ⟨sz', hres, fun hlt => by omega, fun hneg => by omega⟩
  · rw [if_neg hpos]
    by_cases hneg : n < 0
    · rw [if_pos hneg, hnew]
      refine wp_call (uvmdealloc_spec h hp) fun sz' s' hu => ?_
      obtain ⟨hmin, hres⟩ := hu
      rw [wp_bind, wp_modify, wp_pure]
      have hval : (0 ≤ ((s.procs p).sz : ℤ) + n → (sz' : ℤ) = (s.procs p).sz + n) ∧
          ((s.procs p).sz + n < 0 → sz' = (s.procs p).sz) := by omega
      refine ⟨sz', hres, fun hlt => ?_, fun _ => ⟨rfl, hval⟩⟩
      by_cases hle : 0 ≤ ((s.procs p).sz : ℤ) + n
      · exact hval.1 hle
      · have := hval.2 (not_le.mp hle)
        omega
    · rw [if_neg hneg, wp_bind, wp_modify, wp_pure]
      refine ⟨(s.procs p).sz, ?_, fun hlt => by omega, fun hn => absurd hn hneg⟩
      have hself := setSz_self s p
      rw [Kernel.setSz] at hself
      rw [hself]
      exact resized_self h hp

/-- **`sys_sbrk`**: the size goes down only by a request for it, and the call then returns the old
size. -/
theorem sysSbrk_spec (halloc : Allocates N alloc) (h : Inv N g s) (hp : Running g s p r) {n : ℤ}
    (hn : -2 ^ 31 ≤ n) (eager : Bool) :
    wp (sysSbrk alloc n eager) (fun ret s' => ∃ sz', Resized N g s s' p r sz' ∧
      (n < 0 → ret = (s.procs p).sz) ∧
      (if n < 0 ∧ 0 ≤ (s.procs p).sz + n then (sz' : ℤ) = (s.procs p).sz + n
        else (s.procs p).sz ≤ sz')) (Exhausted N) s := by
  rw [sysSbrk, wp_bind, wp_getMyproc hp.myproc, wp_bind, wp_get]
  by_cases heager : eager = true ∨ n < 0
  · rw [if_pos heager]
    refine wp_call (growproc_spec halloc h hp hn) fun ret s' hg => ?_
    obtain ⟨sz', hres, hshrink, hneg⟩ := hg
    have hcase : if n < 0 ∧ 0 ≤ ((s.procs p).sz : ℤ) + n then (sz' : ℤ) = (s.procs p).sz + n
        else (s.procs p).sz ≤ sz' := by
      split
      · rename_i hc
        exact (hneg hc.1).2.1 hc.2
      · by_contra hlt
        have := hshrink (not_le.mp hlt)
        omega
    by_cases hr : ret < 0
    · rw [if_pos hr, wp_pure]
      refine ⟨sz', hres, fun hn0 => ?_, hcase⟩
      have := (hneg hn0).1
      omega
    · rw [if_neg hr, wp_pure]
      exact ⟨sz', hres, fun _ => rfl, hcase⟩
  · rw [if_neg heager]
    have hn0 : ¬ n < 0 := fun hlt => heager (Or.inr hlt)
    obtain ⟨newsz, hnew⟩ : ∃ newsz, ((((s.procs p).sz : ℤ) + n) % 2 ^ 64).toNat = newsz := ⟨_, rfl⟩
    rw [hnew]
    simp only [if_neg fun hc : n < 0 ∧ 0 ≤ ((s.procs p).sz : ℤ) + n => hn0 hc.1]
    by_cases hlt : newsz < (s.procs p).sz
    · rw [if_pos hlt]
      exact ⟨_, resized_self h hp, fun hc => absurd hc hn0, le_rfl⟩
    rw [if_neg hlt]
    by_cases htop : newsz > trapframe
    · rw [if_pos htop]
      exact ⟨_, resized_self h hp, fun hc => absurd hc hn0, le_rfl⟩
    rw [if_neg htop, wp_bind, wp_modify, wp_pure]
    exact ⟨newsz, ⟨not_lt.mp htop, g, s, h, Background.refl h,
      fun k hk hsz => hp.absent k hk ((not_lt.mp hlt).trans hsz), rfl⟩, fun hc => absurd hc hn0,
      not_lt.mp hlt⟩

end

end Mem

end Xv6
