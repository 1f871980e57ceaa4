import Xv6.Mem.Access

/-!
# The bytes of an address space

`byteAt s r va` is the byte at `va` of the logical memory with root `r`. The copies between
kernel and user memory are specified with it: `copyin` returns the bytes of its range,
`copyout` replaces them, and neither touches any other byte of any address space.

A `copyout` that fails has stored an initial part of its source: the pages before the one that
could not be had.
-/

namespace Xv6

namespace Mem

open WeakestPre

variable {bs src : List (BitVec 8)} {dst n pa va : ℕ} {g : Ghost} {s : Kernel}

variable {N : ℕ → ℕ → Prop} {alloc : M ℕ}

/-! ### Bytes of a page -/

theorem getLsbD_byteMask (i : ℕ) : (0xFF#64).getLsbD i = decide (i < 8) := by
  rw [BitVec.getLsbD_ofNat, show 0xFF = 2 ^ 8 - 1 by rfl, Nat.testBit_two_pow_sub_one]
  by_cases hi : i < 8
  · simp [hi, show i < 64 by omega]
  · simp [hi]

theorem getByte_zero (off : ℕ) : Page.zero.getByte off = 0#8 := by
  simp [Page.getByte, Page.zero]

theorem Page.getByte_setByte_self (pg : Page) (off : ℕ) (b : BitVec 8) :
    (pg.setByte off b).getByte off = b := by
  rw [getByte, setByte, Function.update_self]
  refine BitVec.eq_of_getLsbD_eq fun i hi => ?_
  have h64 : 8 * (off % 8) + i < 64 := by omega
  simp only [BitVec.getLsbD_extractLsb', BitVec.getLsbD_or, BitVec.getLsbD_and, BitVec.getLsbD_not,
    BitVec.getLsbD_shiftLeft, BitVec.getLsbD_setWidth, getLsbD_byteMask, Nat.add_sub_cancel_left]
  simp [h64, hi, show i < 64 by omega]

theorem Page.getByte_setByte_of_ne (pg : Page) {off off' : ℕ} (b : BitVec 8) (h : off < 4096)
    (h' : off' < 4096) (hne : off' ≠ off) : (pg.setByte off b).getByte off' = pg.getByte off' := by
  rw [getByte, setByte, getByte]
  by_cases hw : off' / 8 = off / 8
  · have hidx : (⟨off' / 8 % 512, Nat.mod_lt _ (by omega)⟩ : Fin 512)
        = ⟨off / 8 % 512, Nat.mod_lt _ (by omega)⟩ := by
      rw [Fin.mk.injEq, hw]
    rw [hidx, Function.update_self]
    refine BitVec.eq_of_getLsbD_eq fun i hi => ?_
    have h64 : 8 * (off' % 8) + i < 64 := by omega
    -- the two bytes of the word do not overlap
    have hor : 8 * (off' % 8) + i < 8 * (off % 8) ∨ 8 ≤ 8 * (off' % 8) + i - 8 * (off % 8) := by
      omega
    simp only [BitVec.getLsbD_extractLsb', BitVec.getLsbD_or, BitVec.getLsbD_and,
      BitVec.getLsbD_not, BitVec.getLsbD_shiftLeft, BitVec.getLsbD_setWidth, getLsbD_byteMask]
    rcases hor with hlt | hge
    · simp [h64, hi, hlt]
    · simp [h64, hi, hge, not_lt.mpr hge]
  · rw [Function.update_of_ne]
    intro he
    have := Fin.mk.inj he
    omega

/-- Reading after `memmove` into a page. -/
theorem Page.getByte_setBytes (pg : Page) {off : ℕ} (h : off + bs.length ≤ 4096) {i : ℕ}
    (hi : i < 4096) :
    (pg.setBytes off bs).getByte i
      = if off ≤ i ∧ i < off + bs.length then bs.getD (i - off) 0 else pg.getByte i := by
  induction bs generalizing off pg with
  | nil =>
    rw [setBytes, if_neg]
    rintro ⟨h1, h2⟩
    simp only [List.length_nil] at h2
    omega
  | cons b bs ih =>
    rw [List.length_cons] at h ⊢
    rw [setBytes, ih _ (by omega)]
    rcases Nat.lt_trichotomy i off with hlt | rfl | hgt
    · rw [if_neg (by omega), if_neg (by omega),
        getByte_setByte_of_ne pg b (by omega) hi (by omega)]
    · rw [if_neg (by omega), if_pos (by omega), getByte_setByte_self, Nat.sub_self]
      rfl
    · by_cases hin : i < off + 1 + bs.length
      · rw [if_pos (by omega), if_pos (by omega), show i - off = i - (off + 1) + 1 by omega]
        rfl
      · rw [if_neg (by omega), if_neg (by omega),
          getByte_setByte_of_ne pg b (by omega) hi (by omega)]

/-! ### Bytes of an address space -/

/-- The byte at `va` of the logical memory with root `r`. -/
def byteAt (s : Kernel) (r va : ℕ) : BitVec 8 :=
  (logicalPage s r (vkey va)).getByte (va % pgsize)

/-- All pages of one address space. -/
def OfRoot (r : ℕ) : ℕ → Key → Prop := fun r' _ => r' = r

section

variable {g' : Ghost} {s' : Kernel} {r : ℕ}

theorem Background.byteAt_eq {X Z T : ℕ → Key → Prop} {Y : ℕ → Prop}
    (h : Background X Z T Y g g' s s') (ho : g.owned) (hr : g.own r = .root)
    (hva : va < Xv6.trapframe) (hZ : ¬ Z r (vkey va)) : byteAt s' r va = byteAt s r va := by
  rw [byteAt, byteAt, h.logical ho r _ hr (userKey_vkey hva) hZ]

/-- The effect of `memmove` into the page of `dst`, seen from the address space. -/
theorem byteAt_setBytes (hdst : dst < maxva) (hlen : dst % 4096 + bs.length ≤ 4096)
    (hpage : logicalPage s' r (vkey dst) = (logicalPage s r (vkey dst)).setBytes (dst % 4096) bs)
    (hva : va < trapframe)
    (hother : vkey va ≠ vkey dst → logicalPage s' r (vkey va) = logicalPage s r (vkey va)) :
    byteAt s' r va
      = if dst ≤ va ∧ va < dst + bs.length then bs.getD (va - dst) 0 else byteAt s r va := by
  simp only [maxva_eq] at hdst
  simp only [trapframe_eq] at hva
  rw [byteAt, byteAt, pgsize_eq]
  by_cases hk : vkey va = vkey dst
  · have hdiv := (vkey_inj (by omega) (by omega)).mp hk
    rw [hk, hpage, Page.getByte_setBytes _ hlen (by omega)]
    by_cases hin : dst ≤ va ∧ va < dst + bs.length
    · rw [if_pos (by omega), if_pos hin, show va % 4096 - dst % 4096 = va - dst by omega]
    · rw [if_neg (by omega), if_neg hin]
  · have hdiv : ¬ va / 4096 = dst / 4096 := fun he => hk ((vkey_inj (by omega) (by omega)).mpr he)
    rw [hother hk, if_neg (by omega)]

end

/-! ### Loads and stores -/

section

variable {s' : Kernel} {p r : ℕ}

/-- The page brought in holds the logical page. -/
theorem Brought.mem_eq {X T : ℕ → Key → Prop} {k : Key} (hb : Brought N X T g s s' r k pa)
    (ho : g.owned) (hr : g.own r = .root) (hk : UserKey k) : s'.mem pa = logicalPage s r k := by
  obtain ⟨g', -, hback, -⟩ := hb.inv
  rw [← hback.logical ho r k hr hk not_false, logicalPage_of_valid hb.maps]

/-- A page brought in is written. -/
theorem Brought.write {X T : ℕ → Key → Prop} {k : Key} (hb : Brought N X T g s s' r k pa)
    (pg : Page) :
    ∃ g', Inv N g' (s'.setPage pa pg) ∧
      Background X (EntryAt r k) T NoPage g g' s (s'.setPage pa pg) ∧
      logicalPage (s'.setPage pa pg) r k = pg := by
  obtain ⟨g', h', hback, hown⟩ := hb.inv
  obtain ⟨hinv, hback', hlog⟩ := h'.writeUser hown pg
  exact ⟨g', hinv, (hback.mono (fun _ _ h => h) NoEntry.le (fun _ _ h => h) fun _ _ h => h).seq
    (hback'.mono NoEntry.le (fun _ _ h => h) NoEntry.le fun _ _ h => h), hlog⟩

/-- The state after `bs` has been written into the page `pa`. -/
def Kernel.stored (s : Kernel) (pa off : ℕ) (bs : List (BitVec 8)) : Kernel :=
  s.setPage pa ((s.mem pa).setBytes off bs)

/-- The effect of storing `src` at `dst`. -/
def Stored (s s' : Kernel) (r dst : ℕ) (src : List (BitVec 8)) : Prop :=
  ∀ va < trapframe, byteAt s' r va
    = if dst ≤ va ∧ va < dst + src.length then src.getD (va - dst) 0 else byteAt s r va

/-- A page brought in is written, seen from the address space. -/
theorem Brought.stored {s₁ : Kernel} {X T : ℕ → Key → Prop}
    (hb : Brought N X T g s s₁ r (vkey dst) pa) (hr : g.own r = .root) (hk : UserKey (vkey dst))
    (hdst : dst < maxva) (bs : List (BitVec 8)) (hfit : dst % 4096 + bs.length ≤ 4096) :
    ∃ g', Inv N g' (s₁.stored pa (dst % 4096) bs) ∧
      Background X (OfRoot r) T NoPage g g' s (s₁.stored pa (dst % 4096) bs) ∧
      (g.owned → Stored s (s₁.stored pa (dst % 4096) bs) r dst bs) := by
  unfold Kernel.stored
  obtain ⟨g', h', hback, hlog⟩ := hb.write ((s₁.mem pa).setBytes (dst % 4096) bs)
  refine ⟨g', h', hback.mono (fun _ _ h => h) (fun _ _ h => h.1) (fun _ _ h => h) fun _ _ h => h,
    fun ho va hva => ?_⟩
  exact byteAt_setBytes hdst hfit (hlog.trans (by rw [hb.mem_eq ho hr hk])) hva fun hne =>
    hback.logical ho r _ hr (userKey_vkey hva) fun he => hne he.2

/-- **A user load** returns the byte of logical memory. -/
theorem userLoad_spec (halloc : Allocates N alloc) (h : Inv N g s) (hp : Running g s p r)
    (hkill : (s.procs p).killed = false) (va : ℕ) :
    wp (userLoad alloc va) (fun o s' =>
      match o with
      | some b => (g.owned → b = byteAt s r va) ∧ va < trapframe ∧
          ∃ g', Inv N g' s' ∧ Background (Below r (s.procs p).sz) NoEntry NoEntry NoPage g g' s s'
      | none => Ended N g s s' p r) (Stops N va) s := by
  rw [userLoad]
  refine wp_call (userAccess_spec halloc h hp hkill 1) fun o s' ha => ?_
  cases o with
  | none => exact ha
  | some pa =>
    obtain ⟨hva, hb⟩ := ha
    simp only [wp_bind, wp_get, wp_pure]
    refine ⟨fun ho => ?_, hva, ?_⟩
    · rw [hb.mem_eq ho hp.root (userKey_vkey hva), byteAt]
    · obtain ⟨g', h', hback, -⟩ := hb.inv
      exact ⟨g', h', hback⟩

/-- **A user store** changes the byte it is asked to store. -/
theorem userStore_spec (halloc : Allocates N alloc) (h : Inv N g s) (hp : Running g s p r)
    (hkill : (s.procs p).killed = false) (va : ℕ) (b : BitVec 8) :
    wp (userStore alloc va b) (fun ok s' =>
      match ok with
      | true => va < trapframe ∧
          (∃ g', Inv N g' s' ∧
            Background (Below r (s.procs p).sz) (OfRoot r) NoEntry NoPage g g' s s') ∧
          (g.owned → ∀ va' < trapframe, byteAt s' r va' = if va' = va then b else byteAt s r va')
      | false => Ended N g s s' p r) (Stops N va) s := by
  rw [userStore]
  refine wp_call (userAccess_spec halloc h hp hkill 1) fun o s' ha => ?_
  cases o with
  | none => exact ha
  | some pa =>
    obtain ⟨hva, hb⟩ := ha
    simp only [wp_bind, wp_modify, wp_pure]
    obtain ⟨g', h', hback, hst⟩ := hb.stored hp.root (userKey_vkey hva) (lt_maxva hva) [b]
      (by simp; omega)
    refine ⟨hva, ⟨g', h', hback⟩, fun ho va' hva' => (hst ho va' hva').trans ?_⟩
    by_cases he : va' = va
    · subst he
      simp
    · rw [if_neg (by simp; omega), if_neg he]

end

/-! ### Copies -/

section

variable {p r : ℕ}

/-- Offsets within the page of an address. -/
theorem sub_pgrounddown (va : ℕ) : va - pgrounddown va = va % 4096 := by
  simp only [pgrounddown, pgsize_eq]
  omega

/-- The bytes of one page, seen from the address space. -/
theorem getBytes_eq_byteAt {srcva : ℕ} (hva : srcva < maxva) (hn : srcva % 4096 + n ≤ 4096) :
    (logicalPage s r (vkey srcva)).getBytes (srcva % 4096) n
      = (List.range n).map fun j => byteAt s r (srcva + j) := by
  simp only [maxva_eq] at hva
  refine List.map_congr_left fun j hj => ?_
  have hj := List.mem_range.mp hj
  have hk : vkey (srcva + j) = vkey srcva := (vkey_inj (by omega) (by omega)).mpr (by omega)
  rw [byteAt, hk, pgsize_eq, show (srcva + j) % 4096 = srcva % 4096 + j by omega]

/-- A range that starts in a page of user memory and stays in it is user memory. -/
theorem lt_trapframe_of_page {j : ℕ} (hva : va < maxva) (hk : UserKey (vkey va))
    (hn : va % 4096 + n ≤ 4096) (hj : j < n) : va + j < trapframe := by
  have := lt_trapframe_of_userKey hva hk
  simp only [trapframe_eq] at this ⊢
  omega

/-- The bytes that one iteration moves are in one page. -/
theorem chunk_fits {len : ℕ} (hn : min (pgsize - va % 4096) len = n) (hlen : len ≠ 0) :
    va % 4096 + n ≤ 4096 ∧ n ≤ len ∧ 0 < n := by
  simp only [pgsize_eq] at hn
  omega

/-- Unless it was the last page, the next one starts where the bytes moved end. -/
theorem chunk_next {len : ℕ} (hn : min (pgsize - va % 4096) len = n) (hlt : n < len) :
    pgrounddown va + pgsize = va + n := by
  simp only [pgsize_eq] at hn
  simp only [pgrounddown, pgsize_eq]
  omega

/-- `walkaddr` does not find a swapped page. -/
def Stays (s : Kernel) (r va : ℕ) : Prop := va < maxva → ¬ Swapped (leaf s.mem r (vkey va))

/-- No iteration of `copyin` finds its page swapped out. -/
def CopyinStays (alloc : M ℕ) (r : ℕ) : ℕ → ℕ → ℕ → Kernel → Prop
  | 0, _, _, _ => True
  | n + 1, srcva, len, s => len ≠ 0 → Stays s r (pgrounddown srcva) ∧
      ∀ pa s', copyPage alloc r (pgrounddown srcva) s = .ok pa s' → pa ≠ 0 →
        CopyinStays alloc r n (pgrounddown srcva + pgsize)
          (len - min (pgsize - (srcva - pgrounddown srcva)) len) s'

/-- **The loop of `copyin`.** -/
theorem copyinLoop_spec (halloc : Allocates N alloc) (h : Inv N g s) (hp : Running g s p r)
    {srcva len : ℕ} {dst : List (BitVec 8)} (hn : len ≤ n) :
    wp (copyinLoop alloc r n srcva len dst) (fun o s' =>
      (∃ g', Inv N g' s' ∧ Background (Below r (s.procs p).sz) NoEntry
        (Lost r (CopyinStays alloc r n srcva len s)) NoPage g g' s s') ∧
      ∀ bs, o = some bs → (∀ j < len, srcva + j < trapframe) ∧ (g.owned →
        bs = dst ++ (List.range len).map fun j => byteAt s r (srcva + j))) (Exhausted N) s := by
  induction n generalizing g s srcva len dst with
  | zero =>
    obtain rfl : len = 0 := by omega
    refine ⟨⟨g, h, Background.refl h⟩, fun bs hbs => ?_⟩
    obtain rfl := Option.some.inj hbs
    exact ⟨by simp, fun _ => by simp⟩
  | succ n ih =>
    rw [copyinLoop]
    by_cases hlen : len = 0
    · rw [if_pos hlen]
      subst hlen
      refine ⟨⟨g, h, Background.refl h⟩, fun bs hbs => ?_⟩
      obtain rfl := Option.some.inj hbs
      exact ⟨by simp, fun _ => by simp⟩
    rw [if_neg hlen]
    have hT : pgrounddown srcva < maxva →
        Swapped (leaf s.mem r (vkey (pgrounddown srcva))) ∨ (s.procs p).pagetable ≠ r →
        Lost r (CopyinStays alloc r (n + 1) srcva len s) r (vkey (pgrounddown srcva)) :=
      fun hva hs => ⟨rfl, fun hc => (hc hlen).1 hva (hs.resolve_right (not_not.mpr hp.pagetable))⟩
    refine wp_call (wp_run (copyPage_spec halloc h hp.working id hT)) fun pa s₁ hc => ?_
    obtain ⟨hrun, ⟨g₁, h₁, hback⟩, hpage⟩ := hc
    by_cases hpa : pa = 0
    · rw [if_pos hpa]
      exact ⟨⟨g₁, h₁, hback⟩, by simp⟩
    rw [if_neg hpa, wp_bind, wp_get]
    obtain ⟨hdown, hk, hb⟩ := hpage hpa
    have hva : srcva < maxva := by
      simp only [pgrounddown, pgsize_eq, maxva_eq] at hdown ⊢
      omega
    rw [vkey_pgrounddown hva] at hk hb
    have hsub := Lost.mono (r := r) fun hc : CopyinStays alloc r (n + 1) srcva len s =>
      (hc hlen).2 pa s₁ hrun hpa
    rw [sub_pgrounddown] at hsub ⊢
    generalize hn' : min (pgsize - srcva % 4096) len = n' at hsub ⊢
    have hfit := chunk_fits hn' hlen
    have hsz : (s₁.procs p).sz = (s.procs p).sz := (hback.procs p).sz
    refine wp_imp (ih h₁ (hp.background hback) (by omega)) fun o s' hl => ?_
    obtain ⟨⟨g', h', hback'⟩, hres⟩ := hl
    rw [hsz] at hback'
    refine ⟨⟨g', h', hback.seq (hback'.mono (fun _ _ h => h) (fun _ _ h => h) hsub
      fun _ _ h => h)⟩, fun bs hbs => ?_⟩
    obtain ⟨htop, hbytes⟩ := hres bs hbs
    have hnext : ∀ j < len - n', pgrounddown srcva + pgsize + j = srcva + (n' + j) := fun j hj => by
      rw [chunk_next hn' (by omega), Nat.add_assoc]
    refine ⟨fun j hj => ?_, fun ho => ?_⟩
    · by_cases hjn : j < n'
      · exact lt_trapframe_of_page hva hk hfit.1 hjn
      · have := htop (j - n') (by omega)
        rw [hnext _ (by omega)] at this
        rwa [show n' + (j - n') = j by omega] at this
    · rw [hbytes (hback.owned ▸ ho), hb.mem_eq ho hp.root hk, getBytes_eq_byteAt hva hfit.1,
        List.append_assoc, show len = n' + (len - n') by omega, List.range_add, List.map_append,
        List.map_map, show n' + (len - n') - n' = len - n' by omega]
      congr 2
      refine List.map_congr_left fun j hj => ?_
      have hj := List.mem_range.mp hj
      have hlt := htop j hj
      rw [hback.byteAt_eq ho hp.root hlt not_false, hnext j hj]
      rfl

/-- **`copyin`** returns the bytes of its range. -/
theorem copyin_spec (halloc : Allocates N alloc) (h : Inv N g s) (hp : Running g s p r)
    (srcva len : ℕ) :
    wp (copyin alloc r srcva len) (fun o s' =>
      (∃ g', Inv N g' s' ∧ Background (Below r (s.procs p).sz) NoEntry
        (Lost r (CopyinStays alloc r len srcva len s)) NoPage g g' s s') ∧
      ∀ bs, o = some bs → (∀ j < len, srcva + j < trapframe) ∧ (g.owned →
        bs = (List.range len).map fun j => byteAt s r (srcva + j))) (Exhausted N) s :=
  copyinLoop_spec halloc h hp le_rfl

theorem stored_nil {s' : Kernel} (h : ∀ va < trapframe, byteAt s' r va = byteAt s r va) :
    Stored s s' r dst [] := fun va hva => by
  rw [h va hva, if_neg]
  rintro ⟨h1, h2⟩
  simp only [List.length_nil] at h2
  omega

/-- Two parts of a source, one after the other. -/
theorem Stored.append {s' s'' : Kernel} {dst' : ℕ} {src' : List (BitVec 8)}
    (h : Stored s s' r dst src) (h' : Stored s' s'' r dst' src')
    (hdst : 0 < src'.length → dst' = dst + src.length) : Stored s s'' r dst (src ++ src') := by
  intro va hva
  rw [h' va hva, h va hva, List.length_append]
  by_cases hr : dst' ≤ va ∧ va < dst' + src'.length
  · obtain rfl := hdst (by omega)
    rw [if_pos hr, if_pos (by omega), List.getD_eq_getElem?_getD, List.getD_eq_getElem?_getD,
      List.getElem?_append_right (by omega), Nat.sub_sub]
  · rw [if_neg hr]
    by_cases hl : dst ≤ va ∧ va < dst + src.length
    · rw [if_pos hl, if_pos (by omega), List.getD_eq_getElem?_getD, List.getD_eq_getElem?_getD,
        List.getElem?_append_left (by omega)]
    · rw [if_neg hl, if_neg]
      intro hin
      have := hdst (by omega)
      omega

/-- No iteration of `copyout` finds its page swapped out. -/
def CopyoutStays (alloc : M ℕ) (r : ℕ) : ℕ → ℕ → List (BitVec 8) → Kernel → Prop
  | 0, _, _, _ => True
  | n + 1, dstva, src, s => src.length ≠ 0 → Stays s r (pgrounddown dstva) ∧
      ∀ pa s', copyPage alloc r (pgrounddown dstva) s = .ok pa s' → pa ≠ 0 →
        CopyoutStays alloc r n (pgrounddown dstva + pgsize)
          (src.drop (min (pgsize - (dstva - pgrounddown dstva)) src.length))
          (s'.stored pa (dstva - pgrounddown dstva)
            (src.take (min (pgsize - (dstva - pgrounddown dstva)) src.length)))

/-- What `copyout` has stored: its source, or an initial part of it. -/
def CopiedOut (s s' : Kernel) (r dstva : ℕ) (src : List (BitVec 8)) (ret : ℤ) : Prop :=
  (ret = 0 ∧ Stored s s' r dstva src) ∨
    (ret = -1 ∧ ∃ m ≤ src.length, Stored s s' r dstva (src.take m))

/-- What one iteration stores, and what the others store. -/
theorem Stored.copiedOut {s₁ s' : Kernel} {dst' : ℕ} {ret : ℤ} (h : Stored s s₁ r dst (src.take n))
    (hnext : n < src.length → dst' = dst + n) (h' : CopiedOut s₁ s' r dst' (src.drop n) ret) :
    CopiedOut s s' r dst src ret := by
  have hdst : n < src.length → dst' = dst + (src.take n).length := fun hlt => by
    rw [List.length_take_of_le hlt.le, hnext hlt]
  rcases h' with ⟨rfl, hst⟩ | ⟨rfl, m, hm, hst⟩
  · refine Or.inl ⟨rfl, ?_⟩
    rw [← List.take_append_drop n src]
    exact h.append hst fun hpos => hdst (by rw [List.length_drop] at hpos; omega)
  · by_cases hlt : n < src.length
    · rw [List.length_drop] at hm
      refine Or.inr ⟨rfl, n + m, by omega, ?_⟩
      rw [List.take_add]
      exact h.append hst fun _ => hdst hlt
    · rw [List.drop_of_length_le (not_lt.mp hlt), List.take_nil] at hst
      refine Or.inr ⟨rfl, src.length, le_rfl, ?_⟩
      rw [List.take_length, ← List.append_nil src]
      rw [List.take_of_length_le (not_lt.mp hlt)] at h
      exact h.append hst fun hpos => absurd hpos (lt_irrefl _)

/-- **One iteration of `copyout`** stores nothing and stops, or it stores what fits in the page and
goes on with the rest. -/
theorem copyoutLoop_succ_spec (halloc : Allocates N alloc) (h : Inv N g s) {sz dstva n' : ℕ}
    (hw : Working N g s p r sz) {T : ℕ → Key → Prop} {Q : ℤ → Kernel → Prop} (hlen : src.length ≠ 0)
    (hlim : pgrounddown dstva < (s.procs p).sz → pgrounddown dstva < sz)
    (hT : pgrounddown dstva < maxva →
      Swapped (leaf s.mem r (vkey (pgrounddown dstva))) ∨ (s.procs p).pagetable ≠ r →
      T r (vkey (pgrounddown dstva))) (hn' : min (pgsize - dstva % 4096) src.length = n')
    (hstop : ∀ g₁ s₁, Inv N g₁ s₁ → Background (Below r sz) NoEntry T NoPage g g₁ s s₁ → Q (-1) s₁)
    (hgo : ∀ pa s₁, copyPage alloc r (pgrounddown dstva) s = .ok pa s₁ → pa ≠ 0 → ∀ g₂,
      Inv N g₂ (s₁.stored pa (dstva % 4096) (src.take n')) →
      Background (Below r sz) (OfRoot r) T NoPage g g₂ s
        (s₁.stored pa (dstva % 4096) (src.take n')) →
      (g.owned → Stored s (s₁.stored pa (dstva % 4096) (src.take n')) r dstva (src.take n')) →
      wp (copyoutLoop alloc r n (pgrounddown dstva + pgsize) (src.drop n')) Q (Exhausted N)
        (s₁.stored pa (dstva % 4096) (src.take n'))) :
    wp (copyoutLoop alloc r (n + 1) dstva src) Q (Exhausted N) s := by
  rw [copyoutLoop, if_neg hlen]
  by_cases hdown : pgrounddown dstva ≥ maxva
  · rw [if_pos hdown]
    exact hstop g s h (Background.refl h)
  rw [if_neg hdown]
  have hva : dstva < maxva := by
    simp only [pgrounddown, pgsize_eq, maxva_eq] at hdown ⊢
    omega
  refine wp_call (wp_run (copyPage_spec halloc h hw hlim hT)) fun pa s₁ hc => ?_
  obtain ⟨hrun, ⟨g₁, h₁, hback⟩, hpage⟩ := hc
  by_cases hpa : pa = 0
  · rw [if_pos hpa]
    exact hstop g₁ s₁ h₁ hback
  obtain ⟨-, hk, hb⟩ := hpage hpa
  rw [vkey_pgrounddown hva] at hk hb
  rw [if_neg hpa, wp_bind, wp_walk_none (not_le.mp hdown), vkey_pgrounddown hva]
  cases hlow : lowPage s₁.mem r (vkey dstva).1 (vkey dstva).2.1 with
  | none =>
    have hv := hb.maps.valid
    rw [leaf_of_lowPage_none hlow] at hv
    exact absurd hv not_valid_zero
  | some b =>
    simp only [Option.map_some, wp_bind, wp_get]
    split
    · rw [wp_bind, wp_modify, sub_pgrounddown, hn']
      have hfit := chunk_fits hn' hlen
      obtain ⟨g₂, h₂, hback₂, hchunk⟩ := hb.stored hw.root hk hva (src.take n')
        (by rw [List.length_take_of_le hfit.2.1]; exact hfit.1)
      exact hgo pa s₁ hrun hpa g₂ h₂ hback₂ hchunk
    · exact hstop g₁ s₁ h₁ hback

/-- **The loop of `copyout`** stores its source, or an initial part of it. -/
theorem copyoutLoop_spec (halloc : Allocates N alloc) (h : Inv N g s) {sz : ℕ}
    (hw : Working N g s p r sz) {dstva : ℕ} (hn : src.length ≤ n)
    (hlim : (s.procs p).sz ≤ sz ∨ ∀ j < src.length, dstva + j < sz) :
    wp (copyoutLoop alloc r n dstva src) (fun ret s' =>
      (∃ g', Inv N g' s' ∧ Background (Below r sz) (OfRoot r)
        (Lost r ((s.procs p).pagetable = r ∧ CopyoutStays alloc r n dstva src s)) NoPage
        g g' s s') ∧
      (g.owned → CopiedOut s s' r dstva src ret)) (Exhausted N) s := by
  induction n generalizing g s dstva src with
  | zero =>
    obtain rfl : src = [] := List.eq_nil_of_length_eq_zero (by omega)
    exact ⟨⟨g, h, Background.refl h⟩, fun _ => Or.inl ⟨rfl, stored_nil fun _ _ => rfl⟩⟩
  | succ n ih =>
    by_cases hlen : src.length = 0
    · rw [copyoutLoop, if_pos hlen]
      obtain rfl := List.eq_nil_of_length_eq_zero hlen
      exact ⟨⟨g, h, Background.refl h⟩, fun _ => Or.inl ⟨rfl, stored_nil fun _ _ => rfl⟩⟩
    have hlim₀ : pgrounddown dstva < (s.procs p).sz → pgrounddown dstva < sz := fun hlt => by
      rcases hlim with hle | hlt'
      · exact hlt.trans_le hle
      · exact (Nat.div_mul_le_self _ _).trans_lt (hlt' 0 (by omega))
    obtain ⟨n', hn'⟩ : ∃ n', min (pgsize - dstva % 4096) src.length = n' := ⟨_, rfl⟩
    have hfit := chunk_fits hn' hlen
    have hnext : n' < src.length → pgrounddown dstva + pgsize = dstva + n' := chunk_next hn'
    have hT : pgrounddown dstva < maxva →
        Swapped (leaf s.mem r (vkey (pgrounddown dstva))) ∨ (s.procs p).pagetable ≠ r →
        Lost r ((s.procs p).pagetable = r ∧ CopyoutStays alloc r (n + 1) dstva src s) r
          (vkey (pgrounddown dstva)) := fun hva hs =>
      ⟨rfl, fun hc => hs.elim ((hc.2 hlen).1 hva) fun hne => hne hc.1⟩
    refine copyoutLoop_succ_spec halloc h hw hlen hlim₀ hT hn' (fun g₁ s₁ h₁ hb => ?_)
      fun pa s₁ hrun hpa g₂ h₂ hback₂ hchunk => ?_
    · exact ⟨⟨_, h₁, hb.mono (fun _ _ h => h) NoEntry.le (fun _ _ h => h) fun _ _ h => h⟩, fun ho =>
        Or.inr ⟨rfl, 0, Nat.zero_le _,
          stored_nil fun va hva => hb.byteAt_eq ho hw.root hva not_false⟩⟩
    · have hlim' : ((s₁.stored pa (dstva % 4096) (src.take n')).procs p).sz ≤ sz ∨
          ∀ j < (src.drop n').length, pgrounddown dstva + pgsize + j < sz := by
        refine hlim.imp (hback₂.procs p).sz.trans_le fun hlt j hj => ?_
        rw [List.length_drop] at hj
        rw [hnext (by omega), Nat.add_assoc]
        exact hlt (n' + j) (by omega)
      -- what the later iterations need of `CopyoutStays`
      have hsub := Lost.mono (r := r)
        fun hc : (s.procs p).pagetable = r ∧ CopyoutStays alloc r (n + 1) dstva src s =>
          And.intro ((hback₂.pagetable p).trans hc.1) ((hc.2 hlen).2 pa s₁ hrun hpa)
      rw [sub_pgrounddown, hn'] at hsub
      refine wp_imp (ih h₂ (hw.background hback₂) (by rw [List.length_drop]; omega) hlim')
        fun ret s' hl => ?_
      obtain ⟨⟨g', h', hback'⟩, hres⟩ := hl
      exact ⟨⟨g', h', hback₂.seq (hback'.mono (fun _ _ h => h) (fun _ _ h => h) hsub
        fun _ _ h => h)⟩, fun ho => (hchunk ho).copiedOut hnext (hres (hback₂.owned ▸ ho))⟩

/-- **`copyout`** -/
theorem copyout_spec (halloc : Allocates N alloc) (h : Inv N g s) (hp : Running g s p r) (dstva : ℕ)
    (src : List (BitVec 8)) :
    wp (copyout alloc r dstva src) (fun ret s' =>
      (∃ g', Inv N g' s' ∧ Background (Below r (s.procs p).sz) (OfRoot r)
        (Lost r (CopyoutStays alloc r src.length dstva src s)) NoPage g g' s s') ∧
      (g.owned → CopiedOut s s' r dstva src ret)) (Exhausted N) s := by
  refine wp_imp (copyoutLoop_spec halloc h hp.working le_rfl (Or.inl le_rfl)) fun ret s' hl => ?_
  obtain ⟨⟨g', h', hback⟩, hres⟩ := hl
  exact ⟨⟨g', h', hback.mono (fun _ _ h => h) (fun _ _ h => h)
    (Lost.mono fun hc => ⟨hp.pagetable, hc⟩) fun _ _ h => h⟩, hres⟩

end

end Mem

end Xv6
