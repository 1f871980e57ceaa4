import Xv6.Mem.Transparency

/-!
# Strings from user memory

`copyinstr` (`kernel/vm.c`) copies a string from user memory: up to and including the first NUL,
and at most `max` bytes. It walks over the pages as `copyin` does, and differs from it in one place:
where `walkaddr` finds no page, `copyin` calls `vmfault`, which maps a page of zeros if the address
is below the size of the process, and `copyinstr` fails.

## Main results

* `copyinLoop_of_copyinstrLoop` — what `copyinstr` copies, `copyin` copies too
* `copyinstr_agrees_iff` — what `copyin` copies, `copyinstr` copies if every page of the string has
  been touched, and else it fails
-/

namespace Xv6

namespace Mem

open WeakestPre

variable {bs dst str : List (BitVec 8)} {srcva : ℕ} {s₁ : Kernel}

/-! ### The copy of a string -/

/-- The inner loop of `copyinstr`: the bytes it stores, and whether the last one is the NUL. -/
def copyinstrBytes : List (BitVec 8) → List (BitVec 8) × Bool
  | [] => ([], false)
  | b :: bs =>
    if b = 0#8 then ([0#8], true)
    else (b :: (copyinstrBytes bs).1, (copyinstrBytes bs).2)

/-- The loop of `copyinstr`, with at most `n` iterations left. -/
def copyinstrLoop (kalloc : M ℕ) (pagetable : ℕ) :
    ℕ → ℕ → ℕ → List (BitVec 8) → M (Option (List (BitVec 8)))
  | 0, _, _, _ => pure none
  | n + 1, srcva, max, dst =>
    if max = 0 then pure none
    else do
      let va0 := pgrounddown srcva
      let pa0 ← walkaddr kalloc pagetable va0
      if pa0 = 0 then pure none
      else
        let n' := min (pgsize - (srcva - va0)) max
        let s ← get
        let r := copyinstrBytes ((s.mem pa0).getBytes (srcva - va0) n')
        if r.2 then pure (some (dst ++ r.1))
        else copyinstrLoop kalloc pagetable n (va0 + pgsize) (max - r.1.length) (dst ++ r.1)

/-- `copyinstr`: the bytes stored, or `none` for `-1`. Every iteration but the last one stores at
least one byte. -/
def copyinstr (kalloc : M ℕ) (pagetable srcva max : ℕ) : M (Option (List (BitVec 8))) :=
  copyinstrLoop kalloc pagetable max srcva max []

/-! ### One page -/

theorem copyinstrBytes_of_not_mem (h : 0#8 ∉ bs) : copyinstrBytes bs = (bs, false) := by
  induction bs with
  | nil => rfl
  | cons b bs ih =>
    rw [List.mem_cons, not_or] at h
    rw [copyinstrBytes, if_neg (Ne.symm h.1), ih h.2]

/-- The loop stores the NUL and stops. -/
theorem copyinstrBytes_append (h : 0#8 ∉ str) (rest : List (BitVec 8)) :
    copyinstrBytes (str ++ 0#8 :: rest) = (str ++ [0#8], true) := by
  induction str with
  | nil => rfl
  | cons b str ih =>
    rw [List.mem_cons, not_or] at h
    rw [List.cons_append, copyinstrBytes, if_neg (Ne.symm h.1), ih h.2]
    rfl

theorem length_getBytes (pg : Page) (off n : ℕ) : (pg.getBytes off n).length = n := by
  simp [Page.getBytes]

/-- Fewer bytes are an initial part of more bytes. -/
theorem getBytes_take (pg : Page) (off : ℕ) {m n : ℕ} (h : m ≤ n) :
    (pg.getBytes off n).take m = pg.getBytes off m := by
  rw [Page.getBytes, ← List.map_take, List.take_range, min_eq_left h]
  rfl

section

variable {N : ℕ → ℕ → Prop} {alloc : M ℕ} {r : ℕ} {s s' : Kernel}

theorem copyinLoop_zero (n srcva : ℕ) (dst : List (BitVec 8)) :
    copyinLoop alloc r n srcva 0 dst s = .ok (some dst) s := by
  cases n <;> rfl

/-- One iteration of `copyin`, and the rest. -/
theorem copyinLoop_eq_ok {n len : ℕ} {out : List (BitVec 8)} (hlen : len ≠ 0) :
    copyinLoop alloc r (n + 1) srcva len dst s = .ok (some out) s' ↔
      ∃ pa s₁, copyPage alloc r (pgrounddown srcva) s = .ok pa s₁ ∧ pa ≠ 0 ∧
        copyinLoop alloc r n (pgrounddown srcva + pgsize) (len - min (pgsize - srcva % 4096) len)
          (dst ++ (s₁.mem pa).getBytes (srcva % 4096) (min (pgsize - srcva % 4096) len)) s₁
            = .ok (some out) s' := by
  rw [copyinLoop, if_neg hlen, bind_eq_ok, sub_pgrounddown]
  refine exists₂_congr fun pa s₁ => and_congr_right fun _ => ?_
  by_cases hpa : pa = 0
  · rw [if_pos hpa]
    simp [hpa, pure, EStateM.pure]
  · rw [if_neg hpa]
    exact ⟨fun h => ⟨hpa, h⟩, fun h => h.2⟩

/-- One iteration of `copyinstr`. -/
theorem copyinstrLoop_succ {n max pa : ℕ} (hmax : max ≠ 0)
    (hw : walkaddr alloc r (pgrounddown srcva) s = .ok pa s₁) (hpa : pa ≠ 0) {gotNull : Bool}
    (hbs : copyinstrBytes ((s₁.mem pa).getBytes (srcva % 4096) (min (pgsize - srcva % 4096) max))
      = (bs, gotNull)) :
    copyinstrLoop alloc r (n + 1) srcva max dst s =
      if gotNull then .ok (some (dst ++ bs)) s₁
      else copyinstrLoop alloc r n (pgrounddown srcva + pgsize) (max - bs.length) (dst ++ bs)
        s₁ := by
  rw [copyinstrLoop, if_neg hmax, bind_of_ok hw, if_neg hpa, sub_pgrounddown,
    bind_of_ok (show (get : M Kernel) s₁ = .ok s₁ s₁ from rfl), hbs]
  cases gotNull <;> rfl

/-- `copyinstr` fails where `walkaddr` finds no page. -/
theorem copyinstrLoop_none {n max : ℕ} (hw : walkaddr alloc r (pgrounddown srcva) s = .ok 0 s₁)
    (hmax : max ≠ 0) : copyinstrLoop alloc r (n + 1) srcva max dst s = .ok none s₁ := by
  rw [copyinstrLoop, if_neg hmax, bind_of_ok hw]
  rfl

theorem copyinstrLoop_zero (n srcva : ℕ) (dst : List (BitVec 8)) :
    copyinstrLoop alloc r n srcva 0 dst s = .ok none s := by
  cases n <;> rfl

theorem copyPage_of_walkaddr {va pa : ℕ} (hw : walkaddr alloc r va s = .ok pa s') (hpa : pa ≠ 0) :
    copyPage alloc r va s = .ok pa s' := by
  rw [copyPage, bind_of_ok hw, if_neg hpa]
  rfl

/-! ### From strings to bytes -/

/-- **What `copyinstr` copies, `copyin` copies.** -/
theorem copyinLoop_of_copyinstrLoop {m max : ℕ} {out : List (BitVec 8)}
    (h : copyinstrLoop alloc r m srcva max dst s = .ok (some out) s') :
    ∃ bs, out = dst ++ bs ∧ bs ≠ [] ∧
      ∀ n ≥ bs.length, copyinLoop alloc r n srcva bs.length dst s = .ok (some out) s' := by
  induction m generalizing srcva max dst s with
  | zero => cases h
  | succ m ih =>
    by_cases hmax : max = 0
    · rw [hmax, copyinstrLoop_zero] at h
      cases h
    obtain ⟨pa, s₁, hw, -⟩ := bind_eq_ok.mp (by rwa [copyinstrLoop, if_neg hmax] at h)
    by_cases hpa : pa = 0
    · rw [hpa] at hw
      rw [copyinstrLoop_none hw hmax] at h
      cases h
    have hpage := copyPage_of_walkaddr hw hpa
    generalize hbytes :
      (s₁.mem pa).getBytes (srcva % 4096) (min (pgsize - srcva % 4096) max) = bytes at *
    have hlen : bytes.length = min (pgsize - srcva % 4096) max := by
      rw [← hbytes, length_getBytes]
    have hpos : 0 < pgsize - srcva % 4096 := by
      rw [pgsize_eq]
      omega
    by_cases h0 : 0#8 ∈ bytes
    · -- the string ends in this page
      obtain ⟨str, rest, rfl, hstr⟩ := List.eq_append_cons_of_mem h0
      rw [copyinstrLoop_succ hmax hw hpa (by
        rw [hbytes, copyinstrBytes_append hstr rest]),
        if_pos rfl] at h
      cases h
      refine ⟨str ++ [0#8], rfl, by simp, fun n hn => ?_⟩
      simp only [List.length_append, List.length_cons, List.length_nil] at hlen hn ⊢
      obtain ⟨n, rfl⟩ : ∃ k, n = k + 1 := ⟨n - 1, by omega⟩
      refine (copyinLoop_eq_ok (by omega)).mpr ⟨pa, s', hpage, hpa, ?_⟩
      rw [min_eq_right (by omega), Nat.sub_self,
        ← getBytes_take _ _ (show str.length + 1 ≤ min (pgsize - srcva % 4096) max by omega),
        hbytes, copyinLoop_zero, List.take_length_add_append]
      rfl
    · rw [copyinstrLoop_succ hmax hw hpa (by
        rw [hbytes, copyinstrBytes_of_not_mem h0]),
        if_neg (by simp)] at h
      obtain ⟨bs, rfl, hne, hrest⟩ := ih h
      -- there is a next page only if this one is copied to its end
      have hfull : bytes.length = pgsize - srcva % 4096 := by
        by_contra hlt
        rw [show max - bytes.length = 0 by omega, copyinstrLoop_zero] at h
        cases h
      have hbs := List.length_pos_iff.mpr hne
      refine ⟨bytes ++ bs, (List.append_assoc _ _ _), by simp [hne], fun n hn => ?_⟩
      rw [List.length_append] at hn ⊢
      obtain ⟨n, rfl⟩ : ∃ k, n = k + 1 := ⟨n - 1, by omega⟩
      refine (copyinLoop_eq_ok (by omega)).mpr ⟨pa, s₁, hpage, hpa, ?_⟩
      rw [min_eq_left (by omega), show bytes.length + bs.length - (pgsize - srcva % 4096)
        = bs.length by omega, show pgsize - srcva % 4096 = min (pgsize - srcva % 4096) max by omega,
        hbytes]
      exact hrest n (by omega)

end

/-! ### From bytes to strings -/

section

variable {N : ℕ → ℕ → Prop} {alloc : M ℕ} {g : Ghost} {s s' : Kernel} {p r : ℕ}

/-- Eviction neither clears an entry nor fills one that is clear. -/
theorem Evolves.eq_zero_iff {pte pte' : Pte} (h : Evolves pte pte') : pte' = 0#64 ↔ pte = 0#64 := by
  rcases h with rfl | ⟨hv, hs, -⟩
  · rfl
  · constructor
    · rintro rfl
      exact absurd hs not_swapped_zero
    · rintro rfl
      exact absurd hv not_valid_zero

/-- `vmfault` is of no use for a page that is present: `copyin` has it from `walkaddr`. -/
theorem eq_of_copyPage {g₀ : Ghost} {s₀ : Kernel} {va pa₀ pa : ℕ} (halloc : Allocates N alloc)
    (h₀ : Inv N g₀ s₀) (hp₀ : Running g₀ s₀ p r) (hv : Valid (leaf s₀.mem r (vkey va)))
    (hw : walkaddr alloc r va s = .ok pa₀ s₀) (hc : copyPage alloc r va s = .ok pa s')
    (hpa : pa ≠ 0) : pa₀ = pa ∧ s₀ = s' := by
  rw [copyPage, bind_of_ok hw] at hc
  by_cases hpa₀ : pa₀ = 0
  · rw [if_pos hpa₀] at hc
    have hf := wp_ok (vmfault_spec (X := fun _ _ => True) (T := fun _ _ => True) halloc h₀
      hp₀.myproc (Or.inl hp₀.pagetable) hp₀.root hp₀.sz (fun _ hs => hs.not_valid hv)
      (fun _ => trivial) fun _ _ => trivial) hc
    rcases hf with ⟨h0, -⟩ | ⟨-, -, hnv, -⟩
    · exact absurd h0 hpa
    · exact absurd hv hnv
  · rw [if_neg hpa₀] at hc
    cases hc
    exact ⟨rfl, rfl⟩

/-- **One page.** Where `copyin` can have a page, `walkaddr` finds no page if the entry is clear,
and the same page if not. -/
theorem walkaddr_of_copyPage {va pa : ℕ} (halloc : Allocates N alloc) (h : Inv N g s)
    (hp : Running g s p r) (hc : copyPage alloc r va s = .ok pa s') (hpa : pa ≠ 0) :
    va < maxva ∧
    ((leaf s.mem r (vkey va) = 0#64 ∧ walkaddr alloc r va s = .ok 0 s) ∨
      (leaf s.mem r (vkey va) ≠ 0#64 ∧ walkaddr alloc r va s = .ok pa s' ∧
        ∃ g', Inv N g' s' ∧ Running g' s' p r ∧
          ∀ k, leaf s'.mem r k = 0#64 ↔ leaf s.mem r k = 0#64)) := by
  obtain ⟨-, hpage⟩ := wp_ok (copyPage_spec (T := fun _ _ => True) halloc h hp.working id
    fun _ _ => trivial) hc
  obtain ⟨hva, hk, -⟩ := hpage hpa
  obtain ⟨pa₀, s₀, hw, -⟩ := bind_eq_ok.mp hc
  refine ⟨hva, ?_⟩
  rcases h.entries.wf r _ hp.root hk with h0 | ⟨hv, -⟩ | hs
  · obtain ⟨rfl, rfl⟩ := wp_ok ((wp_walkaddr_absent (Q := fun a t => 0 = a ∧ s = t)
      (E := fun _ _ => True) hva (by rw [h0]; exact not_valid_zero) (by rw [h0]; simp)).mpr
        ⟨rfl, rfl⟩) hw
    exact Or.inl ⟨h0, hw⟩
  · obtain rfl := wp_ok ((wp_walkaddr_valid (Q := fun _ t => s = t) (E := fun _ _ => True)
      hva hv).mpr rfl) hw
    obtain ⟨rfl, rfl⟩ := eq_of_copyPage halloc h hp hv hw hc hpa
    exact Or.inr ⟨fun h0 => not_valid_zero (h0 ▸ hv), hw, g, h, hp, fun _ => Iff.rfl⟩
  · obtain ⟨⟨⟨g₀, h₀, hback⟩, -, -⟩, hv⟩ := wp_ok (walkaddr_swapped_spec
      (X := EntryAt r (vkey va)) (T := fun _ _ => True) halloc h hp.root hva hk hs ⟨rfl, rfl⟩
      trivial) hw
    have hp₀ := hp.background (hback.mono (entryAt_of (hp.below_of_swapped hk hs))
      (fun _ _ h => h) (fun _ _ h => h) fun _ _ h => h)
    obtain ⟨rfl, rfl⟩ := eq_of_copyPage halloc h₀ hp₀ hv hw hc hpa
    have hne : leaf s.mem r (vkey va) ≠ 0#64 := fun h0 => not_swapped_zero (h0 ▸ hs)
    refine Or.inr ⟨hne, hw, g₀, h₀, hp₀, fun k => ?_⟩
    by_cases hkey : k = vkey va
    · rw [hkey]
      exact iff_of_false (fun h0 => not_valid_zero (h0 ▸ hv)) hne
    · exact (hback.entry r k hp.root fun he => hkey he.2).eq_zero_iff

/-- What is copied stands behind what was copied before. -/
theorem copyinLoop_append {n len : ℕ} {out : List (BitVec 8)}
    (h : copyinLoop alloc r n srcva len dst s = .ok (some out) s') : ∃ bs, out = dst ++ bs := by
  induction n generalizing s srcva len dst with
  | zero =>
    cases h
    exact ⟨[], (List.append_nil _).symm⟩
  | succ n ih =>
    by_cases hlen : len = 0
    · rw [hlen, copyinLoop_zero] at h
      cases h
      exact ⟨[], (List.append_nil _).symm⟩
    · obtain ⟨pa, s₁, -, -, hrest⟩ := (copyinLoop_eq_ok hlen).mp h
      obtain ⟨bs, rfl⟩ := ih hrest
      exact ⟨_, List.append_assoc _ _ _⟩

/-- **What `copyin` copies, `copyinstr` copies** if no entry of the string is clear; else it fails.
The induction is on the iterations of `copyin`. -/
theorem copyinstrLoop_of_copyinLoop {n m max : ℕ} (halloc : Allocates N alloc) (h : Inv N g s)
    (hp : Running g s p r) (hstr : 0#8 ∉ str) (hmax : str.length < max) (hm : max ≤ m)
    (hc : copyinLoop alloc r n srcva (str.length + 1) dst s
      = .ok (some (dst ++ (str ++ [0#8]))) s') :
    ((∀ j ≤ str.length, leaf s.mem r (vkey (srcva + j)) ≠ 0#64) ∧
      copyinstrLoop alloc r m srcva max dst s = .ok (some (dst ++ (str ++ [0#8]))) s') ∨
    ((∃ j ≤ str.length, leaf s.mem r (vkey (srcva + j)) = 0#64) ∧
      ∃ s'', copyinstrLoop alloc r m srcva max dst s = .ok none s'') := by
  induction n generalizing g s srcva max dst str m with
  | zero =>
    rw [copyinLoop] at hc
    simp [pure, EStateM.pure] at hc
  | succ n ih =>
    obtain ⟨m, rfl⟩ : ∃ k, m = k + 1 := ⟨m - 1, by omega⟩
    obtain ⟨pa, s₁, hpage, hpa, hrest⟩ := (copyinLoop_eq_ok (by omega)).mp hc
    obtain ⟨hdown, hcases⟩ := walkaddr_of_copyPage halloc h hp hpage hpa
    have hva : srcva < maxva := by
      simp only [pgrounddown, pgsize_eq, maxva_eq] at hdown ⊢
      omega
    rw [vkey_pgrounddown hva] at hcases
    rcases hcases with ⟨h0, hw⟩ | ⟨hne, hw, g₁, h₁, hp₁, hzero⟩
    · exact Or.inr ⟨⟨0, Nat.zero_le _, h0⟩, s, copyinstrLoop_none hw (by omega)⟩
    have hpos : 0 < pgsize - srcva % 4096 := by
      rw [pgsize_eq]
      omega
    -- the bytes of one page have one entry
    have hsame : ∀ j < pgsize - srcva % 4096, leaf s.mem r (vkey (srcva + j)) ≠ 0#64 := by
      intro j hj
      simp only [pgsize_eq] at hj
      simp only [maxva_eq] at hva
      rwa [(vkey_inj (by omega) (by omega)).mpr (by omega : (srcva + j) / 4096 = srcva / 4096)]
    by_cases hend : str.length + 1 ≤ pgsize - srcva % 4096
    · rw [min_eq_right hend, Nat.sub_self, copyinLoop_zero] at hrest
      simp only [EStateM.Result.ok.injEq, Option.some.injEq, List.append_cancel_left_eq] at hrest
      obtain ⟨hbytes, rfl⟩ := hrest
      rw [← getBytes_take _ _ (show str.length + 1 ≤ min (pgsize - srcva % 4096) max by omega)]
        at hbytes
      have hscan : copyinstrBytes ((s₁.mem pa).getBytes (srcva % 4096)
          (min (pgsize - srcva % 4096) max)) = (str ++ [0#8], true) := by
        rw [← List.take_append_drop (str.length + 1) (Page.getBytes _ _ _), hbytes,
          List.append_assoc]
        exact copyinstrBytes_append hstr _
      refine Or.inl ⟨fun j hj => hsame j (by omega), ?_⟩
      rw [copyinstrLoop_succ (by omega) hw hpa hscan, if_pos rfl]
    · rw [min_eq_left (by omega)] at hrest
      obtain ⟨bs, hbs⟩ := copyinLoop_append hrest
      generalize hbytes : (s₁.mem pa).getBytes (srcva % 4096) (pgsize - srcva % 4096) = bytes at *
      have hlen : bytes.length = pgsize - srcva % 4096 := by
        rw [← hbytes, length_getBytes]
      -- this page holds an initial part of the string, without the NUL
      obtain ⟨str', rfl⟩ : ∃ str', str = bytes ++ str' := by
        rw [List.append_assoc, List.append_cancel_left_eq] at hbs
        refine ⟨str.drop bytes.length, ?_⟩
        have htake := congrArg (List.take bytes.length) hbs
        rw [List.take_left, List.take_append_of_le_length (by omega)] at htake
        rw [← htake, List.length_take, min_eq_left (by omega), List.take_append_drop]
      rw [List.mem_append, not_or] at hstr
      simp only [List.length_append] at hmax hend hrest ⊢
      have hrest' : copyinLoop alloc r n (pgrounddown srcva + pgsize) (str'.length + 1)
          (dst ++ bytes) s₁ = .ok (some (dst ++ bytes ++ (str' ++ [0#8]))) s' := by
        rw [← hlen, show bytes.length + str'.length + 1 - bytes.length = str'.length + 1 by omega]
          at hrest
        simpa only [List.append_assoc] using hrest
      have hstep : copyinstrLoop alloc r (m + 1) srcva max dst s = copyinstrLoop alloc r m
          (pgrounddown srcva + pgsize) (max - bytes.length) (dst ++ bytes) s₁ := by
        have hscan : copyinstrBytes ((s₁.mem pa).getBytes (srcva % 4096)
            (min (pgsize - srcva % 4096) max)) = (bytes, false) := by
          rw [min_eq_left (by omega), hbytes]
          exact copyinstrBytes_of_not_mem hstr.1
        rw [copyinstrLoop_succ (by omega) hw hpa hscan, if_neg (by simp)]
      have hnext : ∀ j, pgrounddown srcva + pgsize + j = srcva + (bytes.length + j) := by
        intro j
        simp only [pgrounddown, pgsize_eq] at hlen ⊢
        omega
      rw [hstep]
      rcases ih h₁ hp₁ hstr.2 (show str'.length < max - bytes.length by omega)
        (show max - bytes.length ≤ m by omega) hrest' with ⟨hall, hok⟩ | ⟨⟨j, hj, h0⟩, hfail⟩
      · refine Or.inl ⟨fun j hj => ?_, by simpa only [List.append_assoc] using hok⟩
        by_cases hjb : j < bytes.length
        · exact hsame j (by omega)
        · have := hall (j - bytes.length) (by omega)
          rw [Ne, hzero, hnext, show bytes.length + (j - bytes.length) = j by omega] at this
          exact this
      · rw [hzero, hnext] at h0
        exact Or.inr ⟨⟨bytes.length + j, by omega, h0⟩, hfail⟩

end

/-- **String and byte copies.** Let `copyin` copy a string with its NUL, for the running process of
a sound state. Then `copyinstr` copies the same bytes and leaves the same state exactly if no entry
of the string is clear, that is if every page has been touched, be it resident or swapped out; else
it fails. What `copyinstr` copies, `copyin` copies in every case. -/
theorem copyinstr_agrees_iff {s : Kernel} (hs : Sound s) {p : ℕ} (hmy : s.myproc = some p)
    (hused : (s.procs p).used = true) (srcva max : ℕ) :
    (∀ str s', 0#8 ∉ str → str.length < max →
      copyin kalloc (s.procs p).pagetable srcva (str.length + 1) s
        = .ok (some (str ++ [0#8])) s' →
      (copyinstr kalloc (s.procs p).pagetable srcva max s = .ok (some (str ++ [0#8])) s' ↔
        ∀ j ≤ str.length, leaf s.mem (s.procs p).pagetable (vkey (srcva + j)) ≠ 0#64) ∧
      ((∃ s'', copyinstr kalloc (s.procs p).pagetable srcva max s = .ok none s'') ↔
        ∃ j ≤ str.length, leaf s.mem (s.procs p).pagetable (vkey (srcva + j)) = 0#64)) ∧
    (∀ bs s', copyinstr kalloc (s.procs p).pagetable srcva max s = .ok (some bs) s' →
      copyin kalloc (s.procs p).pagetable srcva bs.length s = .ok (some bs) s') := by
  obtain ⟨g, h, hset⟩ := hs
  refine ⟨fun str s' hstr hmax hc => ?_, fun out s' hc => ?_⟩
  · have hp := hset.running h hused hmy
    rcases copyinstrLoop_of_copyinLoop kalloc_spec h hp hstr hmax le_rfl hc with
      ⟨hall, hok⟩ | ⟨⟨j, hj, h0⟩, s'', hfail⟩
    · refine ⟨iff_of_true hok hall, iff_of_false ?_ ?_⟩
      · rintro ⟨s'', hs''⟩
        rw [copyinstr, hok] at hs''
        cases hs''
      · rintro ⟨j, hj, h0⟩
        exact hall j hj h0
    · refine ⟨iff_of_false (fun hok => ?_) fun hall => hall j hj h0,
        iff_of_true ⟨s'', hfail⟩ ⟨j, hj, h0⟩⟩
      rw [copyinstr, hfail] at hok
      cases hok
  · obtain ⟨bs, rfl, -, hbs⟩ := copyinLoop_of_copyinstrLoop hc
    exact hbs _ le_rfl

/-- A string over the end of a page, both pages of which have been touched. -/
def stringActs : List Act :=
  [.spawn, .sbrk 0 8192#32 false, .store 0 4095 0x61#8, .store 0 4096 0x62#8]

theorem copyinstr_agrees_stringActs :
    ∃ s s', Sound s ∧ s.myproc = some 0 ∧ (s.procs 0).used = true ∧
      copyin kalloc (s.procs 0).pagetable 4095 3 s = .ok (some [0x61#8, 0x62#8, 0#8]) s' ∧
      copyinstr kalloc (s.procs 0).pagetable 4095 10 s
        = .ok (some [0x61#8, 0x62#8, 0#8]) s' := by
  obtain ⟨os, s, hserve, hmy, hused, hleaf, o, s', hc, rfl⟩ :
      ∃ os s, serve kalloc stringActs (smallBoot 30) = .ok os s ∧ s.myproc = some 0 ∧
        (s.procs 0).used = true ∧
        (∀ j < 3, leaf s.mem (s.procs 0).pagetable (vkey (4095 + j)) ≠ 0#64) ∧
        ∃ o s', copyin kalloc (s.procs 0).pagetable 4095 3 s = .ok o s' ∧
          o = some [0x61#8, 0x62#8, 0#8] := by
    decide +kernel
  have hsound := (wp_ok (serve_spec (coherent_smallBoot (by decide)) stringActs)
    hserve).coherent.sound
  have h := (copyinstr_agrees_iff hsound hmy hused 4095 10).1 [0x61#8, 0x62#8] s' (by decide)
    (by decide) hc
  exact ⟨s, s', hsound, hmy, hused, hc, h.1.mpr fun j hj => hleaf j (Nat.lt_succ_of_le hj)⟩

/-- A page that the process has not touched holds the empty string, which `copyin` copies and
`copyinstr` does not. -/
theorem copyinstr_counterexample :
    ∃ s s' s'', Sound s ∧ s.myproc = some 0 ∧ (s.procs 0).used = true ∧ (s.procs 0).sz = 8192 ∧
      copyin kalloc (s.procs 0).pagetable 0 1 s = .ok (some [0#8]) s' ∧
      copyinstr kalloc (s.procs 0).pagetable 0 1 s = .ok none s'' := by
  obtain ⟨os, s, hserve, hmy, hused, hsz, ⟨o, s', hc, rfl⟩, o', s'', hc', rfl⟩ :
      ∃ os s, serve kalloc [.spawn, .sbrk 0 8192#32 false] (smallBoot 30) = .ok os s ∧
        s.myproc = some 0 ∧ (s.procs 0).used = true ∧ (s.procs 0).sz = 8192 ∧
        (∃ o s', copyin kalloc (s.procs 0).pagetable 0 1 s = .ok o s' ∧ o = some [0#8]) ∧
        ∃ o s'', copyinstr kalloc (s.procs 0).pagetable 0 1 s = .ok o s'' ∧ o = none := by
    decide +kernel
  exact ⟨s, s', s'', (wp_ok (serve_spec (coherent_smallBoot (by decide)) _) hserve).coherent.sound,
    hmy, hused, hsz, hc, hc'⟩

end Mem

end Xv6
