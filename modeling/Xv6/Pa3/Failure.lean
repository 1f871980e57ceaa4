import Xv6.Pa3.Transparency

/-!
# Faults that fail

`vmfault` returns `0` in five places, and up to then it can have evicted a page, taken one from the
free list, mapped it and emptied a slot. What it leaves behind is consistent with one exception. If
the frame table is full and no slot is free, nothing is evicted; a page in the swap area is then
brought back all the same, `frame_alloc` refuses it, and its page is freed while its entry stays
valid. The slot is free again by then, so the contents are gone.

## Main results

* `vmfault_of_stuck` — a fault that can neither evict nor get a frame
* `fault_failure_iff` — when a failed fault leaves memory consistent
-/

namespace Xv6

namespace Pa3

open WeakestPre
open Transition
open Mem (Pte Page Halt pteV pteR pteW pteU has pa2pte pte2pa mapPte swapIdx Valid Managed)

/-- A fault that has to evict a page, and has no slot for it. -/
def Stuck (s : Kernel) (p va : ℕ) : Prop := NeedsSlot s p va ∧ ¬ SlotFree s

/-- The entry maps a page that is free. -/
def Dangling (s : Kernel) (p v : ℕ) : Prop :=
  has (s.entry p v) pteV = true ∧ pte2pa (s.entry p v) ∈ s.freelist

instance (s : Kernel) (p v : ℕ) : Decidable (Dangling s p v) :=
  inferInstanceAs (Decidable (_ ∧ _))

/-- What a failed fault for page `v` should leave behind. -/
structure Consistent (p v : ℕ) (s s' : Kernel) : Prop where
  value : s'.value p v = s.value p v
  mapped : ∀ q u, ¬ Dangling s' q u
  /-- The process can be unmapped, and no page is freed that is free. -/
  unmap : ∀ n, n * pgsize ≤ maxva → ∃ s'', uvmunmap p 0 n s' = .ok () s'' ∧ s''.freelist.Nodup

section

variable {top : ℕ → ℕ} {place : ℕ → ℕ → Place} {f : ℕ → ℕ → Page} {s s' : Kernel} {p v a : ℕ}
  {E : Halt → Kernel → Prop}

theorem Inv.not_dangling (h : Inv top place f s) (q u : ℕ) : ¬ Dangling s q u := by
  rintro ⟨hv, hmem⟩
  obtain ⟨b, hb⟩ := h.has_pteV.mp hv
  rw [h.pte2pa_entry hb] at hmem
  exact (h.page q u b hb).2 hmem

/-- The invariant is all that is needed. -/
theorem Inv.consistent (h : Inv top place f s') (hval : s'.value p v = s.value p v) :
    Consistent p v s s' := by
  refine ⟨hval, h.not_dangling, fun n hn => ?_⟩
  have hspec := uvmunmapLoop_spec (E := fun _ _ => False) (p := p) (v := 0) (n := n) h (by omega)
  rw [Nat.zero_mul] at hspec
  obtain ⟨_, s'', hok⟩ := exists_ok_of_wp hspec
  exact ⟨s'', hok, (wp_ok hspec hok).2.nodup⟩

/-- A page that is nowhere, with a full frame table: what was mapped is unmapped again. -/
theorem normal_of_full (h : Inv top place f s) (hx : place p v = .absent)
    (hlt : v * pgsize < top p) (hfull : ¬ s.userFrames < maxFrames) :
    wp (vmfault.normal p (v * pgsize)) (fun r s' => r = 0 ∧ ∃ f', Inv top place f' s') E s := by
  have hend : v * pgsize + 1 * pgsize ≤ maxva := by
    have hle := h.top_le p
    simp only [trapframe_eq, maxva_eq, pgsize_eq] at hle hlt ⊢
    omega
  rw [vmfault.normal]
  refine wp_call (kalloc_spec h) fun a s₁ hs₁ => ?_
  rcases hs₁ with ⟨rfl, -, rfl⟩ | ⟨hne, -, h₁, ha₁, hk₁, -⟩
  · rw [if_pos rfl]
    exact ⟨rfl, f, h⟩
  rw [if_neg hne, wp_bind, wp_modify]
  refine wp_call (mappages_zero_spec h₁ ha₁ (by decide) hlt hx) fun r s₂ hs₂ => ?_
  rcases hs₂ with ⟨rfl, hm⟩ | ⟨hr, h₂, ha₂, -⟩
  · rw [if_neg (not_not.mpr rfl)]
    refine wp_call (frameAlloc_spec hm.inv.count (some p) (v * pgsize) a) fun r s₃ hs₃ => ?_
    rcases hs₃ with ⟨-, hroom, -⟩ | ⟨rfl, -, rfl⟩
    · rw [hm.userFrames] at hroom
      exact absurd (hk₁.userFrames ▸ hroom) hfull
    rw [if_pos one_ne_zero, uvmunmap, if_neg (not_not.mpr (Nat.mul_mod_left v pgsize))]
    refine wp_call (uvmunmapLoop_spec hm.inv hend) fun _ s₄ hs₄ => ?_
    rw [Nat.one_mul, ← setPlace_absent_eq, setPlace_setPlace, setPlace_of_eq hx] at hs₄
    exact ⟨rfl, _, hs₄.2⟩
  · rw [if_pos hr]
    refine wp_call (kfree_spec h₂ ha₂) fun _ s₃ hs₃ => ?_
    exact ⟨rfl, f, hs₃.1⟩

/-- A page in the swap area, with a full frame table: if there is a page for it, it is brought back
and freed. -/
theorem swapBack_of_full (h : Inv top place f s) {n : ℕ} (hx : place p v = .slot n)
    (hfull : ¬ s.userFrames < maxFrames) :
    wp (vmfault.swapBack p (v * pgsize) v n) (fun r s' => r = 0 ∧
      ((s.freelist = [] ∧ s' = s) ∨ (s.freelist ≠ [] ∧ Dangling s' p v))) E s := by
  have hn : n < maxSwap := (h.slot p v n hx).2.1
  rw [vmfault.swapBack]
  refine wp_call (kalloc_spec h) fun a s₁ hs₁ => ?_
  rcases hs₁ with ⟨rfl, hnil, rfl⟩ | ⟨hne, hmem, h₁, ha₁, hk₁, -⟩
  · rw [if_pos rfl]
    exact ⟨rfl, Or.inl ⟨hnil, rfl⟩⟩
  rw [if_neg hne, wp_bind, wp_swapIn hn, wp_bind, wp_modify, swapInPte_eq]
  have h₂ := h₁.swapIn ha₁ hx
  refine wp_call (frameAlloc_spec h₂.count (some p) (v * pgsize) a) fun r s₃ hs₃ => ?_
  rcases hs₃ with ⟨-, hroom, -⟩ | ⟨rfl, -, rfl⟩
  · exact absurd (hk₁.userFrames.symm.trans_lt hroom) hfull
  rw [if_pos one_ne_zero, wp_bind, wp_kfree (by exact ha₁.managed), wp_pure]
  have hplace := setPlace_self place p v (.page a)
  refine ⟨rfl, Or.inr ⟨List.ne_nil_of_mem hmem, h₂.has_pteV.mpr ⟨a, hplace⟩, ?_⟩⟩
  exact (h₂.pte2pa_entry hplace).symm ▸ List.mem_cons_self

/-- **A fault that can neither evict nor get a frame** fails. It leaves a dangling entry if the page
is in the swap area and there is a free page. -/
theorem vmfault_of_stuck (h : Inv top place f s) (htop : (s.procs p).sz ≤ top p) {va : ℕ}
    (hstuck : Stuck s p va) :
    wp (vmfault p va) (fun r s' => r = 0 ∧
      ((s.entry p (va / pgsize) ≠ 0#64 ∧ s.freelist ≠ [] ∧ Dangling s' p (va / pgsize)) ∨
      (¬ (s.entry p (va / pgsize) ≠ 0#64 ∧ s.freelist ≠ []) ∧
        s'.value p (va / pgsize) = s.value p (va / pgsize) ∧ ∃ f', Inv top place f' s'))) E s := by
  obtain ⟨⟨hlt, hinvalid, hfull⟩, hno⟩ := hstuck
  refine wp_vmfault h htop (fun hpage => ?_) fun _ hnp => ?_
  · rw [h.has_pteV.mpr (hpage hlt)] at hinvalid
    cases hinvalid
  refine wp_imp (evictIfFull_of_not_slotFree h hfull hno) fun _ s₁ ht => ?_
  have h₁ := h.ticked ht
  have huf : ¬ s₁.userFrames < maxFrames := by
    rw [ht.eq]
    exact not_lt.mpr hfull
  have hlist : s₁.freelist = s.freelist := by rw [ht.eq]
  have hval : s₁.value p (va / pgsize) = s.value p (va / pgsize) := by rw [ht.eq]; rfl
  refine ⟨place, h₁, rfl, fun hx => ?_, fun n hx => ?_⟩
  · have hround := lt_of_le_of_lt (Nat.div_mul_le_self va pgsize) (lt_of_lt_of_le hlt htop)
    refine wp_imp (normal_of_full h₁ hx hround huf) fun r s' hs' => ?_
    obtain ⟨rfl, f', h'⟩ := hs'
    refine ⟨rfl, Or.inr ⟨fun hne => hne.1 (h.entry_eq_zero.mpr hx), ?_, f', h'⟩⟩
    rw [h'.value_eq, h.value_eq, hx]
    rfl
  · refine wp_imp (swapBack_of_full h₁ hx huf) fun r s' hs' => ?_
    obtain ⟨rfl, hcases⟩ := hs'
    rw [hlist] at hcases
    rcases hcases with ⟨hnil, rfl⟩ | ⟨hne, hd⟩
    · exact ⟨rfl, Or.inr ⟨fun hne => hne.2 hnil, hval, f, h₁⟩⟩
    · refine ⟨rfl, Or.inl ⟨?_, hne, hd⟩⟩
      rw [Ne, h.entry_eq_zero, hx]
      simp

/-- **A failed fault leaves memory consistent**, unless it was stuck on a page in the swap area
while a page was free. -/
theorem fault_failure_iff (h : Inv top place f s) (htop : (s.procs p).sz ≤ top p) {va : ℕ}
    (hfail : vmfault p va s = .ok 0 s') :
    Consistent p (va / pgsize) s s' ↔
      ¬ (Stuck s p va ∧ s.entry p (va / pgsize) ≠ 0#64 ∧ s.freelist ≠ []) := by
  by_cases hstuck : Stuck s p va
  · obtain ⟨-, hcases⟩ := wp_ok (vmfault_of_stuck (E := fun _ _ => False) h htop hstuck) hfail
    rcases hcases with ⟨hentry, hlist, hd⟩ | ⟨hnot, hval, f', h'⟩
    · exact iff_of_false (fun hc => hc.mapped p _ hd) (not_not_intro ⟨hstuck, hentry, hlist⟩)
    · exact iff_of_true (h'.consistent hval) fun hbad => hnot hbad.2
  · have hfree : NeedsSlot s p va → SlotFree s := fun hneeds =>
      by_contra fun hno => hstuck ⟨hneeds, hno⟩
    obtain ⟨hserved, -⟩ := wp_ok (vmfault_spec (E := fun _ _ => False) h htop hfree) hfail
    obtain ⟨place', h'⟩ := hserved.inv
    exact iff_of_true (h'.consistent hserved.value) fun hbad => hstuck hbad.1

end

/-- Process `0` touches fifty-two pages and shrinks to two. The second page is in slot `1`, and
something else takes the sixty pages of memory. -/
def takeAll : List Act :=
  touchPages 52 ++ .sbrk 0 (BitVec.ofInt 32 (-204800)) false :: List.replicate 60 .alloc

theorem fault_failure_takeAll : ∃ σ, run step takeAll bootSystem = some σ ∧
    ⟨1, 0, 4096⟩ ∈ σ.kernel.evictions ∧ σ.kernel.entry 0 1 ≠ 0#64 ∧ σ.kernel.freelist = [] ∧
    ∃ s', vmfault 0 4096 σ.kernel = .ok 0 s' ∧ Consistent 0 1 σ.kernel s' := by
  have hfacts : ∃ σ, run step takeAll bootSystem = some σ ∧
      ⟨1, 0, 4096⟩ ∈ σ.kernel.evictions ∧ σ.kernel.entry 0 1 ≠ 0#64 ∧
      σ.kernel.freelist = [] ∧ ∃ r s', vmfault 0 4096 σ.kernel = .ok r s' ∧ r = 0 := by
    decide +kernel
  obtain ⟨σ, hrun, hev, hentry, hnil, _, s', hfail, rfl⟩ := hfacts
  obtain ⟨place, f, h, -⟩ := Coherent.run started_bootSystem (by decide +kernel) hrun
  refine ⟨σ, hrun, hev, hentry, hnil, s', hfail, (fault_failure_iff h le_rfl hfail).mpr ?_⟩
  exact fun hbad => hbad.2.2 hnil

/-- Process `0` touches 178 pages that it did not allocate. Fifty are in memory then, and the first
of the others is lost, as it is in slot `0`. The other 127 fill the swap area. A fault for the
second page, which is in slot `1`, fails. -/
theorem fault_failure_counterexample :
    ∃ σ, run step (touchPages 178) bootSystem = some σ ∧
    ∃ r s', vmfault 0 4096 σ.kernel = .ok r s' ∧ r = 0 ∧ Dangling s' 0 1 := by
  decide +kernel

end Pa3

end Xv6
