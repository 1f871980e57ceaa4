import Xv6.Pa3.Transparency

/-!
# Fork

`uvmcopy` skips the entries without `PTE_V`. That is right for pages that were never allocated, and
wrong for pages in the swap area: the child reads zeros there. So a fork duplicates memory exactly
if all the bytes of the parent that are in the swap area are zero.

The child's pages are not entered into the frame table, and the parent's pages stay where they are.

## Main results

* `uvmcopyLoop_spec` — what the child gets, and that everybody else keeps what they have
* `fork_duplicates_iff` — when the child reads what the parent reads
-/

namespace Xv6

namespace Pa3

open WeakestPre
open Transition
open Mem (Pte Page Halt pteV pteR pteW pteU has pa2pte pte2pa pteFlags mapPte swapIdx Valid Managed)

/-- What the child gets of a page. -/
def Kernel.copied (s : Kernel) (p v : ℕ) : Page :=
  if has (s.entry p v) pteV then s.value p v else Page.zero

/-- The page is in the swap area. -/
def SwappedOut (s : Kernel) (p v : ℕ) : Prop :=
  has (s.entry p v) pteV = false ∧ s.entry p v ≠ 0#64

section

variable {top : ℕ → ℕ} {place : ℕ → ℕ → Place} {f : ℕ → ℕ → Page} {s s' : Kernel}
  {p c v a old new : ℕ} {E : Halt → Kernel → Prop}

/-- The parent's pages from `lo` to `hi` have been copied, and nothing else has changed. -/
structure Copied (top : ℕ → ℕ) (place : ℕ → ℕ → Place) (old new lo hi : ℕ) (s s' : Kernel) :
    Prop where
  inv : ∃ place' f', Inv top place' f' s' ∧
    ∀ q u, q ≠ new ∨ hi ≤ u → place' q u = place q u
  value : ∀ q u, q ≠ new ∨ u < lo ∨ hi ≤ u → s'.value q u = s.value q u
  copied : ∀ u, lo ≤ u → u < hi → s'.value new u = s.copied old u

/-- There is nothing to copy. -/
theorem Inv.copied_of_not_valid (h : Inv top place f s) (hold : has (s.entry old v) pteV = false)
    (hnew : place new v = .absent) : Copied top place old new v (v + 1) s s := by
  refine ⟨⟨place, f, h, fun _ _ _ => rfl⟩, fun _ _ _ => rfl, fun u hlo hhi => ?_⟩
  obtain rfl : u = v := by omega
  rw [h.value_eq, hnew, Kernel.copied, hold, if_neg Bool.false_ne_true]
  rfl

/-- **One page.** -/
theorem uvmcopyPage_spec (h : Inv top place f s) (hlt : v * pgsize < top new)
    (hnew : place new v = .absent) :
    wp (uvmcopyPage old new (v * pgsize)) (fun ok s' =>
      (ok = true ∧ Copied top place old new v (v + 1) s s') ∨
      (ok = false ∧ Inv top place f s')) E s := by
  have hdiv : v * pgsize / pgsize = v := Nat.mul_div_cancel v (by decide)
  have hmax : v * pgsize < maxva := by
    have hle := h.top_le new
    simp only [trapframe_eq] at hle
    rw [maxva_eq]
    omega
  rw [uvmcopyPage, wp_bind, wp_walk hmax, hdiv]
  by_cases htab : HasTables s old v
  swap
  · have habs : place old v = .absent := by
      by_contra hx
      exact htab (h.tables old v hx)
    rw [if_neg htab]
    exact Or.inl ⟨rfl, h.copied_of_not_valid (h.not_has_pteV (by rw [habs]; simp)) hnew⟩
  rw [if_pos htab]
  dsimp only
  rw [wp_bind, wp_get]
  by_cases hval : has (s.entry old v) pteV = false
  · rw [if_pos hval]
    exact Or.inl ⟨rfl, h.copied_of_not_valid hval hnew⟩
  rw [if_neg hval]
  rw [Bool.not_eq_false] at hval
  obtain ⟨b, hb⟩ := h.has_pteV.mp hval
  rw [h.pte2pa_entry hb]
  refine wp_call (kalloc_spec h) fun a s₁ hs₁ => ?_
  rcases hs₁ with ⟨rfl, -, rfl⟩ | ⟨hne, -, h₁, ha₁, hk₁, -⟩
  · rw [if_pos rfl]
    exact Or.inr ⟨rfl, h⟩
  rw [if_neg hne, wp_bind, wp_modify]
  have hpage : s₁.mem b = s.copied old v := by
    rw [Kernel.copied, if_pos hval, ← hk₁.value, h₁.value_eq, hb]
    rfl
  refine wp_call (mappages_spec (h₁.setPage ha₁ (s₁.mem b)) (ha₁.setPage a _)
    (Nat.mul_mod_left v pgsize) (Mem.toNat_pteFlags_lt _) hlt (by rw [hdiv]; exact hnew)
    (fun q u => if q = new ∧ u = v then s.copied old v else f q u)
    (fun q u hqu => if_neg (by rwa [hdiv] at hqu))
    fun _ => ?_) fun r s₂ hs₂ => ?_
  · rw [hdiv, if_pos ⟨rfl, rfl⟩, ← hpage]
    exact Function.update_self _ _ _
  rw [hdiv] at hs₂
  rcases hs₂ with ⟨rfl, hm⟩ | ⟨hr, h₂, ha₂, -⟩
  · rw [if_neg (not_not.mpr rfl)]
    refine Or.inl ⟨rfl, ⟨_, _, hm.inv, fun q u hqu => setPlace_of_ne (by omega)⟩,
      fun q u hqu => ?_, fun u hlo hhi => ?_⟩
    · rw [hm.value q u (by omega), h₁.value_setPage ha₁, hk₁.value]
    · obtain rfl : u = v := by omega
      rw [hm.mem, ← hpage]
      exact Function.update_self _ _ _
  · rw [if_pos hr]
    refine wp_call (kfree_spec h₂ ha₂) fun _ s₃ hs₃ => ?_
    exact Or.inr ⟨rfl, hs₃.1⟩

theorem Inv.copied_congr {place' : ℕ → ℕ → Place} {f' : ℕ → ℕ → Page} (h : Inv top place f s)
    (h' : Inv top place' f' s') (hplace : place' p v = place p v)
    (hval : s'.value p v = s.value p v) : s'.copied p v = s.copied p v := by
  have hiff : has (s'.entry p v) pteV = true ↔ has (s.entry p v) pteV = true := by
    rw [h'.has_pteV, h.has_pteV, hplace]
  rw [Kernel.copied, Kernel.copied, hval, if_congr hiff rfl rfl]

/-- **The loop.** -/
theorem uvmcopyLoop_spec {n : ℕ} (h : Inv top place f s) (hne : old ≠ new)
    (hend : ∀ u < v + n, u * pgsize < top new) (hnew : ∀ u, v ≤ u → place new u = .absent) :
    wp (uvmcopyLoop old new n (v * pgsize)) (fun r s' =>
      (r = 0 ∧ Copied top place old new v (v + n) s s') ∨
      (r = -1 ∧ ∃ place' f', Inv top place' f' s')) E s := by
  induction n generalizing v place f s with
  | zero =>
    exact Or.inl ⟨rfl, ⟨place, f, h, fun _ _ _ => rfl⟩, fun _ _ _ => rfl, fun u hlo hhi => by omega⟩
  | succ n ih =>
    have hlt : v * pgsize < top new := hend v (by omega)
    rw [uvmcopyLoop]
    refine wp_call (uvmcopyPage_spec h hlt (hnew v le_rfl)) fun ok s₁ hs₁ => ?_
    rcases hs₁ with ⟨rfl, hc⟩ | ⟨rfl, h₁⟩
    · obtain ⟨place₁, f₁, h₁, hplace₁⟩ := hc.inv
      rw [if_pos rfl, ← Nat.succ_mul]
      refine wp_imp (ih h₁ (fun u hu => hend u (by omega)) fun u hu =>
        (hplace₁ new u (Or.inr hu)).trans (hnew u (by omega))) fun r s₂ hs₂ => ?_
      rcases hs₂ with ⟨rfl, hc₂⟩ | hfail
      swap
      · exact Or.inr hfail
      obtain ⟨place₂, f₂, h₂, hplace₂⟩ := hc₂.inv
      refine Or.inl ⟨rfl, ⟨place₂, f₂, h₂, fun q u hqu => ?_⟩, fun q u hqu => ?_,
        fun u hlo hhi => ?_⟩
      · rw [hplace₂ q u (by omega), hplace₁ q u (by omega)]
      · rw [hc₂.value q u (by omega), hc.value q u (by omega)]
      · by_cases hu : u = v
        · subst hu
          rw [hc₂.value new u (by omega), hc.copied u le_rfl (by omega)]
        · -- the parent's later pages are as they were
          rw [hc₂.copied u (by omega) (by omega)]
          exact h.copied_congr h₁ (hplace₁ old u (Or.inl hne)) (hc.value old u (Or.inl hne))
    · have hdiv : v * pgsize / pgsize = v := Nat.mul_div_cancel v (by decide)
      have hmax : 0 * pgsize + v * pgsize ≤ maxva := by
        have hle := h.top_le new
        simp only [trapframe_eq] at hle
        rw [maxva_eq]
        omega
      rw [if_neg Bool.false_ne_true, hdiv, uvmunmap, if_neg (by decide)]
      have hunmap := uvmunmapLoop_spec (E := E) (p := new) h₁ hmax
      rw [Nat.zero_mul] at hunmap
      exact wp_call hunmap fun _ s₂ hs₂ => Or.inr ⟨rfl, _, _, hs₂.2⟩

/-- The invariant does not depend on what the pages hold. -/
theorem Inv.withValue (h : Inv top place f s) : Inv top place s.value s :=
  { h with
    above := fun p v hle => by
      have habs := (h.above p v hle).1
      exact ⟨habs, by rw [h.value_eq, habs]; rfl⟩
    contents := fun p v _ => (h.value_eq p v).symm }

/-- **`uvmcopy`** into a page table without pages. -/
theorem uvmcopy_spec (h : Inv top place f s) (hne : p ≠ c) (hnew : ∀ v, s.entry c v = 0#64) {sz : ℕ}
    (hsz : sz ≤ trapframe) :
    wp (uvmcopy p c sz) (fun r s' => (r = 0 ∧ (∀ q, q ≠ c → ∀ u, s'.value q u = s.value q u) ∧
        ∀ u, u * pgsize < sz → s'.value c u = s.copied p u) ∨ r = -1) E s := by
  have habs : ∀ u, place c u = .absent := fun u => h.entry_eq_zero.mp (hnew u)
  have h₁ : Inv (Function.update top c trapframe) place s.value s := by
    refine h.withValue.retop le_rfl fun u _ => ⟨habs u, ?_⟩
    rw [h.value_eq, habs]
    rfl
  have hend : ∀ u < 0 + (sz + pgsize - 1) / pgsize,
      u * pgsize < Function.update top c trapframe c := by
    intro u hu
    rw [Function.update_self]
    rw [pgsize_eq] at hu ⊢
    omega
  have hloop := uvmcopyLoop_spec (E := E) h₁ hne hend fun u _ => habs u
  rw [Nat.zero_mul, Nat.zero_add] at hloop
  refine wp_imp hloop fun r s' hs' => ?_
  rcases hs' with ⟨rfl, hc⟩ | ⟨rfl, -⟩
  · refine Or.inl ⟨rfl, fun q hq u => hc.value q u (Or.inl hq), fun u hu => ?_⟩
    refine hc.copied u u.zero_le ?_
    rw [pgsize_eq] at hu ⊢
    omega
  · exact Or.inr rfl

/-- A page that is not in the swap area is copied as it is. -/
theorem Kernel.copied_of_not_swappedOut (h : ¬ SwappedOut s p v) : s.copied p v = s.value p v := by
  rw [Kernel.copied]
  split_ifs with hv
  · rfl
  · have h0 : s.entry p v = 0#64 := by
      by_contra hne
      exact h ⟨by simpa using hv, hne⟩
    rw [Kernel.value, ofPte_eq_absent.mpr h0]
    rfl

/-- **A fork duplicates memory** exactly if what the parent has in the swap area is zero. Everybody
but the child keeps what they have. -/
theorem fork_duplicates_iff (h : Inv top place f s) (hne : p ≠ c) (hnew : ∀ v, s.entry c v = 0#64)
    {sz : ℕ} (hsz : sz ≤ trapframe) (hok : uvmcopy p c sz s = .ok 0 s') :
    ((∀ va < sz, s'.byte c va = s.byte p va) ↔
      ∀ va < sz, SwappedOut s p (va / pgsize) → s.byte p va = 0#8) ∧
    ∀ q, q ≠ c → ∀ va, s'.byte q va = s.byte q va := by
  have hspec := wp_ok (uvmcopy_spec (E := fun _ _ => False) h hne hnew hsz) hok
  obtain ⟨-, hkeep, hcopied⟩ := hspec.resolve_right (by decide)
  refine ⟨?_, fun q hq va => by rw [Kernel.byte, hkeep q hq, Kernel.byte]⟩
  refine forall₂_congr fun va hva => ?_
  have hround := lt_of_le_of_lt (Nat.div_mul_le_self va pgsize) hva
  by_cases hout : SwappedOut s p (va / pgsize)
  · have hzero : s'.byte c va = 0#8 := by
      rw [Kernel.byte, hcopied _ hround, Kernel.copied, hout.1, if_neg Bool.false_ne_true,
        Mem.getByte_zero]
    rw [hzero]
    exact ⟨fun heq _ => heq.symm, fun h0 => (h0 hout).symm⟩
  · refine iff_of_true ?_ fun h0 => absurd h0 hout
    rw [Kernel.byte, hcopied _ hround, Kernel.copied_of_not_swappedOut hout]
    rfl

end

/-- Process `0` grows by three pages, stores to the first and to the last one, and forks. -/
def touchEnds : List Act := [.sbrk 0 12288#32 false, .store 0 0 7#8, .store 0 8192 9#8]

theorem fork_duplicates_touchEnds : ∃ σ, run step touchEnds bootSystem = some σ ∧
    σ.kernel.byte 0 0 = 7#8 ∧ σ.kernel.entry 0 1 = 0#64 ∧ σ.kernel.byte 0 8192 = 9#8 ∧
    ∃ s', uvmcopy 0 1 12288 σ.kernel = .ok 0 s' ∧
      ∀ va < 12288, s'.byte 1 va = σ.kernel.byte 0 va := by
  have hfacts : ∃ σ, run step touchEnds bootSystem = some σ ∧
      (σ.kernel.procs 1).sz = 0 ∧ has (σ.kernel.entry 0 0) pteV = true ∧
      has (σ.kernel.entry 0 2) pteV = true ∧ σ.kernel.byte 0 0 = 7#8 ∧
      σ.kernel.entry 0 1 = 0#64 ∧ σ.kernel.byte 0 8192 = 9#8 ∧
      ∃ r s', uvmcopy 0 1 12288 σ.kernel = .ok r s' ∧ r = 0 := by
    decide +kernel
  obtain ⟨σ, hrun, hsz, hfirst, hlast, h7, hmid, h9, _, s', hok, rfl⟩ := hfacts
  obtain ⟨place, f, h, -⟩ := Coherent.run started_bootSystem (by decide +kernel) hrun
  have hnew : ∀ v, σ.kernel.entry 1 v = 0#64 := fun v =>
    h.entry_eq_zero.mpr (h.above 1 v (by rw [szOf, hsz]; exact Nat.zero_le _)).1
  refine ⟨σ, hrun, h7, hmid, h9, s', hok, ?_⟩
  refine (fork_duplicates_iff h (by decide) hnew (by decide) hok).1.mpr fun va hva hout => ?_
  -- no page is in the swap area
  obtain hv | hv | hv : va / pgsize = 0 ∨ va / pgsize = 1 ∨ va / pgsize = 2 := by
    rw [pgsize_eq]
    omega
  all_goals rw [hv] at hout
  · exact absurd (hfirst.symm.trans hout.1) (by decide)
  · exact absurd hmid hout.2
  · exact absurd (hlast.symm.trans hout.1) (by decide)

/-- Process `0` stores `7` in each of fifty-two pages and then shrinks to two. The second page is in
slot `1`; the child of a fork reads `0` there. -/
theorem fork_duplicates_counterexample :
    ∃ σ, run step (touchPages 52 ++ [.sbrk 0 (BitVec.ofInt 32 (-204800)) false])
      bootSystem = some σ ∧ (σ.kernel.procs 0).sz = 8192 ∧ (σ.kernel.procs 1).sz = 0 ∧
    ∃ r s', uvmcopy 0 1 8192 σ.kernel = .ok r s' ∧ r = 0 ∧
      σ.kernel.byte 0 4096 = 7#8 ∧ s'.byte 1 4096 = 0#8 := by
  decide +kernel

end Pa3

end Xv6
