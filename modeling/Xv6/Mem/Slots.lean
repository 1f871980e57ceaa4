import Xv6.Mem.Calls

/-!
# Who owns a swap slot

A slot is in use exactly while one entry of one page table names it. Evictions, faults, copies,
unmappings and execs keep this. A fork does not: for a page of the parent that is swapped out
`uvmcopy` calls `swap_in`, which frees the slot, and leaves the parent's entry as it is. The slot is
then named and free, and the next eviction gives it a second owner.

## Main results

* `slots_owned`, `slots_owned_counterexample`
-/

namespace Xv6

namespace Mem

open Transition

/-- An entry of the page table of `p` is swapped out and has `n` in its slot field. -/
def Names (s : Kernel) (p : ℕ) (k : Key) (n : ℤ) : Prop :=
  (s.procs p).pagetable ≠ 0 ∧ Swapped (leaf s.mem (s.procs p).pagetable k) ∧
    swapIdx (leaf s.mem (s.procs p).pagetable k) = n

/-- **The slots in use are those that an entry names, and one entry names each.** -/
structure SlotsOwned (s : Kernel) : Prop where
  inUse_iff : ∀ n, s.swapInUse n = true ↔ ∃ p k, Names s p k n
  unique : ∀ n p k p' k', Names s p k n → Names s p' k' n → p = p' ∧ k = k'

section

variable {N : ℕ → ℕ → Prop} {g : Ghost} {s : Kernel}

/-- An entry that names a slot is one of user memory, and the slot is its own. -/
theorem Names.slot {p : ℕ} {k : Key} {n : ℤ} (hn : Names s p k n) (ho : g.owned) (h : Inv N g s) :
    g.slot n = some ((s.procs p).pagetable, k) := by
  obtain ⟨hpt, hsw, rfl⟩ := hn
  have hroot := h.procTable.root p hpt
  refine h.entries.named ho _ k hroot ?_ hsw
  by_contra hk
  rw [Swapped, (h.entries.top _ k hroot hk).getLsbD.1] at hsw
  cases hsw.2

theorem Coherent.slotsOwned (h : Coherent s) : SlotsOwned s := by
  obtain ⟨g, ho, hinv, hs⟩ := h
  refine ⟨fun n => ?_, fun n p k p' k' hn hn' => ?_⟩
  · rw [hinv.entries.inUse ho n]
    constructor
    · intro hsome
      obtain ⟨⟨r, k⟩, hslot⟩ := Option.isSome_iff_exists.mp hsome
      obtain ⟨hroot, -, hsw, hidx⟩ := hinv.entries.slot ho n r k hslot
      obtain ⟨p, rfl⟩ := hs.owner r hroot
      exact ⟨p, k, hinv.root_ne_zero hroot, hsw, hidx⟩
    · rintro ⟨p, k, hn⟩
      rw [hn.slot ho hinv]
      rfl
  · obtain ⟨hr, hk⟩ := Prod.mk.inj (Option.some.inj
      ((hn.slot ho hinv).symm.trans (hn'.slot ho hinv)))
    exact ⟨hinv.procTable.inj p p' hn.1 hr, hk⟩

end

/-- **Slots have one owner** in every state reached by a run of calls in which no fork copies a page
that is swapped out. -/
theorem slots_owned {kend : ℕ} (trampolinePa : ℕ) (hlo : kernbase ≤ kend)
    (hhi : kend + nframe * pgsize ≤ phystop) {cs : List Call} {s : Kernel}
    (hforks : Meets (callStep kalloc) (fun s c => c.ForksResident kalloc s) cs
      (bootState kend trampolinePa))
    (hrun : run (callStep kalloc) cs (bootState kend trampolinePa) = some s) : SlotsOwned s :=
  Coherent.slotsOwned (run_invariant (fun _ _ _ h hc hstep => h.callStep hc hstep)
    (coherent_boot trampolinePa hlo hhi) hforks hrun)

/-- When no page is left, a process evicts its first page to get its second one. Another process
gives pages back, and the first one forks. -/
def forkSwapped : List Call :=
  List.replicate 490 (.act .alloc) ++
    [.act .spawn, .act .spawn, .act (.sbrk 1 36864#32 true), .act (.sbrk 0 8192#32 false),
    .act (.store 0 100 7#8), .act (.store 0 5000 9#8), .act (.sbrk 1 (-32768#32) false), .fork 0]

/-- The second process forks, whose page is resident, while a page of the first one is in slot
`0`. -/
def forkBeside : List Call := forkSwapped.dropLast ++ [.fork 1]

theorem slots_owned_forkBeside : kernbase ≤ 0x80030000 ∧
    0x80030000 + nframe * pgsize ≤ phystop ∧
    Meets (callStep kalloc) (fun s c => c.ForksResident kalloc s) forkBeside
      (bootState 0x80030000 0) ∧
    ∃ s, run (callStep kalloc) forkBeside (bootState 0x80030000 0) = some s ∧
      s.swapInUse 0 = true ∧ SlotsOwned s := by
  have hforks : Meets (callStep kalloc) (fun s c => c.ForksResident kalloc s)
      forkBeside (bootState 0x80030000 0) := by
    decide +kernel
  obtain ⟨s, hs, hslot⟩ : ∃ s, run (callStep kalloc) forkBeside
      (bootState 0x80030000 0) = some s ∧ s.swapInUse 0 = true := by
    decide +kernel
  exact ⟨by simp, by simp, hforks, s, hs, hslot, slots_owned 0 (by simp) (by simp) hforks hs⟩

/-- The parent still names slot `0`, which the fork has freed. -/
theorem slots_owned_counterexample :
    ∃ s, run (callStep kalloc) forkSwapped (bootState 0x80030000 0) = some s ∧
      ¬ SlotsOwned s := by
  obtain ⟨s, hs, hpt, hsw, hidx, hfree⟩ : ∃ s,
      run (callStep kalloc) forkSwapped (bootState 0x80030000 0) = some s ∧
      (s.procs 0).pagetable ≠ 0 ∧ Swapped (leaf s.mem (s.procs 0).pagetable (vkey 0)) ∧
      swapIdx (leaf s.mem (s.procs 0).pagetable (vkey 0)) = 0 ∧ s.swapInUse 0 = false := by
    decide +kernel
  refine ⟨s, hs, fun h => ?_⟩
  rw [(h.inUse_iff 0).mpr ⟨0, vkey 0, hpt, hsw, hidx⟩] at hfree
  cases hfree

end Mem

end Xv6
