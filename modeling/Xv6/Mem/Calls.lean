import Xv6.Lib.Transition
import Xv6.Mem.Exec

/-!
# Runs of system calls

Requests, forks and execs, one at a time, in any order and by any processes. A state is sound if it
has the memory invariant but perhaps not the ownership of slots, which a fork of a swapped page
breaks; every call keeps soundness (`Call.run_spec`), and soundness is enough for physical pages to
have one use each.

## Main results

* `Call.run_spec` — what a call keeps
* `pages_exclusive` — no physical page has two uses
-/

namespace Xv6

namespace Mem

open WeakestPre
open Transition

/-! ### Calls -/

/-- A request, a fork or an exec, with the process that makes it. -/
inductive Call where
  | act (a : Act)
  | fork (p : ℕ)
  | exec (p : ℕ) (file : Option File) (argv : List Arg)

/-- A call is served, with the allocator `kalloc`. -/
def Call.run (kalloc : M ℕ) : Call → M Out
  | .act a => a.exec kalloc
  | .fork p => asProc p do
    let np ← kfork kalloc
    pure (.proc np)
  | .exec p file argv => asProc p do
    let r ← kexec kalloc file argv
    pure (.ret r)

/-- The state a call leaves, if it returns. -/
def callStep (kalloc : M ℕ) (s : Kernel) (c : Call) : Option Kernel :=
  match c.run kalloc s with
  | .ok _ s' => some s'
  | .error _ _ => none

theorem callStep_eq_some {alloc : M ℕ} {s s' : Kernel} {c : Call} :
    callStep alloc s c = some s' ↔ ∃ o, c.run alloc s = .ok o s' := by
  unfold callStep
  cases c.run alloc s <;> simp

/-! ### Forgetting who owns the slots -/

section

variable {N : ℕ → ℕ → Prop} {g : Ghost} {s : Kernel}

/-- The ghost maps without the ownership of slots. -/
def Ghost.forget (g : Ghost) : Ghost := { g with owned := False }

theorem Inv.forget (h : Inv N g s) : Inv N g.forget s :=
  ⟨⟨h.layout.kend, h.layout.tables, h.layout.managed, h.layout.nodup, h.layout.free⟩,
    h.entries.congr (fun _ => Iff.rfl) (fun _ _ _ => Iff.rfl) rfl False.elim fun _ _ _ => rfl,
    ⟨h.frameTable.hand, h.frameTable.tracked⟩,
    ⟨h.procTable.root, h.procTable.inj, h.procTable.trapframe⟩⟩

theorem Settled.forget (hs : Settled g s) : Settled g.forget s :=
  ⟨hs.owner, hs.sz, hs.absent, hs.unused, hs.used⟩

end

/-! ### Fork -/

section

variable {N : ℕ → ℕ → Prop} {alloc : M ℕ} {g g' : Ghost} {s s' : Kernel} {p np : ℕ}

/-- The trap frame and the size of the child do not matter. -/
theorem Resident.forkCommit (hr : Resident s) (h : Inv N g s) (p np : ℕ) :
    Resident (s.forkCommit p np) := by
  have hsz : Inv N g (s.setSz np (s.procs p).sz) := h.setProc rfl rfl
  have hr' : Resident (s.setSz np (s.procs p).sz) := hr.setProc rfl
  intro q k hq hk
  refine (hr' q k hq hk).step ?_ (fun _ _ => FrameKept.refl _) fun _ hp => hp
  rw [show (s.forkCommit p np).mem = ((s.setSz np (s.procs p).sz).copyTrapframe p np).mem from rfl,
    hsz.leaf_copyTrapframe (hsz.procTable.root q hq)]
  exact Evolves.refl _

/-- The condition `C` holds before every iteration of the copy that a fork by `p` makes. -/
def ForkingMeets (alloc : M ℕ) (C : ℕ → Kernel → ℕ → Prop) (p : ℕ) (s : Kernel) : Prop :=
  ∀ np s', allocproc alloc s = .ok (some np) s' → ForkMeets alloc C p np s'

instance {C : ℕ → Kernel → ℕ → Prop} [∀ old s i, Decidable (C old s i)] (p : ℕ) (s : Kernel) :
    Decidable (ForkingMeets alloc C p s) :=
  decidable_of_iff (∀ o s', allocproc alloc s = .ok o s' → ∀ np ∈ o, ForkMeets alloc C p np s')
    ⟨fun h np s' hs' => h _ s' hs' np rfl, fun h _ s' hs' np hnp => h np s' (hnp ▸ hs')⟩

/-- **`kfork`**. The slots keep their owners as long as no page that is swapped out is copied. -/
theorem kfork_spec (halloc : Allocates NoTable alloc) (h : Inv NoTable g s) (hs : Settled g s)
    (hmy : s.myproc = some p) (hused : (s.procs p).used = true)
    (hns : g.owned → ForkingMeets alloc NotSwapped p s) :
    wp (kfork alloc) (fun _ s' => (∃ g', g'.owned = g.owned ∧ Inv NoTable g' s' ∧ Settled g' s') ∧
      (Resident s → Resident s')) (Exhausted NoTable) s := by
  rw [kfork, wp_bind, wp_getMyproc hmy]
  refine wp_call (wp_run (allocproc_spec halloc h hs)) fun o s₁ hl => ?_
  obtain ⟨hrun, hl⟩ := hl
  cases o with
  | none =>
    obtain rfl : s₁ = s := hl
    exact ⟨⟨g, rfl, h, hs⟩, id⟩
  | some np =>
    obtain ⟨g₁, hsp⟩ := hl
    have hne : p ≠ np := by
      rintro rfl
      rw [hsp.unused] at hused
      cases hused
    have hown : g₁.owned = g.owned := hsp.keeps.owned
    rw [wp_bind, wp_get]
    refine wp_call (uvmcopy_spec halloc spares_self hsp.inv hsp.settled
      ((hsp.others p hne).used.trans hused) hsp.used hne hsp.sz
        fun ho => hns (hown ▸ ho) np s₁ hrun) fun ret s₂ hd => ?_
    obtain ⟨rfl, hd⟩ := hd
    rw [if_neg (by simp)]
    obtain ⟨g₂, ho₂, h₂, -⟩ := hd.inv
    obtain ⟨g', ho', h', hs'⟩ := hd.commit
    exact ⟨⟨g', ho'.trans hown, h', hs'⟩, fun hr =>
      (hd.resident (hsp.resident h hr)).forkCommit h₂ p np⟩

end

/-! ### One call -/

/-- The call is no exec. -/
def Call.NoExec : Call → Prop
  | .exec _ _ _ => False
  | _ => True

/-- An exec fails before it allocates a page for the new image. -/
def Call.LoadsNothing : Call → Prop
  | .exec _ file _ => Rejected file
  | _ => True

theorem Call.NoExec.loadsNothing {c : Call} (h : c.NoExec) : c.LoadsNothing := by
  cases c with
  | exec p file argv => exact h.elim
  | act | fork => trivial

/-- No fork finds a page of the parent swapped out. -/
def Call.ForksResident (alloc : M ℕ) (s : Kernel) : Call → Prop
  | .fork p => ForkingMeets alloc NotSwapped p { s with myproc := some p }
  | _ => True

instance (s : Kernel) (c : Call) : Decidable (c.ForksResident kalloc s) := by
  cases c <;> unfold Call.ForksResident <;> infer_instance

/-- No copy finds its page swapped out, and the call is no exec. -/
def Call.Stays (alloc : M ℕ) (s : Kernel) : Call → Prop
  | .act a => a.Stays alloc s
  | .fork _ => True
  | .exec _ _ _ => False

/-- Why a call does not return. -/
def Call.Stopped : Call → Halt → Kernel → Prop
  | .act a => Mem.Stopped a
  | .fork _ => Exhausted NoTable
  | .exec _ file _ => fun e s => Rejected file → Exhausted NoTable e s

section

variable {alloc : M ℕ} {g : Ghost} {s s' : Kernel}

/-- **What a call keeps.** -/
theorem Call.run_spec (halloc : Allocates NoTable alloc) (c : Call)
    (hexec : c.LoadsNothing ∨ ∀ N, Allocates N alloc) (h : Inv NoTable g s) (hs : Settled g s)
    (hfork : g.owned → c.ForksResident alloc s) :
    wp (c.run alloc) (fun _ s' => (∃ g', g'.owned = g.owned ∧ Inv NoTable g' s' ∧ Settled g' s') ∧
      (c.Stays alloc s → Resident s → Resident s')) c.Stopped s := by
  have hidle : ∀ {P : Prop}, (∃ g', g'.owned = g.owned ∧ Inv NoTable g' s ∧ Settled g' s) ∧
      (P → Resident s → Resident s) := ⟨⟨g, rfl, h, hs⟩, fun _ hr => hr⟩
  cases c with
  | act a =>
    exact wp_imp (exec_spec halloc h hs a) fun _ _ hs => ⟨hs.sound, hs.resident⟩
  | fork p =>
    refine wp_asProc hidle fun hused _ => ?_
    obtain ⟨h₀, hs₀⟩ := Settled.setMyproc h hs (some p)
    refine wp_call (kfork_spec halloc h₀ hs₀ rfl hused hfork) fun _ _ hl => ?_
    exact ⟨hl.1, fun _ => hl.2⟩
  | exec p file argv =>
    refine wp_asProc hidle fun hused _ => ?_
    obtain ⟨h₀, hs₀⟩ := Settled.setMyproc h hs (some p)
    by_cases hfile : Rejected file
    · refine wp_call (wp_error_imp (kexec_rejected_spec halloc h₀ hs₀ rfl hfile argv)
        fun _ _ he _ => he) fun _ _ hl => ?_
      exact ⟨hl, False.elim⟩
    · refine wp_call (wp_error_imp (kexec_spec (hexec.resolve_left hfile) h₀ hs₀ rfl hused file
        argv) fun _ _ _ hr => absurd hr hfile) fun _ _ hl => ?_
      exact ⟨hl, False.elim⟩

/-- A call keeps soundness. -/
theorem Sound.callStep (h : Sound s) (halloc : Allocates NoTable alloc) {c : Call}
    (hexec : c.LoadsNothing ∨ ∀ N, Allocates N alloc) (hc : callStep alloc s c = some s') :
    Sound s' := by
  obtain ⟨g, hinv, hs⟩ := h
  obtain ⟨o, ho⟩ := callStep_eq_some.mp hc
  obtain ⟨⟨g', -, h', hs'⟩, -⟩ :=
    wp_ok (c.run_spec halloc hexec hinv.forget hs.forget False.elim) ho
  exact ⟨g', h', hs'⟩

/-- A call that copies no swapped page keeps the ownership of slots. -/
theorem Coherent.callStep (h : Coherent s) {c : Call} (hfork : c.ForksResident kalloc s)
    (hc : callStep kalloc s c = some s') : Coherent s' := by
  obtain ⟨g, ho, hinv, hs⟩ := h
  obtain ⟨o, hrun⟩ := callStep_eq_some.mp hc
  obtain ⟨⟨g', ho', h', hs'⟩, -⟩ := wp_ok (c.run_spec kalloc_spec (Or.inr fun _ => kalloc_spec)
    hinv hs fun _ => hfork) hrun
  exact ⟨g', ho' ▸ ho, h', hs'⟩

end

/-! ### Physical pages -/

/-- The page is part of the page table with root `r`. -/
def TablePage (mem : ℕ → Page) (r a : ℕ) : Prop :=
  a = r ∨ (∃ i, child (mem r i) = some a) ∨ ∃ i j, lowPage mem r i j = some a

/-- The page that process `p` has at `va`, below its size. -/
def MappedAt (s : Kernel) (p va a : ℕ) : Prop :=
  (s.procs p).pagetable ≠ 0 ∧ va < (s.procs p).sz ∧
    Valid (leaf s.mem (s.procs p).pagetable (vkey va)) ∧
    pte2pa (leaf s.mem (s.procs p).pagetable (vkey va)) = a

/-- **No physical page has two uses.** -/
structure Exclusive (s : Kernel) : Prop where
  nodup : s.freelist.Nodup
  table : ∀ p a, (s.procs p).pagetable ≠ 0 → TablePage s.mem (s.procs p).pagetable a →
    a ∉ s.freelist
  mapped : ∀ p va a, MappedAt s p va a → a ∉ s.freelist
  inj : ∀ p va p' va' a, MappedAt s p va a → MappedAt s p' va' a →
    p = p' ∧ va / pgsize = va' / pgsize

section

variable {N : ℕ → ℕ → Prop} {g : Ghost} {s : Kernel}

theorem Inv.isTable_of_tablePage (h : Inv N g s) {r a : ℕ} (hr : g.own r = .root)
    (ha : TablePage s.mem r a) : (g.own a).isTable = true := by
  rcases ha with rfl | ⟨i, hi⟩ | ⟨i, j, hij⟩
  · rw [hr]
    rfl
  · rcases h.layout.tables.root_entry r hr i with h0 | ⟨m, hm, he⟩
    · rw [h0, child_zero] at hi
      cases hi
    · rw [he, child_tablePte (h.layout.tables.addr_mid hm)] at hi
      rw [← Option.some.inj hi, hm]
      rfl
  · rw [(h.layout.tables.lowPage_eq_some hr).mp hij]
    rfl

theorem MappedAt.own (h : Inv N g s) (hs : Settled g s) {p va a : ℕ} (hm : MappedAt s p va a) :
    g.own a = .user (s.procs p).pagetable (vkey va) := by
  obtain ⟨hpt, hva, hv, rfl⟩ := hm
  exact h.entries.page _ _ (h.procTable.root p hpt) (userKey_vkey (hva.trans_le (hs.sz p))) hv

theorem Sound.exclusive (h : Sound s) : Exclusive s := by
  obtain ⟨g, hinv, hs⟩ := h
  have hnot : ∀ {a : ℕ} {u : Use}, g.own a = u → u ≠ .free → a ∉ s.freelist := fun ha hu hmem =>
    hu (ha.symm.trans ((hinv.layout.free _).mp hmem))
  refine ⟨hinv.layout.nodup, fun p a hpt ha => ?_, fun p va a hm => hnot (hm.own hinv hs) (by simp),
    fun p va p' va' a hm hm' => ?_⟩
  · have htab := hinv.isTable_of_tablePage (hinv.procTable.root p hpt) ha
    exact hnot rfl fun he => by rw [he] at htab; cases htab
  · obtain ⟨hr, hk⟩ := Use.user.inj ((hm.own hinv hs).symm.trans (hm'.own hinv hs))
    have hva := hm.2.1.trans_le (hs.sz p)
    have hva' := hm'.2.1.trans_le (hs.sz p')
    simp only [trapframe_eq] at hva hva'
    exact ⟨hinv.procTable.inj p p' hm.1 hr, (vkey_inj (by omega) (by omega)).mp hk⟩

end

/-- Every state that a run of calls reaches from `kinit` is sound. -/
theorem sound_of_run {kend : ℕ} (trampolinePa : ℕ) (hlo : kernbase ≤ kend)
    (hhi : kend + nframe * pgsize ≤ phystop) {cs : List Call} {s : Kernel}
    (hrun : run (callStep kalloc) cs (bootState kend trampolinePa) = some s) : Sound s := by
  refine run_invariant (C := fun _ _ => True) (fun _ _ _ h _ hc => ?_)
    (coherent_boot trampolinePa hlo hhi).sound (meets_true _ _) hrun
  exact h.callStep kalloc_spec (Or.inr fun _ => kalloc_spec) hc

/-- **Physical pages are exclusive** in every state that a run of calls reaches from `kinit`. -/
theorem pages_exclusive {kend : ℕ} (trampolinePa : ℕ) (hlo : kernbase ≤ kend)
    (hhi : kend + nframe * pgsize ≤ phystop) {cs : List Call} {s : Kernel}
    (hrun : run (callStep kalloc) cs (bootState kend trampolinePa) = some s) : Exclusive s :=
  (sound_of_run trampolinePa hlo hhi hrun).exclusive

/-- A process touches a page and forks. -/
def forkRun : List Call :=
  [.act .spawn, .act (.sbrk 0 4096#32 false), .act (.store 0 100 7#8), .fork 0]

theorem pages_exclusive_forkRun : kernbase ≤ 0x80030000 ∧
    0x80030000 + nframe * pgsize ≤ phystop ∧
    ∃ s, run (callStep kalloc) forkRun (bootState 0x80030000 0) = some s ∧
      Exclusive s := by
  have hrun :
      (run (callStep kalloc) forkRun (bootState 0x80030000 0)).isSome = true := by
    decide +kernel
  obtain ⟨s, hs⟩ := Option.isSome_iff_exists.mp hrun
  exact ⟨by simp, by simp, s, hs, pages_exclusive 0 (by simp) (by simp) hs⟩

end Mem

end Xv6
