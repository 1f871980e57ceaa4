import Mathlib.Data.List.Nodup
import Xv6.Mem.Release

/-!
# The memory system

What processes can ask of the memory system, one request at a time: loads and stores of user code
with the faults they cause, the copies of system calls, `sbrk`, and the creation and the end of
processes. `alloc` is an allocation by any other part of the kernel.

A state is *sound* if ghost maps exist with which the memory invariant holds, and the state is
settled; it is *coherent* if moreover every slot has one owner. Boot leaves a coherent state
(`coherent_boot`); a run of requests is a run of the monad.
-/

namespace Xv6

namespace Mem

open WeakestPre

variable {R Y : ℕ → Prop} {p : ℕ} {s : Kernel}

/-! ### Requests -/

/-- A request, with the process that makes it. -/
inductive Act where
  | load (p va : ℕ)
  | store (p va : ℕ) (b : BitVec 8)
  | copyin (p srcva len : ℕ)
  | copyout (p dstva : ℕ) (src : List (BitVec 8))
  | sbrk (p : ℕ) (n : BitVec 32) (eager : Bool)
  | alloc
  | spawn
  | exit (p : ℕ)

/-- What a request returns. -/
inductive Out where
  /-- The process does not run. -/
  | idle
  | byte (b : Option (BitVec 8))
  | bytes (bs : Option (List (BitVec 8)))
  | ret (n : ℤ)
  | done (ok : Bool)
  | page (pa : ℕ)
  | proc (p : Option ℕ)
  deriving DecidableEq

/-- Process `p` is scheduled and runs `m`; a killed process does not come back to user code. -/
def asProc (p : ℕ) (m : M Out) : M Out := do
  let s ← get
  if (s.procs p).used = true ∧ (s.procs p).killed = false then
    set { s with myproc := some p }
    m
  else pure .idle

theorem wp_asProc {m : M Out} {Q : Out → Kernel → Prop} {E : Halt → Kernel → Prop}
    (hidle : Q .idle s) (hrun : (s.procs p).used = true → (s.procs p).killed = false →
      wp m Q E { s with myproc := some p }) : wp (asProc p m) Q E s := by
  rw [asProc, wp_bind, wp_get, wp_ite]
  exact ⟨fun h => hrun h.1 h.2, fun _ => hidle⟩

/-- A request is served, with the allocator `kalloc`. -/
def Act.exec (kalloc : M ℕ) : Act → M Out
  | .load p va => asProc p do
    let b ← userLoad kalloc va
    pure (.byte b)
  | .store p va b => asProc p do
    let ok ← userStore kalloc va b
    pure (.done ok)
  | .copyin p srcva len => asProc p do
    let s ← get
    let bs ← Mem.copyin kalloc (s.procs p).pagetable srcva len
    pure (.bytes bs)
  | .copyout p dstva src => asProc p do
    let s ← get
    let r ← Mem.copyout kalloc (s.procs p).pagetable dstva src
    pure (.ret r)
  | .sbrk p n eager => asProc p do
    let r ← sysSbrk kalloc n.toInt eager
    pure (.ret r)
  | .alloc => do
    let pa ← kalloc
    pure (.page pa)
  | .spawn => do
    let p ← allocproc kalloc
    pure (.proc p)
  | .exit p => do
    let s ← get
    if (s.procs p).used = true then
      freeproc p
      pure (.done true)
    else pure .idle

/-- A run of requests. -/
def serve (kalloc : M ℕ) : List Act → M (List Out)
  | [] => pure []
  | a :: as => do
    let o ← a.exec kalloc
    let os ← serve kalloc as
    pure (o :: os)

/-! ### Coherent states -/

/-- The invariant holds, and no operation is in progress. -/
def Coherent (s : Kernel) : Prop := ∃ g, g.owned ∧ Inv NoTable g s ∧ Settled g s

/-- The invariant holds but for the ownership of slots, and no operation is in progress. -/
def Sound (s : Kernel) : Prop := ∃ g, Inv NoTable g s ∧ Settled g s

theorem Coherent.sound (h : Coherent s) : Sound s :=
  let ⟨g, _, h⟩ := h
  ⟨g, h⟩

section

variable {N : ℕ → ℕ → Prop} {g g' : Ghost} {s' : Kernel} {r : ℕ}

/-- A step that keeps the page tables and the entries of the process table, but perhaps not the
sizes. -/
theorem Settled.step (hs : Settled g s) (hroot : ∀ x, g'.own x = .root → g.own x = .root)
    (hused : ∀ q, (s'.procs q).used = (s.procs q).used)
    (hpt : ∀ q, (s'.procs q).pagetable = (s.procs q).pagetable)
    (htf : ∀ q, (s'.procs q).trapframe = (s.procs q).trapframe)
    (hsz : ∀ q, (s'.procs q).sz ≤ trapframe)
    (hunused : ∀ q, (s.procs q).used = false → (s'.procs q).sz = (s.procs q).sz)
    (habs : ∀ q k, (s.procs q).pagetable ≠ 0 → (s'.procs q).sz ≤ k.addr → ¬ TopPage k →
      leaf s'.mem (s.procs q).pagetable k = 0#64) : Settled g' s' where
  owner x hx := by
    obtain ⟨q, hq⟩ := hs.owner x (hroot x hx)
    exact ⟨q, (hpt q).trans hq⟩
  sz := hsz
  absent q k hq hk htop := by
    rw [hpt q] at hq ⊢
    exact habs q k hq hk htop
  unused q hq := by
    rw [hused q] at hq
    rw [hpt q, htf q, hunused q hq]
    exact hs.unused q hq
  used q hq := by
    rw [hused q] at hq
    rw [hpt q]
    exact hs.used q hq

/-- Work on entries below the sizes. -/
theorem Settled.background (hs : Settled g s) (h : Inv N g s) {X Z T : ℕ → Key → Prop}
    (hb : Background X Z T Y g g' s s')
    (hX : ∀ q k, (s.procs q).pagetable ≠ 0 → (s.procs q).sz ≤ k.addr →
      ¬ X (s.procs q).pagetable k) : Settled g' s' := by
  refine hs.step hb.root (fun q => (hb.procs q).used) hb.pagetable
    (fun q => (hb.procs q).trapframe) (fun q => ?_) (fun q _ => (hb.procs q).sz)
    fun q k hq hk htop => ?_
  · rw [(hb.procs q).sz]
    exact hs.sz q
  · rw [(hb.procs q).sz] at hk
    have h0 := hs.absent q k hq hk htop
    rw [hb.leaf_eq (h.procTable.root q hq) (hX q k hq hk) (by rw [h0]; exact not_valid_zero), h0]

/-- Work of a process on its own entries below its size. -/
theorem Settled.below (hs : Settled g s) (h : Inv N g s) {Z T : ℕ → Key → Prop}
    (hp : Running g s p r) (hb : Background (Below r (s.procs p).sz) Z T Y g g' s s') :
    Settled g' s' := by
  refine hs.background h hb fun q k hq hk hx => ?_
  obtain rfl := h.procTable.inj q p hq (hx.1.trans hp.pagetable.symm)
  exact absurd hx.2 (not_lt.mpr hk)

theorem Settled.kill (hs : Settled g s) (p : ℕ) : Settled g (s.kill p) := by
  have hsame : ∀ q, ((s.kill p).procs q).used = (s.procs q).used ∧
      ((s.kill p).procs q).pagetable = (s.procs q).pagetable ∧
      ((s.kill p).procs q).trapframe = (s.procs q).trapframe ∧
      ((s.kill p).procs q).sz = (s.procs q).sz := fun q => by
    by_cases hq : q = p
    · subst hq
      simp [Kernel.kill, Kernel.modProc]
    · simp [Kernel.kill, Kernel.modProc, Function.update_of_ne hq]
  refine hs.step (fun _ h => h) (fun q => (hsame q).1) (fun q => (hsame q).2.1)
    (fun q => (hsame q).2.2.1) (fun q => ?_) (fun q _ => (hsame q).2.2.2) fun q k hq hk htop => ?_
  · rw [(hsame q).2.2.2]
    exact hs.sz q
  · rw [(hsame q).2.2.2] at hk
    exact hs.absent q k hq hk htop

theorem not_topPage {k : Key} (hk : UserKey k) : ¬ TopPage k := by
  rintro (he | he) <;> rw [UserKey, he] at hk <;> simp at hk

/-- A process of a settled state runs. -/
theorem Settled.running (hs : Settled g s) (h : Inv N g s) (hused : (s.procs p).used = true)
    (hmy : s.myproc = some p) : Running g s p (s.procs p).pagetable where
  myproc := hmy
  pagetable := rfl
  root := h.procTable.root p (hs.used p hused)
  sz := hs.sz p
  absent k hk hsz := hs.absent p k (hs.used p hused) hsz (not_topPage hk)

/-- A process is scheduled. -/
theorem Settled.setMyproc (h : Inv N g s) (hs : Settled g s) (o : Option ℕ) :
    Inv N g { s with myproc := o } ∧ Settled g { s with myproc := o } :=
  ⟨h.frame (fun _ _ => rfl) rfl rfl rfl (FramesShrink.refl s) h.frameTable.hand fun _ => ⟨rfl, rfl⟩,
    ⟨hs.owner, hs.sz, hs.absent, hs.unused, hs.used⟩⟩

theorem setSz_procs_of_ne (s : Kernel) {q : ℕ} (sz : ℕ) (hq : q ≠ p) :
    (s.setSz p sz).procs q = s.procs q := Function.update_of_ne hq _ _

theorem setSz_procs_self (s : Kernel) (p sz : ℕ) :
    (s.setSz p sz).procs p = { s.procs p with sz := sz } := Function.update_self _ _ _

/-- A change of size leaves a settled state. -/
theorem Resized.settled {sz' : ℕ} (hres : Resized N g s s' p r sz') (h : Inv N g s)
    (hs : Settled g s) (hp : Running g s p r) (hused : (s.procs p).used = true) :
    ∃ g', g'.owned = g.owned ∧ Inv N g' s' ∧ Settled g' s' := by
  obtain ⟨g', s₁, h₁, hback, habs, rfl⟩ := hres.outcome
  refine ⟨g', hback.owned, h₁.setProc rfl rfl, hs.step hback.root (fun q => ?_) (fun q => ?_)
    (fun q => ?_)
    (fun q => ?_) (fun q hq => ?_) fun q k hq hk htop => ?_⟩
  all_goals by_cases hqp : q = p
  · rw [hqp, setSz_procs_self]
    exact (hback.procs p).used
  · rw [setSz_procs_of_ne _ _ hqp]
    exact (hback.procs q).used
  · rw [hqp, setSz_procs_self]
    exact (hback.procs p).pagetable
  · rw [setSz_procs_of_ne _ _ hqp]
    exact (hback.procs q).pagetable
  · rw [hqp, setSz_procs_self]
    exact (hback.procs p).trapframe
  · rw [setSz_procs_of_ne _ _ hqp]
    exact (hback.procs q).trapframe
  · rw [hqp, setSz_procs_self]
    exact hres.le
  · rw [setSz_procs_of_ne _ _ hqp, (hback.procs q).sz]
    exact hs.sz q
  · rw [hqp, hused] at hq
    cases hq
  · rw [setSz_procs_of_ne _ _ hqp]
    exact (hback.procs q).sz
  · rw [hqp, setSz_procs_self] at hk
    rw [hqp, hp.pagetable]
    by_cases hkey : UserKey k
    · exact habs k hkey hk
    · have h0 := hs.absent p k (hqp ▸ hq) (hp.sz.trans (not_lt.mp hkey)) htop
      rw [hp.pagetable] at h0
      exact (hback.leaf_eq hp.root (fun hx => hkey hx.2)
        (by rw [h0]; exact not_valid_zero)).trans h0
  · rw [setSz_procs_of_ne _ _ hqp, (hback.procs q).sz] at hk
    have h0 := hs.absent q k hq hk htop
    refine (hback.leaf_eq (h.procTable.root q hq) (fun hx => hqp ?_)
      (by rw [h0]; exact not_valid_zero)).trans h0
    exact h.procTable.inj q p hq (hx.1.trans hp.pagetable.symm)

end

/-! ### Resident pages -/

/-- Every resident page of user memory is in the frame table, as far as that reaches. -/
def Resident (s : Kernel) : Prop :=
  ∀ p k, (s.procs p).pagetable ≠ 0 → UserKey k → Tracked s (s.procs p).pagetable k

section

variable {N : ℕ → ℕ → Prop} {g g' : Ghost} {s' : Kernel}

theorem Background.resident {X Z T : ℕ → Key → Prop} (hb : Background X Z T Y g g' s s')
    (h : Inv N g s) (hr : Resident s) (hT : ∀ r k, ¬ T r k) : Resident s' := fun p k hpt hk => by
  rw [hb.pagetable p] at hpt ⊢
  exact hb.tracked _ k (h.procTable.root p hpt) hk (hT _ _) (hr p k hpt hk)

/-- Other fields of processes do not matter. -/
theorem Resident.setProc {q : Proc} (hr : Resident s) (hpt : q.pagetable = (s.procs p).pagetable) :
    Resident (s.setProc p q) := fun p' k hp' hk => by
  have hsame : ((s.setProc p q).procs p').pagetable = (s.procs p').pagetable :=
    pagetable_setProc rfl fun he => hpt.trans he
  rw [hsame] at hp' ⊢
  refine (hr p' k hp' hk).step (Evolves.refl _) (fun _ _ => FrameKept.refl _) fun p'' hp'' => ?_
  exact pagetable_setProc hp'' fun he => hpt.trans he

/-- A process appears with an empty address space, or goes with its own. -/
theorem Keeps.resident (hk : Keeps R g g' s s') (h : Inv N g s) (hr : Resident s)
    (hothers : ∀ q, q ≠ p → SameProc (s.procs q) (s'.procs q))
    (hR : ∀ q, q ≠ p → (s.procs q).pagetable ≠ 0 → ¬ R (s.procs q).pagetable)
    (hself : (s'.procs p).pagetable ≠ 0 → ∀ k, UserKey k →
      leaf s'.mem (s'.procs p).pagetable k = 0#64) : Resident s' := fun q k hq hkey => by
  by_cases hqp : q = p
  · subst hqp
    exact tracked_of_zero (hself hq k hkey)
  · rw [(hothers q hqp).pagetable] at hq ⊢
    exact hk.tracked _ k (h.procTable.root q hq) (hR q hqp hq) hkey (hr q k hq hkey)

/-- The address space of a new process is empty. -/
theorem Spawned.empty (hsp : Spawned N g g' s s' p) (k : Key) (hk : UserKey k) :
    leaf s'.mem (s'.procs p).pagetable k = 0#64 :=
  hsp.settled.absent p k (hsp.settled.used p hsp.used) (by rw [hsp.sz]; exact Nat.zero_le _)
    (not_topPage hk)

theorem Spawned.resident (hsp : Spawned N g g' s s' p) (h : Inv N g s) (hr : Resident s) :
    Resident s' :=
  hsp.keeps.resident h hr hsp.others (fun _ _ _ => id) fun _ => hsp.empty

end

/-! ### Boot -/

/-- The ghost maps at boot: every page is on the free list or belongs to the kernel. -/
def bootGhost (s : Kernel) : Ghost where
  own a := if a ∈ s.freelist then .free else .reserved
  slot _ := none
  owned := True

theorem mem_freerangePages {paStart paEnd a : ℕ} (h : a ∈ freerangePages paStart paEnd) :
    ∃ j < (paEnd - pgroundup paStart) / pgsize, a = pgroundup paStart + j * pgsize := by
  obtain ⟨j, hj, rfl⟩ := List.mem_map.mp h
  exact ⟨j, List.mem_range.mp hj, rfl⟩

theorem nodup_freerangePages (paStart paEnd : ℕ) : (freerangePages paStart paEnd).Nodup := by
  refine List.Nodup.map (fun i j hij => ?_) List.nodup_range
  simp only [pgsize_eq] at hij
  omega

/-- With nothing but a free list of pages that `kfree` accepts, a state is coherent. -/
theorem coherent_of_freelist {kend trampolinePa : ℕ} {l : List ℕ} (hlo : kernbase ≤ kend)
    (hnodup : l.Nodup) (hman : ∀ a ∈ l, Managed kend a) :
    Coherent { bootState kend trampolinePa with freelist := l } := by
  obtain ⟨s, hs⟩ : ∃ s, { bootState kend trampolinePa with freelist := l } = s := ⟨_, rfl⟩
  have hfree : ∀ a, a ∈ s.freelist ↔ (bootGhost s).own a = .free := fun a => by
    simp only [bootGhost]
    split <;> simp [*]
  have hown : ∀ a, (bootGhost s).own a = .free ∨ (bootGhost s).own a = .reserved := fun a => by
    simp only [bootGhost]
    split <;> simp
  have hno : ∀ {a : ℕ} {u : Use}, (bootGhost s).own a = u → u ≠ .free → u ≠ .reserved → False :=
    fun {a u} ha h1 h2 => (hown a).elim (fun h => h1 (ha.symm.trans h))
      fun h => h2 (ha.symm.trans h)
  have hroot : ∀ {r : ℕ}, (bootGhost s).own r ≠ .root := fun hr => hno hr (by simp) (by simp)
  have hproc : ∀ p, s.procs p = ⟨false, false, 0, 0, 0, 0, 0, 0, 0, 0, 0, 0⟩ := fun p => by
    rw [← hs]
    rfl
  rw [hs]
  refine ⟨bootGhost s, trivial, ⟨⟨by rw [← hs]; exact hlo,
    ⟨fun a ha => ?_, fun r hr => absurd hr hroot,
    fun a r i ha => (hno ha (by simp) (by simp)).elim,
    fun a r i ha => (hno ha (by simp) (by simp)).elim,
    fun b r i j hb => (hno hb (by simp) (by simp)).elim⟩, fun a ha => ?_,
    by rw [← hs]; exact hnodup, hfree⟩,
    ⟨fun r k hr => absurd hr hroot, fun r k hr => absurd hr hroot,
    fun r k hr => absurd hr hroot, fun a r k ha => (hno ha (by simp) (by simp)).elim,
    fun r k hr => absurd hr hroot, fun _ r k hr => absurd hr hroot, by simp [bootGhost],
    fun _ _ => by rw [← hs]; rfl⟩,
    ⟨by rw [← hs]; simp [bootState], by rw [← hs]; simp [bootState]⟩,
    ⟨fun p hp => ?_, fun p q hp => ?_, fun p hp => ?_⟩⟩, ⟨fun r hr => absurd hr hroot, fun p => ?_,
    fun p k hp => ?_, fun p _ => ?_, fun p hp => ?_⟩⟩
  · rcases hown a with h | h <;> rw [h] at ha <;> cases ha
  · have hmem := (hfree a).mpr ((hown a).resolve_right ha)
    rw [← hs] at hmem ⊢
    exact hman a hmem
  all_goals rw [hproc p] at *
  · exact absurd rfl hp
  · exact absurd rfl hp
  · exact absurd rfl hp
  · exact Nat.zero_le _
  · exact absurd rfl hp
  · exact ⟨rfl, rfl, rfl⟩
  · cases hp

/-- **The state that `kinit` leaves is coherent**, wherever the kernel ends, as long as the memory
it hands out exists. -/
theorem coherent_boot {kend : ℕ} (trampolinePa : ℕ) (hlo : kernbase ≤ kend)
    (hhi : kend + nframe * pgsize ≤ phystop) : Coherent (bootState kend trampolinePa) := by
  refine coherent_of_freelist hlo (List.nodup_reverse.mpr (nodup_freerangePages _ _)) fun a ha => ?_
  obtain ⟨j, hj, rfl⟩ := mem_freerangePages (List.mem_reverse.mp ha)
  have hup : pgroundup kend = (kend + 4095) / 4096 * 4096 := by
    simp only [phystop_eq, nframe_eq, pgsize_eq] at hhi
    simp only [pgroundup, pgsize_eq]
    omega
  simp only [Managed]
  simp only [phystop_eq, nframe_eq, pgsize_eq] at *
  omega

end Mem

end Xv6
