import Xv6.Mem.Grow

/-!
# Creating a process

`allocproc` takes an unused entry of the process table and gives it a trap frame and a page table
in which only the two pages above user memory are mapped.

`Settled` is what holds between kernel operations and not in the middle of one: every page table
belongs to a process, nothing is mapped above the size of a process, and an unused entry of the
process table holds nothing.
-/

namespace Xv6

namespace Mem

open WeakestPre

variable {R' Y : ℕ → Prop} {g : Ghost} {p r : ℕ} {q : Proc} {s : Kernel}

variable {N : ℕ → ℕ → Prop} {alloc : M ℕ}

/-! ### Between operations -/

/-- The page is one of the two above user memory, the trampoline or the trap frame. -/
def TopPage (k : Key) : Prop := k.addr = trampoline ∨ k.addr = trapframe

/-- What holds between operations. -/
structure Settled (g : Ghost) (s : Kernel) : Prop where
  owner : ∀ r, g.own r = .root → ∃ p, (s.procs p).pagetable = r
  sz : ∀ p, (s.procs p).sz ≤ trapframe
  absent : ∀ p k, (s.procs p).pagetable ≠ 0 → (s.procs p).sz ≤ k.addr → ¬ TopPage k →
    leaf s.mem (s.procs p).pagetable k = 0#64
  unused : ∀ p, (s.procs p).used = false →
    (s.procs p).pagetable = 0 ∧ (s.procs p).trapframe = 0 ∧ (s.procs p).sz = 0
  used : ∀ p, (s.procs p).used = true → (s.procs p).pagetable ≠ 0

/-- What happens to the address spaces other than `R`, which are worked on. -/
structure Keeps (R : ℕ → Prop) (g g' : Ghost) (s s' : Kernel) : Prop where
  owned : g'.owned = g.owned
  root : ∀ r, g.own r = .root → ¬ R r → g'.own r = .root
  entry : ∀ r k, g.own r = .root → ¬ R r → Evolves (leaf s.mem r k) (leaf s'.mem r k)
  logical : g.owned → ∀ r k, g.own r = .root → ¬ R r → UserKey k →
    logicalPage s' r k = logicalPage s r k
  tracked : ∀ r k, g.own r = .root → ¬ R r → UserKey k → Tracked s r k → Tracked s' r k

section

variable {R : ℕ → Prop} {g₁ g₂ : Ghost} {s₁ s₂ : Kernel}

theorem Keeps.refl (R : ℕ → Prop) (g : Ghost) (s : Kernel) : Keeps R g g s s :=
  ⟨rfl, fun _ hr _ => hr, fun _ _ _ _ => Evolves.refl _, fun _ _ _ _ _ _ => rfl,
    fun _ _ _ _ _ ht => ht⟩

theorem Keeps.trans (h : Keeps R g g₁ s s₁) (h' : Keeps R g₁ g₂ s₁ s₂) : Keeps R g g₂ s s₂ where
  owned := h'.owned.trans h.owned
  root r hr hR := h'.root r (h.root r hr hR) hR
  entry r k hr hR := (h.entry r k hr hR).trans (h'.entry r k (h.root r hr hR) hR)
  logical ho r k hr hR hk := (h'.logical (h.owned ▸ ho) r k (h.root r hr hR) hR hk).trans
    (h.logical ho r k hr hR hk)
  tracked r k hr hR hk ht := h'.tracked r k (h.root r hr hR) hR hk (h.tracked r k hr hR hk ht)

theorem Keeps.mono (h : Keeps R g g₁ s s₁) (hR : ∀ r, R r → R' r) : Keeps R' g g₁ s s₁ :=
  ⟨h.owned, fun r hr hn => h.root r hr fun hr' => hn (hR r hr'),
    fun r k hr hn => h.entry r k hr fun hr' => hn (hR r hr'),
    fun ho r k hr hn => h.logical ho r k hr fun hr' => hn (hR r hr'),
    fun r k hr hn => h.tracked r k hr fun hr' => hn (hR r hr')⟩

/-- Work on other address spaces. -/
theorem Keeps.background (h : Keeps R g g₁ s s₁) {X Z : ℕ → Key → Prop}
    (hb : Background X Z NoEntry Y g₁ g₂ s₁ s₂) (hX : ∀ r k, g.own r = .root → ¬ R r → ¬ X r k)
    (hZ : ∀ r k, g.own r = .root → ¬ R r → ¬ Z r k) : Keeps R g g₂ s s₂ where
  owned := hb.owned.trans h.owned
  root r hr hR := hb.own_root (h.root r hr hR)
  entry r k hr hR := (h.entry r k hr hR).trans (hb.entry r k (h.root r hr hR) (hX r k hr hR))
  logical ho r k hr hR hk :=
    (hb.logical (h.owned ▸ ho) r k (h.root r hr hR) hk (hZ r k hr hR)).trans
      (h.logical ho r k hr hR hk)
  tracked r k hr hR hk ht := hb.tracked r k (h.root r hr hR) hk id (h.tracked r k hr hR hk ht)

/-- The same memory, slots and frames are kept by any change of uses and of the process table that
keeps the roots and their owners. -/
theorem Keeps.of_mem (h : Keeps R g g₁ s s₁) (howned : g₂.owned = g₁.owned)
    (hroot : ∀ r, ¬ R r → g₁.own r = .root → g₂.own r = .root)
    (hmem : s₂.mem = s₁.mem) (hstore : s₂.swapStore = s₁.swapStore)
    (hframes : s₂.frames = s₁.frames)
    (hprocs : ∀ r p, ¬ R r → g₁.own r = .root → (s₁.procs p).pagetable = r →
      (s₂.procs p).pagetable = r) : Keeps R g g₂ s s₂ where
  owned := howned.trans h.owned
  root r hr hR := hroot r hR (h.root r hr hR)
  entry r k hr hR := by
    rw [hmem]
    exact h.entry r k hr hR
  logical ho r k hr hR hk := by
    rw [← h.logical ho r k hr hR hk]
    simp only [logicalPage, hmem, hstore]
  tracked r k hr hR hk ht := by
    refine (h.tracked r k hr hR hk ht).step (by rw [hmem]; exact Evolves.refl _)
      (fun _ _ => by rw [hframes]; exact FrameKept.refl _) fun p hp => ?_
    exact hprocs r p hR (h.root r hr hR) hp

theorem Keeps.leaf_eq_zero (h : Keeps R g g₁ s s₁) {k : Key} (hr : g.own r = .root) (hR : ¬ R r)
    (h0 : leaf s.mem r k = 0#64) : leaf s₁.mem r k = 0#64 := by
  rw [(h.entry r k hr hR).eq_of_not_valid (by rw [h0]; exact not_valid_zero), h0]

end

/-! ### The process table -/

/-- An entry of the process table is replaced. -/
def Kernel.setProc (p : ℕ) (q : Proc) (s : Kernel) : Kernel :=
  { s with procs := Function.update s.procs p q }

theorem modProc_some (s : Kernel) (p : ℕ) (f : Proc → Proc) :
    s.modProc (some p) f = s.setProc p (f (s.procs p)) := rfl

@[simp] theorem setProc_self (s : Kernel) (p : ℕ) (q : Proc) : (s.setProc p q).procs p = q :=
  Function.update_self _ _ _

theorem setProc_of_ne (s : Kernel) {p' : ℕ} (q : Proc) (h : p' ≠ p) :
    (s.setProc p q).procs p' = s.procs p' := Function.update_of_ne h _ _

/-- The other processes keep their tables, and so does this one unless it had another. -/
theorem pagetable_setProc {p' : ℕ} (hp : (s.procs p').pagetable = r)
    (hq : (s.procs p).pagetable = r → q.pagetable = r) :
    ((s.setProc p q).procs p').pagetable = r := by
  by_cases h : p' = p
  · subst h
    rw [setProc_self]
    exact hq hp
  · rwa [setProc_of_ne s q h]

section

/-- Changes of a process that keep its page table and its trap frame. -/
theorem Inv.setProc (h : Inv N g s) (hpt : q.pagetable = (s.procs p).pagetable)
    (htf : q.trapframe = (s.procs p).trapframe) : Inv N g (s.setProc p q) := by
  refine h.frame (fun _ _ => rfl) rfl rfl rfl (FramesShrink.refl s) h.frameTable.hand fun p' => ?_
  by_cases hp : p' = p
  · subst hp
    rw [setProc_self]
    exact ⟨hpt, htf⟩
  · rw [setProc_of_ne s q hp]
    exact ⟨rfl, rfl⟩

/-- A page in the hands of the kernel becomes the trap frame of a process that has none. -/
theorem Inv.setTrapframe (h : Inv N g s) {a : ℕ} (ha : g.own a = .reserved)
    (hman : Managed s.kend a) (hpt : q.pagetable = (s.procs p).pagetable) (htf : q.trapframe = a) :
    Inv N (g.setOwn a (.trapframe p)) (s.setProc p q) := by
  refine h.retype (by rw [ha]; rfl) rfl hman (fun _ _ => rfl) rfl rfl (FramesShrink.refl s)
    h.frameTable.hand (fun p' => ?_) (fun p' hp' => ?_) h.layout.nodup fun b => ?_
  · by_cases hp : p' = p
    · subst hp
      rw [setProc_self, hpt]
    · rw [setProc_of_ne s q hp]
  · by_cases hp : p' = p
    · subst hp
      rw [setProc_self, htf, Ghost.setOwn_self]
    · rw [setProc_of_ne s q hp] at hp' ⊢
      have hown := h.procTable.trapframe p' hp'
      rw [Ghost.setOwn_of_ne _ (ne_of_own hown ha (by simp)), hown]
  · by_cases hb : b = a
    · subst hb
      rw [Ghost.setOwn_self]
      refine (h.layout.free b).trans ?_
      rw [ha]
      simp
    · rw [Ghost.setOwn_of_ne _ hb]
      exact h.layout.free b

/-- **A process gets another page table**, one that no process has, or none. The pages of its old
one stay tracked as long as that is its second table. -/
theorem Inv.setPagetable {N' : ℕ → ℕ → Prop} (h : Inv N g s) (hr : q.pagetable ≠ 0 →
      g.own q.pagetable = .root ∧ ∀ p', (s.procs p').pagetable ≠ q.pagetable)
    (hold : ∀ a r k, g.own a = .user r k → (s.procs p).pagetable = r → N' p r)
    (hN : ∀ p' r, N p' r → N' p' r ∨ (p' = p ∧ q.pagetable = r))
    (htf : q.trapframe = (s.procs p).trapframe) : Inv N' g (s.setProc p q) := by
  have hcase : ∀ p', (p' = p ∧ ((s.setProc p q).procs p').pagetable = q.pagetable) ∨
      (p' ≠ p ∧ ((s.setProc p q).procs p').pagetable = (s.procs p').pagetable) := fun p' => by
    by_cases hp : p' = p
    · subst hp
      exact Or.inl ⟨rfl, by rw [setProc_self]⟩
    · exact Or.inr ⟨hp, by rw [setProc_of_ne s q hp]⟩
  refine ⟨⟨h.layout.kend, h.layout.tables, h.layout.managed, h.layout.nodup, h.layout.free⟩,
    h.entries, ⟨h.frameTable.hand, fun i hi => ?_⟩, ⟨fun p' hp' => ?_, fun p' p'' hp' he => ?_,
    fun p' hp' => ?_⟩⟩
  · obtain ⟨p', r, hpi, hlt, hva, ht, ho⟩ := h.frameTable.tracked i hi
    refine ⟨p', r, hpi, hlt, hva, ?_, ho⟩
    rcases ht with ht | ht
    · rcases hcase p' with ⟨rfl, -⟩ | ⟨-, he⟩
      · exact Or.inr (hold _ r _ ho ht)
      · exact Or.inl (he.trans ht)
    · rcases hN p' r ht with ht | ⟨rfl, he⟩
      · exact Or.inr ht
      · exact Or.inl (by rw [setProc_self]; exact he)
  · rcases hcase p' with ⟨-, he⟩ | ⟨-, he⟩
    · rw [he] at hp' ⊢
      exact (hr hp').1
    · rw [he] at hp' ⊢
      exact h.procTable.root p' hp'
  · rcases hcase p' with ⟨h1, h1'⟩ | ⟨h1, h1'⟩ <;> rcases hcase p'' with ⟨h2, h2'⟩ | ⟨h2, h2'⟩ <;>
      rw [h1'] at hp' he <;> rw [h2'] at he
    · rw [h1, h2]
    · exact absurd he.symm ((hr hp').2 p'')
    · exact absurd he ((hr (he ▸ hp')).2 p')
    · exact h.procTable.inj p' p'' hp' he
  · by_cases hp : p' = p
    · subst hp
      rw [setProc_self, htf] at hp' ⊢
      exact h.procTable.trapframe p' hp'
    · rw [setProc_of_ne s q hp] at hp' ⊢
      exact h.procTable.trapframe p' hp'

end

/-! ### An empty page table -/

theorem addr_trampoline : (vkey trampoline).addr = trampoline := by
  rw [addr_vkey (by simp)]
  rfl

theorem addr_trapframe : (vkey trapframe).addr = trapframe := by
  rw [addr_vkey (by simp)]
  rfl

theorem not_userKey_trampoline : ¬ UserKey (vkey trampoline) := by
  rw [UserKey, addr_trampoline]
  simp

theorem not_userKey_trapframe : ¬ UserKey (vkey trapframe) := by
  rw [UserKey, addr_trapframe]
  simp

/-- **`mappages`** of a page above user memory. -/
theorem mappagesTop_spec (halloc : Allocates N alloc) (h : Inv N g s) {va pa : ℕ} {perm : Pte}
    (hr : g.own r = .root) (hva : va < maxva) (hal : va % 4096 = 0) (hk : ¬ UserKey (vkey va))
    (h8 : perm.getLsbD 8 = false) (h4 : perm.getLsbD 4 = false)
    (h0 : leaf s.mem r (vkey va) = 0#64) :
    wp (mappages alloc r va pgsize pa perm) (fun ret s' => ret = 0 ∧ ∃ g', Inv N g' s' ∧
      Background (EntryAt r (vkey va)) NoEntry NoEntry NoPage g g' s s' ∧
      Valid (leaf s'.mem r (vkey va))) (Exhausted N) s := by
  refine mappages_write_spec halloc h hr hva hal h0 fun g₁ s₁ b h₁ hback hb _ => ⟨rfl, ?_⟩
  have htop : TopEntry (mapPte pa perm) := Or.inr ⟨valid_mapPte pa perm,
    by rw [getLsbD_mapPte (by omega) (by omega), h8], by rw [getLsbD_mapPte (by omega) (by omega),
      h4]⟩
  obtain ⟨h₂, hback₂, hleaf⟩ := h₁.writeTop hk hb htop
  exact ⟨g₁, h₂, hback.weaken.seq hback₂, by rw [hleaf]; exact valid_mapPte pa perm⟩

/-- What `proc_pagetable` gives: a new root with nothing mapped below the two top pages. -/
structure NewTable (N : ℕ → ℕ → Prop) (g g' : Ghost) (s s' : Kernel) (r : ℕ) : Prop where
  inv : Inv N g' s'
  keeps : Keeps NoPage g g' s s'
  fresh : g.own r ≠ .root
  root : ∀ r', g'.own r' = .root ↔ g.own r' = .root ∨ r' = r
  absent : ∀ k, ¬ TopPage k → leaf s'.mem r k = 0#64
  procs : ∀ p, SameProc (s.procs p) (s'.procs p)
  myproc : s'.myproc = s.myproc

/-- A page of zeros just allocated as a root. -/
theorem Allocated.newTable {g₁ : Ghost} {s₁ : Kernel} (ha : Allocated N g g₁ s s₁ r) :
    NewTable N g (g₁.setOwn r .root) s (s₁.setPage r Page.zero) r := by
  have hback := Background.setPage ha.inv ha.reserved Page.zero
  have hzero : (s₁.setPage r Page.zero).mem r = Page.zero := Function.update_self _ _ _
  have hman : Managed (s₁.setPage r Page.zero).kend r := ha.background.kend ▸ ha.managed
  have hnr : g.own r ≠ .root := fun hr => by
    have := ha.background.own_root hr
    rw [ha.reserved] at this
    cases this
  have hne : ∀ {r' : ℕ}, g₁.own r' = .root → r' ≠ r := fun hr' =>
    ne_of_own hr' ha.reserved (by simp)
  refine ⟨(ha.inv.setPage ha.reserved _).addRoot ha.reserved hman hzero, ?_, hnr, fun r' => ?_,
    fun k _ => leaf_of_zero_root hzero k, fun p => (ha.background.procs p).trans (hback.procs p),
    ha.background.myproc⟩
  · refine (((Keeps.refl _ g s).background ha.background (fun _ _ _ _ => id)
      fun _ _ _ _ => id).background hback (fun _ _ _ _ => id) fun _ _ _ _ => id).of_mem rfl
      (fun r' _ hr' => ?_) rfl rfl rfl fun _ _ _ _ hp => hp
    rw [Ghost.setOwn_of_ne _ (hne hr')]
    exact hr'
  · by_cases hr' : r' = r
    · subst hr'
      simp
    · rw [Ghost.setOwn_of_ne _ hr']
      constructor
      · exact fun hr => Or.inl (ha.background.root r' hr)
      · rintro (hr | rfl)
        · exact ha.background.own_root hr
        · exact absurd rfl hr'

/-- Mapping a top page of a new table. -/
theorem NewTable.background {g₁ g₂ : Ghost} {s₁ s₂ : Kernel} {k : Key} (hn : NewTable N g g₁ s s₁ r)
    (hk : TopPage k) (h₂ : Inv N g₂ s₂)
    (hb : Background (EntryAt r k) NoEntry NoEntry NoPage g₁ g₂ s₁ s₂) :
    NewTable N g g₂ s s₂ r := by
  have hr : g₁.own r = .root := (hn.root r).mpr (Or.inr rfl)
  refine ⟨h₂, hn.keeps.background hb (fun r' _ hr' _ he => hn.fresh (he.1 ▸ hr'))
    fun _ _ _ _ => id,
    hn.fresh, fun r' => ⟨fun h => (hn.root r').mp (hb.root r' h), fun h => ?_⟩, fun k' hk' => ?_,
    fun p => (hn.procs p).trans (hb.procs p), hb.myproc.trans hn.myproc⟩
  · exact hb.own_root ((hn.root r').mpr h)
  · have h0 := hn.absent k' hk'
    have hne : ¬ EntryAt r k r k' := fun he => hk' (by rw [he.2]; exact hk)
    rw [hb.leaf_eq hr hne (by rw [h0]; exact not_valid_zero), h0]

/-- **`proc_pagetable`** -/
theorem procPagetable_spec (halloc : Allocates N alloc) (h : Inv N g s) (p : ℕ) :
    wp (procPagetable alloc p) (fun r s' => r ≠ 0 ∧ Valid (leaf s'.mem r (vkey trapframe)) ∧
      ∃ g', NewTable N g g' s s' r) (Exhausted N) s := by
  rw [procPagetable, uvmcreate]
  simp only [wp_bind]
  refine wp_imp (halloc h) fun r s₁ ha => ?_
  obtain ⟨g₁, ha⟩ := ha
  have hr0 := ha.ne_zero h
  simp only [if_neg hr0, wp_bind, wp_modify, wp_pure, wp_get]
  have hn := ha.newTable
  have hroot : ∀ {g' : Ghost} {s' : Kernel}, NewTable N g g' s s' r → g'.own r = .root := fun hn =>
    (hn.root r).mpr (Or.inr rfl)
  have hzero : ∀ k, leaf (s₁.setPage r Page.zero).mem r k = 0#64 :=
    leaf_of_zero_root (Function.update_self _ _ _)
  refine wp_imp (mappagesTop_spec halloc hn.inv (hroot hn) (by simp) (by simp)
    not_userKey_trampoline
    (by decide) (by decide) (hzero _)) fun ret s₂ hm => ?_
  obtain ⟨rfl, g₂, h₂, hback, -⟩ := hm
  have hn₂ := hn.background (Or.inl addr_trampoline) h₂ hback
  have hne : ¬ EntryAt r (vkey trampoline) r (vkey trapframe) := fun he => by
    have := congrArg Key.addr he.2
    rw [addr_trampoline, addr_trapframe] at this
    simp at this
  have h0 : leaf s₂.mem r (vkey trapframe) = 0#64 := by
    rw [hback.leaf_eq (hroot hn) hne (by rw [hzero]; exact not_valid_zero), hzero]
  rw [if_neg (by simp), wp_bind, wp_get, wp_bind]
  refine wp_imp (mappagesTop_spec halloc hn₂.inv (hroot hn₂) (by simp) (by simp)
    not_userKey_trapframe
    (by decide) (by decide) h0) fun ret s₃ hm => ?_
  obtain ⟨rfl, g₃, h₃, hback₃, hv⟩ := hm
  rw [if_neg (by simp), wp_pure]
  exact ⟨hr0, hv, g₃, hn₂.background (Or.inr addr_trapframe) h₃ hback₃⟩

/-! ### A new process -/

/-- What `allocproc` gives. -/
structure Spawned (N : ℕ → ℕ → Prop) (g g' : Ghost) (s s' : Kernel) (p : ℕ) : Prop where
  inv : Inv N g' s'
  settled : Settled g' s'
  keeps : Keeps NoPage g g' s s'
  unused : (s.procs p).used = false
  used : (s'.procs p).used = true
  killed : (s'.procs p).killed = (s.procs p).killed
  sz : (s'.procs p).sz = 0
  fresh : g.own (s'.procs p).pagetable ≠ .root
  others : ∀ q, q ≠ p → SameProc (s.procs q) (s'.procs q)
  myproc : s'.myproc = s.myproc

/-- **One process changes**, and the state is settled again. -/
theorem Settled.change {g' : Ghost} {s' : Kernel} (hs : Settled g s)
    (hothers : ∀ q, q ≠ p → SameProc (s.procs q) (s'.procs q)) (howner : ∀ x, g'.own x = .root →
      (s'.procs p).pagetable = x ∨ g.own x = .root ∧ (s.procs p).pagetable ≠ x)
    (hleaf : ∀ q k, q ≠ p → (s.procs q).pagetable ≠ 0 →
      leaf s.mem (s.procs q).pagetable k = 0#64 → leaf s'.mem (s.procs q).pagetable k = 0#64)
    (hsz : (s'.procs p).sz ≤ trapframe)
    (habs : ∀ k, (s'.procs p).pagetable ≠ 0 → (s'.procs p).sz ≤ k.addr → ¬ TopPage k →
      leaf s'.mem (s'.procs p).pagetable k = 0#64) (hunused : (s'.procs p).used = false →
      (s'.procs p).pagetable = 0 ∧ (s'.procs p).trapframe = 0 ∧ (s'.procs p).sz = 0)
    (hused : (s'.procs p).used = true → (s'.procs p).pagetable ≠ 0) : Settled g' s' := by
  refine ⟨fun x hx => ?_, fun q => ?_, fun q k hq hk htop => ?_, fun q hq => ?_, fun q hq => ?_⟩
  · rcases howner x hx with hp | ⟨hold, hne⟩
    · exact ⟨p, hp⟩
    · obtain ⟨q, hq⟩ := hs.owner x hold
      exact ⟨q, (hothers q fun hqp => hne (hqp ▸ hq)).pagetable.trans hq⟩
  all_goals
    by_cases hqp : q = p
    on_goal 1 => subst hqp
  · exact hsz
  · rw [(hothers q hqp).sz]
    exact hs.sz q
  · exact habs k hq hk htop
  · rw [(hothers q hqp).pagetable] at hq ⊢
    rw [(hothers q hqp).sz] at hk
    exact hleaf q k hqp hq (hs.absent q k hq hk htop)
  · exact hunused hq
  · rw [(hothers q hqp).used] at hq
    rw [(hothers q hqp).pagetable, (hothers q hqp).trapframe, (hothers q hqp).sz]
    exact hs.unused q hq
  · exact hused hq
  · rw [(hothers q hqp).used] at hq
    rw [(hothers q hqp).pagetable]
    exact hs.used q hq

/-- The new process has its table, and the state is settled again. -/
theorem Settled.spawn {g' : Ghost} {s' : Kernel} (hs : Settled g s) (h : Inv N g s)
    (hunused : (s.procs p).used = false) (hkeeps : Keeps NoPage g g' s s')
    (hroot : ∀ r', g'.own r' = .root → g.own r' = .root ∨ r' = r) (hr : r ≠ 0)
    (habs : ∀ k, ¬ TopPage k → leaf s'.mem r k = 0#64) (hpt : (s'.procs p).pagetable = r)
    (hsz : (s'.procs p).sz = 0) (hused : (s'.procs p).used = true)
    (hothers : ∀ q, q ≠ p → SameProc (s.procs q) (s'.procs q)) : Settled g' s' := by
  subst hpt
  refine hs.change hothers (fun x hx => ?_)
    (fun q k _ hq => hkeeps.leaf_eq_zero (h.procTable.root q hq) id) (by simp [hsz])
    (fun k _ _ => habs k) (by simp [hused]) fun _ => hr
  refine (hroot x hx).symm.imp Eq.symm fun hold => ⟨hold, fun he => ?_⟩
  exact h.root_ne_zero hold (he.symm.trans (hs.unused p hunused).1)

theorem unusedProc_eq_some (h : unusedProc s = some p) : (s.procs p).used = false := by
  simpa using List.find?_some h

/-- **`allocproc`** -/
theorem allocproc_spec (halloc : Allocates N alloc) (h : Inv N g s) (hs : Settled g s) :
    wp (allocproc alloc) (fun o s' =>
      match o with
      | none => s' = s
      | some p => ∃ g', Spawned N g g' s s' p) (Exhausted N) s := by
  rw [allocproc, wp_bind, wp_get]
  cases hun : unusedProc s with
  | none => exact rfl
  | some p =>
    have hunused := unusedProc_eq_some hun
    obtain ⟨hpt0, -, hsz0⟩ := hs.unused p hunused
    simp only [wp_bind, wp_modify, modProc_some]
    -- the entry is taken
    generalize hq₀ : ({ s.procs p with
        used := true
        pageFaults := 0
        pagesEvicted := 0
        pagesSwappedIn := 0
        pagesSwappedOut := 0
        residentPages := 0
        diskReads := 0
        diskWrites := 0 } : Proc) = q₀
    have h₀ : Inv N g (s.setProc p q₀) := h.setProc (by rw [← hq₀]) (by rw [← hq₀])
    refine wp_imp (halloc h₀) fun tf s₁ ha => ?_
    obtain ⟨g₁, ha⟩ := ha
    have hp₁ := ha.background.procs p
    rw [setProc_self] at hp₁
    rw [wp_bind, wp_modify, modProc_some, if_neg (ha.ne_zero h₀), wp_bind]
    -- it gets its trap frame
    have h₂ := ha.inv.setTrapframe (p := p) (q := { s₁.procs p with trapframe := tf }) ha.reserved
      (ha.background.kend ▸ ha.managed) rfl rfl
    have hroot₂ : ∀ r, (g₁.setOwn tf (.trapframe p)).own r = .root ↔ g₁.own r = .root := fun r => by
      by_cases hr : r = tf
      · rw [hr, Ghost.setOwn_self, ha.reserved]
        simp
      · rw [Ghost.setOwn_of_ne _ hr]
    have hkeeps₀ : Keeps NoPage g g s (s.setProc p q₀) :=
      (Keeps.refl _ g s).of_mem rfl (fun _ _ h => h) rfl rfl rfl fun r p' _ _ hp' =>
        pagetable_setProc hp' fun hp => by rw [← hq₀]; exact hp
    have hkeeps₁ := hkeeps₀.background ha.background (fun _ _ _ _ => id) fun _ _ _ _ => id
    have hkeeps₂ : Keeps NoPage g (g₁.setOwn tf (.trapframe p)) s
        (s₁.setProc p { s₁.procs p with trapframe := tf }) :=
      hkeeps₁.of_mem rfl (fun r _ hr => (hroot₂ r).mpr hr) rfl rfl rfl
        fun r p' _ _ hp' => pagetable_setProc hp' fun hp => hp
    refine wp_imp (procPagetable_spec halloc h₂ p) fun r s₃ hn => ?_
    obtain ⟨hr0, -, g₃, hn⟩ := hn
    have hp₃ := hn.procs p
    rw [setProc_self] at hp₃
    rw [wp_bind, wp_modify, modProc_some, if_neg hr0, wp_pure]
    -- and its page table
    have hnew : ∀ p', (s₃.procs p').pagetable ≠ r := fun p' he => by
      rw [(hn.procs p').pagetable] at he
      exact hn.fresh (he ▸ h₂.procTable.root p' (he ▸ hr0))
    have hold : (s₃.procs p).pagetable = 0 := by
      rw [hp₃.pagetable, hp₁.pagetable, ← hq₀, hpt0]
    have h₄ : Inv N g₃ (s₃.setProc p { s₃.procs p with pagetable := r }) :=
      hn.inv.setPagetable (fun _ => ⟨(hn.root r).mpr (Or.inr rfl), hnew⟩)
        (fun a r' k ha hp => absurd (hp.symm.trans hold) (hn.inv.root_ne_zero
          (hn.inv.entries.user a r' k ha).1)) (fun _ _ => Or.inl) rfl
    have hkeeps : Keeps NoPage g g₃ s (s₃.setProc p { s₃.procs p with pagetable := r }) :=
      (hkeeps₂.trans hn.keeps).of_mem rfl (fun _ _ h => h) rfl rfl rfl fun r' p' _ hr' hp' =>
        pagetable_setProc hp' fun hp => absurd (hp.symm.trans hold) (hn.inv.root_ne_zero hr')
    have hothers : ∀ q, q ≠ p → SameProc (s.procs q)
        ((s₃.setProc p { s₃.procs p with pagetable := r }).procs q) := fun q hq => by
      rw [setProc_of_ne _ _ hq]
      have h1 := ha.background.procs q
      have h3 := hn.procs q
      rw [setProc_of_ne _ _ hq] at h1 h3
      exact h1.trans h3
    have hused : ((s₃.setProc p { s₃.procs p with pagetable := r }).procs p).used = true := by
      rw [setProc_self]
      simp only [hp₃.used, hp₁.used, ← hq₀]
    have hsz : ((s₃.setProc p { s₃.procs p with pagetable := r }).procs p).sz = 0 := by
      rw [setProc_self]
      simp only [hp₃.sz, hp₁.sz, ← hq₀, hsz0]
    refine ⟨g₃, h₄, hs.spawn h hunused hkeeps (fun r' hr' => ?_) hr0 hn.absent
      (by rw [setProc_self]) hsz hused hothers, hkeeps, hunused, hused, ?_, hsz, ?_, hothers, ?_⟩
    · refine ((hn.root r').mp hr').imp_left fun hr => ?_
      exact ha.background.root r' ((hroot₂ r').mp hr)
    · rw [setProc_self]
      simp only [hp₃.killed, hp₁.killed, ← hq₀]
    · rw [setProc_self]
      exact fun hr => hn.fresh (hkeeps₂.root r hr id)
    · exact hn.myproc.trans ha.background.myproc

end Mem

end Xv6
