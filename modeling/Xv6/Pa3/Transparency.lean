import Xv6.Lib.Transition
import Xv6.Mem.Copy
import Xv6.Pa3.Resize

/-!
# What user code sees

Beside the kernel runs the memory that user code should see: what a process stored last at an
address, and zero where it has stored nothing since the page was unmapped (`System.stored`). Along
every run in which a slot is free whenever `vmfault` needs one, a load returns that byte
(`load_returns_stored`), except from a page that was evicted into slot `0`.

The exception is real. `vmfault` writes `slot << 10` to the entry of its victim, which for slot `0`
is the entry of a page that was never allocated; the next fault on the page maps a page of zeros,
and the slot is never freed. `swap_alloc` hands out slot `0` first, so this happens to the first
page evicted since boot (`load_counterexample`), and to no other one (`lost_once`).

Processes do not come or go in these runs, and the pages above `TRAPFRAME` are left out.
-/

namespace Xv6

namespace Pa3

open WeakestPre
open Transition
open Mem (Page Halt pteV has Managed)

/-! ### The system -/

/-- The kernel, and the memory that user code should see, by process and address. -/
structure System where
  kernel : Kernel
  stored : ℕ → ℕ → BitVec 8

/-- What a request does to the memory that user code should see. -/
def Act.effect (out : Out) (s s' : Kernel) (m : ℕ → ℕ → BitVec 8) : Act → ℕ → ℕ → BitVec 8
  | .store p va b =>
    if out = .done true then fun q u => if q = p ∧ u = va then b else m q u else m
  -- the pages between the new size and the old one are unmapped
  | .sbrk p _ _ => fun q u =>
    if q = p ∧ pgroundup (s'.procs p).sz ≤ u ∧ u < pgroundup (s.procs p).sz then 0#8 else m q u
  | .load _ _ => m
  | .setLevel _ _ => m
  | .alloc => m

/-- A request is served; `none` if the kernel panics. -/
def step (σ : System) (a : Act) : Option System :=
  match a.exec σ.kernel with
  | .ok out s' => some ⟨s', a.effect out σ.kernel s' σ.stored⟩
  | .error _ _ => none

/-- What a request returns; `none` if the kernel panics. -/
def result (s : Kernel) (a : Act) : Option Out :=
  match a.exec s with
  | .ok out _ => some out
  | .error _ _ => none

/-- A free slot is there if the request needs one. -/
def HasSlot (s : Kernel) : Act → Prop
  | .load p va => NeedsSlot s p va → SlotFree s
  | .store p va _ => NeedsSlot s p va → SlotFree s
  | .sbrk _ _ _ => True
  | .setLevel _ _ => True
  | .alloc => True

instance (s : Kernel) : Decidable (SlotFree s) :=
  decidable_of_iff (∃ n ∈ List.range maxSwap, s.swapUsed (n : ℕ) = false) (by simp [SlotFree])

instance (s : Kernel) (p va : ℕ) : Decidable (NeedsSlot s p va) := by
  unfold NeedsSlot
  infer_instance

instance (s : Kernel) (a : Act) : Decidable (HasSlot s a) := by
  cases a <;> unfold HasSlot <;> infer_instance

instance (s : Kernel) (p v : ℕ) : Decidable (Lost s p v) := by
  unfold Lost
  infer_instance

/-- Processes that have not touched any memory. -/
structure Started (σ : System) : Prop where
  kend : kernbase ≤ σ.kernel.kend
  nodup : σ.kernel.freelist.Nodup
  managed : ∀ a ∈ σ.kernel.freelist, Managed σ.kernel.kend a
  untouched : ∀ p v, σ.kernel.entry p v = 0#64
  frames : ∀ i, (σ.kernel.frameTable i).inUse = false
  userFrames : σ.kernel.userFrames = 0
  sz : ∀ p, (σ.kernel.procs p).sz ≤ trapframe
  evictions : σ.kernel.evictions = []
  stored : ∀ p va, σ.stored p va = 0#8

section

variable {place : ℕ → ℕ → Place} {f : ℕ → ℕ → Page} {m : ℕ → ℕ → BitVec 8} {s : Kernel} {p va : ℕ}
  {E : Halt → Kernel → Prop}

/-! ### Bytes and pages -/

/-- The bytes `m` are those of the pages `f`. -/
def Shows (f : ℕ → ℕ → Page) (m : ℕ → ℕ → BitVec 8) : Prop :=
  ∀ q u, m q u = (f q (u / pgsize)).getByte (u % pgsize)

theorem Shows.store (h : Shows f m) (p va : ℕ) (b : BitVec 8) :
    Shows (storeByte f p va b) fun q u => if q = p ∧ u = va then b else m q u := by
  intro q u
  have hmod : ∀ u, u % pgsize < 4096 := fun u => Nat.mod_lt u (by decide)
  beta_reduce
  rw [storeByte]
  by_cases hpage : q = p ∧ u / pgsize = va / pgsize
  · obtain ⟨rfl, hv⟩ := hpage
    rw [if_pos (show q = q ∧ u / pgsize = va / pgsize from ⟨rfl, hv⟩)]
    by_cases hu : u = va
    · subst hu
      rw [if_pos ⟨rfl, rfl⟩, Mem.Page.getByte_setByte_self]
    · have hoff : u % pgsize ≠ va % pgsize := fun he => hu (by
        rw [← Nat.div_add_mod u pgsize, ← Nat.div_add_mod va pgsize, hv, he])
      rw [if_neg (show ¬ (q = q ∧ u = va) from fun hu' => hu hu'.2),
        Mem.Page.getByte_setByte_of_ne _ b (hmod _) (hmod _) hoff]
      exact h q u
  · rw [if_neg hpage, if_neg (fun hu => hpage ⟨hu.1, by rw [hu.2]⟩)]
    exact h q u

theorem Shows.wipe (h : Shows f m) (p j k : ℕ) :
    Shows (wipe Page.zero f p (j * pgsize) (k * pgsize)) fun q u =>
      if q = p ∧ j * pgsize ≤ u ∧ u < k * pgsize then 0#8 else m q u := by
  intro q u
  have hiff : (q = p ∧ j * pgsize ≤ u ∧ u < k * pgsize) ↔
      (q = p ∧ j * pgsize ≤ u / pgsize * pgsize ∧ u / pgsize * pgsize < k * pgsize) := by
    rw [pgsize_eq]
    omega
  beta_reduce
  rw [Pa3.wipe]
  by_cases hin : q = p ∧ j * pgsize ≤ u ∧ u < k * pgsize
  · rw [if_pos hin, if_pos (hiff.mp hin), Mem.getByte_zero]
  · rw [if_neg hin, if_neg (fun hw => hin (hiff.mpr hw))]
    exact h q u

/-! ### Requests -/

/-- A request of a process that does not run has no effect. -/
theorem asProc_spec {k : M Out} {Q : Out → Kernel → Prop} (hidle : Q .idle s) (h : wp k Q E s) :
    wp (asProc p k) Q E s := by
  rw [asProc, wp_bind, wp_get]
  split
  · exact h
  · exact hidle

/-- **A request** does to the abstract memory what it should. -/
theorem exec_spec (h : Inv (szOf s) place f s) {a : Act} (hslot : HasSlot s a) :
    wp a.exec (fun out s' => ∃ place' f', Inv (szOf s') place' f' s' ∧
      ∀ m, Shows f m → Shows f' (a.effect out s s' m)) E s := by
  cases a with
  | load p va =>
    refine asProc_spec ⟨place, f, h, fun _ hm => hm⟩ ?_
    refine wp_call (userLoad_spec h le_rfl hslot) fun b s' hs' => ?_
    obtain ⟨hsz, ⟨place', h'⟩, -⟩ := hs'
    refine ⟨place', f, ?_, fun _ hm => hm⟩
    rwa [show szOf s' = szOf s from funext hsz]
  | store p va b =>
    refine asProc_spec ⟨place, f, h, fun _ hm => hm⟩ ?_
    refine wp_call (userStore_spec h le_rfl hslot) fun ok s' hs' => ?_
    obtain ⟨hsz, place', h'⟩ := hs'
    refine ⟨place', _, by rwa [show szOf s' = szOf s from funext hsz], fun m hm => ?_⟩
    rw [Act.effect]
    cases ok with
    | true => exact hm.store p va b
    | false => exact hm
  | sbrk p n eager =>
    have hwipe : ∀ {s'}, (s'.procs p).sz ≤ trapframe → ∀ m, Shows f m →
        Shows (wipe Page.zero f p (pgroundup (s'.procs p).sz) (pgroundup (s.procs p).sz))
          (Act.effect .idle s s' m (.sbrk p n eager)) := by
      intro s' hle m hm
      obtain ⟨j, hj, -⟩ := pgroundup_eq hle
      obtain ⟨k, hk, -⟩ := pgroundup_eq (h.top_le p)
      rw [szOf] at hk
      rw [Act.effect, hj, hk]
      exact hm.wipe p j k
    refine asProc_spec ⟨place, f, h, fun m hm => ?_⟩ ?_
    · have := hwipe (h.top_le p) m hm
      rwa [wipe_of_le le_rfl] at this
    · refine wp_call (sysSbrk_spec h n.toInt eager) fun r s' hs' => ?_
      obtain ⟨-, place', h'⟩ := hs'
      exact ⟨place', _, h', hwipe (h'.top_le p)⟩
  | setLevel p level =>
    refine ⟨place, f, ?_, fun _ hm => hm⟩
    have hc : Calm s (s.modProc p fun q => { q with level := level }) := .modProc rfl
    rw [show szOf (s.modProc p fun q => { q with level := level }) = szOf s from funext hc.sz]
    exact h.modProc_of_pagetable (g := fun q => { q with level := level }) (fun _ => rfl) p
  | alloc =>
    refine wp_call (kalloc_spec h) fun a s' hs' => ?_
    rcases hs' with ⟨-, -, rfl⟩ | ⟨-, -, h', -, hk, -⟩
    · exact ⟨place, f, h, fun _ hm => hm⟩
    · refine ⟨place, f, ?_, fun _ hm => hm⟩
      rwa [show szOf s' = szOf s from funext hk.sz]

/-! ### Runs -/

/-- The invariant of the system. -/
def Coherent (σ : System) : Prop :=
  ∃ place f, Inv (szOf σ.kernel) place f σ.kernel ∧ Shows f σ.stored

theorem Started.coherent {σ : System} (h : Started σ) : Coherent σ := by
  refine ⟨fun _ _ => .absent, fun _ _ => Page.zero, ?_, fun q u => ?_⟩
  · exact {
      kend := h.kend
      nodup := h.nodup
      managed := h.managed
      entry := fun p v => ofPte_eq_absent.mpr (h.untouched p v)
      page := by simp
      pageInj := by simp
      slot := by simp
      slotInj := by simp
      frame := by simp [h.frames]
      frameInj := by simp [h.frames]
      count := by
        rw [h.userFrames, inUseCount, Finset.filter_false_of_mem]
        · rfl
        · exact fun i _ => by rw [h.frames i]; decide
      top_le := h.sz
      above := fun _ _ _ => ⟨rfl, rfl⟩
      tables := fun _ _ hx => absurd rfl hx
      lost := fun e he => by rw [h.evictions] at he; cases he
      lostOnce := fun p v p' v' hl => by
        obtain ⟨e, he, -⟩ := hl
        rw [h.evictions] at he
        cases he
      contents := fun _ _ _ => rfl }
  · rw [h.stored, Mem.getByte_zero]

theorem Coherent.step {σ σ' : System} {a : Act} (h : Coherent σ) (hslot : HasSlot σ.kernel a)
    (hstep : step σ a = some σ') : Coherent σ' := by
  obtain ⟨place, f, hinv, hm⟩ := h
  have hspec := exec_spec (E := fun _ _ => False) hinv hslot
  rw [Pa3.step] at hstep
  cases hx : a.exec σ.kernel with
  | error e s' =>
    rw [hx] at hstep
    cases hstep
  | ok out s' =>
    rw [hx] at hstep
    obtain rfl := Option.some.inj hstep
    obtain ⟨place', f', h', hshow⟩ := wp_ok hspec hx
    exact ⟨place', f', h', hshow _ hm⟩

theorem Coherent.run {acts : List Act} {σ₀ σ : System} (h₀ : Started σ₀)
    (hslot : Meets Pa3.step (fun σ a => HasSlot σ.kernel a) acts σ₀)
    (hrun : run Pa3.step acts σ₀ = some σ) : Coherent σ :=
  run_invariant (P := Coherent) (fun _ _ _ h hC hs => h.step hC hs)
    h₀.coherent hslot hrun

/-- At most one page is ever lost. -/
theorem lost_once {acts : List Act} {σ₀ σ : System} (h₀ : Started σ₀)
    (hslot : Meets step (fun σ a => HasSlot σ.kernel a) acts σ₀)
    (hrun : run step acts σ₀ = some σ) {p v p' v' : ℕ} (hl : Lost σ.kernel p v)
    (hl' : Lost σ.kernel p' v') : p = p' ∧ v = v' := by
  obtain ⟨place, f, hinv, -⟩ := Coherent.run h₀ hslot hrun
  exact hinv.lostOnce p v p' v' hl hl'

/-- **Swapping is transparent**: along every run that has a slot when it needs one, a load does not
panic and returns what was stored last, unless the page was evicted into slot `0`. -/
theorem load_returns_stored {acts : List Act} {σ₀ σ : System}
    (hrun : run step acts σ₀ = some σ) (h₀ : Started σ₀)
    (hslot : Meets step (fun σ a => HasSlot σ.kernel a) acts σ₀) (p va : ℕ)
    (hnext : HasSlot σ.kernel (.load p va)) (hkept : ¬ Lost σ.kernel p (va / pgsize)) :
    ∃ out, result σ.kernel (.load p va) = some out ∧
      ∀ b, out = .byte (some b) → b = σ.stored p va := by
  obtain ⟨place, f, hinv, hm⟩ := Coherent.run h₀ hslot hrun
  have hspec : wp (Act.load p va).exec (fun out _ => ∀ b, out = .byte (some b) → b = σ.stored p va)
      (fun _ _ => False) σ.kernel := by
    refine asProc_spec (by simp) ?_
    refine wp_call (userLoad_spec hinv le_rfl hnext) fun o s' hs' b hb => ?_
    rw [hs'.2.2 b (Out.byte.inj hb), hm, Kernel.byte, hinv.value_eq, hinv.contents p _ hkept]
  rw [result]
  cases hx : (Act.load p va).exec σ.kernel with
  | ok out s' => exact ⟨out, rfl, wp_ok hspec hx⟩
  | error e s' => exact (wp_error hspec hx).elim

end

/-! ### Slot `0` -/

/-- Two processes without memory, and sixty free pages. -/
def bootSystem : System where
  kernel := bootKernel
  stored := fun _ _ => 0#8

theorem started_bootSystem : Started bootSystem where
  kend := by decide
  nodup := List.Nodup.map (fun i j hij => by simpa using hij) List.nodup_range
  managed a ha := by
    obtain ⟨i, hi, rfl⟩ := List.mem_map.mp ha
    have := List.mem_range.mp hi
    simp only [Managed, bootSystem, bootKernel, phystop_eq]
    omega
  untouched _ _ := rfl
  frames _ := rfl
  userFrames := rfl
  sz _ := by simp [bootSystem, bootKernel]
  evictions := rfl
  stored _ _ := rfl

/-- Process `0` grows by `n` pages without allocating them, and stores `7` in the first byte of each
one. -/
def touchPages (n : ℕ) : List Act :=
  .sbrk 0 (BitVec.ofNat 32 (n * 4096)) false :: (List.range n).map fun i => .store 0 (i * 4096) 7#8

/-- With fifty-two pages the second one is evicted into slot `1`, and a load brings it back. -/
theorem load_returns_stored_secondPage :
    ∃ σ, run step (touchPages 52) bootSystem = some σ ∧
      ⟨1, 0, 4096⟩ ∈ σ.kernel.evictions ∧ σ.stored 0 4096 = 7#8 ∧
      result σ.kernel (.load 0 4096) = some (.byte (some 7#8)) := by
  have hfacts : ∀ σ ∈ run step (touchPages 52) bootSystem,
      HasSlot σ.kernel (.load 0 4096) ∧ ¬ Lost σ.kernel 0 (4096 / pgsize) ∧
        ⟨1, 0, 4096⟩ ∈ σ.kernel.evictions ∧
        result σ.kernel (.load 0 4096) = some (.byte (some 7#8)) := by
    decide +kernel
  obtain ⟨σ, hσ⟩ := Option.isSome_iff_exists.mp
    (show (run step (touchPages 52) bootSystem).isSome = true by decide +kernel)
  obtain ⟨hnext, hkept, hev, hres⟩ := hfacts σ hσ
  obtain ⟨out, hout, hstored⟩ :=
    load_returns_stored hσ started_bootSystem (by decide +kernel) 0 4096 hnext hkept
  have hbyte : out = .byte (some 7#8) := Option.some.inj (hout.symm.trans hres)
  exact ⟨σ, hσ, hev, (hstored _ hbyte).symm, hres⟩

/-- With fifty-one pages the first one is evicted into slot `0`, although the other slots are free,
and a load returns zero. -/
theorem load_counterexample : Started bootSystem ∧
    Meets step (fun σ a => HasSlot σ.kernel a) (touchPages 51) bootSystem ∧
    ∃ σ, run step (touchPages 51) bootSystem = some σ ∧ HasSlot σ.kernel (.load 0 0) ∧
      σ.stored 0 0 = 7#8 ∧ result σ.kernel (.load 0 0) = some (.byte (some 0#8)) := by
  have hfacts : ∀ σ ∈ run step (touchPages 51) bootSystem,
      HasSlot σ.kernel (.load 0 0) ∧ σ.stored 0 0 = 7#8 ∧
        result σ.kernel (.load 0 0) = some (.byte (some 0#8)) := by
    decide +kernel
  obtain ⟨σ, hσ⟩ := Option.isSome_iff_exists.mp
    (show (run step (touchPages 51) bootSystem).isSome = true by decide +kernel)
  exact ⟨started_bootSystem, by decide +kernel, σ, hσ, hfacts σ hσ⟩

end Pa3

end Xv6
