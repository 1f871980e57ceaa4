import Xv6.Mem.Calls

/-!
# The frame table

Two properties of the frame table, which `evict_pages` relies on.

*Every resident page of user memory is in it*, as far as the table reaches. Pages become resident
in five places, and `walkaddr` forgets to call `track_frame`: a page that a `copyin` or a `copyout`
brings back is never evicted again. The property holds as long as no copy finds its page swapped
out (`Call.Stays`).

*Every entry in use is right*: the page table of its owner maps its address to its page. The
allocations of a call are watched with an allocator that stops if this fails (`watch`). An entry
names a process and not a page table, so the property fails inside `kexec`, whose pages are in the
new table while the process has its old one; it holds in every run in which no exec comes so far
(`Call.LoadsNothing`).

## Main results

* `resident_tracked`, `resident_tracked_counterexample`
* `frames_coherent`, `frames_coherent_counterexample`
-/

namespace Xv6

namespace Mem

open WeakestPre
open Transition

/-! ### Resident pages -/

/-- **Every resident user page is evictable**: the frame table has its page, with the process and
the address. -/
def Evictable (s : Kernel) : Prop :=
  ∀ p va, (s.procs p).used = true → va % pgsize = 0 → va < maxva →
    Valid (leaf s.mem (s.procs p).pagetable (vkey va)) →
    has (leaf s.mem (s.procs p).pagetable (vkey va)) pteU = true →
    frameIndex (pte2pa (leaf s.mem (s.procs p).pagetable (vkey va))) < nframe →
    (s.frames (frameIndex (pte2pa (leaf s.mem (s.procs p).pagetable (vkey va))))).inUse = true ∧
    (s.frames (frameIndex (pte2pa (leaf s.mem (s.procs p).pagetable (vkey va))))).p = some p ∧
    (s.frames (frameIndex (pte2pa (leaf s.mem (s.procs p).pagetable (vkey va))))).va = va

section

variable {s s' : Kernel}

theorem Resident.evictable (hr : Resident s) (h : Sound s) : Evictable s := by
  obtain ⟨g, hinv, hs⟩ := h
  intro p va hused hal hva hv hu hlt
  have hpt := hs.used p hused
  have hroot := hinv.procTable.root p hpt
  have hk := hinv.userKey_of_flag hroot (by rwa [has_pteU] at hu)
  obtain ⟨hin, haddr, q, hq, hqpt⟩ := hr p (vkey va) hpt hk _ (hinv.mapsTo hroot hk hv) hlt
  obtain rfl : p = q := hinv.procTable.inj p q hpt hqpt.symm
  refine ⟨hin, hq, haddr.trans ?_⟩
  simp only [maxva_eq, pgsize_eq] at hva hal
  rw [addr_vkey (by omega)]
  omega

theorem resident_boot (kend trampolinePa : ℕ) : Resident (bootState kend trampolinePa) :=
  fun _ _ hpt => absurd rfl hpt

/-- A call that finds no page swapped out in a copy. -/
theorem callStep_resident (h : Sound s ∧ Resident s) {c : Call} (hc : c.Stays kalloc s)
    (hstep : callStep kalloc s c = some s') : Sound s' ∧ Resident s' := by
  refine ⟨h.1.callStep kalloc_spec (Or.inr fun _ => kalloc_spec) hstep, ?_⟩
  obtain ⟨⟨g, hinv, hs⟩, hr⟩ := h
  obtain ⟨o, ho⟩ := callStep_eq_some.mp hstep
  exact (wp_ok (c.run_spec kalloc_spec (Or.inr fun _ => kalloc_spec) hinv.forget hs.forget
    False.elim) ho).2 hc hr

end

/-- **Resident pages are in the frame table** in every state reached by a run of calls in which no
copy finds its page swapped out. -/
theorem resident_tracked {kend : ℕ} (trampolinePa : ℕ) (hlo : kernbase ≤ kend)
    (hhi : kend + nframe * pgsize ≤ phystop) {cs : List Call} {s : Kernel}
    (hstays : Meets (callStep kalloc) (fun s c => c.Stays kalloc s) cs
      (bootState kend trampolinePa))
    (hrun : run (callStep kalloc) cs (bootState kend trampolinePa) = some s) : Evictable s := by
  obtain ⟨hsound, hr⟩ := run_invariant (P := fun s => Sound s ∧ Resident s)
    (fun _ _ _ h hc hstep => callStep_resident h hc hstep)
    ⟨(coherent_boot trampolinePa hlo hhi).sound, resident_boot kend trampolinePa⟩ hstays hrun
  exact hr.evictable hsound

/-- The first sixty pages lie above the frame table; then a process touches a page and forks. -/
def trackedRun : List Call := List.replicate 60 (.act .alloc) ++ forkRun

theorem resident_tracked_copyin : kernbase ≤ 0x80030000 ∧
    0x80030000 + nframe * pgsize ≤ phystop ∧
    Meets (callStep kalloc) (fun s c => c.Stays kalloc s)
      (trackedRun ++ [.act (.copyin 0 100 1)]) (bootState 0x80030000 0) ∧
    ∃ s, run (callStep kalloc) (trackedRun ++ [.act (.copyin 0 100 1)])
      (bootState 0x80030000 0) = some s ∧ Evictable s := by
  obtain ⟨s, hs, hpage, hcopy⟩ : ∃ s,
      run (callStep kalloc) trackedRun (bootState 0x80030000 0) = some s ∧
      ¬ Swapped (leaf s.mem (s.procs 0).pagetable (vkey (pgrounddown 100))) ∧
      (callStep kalloc s (.act (.copyin 0 100 1))).isSome = true := by
    decide +kernel
  obtain ⟨s', hs'⟩ := Option.isSome_iff_exists.mp hcopy
  have hstays : Meets (callStep kalloc) (fun s c => c.Stays kalloc s)
      (trackedRun ++ [.act (.copyin 0 100 1)]) (bootState 0x80030000 0) := by
    refine meets_append.mpr ⟨meets_of_forall ?_ _, fun m hm => ⟨?_, ?_⟩⟩
    · simp [trackedRun, forkRun, Call.Stays, Act.Stays]
    · obtain rfl : s = m := Option.some.inj (hs.symm.trans hm)
      exact fun _ => ⟨fun _ => hpage, fun _ _ _ _ => trivial⟩
    · exact fun _ _ => trivial
  have hrun : run (callStep kalloc) (trackedRun ++ [.act (.copyin 0 100 1)])
      (bootState 0x80030000 0) = some s' := by
    rw [run_append, hs]
    exact run_cons_eq_some.mpr ⟨s', hs', rfl⟩
  exact ⟨by simp, by simp, hstays, s', hrun, resident_tracked 0 (by simp) (by simp) hstays hrun⟩

/-- When seven pages are left a process touches two pages. The second takes the place of the first,
which is evicted; when the second is given back, a `copyin` brings the first one in again. -/
def copyBack : List Call :=
  List.replicate 505 (.act .alloc) ++
    [.act .spawn, .act (.sbrk 0 8192#32 false), .act (.store 0 100 7#8), .act (.store 0 5000 9#8),
    .act (.sbrk 0 (-4096#32) false), .act (.copyin 0 100 1)]

/-- The frame of the page that the `copyin` brought back is not in use. -/
theorem resident_tracked_counterexample :
    ∃ s, run (callStep kalloc) copyBack (bootState 0x80030000 0) = some s ∧
      ¬ Evictable s := by
  obtain ⟨s, hs, hused, hv, hu, hlt, hin⟩ : ∃ s,
      run (callStep kalloc) copyBack (bootState 0x80030000 0) = some s ∧
      (s.procs 0).used = true ∧ Valid (leaf s.mem (s.procs 0).pagetable (vkey 0)) ∧
      has (leaf s.mem (s.procs 0).pagetable (vkey 0)) pteU = true ∧
      frameIndex (pte2pa (leaf s.mem (s.procs 0).pagetable (vkey 0))) < nframe ∧
      (s.frames
        (frameIndex (pte2pa (leaf s.mem (s.procs 0).pagetable (vkey 0))))).inUse = false := by
    decide +kernel
  refine ⟨s, hs, fun he => ?_⟩
  rw [(he 0 0 hused rfl (by simp) hv hu hlt).1] at hin
  cases hin

/-! ### Entries in use -/

/-- The entry that `walk` finds for a frame. -/
def framePte (s : Kernel) (f : Frame) : Option Pte :=
  match f.p with
  | none => none
  | some p =>
    match walk none (s.procs p).pagetable f.va s with
    | .ok (some pte) _ => some (s.readPte pte)
    | _ => none

/-- If the frame is in use, the page table of its owner maps its address to its page. -/
def frameRight (s : Kernel) (i : ℕ) : Bool :=
  !(s.frames i).inUse ||
    (framePte s (s.frames i)).any fun pte => has pte pteV && pte2pa pte == kernbase + i * pgsize

/-- The clock hand is in the table, and every frame is right. -/
def FrameCoherent (s : Kernel) : Prop := s.clockHand < nframe ∧ ∀ i < nframe, frameRight s i = true

instance : DecidablePred FrameCoherent := fun s =>
  decidable_of_iff (s.clockHand < nframe ∧ (List.range nframe).all (frameRight s) = true)
    (and_congr_right fun _ => by simp)

/-- An allocator that stops if `P` does not hold when it is called. -/
def watch (P : Kernel → Prop) [DecidablePred P] (alloc : M ℕ) : M ℕ := do
  let s ← get
  if P s then alloc else throw (.panic "watch")

section

variable {N : ℕ → ℕ → Prop} {g : Ghost} {s : Kernel}

/-- What `walk` computes without an allocator. -/
theorem walk_none_eq {r va : ℕ} (hva : va < maxva) : walk none r va s
    = .ok ((lowPage s.mem r (vkey va).1 (vkey va).2.1).map fun t => (t, (vkey va).2.2)) s := by
  have hwp : wp (walk none r va) (fun o s' =>
      o = (lowPage s.mem r (vkey va).1 (vkey va).2.1).map (fun t => (t, (vkey va).2.2)) ∧ s' = s)
      (fun _ _ => False) s :=
    (wp_walk_none hva).mpr ⟨rfl, rfl⟩
  cases hw : walk none r va s with
  | ok o s' =>
    obtain ⟨rfl, rfl⟩ := wp_ok hwp hw
    rfl
  | error e s' => exact (wp_error hwp hw).elim

/-- What makes a frame in use right. -/
structure MapsFrame (s : Kernel) (i p : ℕ) : Prop where
  owner : (s.frames i).p = some p
  va : (s.frames i).va < maxva
  valid : Valid (leaf s.mem (s.procs p).pagetable (vkey (s.frames i).va))
  page : pte2pa (leaf s.mem (s.procs p).pagetable (vkey (s.frames i).va)) = kernbase + i * pgsize

theorem MapsFrame.low {i p : ℕ} (h : MapsFrame s i p) : ∃ b, lowPage s.mem (s.procs p).pagetable
    (vkey (s.frames i).va).1 (vkey (s.frames i).va).2.1 = some b := by
  cases hlow : lowPage s.mem (s.procs p).pagetable (vkey (s.frames i).va).1
      (vkey (s.frames i).va).2.1 with
  | none =>
    have hv := h.valid
    rw [leaf_of_lowPage_none hlow] at hv
    exact absurd hv not_valid_zero
  | some b => exact ⟨b, rfl⟩

theorem frameRight_iff {i : ℕ} :
    frameRight s i = true ↔ ((s.frames i).inUse = true → ∃ p, MapsFrame s i p) := by
  rw [frameRight, Bool.or_eq_true, Bool.not_eq_true', ← Bool.not_eq_true, ← imp_iff_not_or]
  refine imp_congr_right fun _ => ⟨fun hany => ?_, fun hmaps => ?_⟩
  · rw [framePte] at hany
    cases hp : (s.frames i).p with
    | none =>
      rw [hp] at hany
      cases hany
    | some p =>
      rw [hp] at hany
      by_cases hva : (s.frames i).va < maxva
      · simp only [walk_none_eq hva] at hany
        cases hlow : lowPage s.mem (s.procs p).pagetable (vkey (s.frames i).va).1
            (vkey (s.frames i).va).2.1 with
        | none =>
          rw [hlow] at hany
          cases hany
        | some b =>
          rw [hlow] at hany
          simp only [Option.map_some, Option.any_some, readPte_low hlow, Bool.and_eq_true,
            valid_iff, beq_iff_eq] at hany
          exact ⟨p, hp, hva, hany.1, hany.2⟩
      · have hw : walk none (s.procs p).pagetable (s.frames i).va s = .error (.panic "walk") s := by
          rw [walk, if_pos (not_lt.mp hva)]
          rfl
        simp only [hw] at hany
        cases hany
  · obtain ⟨p, h⟩ := hmaps
    obtain ⟨b, hlow⟩ := h.low
    rw [framePte, h.owner]
    simp only [walk_none_eq h.va, hlow, Option.map_some, Option.any_some, readPte_low hlow,
      valid_iff.mpr h.valid, h.page, beq_self_eq_true, Bool.and_self]

theorem Inv.frameCoherent (h : Inv NoTable g s) : FrameCoherent s := by
  refine ⟨h.frameTable.hand, fun i _ => frameRight_iff.mpr fun hi => ?_⟩
  obtain ⟨p, r, hp, -, hva, ht, hown⟩ := h.frameTable.tracked i hi
  obtain rfl : (s.procs p).pagetable = r := ht.resolve_right id
  obtain ⟨-, -, hm⟩ := h.entries.user _ _ _ hown
  exact ⟨p, hp, lt_maxva hva, hm.valid, hm.pa⟩

/-- Watching changes nothing where the property holds. -/
theorem watch_spec {P : Kernel → Prop} [DecidablePred P] {alloc : M ℕ} (halloc : Allocates N alloc)
    (hP : ∀ {g s}, Inv N g s → P s) : Allocates N (watch P alloc) := fun {g s} h => by
  rw [watch, wp_bind, wp_get, if_pos (hP h)]
  exact halloc h

/-- Reference bits do not matter. -/
theorem FrameCoherent.visited {s' : Kernel} (h : FrameCoherent s) (hv : Visited s s') :
    FrameCoherent s' := by
  refine ⟨by rw [hv.hand]; exact Nat.mod_lt _ (by simp),
    fun i hi => frameRight_iff.mpr fun hin => ?_⟩
  obtain ⟨p, hp, hva, hval, hpa⟩ := frameRight_iff.mp (h.2 i hi) ((hv.inUse i).symm.trans hin)
  refine ⟨p, (hv.p i).trans hp, ?_, ?_, ?_⟩ <;> rw [hv.va i]
  · exact hva
  · rwa [hv.mem, hv.procs]
  · rwa [hv.mem, hv.procs]

/-- In a coherent state an entry looks at its own bit, if at any. -/
theorem FrameCoherent.lookAt_eq (h : FrameCoherent s) {i j : ℕ} (hi : i < nframe)
    (hlook : lookAt s i = some j) : j = i := by
  obtain ⟨p, hin, hp, -, -, rfl⟩ := lookAt_eq_some.mp hlook
  obtain ⟨q, hm⟩ := frameRight_iff.mp (h.2 i hi) hin
  obtain rfl : p = q := Option.some.inj (hp.symm.trans hm.owner)
  rw [hm.page]
  exact frameIndex_kernbase hi

theorem FrameCoherent.inside (h : FrameCoherent s) {i : ℕ} (hi : i < nframe) : Inside s i := by
  constructor
  · intro p hin _ _
    obtain ⟨q, hm⟩ := frameRight_iff.mp (h.2 i hi) hin
    exact hm.va
  · intro j hlook
    rwa [h.lookAt_eq hi hlook]

/-- **A visit of the clock hand** in a coherent state: the victim's page is that of its frame. -/
theorem FrameCoherent.clockStep_spec (h : FrameCoherent s) :
    wp clockStep (fun victim s' => FrameCoherent s' ∧ ∀ i pte, victim = some (i, pte) → i < nframe ∧
      pte2pa (s'.readPte pte) = kernbase + i * pgsize ∧ frameIndex (pte2pa (s'.readPte pte)) = i)
      (fun _ _ => False) s := by
  refine wp_mono clockStep_visit (fun victim s' hstep => ⟨h.visited hstep.1.visited, ?_⟩)
    fun _ _ he => (h.inside h.1).not_outside he
  rintro i pte rfl
  cases hstep.1 with
  | stop j p b hlook hj hbit hp hlow =>
    obtain ⟨q, hin, -⟩ := lookAt_eq_some.mp hlook
    obtain ⟨q, hm⟩ := frameRight_iff.mp (h.2 _ h.1) hin
    obtain rfl : p = q := Option.some.inj (hp.symm.trans hm.owner)
    have hread : ({ s with clockHand := (s.clockHand + 1) % nframe } : Kernel).readPte
        (b, (vkey (s.frames s.clockHand).va).2.2) = _ := readPte_low hlow
    rw [hread, hm.page]
    exact ⟨h.1, rfl, frameIndex_kernbase h.1⟩

end

/-- The watch is none of the reasons for which a call stops. -/
theorem Call.Stopped.ne_watch {c : Call} (hc : c.LoadsNothing) {e : Halt} {s : Kernel}
    (he : c.Stopped e s) : e ≠ .panic "watch" := by
  have hex : Exhausted NoTable e s → e ≠ .panic "watch" := by
    rintro h rfl
    exact absurd h.1 (by decide)
  cases c with
  | act a =>
    rcases he with he | he
    · exact hex he
    · rw [he.1]
      decide
  | fork p => exact hex he
  | exec p file argv => exact hex (he hc)

/-- **Frames are coherent at every allocation** of a run of calls in which every exec fails before
it allocates a page for the new image: no allocation of any such call is stopped by the watch. And
in a coherent state every visit of the clock hand leaves a coherent state, and reports as victim a
page together with its own frame. -/
theorem frames_coherent {kend : ℕ} (trampolinePa : ℕ) (hlo : kernbase ≤ kend)
    (hhi : kend + nframe * pgsize ≤ phystop) {cs : List Call} {s : Kernel}
    (hmeets : Meets (callStep (watch FrameCoherent kalloc)) (fun _ c => c.LoadsNothing) cs
      (bootState kend trampolinePa))
    (hrun : run (callStep (watch FrameCoherent kalloc)) cs (bootState kend trampolinePa)
      = some s) :
    (FrameCoherent s ∧ ∀ c : Call, c.LoadsNothing → ∀ e s',
      c.run (watch FrameCoherent kalloc) s = .error e s' → e ≠ .panic "watch") ∧
    ∀ s, FrameCoherent s →
      match clockStep s with
      | .ok victim s' => FrameCoherent s' ∧ ∀ i pte, victim = some (i, pte) → i < nframe ∧
          pte2pa (s'.readPte pte) = kernbase + i * pgsize ∧ frameIndex (pte2pa (s'.readPte pte)) = i
      | .error _ _ => False := by
  have halloc : Allocates NoTable (watch FrameCoherent kalloc) :=
    watch_spec kalloc_spec fun h => h.frameCoherent
  refine ⟨?_, fun s h => ?_⟩
  · obtain ⟨g, hinv, hs⟩ := run_invariant (P := Sound)
      (fun _ _ _ h hc hstep => h.callStep halloc (Or.inl hc) hstep)
      (coherent_boot trampolinePa hlo hhi).sound hmeets hrun
    refine ⟨hinv.frameCoherent, fun c hc e s' herr => ?_⟩
    have hstop := wp_error (c.run_spec halloc (Or.inl hc) hinv.forget hs.forget False.elim) herr
    exact hstop.ne_watch hc
  · have hspec := h.clockStep_spec
    cases hstep : clockStep s with
    | ok victim s' =>
      have hvictim := wp_ok hspec hstep
      exact hvictim
    | error e s' =>
      have hno := wp_error hspec hstep
      exact hno

/-- The process forks, and fails to execute a file that is not there. -/
def execMissing : List Call := trackedRun ++ [.exec 0 none []]

theorem frames_coherent_execMissing : kernbase ≤ 0x80030000 ∧
    0x80030000 + nframe * pgsize ≤ phystop ∧
    Meets (callStep (watch FrameCoherent kalloc)) (fun _ c => c.LoadsNothing)
      execMissing (bootState 0x80030000 0) ∧
    ∃ s, run (callStep (watch FrameCoherent kalloc)) execMissing
      (bootState 0x80030000 0) = some s ∧ FrameCoherent s := by
  have hmeets : Meets (callStep (watch FrameCoherent kalloc))
      (fun _ c => c.LoadsNothing) execMissing (bootState 0x80030000 0) := by
    refine meets_of_forall ?_ _
    simp [execMissing, trackedRun, forkRun, Call.LoadsNothing, Rejected]
  have hrun : (run (callStep (watch FrameCoherent kalloc)) execMissing
      (bootState 0x80030000 0)).isSome = true := by
    decide +kernel
  obtain ⟨s, hs⟩ := Option.isSome_iff_exists.mp hrun
  exact ⟨by simp, by simp, hmeets, s, hs,
    (frames_coherent 0 (by simp) (by simp) hmeets hs).1.1⟩

/-- The bytes of a program with one segment of two pages, which the file does not fill. -/
def emptyProgram : List (BitVec 8) :=
  -- the file header: the magic number, `phoff` and `phnum`
  [0x7F#8, 0x45#8, 0x4C#8, 0x46#8] ++ List.replicate 28 0#8 ++ [64#8] ++ List.replicate 23 0#8 ++
    [1#8] ++ List.replicate 7 0#8 ++
  -- the program header: the type, the flags and `memsz`
    [1#8, 0#8, 0#8, 0#8, 7#8, 0#8, 0#8, 0#8] ++ List.replicate 32 0#8 ++ [0#8, 0x20#8] ++
    List.replicate 14 0#8

def emptyFile : File where
  readi off n := (emptyProgram.drop off).take n
  length_le off n := by simp

/-- When the second page of the new image is allocated, the entry of the first one names an address
at which the process, which still has its old table, has nothing. (The first pages that are handed
out lie above the frame table.) -/
theorem frames_coherent_counterexample :
    ∃ s s', run (callStep (watch FrameCoherent kalloc))
        (List.replicate 60 (.act .alloc) ++ [.act .spawn]) (bootState 0x80030000 0) = some s ∧
      (Call.exec 0 (some emptyFile) []).run (watch FrameCoherent kalloc) s
        = .error (.panic "watch") s' ∧ ¬ FrameCoherent s' := by
  obtain ⟨s, hs, e, s', hexec, rfl, hnot⟩ :
      ∃ s, run (callStep (watch FrameCoherent kalloc))
        (List.replicate 60 (.act .alloc) ++ [.act .spawn]) (bootState 0x80030000 0) = some s ∧
      ∃ e s', (Call.exec 0 (some emptyFile) []).run (watch FrameCoherent kalloc) s = .error e s' ∧
        e = .panic "watch" ∧ ¬ FrameCoherent s' := by
    decide +kernel
  exact ⟨s, s', hs, hexec, hnot⟩

end Mem

end Xv6
