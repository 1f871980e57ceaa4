import Xv6.Locks.Nesting

/-!
# Pipes and the disk

`pipewrite` and `piperead` of `kernel/pipe.c` copy user bytes one at a time with `pi->lock` held.
The copy goes through `walkaddr` and `vmfault`, and these may swap a page in or evict one, which
means to sleep until the disk is done. `sched` then finds two spinlocks held, the pipe's and the
process's, and panics.

So the two functions are safe exactly as long as their copies stay away from the disk: the page is
not swapped out, and where a page has to be allocated the free list has one.

## Main results

* `pipe_sched_locks` — in a run with calm looks the panic is not reached, and at each single look
  that is not calm it can be reached
* `pipewrite_counterexample` — one byte from a page that is swapped out
-/

namespace Xv6

namespace Locks

open Mem WeakestPre

/-! ### `pipe.c` -/

/-- `PIPESIZE` -/
def pipesize : ℕ := 512

/-- Update the pipe. -/
def modPipe (f : Pipe → Pipe) : M Unit := modShared fun s => { s with pipe := f s.pipe }

/-- `pi->data[pi->nwrite++ % PIPESIZE] = ch` -/
def Pipe.push (pi : Pipe) (ch : BitVec 8) : Pipe :=
  { pi with
    data := Function.update pi.data (pi.nwrite.toNat % pipesize) ch
    nwrite := pi.nwrite + 1 }

/-- `pi->readopen == 0 || killed(pr)` -/
def writeStops (pr : ℕ) : M Bool := do
  let s ← getShared
  if s.pipe.readopen then killed pr else pure true

/-- What `pipewrite` does after its loop. -/
def pipewriteEnd (i : ℕ) : M ℤ := do
  wakeup
  release .pipe
  pure i

/-- The loop of `pipewrite`. -/
def pipewriteLoop (pr addr : ℕ) (n : ℤ) : ℕ → ℕ → M ℤ
  | 0, _ => throw .more
  | fuel + 1, i => do
    if i < n then
      if ← writeStops pr then
        release .pipe
        pure (-1)
      else
        let s ← getShared
        if s.pipe.nwrite = s.pipe.nread + BitVec.ofNat 32 pipesize then
          wakeup
          sleep .pipe
          pipewriteLoop pr addr n fuel i
        else
          match ← copyin fuel pr ((addr + i) % 2 ^ 64) with
          | none => pipewriteEnd i
          | some ch =>
            modPipe fun pi => pi.push ch
            pipewriteLoop pr addr n fuel (i + 1)
    else pipewriteEnd i

/-- `pipewrite` -/
def pipewrite (fuel addr : ℕ) (n : ℤ) : M ℤ := do
  let pr ← myproc
  acquire .pipe
  pipewriteLoop pr addr n fuel 0

/-- The first loop of `piperead`: `true` when the process has been killed. -/
def pipereadWait (pr : ℕ) : ℕ → M Bool
  | 0 => throw .more
  | fuel + 1 => do
    let s ← getShared
    if s.pipe.nread = s.pipe.nwrite ∧ s.pipe.writeopen then
      if ← killed pr then pure true
      else
        sleep .pipe
        pipereadWait pr fuel
    else pure false

/-- The second loop of `piperead`, with a number of bytes still to copy. -/
def pipereadCopy (fuel pr addr : ℕ) : ℕ → ℕ → M ℤ
  | 0, i => pure i
  | k + 1, i => do
    let s ← getShared
    if s.pipe.nread = s.pipe.nwrite then pure i
    else if ← copyout fuel pr ((addr + i) % 2 ^ 64)
      (s.pipe.data (s.pipe.nread.toNat % pipesize)) then
      modPipe fun pi => { pi with nread := pi.nread + 1 }
      pipereadCopy fuel pr addr k (i + 1)
    else pure (if i = 0 then -1 else i)

/-- `piperead` -/
def piperead (fuel addr : ℕ) (n : ℤ) : M ℤ := do
  let pr ← myproc
  acquire .pipe
  if ← pipereadWait pr fuel then
    release .pipe
    pure (-1)
  else
    let i ← pipereadCopy fuel pr addr n.toNat 0
    wakeup
    release .pipe
    pure i

/-! ### Calm runs -/

section

variable {p : ℕ}

theorem pipewriteEnd_keeps (i : ℕ) : Keeps p [.pipe] (pipewriteEnd i) [] :=
  wakeup_keeps.bind fun _ => release_head_keeps.bind fun _ => keeps_pure _

theorem pipewriteLoop_keeps (pr addr : ℕ) (n : ℤ) (fuel i : ℕ) :
    Keeps p [.pipe] (pipewriteLoop pr addr n fuel i) [] := by
  induction fuel generalizing i with
  | zero => exact keeps_throw (by decide)
  | succ fuel ih =>
    have hstops : Keeps p [.pipe] (writeStops pr) [.pipe] :=
      keeps_getShared.bind fun _ => Keeps.ite (killed_keeps _) (keeps_pure _)
    have hfull : Keeps p [.pipe] (do wakeup; sleep .pipe; pipewriteLoop pr addr n fuel i) [] :=
      wakeup_keeps.bind fun _ => (sleep_keeps (by simp)).bind fun _ => ih i
    refine Keeps.ite (hstops.bind fun _ => Keeps.ite
      (release_head_keeps.bind fun _ => keeps_pure _)
      (keeps_getShared.bind fun s => Keeps.ite hfull
        ((copyin_keeps _ _ _).bind fun ch => ?_))) (pipewriteEnd_keeps i)
    split
    · exact pipewriteEnd_keeps i
    · exact (keeps_modShared _).bind fun _ => ih (i + 1)

theorem pipewrite_keeps (fuel addr : ℕ) (n : ℤ) : Keeps p [] (pipewrite fuel addr n) [] := by
  have hbody : ∀ pr, Keeps p [] (do acquire .pipe; pipewriteLoop pr addr n fuel 0) [] := fun pr =>
    acquire_keeps.bind fun _ => pipewriteLoop_keeps _ _ _ _ _
  exact myproc_bind_keeps (fun pr => (hbody pr).logs) (hbody p)

theorem pipereadWait_keeps (pr fuel : ℕ) : Keeps p [.pipe] (pipereadWait pr fuel) [.pipe] := by
  induction fuel with
  | zero => exact keeps_throw (by decide)
  | succ fuel ih =>
    exact keeps_getShared.bind fun _ => Keeps.ite
      ((killed_keeps _).bind fun _ => Keeps.ite (keeps_pure _)
        ((sleep_keeps (by simp)).bind fun _ => ih)) (keeps_pure _)

theorem pipereadCopy_keeps (fuel pr addr k i : ℕ) :
    Keeps p [.pipe] (pipereadCopy fuel pr addr k i) [.pipe] := by
  induction k generalizing i with
  | zero => exact keeps_pure _
  | succ k ih =>
    exact keeps_getShared.bind fun _ => Keeps.ite (keeps_pure _)
      ((copyout_keeps _ _ _ _).bind fun _ => Keeps.ite
        ((keeps_modShared _).bind fun _ => ih (i + 1))
        (keeps_pure _))

theorem piperead_keeps (fuel addr : ℕ) (n : ℤ) : Keeps p [] (piperead fuel addr n) [] := by
  have hbody : ∀ pr, Keeps p [] (do
      acquire .pipe
      if ← pipereadWait pr fuel then
        release .pipe
        pure (-1)
      else
        let i ← pipereadCopy fuel pr addr n.toNat 0
        wakeup
        release .pipe
        pure i) [] := fun pr =>
    acquire_keeps.bind fun _ => (pipereadWait_keeps _ _).bind fun _ => Keeps.ite
      (release_head_keeps.bind fun _ => keeps_pure _)
      ((pipereadCopy_keeps _ _ _ _ _).bind fun _ => wakeup_keeps.bind fun _ =>
        release_head_keeps.bind fun _ => keeps_pure _)
  exact myproc_bind_keeps (fun pr => (hbody pr).logs) (hbody p)

end

/-! ### Looks that are not calm -/

/-- The code stopped at the panic of `sched`. -/
def schedLocks {α : Type} : EStateM.Result Stop Hart α → Bool
  | .error e _ => decide (e = .panic "sched locks")
  | .ok _ _ => false

/-- Frame 0 holds a page of process 1 that was not used lately; the pages of process 0 are swapped
out; no block of the disk is cached. -/
def pressed (freelist : List ℕ) : Shared where
  pipe := ⟨fun _ => 0, 0, 0, true, true⟩
  killed _ := false
  sz _ := pgsize
  curQLevel _ := 0
  tables q := ⟨true, fun _ => true, fun _ _ => true, fun _ =>
    if q = 1 then mapPte kernbase (pteR ||| pteU) else pteSwapped ||| pteU⟩
  user _ _ := 0
  freelist := freelist
  frames i := ⟨i = 0, some 1, 0, false⟩
  clockHand := 0
  swapInUse slot := slot = 0
  disk := Disk.initState 0 (fun _ _ => 0) fun _ _ => 0
  bufs _ := ⟨0, false, 0, false, 0, false⟩
  lru := List.range 30
  freeDescs := 8
  kend := kernbase

/-- A hart in the middle of `pipewrite`, for process 0. -/
def inPipe (s : Shared) (env : ℕ → Shared → Shared) (log : List Look) : Hart :=
  ⟨1, true, false, [.pipe], 0, true, s, env, log⟩

/-- The other harts rest. -/
def rest (_ : ℕ) (s : Shared) : Shared := s

/-- The other harts rest, then leave `s`, then rest. -/
def leave (s : Shared) : ℕ → Shared → Shared
  | 1, _ => s
  | _, t => t

theorem schedLocks_evict : schedLocks (kalloc 3 (inPipe (pressed []) rest [])) = true := by
  decide +kernel

theorem schedLocks_swapIn : schedLocks (walkaddrSwapIn 3 0 0
    (inPipe (pressed []) (fun n => leave (pressed [kernbase + pgsize]) (n + 1)) [])) = true := by
  decide +kernel

theorem schedLocks_of_logs {α : Type} {m : M α} (hm : Logs m) (h : Hart) (l : List Look) :
    schedLocks (m (h.withLog l)) = schedLocks (m h) := by
  rw [hm h l]
  cases m h <;> rfl

theorem schedLocks_eq_false {α : Type} {m : M α} {h : Hart} {Q : α → Hart → Prop}
    (hm : wp m Q (fun e _ => e ≠ .panic "sched locks") h) : schedLocks (m h) = false := by
  cases hr : m h with
  | ok a h' => rfl
  | error e h' => exact decide_eq_false (wp_error hm hr)

/-- A swapped page takes some hart that holds the pipe's lock to the panic, and no other page
does. -/
theorem walkaddr_schedLocks_iff (pte : Pte) :
    (∀ fuel va h, va < maxva → h.held = [.pipe] → h.noff = 1 → h.sees.walk h.proc va = some pte →
      schedLocks (walkaddr fuel h.proc va h) = false) ↔ ¬ Swapped pte := by
  refine ⟨fun hsafe hs => ?_, fun hs fuel va h hva _ _ hpte => ?_⟩
  · -- the look finds `pte`; then the free list gets a page, and the swap-in has to wait
    let s : Shared := { pressed [] with
      tables := fun _ => ⟨true, fun _ => true, fun _ _ => true, fun _ => pte⟩ }
    have hlook := hsafe 3 0 (inPipe s (leave (pressed [kernbase + pgsize])) [])
      (by decide) rfl rfl rfl
    have hv : has pte pteV = false := by rw [has_pteV]; exact hs.1
    have hsw : has pte pteSwapped = true := by rw [has_pteSwapped]; exact hs.2
    have hgo : walkaddr 3 0 0 (inPipe s (leave (pressed [kernbase + pgsize])) [])
        = (if has pte pteV then pure (userPage pte)
            else if has pte pteSwapped then walkaddrSwapIn 3 0 0 else pure 0)
          (inPipe s (fun n => leave (pressed [kernbase + pgsize]) (n + 1)) [.pte (some pte)]) := rfl
    have hkalloc : walkaddrSwapIn 3 0 0
          (inPipe s (fun n => leave (pressed [kernbase + pgsize]) (n + 1)) [.pte (some pte)])
        = walkaddrSwapIn 3 0 0 ((inPipe (pressed [])
          (fun n => leave (pressed [kernbase + pgsize]) (n + 1)) []).withLog
            [.pte (some pte)]) := by
      have hacq : acquire .kmem
            (inPipe s (fun n => leave (pressed [kernbase + pgsize]) (n + 1)) [.pte (some pte)])
          = acquire .kmem ((inPipe (pressed [])
            (fun n => leave (pressed [kernbase + pgsize]) (n + 1)) []).withLog
              [.pte (some pte)]) := rfl
      simp only [walkaddrSwapIn, kalloc, Bind.bind, EStateM.bind, hacq]
    rw [show (inPipe s (leave (pressed [kernbase + pgsize])) []).proc = 0 from rfl, hgo, hv, hsw,
      if_neg (by decide), if_pos rfl, hkalloc, schedLocks_of_logs (logs_walkaddrSwapIn _ _ _),
      schedLocks_swapIn] at hlook
    cases hlook
  · refine schedLocks_eq_false (Q := fun _ _ => True) ?_
    rw [walkaddr, if_neg (by omega)]
    simp only [lookPte, interfere, walk, getShared, if_neg (show ¬ va ≥ maxva by omega), wp_bind,
      wp_modify, wp_get, wp_pure]
    rw [hpte]
    refine wp_ite.mpr ⟨fun _ => trivial, fun hv => wp_ite.mpr ⟨fun hsw => ?_, fun _ => trivial⟩⟩
    rw [has_pteV, Bool.not_eq_true] at hv
    rw [has_pteSwapped] at hsw
    exact absurd ⟨hv, hsw⟩ hs

/-- An empty free list takes some hart that holds the pipe's lock to the panic, and no other one
does. -/
theorem kalloc_schedLocks_iff (pages : ℕ) :
    (∀ fuel h, h.held = [.pipe] → h.noff = 1 → h.sees.freelist.length = pages →
      schedLocks (kalloc fuel h) = false) ↔ pages ≠ 0 := by
  refine ⟨fun hsafe hp => ?_, fun hp fuel h _ _ hlen => ?_⟩
  · have := hsafe 3 (inPipe (pressed []) rest []) rfl rfl hp.symm
    rw [schedLocks_evict] at this
    cases this
  · refine schedLocks_eq_false (Q := fun _ _ => True) ?_
    cases fuel with
    | zero => exact wp_throw.mpr (by decide)
    | succ fuel =>
      simp only [kalloc, acquire, pushOff, holding, interfere, getShared, wp_bind,
        wp_modify, wp_get,
        wp_pure, wp_ite, wp_throw]
      refine ⟨fun _ => by decide, fun _ => ?_⟩
      split
      next r pages hr =>
        simp only [modShared, release, holding, popOff, wp_bind, wp_modify, wp_get, wp_pure, wp_ite,
          wp_throw, wp_set]
        simp
      next hr =>
        have hnil : h.sees.freelist = [] := hr
        rw [hnil, List.length_nil] at hlen
        exact absurd hlen.symm hp

/-- **Pipes and the disk.** A run of `pipewrite` or `piperead`, from no lock held and among any
other harts, that stops at the panic of `sched` has looked at a swapped page or at an empty free
list. With `pi->lock` held, each such look can lead there, and no other look of `walkaddr` or
`kalloc` does. -/
theorem pipe_sched_locks (fuel addr : ℕ) (n : ℤ) (h h' : Hart) (hheld : h.held = [])
    (hnoff : h.noff = 0) :
    (pipewrite fuel addr n h = .error (.panic "sched locks") h' → ¬ h'.Calm) ∧
    (piperead fuel addr n h = .error (.panic "sched locks") h' → ¬ h'.Calm) ∧
    (∀ pte, (∀ fuel va h, va < maxva → h.held = [.pipe] → h.noff = 1 →
      h.sees.walk h.proc va = some pte → schedLocks (walkaddr fuel h.proc va h) = false) ↔
        ¬ Swapped pte) ∧
    ∀ pages, (∀ fuel h, h.held = [.pipe] → h.noff = 1 → h.sees.freelist.length = pages →
      schedLocks (kalloc fuel h) = false) ↔ pages ≠ 0 := by
  have hat : At h.proc [] h := ⟨rfl, hheld, hnoff⟩
  exact ⟨fun hr hc => wp_error ((pipewrite_keeps fuel addr n).post h hat) hr hc rfl,
    fun hr hc => wp_error ((piperead_keeps fuel addr n).post h hat) hr hc rfl,
    walkaddr_schedLocks_iff, kalloc_schedLocks_iff⟩

/-- A process about to call `pipewrite`, with no lock held and the other harts at rest. -/
def caller (s : Shared) : Hart := ⟨0, true, true, [], 0, true, s, rest, []⟩

/-- One byte from a page that is swapped out, to an open, empty pipe, with a free page at hand. -/
theorem pipewrite_counterexample :
    Swapped ((pressed [kernbase + pgsize]).tables 0 |>.leaf (vkey 0)) ∧
    (caller (pressed [kernbase + pgsize])).held = [] ∧
    (caller (pressed [kernbase + pgsize])).noff = 0 ∧
    schedLocks (pipewrite 5 0 1 (caller (pressed [kernbase + pgsize]))) = true := by
  refine ⟨by decide, rfl, rfl, ?_⟩
  decide +kernel

/-- From a resident page the byte is written, to a pipe with room for it. -/
theorem pipe_sched_locks_resident : let s := { pressed [] with
      tables := fun _ =>
        ⟨true, fun _ => true, fun _ _ => true, fun _ => mapPte kernbase (pteR ||| pteU)⟩ }
    (∀ h', pipewrite 5 0 1 (caller s) = .error (.panic "sched locks") h' → ¬ h'.Calm) ∧
    schedLocks (pipewrite 5 0 1 (caller s)) = false ∧
    ¬ Swapped (mapPte kernbase (pteR ||| pteU)) := by
  refine ⟨fun h' => (pipe_sched_locks 5 0 1 _ h' rfl rfl).1, ?_, by decide⟩
  decide +kernel

end Locks

end Xv6
