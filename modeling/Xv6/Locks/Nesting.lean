import Xv6.Lib.WeakestPre
import Xv6.Locks.SwapPath

/-!
# The nesting depth along the swap path

`Keeps p L m L'` says what a piece of code does to the locks of a hart that runs process `p`: from
exactly the locks `L` it comes to exactly the locks `L'`, and it does not stop at the panic of
`sched`. That is asked only of executions in which every look was calm: `walkaddr` found no page on
the disk, and `kalloc` found no empty free list. For the code beyond such a look nothing is asked,
except that it does not forget it (`Logs`).

## Main results

* `Keeps.bind` — the rule for sequences
* `sleep_keeps` — sleeping with one lock held is fine
* `kalloc_keeps`, `walkaddr_keeps`, `vmfault_keeps` — calm looks do not reach the disk
-/

namespace Xv6

namespace Locks

open Mem WeakestPre

variable {α β : Type} {p : ℕ} {L L₁ L' : List Lock} {lk : Lock}

/-! ### Looks -/

/-- The page was not on the disk, or the free list not empty. -/
def Look.Calm : Look → Prop
  | .pte found => ∀ pte, found = some pte → ¬ Swapped pte
  | .free pages => pages ≠ 0

/-- Every look so far was calm. -/
def Hart.Calm (h : Hart) : Prop := ∀ l ∈ h.log, l.Calm

theorem Hart.Calm.of_suffix {h h' : Hart} (hc : h'.Calm) (hs : h.log <:+ h'.log) : h.Calm :=
  fun l hl => hc l (hs.subset hl)

/-- The hart with older looks. -/
def Hart.withLog (h : Hart) (l : List Look) : Hart := { h with log := h.log ++ l }

/-- The code adds to the log and does not depend on it: with older looks it does the same. -/
def Logs (m : M α) : Prop := ∀ h l, m (h.withLog l) = match m h with
  | .ok a h' => .ok a (h'.withLog l)
  | .error e h' => .error e (h'.withLog l)

theorem logs_pure (a : α) : Logs (pure a : M α) := fun _ _ => rfl

theorem logs_throw (e : Stop) : Logs (throw e : M α) := fun _ _ => rfl

theorem logs_modify {f : Hart → Hart} (hf : ∀ h l, f (h.withLog l) = (f h).withLog l) :
    Logs (modify f : M Unit) := fun h l => congrArg (EStateM.Result.ok ()) (hf h l)

theorem Logs.bind {m : M α} {f : α → M β} (hm : Logs m) (hf : ∀ a, Logs (f a)) :
    Logs (m >>= f) := fun h l => by
  have hmh := hm h l
  simp only [Bind.bind, EStateM.bind]
  cases hr : m h with
  | ok a h' =>
    rw [hr] at hmh
    simp only [hmh]
    exact hf a h' l
  | error e h' =>
    rw [hr] at hmh
    simp only [hmh]

theorem Logs.ite {c : Prop} [Decidable c] {m n : M α} (hm : Logs m) (hn : Logs n) :
    Logs (if c then m else n) := by
  split <;> assumption

/-- No look is forgotten. -/
theorem Logs.suffix {m : M α} (hm : Logs m) (h : Hart) :
    wp m (fun _ h' => h.log <:+ h'.log) (fun _ h' => h.log <:+ h'.log) h := by
  have heq := hm { h with log := [] } h.log
  have hh : ({ h with log := [] } : Hart).withLog h.log = h := rfl
  rw [hh] at heq
  unfold wp
  rw [heq]
  cases m { h with log := [] } <;> exact List.suffix_append _ _

/-! ### Locks held -/

/-- Process `p` runs on the hart, which holds the locks `L`, one level of nesting each. -/
structure At (p : ℕ) (L : List Lock) (h : Hart) : Prop where
  proc : h.proc = p
  held : h.held = L
  noff : h.noff = L.length

/-- With calm looks, the code gets from the locks `L` to the locks `L'` without the panic. -/
structure Keeps (p : ℕ) (L : List Lock) (m : M α) (L' : List Lock) : Prop where
  logs : Logs m
  post : ∀ h, At p L h → wp m (fun _ h' => h'.Calm → At p L' h')
    (fun e h' => h'.Calm → e ≠ .panic "sched locks") h

/-- After a look that was not calm nothing is asked. -/
theorem Logs.of_not_calm {m : M α} (hm : Logs m) {h : Hart} (hc : ¬ h.Calm)
    {Q : α → Hart → Prop} {E : Stop → Hart → Prop} :
    wp m (fun a h' => h'.Calm → Q a h') (fun e h' => h'.Calm → E e h') h :=
  wp_mono (hm.suffix h) (fun _ _ hs hc' => absurd (hc'.of_suffix hs) hc)
    fun _ _ hs hc' => absurd (hc'.of_suffix hs) hc

theorem Keeps.bind {m : M α} {f : α → M β} (hm : Keeps p L m L₁) (hf : ∀ a, Keeps p L₁ (f a) L') :
    Keeps p L (m >>= f) L' where
  logs := hm.logs.bind fun a => (hf a).logs
  post h hat := wp_bind.mpr <| wp_imp (hm.post h hat) fun a h' hat' => by
      by_cases hc : h'.Calm
      · exact (hf a).post h' (hat' hc)
      · exact (hf a).logs.of_not_calm hc

theorem keeps_pure (a : α) : Keeps p L (pure a : M α) L where
  logs := logs_pure a
  post _ hat _ := hat

theorem keeps_throw {e : Stop} (he : e ≠ .panic "sched locks") : Keeps p L (throw e : M α) L' where
  logs := logs_throw e
  post _ _ _ := he

theorem Keeps.ite {c : Prop} [Decidable c] {m n : M α} (hm : Keeps p L m L') (hn : Keeps p L n L') :
    Keeps p L (if c then m else n) L' := by
  split <;> assumption

/-- An update that leaves the locks and the log alone. -/
theorem keeps_modify {f : Hart → Hart} (hlog : ∀ h l, f (h.withLog l) = (f h).withLog l)
    (hat : ∀ h, At p L h → At p L (f h)) : Keeps p L (modify f : M Unit) L where
  logs := logs_modify hlog
  post h hh _ := hat h hh

theorem keeps_modShared (f : Shared → Shared) : Keeps p L (modShared f) L :=
  keeps_modify (fun _ _ => rfl) fun _ h => ⟨h.proc, h.held, h.noff⟩

theorem keeps_getShared : Keeps p L getShared L where
  logs _ _ := rfl
  post _ hat _ := hat

theorem keeps_interfere : Keeps p L interfere L :=
  keeps_modify (fun _ _ => rfl) fun _ h => ⟨h.proc, h.held, h.noff⟩

/-- Code that looks at nothing, and whose effect on the locks does not depend on what it finds. -/
theorem keeps_of_wp {m : M α} {R : Hart → Hart → Prop}
    (hlogs : Logs m) (hm : ∀ h, wp m (fun _ => R h) (fun e _ => e ≠ .panic "sched locks") h)
    (hR : ∀ h h', At p L h → R h h' → At p L' h') : Keeps p L m L' where
  logs := hlogs
  post h hat := wp_mono (hm h) (fun _ h' hq _ => hR h h' hat hq) fun _ _ he _ => he

/-! ### `spinlock.c` and `proc.c` -/

theorem get_bind (f : Hart → M α) (h : Hart) : (get >>= f) h = f h h := rfl

/-- Code that first reads the hart, but not its log. -/
theorem logs_get_bind {f : Hart → M α} (hf : ∀ h l, f (h.withLog l) = f h)
    (hlogs : ∀ h, Logs (f h)) : Logs (get >>= f) := by
  intro h l
  rw [get_bind, get_bind, hf]
  exact hlogs h h l

theorem logs_popOff : Logs popOff := by
  intro h l
  have hintr : (h.withLog l).intr = h.intr := rfl
  have hnoff : (h.withLog l).noff = h.noff := rfl
  rw [popOff, get_bind, get_bind, hintr, hnoff]
  by_cases h1 : h.intr = true
  · rw [if_pos h1, if_pos h1]
    rfl
  · rw [if_neg h1, if_neg h1]
    by_cases h2 : h.noff < 1
    · rw [if_pos h2, if_pos h2]
      rfl
    · rw [if_neg h2, if_neg h2]
      rfl

theorem logs_acquire (lk : Lock) : Logs (acquire lk) :=
  Logs.bind (m := pushOff) (logs_modify fun _ _ => rfl) fun _ =>
    Logs.bind (m := holding lk) (fun _ _ => rfl) fun _ => Logs.ite (logs_throw _)
      (Logs.bind (m := interfere) (logs_modify fun _ _ => rfl) fun _ => logs_modify fun _ _ => rfl)

theorem logs_release (lk : Lock) : Logs (release lk) :=
  Logs.bind (m := holding lk) (fun _ _ => rfl) fun _ =>
    Logs.ite ((logs_modify fun _ _ => rfl).bind fun _ => logs_popOff) (logs_throw _)

theorem logs_myproc : Logs myproc :=
  Logs.bind (m := pushOff) (logs_modify fun _ _ => rfl) fun _ =>
    logs_get_bind (fun _ _ => rfl) fun h => logs_popOff.bind fun _ => logs_pure h.proc

theorem logs_modShared (f : Shared → Shared) : Logs (modShared f) := logs_modify fun _ _ => rfl

theorem logs_getShared : Logs getShared := fun _ _ => rfl

theorem acquire_keeps : Keeps p L (acquire lk) (lk :: L) := by
  refine keeps_of_wp (R := fun h h' => h'.proc = h.proc ∧ h'.held = lk :: h.held ∧
    h'.noff = h.noff + 1) (logs_acquire lk) (fun h => ?_) fun h h' hat hR => ?_
  · simp only [acquire, pushOff, holding, interfere, wp_bind, wp_modify, wp_get, wp_pure, wp_ite,
      wp_throw]
    simp
  · refine ⟨hR.1.trans hat.proc, by rw [hR.2.1, hat.held], ?_⟩
    rw [hR.2.2, hat.noff, List.length_cons, Nat.cast_succ]

theorem release_keeps (hmem : lk ∈ L) : Keeps p L (release lk) (L.erase lk) := by
  refine keeps_of_wp (R := fun h h' => h'.proc = h.proc ∧ h'.held = h.held.erase lk ∧
    h'.noff = h.noff - 1) (logs_release lk) (fun h => ?_) fun h h' hat hR => ?_
  · simp only [release, holding, popOff, wp_bind, wp_modify, wp_get, wp_pure, wp_ite, wp_throw,
      wp_set]
    simp
  · refine ⟨hR.1.trans hat.proc, by rw [hR.2.1, hat.held], ?_⟩
    have hpos := List.length_pos_of_mem hmem
    rw [hR.2.2, hat.noff, List.length_erase_of_mem hmem]
    omega

theorem release_head_keeps : Keeps p (lk :: L) (release lk) L := by
  have h : Keeps p (lk :: L) (release lk) ((lk :: L).erase lk) :=
    release_keeps List.mem_cons_self
  rwa [List.erase_cons_head] at h

/-- `myproc` returns the process. -/
theorem myproc_bind_keeps {f : ℕ → M α} (hlogs : ∀ q, Logs (f q)) (hf : Keeps p L (f p) L') :
    Keeps p L (myproc >>= f) L' := by
  have hwp : ∀ h, wp myproc
      (fun q h' => q = h.proc ∧ h'.proc = h.proc ∧ h'.held = h.held ∧ h'.noff = h.noff)
      (fun e _ => e ≠ .panic "sched locks") h := fun h => by
    simp only [myproc, pushOff, popOff, wp_bind, wp_modify, wp_get, wp_ite, wp_throw,
      wp_set, wp_pure]
    simp
  refine ⟨logs_myproc.bind hlogs, fun h hat => wp_bind.mpr <| wp_mono (hwp h)
    (fun q h' hq => ?_) fun _ _ he _ => he⟩
  obtain ⟨rfl, hproc, hheld, hnoff⟩ := hq
  rw [hat.proc]
  exact hf.post h' ⟨hproc.trans hat.proc, hheld.trans hat.held, hnoff.trans hat.noff⟩

theorem logs_swtch : Logs swtch :=
  Logs.bind (m := interfere) (logs_modify fun _ _ => rfl) fun _ => logs_modify fun _ _ => rfl

/-- `sched` keeps the lock of its process, when that is the only one. -/
theorem sched_keeps : Keeps p [.proc p] sched [.proc p] := by
  have hlogs : ∀ q, Logs (do
      let h ← get
      if h.noff ≠ 1 then throw (.panic "sched locks")
      else if .proc q ∉ h.held then throw (.panic "sched p->lock")
      else if h.running then throw (.panic "sched RUNNING")
      else if h.intr then throw (.panic "sched interruptible")
      else
        swtch
        modify fun h' => { h' with intena := h.intena } : M Unit) := fun q h l => by
    have hbody : ∀ h₀ : Hart, Logs (if h₀.noff ≠ 1 then throw (.panic "sched locks")
      else if .proc q ∉ h₀.held then throw (.panic "sched p->lock")
      else if h₀.running then throw (.panic "sched RUNNING")
      else if h₀.intr then throw (.panic "sched interruptible")
      else do
        swtch
        modify fun h' => { h' with intena := h₀.intena } : M Unit) := fun h₀ =>
      Logs.ite (logs_throw _) <| Logs.ite (logs_throw _) <| Logs.ite (logs_throw _) <|
        Logs.ite (logs_throw _) <| logs_swtch.bind fun _ => logs_modify fun _ _ => rfl
    exact hbody h h l
  refine myproc_bind_keeps hlogs ⟨hlogs p, fun h hat => ?_⟩
  have hnoff : h.noff = 1 := hat.noff
  have hheld : h.held = [.proc p] := hat.held
  simp only [swtch, interfere, wp_bind, wp_get, wp_ite, wp_throw, wp_modify]
  simp only [hnoff, hheld, ne_eq, not_true_eq_false, IsEmpty.forall_iff, not_false_eq_true,
    List.mem_singleton, forall_const, true_and]
  exact ⟨fun _ _ => by decide, fun _ => ⟨fun _ _ => by decide, fun _ _ =>
    ⟨hat.proc, by rw [hat.proc], rfl⟩⟩⟩

/-- **Sleeping** with one lock held: it is released, and taken again. -/
theorem sleep_keeps (hlk : lk ≠ .proc p) : Keeps p [lk] (sleep lk) [lk] := by
  refine myproc_bind_keeps (fun q => ?_) ?_
  · exact (logs_acquire _).bind fun _ => (logs_release _).bind fun _ =>
      Logs.bind (logs_modify fun _ _ => rfl) fun _ =>
      (sched_keeps (p := 0)).logs.bind fun _ => (logs_release _).bind fun _ => logs_acquire _
  · have hrel : Keeps p [.proc p, lk] (release lk) [.proc p] := by
      have h : Keeps p [.proc p, lk] (release lk) ([.proc p, lk].erase lk) :=
        release_keeps (by simp)
      rwa [List.erase_cons_tail (by simpa using hlk.symm), List.erase_cons_head] at h
    have hstate : Keeps p [.proc p] (modify fun h => { h with running := false } : M Unit)
        [.proc p] := keeps_modify (fun _ _ => rfl) fun _ h => ⟨h.proc, h.held, h.noff⟩
    exact acquire_keeps.bind fun _ => hrel.bind fun _ => hstate.bind fun _ =>
      sched_keeps.bind fun _ => release_head_keeps.bind fun _ => acquire_keeps

theorem logs_sleep (lk : Lock) : Logs (sleep lk) := by
  by_cases h : lk = .proc 0
  · exact (sleep_keeps (p := 1) (by rw [h]; decide)).logs
  · exact (sleep_keeps h).logs

theorem wakeup_keeps : Keeps p L wakeup L := by
  have hloop : ∀ is, Keeps p L (wakeupLoop is) L := fun is => by
    induction is with
    | nil => exact keeps_pure ()
    | cons i is ih =>
      have hstep : ∀ q, Keeps p L (if i ≠ q then do
          acquire (.proc i)
          release (.proc i)
          wakeupLoop is else wakeupLoop is) L := fun q =>
        Keeps.ite (acquire_keeps.bind fun _ => release_head_keeps.bind fun _ => ih) ih
      exact myproc_bind_keeps (fun q => (hstep q).logs) (hstep p)
  exact hloop _

theorem killed_keeps (q : ℕ) : Keeps p L (killed q) L :=
  acquire_keeps.bind fun _ => keeps_getShared.bind fun _ => release_head_keeps.bind fun _ =>
    keeps_pure _

/-! ### Beyond a look that was not calm -/

theorem logs_wakeup : Logs wakeup := (wakeup_keeps (p := 0) (L := [])).logs

theorem logs_modBuf (b : ℕ) (f : Buf → Buf) : Logs (modBuf b f) := logs_modShared _

theorem logs_modDisk (f : Disk.DiskState → Disk.DiskState) : Logs (modDisk f) := logs_modShared _

theorem logs_acquiresleep (fuel b : ℕ) : Logs (acquiresleep fuel b) := by
  have hloop : ∀ fuel, Logs (acquiresleepLoop b fuel) := fun fuel => by
    induction fuel with
    | zero => exact logs_throw _
    | succ fuel ih =>
      exact logs_getShared.bind fun _ => Logs.ite ((logs_sleep _).bind fun _ => ih) (logs_pure _)
  exact (logs_acquire _).bind fun _ => (hloop fuel).bind fun _ => logs_myproc.bind fun _ =>
    (logs_modBuf _ _).bind fun _ => logs_release _

theorem logs_holdingsleep (b : ℕ) : Logs (holdingsleep b) :=
  (logs_acquire _).bind fun _ => logs_getShared.bind fun _ => logs_myproc.bind fun _ =>
    (logs_release _).bind fun _ => logs_pure _

theorem logs_freeDescs (n : ℕ) : Logs (freeDescs n) := by
  induction n with
  | zero => exact logs_pure _
  | succ n ih => exact (logs_modShared _).bind fun _ => logs_wakeup.bind fun _ => ih

theorem logs_virtioDiskRw (fuel b : ℕ) : Logs (virtioDiskRw fuel b) := by
  have halloc : Logs alloc3Desc := logs_getShared.bind fun _ =>
    Logs.ite ((logs_modShared _).bind fun _ => logs_pure _)
      ((logs_modShared _).bind fun _ => (logs_freeDescs _).bind fun _ => logs_pure _)
  have hdesc : ∀ fuel, Logs (descLoop fuel) := fun fuel => by
    induction fuel with
    | zero => exact logs_throw _
    | succ fuel ih =>
      exact halloc.bind fun _ => Logs.ite (logs_pure _) ((logs_sleep _).bind fun _ => ih)
  have hloop : ∀ fuel, Logs (transferLoop b fuel) := fun fuel => by
    induction fuel with
    | zero => exact logs_throw _
    | succ fuel ih =>
      exact logs_getShared.bind fun _ => Logs.ite ((logs_sleep _).bind fun _ => ih) (logs_pure _)
  exact (logs_acquire _).bind fun _ => (hdesc fuel).bind fun _ => (logs_modBuf _ _).bind fun _ =>
    (hloop fuel).bind fun _ => (logs_freeDescs _).bind fun _ => logs_release _

theorem logs_bget (fuel blockno : ℕ) : Logs (bget fuel blockno) := by
  refine (logs_acquire _).bind fun _ => logs_getShared.bind fun s => ?_
  have hfound : ∀ b f, Logs (do modBuf b f; release .bcache; acquiresleep fuel b; pure b) :=
    fun b f => (logs_modBuf _ _).bind fun _ => (logs_release _).bind fun _ =>
      (logs_acquiresleep _ _).bind fun _ => logs_pure _
  split
  · exact hfound _ _
  · split
    · exact hfound _ _
    · exact logs_throw _

theorem logs_bread (fuel blockno : ℕ) : Logs (bread fuel blockno) :=
  (logs_bget _ _).bind fun _ => logs_getShared.bind fun _ => Logs.ite (logs_pure _)
    ((logs_virtioDiskRw _ _).bind fun _ => (logs_modBuf _ _).bind fun _ => logs_pure _)

theorem logs_bwrite (fuel b : ℕ) : Logs (bwrite fuel b) :=
  (logs_holdingsleep _).bind fun _ => Logs.ite (logs_virtioDiskRw _ _) (logs_throw _)

theorem logs_brelse (b : ℕ) : Logs (brelse b) := by
  have hrel : Logs (releasesleep b) := (logs_acquire _).bind fun _ =>
    (logs_modBuf _ _).bind fun _ =>
    logs_wakeup.bind fun _ => logs_release _
  exact (logs_holdingsleep _).bind fun _ => Logs.ite
    (hrel.bind fun _ => (logs_acquire _).bind fun _ => (logs_modBuf _ _).bind fun _ =>
      (logs_modShared _).bind fun _ => logs_release _) (logs_throw _)

theorem logs_runDiskQueue (fuel : ℕ) : Logs (runDiskQueue fuel) := by
  induction fuel with
  | zero => exact logs_throw _
  | succ fuel ih =>
    have hdisk : ∀ r, Logs (doDisk fuel r) := fun r =>
      (logs_bread _ _).bind fun _ => (logs_modDisk _).bind fun _ => Logs.ite
        ((logs_bwrite _ _).bind fun _ => logs_brelse _) (logs_brelse _)
    refine (logs_acquire _).bind fun _ => logs_getShared.bind fun s => ?_
    split
    · exact logs_release _
    · split
      · exact logs_release _
      · exact logs_myproc.bind fun _ => (logs_acquire _).bind fun _ =>
          (logs_modDisk _).bind fun _ =>
          (logs_release _).bind fun _ => (logs_release _).bind fun _ => (hdisk _).bind fun _ => ih

theorem logs_raidOps (ops : List Disk.RaidOp) : Logs (raidOps ops) := by
  induction ops with
  | nil => exact logs_pure _
  | cons op ops ih =>
    exact (logs_acquire _).bind fun _ => (logs_modDisk _).bind fun _ =>
      (logs_release _).bind fun _ => ih

theorem logs_swapOut (fuel pa : ℕ) : Logs (swapOut fuel pa) := by
  have hwrite : ∀ slot priority, Logs (diskSwapWrite fuel slot pa priority) := fun slot priority =>
    (logs_acquire _).bind fun _ => logs_getShared.bind fun _ => (logs_release _).bind fun _ =>
      (logs_modDisk _).bind fun _ => (logs_raidOps _).bind fun _ => logs_runDiskQueue _
  refine logs_myproc.bind fun p => logs_getShared.bind fun _ => (logs_acquire _).bind fun _ =>
    logs_getShared.bind fun s => ?_
  split
  · exact (logs_release _).bind fun _ => logs_pure _
  · exact (logs_modShared _).bind fun _ => (logs_release _).bind fun _ => (hwrite _ _).bind fun _ =>
      (logs_acquire _).bind fun _ => (logs_modDisk _).bind fun _ => (logs_release _).bind fun _ =>
      logs_pure _

theorem logs_swapIn (fuel pa : ℕ) (slot : ℤ) : Logs (swapIn fuel pa slot) := by
  have hread : ∀ priority, Logs (diskSwapRead fuel slot pa priority) := fun priority =>
    logs_getShared.bind fun _ => (logs_raidOps _).bind fun _ => logs_runDiskQueue _
  exact logs_myproc.bind fun p => logs_getShared.bind fun _ => (hread _).bind fun _ =>
    (logs_acquire _).bind fun _ => (logs_modShared _).bind fun _ => (logs_release _).bind fun _ =>
    Logs.bind (m := holding _) (fun _ _ => rfl) fun _ => Logs.ite (logs_modDisk _)
      ((logs_acquire _).bind fun _ => (logs_modDisk _).bind fun _ => logs_release _)

theorem logs_clearFrame (i : ℕ) : Logs (clearFrame i) :=
  (logs_acquire _).bind fun _ => logs_getShared.bind fun _ => (logs_modShared _).bind fun _ =>
    (logs_release _).bind fun _ => logs_pure _

theorem logs_kfree (pa : ℕ) : Logs (kfree pa) :=
  logs_getShared.bind fun _ => Logs.ite (logs_throw _)
    ((Logs.ite ((logs_clearFrame _).bind fun _ => logs_pure _) (logs_pure _)).bind fun _ =>
      (logs_acquire _).bind fun _ => (logs_modShared _).bind fun _ => logs_release _)

theorem logs_walk (q va : ℕ) : Logs (walk q va) :=
  Logs.ite (logs_throw _) (logs_getShared.bind fun _ => logs_pure _)

theorem logs_evictLoop {kalloc : M ℕ} (hk : Logs kalloc) (fuel n : ℕ) :
    Logs (evictLoop fuel kalloc n) := by
  have hvictim : ∀ i q va pa, Logs (evictVictim fuel kalloc i q va pa) := fun i q va pa => by
    refine (logs_swapOut _ _).bind fun slot => ?_
    split
    · exact logs_throw _
    · refine logs_getShared.bind fun _ => (logs_modShared _).bind fun _ =>
        (logs_clearFrame _).bind fun owner => ?_
      have hfree : Logs (do kfree pa; kalloc) := (logs_kfree _).bind fun _ => hk
      cases owner with
      | some q => exact (logs_acquire _).bind fun _ => (logs_release _).bind fun _ => hfree
      | none => exact hfree
  induction n with
  | zero => exact logs_throw _
  | succ n ih =>
    have hskip : Logs (do release .frametable; evictLoop fuel kalloc n) :=
      (logs_release _).bind fun _ => ih
    refine (logs_acquire _).bind fun _ => logs_getShared.bind fun s =>
      (logs_modShared _).bind fun _ => ?_
    split
    · refine (logs_walk _ _).bind fun found => ?_
      split
      · exact Logs.ite (Logs.ite ((logs_modShared _).bind fun _ => hskip)
          ((logs_modShared _).bind fun _ => (logs_release _).bind fun _ => hvictim _ _ _ _)) hskip
      · exact hskip
    · exact hskip

/-! ### Calm looks -/

/-- A page from the free list. -/
theorem kalloc_keeps (fuel : ℕ) : Keeps p L (kalloc fuel) L := by
  induction fuel with
  | zero => exact keeps_throw (by decide)
  | succ fuel ih =>
    refine acquire_keeps.bind fun _ => ⟨?_, fun h hat => ?_⟩
    · refine logs_getShared.bind fun s => (logs_modify fun _ _ => rfl).bind fun _ => ?_
      split
      · exact (logs_modShared _).bind fun _ => (logs_release _).bind fun _ => logs_pure _
      · exact (logs_release _).bind fun _ => logs_evictLoop ih.logs _ _
    · simp only [getShared, wp_bind, wp_get, wp_pure, wp_modify]
      split
      case h_1 r rest hr =>
        have hk : Keeps p (.kmem :: L) (do
            modShared fun s => { s with freelist := rest }
            release .kmem
            pure r) L :=
          (keeps_modShared _).bind fun _ => release_head_keeps.bind fun _ => keeps_pure _
        exact hk.post _ ⟨hat.proc, hat.held, hat.noff⟩
      case h_2 hr =>
        have hlogs : Logs (do release .kmem; evictLoop fuel (kalloc fuel) fuel) :=
          (logs_release _).bind fun _ => logs_evictLoop ih.logs _ _
        refine hlogs.of_not_calm fun hc => ?_
        exact hc _ List.mem_cons_self (by rw [hr, List.length_nil])

theorem walk_keeps (q va : ℕ) : Keeps p L (walk q va) L :=
  Keeps.ite (keeps_throw (by decide)) (keeps_getShared.bind fun _ => keeps_pure _)

theorem walkLevel_keeps (fuel q : ℕ) (present : Table → Bool) (add : Table → Table) :
    Keeps p L (walkLevel fuel q present add) L :=
  keeps_getShared.bind fun _ => Keeps.ite (keeps_pure _)
    ((kalloc_keeps _).bind fun _ => keeps_modShared _)

theorem mappages_keeps (fuel q va pa : ℕ) (perm : Pte) :
    Keeps p L (mappages fuel q va pa perm) L := by
  have hwalk : Keeps p L (walkAlloc fuel q va) L := Keeps.ite (keeps_throw (by decide))
    ((walkLevel_keeps _ _ _ _).bind fun _ => walkLevel_keeps _ _ _ _)
  exact Keeps.ite (keeps_throw (by decide)) (hwalk.bind fun _ => keeps_getShared.bind fun _ =>
    Keeps.ite (keeps_throw (by decide)) (keeps_modShared _))

theorem trackFrame_keeps (q va pa : ℕ) : Keeps p L (trackFrame q va pa) L :=
  Keeps.ite (keeps_pure _) (Keeps.ite (keeps_pure _)
    (acquire_keeps.bind fun _ => (keeps_modShared _).bind fun _ => release_head_keeps))

theorem logs_walkaddrSwapIn (fuel q va : ℕ) : Logs (walkaddrSwapIn fuel q va) :=
  (kalloc_keeps (p := 0) (L := []) fuel).logs.bind fun _ => logs_getShared.bind fun _ =>
    (logs_swapIn _ _ _).bind fun _ => logs_getShared.bind fun _ => (logs_modShared _).bind fun _ =>
    logs_pure _

/-- A page that is not on the disk. -/
theorem walkaddr_keeps (fuel q va : ℕ) : Keeps p L (walkaddr fuel q va) L := by
  refine Keeps.ite (keeps_pure _) ?_
  simp only [lookPte, bind_assoc, pure_bind]
  refine keeps_interfere.bind fun _ => (walk_keeps _ _).bind fun found => ⟨?_, fun h hat => ?_⟩
  · refine (logs_modify fun _ _ => rfl).bind fun _ => ?_
    split
    · exact logs_pure _
    · exact Logs.ite (logs_pure _) (Logs.ite (logs_walkaddrSwapIn _ _ _) (logs_pure _))
  · rw [wp_bind, wp_modify]
    split
    · exact fun _ => ⟨hat.proc, hat.held, hat.noff⟩
    next pte =>
      refine wp_ite.mpr ⟨fun _ _ => ⟨hat.proc, hat.held, hat.noff⟩, fun hv => ?_⟩
      refine wp_ite.mpr ⟨fun hs => (logs_walkaddrSwapIn _ _ _).of_not_calm fun hc => ?_,
        fun _ _ => ⟨hat.proc, hat.held, hat.noff⟩⟩
      rw [has_pteV, Bool.not_eq_true] at hv
      rw [has_pteSwapped] at hs
      exact hc _ List.mem_cons_self pte rfl ⟨hv, hs⟩

theorem vmfault_keeps (fuel va : ℕ) : Keeps p L (vmfault fuel va) L := by
  have hbody : ∀ q, Keeps p L (do
      let s ← getShared
      if va ≥ s.sz q then pure 0
      else if ← ismapped q (pgrounddown va) then pure 0
      else
        let mem ← kalloc fuel
        mappages fuel q (pgrounddown va) mem (pteW ||| pteU ||| pteR)
        trackFrame q (pgrounddown va) mem
        pure mem) L := fun q =>
    keeps_getShared.bind fun _ => Keeps.ite (keeps_pure _)
      (((walk_keeps _ _).bind fun _ => keeps_pure _).bind fun _ => Keeps.ite (keeps_pure _)
        ((kalloc_keeps _).bind fun _ => (mappages_keeps _ _ _ _ _).bind fun _ =>
          (trackFrame_keeps _ _ _).bind fun _ => keeps_pure _))
  exact myproc_bind_keeps (fun q => (hbody q).logs) (hbody p)

theorem copyPage_keeps (fuel q va0 : ℕ) : Keeps p L (copyPage fuel q va0) L :=
  (walkaddr_keeps _ _ _).bind fun _ => Keeps.ite (vmfault_keeps _ _) (keeps_pure _)

theorem copyin_keeps (fuel q srcva : ℕ) : Keeps p L (copyin fuel q srcva) L :=
  (copyPage_keeps _ _ _).bind fun _ => Keeps.ite (keeps_pure _)
    (keeps_getShared.bind fun _ => keeps_pure _)

theorem copyout_keeps (fuel q dstva : ℕ) (ch : BitVec 8) : Keeps p L (copyout fuel q dstva ch) L :=
  Keeps.ite (keeps_pure _) ((copyPage_keeps _ _ _).bind fun _ => Keeps.ite (keeps_pure _)
    (keeps_getShared.bind fun _ => Keeps.ite ((keeps_modShared _).bind fun _ => keeps_pure _)
      (keeps_pure _)))

end Locks

end Xv6
