import Mathlib.Data.List.Nodup
import Xv6.Family.Step

/-!
# Every child is reaped once, by a parent that is there

`allocproc` and `kwait` let go of all locks while they work on a slot of the table. What protects
the slot then is its state: only `allocproc` changes a free slot, only the process that makes it
changes a slot that is `USED`, and only its parent changes a zombie. `Inv` says so for every state;
`Effect` says once what a step can do, and each part of the invariant is shown for `Effect`.

## Main results

* `children_reaped_once`: what `freeproc` is applied to, and which pids `kwait` returns.
* `parents_live`: parent links point to live processes.
-/

namespace Xv6

namespace Family

open Sched (ProcState nproc)
open Function (update_apply)
open Transition

variable {c i p : ℕ} {chan w : Option ℕ} {ok : Bool} {old pc : Pc} {pid status : ℤ} {s : Sys}

/-- The process is neither free, nor being made, nor a zombie. -/
def Proc.Alive (p : Proc) : Prop := p.state = .sleeping ∨ p.state = .runnable ∨ p.state = .running

/-- What a process has to do with the slot of another one. -/
inductive Work where
  | none
  /-- It makes the process `pid` in slot `c`, and has made itself its parent or not. -/
  | setUp (c : ℕ) (pid : ℤ) (linked : Bool)
  /-- It reaps the zombie `pid` in slot `c`. -/
  | reap (c : ℕ) (pid : ℤ)
  deriving DecidableEq

def Pc.work : Pc → Work
  | .forkAlloc c pid | .forkCopy c pid | .forkParent c pid => .setUp c pid false
  | .forkStart c pid => .setUp c pid true
  | .waitCopyout c pid _ | .waitReturn c pid _ | .waitFree c pid _ => .reap c pid
  | .user | .forkScan _ | .waitEnter | .waitScan _ _ | .waitEnd _ | .waitSleep => .none
  | .exitEnter _ | .reparent _ _ | .reparentWake _ _ _ | .exitWake _ _ _ | .exitZombie _
  | .switch => .none

/-- The slots below this one have no child of the exiting process any more. -/
def Pc.given : Pc → ℕ
  | .reparent _ i => i
  | .reparentWake _ i _ => i + 1
  | .exitWake _ _ _ | .exitZombie _ => nproc
  | .user | .forkScan _ | .forkAlloc _ _ | .forkCopy _ _ | .forkParent _ _ | .forkStart _ _ => 0
  | .exitEnter _ | .switch | .waitEnter | .waitScan _ _ | .waitEnd _ | .waitSleep => 0
  | .waitCopyout _ _ _ | .waitReturn _ _ _ | .waitFree _ _ _ => 0

/-- The process is in `kexit`. -/
def Pc.exits : Pc → Bool
  | .exitEnter _ | .reparent _ _ | .reparentWake _ _ _ | .exitWake _ _ _ | .exitZombie _
  | .switch => true
  | .user | .forkScan _ | .forkAlloc _ _ | .forkCopy _ _ | .forkParent _ _ | .forkStart _ _ => false
  | .waitEnter | .waitScan _ _ | .waitEnd _ | .waitSleep => false
  | .waitCopyout _ _ _ | .waitReturn _ _ _ | .waitFree _ _ _ => false

/-- What holds in every state. -/
structure Inv (s : Sys) : Prop where
  /-- Only a process that is alive is in the code, but for a zombie that has not switched away. -/
  busy : ∀ p, (s.procs p).pc ≠ .user →
    (s.procs p).Alive ∨ (s.procs p).pc = .switch ∧ (s.procs p).state = .zombie
  lock : ∀ p, (s.procs p).pc.holdsWait = true ↔ s.waitLock = some p
  setUp : ∀ p c pid linked, (s.procs p).pc.work = .setUp c pid linked →
    (s.procs c).state = .used ∧ (s.procs c).pid = pid ∧
      (s.procs c).parent = if linked then some p else none
  setUp_inj : ∀ p q c pid pid' linked linked', (s.procs p).pc.work = .setUp c pid linked →
    (s.procs q).pc.work = .setUp c pid' linked' → p = q
  used : ∀ c, (s.procs c).state = .used →
    ∃ p pid linked, (s.procs p).pc.work = .setUp c pid linked
  reap : ∀ p c pid, (s.procs p).pc.work = .reap c pid →
    (s.procs c).state = .zombie ∧ (s.procs c).pid = pid ∧ (s.procs c).parent = some p
  given : ∀ p c, c < (s.procs p).pc.given → (s.procs c).parent ≠ some p
  parent_alive : ∀ c p, (s.procs c).parent = some p → (s.procs p).Alive
  parent_some : ∀ c, c ≠ initproc → (s.procs c).Alive ∨ (s.procs c).state = .zombie →
    (s.procs c).parent ≠ none
  unused : ∀ c, (s.procs c).state = .unused → (s.procs c).parent = none
  outside : ∀ c, nproc ≤ c → (s.procs c).state = .unused
  init_alive : (s.procs initproc).Alive
  init_pc : (s.procs initproc).pc.exits = false
  pid : ∀ c, (s.procs c).state ≠ .unused →
    0 < (s.procs c).pid ∧ (s.procs c).pid < s.nextpid ∧ (s.procs c).pid ∉ s.reaped
  pid_inj : ∀ c d, (s.procs c).state ≠ .unused → (s.procs d).state ≠ .unused →
    (s.procs c).pid = (s.procs d).pid → c = d
  nodup : s.reaped.Nodup
  reaped_lt : ∀ x ∈ s.reaped, x < s.nextpid
  nextpid_pos : 0 < s.nextpid

/-- What a step can do. A step of a process on its own slot goes on with what the process has to do,
or finds a zombie; the other kinds of step change the slot of another process. -/
inductive Effect (s s' : Sys) : Prop where
  | own (p : ℕ) (r : Proc) : (∀ q, s'.procs q = if q = p then r else s.procs q) →
      s'.nextpid = s.nextpid → s'.reaped = s.reaped →
      r.pid = (s.procs p).pid → r.parent = (s.procs p).parent →
      (r.state = (s.procs p).state ∨ (s.procs p).Alive ∧ r.Alive) →
      (r.pc ≠ .user → r.Alive ∨ r.pc = .switch ∧ r.state = .zombie) →
      (r.pc.exits = true → p ≠ initproc) →
      (r.pc.work = (s.procs p).pc.work ∨ (s.procs p).pc.work = .none ∧
        ∃ c pid, r.pc.work = .reap c pid ∧ (s.procs c).state = .zombie ∧ (s.procs c).pid = pid ∧
          (s.procs c).parent = some p) →
      (∀ c < r.pc.given, (s.procs c).parent ≠ some p) →
      (r.pc.holdsWait = true ↔ s'.waitLock = some p) →
      (∀ q, q ≠ p → (s'.waitLock = some q ↔ s.waitLock = some q)) → Effect s s'
  /-- An exiting process gives a child to `initproc`. -/
  | relink (p c : ℕ) : (s.procs c).parent = some p → (s.procs p).pc.work = .none →
      (s.procs initproc).pc.given = 0 →
      (∀ q, s'.procs q = if q = c then { s.procs c with parent := some initproc } else s.procs q) →
      s'.nextpid = s.nextpid → s'.reaped = s.reaped → s'.waitLock = s.waitLock → Effect s s'
  /-- A process without children becomes a zombie. -/
  | exit (p : ℕ) (status : ℤ) : s.waitLock = some p → (s.procs p).Alive → p ≠ initproc →
      (s.procs p).pc.work = .none → (∀ c, (s.procs c).parent ≠ some p) →
      (∀ q, s'.procs q =
        if q = p then { s.procs p with state := .zombie, xstate := status, pc := .switch }
        else s.procs q) →
      s'.nextpid = s.nextpid → s'.reaped = s.reaped → s'.waitLock = none → Effect s s'
  /-- `allocproc` claims a slot. -/
  | claim (p c : ℕ) : c < nproc → (s.procs p).Alive → (s.procs p).pc = .forkScan c →
      (s.procs c).state = .unused → (s.procs c).pc = .user →
      (∀ q, s'.procs q =
        if q = p then { s.procs p with pc := .forkAlloc c s.nextpid }
        else if q = c then { s.procs c with pid := s.nextpid, state := .used } else s.procs q) →
      s'.nextpid = s.nextpid + 1 → s'.reaped = s.reaped → s'.waitLock = s.waitLock → Effect s s'
  /-- A slot is given back. -/
  | unclaim (p c : ℕ) (pid : ℤ) : (s.procs p).Alive →
      (s.procs p).pc.work = .setUp c pid false → (s.procs p).pc.holdsWait = false →
      (s.procs c).state = .used → (s.procs c).pc = .user →
      (∀ q, s'.procs q =
        if q = p then { s.procs p with pc := .user }
        else if q = c then (s.procs c).freeproc else s.procs q) →
      s'.nextpid = s.nextpid → s'.reaped = s.reaped → s'.waitLock = s.waitLock → Effect s s'
  /-- `kfork` makes itself the parent. -/
  | link (p c : ℕ) (pid : ℤ) : (s.procs p).Alive → (s.procs p).pc = .forkParent c pid →
      s.waitLock = none → (s.procs c).state = .used → (s.procs c).pc = .user →
      (∀ q, s'.procs q =
        if q = p then { s.procs p with pc := .forkStart c pid }
        else if q = c then { s.procs c with parent := some p } else s.procs q) →
      s'.nextpid = s.nextpid → s'.reaped = s.reaped → s'.waitLock = s.waitLock → Effect s s'
  /-- The child can run. -/
  | start (p c : ℕ) (pid : ℤ) : (s.procs p).Alive → (s.procs p).pc = .forkStart c pid →
      (s.procs c).state = .used → (s.procs c).parent = some p → (s.procs c).pc = .user →
      (∀ q, s'.procs q =
        if q = p then { s.procs p with pc := .user }
        else if q = c then { s.procs c with state := .runnable, pc := .user } else s.procs q) →
      s'.nextpid = s.nextpid → s'.reaped = s.reaped → s'.waitLock = s.waitLock → Effect s s'
  /-- `kwait` frees a zombie. -/
  | reap (p c : ℕ) (pid : ℤ) (ok : Bool) : (s.procs p).Alive →
      (s.procs p).pc = .waitFree c pid ok → s.waitLock = some p → (s.procs c).state = .zombie →
      (s.procs c).pid = pid → (s.procs c).parent = some p → (s.procs c).pc = .user →
      (∀ q, s'.procs q =
        if q = p then { s.procs p with pc := .user }
        else if q = c then (s.procs c).freeproc else s.procs q) →
      s'.nextpid = s.nextpid → s'.reaped = (if ok then pid :: s.reaped else s.reaped) →
      s'.waitLock = none → Effect s s'

attribute [local grind] Proc.freeproc Proc.Alive Pc.work Pc.holdsWait Pc.given Pc.exits

namespace Inv

variable {s' : Sys}

theorem busy_effect (h : Inv s) (he : Effect s s') (q : ℕ) (hq : (s'.procs q).pc ≠ .user) :
    (s'.procs q).Alive ∨ (s'.procs q).pc = .switch ∧ (s'.procs q).state = .zombie := by
  have := h.busy q
  cases he <;> grind

theorem lock_effect (h : Inv s) (he : Effect s s') (q : ℕ) :
    (s'.procs q).pc.holdsWait = true ↔ s'.waitLock = some q := by
  have := h.lock q
  cases he <;> grind

theorem setUp_effect (h : Inv s) (he : Effect s s') (q c : ℕ) (pid : ℤ) (linked : Bool)
    (hq : (s'.procs q).pc.work = .setUp c pid linked) :
    (s'.procs c).state = .used ∧ (s'.procs c).pid = pid ∧
      (s'.procs c).parent = if linked then some q else none := by
  have hold := h.setUp q c pid linked
  cases he with
  | own p r hprocs _ _ hpid hparent hstate _ _ hwork =>
    clear * - hprocs hq hold hpid hparent hstate hwork
    by_cases hqp : q = p <;> by_cases hcp : c = p <;> grind
  | claim p d _ _ hpc hd hpc' hprocs =>
    have hnone := h.unused d hd
    clear * - hprocs hq hold hpc hd hpc' hnone
    by_cases hqp : q = p <;> by_cases hcd : c = d <;> grind
  | link p d pid' _ hpc _ hd hpc' hprocs =>
    have hown := h.setUp p d pid' false (by rw [hpc]; rfl)
    have hinj := h.setUp_inj q p d pid pid' linked false
    clear * - hprocs hq hold hpc hpc' hd hown hinj
    by_cases hqp : q = p <;> by_cases hcd : c = d <;> grind
  | start p d pid' _ hpc hd hparent hpc' hprocs =>
    have hinj := h.setUp_inj q p d pid pid' linked true
    clear * - hprocs hq hold hpc hpc' hd hinj
    by_cases hqp : q = p <;> by_cases hcd : c = d <;> grind
  | unclaim p d pid' =>
    have hinj := h.setUp_inj q p d pid pid' linked false
    grind
  | relink | exit | reap => grind

theorem setUp_inj_effect (h : Inv s) (he : Effect s s') (q q' c : ℕ) (pid pid' : ℤ)
    (linked linked' : Bool) (hq : (s'.procs q).pc.work = .setUp c pid linked)
    (hq' : (s'.procs q').pc.work = .setUp c pid' linked') : q = q' := by
  have := h.setUp_inj q q' c
  have := h.setUp q c
  have := h.setUp q' c
  cases he <;> grind

theorem used_effect (h : Inv s) (he : Effect s s') (c : ℕ) (hc : (s'.procs c).state = .used) :
    ∃ p pid linked, (s'.procs p).pc.work = .setUp c pid linked := by
  have hold := h.used c
  cases he with
  | claim p d _ _ hpc hd hpc' hprocs =>
    by_cases hcd : c = d
    · exact ⟨p, s.nextpid, false, by grind⟩
    · grind
  | link p d pid' _ hpc _ hd hpc' hprocs =>
    by_cases hcd : c = d
    · exact ⟨p, pid', true, by grind⟩
    · grind
  | own | relink | exit | unclaim | start | reap => grind

theorem reap_effect (h : Inv s) (he : Effect s s') (q c : ℕ) (pid : ℤ)
    (hq : (s'.procs q).pc.work = .reap c pid) :
    (s'.procs c).state = .zombie ∧ (s'.procs c).pid = pid ∧ (s'.procs c).parent = some q := by
  have := h.reap q c pid
  cases he with
  | own p r hprocs _ _ hpid hparent hstate _ _ hwork =>
    clear * - hprocs hq this hpid hparent hstate hwork
    by_cases hqp : q = p <;> by_cases hcp : c = p <;> grind
  | relink | exit | claim | unclaim | link | start | reap => grind

theorem given_effect (h : Inv s) (he : Effect s s') (q c : ℕ) (hc : c < (s'.procs q).pc.given) :
    (s'.procs c).parent ≠ some q := by
  have := h.given q c
  cases he <;> grind

theorem parent_alive_effect (h : Inv s) (he : Effect s s') (c q : ℕ)
    (hc : (s'.procs c).parent = some q) : (s'.procs q).Alive := by
  have := h.parent_alive c q
  have := h.init_alive
  cases he <;> grind

theorem parent_some_effect (h : Inv s) (he : Effect s s') (c : ℕ) (hinit : c ≠ initproc)
    (hc : (s'.procs c).Alive ∨ (s'.procs c).state = .zombie) : (s'.procs c).parent ≠ none := by
  have := h.parent_some c hinit
  cases he <;> grind

theorem unused_effect (h : Inv s) (he : Effect s s') (c : ℕ) (hc : (s'.procs c).state = .unused) :
    (s'.procs c).parent = none := by
  have := h.unused c
  cases he <;> grind

theorem outside_effect (h : Inv s) (he : Effect s s') (c : ℕ) (hc : nproc ≤ c) :
    (s'.procs c).state = .unused := by
  have := h.outside c hc
  cases he <;> grind

theorem init_effect (h : Inv s) (he : Effect s s') :
    (s'.procs initproc).Alive ∧ (s'.procs initproc).pc.exits = false := by
  have := h.init_alive
  have := h.init_pc
  cases he <;> grind

theorem pid_effect (h : Inv s) (he : Effect s s') (c : ℕ) (hc : (s'.procs c).state ≠ .unused) :
    0 < (s'.procs c).pid ∧ (s'.procs c).pid < s'.nextpid ∧ (s'.procs c).pid ∉ s'.reaped := by
  have := h.pid c
  have := h.pid_inj c
  have := h.nextpid_pos
  have := h.reaped_lt
  cases he <;> grind

theorem pid_inj_effect (h : Inv s) (he : Effect s s') (c d : ℕ)
    (hc : (s'.procs c).state ≠ .unused) (hd : (s'.procs d).state ≠ .unused)
    (hcd : (s'.procs c).pid = (s'.procs d).pid) : c = d := by
  have := h.pid_inj c d
  have := h.pid c
  have := h.pid d
  cases he <;> grind

theorem reaped_effect (h : Inv s) (he : Effect s s') :
    s'.reaped.Nodup ∧ (∀ x ∈ s'.reaped, x < s'.nextpid) ∧ 0 < s'.nextpid := by
  have := h.nodup
  have := h.reaped_lt
  have := h.nextpid_pos
  have := h.pid
  cases he <;> grind

/-- **What a step can do keeps the invariant.** -/
theorem effect (h : Inv s) (he : Effect s s') : Inv s' where
  busy := h.busy_effect he
  lock := h.lock_effect he
  setUp := h.setUp_effect he
  setUp_inj := h.setUp_inj_effect he
  used := h.used_effect he
  reap := h.reap_effect he
  given := h.given_effect he
  parent_alive := h.parent_alive_effect he
  parent_some := h.parent_some_effect he
  unused := h.unused_effect he
  outside := h.outside_effect he
  init_alive := (h.init_effect he).1
  init_pc := (h.init_effect he).2
  pid := h.pid_effect he
  pid_inj := h.pid_inj_effect he
  nodup := (h.reaped_effect he).1
  reaped_lt := (h.reaped_effect he).2.1
  nextpid_pos := (h.reaped_effect he).2.2

/-! ### The steps of the code -/

/-- In `kexit` the process is not the first one. -/
theorem ne_init (h : Inv s) (hexits : (s.procs p).pc.exits = true) : p ≠ initproc := by
  rintro rfl
  rw [h.init_pc] at hexits
  cases hexits

/-- A process that is alive goes on, and may acquire or release `wait_lock`. -/
theorem goto_lock (h : Inv s) (halive : (s.procs p).Alive) (hexits : pc.exits = true → p ≠ initproc)
    (hwork : pc.work = (s.procs p).pc.work ∨ (s.procs p).pc.work = .none ∧
      ∃ c pid, pc.work = .reap c pid ∧ (s.procs c).state = .zombie ∧ (s.procs c).pid = pid ∧
        (s.procs c).parent = some p) (hgiven : ∀ c < pc.given, (s.procs c).parent ≠ some p)
    (hlock : pc.holdsWait = true ↔ w = some p)
    (hother : ∀ q, q ≠ p → (w = some q ↔ s.waitLock = some q)) : Inv ((s.goto p pc).lock w) :=
  h.effect (.own p { s.procs p with pc := pc } (fun _ => update_apply _ _ _ _) rfl rfl rfl
    rfl (Or.inl rfl) (fun _ => Or.inl halive) hexits hwork hgiven hlock hother)

/-- A process goes on and keeps the lock that it has. -/
theorem goto (h : Inv s) (halive : (s.procs p).Alive) (hpc : (s.procs p).pc = old)
    (hexits : pc.exits = true → p ≠ initproc) (hgiven : ∀ c < pc.given, (s.procs c).parent ≠ some p)
    (hwork : pc.work = old.work) (hlock : pc.holdsWait = old.holdsWait) : Inv (s.goto p pc) := by
  subst hpc
  exact h.goto_lock halive hexits (Or.inl hwork) hgiven (hlock ▸ h.lock p) fun _ _ => Iff.rfl

/-- A process goes on outside of `kexit`. -/
theorem move (h : Inv s) (halive : (s.procs p).Alive) (hpc : (s.procs p).pc = old)
    (hexits : pc.exits = false) (hgiven : pc.given = 0) (hwork : pc.work = old.work)
    (hlock : pc.holdsWait = old.holdsWait) : Inv (s.goto p pc) :=
  h.goto halive hpc (by simp [hexits]) (fun c hc => absurd hc (by omega)) hwork hlock

/-- A process acquires the free `wait_lock`. -/
theorem acquire (h : Inv s) (halive : (s.procs p).Alive) (hfree : s.waitLock = none)
    (hpc : (s.procs p).pc = old) (hexits : pc.exits = old.exits) (hwork : pc.work = old.work)
    (hgiven : pc.given = 0) (hlock : pc.holdsWait = true) : Inv ((s.goto p pc).lock (some p)) := by
  subst hpc
  exact h.goto_lock halive (fun he => h.ne_init (hexits ▸ he)) (Or.inl hwork)
    (fun c hc => absurd hc (by omega)) (by simp [hlock]) fun q hq => by simp [hfree, Ne.symm hq]

/-- A process releases `wait_lock`. -/
theorem release (h : Inv s) (halive : (s.procs p).Alive) (hpc : (s.procs p).pc = old)
    (hheld : old.holdsWait = true) (hexits : pc.exits = false)
    (hwork : pc.work = old.work ∨ old.work = .none ∧
      ∃ c pid, pc.work = .reap c pid ∧ (s.procs c).state = .zombie ∧ (s.procs c).pid = pid ∧
        (s.procs c).parent = some p) (hgiven : pc.given = 0)
    (hlock : pc.holdsWait = false) : Inv ((s.goto p pc).lock none) := by
  subst hpc
  exact h.goto_lock halive (by simp [hexits]) hwork (fun c hc => absurd hc (by omega))
    (by simp [hlock]) fun q hq => by simp [(h.lock p).mp hheld, Ne.symm hq]

/-- A slot changes in its state only, and is alive before and after, or keeps its state. -/
theorem mod (h : Inv s) {f : Proc → Proc}
    (hf : (f (s.procs p)).pid = (s.procs p).pid ∧ (f (s.procs p)).parent = (s.procs p).parent ∧
      (f (s.procs p)).pc = (s.procs p).pc) (hstate : (f (s.procs p)).state = (s.procs p).state ∨
      (s.procs p).Alive ∧ (f (s.procs p)).Alive) : Inv (s.mod p f) := by
  obtain ⟨hpid, hparent, hpc⟩ := hf
  refine h.effect (.own p (f (s.procs p)) (fun _ => update_apply _ _ _ _) rfl rfl hpid
    hparent hstate (fun hp => ?_) (fun hp => ?_) (Or.inl (by rw [hpc])) (fun c hc => ?_) ?_
    fun _ _ => Iff.rfl)
  · have hold := h.busy p (hpc ▸ hp)
    rw [hpc]
    rcases hstate with hs | ⟨-, hs⟩
    · rw [hs]
      unfold Proc.Alive at hold ⊢
      rwa [hs]
    · exact Or.inl hs
  · rintro rfl
    rw [hpc, h.init_pc] at hp
    cases hp
  · exact h.given p c (hpc ▸ hc)
  · rw [hpc]
    exact h.lock p

/-- The process of a slot that is free, or is being made, is nowhere in the code. -/
theorem pc_eq_user (h : Inv s) (halive : ¬ (s.procs c).Alive)
    (hswitch : (s.procs c).state ≠ .zombie ∨ s.Unlocked c) : (s.procs c).pc = .user := by
  by_contra hpc
  rcases h.busy c hpc with hc | ⟨hsw, hz⟩
  · exact halive hc
  · exact hswitch.elim (fun hn => hn hz) fun hu => hu hsw

/-- The slot that a process makes is not its own. -/
theorem mod_goto_apply (hne : p ≠ c) (f : Proc → Proc) (pc : Pc) (q : ℕ) :
    ((s.mod c f).goto p pc).procs q =
      if q = p then { s.procs p with pc := pc }
      else if q = c then f (s.procs c) else s.procs q := by
  simp only [Sys.goto, Sys.mod, update_apply, if_neg hne]

theorem ne_of_alive (hp : (s.procs p).Alive) (hc : ¬ (s.procs c).Alive) : p ≠ c := by
  rintro rfl
  exact hc hp

section

variable (h : Inv s) (hp : (s.procs p).Alive)
include h hp

theorem claim (hi : i < nproc) (hpc : (s.procs p).pc = .forkScan i)
    (hstep : s.claim p i = some s') : Inv s' := by
  unfold Sys.claim at hstep
  split at hstep
  · cases hstep
  · split at hstep
    · rename_i hunused
      split at hstep
      · obtain rfl := Option.some.inj hstep
        have hdead : ¬ (s.procs i).Alive := by simp [Proc.Alive, hunused]
        exact h.effect (.claim p i hi hp hpc hunused
          (h.pc_eq_user hdead (Or.inl (by simp [hunused])))
          (mod_goto_apply (ne_of_alive hp hdead) _ _) rfl rfl rfl)
      · cases hstep
    · obtain rfl := Option.some.inj hstep
      exact h.move hp hpc rfl rfl rfl rfl

theorem unclaim (hwork : (s.procs p).pc.work = .setUp c pid false)
    (hfree : (s.procs p).pc.holdsWait = false) (hstep : s.unclaim p c = some s') : Inv s' := by
  obtain ⟨-, hstep⟩ := Option.ite_none_right_eq_some.mp hstep
  obtain rfl := Option.some.inj hstep
  have hused := (h.setUp p c pid false hwork).1
  have hdead : ¬ (s.procs c).Alive := by simp [Proc.Alive, hused]
  exact h.effect (.unclaim p c pid hp hwork hfree hused
    (h.pc_eq_user hdead (Or.inl (by simp [hused]))) (mod_goto_apply (ne_of_alive hp hdead) _ _) rfl
    rfl rfl)

theorem link (hpc : (s.procs p).pc = .forkParent c pid) (hfree : s.waitLock = none) :
    Inv ((s.mod c fun q => { q with parent := some p }).goto p (.forkStart c pid)) := by
  have hused := (h.setUp p c pid false (by rw [hpc]; rfl)).1
  have hdead : ¬ (s.procs c).Alive := by simp [Proc.Alive, hused]
  exact h.effect (.link p c pid hp hpc hfree hused (h.pc_eq_user hdead (Or.inl (by simp [hused])))
    (mod_goto_apply (ne_of_alive hp hdead) _ _) rfl rfl rfl)

theorem start (hpc : (s.procs p).pc = .forkStart c pid) :
    Inv ((s.mod c fun q => { q with state := .runnable, pc := .user }).goto p .user) := by
  obtain ⟨hused, -, hparent⟩ := h.setUp p c pid true (by rw [hpc]; rfl)
  have hdead : ¬ (s.procs c).Alive := by simp [Proc.Alive, hused]
  exact h.effect (.start p c pid hp hpc hused hparent
    (h.pc_eq_user hdead (Or.inl (by simp [hused]))) (mod_goto_apply (ne_of_alive hp hdead) _ _) rfl
    rfl rfl)

omit hp in
/-- What `wakeup` does to a slot. -/
theorem wakeup (c : ℕ) (chan : Option Chan) : Inv (s.mod c (Proc.wakeup chan)) := by
  by_cases hc : (s.procs c).state = .sleeping ∧ (s.procs c).chan = chan
  · exact h.mod (by simp [Proc.wakeup, hc])
      (Or.inr ⟨Or.inl hc.1, Or.inr (Or.inl (by simp [Proc.wakeup, hc]))⟩)
  · exact h.mod (by simp [Proc.wakeup, hc]) (Or.inl (by simp [Proc.wakeup, hc]))

/-- One slot of the loop of `wakeup`, by an exiting process that goes on. -/
theorem wake {j : ℕ} {m : Sys} (hwake : s.wake p j chan = some m) (hpc : (s.procs p).pc = old)
    (hexits : old.exits = true) (hwork : pc.work = old.work) (hgiven : pc.given = old.given)
    (hlock : pc.holdsWait = old.holdsWait) : Inv (m.goto p pc) := by
  have hinit := h.ne_init (hpc ▸ hexits)
  have hself : Inv m ∧ m.procs p = s.procs p := by
    unfold Sys.wake at hwake
    split at hwake
    · obtain rfl := Option.some.inj hwake
      exact ⟨h, rfl⟩
    · rename_i hne
      obtain ⟨-, hwake⟩ := Option.ite_none_right_eq_some.mp hwake
      obtain rfl := Option.some.inj hwake
      exact ⟨h.wakeup j _, by simp [Sys.mod, Ne.symm hne]⟩
  obtain ⟨hm, hmp⟩ := hself
  refine hm.goto (hmp ▸ hp) (hmp ▸ hpc) (fun _ => hinit) (fun c hc => ?_) hwork hlock
  exact hm.given p c (by rw [hmp, hpc, ← hgiven]; exact hc)

theorem visit {havekids : Bool} (hpc : (s.procs p).pc = .waitScan i havekids)
    (hstep : s.visit p i havekids = some s') : Inv s' := by
  have hgo : ∀ kids, Inv (s.goto p (.waitScan (i + 1) kids)) := fun kids =>
    h.move hp hpc rfl rfl rfl rfl
  unfold Sys.visit at hstep
  split at hstep
  · rename_i hparent
    split at hstep
    · cases hstep
    · split at hstep
      · rename_i hzombie
        obtain rfl := Option.some.inj hstep
        exact h.release hp hpc rfl rfl (Or.inr ⟨rfl, i, _, rfl, hzombie, rfl, hparent⟩) rfl rfl
      · obtain rfl := Option.some.inj hstep
        exact hgo true
  · obtain rfl := Option.some.inj hstep
    exact hgo havekids

theorem reaps (hpc : (s.procs p).pc = .waitFree c pid ok) (hstep : s.reap p c pid ok = some s') :
    Inv s' := by
  obtain ⟨hunlocked, hstep⟩ := Option.ite_none_right_eq_some.mp hstep
  obtain rfl := Option.some.inj hstep
  obtain ⟨hzombie, hpid, hparent⟩ := h.reap p c pid (by rw [hpc]; rfl)
  have hdead : ¬ (s.procs c).Alive := by simp [Proc.Alive, hzombie]
  have hheld := (h.lock p).mp (by rw [hpc]; rfl)
  exact h.effect (.reap p c pid ok hp hpc hheld hzombie hpid hparent
    (h.pc_eq_user hdead (Or.inr hunlocked)) (mod_goto_apply (ne_of_alive hp hdead) _ _) rfl rfl rfl)

/-- One slot of the loop of `reparent`. -/
theorem reparent (hpc : (s.procs p).pc = .reparent status i)
    (hchild : (s.procs i).parent = some p) :
    Inv ((s.mod i fun q => { q with parent := some initproc }).goto p
      (.reparentWake status i 0)) := by
  have hne : p ≠ initproc := h.ne_init (by rw [hpc]; rfl)
  have hinit : (s.procs initproc).pc.given = 0 := by
    have := h.init_pc
    generalize (s.procs initproc).pc = pc at this
    cases pc <;> simp_all [Pc.exits, Pc.given]
  have hm : Inv (s.mod i fun q => { q with parent := some initproc }) :=
    h.effect (.relink p i hchild (by rw [hpc]; rfl) hinit (fun _ => update_apply _ _ _ _)
      rfl rfl rfl)
  have hself : ((s.mod i fun q => { q with parent := some initproc }).procs p).pc =
      .reparent status i ∧
        ((s.mod i fun q => { q with parent := some initproc }).procs p).Alive := by
    simp only [Sys.mod, update_apply]
    split
    · subst p
      exact ⟨hpc, hp⟩
    · exact ⟨hpc, hp⟩
  refine hm.goto hself.2 hself.1 (fun _ => hne) (fun c hc => ?_) rfl rfl
  rcases Nat.lt_succ_iff_lt_or_eq.mp hc with hc | rfl
  · exact hm.given p c (by rw [hself.1]; exact hc)
  · simpa [Sys.mod] using Ne.symm hne

theorem zombie (hpc : (s.procs p).pc = .exitZombie status) :
    Inv ((s.mod p fun q => { q with state := .zombie, xstate := status, pc := .switch }).lock
      none) := by
  -- the whole table has been searched for children
  have hnone : ∀ c, (s.procs c).parent ≠ some p := by
    intro c
    by_cases hc : c < nproc
    · exact h.given p c (by rw [hpc]; exact hc)
    · rw [h.unused c (h.outside c (not_lt.mp hc))]
      simp
  exact h.effect (.exit p status ((h.lock p).mp (by rw [hpc]; rfl)) hp
    (h.ne_init (by rw [hpc]; rfl)) (by rw [hpc]; rfl) hnone
    (fun _ => update_apply _ _ _ _) rfl rfl rfl)

/-- **The next step of a process in the code.** -/
theorem next (hstep : s.next p = some s') : Inv s' := by
  unfold Sys.next at hstep
  split at hstep
  case h_1 i hpc =>
    split at hstep
    · exact h.claim hp ‹_› hpc hstep
    · obtain rfl := Option.some.inj hstep
      exact h.move hp hpc rfl rfl rfl rfl
  case h_2 c pid hpc =>
    obtain ⟨hfree, hstep⟩ := Option.ite_none_right_eq_some.mp hstep
    obtain rfl := Option.some.inj hstep
    exact h.link hp hpc hfree
  case h_3 c pid hpc =>
    obtain ⟨-, hstep⟩ := Option.ite_none_right_eq_some.mp hstep
    obtain rfl := Option.some.inj hstep
    exact h.start hp hpc
  case h_4 status hpc =>
    obtain ⟨hfree, hstep⟩ := Option.ite_none_right_eq_some.mp hstep
    obtain rfl := Option.some.inj hstep
    exact h.acquire hp hfree hpc rfl rfl rfl rfl
  case h_5 status i hpc =>
    have hne : p ≠ initproc := h.ne_init (by rw [hpc]; rfl)
    split at hstep
    · split at hstep
      · obtain rfl := Option.some.inj hstep
        exact h.reparent hp hpc ‹_›
      · rename_i hi hother
        obtain rfl := Option.some.inj hstep
        refine h.goto hp hpc (fun _ => hne) (fun c hc => ?_) rfl rfl
        rcases Nat.lt_succ_iff_lt_or_eq.mp hc with hc | rfl
        · exact h.given p c (by rw [hpc]; exact hc)
        · exact hother
    · rename_i hi
      obtain rfl := Option.some.inj hstep
      refine h.goto hp hpc (fun _ => hne) (fun c hc => ?_) rfl rfl
      exact h.given p c (by rw [hpc]; exact hc.trans_le (not_lt.mp hi))
  case h_6 status i j hpc =>
    split at hstep
    · obtain ⟨m, hm, rfl⟩ := Option.map_eq_some_iff.mp hstep
      exact h.wake hp hm hpc rfl rfl rfl rfl
    · obtain rfl := Option.some.inj hstep
      exact h.goto hp hpc (fun _ => h.ne_init (by rw [hpc]; rfl))
        (fun c hc => h.given p c (by rw [hpc]; exact hc)) rfl rfl
  case h_7 status parent j hpc =>
    split at hstep
    · obtain ⟨m, hm, rfl⟩ := Option.map_eq_some_iff.mp hstep
      exact h.wake hp hm hpc rfl rfl rfl rfl
    · obtain rfl := Option.some.inj hstep
      exact h.goto hp hpc (fun _ => h.ne_init (by rw [hpc]; rfl))
        (fun c hc => h.given p c (by rw [hpc]; exact hc)) rfl rfl
  case h_8 status hpc =>
    obtain rfl := Option.some.inj hstep
    exact h.zombie hp hpc
  case h_9 hpc =>
    obtain ⟨hfree, hstep⟩ := Option.ite_none_right_eq_some.mp hstep
    obtain rfl := Option.some.inj hstep
    exact h.acquire hp hfree hpc rfl rfl rfl rfl
  case h_10 i havekids hpc =>
    split at hstep
    · exact h.visit hp hpc hstep
    · obtain rfl := Option.some.inj hstep
      exact h.move hp hpc rfl rfl rfl rfl
  case h_11 havekids hpc =>
    split at hstep <;> obtain rfl := Option.some.inj hstep
    · exact h.release hp hpc rfl rfl (Or.inl rfl) rfl rfl
    · exact h.move hp hpc rfl rfl rfl rfl
  case h_12 hpc =>
    obtain rfl := Option.some.inj hstep
    have hheld := (h.lock p).mp (by rw [hpc]; rfl)
    exact h.effect (.own p _ (fun _ => update_apply _ _ _ _) rfl rfl rfl rfl
      (Or.inr ⟨hp, Or.inl rfl⟩) (fun _ => Or.inl (Or.inl rfl)) (by simp [Pc.exits])
      (Or.inl (by rw [hpc]; rfl)) (by simp [Pc.given]) (by simp [Pc.holdsWait, Sys.lock])
      fun q hq => by simp [Sys.lock, hheld, Ne.symm hq])
  case h_13 c pid ok hpc =>
    obtain ⟨hfree, hstep⟩ := Option.ite_none_right_eq_some.mp hstep
    obtain rfl := Option.some.inj hstep
    exact h.acquire hp hfree hpc rfl rfl rfl rfl
  case h_14 c pid ok hpc => exact h.reaps hp hpc hstep
  all_goals cases hstep

/-- The end of an operation on memory. -/
theorem result (hstep : s.result p ok = some s') : Inv s' := by
  unfold Sys.result at hstep
  split at hstep
  case h_1 c pid hpc =>
    split at hstep
    · obtain rfl := Option.some.inj hstep
      exact h.move hp hpc rfl rfl rfl rfl
    · exact h.unclaim hp (by rw [hpc]; rfl) (by rw [hpc]; rfl) hstep
  case h_2 c pid hpc =>
    split at hstep
    · obtain rfl := Option.some.inj hstep
      exact h.move hp hpc rfl rfl rfl rfl
    · exact h.unclaim hp (by rw [hpc]; rfl) (by rw [hpc]; rfl) hstep
  case h_3 c pid x hpc =>
    obtain rfl := Option.some.inj hstep
    exact h.move hp hpc rfl rfl rfl rfl
  case h_4 => cases hstep

end

/-- **A step keeps the invariant.** -/
theorem step (h : Inv s) {a : Act} (hstep : s.step a = some s') : Inv s' := by
  have hcall : ∀ {p : ℕ} {pc : Pc}, s.call p pc = some s' → (pc.exits = true → p ≠ initproc) →
      pc.work = .none → pc.given = 0 → pc.holdsWait = false → Inv s' := by
    intro p pc hs hexits hwork hgiven hlock
    obtain ⟨⟨hrun, hpc⟩, hs⟩ := Option.ite_none_right_eq_some.mp hs
    obtain rfl := Option.some.inj hs
    exact h.goto (Or.inr (Or.inr hrun)) hpc hexits (fun c hc => absurd hc (by omega)) hwork hlock
  cases a with
  | fork p => exact hcall hstep (by simp [Pc.exits]) rfl rfl rfl
  | exit p status =>
    simp only [Sys.step] at hstep
    split at hstep
    · cases hstep
    · exact hcall hstep (fun _ => ‹_›) rfl rfl rfl
  | wait p => exact hcall hstep (by simp [Pc.exits]) rfl rfl rfl
  | next p =>
    obtain ⟨hrun, hstep⟩ := Option.ite_none_right_eq_some.mp hstep
    exact h.next (Or.inr (Or.inr hrun)) hstep
  | result p ok =>
    obtain ⟨hrun, hstep⟩ := Option.ite_none_right_eq_some.mp hstep
    exact h.result (Or.inr (Or.inr hrun)) hstep
  | switched p =>
    obtain ⟨hpc, hstep⟩ := Option.ite_none_right_eq_some.mp hstep
    obtain rfl := Option.some.inj hstep
    exact h.effect (.own p _ (fun _ => update_apply _ _ _ _) rfl rfl rfl rfl (Or.inl rfl)
      (by simp) (by simp [Pc.exits]) (Or.inl (by rw [hpc]; rfl)) (by simp [Pc.given])
      (by have := h.lock p; rw [hpc] at this; exact this) fun _ _ => Iff.rfl)
  | dispatch p =>
    obtain ⟨hs, hstep⟩ := Option.ite_none_right_eq_some.mp hstep
    obtain rfl := Option.some.inj hstep
    exact h.mod ⟨rfl, rfl, rfl⟩ (Or.inr ⟨Or.inr (Or.inl hs), Or.inr (Or.inr rfl)⟩)
  | yield p =>
    obtain ⟨hs, hstep⟩ := Option.ite_none_right_eq_some.mp hstep
    obtain rfl := Option.some.inj hstep
    exact h.mod ⟨rfl, rfl, rfl⟩ (Or.inr ⟨Or.inr (Or.inr hs.1), Or.inr (Or.inl rfl)⟩)
  | sleep p n =>
    obtain ⟨hs, hstep⟩ := Option.ite_none_right_eq_some.mp hstep
    obtain rfl := Option.some.inj hstep
    exact h.mod ⟨rfl, rfl, rfl⟩ (Or.inr ⟨Or.inr (Or.inr hs.1), Or.inl rfl⟩)
  | wakeup c =>
    simp only [Sys.step] at hstep
    split at hstep
    · obtain rfl := Option.some.inj hstep
      exact h.wakeup c _
    · cases hstep
  | kill c =>
    obtain ⟨-, hstep⟩ := Option.ite_none_right_eq_some.mp hstep
    obtain rfl := Option.some.inj hstep
    refine h.mod ⟨rfl, rfl, rfl⟩ ?_
    by_cases hs : (s.procs c).state = .sleeping
    · exact Or.inr ⟨Or.inl hs, Or.inr (Or.inl (by simp [Proc.kill, hs]))⟩
    · exact Or.inl (by simp [Proc.kill, hs])

theorem boot : Inv Sys.boot := by
  have hpc : ∀ c, (Sys.boot.procs c).pc = .user := fun c => by
    simp only [Sys.boot]
    split <;> rfl
  have hparent : ∀ c, (Sys.boot.procs c).parent = none := fun c => by
    simp only [Sys.boot]
    split <;> rfl
  have hstate : ∀ c, c ≠ initproc → (Sys.boot.procs c).state = .unused := fun c hc => by
    simp [Sys.boot, hc]
  have hlive : ∀ c, (Sys.boot.procs c).state ≠ .unused → c = initproc := fun c hc => by
    by_contra hne
    exact hc (hstate c hne)
  constructor
  case lock =>
    intro p
    rw [hpc]
    exact iff_of_false (by decide) (by simp [Sys.boot])
  case used =>
    intro c hc
    obtain rfl := hlive c (by simp [hc])
    cases hc
  case parent_some =>
    intro c hc hs
    simp [Proc.Alive, hstate c hc] at hs
  case outside =>
    intro c hc
    refine hstate c ?_
    rintro rfl
    exact absurd hc (by decide)
  case pid =>
    intro c hc
    obtain rfl := hlive c hc
    decide
  case pid_inj => exact fun c d hc hd _ => (hlive c hc).trans (hlive d hd).symm
  case init_alive => exact Or.inr (Or.inl rfl)
  case nodup => exact List.nodup_nil
  case nextpid_pos => decide
  case reaped_lt => exact fun x hx => absurd hx List.not_mem_nil
  all_goals simp [hpc, hparent, Pc.work, Pc.given, Pc.exits]

end Inv

theorem inv_of_run {acts : List Act} (h : run Sys.step acts .boot = some s) : Inv s :=
  run_invariant (P := Inv) (fun _ _ _ hs _ hstep => hs.step hstep) .boot (meets_true _ _) h

/-! ### Children are reaped once -/

/-- The process makes or reaps the process of slot `c`. -/
def Pc.WorksOn (pc : Pc) (c : ℕ) : Prop :=
  (∃ pid linked, pc.work = .setUp c pid linked) ∨ ∃ pid, pc.work = .reap c pid

/-- What the calls of `freeproc` and the claims of `allocproc` find in a state, and which pids have
been returned. -/
structure ReapedOnce (s : Sys) : Prop where
  /-- `kwait` frees the zombie that it has found, and that is still its child. -/
  reaps : ∀ p c pid ok, (s.procs p).pc = .waitFree c pid ok →
    (s.procs c).state = .zombie ∧ (s.procs c).pid = pid ∧ (s.procs c).parent = some p
  /-- A failed `kfork` frees the slot that it has claimed, and that nobody has changed. -/
  gives_back : ∀ p c pid, (s.procs p).pc = .forkAlloc c pid ∨ (s.procs p).pc = .forkCopy c pid →
    (s.procs c).state = .used ∧ (s.procs c).pid = pid ∧ (s.procs c).parent = none
  /-- Nobody makes or reaps a process in a slot that `allocproc` can claim. -/
  claims : ∀ c, (s.procs c).state = .unused → ∀ p, ¬ (s.procs p).pc.WorksOn c
  /-- One process at most makes or reaps the process of a slot. -/
  one : ∀ p q c, (s.procs p).pc.WorksOn c → (s.procs q).pc.WorksOn c → p = q
  /-- No pid is returned twice. -/
  nodup : s.reaped.Nodup

theorem Inv.reapedOnce (h : Inv s) : ReapedOnce s where
  reaps p c pid ok hpc := h.reap p c pid (by rw [hpc]; rfl)
  gives_back p c pid hpc := by
    have hwork : (s.procs p).pc.work = .setUp c pid false := by
      rcases hpc with hpc | hpc <;> rw [hpc] <;> rfl
    simpa using h.setUp p c pid false hwork
  claims c hc p := by
    rintro (⟨pid, linked, hw⟩ | ⟨pid, hw⟩)
    · simp [(h.setUp p c pid linked hw).1] at hc
    · simp [(h.reap p c pid hw).1] at hc
  one p q c := by
    rintro (⟨pid, linked, hp⟩ | ⟨pid, hp⟩) (⟨pid', linked', hq⟩ | ⟨pid', hq⟩)
    · exact h.setUp_inj p q c pid pid' linked linked' hp hq
    · have hused := (h.setUp p c pid linked hp).1
      rw [(h.reap q c pid' hq).1] at hused
      cases hused
    · have hused := (h.setUp q c pid' linked' hq).1
      rw [(h.reap p c pid hp).1] at hused
      cases hused
    · exact Option.some.inj ((h.reap p c pid hp).2.2.symm.trans (h.reap q c pid' hq).2.2)
  nodup := h.nodup

/-- **Children are reaped exactly once.** In every interleaving of the steps of any processes,
`freeproc` is applied by `kwait` only to the zombie child it has found, and by a failed `kfork` only
to the slot it has claimed; `allocproc` never claims a slot that another process makes or reaps; and
no two calls of `kwait` return the same pid. -/
theorem children_reaped_once {acts : List Act} {s : Sys} (hrun : run Sys.step acts .boot = some s) :
    ReapedOnce s :=
  (inv_of_run hrun).reapedOnce

/-- The first process forks a child in slot 1, which is dispatched. -/
def forkActs : List Act :=
  [.dispatch 0, .fork 0, .next 0, .next 0, .result 0 true, .result 0 true, .next 0, .next 0,
    .dispatch 1]

/-- The child exits, and the first process waits for it. -/
def exitActs : List Act :=
  .exit 1 7 :: List.replicate 132 (.next 1) ++ [.switched 1, .wait 0, .next 0, .next 0, .next 0,
    .result 0 true, .next 0]

theorem children_reaped_once_exitActs :
    ∃ s, run Sys.step (forkActs ++ exitActs) .boot = some s ∧
      (s.procs 0).pc = .waitFree 1 2 true ∧ (s.procs 1).state = .zombie ∧ ReapedOnce s := by
  have hout : (run Sys.step (forkActs ++ exitActs) .boot).map (fun s => (s.procs 0).pc) =
      some (.waitFree 1 2 true) := by
    decide +kernel
  obtain ⟨s, hrun, hpc⟩ := Option.map_eq_some_iff.mp hout
  have hs := children_reaped_once hrun
  exact ⟨s, hrun, hpc, (hs.reaps 0 1 2 true hpc).1, hs⟩

/-! ### Parents are there -/

/-- Parent links point to processes that are there. -/
structure ParentsLive (s : Sys) : Prop where
  /-- The parent of a slot is neither free nor a zombie. -/
  live : ∀ c p, (s.procs c).parent = some p →
    (s.procs p).state ≠ .unused ∧ (s.procs p).state ≠ .zombie
  /-- `sys_getppid` returns the pid of a live process. -/
  getppid : ∀ p, p ≠ initproc → (s.procs p).state = .running →
    ∃ q, (s.procs q).state ≠ .unused ∧ (s.procs q).state ≠ .zombie ∧
      s.sysGetppid p = (s.procs q).pid ∧ (s.procs q).pid ≠ 0
  /-- Every process but the first has a live parent, or a live process that is making it. -/
  waiter : ∀ c, c ≠ initproc → (s.procs c).state ≠ .unused →
    ∃ q, (s.procs q).state ≠ .unused ∧ (s.procs q).state ≠ .zombie ∧
      ((s.procs c).parent = some q ∨
        (s.procs c).state = .used ∧ ∃ pid, (s.procs q).pc.work = .setUp c pid false)

theorem Proc.Alive.live {p : Proc} (h : p.Alive) : p.state ≠ .unused ∧ p.state ≠ .zombie := by
  rcases h with h | h | h <;> simp [h]

theorem Inv.parentsLive (h : Inv s) : ParentsLive s where
  live c p hc := (h.parent_alive c p hc).live
  getppid p hp hrun := by
    obtain ⟨q, hq⟩ := Option.ne_none_iff_exists'.mp
      (h.parent_some p hp (Or.inl (Or.inr (Or.inr hrun))))
    obtain ⟨hunused, hzombie⟩ := (h.parent_alive p q hq).live
    exact ⟨q, hunused, hzombie, by rw [Sys.sysGetppid, hq], (h.pid q hunused).1.ne'⟩
  waiter c hc hstate := by
    by_cases hused : (s.procs c).state = .used
    · obtain ⟨q, pid, linked, hq⟩ := h.used c hused
      have hbusy := h.busy q (by rintro hpc; rw [hpc] at hq; cases hq)
      have halive : (s.procs q).Alive := hbusy.resolve_right fun hsw => by
        rw [hsw.1] at hq
        cases hq
      refine ⟨q, halive.live.1, halive.live.2, ?_⟩
      cases linked with
      | true => exact Or.inl (h.setUp q c pid true hq).2.2
      | false => exact Or.inr ⟨hused, pid, hq⟩
    · have hgrown : (s.procs c).Alive ∨ (s.procs c).state = .zombie := by
        unfold Proc.Alive
        cases hs : (s.procs c).state <;> simp_all
      obtain ⟨q, hq⟩ := Option.ne_none_iff_exists'.mp (h.parent_some c hc hgrown)
      obtain ⟨hunused, hzombie⟩ := (h.parent_alive c q hq).live
      exact ⟨q, hunused, hzombie, Or.inl hq⟩

/-- **Parent links stay live.** In every interleaving of the steps of any processes, also while
`wait_lock` is held, every parent is live; `sys_getppid` of a running process other than the first
returns the pid of a live process; and no process is left without a process that can wait for it. -/
theorem parents_live {acts : List Act} {s : Sys} (hrun : run Sys.step acts .boot = some s) :
    ParentsLive s :=
  (inv_of_run hrun).parentsLive

theorem parents_live_forkActs :
    ∃ s, run Sys.step forkActs .boot = some s ∧ (s.procs 1).state = .running ∧
      s.sysGetppid 1 = 1 ∧ ParentsLive s := by
  have hout : (run Sys.step forkActs .boot).map (fun s => ((s.procs 1).state, s.sysGetppid 1)) =
      some (.running, 1) := by
    decide +kernel
  obtain ⟨s, hrun, hpc⟩ := Option.map_eq_some_iff.mp hout
  obtain ⟨hstate, hppid⟩ := Prod.mk.inj hpc
  exact ⟨s, hrun, hstate, hppid, parents_live hrun⟩

end Family

end Xv6
