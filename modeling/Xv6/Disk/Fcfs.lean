import Xv6.Disk.SwapPage
import Xv6.Lib.Transition

/-!
# First come, first served

The queue under the policy FCFS, with any number of processes that enqueue requests and pick them.

The source takes the lowest occupied place for the oldest request. New requests go into the lowest
free place, however, so one that arrives while others are pending and after a pick is put in front
of them. The requests are served in the order of their arrival exactly if no request arrives while
another one is pending behind a free place (`fcfs_in_order_iff`).

Requests are numbered as they arrive. The list that carries the argument is the one of the requests
picked so far followed by the pending ones by place: a pick does not change it, and an arrival
inserts the new number somewhere in its second part.
-/

namespace Xv6

namespace Disk

open Transition
open SlotTable

/-- The driver, and the order of arrival, which no function of the driver knows. -/
structure Arrivals where
  d : DiskState
  /-- The number of the request in each place. -/
  stamps : SlotTable ndiskreqs ℕ
  /-- How many requests have arrived. -/
  arrived : ℕ
  /-- The numbers of the requests picked, oldest first. -/
  picked : List ℕ

/-- The steps of any process: it enqueues a request, or picks one in `run_disk_queue`. -/
inductive QueueAct where
  | enqueue (r : DiskReq)
  | pick (p : Option ProcStats)

namespace Arrivals

/-- One step. A request is enqueued only while at most `NDISKREQS` requests are pending. -/
def step (σ : Arrivals) : QueueAct → Option Arrivals
  | .enqueue r =>
    match σ.d.reqQueue.firstFree with
    | none => none
    | some _ => some
      { σ with
        d := enqueueDiskReq r.blockno r.write r.data r.priority σ.d
        stamps := σ.stamps.insertFirst σ.arrived
        arrived := σ.arrived + 1 }
  | .pick p =>
    match pickRequest σ.d with
    | none => none
    | some i => (σ.d.reqQueue i).map fun r =>
      { σ with
        d := extract i r { σ.d with myproc := p }
        stamps := σ.stamps.erase i
        picked := σ.picked ++ (σ.stamps i).toList }

/-- Nothing has arrived. -/
def init (d : DiskState) : Arrivals := ⟨d, fun _ => none, 0, []⟩

/-- The order of service: the requests picked, then the pending ones by place. -/
def service (σ : Arrivals) : List ℕ := σ.picked ++ σ.stamps.contents

/-- A request that arrives goes behind all that are pending. -/
def Appends (σ : Arrivals) (a : QueueAct) : Prop :=
  ∀ r, a = .enqueue r → ∀ i, σ.d.reqQueue.firstFree = some i → ∀ j, i < j → σ.d.reqQueue j = none

/-- The policy is FCFS, and the numbers are those of the requests in the queue. -/
structure Ok (σ : Arrivals) : Prop where
  policy : σ.d.diskPolicy = .fcfs
  stamped : ∀ i, (σ.stamps i).isSome = (σ.d.reqQueue i).isSome

section

variable {σ σ' : Arrivals} {a : QueueAct}

theorem Ok.firstFree (h : σ.Ok) : σ.stamps.firstFree = σ.d.reqQueue.firstFree := by
  simp only [SlotTable.firstFree, ← Option.not_isSome, h.stamped]

theorem Ok.firstUsed (h : σ.Ok) : σ.stamps.firstUsed = pickRequest σ.d := by
  simp only [pickRequest, h.policy, SlotTable.firstUsed, h.stamped]

theorem Ok.none_iff (h : σ.Ok) (i : Fin ndiskreqs) : σ.stamps i = none ↔ σ.d.reqQueue i = none := by
  rw [← Option.not_isSome_iff_eq_none, h.stamped, Option.not_isSome_iff_eq_none]

theorem Ok.step (h : σ.Ok) (hs : σ.step a = some σ') : σ'.Ok := by
  cases a with
  | enqueue r =>
    simp only [Arrivals.step] at hs
    cases hf : σ.d.reqQueue.firstFree with
    | none => simp [hf] at hs
    | some i =>
      simp only [hf, Option.some.injEq] at hs
      subst hs
      refine ⟨h.policy, fun j => ?_⟩
      simp only [enqueueDiskReq, insertFirst, h.firstFree, hf]
      by_cases hj : j = i
      · subst hj
        simp
      · simp [Function.update_of_ne hj, h.stamped j]
  | pick p =>
    simp only [Arrivals.step] at hs
    cases hf : pickRequest σ.d with
    | none => simp [hf] at hs
    | some i =>
      simp only [hf] at hs
      obtain ⟨r, hr, rfl⟩ := Option.map_eq_some_iff.mp hs
      refine ⟨h.policy, fun j => ?_⟩
      simp only [extract, erase]
      by_cases hj : j = i
      · subst hj
        simp
      · simp [Function.update_of_ne hj, h.stamped j]

/-- The next number completes the list only at its end. -/
theorem append_cons_eq_range_iff {l₁ l₂ : List ℕ} {n : ℕ} :
    l₁ ++ n :: l₂ = List.range (n + 1) ↔ l₁ ++ l₂ = List.range n ∧ l₂ = [] := by
  constructor
  · intro h
    rw [List.range_succ, List.append_eq_append_iff] at h
    have hl₂ : l₂ = [] := by
      rcases h with ⟨l, hr, he⟩ | ⟨l, -, he⟩
      · cases l with
        | nil => exact (List.cons.inj he).2
        | cons b l =>
          have hmem : n ∈ List.range n := by
            rw [hr, (List.cons.inj he).1]
            simp
          exact absurd hmem (by simp)
      · have hlen := congrArg List.length he
        simp only [List.length_append, List.length_cons, List.length_nil] at hlen
        exact List.length_eq_zero_iff.mp (by omega)
    subst hl₂
    rcases h with ⟨l, hr, he⟩ | ⟨l, hr, he⟩
    · obtain rfl : l = [] := by simpa using he.symm
      simp [hr]
    · obtain rfl : l = [] := by simpa using he.symm
      simp [hr]
  · rintro ⟨h, rfl⟩
    rw [List.range_succ, ← h, List.append_nil]

/-- **One step** keeps the order of service exactly if a request that arrives goes behind all that
are pending. -/
theorem service_step_iff (h : σ.Ok) (hs : σ.step a = some σ') :
    σ'.service = List.range σ'.arrived ↔ σ.service = List.range σ.arrived ∧ σ.Appends a := by
  cases a with
  | enqueue r =>
    simp only [step] at hs
    cases hf : σ.d.reqQueue.firstFree with
    | none => simp [hf] at hs
    | some i =>
      simp only [hf, Option.some.injEq] at hs
      subst hs
      obtain ⟨l₁, l₂, hc, hi, hl₂⟩ :=
        contents_insertFirst (h.firstFree.trans hf) σ.arrived
      have happ : σ.Appends (.enqueue r) ↔ l₂ = [] := by
        rw [hl₂]
        simp only [h.none_iff, Appends, hf]
        exact ⟨fun hA => hA r rfl i rfl, fun hA _ _ k hk => Option.some.inj hk ▸ hA⟩
      rw [service, service, hi, hc, happ, ← List.append_assoc, append_cons_eq_range_iff,
        List.append_assoc]
  | pick p =>
    simp only [step] at hs
    cases hf : pickRequest σ.d with
    | none => simp [hf] at hs
    | some i =>
      simp only [hf] at hs
      obtain ⟨r, hr, rfl⟩ := Option.map_eq_some_iff.mp hs
      obtain ⟨n, hn⟩ := Option.isSome_iff_exists.mp
        ((h.stamped i).trans (Option.isSome_iff_exists.mpr ⟨r, hr⟩))
      have hsame : σ.picked ++ (σ.stamps i).toList ++ (σ.stamps.erase i).contents = σ.service := by
        rw [service, contents_firstUsed (h.firstUsed.trans hf) hn, hn]
        simp
      rw [service, hsame]
      exact (and_iff_left fun r he => by cases he).symm

end

end Arrivals

/-- **First come, first served.** In every run from an empty queue, the requests picked and then the
pending ones are in the order of arrival exactly if no request arrived while another one was pending
behind a free place. So in such a run the requests are picked in the order of arrival, and a run
that empties the queue picks them in that order only if it is such a run. -/
theorem fcfs_in_order_iff {d : DiskState} (hfcfs : d.diskPolicy = .fcfs)
    (hempty : d.reqQueue.contents = []) {acts : List QueueAct} {σ : Arrivals}
    (hrun : run Arrivals.step acts (.init d) = some σ) :
    (Meets Arrivals.step Arrivals.Appends acts (.init d) →
      σ.picked = List.range σ.picked.length) ∧
    (σ.d.reqQueue.contents = [] → (σ.picked = List.range σ.arrived ↔
      Meets Arrivals.step Arrivals.Appends acts (.init d))) := by
  have hinit : (Arrivals.init d).Ok := ⟨hfcfs, fun i => by
    simp [Arrivals.init, contents_eq_nil.mp hempty i]⟩
  have hnone : (Arrivals.init d).service = List.range 0 := by
    simp [Arrivals.service, Arrivals.init, contents]
  have hiff := (run_iff_meets (fun _ _ _ h hs => h.step hs)
    (fun _ _ _ h hs => Arrivals.service_step_iff h hs) hinit hrun).trans (and_iff_right hnone)
  refine ⟨fun hmeets => ?_, fun hdone => ?_⟩
  · have hpre : σ.picked <+: List.range σ.arrived := ⟨_, hiff.mpr hmeets⟩
    rw [List.prefix_iff_eq_take] at hpre
    have hlen := congrArg List.length hpre
    rw [List.length_take, List.length_range] at hlen
    rw [List.take_range, ← hlen] at hpre
    exact hpre
  · have hok : σ.Ok := run_invariant (C := fun _ _ => True)
      (fun _ _ _ h _ hs => h.step hs)
      hinit (meets_true _ _) hrun
    have hserve : σ.service = σ.picked := by
      rw [Arrivals.service, contents_eq_nil.mpr fun i => (hok.none_iff i).mpr
        (contents_eq_nil.mp hdone i), List.append_nil]
    rw [← hiff, hserve]

/-- A request to read a block. -/
def readReq (blockno : ℕ) : DiskReq := ⟨blockno, false, 0, .page 0 blockno⟩

/-- Two requests arrive and are picked, and then a third one. -/
def twoThenOne : List QueueAct :=
  [.enqueue (readReq 1), .enqueue (readReq 2), .pick none, .pick none, .enqueue (readReq 3),
    .pick none]

theorem fcfs_in_order_twoThenOne :
    ∃ σ, run Arrivals.step twoThenOne
        (.init (initState 0 (fun _ _ => 0) fun _ _ => 0)) = some σ ∧
      σ.d.reqQueue.contents = [] ∧ σ.picked = List.range σ.arrived ∧
      Meets Arrivals.step Arrivals.Appends twoThenOne
        (.init (initState 0 (fun _ _ => 0) fun _ _ => 0)) ∧
      σ.picked = List.range σ.picked.length := by
  have hrun : (run Arrivals.step twoThenOne
      (.init (initState 0 (fun _ _ => 0) fun _ _ => 0))).map
        (fun σ => (σ.d.reqQueue.contents, σ.picked, σ.arrived)) = some ([], [0, 1, 2], 3) := by
    decide +kernel
  obtain ⟨σ, hσ, he⟩ := Option.map_eq_some_iff.mp hrun
  simp only [Prod.mk.injEq] at he
  obtain ⟨hdone, hpicked, harr⟩ := he
  have hiff := fcfs_in_order_iff rfl (by simp [initState, contents]) hσ
  have horder : σ.picked = List.range σ.arrived := by
    rw [hpicked, harr]
    decide
  have hmeets := (hiff.2 hdone).mp horder
  exact ⟨σ, hσ, hdone, horder, hmeets, hiff.1 hmeets⟩

/-- Of two pending requests the first is picked, and its place is taken by a third one, which is
picked before the second. -/
theorem fcfs_in_order_counterexample :
    ∃ σ, run Arrivals.step
        [.enqueue (readReq 1), .enqueue (readReq 2), .pick none, .enqueue (readReq 3), .pick none]
        (.init (initState 0 (fun _ _ => 0) fun _ _ => 0)) = some σ ∧ σ.picked = [0, 2] := by
  have hrun : (run Arrivals.step
      [.enqueue (readReq 1), .enqueue (readReq 2), .pick none, .enqueue (readReq 3), .pick none]
      (.init (initState 0 (fun _ _ => 0) fun _ _ => 0))).map Arrivals.picked = some [0, 2] := by
    decide +kernel
  exact Option.map_eq_some_iff.mp hrun

end Disk

end Xv6
