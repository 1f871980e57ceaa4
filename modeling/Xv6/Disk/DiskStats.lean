import Mathlib.Algebra.Order.Floor.Ring
import Mathlib.Data.Rat.Floor
import Xv6.Disk.Interleave

/-!
# Disk statistics

`run_disk_queue` counts the requests it picks and adds up their latencies: the distance from the
block of the previous request, by whichever process and under whichever policy that was picked, and
`ROTATIONAL_DELAY`. All of it happens in the critical section of the selection, so the counters can
be read off the sequence of picks, in any interleaving. The picks are logged (`Counted`), and
`Exact` relates the log to the counters.

The counters are `long`, and the model has them unbounded; `disk_stats_exact` also says how many
requests it takes before the difference could be seen.
-/

namespace Xv6

namespace Disk

open Transition

variable {blockno : ℕ} {picks rs : List DiskReq} {s : DiskState}

/-- `get_disk_stats`: the values stored through its three pointers. -/
def getDiskStats (s : DiskState) : ℤ × ℤ × ℤ :=
  (s.statReads, s.statWrites,
    if s.statReqCount > 0 then s.statLatencySum.tdiv s.statReqCount else 0)

/-! ### Latencies -/

/-- The latency of a request for `blockno` with the head at `head`. -/
def latency (head : ℤ) (blockno : ℕ) : ℤ := |(blockno : ℤ) - head| + rotationalDelay

/-- The block of the last request, or the head's first position. -/
def lastBlock (head : ℤ) : List DiskReq → ℤ
  | [] => head
  | r :: rs => lastBlock r.blockno rs

/-- The sum of the latencies of a sequence of requests. -/
def latencySum (head : ℤ) : List DiskReq → ℤ
  | [] => 0
  | r :: rs => latency head r.blockno + latencySum r.blockno rs

theorem lastBlock_append (head : ℤ) (rs : List DiskReq) (r : DiskReq) :
    lastBlock head (rs ++ [r]) = r.blockno := by
  induction rs generalizing head with
  | nil => rfl
  | cons q rs ih => exact ih q.blockno

theorem latencySum_append (head : ℤ) (rs : List DiskReq) (r : DiskReq) :
    latencySum head (rs ++ [r]) = latencySum head rs + latency (lastBlock head rs) r.blockno := by
  induction rs generalizing head with
  | nil => simp [latencySum, lastBlock]
  | cons q rs ih =>
    show latency head q.blockno + latencySum q.blockno (rs ++ [r]) = _
    rw [ih q.blockno, ← add_assoc]
    rfl

theorem latency_bounds {head : ℤ} (h0 : 0 ≤ head) (h1 : head < fssize) (hb : blockno < fssize) :
    rotationalDelay ≤ latency head blockno ∧ latency head blockno ≤ 2 ^ 17 := by
  have habs : |(blockno : ℤ) - head| ≤ fssize := by
    rw [abs_le]
    constructor <;> omega
  simp only [fssize_eq, Nat.cast_ofNat] at habs
  have hnonneg := abs_nonneg ((blockno : ℤ) - head)
  simp only [latency, rotationalDelay]
  constructor <;> omega

theorem latencySum_bounds (head : ℤ) (h0 : 0 ≤ head) (h1 : head < fssize) (hrs : ∀ r ∈ rs, r.Sane) :
    0 ≤ latencySum head rs ∧ latencySum head rs ≤ rs.length * 2 ^ 17 := by
  induction rs generalizing head with
  | nil => exact ⟨le_rfl, le_rfl⟩
  | cons r rs ih =>
    have hb := (hrs r List.mem_cons_self).block
    obtain ⟨hlo, hhi⟩ := latency_bounds h0 h1 hb
    obtain ⟨ihlo, ihhi⟩ := ih r.blockno (by omega) (by omega)
      fun q hq => hrs q (List.mem_cons_of_mem r hq)
    simp only [rotationalDelay] at hlo
    rw [latencySum, List.length_cons, Nat.cast_add_one]
    constructor <;> omega

/-- The latency that `run_disk_queue` computes. -/
theorem latency_eq {head : ℤ} (h0 : 0 ≤ head) (h1 : head < fssize) (hb : blockno < fssize) :
    int32 (seekDist head blockno + rotationalDelay) = latency head blockno := by
  obtain ⟨hlo, hhi⟩ := latency_bounds h0 h1 hb
  simp only [rotationalDelay] at hlo
  rw [seekDist_eq h0 h1 hb]
  exact int32_of_mem (by rw [← latency]; omega) (by rw [← latency]; omega)

/-! ### The log of picks -/

variable {ι : Type*} [DecidableEq ι]

/-- The system, with the requests picked so far, oldest first. -/
structure Counted (ι : Type*) where
  sys : Sys ι
  picks : List DiskReq

omit [DecidableEq ι] in
/-- The request that a step picks. -/
def Sys.picked (σ : Sys ι) : Act ι → List DiskReq
  | .pick _ => ((pickRequest σ.d).bind σ.d.reqQueue).toList
  | _ => []

/-- A step, which logs what it picks. -/
def Counted.step (c : Counted ι) (a : Act ι) : Option (Counted ι) :=
  (c.sys.step a).map fun σ => ⟨σ, c.picks ++ c.sys.picked a⟩

/-- The statistics and the position of the head. -/
structure Counters where
  reads : ℤ
  writes : ℤ
  latencies : ℤ
  count : ℤ
  head : ℤ

def DiskState.counters (s : DiskState) : Counters :=
  ⟨s.statReads, s.statWrites, s.statLatencySum, s.statReqCount, s.diskHeadPos⟩

/-- The counters that a log of picks amounts to. -/
def countersOf (picks : List DiskReq) : Counters where
  reads := (picks.countP fun r => !r.write : ℕ)
  writes := (picks.countP fun r => r.write : ℕ)
  latencies := latencySum 0 picks
  count := picks.length
  head := lastBlock 0 picks

/-- A step changes the counters only by picking. -/
theorem step_counters {σ σ' : Sys ι} {a : Act ι} (hs : σ.step a = some σ') :
    (σ.picked a = [] ∧ σ'.d.counters = σ.d.counters) ∨
      ∃ r i stats, σ.picked a = [r] ∧ σ.d.reqQueue i = some r ∧
        σ'.d = extract i r { σ.d with myproc := stats } := by
  cases a with
  | write p slot page priority =>
    simp only [Sys.step, Option.ite_none_right_eq_some, Option.some.injEq] at hs
    obtain ⟨-, rfl⟩ := hs
    exact Or.inl ⟨rfl, rfl⟩
  | read p slot page priority =>
    simp only [Sys.step, Option.ite_none_right_eq_some, Option.some.injEq] at hs
    obtain ⟨-, rfl⟩ := hs
    exact Or.inl ⟨rfl, rfl⟩
  | next p =>
    simp only [Sys.step] at hs
    split at hs
    · rename_i op rest hp
      cases hs
      refine Or.inl ⟨rfl, ?_⟩
      cases op <;> rfl
    · cases hs
  | pick p =>
    simp only [Sys.step] at hs
    split at hs
    · rename_i i hp hi
      obtain ⟨r, hr, rfl⟩ := Option.map_eq_some_iff.mp hs
      refine Or.inr ⟨r, i, _, ?_, hr, rfl⟩
      simp [Sys.picked, hi, hr]
    · cases hs
  | perform p =>
    simp only [Sys.step] at hs
    split at hs
    · cases hs
      exact Or.inl ⟨rfl, rfl⟩
    · cases hs
  | ret p =>
    simp only [Sys.step] at hs
    split at hs
    · cases hs
      exact Or.inl ⟨rfl, rfl⟩
    · cases hs
  | setRaidMode mode =>
    cases hs
    exact Or.inl ⟨rfl, rfl⟩
  | setdisksched policy =>
    cases hs
    obtain ⟨pol, hpol⟩ := setdisksched_eq policy σ.d
    exact Or.inl ⟨rfl, by rw [hpol]; rfl⟩

/-- The counters agree with the log. -/
structure Exact (c : Counted ι) : Prop where
  inv : Inv c.sys
  counters : c.sys.d.counters = countersOf c.picks
  sane : ∀ r ∈ c.picks, r.Sane

/-- A selection adds its request to every counter. -/
theorem counters_extract {i : Fin ndiskreqs} {r : DiskReq} (hhead : HeadInImage s) (hr : r.Sane)
    (h : s.counters = countersOf picks) : (extract i r s).counters = countersOf (picks ++ [r]) := by
  have hlat := latency_eq hhead.1 hhead.2 hr.block
  simp only [DiskState.counters, countersOf, Counters.mk.injEq] at h
  obtain ⟨hreads, hwrites, hsum, hcount, hpos⟩ := h
  rw [hpos] at hlat
  simp only [DiskState.counters, countersOf, extract, Counters.mk.injEq, List.countP_append,
    List.countP_singleton, List.length_append, List.length_singleton, lastBlock_append,
    latencySum_append, hlat, hreads, hwrites, hsum, hcount, hpos]
  cases r.write <;> simp

/-- **Every step keeps the counters in agreement with the log.** -/
theorem Exact.step {c c' : Counted ι} {a : Act ι} (h : Exact c) (hs : c.step a = some c') :
    Exact c' := by
  obtain ⟨σ, hσ, rfl⟩ := Option.map_eq_some_iff.mp hs
  rcases step_counters hσ with ⟨hnone, hsame⟩ | ⟨r, i, stats, hpick, hi, hd⟩
  · refine ⟨h.inv.step hσ, ?_, ?_⟩
    · rw [hnone, List.append_nil]
      exact hsame.trans h.counters
    · rw [hnone, List.append_nil]
      exact h.sane
  · have hr := h.inv.sane i r hi
    refine ⟨h.inv.step hσ, ?_, ?_⟩
    · rw [hpick, hd]
      exact counters_extract (s := { c.sys.d with myproc := stats }) h.inv.head hr h.counters
    · rw [hpick]
      intro q hq
      rcases List.mem_append.mp hq with hq | hq
      · exact h.sane q hq
      · rwa [List.mem_singleton.mp hq]

/-- What `get_disk_stats` computes from counters that agree with a log. -/
theorem getDiskStats_eq (h : s.counters = countersOf picks) (hsane : ∀ r ∈ picks, r.Sane) :
    getDiskStats s = (s.statReads, s.statWrites, ⌊(latencySum 0 picks : ℚ) / picks.length⌋) := by
  simp only [DiskState.counters, countersOf, Counters.mk.injEq] at h
  obtain ⟨-, -, hsum, hcount, -⟩ := h
  have hnonneg := (latencySum_bounds 0 le_rfl (by simp) hsane).1
  rw [getDiskStats, hsum, hcount, Rat.floor_intCast_div_natCast]
  cases picks with
  | nil => rfl
  | cons r rs =>
    rw [if_pos (by simp), Int.tdiv_eq_ediv_of_nonneg hnonneg]

/-- **The disk statistics are exact**, between any two critical sections of any run: they count the
requests picked so far, the head is on the block of the last one, and the latencies are those of the
sequence of picks. No `long` overflows in less than `2 ^ 46` requests. -/
theorem disk_stats_exact {d : DiskState} (hd : Quiet d) (hzero : d.counters = ⟨0, 0, 0, 0, 0⟩)
    {stats : ι → ProcStats} {t₀ : Tag ι} {acts : List (Act ι)} {σ : Sys ι} {picks : List DiskReq}
    (hrun : Transition.run Counted.step acts ⟨Sys.init d stats t₀, []⟩ = some ⟨σ, picks⟩) :
    σ.d.statReqCount = σ.d.statReads + σ.d.statWrites ∧ σ.d.statReqCount = picks.length ∧
    σ.d.diskHeadPos = lastBlock 0 picks ∧ σ.d.statLatencySum = latencySum 0 picks ∧
    getDiskStats σ.d
      = (σ.d.statReads, σ.d.statWrites, ⌊(latencySum 0 picks : ℚ) / picks.length⌋) ∧
    (picks.length < 2 ^ 46 → σ.d.statReqCount < 2 ^ 63 ∧ σ.d.statLatencySum < 2 ^ 63) := by
  have hexact : Exact (⟨σ, picks⟩ : Counted ι) :=
    run_invariant (fun _ _ _ h _ hs => Exact.step h hs)
      ⟨inv_init hd stats t₀, hzero, by simp⟩ (meets_true _ _) hrun
  have hstats := getDiskStats_eq hexact.counters hexact.sane
  have hbound := (latencySum_bounds 0 le_rfl (by simp) hexact.sane).2
  have hcounters := hexact.counters
  simp only [DiskState.counters, countersOf, Counters.mk.injEq] at hcounters
  obtain ⟨hreads, hwrites, hsum, hcount, hhead⟩ := hcounters
  refine ⟨?_, hcount, hhead, hsum, hstats, fun hlen => ?_⟩
  · rw [hcount, hreads, hwrites, List.length_eq_countP_add_countP fun r : DiskReq => !r.write]
    simp
  · simp only at hbound
    rw [hcount, hsum]
    constructor <;> omega

/-- Two processes swap at the same time, with a change of policy in between. -/
def countedActs : List (Act ℕ) :=
  [.write 0 0 0 0, .next 0, .next 0, .write 1 1 1 0, .next 1, .next 0, .next 0, .pick 0,
   .setdisksched 1, .perform 0, .pick 0]

theorem disk_stats_exact_countedActs :
    Quiet (initState 0 (fun _ _ => 0) fun _ _ => 0) ∧
    (initState 0 (fun _ _ => 0) fun _ _ => 0).counters = ⟨0, 0, 0, 0, 0⟩ ∧
    ∃ σ picks, Transition.run Counted.step countedActs
        ⟨Sys.init (initState 0 (fun _ _ => 0) fun _ _ => 0) (fun _ => ⟨0, 0, 0⟩) ⟨0, 0, 0⟩, []⟩
          = some ⟨σ, picks⟩ ∧ σ.d.statReqCount = picks.length := by
  obtain ⟨⟨σ, picks⟩, hrun⟩ := Option.isSome_iff_exists.mp (show (Transition.run Counted.step
    countedActs ⟨Sys.init (initState 0 (fun _ _ => 0) fun _ _ => 0) (fun _ => ⟨0, 0, 0⟩)
      ⟨0, 0, 0⟩, []⟩).isSome = true by decide +kernel)
  exact ⟨quiet_initState _ _ _, rfl, σ, picks, hrun,
    (disk_stats_exact (quiet_initState _ _ _) rfl hrun).2.1⟩

end Disk

end Xv6
