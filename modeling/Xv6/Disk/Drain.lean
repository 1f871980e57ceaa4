import Xv6.Disk.SwapPage
import Mathlib.Data.Prod.Lex
import Mathlib.Data.List.Pairwise

/-!
# Selection and draining

What SSTF selects, and what draining the queue leaves behind when the policy changes on the way.

SSTF folds the distance and the priority of a request into the number `4 * distance + priority`. As
long as priorities are levels and blocks and head lie in the image, no step of that computation
overflows, and comparing the numbers is comparing distance first and priority second; the scan keeps
the earlier place on a tie (`sstf_pick_iff`).

`setdisksched` may change the policy between any two iterations of `run_disk_queue`. In `drainWith`
the policy of every iteration is given. Every pending request is served exactly once, and if the
requests do not get in each other's way the order of service does not matter
(`drainWith_conflictFree`). Both hold as long as no score reaches the sentinel `0x7fffffff` with
which the scan starts: a request with that score is never selected
(`drainWith_sentinel_counterexample`). No block of the image is that far away.
-/

namespace Xv6

namespace Disk

open SlotTable

/-! ### Shortest seek first -/

/-- The order of SSTF: distance from the head, then priority, then place. -/
def sstfKey (head : ℤ) (r : DiskReq) (i : Fin ndiskreqs) : ℤ ×ₗ ℤ ×ₗ Fin ndiskreqs :=
  toLex (|(r.blockno : ℤ) - head|, toLex (r.priority, i))

/-- The value is one of an `int`. -/
def FitsInt (x : ℤ) : Prop := -2 ^ 31 ≤ x ∧ x < 2 ^ 31

/-- No operation of the score computation overflows. -/
structure NoOverflow (head : ℤ) (r : DiskReq) : Prop where
  dist : FitsInt (r.blockno - head)
  neg : FitsInt (-(r.blockno - head))
  scaled : FitsInt (|(r.blockno : ℤ) - head| * 4)
  score : FitsInt (|(r.blockno : ℤ) - head| * 4 + r.priority)

section

variable {head : ℤ} {r b : DiskReq} {i j : Fin ndiskreqs}

theorem noOverflow_of_sane (h0 : 0 ≤ head) (h1 : head < fssize) (hr : r.Sane) :
    NoOverflow head r := by
  have hb := hr.block
  have hp := hr.prio_le
  have hp0 := hr.prio_nonneg
  simp only [fssize_eq, Nat.cast_ofNat] at h1 hb
  have hge : 0 ≤ |(r.blockno : ℤ) - head| := abs_nonneg _
  have hle : |(r.blockno : ℤ) - head| < 120000 := by
    rw [abs_lt]
    omega
  constructor <;> constructor <;> norm_num <;> omega

theorem sstfScore_eq (h0 : 0 ≤ head) (h1 : head < fssize) (hr : r.Sane) :
    sstfScore head r = |(r.blockno : ℤ) - head| * 4 + r.priority := by
  have hno := noOverflow_of_sane h0 h1 hr
  rw [sstfScore, seekDist_eq h0 h1 hr.block, int32_of_mem hno.scaled.1 hno.scaled.2,
    int32_of_mem hno.score.1 hno.score.2]

theorem sstfKey_le_iff : sstfKey head r i ≤ sstfKey head b j ↔
    |(r.blockno : ℤ) - head| < |(b.blockno : ℤ) - head| ∨
      |(r.blockno : ℤ) - head| = |(b.blockno : ℤ) - head| ∧
        (r.priority < b.priority ∨ r.priority = b.priority ∧ i ≤ j) := by
  rw [sstfKey, sstfKey, Prod.Lex.toLex_le_toLex, Prod.Lex.toLex_le_toLex]

/-- **Scores compare as distance and priority do**, because a priority is less than `4`. -/
theorem sstfKey_le_iff_score (h0 : 0 ≤ head) (h1 : head < fssize) (hr : r.Sane) (hb : b.Sane) :
    sstfKey head r i ≤ sstfKey head b j ↔
      sstfScore head r < sstfScore head b ∨ sstfScore head r = sstfScore head b ∧ i ≤ j := by
  have hr0 := hr.prio_nonneg
  have hr3 := hr.prio_le
  have hb0 := hb.prio_nonneg
  have hb3 := hb.prio_le
  rw [sstfKey_le_iff, sstfScore_eq h0 h1 hr, sstfScore_eq h0 h1 hb]
  omega

/-- The key determines the place. -/
theorem eq_of_sstfKey_eq (h : sstfKey head r i = sstfKey head b j) : i = j := by
  have hpair := toLex.injective h
  have hrest := toLex.injective (congrArg Prod.snd hpair)
  exact congrArg Prod.snd hrest

end

/-- **SSTF selects the nearest request, then the most urgent, then the first.** Under SSTF, with the
head in the image, blocks in the image and levels as priorities, a place is selected exactly if its
request is least in that order; no place is selected exactly if no request is pending; and no
computation of a score overflows. -/
theorem sstf_pick_iff {s : DiskState} (hsstf : s.diskPolicy = .sstf) (hh : HeadInImage s)
    (hq : ∀ i r, s.reqQueue i = some r → r.Sane) :
    (∀ i, pickRequest s = some i ↔ ∃ r, s.reqQueue i = some r ∧
      ∀ j b, s.reqQueue j = some b → sstfKey s.diskHeadPos r i ≤ sstfKey s.diskHeadPos b j) ∧
    (pickRequest s = none ↔ ∀ i, s.reqQueue i = none) ∧
    ∀ i r, s.reqQueue i = some r → NoOverflow s.diskHeadPos r := by
  obtain ⟨h0, h1⟩ := hh
  have hpick : pickRequest s = s.reqQueue.minBy (sstfScore s.diskHeadPos) 0x7fffffff := by
    rw [pickRequest, hsstf]
  have hleast : ∀ i, pickRequest s = some i → ∃ r, s.reqQueue i = some r ∧
      ∀ j b, s.reqQueue j = some b → sstfKey s.diskHeadPos r i ≤ sstfKey s.diskHeadPos b j := by
    intro i hi
    obtain ⟨r, hr, -, hmin, hfirst⟩ := minBy_eq_some (hpick.symm.trans hi)
    refine ⟨r, hr, fun j b hb => ?_⟩
    rw [sstfKey_le_iff_score h0 h1 (hq i r hr) (hq j b hb)]
    rcases (hmin j b hb).lt_or_eq with hlt | heq
    · exact Or.inl hlt
    · refine Or.inr ⟨heq, ?_⟩
      by_contra hji
      exact (hfirst j (not_le.mp hji) b hb).ne heq
  have hnone : pickRequest s = none ↔ ∀ i, s.reqQueue i = none := by
    constructor
    · intro hp
      refine contents_eq_nil.mp (pickRequest_eq_none ⟨h0, h1⟩ (fun r hr => ?_) hp)
      obtain ⟨i, hi⟩ := mem_contents.mp hr
      exact hq i r hi
    · intro hempty
      cases hp : pickRequest s with
      | none => rfl
      | some i =>
        obtain ⟨r, hr⟩ := pickRequest_isSome hp
        rw [hempty i] at hr
        cases hr
  refine ⟨fun i => ⟨hleast i, ?_⟩, hnone, fun i r hr => noOverflow_of_sane h0 h1 (hq i r hr)⟩
  rintro ⟨r, hr, hmin⟩
  cases hp : pickRequest s with
  | none =>
    rw [hnone.mp hp i] at hr
    cases hr
  | some k =>
    -- both places are least, and keys are different
    obtain ⟨b, hb, hmin'⟩ := hleast k hp
    rw [eq_of_sstfKey_eq (le_antisymm (hmin k b hb) (hmin' i r hr))]

/-- Requests at the same distance on both sides of the head, and a more urgent one further away. -/
def threeAround : DiskState :=
  { initState 0 (fun _ _ => 0) (fun _ _ => 0) with
    diskPolicy := .sstf
    diskHeadPos := 30000
    reqQueue := ofList
      [⟨40000, true, 0, .page 0 0⟩, ⟨30100, true, 2, .page 0 1⟩, ⟨29900, true, 1, .page 0 2⟩] }

theorem sstf_pick_threeAround :
    HeadInImage threeAround ∧ pickRequest threeAround = some ⟨2, by decide⟩ := by
  have hq : ∀ i r, threeAround.reqQueue i = some r → r.Sane := by
    intro i r hr
    have hmem : r ∈ threeAround.reqQueue.contents := mem_contents.mpr ⟨i, hr⟩
    have hc : threeAround.reqQueue.contents = _ := contents_ofList (by decide)
    rw [hc] at hmem
    simp only [List.mem_cons, List.not_mem_nil, or_false] at hmem
    rcases hmem with rfl | rfl | rfl <;> constructor <;> decide
  have hh : HeadInImage threeAround := by
    constructor <;> decide
  refine ⟨hh, ((sstf_pick_iff rfl hh hq).1 _).mpr ⟨⟨29900, true, 1, .page 0 2⟩, rfl, ?_⟩⟩
  intro j b hb
  match j with
  | ⟨0, _⟩ | ⟨1, _⟩ | ⟨2, _⟩ =>
    obtain rfl := Option.some.inj hb
    decide +revert
  | ⟨n + 3, _⟩ => cases hb

/-! ### Draining under changing policies -/

/-- The policy is changed. -/
def DiskState.withPolicy (s : DiskState) (policy : Policy) : DiskState :=
  { s with diskPolicy := policy }

/-- `run_disk_queue` with nobody else at the queue, when the policy of the `k`-th iteration is
`policy k`; `none` when it has not ended after `fuel` iterations. -/
def drainWith (policy : ℕ → Policy) : ℕ → DiskState → Option DiskState
  | 0, _ => none
  | fuel + 1, s =>
    match pickRequest (s.withPolicy (policy 0)) with
    | none => some (s.withPolicy (policy 0))
    | some i =>
      match s.reqQueue i with
      | none => none
      | some r => drainWith (fun k => policy (k + 1)) fuel
        (perform r (extract i r (s.withPolicy (policy 0))))

/-- With one policy this is `runDiskQueueFor`. -/
theorem drainWith_const {fuel : ℕ} {s s' : DiskState}
    (h : drainWith (fun _ => s.diskPolicy) fuel s = some s') : runDiskQueueFor fuel s = s' := by
  induction fuel generalizing s with
  | zero => cases h
  | succ fuel ih =>
    have hs : s.withPolicy s.diskPolicy = s := rfl
    rw [drainWith, hs] at h
    rw [runDiskQueueFor]
    cases hp : pickRequest s with
    | none =>
      rw [hp] at h
      exact Option.some.inj h
    | some i =>
      simp only [hp] at h ⊢
      cases hi : s.reqQueue i with
      | none =>
        rw [hi] at h
        cases h
      | some r =>
        simp only [hi] at h
        exact ih (s := perform r (extract i r s)) h

/-- No SSTF score of a pending request reaches the sentinel, from where the head is or will be. -/
def ScoresBelow (s : DiskState) : Prop :=
  ∀ r ∈ s.reqQueue.contents, ∀ head,
    (head = s.diskHeadPos ∨ ∃ b ∈ s.reqQueue.contents, head = (b.blockno : ℤ)) →
      sstfScore head r < 0x7fffffff

/-- In the image no score does. -/
theorem scoresBelow_of_sane {s : DiskState} (hh : HeadInImage s)
    (hq : ∀ r ∈ s.reqQueue.contents, r.Sane) : ScoresBelow s := by
  rintro r hr head (rfl | ⟨b, hb, rfl⟩)
  · exact sstfScore_lt hh.1 hh.2 (hq r hr)
  · exact sstfScore_lt (Int.natCast_nonneg _) (Int.ofNat_lt.mpr (hq b hb).block) (hq r hr)

section

variable {s : DiskState} {i : Fin ndiskreqs} {r : DiskReq}

theorem ScoresBelow.withPolicy (h : ScoresBelow s) (policy : Policy) :
    ScoresBelow (s.withPolicy policy) := h

/-- One iteration moves the head to a block that was pending. -/
theorem ScoresBelow.serve (h : ScoresBelow s) (hi : s.reqQueue i = some r) :
    ScoresBelow (perform r (extract i r s)) := by
  have hmem : ∀ b ∈ (s.reqQueue.erase i).contents, b ∈ s.reqQueue.contents := fun b hb =>
    mem_contents_erase hb
  rintro a ha head (rfl | ⟨b, hb, rfl⟩)
  · exact h a (hmem a ha) _ (Or.inr ⟨r, mem_contents.mpr ⟨i, hi⟩, rfl⟩)
  · exact h a (hmem a ha) _ (Or.inr ⟨b, hmem b hb, rfl⟩)

/-- The loop ends only at an empty queue. -/
theorem ScoresBelow.contents_eq_nil (h : ScoresBelow s) (hp : pickRequest s = none) :
    s.reqQueue.contents = [] := by
  refine SlotTable.contents_eq_nil.mpr fun i => ?_
  unfold pickRequest at hp
  split at hp
  · exact firstUsed_eq_none hp i
  · by_contra hi
    obtain ⟨r, hr⟩ := Option.ne_none_iff_exists'.mp hi
    have hle := minBy_eq_none hp i r hr
    have hlt := h r (mem_contents.mpr ⟨i, hr⟩) _ (Or.inl rfl)
    omega

end

/-- What draining does, whatever the policies: `order` is the order of service. -/
structure Serves (s s' : DiskState) (order : List DiskReq) : Prop where
  perm : order.Perm s.reqQueue.contents
  empty : ∀ i, s'.reqQueue i = none
  trace : s'.trace = s.trace ++ order
  io : (s'.disk, s'.ram) = order.foldl transfer (s.disk, s.ram)

theorem Serves.cons {s s' : DiskState} {order : List DiskReq} {i : Fin ndiskreqs} {r : DiskReq}
    (hi : s.reqQueue i = some r) (h : Serves (perform r (extract i r s)) s' order) :
    Serves s s' (r :: order) where
  perm := (h.perm.cons r).trans (contents_perm_erase hi)
  empty := h.empty
  trace := by
    rw [h.trace]
    simp [perform, extract]
  io := by
    rw [h.io]
    rfl

/-- **Draining ends, and serves every pending request once.** -/
theorem ScoresBelow.drainWith {fuel : ℕ} {s : DiskState} (h : ScoresBelow s)
    (policy : ℕ → Policy) (hfuel : s.reqQueue.contents.length < fuel) :
    ∃ s' order, drainWith policy fuel s = some s' ∧ Serves s s' order := by
  induction fuel generalizing s policy with
  | zero => omega
  | succ fuel ih =>
    rw [Disk.drainWith]
    have h' := h.withPolicy (policy 0)
    cases hp : pickRequest (s.withPolicy (policy 0)) with
    | none =>
      have hnil : s.reqQueue.contents = [] := h'.contents_eq_nil hp
      exact ⟨_, [], rfl, by rw [hnil], SlotTable.contents_eq_nil.mp hnil,
        (List.append_nil _).symm, rfl⟩
    | some i =>
      obtain ⟨r, hr⟩ := pickRequest_isSome hp
      have hr' : s.reqQueue i = some r := hr
      have hlen := length_contents_erase hr'
      have hless : (s.reqQueue.erase i).contents.length < fuel := by omega
      obtain ⟨s', order, hrun, hserves⟩ := ih (h'.serve hr) (fun k => policy (k + 1)) hless
      have hc := hserves.cons hr
      refine ⟨s', r :: order, ?_, hc.perm, hc.empty, hc.trace, hc.io⟩
      simp only [hr']
      exact hrun

/-! ### Requests that do not get in each other's way -/

/-- The two requests touch different blocks, unless both read, and neither reads into the buffer of
the other. -/
structure Independent (a b : DiskReq) : Prop where
  block : a.blockno = b.blockno → a.write = false ∧ b.write = false
  buffer : a.write = false ∨ b.write = false → a.data ≠ b.data

instance : Std.Symm Independent where
  symm _ _ h := ⟨fun he => (h.block he.symm).symm, fun hor => (h.buffer hor.symm).symm⟩

theorem Independent.transfer_comm {a b : DiskReq} (h : Independent a b)
    (dr : (ℕ → Block) × (Ptr → Block)) :
    transfer (transfer dr a) b = transfer (transfer dr b) a := by
  cases ha : a.write <;> cases hb : b.write <;>
    simp only [transfer, ha, hb, if_true, Bool.false_eq_true, if_false]
  · rw [Function.update_comm (h.buffer (Or.inl ha))]
  · -- `a` reads a block that `b` does not write, into a buffer that `b` does not write from
    have hblock : a.blockno ≠ b.blockno := fun he => by
      rw [(h.block he).2] at hb
      cases hb
    rw [Function.update_of_ne hblock, Function.update_of_ne (h.buffer (Or.inl ha)).symm]
  · have hblock : b.blockno ≠ a.blockno := fun he => by
      rw [(h.block he.symm).1] at ha
      cases ha
    rw [Function.update_of_ne hblock, Function.update_of_ne (h.buffer (Or.inr hb))]
  · have hblock : a.blockno ≠ b.blockno := fun he => by
      rw [(h.block he).2] at hb
      cases hb
    rw [Function.update_comm hblock]

/-- Independent transfers can be made in any order. -/
theorem foldl_transfer_perm {l l' : List DiskReq} (hl : l.Pairwise Independent) (hp : l.Perm l')
    (dr : (ℕ → Block) × (Ptr → Block)) : l.foldl transfer dr = l'.foldl transfer dr := by
  refine hp.foldl_eq' (fun a ha b hb dr => ?_) dr
  by_cases hab : a = b
  · rw [hab]
  · exact (hl.forall ha hb hab).transfer_comm dr

/-- **Draining is exactly once, and independent of the policies.** Whatever policy each iteration
finds, the loop ends with an empty queue and every pending request performed once. If the requests
are independent, the image and the memory are what performing them in any order gives, in particular
in the order in which they were enqueued. -/
theorem drainWith_conflictFree {s : DiskState} (h : ScoresBelow s) (policy : ℕ → Policy) :
    ∃ s' order, drainWith policy (ndiskreqs + 1) s = some s' ∧ (∀ i, s'.reqQueue i = none) ∧
      order.Perm s.reqQueue.contents ∧ s'.trace = s.trace ++ order ∧
      (s.reqQueue.contents.Pairwise Independent →
        ∀ enqueued : List DiskReq, enqueued.Perm s.reqQueue.contents →
          (s'.disk, s'.ram) = enqueued.foldl transfer (s.disk, s.ram)) := by
  obtain ⟨s', order, hrun, hs⟩ := h.drainWith policy
    (Nat.lt_succ_of_le (length_contents_le s.reqQueue))
  refine ⟨s', order, hrun, hs.empty, hs.perm, hs.trace, fun hind enqueued henq => ?_⟩
  rw [hs.io, ← foldl_transfer_perm hind hs.perm.symm, ← foldl_transfer_perm hind henq.symm]

/-- The policy changes after the first request, and the writes are made all the same. -/
theorem drainWith_threeAround :
    ∃ s', drainWith (fun k => if k = 0 then .sstf else .fcfs) (ndiskreqs + 1) threeAround
        = some s' ∧ (∀ i, s'.reqQueue i = none) ∧
      (s'.disk, s'.ram) = threeAround.reqQueue.contents.foldl transfer
        (threeAround.disk, threeAround.ram) := by
  have hc : threeAround.reqQueue.contents = _ := contents_ofList (by decide)
  have hq : ∀ r ∈ threeAround.reqQueue.contents, r.Sane := by
    rw [hc]
    simp only [List.mem_cons, List.not_mem_nil, or_false]
    rintro r (rfl | rfl | rfl) <;> constructor <;> decide
  have hind : threeAround.reqQueue.contents.Pairwise Independent := by
    rw [hc]
    simp only [List.pairwise_cons, List.mem_cons, List.not_mem_nil, or_false]
    refine ⟨?_, ?_, ?_, List.Pairwise.nil⟩
    · rintro b (rfl | rfl) <;> constructor <;> decide
    · rintro b rfl
      constructor <;> decide
    · rintro b hb
      exact hb.elim
  obtain ⟨s', order, hrun, hempty, -, -, hio⟩ :=
    drainWith_conflictFree (scoresBelow_of_sane ⟨by decide, by decide⟩ hq)
      fun k => if k = 0 then .sstf else .fcfs
  exact ⟨s', hrun, hempty, hio hind _ (List.Perm.refl _)⟩

/-- One request for a block far outside the image, with the sentinel as its score. -/
def sentinelRequest : DiskState :=
  { initState 0 (fun _ _ => 0) (fun _ _ => 0) with
    reqQueue := ofList [⟨0x1fffffff, false, 3, .page 0 0⟩] }

/-- Under SSTF the loop ends at once and leaves the request in the queue. -/
theorem drainWith_sentinel_counterexample :
    ∃ s', drainWith (fun _ => .sstf) (ndiskreqs + 1) sentinelRequest = some s' ∧
      s'.reqQueue.contents = [⟨0x1fffffff, false, 3, .page 0 0⟩] := by
  have hpick : pickRequest (sentinelRequest.withPolicy .sstf) = none := by decide +kernel
  refine ⟨sentinelRequest.withPolicy .sstf, ?_, contents_ofList (by decide)⟩
  rw [drainWith, hpick]

end Disk

end Xv6
