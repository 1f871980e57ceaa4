import Mathlib.Algebra.Order.BigOperators.Group.Finset
import Mathlib.Algebra.Order.Group.Multiset
import Mathlib.Data.Fintype.Card
import Mathlib.Tactic.Abel
import Xv6.Disk.Interleave

/-!
# Lost requests

`enqueue_disk_req` does nothing when the queue is full, and its caller does not learn of it. Whether
a request can get lost depends on how many requests all processes together have enqueued and nobody
has picked: `NDISKREQS` is 128, and a page written in RAID 1 makes eight requests, so seventeen
processes are enough (`no_request_lost_counterexample`).

The requests passed to `enqueue_disk_req` and those performed are logged. At every moment of a run
the logs differ by the requests that are pending or in the hands of a process, exactly if every call
of `enqueue_disk_req` so far has found a free entry (`no_request_lost_iff`).
-/

namespace Xv6

namespace Disk

open Transition
open Function (Injective update update_apply update_of_ne update_self)
open SlotTable

variable {ops rest : List RaidOp} {r : DiskReq}

variable {ι : Type*} [DecidableEq ι]
variable {σ : Sys ι} {p : ι}

/-- The system, with the requests passed to `enqueue_disk_req` and those performed. -/
structure Logged (ι : Type*) where
  sys : Sys ι
  enqueued : List DiskReq
  executed : List DiskReq

omit [DecidableEq ι] in
/-- The request that a step passes to `enqueue_disk_req`. -/
def Sys.passed (σ : Sys ι) : Act ι → List DiskReq
  | .next p =>
    match σ.phase p with
    | .running (.enqueue blockno write data priority :: _) => [⟨blockno, write, priority, data⟩]
    | _ => []
  | _ => []

omit [DecidableEq ι] in
/-- The request that a step performs. -/
def Sys.performed (σ : Sys ι) : Act ι → List DiskReq
  | .perform p =>
    match σ.phase p with
    | .performing r _ => [r]
    | _ => []
  | _ => []

namespace Logged

def step (l : Logged ι) (a : Act ι) : Option (Logged ι) :=
  (l.sys.step a).map fun σ =>
    ⟨σ, l.enqueued ++ l.sys.passed a, l.executed ++ l.sys.performed a⟩

omit [DecidableEq ι] in
def init (d : DiskState) (stats : ι → ProcStats) (t₀ : Tag ι) : Logged ι :=
  ⟨.init d stats t₀, [], []⟩

end Logged

/-- The request that a process has picked and not yet performed. -/
def Phase.held : Phase ι → Multiset DiskReq
  | .performing r _ => {r}
  | _ => 0

section

variable [Fintype ι]

/-- The requests in the hands of the processes. -/
def Sys.held (σ : Sys ι) : Multiset DiskReq := ∑ p, (σ.phase p).held

/-- The requests that are accounted for. -/
def Logged.account (l : Logged ι) : Multiset DiskReq :=
  l.executed + l.sys.held + l.sys.d.reqQueue.contents

/-- A process changes its phase. -/
theorem held_update (phase : ι → Phase ι) (p : ι) (ph : Phase ι) :
    ∑ q, (update phase p ph q).held + (phase p).held = ∑ q, (phase q).held + ph.held := by
  have hsplit : ∀ f : ι → Phase ι,
      ∑ q, (f q).held = (f p).held + ∑ q ∈ Finset.univ.erase p, (f q).held :=
    fun f => (Finset.add_sum_erase _ _ (Finset.mem_univ p)).symm
  have hrest : ∑ q ∈ Finset.univ.erase p, (update phase p ph q).held
      = ∑ q ∈ Finset.univ.erase p, (phase q).held :=
    Finset.sum_congr rfl fun q hq => by rw [update_of_ne (Finset.ne_of_mem_erase hq)]
  rw [hsplit, hsplit phase, hrest, update_self]
  abel

/-- A process changes its phase with nothing in its hands before or after. -/
theorem held_update_of_none {phase : ι → Phase ι} {ph : Phase ι} (h : (phase p).held = 0)
    (h' : ph.held = 0) : ∑ q, (update phase p ph q).held = ∑ q, (phase q).held := by
  have hu := held_update phase p ph
  rwa [h, h', add_zero, add_zero] at hu

/-- What a step does to the logs: it passes `δ` on, and accounts for it or loses it. -/
inductive Passes (l l' : Logged ι) (a : Act ι) : Prop where
  | kept (δ : Multiset DiskReq) : RoomToEnqueue l.sys a →
      (l'.enqueued : Multiset DiskReq) = l.enqueued + δ → l'.account = l.account + δ →
      Passes l l' a
  | lost (r : DiskReq) : ¬ RoomToEnqueue l.sys a →
      (l'.enqueued : Multiset DiskReq) = l.enqueued + {r} → l'.account = l.account → Passes l l' a

section

variable {l l' : Logged ι} {a : Act ι}

omit [DecidableEq ι] in
/-- A step that neither enqueues, picks nor performs. -/
theorem Passes.idle (hroom : RoomToEnqueue l.sys a) (hq : σ.d.reqQueue = l.sys.d.reqQueue)
    (hheld : σ.held = l.sys.held) (hp : l.sys.passed a = []) (hx : l.sys.performed a = []) :
    Passes l ⟨σ, l.enqueued ++ l.sys.passed a, l.executed ++ l.sys.performed a⟩ a := by
  refine .kept 0 hroom ?_ ?_
  · simp [hp]
  · simp [Logged.account, hx, hq, hheld]

/-- `enqueue_disk_req`. -/
theorem Passes.enqueue
    (hp : l.sys.phase p = .running (.enqueue r.blockno r.write r.data r.priority :: rest)) :
    Passes l ⟨l.sys.execOp p (.enqueue r.blockno r.write r.data r.priority) rest,
      l.enqueued ++ l.sys.passed (.next p), l.executed ++ l.sys.performed (.next p)⟩ (.next p) := by
  have hpassed : l.sys.passed (.next p) = [r] := by simp [Sys.passed, hp]
  have hheld : (l.sys.execOp p (.enqueue r.blockno r.write r.data r.priority) rest).held
      = l.sys.held := held_update_of_none (by rw [hp]; rfl) rfl
  have henq : ((l.enqueued ++ l.sys.passed (.next p) : List DiskReq) : Multiset DiskReq)
      = l.enqueued + {r} := by
    rw [hpassed]
    rfl
  cases hf : l.sys.d.reqQueue.firstFree with
  | none =>
    have hq : (l.sys.execOp p (.enqueue r.blockno r.write r.data r.priority) rest).d.reqQueue
        = l.sys.d.reqQueue := by
      simp [Sys.execOp, RaidOp.exec, enqueueDiskReq, insertFirst, hf]
    refine .lost r (fun hroom => hroom p _ _ _ _ _ rfl hp hf) henq ?_
    simp only [Logged.account, hheld, hq, Sys.performed, List.append_nil]
  | some i =>
    obtain ⟨l₁, l₂, hc, hi, -⟩ := contents_insertFirst hf r
    have hq : ((l.sys.execOp p (.enqueue r.blockno r.write r.data r.priority)
        rest).d.reqQueue.contents : Multiset DiskReq) = l.sys.d.reqQueue.contents + {r} := by
      change ((l.sys.d.reqQueue.insertFirst r).contents : Multiset DiskReq) = _
      rw [hi, hc, ← Multiset.coe_add, ← Multiset.coe_add, ← Multiset.cons_coe,
        ← Multiset.singleton_add]
      abel
    refine .kept {r} (fun q _ _ _ _ _ _ _ hnone => ?_) henq ?_
    · rw [hf] at hnone
      cases hnone
    · simp only [Logged.account, hheld, hq, Sys.performed, List.append_nil]
      abel

/-- A selection. -/
theorem Passes.pick {i : Fin ndiskreqs} (hp : l.sys.phase p = .running [])
    (hi : l.sys.d.reqQueue i = some r) :
    Passes l ⟨l.sys.take p i r, l.enqueued ++ l.sys.passed (.pick p),
      l.executed ++ l.sys.performed (.pick p)⟩ (.pick p) := by
  have hheld : (l.sys.take p i r).held = l.sys.held + {r} := by
    have hu := held_update l.sys.phase p (.performing r (l.sys.owner i))
    rwa [hp, show (Phase.running [] : Phase ι).held = 0 from rfl, add_zero] at hu
  have hq : (l.sys.d.reqQueue.contents : Multiset DiskReq)
      = {r} + (l.sys.take p i r).d.reqQueue.contents := by
    rw [Multiset.singleton_add, Multiset.cons_coe]
    exact (Multiset.coe_eq_coe.mpr (contents_perm_erase hi)).symm
  refine .kept 0 (fun _ _ _ _ _ _ ha => by cases ha) (by simp [Sys.passed]) ?_
  simp only [Logged.account, hheld, hq, Sys.performed, List.append_nil]
  abel

/-- A transfer. -/
theorem Passes.perform {t : Tag ι} (hp : l.sys.phase p = .performing r t) :
    Passes l ⟨l.sys.finish p r t, l.enqueued ++ l.sys.passed (.perform p),
      l.executed ++ l.sys.performed (.perform p)⟩ (.perform p) := by
  have hheld : l.sys.held = (l.sys.finish p r t).held + {r} := by
    have hu := held_update l.sys.phase p (.running [])
    rw [hp, show (Phase.running [] : Phase ι).held = 0 from rfl, add_zero] at hu
    exact hu.symm
  have hexec : ((l.executed ++ l.sys.performed (.perform p) : List DiskReq) : Multiset DiskReq)
      = l.executed + {r} := by
    simp only [Sys.performed, hp]
    rfl
  refine .kept 0 (fun _ _ _ _ _ _ ha => by cases ha) (by simp [Sys.passed]) ?_
  simp only [Logged.account, hheld, hexec]
  change (l.executed : Multiset DiskReq) + {r} + _ + l.sys.d.reqQueue.contents = _
  abel

theorem step_passes (hs : l.step a = some l') : Passes l l' a := by
  obtain ⟨σ, hσ, rfl⟩ := Option.map_eq_some_iff.mp hs
  have hroom : (∀ p, a ≠ .next p) → RoomToEnqueue l.sys a := fun hne p _ _ _ _ _ ha =>
    absurd ha (hne p)
  cases a with
  | write p slot page priority =>
    simp only [Sys.step, Option.ite_none_right_eq_some, Option.some.injEq] at hσ
    obtain ⟨⟨hp, -⟩, rfl⟩ := hσ
    exact .idle (hroom (by simp)) rfl (held_update_of_none (by rw [hp]; rfl) rfl) rfl rfl
  | read p slot page priority =>
    simp only [Sys.step, Option.ite_none_right_eq_some, Option.some.injEq] at hσ
    obtain ⟨⟨hp, -⟩, rfl⟩ := hσ
    exact .idle (hroom (by simp)) rfl (held_update_of_none (by rw [hp]; rfl) rfl) rfl rfl
  | next p =>
    simp only [Sys.step] at hσ
    split at hσ
    · rename_i op rest hp
      cases hσ
      have hnone : (∀ blockno write data priority, op ≠ .enqueue blockno write data priority) →
          RoomToEnqueue l.sys (.next p) ∧ l.sys.passed (.next p) = [] := by
        intro hop
        refine ⟨fun q _ _ _ _ _ hq hpq => ?_, ?_⟩
        · obtain rfl := Act.next.inj hq
          rw [hp] at hpq
          cases hpq
          exact absurd rfl (hop _ _ _ _)
        · simp only [Sys.passed, hp]
          split
          · rename_i heq
            cases heq
            exact absurd rfl (hop _ _ _ _)
          · rfl
      cases op with
      | clearParity =>
        obtain ⟨hroom, hpassed⟩ := hnone (by simp)
        exact .idle hroom rfl (held_update_of_none (by rw [hp]; rfl) rfl) hpassed rfl
      | xorParity src =>
        obtain ⟨hroom, hpassed⟩ := hnone (by simp)
        exact .idle hroom rfl (held_update_of_none (by rw [hp]; rfl) rfl) hpassed rfl
      | enqueue blockno write data priority =>
        exact Passes.enqueue (r := ⟨blockno, write, priority, data⟩) hp
    · cases hσ
  | pick p =>
    simp only [Sys.step] at hσ
    split at hσ
    · rename_i hp _
      obtain ⟨r, hr, rfl⟩ := Option.map_eq_some_iff.mp hσ
      exact .pick hp hr
    · cases hσ
  | perform p =>
    simp only [Sys.step] at hσ
    split at hσ
    · rename_i r t hp
      cases hσ
      exact .perform hp
    · cases hσ
  | ret p =>
    simp only [Sys.step] at hσ
    split at hσ
    · rename_i hp _
      cases hσ
      exact .idle (hroom (by simp)) rfl (held_update_of_none (by rw [hp]; rfl) rfl) rfl rfl
    · cases hσ
  | setRaidMode mode =>
    cases hσ
    exact .idle (hroom (by simp)) rfl rfl rfl rfl
  | setdisksched policy =>
    cases hσ
    exact .idle (hroom (by simp)) (setdisksched_reqQueue policy l.sys.d) rfl rfl rfl

/-- No more is accounted for than was passed on. -/
theorem account_le_step (h : l.account ≤ l.enqueued) (hs : l.step a = some l') :
    l'.account ≤ l'.enqueued := by
  cases step_passes hs with
  | kept δ _ he hacc =>
    rw [hacc, he]
    exact add_le_add_left h δ
  | lost r _ he hacc =>
    rw [hacc, he]
    exact h.trans (Multiset.le_add_right _ _)

/-- **One step** keeps the logs in balance exactly if it finds room for its request. -/
theorem balanced_step_iff (h : l.account ≤ l.enqueued) (hs : l.step a = some l') :
    l'.enqueued = l'.account ↔ l.enqueued = l.account ∧ RoomToEnqueue l.sys a := by
  cases step_passes hs with
  | kept δ hroom he hacc =>
    rw [hacc, he, and_iff_left hroom]
    exact add_left_inj δ
  | lost r hroom he hacc =>
    refine iff_of_false (fun hbal => ?_) fun hbal => hroom hbal.2
    -- what is lost is one too many
    have hle := Multiset.card_le_card h
    have hcard := congrArg Multiset.card hbal
    rw [hacc, he, Multiset.card_add, Multiset.card_singleton] at hcard
    omega

end

end

/-! ### What is pending belongs to calls in progress -/

/-- The requests in the queue are of the current calls, which have at most eight requests each. -/
structure Current (σ : Sys ι) : Prop where
  queued : ∀ i r, σ.d.reqQueue i = some r → (σ.owner i).call = σ.calls (σ.owner i).proc ∧
    (σ.owner i).index < σ.issued (σ.owner i).proc ∧ σ.phase (σ.owner i).proc ≠ .idle
  length : ∀ p, σ.phase p ≠ .idle → (reqs (σ.current p)).length ≤ 8

/-- A process goes on with its call, and nothing is added to the queue. -/
theorem Current.setPhase {τ : Sys ι} (h : Current σ) {ph : Phase ι} (hp : σ.phase p ≠ .idle)
    (hph : ph ≠ .idle) (hphase : τ.phase = update σ.phase p ph)
    (hq : ∀ i r, τ.d.reqQueue i = some r → σ.d.reqQueue i = some r) (howner : τ.owner = σ.owner)
    (hcalls : τ.calls = σ.calls) (hissued : τ.issued = σ.issued) (hcur : τ.current = σ.current) :
    Current τ := by
  have hbusy : ∀ q, τ.phase q ≠ .idle ↔ σ.phase q ≠ .idle := fun q => by
    rw [hphase]
    by_cases hqp : q = p
    · subst hqp
      rw [update_self]
      exact iff_of_true hph hp
    · rw [update_of_ne hqp]
  refine ⟨fun i r hi => ?_, fun q hq' => ?_⟩
  · rw [howner, hcalls, hissued, hbusy]
    exact h.queued i r (hq i r hi)
  · rw [hcur]
    exact h.length q ((hbusy q).mp hq')

theorem Current.enter (h : Current σ) (hp : σ.phase p = .idle) (hops : (reqs ops).length ≤ 8) :
    Current (σ.enter p ops) := by
  refine ⟨fun i r hi => ?_, fun q hq => ?_⟩
  · obtain ⟨hcall, hindex, hbusy⟩ := h.queued i r hi
    have hne : (σ.owner i).proc ≠ p := fun he => hbusy (he ▸ hp)
    simp only [Sys.enter, update_of_ne hne]
    exact ⟨hcall, hindex, hbusy⟩
  · simp only [Sys.enter] at hq ⊢
    by_cases hqp : q = p
    · rwa [hqp, update_self]
    · rw [update_of_ne hqp] at hq ⊢
      exact h.length q hq

theorem Current.enqueue (h : Current σ)
    (hp : σ.phase p = .running (.enqueue r.blockno r.write r.data r.priority :: rest)) :
    Current (σ.execOp p (.enqueue r.blockno r.write r.data r.priority) rest) := by
  obtain ⟨hqueued, hlength⟩ := h
  cases hf : σ.d.reqQueue.firstFree with
  | none =>
    simp only [Sys.execOp, Sys.issue, hf, RaidOp.exec, enqueueDiskReq, insertFirst]
    constructor <;> grind [update_apply]
  | some i =>
    simp only [Sys.execOp, Sys.issue, hf, RaidOp.exec, enqueueDiskReq, insertFirst]
    constructor <;> grind [update_apply, Sys.nextTag]

theorem Current.step {σ' : Sys ι} {a : Act ι} (h : Current σ) (hinv : Inv σ)
    (hs : σ.step a = some σ') : Current σ' := by
  cases a with
  | write p slot page priority =>
    simp only [Sys.step, Option.ite_none_right_eq_some, Option.some.injEq] at hs
    obtain ⟨⟨hp, hslot, -⟩, rfl⟩ := hs
    refine Current.enter ?_ hp (pageBatch_writePageOps _ _ _ hslot).length
    exact ⟨h.queued, h.length⟩
  | read p slot page priority =>
    simp only [Sys.step, Option.ite_none_right_eq_some, Option.some.injEq] at hs
    obtain ⟨⟨hp, hslot, -⟩, rfl⟩ := hs
    exact h.enter hp (pageBatch_readPageOps _ _ _ hslot).length
  | next p =>
    simp only [Sys.step] at hs
    split at hs
    · rename_i op rest hp
      cases hs
      cases op with
      | clearParity => exact h.setPhase (by simp [hp]) (by simp) rfl (fun _ _ => id) rfl rfl rfl rfl
      | xorParity src =>
        exact h.setPhase (by simp [hp]) (by simp) rfl (fun _ _ => id) rfl rfl rfl rfl
      | enqueue blockno write data priority =>
        exact h.enqueue (r := ⟨blockno, write, priority, data⟩) hp
    · cases hs
  | pick p =>
    simp only [Sys.step] at hs
    split at hs
    · rename_i hp _
      obtain ⟨r, -, rfl⟩ := Option.map_eq_some_iff.mp hs
      refine h.setPhase (by simp [hp]) (by simp) rfl (fun j b hj => ?_) rfl rfl rfl rfl
      simp only [Sys.take, extract, erase, update_apply] at hj
      split at hj
      · cases hj
      · exact hj
    · cases hs
  | perform p =>
    simp only [Sys.step] at hs
    split at hs
    · rename_i hp
      cases hs
      exact h.setPhase (by simp [hp]) (by simp) rfl (fun _ _ => id) rfl rfl rfl rfl
    · cases hs
  | ret p =>
    simp only [Sys.step] at hs
    split at hs
    · rename_i hpick
      cases hs
      -- the queue is empty
      have hempty := pickRequest_eq_none hinv.head (fun r hr => by
        obtain ⟨i, hi⟩ := mem_contents.mp hr
        exact hinv.sane i r hi) hpick
      refine ⟨fun i r hi => ?_, fun q hq => h.length q fun hidle => hq ?_⟩
      · have hi' : σ.d.reqQueue i = some r := hi
        rw [contents_eq_nil.mp hempty i] at hi'
        cases hi'
      · simp only [update_apply]
        split
        · rfl
        · exact hidle
    · cases hs
  | setRaidMode mode =>
    cases hs
    exact ⟨h.queued, h.length⟩
  | setdisksched policy =>
    cases hs
    exact ⟨fun i r hi => h.queued i r (setdisksched_reqQueue policy σ.d ▸ hi), h.length⟩

omit [DecidableEq ι] in
/-- While nobody is in a call the queue is empty. -/
theorem Current.contents_of_idle (h : Current σ) (hidle : ∀ p, σ.phase p = .idle) :
    σ.d.reqQueue.contents = [] := by
  refine contents_eq_nil.mpr fun i => ?_
  cases hi : σ.d.reqQueue i with
  | none => rfl
  | some r => exact absurd (hidle _) (h.queued i r hi).2.2

/-- The processes inside a call. -/
def Sys.busy [Fintype ι] (σ : Sys ι) : Finset ι := Finset.univ.filter fun p => σ.phase p ≠ .idle

/-- **Sixteen processes** inside a call do not fill the queue before the last of their requests. -/
theorem room_of_busy_le [Fintype ι] (hinv : Inv σ) (h : Current σ) (hbusy : σ.busy.card ≤ 16)
    (a : Act ι) : RoomToEnqueue σ a := by
  rintro p blockno write data priority rest - hp hfull
  have hall := firstFree_eq_none hfull
  -- every place has a tag of a current call, and no two places have the same one
  have hsub : Finset.univ.image σ.owner ⊆ σ.busy.biUnion fun q =>
      (Finset.range (σ.issued q)).image fun k => ⟨q, σ.calls q, k⟩ := by
    intro t ht
    obtain ⟨i, -, rfl⟩ := Finset.mem_image.mp ht
    obtain ⟨r, hr⟩ := Option.isSome_iff_exists.mp (hall i)
    obtain ⟨hcall, hindex, hidle⟩ := h.queued i r hr
    refine Finset.mem_biUnion.mpr ⟨(σ.owner i).proc, by simpa [Sys.busy] using hidle,
      Finset.mem_image.mpr ⟨(σ.owner i).index, Finset.mem_range.mpr hindex, ?_⟩⟩
    rw [← hcall]
  have hinj : Injective σ.owner := fun i j hij => by
    obtain ⟨r, hr⟩ := Option.isSome_iff_exists.mp (hall i)
    obtain ⟨r', hr'⟩ := Option.isSome_iff_exists.mp (hall j)
    have hpl := (hinv.owner i r hr).1
    rw [hij, (hinv.owner j r' hr').1] at hpl
    exact (Place.queued.inj hpl).symm
  -- the process that enqueues has issued at most seven requests, the others at most eight
  have hissued : ∀ q ∈ σ.busy, σ.issued q ≤ 8 ∧ (q = p → σ.issued q ≤ 7) := by
    intro q hq
    have hq' : σ.phase q ≠ .idle := by simpa [Sys.busy] using hq
    have hlen := congrArg List.length (hinv.requests q hq')
    have hle := h.length q hq'
    simp only [List.length_append, List.length_map, List.length_range] at hlen
    refine ⟨by omega, fun hqp => ?_⟩
    have hrest : 0 < (reqs (σ.phase q).rest).length := by
      rw [hqp, hp]
      simp [Phase.rest, reqs]
    omega
  have hpb : p ∈ σ.busy := by simp [Sys.busy, hp]
  have hcard : ndiskreqs ≤ ∑ q ∈ σ.busy, σ.issued q := by
    calc ndiskreqs = (Finset.univ.image σ.owner).card := by
          rw [Finset.card_image_of_injective _ hinj, Finset.card_univ, Fintype.card_fin]
      _ ≤ _ := Finset.card_le_card hsub
      _ ≤ _ := Finset.card_biUnion_le
      _ ≤ _ := Finset.sum_le_sum fun q _ => Finset.card_image_le.trans_eq (Finset.card_range _)
  have hothers : ∑ q ∈ σ.busy.erase p, σ.issued q ≤ (σ.busy.erase p).card * 8 :=
    Finset.sum_le_card_nsmul _ _ _ fun q hq => (hissued q (Finset.mem_of_mem_erase hq)).1
  have hself := (hissued p hpb).2 rfl
  rw [← Finset.add_sum_erase _ _ hpb] at hcard
  rw [Finset.card_erase_of_mem hpb] at hothers
  simp only [ndiskreqs] at hcard
  omega

theorem Logged.step_eq_some {l l' : Logged ι} {a : Act ι} (hs : l.step a = some l') :
    l.sys.step a = some l'.sys := by
  obtain ⟨σ, hσ, rfl⟩ := Option.map_eq_some_iff.mp hs
  exact hσ

/-- The bookkeeping of the system, and that the queue belongs to the calls in progress. -/
theorem step_current {l l' : Logged ι} {a : Act ι} (h : Inv l.sys ∧ Current l.sys)
    (hs : l.step a = some l') : Inv l'.sys ∧ Current l'.sys :=
  ⟨h.1.step (Logged.step_eq_some hs), h.2.step h.1 (Logged.step_eq_some hs)⟩

omit [DecidableEq ι] in
theorem current_init {d : DiskState} (hd : Quiet d) (stats : ι → ProcStats) (t₀ : Tag ι) :
    Current (Sys.init d stats t₀) := by
  refine ⟨fun i r hi => ?_, fun p hp => absurd rfl hp⟩
  have hi' : d.reqQueue i = some r := hi
  rw [contents_eq_nil.mp hd.empty i] at hi'
  cases hi'

/-- **No request is lost** in a run exactly if every call of `enqueue_disk_req` finds a free entry:
the requests passed to it are those performed, those picked and those pending. When all calls have
returned, the requests performed are then those enqueued, and otherwise they are not. Every call
finds a free entry if there are never more than sixteen processes inside a call. -/
theorem no_request_lost_iff [Fintype ι] {d : DiskState} (hd : Quiet d) {stats : ι → ProcStats}
    {t₀ : Tag ι} {acts : List (Act ι)} {l : Logged ι}
    (hrun : Transition.run Logged.step acts (.init d stats t₀) = some l) :
    ((l.enqueued : Multiset DiskReq) = l.executed + l.sys.held + l.sys.d.reqQueue.contents ↔
      Meets Logged.step (fun l a => RoomToEnqueue l.sys a) acts (.init d stats t₀)) ∧
    ((∀ p, l.sys.phase p = .idle) → ((l.enqueued : Multiset DiskReq) = l.executed ↔
      Meets Logged.step (fun l a => RoomToEnqueue l.sys a) acts (.init d stats t₀))) ∧
    (Meets Logged.step (fun l _ => l.sys.busy.card ≤ 16) acts (.init d stats t₀) →
      Meets Logged.step (fun l a => RoomToEnqueue l.sys a) acts (.init d stats t₀)) := by
  have hnone : (Logged.init d stats t₀).account = 0 := by
    simp [Logged.account, Logged.init, Sys.init, Sys.held, Phase.held, hd.empty]
  have hinit : Inv (Logged.init d stats t₀).sys ∧ Current (Logged.init d stats t₀).sys :=
    ⟨inv_init hd stats t₀, current_init hd stats t₀⟩
  have hiff : (l.enqueued : Multiset DiskReq) = l.account ↔ _ :=
    (run_iff_meets (W := fun l => l.account ≤ l.enqueued)
      (fun _ _ _ h hs => account_le_step h hs) (fun _ _ _ h hs => balanced_step_iff h hs)
      hnone.le hrun).trans (and_iff_right hnone.symm)
  refine ⟨hiff, fun hidle => ?_, fun hfew => ?_⟩
  · have hcur := (run_invariant (C := fun _ _ => True)
      (fun _ _ _ h _ hs => step_current h hs) hinit (meets_true _ _) hrun).2
    have hheld : l.sys.held = 0 := Finset.sum_eq_zero fun p _ => by rw [hidle p]; rfl
    rw [← hiff, Logged.account, hcur.contents_of_idle hidle, hheld, add_zero, Multiset.coe_nil,
      add_zero]
  · exact hfew.imp (fun _ _ _ h hs => step_current h hs)
      (fun l a h hle => room_of_busy_le h.1 h.2 hle a) hinit

/-- Two processes, of which the second performs a request of the first: when both have returned,
the eight requests that they enqueued have been performed. -/
theorem no_request_lost_helped :
    ∃ l, Transition.run Logged.step (helperActs ++ [.perform 1, .ret 0, .ret 1])
        (.init (initState 0 (fun _ _ => 0) fun _ _ => 0) (fun _ => ⟨0, 0, 0⟩) ⟨0, 0, 0⟩) = some l ∧
      l.enqueued.length = 8 ∧ (∀ p, l.sys.phase p = .idle) ∧
      (l.enqueued : Multiset DiskReq) = l.executed ∧
      Meets Logged.step (fun l a => RoomToEnqueue l.sys a)
        (helperActs ++ [.perform 1, .ret 0, .ret 1])
        (.init (initState 0 (fun _ _ => 0) fun _ _ => 0) (fun _ => ⟨0, 0, 0⟩) ⟨0, 0, 0⟩) := by
  have h : (Transition.run Logged.step (helperActs ++ [.perform 1, .ret 0, .ret 1])
      (.init (initState 0 (fun _ _ => 0) fun _ _ => 0) (fun _ => ⟨0, 0, 0⟩) ⟨0, 0, 0⟩)).map
        (fun l => (l.enqueued.length, decide (l.enqueued.Perm l.executed), l.sys.phase 0,
          l.sys.phase 1))
      = some (8, true, .idle, .idle) := by decide +kernel
  obtain ⟨l, hl, he⟩ := Option.map_eq_some_iff.mp h
  simp only [Prod.mk.injEq, decide_eq_true_eq] at he
  obtain ⟨hlen, hperm, h0, h1⟩ := he
  have hidle : ∀ p, l.sys.phase p = .idle := by
    intro p
    obtain rfl | rfl : p = 0 ∨ p = 1 := by omega
    · exact h0
    · exact h1
  have hbal : (l.enqueued : Multiset DiskReq) = l.executed := Multiset.coe_eq_coe.mpr hperm
  exact ⟨l, hl, hlen, hidle, hbal,
    ((no_request_lost_iff (quiet_initState _ _ _) hl).2.1 hidle).mp hbal⟩

/-- Seventeen processes write a page each in RAID 1; sixteen of them have enqueued their requests
when the last one enqueues its first. -/
def crowdActs : List (Act (Fin 17)) :=
  ((List.finRange 17).flatMap fun p => .write p p p 0 :: List.replicate 8 (.next p)).take 146

/-- One request is neither performed nor in the queue nor in the hands of a process. -/
theorem no_request_lost_counterexample :
    ∃ l, Transition.run Logged.step crowdActs
        (.init (initState 1 (fun _ _ => 0) fun _ _ => 0) (fun _ => ⟨0, 0, 0⟩) ⟨0, 0, 0⟩) = some l ∧
      l.enqueued.length = 129 ∧ l.executed = [] ∧ l.sys.held = 0 ∧
      l.sys.d.reqQueue.contents.length = 128 := by
  have h : (Transition.run Logged.step crowdActs
      (.init (initState 1 (fun _ _ => 0) fun _ _ => 0) (fun _ => ⟨0, 0, 0⟩) ⟨0, 0, 0⟩)).map
        (fun l => (l.enqueued.length, l.executed, (List.finRange 17).all fun p =>
          (l.sys.phase p).held = 0, l.sys.d.reqQueue.contents.length))
      = some (129, [], true, 128) := by decide +kernel
  obtain ⟨l, hl, he⟩ := Option.map_eq_some_iff.mp h
  simp only [Prod.mk.injEq] at he
  refine ⟨l, hl, he.1, he.2.1, Finset.sum_eq_zero fun p _ => ?_, he.2.2.2⟩
  simpa using List.all_eq_true.mp he.2.2.1 p (List.mem_finRange p)

end Disk

end Xv6
