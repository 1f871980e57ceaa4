import Mathlib.Data.List.FinRange
import Xv6.Fs.Cache
import Xv6.Lib.Count
import Xv6.Lib.Transition

/-!
# What the buffer cache keeps true

`Inv` is kept by every action of every use, whatever the order (`inv_step`, `inv_run`):

* the pointers form one ring that visits every buffer once, most recently used first;
* the reference count of a buffer is the number of its uses and pins;
* the lock of a buffer is in the hands of the one use that fills or uses it;
* a use's buffer keeps the block the use asked for until the use has dropped it;
* a block of a real device is in at most one buffer.

The last point needs that the test and the change of `bget` are one action: a block that is not
found is not brought in by someone else before the recycled buffer gets its name.
-/

namespace Xv6

namespace Fs

namespace Cache

open Disk (Block)
open Transition
open Function (update update_self update_of_ne)

variable {b dev : ℕ} {pins : Fin nbuf → ℕ} {y : Pc}

/-- Whether a use has a reference on buffer `i`. -/
def Pc.on (i : Fin nbuf) : Pc → Bool
  | .idle => false
  | .held _ j _ _ => decide (j = i)

/-- The buffer whose lock a use holds. -/
def Pc.locks : Pc → Option (Fin nbuf)
  | .held .fill i _ _ => some i
  | .held .use i _ _ => some i
  | _ => none

section Invariant

variable {ι : Type} [Fintype ι]

/-- The number of uses of buffer `i`. -/
def uses (pc : ι → Pc) (i : Fin nbuf) : ℕ := Count.count (Pc.on i) pc

/-- **What every action keeps**; `l` lists the buffers in the order of the ring. -/
structure Inv (s : State ι) (l : List (Fin nbuf)) : Prop where
  ring : Links.IsRing s.links none (l.map some)
  perm : l.Perm (List.finRange nbuf)
  /-- The list is ordered by the time of the last release, latest first. -/
  lru : l.Pairwise fun i j => s.last j < s.last i
  past : ∀ i, s.last i < s.clock
  refs : ∀ i, (s.buf i).refcnt = uses s.pc i + s.pins i
  lock : ∀ i u, (s.buf i).lock = some u ↔ (s.pc u).locks = some i
  tag : ∀ u ph i dev b, s.pc u = .held ph i dev b → (s.buf i).dev = dev ∧ (s.buf i).blockno = b
  uniq : ∀ i j, (s.buf i).dev ≠ 0 → (s.buf i).dev = (s.buf j).dev →
    (s.buf i).blockno = (s.buf j).blockno → i = j
  valid : ∀ u i dev b, s.pc u = .held .use i dev b → (s.buf i).valid = true

variable {s s' : State ι} {l : List (Fin nbuf)} {u : ι} {i j : Fin nbuf}

/-! ### The two searches of `bget` -/

theorem find?_map_some_join (test : Node → Bool) (l : List (Fin nbuf)) :
    ((l.map some).find? test).join = l.find? fun i => test (some i) := by
  rw [List.find?_map]
  cases h : l.find? (test ∘ some) with
  | none => exact h.symm
  | some i => exact h.symm

theorem Inv.length_lt (h : Inv s l) : (l.map some).length < nbuf + 1 := by
  rw [List.length_map, h.perm.length_eq, List.length_finRange]
  exact Nat.lt_succ_self nbuf

theorem Inv.mem (h : Inv s l) (i : Fin nbuf) : i ∈ l :=
  h.perm.mem_iff.mpr (List.mem_finRange i)

theorem Inv.findCached_eq (h : Inv s l) (dev b : ℕ) :
    s.findCached dev b = l.find? fun i => (s.buf i).dev == dev && (s.buf i).blockno == b := by
  rw [State.findCached, h.ring.scan_next h.length_lt, find?_map_some_join]
  rfl

theorem Inv.findUnused_eq (h : Inv s l) :
    s.findUnused = l.reverse.find? fun i => (s.buf i).refcnt == 0 := by
  rw [State.findUnused, h.ring.scan_prev h.length_lt, ← List.map_reverse, find?_map_some_join]
  rfl

/-- What the first loop finds. -/
theorem Inv.findCached_some (h : Inv s l) (hi : s.findCached dev b = some i) :
    (s.buf i).dev = dev ∧ (s.buf i).blockno = b := by
  rw [h.findCached_eq] at hi
  simpa using List.find?_some hi

theorem Inv.findCached_none (h : Inv s l) (hc : s.findCached dev b = none) (i : Fin nbuf) :
    ¬ ((s.buf i).dev = dev ∧ (s.buf i).blockno = b) := by
  rw [h.findCached_eq, List.find?_eq_none] at hc
  simpa using hc i (h.mem i)

/-- What the second loop finds: an unused buffer, and among those the one that was released
first. -/
theorem Inv.findUnused_some (h : Inv s l) (hi : s.findUnused = some i) :
    (s.buf i).refcnt = 0 ∧ ∀ j, (s.buf j).refcnt = 0 → s.last i ≤ s.last j := by
  rw [h.findUnused_eq] at hi
  refine ⟨by simpa using List.find?_some hi, fun j hj => ?_⟩
  obtain ⟨l₁, l₂, hl, hbefore⟩ := (List.find?_eq_some_iff_append.mp hi).2
  have hpair : (l₁ ++ i :: l₂).Pairwise fun i j => s.last i < s.last j := by
    rw [← hl]
    exact List.pairwise_reverse.mpr h.lru
  have hmem : j ∈ l₁ ++ i :: l₂ := hl ▸ List.mem_reverse.mpr (h.mem j)
  rcases List.mem_append.mp hmem with hj₁ | hj₂
  · exact absurd hj (by simpa using hbefore j hj₁)
  · rcases List.mem_cons.mp hj₂ with rfl | hj₂
    · exact le_rfl
    · exact ((List.pairwise_cons.mp (List.pairwise_append.mp hpair).2.1).1 j hj₂).le

theorem Inv.findUnused_none (h : Inv s l) (hu : s.findUnused = none) (i : Fin nbuf) :
    (s.buf i).refcnt ≠ 0 := by
  rw [h.findUnused_eq, List.find?_eq_none] at hu
  simpa using hu i (List.mem_reverse.mpr (h.mem i))

/-- A buffer without references is used by nobody. -/
theorem Inv.of_refcnt_zero (h : Inv s l) (hi : (s.buf i).refcnt = 0) :
    s.pins i = 0 ∧ ∀ w, (s.pc w).on i = false := by
  have hrefs := h.refs i
  have hzero : uses s.pc i = 0 := by omega
  exact ⟨by omega, Count.count_eq_zero.mp hzero⟩

/-! ### One step -/

@[simp] theorem Pc.on_held_self (ph : Phase) (i : Fin nbuf) (dev b : ℕ) :
    (Pc.held ph i dev b).on i = true := decide_eq_true rfl

theorem Pc.on_held_of_ne {ph : Phase} (h : j ≠ i) :
    (Pc.held ph i dev b).on j = false := decide_eq_false (Ne.symm h)

variable [DecidableEq ι]

theorem uses_update (pc : ι → Pc) (u : ι) (x : Pc) (j : Fin nbuf) :
    uses (update pc u x) j + ((pc u).on j).toNat = uses pc j + (x.on j).toNat :=
  Count.count_update (Pc.on j) pc u x

/-- Changing what use `u` does with its buffer leaves the counts alone. -/
theorem uses_update_of_held {ph ph' : Phase} {dev' b' : ℕ} (hpc : s.pc u = .held ph i dev b)
    (j : Fin nbuf) : uses (update s.pc u (.held ph' i dev' b')) j = uses s.pc j := by
  have hcount := uses_update s.pc u (.held ph' i dev' b') j
  have hon : (Pc.held ph i dev b).on j = (Pc.held ph' i dev' b').on j := rfl
  rw [hpc, hon] at hcount
  omega

omit [Fintype ι] in
/-- The locks when use `u` neither gets nor gives up one. -/
theorem locks_update {x : Pc} (hx : x.locks = (s.pc u).locks) (w : ι) :
    (update s.pc u x w).locks = (s.pc w).locks := by
  by_cases hw : w = u
  · subst hw
    rw [update_self, hx]
  · rw [update_of_ne hw]

/-- **Actions that leave the names of the buffers alone.** Use `u` goes on at `y`, buffer `i`
becomes `x`. -/
theorem Inv.touch (h : Inv s l) {x : Buf ι} (hdev : x.dev = (s.buf i).dev)
    (hblk : x.blockno = (s.buf i).blockno) (hval : (s.buf i).valid = true → x.valid = true)
    (hrefs : ∀ j, (update s.buf i x j).refcnt = uses (update s.pc u y) j + pins j)
    (hlock : ∀ j w, (update s.buf i x j).lock = some w ↔
      (update s.pc u y w).locks = some j)
    (hy : ∀ ph k dev b, y = .held ph k dev b → (s.buf k).dev = dev ∧ (s.buf k).blockno = b)
    (hyval : ∀ k dev b, y = .held .use k dev b → (update s.buf i x k).valid = true) :
    Inv { (s.setBuf i x).goto u y with pins := pins } l := by
  have hname : ∀ j, (update s.buf i x j).dev = (s.buf j).dev ∧
      (update s.buf i x j).blockno = (s.buf j).blockno := by
    intro j
    by_cases hj : j = i
    · subst hj
      rw [update_self]
      exact ⟨hdev, hblk⟩
    · rw [update_of_ne hj]
      exact ⟨rfl, rfl⟩
  refine { h with refs := hrefs, lock := hlock, tag := ?_, uniq := ?_, valid := ?_ }
  · intro w ph k dev b hw
    show (update s.buf i x k).dev = dev ∧ (update s.buf i x k).blockno = b
    rw [(hname k).1, (hname k).2]
    by_cases hwu : w = u
    · subst hwu
      exact hy ph k dev b ((update_self ..).symm.trans hw)
    · exact h.tag w ph k dev b ((update_of_ne hwu ..).symm.trans hw)
  · intro j k
    show (update s.buf i x j).dev ≠ 0 → (update s.buf i x j).dev =
      (update s.buf i x k).dev → (update s.buf i x j).blockno =
      (update s.buf i x k).blockno → j = k
    rw [(hname j).1, (hname k).1, (hname j).2, (hname k).2]
    exact h.uniq j k
  · intro w k dev b hw
    by_cases hwu : w = u
    · subst hwu
      exact hyval k dev b ((update_self ..).symm.trans hw)
    · have hk := h.valid w k dev b ((update_of_ne hwu ..).symm.trans hw)
      show (update s.buf i x k).valid = true
      by_cases hki : k = i
      · subst hki
        rw [update_self]
        exact hval hk
      · rw [update_of_ne hki]
        exact hk

/-- The counts, when those of one buffer change. -/
theorem Inv.refs_update (h : Inv s l) {x : Buf ι}
    (hi : x.refcnt = uses (update s.pc u y) i + pins i)
    (hj : ∀ j ≠ i, uses (update s.pc u y) j = uses s.pc j ∧ pins j = s.pins j) (j : Fin nbuf) :
    (update s.buf i x j).refcnt = uses (update s.pc u y) j + pins j := by
  by_cases hji : j = i
  · subst hji
    rw [update_self, hi]
  · rw [update_of_ne hji, (hj j hji).1, (hj j hji).2, h.refs]

/-- The locks, when nobody gets or gives up one. -/
theorem Inv.lock_update (h : Inv s l) {x : Buf ι} (hx : x.lock = (s.buf i).lock)
    (hy : y.locks = (s.pc u).locks) (j : Fin nbuf) (w : ι) :
    (update s.buf i x j).lock = some w ↔ (update s.pc u y w).locks = some j := by
  rw [locks_update hy, ← h.lock]
  by_cases hj : j = i
  · subst hj
    rw [update_self, hx]
  · rw [update_of_ne hj]

theorem Inv.hit (h : Inv s l) (hpc : s.pc u = .idle) (hi : s.findCached dev b = some i) :
    Inv ((s.setBuf i { s.buf i with refcnt := (s.buf i).refcnt + 1 }).goto u
      (.held .wait i dev b)) l := by
  have hcount := uses_update s.pc u (.held .wait i dev b)
  rw [hpc] at hcount
  refine h.touch rfl rfl id (h.refs_update ?_ fun j hj => ⟨?_, rfl⟩)
    (h.lock_update rfl (by rw [hpc]; rfl)) ?_ ?_
  · have hi' := hcount i
    rw [Pc.on_held_self] at hi'
    have hrefs := h.refs i
    show (s.buf i).refcnt + 1 =
      (uses (update s.pc u (.held .wait i dev b)) i : ℤ) + (s.pins i : ℤ)
    simp only [Pc.on, Bool.toNat_false, Bool.toNat_true] at hi'
    omega
  · have hj' := hcount j
    rw [Pc.on_held_of_ne hj] at hj'
    exact hj'
  · intro ph k dev' b' hk
    cases hk
    exact h.findCached_some hi
  · intro k dev' b' hk
    cases hk

theorem Inv.recycle (h : Inv s l) (hpc : s.pc u = .idle) (hc : s.findCached dev b = none)
    (hi : s.findUnused = some i) :
    Inv ((s.setBuf i { s.buf i with dev := dev, blockno := b, valid := false, refcnt := 1 }).goto u
      (.held .wait i dev b)) l := by
  obtain ⟨hpins, hon⟩ := h.of_refcnt_zero (h.findUnused_some hi).1
  have hcount := uses_update s.pc u (.held .wait i dev b)
  rw [hpc] at hcount
  have hrest : ∀ {w ph k dev' b'}, w ≠ u →
      update s.pc u (.held .wait i dev b) w = .held ph k dev' b' →
      s.pc w = .held ph k dev' b' ∧ k ≠ i := by
    intro w ph k dev' b' hwu hw
    rw [update_of_ne hwu] at hw
    refine ⟨hw, fun hki => ?_⟩
    have := hon w
    rw [hw, hki, Pc.on_held_self] at this
    cases this
  refine
    { h with
      refs := h.refs_update ?_ fun j hj => ⟨?_, rfl⟩
      lock := h.lock_update rfl (by rw [hpc]; rfl), tag := ?_, uniq := ?_, valid := ?_ }
  · have hi' := hcount i
    have hzero : uses s.pc i = 0 := Count.count_eq_zero.mpr hon
    rw [Pc.on_held_self, hzero] at hi'
    simp only [Pc.on, Bool.toNat_false, Bool.toNat_true] at hi'
    show (1 : ℤ) = (uses (update s.pc u (.held .wait i dev b)) i : ℤ) + (s.pins i : ℤ)
    omega
  · have hj' := hcount j
    rw [Pc.on_held_of_ne hj] at hj'
    exact hj'
  · intro w ph k dev' b' hw
    show (update s.buf i _ k).dev = dev' ∧ (update s.buf i _ k).blockno = b'
    by_cases hwu : w = u
    · subst hwu
      have hk : Pc.held .wait i dev b = .held ph k dev' b' :=
        (update_self ..).symm.trans hw
      cases hk
      rw [update_self]
      exact ⟨rfl, rfl⟩
    · obtain ⟨hw', hki⟩ := hrest hwu hw
      rw [update_of_ne hki]
      exact h.tag w ph k dev' b' hw'
  · -- no other buffer had the block
    intro j k
    show (update s.buf i _ j).dev ≠ 0 → (update s.buf i _ j).dev =
      (update s.buf i _ k).dev → (update s.buf i _ j).blockno =
      (update s.buf i _ k).blockno → j = k
    intro h0 hd hb
    by_cases hji : j = i
    · by_cases hki : k = i
      · rw [hji, hki]
      · rw [hji, update_self, update_of_ne hki] at hd hb
        exact absurd ⟨hd.symm, hb.symm⟩ (h.findCached_none hc k)
    · by_cases hki : k = i
      · rw [hki, update_self, update_of_ne hji] at hd hb
        exact absurd ⟨hd, hb⟩ (h.findCached_none hc j)
      · rw [update_of_ne hji, update_of_ne hki] at hd hb
        rw [update_of_ne hji] at h0
        exact h.uniq j k h0 hd hb
  · intro w k dev' b' hw
    show (update s.buf i _ k).valid = true
    by_cases hwu : w = u
    · subst hwu
      have hk : Pc.held .wait i dev b = .held .use k dev' b' :=
        (update_self ..).symm.trans hw
      cases hk
    · obtain ⟨hw', hki⟩ := hrest hwu hw
      rw [update_of_ne hki]
      exact h.valid w k dev' b' hw'

omit [DecidableEq ι] in
/-- A use that holds its buffer stays on it. -/
theorem Inv.tag_of_held (h : Inv s l) {ph ph' : Phase} (hpc : s.pc u = .held ph i dev b)
    (ph'' : Phase) (k : Fin nbuf) (dev' b' : ℕ) (hy : Pc.held ph' i dev b = .held ph'' k dev' b') :
    (s.buf k).dev = dev' ∧ (s.buf k).blockno = b' := by
  cases hy
  exact h.tag u ph i dev b hpc

theorem Inv.acquiresleep (h : Inv s l) (hpc : s.pc u = .held .wait i dev b)
    (hl : (s.buf i).lock = none) : Inv ((s.setBuf i { s.buf i with lock := some u }).goto u
      (.held (if (s.buf i).valid then .use else .fill) i dev b)) l := by
  have hy : (Pc.held (if (s.buf i).valid then .use else .fill) i dev b).locks = some i := by
    split <;> rfl
  refine h.touch rfl rfl id (h.refs_update ?_ fun j _ => ⟨uses_update_of_held hpc j, rfl⟩)
    (fun j w => ?_) (h.tag_of_held hpc) ?_
  · rw [uses_update_of_held hpc]
    exact h.refs i
  · -- before, nobody held the lock of `i` and `u` held none
    by_cases hwu : w = u
    · subst hwu
      rw [update_self, hy]
      by_cases hji : j = i
      · subst hji
        rw [update_self]
        exact iff_of_true rfl rfl
      · rw [update_of_ne hji, h.lock, hpc]
        exact iff_of_false (by simp [Pc.locks]) (by simpa using Ne.symm hji)
    · rw [update_of_ne hwu, ← h.lock]
      by_cases hji : j = i
      · subst hji
        rw [update_self, hl]
        exact iff_of_false (by simpa using Ne.symm hwu) (by simp)
      · rw [update_of_ne hji]
  · intro k dev' b' hk
    split at hk
    next hv =>
      cases hk
      rw [update_self]
      exact hv
    next => cases hk

theorem Inv.fill (h : Inv s l) (hpc : s.pc u = .held .fill i dev b) :
    Inv ((s.setBuf i { s.buf i with data := s.disk (s.buf i).blockno, valid := true }).goto u
      (.held .use i dev b)) l := by
  refine h.touch rfl rfl (fun _ => rfl)
    (h.refs_update ?_ fun j _ => ⟨uses_update_of_held hpc j, rfl⟩)
    (h.lock_update rfl (by rw [hpc]; rfl)) (h.tag_of_held hpc) ?_
  · rw [uses_update_of_held hpc]
    exact h.refs i
  · intro k dev' b' hk
    cases hk
    rw [update_self]

/-- Actions that change a buffer but not where its use is. -/
theorem Inv.touch_here (h : Inv s l) {x : Buf ι} (hdev : x.dev = (s.buf i).dev)
    (hblk : x.blockno = (s.buf i).blockno) (hval : x.valid = (s.buf i).valid)
    (hlock : x.lock = (s.buf i).lock) (hrefs : x.refcnt = uses s.pc i + pins i)
    (hpins : ∀ j ≠ i, pins j = s.pins j) (u : ι) : Inv { s.setBuf i x with pins := pins } l := by
  have hself : update s.pc u (s.pc u) = s.pc := Function.update_eq_self ..
  have hx : ∀ k, (update s.buf i x k).valid = (s.buf k).valid := by
    intro k
    by_cases hk : k = i
    · subst hk
      rw [update_self, hval]
    · rw [update_of_ne hk]
  have htouch := h.touch (u := u) (y := s.pc u) hdev hblk (fun hv => hval.trans hv)
    (h.refs_update (by rw [hself]; exact hrefs) fun j hj => ⟨by rw [hself], hpins j hj⟩)
    (h.lock_update hlock rfl) (fun ph k dev b hk => h.tag u ph k dev b hk)
    (fun k dev b hk => (hx k).trans (h.valid u k dev b hk))
  rw [State.goto] at htouch
  rwa [show (s.setBuf i x).pc = s.pc from rfl, hself] at htouch

theorem Inv.store (h : Inv s l) (v : Block) (u : ι) :
    Inv (s.setBuf i { s.buf i with data := v }) l :=
  h.touch_here rfl rfl rfl rfl (h.refs i) (fun _ _ => rfl) u

theorem Inv.bpin (h : Inv s l) (u : ι) :
    Inv { s.setBuf i { s.buf i with refcnt := (s.buf i).refcnt + 1 } with
      pins := update s.pins i (s.pins i + 1) } l := by
  refine h.touch_here rfl rfl rfl rfl ?_ (fun j hj => update_of_ne hj _ _) u
  have hrefs := h.refs i
  show (s.buf i).refcnt + 1 = _
  rw [update_self]
  omega

theorem Inv.bunpin (h : Inv s l) (hp : s.pins i ≠ 0) (u : ι) :
    Inv { s.setBuf i { s.buf i with refcnt := (s.buf i).refcnt - 1 } with
      pins := update s.pins i (s.pins i - 1) } l := by
  refine h.touch_here rfl rfl rfl rfl ?_ (fun j hj => update_of_ne hj _ _) u
  have hrefs := h.refs i
  show (s.buf i).refcnt - 1 = _
  rw [update_self]
  omega

theorem Inv.releasesleep (h : Inv s l) (hpc : s.pc u = .held .use i dev b) :
    Inv ((s.setBuf i { s.buf i with lock := none }).goto u (.held .drop i dev b)) l := by
  have hheld : (s.buf i).lock = some u := (h.lock i u).mpr (by rw [hpc]; rfl)
  refine h.touch rfl rfl id (h.refs_update ?_ fun j _ => ⟨uses_update_of_held hpc j, rfl⟩)
    (fun j w => ?_) (h.tag_of_held hpc) (fun k dev' b' hk => by cases hk)
  · rw [uses_update_of_held hpc]
    exact h.refs i
  · by_cases hwu : w = u
    · subst hwu
      rw [update_self]
      refine iff_of_false ?_ (by simp [Pc.locks])
      by_cases hji : j = i
      · subst hji
        rw [update_self]
        simp
      · rw [update_of_ne hji, h.lock, hpc]
        simpa [Pc.locks] using Ne.symm hji
    · rw [update_of_ne hwu, ← h.lock]
      by_cases hji : j = i
      · subst hji
        rw [update_self, hheld]
        exact iff_of_false (by simp) (by simpa using Ne.symm hwu)
      · rw [update_of_ne hji]

/-- A use drops its reference. -/
theorem Inv.drop (h : Inv s l) (hpc : s.pc u = .held .drop i dev b) :
    Inv ((s.decRef i).goto u .idle) l := by
  have hcount := uses_update s.pc u .idle
  rw [hpc] at hcount
  refine h.touch rfl rfl id (h.refs_update ?_ fun j hj => ⟨?_, rfl⟩)
    (h.lock_update rfl (by rw [hpc]; rfl)) (fun ph k dev' b' hk => by cases hk)
    (fun k dev' b' hk => by cases hk)
  · have hi' := hcount i
    have hrefs := h.refs i
    rw [Pc.on_held_self] at hi'
    show (s.buf i).refcnt - 1 =
      (uses (update s.pc u .idle) i : ℤ) + (s.pins i : ℤ)
    simp only [Pc.on, Bool.toNat_false, Bool.toNat_true] at hi'
    omega
  · have hj' := hcount j
    rw [Pc.on_held_of_ne hj] at hj'
    exact hj'

omit [DecidableEq ι] in
/-- `brelse` moves a buffer to the front of the list. -/
theorem Inv.toFront (h : Inv s l) (i : Fin nbuf) : Inv (s.toFront i) (i :: l.erase i) := by
  have hi : i ∈ l := h.mem i
  have hnd : l.Nodup := h.perm.nodup_iff.mpr (List.nodup_finRange nbuf)
  obtain ⟨l₁, l₂, rfl⟩ := List.append_of_mem hi
  have hi₁ : i ∉ l₁ := fun hi₁ =>
    (List.nodup_append.mp hnd).2.2 i hi₁ i List.mem_cons_self rfl
  have herase : (l₁ ++ i :: l₂).erase i = l₁ ++ l₂ := by
    rw [List.erase_append_right _ hi₁, List.erase_cons_head]
  have hmid : (i :: (l₁ ++ l₂)).Nodup := List.perm_middle.nodup_iff.mp hnd
  have hne : ∀ j ∈ l₁ ++ l₂, j ≠ i := fun j hj hji => (List.nodup_cons.mp hmid).1 (hji ▸ hj)
  rw [herase]
  refine { h with ring := ?_, perm := List.perm_middle.symm.trans h.perm, lru := ?_, past := ?_ }
  · have hring := h.ring
    rw [List.map_append, List.map_cons] at hring
    rw [List.map_cons, List.map_append]
    refine hring.unlink.pushFront ?_
    rw [List.mem_cons, not_or, ← List.map_append, List.mem_map]
    refine ⟨by simp, ?_⟩
    rintro ⟨j, hj, hji⟩
    exact hne j hj (Option.some.inj hji)
  · have hlast : ∀ j ∈ l₁ ++ l₂, update s.last i s.clock j = s.last j :=
      fun j hj => update_of_ne (hne j hj) _ _
    refine List.pairwise_cons.mpr ⟨fun j hj => ?_, ?_⟩
    · show update s.last i s.clock j < update s.last i s.clock i
      rw [hlast j hj, update_self]
      exact h.past j
    · refine (h.lru.sublist ((List.sublist_cons_self i l₂).append_left l₁)).imp_of_mem ?_
      intro j k hj hk hjk
      show update s.last i s.clock k < update s.last i s.clock j
      rw [hlast j hj, hlast k hk]
      exact hjk
  · intro j
    show update s.last i s.clock j < s.clock + 1
    by_cases hj : j = i
    · rw [hj, update_self]
      exact Nat.lt_succ_self _
    · rw [update_of_ne hj]
      exact (h.past j).trans (Nat.lt_succ_self _)

/-- **Every action keeps the invariant.** -/
theorem inv_step {a : Act ι} (h : Inv s l) (hstep : step s a = some s') : ∃ l', Inv s' l' := by
  cases step_cases hstep with
  | hit hpc hi => exact ⟨l, h.hit hpc hi⟩
  | recycle hpc hc hi => exact ⟨l, h.recycle hpc hc hi⟩
  | acquiresleep hpc hl => exact ⟨l, h.acquiresleep hpc hl⟩
  | fill hpc => exact ⟨l, h.fill hpc⟩
  | @store u v _ _ _ _ => exact ⟨l, h.store v u⟩
  | bwrite hpc => exact ⟨l, { h with }⟩
  | @bpin u _ _ _ _ => exact ⟨l, h.bpin u⟩
  | @bunpin u _ _ _ _ hp => exact ⟨l, h.bunpin hp u⟩
  | releasesleep hpc => exact ⟨l, h.releasesleep hpc⟩
  | @put u i dev b hpc =>
    have hdrop := h.drop hpc
    unfold State.putBuf
    split_ifs with hzero
    · exact ⟨i :: l.erase i, hdrop.toFront i⟩
    · exact ⟨l, hdrop⟩

omit [DecidableEq ι] in
/-- `binit` establishes it. -/
theorem inv_binit (d : ℕ → Block) : Inv (binit d : State ι) (List.finRange nbuf).reverse where
  ring := by
    have h := (Links.isRing_nil ⟨fun _ => none, fun _ => none⟩ (none : Node)).foldl_pushFront
      ((List.finRange nbuf).map some) (List.nodup_append.mpr
        ⟨(List.nodup_finRange nbuf).map (Option.some_injective _), List.nodup_singleton _, by simp⟩)
    rw [List.append_nil, List.foldl_map] at h
    rw [List.map_reverse]
    exact h
  perm := List.reverse_perm _
  lru := List.pairwise_reverse.mpr (List.pairwise_lt_finRange nbuf)
  past := fun i => i.isLt
  refs := by
    intro i
    have : uses (fun _ : ι => Pc.idle) i = 0 := Count.count_eq_zero.mpr fun _ => rfl
    show (0 : ℤ) = (uses (fun _ : ι => Pc.idle) i : ℤ) + ((0 : ℕ) : ℤ)
    rw [this]
    rfl
  lock := fun i u => by simp [binit, Pc.locks]
  tag := fun u ph i dev b hu => by cases hu
  uniq := fun i j h0 => absurd rfl h0
  valid := fun u i dev b hu => by cases hu

/-- **In every state the cache can reach.** -/
theorem inv_run {d : ℕ → Block} {as : List (Act ι)} (h : run step as (binit d) = some s) :
    ∃ l, Inv s l :=
  run_invariant (P := fun s => ∃ l, Inv s l) (fun _ _ _ hs _ hstep => inv_step hs.choose_spec hstep)
    ⟨_, inv_binit d⟩ (meets_true as _) h

/-! ### What the users of the cache can rely on -/

/-- **A block is used by one use at a time.** In every state any interleaving reaches, a use to
which `bread` has returned a buffer holds its lock (so that `bwrite` and `brelse` do not panic),
the buffer is valid and is that of the block it asked for, and no other use holds or fills a
buffer for the same block of a real device. -/
theorem bread_holds_block_alone (d : ℕ → Block) (as : List (Act ι)) (s : State ι)
    (h : run step as (binit d) = some s) (u : ι) (i : Fin nbuf) (dev b : ℕ)
    (hu : s.pc u = .held .use i dev b) :
    holdingsleep s i u = true ∧ (s.buf i).valid = true ∧
      (s.buf i).dev = dev ∧ (s.buf i).blockno = b ∧
      (dev ≠ 0 → ∀ w ph j, s.pc w = .held ph j dev b → ph = .fill ∨ ph = .use → w = u) := by
  obtain ⟨l, hinv⟩ := inv_run h
  obtain ⟨hdev, hblk⟩ := hinv.tag u .use i dev b hu
  have hlock : (s.buf i).lock = some u := (hinv.lock i u).mpr (by rw [hu]; rfl)
  refine ⟨?_, hinv.valid u i dev b hu, hdev, hblk, ?_⟩
  · rw [holdingsleep, hlock]
    exact beq_self_eq_true _
  · intro hne w ph j hw hph
    obtain ⟨hdev', hblk'⟩ := hinv.tag w ph j dev b hw
    have hij : i = j := by
      refine hinv.uniq i j ?_ (hdev.trans hdev'.symm) (hblk.trans hblk'.symm)
      rw [hdev]
      exact hne
    have hw' : (s.buf i).lock = some w := by
      refine (hinv.lock i w).mpr ?_
      rcases hph with rfl | rfl
      · rw [hw, hij]
        rfl
      · rw [hw, hij]
        rfl
    exact Option.some.inj (hw'.symm.trans hlock)

theorem bread_holds_block_alone_waiting :
    ∃ s, run step [.bget 0 1 5, .bget 1 1 5, .acquiresleep 1, .fill 1]
        (binit (fun _ _ => 0) : State (Fin 2)) = some s ∧
      (s.pc 0 = .held .wait ⟨0, by decide⟩ 1 5 ∧ s.pc 1 = .held .use ⟨0, by decide⟩ 1 5) ∧
      holdingsleep s ⟨0, by decide⟩ 1 = true := by
  obtain ⟨s, hs, hfacts⟩ : ∃ s, run step [.bget 0 1 5, .bget 1 1 5, .acquiresleep 1, .fill 1]
        (binit (fun _ _ => 0) : State (Fin 2)) = some s ∧
      (s.pc 0 = .held .wait ⟨0, by decide⟩ 1 5 ∧ s.pc 1 = .held .use ⟨0, by decide⟩ 1 5) := by
    decide +kernel
  exact ⟨s, hs, hfacts, (bread_holds_block_alone _ _ s hs 1 _ 1 5 hfacts.2).1⟩

omit [DecidableEq ι] in
/-- When `bget` panics. -/
theorem Inv.bget_error_iff (h : Inv s l) (dev b : ℕ) :
    s.bget dev b = .error "bget: no buffers" ↔
      (∀ j, ¬ ((s.buf j).dev = dev ∧ (s.buf j).blockno = b)) ∧
        ∀ j, 0 < uses s.pc j + s.pins j := by
  have hpos : ∀ j, (s.buf j).refcnt ≠ 0 ↔ 0 < uses s.pc j + s.pins j := by
    intro j
    have := h.refs j
    omega
  unfold State.bget
  cases hc : s.findCached dev b with
  | some i => exact iff_of_false (by simp) fun hn => hn.1 i (h.findCached_some hc)
  | none =>
    cases hu : s.findUnused with
    | some i =>
      exact iff_of_false (by simp) fun hn => (hpos i).mpr (hn.2 i) (h.findUnused_some hu).1
    | none =>
      exact iff_of_true rfl
        ⟨h.findCached_none hc, fun j => (hpos j).mp (h.findUnused_none hu j)⟩

/-- **What `bget` does, in every reachable state.** A cached block is found. Otherwise the buffer
that is recycled has no use and no pin, and among those it is the one released longest ago. `bget`
panics exactly when the block is not cached and every buffer is in use or pinned. -/
theorem bget_recycles_least_recent (d : ℕ → Block) (as : List (Act ι)) (s : State ι)
    (h : run step as (binit d) = some s) (dev b : ℕ) :
    (∀ i s', s.bget dev b = .ok (i, s') →
      ((s.buf i).dev = dev ∧ (s.buf i).blockno = b) ∨
      ((∀ j, ¬ ((s.buf j).dev = dev ∧ (s.buf j).blockno = b)) ∧
        uses s.pc i = 0 ∧ s.pins i = 0 ∧
        ∀ j, uses s.pc j = 0 → s.pins j = 0 → s.last i ≤ s.last j)) ∧
    (s.bget dev b = .error "bget: no buffers" ↔
      (∀ j, ¬ ((s.buf j).dev = dev ∧ (s.buf j).blockno = b)) ∧
        ∀ j, 0 < uses s.pc j + s.pins j) := by
  obtain ⟨l, hinv⟩ := inv_run h
  refine ⟨fun i s' hi => ?_, hinv.bget_error_iff dev b⟩
  unfold State.bget at hi
  cases hc : s.findCached dev b with
  | some k =>
    rw [hc] at hi
    cases hi
    exact Or.inl (hinv.findCached_some hc)
  | none =>
    cases hu : s.findUnused with
    | some k =>
      rw [hc, hu] at hi
      cases hi
      obtain ⟨hzero, hold⟩ := hinv.findUnused_some hu
      have hrefs := hinv.refs i
      refine Or.inr ⟨hinv.findCached_none hc, by omega, by omega, fun j hj hp => hold j ?_⟩
      have := hinv.refs j
      omega
    | none =>
      rw [hc, hu] at hi
      cases hi

/-- After one block has come and gone, the buffer that was never used goes first. -/
theorem bget_recycles_least_recent_second :
    ∃ s, run step [.bget 0 1 5, .acquiresleep 0, .fill 0, .releasesleep 0, .put 0]
        (binit (fun _ _ => 0) : State (Fin 2)) = some s ∧
      ∃ s', s.bget 1 6 = .ok (⟨1, by decide⟩, s') ∧
      s.last ⟨1, by decide⟩ ≤ s.last ⟨0, by decide⟩ := by
  obtain ⟨s, hs, hfacts⟩ : ∃ s, run step [.bget 0 1 5, .acquiresleep 0, .fill 0, .releasesleep 0,
        .put 0] (binit (fun _ _ => 0) : State (Fin 2)) = some s ∧
      ((s.buf ⟨1, by decide⟩).dev ≠ 1 ∧ uses s.pc ⟨0, by decide⟩ = 0 ∧
        s.pins ⟨0, by decide⟩ = 0 ∧ s.findCached 1 6 = none ∧
        s.findUnused = some ⟨1, by decide⟩) := by
    decide +kernel
  obtain ⟨hdev, hu, hp, hc, hf⟩ := hfacts
  have hget : s.bget 1 6 = .ok (⟨1, by decide⟩, s.setBuf ⟨1, by decide⟩
      { s.buf ⟨1, by decide⟩ with dev := 1, blockno := 6, valid := false, refcnt := 1 }) := by
    rw [State.bget, hc, hf]
  refine ⟨s, hs, _, hget, ?_⟩
  rcases (bget_recycles_least_recent _ _ s hs 1 6).1 _ _ hget with h | h
  · exact absurd h.1 hdev
  · exact h.2.2.2 _ hu hp

/-- **A full log cannot be committed.** `LOGBLOCKS` and `NBUF` are the same number. When as many
different blocks are logged, their pinned buffers are all the buffers there are, and the `bread`
of any other block panics: in particular that of the first log block, with which `write_log`
begins. -/
theorem bget_panics_when_log_full (d : ℕ → Block) (as : List (Act ι)) (s : State ι)
    (h : run step as (binit d) = some s) (dev : ℕ) (lh : List ℕ) (hlh : lh.Nodup)
    (hfull : lh.length = logblocks)
    (hpinned : ∀ b ∈ lh, ∃ i, (s.buf i).dev = dev ∧ (s.buf i).blockno = b ∧ 0 < s.pins i)
    (b : ℕ) (hb : b ∉ lh) : s.bget dev b = .error "bget: no buffers" := by
  -- the buffers of the logged blocks are different, so they are all the buffers
  have hall : ∀ i, (s.buf i).blockno ∈ lh ∧ 0 < s.pins i := by
    have : Nonempty (Fin nbuf) := ⟨⟨0, by decide⟩⟩
    choose! buf hbuf using hpinned
    have hinj : (lh.map buf).Nodup := by
      refine (List.nodup_map_iff_inj_on hlh).mpr fun x hx y hy hxy => ?_
      rw [← (hbuf x hx).2.1, ← (hbuf y hy).2.1, hxy]
    have hcard : (lh.map buf).length = Fintype.card (Fin nbuf) := by
      rw [List.length_map, hfull, Fintype.card_fin]
      rfl
    intro i
    have hi : i ∈ lh.map buf := by
      have huniv : (lh.map buf).toFinset = Finset.univ :=
        Finset.eq_univ_of_card _ (by rw [List.toFinset_card_of_nodup hinj, hcard])
      rw [← List.mem_toFinset, huniv]
      exact Finset.mem_univ i
    obtain ⟨x, hx, rfl⟩ := List.mem_map.mp hi
    rw [(hbuf x hx).2.1]
    exact ⟨hx, (hbuf x hx).2.2⟩
  obtain ⟨l, hinv⟩ := inv_run h
  refine (hinv.bget_error_iff dev b).mpr ⟨fun j hj => ?_, fun j => ?_⟩
  · exact hb (hj.2 ▸ (hall j).1)
  · exact Nat.add_pos_right _ (hall j).2

/-- A process logs block `b` and releases it. -/
def logBlock (b : ℕ) : List (Act (Fin 1)) :=
  [.bget 0 1 b, .acquiresleep 0, .fill 0, .store 0 fun _ => 7, .bpin 0, .releasesleep 0, .put 0]

theorem bget_panics_when_log_full_thirty :
    ∃ s, run step ((List.range 30).flatMap fun k => logBlock (40 + k)) (binit fun _ _ => 0) =
        some s ∧ s.bget 1 3 = .error "bget: no buffers" := by
  obtain ⟨s, hs, hpinned⟩ : ∃ s, run step ((List.range 30).flatMap fun k => logBlock (40 + k))
        (binit fun _ _ => 0) = some s ∧
      ∀ b ∈ (List.range 30).map (40 + ·), ∃ i, (s.buf i).dev = 1 ∧ (s.buf i).blockno = b ∧
        0 < s.pins i := by
    decide +kernel
  exact ⟨s, hs, bget_panics_when_log_full _ _ s hs 1 ((List.range 30).map (40 + ·)) (by decide)
    (by decide) hpinned 3 (by decide)⟩

end Invariant

end Cache

end Fs

end Xv6
