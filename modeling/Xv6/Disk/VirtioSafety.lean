import Xv6.Disk.VirtioChains
import Mathlib.Data.Fintype.Option

/-!
# No request is lost

`Move` lists what an action can do, and `attempt_cases` says that it does nothing else: none of the
panics of `virtio_disk.c` is reached, and the device finds every chain as the driver formatted it.
`Inv` is kept by every move (`Move.inv`), so it holds in every state that any interleaving of
callers, device and interrupt handler reaches.

Its last part is about sleeping. A process that sleeps for descriptors has been woken when there
are three of them, and one that sleeps for its buffer has been woken when the device is done with
it; so no wakeup is lost.
-/

namespace Xv6

namespace Virtio

open Disk (Block)
open Transition
open Function (update update_self update_of_ne)

variable {free : ℕ → Bool} {i n : ℕ} {q' : Rings} {w : Bool}

/-! ### What an action can do -/

section Moves

variable {ι κ : Type} [DecidableEq ι] [DecidableEq κ]

namespace State

variable (s : State ι κ)

/-- The requests of all processes. -/
def jobs : ι → Option (Job κ) := fun u => (s.pc u).job

/-- Process `u` has given request `c` to the device and sleeps. -/
def submit (u : ι) (c : Job κ) (d : Descs κ) : State ι κ where
  descs := d
  ops := update s.ops c.i ⟨c.write, 2 * c.blockno⟩
  info := update s.info c.i ⟨some c.b, 0xff⟩
  rings := s.rings.offer c.i
  buf := update s.buf c.b { s.buf c.b with disk := true }
  platter := s.platter
  pc := update s.pc u (.waitIo c.b c.blockno c.write c.i false)

/-- Process `u` sleeps until there are descriptors. -/
def park (u : ι) (b : κ) (blockno : ℕ) (write woke : Bool) (d : Descs κ) : State ι κ :=
  { s with
    descs := d
    pc := update (if woke then wakeDesc s.pc else s.pc) u
      (.wantDesc b blockno write false) }

/-- Process `u` returns. -/
def leave (u : ι) (i : ℕ) (d : Descs κ) : State ι κ :=
  { s with
    descs := d
    info := update s.info i { s.info i with b := none }
    pc := update (wakeDesc s.pc) u .idle }

/-- The device has performed request `c`. -/
def performed (c : Job κ) : State ι κ :=
  { s with
    buf := if c.write then s.buf
      else update s.buf c.b { s.buf c.b with data := s.platter c.blockno }
    platter := if c.write then update s.platter c.blockno (s.buf c.b).data
      else s.platter
    info := update s.info c.i { s.info c.i with status := 0 }
    rings := s.rings.finish c.i }

/-- The handler has seen that request `c` is done. -/
def reported (c : Job κ) (q : Rings) : State ι κ :=
  { s with
    buf := update s.buf c.b { s.buf c.b with disk := false }
    pc := fun u => (s.pc u).wakeBuf c.b
    rings := q }

end State

/-- A chain was freed. -/
structure Freed (d d' : Descs κ) (i : ℕ) : Prop where
  free : ∀ x, d'.free x = false ↔ d.free x = false ∧ ¬ d.Cells i x
  desc : ∀ x, ¬ d.Cells i x → d'.desc x = d.desc x

/-- Process `u` is before the first loop of `virtio_disk_rw`, and action `a` is its next one. -/
inductive Wants (s : State ι κ) (u : ι) (b : κ) (n : ℕ) (w : Bool) : Act ι κ → Prop
  | call : s.pc u = .idle → Wants s u b n w (.call u b n w)
  | goOn : s.pc u = .wantDesc b n w true → Wants s u b n w (.goOn u)

/-- What an action can do. -/
inductive Move (s : State ι κ) : Act ι κ → State ι κ → Prop
  | submit {a u d'} (c : Job κ) (hw : Wants s u c.b c.blockno c.write a)
      (ht : Taken s.descs d' c) : Move s a (s.submit u c d')
  | park {a u b n w d'} (woke : Bool) (hw : Wants s u b n w a) (htwo : AtMostTwo s.descs.free)
      (hf : Failed s.descs d') : Move s a (s.park u b n w woke d')
  | again {u b n w i} (hu : s.pc u = .waitIo b n w i true) (hd : (s.buf b).disk = true) :
      Move s (.goOn u) { s with pc := update s.pc u (.waitIo b n w i false) }
  | leave {u b n w i d'} (hu : s.pc u = .waitIo b n w i true) (hd : (s.buf b).disk = false)
      (hf : Freed s.descs d' i) : Move s (.goOn u) (s.leave u i d')
  | fetch {h q'} (hs : s.rings.submitted = h :: q'.submitted)
      (hp : q'.pending = s.rings.pending ++ [h]) (hf : q'.finished = s.rings.finished)
      (hb : q'.Bounded) : Move s .fetch { s with rings := q' }
  | perform {u} (c : Job κ) (hu : s.jobs u = some c) (hp : c.i ∈ s.rings.pending) :
      Move s (.perform c.i) (s.performed c)
  | intr {u q'} (c : Job κ) (hu : s.jobs u = some c) (hf : s.rings.finished = c.i :: q'.finished)
      (hp : q'.pending = s.rings.pending) (hs : q'.submitted = s.rings.submitted)
      (hb : q'.Bounded) : Move s .intr (s.reported c q')
  | touch (b : κ) (x : Block) :
      Move s (.touch b x) { s with buf := update s.buf b { s.buf b with data := x } }

/-- A process sleeps only for something that is not there yet. -/
def Pc.Asleep : Pc κ → List ℕ → (ℕ → Bool) → Prop
  | .wantDesc _ _ _ false, _, free => AtMostTwo free
  | .waitIo _ _ _ i false, flight, _ => i ∈ flight
  | _, _, _ => True

/-- The block number of a call that has no descriptors yet can be counted in sectors. -/
def Pc.Small : Pc κ → Prop
  | .wantDesc _ n _ _ => n < 2 ^ 31
  | _ => True

/-- What holds in every reachable state. -/
structure Inv (s : State ι κ) : Prop where
  owned : Owned s.descs s.jobs
  busy : Busy s.rings s.jobs s.ops s.info fun b => (s.buf b).disk
  bufs : ∀ u v b, (s.pc u).buf = some b → (s.pc v).buf = some b → u = v
  asleep : ∀ u, (s.pc u).Asleep s.rings.flight s.descs.free
  small : ∀ u, (s.pc u).Small

variable {s s' : State ι κ}

omit [DecidableEq ι] [DecidableEq κ] in
theorem Inv.lt (h : Inv s) (u : ι) (c : Job κ) (hu : s.jobs u = some c) : c.i < num :=
  (h.owned.cell hu (Or.inl rfl)).1

/-- Sectors, for block numbers that are small enough. -/
theorem sector_eq (hn : n < 2 ^ 31) : n * (bsize / 512) % 2 ^ 32 = 2 * n := by
  rw [show bsize / 512 = 2 by decide, Nat.mod_eq_of_lt (by omega), Nat.mul_comm]

/-- The two ways through the first loop of `virtio_disk_rw`. -/
theorem start_cases (s : State ι κ) (u : ι) (b : κ) (hn : n < 2 ^ 31) (w : Bool) :
    (∃ i d', Taken s.descs d' ⟨b, n, w, i⟩ ∧
      s.start u b n w = .ok (s.submit u ⟨b, n, w, i⟩ d')) ∨
    (AtMostTwo s.descs.free ∧ ∃ woke d', Failed s.descs d' ∧
      s.start u b n w = .ok (s.park u b n w woke d')) := by
  rcases alloc3Desc_cases s.descs with ⟨i, j, k, hlt, hne, hfree, heq⟩ | ⟨htwo, woke, d', heq, hf⟩
  · left
    refine ⟨i, _, ?_, by rw [State.start, heq, sector_eq hn]; rfl⟩
    have hchain := chain_format (d := ⟨update (update (update
      s.descs.free i false) j false) k false, s.descs.desc⟩) (b := b) (w := w) hne.1 hne.2.1
      hne.2.2
    have hcells : ∀ x, Descs.Cells _ i x ↔ x = i ∨ x = j ∨ x = k := fun x => by
      rw [Descs.Cells, hchain.snd_eq, hchain.thd_eq]
    refine ⟨hchain.linked hne, fun x hx => ?_, fun x hx => ?_, fun x => ?_, fun x hx => ?_⟩
    · rcases (hcells x).mp hx with rfl | rfl | rfl
      exacts [hlt.1, hlt.2.1, hlt.2.2]
    · rcases (hcells x).mp hx with rfl | rfl | rfl
      exacts [hfree.1, hfree.2.1, hfree.2.2]
    · rw [hcells]
      show update (update (update s.descs.free i false) j false) k false
        x = false ↔ _
      rw [update_three]
      by_cases hx : x = i ∨ x = j ∨ x = k
      · exact iff_of_true (if_pos hx) (Or.inr hx)
      · rw [if_neg hx, or_iff_left hx]
    · exact (update_of_ne (ne_of_free hx hfree.2.2) _ _).trans
        ((update_of_ne (ne_of_free hx hfree.2.1) _ _).trans
          (update_of_ne (ne_of_free hx hfree.1) _ _))
  · right
    exact ⟨htwo, woke, d', hf, by rw [State.start, heq]; rfl⟩

omit [DecidableEq κ] in
/-- The way out of `virtio_disk_rw`. -/
theorem freeChain_freed {c : Job κ} {d : Descs κ} (hl : Linked d c)
    (hcell : ∀ x, d.Cells c.i x → x < num ∧ d.free x = false) :
    ∃ d', d.freeChain (num + 1) c.i = .ok d' ∧ Freed d d' c.i := by
  have h1 := hcell _ (Or.inl rfl)
  have h2 := hcell _ (Or.inr (Or.inl rfl))
  have h3 := hcell _ (Or.inr (Or.inr rfl))
  refine ⟨_, freeChain_ok hl.chain ⟨h1.1, h2.1, h3.1⟩ hl.distinct ⟨h1.2, h2.2, h3.2⟩,
    fun x => ?_, fun x hx => ?_⟩
  · show update (update (update d.free c.i true) (d.snd c.i) true)
      (d.thd c.i) true x = false ↔ d.free x = false ∧ ¬ d.Cells c.i x
    rw [update_three, Descs.Cells]
    by_cases hx : x = c.i ∨ x = d.snd c.i ∨ x = d.thd c.i
    · rw [if_pos hx]
      exact iff_of_false Bool.noConfusion fun h => h.2 hx
    · rw [if_neg hx, and_iff_left hx]
  · exact (update_three _ _ _ _ _ _).trans (if_neg hx)

omit [DecidableEq ι] in
/-- The device finds the request as the driver formatted it. -/
theorem perform_eq (h : Inv s) {u : ι} {c : Job κ} (hu : s.jobs u = some c) :
    s.perform c.i = .ok (s.performed c) := by
  have hc := (h.owned.linked u c hu).chain
  have hop := h.busy.op u c hu
  have h1 : s.descs.desc (s.descs.desc c.i).next = _ := hc.second
  have h2 : s.descs.desc (s.descs.desc (s.descs.desc c.i).next).next = _ := hc.third
  have hdiv : 2 * c.blockno / 2 = c.blockno := Nat.mul_div_cancel_left _ Nat.two_pos
  unfold State.perform
  dsimp only
  rw [h2, h1, hc.first]
  dsimp only
  rw [hop]
  dsimp only
  rw [if_pos ⟨rfl, rfl, rfl, rfl, rfl, rfl, Nat.mul_mod_right _ _⟩, hdiv]
  rfl

/-- **No panic.** An action is not possible, or does one of the things above. -/
theorem attempt_cases (h : Inv s) (a : Act ι κ) (hC : Careful s a) :
    attempt s a = none ∨ ∃ s', attempt s a = some (.ok s') ∧ Move s a s' := by
  have hstart : ∀ u b n w, n < 2 ^ 31 → Wants s u b n w a →
      ∃ s', some (s.start u b n w) = some (.ok s') ∧ Move s a s' := by
    intro u b n w hn hw
    rcases start_cases s u b hn w with ⟨i, d', ht, heq⟩ | ⟨htwo, woke, d', hf, heq⟩
    · exact ⟨_, congrArg some heq, .submit _ hw ht⟩
    · exact ⟨_, congrArg some heq, .park woke hw htwo hf⟩
  cases a with
  | call u b n w =>
    unfold attempt
    dsimp only
    cases hp : s.pc u with
    | idle => exact Or.inr (hstart u b n w hC.2 (.call hp))
    | wantDesc => exact Or.inl rfl
    | waitIo => exact Or.inl rfl
  | goOn u =>
    unfold attempt
    dsimp only
    cases hp : s.pc u with
    | idle => exact Or.inl rfl
    | wantDesc b n w woken =>
      cases woken with
      | false => exact Or.inl rfl
      | true =>
        have hn := h.small u
        rw [hp] at hn
        exact Or.inr (hstart u b n w hn (.goOn hp))
    | waitIo b n w i woken =>
      cases woken with
      | false => exact Or.inl rfl
      | true =>
        right
        unfold State.resume
        dsimp only
        cases hd : (s.buf b).disk with
        | true => exact ⟨_, rfl, .again hp hd⟩
        | false =>
          have hu : s.jobs u = some ⟨b, n, w, i⟩ := congrArg Pc.job hp
          obtain ⟨d', heq, hf⟩ := freeChain_freed (h.owned.linked u _ hu) fun x => h.owned.cell hu
          refine ⟨_, ?_, .leave hp hd hf⟩
          rw [if_neg Bool.false_ne_true, heq]
          rfl
  | fetch =>
    unfold attempt
    rcases Rings.fetch_cases h.busy.bounded with ⟨-, heq⟩ | ⟨x, q', heq, hs, hp, hf, hb⟩
    · exact Or.inl (by rw [heq]; rfl)
    · exact Or.inr ⟨_, by rw [heq]; rfl, .fetch hs hp hf hb⟩
  | perform x =>
    unfold attempt
    dsimp only
    by_cases hx : x ∈ s.rings.pending
    · obtain ⟨u, c, hu, rfl⟩ := h.busy.owner x
        (List.mem_append_right _ (List.mem_append_left _ hx))
      refine Or.inr ⟨_, ?_, .perform c hu hx⟩
      rw [if_pos hx, perform_eq h hu]
    · exact Or.inl (if_neg hx)
  | intr =>
    unfold attempt State.intr
    rcases Rings.see_cases h.busy.bounded with ⟨-, heq⟩ | ⟨x, q', heq, hf, hp, hs, hb⟩
    · exact Or.inl (by rw [heq]; rfl)
    · have hx : x ∈ s.rings.finished := by
        rw [hf]
        exact List.mem_cons_self
      obtain ⟨u, c, hu, rfl⟩ := h.busy.owner x
        (List.mem_append_right _ (List.mem_append_right _ hx))
      refine Or.inr ⟨_, ?_, .intr c hu hf hp hs hb⟩
      rw [heq, Option.map_some]
      dsimp only
      rw [h.busy.status _ hx, h.busy.info u c hu, if_neg (not_not.mpr rfl)]
      rfl
  | touch b x => exact Or.inr ⟨_, rfl, .touch b x⟩

end Moves

/-! ### Every action keeps the invariant -/

namespace Pc

variable {κ : Type}

@[simp] theorem job_wakeDesc (p : Pc κ) : p.wakeDesc.job = p.job := by cases p <;> rfl

@[simp] theorem buf_wakeDesc (p : Pc κ) : p.wakeDesc.buf = p.buf := by cases p <;> rfl

theorem small_wakeDesc {p : Pc κ} (h : p.Small) : p.wakeDesc.Small := by
  cases p <;> exact h

/-- A process that waits for descriptors does not sleep after a wakeup. -/
theorem asleep_wakeDesc {p : Pc κ} {l : List ℕ} (h : p.Asleep l free) (free' : ℕ → Bool) :
    p.wakeDesc.Asleep l free' := by
  cases p with
  | idle => trivial
  | wantDesc => trivial
  | waitIo b n w i woken => cases woken <;> exact h

/-- More chains are on their way, fewer descriptors are free. -/
theorem Asleep.mono {p : Pc κ} {l l' : List ℕ} {free' : ℕ → Bool} (h : p.Asleep l free)
    (hl : ∀ x ∈ l, x ∈ l') (hf : ∀ x, free' x = true → free x = true) : p.Asleep l' free' := by
  cases p with
  | idle => trivial
  | wantDesc b n w woken =>
    cases woken with
    | true => trivial
    | false =>
      obtain ⟨i, j, htwo⟩ := h
      exact ⟨i, j, fun x hx hfx => htwo x hx (hf x hfx)⟩
  | waitIo b n w i woken =>
    cases woken with
    | true => trivial
    | false => exact hl i h

variable [DecidableEq κ]

@[simp] theorem job_wakeBuf (b : κ) (p : Pc κ) : (p.wakeBuf b).job = p.job := by cases p <;> rfl

@[simp] theorem buf_wakeBuf (b : κ) (p : Pc κ) : (p.wakeBuf b).buf = p.buf := by cases p <;> rfl

theorem small_wakeBuf {p : Pc κ} (h : p.Small) (b : κ) : (p.wakeBuf b).Small := by
  cases p <;> exact h

/-- The waiters for buffer `b` are woken. -/
theorem asleep_wakeBuf {p : Pc κ} {b : κ} {l l' : List ℕ} (h : p.Asleep l free)
    (hl : ∀ c, p.job = some c → c.b ≠ b → c.i ∈ l → c.i ∈ l') : (p.wakeBuf b).Asleep l' free := by
  cases p with
  | idle => trivial
  | wantDesc b n w woken => cases woken <;> exact h
  | waitIo c n w i woken =>
    cases woken with
    | true => trivial
    | false =>
      show (waitIo c n w i (decide (c = b))).Asleep l' free
      by_cases hc : c = b
      · rw [decide_eq_true hc]
        trivial
      · rw [decide_eq_false hc]
        exact hl ⟨c, n, w, i⟩ rfl hc h

end Pc

section Kept

variable {ι κ : Type} {s : State ι κ}

section

variable {u : ι} {b : κ} {a : Act ι κ}

theorem Wants.job_eq (hw : Wants s u b n w a) : s.jobs u = none := by
  cases hw with
  | call hu => exact congrArg Pc.job hu
  | goOn hu => exact congrArg Pc.job hu

/-- No other call has the buffer. -/
theorem Wants.buf_ne (hw : Wants s u b n w a) (h : Inv s) (hC : Careful s a) {v : ι} (hv : v ≠ u) :
    (s.pc v).buf ≠ some b := by
  cases hw with
  | call hu => exact hC.1 v
  | goOn hu => exact fun hb => hv (h.bufs v u b hb (congrArg Pc.buf hu))

theorem Wants.small (hw : Wants s u b n w a) (h : Inv s) (hC : Careful s a) : n < 2 ^ 31 := by
  cases hw with
  | call hu => exact hC.2
  | goOn hu =>
    have hn := h.small u
    rwa [hu] at hn

end

theorem Inv.fetch (h : Inv s) (hperm : (q'.flight).Perm s.rings.flight) (hb : q'.Bounded)
    (hf : q'.finished = s.rings.finished) : Inv { s with rings := q' } where
  owned := h.owned
  busy := h.busy.fetch hperm hb hf
  bufs := h.bufs
  asleep := fun u => (h.asleep u).mono (fun _ hx => hperm.mem_iff.mpr hx) fun _ hx => hx
  small := h.small

section

variable [DecidableEq κ]

theorem jobs_reported (c : Job κ) (q : Rings) : (s.reported c q).jobs = s.jobs :=
  funext fun _ => Pc.job_wakeBuf _ _

/-- New bytes leave the flag. -/
theorem disk_update_data (buf : κ → Buf) (b : κ) (x : Block) :
    (fun b' => (update buf b { buf b with data := x } b').disk) =
      fun b' => (buf b').disk := by
  funext b'
  by_cases hb : b' = b
  · rw [hb, update_self]
  · rw [update_of_ne hb]

theorem Inv.performed (h : Inv s) {c : Job κ} (hp : c.i ∈ s.rings.pending) :
    Inv (s.performed c) := by
  have hdisk : (fun b => ((s.performed c).buf b).disk) = fun b => (s.buf b).disk := by
    unfold State.performed
    dsimp only
    split
    · rfl
    · exact disk_update_data _ _ _
  constructor
  · exact h.owned
  · rw [hdisk]
    exact h.busy.finish h.lt hp
  · exact h.bufs
  · have hperm := Rings.finish_flight h.busy.bounded (h.busy.finished_lt h.lt hp) hp
    exact fun v => (h.asleep v).mono (fun _ hx => hperm.mem_iff.mpr hx) fun _ hx => hx
  · exact h.small

theorem Inv.reported (h : Inv s) {u : ι} {c : Job κ} (hu : s.jobs u = some c)
    (hf : s.rings.finished = c.i :: q'.finished) (hp : q'.pending = s.rings.pending)
    (hs : q'.submitted = s.rings.submitted) (hb : q'.Bounded) : Inv (s.reported c q') := by
  have hperm := Rings.see_flight hf hp hs
  -- so only `u` is woken by `wakeup(b)`
  have hinj : ∀ v e, s.jobs v = some e → e.i = c.i ∨ e.b = c.b → v = u := by
    rintro v e hv (he | he)
    · exact h.owned.head_inj hv hu he
    · exact h.bufs v u c.b (he ▸ Pc.buf_of_job hv) (Pc.buf_of_job hu)
  constructor
  · rw [jobs_reported]
    exact h.owned
  · rw [jobs_reported]
    refine h.busy.see hu hinj hperm hb hf ?_ fun b hne => ?_
    · show (update s.buf c.b _ c.b).disk = false
      rw [update_self]
    · show (update s.buf c.b _ b).disk = (s.buf b).disk
      rw [update_of_ne hne]
  · intro v v' b h1 h2
    exact h.bufs v v' b ((Pc.buf_wakeBuf _ _).symm.trans h1) ((Pc.buf_wakeBuf _ _).symm.trans h2)
  · intro v
    refine Pc.asleep_wakeBuf (h.asleep v) fun e hv hne hmem => ?_
    rcases List.mem_cons.mp (hperm.mem_iff.mp hmem) with he | hmem
    · obtain rfl := hinj v e hv (Or.inl he)
      obtain rfl := Option.some.inj (hu.symm.trans hv)
      exact absurd rfl hne
    · exact hmem
  · exact fun v => Pc.small_wakeBuf (h.small v) _

theorem Inv.touch (h : Inv s) (b : κ) (x : Block) :
    Inv { s with buf := update s.buf b { s.buf b with data := x } } := by
  have hdisk := disk_update_data s.buf b x
  exact ⟨h.owned, hdisk ▸ h.busy, h.bufs, h.asleep, h.small⟩

end

variable [DecidableEq ι]

theorem jobs_update (pc : ι → Pc κ) (u : ι) (p : Pc κ) :
    (fun v => (update pc u p v).job) =
      update (fun v => (pc v).job) u p.job :=
  funext fun v => Function.apply_update (fun _ => Pc.job) pc u p v

/-- The process keeps its request, or has none. -/
theorem jobs_update_eq {pc : ι → Pc κ} {u : ι} {p : Pc κ} (h : (pc u).job = p.job) :
    (fun v => (update pc u p v).job) = fun v => (pc v).job := by
  rw [jobs_update, ← h]
  exact Function.update_eq_self _ _

theorem jobs_park {u : ι} (b : κ) (n : ℕ) (w woke : Bool) (d : Descs κ) (hu : s.jobs u = none) :
    (s.park u b n w woke d).jobs = s.jobs := by
  have hwake : (fun v => ((if woke then State.wakeDesc s.pc else s.pc) v).job) = s.jobs := by
    funext v
    cases woke with
    | true => exact Pc.job_wakeDesc _
    | false => rfl
  exact (jobs_update_eq (p := .wantDesc b n w false) ((congrFun hwake u).trans hu)).trans hwake

theorem jobs_leave (u : ι) (i : ℕ) (d : Descs κ) : (s.leave u i d).jobs = update s.jobs u none := by
  have hwake : (fun v => (State.wakeDesc s.pc v).job) = s.jobs :=
    funext fun v => Pc.job_wakeDesc _
  rw [← hwake]
  exact jobs_update _ u _

/-- A property of all program counters, after one of them has changed. -/
theorem forall_update {P : Pc κ → Prop} {pc : ι → Pc κ} (h : ∀ v, P (pc v)) {u : ι} {p : Pc κ}
    (hp : P p) (v : ι) : P (update pc u p v) := by
  by_cases hv : v = u
  · rw [hv, update_self]
    exact hp
  · rw [update_of_ne hv]
    exact h v

/-- The buffers of the calls are distinct, after process `u` has begun or gone on with a call. -/
theorem bufs_update {pc : ι → Pc κ} (h : ∀ u v b, (pc u).buf = some b → (pc v).buf = some b → u = v)
    {u : ι} {p : Pc κ} {b : κ} (hp : p.buf = some b) (hne : ∀ v, v ≠ u → (pc v).buf ≠ some b)
    (v v' : ι) (b' : κ) (h1 : (update pc u p v).buf = some b')
    (h2 : (update pc u p v').buf = some b') : v = v' := by
  by_cases hv : v = u
  · by_cases hv' : v' = u
    · rw [hv, hv']
    · subst hv
      rw [update_self, hp] at h1
      rw [update_of_ne hv'] at h2
      obtain rfl := Option.some.inj h1
      exact absurd h2 (hne v' hv')
  · rw [update_of_ne hv] at h1
    by_cases hv' : v' = u
    · subst hv'
      rw [update_self, hp] at h2
      obtain rfl := Option.some.inj h2
      exact absurd h1 (hne v hv)
    · rw [update_of_ne hv'] at h2
      exact h v v' b' h1 h2

theorem Inv.park (h : Inv s) {a : Act ι κ} (hC : Careful s a) {u : ι} {b : κ} {d' : Descs κ}
    (woke : Bool) (hw : Wants s u b n w a) (htwo : AtMostTwo s.descs.free)
    (hf : Failed s.descs d') : Inv (s.park u b n w woke d') := by
  have hjobs := jobs_park b n w woke d' hw.job_eq
  have hbuf : ∀ v, ((if woke then State.wakeDesc s.pc else s.pc) v).buf = (s.pc v).buf := by
    intro v
    cases woke with
    | true => exact Pc.buf_wakeDesc _
    | false => rfl
  constructor
  · rw [hjobs]
    exact h.owned.failed hf
  · rw [hjobs]
    exact h.busy
  · refine bufs_update (fun v v' b' h1 h2 => ?_) rfl fun v hv => ?_
    · rw [hbuf] at h1 h2
      exact h.bufs v v' b' h1 h2
    · rw [hbuf]
      exact hw.buf_ne h hC hv
  · refine forall_update (P := fun p => p.Asleep s.rings.flight d'.free) (fun v => ?_)
      (show AtMostTwo d'.free from hf.free ▸ htwo)
    rw [hf.free]
    cases woke with
    | true => exact Pc.asleep_wakeDesc (h.asleep v) _
    | false => exact h.asleep v
  · refine forall_update (fun v => ?_) (hw.small h hC)
    cases woke with
    | true => exact Pc.small_wakeDesc (h.small v)
    | false => exact h.small v

theorem Inv.again (h : Inv s) {u : ι} {b : κ} (hu : s.pc u = .waitIo b n w i true)
    (hd : (s.buf b).disk = true) : Inv { s with pc := update s.pc u (.waitIo b n w i false) } := by
  have hjob : s.jobs u = some ⟨b, n, w, i⟩ := congrArg Pc.job hu
  have hjobs : State.jobs { s with pc := update s.pc u (.waitIo b n w i false) } =
      s.jobs := jobs_update_eq hjob
  constructor
  · rw [hjobs]
    exact h.owned
  · rw [hjobs]
    exact h.busy
  · refine bufs_update h.bufs rfl fun v hv hb => hv ?_
    exact h.bufs v u b hb (congrArg Pc.buf hu)
  · exact forall_update (P := fun p => p.Asleep _ _) h.asleep ((h.busy.disk u _ hjob).mp hd)
  · exact forall_update h.small trivial

theorem Inv.leave (h : Inv s) {u : ι} {b : κ} {d' : Descs κ} (hu : s.pc u = .waitIo b n w i true)
    (hd : (s.buf b).disk = false) (hf : Freed s.descs d' i) : Inv (s.leave u i d') := by
  have hjob : s.jobs u = some ⟨b, n, w, i⟩ := congrArg Pc.job hu
  have hnot : i ∉ s.rings.flight := by
    rw [← h.busy.disk u _ hjob, hd]
    exact Bool.false_ne_true
  constructor
  · rw [jobs_leave]
    exact h.owned.finish hjob hf.free hf.desc
  · rw [jobs_leave]
    exact h.busy.leave hjob hnot fun v e hv he => h.owned.head_inj hv hjob he
  · intro v v' b' h1 h2
    have hother : ∀ v, (update (State.wakeDesc s.pc) u .idle v).buf = some b' →
        (s.pc v).buf = some b' := by
      intro v hv
      by_cases hvu : v = u
      · rw [hvu, update_self] at hv
        cases hv
      · rw [update_of_ne hvu] at hv
        exact (Pc.buf_wakeDesc _).symm.trans hv
    exact h.bufs v v' b' (hother v h1) (hother v' h2)
  · exact forall_update (P := fun p => p.Asleep _ _)
      (fun v => Pc.asleep_wakeDesc (h.asleep v) _) trivial
  · exact forall_update (fun v => Pc.small_wakeDesc (h.small v)) trivial

variable [DecidableEq κ]

theorem jobs_submit (u : ι) (c : Job κ) (d : Descs κ) :
    (s.submit u c d).jobs = update s.jobs u (some c) :=
  jobs_update s.pc u _

theorem Inv.submit (h : Inv s) {a : Act ι κ} (hC : Careful s a) {u : ι} {c : Job κ} {d' : Descs κ}
    (hw : Wants s u c.b c.blockno c.write a) (ht : Taken s.descs d' c) : Inv (s.submit u c d') := by
  have hu := hw.job_eq
  have hne : ∀ v e, s.jobs v = some e → e.i ≠ c.i ∧ e.b ≠ c.b := by
    intro v e hv
    constructor
    · exact ne_of_free (h.owned.cell hv (Or.inl rfl)).2 (ht.free _ (Or.inl rfl))
    · intro he
      refine hw.buf_ne h hC (v := v) ?_ (he ▸ Pc.buf_of_job hv)
      rintro rfl
      rw [hu] at hv
      cases hv
  have hroom := h.busy.submitted_lt h.lt (ht.lt _ (Or.inl rfl)) fun v e hv => (hne v e hv).1
  have hperm := Rings.offer_flight h.busy.bounded hroom c.i
  constructor
  · rw [jobs_submit]
    exact h.owned.start hu ht
  · rw [jobs_submit]
    refine h.busy.offer h.lt (ht.lt _ (Or.inl rfl)) hu hne ?_ fun b hb => ?_
    · show (update s.buf c.b _ c.b).disk = true
      rw [update_self]
    · show (update s.buf c.b _ b).disk = (s.buf b).disk
      rw [update_of_ne hb]
  · exact bufs_update h.bufs rfl fun v hv => hw.buf_ne h hC hv
  · refine forall_update (P := fun p => p.Asleep _ _)
      (fun v => (h.asleep v).mono (fun x hx => hperm.mem_iff.mpr (List.mem_cons_of_mem _ hx))
        fun x hx => ?_) (hperm.mem_iff.mpr List.mem_cons_self)
    -- a descriptor that was in use still is
    by_contra hfx
    rw [Bool.not_eq_true] at hfx
    exact ne_of_free ((ht.free_iff x).mpr (Or.inl hfx)) hx rfl
  · exact forall_update h.small trivial

/-- **The step lemma.** -/
theorem Move.inv {a : Act ι κ} {s' : State ι κ} (hm : Move s a s') (h : Inv s) (hC : Careful s a) :
    Inv s' := by
  cases hm with
  | submit c hw ht => exact h.submit hC hw ht
  | park woke hw htwo hf => exact h.park hC woke hw htwo hf
  | again hu hd => exact h.again hu hd
  | leave hu hd hf => exact h.leave hu hd hf
  | fetch hs hp hf hb => exact h.fetch (Rings.fetch_flight hs hp hf) hb hf
  | perform c hu hp => exact h.performed hp
  | intr c hu hf hp hs hb => exact h.reported hu hf hp hs hb
  | touch b x => exact h.touch b x

end Kept

/-! ### Runs -/

section Runs

variable {ι κ : Type} [DecidableEq ι] [DecidableEq κ]

omit [DecidableEq ι] [DecidableEq κ] in
theorem jobs_init (data : κ → Block) (platter : ℕ → Block) (u : ι) (c : Job κ) :
    (init data platter : State ι κ).jobs u ≠ some c := (Option.some_ne_none c).symm

omit [DecidableEq ι] [DecidableEq κ] in
theorem inv_init (data : κ → Block) (platter : ℕ → Block) :
    Inv (init data platter : State ι κ) where
  owned := by
    refine ⟨⟨?_, fun _ hx => hx, fun x => ?_⟩, fun u c hc => absurd hc (jobs_init _ _ u c)⟩
    · rintro u v x ⟨c, hc, -⟩
      exact absurd hc (jobs_init _ _ u c)
    · refine iff_of_false (fun hx => Bool.false_ne_true hx.2.symm) ?_
      rintro (hx | ⟨u, c, hc, -⟩)
      · exact hx
      · exact jobs_init _ _ u c hc
  busy := by
    have hpos := Rings.words_pos
    have hempty : ∀ r : ℕ → ℕ, RingBuffer.contents num words r 0 0 = [] := fun _ =>
      (RingBuffer.contents_eq_nil hpos hpos).mpr rfl
    have hflight : (init data platter : State ι κ).rings.flight = [] := by
      rw [Rings.flight, Rings.submitted, Rings.finished, init, hempty]
      rfl
    refine ⟨⟨hpos, hpos, hpos, hpos⟩, ?_, ?_, fun u c hc => absurd hc (jobs_init _ _ u c), ?_,
      fun u c hc => absurd hc (jobs_init _ _ u c), fun u c hc => absurd hc (jobs_init _ _ u c)⟩
    · rw [hflight]
      exact List.nodup_nil
    · rw [hflight]
      exact fun h hh => absurd hh List.not_mem_nil
    · rw [Rings.finished, init, hempty]
      exact fun h hh => absurd hh List.not_mem_nil
  bufs := fun _ _ b hb => absurd hb (Option.some_ne_none b).symm
  asleep := fun _ => trivial
  small := fun _ => trivial

theorem step_inv {s s' : State ι κ} {a : Act ι κ} (h : Inv s) (hC : Careful s a)
    (hs : step s a = some s') : Inv s' := by
  rcases attempt_cases h a hC with hnone | ⟨m, heq, hm⟩
  · rw [step, hnone] at hs
    cases hs
  · rw [step, heq] at hs
    obtain rfl := Option.some.inj hs
    exact hm.inv h hC

/-- **The driver loses no request and no descriptor.** In every state that callers, device and
handler reach in any interleaving, nothing panics; a descriptor is in use exactly if it is in the
chain of one waiting call; a chain is on its way at most once, and exactly while the disk owns the
buffer of its call; and whoever sleeps waits for something that is not there yet. -/
theorem driver_loses_nothing (data : κ → Block) (platter : ℕ → Block) (as : List (Act ι κ))
    (hC : Meets step Careful as (init data platter)) (s : State ι κ)
    (h : run step as (init data platter) = some s) :
    (∀ a e, Careful s a → attempt s a ≠ some (.error e)) ∧
    (∀ x < num, s.descs.free x = false ↔ ∃! u, Held s.descs s.jobs u x) ∧
    s.rings.flight.Nodup ∧ (∀ x ∈ s.rings.flight, ∃ u c, s.jobs u = some c ∧ c.i = x) ∧
    (∀ u c, s.jobs u = some c → ((s.buf c.b).disk = true ↔ c.i ∈ s.rings.flight)) ∧
    (∀ u b n w, s.pc u = .wantDesc b n w false → AtMostTwo s.descs.free) ∧
    ∀ u b n w i, s.pc u = .waitIo b n w i false → i ∈ s.rings.flight := by
  have hinv : Inv s := run_invariant (fun _ _ _ => step_inv) (inv_init data platter) hC h
  refine ⟨fun a e ha he => ?_, fun x hx => ?_, hinv.busy.nodup, hinv.busy.owner, hinv.busy.disk,
    fun u b n w hu => ?_, fun u b n w i hu => ?_⟩
  · rcases attempt_cases hinv a ha with hnone | ⟨m, heq, -⟩
    · rw [hnone] at he
      cases he
    · rw [heq] at he
      cases he
  · constructor
    · intro hf
      obtain hx' | ⟨u, hu⟩ := (hinv.owned.exact.used_iff x).mp ⟨hx, hf⟩
      · exact hx'.elim
      · exact ⟨u, hu, fun v hv => hinv.owned.exact.inj hv hu⟩
    · rintro ⟨u, hu, -⟩
      exact (hinv.owned.exact.used_of_holds hu).2
  · have hasleep := hinv.asleep u
    rwa [hu] at hasleep
  · have hasleep := hinv.asleep u
    rwa [hu] at hasleep

instance decidableCareful [Fintype ι] (s : State ι κ) : DecidablePred (Careful s)
  | .call _ b n _ => inferInstanceAs (Decidable ((∀ v, (s.pc v).buf ≠ some b) ∧ n < 2 ^ 31))
  | .touch b _ => inferInstanceAs (Decidable (∀ v, (s.pc v).buf ≠ some b))
  | .goOn _ | .fetch | .perform _ | .intr => isTrue trivial

/-- Three calls; the third one waits until the second one, which the device performs first, has
returned. -/
def threeCalls : List (Act (Option Bool) (Option Bool)) :=
  [.call none none 5 false, .call (some false) (some false) 6 true,
    .call (some true) (some true) 7 false, .fetch, .fetch, .perform 3, .intr, .goOn (some false),
    .goOn (some true)]

theorem driver_loses_nothing_three_calls :
    ∃ s : State (Option Bool) (Option Bool),
      run step threeCalls (init (fun _ _ => 0) fun _ _ => 0) = some s ∧
      s.pc (some true) = .waitIo (some true) 7 false 3 false ∧ 3 ∈ s.rings.flight ∧
      s.rings.flight.Nodup := by
  obtain ⟨s, hs, hpc⟩ : ∃ s : State (Option Bool) (Option Bool),
      run step threeCalls (init (fun _ _ => 0) fun _ _ => 0) = some s ∧
      s.pc (some true) = .waitIo (some true) 7 false 3 false := by decide +kernel
  obtain ⟨-, -, hnodup, -, -, -, hio⟩ := driver_loses_nothing (fun _ _ => 0) (fun _ _ => 0)
    threeCalls (by decide +kernel) s hs
  exact ⟨s, hs, hpc, hio _ _ _ _ _ hpc, hnodup⟩

end Runs

end Virtio

end Xv6
