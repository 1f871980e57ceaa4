import Xv6.Disk.Virtio
import Xv6.Lib.Owners

/-!
# Chains of descriptors and the two rings

What the functions of `virtio_disk.c` do with the descriptors and the rings, apart from who calls
them: `alloc3_desc` takes three free descriptors or changes nothing of the chains in use,
`free_chain` frees exactly the three descriptors of its chain, and each ring is a queue of chains.

`Owned` says that the descriptors in use are those of the chains of the waiting calls, which do not
overlap. `Busy` says that the chains on their way between driver and device belong to the calls
whose buffers the disk owns, each once; so neither ring can overflow.
-/

namespace Xv6

namespace Virtio

open Disk (Block)
open Function (update update_self update_of_ne)

variable {i n x : ℕ} {q' : Rings} {w write : Bool}

/-! ### Descriptors -/

section Descs

variable {κ : Type} {d : Descs κ}

/-- There are no three free descriptors. -/
def AtMostTwo (free : ℕ → Bool) : Prop :=
  ∃ i j, ∀ x < num, free x = true → x = i ∨ x = j

theorem allocDesc_cases (d : Descs κ) :
    (∃ i < num, d.free i = true ∧
      d.allocDesc = (some i, ⟨update d.free i false, d.desc⟩)) ∨
    ((∀ i < num, d.free i = false) ∧ d.allocDesc = (none, d)) := by
  unfold Descs.allocDesc
  cases hf : (List.range num).find? d.free with
  | some i =>
    have hmem := List.mem_of_find?_eq_some hf
    exact Or.inl ⟨i, List.mem_range.mp hmem, List.find?_some hf, rfl⟩
  | none =>
    refine Or.inr ⟨fun i hi => ?_, rfl⟩
    exact Bool.eq_false_iff.mpr (List.find?_eq_none.mp hf i (List.mem_range.mpr hi))

/-- A cleared descriptor. -/
def Desc.clear : Desc κ := ⟨.null, 0, 0, 0⟩

theorem ne_of_free {f : ℕ → Bool} (hx : f x = false) (hi : f i = true) : x ≠ i := by
  rintro rfl
  exact Bool.false_ne_true (hx.symm.trans hi)

/-- The descriptor that was taken last. -/
theorem eq_of_none_free {f : ℕ → Bool} (hnone : ∀ y < num, update f i false y = false)
    (hx : x < num) (hfx : f x = true) : x = i := by
  by_contra hne
  exact ne_of_free ((update_of_ne hne _ _).symm.trans (hnone x hx)) hfx rfl

/-- `free_desc` of a descriptor that is not free. -/
theorem freeDesc_ok (hi : i < num) (hf : d.free i = false) :
    d.freeDesc i = .ok ⟨update d.free i true, update d.desc i Desc.clear⟩ := by
  rw [Descs.freeDesc, if_neg (Nat.not_le.mpr hi), hf, if_neg Bool.false_ne_true]
  rfl

/-- An attempt that fails: descriptors were taken and freed again, which clears them. -/
structure Failed (d d' : Descs κ) : Prop where
  free : d'.free = d.free
  desc : ∀ x, d.free x = false → d'.desc x = d.desc x

/-- Taken and freed again. -/
theorem update_update_eq_self {f : ℕ → Bool} (h : f i = true) :
    update (update f i false) i true = f := by
  rw [Function.update_idem, ← h, Function.update_eq_self]

/-- **`alloc3_desc`** takes three free descriptors, or there are no three. -/
theorem alloc3Desc_cases (d : Descs κ) :
    (∃ i j k, (i < num ∧ j < num ∧ k < num) ∧ (j ≠ i ∧ k ≠ i ∧ k ≠ j) ∧
      (d.free i = true ∧ d.free j = true ∧ d.free k = true) ∧
      d.alloc3Desc = .ok (some (i, j, k), false,
        ⟨update (update (update d.free i false) j false) k false,
          d.desc⟩)) ∨
    (AtMostTwo d.free ∧ ∃ woke d', d.alloc3Desc = .ok (none, woke, d') ∧ Failed d d') := by
  unfold Descs.alloc3Desc
  rcases allocDesc_cases d with ⟨i, hi, hfi, e1⟩ | ⟨hnone, e1⟩
  · rw [e1]
    dsimp only
    rcases allocDesc_cases ⟨update d.free i false, d.desc⟩ with
      ⟨j, hj, hfj, e2⟩ | ⟨hnone, e2⟩
    · have hij : j ≠ i := (ne_of_free (update_self _ _ _) hfj).symm
      have hfj' : d.free j = true := (update_of_ne hij _ _).symm.trans hfj
      rw [e2]
      dsimp only
      rcases allocDesc_cases
        ⟨update (update d.free i false) j false, d.desc⟩ with
        ⟨k, hk, hfk, e3⟩ | ⟨hnone, e3⟩
      · have hjk : k ≠ j := (ne_of_free (update_self _ _ _) hfk).symm
        have hfk' := (update_of_ne hjk _ _).symm.trans hfk
        have hik : k ≠ i := (ne_of_free (update_self _ _ _) hfk').symm
        rw [e3]
        exact Or.inl ⟨i, j, k, ⟨hi, hj, hk⟩, ⟨hij, hik, hjk⟩,
          ⟨hfi, hfj', (update_of_ne hik _ _).symm.trans hfk'⟩, rfl⟩
      · right
        have hi' : update (update d.free i false) j false i = false := by
          rw [update_of_ne hij.symm, update_self]
        have hj' : update (update (update d.free i false) j false) i true
            j = false := by
          rw [update_of_ne hij, update_self]
        rw [e3]
        dsimp only
        rw [freeDesc_ok hi hi', Except.bind, freeDesc_ok hj hj']
        refine ⟨⟨i, j, fun x hx hfx => ?_⟩, true, _, rfl, ⟨?_, fun x hx => ?_⟩⟩
        · by_cases hxi : x = i
          · exact Or.inl hxi
          · exact Or.inr (eq_of_none_free hnone hx ((update_of_ne hxi _ _).trans hfx))
        · have h1 : update (update (update d.free i false) j false) i
              true = update d.free j false := by
            rw [Function.update_comm hij, update_update_eq_self hfi]
          show update (update (update (update d.free i false) j
            false) i true) j true = d.free
          rw [h1, update_update_eq_self hfj']
        · exact (update_of_ne (ne_of_free hx hfj') _ _).trans
            (update_of_ne (ne_of_free hx hfi) _ _)
    · right
      rw [e2]
      dsimp only
      rw [freeDesc_ok hi (update_self _ _ _)]
      refine ⟨⟨i, i, fun x hx hfx => ?_⟩, true, _, rfl, ⟨update_update_eq_self hfi, fun x hx => ?_⟩⟩
      · exact Or.inl (eq_of_none_free hnone hx hfx)
      · exact update_of_ne (ne_of_free hx hfi) _ _
  · rw [e1]
    refine Or.inr ⟨⟨0, 0, fun x hx hfx => ?_⟩, false, d, rfl, ⟨rfl, fun _ _ => rfl⟩⟩
    exact absurd ((hnone x hx).symm.trans hfx) Bool.false_ne_true

/-- Three entries are set to one value. -/
theorem update_three {α : Type} (f : ℕ → α) (i j k : ℕ) (v : α) (x : ℕ) :
    update (update (update f i v) j v) k v x =
      if x = i ∨ x = j ∨ x = k then v else f x := by
  simp only [Function.update_apply]
  grind

/-- A chain for a transfer of buffer `b`. -/
structure Chain (d : Descs κ) (b : κ) (write : Bool) (i j k : ℕ) : Prop where
  first : d.desc i = ⟨.op i, 16, fNext, j⟩
  second : d.desc j = ⟨.data b, bsize, (if write then 0 else fWrite) ||| fNext, k⟩
  third : d.desc k = ⟨.status i, 1, fWrite, 0⟩

theorem chain_format {b : κ} {j k : ℕ} (hji : j ≠ i) (hki : k ≠ i) (hkj : k ≠ j) :
    Chain (d.format b w i j k) b w i j k where
  first := (update_of_ne hki.symm _ _).trans
    ((update_of_ne hji.symm _ _).trans (update_self _ _ _))
  second := (update_of_ne hkj.symm _ _).trans (update_self _ _ _)
  third := update_self _ _ _

theorem Chain.congr {d d' : Descs κ} {b : κ} {j k : ℕ} (h : Chain d b write i j k)
    (hi : d'.desc i = d.desc i) (hj : d'.desc j = d.desc j) (hk : d'.desc k = d.desc k) :
    Chain d' b write i j k :=
  ⟨hi.trans h.first, hj.trans h.second, hk.trans h.third⟩

/-- One iteration of `free_chain`. -/
theorem freeChain_succ {fuel : ℕ} {x : Desc κ} (hi : i < num) (hf : d.free i = false)
    (hx : d.desc i = x) :
    d.freeChain (fuel + 1) i =
      if x.flags &&& fNext ≠ 0 then
        Descs.freeChain fuel x.next
          ⟨update d.free i true, update d.desc i Desc.clear⟩
      else .ok ⟨update d.free i true, update d.desc i Desc.clear⟩ := by
  rw [Descs.freeChain, hx, freeDesc_ok hi hf]
  rfl

/-- **`free_chain`** frees the three descriptors of a chain. -/
theorem freeChain_ok {b : κ} {j k : ℕ} (h : Chain d b write i j k)
    (hlt : i < num ∧ j < num ∧ k < num) (hne : j ≠ i ∧ k ≠ i ∧ k ≠ j)
    (hf : d.free i = false ∧ d.free j = false ∧ d.free k = false) :
    d.freeChain (num + 1) i = .ok
      ⟨update (update (update d.free i true) j true) k true,
        update (update (update d.desc i Desc.clear) j Desc.clear)
          k Desc.clear⟩ := by
  obtain ⟨hji, hki, hkj⟩ := hne
  have hflag : ((if write then 0 else fWrite) ||| fNext) &&& fNext ≠ 0 := by
    cases write <;> decide
  rw [freeChain_succ hlt.1 hf.1 h.first, if_pos (show fNext &&& fNext ≠ 0 by decide)]
  have hj : update d.free i true j = false := (update_of_ne hji _ _).trans hf.2.1
  have hdj := (update_of_ne hji Desc.clear d.desc).trans h.second
  rw [show num = 7 + 1 from rfl, freeChain_succ hlt.2.1 hj hdj, if_pos hflag]
  have hk : update (update d.free i true) j true k = false :=
    (update_of_ne hkj _ _).trans ((update_of_ne hki _ _).trans hf.2.2)
  have hdk := (update_of_ne hkj Desc.clear (update d.desc i Desc.clear)).trans
    ((update_of_ne hki Desc.clear d.desc).trans h.third)
  rw [freeChain_succ hlt.2.2 hk hdk, if_neg (show ¬ fWrite &&& fNext ≠ 0 by decide)]

end Descs

/-! ### Rings -/

namespace Rings

/-- The chains that the device has not fetched. -/
def submitted (q : Rings) : List ℕ :=
  RingBuffer.contents num words q.availRing q.fetchedIdx q.availIdx

/-- The chains that the handler has not seen. -/
def finished (q : Rings) : List ℕ :=
  RingBuffer.contents num words q.usedRing q.seenIdx q.usedIdx

/-- All chains between the driver and the handler. -/
def flight (q : Rings) : List ℕ := q.submitted ++ (q.pending ++ q.finished)

/-- The counters are 16-bit words. -/
structure Bounded (q : Rings) : Prop where
  avail : q.availIdx < words
  fetched : q.fetchedIdx < words
  used : q.usedIdx < words
  seen : q.seenIdx < words

variable {q : Rings}

theorem words_pos : 0 < words := by decide

theorem num_dvd_words : num ∣ words := by decide

theorem offer_submitted (hb : q.Bounded) (hlt : q.submitted.length < num) (i : ℕ) :
    (q.offer i).submitted = q.submitted ++ [i] :=
  RingBuffer.contents_push num_dvd_words hb.fetched hb.avail (by decide)
    (by rwa [submitted, RingBuffer.length_contents] at hlt) i

theorem offer_bounded (hb : q.Bounded) (i : ℕ) : (q.offer i).Bounded :=
  ⟨Nat.mod_lt _ words_pos, hb.fetched, hb.used, hb.seen⟩

/-- The device fetches the oldest chain. -/
theorem fetch_cases (hb : q.Bounded) :
    (q.submitted = [] ∧ q.fetch = none) ∨
    ∃ h q', q.fetch = some q' ∧ q.submitted = h :: q'.submitted ∧ q'.pending = q.pending ++ [h] ∧
      q'.finished = q.finished ∧ q'.Bounded := by
  unfold fetch
  by_cases he : q.fetchedIdx = q.availIdx
  · rw [if_neg (not_not.mpr he)]
    exact Or.inl ⟨(RingBuffer.contents_eq_nil hb.fetched hb.avail).mpr he, rfl⟩
  · rw [if_pos he]
    exact Or.inr ⟨_, _, rfl, RingBuffer.contents_pop num_dvd_words hb.fetched hb.avail he, rfl, rfl,
      ⟨hb.avail, Nat.mod_lt _ words_pos, hb.used, hb.seen⟩⟩

theorem finish_finished (hb : q.Bounded) (hlt : q.finished.length < num) (h : ℕ) :
    (q.finish h).finished = q.finished ++ [h] :=
  RingBuffer.contents_push num_dvd_words hb.seen hb.used (by decide)
    (by rwa [finished, RingBuffer.length_contents] at hlt) h

theorem finish_bounded (hb : q.Bounded) (h : ℕ) : (q.finish h).Bounded :=
  ⟨hb.avail, hb.fetched, Nat.mod_lt _ words_pos, hb.seen⟩

/-- The handler sees the oldest one. -/
theorem see_cases (hb : q.Bounded) :
    (q.finished = [] ∧ q.see = none) ∨
    ∃ h q', q.see = some (h, q') ∧ q.finished = h :: q'.finished ∧ q'.pending = q.pending ∧
      q'.submitted = q.submitted ∧ q'.Bounded := by
  unfold see
  by_cases he : q.seenIdx = q.usedIdx
  · rw [if_neg (not_not.mpr he)]
    exact Or.inl ⟨(RingBuffer.contents_eq_nil hb.seen hb.used).mpr he, rfl⟩
  · rw [if_pos he]
    exact Or.inr ⟨_, _, rfl, RingBuffer.contents_pop num_dvd_words hb.seen hb.used he, rfl, rfl,
      ⟨hb.avail, hb.fetched, hb.used, Nat.mod_lt _ words_pos⟩⟩

/-! Each of these moves a chain along. -/

theorem offer_flight (hb : q.Bounded) (hlt : q.submitted.length < num) (i : ℕ) :
    ((q.offer i).flight).Perm (i :: q.flight) := by
  rw [flight, offer_submitted hb hlt, List.append_assoc]
  exact List.perm_middle

theorem fetch_flight {h : ℕ} (hs : q.submitted = h :: q'.submitted)
    (hp : q'.pending = q.pending ++ [h]) (hf : q'.finished = q.finished) :
    (q'.flight).Perm q.flight := by
  rw [flight, flight, hs, hp, hf, List.append_assoc, List.cons_append]
  refine (List.Perm.append_left _ List.perm_middle).trans List.perm_middle

theorem finish_flight {h : ℕ} (hb : q.Bounded) (hlt : q.finished.length < num)
    (hmem : h ∈ q.pending) : ((q.finish h).flight).Perm q.flight := by
  have hfin := finish_finished hb hlt h
  rw [flight, hfin, flight]
  refine List.Perm.append_left _ ?_
  have h1 : (q.pending.erase h ++ (q.finished ++ [h])).Perm
      (h :: (q.pending.erase h ++ q.finished)) := by
    rw [← List.append_assoc]
    exact List.perm_append_singleton _ _
  exact h1.trans ((List.perm_cons_erase hmem).symm.append_right _)

theorem see_flight {h : ℕ} (hf : q.finished = h :: q'.finished) (hp : q'.pending = q.pending)
    (hs : q'.submitted = q.submitted) : (q.flight).Perm (h :: q'.flight) := by
  rw [flight, flight, hf, hp, hs, ← List.append_assoc, ← List.append_assoc]
  exact List.perm_middle

end Rings

/-! ### Who holds which descriptor -/

/-- A call that waits for the device. -/
structure Job (κ : Type) where
  b : κ
  blockno : ℕ
  write : Bool
  /-- `idx[0]` -/
  i : ℕ

/-- The request that a process waits for. -/
def Pc.job {κ : Type} : Pc κ → Option (Job κ)
  | .waitIo b n w i _ => some ⟨b, n, w, i⟩
  | _ => none

theorem Pc.buf_of_job {κ : Type} {p : Pc κ} {c : Job κ} (h : p.job = some c) :
    p.buf = some c.b := by
  cases p with
  | idle => cases h
  | wantDesc => cases h
  | waitIo b n w i woken =>
    obtain rfl := Option.some.inj h
    rfl

section Owned

variable {ι κ : Type} {d d' : Descs κ} {job job' : ι → Option (Job κ)}

/-- The second descriptor of a chain. -/
def Descs.snd (d : Descs κ) (i : ℕ) : ℕ := (d.desc i).next

/-- The third descriptor of a chain. -/
def Descs.thd (d : Descs κ) (i : ℕ) : ℕ := (d.desc (d.snd i)).next

/-- The descriptors of a chain. -/
def Descs.Cells (d : Descs κ) (i x : ℕ) : Prop := x = i ∨ x = d.snd i ∨ x = d.thd i

/-- The chain of a request is as the driver formatted it. -/
structure Linked (d : Descs κ) (c : Job κ) : Prop where
  distinct : d.snd c.i ≠ c.i ∧ d.thd c.i ≠ c.i ∧ d.thd c.i ≠ d.snd c.i
  chain : Chain d c.b c.write c.i (d.snd c.i) (d.thd c.i)

theorem Chain.snd_eq {b : κ} {j k : ℕ} (h : Chain d b w i j k) : d.snd i = j :=
  congrArg Desc.next h.first

theorem Chain.thd_eq {b : κ} {j k : ℕ} (h : Chain d b w i j k) : d.thd i = k := by
  rw [Descs.thd, h.snd_eq]
  exact congrArg Desc.next h.second

theorem Chain.linked {b : κ} {j k : ℕ} (h : Chain d b w i j k) (hne : j ≠ i ∧ k ≠ i ∧ k ≠ j) :
    Linked d ⟨b, n, w, i⟩ := by
  constructor
  · show d.snd i ≠ i ∧ d.thd i ≠ i ∧ d.thd i ≠ d.snd i
    rw [h.snd_eq, h.thd_eq]
    exact hne
  · show Chain d b w i (d.snd i) (d.thd i)
    rw [h.snd_eq, h.thd_eq]
    exact h

/-- A chain depends on its own descriptors only. -/
theorem Linked.congr {c : Job κ} (h : Linked d c) (hd : ∀ x, d.Cells c.i x → d'.desc x = d.desc x) :
    Linked d' c ∧ ∀ x, d'.Cells c.i x ↔ d.Cells c.i x := by
  have hc : Chain d' c.b c.write c.i (d.snd c.i) (d.thd c.i) :=
    h.chain.congr (hd _ (Or.inl rfl)) (hd _ (Or.inr (Or.inl rfl))) (hd _ (Or.inr (Or.inr rfl)))
  refine ⟨hc.linked (n := c.blockno) h.distinct, fun x => ?_⟩
  rw [Descs.Cells, hc.snd_eq, hc.thd_eq, Descs.Cells]

/-- Descriptor `x` is in the chain of process `u`. -/
def Held (d : Descs κ) (job : ι → Option (Job κ)) (u : ι) (x : ℕ) : Prop :=
  ∃ c, job u = some c ∧ d.Cells c.i x

/-- The descriptors that are not free are those of the chains, which do not overlap. -/
structure Owned (d : Descs κ) (job : ι → Option (Job κ)) : Prop where
  exact : Owners.Exact (fun x => x < num ∧ d.free x = false) (fun _ => False) (Held d job)
  linked : ∀ u c, job u = some c → Linked d c

theorem Owned.cell (h : Owned d job) {u : ι} {c : Job κ} (hu : job u = some c)
    (hx : d.Cells c.i x) : x < num ∧ d.free x = false :=
  h.exact.used_of_holds ⟨c, hu, hx⟩

/-- No two requests begin at the same descriptor. -/
theorem Owned.head_inj (h : Owned d job) {u v : ι} {c c' : Job κ} (hu : job u = some c)
    (hv : job v = some c') (he : c.i = c'.i) : u = v :=
  h.exact.inj (b := c.i) ⟨c, hu, Or.inl rfl⟩ ⟨c', hv, Or.inl he⟩

/-- Changes outside of the chains. -/
theorem Owned.failed (h : Owned d job) (hf : Failed d d') : Owned d' job := by
  have hcongr : ∀ u c, job u = some c → Linked d' c ∧ ∀ x, d'.Cells c.i x ↔ d.Cells c.i x :=
    fun u c hu => (h.linked u c hu).congr fun x hx => hf.desc x (h.cell hu hx).2
  have hheld : Held d' job = Held d job := by
    funext u x
    exact propext (exists_congr fun c => and_congr_right fun hu => (hcongr u c hu).2 x)
  refine ⟨?_, fun u c hu => (hcongr u c hu).1⟩
  rw [hheld, hf.free]
  exact h.exact

/-- A chain for request `c` was made out of free descriptors. -/
structure Taken (d d' : Descs κ) (c : Job κ) : Prop where
  linked : Linked d' c
  lt : ∀ x, d'.Cells c.i x → x < num
  free : ∀ x, d'.Cells c.i x → d.free x = true
  free_iff : ∀ x, d'.free x = false ↔ d.free x = false ∨ d'.Cells c.i x
  desc : ∀ x, d.free x = false → d'.desc x = d.desc x

variable [DecidableEq ι]

theorem update_eq_some {α : Type} {job : ι → Option α} {u v : ι} {o : Option α} {e : α} :
    update job u o v = some e ↔ (v = u ∧ o = some e) ∨ (v ≠ u ∧ job v = some e) := by
  by_cases hv : v = u
  · rw [hv, update_self]
    simp
  · rw [update_of_ne hv]
    simp [hv]

/-- What another place has is still there. -/
theorem update_of_eq_none {α : Type} {job : ι → Option α} {u v : ι} {e : α} (hu : job u = none)
    (hv : job v = some e) (o : Option α) : update job u o v = some e := by
  refine update_eq_some.mpr (Or.inr ⟨?_, hv⟩)
  rintro rfl
  rw [hu] at hv
  cases hv

/-- A new chain out of free descriptors. -/
theorem Owned.start (h : Owned d job) {u : ι} (hu : job u = none) {c : Job κ} (ht : Taken d d' c) :
    Owned d' (update job u (some c)) := by
  have hold : ∀ v e, job v = some e → Linked d' e ∧ ∀ x, d'.Cells e.i x ↔ d.Cells e.i x :=
    fun v e hv => (h.linked v e hv).congr fun x hx => ht.desc x (h.cell hv hx).2
  constructor
  · refine h.exact.takeAll (k := u) (X := d'.Cells c.i) ?_ ?_ ?_
    · rintro x hx ⟨-, hf⟩
      exact Bool.false_ne_true (hf.symm.trans (ht.free x hx))
    · intro x
      rw [ht.free_iff]
      constructor
      · rintro ⟨hx, hf | hf⟩
        · exact Or.inl ⟨hx, hf⟩
        · exact Or.inr hf
      · rintro (⟨hx, hf⟩ | hf)
        · exact ⟨hx, Or.inl hf⟩
        · exact ⟨ht.lt x hf, Or.inr hf⟩
    · intro v x
      constructor
      · rintro ⟨e, he, hx⟩
        rcases update_eq_some.mp he with ⟨rfl, hc⟩ | ⟨-, he⟩
        · obtain rfl := Option.some.inj hc
          exact Or.inr ⟨rfl, hx⟩
        · exact Or.inl ⟨e, he, ((hold v e he).2 x).mp hx⟩
      · rintro (⟨e, he, hx⟩ | ⟨rfl, hx⟩)
        · exact ⟨e, update_of_eq_none hu he _, ((hold v e he).2 x).mpr hx⟩
        · exact ⟨c, update_self _ _ _, hx⟩
  · intro v e he
    rcases update_eq_some.mp he with ⟨rfl, hc⟩ | ⟨-, he⟩
    · obtain rfl := Option.some.inj hc
      exact ht.linked
    · exact (hold v e he).1

/-- A chain is freed. -/
theorem Owned.finish (h : Owned d job) {u : ι} {c : Job κ} (hu : job u = some c)
    (hfree : ∀ x, d'.free x = false ↔ d.free x = false ∧ ¬ d.Cells c.i x)
    (hdesc : ∀ x, ¬ d.Cells c.i x → d'.desc x = d.desc x) : Owned d' (update job u none) := by
  have hold : ∀ v e, v ≠ u → job v = some e →
      Linked d' e ∧ ∀ x, d'.Cells e.i x ↔ d.Cells e.i x := by
    intro v e hv he
    refine (h.linked v e he).congr fun x hx => hdesc x fun hx' => hv ?_
    exact h.exact.inj ⟨e, he, hx⟩ ⟨c, hu, hx'⟩
  constructor
  · refine h.exact.release (· = u) (fun x => ?_) fun v x => ?_
    · rw [hfree, ← and_assoc]
      refine and_congr_right fun _ => not_congr ?_
      constructor
      · intro hx
        exact ⟨u, rfl, c, hu, hx⟩
      · rintro ⟨v, rfl, e, he, hx⟩
        obtain rfl := Option.some.inj (hu.symm.trans he)
        exact hx
    · by_cases hv : v = u
      · subst hv
        refine iff_of_false ?_ fun hx => hx.2 rfl
        rintro ⟨e, he, -⟩
        rw [update_self] at he
        cases he
      · rw [Held, update_of_ne hv, Held, and_iff_left hv]
        exact exists_congr fun e => and_congr_right fun he => (hold v e hv he).2 x
  · intro v e he
    rcases update_eq_some.mp he with ⟨-, he⟩ | ⟨hv, he⟩
    · cases he
    · exact (hold v e hv he).1

end Owned

/-! ### Requests on their way -/

section Busy

variable {ι κ : Type} {q : Rings} {job : ι → Option (Job κ)} {ops : ℕ → Req}
  {info info' : ℕ → Info κ} {disk disk' : κ → Bool}

/-- The chains on their way belong to the calls whose buffers are marked as owned by the disk, each
once. -/
structure Busy (q : Rings) (job : ι → Option (Job κ)) (ops : ℕ → Req) (info : ℕ → Info κ)
    (disk : κ → Bool) : Prop where
  bounded : q.Bounded
  nodup : q.flight.Nodup
  owner : ∀ h ∈ q.flight, ∃ u c, job u = some c ∧ c.i = h
  disk : ∀ u c, job u = some c → (disk c.b = true ↔ c.i ∈ q.flight)
  status : ∀ h ∈ q.finished, (info h).status = 0
  info : ∀ u c, job u = some c → (info c.i).b = some c.b
  op : ∀ u c, job u = some c → ops c.i = ⟨c.write, 2 * c.blockno⟩

/-- Numbers below `n` without repetition. -/
theorem length_le_of_nodup {l : List ℕ} (hnd : l.Nodup) (hlt : ∀ x ∈ l, x < n) : l.length ≤ n := by
  have hsub : l ⊆ List.range n := fun x hx => List.mem_range.mpr (hlt x hx)
  have hle := (List.subperm_of_subset hnd hsub).length_le
  rwa [List.length_range] at hle

theorem Busy.lt (h : Busy q job ops info disk) (hlt : ∀ u c, job u = some c → c.i < num)
    (hx : x ∈ q.flight) : x < num := by
  obtain ⟨u, c, hu, rfl⟩ := h.owner x hx
  exact hlt u c hu

/-- The descriptor of no call is not on its way. -/
theorem Busy.not_mem (h : Busy q job ops info disk) (hne : ∀ u c, job u = some c → c.i ≠ x) :
    x ∉ q.flight := by
  intro hx
  obtain ⟨u, c, hu, he⟩ := h.owner x hx
  exact hne u c hu he

/-- There is room in the avail ring for a new chain. -/
theorem Busy.submitted_lt (h : Busy q job ops info disk) (hlt : ∀ u c, job u = some c → c.i < num)
    (hx : x < num) (hne : ∀ u c, job u = some c → c.i ≠ x) : q.submitted.length < num := by
  have hnd : (x :: q.flight).Nodup := List.nodup_cons.mpr ⟨h.not_mem hne, h.nodup⟩
  have hle := length_le_of_nodup (n := num) hnd fun y hy => by
    rcases List.mem_cons.mp hy with rfl | hy
    · exact hx
    · exact h.lt hlt hy
  rw [Rings.flight, List.length_cons, List.length_append] at hle
  omega

/-- There is room in the used ring for a chain that the device holds. -/
theorem Busy.finished_lt (h : Busy q job ops info disk) (hlt : ∀ u c, job u = some c → c.i < num)
    (hx : x ∈ q.pending) : q.finished.length < num := by
  have hsub : ∀ y ∈ x :: q.finished, y ∈ q.pending ++ q.finished := by
    intro y hy
    rcases List.mem_cons.mp hy with rfl | hy
    · exact List.mem_append_left _ hx
    · exact List.mem_append_right _ hy
  have hnd := (List.nodup_append.mp h.nodup).2.1
  obtain ⟨-, hfin, hdis⟩ := List.nodup_append.mp hnd
  have hnd' : (x :: q.finished).Nodup :=
    List.nodup_cons.mpr ⟨fun hmem => hdis x hx x hmem rfl, hfin⟩
  exact length_le_of_nodup hnd' fun y hy => h.lt hlt (List.mem_append_right _ (hsub y hy))

/-- The entries of the chains that are done. -/
theorem Busy.status_update (h : Busy q job ops info disk) (hx : x ∉ q.flight) (e : Info κ) :
    ∀ y ∈ q.finished, (update info x e y).status = 0 := by
  intro y hy
  have hyf : y ∈ q.flight := List.mem_append_right _ (List.mem_append_right _ hy)
  rw [update_of_ne (ne_of_mem_of_not_mem hyf hx)]
  exact h.status y hy

theorem Busy.fetch (h : Busy q job ops info disk) (hperm : (q'.flight).Perm q.flight)
    (hb : q'.Bounded) (hf : q'.finished = q.finished) : Busy q' job ops info disk where
  bounded := hb
  nodup := hperm.nodup_iff.mpr h.nodup
  owner := fun x hx => h.owner x (hperm.mem_iff.mp hx)
  disk := fun u c hu => (h.disk u c hu).trans hperm.mem_iff.symm
  status := by
    rw [hf]
    exact h.status
  info := h.info
  op := h.op

/-- The device performs a request. -/
theorem Busy.finish (h : Busy q job ops info disk) (hlt : ∀ v e, job v = some e → e.i < num)
    (hx : x ∈ q.pending) :
    Busy (q.finish x) job ops (update info x { info x with status := 0 }) disk := by
  have hroom := h.finished_lt hlt hx
  have hperm := Rings.finish_flight h.bounded hroom hx
  constructor
  · exact Rings.finish_bounded h.bounded _
  · exact hperm.nodup_iff.mpr h.nodup
  · exact fun y hy => h.owner y (hperm.mem_iff.mp hy)
  · exact fun v e he => (h.disk v e he).trans hperm.mem_iff.symm
  · intro y hy
    rw [Rings.finish_finished h.bounded hroom] at hy
    by_cases hyx : y = x
    · rw [hyx, update_self]
    · rw [update_of_ne hyx]
      rcases List.mem_append.mp hy with hy | hy
      · exact h.status y hy
      · exact absurd (List.mem_singleton.mp hy) hyx
  · intro v e he
    by_cases hex : e.i = x
    · rw [hex, update_self, ← hex]
      exact h.info v e he
    · rw [update_of_ne hex]
      exact h.info v e he
  · exact h.op

/-- The handler reports that the request of `u` is done. -/
theorem Busy.see (h : Busy q job ops info disk) {u : ι} {c : Job κ} (hu : job u = some c)
    (hinj : ∀ v e, job v = some e → e.i = c.i ∨ e.b = c.b → v = u)
    (hperm : (q.flight).Perm (c.i :: q'.flight)) (hb : q'.Bounded)
    (hf : q.finished = c.i :: q'.finished) (hdisk : disk' c.b = false)
    (hdisk' : ∀ b, b ≠ c.b → disk' b = disk b) : Busy q' job ops info disk' := by
  have hnd := List.nodup_cons.mp (hperm.nodup_iff.mp h.nodup)
  have hmem : ∀ x, x ∈ q.flight ↔ x = c.i ∨ x ∈ q'.flight := fun x => by
    rw [hperm.mem_iff, List.mem_cons]
  constructor
  · exact hb
  · exact hnd.2
  · exact fun x hx => h.owner x ((hmem x).mpr (Or.inr hx))
  · intro v e he
    by_cases hv : v = u
    · subst hv
      obtain rfl := Option.some.inj (hu.symm.trans he)
      rw [hdisk]
      exact iff_of_false Bool.false_ne_true hnd.1
    · have hne := not_or.mp fun h' => hv (hinj v e he h')
      rw [hdisk' _ hne.2, h.disk v e he, hmem, or_iff_right hne.1]
  · intro x hx
    exact h.status x (by rw [hf]; exact List.mem_cons_of_mem _ hx)
  · exact h.info
  · exact h.op

variable [DecidableEq ι]

/-- A call gives a new chain to the device. -/
theorem Busy.offer (h : Busy q job ops info disk) {u : ι} {c : Job κ}
    (hlt : ∀ v e, job v = some e → e.i < num) (hi : c.i < num)
    (hu : job u = none) (hne : ∀ v e, job v = some e → e.i ≠ c.i ∧ e.b ≠ c.b)
    (hdisk : disk' c.b = true) (hdisk' : ∀ b, b ≠ c.b → disk' b = disk b) :
    Busy (q.offer c.i) (update job u (some c))
      (update ops c.i ⟨c.write, 2 * c.blockno⟩)
      (update info c.i ⟨some c.b, 0xff⟩) disk' := by
  have hnot := h.not_mem fun v e hv => (hne v e hv).1
  have hroom := h.submitted_lt hlt hi fun v e hv => (hne v e hv).1
  have hperm := Rings.offer_flight h.bounded hroom c.i
  have hmem : ∀ x, x ∈ (q.offer c.i).flight ↔ x = c.i ∨ x ∈ q.flight := fun x => by
    rw [hperm.mem_iff, List.mem_cons]
  constructor
  · exact Rings.offer_bounded h.bounded _
  · exact hperm.nodup_iff.mpr (List.nodup_cons.mpr ⟨hnot, h.nodup⟩)
  · intro x hx
    rcases (hmem x).mp hx with rfl | hx
    · exact ⟨u, c, update_self _ _ _, rfl⟩
    · obtain ⟨v, e, hv, rfl⟩ := h.owner x hx
      exact ⟨v, e, update_of_eq_none hu hv _, rfl⟩
  · intro v e he
    rw [hmem]
    rcases update_eq_some.mp he with ⟨rfl, hc⟩ | ⟨-, hv⟩
    · obtain rfl := Option.some.inj hc
      exact iff_of_true hdisk (Or.inl rfl)
    · rw [hdisk' _ (hne v e hv).2, h.disk v e hv, or_iff_right (hne v e hv).1]
  · exact h.status_update hnot _
  · intro v e he
    rcases update_eq_some.mp he with ⟨rfl, hc⟩ | ⟨-, hv⟩
    · obtain rfl := Option.some.inj hc
      rw [update_self]
    · rw [update_of_ne (hne v e hv).1, h.info v e hv]
  · intro v e he
    rcases update_eq_some.mp he with ⟨rfl, hc⟩ | ⟨-, hv⟩
    · obtain rfl := Option.some.inj hc
      rw [update_self]
    · rw [update_of_ne (hne v e hv).1, h.op v e hv]

/-- A call whose request is done returns. -/
theorem Busy.leave (h : Busy q job ops info disk) {u : ι} {c : Job κ} (hu : job u = some c)
    (hnot : c.i ∉ q.flight) (hinj : ∀ v e, job v = some e → e.i = c.i → v = u) :
    Busy q (update job u none) ops
      (update info c.i { info c.i with b := none }) disk := by
  have hother : ∀ v e, update job u none v = some e → v ≠ u ∧ job v = some e := by
    intro v e he
    rcases update_eq_some.mp he with ⟨-, he⟩ | hv
    · cases he
    · exact hv
  constructor
  · exact h.bounded
  · exact h.nodup
  · intro x hx
    obtain ⟨v, e, hv, rfl⟩ := h.owner x hx
    refine ⟨v, e, update_eq_some.mpr (Or.inr ⟨?_, hv⟩), rfl⟩
    rintro rfl
    obtain rfl := Option.some.inj (hu.symm.trans hv)
    exact hnot hx
  · exact fun v e he => h.disk v e (hother v e he).2
  · exact h.status_update hnot _
  · intro v e he
    obtain ⟨hv, he⟩ := hother v e he
    rw [update_of_ne fun hei => hv (hinj v e he hei)]
    exact h.info v e he
  · exact fun v e he => h.op v e (hother v e he).2

end Busy

end Virtio

end Xv6
