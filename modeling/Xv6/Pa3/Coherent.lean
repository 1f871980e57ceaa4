import Xv6.Lib.WeakestPre
import Xv6.Mem.Invariant
import Xv6.Pa3.FrameTable

/-!
# Where a page is

A page of a process is nowhere, in memory, or in a slot of the swap area (`Place`). `vmfault` and
`uvmunmap` read that off its page-table entry (`Place.ofPte`). What they write is read back as it
was meant, with one exception: the entry of slot `0` is zero, and is read as nowhere
(`ofPte_slotPte`). The flags of a page in memory can be any.

The invariant `Inv top place f s` says that the entries of `s` give `place`, that pages and slots
have one owner each, that the frame table names pages that are in memory where it says, each of them
once, and that the contents of the places are the abstract memory `f`. Paging moves the places and
leaves `f` alone. The exception is a page that is evicted into slot `0`: its place becomes nowhere,
and it is *lost*. That happens to one page at most, as slot `0` never becomes free again.
-/

namespace Xv6

namespace Pa3

open WeakestPre
open Mem (Pte Page Halt pteV pteR pteW pteU has pa2pte pte2pa mapPte swapIdx Valid Managed)

/-! ### Places and entries -/

/-- Where a page is. -/
inductive Place where
  | absent
  | page (a : ℕ)
  | slot (n : ℕ)
  deriving DecidableEq

/-- The place that an entry gives, by the tests of `vmfault`. -/
def Place.ofPte (pte : Pte) : Place :=
  if has pte pteV then .page (pte2pa pte)
  else if pte = 0#64 then .absent
  else .slot (swapIdx pte).toNat

/-- The entry of a user page. -/
def userPte (a : ℕ) : Pte := mapPte a (pteW ||| pteU ||| pteR)

/-- Where the page goes that is given slot `n`. -/
def evictedTo (n : ℕ) : Place := if n = 0 then .absent else .slot n

/-- The page at a place. -/
def Place.contents (mem : ℕ → Page) (swapSpace : ℤ → Page) : Place → Page
  | .absent => Page.zero
  | .page a => mem a
  | .slot n => swapSpace n

/-- What a page holds, in memory or in the swap area. -/
def Kernel.value (s : Kernel) (p v : ℕ) : Page :=
  (Place.ofPte (s.entry p v)).contents s.mem s.swapSpace

/-- The byte at a virtual address. -/
def Kernel.byte (s : Kernel) (p va : ℕ) : BitVec 8 :=
  (s.value p (va / pgsize)).getByte (va % pgsize)

section

variable {kend a n : ℕ} {pte perm : Pte}

theorem ofPte_eq_page : Place.ofPte pte = .page a ↔ has pte pteV = true ∧ pte2pa pte = a := by
  rw [Place.ofPte]
  split_ifs with hv h0 <;> simp [hv]

theorem ofPte_eq_absent : Place.ofPte pte = .absent ↔ pte = 0#64 := by
  rw [Place.ofPte]
  split_ifs with hv h0
  · refine iff_of_false (by simp) ?_
    rintro rfl
    exact absurd hv (by decide)
  · exact iff_of_true rfl h0
  · exact iff_of_false (by simp) h0

theorem ofPte_eq_slot : Place.ofPte pte = .slot n ↔
    has pte pteV = false ∧ pte ≠ 0#64 ∧ (swapIdx pte).toNat = n := by
  rw [Place.ofPte]
  split_ifs with hv h0 <;> simp_all

/-- The entry of `mappages`. -/
theorem ofPte_mapPte (ha : Managed kend a) (hperm : perm.toNat < 1024) :
    Place.ofPte (mapPte a perm) = .page a := by
  obtain ⟨h0, -, h2⟩ := ha
  simp only [phystop_eq] at h2
  refine ofPte_eq_page.mpr ⟨Mem.valid_iff.mpr (Mem.valid_mapPte a perm), ?_⟩
  rw [Mem.mapPte_eq]
  exact Mem.pte2pa_or h0 (by omega) (Mem.toNat_or_lt hperm (by decide))

theorem ofPte_userPte (ha : Managed kend a) : Place.ofPte (userPte a) = .page a :=
  ofPte_mapPte ha (by decide)

/-- **The entry of a slot** is read back, but for slot `0`. -/
theorem ofPte_slotPte : ∀ n < maxSwap, Place.ofPte (slotPte n) = evictedTo n := by
  decide +kernel

theorem evictedTo_eq_slot {m : ℕ} (h : evictedTo n = .slot m) : m = n ∧ 0 < n := by
  rw [evictedTo] at h
  split at h
  · cases h
  · rename_i h0
    exact ⟨(Place.slot.inj h).symm, Nat.pos_of_ne_zero h0⟩

theorem evictedTo_ne_page (n a : ℕ) : evictedTo n ≠ .page a := by
  rw [evictedTo]
  split <;> simp

theorem userMay_userPte {need : Pte} (hneed : need = pteR ∨ need = pteW) (a : ℕ) :
    userMay need (userPte a) = true := by
  have hbit : ∀ i, i < 10 → i ≠ 0 → (userPte a).getLsbD i = (pteW ||| pteU ||| pteR).getLsbD i :=
    fun i hi h0 => Mem.getLsbD_mapPte hi h0
  have h0 : (userPte a).getLsbD 0 = true := Mem.valid_mapPte _ _
  rcases hneed with rfl | rfl
  · simp only [userMay, Mem.has_pteV, Mem.has_pteU, Mem.has_pteR, hbit 4 (by omega) (by omega),
      hbit 1 (by omega) (by omega), h0]
    decide
  · simp only [userMay, Mem.has_pteV, Mem.has_pteU, Mem.has_pteW, hbit 4 (by omega) (by omega),
      hbit 2 (by omega) (by omega), h0]
    decide

/-- A page that comes back from the swap area gets the entry of a new one. -/
theorem swapInPte_eq (a : ℕ) : pa2pte a ||| pteR ||| pteW ||| pteU ||| pteV = userPte a := by
  rw [userPte, mapPte, BitVec.or_assoc (pa2pte a ||| pteR ||| pteW),
    BitVec.or_assoc (pa2pte a ||| pteR), BitVec.or_assoc (pa2pte a), BitVec.or_assoc (pa2pte a)]
  congr 1

end

/-! ### The invariant -/

/-- The page was evicted into slot `0`. -/
def Lost (s : Kernel) (p v : ℕ) : Prop :=
  ∃ e ∈ s.evictions, e.slot = 0 ∧ e.p = p ∧ e.va = v * pgsize

/-- Moving one page. -/
def setPlace (place : ℕ → ℕ → Place) (p v : ℕ) (x : Place) : ℕ → ℕ → Place :=
  fun p' v' => if p' = p ∧ v' = v then x else place p' v'

/-- **The invariant.** -/
structure Inv (top : ℕ → ℕ) (place : ℕ → ℕ → Place) (f : ℕ → ℕ → Page) (s : Kernel) : Prop where
  kend : kernbase ≤ s.kend
  nodup : s.freelist.Nodup
  managed : ∀ a ∈ s.freelist, Managed s.kend a
  entry : ∀ p v, Place.ofPte (s.entry p v) = place p v
  /-- A page in memory is not free, and is the page of one entry. -/
  page : ∀ p v a, place p v = .page a → Managed s.kend a ∧ a ∉ s.freelist
  pageInj : ∀ p v p' v' a, place p v = .page a → place p' v' = .page a → p = p' ∧ v = v'
  /-- A slot is in use, is not slot `0`, and is the slot of one entry. -/
  slot : ∀ p v n, place p v = .slot n → 0 < n ∧ n < maxSwap ∧ s.swapUsed n = true
  slotInj : ∀ p v p' v' n, place p v = .slot n → place p' v' = .slot n → p = p' ∧ v = v'
  /-- A frame in use is that of a page in memory, and no other frame is. -/
  frame : ∀ i < maxFrames, (s.frameTable i).inUse = true → ∃ p v, (s.frameTable i).p = some p ∧
    (s.frameTable i).virtualAddr = v * pgsize ∧ place p v = .page (s.frameTable i).physicalAddr
  frameInj : ∀ i < maxFrames, ∀ j < maxFrames, (s.frameTable i).inUse = true →
    (s.frameTable j).inUse = true →
    (s.frameTable i).physicalAddr = (s.frameTable j).physicalAddr → i = j
  count : s.userFrames = inUseCount s.frameTable
  top_le : ∀ p, top p ≤ trapframe
  above : ∀ p v, top p ≤ v * pgsize → place p v = .absent ∧ f p v = Page.zero
  tables : ∀ p v, place p v ≠ .absent → (s.procs p).pagetable.mid (v / 512 / 512) = true ∧
    (s.procs p).pagetable.low (v / 512) = true
  /-- Slot `0` was given away once at most. -/
  lost : ∀ e ∈ s.evictions, e.slot = 0 → s.swapUsed 0 = true
  lostOnce : ∀ p v p' v', Lost s p v → Lost s p' v' → p = p' ∧ v = v'
  contents : ∀ p v, ¬ Lost s p v → (place p v).contents s.mem s.swapSpace = f p v

/-- The page is in nobody's hands. -/
structure Fresh (place : ℕ → ℕ → Place) (s : Kernel) (a : ℕ) : Prop where
  managed : Managed s.kend a
  not_free : a ∉ s.freelist
  unmapped : ∀ p v, place p v ≠ .page a

section

variable {top : ℕ → ℕ} {place : ℕ → ℕ → Place} {f : ℕ → ℕ → Page} {s s' : Kernel} {p v a : ℕ}

/-- The test `*pte & PTE_V`. -/
theorem Inv.has_pteV (h : Inv top place f s) :
    has (s.entry p v) pteV = true ↔ ∃ a, place p v = .page a := by
  simp only [← h.entry, ofPte_eq_page, exists_and_left, exists_eq', and_true]

theorem Inv.not_has_pteV (h : Inv top place f s) (hx : ∀ a, place p v ≠ .page a) :
    has (s.entry p v) pteV = false := by
  rw [← Bool.not_eq_true, h.has_pteV]
  exact not_exists.mpr hx

/-- The test `*pte == 0`. -/
theorem Inv.entry_eq_zero (h : Inv top place f s) : s.entry p v = 0#64 ↔ place p v = .absent := by
  rw [← h.entry, ofPte_eq_absent]

theorem Inv.pte2pa_entry (h : Inv top place f s) (hx : place p v = .page a) :
    pte2pa (s.entry p v) = a := by
  rw [← h.entry] at hx
  exact (ofPte_eq_page.mp hx).2

theorem Inv.swapIdx_entry (h : Inv top place f s) {n : ℕ} (hx : place p v = .slot n) :
    swapIdx (s.entry p v) = n := by
  have hn := (h.slot p v n hx).1
  rw [← h.entry] at hx
  have := (ofPte_eq_slot.mp hx).2.2
  omega

theorem Inv.value_eq (h : Inv top place f s) (p v : ℕ) :
    s.value p v = (place p v).contents s.mem s.swapSpace := by
  rw [Kernel.value, h.entry]

theorem entry_setPte (s : Kernel) (p v : ℕ) (w : Pte) (p' v' : ℕ) :
    (s.setPte p v w).entry p' v' = if p' = p ∧ v' = v then w else s.entry p' v' := by
  by_cases hp : p' = p
  · subst hp
    by_cases hv : v' = v
    · subst hv
      simp [Kernel.entry, Kernel.setPte, Kernel.modProc]
    · simp [Kernel.entry, Kernel.setPte, Kernel.modProc, hv]
  · simp [Kernel.entry, Kernel.setPte, Kernel.modProc, hp]

/-- An entry is written. -/
theorem Inv.ofPte_setPte (h : Inv top place f s) {w : Pte} {x : Place} (hw : Place.ofPte w = x)
    (p' v' : ℕ) : Place.ofPte ((s.setPte p v w).entry p' v') = setPlace place p v x p' v' := by
  rw [entry_setPte, setPlace]
  split
  · exact hw
  · exact h.entry p' v'

/-- What `setPte` leaves alone. -/
theorem setPte_procs (s : Kernel) (p v : ℕ) (w : Pte) (q : ℕ) :
    ((s.setPte p v w).procs q).sz = (s.procs q).sz ∧
      ((s.setPte p v w).procs q).pagetable.mid = (s.procs q).pagetable.mid ∧
      ((s.setPte p v w).procs q).pagetable.low = (s.procs q).pagetable.low := by
  by_cases hq : q = p
  · subst hq
    simp [Kernel.setPte, Kernel.modProc]
  · simp [Kernel.setPte, Kernel.modProc, hq]

/-! ### Pages in nobody's hands -/

/-- The contents of a page in nobody's hands do not matter. -/
theorem Inv.setPage (h : Inv top place f s) (ha : Fresh place s a) (pg : Page) :
    Inv top place f (s.setPage a pg) where
  kend := h.kend
  nodup := h.nodup
  managed := h.managed
  entry := h.entry
  page := h.page
  pageInj := h.pageInj
  slot := h.slot
  slotInj := h.slotInj
  frame := h.frame
  frameInj := h.frameInj
  count := h.count
  top_le := h.top_le
  above := h.above
  tables := h.tables
  lost := h.lost
  lostOnce := h.lostOnce
  contents p v hl := by
    rw [← h.contents p v hl]
    cases hx : place p v with
    | absent => rfl
    | slot n => rfl
    | page b =>
      have hb : b ≠ a := fun he => ha.unmapped p v (he ▸ hx)
      simp [Place.contents, Kernel.setPage, Function.update_of_ne hb]

/-- A page is taken from the free list. -/
theorem Inv.pop (h : Inv top place f s) {rest : List ℕ} (hf : s.freelist = a :: rest) :
    Inv top place f { s with freelist := rest } ∧ Fresh place { s with freelist := rest } a := by
  have hnd := h.nodup
  rw [hf, List.nodup_cons] at hnd
  have hsub : ∀ b ∈ rest, b ∈ s.freelist := fun b hb => hf ▸ List.mem_cons_of_mem a hb
  have ha : a ∈ s.freelist := hf ▸ List.mem_cons_self
  refine ⟨{ h with
    nodup := hnd.2
    managed := fun b hb => h.managed b (hsub b hb)
    page := fun p v b hb => ⟨(h.page p v b hb).1, fun hmem => (h.page p v b hb).2 (hsub b hmem)⟩ },
    h.managed a ha, hnd.1, fun p v hx => (h.page p v a hx).2 ha⟩

/-- A page in nobody's hands is freed. -/
theorem Inv.push (h : Inv top place f s) (ha : Fresh place s a) :
    Inv top place f { s with freelist := a :: s.freelist } :=
  { h with
    nodup := List.nodup_cons.mpr ⟨ha.not_free, h.nodup⟩
    managed := fun b hb => by
      rcases List.mem_cons.mp hb with rfl | hb
      · exact ha.managed
      · exact h.managed b hb
    page := fun p v b hb => ⟨(h.page p v b hb).1, fun hmem => by
      rcases List.mem_cons.mp hmem with rfl | hmem
      · exact ha.unmapped p v hb
      · exact (h.page p v b hb).2 hmem⟩ }

/-! ### Moving a page -/

theorem setPlace_eq {p v p' v' : ℕ} {x y : Place} (h : setPlace place p v x p' v' = y) :
    (p' = p ∧ v' = v ∧ x = y) ∨ (¬ (p' = p ∧ v' = v) ∧ place p' v' = y) := by
  rw [setPlace] at h
  split at h
  · exact Or.inl ⟨‹_ ∧ _›.1, ‹_ ∧ _›.2, h⟩
  · exact Or.inr ⟨‹_›, h⟩

theorem setPlace_of_ne {p v p' v' : ℕ} {x : Place} (h : ¬ (p' = p ∧ v' = v)) :
    setPlace place p v x p' v' = place p' v' := if_neg h

theorem setPlace_self (place : ℕ → ℕ → Place) (p v : ℕ) (x : Place) :
    setPlace place p v x p v = x :=
  if_pos ⟨rfl, rfl⟩

/-- The page is there already. -/
theorem setPlace_of_eq {x : Place} (h : place p v = x) : setPlace place p v x = place := by
  funext q u
  rw [setPlace]
  split
  · rename_i hqu
    rw [hqu.1, hqu.2, h]
  · rfl

theorem setPlace_setPlace (place : ℕ → ℕ → Place) (p v : ℕ) (x y : Place) :
    setPlace (setPlace place p v x) p v y = setPlace place p v y := by
  funext q u
  by_cases hqu : q = p ∧ u = v
  · obtain ⟨rfl, rfl⟩ := hqu
    rw [setPlace_self, setPlace_self]
  · rw [setPlace_of_ne hqu, setPlace_of_ne hqu, setPlace_of_ne hqu]

/-- Page `v` of process `p` moves to the place `x`, or stays there with other contents. -/
structure Move (top : ℕ → ℕ) (place : ℕ → ℕ → Place) (f : ℕ → ℕ → Page) (p v : ℕ) (x : Place)
    (s s' : Kernel) : Prop where
  kend : s'.kend = s.kend
  entry : ∀ p' v', Place.ofPte (s'.entry p' v') = setPlace place p v x p' v'
  tables : ∀ q, (s'.procs q).pagetable.mid = (s.procs q).pagetable.mid ∧
    (s'.procs q).pagetable.low = (s.procs q).pagetable.low
  nodup : s'.freelist.Nodup
  managed : ∀ a ∈ s'.freelist, Managed s.kend a
  /-- The other pages stay where they are. -/
  page : ∀ p' v' a, ¬ (p' = p ∧ v' = v) → place p' v' = .page a →
    a ∉ s'.freelist ∧ s'.mem a = s.mem a ∧ x ≠ .page a
  slot : ∀ p' v' n, ¬ (p' = p ∧ v' = v) → place p' v' = .slot n →
    s'.swapUsed n = true ∧ s'.swapSpace n = s.swapSpace n ∧ x ≠ .slot n
  /-- The new place can be taken. -/
  toPage : ∀ a, x = .page a → Managed s.kend a ∧ a ∉ s'.freelist
  toSlot : ∀ n, x = .slot n → 0 < n ∧ n < maxSwap ∧ s'.swapUsed n = true
  below : top p ≤ v * pgsize → x = .absent ∧ f p v = Page.zero
  inTable : x ≠ .absent → (s.procs p).pagetable.mid (v / 512 / 512) = true ∧
    (s.procs p).pagetable.low (v / 512) = true
  /-- No frame in use is left that was the frame of the page and is not any more. -/
  frame : ∀ i < maxFrames, (s'.frameTable i).inUse = true → s'.frameTable i = s.frameTable i ∧
    (place p v = .page (s.frameTable i).physicalAddr → x = place p v)
  count : s'.userFrames = inUseCount s'.frameTable
  /-- The page is lost if it goes to slot `0`. -/
  zero : s.swapUsed 0 = true → s'.swapUsed 0 = true
  history : ∀ e ∈ s.evictions, e ∈ s'.evictions
  evicted : ∀ e ∈ s'.evictions, e ∉ s.evictions → e.p = p ∧ e.va = v * pgsize ∧
    (e.slot = 0 → s.swapUsed 0 = false ∧ s'.swapUsed 0 = true)
  contents : ¬ Lost s' p v → x.contents s'.mem s'.swapSpace = f p v

theorem Move.lost {x : Place} (hm : Move top place f p v x s s') {p' v' : ℕ} (h : Lost s' p' v') :
    Lost s p' v' ∨ (p' = p ∧ v' = v ∧ s.swapUsed 0 = false) := by
  obtain ⟨e, he, h0, rfl, hva⟩ := h
  by_cases hold : e ∈ s.evictions
  · exact Or.inl ⟨e, hold, h0, rfl, hva⟩
  · obtain ⟨hp, hv, hused⟩ := hm.evicted e he hold
    rw [hva] at hv
    exact Or.inr ⟨hp, Nat.eq_of_mul_eq_mul_right (by simp) hv, (hused h0).1⟩

theorem Inv.swapUsed_of_lost (h : Inv top place f s) (hl : Lost s p v) : s.swapUsed 0 = true := by
  obtain ⟨e, he, h0, -⟩ := hl
  exact h.lost e he h0

/-- **A page moves**, or gets other contents. -/
theorem Inv.move (h : Inv top place f s) {f' : ℕ → ℕ → Page} {x : Place}
    (hm : Move top place f' p v x s s') (hf : ∀ p' v', ¬ (p' = p ∧ v' = v) → f' p' v' = f p' v') :
    Inv top (setPlace place p v x) f' s' where
  kend := by rw [hm.kend]; exact h.kend
  nodup := hm.nodup
  managed := by rw [hm.kend]; exact hm.managed
  entry := hm.entry
  page p' v' a ha := by
    rw [hm.kend]
    rcases setPlace_eq ha with ⟨-, -, hx⟩ | ⟨hne, hx⟩
    · exact hm.toPage a hx
    · exact ⟨(h.page p' v' a hx).1, (hm.page p' v' a hne hx).1⟩
  pageInj p₁ v₁ p₂ v₂ a h₁ h₂ := by
    rcases setPlace_eq h₁ with ⟨rfl, rfl, hx₁⟩ | ⟨hne₁, hx₁⟩ <;>
      rcases setPlace_eq h₂ with ⟨rfl, rfl, hx₂⟩ | ⟨hne₂, hx₂⟩
    · exact ⟨rfl, rfl⟩
    · exact absurd hx₁ (hm.page p₂ v₂ a hne₂ hx₂).2.2
    · exact absurd hx₂ (hm.page p₁ v₁ a hne₁ hx₁).2.2
    · exact h.pageInj p₁ v₁ p₂ v₂ a hx₁ hx₂
  slot p' v' n hn := by
    rcases setPlace_eq hn with ⟨-, -, hx⟩ | ⟨hne, hx⟩
    · exact hm.toSlot n hx
    · exact ⟨(h.slot p' v' n hx).1, (h.slot p' v' n hx).2.1, (hm.slot p' v' n hne hx).1⟩
  slotInj p₁ v₁ p₂ v₂ n h₁ h₂ := by
    rcases setPlace_eq h₁ with ⟨rfl, rfl, hx₁⟩ | ⟨hne₁, hx₁⟩ <;>
      rcases setPlace_eq h₂ with ⟨rfl, rfl, hx₂⟩ | ⟨hne₂, hx₂⟩
    · exact ⟨rfl, rfl⟩
    · exact absurd hx₁ (hm.slot p₂ v₂ n hne₂ hx₂).2.2
    · exact absurd hx₂ (hm.slot p₁ v₁ n hne₁ hx₁).2.2
    · exact h.slotInj p₁ v₁ p₂ v₂ n hx₁ hx₂
  frame i hi hin := by
    obtain ⟨heq, hkept⟩ := hm.frame i hi hin
    rw [heq] at hin ⊢
    obtain ⟨p', v', hp', hv', hx⟩ := h.frame i hi hin
    refine ⟨p', v', hp', hv', ?_⟩
    by_cases hpv : p' = p ∧ v' = v
    · obtain ⟨rfl, rfl⟩ := hpv
      rw [setPlace_self, hkept hx, hx]
    · rw [setPlace_of_ne hpv, hx]
  frameInj i hi j hj hin hjn := by
    have hei := (hm.frame i hi hin).1
    have hej := (hm.frame j hj hjn).1
    rw [hei, hej]
    rw [hei] at hin
    rw [hej] at hjn
    exact h.frameInj i hi j hj hin hjn
  count := hm.count
  top_le := h.top_le
  above p' v' hle := by
    by_cases hpv : p' = p ∧ v' = v
    · obtain ⟨rfl, rfl⟩ := hpv
      rw [setPlace_self]
      exact hm.below hle
    · rw [setPlace_of_ne hpv, hf p' v' hpv]
      exact h.above p' v' hle
  tables p' v' hx := by
    rw [(hm.tables p').1, (hm.tables p').2]
    by_cases hpv : p' = p ∧ v' = v
    · obtain ⟨rfl, rfl⟩ := hpv
      rw [setPlace_self] at hx
      exact hm.inTable hx
    · rw [setPlace_of_ne hpv] at hx
      exact h.tables p' v' hx
  lost e he h0 := by
    by_cases hold : e ∈ s.evictions
    · exact hm.zero (h.lost e hold h0)
    · exact ((hm.evicted e he hold).2.2 h0).2
  lostOnce p₁ v₁ p₂ v₂ h₁ h₂ := by
    rcases hm.lost h₁ with h₁ | ⟨rfl, rfl, hu₁⟩ <;> rcases hm.lost h₂ with h₂ | ⟨rfl, rfl, hu₂⟩
    · exact h.lostOnce p₁ v₁ p₂ v₂ h₁ h₂
    · rw [h.swapUsed_of_lost h₁] at hu₂
      cases hu₂
    · rw [h.swapUsed_of_lost h₂] at hu₁
      cases hu₁
    · exact ⟨rfl, rfl⟩
  contents p' v' hl := by
    by_cases hpv : p' = p ∧ v' = v
    · obtain ⟨rfl, rfl⟩ := hpv
      rw [setPlace_self]
      exact hm.contents hl
    · have hold : ¬ Lost s p' v' := by
        rintro ⟨e, he, hrest⟩
        exact hl ⟨e, hm.history e he, hrest⟩
      rw [setPlace_of_ne hpv, hf p' v' hpv, ← h.contents p' v' hold]
      cases hx : place p' v' with
      | absent => rfl
      | page a => exact (hm.page p' v' a hpv hx).2.1
      | slot n => exact (hm.slot p' v' n hpv hx).2.1

end

end Pa3

end Xv6
