import Xv6.Mem.Tables

/-!
# The memory invariant

The joint invariant of page tables, free list, frame table and swap area. It is stated with two
ghost maps: `own`, the use of every page, and `slot`, the leaf entry that names a swap slot.
Because both are functions, the invariant need not speak of disjointness: a page in two places
would have two uses.

It has four parts, which different steps of the kernel touch:

* `Layout` — the free list, and the tree shape of the tables;
* `Entries` — every leaf entry of user memory is zero, maps a page that is its own, or names a
  slot that is its own; and conversely no page and no slot is held without an entry;
* `FrameTable` — a tracked frame is the page of its process at its address;
* `ProcTable` — page tables and trap frames of different processes are different.

All changes of a leaf entry (mapping, unmapping, evicting, bringing back) are one change of the
ghost maps, `Ghost.assign`, and one lemma, `Entries.set`.
-/

namespace Xv6

namespace Mem

variable {a r : ℕ} {u : Use}

/-! ### Ghost maps -/

/-- Who uses each page, and which entry names each slot. A fork of a swapped page breaks the
ownership of slots and nothing else, so what rests on it is only asked for if `owned`. -/
structure Ghost where
  own : ℕ → Use
  slot : ℤ → Option (ℕ × Key)
  owned : Prop

/-- Change the use of one page. -/
def Ghost.setOwn (g : Ghost) (a : ℕ) (u : Use) : Ghost :=
  { g with own := Function.update g.own a u }

@[simp] theorem Ghost.setOwn_self (g : Ghost) (a : ℕ) (u : Use) : (g.setOwn a u).own a = u := by
  simp [Ghost.setOwn]

theorem Ghost.setOwn_of_ne {g : Ghost} {b : ℕ} (u : Use) (h : b ≠ a) :
    (g.setOwn a u).own b = g.own b := Function.update_of_ne h _ _

@[simp] theorem Ghost.setOwn_slot (g : Ghost) (a : ℕ) (u : Use) : (g.setOwn a u).slot = g.slot :=
  rfl

@[simp] theorem Ghost.setOwn_owned (g : Ghost) (a : ℕ) (u : Use) :
    (g.setOwn a u).owned = g.owned := rfl

/-- The ghost maps when the leaf entry of `k` below `r` becomes `v`: what the old entry held is
given up, what the new one holds is taken. -/
def Ghost.assign (g : Ghost) (r : ℕ) (k : Key) (v : Pte) : Ghost where
  own a := if Valid v ∧ pte2pa v = a then .user r k
    else if g.own a = .user r k then .reserved else g.own a
  slot n := if Swapped v ∧ swapIdx v = n then some (r, k)
    else if g.slot n = some (r, k) then none else g.slot n
  owned := g.owned

@[simp] theorem Ghost.assign_owned (g : Ghost) (r : ℕ) (k : Key) (v : Pte) :
    (g.assign r k v).owned = g.owned := rfl

/-! ### Leaf entries -/

/-- An entry the kernel may have written. -/
def WellFormed (pte : Pte) : Prop :=
  pte = 0#64 ∨ (Valid pte ∧ pte.getLsbD 8 = false) ∨ Swapped pte

/-- An entry above user memory: not for user code, and never evicted. -/
def TopEntry (pte : Pte) : Prop :=
  pte = 0#64 ∨ (Valid pte ∧ pte.getLsbD 8 = false ∧ pte.getLsbD 4 = false)

theorem TopEntry.getLsbD {pte : Pte} (h : TopEntry pte) :
    pte.getLsbD 8 = false ∧ pte.getLsbD 4 = false := by
  rcases h with rfl | ⟨-, h⟩
  · simp
  · exact h

/-- The leaf entries `L`, the pages and the slots belong together. -/
structure Entries (g : Ghost) (L : ℕ → Key → Pte) (inUse : ℤ → Bool) : Prop where
  wf : ∀ r k, g.own r = .root → UserKey k → WellFormed (L r k)
  top : ∀ r k, g.own r = .root → ¬ UserKey k → TopEntry (L r k)
  page : ∀ r k, g.own r = .root → UserKey k → Valid (L r k) → g.own (pte2pa (L r k)) = .user r k
  user : ∀ a r k, g.own a = .user r k → g.own r = .root ∧ UserKey k ∧ MapsTo (L r k) a
  range : ∀ r k, g.own r = .root → UserKey k → Swapped (L r k) →
    0 ≤ swapIdx (L r k) ∧ swapIdx (L r k) < nswapspace
  named : g.owned → ∀ r k, g.own r = .root → UserKey k → Swapped (L r k) →
    g.slot (swapIdx (L r k)) = some (r, k)
  slot : g.owned → ∀ n r k, g.slot n = some (r, k) →
    g.own r = .root ∧ UserKey k ∧ Swapped (L r k) ∧ swapIdx (L r k) = n
  inUse : g.owned → ∀ n, inUse n = (g.slot n).isSome

section

variable {g g' : Ghost} {L L' : ℕ → Key → Pte} {inUse : ℤ → Bool}

/-- The uses of pages other than as roots and as user pages do not matter. -/
theorem Entries.congr (h : Entries g L inUse) (hroot : ∀ r, g'.own r = .root ↔ g.own r = .root)
    (huser : ∀ a r k, g'.own a = .user r k ↔ g.own a = .user r k) (hslot : g'.slot = g.slot)
    (howned : g'.owned → g.owned)
    (hL : ∀ r k, g.own r = .root → L' r k = L r k) : Entries g' L' inUse where
  wf r k hr hk := by
    rw [hL r k ((hroot r).mp hr)]
    exact h.wf r k ((hroot r).mp hr) hk
  top r k hr hk := by
    rw [hL r k ((hroot r).mp hr)]
    exact h.top r k ((hroot r).mp hr) hk
  page r k hr hk hv := by
    rw [hL r k ((hroot r).mp hr)] at hv ⊢
    exact (huser _ r k).mpr (h.page r k ((hroot r).mp hr) hk hv)
  user a r k ha := by
    obtain ⟨hr, hk, hm⟩ := h.user a r k ((huser a r k).mp ha)
    exact ⟨(hroot r).mpr hr, hk, by rwa [hL r k hr]⟩
  range r k hr hk hs := by
    rw [hL r k ((hroot r).mp hr)] at hs ⊢
    exact h.range r k ((hroot r).mp hr) hk hs
  named ho r k hr hk hs := by
    rw [hL r k ((hroot r).mp hr)] at hs ⊢
    rw [hslot]
    exact h.named (howned ho) r k ((hroot r).mp hr) hk hs
  slot ho n r k hn := by
    rw [hslot] at hn
    obtain ⟨hr, hrest⟩ := h.slot (howned ho) n r k hn
    rw [hL r k hr]
    exact ⟨(hroot r).mpr hr, hrest⟩
  inUse ho n := by
    rw [hslot]
    exact h.inUse (howned ho) n

/-- What may be assigned to an entry: a page that is in the hands of the kernel, or a slot that
is not in use. -/
structure Assignable (g : Ghost) (r : ℕ) (k : Key) (v : Pte) : Prop where
  root : g.own r = .root
  key : UserKey k
  wf : WellFormed v
  page : Valid v → g.own (pte2pa v) = .reserved
  range : Swapped v → 0 ≤ swapIdx v ∧ swapIdx v < nswapspace
  slot : g.owned → Swapped v → g.slot (swapIdx v) = none

section

variable {k : Key} {v : Pte}

theorem Assignable.own_root (h : Assignable g r k v) (r' : ℕ) :
    (g.assign r k v).own r' = .root ↔ g.own r' = .root := by
  simp only [Ghost.assign]
  split
  · rename_i hv
    have := h.page hv.1
    rw [hv.2] at this
    rw [this]
    simp
  · split
    · rename_i hu
      rw [hu]
      simp
    · rfl

/-- Pages of other uses are untouched. -/
theorem Assignable.own_of_ne (h : Assignable g r k v) (ha : g.own a = u) (hres : u ≠ .reserved)
    (huser : u ≠ .user r k) : (g.assign r k v).own a = u := by
  simp only [Ghost.assign]
  split
  · rename_i hv
    have := h.page hv.1
    rw [hv.2, ha] at this
    exact absurd this hres
  · rw [if_neg (by rw [ha]; exact huser)]
    exact ha

theorem Assignable.own_user (h : Assignable g r k v) {r' : ℕ} {k' : Key}
    (hne : ¬ (r' = r ∧ k' = k)) : (g.assign r k v).own a = .user r' k' ↔ g.own a = .user r' k' := by
  have huser : Use.user r' k' ≠ .user r k := fun he => hne (Use.user.inj he)
  constructor
  · intro ha
    simp only [Ghost.assign] at ha
    split at ha
    · exact absurd ha.symm huser
    · split at ha
      · cases ha
      · exact ha
  · exact fun ha => h.own_of_ne ha (by simp) huser

theorem own_assign_page (hv : Valid v) : (g.assign r k v).own (pte2pa v) = .user r k :=
  if_pos ⟨hv, rfl⟩

theorem slot_assign_named (hs : Swapped v) : (g.assign r k v).slot (swapIdx v) = some (r, k) :=
  if_pos ⟨hs, rfl⟩

/-- The pages in the hands of the kernel stay there, except the one assigned. -/
theorem own_assign_reserved (ha : g.own a = .reserved) (hne : Valid v → pte2pa v ≠ a) :
    (g.assign r k v).own a = .reserved := by
  simp only [Ghost.assign]
  rw [if_neg fun hv => hne hv.1 hv.2, if_neg (by rw [ha]; simp)]
  exact ha

theorem slot_assign_of_ne {n : ℤ} (hne : Swapped v → swapIdx v ≠ n) (hn : g.slot n ≠ some (r, k)) :
    (g.assign r k v).slot n = g.slot n := by
  simp only [Ghost.assign]
  rw [if_neg fun hv => hne hv.1 hv.2, if_neg hn]

/-- **One leaf entry changes.** -/
theorem Entries.set (h : Entries g L inUse) (ha : Assignable g r k v) {inUse' : ℤ → Bool}
    (hself : L' r k = v)
    (hother : ∀ r' k', g.own r' = .root → ¬ (r' = r ∧ k' = k) → L' r' k' = L r' k')
    (hinUse : g.owned → ∀ n, inUse' n = ((g.assign r k v).slot n).isSome) :
    Entries (g.assign r k v) L' inUse' := by
  have hslot : g.owned → ∀ {n : ℤ} {r' : ℕ} {k' : Key}, ¬ (r' = r ∧ k' = k) →
      ((g.assign r k v).slot n = some (r', k') ↔ g.slot n = some (r', k')) := by
    intro ho n r' k' hne
    have hpair : (some (r', k') : Option (ℕ × Key)) ≠ some (r, k) := fun he =>
      hne (Prod.mk.inj (Option.some.inj he))
    simp only [Ghost.assign]
    split
    · rename_i hv
      have := ha.slot ho hv.1
      rw [hv.2] at this
      rw [this]
      exact ⟨fun he => absurd he.symm hpair, by simp⟩
    · split
      · rename_i hn
        rw [hn]
        exact ⟨by simp, fun he => absurd he.symm hpair⟩
      · rfl
  refine ⟨fun r' k' hr hk => ?_, fun r' k' hr hk => ?_, fun r' k' hr hk hv => ?_,
    fun a r' k' hu => ?_, fun r' k' hr hk hs => ?_, fun ho r' k' hr hk hs => ?_,
    fun ho n r' k' hn => ?_, hinUse⟩
  all_goals by_cases hne : r' = r ∧ k' = k
  · obtain ⟨rfl, rfl⟩ := hne
    rw [hself]
    exact ha.wf
  · rw [hother r' k' ((ha.own_root r').mp hr) hne]
    exact h.wf r' k' ((ha.own_root r').mp hr) hk
  · obtain ⟨rfl, rfl⟩ := hne
    exact absurd ha.key hk
  · rw [hother r' k' ((ha.own_root r').mp hr) hne]
    exact h.top r' k' ((ha.own_root r').mp hr) hk
  · obtain ⟨rfl, rfl⟩ := hne
    rw [hself] at hv ⊢
    exact own_assign_page hv
  · rw [hother r' k' ((ha.own_root r').mp hr) hne] at hv ⊢
    exact (ha.own_user hne).mpr (h.page r' k' ((ha.own_root r').mp hr) hk hv)
  · obtain ⟨rfl, rfl⟩ := hne
    refine ⟨(ha.own_root r').mpr ha.root, ha.key, ?_⟩
    rw [hself]
    simp only [Ghost.assign] at hu
    split at hu
    · rename_i hv
      refine ⟨hv.1, ?_, hv.2⟩
      rcases ha.wf with h0 | ⟨-, h8⟩ | hs
      · exact absurd (h0 ▸ hv.1) not_valid_zero
      · exact h8
      · exact absurd hv.1 hs.not_valid
    · split at hu
      · cases hu
      · exact absurd hu ‹_›
  · obtain ⟨hr, hk, hm⟩ := h.user a r' k' ((ha.own_user hne).mp hu)
    refine ⟨(ha.own_root r').mpr hr, hk, ?_⟩
    rwa [hother r' k' hr hne]
  · obtain ⟨rfl, rfl⟩ := hne
    rw [hself] at hs ⊢
    exact ha.range hs
  · rw [hother r' k' ((ha.own_root r').mp hr) hne] at hs ⊢
    exact h.range r' k' ((ha.own_root r').mp hr) hk hs
  · obtain ⟨rfl, rfl⟩ := hne
    rw [hself] at hs ⊢
    exact slot_assign_named hs
  · rw [hother r' k' ((ha.own_root r').mp hr) hne] at hs ⊢
    exact (hslot ho hne).mpr (h.named ho r' k' ((ha.own_root r').mp hr) hk hs)
  · obtain ⟨rfl, rfl⟩ := hne
    simp only [Ghost.assign] at hn
    split at hn
    · rename_i hv
      rw [hself]
      exact ⟨(ha.own_root r').mpr ha.root, ha.key, hv.1, hv.2⟩
    · split at hn
      · cases hn
      · exact absurd hn ‹_›
  · obtain ⟨hr, hk, hrest⟩ := h.slot ho n r' k' ((hslot ho hne).mp hn)
    rw [hother r' k' hr hne]
    exact ⟨(ha.own_root r').mpr hr, hk, hrest⟩

end

end

/-! ### The whole invariant -/

/-- A page that `kfree` accepts. -/
def Managed (kend a : ℕ) : Prop := a % 4096 = 0 ∧ kend ≤ a ∧ a < phystop

theorem Managed.pageAddr {kend : ℕ} (h : Managed kend a) : PageAddr a := by
  obtain ⟨h0, -, h2⟩ := h
  simp only [phystop_eq] at h2
  exact ⟨h0, by omega⟩

/-- The free list and the tables. -/
structure Layout (g : Ghost) (s : Kernel) : Prop where
  kend : kernbase ≤ s.kend
  tables : Tables g.own s.mem
  managed : ∀ a, g.own a ≠ .reserved → Managed s.kend a
  nodup : s.freelist.Nodup
  free : ∀ a, a ∈ s.freelist ↔ g.own a = .free

/-- The process has the table `r`, or has it besides its own: `N` is the table that `exec` is
building, or has just replaced. -/
def HasTable (N : ℕ → ℕ → Prop) (s : Kernel) (p r : ℕ) : Prop :=
  (s.procs p).pagetable = r ∨ N p r

/-- No process has a second table. -/
def NoTable : ℕ → ℕ → Prop := fun _ _ => False

/-- A tracked frame is the page of its process at its address. -/
structure FrameTable (N : ℕ → ℕ → Prop) (g : Ghost) (s : Kernel) : Prop where
  hand : s.clockHand < nframe
  tracked : ∀ i, (s.frames i).inUse = true → ∃ p r, (s.frames i).p = some p ∧ i < nframe ∧
    (s.frames i).va < trapframe ∧ HasTable N s p r ∧
    g.own (kernbase + i * 4096) = .user r (vkey (s.frames i).va)

/-- Page tables and trap frames belong to one process. -/
structure ProcTable (g : Ghost) (s : Kernel) : Prop where
  root : ∀ p, (s.procs p).pagetable ≠ 0 → g.own (s.procs p).pagetable = .root
  inj : ∀ p q, (s.procs p).pagetable ≠ 0 → (s.procs p).pagetable = (s.procs q).pagetable → p = q
  trapframe : ∀ p, (s.procs p).trapframe ≠ 0 → g.own (s.procs p).trapframe = .trapframe p

/-- **The memory invariant.** -/
structure Inv (N : ℕ → ℕ → Prop) (g : Ghost) (s : Kernel) : Prop where
  layout : Layout g s
  entries : Entries g (leaf s.mem) s.swapInUse
  frameTable : FrameTable N g s
  procTable : ProcTable g s

section

variable {N : ℕ → ℕ → Prop} {g : Ghost} {s s' : Kernel}

theorem HasTable.congr {p : ℕ} (h : HasTable N s p r)
    (hp : (s'.procs p).pagetable = (s.procs p).pagetable) : HasTable N s' p r := by
  rwa [HasTable, hp]

theorem Inv.managed (h : Inv N g s) (ha : g.own a = u) (hu : u ≠ .reserved) :
    Managed s.kend a := h.layout.managed a (by rw [ha]; exact hu)

theorem Managed.ne_zero (hk : kernbase ≤ s.kend) (ha : Managed s.kend a) : a ≠ 0 := by
  have := ha.2.1
  simp only [kernbase_eq] at hk
  omega

theorem Inv.root_ne_zero (h : Inv N g s) (hr : g.own r = .root) : r ≠ 0 :=
  (h.managed hr (by simp)).ne_zero h.layout.kend

/-- The process-table fields that matter to memory. -/
structure SameProc (q q' : Proc) : Prop where
  used : q'.used = q.used
  killed : q'.killed = q.killed
  sz : q'.sz = q.sz
  pagetable : q'.pagetable = q.pagetable
  trapframe : q'.trapframe = q.trapframe

theorem SameProc.refl (q : Proc) : SameProc q q := ⟨rfl, rfl, rfl, rfl, rfl⟩

theorem SameProc.trans {q q' q'' : Proc} (h : SameProc q q') (h' : SameProc q' q'') :
    SameProc q q'' :=
  ⟨h'.used.trans h.used, h'.killed.trans h.killed, h'.sz.trans h.sz,
    h'.pagetable.trans h.pagetable, h'.trapframe.trans h.trapframe⟩

/-- Statistics are updated with `modProc`. -/
theorem SameProc.modProc {q : Proc} {p : ℕ} {o : Option ℕ} {f : Proc → Proc}
    (hf : ∀ q, SameProc q (f q)) (h : SameProc q (s.procs p)) :
    SameProc q ((s.modProc o f).procs p) := by
  cases o with
  | none => exact h
  | some p' =>
    by_cases hp : p = p'
    · subst hp
      simp only [Kernel.modProc, Function.update_self]
      exact h.trans (hf _)
    · simp only [Kernel.modProc, Function.update_of_ne hp]
      exact h

/-- The frame table of `s'` tracks no more than that of `s`. -/
def FramesShrink (s s' : Kernel) : Prop :=
  ∀ i, (s'.frames i).inUse = true → (s.frames i).inUse = true ∧
    (s'.frames i).p = (s.frames i).p ∧ (s'.frames i).va = (s.frames i).va

theorem FramesShrink.refl (s : Kernel) : FramesShrink s s := fun _ hi => ⟨hi, rfl, rfl⟩

theorem FrameTable.shrink (h : FrameTable N g s) (hf : FramesShrink s s')
    (hp : ∀ p, (s'.procs p).pagetable = (s.procs p).pagetable) (hhand : s'.clockHand < nframe) :
    FrameTable N g s' := by
  refine ⟨hhand, fun i hi => ?_⟩
  obtain ⟨hi', hip, hva⟩ := hf i hi
  obtain ⟨p, r, hpi, hlt, hv, ht, ho⟩ := h.tracked i hi'
  exact ⟨p, r, hip.trans hpi, hlt, by rwa [hva], ht.congr (hp p), by rwa [hva]⟩

/-- **Steps that keep every use.** Memory outside the tables, the statistics of processes, the
reference bits and the clock hand are free. -/
theorem Inv.frame (h : Inv N g s) (hmem : ∀ a, (g.own a).isTable → s'.mem a = s.mem a)
    (hfree : s'.freelist = s.freelist) (hkend : s'.kend = s.kend)
    (hinUse : s'.swapInUse = s.swapInUse) (hframes : FramesShrink s s')
    (hhand : s'.clockHand < nframe) (hprocs : ∀ p, (s'.procs p).pagetable = (s.procs p).pagetable ∧
      (s'.procs p).trapframe = (s.procs p).trapframe) : Inv N g s' where
  layout :=
    { kend := by rw [hkend]; exact h.layout.kend
      tables := h.layout.tables.congr (fun _ _ => rfl) hmem
      managed := fun a ha => by rw [hkend]; exact h.layout.managed a ha
      nodup := by rw [hfree]; exact h.layout.nodup
      free := fun a => by rw [hfree]; exact h.layout.free a }
  entries := by
    rw [hinUse]
    exact h.entries.congr (fun _ => Iff.rfl) (fun _ _ _ => Iff.rfl) rfl id fun r k hr =>
      leaf_congr h.layout.tables hr hmem k
  frameTable := h.frameTable.shrink hframes (fun p => (hprocs p).1) hhand
  procTable :=
    { root := fun p hp => by
        rw [(hprocs p).1] at hp ⊢
        exact h.procTable.root p hp
      inj := fun p q hp he => by
        rw [(hprocs p).1] at hp he
        rw [(hprocs q).1] at he
        exact h.procTable.inj p q hp he
      trapframe := fun p hp => by
        rw [(hprocs p).2] at hp ⊢
        exact h.procTable.trapframe p hp }

/-- A use that is neither part of a table nor user memory. -/
def Use.isPlain : Use → Bool
  | .free | .reserved | .trapframe _ => true
  | _ => false

theorem Use.isTable_of_isPlain (h : u.isPlain = true) : u.isTable = false := by
  cases u <;> first | rfl | cases h

/-- **A page changes between the free list, the kernel and a trap frame.** -/
theorem Inv.retype (h : Inv N g s) (hold : (g.own a).isPlain = true) (hnew : u.isPlain = true)
    (hman : Managed s.kend a) (hmem : ∀ b, b ≠ a → s'.mem b = s.mem b) (hkend : s'.kend = s.kend)
    (hinUse : s'.swapInUse = s.swapInUse) (hframes : FramesShrink s s')
    (hhand : s'.clockHand < nframe) (hpt : ∀ p, (s'.procs p).pagetable = (s.procs p).pagetable)
    (htf : ∀ p, (s'.procs p).trapframe ≠ 0 →
      (g.setOwn a u).own (s'.procs p).trapframe = .trapframe p) (hnodup : s'.freelist.Nodup)
    (hfree : ∀ b, b ∈ s'.freelist ↔ (g.setOwn a u).own b = .free) : Inv N (g.setOwn a u) s' := by
  have hplain : ∀ {b : ℕ} {v : Use}, v.isPlain = false →
      ((g.setOwn a u).own b = v ↔ g.own b = v) := by
    intro b v hv
    by_cases hb : b = a
    · subst hb
      rw [Ghost.setOwn_self]
      constructor
      · rintro rfl
        rw [hnew] at hv
        cases hv
      · rintro rfl
        rw [hold] at hv
        cases hv
    · rw [Ghost.setOwn_of_ne u hb]
  have htable : ∀ b, (g.own b).isTable → b ≠ a := by
    rintro b hb rfl
    rw [Use.isTable_of_isPlain hold] at hb
    cases hb
  refine ⟨⟨by rw [hkend]; exact h.layout.kend, ?_, fun b hb => ?_, hnodup, hfree⟩, ?_, ?_,
    ⟨fun p hp => ?_, fun p q hp he => ?_, htf⟩⟩
  · refine h.layout.tables.congr (fun b hb => ?_) fun b hb => hmem b (htable b hb)
    rcases hb with hb | hb
    · exact Ghost.setOwn_of_ne u (htable b hb)
    · refine Ghost.setOwn_of_ne u ?_
      rintro rfl
      rw [Ghost.setOwn_self, Use.isTable_of_isPlain hnew] at hb
      cases hb
  · rw [hkend]
    by_cases hba : b = a
    · rwa [hba]
    · rw [Ghost.setOwn_of_ne u hba] at hb
      exact h.layout.managed b hb
  · rw [hinUse]
    exact h.entries.congr (fun r => hplain rfl) (fun b r k => hplain rfl) rfl id fun r k hr =>
      leaf_congr h.layout.tables hr (fun b hb => hmem b (htable b hb)) k
  · refine ⟨hhand, fun i hi => ?_⟩
    obtain ⟨hi', hip, hva⟩ := hframes i hi
    obtain ⟨p, r, hpi, hlt, hv, ht, ho⟩ := h.frameTable.tracked i hi'
    exact ⟨p, r, hip.trans hpi, hlt, by rwa [hva], ht.congr (hpt p), (hplain rfl).mpr (hva ▸ ho)⟩
  · rw [hpt p] at hp ⊢
    exact (hplain rfl).mpr (h.procTable.root p hp)
  · rw [hpt p] at hp he
    rw [hpt q] at he
    exact h.procTable.inj p q hp he

/-- A leaf entry does not change what the tables are made of. -/
theorem Assignable.own_table {k : Key} {v : Pte} (ha : Assignable g r k v) {x : ℕ}
    (hx : (g.own x).isTable = true ∨ ((g.assign r k v).own x).isTable = true) :
    (g.assign r k v).own x = g.own x := by
  rcases hx with hx | hx
  · refine ha.own_of_ne rfl ?_ ?_ <;> intro he <;> rw [he] at hx <;> cases hx
  · simp only [Ghost.assign] at hx ⊢
    split at hx
    · cases hx
    · split at hx
      · cases hx
      · rw [if_neg ‹_›, if_neg ‹_›]

/-- **A leaf entry changes.** Memory outside the tables may change with it; the frame of the page
given up must no longer be tracked. -/
theorem Inv.assign (h : Inv N g s) {b : ℕ} {k : Key} {v : Pte} (ha : Assignable g r k v)
    (hman : Valid v → Managed s.kend (pte2pa v)) (hb : g.own b = .low r k.1 k.2.1)
    (hmem : ∀ x, (g.own x).isTable → s'.mem x = setWord s.mem b k.2.2 v x)
    (hfree : s'.freelist = s.freelist) (hkend : s'.kend = s.kend)
    (hinUse : g.owned → ∀ n, s'.swapInUse n = ((g.assign r k v).slot n).isSome)
    (hframes : FramesShrink s s')
    (hgone : ∀ i, (s'.frames i).inUse = true → g.own (kernbase + i * 4096) ≠ .user r k)
    (hhand : s'.clockHand < nframe) (hprocs : ∀ p, (s'.procs p).pagetable = (s.procs p).pagetable ∧
      (s'.procs p).trapframe = (s.procs p).trapframe) : Inv N (g.assign r k v) s' := by
  have hwrite := h.layout.tables.write hb k.2.2 v
  have hleaf : ∀ r' k', g.own r' = .root → leaf s'.mem r' k' =
      leaf (setWord s.mem b k.2.2 v) r' k' :=
    fun r' k' hr' => leaf_congr hwrite hr' hmem k'
  refine ⟨⟨by rw [hkend]; exact h.layout.kend, ?_, fun x hx => ?_,
    by rw [hfree]; exact h.layout.nodup, fun x => ?_⟩, ?_, ⟨hhand, fun i hi => ?_⟩,
    ⟨fun p hp => ?_, fun p q hp he => ?_, fun p hp => ?_⟩⟩
  · exact hwrite.congr (fun x hx => ha.own_table hx) hmem
  · rw [hkend]
    by_cases hv : Valid v ∧ pte2pa v = x
    · rw [← hv.2]
      exact hman hv.1
    · refine h.layout.managed x fun hres => hx ?_
      exact own_assign_reserved hres fun hval hpa => hv ⟨hval, hpa⟩
  · rw [hfree, h.layout.free x]
    constructor
    · exact fun hx => ha.own_of_ne hx (by simp) (by simp)
    · intro hx
      simp only [Ghost.assign] at hx
      split at hx
      · cases hx
      · split at hx
        · cases hx
        · exact hx
  · refine h.entries.set ha ?_ (fun r' k' hr' hne => ?_) hinUse
    · rw [hleaf r k ha.root]
      exact h.layout.tables.leaf_write_self hb k.2.2 v
    · rw [hleaf r' k' hr']
      exact h.layout.tables.leaf_write_of_ne hb hr' v hne
  · obtain ⟨hi', hip, hva⟩ := hframes i hi
    obtain ⟨p, r', hpi, hlt, hv, ht, ho⟩ := h.frameTable.tracked i hi'
    refine ⟨p, r', hip.trans hpi, hlt, by rwa [hva], ht.congr (hprocs p).1, ?_⟩
    rw [hva]
    exact ha.own_of_ne ho (by simp) fun he => hgone i hi (ho.trans he)
  · rw [(hprocs p).1] at hp ⊢
    exact (ha.own_root _).mpr (h.procTable.root p hp)
  · rw [(hprocs p).1] at hp he
    rw [(hprocs q).1] at he
    exact h.procTable.inj p q hp he
  · rw [(hprocs p).2] at hp ⊢
    exact ha.own_of_ne (h.procTable.trapframe p hp) (by simp) (by simp)

/-- A use as a table page below a root, or in the hands of the kernel. -/
def Use.isLink : Use → Bool
  | .reserved | .mid _ _ | .low _ _ _ => true
  | _ => false

theorem isLink_of_isTable (h : u.isTable = true) (hroot : u ≠ .root) : u.isLink = true := by
  cases u <;> first | rfl | exact absurd rfl hroot | cases h

/-- **A table page is linked in or taken out**, and no leaf changes. -/
theorem Inv.relink (h : Inv N g s) {mem' : ℕ → Page} (hold : (g.own a).isLink = true)
    (hnew : u.isLink = true) (hman : Managed s.kend a) (ht : Tables (g.setOwn a u).own mem')
    (hleaf : ∀ r k, g.own r = .root → leaf mem' r k = leaf s.mem r k) :
    Inv N (g.setOwn a u) { s with mem := mem' } := by
  have hother : ∀ {x : ℕ} {w : Use}, w.isLink = false →
    ((g.setOwn a u).own x = w ↔ g.own x = w) := by
    intro x w hw
    by_cases hx : x = a
    · subst hx
      rw [Ghost.setOwn_self]
      constructor
      · rintro rfl
        rw [hnew] at hw
        cases hw
      · rintro rfl
        rw [hold] at hw
        cases hw
    · rw [Ghost.setOwn_of_ne u hx]
  refine ⟨⟨h.layout.kend, ht, fun x hx => ?_, h.layout.nodup, fun x => ?_⟩, ?_,
    ⟨h.frameTable.hand, fun i hi => ?_⟩, ⟨fun p hp => ?_, h.procTable.inj, fun p hp => ?_⟩⟩
  · by_cases hxa : x = a
    · rwa [hxa]
    · rw [Ghost.setOwn_of_ne u hxa] at hx
      exact h.layout.managed x hx
  · rw [hother rfl]
    exact h.layout.free x
  · exact h.entries.congr (fun r => hother rfl) (fun x r k => hother rfl) rfl id hleaf
  · obtain ⟨p, r, hpi, hlt, hv, ht, ho⟩ := h.frameTable.tracked i hi
    exact ⟨p, r, hpi, hlt, hv, ht, (hother rfl).mpr ho⟩
  · exact (hother rfl).mpr (h.procTable.root p hp)
  · exact (hother rfl).mpr (h.procTable.trapframe p hp)

/-- A page of zeros in the hands of the kernel becomes the root of an empty page table. -/
theorem Inv.addRoot (h : Inv N g s) (ha : g.own a = .reserved) (hman : Managed s.kend a)
    (hzero : s.mem a = Page.zero) : Inv N (g.setOwn a .root) s := by
  have hother : ∀ {x : ℕ} {w : Use}, w ≠ .root → w ≠ .reserved →
      ((g.setOwn a .root).own x = w ↔ g.own x = w) := by
    intro x w hw hres
    by_cases hx : x = a
    · subst hx
      rw [Ghost.setOwn_self, ha]
      exact ⟨fun he => absurd he.symm hw, fun he => absurd he.symm hres⟩
    · rw [Ghost.setOwn_of_ne _ hx]
  have hroot : ∀ {r : ℕ}, g.own r = .root → (g.setOwn a .root).own r = .root := fun hr => by
    rw [Ghost.setOwn_of_ne _ (ne_of_own hr ha (by simp))]
    exact hr
  have hcase : ∀ {r : ℕ}, (g.setOwn a .root).own r = .root → r = a ∨ g.own r = .root := by
    intro r hr
    by_cases hra : r = a
    · exact Or.inl hra
    · rw [Ghost.setOwn_of_ne _ hra] at hr
      exact Or.inr hr
  have hleaf : ∀ k, leaf s.mem a k = 0#64 := leaf_of_zero_root hzero
  refine ⟨⟨h.layout.kend, h.layout.tables.addRoot ha hman.pageAddr hzero, fun x hx => ?_,
    h.layout.nodup, fun x => ?_⟩, ⟨fun r k hr hk => ?_, fun r k hr hk => ?_, fun r k hr hk hv => ?_,
    fun x r k hx => ?_, fun r k hr hk hs => ?_, fun ho r k hr hk hs => ?_, fun ho n r k hn => ?_,
    h.entries.inUse⟩,
    ⟨h.frameTable.hand, fun i hi => ?_⟩, ⟨fun p hp => ?_, h.procTable.inj, fun p hp => ?_⟩⟩
  · by_cases hxa : x = a
    · rwa [hxa]
    · rw [Ghost.setOwn_of_ne _ hxa] at hx
      exact h.layout.managed x hx
  · rw [hother (by simp) (by simp)]
    exact h.layout.free x
  · rcases hcase hr with rfl | hr'
    · exact Or.inl (hleaf k)
    · exact h.entries.wf r k hr' hk
  · rcases hcase hr with rfl | hr'
    · exact Or.inl (hleaf k)
    · exact h.entries.top r k hr' hk
  · rcases hcase hr with rfl | hr'
    · rw [hleaf k] at hv
      exact absurd hv not_valid_zero
    · exact (hother (by simp) (by simp)).mpr (h.entries.page r k hr' hk hv)
  · obtain ⟨hr, hrest⟩ := h.entries.user x r k ((hother (by simp) (by simp)).mp hx)
    exact ⟨hroot hr, hrest⟩
  · rcases hcase hr with rfl | hr'
    · rw [hleaf k] at hs
      exact absurd hs not_swapped_zero
    · exact h.entries.range r k hr' hk hs
  · rcases hcase hr with rfl | hr'
    · rw [hleaf k] at hs
      exact absurd hs not_swapped_zero
    · exact h.entries.named ho r k hr' hk hs
  · obtain ⟨hr, hrest⟩ := h.entries.slot ho n r k hn
    exact ⟨hroot hr, hrest⟩
  · obtain ⟨p, r, hpi, hlt, hv, ht, ho⟩ := h.frameTable.tracked i hi
    exact ⟨p, r, hpi, hlt, hv, ht, (hother (by simp) (by simp)).mpr ho⟩
  · exact hroot (h.procTable.root p hp)
  · exact (hother (by simp) (by simp)).mpr (h.procTable.trapframe p hp)

end

end Mem

end Xv6
