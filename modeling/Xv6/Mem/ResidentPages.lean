import Xv6.Mem.Accounting

/-!
# The counter of resident pages

`resident_pages` of a live process, against the number of frames that are in use for it.

Functions that only free memory write nothing but zeros and junk, and clear the frames of the pages
that they put on the free list (`Released`). So a page that is still mapped afterwards has kept its
frame. Nothing takes the frames that `uvmunmap` clears off the counter: the counter stays too high
when a process gives back a page that was tracked, and `kexec` sets it to zero while the pages of
the new image are tracked. A page that is swapped in counts twice.

In a run without `exec`, in which no process gives a tracked page back, the counter of a live
process is the number of its frames and of the pages swapped in for it, so that it is exact for
just those processes for which no page has been swapped in.

## Main results

* `resident_pages_exact_iff`, `resident_pages_counterexample`
-/

namespace Xv6

namespace Mem

open WeakestPre
open Function (update_of_ne)
open Transition

/-! ### Freeing -/

/-- What a function that only frees memory does. -/
structure Released (s s' : Kernel) : Prop where
  /-- A word is kept, cleared or overwritten with junk. -/
  word : ∀ a i, s'.mem a i = s.mem a i ∨ s'.mem a i = 0#64 ∨ s'.mem a i = Page.fill 1 i
  free : ∀ a ∈ s.freelist, a ∈ s'.freelist
  /-- A frame is kept, or cleared with its page on the free list. -/
  frame : ∀ i, s'.frames i = s.frames i ∨ ((s'.frames i).inUse = false ∧
    ∃ a ∈ s'.freelist, frameIndex a % 2 ^ 32 = i)
  resident : ∀ p, (s'.procs p).residentPages = (s.procs p).residentPages
  swappedIn : ∀ p, (s'.procs p).pagesSwappedIn = (s.procs p).pagesSwappedIn

section

variable {s s' s'' : Kernel}

theorem Released.refl (s : Kernel) : Released s s :=
  ⟨fun _ _ => Or.inl rfl, fun _ h => h, fun _ => Or.inl rfl, fun _ => rfl, fun _ => rfl⟩

theorem Released.trans (h : Released s s') (h' : Released s' s'') : Released s s'' := by
  refine ⟨fun a i => ?_, fun a ha => h'.free a (h.free a ha), fun i => ?_,
    fun p => (h'.resident p).trans (h.resident p), fun p => (h'.swappedIn p).trans (h.swappedIn p)⟩
  · rcases h'.word a i with he | he
    · rw [he]
      exact h.word a i
    · exact Or.inr he
  · rcases h'.frame i with he | he
    · rw [he]
      refine (h.frame i).imp_right ?_
      rintro ⟨hin, a, ha, hi⟩
      exact ⟨hin, a, h'.free a ha, hi⟩
    · exact Or.inr he

theorem Released.kfreed (h : Released s s') (a : ℕ) : Released s (s'.kfreed a) := by
  refine h.trans ⟨fun b i => ?_, fun b hb => List.mem_cons_of_mem _ hb, fun i => ?_, fun _ => rfl,
    fun _ => rfl⟩
  · by_cases hb : b = a
    · subst hb
      exact Or.inr (Or.inr (by simp [Kernel.kfreed]))
    · exact Or.inl (by simp [Kernel.kfreed, update_of_ne hb])
  · by_cases hi : (clearFrame a s'.frames i).inUse = true
    · exact Or.inl (clearFrame_of_inUse hi)
    · by_cases he : frameIndex a % 2 ^ 32 = i
      · exact Or.inr ⟨Bool.eq_false_of_not_eq_true hi, a, List.mem_cons_self, he⟩
      · refine Or.inl ?_
        show clearFrame a s'.frames i = s'.frames i
        rw [clearFrame]
        split
        · exact update_of_ne (Ne.symm he) _ _
        · rfl

theorem Released.clearPte (h : Released s s') (pte : PteRef) :
    Released s (s'.writePte pte 0#64) := by
  refine h.trans ⟨fun b i => ?_, fun _ hb => hb, fun _ => Or.inl rfl, fun _ => rfl, fun _ => rfl⟩
  by_cases hb : b = pte.1
  · subst hb
    by_cases hi : i = pte.2
    · exact Or.inr (Or.inl (by simp [Kernel.writePte, hi]))
    · exact Or.inl (by simp [Kernel.writePte, update_of_ne hi])
  · exact Or.inl (by simp [Kernel.writePte, update_of_ne hb])

theorem Released.modProc (h : Released s s') (o : Option ℕ) {f : Proc → Proc}
    (hr : ∀ q, (f q).residentPages = q.residentPages)
    (hs : ∀ q, (f q).pagesSwappedIn = q.pagesSwappedIn) : Released s (s'.modProc o f) := by
  refine h.trans ?_
  cases o with
  | none => exact Released.refl _
  | some p =>
    refine ⟨fun _ _ => Or.inl rfl, fun _ h => h, fun _ => Or.inl rfl, fun q => ?_, fun q => ?_⟩ <;>
      by_cases hq : q = p
    · subst hq
      simp [Kernel.modProc, hr]
    · simp [Kernel.modProc, update_of_ne hq]
    · subst hq
      simp [Kernel.modProc, hs]
    · simp [Kernel.modProc, update_of_ne hq]

end

/-- The function only frees memory. -/
structure Frees {α : Type} (m : M α) : Prop where
  released : ∀ s, wp m (fun _ s' => Released s s') (fun _ _ => True) s

theorem Frees.pure {α : Type} (a : α) : Frees (pure a : M α) := ⟨fun s => Released.refl s⟩

theorem Frees.throw {α : Type} (e : Halt) : Frees (throw e : M α) := ⟨fun _ => trivial⟩

theorem Frees.bind {α β : Type} {m : M α} {f : α → M β} (hm : Frees m) (hf : ∀ a, Frees (f a)) :
    Frees (m >>= f) where
  released s := wp_call (hm.released s) fun a s₁ h =>
    wp_imp ((hf a).released s₁) fun _ _ h' => h.trans h'

theorem Frees.ite {α : Type} {c : Prop} [Decidable c] {m n : M α} (hm : Frees m) (hn : Frees n) :
    Frees (if c then m else n) :=
  ⟨fun s => wp_ite.mpr ⟨fun _ => hm.released s, fun _ => hn.released s⟩⟩

theorem Frees.get {α : Type} {f : Kernel → M α} (hf : ∀ s, Frees (f s)) : Frees (get >>= f) :=
  ⟨fun s => wp_bind.mpr (wp_get.mpr ((hf s).released s))⟩

theorem frees_kfree (a : ℕ) : Frees (kfree a) where
  released s := wp_imp kfree_kfreed fun _ s' hs => by rw [hs]; exact (Released.refl s).kfreed a

theorem frees_clearPte (pte : PteRef) : Frees (modify (Kernel.writePte pte 0#64)) :=
  ⟨fun s => (Released.refl s).clearPte pte⟩

theorem frees_walk (r va : ℕ) : Frees (walk none r va) where
  released s := wp_imp walk_none_same fun _ s' hs => by rw [hs]; exact Released.refl s

theorem frees_swapFree (index : ℤ) : Frees (swapFree index) where
  released s := by
    rw [swapFree, wp_bind, wp_get]
    refine wp_ite.mpr ⟨fun _ => ?_, fun _ => trivial⟩
    exact ⟨fun _ _ => Or.inl rfl, fun _ h => h, fun _ => Or.inl rfl, fun _ => rfl, fun _ => rfl⟩

theorem frees_uvmunmapPage (r : ℕ) (doFree : Bool) (a : ℕ) : Frees (uvmunmapPage r doFree a) := by
  refine (frees_walk r a).bind fun o => ?_
  cases o with
  | none => exact .pure ()
  | some pte =>
    refine .get fun s => .ite (.ite ?_ ?_) (.ite ?_ (.pure ()))
    · exact .bind (frees_kfree _) fun _ => frees_clearPte pte
    · exact frees_clearPte pte
    · exact .bind (frees_swapFree _) fun _ => frees_clearPte pte

theorem frees_uvmunmap (r va n : ℕ) (doFree : Bool) : Frees (uvmunmap r va n doFree) := by
  rw [uvmunmap]
  refine .ite (.throw _) ?_
  induction n generalizing va with
  | zero => exact .pure ()
  | succ n ih =>
    rw [uvmunmapLoop]
    exact (frees_uvmunmapPage r doFree va).bind fun _ => ih _

theorem frees_uvmdealloc (r oldsz newsz : ℕ) : Frees (uvmdealloc r oldsz newsz) := by
  rw [uvmdealloc]
  exact .ite (.pure _) (.ite ((frees_uvmunmap _ _ _ _).bind fun _ => .pure _) (.pure _))

theorem frees_freewalkEntries {free : ℕ → M Unit} (hfree : ∀ a, Frees (free a)) (r : ℕ)
    (is : List (Fin 512)) : Frees (freewalkEntries free r is) := by
  induction is with
  | nil => exact .pure ()
  | cons i is ih =>
    exact .get fun s => .ite ((hfree _).bind fun _ => (frees_clearPte _).bind fun _ => ih)
      (.ite (.throw _) ih)

theorem frees_freewalk (n r : ℕ) : Frees (freewalk n r) := by
  induction n generalizing r with
  | zero => exact .throw _
  | succ n ih =>
    rw [freewalk]
    exact .bind (frees_freewalkEntries ih r _) fun _ => frees_kfree r

theorem frees_procFreepagetable (r sz : ℕ) : Frees (procFreepagetable r sz) := by
  rw [procFreepagetable, uvmfree]
  exact .bind (frees_uvmunmap _ _ _ _) fun _ => .bind (frees_uvmunmap _ _ _ _) fun _ =>
    .ite (.bind (frees_uvmunmap _ _ _ _) fun _ => frees_freewalk 3 r) (frees_freewalk 3 r)

theorem frees_freeproc (p : ℕ) : Frees (freeproc p) := by
  have hmod : ∀ f : Proc → Proc, (∀ q, (f q).residentPages = q.residentPages) →
      (∀ q, (f q).pagesSwappedIn = q.pagesSwappedIn) → Frees (modify (Kernel.modProc (some p) f)) :=
    fun f hr hs => ⟨fun s => (Released.refl s).modProc (some p) hr hs⟩
  have hend : Frees (do
      let s ← get
      if (s.procs p).pagetable ≠ 0 then procFreepagetable (s.procs p).pagetable (s.procs p).sz
      modify (Kernel.modProc (some p) fun q =>
        { q with pagetable := 0, sz := 0, killed := false, used := false })) :=
    .get fun s => .ite ((frees_procFreepagetable _ _).bind fun _ =>
      hmod _ (fun _ => rfl) fun _ => rfl)
      (hmod _ (fun _ => rfl) fun _ => rfl)
  have hrest := (hmod (fun q => { q with trapframe := 0 }) (fun _ => rfl) fun _ => rfl).bind
    fun _ => hend
  exact .get fun s => .ite ((frees_kfree _).bind fun _ => hrest) hrest

/-! ### Pages that are still mapped -/

section

variable {g g' : Ghost} {s s' : Kernel} {r : ℕ} {k : Key}

theorem junk_flags (i : Fin 512) :
    (Page.fill 1 i).getLsbD 0 = true ∧ (Page.fill 1 i).getLsbD 8 = true := by
  rw [Page.fill]
  decide

theorem tablePte_ne_junk (a : ℕ) (i : Fin 512) : tablePte a ≠ Page.fill 1 i := fun he => by
  have h8 := (junk_flags i).2
  rw [← he, tablePte, BitVec.getLsbD_or, getLsbD_pa2pte (by omega)] at h8
  exact absurd h8 (by decide)

/-- A word that has become neither zero nor junk is what it was. -/
theorem Released.word_eq (hf : Released s s') {a : ℕ} {i : Fin 512} {w : Pte} (hw : s'.mem a i = w)
    (h0 : w ≠ 0#64) (hj : w ≠ Page.fill 1 i) : s.mem a i = w := by
  rcases hf.word a i with he | he | he
  · exact he.symm.trans hw
  · exact absurd (hw.symm.trans he) h0
  · exact absurd (hw.symm.trans he) hj

/-- Nothing becomes swapped: the entries on the way to the leaf are what they were. -/
theorem Released.swapped (hf : Released s s') (h' : Inv NoTable g' s') (hr : g'.own r = .root)
    (hs : Swapped (leaf s'.mem r k)) : leaf s.mem r k = leaf s'.mem r k := by
  obtain ⟨i, j, l⟩ := k
  have htables := h'.layout.tables
  have hlow : ∃ b, g'.own b = .low r i j := by
    by_contra hno
    rw [htables.leaf_of_none hr fun b hb => hno ⟨b, hb⟩] at hs
    exact not_swapped_zero hs
  obtain ⟨b, hb⟩ := hlow
  obtain ⟨m, hm, hmb⟩ := htables.low_parent b r i j hb
  have hrm := hf.word_eq (htables.mid_parent m r i hm).2 (tablePte_ne_zero (htables.addr_mid hm))
    (tablePte_ne_junk m i)
  have hmb := hf.word_eq hmb (tablePte_ne_zero (htables.addr_low hb)) (tablePte_ne_junk b j)
  have hleaf : leaf s.mem r (i, j, l) = s.mem b l := by
    rw [leaf, lowPage, hrm, child_tablePte (htables.addr_mid hm), Option.bind_some, hmb,
      child_tablePte (htables.addr_low hb)]
  rw [htables.leaf_of_low hb] at hs ⊢
  rw [hleaf]
  refine hf.word_eq rfl (fun h0 => ?_) fun hj => ?_
  · rw [h0] at hs
    exact not_swapped_zero hs
  · rw [hj] at hs
    exact absurd hs.1 (by rw [(junk_flags l).1]; simp)

/-- The owner of a frame maps its page. -/
theorem Inv.mapsTo_of_isOf (h : Inv NoTable g s) {i p : ℕ} (hof : (s.frames i).IsOf p) :
    i < nframe ∧ UserKey (vkey (s.frames i).va) ∧ g.own (s.procs p).pagetable = .root ∧
      MapsTo (leaf s.mem (s.procs p).pagetable (vkey (s.frames i).va)) (kernbase + i * 4096) := by
  obtain ⟨q, r, hq, hlt, -, ht, hown⟩ := h.frameTable.tracked i hof.1
  obtain rfl : p = q := Option.some.inj (hof.2.symm.trans hq)
  obtain rfl : (s.procs p).pagetable = r := ht.resolve_right id
  obtain ⟨hr, hk, hm⟩ := h.entries.user _ _ _ hown
  exact ⟨hlt, hk, hr, hm⟩

/-- **A page that is still mapped has its frame.** -/
theorem Released.frame_eq (hf : Released s s') (h : Inv NoTable g s)
    (h' : Inv NoTable g' s') {i p : ℕ}
    (hof : (s.frames i).IsOf p) (hroot : g'.own (s.procs p).pagetable = .root)
    (hev : Evolves (leaf s.mem (s.procs p).pagetable (vkey (s.frames i).va))
      (leaf s'.mem (s.procs p).pagetable (vkey (s.frames i).va))) : s'.frames i = s.frames i := by
  obtain ⟨-, hk, -, hm⟩ := h.mapsTo_of_isOf hof
  refine (hf.frame i).resolve_right ?_
  rintro ⟨-, a, ha, hi⟩
  have hfree := (h'.layout.free a).mp ha
  have hpa := frameIndex_of_managed h'.layout.kend (h'.managed hfree (by simp))
  rw [hi] at hpa
  rcases hev with he | ⟨hv, hs, -⟩
  · have hpage := h'.entries.page _ _ hroot hk (he ▸ hm.valid)
    rw [he, hm.pa, hpa, hfree] at hpage
    cases hpage
  · rw [hf.swapped h' hroot hs] at hv
    exact hs.not_valid hv

/-- The surplus of a process that has kept its pages. -/
theorem Released.surplus_eq (hf : Released s s') {p : ℕ}
    (hkept : ∀ i, (s.frames i).IsOf p → s'.frames i = s.frames i) : surplus s' p = surplus s p := by
  have hof : ∀ i, (s'.frames i).IsOf p ↔ (s.frames i).IsOf p := fun i => by
    refine ⟨fun hi => ?_, fun hi => (hkept i hi).symm ▸ hi⟩
    rcases hf.frame i with he | ⟨hin, -⟩
    · rwa [he] at hi
    · rw [hi.1] at hin
      cases hin
  simp only [surplus, held, heldIn, hof, hf.resident, hf.swappedIn]

end

/-! ### Exit and shrinking -/

section

variable {g : Ghost} {s : Kernel} {p : ℕ}

/-- **A process exits**: the others keep their pages. -/
theorem exit_surplus (h : Inv NoTable g s) (hs : Settled g s) (hused : (s.procs p).used = true) :
    wp (freeproc p) (fun _ s' => (s'.procs p).used = false ∧ ∀ q, q ≠ p →
      surplus s' q = surplus s q ∧ (s'.procs q).used = (s.procs q).used) (fun _ _ => True) s := by
  have hpt := hs.used p hused
  refine wp_mono (wp_and (freeproc_spec (E := fun _ _ => True) h hs hpt)
    ((frees_freeproc p).released s))
    (fun _ s' hl => ?_) fun _ _ _ => trivial
  obtain ⟨⟨g', hex⟩, hf⟩ := hl
  refine ⟨hex.unused, fun q hq => ⟨hf.surplus_eq fun i hi => ?_, (hex.others q hq).used⟩⟩
  obtain ⟨-, -, hroot, -⟩ := h.mapsTo_of_isOf hi
  have hne : ¬ (s.procs q).pagetable = (s.procs p).pagetable := fun he =>
    hq (h.procTable.inj q p (h.root_ne_zero hroot) he)
  exact hf.frame_eq h hex.inv hi (hex.keeps.root _ hroot hne) (hex.keeps.entry _ _ hroot hne)

/-- **A process shrinks** and gives back no page that has a frame. -/
theorem uvmdealloc_surplus (h : Inv NoTable g s) (hpt : (s.procs p).pagetable ≠ 0) {oldsz newsz : ℕ}
    (htop : oldsz ≤ trapframe) (hback : ∀ k : Key, newsz ≤ k.addr → k.addr < oldsz →
      Valid (leaf s.mem (s.procs p).pagetable k) →
      Untracked s (pte2pa (leaf s.mem (s.procs p).pagetable k))) :
    wp (uvmdealloc (s.procs p).pagetable oldsz newsz) (fun _ s' => Balanced s s') (fun _ _ => True)
      s := by
  have hroot := h.procTable.root p hpt
  refine wp_mono (wp_and (uvmdealloc_unmaps (E := fun _ _ => True) h hroot htop)
    ((frees_uvmdealloc _ oldsz newsz).released s)) (fun _ s' hl => ?_) fun _ _ _ => trivial
  obtain ⟨⟨-, g', h', hb, -⟩, hf⟩ := hl
  refine ⟨fun q => hf.surplus_eq fun i hi => ?_, fun q => (hb.procs q).used⟩
  obtain ⟨hlt, -, hqroot, hm⟩ := h.mapsTo_of_isOf hi
  refine hf.frame_eq h h' hi (hb.own_root hqroot) (hb.entry _ _ hqroot ?_)
  rintro ⟨he, hlo, hhi⟩
  obtain rfl := h.procTable.inj q p (h.root_ne_zero hqroot) he
  have hun := hback _ hlo hhi hm.valid
  rw [hm.pa, Untracked, frameIndex_kernbase hlt, Nat.mod_eq_of_lt (hlt.trans (by simp))] at hun
  rw [hi.1] at hun
  exact absurd (hun hlt) (by simp)

/-- A negative `sbrk` is served. -/
theorem sysSbrk_surplus (h : Inv NoTable g s) (hmy : s.myproc = some p)
    (hpt : (s.procs p).pagetable ≠ 0) (htop : (s.procs p).sz ≤ trapframe) {n : ℤ} (hn : n < 0)
    (hback : ∀ k : Key, (((s.procs p).sz + n) % 2 ^ 64).toNat ≤ k.addr → k.addr < (s.procs p).sz →
      Valid (leaf s.mem (s.procs p).pagetable k) →
      Untracked s (pte2pa (leaf s.mem (s.procs p).pagetable k))) (eager : Bool) :
    wp (sysSbrk kalloc n eager) (fun _ s' => Balanced s s') (fun _ _ => True) s := by
  rw [sysSbrk, wp_bind, wp_getMyproc hmy, wp_bind, wp_get, if_pos (Or.inr hn), growproc, bind_assoc,
    wp_bind, wp_getMyproc hmy, wp_bind, wp_bind, wp_get, if_neg (by omega), if_pos hn]
  refine wp_call (uvmdealloc_surplus h hpt htop hback) fun sz' s₁ hb => ?_
  rw [wp_bind, wp_modify, wp_pure]
  refine wp_ite.mpr ⟨fun _ => ?_, fun _ => ?_⟩
  all_goals exact hb.trans (Balanced.modProc s₁ _ (fun _ => rfl) (fun _ => rfl) fun _ => rfl)

end

/-! ### Runs -/

/-- A page that a negative `sbrk` gives back has no frame in use. -/
def Act.ReturnsUntracked (s : Kernel) : Act → Prop
  | .sbrk p n _ => n.toInt < 0 → ∀ k : Key, (((s.procs p).sz + n.toInt) % 2 ^ 64).toNat ≤ k.addr →
    k.addr < (s.procs p).sz → Valid (leaf s.mem (s.procs p).pagetable k) →
    Untracked s (pte2pa (leaf s.mem (s.procs p).pagetable k))
  | _ => True

/-- The call is no exec, and gives back no page that has a frame in use. -/
def Call.KeepsFrames (s : Kernel) : Call → Prop
  | .act a => a.ReturnsUntracked s
  | .fork _ => True
  | .exec _ _ _ => False

/-- The counter of every live process is the number of its frames and of the pages swapped in. -/
def Accounted (s : Kernel) : Prop := ∀ p, (s.procs p).used = true → surplus s p = 0

section

variable {s s' : Kernel}

theorem Call.KeepsFrames.noExec {c : Call} (h : c.KeepsFrames s) : c.NoExec := by
  cases c with
  | act a => trivial
  | fork p => trivial
  | exec p file argv => exact h.elim

theorem Accounted.balanced (h : Accounted s) (hb : Balanced s s') : Accounted s' := fun p hp => by
  rw [hb.surplus p]
  exact h p ((hb.used p).symm.trans hp)

/-- Nothing is in use for an entry of the process table that is free. -/
theorem Sound.held_unused (h : Sound s) {p : ℕ} (hp : (s.procs p).used = false) : held s p = 0 := by
  obtain ⟨g, hinv, hs⟩ := h
  rw [held, heldIn, Finset.card_eq_zero, Finset.filter_eq_empty_iff]
  intro i _ hi
  obtain ⟨-, -, hroot, -⟩ := hinv.mapsTo_of_isOf hi
  exact hinv.root_ne_zero hroot (hs.unused p hp).1

theorem Accounted.created {o : Option ℕ} (h : Accounted s) (hs : Sound s) (hc : Created s o s') :
    Accounted s' := by
  cases o with
  | none => exact h.balanced hc
  | some p =>
    intro q hq
    by_cases hqp : q = p
    · subst hqp
      rw [hc.self, hs.held_unused hc.unused]
      rfl
    · rw [(hc.others q hqp).1]
      exact h q ((hc.others q hqp).2.symm.trans hq)

/-- Who runs does not matter. -/
theorem Balanced.of_myproc {p : Option ℕ} (h : Balanced { s with myproc := p } s') :
    Balanced s s' :=
  ⟨h.surplus, h.used⟩

theorem Created.of_myproc {p o : Option ℕ} (h : Created { s with myproc := p } o s') :
    Created s o s' := by
  cases o with
  | none => exact Balanced.of_myproc h
  | some np => exact ⟨h.unused, h.self, h.others⟩

theorem asProc_agree {m m' : M Out} {P : Prop} (p : ℕ)
    (hm : ∀ s, agree unwatched m m' (fun _ s' => P → ∃ o, Created s o s') s) :
    agree unwatched (asProc p m) (asProc p m') (fun _ s' => P → ∃ o, Created s o s') s := by
  refine agree_get.mpr (agree_ite (fun _ => ?_) fun _ => ?_)
  · exact agree_set.mpr ((hm _).mono fun _ _ h hP =>
      let ⟨o, ho⟩ := h hP
      ⟨o, ho.of_myproc⟩)
  · exact agree_pure fun _ => ⟨none, Balanced.refl s⟩

/-- The call frees no page of user memory. -/
def Call.Grows : Call → Prop
  | .act (.sbrk _ n _) => 0 ≤ n.toInt
  | .act (.exit _) => False
  | _ => True

/-- **Calls that free nothing** leave the accounts balanced, but for a new process. -/
theorem Call.run_agree (c : Call) (hc : c.NoExec) :
    agree unwatched (c.run orderlyKalloc) (c.run kalloc)
      (fun _ s' => c.Grows → ∃ o, Created s o s') s := by
  have hnone : ∀ {s s' : Kernel} {P : Prop}, Balanced s s' → P → ∃ o, Created s o s' :=
    fun h _ => ⟨none, h⟩
  cases c with
  | exec p file argv => exact hc.elim
  | fork p => exact asProc_agree p fun s => kfork_agree.bind fun o s' h =>
      agree_pure fun _ => ⟨o, h⟩
  | act a =>
    cases a with
    | load p va =>
      exact asProc_agree p fun s => (userLoad_agree va).bind fun _ _ h => agree_pure (hnone h)
    | store p va b =>
      exact asProc_agree p fun s => (userStore_agree va b).bind fun _ _ h => agree_pure (hnone h)
    | copyin p srcva len =>
      exact asProc_agree p fun s => agree_get.mpr ((copyinLoop_agree _ _ _ _ _).bind fun _ _ h =>
        agree_pure (hnone h))
    | copyout p dstva src =>
      exact asProc_agree p fun s => agree_get.mpr ((copyoutLoop_agree _ _ _ _).bind fun _ _ h =>
        agree_pure (hnone h))
    | sbrk p n eager =>
      exact asProc_agree p fun s => (sysSbrk_agree _ eager).bind fun _ _ h =>
        agree_pure fun hn => ⟨none, h hn⟩
    | alloc => exact (orderlyKalloc_agree s).bind fun _ _ h => agree_pure (hnone h.1.toBalanced)
    | spawn => exact allocproc_agree.bind fun o s' h => agree_pure fun _ => ⟨o, h⟩
    | exit p => exact agree_self (wp_mono (wp_true _ _) (fun _ _ _ h => h.elim)
        fun _ _ _ => trivial)

/-- **One call** keeps the counters right. -/
theorem callStep_accounted (h : Sound s ∧ Accounted s) {c : Call} (hc : c.KeepsFrames s)
    (hstep : callStep kalloc s c = some s') : Sound s' ∧ Accounted s' := by
  refine ⟨h.1.callStep kalloc_spec (Or.inr fun _ => kalloc_spec) hstep, ?_⟩
  obtain ⟨hsound, hacc⟩ := h
  obtain ⟨g, hinv, hs⟩ := hsound
  obtain ⟨o, ho⟩ := callStep_eq_some.mp hstep
  by_cases hg : c.Grows
  · -- the watched run is never stopped, so it is the run itself
    have hstops := c.run_spec orderlyKalloc_spec (Or.inl hc.noExec.loadsNothing) hinv.forget
      hs.forget False.elim
    obtain ⟨heq, hok⟩ := (c.run_agree (s := s) hc.noExec).eq fun s₁ herr =>
      (wp_error hstops herr).ne_watch hc.noExec.loadsNothing rfl
    obtain ⟨o', hcreated⟩ := hok o s' (heq.trans ho) hg
    exact hacc.created ⟨g, hinv, hs⟩ hcreated
  · cases c with
    | fork p => exact absurd trivial hg
    | exec p file argv => exact hc.elim
    | act a =>
      cases a with
      | sbrk p n eager =>
        have hn : n.toInt < 0 := not_le.mp hg
        have hwp : wp ((Act.sbrk p n eager).exec kalloc) (fun _ s' => Balanced s s')
            (fun _ _ => True) s := by
          refine wp_asProc (Balanced.refl s) fun hused _ => ?_
          obtain ⟨h₀, hs₀⟩ := Settled.setMyproc hinv hs (some p)
          refine wp_call (sysSbrk_surplus h₀ rfl (hs₀.used p hused) (hs₀.sz p) hn (hc hn) eager)
            fun _ s₁ hb => hb.of_myproc
        have hb := wp_ok hwp ho
        exact hacc.balanced hb
      | exit p =>
        have hwp : wp ((Act.exit p).exec kalloc) (fun _ s' => Accounted s')
            (fun _ _ => True) s := by
          rw [Act.exec, wp_bind, wp_get]
          refine wp_ite.mpr ⟨fun hused => ?_, fun _ => hacc⟩
          refine wp_call (exit_surplus hinv hs hused) fun _ s₁ hx q hq => ?_
          have hqp : q ≠ p := fun he => by
            rw [he, hx.1] at hq
            cases hq
          rw [(hx.2 q hqp).1]
          exact hacc q ((hx.2 q hqp).2.symm.trans hq)
        have hacc' := wp_ok hwp ho
        exact hacc'
      | load p va => exact absurd trivial hg
      | store p va b => exact absurd trivial hg
      | copyin p srcva len => exact absurd trivial hg
      | copyout p dstva src => exact absurd trivial hg
      | alloc => exact absurd trivial hg
      | spawn => exact absurd trivial hg

end

/-- **When `resident_pages` is exact.** In every state that is reached by a run of calls without
exec, in which no process gives back a page that has a frame, the counter of a live process is the
number of its frames just if no page has been swapped in for it. -/
theorem resident_pages_exact_iff {kend : ℕ} (trampolinePa : ℕ) (hlo : kernbase ≤ kend)
    (hhi : kend + nframe * pgsize ≤ phystop) {cs : List Call} {s : Kernel}
    (hmeets : Meets (callStep kalloc) (fun s c => c.KeepsFrames s) cs
      (bootState kend trampolinePa))
    (hrun : run (callStep kalloc) cs (bootState kend trampolinePa) = some s) {p : ℕ}
    (hused : (s.procs p).used = true) :
    (s.procs p).residentPages = held s p ↔ (s.procs p).pagesSwappedIn = 0 := by
  obtain ⟨-, hacc⟩ := run_invariant (P := fun s => Sound s ∧ Accounted s)
    (fun _ _ _ h hc hstep => callStep_accounted h hc hstep)
    ⟨(coherent_boot trampolinePa hlo hhi).sound, fun _ hp => absurd hp (by simp [bootState])⟩
    hmeets hrun
  have := hacc p hused
  rw [surplus] at this
  omega

theorem resident_pages_exact_iff_trackedRun : kernbase ≤ 0x80030000 ∧
    0x80030000 + nframe * pgsize ≤ phystop ∧
    Meets (callStep kalloc) (fun s c => c.KeepsFrames s) trackedRun
      (bootState 0x80030000 0) ∧
    ∃ s, run (callStep kalloc) trackedRun (bootState 0x80030000 0) = some s ∧
      (s.procs 0).used = true ∧
      ((s.procs 0).residentPages = held s 0 ↔ (s.procs 0).pagesSwappedIn = 0) := by
  have hmeets : Meets (callStep kalloc) (fun s c => c.KeepsFrames s) trackedRun
      (bootState 0x80030000 0) := by
    refine meets_of_forall ?_ _
    simp [trackedRun, forkRun, Call.KeepsFrames, Act.ReturnsUntracked]
  obtain ⟨s, hs, hused⟩ : ∃ s,
      run (callStep kalloc) trackedRun (bootState 0x80030000 0) = some s ∧
      (s.procs 0).used = true := by
    decide +kernel
  exact ⟨by simp, by simp, hmeets, s, hs, hused,
    resident_pages_exact_iff 0 (by simp) (by simp) hmeets hs hused⟩

/-- A process touches its only page and gives it back. -/
def touchAndShrink : List Call :=
  List.replicate 60 (.act .alloc) ++ [.act .spawn, .act (.sbrk 0 4096#32 false),
    .act (.store 0 100 7#8), .act (.sbrk 0 (-4096#32) false)]

/-- The process has no frame, and one resident page on its counter. -/
theorem resident_pages_counterexample :
    ∃ s, run (callStep kalloc) touchAndShrink (bootState 0x80030000 0) = some s ∧
      (s.procs 0).used = true ∧ (s.procs 0).residentPages ≠ held s 0 := by
  decide +kernel

end Mem

end Xv6
