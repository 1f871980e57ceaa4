import Xv6.Mem.Fork

/-!
# Exec

`kernel/exec.c`, and `uvmclear` of `kernel/vm.c`.

`kexec` builds a second page table for the process and fills it while the process still has its
old one, then replaces the one by the other and frees what is left over: the old table when it
succeeds, the new one when it gives up. Every allocation on the way may evict pages, and the pages
of the new table are already in the frame table, with the process as their owner.

A table that a process has besides its own is a *second* table (`Second`): the new one before the
commit, the old one after it. Both ways end with freeing it, which leaves a settled state
(`Second.free_spec`). So the memory invariant, and with it the ownership of slots, survives `kexec`
whether it succeeds or not (`kexec_spec`).

## Scope

What the file system gives is the parameter `File`; the path and the program's name are left out.
`sys_exec` passes at most 31 strings, each shorter than a page.
-/

namespace Xv6

namespace Mem

open WeakestPre

variable {Y : ℕ → Prop} {alloc : M ℕ} {g : Ghost} {p sz' va : ℕ} {s : Kernel} {xperm : Pte}

/-! ### The program -/

/-- `MAXARG` -/
def maxarg : ℕ := 32

/-- `USERSTACK`: pages of the user stack. -/
def userstack : ℕ := 1

/-- `ELF_MAGIC` -/
def elfMagic : ℕ := 0x464C457F

/-- `ELF_PROG_LOAD` -/
def elfProgLoad : ℕ := 1

/-- What `readi` returns for an offset and a length: as many bytes, or fewer. -/
structure File where
  readi : ℕ → ℕ → List (BitVec 8)
  length_le : ∀ off n, (readi off n).length ≤ n

/-- An argument string, as `fetchstr` leaves it in a page. -/
abbrev Arg : Type := { str : List (BitVec 8) // str.length < pgsize }

/-- The field of `n` bytes at offset `off` of a header. -/
def field (hdr : List (BitVec 8)) (off n : ℕ) : ℕ :=
  ((hdr.drop off).take n).foldr (fun b v => b.toNat + 256 * v) 0

/-- The bytes of a `uint64`. -/
def wordBytes (v : ℕ) : List (BitVec 8) := (List.range 8).map fun i => BitVec.ofNat 8 (v / 256 ^ i)

/-- `flags2perm` -/
def flags2perm (flags : ℕ) : Pte :=
  (if flags.testBit 0 then pteX else 0#64) ||| (if flags.testBit 1 then pteW else 0#64)

section

variable (kalloc : M ℕ)

/-- The loop of `loadseg`, with at most `n` pages left; `i` is a 32-bit word. -/
def loadsegLoop (ip : File) (pagetable va offset sz : ℕ) : ℕ → ℕ → M Bool
  | 0, i => if i < sz then throw .spin else pure true
  | n + 1, i =>
    if i < sz then do
      let pa ← walkaddr kalloc pagetable (va + i)
      if pa = 0 then throw (.panic "loadseg: address should exist")
      else
        let n' := if sz - i < pgsize then sz - i else pgsize
        let bs := ip.readi ((offset + i) % 2 ^ 32) n'
        modify fun s => s.setPage pa ((s.mem pa).setBytes 0 bs)
        if bs.length ≠ n' then pure false
        else loadsegLoop ip pagetable va offset sz n ((i + pgsize) % 2 ^ 32)
    else pure true

/-- `loadseg`; `false` for `-1`. -/
def loadseg (ip : File) (pagetable va offset sz : ℕ) : M Bool :=
  loadsegLoop kalloc ip pagetable va offset sz ((sz + pgsize - 1) / pgsize) 0

/-- The loop of `kexec` over the program headers, with `n` left: the size reached, and `false` for
`goto bad`. -/
def loadProgram (ip : File) (pagetable : ℕ) : ℕ → ℕ → ℕ → M (ℕ × Bool)
  | 0, _, sz => pure (sz, true)
  | n + 1, off, sz =>
    let ph := ip.readi (off % 2 ^ 32) 56
    let vaddr := field ph 16 8
    let filesz := field ph 32 8
    let memsz := field ph 40 8
    if ph.length ≠ 56 then pure (sz, false)
    else if field ph 0 4 ≠ elfProgLoad then loadProgram ip pagetable n (off + 56) sz
    else if memsz < filesz then pure (sz, false)
    else if (vaddr + memsz) % 2 ^ 64 < vaddr then pure (sz, false)
    else if vaddr % pgsize ≠ 0 then pure (sz, false)
    else do
      let sz1 ← uvmalloc kalloc pagetable sz ((vaddr + memsz) % 2 ^ 64) (flags2perm (field ph 4 4))
      if sz1 = 0 then pure (sz, false)
      else
        let ok ← loadseg kalloc ip pagetable vaddr (field ph 8 8 % 2 ^ 32) (filesz % 2 ^ 32)
        if ok then loadProgram ip pagetable n (off + 56) sz1 else pure (sz1, false)

/-- `uvmclear` -/
def uvmclear (pagetable va : ℕ) : M Unit := do
  match ← walk none pagetable va with
  | none => throw (.panic "uvmclear")
  | some pte => modify fun s => s.writePte pte (s.readPte pte &&& ~~~pteU)

/-- The loop of `kexec` over the arguments: the stack pointer and `ustack`, or `none` for
`goto bad`. -/
def pushArgs (pagetable stackbase : ℕ) : List Arg → ℕ → List ℕ → M (Option (ℕ × List ℕ))
  | [], sp, ustack => pure (some (sp, ustack))
  | arg :: args, sp, ustack =>
    if ustack.length ≥ maxarg then pure none
    else
      let sp := sp - (arg.val.length + 1)
      let sp := sp - sp % 16
      if sp < stackbase then pure none
      else do
        let r ← copyout kalloc pagetable sp (arg.val ++ [0#8])
        if r < 0 then pure none else pushArgs pagetable stackbase args sp (ustack ++ [sp])

/-- The stack of the new program, below `sz`: the stack pointer, or `none` for `goto bad`. -/
def pushStack (pagetable sz : ℕ) (argv : List Arg) : M (Option ℕ) := do
  let stackbase := sz - userstack * pgsize
  match ← pushArgs kalloc pagetable stackbase argv sz [] with
  | none => pure none
  | some (sp, ustack) =>
    -- `ustack[argc] = 0`
    if ustack.length ≥ maxarg then throw .undefined
    else
      let sp := sp - (ustack.length + 1) * 8
      let sp := sp - sp % 16
      if sp < stackbase then pure none
      else
        let r ← copyout kalloc pagetable sp ((ustack ++ [0]).flatMap wordBytes)
        if r < 0 then pure none else pure (some sp)

/-- A register is stored in the trap frame of `p`. -/
def Kernel.setReg (p : ℕ) (i : Fin 512) (v : ℕ) (s : Kernel) : Kernel :=
  s.writePte ((s.procs p).trapframe, i) (BitVec.ofNat 64 v)

/-- The statements of `kexec` that make the new image that of the process. -/
def Kernel.execCommit (p pagetable sz entry sp : ℕ) (s : Kernel) : Kernel :=
  let s := s.setReg p trapframeA1 sp
  let s := s.modProc (some p) fun q =>
    { q with
      pagetable := pagetable
      sz := sz
      pageFaults := 0
      pagesEvicted := 0
      pagesSwappedIn := 0
      pagesSwappedOut := 0
      residentPages := 0 }
  (s.setReg p trapframeEpc entry).setReg p trapframeSp sp

/-- `kexec` on the file that `namei` found, or on none: `argc`, or `-1`. -/
def kexec (file : Option File) (argv : List Arg) : M ℤ := do
  let p ← getMyproc
  match file with
  | none => pure (-1)
  | some ip =>
    let elf := ip.readi 0 64
    if elf.length ≠ 64 then pure (-1)
    else if field elf 0 4 ≠ elfMagic then pure (-1)
    else
      let pagetable ← procPagetable kalloc p
      if pagetable = 0 then pure (-1)
      else
        let (sz, ok) ← loadProgram kalloc ip pagetable (field elf 56 2) (field elf 32 8) 0
        if ok = false then
          procFreepagetable pagetable sz
          pure (-1)
        else
          let s ← get
          let oldsz := (s.procs p).sz
          let sz := pgroundup sz
          let sz1 ← uvmalloc kalloc pagetable sz (sz + (userstack + 1) * pgsize) pteW
          if sz1 = 0 then
            procFreepagetable pagetable sz
            pure (-1)
          else
            uvmclear pagetable (sz1 - (userstack + 1) * pgsize)
            match ← pushStack kalloc pagetable sz1 argv with
            | none =>
              procFreepagetable pagetable sz1
              pure (-1)
            | some sp =>
              let s ← get
              let oldpagetable := (s.procs p).pagetable
              modify (Kernel.execCommit p pagetable sz1 (field elf 24 8) sp)
              procFreepagetable oldpagetable oldsz
              pure argv.length

end

/-! ### Files that are rejected -/

/-- One of the next `n` program headers, the first of them at `off`, is bad, and none before it is
loaded. -/
def badHeader (ip : File) : ℕ → ℕ → Prop
  | 0, _ => False
  | n + 1, off =>
    let ph := ip.readi (off % 2 ^ 32) 56
    let vaddr := field ph 16 8
    let memsz := field ph 40 8
    ph.length ≠ 56 ∨
      if field ph 0 4 ≠ elfProgLoad then badHeader ip n (off + 56)
      else memsz < field ph 32 8 ∨ (vaddr + memsz) % 2 ^ 64 < vaddr ∨ vaddr % pgsize ≠ 0

/-- `kexec` on the file fails before its first `uvmalloc`. -/
def Rejected : Option File → Prop
  | none => True
  | some ip =>
    let elf := ip.readi 0 64
    elf.length ≠ 64 ∨ field elf 0 4 ≠ elfMagic ∨ badHeader ip (field elf 56 2) (field elf 32 8)

theorem loadProgram_of_bad {kalloc : M ℕ} {ip : File} {pagetable n off sz : ℕ}
    (h : badHeader ip n off) : loadProgram kalloc ip pagetable n off sz = pure (sz, false) := by
  induction n generalizing off with
  | zero => exact h.elim
  | succ n ih =>
    rw [loadProgram]
    rw [badHeader] at h
    by_cases hlen : (ip.readi (off % 2 ^ 32) 56).length ≠ 56
    · rw [if_pos hlen]
    · rw [if_neg hlen]
      replace h := h.resolve_left hlen
      split_ifs at h ⊢ with hload h1 h2 h3
      · exact ih h
      · rfl
      · rfl
      · rfl
      · exact (h.elim h1 fun h => h.elim h2 h3).elim

/-! ### A second table -/

/-- The one second table, `r`, of process `p`. -/
def SecondTable (p r : ℕ) : ℕ → ℕ → Prop := fun p' r' => p' = p ∧ r' = r

/-- The running process `p` has the table `r` besides its own; nothing is mapped there from `sz`
on, and apart from `r` the state is settled. -/
structure Second (O : Prop) (q₀ : Proc) (g : Ghost) (s : Kernel) (p r sz : ℕ) : Prop where
  inv : Inv (SecondTable p r) g s
  owned : g.owned = O
  myproc : s.myproc = some p
  proc : SameProc q₀ (s.procs p)
  root : g.own r = .root
  none : ∀ q, (s.procs q).pagetable ≠ r
  le : sz ≤ trapframe
  absent : ∀ k : Key, sz ≤ k.addr → ¬ TopPage k → leaf s.mem r k = 0#64
  settled : Settled (g.setOwn r .reserved) s

section

variable {N : ℕ → ℕ → Prop} {O : Prop} {q₀ : Proc} {g' : Ghost} {s' : Kernel} {r sz : ℕ}

theorem Second.working (hs : Second O q₀ g s p r sz) : Working (SecondTable p r) g s p r sz :=
  ⟨hs.myproc, Or.inr ⟨rfl, rfl⟩, hs.root, hs.settled.sz p, hs.le,
    fun k hk hsz => hs.absent k hsz (not_topPage hk)⟩

/-- Work on the second table. -/
theorem Second.background (hs : Second O q₀ g s p r sz) {X Z T : ℕ → Key → Prop}
    (hb : Background X Z T Y g g' s s') (h' : Inv (SecondTable p r) g' s')
    (hX : ∀ r' k, X r' k → Below r sz' r' k) (hle : sz ≤ sz') (htop : sz' ≤ trapframe) :
    Second O q₀ g' s' p r sz' where
  inv := h'
  owned := hb.owned.trans hs.owned
  myproc := hb.myproc.trans hs.myproc
  proc := hs.proc.trans (hb.procs p)
  root := hb.own_root hs.root
  none q := by
    rw [hb.pagetable q]
    exact hs.none q
  le := htop
  absent k hk hnt := by
    have h0 := hs.absent k (hle.trans hk) hnt
    rw [hb.leaf_eq hs.root (fun hx => not_lt.mpr hk (hX r k hx).2)
      (by rw [h0]; exact not_valid_zero),
      h0]
  settled := by
    refine hs.settled.step (fun x hx => ?_) (fun q => (hb.procs q).used) hb.pagetable
      (fun q => (hb.procs q).trapframe) (fun q => (hb.procs q).sz.trans_le (hs.settled.sz q))
      (fun q _ => (hb.procs q).sz) fun q k hq hk hnt => ?_
    · obtain ⟨hne, hx⟩ := of_own_retire hx (by simp)
      exact (Ghost.setOwn_of_ne _ hne).trans (hb.root x hx)
    · rw [(hb.procs q).sz] at hk
      have h0 := hs.settled.absent q k hq hk hnt
      rw [hb.leaf_eq (hs.inv.procTable.root q hq) (fun hx => hs.none q (hX _ k hx).1)
        (by rw [h0]; exact not_valid_zero), h0]

/-- **A second table is freed.** -/
theorem Second.free_spec (hs : Second O q₀ g s p r sz) {E : Halt → Kernel → Prop} :
    wp (procFreepagetable r sz)
      (fun _ s' => ∃ g', g'.owned = O ∧ Inv NoTable g' s' ∧ Settled g' s') E s := by
  refine wp_imp (procFreepagetable_spec hs.inv hs.root hs.le hs.absent) fun _ s' hl => ?_
  obtain ⟨g₁, s₁, hu, hzero, rfl⟩ := hl
  have hnone : ∀ q, (s₁.procs q).pagetable ≠ r := fun q => by
    rw [(hu.procs q).pagetable]
    exact hs.none q
  have hd : Inv NoTable (g₁.setOwn r .reserved) s₁ :=
    hu.inv.dropRoot hu.own_root hzero hnone fun _ _ hne ht => hne ht.2
  have hf := hd.kfreed (Ghost.setOwn_self _ _ _) (hu.inv.managed hu.own_root (by simp))
  refine ⟨_, (hf.background.owned.trans hu.keeps.owned).trans hs.owned, hf.inv,
    hs.settled.step (fun x hx => ?_) (fun q => (hu.procs q).used) (fun q => (hu.procs q).pagetable)
      (fun q => (hu.procs q).trapframe) (fun q => (hu.procs q).sz.trans_le (hs.settled.sz q))
      (fun q _ => (hu.procs q).sz) fun q k hq hk hnt => ?_⟩
  · obtain ⟨hne, hx⟩ := of_own_retire (hf.background.root x hx) (by simp)
    exact (Ghost.setOwn_of_ne _ hne).trans (hu.root x hx)
  · rw [show ((s₁.kfreed r).procs q).sz = (s₁.procs q).sz from rfl, (hu.procs q).sz] at hk
    have hr := hs.inv.procTable.root q hq
    have h0 := hu.keeps.leaf_eq_zero hr (hs.none q) (hs.settled.absent q k hq hk hnt)
    have hr₁ : (g₁.setOwn r .reserved).own (s.procs q).pagetable = .root :=
      (Ghost.setOwn_of_ne _ (hs.none q)).trans (hu.keeps.root _ hr (hs.none q))
    rw [hf.background.leaf_eq hr₁ not_false (by rw [h0]; exact not_valid_zero), h0]

end

/-! ### Filling the new table -/

section

variable {N : ℕ → ℕ → Prop} {O : Prop} {q₀ : Proc} {g' : Ghost} {s' : Kernel} {r sz : ℕ}

/-- An entry above user memory stays as it is. -/
theorem Background.top_eq {X Z T : ℕ → Key → Prop} {k : Key} (hb : Background X Z T Y g g' s s')
    (h' : Inv N g' s') (hr : g.own r = .root) (hk : ¬ UserKey k) (hX : ¬ X r k) :
    leaf s'.mem r k = leaf s.mem r k := by
  refine (hb.entry r k hr hX).resolve_right fun he => ?_
  have h8 := (h'.entries.top r k (hb.own_root hr) hk).getLsbD.1
  rw [he.2.1.2] at h8
  cases h8

/-- `mappages` does not map a page over another. -/
theorem mappages_remap_spec (halloc : Allocates N alloc) (h : Inv N g s) {pa : ℕ} {perm : Pte}
    (hr : g.own r = .root) (hva : va < maxva) (hal : va % 4096 = 0) (hk : ¬ UserKey (vkey va))
    (hv : Valid (leaf s.mem r (vkey va))) :
    wp (mappages alloc r va pgsize pa perm) (fun _ _ => False) (fun _ _ => True) s := by
  rw [mappages, if_neg (by simpa using hal), if_neg (by simp), if_neg (by simp),
    show pgsize / pgsize - 1 = 0 by simp, mappagesLoop]
  refine wp_call (wp_error_imp (walkAlloc_spec halloc h hr hva) fun _ _ _ => trivial)
    fun o s₁ ho => ?_
  obtain ⟨g₁, b, rfl, h₁, hback, hb⟩ := ho
  have hread : s₁.readPte (b, (vkey va).2.2) = leaf s.mem r (vkey va) := by
    rw [readPte_low ((h₁.layout.tables.lowPage_eq_some (hback.own_root hr)).mpr hb),
      hback.top_eq h₁ hr hk not_false]
  simp only [wp_bind, wp_get, hread]
  rw [if_pos (valid_iff.mpr hv), wp_throw]
  trivial

/-- The second table is being built: its trap frame is mapped. -/
structure Building (O : Prop) (q₀ : Proc) (g : Ghost) (s : Kernel) (p r sz : ℕ) : Prop where
  second : Second O q₀ g s p r sz
  top : Valid (leaf s.mem r (vkey trapframe))

theorem Building.background (hs : Building O q₀ g s p r sz) {X Z T : ℕ → Key → Prop}
    (hb : Background X Z T Y g g' s s') (h' : Inv (SecondTable p r) g' s')
    (hX : ∀ r' k, X r' k → Below r sz' r' k) (hle : sz ≤ sz') (htop : sz' ≤ trapframe) :
    Building O q₀ g' s' p r sz' := by
  refine ⟨hs.second.background hb h' hX hle htop, ?_⟩
  rw [hb.top_eq h' hs.second.root not_userKey_trapframe fun hx => ?_]
  · exact hs.top
  · have := (hX r _ hx).2
    rw [addr_trapframe] at this
    omega

/-- Beyond user memory `uvmalloc` runs into the trap frame. -/
theorem Building.uvmallocLoop_spec (halloc : Allocates (SecondTable p r) alloc)
    (hs : Building O q₀ g s p r sz) {n a oldsz newsz : ℕ} (ha : a % 4096 = 0) (hsz : sz ≤ a)
    (htf : a ≤ trapframe) (hnew : trapframe < newsz) (hn : trapframe < a + n * 4096)
    (hf : (pteR ||| pteU ||| xperm).toNat < 1024)
    (h8 : (pteR ||| pteU ||| xperm).getLsbD 8 = false) :
    wp (uvmallocLoop alloc r oldsz newsz xperm n a) (fun _ _ => False) (fun _ _ => True) s := by
  induction n generalizing g s sz a with
  | zero => omega
  | succ n ih =>
    have hw := hs.second.working
    rcases Nat.lt_or_eq_of_le htf with hlt | rfl
    · have hup : a + 4096 ≤ trapframe := by
        simp only [trapframe_eq] at hlt ⊢
        omega
      refine uvmallocLoop_succ_spec halloc hs.second.inv hw.myproc hw.table hw.root ha hlt
        (hlt.trans hnew) hf h8 (hw.absent _ (userKey_vkey hlt)
          (hsz.trans (addr_vkey_of_aligned ha htf).ge)) (fun _ _ _ => trivial)
        fun g₁ s₁ h₁ hback => ?_
      have hs₁ : Building O q₀ g₁ s₁ p r (a + 4096) := by
        refine hs.background hback h₁ (fun r' k hx => ⟨hx.1, ?_⟩) (by omega) hup
        rw [hx.2, addr_vkey_of_aligned ha htf]
        omega
      exact ih hs₁ (by simp only [pgsize_eq]; omega) le_rfl hup (by simp only [pgsize_eq]; omega)
    · rw [uvmallocLoop, if_pos hnew]
      refine wp_call (wp_error_imp (halloc hs.second.inv) fun _ _ _ => trivial) fun pa s₁ hall => ?_
      obtain ⟨g₁, hall⟩ := hall
      have h₁ := hall.inv.setPage hall.reserved Page.zero
      have hr₁ := hall.background.own_root hw.root
      rw [if_neg (hall.ne_zero hs.second.inv), wp_bind, wp_modify]
      refine wp_call (mappages_remap_spec halloc h₁ hr₁ (by simp) (by simp)
        not_userKey_trapframe ?_)
        fun _ _ h => h.elim
      rw [(Background.setPage hall.inv hall.reserved Page.zero).top_eq h₁ hr₁ not_userKey_trapframe
        not_false, hall.background.top_eq hall.inv hw.root not_userKey_trapframe not_false]
      exact hs.top

/-- **`uvmalloc`** on the new table. -/
theorem Building.uvmalloc_spec (halloc : Allocates (SecondTable p r) alloc)
    (hs : Building O q₀ g s p r sz) (newsz : ℕ) (hf : (pteR ||| pteU ||| xperm).toNat < 1024)
    (h8 : (pteR ||| pteU ||| xperm).getLsbD 8 = false) :
    wp (uvmalloc alloc r sz newsz xperm)
      (fun sz' s' => sz' = max sz newsz ∧ ∃ g', Building O q₀ g' s' p r sz')
      (fun _ _ => True) s := by
  have hw := hs.second.working
  have hup := pgroundup_eq hw.le
  rw [uvmalloc]
  by_cases hlt : newsz < sz
  · rw [if_pos hlt, wp_pure, max_eq_left hlt.le]
    exact ⟨rfl, g, hs⟩
  have hle := not_lt.mp hlt
  rw [if_neg hlt, max_eq_right hle]
  by_cases htop : newsz ≤ trapframe
  · refine wp_mono (Mem.uvmallocLoop_spec halloc hs.second.inv hw.myproc hw.table hw.root
      (by rw [hup]; omega) htop hf h8 fun k hk hlo =>
        hw.absent k hk ((le_addr_iff hw.le k).mpr hlo))
      (fun sz' s' hl => ?_) fun _ _ _ => trivial
    obtain ⟨rfl, g', h', hback⟩ := hl
    exact ⟨rfl, g', hs.background hback h' (fun _ _ hx => ⟨hx.1, hx.2.2⟩) hle htop⟩
  · have hle' := pgroundup_le hw.le
    refine wp_mono (hs.uvmallocLoop_spec halloc (by rw [hup]; omega) (by rw [hup]; omega) hle'
      (not_le.mp htop) ?_ hf h8) (fun _ _ h => h.elim) fun _ _ _ => trivial
    simp only [trapframe_eq, pgsize_eq] at htop hle' ⊢
    omega

/-- **`loadseg`** -/
theorem Building.loadsegLoop_spec (halloc : Allocates (SecondTable p r) alloc)
    (hs : Building O q₀ g s p r sz) (ip : File) {offset filesz n i : ℕ} :
    wp (loadsegLoop alloc ip r va offset filesz n i)
      (fun _ s' => ∃ g', Building O q₀ g' s' p r sz) (fun _ _ => True) s := by
  induction n generalizing g s i with
  | zero =>
    rw [loadsegLoop, wp_ite]
    exact ⟨fun _ => trivial, fun _ => ⟨g, hs⟩⟩
  | succ n ih =>
    rw [loadsegLoop, wp_ite]
    refine ⟨fun _ => ?_, fun _ => ⟨g, hs⟩⟩
    by_cases hva : va + i < maxva
    · have hw := hs.second.working
      refine wp_call (wp_error_imp (walkaddr_spec (X := Below r sz) (T := fun _ _ => True) halloc
        hs.second.inv hw.root hva (fun hk hsw => hw.below_of_swapped hk hsw) fun _ => trivial)
        fun _ _ _ => trivial) fun pa s₁ ht => ?_
      rw [wp_ite]
      refine ⟨fun _ => trivial, fun hpa => ?_⟩
      rw [wp_bind, wp_modify]
      obtain ⟨g₂, h₂, hback, -⟩ := (ht.page hpa).2.write ((s₁.mem pa).setBytes 0
        (ip.readi ((offset + i) % 2 ^ 32) (if filesz - i < pgsize then filesz - i else pgsize)))
      have hs₂ := hs.background hback h₂ (fun _ _ h => h) le_rfl hw.le
      rw [wp_ite]
      exact ⟨fun _ => ⟨g₂, hs₂⟩, fun _ => ih hs₂⟩
    · rw [walkaddr, if_pos (not_lt.mp hva), wp_bind, wp_pure, if_pos rfl]
      trivial

/-- The permissions of a segment are flags other than `PTE_SWAPPED`. -/
theorem flags2perm_flags (flags : ℕ) : (pteR ||| pteU ||| flags2perm flags).toNat < 1024 ∧
    (pteR ||| pteU ||| flags2perm flags).getLsbD 8 = false := by
  rw [flags2perm]
  split <;> split <;> decide

/-- **The loop over the program headers.** -/
theorem Building.loadProgram_spec (halloc : Allocates (SecondTable p r) alloc)
    (hs : Building O q₀ g s p r sz) (ip : File) {n off : ℕ} :
    wp (loadProgram alloc ip r n off sz)
      (fun o s' => ∃ g', Building O q₀ g' s' p r o.1) (fun _ _ => True) s := by
  induction n generalizing g s off sz with
  | zero => exact ⟨g, hs⟩
  | succ n ih =>
    have hbad : ∃ g', Building O q₀ g' s p r sz := ⟨g, hs⟩
    have hflags := flags2perm_flags (field (ip.readi (off % 2 ^ 32) 56) 4 4)
    rw [loadProgram]
    refine wp_ite.mpr ⟨fun _ => hbad, fun _ => wp_ite.mpr ⟨fun _ => ih hs, fun _ =>
      wp_ite.mpr ⟨fun _ => hbad, fun _ => wp_ite.mpr ⟨fun _ => hbad, fun _ =>
        wp_ite.mpr ⟨fun _ => hbad, fun _ => ?_⟩⟩⟩⟩⟩
    refine wp_call (hs.uvmalloc_spec halloc _ hflags.1 hflags.2) fun sz1 s₁ hl => ?_
    obtain ⟨hmax, g₁, hs₁⟩ := hl
    refine wp_ite.mpr ⟨fun h0 => ?_, fun _ => ?_⟩
    · obtain rfl : sz1 = sz := by omega
      exact ⟨g₁, hs₁⟩
    · refine wp_call (hs₁.loadsegLoop_spec halloc ip) fun ok s₂ hl => ?_
      obtain ⟨g₂, hs₂⟩ := hl
      refine wp_ite.mpr ⟨fun _ => ih hs₂, fun _ => ⟨g₂, hs₂⟩⟩

end

/-! ### The stack -/

theorem sameHolding_clearUser (pte : Pte) : SameHolding pte (pte &&& ~~~pteU) where
  valid := by
    rw [BitVec.getLsbD_and, getLsbD_not (by omega), show pteU.getLsbD 0 = false by decide]
    exact Bool.and_true _
  flag := by
    rw [BitVec.getLsbD_and, getLsbD_not (by omega), show pteU.getLsbD 8 = false by decide]
    exact Bool.and_true _
  field := by
    refine BitVec.eq_of_getLsbD_eq fun i hi => ?_
    have : ∀ j < 64, pteU.getLsbD (10 + j) = false := by decide
    rw [BitVec.getLsbD_ushiftRight, BitVec.getLsbD_ushiftRight, BitVec.getLsbD_and,
      BitVec.getLsbD_not,
      this i hi]
    by_cases h64 : 10 + i < 64
    · simp [h64]
    · simp [BitVec.getLsbD_of_ge pte _ (not_lt.mp h64)]
  zero := by
    rintro rfl
    simp

section

variable {O : Prop} {q₀ : Proc} {r sz : ℕ}

/-- **`uvmclear`** -/
theorem Building.uvmclear_spec (hs : Building O q₀ g s p r sz) (hva : va < sz) :
    wp (uvmclear r va) (fun _ s' => ∃ g', Building O q₀ g' s' p r sz) (fun _ _ => True) s := by
  have hle := hs.second.le
  have htf := hva.trans_le hle
  rw [uvmclear, wp_bind, wp_walk_none (lt_maxva htf)]
  cases hlow : lowPage s.mem r (vkey va).1 (vkey va).2.1 with
  | none => exact trivial
  | some b =>
    have hb := (hs.second.inv.layout.tables.lowPage_eq_some hs.second.root).mp hlow
    simp only [Option.map_some, wp_modify, readPte_low hlow]
    obtain ⟨h', hback, -⟩ := hs.second.inv.rewrite (v := leaf s.mem r (vkey va) &&& ~~~pteU) hb
      (fun _ => sameHolding_clearUser _) fun hk => absurd (userKey_vkey htf) hk
    exact ⟨g, hs.background hback h' (entryAt_of (below_vkey hva hle)) le_rfl hle⟩

/-- `copyout` to the new stack. -/
theorem Building.copyout_spec (halloc : Allocates (SecondTable p r) alloc)
    (hs : Building O q₀ g s p r sz) {dstva : ℕ} {src : List (BitVec 8)}
    (hfit : dstva + src.length ≤ sz) :
    wp (copyout alloc r dstva src) (fun _ s' => ∃ g', Building O q₀ g' s' p r sz) (fun _ _ => True)
      s := by
  refine wp_mono (copyoutLoop_spec halloc hs.second.inv hs.second.working le_rfl
    (Or.inr fun j hj => by omega)) (fun _ s' hl => ?_) fun _ _ _ => trivial
  obtain ⟨⟨g', h', hback⟩, -⟩ := hl
  exact ⟨g', hs.background hback h' (fun _ _ h => h) le_rfl hs.second.le⟩

/-- **The loop over the arguments.** -/
theorem Building.pushArgs_spec (halloc : Allocates (SecondTable p r) alloc)
    (hs : Building O q₀ g s p r sz) {base : ℕ} (hbase : pgsize ≤ base) {argv : List Arg} {sp : ℕ}
    {ustack : List ℕ} (hlo : base ≤ sp) (hhi : sp ≤ sz) :
    wp (pushArgs alloc r base argv sp ustack) (fun o s' => (∃ g', Building O q₀ g' s' p r sz) ∧
      ∀ x, o = some x → base ≤ x.1 ∧ x.1 ≤ sz) (fun _ _ => True) s := by
  induction argv generalizing g s sp ustack with
  | nil =>
    refine ⟨⟨g, hs⟩, fun x hx => ?_⟩
    obtain rfl := Option.some.inj hx
    exact ⟨hlo, hhi⟩
  | cons arg args ih =>
    have harg := arg.property
    rw [pushArgs]
    refine wp_ite.mpr ⟨fun _ => ⟨⟨g, hs⟩, by simp⟩, fun _ =>
      wp_ite.mpr ⟨fun _ => ⟨⟨g, hs⟩, by simp⟩,
      fun hsp => ?_⟩⟩
    have hfit : sp - (arg.val.length + 1) - (sp - (arg.val.length + 1)) % 16
        + (arg.val ++ [0#8]).length ≤ sz := by
      rw [List.length_append, List.length_singleton]
      omega
    refine wp_call (hs.copyout_spec halloc hfit) fun ret s₁ hl => ?_
    obtain ⟨g₁, hs₁⟩ := hl
    exact wp_ite.mpr ⟨fun _ => ⟨⟨g₁, hs₁⟩, by simp⟩, fun _ => ih hs₁ (not_lt.mp hsp) (by omega)⟩

theorem length_flatMap_wordBytes (ws : List ℕ) : (ws.flatMap wordBytes).length = ws.length * 8 := by
  simp [List.length_flatMap, wordBytes, List.map_const']

/-- **The stack of the new program.** -/
theorem Building.pushStack_spec (halloc : Allocates (SecondTable p r) alloc)
    (hs : Building O q₀ g s p r sz) (hsz : 2 * pgsize ≤ sz) (argv : List Arg) :
    wp (pushStack alloc r sz argv) (fun _ s' => ∃ g', Building O q₀ g' s' p r sz) (fun _ _ => True)
      s := by
  simp only [pgsize_eq] at hsz
  rw [pushStack]
  refine wp_call (hs.pushArgs_spec halloc (by simp only [userstack, pgsize_eq]; omega) (by omega)
    le_rfl) fun o s₁ hl => ?_
  obtain ⟨⟨g₁, hs₁⟩, hsp⟩ := hl
  cases o with
  | none => exact ⟨g₁, hs₁⟩
  | some x =>
    obtain ⟨sp, ustack⟩ := x
    obtain ⟨hlo, hhi⟩ := hsp _ rfl
    simp only [userstack, pgsize_eq] at hlo
    rw [wp_ite]
    refine ⟨fun _ => trivial, fun hlen => ?_⟩
    rw [maxarg] at hlen
    rw [wp_ite]
    refine ⟨fun _ => ⟨g₁, hs₁⟩, fun _ => ?_⟩
    have hfit : sp - (ustack.length + 1) * 8 - (sp - (ustack.length + 1) * 8) % 16
        + ((ustack ++ [0]).flatMap wordBytes).length ≤ sz := by
      rw [length_flatMap_wordBytes, List.length_append, List.length_singleton]
      omega
    refine wp_call (hs₁.copyout_spec halloc hfit) fun ret s₂ hl => ?_
    exact wp_ite.mpr ⟨fun _ => hl, fun _ => hl⟩

end

/-! ### The commit -/

section

variable {N : ℕ → ℕ → Prop} {O : Prop} {q₀ : Proc} {r sz : ℕ}

theorem setReg_mem_of_ne (s : Kernel) {a : ℕ} (i : Fin 512) (v : ℕ)
    (ha : a ≠ (s.procs p).trapframe) : (s.setReg p i v).mem a = s.mem a := by
  rw [Kernel.setReg, writePte_mem, setWord_of_ne _ _ ha]

/-- A trap frame is not part of a table. -/
theorem Inv.setReg_mem (h : Inv N g s) (p : ℕ) (i : Fin 512) (v : ℕ) {a : ℕ}
    (ha : (g.own a).isTable = true) : (s.setReg p i v).mem a = s.mem a := by
  refine setReg_mem_of_ne s i v ?_
  rintro rfl
  rw [Use.isTable_of_isPlain (h.plain_trapframe p)] at ha
  cases ha

theorem Inv.setReg (h : Inv N g s) (p : ℕ) (i : Fin 512) (v : ℕ) : Inv N g (s.setReg p i v) :=
  h.frame (fun _ ha => h.setReg_mem p i v ha) rfl rfl rfl (FramesShrink.refl s) h.frameTable.hand
    fun _ => ⟨rfl, rfl⟩

theorem Inv.leaf_setReg (h : Inv N g s) (p : ℕ) (i : Fin 512) (v : ℕ) {x : ℕ} (hx : g.own x = .root)
    (k : Key) : leaf (s.setReg p i v).mem x k = leaf s.mem x k :=
  leaf_congr h.layout.tables hx (fun _ ha => h.setReg_mem p i v ha) k

/-- **The commit**: the second table becomes the table of the process, and its old table the second
one. -/
theorem Second.commit (hs : Second O q₀ g s p r sz) (hused : (s.procs p).used = true)
    (entry sp : ℕ) :
    Second O ((s.execCommit p r sz entry sp).procs p) g (s.execCommit p r sz entry sp) p
      (s.procs p).pagetable (s.procs p).sz := by
  obtain ⟨q, hq⟩ : ∃ q : Proc, { s.procs p with
      pagetable := r
      sz := sz
      pageFaults := 0
      pagesEvicted := 0
      pagesSwappedIn := 0
      pagesSwappedOut := 0
      residentPages := 0 } = q := ⟨_, rfl⟩
  have hpt : q.pagetable = r := by rw [← hq]
  have hold0 := hs.settled.used p hused
  have hold := hs.inv.procTable.root p hold0
  have h₁ := hs.inv.setReg p trapframeA1 sp
  have h₂ : Inv (SecondTable p (s.procs p).pagetable) g ((s.setReg p trapframeA1 sp).setProc p q) :=
    h₁.setPagetable (fun _ => by rw [hpt]; exact ⟨hs.root, hs.none⟩)
      (fun _ _ _ _ he => ⟨rfl, he.symm⟩) (fun p' r' ht => Or.inr ⟨ht.1, hpt.trans ht.2.symm⟩)
      (by rw [← hq]; rfl)
  have h₃ := h₂.setReg p trapframeEpc entry
  have hstate : s.execCommit p r sz entry sp
      = (((s.setReg p trapframeA1 sp).setProc p q).setReg p trapframeEpc entry).setReg p trapframeSp
        sp := by
    rw [← hq]
    rfl
  have hleaf : ∀ x k, g.own x = .root →
      leaf (s.execCommit p r sz entry sp).mem x k = leaf s.mem x k := fun x k hx => by
    rw [hstate, h₃.leaf_setReg p _ _ hx, h₂.leaf_setReg p _ _ hx]
    exact hs.inv.leaf_setReg p _ _ hx k
  have hprocs : (s.execCommit p r sz entry sp).procs = (s.setProc p q).procs := by
    rw [hstate]
    rfl
  have hself : (s.execCommit p r sz entry sp).procs p = q := by rw [hprocs, setProc_self]
  have hother : ∀ q', q' ≠ p → (s.execCommit p r sz entry sp).procs q' = s.procs q' :=
    fun q' hq' => by
    rw [hprocs, setProc_of_ne _ _ hq']
  refine ⟨hstate ▸ h₃.setReg p trapframeSp sp, hs.owned, by rw [hstate]; exact hs.myproc,
    SameProc.refl _, hold,
    fun q' he => ?_, hs.settled.sz p, fun k hk hnt => ?_,
    hs.settled.change (fun q' hq' => hother q' hq' ▸ SameProc.refl _) (fun x hx => ?_)
      (fun q' k _ hq' hz => (hleaf _ k (hs.inv.procTable.root q' hq')).trans hz) ?_
      (fun k _ hk hnt => ?_) (fun hu => ?_) fun _ => ?_⟩
  · by_cases hqp : q' = p
    · rw [hqp, hself, hpt] at he
      exact hs.none p he.symm
    · rw [hother q' hqp] at he
      exact hqp (hs.inv.procTable.inj q' p (he ▸ hold0) he)
  · rw [hleaf _ k hold]
    exact hs.settled.absent p k hold0 hk hnt
  · obtain ⟨hne, hx⟩ := of_own_retire hx (by simp)
    by_cases hxr : x = r
    · exact Or.inl (by rw [hself, hpt, hxr])
    · exact Or.inr ⟨(Ghost.setOwn_of_ne _ hxr).trans hx, hne.symm⟩
  · rw [hself, ← hq]
    exact hs.le
  · rw [hself, hpt, hleaf _ k hs.root]
    rw [hself, ← hq] at hk
    exact hs.absent k hk hnt
  · rw [hself, ← hq] at hu
    exact absurd (hused.symm.trans hu) (by simp)
  · rw [hself, hpt]
    exact hs.inv.root_ne_zero hs.root

/-- The second tables in the invariant may be more. -/
theorem Inv.mono_table {N' : ℕ → ℕ → Prop} (h : Inv N g s) (hN : ∀ p r, N p r → N' p r) :
    Inv N' g s := by
  refine ⟨h.layout, h.entries, ⟨h.frameTable.hand, fun i hi => ?_⟩, h.procTable⟩
  obtain ⟨p, r, hp, hlt, hva, ht, ho⟩ := h.frameTable.tracked i hi
  exact ⟨p, r, hp, hlt, hva, ht.imp_right (hN p r), ho⟩

/-- A new table is a second table. -/
theorem NewTable.second {g' : Ghost} {s' : Kernel} (hn : NewTable NoTable g g' s s' r)
    (h : Inv NoTable g s) (hs : Settled g s) (hmy : s.myproc = some p) (hr : r ≠ 0) :
    Second g.owned (s.procs p) g' s' p r 0 where
  inv := hn.inv.mono_table fun _ _ => False.elim
  owned := hn.keeps.owned
  myproc := hn.myproc.trans hmy
  proc := hn.procs p
  root := (hn.root r).mpr (Or.inr rfl)
  none q he := by
    rw [(hn.procs q).pagetable] at he
    exact hn.fresh (he ▸ h.procTable.root q (he ▸ hr))
  le := Nat.zero_le _
  absent k _ hnt := hn.absent k hnt
  settled := by
    refine hs.step (fun x hx => ?_) (fun q => (hn.procs q).used) (fun q => (hn.procs q).pagetable)
      (fun q => (hn.procs q).trapframe) (fun q => (hn.procs q).sz.trans_le (hs.sz q))
      (fun q _ => (hn.procs q).sz) fun q k hq hk hnt => ?_
    · obtain ⟨hne, hx⟩ := of_own_retire hx (by simp)
      exact ((hn.root x).mp hx).resolve_right hne
    · rw [(hn.procs q).sz] at hk
      exact hn.keeps.leaf_eq_zero (h.procTable.root q hq) id (hs.absent q k hq hk hnt)

end

/-- **`kexec` on a file that it rejects.** Its new table has no page of user memory. -/
theorem kexec_rejected_spec (halloc : Allocates NoTable alloc) (h : Inv NoTable g s)
    (hs : Settled g s) (hmy : s.myproc = some p) {file : Option File} (hfile : Rejected file)
    (argv : List Arg) :
    wp (kexec alloc file argv)
      (fun _ s' => ∃ g', g'.owned = g.owned ∧ Inv NoTable g' s' ∧ Settled g' s')
      (Exhausted NoTable) s := by
  have hsame : ∃ g', g'.owned = g.owned ∧ Inv NoTable g' s ∧ Settled g' s := ⟨g, rfl, h, hs⟩
  rw [kexec, wp_bind, wp_getMyproc hmy]
  cases file with
  | none => exact hsame
  | some ip =>
    refine wp_ite.mpr ⟨fun _ => hsame, fun h1 => wp_ite.mpr ⟨fun _ => hsame, fun h2 => ?_⟩⟩
    refine wp_call (procPagetable_spec halloc h p) fun r s₁ hl => ?_
    obtain ⟨hr0, -, g₁, hn⟩ := hl
    rw [if_neg hr0, loadProgram_of_bad ((hfile.resolve_left h1).resolve_left h2), wp_bind, wp_pure]
    refine wp_ite.mpr ⟨fun _ => ?_, fun hbad => absurd rfl hbad⟩
    exact wp_call (hn.second h hs hmy hr0).free_spec fun _ _ h => h

/-- **`kexec`** keeps the invariant, whether it succeeds or not. -/
theorem kexec_spec (halloc : ∀ N, Allocates N alloc) (h : Inv NoTable g s) (hs : Settled g s)
    (hmy : s.myproc = some p) (hused : (s.procs p).used = true) (file : Option File)
    (argv : List Arg) :
    wp (kexec alloc file argv)
      (fun _ s' => ∃ g', g'.owned = g.owned ∧ Inv NoTable g' s' ∧ Settled g' s')
      (fun _ _ => True) s := by
  have hsame : ∃ g', g'.owned = g.owned ∧ Inv NoTable g' s ∧ Settled g' s := ⟨g, rfl, h, hs⟩
  rw [kexec, wp_bind, wp_getMyproc hmy]
  cases file with
  | none => exact hsame
  | some ip =>
    refine wp_ite.mpr ⟨fun _ => hsame, fun _ => wp_ite.mpr ⟨fun _ => hsame, fun _ => ?_⟩⟩
    refine wp_call (wp_error_imp (procPagetable_spec (halloc NoTable) h p)
      fun _ _ _ => trivial) fun r s₁ hl => ?_
    obtain ⟨hr0, hv, g₁, hn⟩ := hl
    have hs₁ : Building g.owned (s.procs p) g₁ s₁ p r 0 := ⟨hn.second h hs hmy hr0, hv⟩
    rw [if_neg hr0]
    refine wp_call (hs₁.loadProgram_spec (halloc _) ip) fun o s₂ hl => ?_
    obtain ⟨sz, ok⟩ := o
    obtain ⟨g₂, hs₂⟩ := hl
    refine wp_ite.mpr ⟨fun _ => wp_call hs₂.second.free_spec fun _ _ h => h, fun _ => ?_⟩
    rw [wp_bind, wp_get]
    -- the stack starts at a page boundary
    have hle := hs₂.second.le
    have hup := pgroundup_eq hle
    have hs₂' : Building g.owned (s.procs p) g₂ s₂ p r (pgroundup sz) :=
      hs₂.background (X := NoEntry) (Z := NoEntry) (T := NoEntry) (Y := NoPage)
        (Background.refl hs₂.second.inv) hs₂.second.inv (fun _ _ => False.elim) (by rw [hup]; omega)
          (pgroundup_le hle)
    refine wp_call (hs₂'.uvmalloc_spec (halloc _) _ (by decide) (by decide)) fun sz1 s₃ hl => ?_
    obtain ⟨hmax, g₃, hs₃⟩ := hl
    have hsz1 : 2 * pgsize ≤ sz1 := by
      simp only [userstack, pgsize_eq] at hmax ⊢
      omega
    rw [if_neg (by simp only [pgsize_eq] at hsz1; omega)]
    have hguard : sz1 - (userstack + 1) * pgsize < sz1 := by
      simp only [userstack, pgsize_eq] at hsz1 ⊢
      omega
    generalize sz1 - (userstack + 1) * pgsize = guard at hguard ⊢
    refine wp_call (hs₃.uvmclear_spec hguard) fun _ s₄ hl => ?_
    obtain ⟨g₄, hs₄⟩ := hl
    refine wp_call (hs₄.pushStack_spec (halloc _) hsz1 argv) fun o s₅ hl => ?_
    obtain ⟨g₅, hs₅⟩ := hl
    cases o with
    | none =>
      simp only [wp_bind]
      exact hs₅.second.free_spec
    | some sp =>
      have hc := hs₅.second.commit (hs₅.second.proc.used.trans hused)
        (field (ip.readi 0 64) 24 8) sp
      have holdsz : (s₂.procs p).sz = (s₅.procs p).sz :=
        hs₂.second.proc.sz.trans hs₅.second.proc.sz.symm
      simp only [wp_bind, wp_get, wp_modify, holdsz]
      exact hc.free_spec

end Mem

end Xv6
