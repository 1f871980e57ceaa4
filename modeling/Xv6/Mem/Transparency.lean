import Xv6.Lib.Patch
import Xv6.Mem.System

/-!
# Swapping is transparent

What a process sees of memory is the byte of its logical page at each user address. The abstract
model is a store of these bytes: a request patches the bytes it is asked to store and the pages it
is asked to unmap, and nothing else changes, whatever is evicted and brought back meanwhile.

Every request is one patch (`exec_spec`); a run of requests is a list of patches that explains all
its outputs (`serve_spec`). Hence a load returns the last byte stored. This rests on the ownership
of slots; that the state stays sound, and which pages stay in the frame table, does not.

## Main results

* `swap_transparent` — every run of requests from a coherent state
-/

namespace Xv6

namespace Mem

open WeakestPre

variable {Y : ℕ → Prop} {a : Act} {x : ℕ × UserAddr}

/-! ### The abstract store -/

/-- An address of user memory. -/
abbrev UserAddr : Type := { va : ℕ // va < trapframe }

/-- The byte that a process has at an address: that of its logical page. -/
def userByte (s : Kernel) (x : ℕ × UserAddr) : BitVec 8 :=
  if (s.procs x.1).pagetable = 0 then 0#8 else byteAt s (s.procs x.1).pagetable x.2.val

/-- The patch that stores `bs` at `dst` in the memory of `p`. -/
def writes (p dst : ℕ) (bs : List (BitVec 8)) (x : ℕ × UserAddr) : Option (BitVec 8) :=
  if x.1 = p ∧ dst ≤ x.2.val ∧ x.2.val < dst + bs.length then some (bs.getD (x.2.val - dst) 0)
  else none

/-- The patch that unmaps the pages of `p` from `a` on. -/
def unmaps (p : ℕ) (a : ℤ) (x : ℕ × UserAddr) : Option (BitVec 8) :=
  if x.1 = p ∧ a ≤ pgrounddown x.2.val then some 0#8 else none

/-- The patch that changes nothing. -/
def keepsAll (_ : ℕ × UserAddr) : Option (BitVec 8) := none

/-- What a request that returned `o` was asked to store and to unmap. A `copyout` that fails may
have stored the beginning of its source. -/
def Asked : Act → Out → (ℕ × UserAddr → Option (BitVec 8)) → Prop
  | .store p va b, .done true, w => w = writes p va [b]
  | .copyout p dstva src, .ret r, w =>
    ∃ m ≤ src.length, (r = 0 → m = src.length) ∧ w = writes p dstva (src.take m)
  | .sbrk p n _, .ret r, w =>
    w = if n.toInt < 0 ∧ 0 ≤ r + n.toInt then unmaps p (r + n.toInt) else keepsAll
  | .exit p, .done true, w => w = unmaps p 0
  | _, _, w => w = keepsAll

/-- What the output of a load or a `copyin` says of memory. -/
def Returns : Act → Out → (ℕ × UserAddr → BitVec 8) → Prop
  | .load p va, .byte (some b), f => ∃ h : va < trapframe, b = f (p, ⟨va, h⟩)
  | .copyin p srcva len, .bytes (some bs), f =>
    bs.length = len ∧ ∀ j < len, ∃ h : srcva + j < trapframe, bs[j]? = some (f (p, ⟨srcva + j, h⟩))
  | _, _, _ => True

/-- The request is a user access beyond the addresses that `walk` accepts. -/
def Act.Beyond : Act → Prop
  | .load _ va => maxva ≤ va
  | .store _ va _ => maxva ≤ va
  | _ => False

/-- Why a request does not return: nothing can be evicted or stored, or `walk` panics. -/
def Stopped (a : Act) (e : Halt) (s : Kernel) : Prop :=
  Exhausted NoTable e s ∨ (e = .panic "walk" ∧ a.Beyond)

/-! ### The store under the steps of the kernel -/

section

variable {N : ℕ → ℕ → Prop} {g g' : Ghost} {s s' : Kernel} {p r : ℕ}

theorem userByte_of_root (h : Inv N g s) (hpt : (s.procs p).pagetable = r) (hr : g.own r = .root)
    (va : UserAddr) : userByte s (p, va) = byteAt s r va.val := by
  simp only [userByte, hpt]
  exact if_neg (h.root_ne_zero hr)

/-- Steps that keep the page tables and a logical page. -/
theorem userByte_congr (hpt : (s'.procs x.1).pagetable = (s.procs x.1).pagetable)
    (hlog : (s.procs x.1).pagetable ≠ 0 → logicalPage s' (s.procs x.1).pagetable (vkey x.2.val)
      = logicalPage s (s.procs x.1).pagetable (vkey x.2.val)) : userByte s' x = userByte s x := by
  simp only [userByte, hpt]
  split
  · rfl
  · rw [byteAt, byteAt, hlog ‹_›]

theorem Background.userByte_eq {X Z T : ℕ → Key → Prop} (hb : Background X Z T Y g g' s s')
    (ho : g.owned) (h : Inv N g s)
    (hZ : (s.procs x.1).pagetable ≠ 0 → ¬ Z (s.procs x.1).pagetable (vkey x.2.val)) :
    userByte s' x = userByte s x :=
  userByte_congr (hb.pagetable x.1) fun hpt =>
    hb.logical ho _ _ (h.procTable.root x.1 hpt) (userKey_vkey x.2.property) (hZ hpt)

theorem userByte_modProc (s : Kernel) (o : Option ℕ) {f : Proc → Proc}
    (hf : ∀ q, (f q).pagetable = q.pagetable) (x : ℕ × UserAddr) :
    userByte (s.modProc o f) x = userByte s x := by
  refine userByte_congr ?_ fun _ => by simp [logicalPage]
  cases o with
  | none => rfl
  | some p =>
    by_cases hx : x.1 = p
    · rw [hx]
      simp [Kernel.modProc, hf]
    · simp [Kernel.modProc, Function.update_of_ne hx]

theorem userByte_kill (s : Kernel) (p : ℕ) (x : ℕ × UserAddr) :
    userByte (s.kill p) x = userByte s x :=
  userByte_modProc s (some p) (f := fun q => { q with killed := true }) (fun _ => rfl) x

theorem userByte_setSz (s : Kernel) (p sz : ℕ) (x : ℕ × UserAddr) :
    userByte (s.setSz p sz) x = userByte s x :=
  userByte_modProc s (some p) (f := fun q => { q with sz := sz }) (fun _ => rfl) x

/-- Where nothing is mapped a process has zeros. -/
theorem byteAt_of_zero {va : ℕ} (h0 : leaf s.mem r (vkey va) = 0#64) : byteAt s r va = 0#8 := by
  rw [byteAt, logicalPage_of_zero h0, getByte_zero]

/-- The bytes of other processes lie in other address spaces. -/
theorem Running.other (hp : Running g s p r) (h : Inv N g s) (hx : x.1 ≠ p)
    (hpt : (s.procs x.1).pagetable ≠ 0) : (s.procs x.1).pagetable ≠ r := fun he =>
  hx (h.procTable.inj x.1 p hpt (he.trans hp.pagetable.symm))

/-- Storing in the address space of the running process is a patch. -/
theorem userByte_stored (ho : g.owned) (h : Inv N g s) (h' : Inv N g' s') (hp : Running g s p r)
    {dst : ℕ} {src : List (BitVec 8)} {X T : ℕ → Key → Prop}
    (hb : Background X (OfRoot r) T Y g g' s s') (hst : Stored s s' r dst src) (x : ℕ × UserAddr) :
    userByte s' x = Patch.apply (writes p dst src) (userByte s) x := by
  obtain ⟨q, va⟩ := x
  by_cases hq : q = p
  · subst hq
    rw [userByte_of_root h' ((hb.pagetable q).trans hp.pagetable) (hb.own_root hp.root),
      hst va.val va.property, Patch.apply, writes, userByte_of_root h hp.pagetable hp.root]
    by_cases hin : dst ≤ va.val ∧ va.val < dst + src.length
    · rw [if_pos hin, if_pos ⟨rfl, hin⟩]
      rfl
    · rw [if_neg hin, if_neg fun hc => hin hc.2]
      rfl
  · rw [hb.userByte_eq ho h fun hpt => hp.other h hq hpt, Patch.apply, writes,
      if_neg fun hc => hq hc.1]
    rfl

end

/-! ### One request -/

/-- No copy of the request finds its page swapped out. -/
def Act.Stays (alloc : M ℕ) (s : Kernel) : Act → Prop
  | .copyin p srcva len =>
    CopyinStays alloc (s.procs p).pagetable len srcva len { s with myproc := some p }
  | .copyout p dstva src =>
    CopyoutStays alloc (s.procs p).pagetable src.length dstva src { s with myproc := some p }
  | _ => True

/-- What serving a request gives. All resident pages stay in the frame table if `C` holds. -/
structure Served (C : Prop) (a : Act) (o : Out) (g : Ghost) (s s' : Kernel) : Prop where
  sound : ∃ g', g'.owned = g.owned ∧ Inv NoTable g' s' ∧ Settled g' s'
  patch : g.owned → ∃ w, Asked a o w ∧ ∀ x, userByte s' x = Patch.apply w (userByte s) x
  returns : g.owned → Returns a o (userByte s)
  resident : C → Resident s → Resident s'

section

variable {alloc : M ℕ} {C : Prop} {g : Ghost} {s s' : Kernel} {p r : ℕ}

/-- A request that is not asked to change anything. -/
theorem Served.of_keeps {o : Out} {g' : Ghost} (ho : g'.owned = g.owned) (h' : Inv NoTable g' s')
    (hs' : Settled g' s') (hask : Asked a o keepsAll)
    (heq : g.owned → ∀ x, userByte s' x = userByte s x) (hret : g.owned → Returns a o (userByte s))
    (hres : C → Resident s → Resident s') : Served C a o g s s' :=
  ⟨⟨g', ho, h', hs'⟩, fun ho => ⟨keepsAll, hask, heq ho⟩, hret, hres⟩

/-- The process that makes a request is scheduled, or does not run. -/
theorem asProc_spec {m : M Out} (h : Inv NoTable g s) (hs : Settled g s)
    (hask : Asked a .idle keepsAll) (hret : Returns a .idle (userByte s))
    (hm : ∀ s₀, s₀ = { s with myproc := some p } → Inv NoTable g s₀ → Settled g s₀ →
      Running g s₀ p (s₀.procs p).pagetable →
      (s₀.procs p).used = true → (s₀.procs p).killed = false →
      wp m (fun o s' => Served C a o g s₀ s') (Stopped a) s₀) :
    wp (asProc p m) (fun o s' => Served C a o g s s') (Stopped a) s := by
  refine wp_asProc (.of_keeps rfl h hs hask (fun _ _ => rfl) (fun _ => hret) fun _ hr => hr)
    fun hused hkill => ?_
  obtain ⟨hinv₀, hset₀⟩ := Settled.setMyproc h hs (some p)
  exact wp_imp (hm _ rfl hinv₀ hset₀ (hset₀.running hinv₀ hused rfl) hused hkill)
    fun o s' hs => ⟨hs.sound, hs.patch, hs.returns, hs.resident⟩

/-- The process is killed, and no byte changes. -/
theorem Ended.served {o : Out} (he : Ended NoTable g s s' p r) (h : Inv NoTable g s)
    (hs : Settled g s) (hp : Running g s p r) (hask : Asked a o keepsAll)
    (hret : Returns a o (userByte s)) : Served C a o g s s' := by
  obtain ⟨g', s₁, h₁, hb, rfl⟩ := he
  exact .of_keeps hb.owned (h₁.setProc rfl rfl) ((hs.below h hp hb).kill p) hask
    (fun ho x => (userByte_kill s₁ p x).trans (hb.userByte_eq ho h fun _ => id)) (fun _ => hret)
    fun _ hr => (hb.resident h hr fun _ _ => id).setProc rfl

theorem exec_load (halloc : Allocates NoTable alloc) (h : Inv NoTable g s)
    (hs : Settled g s) (p va : ℕ) :
    wp ((Act.load p va).exec alloc) (fun o s' => Served C (.load p va) o g s s')
      (Stopped (.load p va)) s := by
  refine asProc_spec h hs rfl trivial fun s₀ _ hinv hs hp _ hkill => ?_
  refine wp_call (userLoad_spec halloc hinv hp hkill va) fun o s' hl => ?_
  cases o with
  | some b =>
    obtain ⟨hb, hva, g', h', hback⟩ := hl
    refine .of_keeps hback.owned h' (hs.below hinv hp hback) rfl
      (fun ho x => hback.userByte_eq ho hinv fun _ => id) (fun ho => ⟨hva, ?_⟩)
      fun _ hr => hback.resident hinv hr fun _ _ => id
    rw [hb ho, userByte_of_root hinv rfl hp.root]
  | none => exact Ended.served hl hinv hs hp rfl trivial

theorem exec_store (halloc : Allocates NoTable alloc) (h : Inv NoTable g s)
    (hs : Settled g s) (p va : ℕ) (b : BitVec 8) :
    wp ((Act.store p va b).exec alloc) (fun o s' => Served C (.store p va b) o g s s')
      (Stopped (.store p va b)) s := by
  refine asProc_spec h hs rfl trivial fun s₀ _ hinv hs hp _ hkill => ?_
  refine wp_call (userStore_spec halloc hinv hp hkill va b) fun ok s' hl => ?_
  cases ok with
  | true =>
    obtain ⟨-, ⟨g', h', hback⟩, hbyte⟩ := hl
    refine ⟨⟨g', hback.owned, h', hs.below hinv hp hback⟩, fun ho => ⟨_, rfl, ?_⟩, fun _ => trivial,
      fun _ hr => hback.resident hinv hr fun _ _ => id⟩
    refine userByte_stored ho hinv h' hp hback fun va' hva' => ?_
    rw [hbyte ho va' hva']
    by_cases he : va' = va
    · subst he
      simp
    · rw [if_neg he, if_neg]
      simp only [List.length_singleton]
      omega
  | false => exact Ended.served hl hinv hs hp rfl trivial

theorem exec_copyin (halloc : Allocates NoTable alloc) (h : Inv NoTable g s)
    (hs : Settled g s) (p srcva len : ℕ) :
    wp ((Act.copyin p srcva len).exec alloc) (fun o s' =>
      Served ((Act.copyin p srcva len).Stays alloc s) (.copyin p srcva len) o g s s')
      (Stopped (.copyin p srcva len)) s := by
  refine asProc_spec h hs rfl trivial fun s₀ hs₀ hinv hs hp _ _ => ?_
  rw [wp_bind, wp_get]
  refine wp_call (wp_error_imp (copyin_spec halloc hinv hp srcva len)
    fun _ _ he => Or.inl he) fun o s' hl => ?_
  obtain ⟨⟨g', h', hback⟩, hbytes⟩ := hl
  refine .of_keeps hback.owned h' (hs.below hinv hp hback) rfl
    (fun ho x => hback.userByte_eq ho hinv fun _ => id) (fun ho => ?_)
    fun hc hr => hback.resident hinv hr fun _ _ hl => hl.2 (by rw [hs₀]; exact hc)
  cases o with
  | none => trivial
  | some bs =>
    obtain ⟨hlt, hbytes⟩ := hbytes bs rfl
    obtain rfl := hbytes ho
    refine ⟨by simp, fun j hj => ⟨hlt j hj, ?_⟩⟩
    rw [userByte_of_root hinv rfl hp.root]
    simp [hj]

theorem exec_copyout (halloc : Allocates NoTable alloc) (h : Inv NoTable g s)
    (hs : Settled g s) (p dstva : ℕ) (src : List (BitVec 8)) :
    wp ((Act.copyout p dstva src).exec alloc) (fun o s' =>
      Served ((Act.copyout p dstva src).Stays alloc s) (.copyout p dstva src) o g s s')
      (Stopped (.copyout p dstva src)) s := by
  refine asProc_spec h hs rfl trivial fun s₀ hs₀ hinv hs hp _ _ => ?_
  rw [wp_bind, wp_get]
  refine wp_call (wp_error_imp (copyout_spec halloc hinv hp dstva src)
    fun _ _ he => Or.inl he) fun ret s' hl => ?_
  obtain ⟨⟨g', h', hback⟩, hst⟩ := hl
  refine ⟨⟨g', hback.owned, h', hs.below hinv hp hback⟩, fun ho => ?_, fun _ => trivial,
    fun hc hr => hback.resident hinv hr fun _ _ hl => hl.2 (by rw [hs₀]; exact hc)⟩
  rcases hst ho with ⟨rfl, hst⟩ | ⟨rfl, m, hm, hst⟩
  · refine ⟨_, ⟨src.length, le_rfl, fun _ => rfl, rfl⟩, userByte_stored ho hinv h' hp hback ?_⟩
    rwa [List.take_length]
  · exact ⟨_, ⟨m, hm, fun h0 => by omega, rfl⟩, userByte_stored ho hinv h' hp hback hst⟩

theorem exec_sbrk (halloc : Allocates NoTable alloc) (h : Inv NoTable g s)
    (hs : Settled g s) (p : ℕ) (n : BitVec 32) (eager : Bool) :
    wp ((Act.sbrk p n eager).exec alloc) (fun o s' => Served C (.sbrk p n eager) o g s s')
      (Stopped (.sbrk p n eager)) s := by
  refine asProc_spec h hs rfl trivial fun s₀ _ hinv hs hp hused _ => ?_
  have hn : -2 ^ 31 ≤ n.toInt := by
    have := BitVec.le_toInt n
    simpa using this
  refine wp_call (wp_error_imp (sysSbrk_spec halloc hinv hp hn eager)
    fun _ _ he => Or.inl he) fun ret s' hl => ?_
  obtain ⟨sz', hres, hret, hsz⟩ := hl
  have hsound := hres.settled hinv hs hp hused
  obtain ⟨g', s₁, h₁, hback, habs, rfl⟩ := hres.outcome
  refine ⟨hsound, fun ho => ⟨_, rfl, fun x => ?_⟩, fun _ => trivial,
    fun _ hr => (hback.resident hinv hr fun _ _ => id).setProc rfl⟩
  refine (userByte_setSz s₁ p sz' x).trans ?_
  -- the pages of the cut are gone, the others are as they were
  have hkeep : ¬ Cut (s₀.procs p).pagetable sz' (s₀.procs p).sz (s₀.procs x.1).pagetable
      (vkey x.2.val) → userByte s₁ x = userByte s₀ x := fun hcut =>
    hback.userByte_eq ho hinv fun _ => hcut
  by_cases hneg : n.toInt < 0
  · rw [hret hneg]
    by_cases hle : 0 ≤ ((s₀.procs p).sz : ℤ) + n.toInt
    · rw [if_pos ⟨hneg, hle⟩] at hsz ⊢
      rw [Patch.apply, unmaps]
      have haddr : (vkey x.2.val).addr = pgrounddown x.2.val := by
        have := x.2.property
        simp only [trapframe_eq] at this
        rw [addr_vkey (by omega), pgrounddown, pgsize_eq]
      by_cases hx : x.1 = p ∧ ((s₀.procs p).sz : ℤ) + n.toInt ≤ pgrounddown x.2.val
      · rw [if_pos hx]
        obtain ⟨q, va⟩ := x
        obtain ⟨rfl, hva⟩ := hx
        rw [userByte_of_root h₁ (hback.pagetable q) (hback.own_root hp.root)]
        refine byteAt_of_zero (habs _ (userKey_vkey va.property) ?_)
        rw [haddr]
        omega
      · rw [if_neg hx]
        refine hkeep fun hcut => hx ⟨?_, ?_⟩
        · by_contra hne
          refine hp.other hinv hne ?_ hcut.1
          rw [hcut.1]
          exact hinv.root_ne_zero hp.root
        · have := hcut.2.2
          rw [haddr] at this
          omega
    · rw [if_neg fun hc => hle hc.2] at hsz ⊢
      exact hkeep fun hcut => not_lt.mpr hsz hcut.2.1
  · rw [if_neg fun hc => hneg hc.1] at hsz ⊢
    exact hkeep fun hcut => not_lt.mpr hsz hcut.2.1

theorem exec_alloc (halloc : Allocates NoTable alloc) (h : Inv NoTable g s) (hs : Settled g s) :
    wp (Act.alloc.exec alloc) (fun o s' => Served C .alloc o g s s') (Stopped .alloc) s := by
  refine wp_call (wp_error_imp (halloc h) fun _ _ he => Or.inl he) fun pa s' hl => ?_
  obtain ⟨g', ha⟩ := hl
  exact .of_keeps ha.background.owned ha.inv (hs.background h ha.background fun _ _ _ _ => id) rfl
    (fun ho x => ha.background.userByte_eq ho h fun _ => id) (fun _ => trivial)
    fun _ hr => ha.background.resident h hr fun _ _ => id

theorem exec_spawn (halloc : Allocates NoTable alloc) (h : Inv NoTable g s) (hs : Settled g s) :
    wp (Act.spawn.exec alloc) (fun o s' => Served C .spawn o g s s') (Stopped .spawn) s := by
  refine wp_call (wp_error_imp (allocproc_spec halloc h hs) fun _ _ he => Or.inl he)
    fun o s' hl => ?_
  cases o with
  | none =>
    obtain rfl := hl
    exact .of_keeps rfl h hs rfl (fun _ _ => rfl) (fun _ => trivial) fun _ hr => hr
  | some p =>
    obtain ⟨g', hsp⟩ := hl
    refine .of_keeps hsp.keeps.owned hsp.inv hsp.settled rfl (fun ho x => ?_) (fun _ => trivial)
      fun _ => hsp.resident h
    -- the new address space is as empty as no address space
    obtain ⟨q, va⟩ := x
    by_cases hq : q = p
    · subst hq
      rw [userByte, if_neg (hsp.settled.used q hsp.used), userByte,
        if_pos (hs.unused q hsp.unused).1]
      exact byteAt_of_zero (hsp.empty _ (userKey_vkey va.property))
    · exact userByte_congr (hsp.others q hq).pagetable fun hpt =>
        hsp.keeps.logical ho _ _ (h.procTable.root q hpt) id (userKey_vkey va.property)

theorem exec_exit (h : Inv NoTable g s) (hs : Settled g s) (p : ℕ) :
    wp ((Act.exit p).exec alloc) (fun o s' => Served C (.exit p) o g s s')
    (Stopped (.exit p)) s := by
  rw [Act.exec, wp_bind, wp_get, wp_ite]
  refine ⟨fun hused => ?_, fun _ => .of_keeps rfl h hs rfl (fun _ _ => rfl) (fun _ => trivial)
    fun _ hr => hr⟩
  refine wp_call (freeproc_spec h hs (hs.used p hused)) fun _ s' hl => ?_
  obtain ⟨g', hex⟩ := hl
  refine ⟨⟨g', hex.keeps.owned, hex.inv, hex.settled⟩, fun ho => ⟨unmaps p 0, rfl, fun x => ?_⟩,
    fun _ => trivial, fun _ hr => hex.keeps.resident h hr hex.others
      (fun q hq hpt he => hq (h.procTable.inj q p hpt he))
      fun hne => absurd (hex.settled.unused p hex.unused).1 hne⟩
  obtain ⟨q, va⟩ := x
  rw [Patch.apply, unmaps]
  by_cases hq : q = p
  · subst hq
    rw [if_pos ⟨rfl, by omega⟩, userByte, if_pos (hex.settled.unused q hex.unused).1]
    rfl
  · rw [if_neg fun hc => hq hc.1]
    exact userByte_congr (hex.others q hq).pagetable fun hpt =>
      hex.keeps.logical ho _ _ (h.procTable.root q hpt)
        (fun he => hq (h.procTable.inj q p hpt he)) (userKey_vkey va.property)

/-- **Every request is one patch**, and it stops only for lack of memory, or in `walk` when user
code accesses an address beyond `MAXVA`. -/
theorem exec_spec (halloc : Allocates NoTable alloc) (h : Inv NoTable g s)
    (hs : Settled g s) (a : Act) :
    wp (a.exec alloc) (fun o s' => Served (a.Stays alloc s) a o g s s') (Stopped a) s := by
  cases a with
  | load p va => exact exec_load halloc h hs p va
  | store p va b => exact exec_store halloc h hs p va b
  | copyin p srcva len => exact exec_copyin halloc h hs p srcva len
  | copyout p dstva src => exact exec_copyout halloc h hs p dstva src
  | sbrk p n eager => exact exec_sbrk halloc h hs p n eager
  | alloc => exact exec_alloc halloc h hs
  | spawn => exact exec_spawn halloc h hs
  | exit p => exact exec_exit h hs p

end

/-! ### Runs -/

/-- What a run of requests gives. -/
structure Transparent (as : List Act) (os : List Out) (s s' : Kernel) : Prop where
  coherent : Coherent s'
  explained : ∃ ws, Patch.Explains Asked Returns (userByte s) as os ws (userByte s')

theorem serve_spec {s : Kernel} (h : Coherent s) (as : List Act) :
    wp (serve kalloc as) (fun os s' => Transparent as os s s')
      (fun e s' => ∃ a ∈ as, Stopped a e s') s := by
  induction as generalizing s with
  | nil => exact ⟨h, [], .nil⟩
  | cons a as ih =>
    obtain ⟨g, ho, hinv, hset⟩ := h
    rw [serve]
    refine wp_call (wp_error_imp (exec_spec kalloc_spec hinv hset a)
      fun _ _ he => ⟨a, List.mem_cons_self, he⟩) fun o s₁ hs₁ => ?_
    obtain ⟨g₁, ho₁, h₁, hset₁⟩ := hs₁.sound
    refine wp_call (wp_error_imp (ih ⟨g₁, ho₁ ▸ ho, h₁, hset₁⟩)
      fun _ _ ⟨a', ha', he⟩ => ⟨a', List.mem_cons_of_mem a ha', he⟩) fun os s' ht => ?_
    obtain ⟨w, hask, hw⟩ := hs₁.patch ho
    obtain ⟨ws, hws⟩ := ht.explained
    rw [funext hw] at hws
    exact ⟨ht.coherent, w :: ws, .cons hask (hs₁.returns ho) hws⟩

/-- **Swapping is transparent.** Boot leaves a coherent state. From every coherent state, every run
of requests that returns leads to a coherent state, and patches explain it: each request changed
exactly the bytes it was asked to store or to unmap, and each load and each `copyin` returned the
last values stored. A run that does not return has run out of evictable frames or of slots, or
user code has accessed an address beyond `MAXVA`. -/
theorem swap_transparent :
    (∀ kend trampolinePa, kernbase ≤ kend → kend + nframe * pgsize ≤ phystop →
      Coherent (bootState kend trampolinePa)) ∧
    ∀ s, Coherent s → ∀ as : List Act,
      match serve kalloc as s with
      | .ok os s' => Coherent s' ∧
          ∃ ws, Patch.Explains Asked Returns (userByte s) as os ws (userByte s')
      | .error e s' => Exhausted NoTable e s' ∨ (e = .panic "walk" ∧ ∃ a ∈ as, a.Beyond) := by
  refine ⟨fun kend trampolinePa => coherent_boot trampolinePa, fun s h as => ?_⟩
  have hspec := serve_spec h as
  cases hrun : serve kalloc as s with
  | ok os s' =>
    have ht := wp_ok hspec hrun
    exact ⟨ht.coherent, ht.explained⟩
  | error e s' =>
    obtain ⟨a, ha, he⟩ := wp_error hspec hrun
    exact he.imp_right fun he => ⟨he.1, a, ha, he.2⟩

/-- A machine with `n` free pages, the others being in the hands of the kernel. -/
def smallBoot (n : ℕ) : Kernel :=
  { bootState 0x80030000 0 with freelist := (List.range n).map fun i => 0x80100000 + i * 4096 }

theorem coherent_smallBoot {n : ℕ} (hn : n ≤ 100) : Coherent (smallBoot n) := by
  refine coherent_of_freelist (by simp) (List.Nodup.map (fun i j hij => ?_) List.nodup_range)
    fun a ha => ?_
  · omega
  · obtain ⟨i, hi, rfl⟩ := List.mem_map.mp ha
    have := List.mem_range.mp hi
    simp only [Managed, phystop_eq]
    omega

/-- A process touches two pages. The second takes the place of the first, which is evicted; when the
second is given back, a load brings the first one in again. -/
def readBack : List Act :=
  [.spawn, .sbrk 0 8192#32 false, .store 0 100 7#8, .store 0 5000 9#8, .sbrk 0 (-4096#32) false,
    .load 0 100]

theorem swap_transparent_readBack :
    Coherent (smallBoot 7) ∧ ∃ s', serve kalloc readBack (smallBoot 7)
        = .ok [.proc (some 0), .ret 0, .done true, .done true, .ret 8192, .byte (some 7#8)] s' ∧
      Coherent s' ∧ ∃ ws, Patch.Explains Asked Returns (userByte (smallBoot 7)) readBack
        [.proc (some 0), .ret 0, .done true, .done true, .ret 8192, .byte (some 7#8)] ws
        (userByte s') := by
  have h := swap_transparent.2 (smallBoot 7) (coherent_smallBoot (by decide)) readBack
  obtain ⟨os, s', hrun, rfl⟩ : ∃ os s', serve kalloc readBack (smallBoot 7) = .ok os s' ∧
      os = [.proc (some 0), .ret 0, .done true, .done true, .ret 8192, .byte (some 7#8)] := by
    decide +kernel
  rw [hrun] at h
  exact ⟨coherent_smallBoot (by decide), s', hrun, h⟩

end Mem

end Xv6
