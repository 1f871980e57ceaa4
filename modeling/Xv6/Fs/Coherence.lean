import Xv6.Fs.CacheSafety
import Xv6.Lib.Simulation

/-!
# The buffer cache is a store of blocks

What the cache is for: its users see one store of blocks, each of which one user at a time can
take, read, change and give back. `Store` says that and nothing about buffers. The cache refines
it (`cache_refines_store`) for users that keep to one rule: a buffer is released only if its bytes
are on the disk or if it is pinned. A user who writes the block before releasing it keeps the
rule, and so does one who leaves the buffer to the log, which pins it.

Then the contents of a block are in its buffer when there is a valid one and on the disk when
there is none, and a buffer with bytes that are not on the disk is in use or pinned, so that
`bget` never recycles it.
-/

namespace Xv6

namespace Fs

namespace Cache

open Disk (Block)
open Transition
open Function (update update_self update_of_ne)

variable {b dev : ℕ} {y : Pc}

/-- `ROOTDEV`. -/
def rootdev : ℕ := 1

/-- Blocks, and who has taken which. -/
structure Store (ι : Type) where
  content : ℕ → Block
  holder : ι → Option ℕ

namespace Store

variable {ι : Type} [DecidableEq ι]

inductive Act (ι : Type) where
  | get (u : ι) (b : ℕ) (v : Block)
  | put (u : ι) (b : ℕ) (v : Block)
  | release (u : ι) (b : ℕ)

open Classical in
/-- A block is taken by one user at a time, who sees what was last stored in it. -/
noncomputable def step (t : Store ι) : Act ι → Option (Store ι)
  | .get u b v =>
    if t.holder u = none ∧ (∀ w, t.holder w ≠ some b) ∧ v = t.content b then
      some { t with holder := update t.holder u (some b) }
    else none
  | .put u b v =>
    if t.holder u = some b then some { t with content := update t.content b v } else none
  | .release u b =>
    if t.holder u = some b then some { t with holder := update t.holder u none } else none

end Store

section Refinement

variable {ι : Type} [DecidableEq ι]

/-- What a user of the cache sees: `bread` returns, the bytes are changed, `brelse` is called. -/
def obs (s : State ι) : Act ι → List (Store.Act ι)
  | .acquiresleep u =>
    match s.pc u with
    | .held .wait i _ b => if (s.buf i).valid then [.get u b (s.buf i).data] else []
    | _ => []
  | .fill u =>
    match s.pc u with
    | .held .fill i _ b => [.get u b (s.disk (s.buf i).blockno)]
    | _ => []
  | .store u v =>
    match s.pc u with
    | .held .use _ _ b => [.put u b v]
    | _ => []
  | .releasesleep u =>
    match s.pc u with
    | .held .use _ _ b => [.release u b]
    | _ => []
  | _ => []

/-- What the users promise: there is one device, and a buffer is released with its bytes on the
disk or pinned. -/
def Careful (s : State ι) : Act ι → Prop
  | .bget _ dev _ => dev = rootdev
  | .releasesleep u => ∀ i ∈ (s.pc u).locks,
      (s.buf i).data = s.disk (s.buf i).blockno ∨ 0 < s.pins i
  | _ => True

instance decidableCareful (s : State ι) : ∀ a : Act ι, Decidable (Careful s a)
  | .bget _ dev _ => inferInstanceAs (Decidable (dev = rootdev))
  | .releasesleep u => inferInstanceAs (Decidable (∀ i ∈ (s.pc u).locks,
      (s.buf i).data = s.disk (s.buf i).blockno ∨ 0 < s.pins i))
  | .acquiresleep _ | .fill _ | .store _ _ | .bwrite _ | .bpin _ | .bunpin _ | .put _ =>
    isTrue trivial

/-- The block a use has taken. -/
def Pc.taken : Pc → Option ℕ
  | .held .use _ _ b => some b
  | _ => none

variable [Fintype ι]

/-- **The cache and the disk hold the store.** -/
structure Holds (s : State ι) (t : Store ι) : Prop where
  inv : ∃ l, Inv s l
  root : ∀ u ph i dev b, s.pc u = .held ph i dev b → dev = rootdev
  dev : ∀ i, (s.buf i).valid = true → (s.buf i).dev = rootdev
  filling : ∀ u i dev b, s.pc u = .held .fill i dev b → (s.buf i).valid = false
  holder : ∀ u, t.holder u = (s.pc u).taken
  cached : ∀ i, (s.buf i).valid = true → (s.buf i).data = t.content (s.buf i).blockno
  uncached : ∀ b, (∀ i, (s.buf i).valid = true → (s.buf i).blockno ≠ b) → s.disk b = t.content b
  /-- Bytes that are not on the disk are not lost. -/
  dirty : ∀ i, (s.buf i).valid = true → (s.buf i).data ≠ s.disk (s.buf i).blockno →
    (∃ u dev b, s.pc u = .held .use i dev b) ∨ 0 < s.pins i

variable {s s' : State ι} {t : Store ι} {u : ι} {i j : Fin nbuf}

omit [DecidableEq ι] in
/-- Two valid buffers hold different blocks. -/
theorem Holds.blockno_ne (h : Holds s t) (hi : (s.buf i).valid = true)
    (hj : (s.buf j).dev = rootdev) (hij : i ≠ j) : (s.buf i).blockno ≠ (s.buf j).blockno := by
  intro hb
  obtain ⟨l, hinv⟩ := h.inv
  refine hij (hinv.uniq i j ?_ ((h.dev i hi).trans hj.symm) hb)
  rw [h.dev i hi]
  decide

/-- The two states have the same bytes in the same places. -/
structure SameBytes (s s' : State ι) : Prop where
  buf : ∀ j, (s'.buf j).valid = (s.buf j).valid ∧ (s'.buf j).dev = (s.buf j).dev ∧
    (s'.buf j).blockno = (s.buf j).blockno ∧ (s'.buf j).data = (s.buf j).data
  disk : s'.disk = s.disk

omit [DecidableEq ι] [Fintype ι] in
theorem SameBytes.of_setBuf {x : Buf ι} (hbuf : s'.buf = update s.buf i x)
    (hv : x.valid = (s.buf i).valid) (hd : x.dev = (s.buf i).dev)
    (hb : x.blockno = (s.buf i).blockno) (hx : x.data = (s.buf i).data) (hdisk : s'.disk = s.disk) :
    SameBytes s s' := by
  refine ⟨fun j => ?_, hdisk⟩
  rw [hbuf]
  by_cases hj : j = i
  · subst hj
    rw [update_self]
    exact ⟨hv, hd, hb, hx⟩
  · rw [update_of_ne hj]
    exact ⟨rfl, rfl, rfl, rfl⟩

omit [DecidableEq ι] [Fintype ι] in
/-- `brelse` counts and moves the buffer in the list, and touches nothing else. -/
theorem putBuf_same (s : State ι) (i : Fin nbuf) :
    SameBytes s (s.putBuf i) ∧ (s.putBuf i).pc = s.pc ∧ (s.putBuf i).pins = s.pins := by
  unfold State.putBuf
  split_ifs
  · exact ⟨.of_setBuf rfl rfl rfl rfl rfl rfl, rfl, rfl⟩
  · exact ⟨.of_setBuf rfl rfl rfl rfl rfl rfl, rfl, rfl⟩

omit [DecidableEq ι] in
/-- Actions that move no bytes. -/
theorem Holds.of_same (h : Holds s t) (hinv : ∃ l, Inv s' l) (hsame : SameBytes s s')
    {holder : ι → Option ℕ} (hholder : ∀ u, holder u = (s'.pc u).taken)
    (hroot : ∀ u ph i dev b, s'.pc u = .held ph i dev b → dev = rootdev)
    (hfill : ∀ u i dev b, s'.pc u = .held .fill i dev b → (s.buf i).valid = false)
    (hdirty : ∀ i, (s.buf i).data ≠ s.disk (s.buf i).blockno →
      (∃ u dev b, s.pc u = .held .use i dev b) ∨ 0 < s.pins i →
      (∃ u dev b, s'.pc u = .held .use i dev b) ∨ 0 < s'.pins i) :
    Holds s' { t with holder := holder } where
  inv := hinv
  root := hroot
  dev := by
    intro i hi
    rw [(hsame.buf i).1] at hi
    rw [(hsame.buf i).2.1]
    exact h.dev i hi
  filling := by
    intro u i dev b hu
    rw [(hsame.buf i).1]
    exact hfill u i dev b hu
  holder := hholder
  cached := by
    intro i hi
    rw [(hsame.buf i).1] at hi
    rw [(hsame.buf i).2.2.1, (hsame.buf i).2.2.2]
    exact h.cached i hi
  uncached := by
    intro b hb
    rw [hsame.disk]
    refine h.uncached b fun i hi => ?_
    have := hb i
    rw [(hsame.buf i).1, (hsame.buf i).2.2.1] at this
    exact this hi
  dirty := by
    intro i hi hne
    rw [(hsame.buf i).1] at hi
    rw [(hsame.buf i).2.2.1, (hsame.buf i).2.2.2, hsame.disk] at hne
    exact hdirty i hne (h.dirty i hi hne)

omit [Fintype ι] in
theorem update_pc_cases {pc : ι → Pc} {x : Pc} {w : ι} (h : update pc u y w = x) :
    w = u ∧ y = x ∨ w ≠ u ∧ pc w = x := by
  by_cases hw : w = u
  · subst hw
    rw [update_self] at h
    exact Or.inl ⟨rfl, h⟩
  · rw [update_of_ne hw] at h
    exact Or.inr ⟨hw, h⟩

/-! One use goes on: what this does to the fields about `pc`. -/

theorem Holds.holder_update (h : Holds s t) (hpc : s'.pc = update s.pc u y) (w : ι) :
    update t.holder u y.taken w = (s'.pc w).taken := by
  rw [hpc, Function.apply_update (fun _ => Pc.taken)]
  exact congrFun (congrArg (fun f => update f u y.taken) (funext h.holder)) w

theorem Holds.holder_same (h : Holds s t) (hpc : s'.pc = update s.pc u y)
    (hy : y.taken = (s.pc u).taken) (w : ι) : t.holder w = (s'.pc w).taken := by
  rw [← h.holder_update hpc, hy, ← h.holder, Function.update_eq_self]

theorem Holds.root_update (h : Holds s t) (hpc : s'.pc = update s.pc u y)
    (hy : ∀ ph i dev b, y = .held ph i dev b → dev = rootdev) (w : ι) (ph : Phase) (i : Fin nbuf)
    (dev b : ℕ) (hw : s'.pc w = .held ph i dev b) : dev = rootdev := by
  rw [hpc] at hw
  rcases update_pc_cases hw with ⟨-, hw⟩ | ⟨-, hw⟩
  · exact hy ph i dev b hw
  · exact h.root w ph i dev b hw

theorem Holds.filling_update (h : Holds s t) (hpc : s'.pc = update s.pc u y)
    (hy : ∀ i dev b, y = .held .fill i dev b → (s.buf i).valid = false) (w : ι) (i : Fin nbuf)
    (dev b : ℕ) (hw : s'.pc w = .held .fill i dev b) : (s.buf i).valid = false := by
  rw [hpc] at hw
  rcases update_pc_cases hw with ⟨-, hw⟩ | ⟨-, hw⟩
  · exact hy i dev b hw
  · exact h.filling w i dev b hw

omit [Fintype ι] in
theorem users_update (hpc : s'.pc = update s.pc u y) (hx : (s.pc u).taken = none) :
    (∃ w dev b, s.pc w = .held .use i dev b) → ∃ w dev b, s'.pc w = .held .use i dev b := by
  rintro ⟨w, dev, b, hw⟩
  have hwu : w ≠ u := by
    rintro rfl
    rw [hw] at hx
    cases hx
  exact ⟨w, dev, b, by rw [hpc, update_of_ne hwu]; exact hw⟩

/-- A use that has not taken a block goes on and moves no bytes. -/
theorem Holds.quiet (h : Holds s t) (hinv : ∃ l, Inv s' l) (hsame : SameBytes s s')
    (hpc : s'.pc = update s.pc u y) (hpins : s'.pins = s.pins) (hx : (s.pc u).taken = none)
    (hy : y.taken = none) (hroot : ∀ ph i dev b, y = .held ph i dev b → dev = rootdev)
    (hfill : ∀ i dev b, y = .held .fill i dev b → (s.buf i).valid = false) : Holds s' t := by
  refine h.of_same hinv hsame (h.holder_same hpc (hy.trans hx.symm)) (h.root_update hpc hroot)
    (h.filling_update hpc hfill) (fun i _ hor => ?_)
  rw [hpins]
  exact hor.imp_left (users_update hpc hx)

omit [DecidableEq ι] in
/-- A user who already has its buffer and changes no bytes. -/
theorem Holds.still (h : Holds s t) (hinv : ∃ l, Inv s' l) (hsame : SameBytes s s')
    (hpc : s'.pc = s.pc) (hu : s.pc u = .held .use i dev b)
    (hpins : ∀ j ≠ i, s'.pins j = s.pins j) : Holds s' t := by
  refine h.of_same hinv hsame (fun w => by rw [hpc]; exact h.holder w)
    (by rw [hpc]; exact h.root) (by rw [hpc]; exact h.filling) (fun j _ hor => ?_)
  rw [hpc]
  by_cases hj : j = i
  · exact Or.inl ⟨u, dev, b, hj ▸ hu⟩
  · rw [hpins j hj]
    exact hor

/-- A recycled buffer had nothing that is not on the disk. -/
theorem Holds.recycle (h : Holds s t) (hinv : ∃ l, Inv s' l) (hdev : dev = rootdev)
    (hidle : s.pc u = .idle) (hi : s.findUnused = some i) (hbuf : ∀ k ≠ i, s'.buf k = s.buf k)
    (hbufi : (s'.buf i).valid = false) (hpc : s'.pc = update s.pc u (.held .wait i dev b))
    (hdisk : s'.disk = s.disk) (hpins : s'.pins = s.pins) : Holds s' t := by
  obtain ⟨l, hinv₀⟩ := h.inv
  obtain ⟨hnopin, hon⟩ := hinv₀.of_refcnt_zero (hinv₀.findUnused_some hi).1
  have hclean : (s.buf i).valid = true → (s.buf i).data = s.disk (s.buf i).blockno := by
    intro hv
    by_contra hne
    rcases h.dirty i hv hne with ⟨w, dev', b', hw⟩ | hp
    · have := hon w
      rw [hw, Pc.on_held_self] at this
      cases this
    · omega
  have hvalid : ∀ k, (s'.buf k).valid = true → k ≠ i := by
    intro k hk hki
    rw [hki, hbufi] at hk
    cases hk
  refine
    { inv := hinv, root := h.root_update hpc ?_, dev := ?_, filling := ?_
      holder := h.holder_same hpc (by rw [hidle]; rfl), cached := ?_, uncached := ?_, dirty := ?_ }
  · intro ph k dev' b' hk
    cases hk
    exact hdev
  · intro k hk
    have hki := hvalid k hk
    rw [hbuf k hki] at hk ⊢
    exact h.dev k hk
  · intro w k dev' b' hw
    by_cases hki : k = i
    · rw [hki, hbufi]
    · rw [hbuf k hki]
      exact h.filling_update hpc (fun _ _ _ hk => by cases hk) w k dev' b' hw
  · intro k hk
    have hki := hvalid k hk
    rw [hbuf k hki] at hk ⊢
    exact h.cached k hk
  · intro c hcached
    rw [hdisk]
    by_cases hci : (s.buf i).valid = true ∧ (s.buf i).blockno = c
    · rw [← hci.2, ← h.cached i hci.1, hclean hci.1]
    · refine h.uncached c fun k hk hkc => ?_
      by_cases hki : k = i
      · subst hki
        exact hci ⟨hk, hkc⟩
      · have := hcached k
        rw [hbuf k hki] at this
        exact this hk hkc
  · intro k hk hne
    have hki := hvalid k hk
    rw [hbuf k hki, hdisk] at hne
    rw [hbuf k hki] at hk
    rw [hpins]
    exact (h.dirty k hk hne).imp_left (users_update hpc (by rw [hidle]; rfl))

omit [DecidableEq ι] in
/-- A use that waits for a lock that is free finds the block taken by nobody. -/
theorem Holds.not_taken (h : Holds s t) {ph : Phase} (hu : s.pc u = .held ph i dev b)
    (hl : ∀ w, (s.buf i).lock = some w → w = u) (hx : (s.pc u).taken = none) (w : ι) :
    t.holder w ≠ some b := by
  intro hw
  obtain ⟨l, hinv⟩ := h.inv
  rw [h.holder] at hw
  obtain ⟨j, dev', hpw⟩ : ∃ j dev', s.pc w = .held .use j dev' b := by
    cases hpw : s.pc w with
    | idle =>
      rw [hpw] at hw
      cases hw
    | held ph' j dev' b' =>
      rw [hpw] at hw
      cases ph' with
      | use =>
        cases hw
        exact ⟨j, dev', rfl⟩
      | wait | fill | drop => cases hw
  have hij : i = j := by
    obtain ⟨hd, hb⟩ := hinv.tag u ph i dev b hu
    obtain ⟨hd', hb'⟩ := hinv.tag w .use j dev' b hpw
    rw [h.root u ph i dev b hu] at hd
    rw [h.root w .use j dev' b hpw] at hd'
    refine hinv.uniq i j ?_ (hd.trans hd'.symm) (hb.trans hb'.symm)
    rw [hd]
    decide
  have hlw : (s.buf i).lock = some w := (hinv.lock i w).mpr (by rw [hpw, hij]; rfl)
  rw [← hl w hlw, hpw] at hx
  cases hx

/-- `bread` finds the block in a valid buffer. -/
theorem Holds.get (h : Holds s t) (hinv : ∃ l, Inv s' l) (hsame : SameBytes s s')
    (hu : s.pc u = .held .wait i dev b) (hpc : s'.pc = update s.pc u (.held .use i dev b))
    (hpins : s'.pins = s.pins) : Holds s' { t with holder := update t.holder u (some b) } := by
  refine h.of_same hinv hsame (h.holder_update hpc) (h.root_update hpc fun ph k dev' b' hk => ?_)
    (h.filling_update hpc fun k dev' b' hk => by cases hk) (fun k _ hor => ?_)
  · cases hk
    exact h.root u .wait i dev b hu
  · rw [hpins]
    exact hor.imp_left (users_update hpc (by rw [hu]; rfl))

/-- `bread` reads the block from the disk. -/
theorem Holds.fill (h : Holds s t) (hinv : ∃ l, Inv s' l) (hu : s.pc u = .held .fill i dev b)
    (hbuf : ∀ k ≠ i, s'.buf k = s.buf k)
    (hbufi : s'.buf i = { s.buf i with data := s.disk (s.buf i).blockno, valid := true })
    (hpc : s'.pc = update s.pc u (.held .use i dev b)) (hdisk : s'.disk = s.disk)
    (hpins : s'.pins = s.pins) :
    Holds s' { t with holder := update t.holder u (some b) } ∧
      s.disk (s.buf i).blockno = t.content b := by
  obtain ⟨l, hinv₀⟩ := h.inv
  obtain ⟨hd, hb⟩ := hinv₀.tag u .fill i dev b hu
  have hroot : (s.buf i).dev = rootdev := hd.trans (h.root u .fill i dev b hu)
  have hinvalid := h.filling u i dev b hu
  have hother : ∀ k, (s.buf k).valid = true → k ≠ i ∧ (s.buf k).blockno ≠ b := by
    intro k hk
    have hki : k ≠ i := by
      rintro rfl
      rw [hinvalid] at hk
      cases hk
    exact ⟨hki, hb ▸ h.blockno_ne hk hroot hki⟩
  have hcontent : s.disk (s.buf i).blockno = t.content b := by
    rw [hb]
    exact h.uncached b fun k hk => (hother k hk).2
  have hlock : (s.buf i).lock = some u := (hinv₀.lock i u).mpr (by rw [hu]; rfl)
  refine ⟨
    { inv := hinv, root := h.root_update hpc ?_, dev := ?_, filling := ?_
      holder := h.holder_update hpc, cached := ?_, uncached := ?_, dirty := ?_ }, hcontent⟩
  · intro ph k dev' b' hk
    cases hk
    exact h.root u .fill i dev b hu
  · intro k hk
    by_cases hki : k = i
    · rw [hki, hbufi]
      exact hroot
    · rw [hbuf k hki] at hk ⊢
      exact h.dev k hk
  · intro w k dev' b' hw
    rw [hpc] at hw
    rcases update_pc_cases hw with ⟨-, hx⟩ | ⟨hwu, hx⟩
    · cases hx
    · have hki : k ≠ i := by
        intro hki
        have hw' := (hinv₀.lock i w).mpr (by rw [hx, hki]; rfl)
        exact hwu (Option.some.inj (hw'.symm.trans hlock))
      rw [hbuf k hki]
      exact h.filling w k dev' b' hx
  · intro k hk
    by_cases hki : k = i
    · rw [hki, hbufi]
      show s.disk (s.buf i).blockno = t.content (s.buf i).blockno
      rw [hcontent, hb]
    · rw [hbuf k hki] at hk ⊢
      exact h.cached k hk
  · intro c hc
    rw [hdisk]
    refine h.uncached c fun k hk => ?_
    have := hc k
    rw [hbuf k (hother k hk).1] at this
    exact this hk
  · intro k hk hne
    by_cases hki : k = i
    · refine absurd ?_ hne
      rw [hki, hbufi, hdisk]
    · rw [hbuf k hki] at hk hne
      rw [hdisk] at hne
      rw [hpins]
      exact (h.dirty k hk hne).imp_left (users_update hpc (by rw [hu]; rfl))

omit [DecidableEq ι] in
/-- The user changes the bytes of its block. -/
theorem Holds.put (h : Holds s t) (hinv : ∃ l, Inv s' l) {v : Block}
    (hu : s.pc u = .held .use i dev b) (hbuf : ∀ k ≠ i, s'.buf k = s.buf k)
    (hbufi : s'.buf i = { s.buf i with data := v }) (hpc : s'.pc = s.pc) (hdisk : s'.disk = s.disk)
    (hpins : s'.pins = s.pins) :
    Holds s' { t with content := update t.content b v } := by
  obtain ⟨l, hinv₀⟩ := h.inv
  have hv : (s.buf i).valid = true := hinv₀.valid u i dev b hu
  have hb : (s.buf i).blockno = b := (hinv₀.tag u .use i dev b hu).2
  have hother : ∀ k ≠ i, (s.buf k).valid = true → (s.buf k).blockno ≠ b :=
    fun k hki hk => hb ▸ h.blockno_ne hk (h.dev i hv) hki
  refine
    { inv := hinv, root := by rw [hpc]; exact h.root, dev := ?_, filling := ?_
      holder := by rw [hpc]; exact h.holder, cached := ?_, uncached := ?_, dirty := ?_ }
  · intro k hk
    by_cases hki : k = i
    · rw [hki, hbufi]
      exact h.dev i hv
    · rw [hbuf k hki] at hk ⊢
      exact h.dev k hk
  · intro w k dev' b' hw
    rw [hpc] at hw
    have hkv := h.filling w k dev' b' hw
    have hki : k ≠ i := by
      rintro rfl
      rw [hv] at hkv
      cases hkv
    rw [hbuf k hki]
    exact hkv
  · intro k hk
    show (s'.buf k).data = update t.content b v (s'.buf k).blockno
    by_cases hki : k = i
    · rw [hki, hbufi]
      show v = update t.content b v (s.buf i).blockno
      rw [hb, update_self]
    · rw [hbuf k hki] at hk ⊢
      rw [update_of_ne (hother k hki hk)]
      exact h.cached k hk
  · intro c hc
    show s'.disk c = update t.content b v c
    have hcb : c ≠ b := by
      rintro rfl
      refine hc i ?_ ?_
      · rw [hbufi]
        exact hv
      · rw [hbufi]
        exact hb
    rw [hdisk, update_of_ne hcb]
    refine h.uncached c fun k hk => ?_
    by_cases hki : k = i
    · rw [hki, hb]
      exact Ne.symm hcb
    · have := hc k
      rw [hbuf k hki] at this
      exact this hk
  · intro k hk hne
    rw [hpc, hpins]
    by_cases hki : k = i
    · exact Or.inl ⟨u, dev, b, hki ▸ hu⟩
    · rw [hbuf k hki] at hk hne
      rw [hdisk] at hne
      exact h.dirty k hk hne

omit [DecidableEq ι] in
/-- `bwrite`: the disk gets what the store has. -/
theorem Holds.bwrite (h : Holds s t) (hu : s.pc u = .held .use i dev b) (hinv : ∃ l, Inv { s with
      disk := update s.disk (s.buf i).blockno (s.buf i).data } l) :
    Holds { s with disk := update s.disk (s.buf i).blockno (s.buf i).data } t := by
  obtain ⟨l, hinv₀⟩ := h.inv
  have hv : (s.buf i).valid = true := hinv₀.valid u i dev b hu
  refine { h with inv := hinv, uncached := ?_, dirty := ?_ }
  · intro c hc
    show update s.disk (s.buf i).blockno (s.buf i).data c = t.content c
    rw [update_of_ne (hc i hv).symm]
    exact h.uncached c hc
  · intro k hk hne
    by_cases hki : k = i
    · exact Or.inl ⟨u, dev, b, hki ▸ hu⟩
    · refine h.dirty k hk fun he => hne ?_
      show (s.buf k).data = update s.disk (s.buf i).blockno (s.buf i).data
        (s.buf k).blockno
      rw [update_of_ne (h.blockno_ne hk (h.dev i hv) hki)]
      exact he

/-- The user gives its block back. -/
theorem Holds.release (h : Holds s t) (hinv : ∃ l, Inv s' l) (hsame : SameBytes s s')
    (hu : s.pc u = .held .use i dev b)
    (hcareful : (s.buf i).data = s.disk (s.buf i).blockno ∨ 0 < s.pins i)
    (hpc : s'.pc = update s.pc u (.held .drop i dev b)) (hpins : s'.pins = s.pins) :
    Holds s' { t with holder := update t.holder u none } := by
  refine h.of_same hinv hsame (h.holder_update hpc) (h.root_update hpc fun ph k dev' b' hk => ?_)
    (h.filling_update hpc fun k dev' b' hk => by cases hk) (fun k hne hor => ?_)
  · cases hk
    exact h.root u .use i dev b hu
  · rw [hpins]
    rcases hor with ⟨w, dev', b', hw⟩ | hp
    · by_cases hwu : w = u
      · subst hwu
        obtain ⟨-, rfl, -, -⟩ : Phase.use = Phase.use ∧ i = k ∧ dev = dev' ∧ b = b' := by
          simpa using hu.symm.trans hw
        exact Or.inr (hcareful.resolve_left hne)
      · exact Or.inl ⟨w, dev', b', by rw [hpc, update_of_ne hwu]; exact hw⟩
    · exact Or.inr hp

/-- **Every action of the cache is one of the store**, or none. -/
theorem cache_simulates :
    Simulates step Store.step obs (fun _ a => [a]) Careful (Holds : State ι → Store ι → Prop) := by
  intro s t a s' h hcareful hstep
  obtain ⟨l, hinv₀⟩ := h.inv
  have hinv := inv_step hinv₀ hstep
  cases step_cases hstep with
  | @hit u dev b i hpc hi =>
    refine matched_by_none (h.quiet hinv (.of_setBuf rfl rfl rfl rfl rfl rfl) rfl rfl
      (by rw [hpc]; rfl) rfl ?_ ?_)
    · intro ph k dev' b' hk
      cases hk
      exact hcareful
    · intro k dev' b' hk
      cases hk
  | @recycle u dev b i hpc hc hi =>
    refine matched_by_none (h.recycle hinv hcareful hpc hi
      (fun k hk => update_of_ne hk _ _) ?_ rfl rfl rfl)
    show (update s.buf i _ i).valid = false
    rw [update_self]
  | @acquiresleep u i dev b hpc hl =>
    have hsame : SameBytes s ((s.setBuf i { s.buf i with lock := some u }).goto u
        (.held (if (s.buf i).valid then .use else .fill) i dev b)) :=
      .of_setBuf rfl rfl rfl rfl rfl rfl
    cases hv : (s.buf i).valid with
    | true =>
      have hobs : obs s (.acquiresleep u) = [.get u b (s.buf i).data] := by
        simp only [obs, hpc, hv]
        rfl
      rw [hv] at hsame hinv
      rw [hobs]
      refine matched_by_one (Store.Act.get u b (s.buf i).data) (if_pos ⟨?_, ?_, ?_⟩)
        (h.get hinv hsame hpc rfl rfl)
      · rw [h.holder, hpc]
        rfl
      · refine h.not_taken hpc (fun w hw => ?_) (by rw [hpc]; rfl)
        rw [hl] at hw
        cases hw
      · rw [h.cached i hv, (hinv₀.tag u .wait i dev b hpc).2]
    | false =>
      have hobs : obs s (.acquiresleep u) = [] := by
        simp only [obs, hpc, hv]
        rfl
      rw [hv] at hsame hinv
      rw [hobs]
      refine matched_by_none (h.quiet hinv hsame rfl rfl (by rw [hpc]; rfl) rfl ?_ ?_)
      · intro ph k dev' b' hk
        cases hk
        exact h.root u .wait i dev b hpc
      · intro k dev' b' hk
        cases hk
        exact hv
  | @fill u i dev b hpc =>
    have hobs : obs s (.fill u) = [.get u b (s.disk (s.buf i).blockno)] := by
      simp only [obs, hpc]
    obtain ⟨hholds, hcontent⟩ := h.fill hinv hpc (fun k hk => update_of_ne hk _ _)
      (update_self ..) rfl rfl rfl
    rw [hobs]
    refine matched_by_one (Store.Act.get u b (s.disk (s.buf i).blockno))
      (if_pos ⟨?_, ?_, hcontent⟩) hholds
    · rw [h.holder, hpc]
      rfl
    · refine h.not_taken hpc (fun w hw => ?_) (by rw [hpc]; rfl)
      have hlock : (s.buf i).lock = some u := (hinv₀.lock i u).mpr (by rw [hpc]; rfl)
      exact Option.some.inj (hw.symm.trans hlock)
  | @store u v i dev b hpc =>
    have hobs : obs s (.store u v) = [.put u b v] := by
      simp only [obs, hpc]
    rw [hobs]
    refine matched_by_one (Store.Act.put u b v) (if_pos ?_) (h.put hinv hpc
      (fun k hk => update_of_ne hk _ _) (update_self ..) rfl rfl rfl)
    rw [h.holder, hpc]
    rfl
  | bwrite hpc => exact matched_by_none (h.bwrite hpc hinv)
  | bpin hpc =>
    exact matched_by_none (h.still hinv (.of_setBuf rfl rfl rfl rfl rfl rfl) rfl hpc
      fun j hj => update_of_ne hj _ _)
  | bunpin hpc hp =>
    exact matched_by_none (h.still hinv (.of_setBuf rfl rfl rfl rfl rfl rfl) rfl hpc
      fun j hj => update_of_ne hj _ _)
  | @releasesleep u i dev b hpc =>
    have hobs : obs s (.releasesleep u) = [.release u b] := by
      simp only [obs, hpc]
    rw [hobs]
    refine matched_by_one (Store.Act.release u b) (if_pos ?_) (h.release hinv
      (.of_setBuf rfl rfl rfl rfl rfl rfl) hpc (hcareful i (by rw [hpc]; rfl)) rfl rfl)
    rw [h.holder, hpc]
    rfl
  | @put u i dev b hpc =>
    obtain ⟨hsame, hpcs, hpins⟩ := putBuf_same s i
    have hidle : ((s.putBuf i).goto u .idle).pc = update s.pc u .idle := by
      rw [← hpcs]
      rfl
    refine matched_by_none (h.quiet hinv ⟨hsame.buf, hsame.disk⟩ hidle hpins (by rw [hpc]; rfl)
      rfl ?_ ?_)
    · intro ph k dev' b' hk
      cases hk
    · intro k dev' b' hk
      cases hk

omit [DecidableEq ι] in
theorem holds_binit (d : ℕ → Block) : Holds (binit d : State ι) ⟨d, fun _ => none⟩ where
  inv := ⟨_, inv_binit d⟩
  root := fun u ph i dev b hu => by cases hu
  dev := fun i hi => by cases hi
  filling := fun u i dev b hu => by cases hu
  holder := fun _ => rfl
  cached := fun i hi => by cases hi
  uncached := fun _ _ => rfl
  dirty := fun i hi => by cases hi

/-- **The buffer cache is a store of blocks.** Whatever the order in which processes use the
cache, if they release only buffers whose bytes are on the disk or which are pinned, then what
they read, store and release is a history of the plain store: one user of a block at a time, and
each sees the bytes stored last. In the end the disk agrees with the store on every block that is
neither in use nor pinned. -/
theorem cache_refines_store (d : ℕ → Block) (as : List (Act ι))
    (has : Meets step Careful as (binit d)) (s : State ι) (h : run step as (binit d) = some s) :
    ∃ bs t, run Store.step bs ⟨d, fun _ => none⟩ = some t ∧
      trace Store.step (fun _ a => [a]) bs ⟨d, fun _ => none⟩ = trace step obs as (binit d) ∧
      (∀ u i dev b, s.pc u = .held .use i dev b → (s.buf i).data = t.content b) ∧
      ∀ b, (∀ u i dev, s.pc u ≠ .held .use i dev b) →
        (∀ i, (s.buf i).blockno = b → s.pins i = 0) → s.disk b = t.content b := by
  obtain ⟨bs, t, hbs, htrace, ht⟩ := cache_simulates.run (holds_binit d) has h
  obtain ⟨l, hinv⟩ := ht.inv
  refine ⟨bs, t, hbs, htrace, ?_, ?_⟩
  · intro u i dev b hu
    rw [ht.cached i (hinv.valid u i dev b hu), (hinv.tag u .use i dev b hu).2]
  · intro b huse hpin
    by_cases hc : ∃ i, (s.buf i).valid = true ∧ (s.buf i).blockno = b
    · obtain ⟨i, hi, rfl⟩ := hc
      rw [← ht.cached i hi]
      by_contra hne
      rcases ht.dirty i hi (Ne.symm hne) with ⟨u, dev, b, hu⟩ | hp
      · have hb := (hinv.tag u .use i dev b hu).2
        exact huse u i dev (hb ▸ hu)
      · have := hpin i rfl
        omega
    · exact ht.uncached b fun i hi hb => hc ⟨i, hi, hb⟩

/-- One user changes a block and writes it, another one changes it and leaves it pinned. -/
def writeThenPin : List (Act Bool) :=
  [.bget false 1 5, .acquiresleep false, .bget true 1 5, .fill false,
    .store false fun _ => 8, .bwrite false, .releasesleep false,
    .acquiresleep true, .put false, .store true fun _ => 9, .bpin true, .releasesleep true,
    .bget false 1 5, .put true, .acquiresleep false]

theorem cache_refines_store_pinned :
    ∃ s, run step writeThenPin (binit fun _ _ => 0) = some s ∧
      ∃ bs, ∃ t : Store Bool, run Store.step bs ⟨fun _ _ => 0, fun _ => none⟩ = some t ∧
        byte (t.content 5) 0 = 9 := by
  obtain ⟨s, hs, hpc, hdata⟩ : ∃ s, run step writeThenPin (binit fun _ _ => 0) = some s ∧
      (s.pc false = .held .use ⟨0, by decide⟩ 1 5 ∧
        byte (s.buf ⟨0, by decide⟩).data 0 = 9) := by decide +kernel
  obtain ⟨bs, t, hbs, -, hcontent, -⟩ :=
    cache_refines_store (fun _ _ => 0) writeThenPin (by decide +kernel) s hs
  refine ⟨s, hs, bs, t, hbs, ?_⟩
  rw [← hcontent false _ 1 5 hpc]
  exact hdata

end Refinement

end Cache

end Fs

end Xv6
