import Xv6.Mem.Proc

/-!
# Page tables in memory

Who uses a page of physical memory is recorded in an *ownership map* `own : ℕ → Use`. It is not
part of the kernel's state: it is the witness by which the invariants say that no page has two
uses. Since `own` is a function, two table pages at different places of the same or of two trees
are different pages.

`Tables own mem` says that the pages owned as tables form, below every root, a three-level tree.
The leaf entries are then a function of the root and the key, and the lemmas on changes of memory
say what happens to it:

* memory outside the tables may change (`leaf_congr`),
* a leaf entry is written (`Tables.write`),
* a table page is added (`Tables.install`), or an empty one is given up (`Tables.retire`); for both
  it does not matter at which level the page is (`Links`).
-/

namespace Xv6

namespace Mem

open Function (update update_self update_of_ne)

variable {a b r : ℕ} {i j l : Fin 512} {mem' : ℕ → Page} {own' : ℕ → Use} {u : Use}

/-- The use of a page of physical memory. -/
inductive Use where
  /-- on the free list -/
  | free
  /-- kernel memory, or a page in the hands of a kernel function -/
  | reserved
  | trapframe (p : ℕ)
  /-- the root of a page table -/
  | root
  /-- the table page below entry `i` of a root -/
  | mid (r : ℕ) (i : Fin 512)
  /-- the table page below entry `j` of `mid r i` -/
  | low (r : ℕ) (i j : Fin 512)
  /-- a user page mapped at `k` below the root `r` -/
  | user (r : ℕ) (k : Key)
  deriving DecidableEq

/-- The page is part of a page table. -/
def Use.isTable : Use → Bool
  | .root | .mid _ _ | .low _ _ _ => true
  | _ => false

/-- The entry `walk` writes for a new table page. -/
def tablePte (a : ℕ) : Pte := pa2pte a ||| pteV

/-- A page address that fits an entry. -/
def PageAddr (a : ℕ) : Prop := a % 4096 = 0 ∧ a < 2 ^ 56

theorem mapsTo_tablePte (ha : PageAddr a) : MapsTo (tablePte a) a :=
  mapsTo_or ha.1 ha.2 (by decide) (by decide) (by decide)

@[simp] theorem child_zero : child 0#64 = none := by simp [child]

theorem child_of_mapsTo {pte : Pte} (h : MapsTo pte a) : child pte = some a := by
  rw [child, has_pteV, if_pos (show pte.getLsbD 0 = true from h.valid), h.pa]

theorem child_tablePte (ha : PageAddr a) : child (tablePte a) = some a :=
  child_of_mapsTo (mapsTo_tablePte ha)

theorem tablePte_inj (ha : PageAddr a) (hb : PageAddr b) (h : tablePte a = tablePte b) : a = b := by
  have := child_tablePte ha
  rw [h, child_tablePte hb] at this
  exact (Option.some.inj this).symm

theorem tablePte_ne_zero (ha : PageAddr a) : tablePte a ≠ 0#64 := fun h => by
  have := child_tablePte ha
  rw [h, child_zero] at this
  cases this

/-- The table pages form a tree below every root. -/
structure Tables (own : ℕ → Use) (mem : ℕ → Page) : Prop where
  addr : ∀ a, (own a).isTable → PageAddr a
  root_entry : ∀ r, own r = .root → ∀ i,
    mem r i = 0#64 ∨ ∃ a, own a = .mid r i ∧ mem r i = tablePte a
  mid_parent : ∀ a r i, own a = .mid r i → own r = .root ∧ mem r i = tablePte a
  mid_entry : ∀ a r i, own a = .mid r i → ∀ j,
    mem a j = 0#64 ∨ ∃ b, own b = .low r i j ∧ mem a j = tablePte b
  low_parent : ∀ b r i j, own b = .low r i j → ∃ a, own a = .mid r i ∧ mem a j = tablePte b

section

variable {own : ℕ → Use} {mem : ℕ → Page}

theorem Tables.addr_mid (h : Tables own mem) (ha : own a = .mid r i) :
    PageAddr a := h.addr a (by rw [ha]; rfl)

theorem Tables.addr_low (h : Tables own mem) (hb : own b = .low r i j) :
    PageAddr b := h.addr b (by rw [hb]; rfl)

theorem Tables.mid_unique (h : Tables own mem) {a' : ℕ} (ha : own a = .mid r i)
    (ha' : own a' = .mid r i) : a = a' := by
  refine tablePte_inj (h.addr_mid ha) (h.addr_mid ha') ?_
  rw [← (h.mid_parent a r i ha).2, (h.mid_parent a' r i ha').2]

theorem Tables.root_of_low (h : Tables own mem) (hb : own b = .low r i j) : own r = .root := by
  obtain ⟨a, ha, -⟩ := h.low_parent b r i j hb
  exact (h.mid_parent a r i ha).1

/-- **The last-level page is found by walking.** -/
theorem Tables.lowPage_eq_some (h : Tables own mem) (hr : own r = .root) :
    lowPage mem r i j = some b ↔ own b = .low r i j := by
  constructor
  · intro hb
    rcases h.root_entry r hr i with h0 | ⟨a, ha, he⟩
    · rw [lowPage, h0] at hb
      simp at hb
    · rw [lowPage, he, child_tablePte (h.addr_mid ha), Option.bind_some] at hb
      rcases h.mid_entry a r i ha j with h0 | ⟨b', hb', he'⟩
      · rw [h0] at hb
        simp at hb
      · rw [he', child_tablePte (h.addr_low hb')] at hb
        rwa [← Option.some.inj hb]
  · intro hb
    obtain ⟨a, ha, he⟩ := h.low_parent b r i j hb
    rw [lowPage, (h.mid_parent a r i ha).2, child_tablePte (h.addr_mid ha), Option.bind_some, he,
      child_tablePte (h.addr_low hb)]

/-! ### Links -/

/-- The use of the page that entry `i` of page `a` links to, if page `a` has use `u`. -/
def Use.below (a : ℕ) : Use → Fin 512 → Option Use
  | .root, i => some (.mid a i)
  | .mid r i, j => some (.low r i j)
  | _, _ => none

theorem below_eq_mid : u.below a i = some (.mid r j) ↔ u = .root ∧ a = r ∧ i = j := by
  cases u <;> simp [Use.below]

theorem below_eq_low : u.below a l = some (.low r i j) ↔ u = .mid r i ∧ l = j := by
  cases u <;> simp [Use.below, and_assoc]

theorem isTable_of_below {w : Use} (h : u.below a i = some w) :
    u.isTable ∧ w.isTable ∧ w ≠ .root := by
  cases u <;> cases h <;> simp [Use.isTable]

theorem ne_of_below {w : Use} (h : u.below a i = some w) : u ≠ w := by
  cases u <;> cases h <;> simp

/-- `Tables`, with both levels in one: what a table page links to, and what links to it. -/
structure Links (own : ℕ → Use) (mem : ℕ → Page) : Prop where
  addr : ∀ a, (own a).isTable → PageAddr a
  entry : ∀ a i u, (own a).below a i = some u →
    mem a i = 0#64 ∨ ∃ b, own b = u ∧ mem a i = tablePte b
  parent : ∀ b, (own b).isTable → own b ≠ .root →
    ∃ a i, (own a).below a i = some (own b) ∧ mem a i = tablePte b

theorem Tables.links (h : Tables own mem) : Links own mem := by
  refine ⟨h.addr, fun a i u hu => ?_, fun b hb hroot => ?_⟩
  · cases ha : own a with
    | root =>
      rw [ha] at hu
      obtain rfl := Option.some.inj hu
      exact h.root_entry a ha i
    | mid r j =>
      rw [ha] at hu
      obtain rfl := Option.some.inj hu
      exact h.mid_entry a r j ha i
    | free | reserved | trapframe p | low r j l | user r k =>
      rw [ha] at hu
      cases hu
  · cases hu : own b with
    | mid r i =>
      obtain ⟨hr, he⟩ := h.mid_parent b r i hu
      exact ⟨r, i, below_eq_mid.mpr ⟨hr, rfl, rfl⟩, he⟩
    | low r i j =>
      obtain ⟨a, ha, he⟩ := h.low_parent b r i j hu
      exact ⟨a, j, below_eq_low.mpr ⟨ha, rfl⟩, he⟩
    | root => exact absurd hu hroot
    | free | reserved | trapframe p | user r k =>
      rw [hu] at hb
      cases hb

theorem Links.tables (h : Links own mem) : Tables own mem := by
  refine ⟨h.addr, fun r hr i => h.entry r i _ (below_eq_mid.mpr ⟨hr, rfl, rfl⟩), fun a r i ha => ?_,
    fun a r i ha j => h.entry a j _ (below_eq_low.mpr ⟨ha, rfl⟩), fun b r i j hb => ?_⟩
  · obtain ⟨r', i', hu, he⟩ := h.parent a (by rw [ha]; rfl) (by simp [ha])
    rw [ha] at hu
    obtain ⟨hr, rfl, rfl⟩ := below_eq_mid.mp hu
    exact ⟨hr, he⟩
  · obtain ⟨a, j', hu, he⟩ := h.parent b (by rw [hb]; rfl) (by simp [hb])
    rw [hb] at hu
    obtain ⟨ha, rfl⟩ := below_eq_low.mp hu
    exact ⟨a, ha, he⟩

/-- A place below a root belongs to one entry. -/
theorem Tables.below_inj (h : Tables own mem) {a' : ℕ} {i' : Fin 512}
    (hu : (own a).below a i = some u) (hu' : (own a').below a' i' = some u) : a' = a ∧ i' = i := by
  cases ha : own a with
  | root =>
    rw [ha] at hu
    obtain rfl := Option.some.inj hu
    exact (below_eq_mid.mp hu').2
  | mid r j =>
    rw [ha] at hu
    obtain rfl := Option.some.inj hu
    obtain ⟨ha', rfl⟩ := below_eq_low.mp hu'
    exact ⟨h.mid_unique ha' ha, rfl⟩
  | free | reserved | trapframe p | low r j l | user r k =>
    rw [ha] at hu
    cases hu

/-- A place below a root has one page. -/
theorem Tables.own_unique (h : Tables own mem) {b' : ℕ} (hb : (own b).isTable)
    (hroot : own b ≠ .root) (heq : own b' = own b) : b' = b := by
  obtain ⟨a, i, hu, he⟩ := h.links.parent b hb hroot
  obtain ⟨a', i', hu', he'⟩ := h.links.parent b' (heq ▸ hb) (heq ▸ hroot)
  rw [heq] at hu'
  obtain ⟨rfl, rfl⟩ := h.below_inj hu hu'
  exact tablePte_inj (h.addr b' (heq ▸ hb)) (h.addr b hb) (he'.symm.trans he)

/-- Below an entry that is zero there is no page. -/
theorem Tables.own_ne_of_entry (h : Tables own mem) (hu : (own a).below a i = some u)
    (h0 : mem a i = 0#64) (x : ℕ) : own x ≠ u := by
  rintro rfl
  obtain ⟨-, htable, hroot⟩ := isTable_of_below hu
  obtain ⟨a', i', hu', he⟩ := h.links.parent x htable hroot
  obtain ⟨rfl, rfl⟩ := h.below_inj hu hu'
  exact tablePte_ne_zero (h.addr x htable) (he.symm.trans h0)

/-! ### Leaves -/

theorem Tables.leaf_of_low (h : Tables own mem) (hb : own b = .low r i j) :
    leaf mem r (i, j, l) = mem b l := by
  rw [leaf, (h.lowPage_eq_some (h.root_of_low hb)).mpr hb]

theorem Tables.leaf_of_none (h : Tables own mem) (hr : own r = .root)
    (hn : ∀ b, own b ≠ .low r i j) : leaf mem r (i, j, l) = 0#64 := by
  have hnone : lowPage mem r i j = none := by
    refine Option.eq_none_iff_forall_ne_some.mpr fun b hb => ?_
    exact hn b ((h.lowPage_eq_some hr).mp hb)
  rw [leaf, hnone]

/-- The leaves depend only on the contents of the last-level pages. -/
theorem Tables.leaf_eq_of_low (h : Tables own mem) (h' : Tables own mem') (hr : own r = .root)
    (hmem : ∀ b, own b = .low r i j → mem' b l = mem b l) :
    leaf mem' r (i, j, l) = leaf mem r (i, j, l) := by
  by_cases hb : ∃ b, own b = .low r i j
  · obtain ⟨b, hb⟩ := hb
    rw [h.leaf_of_low hb, h'.leaf_of_low hb, hmem b hb]
  · have hn : ∀ b, own b ≠ .low r i j := fun b hb' => hb ⟨b, hb'⟩
    rw [h.leaf_of_none hr hn, h'.leaf_of_none hr hn]

/-- A place without a last-level page, or with one that is zero there, has no entry. -/
theorem Tables.leaf_eq_zero (h : Tables own mem) (hr : own r = .root)
    (hz : ∀ b, own b = .low r i j → mem b l = 0#64) : leaf mem r (i, j, l) = 0#64 := by
  by_cases hb : ∃ b, own b = .low r i j
  · obtain ⟨b, hb⟩ := hb
    rw [h.leaf_of_low hb, hz b hb]
  · exact h.leaf_of_none hr fun b hb' => hb ⟨b, hb'⟩

/-- Adding or giving up a table page that is zero does not change the leaves. -/
theorem Tables.leaf_update (h : Tables own mem) (h' : Tables (update own b u) mem')
    (hr : own r = .root) (hrb : r ≠ b) (hold : ∀ r i j, own b = .low r i j → ∀ l, mem b l = 0#64)
    (hnew : ∀ r i j, u = .low r i j → ∀ l, mem' b l = 0#64)
    (hmem : ∀ x r i j, x ≠ b → own x = .low r i j → mem' x = mem x) (k : Key) :
    leaf mem' r k = leaf mem r k := by
  obtain ⟨i, j, l⟩ := k
  by_cases hx : ∃ x, x ≠ b ∧ own x = .low r i j
  · obtain ⟨x, hxb, hx⟩ := hx
    rw [h.leaf_of_low hx, h'.leaf_of_low (by rw [update_of_ne hxb, hx]), hmem x r i j hxb hx]
  · -- no other page is there
    have hb : ∀ x, own x = .low r i j → x = b := fun x hx' => by_contra fun hxb => hx ⟨x, hxb, hx'⟩
    rw [h.leaf_eq_zero hr fun x hx' => hb x hx' ▸ hold r i j (hb x hx' ▸ hx') l,
      h'.leaf_eq_zero (by rw [update_of_ne hrb, hr]) fun x hx' => ?_]
    by_cases hxb : x = b
    · rw [hxb, update_self] at hx'
      exact hxb ▸ hnew r i j hx' l
    · rw [update_of_ne hxb] at hx'
      exact absurd (hb x hx') hxb

/-! ### Changes of memory -/

/-- Ownership outside the tables may change, and memory outside the upper two levels. -/
theorem Tables.congr_entries (h : Tables own mem)
    (hown : ∀ a, (own a).isTable ∨ (own' a).isTable → own' a = own a)
    (hmem : ∀ a i u, (own a).below a i = some u → mem' a i = mem a i) : Tables own' mem' := by
  have hback : ∀ a, (own' a).isTable → own' a = own a := fun a ha => hown a (Or.inr ha)
  refine Links.tables ⟨fun a ha => h.addr a (hback a ha ▸ ha), fun a i u hu => ?_,
    fun b hb hroot => ?_⟩
  · rw [hback a (isTable_of_below hu).1] at hu
    rw [hmem a i u hu]
    refine (h.links.entry a i u hu).imp_right (Exists.imp fun b => And.imp_left fun hb => ?_)
    rw [hown b (Or.inl (by rw [hb]; exact (isTable_of_below hu).2.1)), hb]
  · have ho := hback b hb
    rw [ho] at hb hroot ⊢
    obtain ⟨a, i, hu, he⟩ := h.links.parent b hb hroot
    exact ⟨a, i, by rwa [hown a (Or.inl (isTable_of_below hu).1)], by rw [hmem a i _ hu, he]⟩

/-- Memory and ownership outside the tables may change. -/
theorem Tables.congr (h : Tables own mem)
    (hown : ∀ a, (own a).isTable ∨ (own' a).isTable → own' a = own a)
    (hmem : ∀ a, (own a).isTable → mem' a = mem a) : Tables own' mem' :=
  h.congr_entries hown fun a i _ hu => congrFun (hmem a (isTable_of_below hu).1) i

/-- Memory outside the tables does not matter to the leaves. -/
theorem leaf_congr (h : Tables own mem) (hr : own r = .root)
    (hmem : ∀ a, (own a).isTable → mem' a = mem a) (k : Key) : leaf mem' r k = leaf mem r k := by
  refine h.leaf_eq_of_low (h.congr (fun _ _ => rfl) hmem) hr fun b hb => ?_
  rw [hmem b (by rw [hb]; rfl)]

/-- Replace one word of a page. -/
def setWord (mem : ℕ → Page) (a : ℕ) (i : Fin 512) (v : Pte) : ℕ → Page :=
  update mem a (update (mem a) i v)

@[simp] theorem setWord_self (a : ℕ) (i : Fin 512) (v : Pte) : setWord mem a i v a i = v := by
  simp [setWord]

theorem setWord_of_ne (i : Fin 512) (v : Pte) (hb : b ≠ a) :
    setWord mem a i v b = mem b := update_of_ne hb _ _

theorem setWord_of_index_ne (v : Pte) (hj : j ≠ i) (b : ℕ) : setWord mem a i v b j = mem b j := by
  by_cases hb : b = a
  · subst hb
    rw [setWord, update_self, update_of_ne hj]
  · rw [setWord_of_ne i v hb]

theorem setWord_of_not {x : ℕ} {v : Pte} (h : ¬ (x = a ∧ l = i)) :
    setWord mem a i v x l = mem x l := by
  by_cases hx : x = a
  · exact setWord_of_index_ne _ (fun hl => h ⟨hx, hl⟩) _
  · rw [setWord_of_ne _ _ hx]

/-- Two pages of different use are different. -/
theorem ne_of_own {v : Use} (ha : own a = u) (hb : own b = v) (h : u ≠ v) : a ≠ b := by
  rintro rfl
  exact h (ha.symm.trans hb)

/-- **A leaf entry is written.** -/
theorem Tables.write (h : Tables own mem) (hb : own b = .low r i j) (l : Fin 512) (v : Pte) :
    Tables own (setWord mem b l v) := by
  refine h.congr_entries (fun _ _ => rfl) fun a' i' u hu => ?_
  -- roots and middle pages are not the page written
  rw [setWord_of_ne l v]
  rintro rfl
  rw [hb] at hu
  cases hu

theorem Tables.leaf_write_self (h : Tables own mem) (hb : own b = .low r i j) (l : Fin 512)
    (v : Pte) : leaf (setWord mem b l v) r (i, j, l) = v := by
  rw [(h.write hb l v).leaf_of_low hb, setWord_self]

theorem Tables.leaf_write_of_ne (h : Tables own mem) {r' : ℕ} {k : Key} (hb : own b = .low r i j)
    (hr' : own r' = .root) (v : Pte) (hne : ¬ (r' = r ∧ k = (i, j, l))) :
    leaf (setWord mem b l v) r' k = leaf mem r' k := by
  obtain ⟨i', j', l'⟩ := k
  refine h.leaf_eq_of_low (h.write hb l v) hr' fun b' hb' => ?_
  by_cases hbb : b' = b
  · subst hbb
    rw [hb] at hb'
    obtain ⟨rfl, rfl, rfl⟩ := Use.low.inj hb'
    refine setWord_of_index_ne v (fun hl => hne ⟨rfl, ?_⟩) _
    rw [hl]
  · rw [setWord_of_ne l v hbb]

/-- A last-level page links to nothing. -/
theorem ne_of_below_low {x : ℕ} (hu : (own a).below a i = some u) (hx : own x = .low r j l) :
    x ≠ a := by
  rintro rfl
  rw [hx] at hu
  cases hu

/-- **A new table page**, as a root or at a place below one that has no page yet. -/
theorem Tables.install (h : Tables own mem) (hb : own b = .reserved) (haddr : PageAddr b)
    (hzero : ∀ l, mem' b l = 0#64)
    (hplace : u = .root ∨ (∀ x, own x ≠ u) ∧ ∃ a i, (own a).below a i = some u)
    (hlink : ∀ a i, (own a).below a i = some u → mem' a i = tablePte b)
    (hsame : ∀ a i w, (own a).below a i = some w → w ≠ u → mem' a i = mem a i) :
    Tables (update own b u) mem' := by
  -- pages with links in the old tree, and the pages they link to, are not the page added
  have hne : ∀ {a i w}, (own a).below a i = some w → a ≠ b := fun hw => by
    rintro rfl
    rw [hb] at hw
    cases hw
  have hold : ∀ {x w}, own x = w → w.isTable → update own b u x = w := fun hx hw => by
    rw [update_of_ne (ne_of_own hx hb (by rintro rfl; cases hw)), hx]
  refine Links.tables ⟨fun x hx => ?_, fun a i w hw => ?_, fun x hx hroot => ?_⟩
  · by_cases hxb : x = b
    · rwa [hxb]
    · rw [update_of_ne hxb] at hx
      exact h.addr x hx
  · by_cases hab : a = b
    · exact Or.inl (hab ▸ hzero i)
    rw [update_of_ne hab] at hw
    by_cases hwu : w = u
    · exact Or.inr ⟨b, by rw [update_self, hwu], hlink a i (hwu ▸ hw)⟩
    · rw [hsame a i w hw hwu]
      exact (h.links.entry a i w hw).imp_right (Exists.imp fun y => And.imp_left fun hy =>
        hold hy (isTable_of_below hw).2.1)
  · by_cases hxb : x = b
    · subst hxb
      rw [update_self] at hroot ⊢
      obtain ⟨-, a, i, hu⟩ := hplace.resolve_left hroot
      exact ⟨a, i, by rwa [update_of_ne (hne hu)], hlink a i hu⟩
    · rw [update_of_ne hxb] at hx hroot ⊢
      obtain ⟨a, i, hw, he⟩ := h.links.parent x hx hroot
      refine ⟨a, i, by rwa [update_of_ne (hne hw)], ?_⟩
      rw [hsame a i _ hw fun hxu => ?_, he]
      exact hplace.elim (fun hu => hroot (hxu.trans hu)) fun hnone => hnone.1 x hxu

/-- The page is linked in below an entry that was zero. -/
theorem Tables.link (h : Tables own mem) (hu : (own a).below a i = some u) (hb : own b = .reserved)
    (haddr : PageAddr b) (hzero : mem b = Page.zero) (h0 : mem a i = 0#64) :
    Tables (update own b u) (setWord mem a i (tablePte b)) := by
  have hba : b ≠ a := by
    rintro rfl
    rw [hb] at hu
    cases hu
  refine h.install hb haddr (fun l => ?_) (Or.inr ⟨h.own_ne_of_entry hu h0, a, i, hu⟩)
    (fun a' i' hu' => ?_) fun a' i' w hw hwu => setWord_of_not ?_
  · rw [setWord_of_ne _ _ hba, hzero]
    rfl
  · obtain ⟨rfl, rfl⟩ := h.below_inj hu hu'
    exact setWord_self _ _ _
  · rintro ⟨rfl, rfl⟩
    exact hwu (Option.some.inj (hw.symm.trans hu))

theorem Tables.leaf_link (h : Tables own mem) (hu : (own a).below a i = some u)
    (hb : own b = .reserved) (haddr : PageAddr b) (hzero : mem b = Page.zero) (h0 : mem a i = 0#64)
    (hr : own r = .root) (k : Key) : leaf (setWord mem a i (tablePte b)) r k = leaf mem r k := by
  refine h.leaf_update (h.link hu hb haddr hzero h0) hr (ne_of_own hr hb (by simp)) (by simp [hb])
    (fun _ _ _ _ l => ?_) (fun x _ _ _ _ hx => setWord_of_ne _ _ (ne_of_below_low hu hx)) k
  rw [setWord_of_ne _ _ (ne_of_own hb rfl fun he => by rw [← he] at hu; cases hu), hzero]
  rfl

theorem Tables.addRoot (h : Tables own mem) (hr : own r = .reserved) (haddr : PageAddr r)
    (hzero : mem r = Page.zero) : Tables (update own r .root) mem :=
  h.install hr haddr (fun l => by rw [hzero]; rfl) (Or.inl rfl)
    (fun _ _ hu => absurd rfl (isTable_of_below hu).2.2) fun _ _ _ _ _ => rfl

theorem leaf_of_zero_root (hzero : mem r = Page.zero) (k : Key) : leaf mem r k = 0#64 := by
  have : lowPage mem r k.1 k.2.1 = none := by
    rw [lowPage, hzero, Page.zero, child_zero, Option.bind_none]
  rw [leaf, this]

/-- Giving up one page does not change the use of the others. -/
theorem own_retire {x : ℕ} {w : Use} (ha : own a = w) (hx : own x = u) (hu : u ≠ w) :
    update own a .reserved x = u := by
  rw [update_of_ne (ne_of_own hx ha hu)]
  exact hx

theorem of_own_retire {x : ℕ} (hx : update own a .reserved x = u) (hu : u ≠ .reserved) :
    x ≠ a ∧ own x = u := by
  by_cases hxa : x = a
  · subst hxa
    rw [update_self] at hx
    exact absurd hx.symm hu
  · rw [update_of_ne hxa] at hx
    exact ⟨hxa, hx⟩

/-- **An empty table page is given up.** -/
theorem Tables.retire (h : Tables own mem) (hzero : ∀ l, mem b l = 0#64)
    (hlink : ∀ a i, (own a).below a i = some (own b) → mem' a i = 0#64)
    (hsame : ∀ a i w, (own a).below a i = some w → w ≠ own b → mem' a i = mem a i) :
    Tables (update own b .reserved) mem' := by
  refine Links.tables ⟨fun x hx => ?_, fun a i w hw => ?_, fun x hx hroot => ?_⟩
  · obtain ⟨-, hx'⟩ := of_own_retire rfl fun he => by rw [he] at hx; cases hx
    exact h.addr x (by rw [hx']; exact hx)
  · obtain ⟨-, ha⟩ := of_own_retire rfl fun he => by rw [he] at hw; cases hw
    rw [← ha] at hw
    by_cases hwb : w = own b
    · exact Or.inl (hlink a i (hwb ▸ hw))
    · rw [hsame a i w hw hwb]
      exact (h.links.entry a i w hw).imp_right (Exists.imp fun y => And.imp_left fun hy =>
        own_retire rfl hy hwb)
  · obtain ⟨hxb, hx'⟩ := of_own_retire rfl fun he => by rw [he] at hx; cases hx
    rw [← hx'] at hx hroot ⊢
    obtain ⟨a, i, hw, he⟩ := h.links.parent x hx hroot
    have hab : a ≠ b := by
      rintro rfl
      rw [hzero i] at he
      exact tablePte_ne_zero (h.addr x hx) he.symm
    refine ⟨a, i, by rwa [update_of_ne hab], ?_⟩
    rw [hsame a i _ hw fun hxo => hxb (h.own_unique hx hroot hxo.symm).symm, he]

/-- The page is unlinked. -/
theorem Tables.unlink (h : Tables own mem) (hu : (own a).below a i = some (own b))
    (hzero : ∀ l, mem b l = 0#64) : Tables (update own b .reserved) (setWord mem a i 0#64) := by
  refine h.retire hzero (fun a' i' hu' => ?_) fun a' i' w hw hwb => setWord_of_not ?_
  · obtain ⟨rfl, rfl⟩ := h.below_inj hu hu'
    exact setWord_self _ _ _
  · rintro ⟨rfl, rfl⟩
    exact hwb (Option.some.inj (hw.symm.trans hu))

theorem Tables.leaf_unlink (h : Tables own mem) (hu : (own a).below a i = some (own b))
    (hzero : ∀ l, mem b l = 0#64) (hr : own r = .root) (k : Key) :
    leaf (setWord mem a i 0#64) r k = leaf mem r k :=
  h.leaf_update (h.unlink hu hzero) hr (ne_of_own hr rfl (isTable_of_below hu).2.2.symm)
    (fun _ _ _ _ => hzero) (by simp)
    (fun x _ _ _ _ hx => setWord_of_ne _ _ (ne_of_below_low hu hx)) k

theorem Tables.removeRoot (h : Tables own mem) (hr : own r = .root) (hzero : ∀ i, mem r i = 0#64) :
    Tables (update own r .reserved) mem :=
  h.retire hzero (fun _ _ hu => absurd hr (isTable_of_below hu).2.2) fun _ _ _ _ _ => rfl

end

end Mem

end Xv6
