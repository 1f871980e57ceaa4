import Xv6.Params
import Mathlib.Data.Fin.Basic
import Mathlib.Logic.Equiv.Defs

/-!
# Page-table entries and virtual addresses

`kernel/riscv.h`: the flag bits, the conversions between entries and physical addresses, the
three table indices of a virtual address. Entries are 64-bit words, as in the source.

An entry that is not valid but carries `PTE_SWAPPED` holds a swap slot where a valid one holds the
page number. The words the kernel writes when a page goes out (`evictedPte`) and comes back
(`walkaddrPte`, `usertrapPte`, `uvmcopyPte`) are named here, with what they do to the two flags, to
the field above the flags, and to the remaining flags.

## Main results

* `swapIdx_evictedPte` — an evicted entry gives its slot back
* `pte2pa_or` — an entry gives its page back
* `swap_round_trip` — out and in again, an entry keeps its flags at each of the three places
* `addr_vkey`, `vkey_addr` — table indices and page addresses determine each other
-/

namespace Xv6

namespace Mem

variable {i n pa va : ℕ} {perm pte : Pte}

/-! ### Entries -/

/-- `pte_t` -/
abbrev Pte := BitVec 64

/-- `PTE_V` -/
def pteV : Pte := BitVec.twoPow 64 0
/-- `PTE_R` -/
def pteR : Pte := BitVec.twoPow 64 1
/-- `PTE_W` -/
def pteW : Pte := BitVec.twoPow 64 2
/-- `PTE_X` -/
def pteX : Pte := BitVec.twoPow 64 3
/-- `PTE_U` -/
def pteU : Pte := BitVec.twoPow 64 4
/-- `PTE_SWAPPED` -/
def pteSwapped : Pte := BitVec.twoPow 64 8

/-- The test `pte & flag`. -/
def has (pte flag : Pte) : Bool := pte &&& flag != 0#64

/-- `PA2PTE` -/
def pa2pte (pa : ℕ) : Pte := (BitVec.ofNat 64 pa >>> 12) <<< 10

/-- `PTE2PA` -/
def pte2pa (pte : Pte) : ℕ := ((pte >>> 10) <<< 12).toNat

/-- `PTE_FLAGS` -/
def pteFlags (pte : Pte) : Pte := pte &&& 0x3FF#64

/-- `int swap_idx = (*pte) >> 10` -/
def swapIdx (pte : Pte) : ℤ := int32 (pte >>> 10).toNat

/-- `evict_pages`, first store: `*pte &= ~PTE_V; *pte |= PTE_SWAPPED`. -/
def markedPte (pte : Pte) : Pte := pte &&& ~~~pteV ||| pteSwapped

/-- `evict_pages`, second store: `(swap_index << 10) | PTE_FLAGS(*pte) | PTE_SWAPPED`. -/
def slotPte (slot : ℤ) (pte : Pte) : Pte :=
  BitVec.ofInt 64 (int32 (slot * 2 ^ 10)) ||| pteFlags pte ||| pteSwapped

/-- The entry after both stores. -/
def evictedPte (slot : ℤ) (pte : Pte) : Pte := slotPte slot (markedPte pte)

/-- `walkaddr`: `PA2PTE(mem) | PTE_V | (*pte & 0x3FF)`, then `PTE_SWAPPED` cleared. -/
def walkaddrPte (mem : ℕ) (pte : Pte) : Pte :=
  (pa2pte mem ||| pteV ||| pteFlags pte) &&& ~~~pteSwapped

/-- `usertrap`: `PA2PTE(mem) | (PTE_FLAGS(*pte) & ~PTE_SWAPPED) | PTE_V`. -/
def usertrapPte (mem : ℕ) (pte : Pte) : Pte :=
  pa2pte mem ||| (pteFlags pte &&& ~~~pteSwapped) ||| pteV

/-- `mappages`: `PA2PTE(pa) | perm | PTE_V`. -/
def mapPte (pa : ℕ) (perm : Pte) : Pte := pa2pte pa ||| perm ||| pteV

/-- `uvmcopy`, the child's entry for a page that is swapped out: `mappages` with the flags
`(PTE_FLAGS(*pte) | PTE_V) & ~PTE_SWAPPED`. -/
def uvmcopyPte (mem : ℕ) (pte : Pte) : Pte :=
  mapPte mem ((pteFlags pte ||| pteV) &&& ~~~pteSwapped)

/-! ### Bits -/

theorem has_twoPow (hi : i < 64) : has pte (BitVec.twoPow 64 i) = pte.getLsbD i := by
  rw [has, BitVec.and_twoPow]
  cases h : pte.getLsbD i with
  | false => simp
  | true =>
    simp only [if_true, bne_iff_ne, ne_eq]
    intro h0
    have := congrArg (fun w : Pte => w.getLsbD i) h0
    simp [hi] at this

@[simp] theorem has_pteV (pte : Pte) : has pte pteV = pte.getLsbD 0 := has_twoPow (by omega)
@[simp] theorem has_pteR (pte : Pte) : has pte pteR = pte.getLsbD 1 := has_twoPow (by omega)
@[simp] theorem has_pteW (pte : Pte) : has pte pteW = pte.getLsbD 2 := has_twoPow (by omega)
@[simp] theorem has_pteU (pte : Pte) : has pte pteU = pte.getLsbD 4 := has_twoPow (by omega)
@[simp] theorem has_pteSwapped (pte : Pte) : has pte pteSwapped = pte.getLsbD 8 :=
  has_twoPow (by omega)

/-- The entry is valid. -/
def Valid (pte : Pte) : Prop := pte.getLsbD 0 = true

/-- The entry is not valid and names a swap slot. -/
def Swapped (pte : Pte) : Prop := pte.getLsbD 0 = false ∧ pte.getLsbD 8 = true

instance (pte : Pte) : Decidable (Valid pte) := inferInstanceAs (Decidable (_ = true))
instance (pte : Pte) : Decidable (Swapped pte) := inferInstanceAs (Decidable (_ ∧ _))

theorem valid_iff : has pte pteV = true ↔ Valid pte := by
  rw [has_pteV, Valid]

theorem Swapped.not_valid (h : Swapped pte) : ¬ Valid pte := fun hv => by
  rw [Valid, h.1] at hv
  cases hv

theorem not_valid_zero : ¬ Valid 0#64 := by simp [Valid]

theorem not_swapped_zero : ¬ Swapped 0#64 := by simp [Swapped]

/-- The flags other than `PTE_V` and `PTE_SWAPPED` agree. -/
def SameFlags (pte pte' : Pte) : Prop :=
  ∀ i < 10, i ≠ 0 → i ≠ 8 → pte'.getLsbD i = pte.getLsbD i

theorem getLsbD_pteFlags : (pteFlags pte).getLsbD i = (pte.getLsbD i && decide (i < 10)) := by
  have h : (0x3FF#64 : Pte).getLsbD i = decide (i < 10) := by
    by_cases hi : i < 10
    · have : ∀ j < 10, (0x3FF#64 : Pte).getLsbD j = true := by decide
      simp [this i hi, hi]
    · have hlt : (0x3FF#64 : Pte).toNat < 2 ^ i :=
        lt_of_lt_of_le (by decide : (0x3FF#64 : Pte).toNat < 2 ^ 10)
          (Nat.pow_le_pow_right (by omega) (by omega))
      rw [← BitVec.testBit_toNat, Nat.testBit_lt_two_pow hlt]
      simp [hi]
  rw [pteFlags, BitVec.getLsbD_and, h]

theorem toNat_pteFlags_lt (pte : Pte) : (pteFlags pte).toNat < 1024 := by
  rw [pteFlags, BitVec.toNat_and]
  exact lt_of_le_of_lt Nat.and_le_right (by decide)

/-- The low bits of a page address are not in its entry. -/
theorem getLsbD_pa2pte (hi : i < 10) : (pa2pte pa).getLsbD i = false := by
  simp [pa2pte, hi]

/-! ### The field above the flags -/

theorem ushiftRight_eq_zero {f : Pte} (hf : f.toNat < 1024) : f >>> 10 = 0#64 := by
  refine BitVec.eq_of_toNat_eq ?_
  simp only [BitVec.toNat_ushiftRight, Nat.shiftRight_eq_div_pow, BitVec.toNat_ofNat]
  omega

/-- **An entry gives its page back.** -/
theorem pte2pa_or {f : Pte} (ha : pa % 4096 = 0) (hl : pa < 2 ^ 56) (hf : f.toNat < 1024) :
    pte2pa (pa2pte pa ||| f) = pa := by
  have hshift : (pa2pte pa ||| f) >>> 10 = BitVec.ofNat 64 (pa / 4096) := by
    rw [BitVec.ushiftRight_or_distrib, ushiftRight_eq_zero hf, BitVec.or_zero]
    refine BitVec.eq_of_toNat_eq ?_
    simp only [pa2pte, BitVec.toNat_ushiftRight, BitVec.toNat_shiftLeft, BitVec.toNat_ofNat,
      Nat.shiftRight_eq_div_pow, Nat.shiftLeft_eq]
    omega
  rw [pte2pa, hshift]
  simp only [BitVec.toNat_shiftLeft, BitVec.toNat_ofNat, Nat.shiftLeft_eq]
  omega

theorem toNat_or_lt {f g : Pte} (hf : f.toNat < 1024) (hg : g.toNat < 1024) :
    (f ||| g).toNat < 1024 := by
  rw [BitVec.toNat_or]
  exact Nat.or_lt_two_pow (n := 10) hf hg

theorem toNat_and_lt {f g : Pte} (hf : f.toNat < 1024) : (f &&& g).toNat < 1024 := by
  rw [BitVec.toNat_and]
  exact lt_of_le_of_lt Nat.and_le_left hf

/-! ### The words the kernel writes -/

theorem getLsbD_not {w : Pte} (hi : i < 64) : (~~~w).getLsbD i = !w.getLsbD i := by
  simp [hi]

theorem getLsbD_twoPow {j : ℕ} (hi : i < 64) : (BitVec.twoPow 64 j).getLsbD i = decide (j = i) := by
  simp [hi, eq_comm]

/-- The slot field of an evicted entry. -/
theorem ofInt_slot (hn : n < nswapspace) :
    BitVec.ofInt 64 (int32 ((n : ℤ) * 2 ^ 10)) = BitVec.ofNat 64 n <<< 10 := by
  simp only [nswapspace_eq] at hn
  rw [int32_of_mem (by norm_num; omega) (by norm_num; omega)]
  have hcast : (n : ℤ) * 2 ^ 10 = ((n * 1024 : ℕ) : ℤ) := by norm_num
  rw [hcast, BitVec.ofInt_natCast]
  refine BitVec.eq_of_toNat_eq ?_
  simp only [BitVec.toNat_ofNat, BitVec.toNat_shiftLeft, Nat.shiftLeft_eq]
  omega

theorem slotPte_eq (hn : n < nswapspace) (pte : Pte) :
    slotPte n pte = BitVec.ofNat 64 n <<< 10 ||| (pteFlags pte ||| pteSwapped) := by
  rw [slotPte, ofInt_slot hn, BitVec.or_assoc]

theorem getLsbD_slotPte (hn : n < nswapspace) (hi : i < 10) :
    (slotPte n pte).getLsbD i = (pte.getLsbD i || decide (8 = i)) := by
  rw [slotPte_eq hn, BitVec.getLsbD_or, BitVec.getLsbD_or, getLsbD_pteFlags, pteSwapped,
    getLsbD_twoPow (by omega)]
  simp only [BitVec.getLsbD_shiftLeft, hi, decide_true, Bool.not_true, Bool.and_false,
    Bool.false_and, Bool.and_true, Bool.false_or]

/-- The slot is the field above the flags. -/
theorem ushiftRight_slotPte (hn : n < nswapspace) (pte : Pte) :
    slotPte n pte >>> 10 = BitVec.ofNat 64 n := by
  have hlow : (pteFlags pte ||| pteSwapped).toNat < 1024 :=
    toNat_or_lt (toNat_pteFlags_lt _) (by decide)
  simp only [nswapspace_eq] at hn
  rw [slotPte_eq hn, BitVec.ushiftRight_or_distrib, ushiftRight_eq_zero hlow, BitVec.or_zero]
  refine BitVec.eq_of_toNat_eq ?_
  simp only [BitVec.toNat_ushiftRight, BitVec.toNat_shiftLeft, BitVec.toNat_ofNat,
    Nat.shiftRight_eq_div_pow, Nat.shiftLeft_eq]
  omega

theorem getLsbD_markedPte (hi : i < 64) :
    (markedPte pte).getLsbD i = ((pte.getLsbD i && !decide (0 = i)) || decide (8 = i)) := by
  rw [markedPte, BitVec.getLsbD_or, BitVec.getLsbD_and, getLsbD_not hi, pteV, pteSwapped,
    getLsbD_twoPow hi, getLsbD_twoPow hi]

theorem swapped_markedPte (pte : Pte) : Swapped (markedPte pte) := by
  constructor <;> rw [getLsbD_markedPte (by omega)] <;> simp

/-- A marked entry still has the page of the victim above its flags. -/
theorem ushiftRight_markedPte (pte : Pte) : markedPte pte >>> 10 = pte >>> 10 := by
  refine BitVec.eq_of_getLsbD_eq fun i hi => ?_
  rw [BitVec.getLsbD_ushiftRight, BitVec.getLsbD_ushiftRight]
  by_cases h : 10 + i < 64
  · rw [getLsbD_markedPte h, decide_eq_false (by omega), decide_eq_false (by omega)]
    simp
  · rw [BitVec.getLsbD_of_ge _ _ (by omega), BitVec.getLsbD_of_ge _ _ (by omega)]

theorem getLsbD_evictedPte (hn : n < nswapspace) (hi : i < 10) :
    (evictedPte n pte).getLsbD i
      = ((pte.getLsbD i && !decide (0 = i)) || decide (8 = i)) := by
  rw [evictedPte, getLsbD_slotPte hn hi, getLsbD_markedPte (by omega), Bool.or_assoc, Bool.or_self]

theorem swapped_evictedPte (hn : n < nswapspace) (pte : Pte) : Swapped (evictedPte n pte) := by
  constructor <;> rw [getLsbD_evictedPte hn (by omega)] <;> simp

theorem sameFlags_evictedPte (hn : n < nswapspace) (pte : Pte) :
    SameFlags pte (evictedPte n pte) := by
  intro i hi h0 h8
  rw [getLsbD_evictedPte hn hi]
  simp [Ne.symm h0, Ne.symm h8]

/-- **An evicted entry gives its slot back.** -/
theorem swapIdx_evictedPte (hn : n < nswapspace) (pte : Pte) : swapIdx (evictedPte n pte) = n := by
  have hshift := ushiftRight_slotPte hn (markedPte pte)
  simp only [nswapspace_eq] at hn
  rw [swapIdx, evictedPte, hshift, BitVec.toNat_ofNat, Nat.mod_eq_of_lt (by omega)]
  exact int32_of_mem (by omega) (by omega)

/-- A valid entry made from a page and flags. -/
structure MapsTo (pte : Pte) (pa : ℕ) : Prop where
  valid : Valid pte
  not_swapped : pte.getLsbD 8 = false
  pa : pte2pa pte = pa

theorem mapsTo_or {f : Pte} (ha : pa % 4096 = 0) (hl : pa < 2 ^ 56) (hf : f.toNat < 1024)
    (hv : f.getLsbD 0 = true) (hs : f.getLsbD 8 = false) :
    MapsTo (pa2pte pa ||| f) pa where
  valid := by rw [Valid, BitVec.getLsbD_or, hv, Bool.or_true]
  not_swapped := by rw [BitVec.getLsbD_or, hs, getLsbD_pa2pte (by omega), Bool.or_self]
  pa := pte2pa_or ha hl hf

theorem mapPte_eq (pa : ℕ) (perm : Pte) : mapPte pa perm = pa2pte pa ||| (perm ||| pteV) :=
  BitVec.or_assoc _ _ _

theorem mapsTo_mapPte (ha : pa % 4096 = 0) (hl : pa < 2 ^ 56) (hf : perm.toNat < 1024)
    (hs : perm.getLsbD 8 = false) : MapsTo (mapPte pa perm) pa := by
  rw [mapPte_eq]
  refine mapsTo_or ha hl (toNat_or_lt hf (by decide)) ?_ ?_
  · rw [BitVec.getLsbD_or, show pteV.getLsbD 0 = true by decide, Bool.or_true]
  · rw [BitVec.getLsbD_or, hs, show pteV.getLsbD 8 = false by decide, Bool.or_self]

theorem valid_mapPte (pa : ℕ) (perm : Pte) : Valid (mapPte pa perm) := by
  rw [Valid, mapPte, BitVec.getLsbD_or, show pteV.getLsbD 0 = true by decide, Bool.or_true]

theorem getLsbD_mapPte (hi : i < 10) (h0 : i ≠ 0) :
    (mapPte pa perm).getLsbD i = perm.getLsbD i := by
  rw [mapPte, BitVec.getLsbD_or, BitVec.getLsbD_or, getLsbD_pa2pte hi, pteV,
    getLsbD_twoPow (by omega), Bool.false_or, decide_eq_false (Ne.symm h0), Bool.or_false]

theorem usertrapPte_eq (mem : ℕ) (pte : Pte) :
    usertrapPte mem pte = mapPte mem (pteFlags pte &&& ~~~pteSwapped) := rfl

/-- The two swap-in sites write the same word. -/
theorem walkaddrPte_eq (mem : ℕ) (pte : Pte) : walkaddrPte mem pte = usertrapPte mem pte := by
  refine BitVec.eq_of_getLsbD_eq fun i hi => ?_
  simp only [walkaddrPte, usertrapPte, BitVec.getLsbD_and, BitVec.getLsbD_or, getLsbD_not hi,
    pteV, pteSwapped, getLsbD_twoPow hi]
  by_cases h8 : 8 = i
  · subst h8
    rw [getLsbD_pa2pte (by omega)]
    simp
  · by_cases h0 : 0 = i <;> simp [h8, h0]

theorem getLsbD_swapInFlags (hi : i < 10) :
    (pteFlags pte &&& ~~~pteSwapped).getLsbD i = (pte.getLsbD i && !decide (8 = i)) := by
  rw [BitVec.getLsbD_and, getLsbD_pteFlags, getLsbD_not (by omega), pteSwapped,
    getLsbD_twoPow (by omega)]
  simp [hi]

theorem mapsTo_usertrapPte {mem : ℕ} (ha : mem % 4096 = 0) (hl : mem < 2 ^ 56) (pte : Pte) :
    MapsTo (usertrapPte mem pte) mem := by
  rw [usertrapPte_eq]
  refine mapsTo_mapPte ha hl (toNat_and_lt (toNat_pteFlags_lt _)) ?_
  rw [getLsbD_swapInFlags (by omega)]
  simp

/-- The child's entry is the word that the parent would get. -/
theorem uvmcopyPte_eq (mem : ℕ) (pte : Pte) : uvmcopyPte mem pte = usertrapPte mem pte := by
  refine BitVec.eq_of_getLsbD_eq fun i hi => ?_
  simp only [uvmcopyPte, mapPte, usertrapPte, BitVec.getLsbD_and, BitVec.getLsbD_or,
    getLsbD_not hi, pteV, pteSwapped, getLsbD_twoPow hi]
  by_cases h0 : 0 = i
  · simp [h0]
  · simp [h0]

/-- The flags that come back are those that went out. -/
theorem getLsbD_usertrapPte_evictedPte {mem : ℕ} (hn : n < nswapspace) (hv : Valid pte)
    (hs : pte.getLsbD 8 = false) (hi : i < 10) :
    (usertrapPte mem (evictedPte n pte)).getLsbD i = pte.getLsbD i := by
  by_cases h0 : i = 0
  · subst h0
    rw [usertrapPte_eq, hv]
    exact valid_mapPte _ _
  · rw [usertrapPte_eq, getLsbD_mapPte hi h0, getLsbD_swapInFlags hi, getLsbD_evictedPte hn hi]
    by_cases h8 : 8 = i
    · subst h8
      rw [hs]
      simp
    · simp [h8, Ne.symm h0]

/-- **An entry survives a swap.** `evict_pages` rewrites a valid entry for a slot; the three places
that bring the page back find that slot, and write an entry for the new page with the flags of the
old one. -/
theorem swap_round_trip (pte : Pte) (slot mem : ℕ) (hv : Valid pte) (hs : pte.getLsbD 8 = false)
    (hslot : slot < nswapspace) (ha : mem % 4096 = 0) (hl : mem < 2 ^ 56) :
    swapIdx (evictedPte slot pte) = slot ∧
    (∀ w ∈ [usertrapPte mem (evictedPte slot pte), walkaddrPte mem (evictedPte slot pte),
        uvmcopyPte mem (evictedPte slot pte)],
      has w pteV = true ∧ pte2pa w = mem ∧ has w pteSwapped = false ∧
        ∀ i < 10, i ≠ 8 → w.getLsbD i = pte.getLsbD i) ∧
    walkaddrPte mem (evictedPte slot pte) = usertrapPte mem (evictedPte slot pte) ∧
    uvmcopyPte mem (evictedPte slot pte) = usertrapPte mem (evictedPte slot pte) := by
  have hwalk := walkaddrPte_eq mem (evictedPte slot pte)
  have hcopy := uvmcopyPte_eq mem (evictedPte slot pte)
  refine ⟨swapIdx_evictedPte hslot pte, ?_, hwalk, hcopy⟩
  intro w hw
  obtain rfl : w = usertrapPte mem (evictedPte slot pte) := by
    rw [hwalk, hcopy] at hw
    simpa using hw
  have hm := mapsTo_usertrapPte ha hl (evictedPte slot pte)
  refine ⟨valid_iff.mpr hm.valid, hm.pa, ?_, ?_⟩
  · rw [has_pteSwapped]
    exact hm.not_swapped
  · intro i hi _
    exact getLsbD_usertrapPte_evictedPte hslot hv hs hi

/-- A page that user code may read and write, with the accessed and the dirty bit set, goes to slot
`5` and comes back at another address. -/
theorem swap_round_trip_dirty :
    Valid 0x200000D7#64 ∧ (0x200000D7#64).getLsbD 8 = false ∧
      swapIdx (evictedPte 5 0x200000D7#64) = 5 ∧
      pte2pa (walkaddrPte 0x80001000 (evictedPte 5 0x200000D7#64)) = 0x80001000 ∧
      uvmcopyPte 0x80001000 (evictedPte 5 0x200000D7#64) = 0x200004D7#64 := by
  obtain ⟨hidx, hword, -, -⟩ := swap_round_trip 0x200000D7#64 5 0x80001000 (by decide)
    (by decide) (by decide) (by decide) (by decide)
  refine ⟨by decide, by decide, hidx, (hword _ (by simp)).2.1, by decide⟩

/-! ### Virtual addresses -/

/-- The three table indices of a virtual page, topmost first. -/
abbrev Key := Fin 512 × Fin 512 × Fin 512

/-- `PX(level, va)` -/
def px (level va : ℕ) : Fin 512 := ⟨va / 2 ^ (12 + 9 * level) % 512, Nat.mod_lt _ (by omega)⟩

/-- The indices `walk` uses for an address. -/
def vkey (va : ℕ) : Key := (px 2 va, px 1 va, px 0 va)

/-- The first address of a page. -/
def Key.addr (k : Key) : ℕ := ((k.1 * 512 + k.2.1) * 512 + k.2.2) * 4096

theorem vkey_addr (k : Key) : vkey k.addr = k := by
  obtain ⟨i, j, l⟩ := k
  have hi := i.isLt
  have hj := j.isLt
  have hl := l.isLt
  simp only [vkey, px, Key.addr, Prod.mk.injEq, Fin.ext_iff]
  omega

/-- The page of an address below the top of the three-level tree. -/
theorem addr_vkey (h : va < 2 ^ 39) : (vkey va).addr = va / 4096 * 4096 := by
  simp only [vkey, px, Key.addr]
  omega

theorem addr_inj {k k' : Key} (h : k.addr = k'.addr) : k = k' := by
  rw [← vkey_addr k, h, vkey_addr]

theorem vkey_inj {va' : ℕ} (h : va < 2 ^ 39) (h' : va' < 2 ^ 39) :
    vkey va = vkey va' ↔ va / 4096 = va' / 4096 := by
  constructor
  · intro he
    have := congrArg Key.addr he
    rw [addr_vkey h, addr_vkey h'] at this
    omega
  · intro he
    refine addr_inj ?_
    rw [addr_vkey h, addr_vkey h', he]

/-- The page lies in user memory, below the trap frame. -/
def UserKey (k : Key) : Prop := k.addr < trapframe

instance (k : Key) : Decidable (UserKey k) := inferInstanceAs (Decidable (_ < _))

theorem userKey_vkey (h : va < trapframe) : UserKey (vkey va) := by
  simp only [trapframe_eq] at h
  rw [UserKey, addr_vkey (by omega)]
  simp only [trapframe_eq]
  omega

end Mem

end Xv6
