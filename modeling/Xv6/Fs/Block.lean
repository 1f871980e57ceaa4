import Mathlib.Data.BitVec
import Mathlib.Order.Defs.LinearOrder
import Xv6.Disk.Queue

/-!
# Words in a block

The structures of the file system lie in the bytes of a block: the log's header and an indirect
block are arrays of 32-bit words, an entry of the inode table is a handful of them. A word is
little endian, as the machine stores it. `word` and `setWord` read and write one; both are total,
a word beyond the block reads as zero and writing one changes nothing.

A block reaches the disk as two sectors of 512 bytes, and a machine that stops in the middle of
a transfer may have stored either of them: `tear`.
-/

namespace Xv6

namespace Fs

open Disk (Block)

/-- Byte `j` of a block. -/
def byte (b : Block) (j : ℕ) : BitVec 8 := if h : j < bsize then b ⟨j, h⟩ else 0

/-- Word `i` of a block. -/
def word (b : Block) (i : ℕ) : BitVec 32 :=
  byte b (4 * i + 3) ++ byte b (4 * i + 2) ++ byte b (4 * i + 1) ++ byte b (4 * i)

/-- Overwrite word `i` of a block. -/
def setWord (b : Block) (i : ℕ) (v : BitVec 32) : Block :=
  fun j => if j.val / 4 = i then v.extractLsb' (8 * (j.val % 4)) 8 else b j

/-- The number of words in a block. -/
def wordsPerBlock : ℕ := bsize / 4

theorem byte_setWord (b : Block) (i : ℕ) (v : BitVec 32) (j : ℕ) :
    byte (setWord b i v) j =
      if j < bsize ∧ j / 4 = i then v.extractLsb' (8 * (j % 4)) 8 else byte b j := by
  unfold byte setWord
  by_cases hj : j < bsize
  · rw [dif_pos hj, dif_pos hj]
    exact if_congr (and_iff_right hj).symm rfl rfl
  · rw [dif_neg hj, dif_neg hj, if_neg fun h => hj h.1]

theorem word_setWord_self {i : ℕ} (hi : i < wordsPerBlock) (b : Block) (v : BitVec 32) :
    word (setWord b i v) i = v := by
  have hi' : 4 * i + 3 < bsize := by
    unfold wordsPerBlock at hi
    omega
  have key : ∀ k < 4, byte (setWord b i v) (4 * i + k) = v.extractLsb' (8 * k) 8 := by
    intro k hk
    rw [byte_setWord, if_pos ⟨by omega, by omega⟩, show (4 * i + k) % 4 = k by omega]
  have h0 := key 0 (by omega)
  rw [Nat.add_zero] at h0
  unfold word
  rw [key 3 (by omega), key 2 (by omega), key 1 (by omega), h0]
  ext k hk
  simp only [BitVec.getElem_append, BitVec.getElem_extractLsb']
  grind

/-- A word depends on its four bytes only. -/
theorem word_congr {b b' : Block} {i : ℕ} (h : ∀ j : Fin bsize, j.val / 4 = i → b j = b' j) :
    word b i = word b' i := by
  have key : ∀ r < 4, byte b (4 * i + r) = byte b' (4 * i + r) := by
    intro r hr
    unfold byte
    split
    · exact h _ (by show (4 * i + r) / 4 = i; omega)
    · rfl
  unfold word
  rw [key 3 (by omega), key 2 (by omega), key 1 (by omega)]
  have h0 := key 0 (by omega)
  rw [Nat.add_zero] at h0
  rw [h0]

theorem word_setWord_of_ne {i k : ℕ} (h : k ≠ i) (b : Block) (v : BitVec 32) :
    word (setWord b i v) k = word b k :=
  word_congr fun _ hj => if_neg fun hi => h (hj.symm.trans hi)

/-- Store numbers in the words of a block from word `i` on. -/
def setWords (i : ℕ) : List ℕ → Block → Block
  | [], b => b
  | x :: xs, b => setWords (i + 1) xs (setWord b i (BitVec.ofNat 32 x))

theorem word_setWords {xs : List ℕ} {i : ℕ} (h : i + xs.length ≤ wordsPerBlock) (b : Block)
    (k : ℕ) : word (setWords i xs b) k =
      if i ≤ k then ((xs[k - i]?).map (BitVec.ofNat 32)).getD (word b k) else word b k := by
  induction xs generalizing i b with
  | nil => simp [setWords]
  | cons x xs ih =>
    rw [List.length_cons] at h
    rw [setWords, ih (by omega)]
    rcases lt_trichotomy k i with hk | rfl | hk
    · rw [if_neg (by omega), if_neg (by omega), word_setWord_of_ne (by omega)]
    · rw [if_neg (by omega), if_pos le_rfl, word_setWord_self (by omega), Nat.sub_self]
      rfl
    · rw [if_pos (show i + 1 ≤ k from hk), if_pos hk.le, word_setWord_of_ne (by omega),
        show k - i = k - (i + 1) + 1 by omega, List.getElem?_cons_succ]

theorem word_zero (i : ℕ) : word (fun _ => 0) i = 0 := by
  have hbyte : ∀ j, byte (fun _ => 0) j = 0 := fun j => by
    unfold byte
    exact dite_eq_left_iff.mpr fun _ => rfl
  rw [word, hbyte, hbyte, hbyte, hbyte]
  rfl

/-! ### Torn writes -/

/-- The bytes of a disk sector. -/
def sectorSize : ℕ := 512

/-- What is on the disk after a write that stored the first sector when `lo` and the second one
when `hi`. -/
def tear (lo hi : Bool) (old new : Block) : Block :=
  fun j => if (if j.val < sectorSize then lo else hi) then new j else old j

@[simp] theorem tear_self (lo hi : Bool) (b : Block) : tear lo hi b b = b := by
  funext j
  exact ite_self _

/-- A word of the first sector is the new one exactly when that sector was stored. -/
theorem word_tear {lo hi : Bool} {old new : Block} {i : ℕ} (hi' : 4 * i < sectorSize) :
    word (tear lo hi old new) i = if lo then word new i else word old i := by
  unfold sectorSize at hi'
  cases lo with
  | true =>
    refine word_congr fun j hj => ?_
    have : j.val < sectorSize := by unfold sectorSize; omega
    simp [tear, this]
  | false =>
    refine word_congr fun j hj => ?_
    have : j.val < sectorSize := by unfold sectorSize; omega
    simp [tear, this]

end Fs

end Xv6
