import Mathlib.Tactic.NormNum

/-!
# Kernel constants and machine integers

The constants of `kernel/memlayout.h`, `kernel/param.h`, `kernel/riscv.h` and `kernel/fs.h` that
the modelled functions read, and the wrap-around of C's 32-bit `int`.

The comments of the source still describe an earlier geometry with eight blocks per page; the
definitions below follow the macros, under which a page is four blocks.
-/

namespace Xv6

/-! ### Pages and physical memory -/

/-- `PGSIZE`: bytes per page. -/
def pgsize : ℕ := 4096

/-- `KERNBASE`: start of RAM. -/
def kernbase : ℕ := 0x80000000

/-- `PHYSTOP`: end of the RAM the kernel uses. -/
def phystop : ℕ := kernbase + 128 * 1024 * 1024

/-- `NFRAME`: entries of the frame table. -/
def nframe : ℕ := 512

/-- `MAXVA`: one beyond the highest virtual address. -/
def maxva : ℕ := 2 ^ 38

/-- `TRAMPOLINE`: the highest page of every address space. -/
def trampoline : ℕ := maxva - pgsize

/-- `TRAPFRAME`: the page below it; user memory ends here. -/
def trapframe : ℕ := trampoline - pgsize

/-- `PGROUNDUP` on a 64-bit word. -/
def pgroundup (sz : ℕ) : ℕ := (sz + pgsize - 1) % 2 ^ 64 / pgsize * pgsize

/-- `PGROUNDDOWN` -/
def pgrounddown (a : ℕ) : ℕ := a / pgsize * pgsize

/-! ### Disk geometry -/

/-- `BSIZE`: bytes per disk block. -/
def bsize : ℕ := 1024

/-- `FSSIZE`: blocks of the disk image. -/
def fssize : ℕ := 120000

/-- `NSWAPSPACE`: swap slots. -/
def nswapspace : ℕ := 4096

/-- `NDISKS`: simulated disks of the array. -/
def ndisks : ℕ := 4

/-- `SWAP_START`: first real block of the swap regions. -/
def swapStart : ℕ := 20000

/-- `NSWAPBLOCKS_PER_MODE`: real blocks in the region of one RAID mode. -/
def nswapblocksPerMode : ℕ := nswapspace * (pgsize / bsize)

/-- `NDISKREQS`: places of the pending request queue. -/
def ndiskreqs : ℕ := 128

/-- `ROTATIONAL_DELAY`: the constant part of a request's latency. -/
def rotationalDelay : ℤ := 10

@[simp] theorem pgsize_eq : pgsize = 4096 := rfl
@[simp] theorem kernbase_eq : kernbase = 2147483648 := rfl
@[simp] theorem phystop_eq : phystop = 2281701376 := rfl
@[simp] theorem nframe_eq : nframe = 512 := rfl
@[simp] theorem maxva_eq : maxva = 274877906944 := rfl
@[simp] theorem trampoline_eq : trampoline = 274877902848 := rfl
@[simp] theorem trapframe_eq : trapframe = 274877898752 := rfl
@[simp] theorem fssize_eq : fssize = 120000 := rfl
@[simp] theorem nswapspace_eq : nswapspace = 4096 := rfl
@[simp] theorem ndisks_eq : ndisks = 4 := rfl
@[simp] theorem swapStart_eq : swapStart = 20000 := rfl
@[simp] theorem nswapblocksPerMode_eq : nswapblocksPerMode = 16384 := rfl

/-! ### 32-bit integers -/

/-- The value of a C `int` expression: two's complement on 32 bits. -/
def int32 (x : ℤ) : ℤ := Int.bmod x (2 ^ 32)

theorem int32_of_mem {x : ℤ} (hlo : -2 ^ 31 ≤ x) (hhi : x < 2 ^ 31) : int32 x = x := by
  rw [int32, Int.bmod_eq_of_le (by norm_num; omega) (by norm_num; omega)]

@[simp] theorem int32_zero : int32 0 = 0 := int32_of_mem (by norm_num) (by norm_num)

theorem int32_add (x y : ℤ) : int32 (int32 x + y) = int32 (x + y) := by
  simp [int32]

theorem int32_sub (x y : ℤ) : int32 (int32 x - int32 y) = int32 (x - y) := by
  simp [int32]

end Xv6
