import Xv6.Disk.Block

/-!
# The super block and the free map

A free-map block holds one bit for each of `BPB` disk blocks.  The code in
`fs.c` tests, sets and clears bit `bi` as `data[bi/8] & (1 << (bi % 8))`; this
file gives these three operations and the fact that setting or clearing a bit
changes no other.  `Superblock` says where the inode and free-map blocks are.
-/

namespace Xv6

open Function

/-- `BPB`, the number of bits in a free-map block. -/
@[irreducible] def BPB : ℕ := BSIZE * 8

theorem BPB_eq : BPB = 4096 := by
  unfold BPB
  rfl

theorem BPB_pos : 0 < BPB := by
  rw [BPB_eq]
  decide

/-- `IPB`, inodes per block. -/
def IPB : ℕ := BSIZE / 64

/-- `struct superblock`. -/
structure Superblock where
  size : ℕ
  nblocks : ℕ
  ninodes : ℕ
  nlog : ℕ
  /-- Block number of the first log block. -/
  logstart : ℕ
  /-- Block number of the first inode block. -/
  inodestart : ℕ
  /-- Block number of the first free-map block. -/
  bmapstart : ℕ

/-- `IBLOCK(i, sb)`, the block with inode `i`. -/
def Superblock.IBLOCK (sb : Superblock) (i : ℕ) : ℕ := i / IPB + sb.inodestart

/-- `BBLOCK(b, sb)`, the free-map block with the bit for block `b`. -/
def Superblock.BBLOCK (sb : Superblock) (b : ℕ) : ℕ := b / BPB + sb.bmapstart

namespace Block

/-- `m = 1 << (bi % 8)`, in the byte it is combined with. -/
def mask (bi : ℕ) : UInt8 := 1 <<< UInt8.ofNat (bi % 8)

def bit (x : Block) (bi : ℕ) : Bool := (x (Fin.ofNat BSIZE (bi / 8)) &&& mask bi) != 0

def setBit (x : Block) (bi : ℕ) : Block :=
  update x (Fin.ofNat BSIZE (bi / 8)) (x (Fin.ofNat BSIZE (bi / 8)) ||| mask bi)

def clearBit (x : Block) (bi : ℕ) : Block :=
  update x (Fin.ofNat BSIZE (bi / 8)) (x (Fin.ofNat BSIZE (bi / 8)) &&& ~~~mask bi)

theorem mask_ne_zero (bi : ℕ) : mask bi ≠ 0 := by
  have h : ∀ k : Fin 8, (1 <<< UInt8.ofNat k.val : UInt8) ≠ 0 := by decide
  exact h ⟨bi % 8, Nat.mod_lt _ (by decide)⟩

variable {bi bj : ℕ}

theorem mask_and_mask (h : bi % 8 ≠ bj % 8) : mask bi &&& mask bj = 0 := by
  have hall : ∀ k l : Fin 8, k ≠ l →
      (1 <<< UInt8.ofNat k.val : UInt8) &&& (1 <<< UInt8.ofNat l.val) = 0 := by decide
  exact hall ⟨bi % 8, Nat.mod_lt _ (by decide)⟩ ⟨bj % 8, Nat.mod_lt _ (by decide)⟩
    fun he => h (congrArg Fin.val he)

theorem not_mask_and_mask (h : bi % 8 ≠ bj % 8) : ~~~mask bi &&& mask bj = mask bj := by
  have hall : ∀ k l : Fin 8, k ≠ l →
      ~~~(1 <<< UInt8.ofNat k.val : UInt8) &&& (1 <<< UInt8.ofNat l.val)
        = (1 <<< UInt8.ofNat l.val) := by decide
  exact hall ⟨bi % 8, Nat.mod_lt _ (by decide)⟩ ⟨bj % 8, Nat.mod_lt _ (by decide)⟩
    fun he => h (congrArg Fin.val he)

theorem or_and_distrib (x a b : UInt8) : (x ||| a) &&& b = (x &&& b) ||| (a &&& b) := by
  apply UInt8.toBitVec_inj.1
  ext i hi
  simp [Bool.and_or_distrib_right]

theorem mod_ne_of_byte_eq (hi : bi < BPB) (hj : bj < BPB) (hne : bj ≠ bi)
    (h : Fin.ofNat BSIZE (bj / 8) = Fin.ofNat BSIZE (bi / 8)) : bi % 8 ≠ bj % 8 := by
  have hval := congrArg Fin.val h
  have hsize := BPB_eq
  have h512 : BSIZE = 512 := rfl
  simp only [Fin.ofNat] at hval
  rw [Nat.mod_eq_of_lt (by omega), Nat.mod_eq_of_lt (by omega)] at hval
  omega

@[simp] theorem bit_setBit_self (x : Block) (bi : ℕ) : (x.setBit bi).bit bi = true := by
  rw [bit, setBit, update_self, or_and_distrib, UInt8.and_self, bne_iff_ne]
  intro h
  exact mask_ne_zero bi (UInt8.or_eq_zero_iff.1 h).2

theorem bit_setBit_of_ne (x : Block) (hi : bi < BPB) (hj : bj < BPB) (hne : bj ≠ bi) :
    (x.setBit bi).bit bj = x.bit bj := by
  rw [bit, setBit, bit]
  by_cases h : Fin.ofNat BSIZE (bj / 8) = Fin.ofNat BSIZE (bi / 8)
  · rw [h, update_self, or_and_distrib, mask_and_mask (mod_ne_of_byte_eq hi hj hne h),
      UInt8.or_zero]
  · rw [update_of_ne h]

@[simp] theorem bit_clearBit_self (x : Block) (bi : ℕ) : (x.clearBit bi).bit bi = false := by
  rw [bit, clearBit, update_self, UInt8.and_assoc, UInt8.not_and_self, UInt8.and_zero]
  rfl

theorem bit_clearBit_of_ne (x : Block) (hi : bi < BPB) (hj : bj < BPB) (hne : bj ≠ bi) :
    (x.clearBit bi).bit bj = x.bit bj := by
  rw [bit, clearBit, bit]
  by_cases h : Fin.ofNat BSIZE (bj / 8) = Fin.ofNat BSIZE (bi / 8)
  · rw [h, update_self, UInt8.and_assoc,
      not_mask_and_mask (mod_ne_of_byte_eq hi hj hne h)]
  · rw [update_of_ne h]

end Block

end Xv6
