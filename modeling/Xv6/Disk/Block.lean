import Mathlib

/-!
# Disk blocks

A block is `BSIZE` bytes (`fs.h`).  The kernel casts `buf->data` to C structures
whose fields are 32-bit integers in intel byte order, so this file gives the
word view of a block: reading the `i`th word, storing it, and the fact that a
store changes that word alone.
-/

namespace Xv6

/-- `BSIZE`, the size of a disk block in bytes (`fs.h`). -/
def BSIZE : ℕ := 512

instance : NeZero BSIZE := ⟨by decide⟩

/-- The contents of one disk block, `buf->data`. -/
abbrev Block := Fin BSIZE → UInt8

namespace Block

/-- The block of zeroes. -/
def zeroes : Block := fun _ => 0

/-- Byte `i` of a block; offsets are below `BSIZE` wherever it is used. -/
def byte (b : Block) (i : ℕ) : ℕ := (b (Fin.ofNat BSIZE i)).toNat

/-- The `i`th 32-bit word of a block, in intel byte order. -/
def word (b : Block) (i : ℕ) : UInt32 :=
  UInt32.ofNat (b.byte (4 * i) + 2 ^ 8 * b.byte (4 * i + 1) + 2 ^ 16 * b.byte (4 * i + 2)
    + 2 ^ 24 * b.byte (4 * i + 3))

/-- Store `w` as the `i`th 32-bit word of a block. -/
def setWord (b : Block) (i : ℕ) (w : UInt32) : Block := fun j =>
  if j.val / 4 = i then UInt8.ofNat (w.toNat / 2 ^ (8 * (j.val % 4))) else b j

theorem byte_setWord_self (b : Block) {i : ℕ} (hi : i < BSIZE / 4) (w : UInt32) {k : ℕ}
    (hk : k < 4) : (b.setWord i w).byte (4 * i + k) = w.toNat / 2 ^ (8 * k) % 2 ^ 8 := by
  have hlt : 4 * i + k < BSIZE := by
    have : BSIZE / 4 = 128 := rfl
    have : BSIZE = 512 := rfl
    omega
  have hval : (Fin.ofNat BSIZE (4 * i + k)).val = 4 * i + k := Nat.mod_eq_of_lt hlt
  have hdiv : (4 * i + k) / 4 = i := by omega
  have hmod : (4 * i + k) % 4 = k := by omega
  rw [byte, setWord, hval, if_pos hdiv, hmod, UInt8.toNat_ofNat']

theorem byte_setWord_of_ne (b : Block) {i j : ℕ} (hj : j < BSIZE / 4) (hij : j ≠ i)
    (w : UInt32) {k : ℕ} (hk : k < 4) : (b.setWord i w).byte (4 * j + k) = b.byte (4 * j + k) := by
  have hlt : 4 * j + k < BSIZE := by
    have : BSIZE / 4 = 128 := rfl
    have : BSIZE = 512 := rfl
    omega
  have hval : (Fin.ofNat BSIZE (4 * j + k)).val = 4 * j + k := Nat.mod_eq_of_lt hlt
  have hdiv : (4 * j + k) / 4 ≠ i := by omega
  rw [byte, setWord, hval, if_neg hdiv, byte]

theorem word_setWord_self (b : Block) {i : ℕ} (hi : i < BSIZE / 4) (w : UInt32) :
    (b.setWord i w).word i = w := by
  have h0 := byte_setWord_self b hi w (k := 0) (by omega)
  have h1 := byte_setWord_self b hi w (k := 1) (by omega)
  have h2 := byte_setWord_self b hi w (k := 2) (by omega)
  have h3 := byte_setWord_self b hi w (k := 3) (by omega)
  rw [word, h1, h2, h3, show 4 * i = 4 * i + 0 from rfl, h0]
  have hw : w.toNat < 2 ^ 32 := w.toNat_lt
  have hsum : w.toNat / 2 ^ (8 * 0) % 2 ^ 8 + 2 ^ 8 * (w.toNat / 2 ^ (8 * 1) % 2 ^ 8)
      + 2 ^ 16 * (w.toNat / 2 ^ (8 * 2) % 2 ^ 8) + 2 ^ 24 * (w.toNat / 2 ^ (8 * 3) % 2 ^ 8)
      = w.toNat := by
    norm_num
    omega
  rw [hsum, UInt32.ofNat_toNat]

theorem word_setWord_of_ne (b : Block) {i j : ℕ} (hj : j < BSIZE / 4) (hij : j ≠ i)
    (w : UInt32) : (b.setWord i w).word j = b.word j := by
  rw [word, word, byte_setWord_of_ne b hj hij w (k := 1) (by omega),
    byte_setWord_of_ne b hj hij w (k := 2) (by omega),
    byte_setWord_of_ne b hj hij w (k := 3) (by omega),
    show 4 * j = 4 * j + 0 from rfl, byte_setWord_of_ne b hj hij w (k := 0) (by omega)]

end Block

end Xv6
