import Xv6.Fs.Inode

/-!
# Inodes in their blocks

An inode block holds `IPB` structures `struct dinode` of 64 bytes: four `short` and
fourteen `uint`, in intel byte order.

* `Dinode.byte`, `Dinode.ofBytes` — the bytes of a `struct dinode`, and the structure
  that given bytes are.
* `Dinode.Fits` — the fields are in the range of their C types; then nothing is lost
  (`ofBytes_byte`).
* `slot`, `setSlot` — reading and storing the inode with a given number.  A store
  changes no byte of another inode (`slotByte_setSlot_of_ne`).
-/

namespace Xv6.Fs

open Function

/-! ## `short` and `uint` -/

/-- The values of a `short`. -/
def IsShort (v : ℤ) : Prop := -32768 ≤ v ∧ v < 32768

instance (v : ℤ) : Decidable (IsShort v) := inferInstanceAs (Decidable (_ ∧ _))

/-- Byte `j` of a `short`. -/
def shortByte (v : ℤ) (j : ℕ) : UInt8 := UInt8.ofNat ((v % 65536).toNat / 256 ^ j)

/-- Byte `j` of a `uint`. -/
def uintByte (v j : ℕ) : UInt8 := UInt8.ofNat (v / 256 ^ j)

/-- The `uint` of the two bytes at offset `o`. -/
def getUshort (f : ℕ → UInt8) (o : ℕ) : ℕ := (f o).toNat + 256 * (f (o + 1)).toNat

/-- The `short` at offset `o`. -/
def getShort (f : ℕ → UInt8) (o : ℕ) : ℤ :=
  if getUshort f o < 32768 then getUshort f o else getUshort f o - 65536

/-- The `uint` at offset `o`. -/
def getUint (f : ℕ → UInt8) (o : ℕ) : ℕ := getUshort f o + 65536 * getUshort f (o + 2)

theorem getUshort_lt (f : ℕ → UInt8) (o : ℕ) : getUshort f o < 65536 := by
  have h₀ := (f o).toNat_lt
  have h₁ := (f (o + 1)).toNat_lt
  rw [getUshort]
  omega

variable {f : ℕ → UInt8} {o m n : ℕ} {F : Format}

theorem getUshort_of_bytes {v : ℕ} (h₀ : f o = UInt8.ofNat v)
    (h₁ : f (o + 1) = UInt8.ofNat (v / 256)) : getUshort f o = v % 65536 := by
  rw [getUshort, h₀, h₁, UInt8.toNat_ofNat', UInt8.toNat_ofNat']
  omega

theorem getShort_shortByte {v : ℤ} (hv : IsShort v) (h₀ : f o = shortByte v 0)
    (h₁ : f (o + 1) = shortByte v 1) : getShort f o = v := by
  rw [shortByte, pow_zero, Nat.div_one] at h₀
  rw [shortByte, pow_one] at h₁
  rw [getShort, getUshort_of_bytes h₀ h₁]
  obtain ⟨hlo, hhi⟩ := hv
  split <;> omega

theorem getUint_uintByte {v : ℕ} (hv : v < 4294967296) (h : ∀ j, j < 4 → f (o + j) = uintByte v j) :
    getUint f o = v := by
  have h₀ : f o = UInt8.ofNat v := by
    rw [← Nat.add_zero o, h 0 (by omega), uintByte, pow_zero, Nat.div_one]
  have h₁ : f (o + 1) = UInt8.ofNat (v / 256) := by rw [h 1 (by omega), uintByte, pow_one]
  have h₂ : f (o + 2) = UInt8.ofNat (v / 65536) := h 2 (by omega)
  have h₃ : f (o + 2 + 1) = UInt8.ofNat (v / 65536 / 256) := by
    rw [Nat.add_assoc, h 3 (by omega), uintByte, Nat.div_div_eq_div_mul]
    norm_num
  rw [getUint, getUshort_of_bytes h₀ h₁, getUshort_of_bytes h₂ h₃]
  omega

theorem isShort_getShort (f : ℕ → UInt8) (o : ℕ) : IsShort (getShort f o) := by
  have h := getUshort_lt f o
  rw [getShort, IsShort]
  split <;> omega

theorem getUint_lt (f : ℕ → UInt8) (o : ℕ) : getUint f o < 4294967296 := by
  have h₀ := getUshort_lt f o
  have h₁ := getUshort_lt f (o + 2)
  rw [getUint]
  omega

/-! ## `struct dinode` -/

/-- The fields are in the range of their C types. -/
structure Dinode.Fits (d : Dinode) : Prop where
  type : IsShort d.type
  major : IsShort d.major
  minor : IsShort d.minor
  nlink : IsShort d.nlink
  size : d.size < 4294967296
  addrs : ∀ k, k ≤ NDIRECT → d.addrs k < 4294967296
  /-- There is no address after the last. -/
  rest : ∀ k, NDIRECT < k → d.addrs k = 0

/-- Byte `o` of a `struct dinode`. -/
def Dinode.byte (d : Dinode) (o : ℕ) : UInt8 :=
  if o < 2 then shortByte d.type o
  else if o < 4 then shortByte d.major (o - 2)
  else if o < 6 then shortByte d.minor (o - 4)
  else if o < 8 then shortByte d.nlink (o - 6)
  else if o < 12 then uintByte d.size (o - 8)
  else uintByte (d.addrs ((o - 12) / 4)) ((o - 12) % 4)

/-- The `struct dinode` whose bytes are given. -/
def Dinode.ofBytes (f : ℕ → UInt8) : Dinode where
  type := getShort f 0
  major := getShort f 2
  minor := getShort f 4
  nlink := getShort f 6
  size := getUint f 8
  addrs k := if k ≤ NDIRECT then getUint f (12 + 4 * k) else 0

theorem fits_ofBytes (f : ℕ → UInt8) : (Dinode.ofBytes f).Fits where
  type := isShort_getShort f 0
  major := isShort_getShort f 2
  minor := isShort_getShort f 4
  nlink := isShort_getShort f 6
  size := getUint_lt f 8
  addrs k hk := by
    change (if k ≤ NDIRECT then getUint f (12 + 4 * k) else 0) < _
    rw [if_pos hk]
    exact getUint_lt f _
  rest k hk := if_neg (Nat.not_le.2 hk)

theorem ofBytes_congr {g : ℕ → UInt8} (h : ∀ o, o < 64 → f o = g o) :
    Dinode.ofBytes f = Dinode.ofBytes g := by
  have hushort : ∀ o, o + 1 < 64 → getUshort f o = getUshort g o := by
    intro o ho
    rw [getUshort, getUshort, h o (by omega), h (o + 1) ho]
  have hshort : ∀ o, o + 1 < 64 → getShort f o = getShort g o := by
    intro o ho
    rw [getShort, getShort, hushort o ho]
  have huint : ∀ o, o + 3 < 64 → getUint f o = getUint g o := by
    intro o ho
    rw [getUint, getUint, hushort o (by omega), hushort (o + 2) ho]
  have haddrs : (Dinode.ofBytes f).addrs = (Dinode.ofBytes g).addrs := by
    funext k
    change (if k ≤ NDIRECT then _ else 0) = if k ≤ NDIRECT then _ else 0
    by_cases hk : k ≤ NDIRECT
    · have hk' : k ≤ 12 := hk
      rw [if_pos hk, if_pos hk, huint _ (by omega)]
    · rw [if_neg hk, if_neg hk]
  simp only [Dinode.ofBytes] at haddrs ⊢
  rw [haddrs, hshort 0 (by omega), hshort 2 (by omega), hshort 4 (by omega), hshort 6 (by omega),
    huint 8 (by omega)]

theorem ofBytes_byte {d : Dinode} (h : d.Fits) (hf : ∀ o, o < 64 → f o = d.byte o) :
    Dinode.ofBytes f = d := by
  have haddrs : (Dinode.ofBytes f).addrs = d.addrs := by
    funext k
    change (if k ≤ NDIRECT then getUint f (12 + 4 * k) else 0) = d.addrs k
    by_cases hk : k ≤ NDIRECT
    · rw [if_pos hk]
      refine getUint_uintByte (h.addrs k hk) fun j hj => ?_
      have hk' : k ≤ 12 := hk
      rw [hf _ (by omega), Dinode.byte, if_neg (by omega), if_neg (by omega), if_neg (by omega),
        if_neg (by omega), if_neg (by omega)]
      congr 2 <;> omega
    · rw [if_neg hk, h.rest k (Nat.not_le.1 hk)]
  have hsize : (Dinode.ofBytes f).size = d.size := by
    refine getUint_uintByte h.size fun j hj => ?_
    rw [hf _ (by omega), Dinode.byte, if_neg (by omega), if_neg (by omega), if_neg (by omega),
      if_neg (by omega), if_pos (by omega)]
    congr 1
    omega
  have htype : (Dinode.ofBytes f).type = d.type :=
    getShort_shortByte h.type (hf 0 (by omega)) (hf 1 (by omega))
  have hmajor : (Dinode.ofBytes f).major = d.major :=
    getShort_shortByte h.major (hf 2 (by omega)) (hf 3 (by omega))
  have hminor : (Dinode.ofBytes f).minor = d.minor :=
    getShort_shortByte h.minor (hf 4 (by omega)) (hf 5 (by omega))
  have hnlink : (Dinode.ofBytes f).nlink = d.nlink :=
    getShort_shortByte h.nlink (hf 6 (by omega)) (hf 7 (by omega))
  cases d
  simp only [Dinode.ofBytes] at *
  simp only [htype, hmajor, hminor, hnlink, hsize, haddrs]

/-! ## Slots -/

/-- A super block with the inode blocks before the free map. -/
structure Format extends Superblock where
  inodes_lt : ∀ n, n < ninodes → n / IPB + inodestart < bmapstart

/-- The blocks from the first inode block up to the free map. -/
def Format.inodeBlock (F : Format) (b : ℕ) : Prop := F.inodestart ≤ b ∧ b < F.bmapstart

def slotOf (x : Block) (k : ℕ) : Dinode := .ofBytes fun o => x (Fin.ofNat BSIZE (64 * k + o))

def setSlotOf (x : Block) (k : ℕ) (d : Dinode) : Block := fun j =>
  if j.val / 64 = k then d.byte (j.val % 64) else x j

/-- Byte `o` of the `struct dinode` with number `n`. -/
def slotByte (F : Format) (disk : ℕ → Block) (n o : ℕ) : UInt8 :=
  disk (F.IBLOCK n) (Fin.ofNat BSIZE (64 * (n % IPB) + o))

/-- The inode with number `n`. -/
def slot (F : Format) (disk : ℕ → Block) (n : ℕ) : Dinode := slotOf (disk (F.IBLOCK n)) (n % IPB)

/-- Store into the inode with number `n`. -/
def setSlot (F : Format) (disk : ℕ → Block) (n : ℕ) (d : Dinode) : ℕ → Block :=
  update disk (F.IBLOCK n) (setSlotOf (disk (F.IBLOCK n)) (n % IPB) d)

theorem div_mod_IPB_inj (hdiv : m / IPB = n / IPB) (hmod : m % IPB = n % IPB) : m = n := by
  rw [← Nat.div_add_mod m IPB, ← Nat.div_add_mod n IPB, hdiv, hmod]

theorem val_slotByte (n : ℕ) (ho : o < 64) :
    (Fin.ofNat BSIZE (64 * (n % IPB) + o)).val = 64 * (n % IPB) + o := by
  have hmod : n % IPB < 8 := Nat.mod_lt n (by decide)
  have hsize : BSIZE = 512 := rfl
  exact Nat.mod_eq_of_lt (by omega)

theorem slotByte_setSlot_self (F : Format) (disk : ℕ → Block) (n : ℕ) (d : Dinode) (ho : o < 64) :
    slotByte F (setSlot F disk n d) n o = d.byte o := by
  rw [slotByte, setSlot, update_self, setSlotOf, val_slotByte n ho, if_pos (by omega)]
  congr 1
  omega

theorem slotByte_setSlot_of_ne (F : Format) (disk : ℕ → Block) (h : m ≠ n) (d : Dinode)
    (ho : o < 64) : slotByte F (setSlot F disk n d) m o = slotByte F disk m o := by
  rw [slotByte, slotByte, setSlot]
  by_cases hblock : F.IBLOCK m = F.IBLOCK n
  · have hmod : m % IPB ≠ n % IPB := fun hmod => h (div_mod_IPB_inj (Nat.add_right_cancel hblock) hmod)
    rw [hblock, update_self, setSlotOf, val_slotByte m ho, if_neg (by omega)]
  · rw [update_of_ne hblock]

theorem slot_congr {disk disk' : ℕ → Block} (h : disk' (F.IBLOCK n) = disk (F.IBLOCK n)) :
    slot F disk' n = slot F disk n := by
  rw [slot, slot, h]

theorem slot_setSlot_self (F : Format) (disk : ℕ → Block) (n : ℕ) {d : Dinode} (h : d.Fits) :
    slot F (setSlot F disk n d) n = d :=
  ofBytes_byte h fun _ ho => slotByte_setSlot_self F disk n d ho

theorem slot_setSlot_of_ne (F : Format) (disk : ℕ → Block) (h : m ≠ n) (d : Dinode) :
    slot F (setSlot F disk n d) m = slot F disk m :=
  ofBytes_congr fun _ ho => slotByte_setSlot_of_ne F disk h d ho

theorem setSlot_of_ne (F : Format) (disk : ℕ → Block) (n : ℕ) (d : Dinode) {b : ℕ}
    (h : b ≠ F.IBLOCK n) : setSlot F disk n d b = disk b := update_of_ne h _ _

theorem inodeBlock_IBLOCK (hn : n < F.ninodes) : F.inodeBlock (F.IBLOCK n) :=
  ⟨Nat.le_add_left _ _, F.inodes_lt n hn⟩

theorem not_inodeBlock_BBLOCK (F : Format) (b : ℕ) : ¬F.inodeBlock (F.BBLOCK b) := by
  rintro ⟨-, hlt⟩
  exact absurd hlt (Nat.not_lt.2 (Nat.le_add_left _ _))

theorem not_inodeBlock_of_data {b : ℕ} (hb : F.nmeta ≤ b) (hlt : b < F.size) :
    ¬F.inodeBlock b := by
  rintro ⟨-, hlt'⟩
  have hmap := (Nat.le_add_left F.bmapstart (b / BPB)).trans_lt (F.bmap_lt b hlt)
  rw [Superblock.nmeta] at hb
  omega

end Xv6.Fs
