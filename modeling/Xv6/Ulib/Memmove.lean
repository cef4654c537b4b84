import Mathlib

/-!
# The two `memmove`s

The kernel's `memmove` of `string.c` copies from the end when the destination starts
inside the source, the one of the user library in `ulib.c` always copies from the start.

Addresses are 32-bit words, and `s + n` wraps as in the source.  `moved` is what both are
for: the memory in which the destination holds what the source held.

* `copyUp_moved`, `copyDown_moved` — each direction does that as long as no byte of the
  source is overwritten before it is read.
* `copyUp_smears` — copying upwards into the source repeats its first bytes instead.
* `memmove_moved` — the result for both functions.
-/

namespace Xv6.Memmove

open Function
open BitVec (lt_def ofNat)

/-- A byte for every address. -/
abbrev Memory := BitVec 32 → UInt8

/-- The memory after `dst[0..n)` has received what `src[0..n)` held. -/
def moved (dst src : BitVec 32) (n : ℕ) (m : Memory) : Memory := fun a =>
  if (a - dst).toNat < n then m (src + (a - dst)) else m a

/-! ## The loops -/

/-- `while(n-- > 0) *d++ = *s++;` for a count of `n`. -/
def copyUp : ℕ → BitVec 32 → BitVec 32 → Memory → Memory
  | 0, _, _, m => m
  | n + 1, d, s, m => copyUp n (d + 1) (s + 1) (update m d (m s))

/-- `while(n-- > 0) *--d = *--s;` for a count of `n`. -/
def copyDown : ℕ → BitVec 32 → BitVec 32 → Memory → Memory
  | 0, _, _, m => m
  | n + 1, d, s, m => copyDown n (d - 1) (s - 1) (update m (d - 1) (m (s - 1)))

/-- `memmove` of `string.c`, with its return value; `n` is a `uint`. -/
def Kernel.memmove (dst src n : BitVec 32) (m : Memory) : BitVec 32 × Memory :=
  if src < dst ∧ dst < src + n then (dst, copyDown n.toNat (dst + n) (src + n) m)
  else (dst, copyUp n.toNat dst src m)

/-- `memmove` of `ulib.c`, with its return value; `n` is an `int`. -/
def User.memmove (vdst vsrc n : BitVec 32) (m : Memory) : BitVec 32 × Memory :=
  (vdst, copyUp n.toInt.toNat vdst vsrc m)

/-- The destination starts inside the source, after its first byte. -/
def StartsInside (dst src n : BitVec 32) : Prop :=
  src < dst ∧ dst.toNat < src.toNat + n.toNat

instance decidableStartsInside (dst src n : BitVec 32) : Decidable (StartsInside dst src n) :=
  inferInstanceAs (Decidable (_ ∧ _))

/-! ## What the loops leave

Both are described by the index of a byte: the byte `i` of the destination, and the bytes
that are none of it. -/

theorem add_one_add_ofNat (b : BitVec 32) (k : ℕ) :
    b + 1 + ofNat 32 k = b + ofNat 32 (k + 1) := by
  rw [BitVec.ofNat_add, add_comm (ofNat 32 k), ← add_assoc]
  rfl

theorem add_ofNat_succ_sub_one (b : BitVec 32) (n : ℕ) :
    b + ofNat 32 (n + 1) - 1 = b + ofNat 32 n := by
  rw [← add_one_add_ofNat]
  ring

theorem copyUp_of_ne {a : BitVec 32} : ∀ (n : ℕ) (d s : BitVec 32) (m : Memory),
    (∀ i < n, a ≠ d + ofNat 32 i) → copyUp n d s m a = m a := by
  intro n
  induction n with
  | zero => intro d s m _; rfl
  | succ n ih =>
    intro d s m ha
    have hd : a ≠ d := by simpa using ha 0 (Nat.succ_pos n)
    rw [copyUp, ih, update_of_ne hd]
    intro i hi
    rw [add_one_add_ofNat]
    exact ha (i + 1) (Nat.succ_lt_succ hi)

theorem copyUp_apply : ∀ (n : ℕ) (d s : BitVec 32) (m : Memory), n ≤ 2 ^ 32 →
    (∀ i j, i < j → j < n → d + ofNat 32 i ≠ s + ofNat 32 j) →
    ∀ i < n, copyUp n d s m (d + ofNat 32 i) = m (s + ofNat 32 i) := by
  intro n
  induction n with
  | zero => intro d s m _ _ i hi; exact absurd hi (Nat.not_lt_zero i)
  | succ n ih =>
    intro d s m hn h i hi
    rw [copyUp]
    cases i with
    | zero =>
      -- the rounds that follow write above `d`
      rw [copyUp_of_ne, BitVec.add_zero, BitVec.add_zero, update_self]
      intro j hj
      bv_omega
    | succ i =>
      have hread : s + ofNat 32 (i + 1) ≠ d := by
        simpa using (h 0 (i + 1) (Nat.succ_pos i) hi).symm
      rw [← add_one_add_ofNat, ih (d + 1) (s + 1) _ (by omega) _ i (by omega),
        add_one_add_ofNat, update_of_ne hread]
      intro j k hjk hk
      rw [add_one_add_ofNat, add_one_add_ofNat]
      exact h (j + 1) (k + 1) (by omega) (by omega)

theorem copyUp_smears {k : ℕ} : ∀ (n : ℕ) (d s : BitVec 32) (m : Memory), n ≤ 2 ^ 32 →
    0 < k → k < 2 ^ 32 → d = s + ofNat 32 k →
    ∀ i < n, copyUp n d s m (d + ofNat 32 i) = m (s + ofNat 32 (i % k)) := by
  intro n
  induction n with
  | zero => intro d s m _ _ _ _ i hi; exact absurd hi (Nat.not_lt_zero i)
  | succ n ih =>
    intro d s m hn hk hk₂ hd i hi
    rw [copyUp]
    cases i with
    | zero =>
      rw [copyUp_of_ne, Nat.zero_mod, BitVec.add_zero, BitVec.add_zero, update_self]
      intro j hj
      bv_omega
    | succ i =>
      have hd' : d + 1 = s + 1 + ofNat 32 k := by rw [hd]; ring
      have hmod : i % k < k := Nat.mod_lt i hk
      rw [← add_one_add_ofNat, ih (d + 1) (s + 1) _ (by omega) hk hk₂ hd' i (by omega),
        add_one_add_ofNat]
      have hnext : (i + 1) % k = (i % k + 1) % k := (Nat.mod_add_mod i k 1).symm
      -- the byte read is the one just written exactly when a period is complete
      by_cases hlast : i % k + 1 = k
      · rw [hnext, hlast, Nat.mod_self, ← hd, update_self, BitVec.add_zero]
      · have hlt : i % k + 1 < k := by omega
        rw [hnext, Nat.mod_eq_of_lt hlt, update_of_ne]
        rw [hd]
        bv_omega

theorem copyDown_of_ne {a : BitVec 32} : ∀ (n : ℕ) (d s : BitVec 32) (m : Memory),
    (∀ i < n, a ≠ d + ofNat 32 i) →
    copyDown n (d + ofNat 32 n) (s + ofNat 32 n) m a = m a := by
  intro n d s
  induction n with
  | zero => intro m _; rfl
  | succ n ih =>
    intro m ha
    rw [copyDown, add_ofNat_succ_sub_one, add_ofNat_succ_sub_one,
      ih _ fun i hi => ha i (by omega), update_of_ne (ha n (Nat.lt_succ_self n))]

theorem copyDown_apply : ∀ (n : ℕ) (d s : BitVec 32) (m : Memory), n ≤ 2 ^ 32 →
    (∀ i j, i < j → j < n → s + ofNat 32 i ≠ d + ofNat 32 j) →
    ∀ i < n, copyDown n (d + ofNat 32 n) (s + ofNat 32 n) m
      (d + ofNat 32 i) = m (s + ofNat 32 i) := by
  intro n d s
  induction n with
  | zero => intro m _ _ i hi; exact absurd hi (Nat.not_lt_zero i)
  | succ n ih =>
    intro m hn h i hi
    rw [copyDown, add_ofNat_succ_sub_one, add_ofNat_succ_sub_one]
    rcases Nat.lt_succ_iff_lt_or_eq.1 hi with hi | rfl
    · rw [ih _ (by omega) (fun j k hjk hk => h j k hjk (by omega)) i hi,
        update_of_ne (h i n hi (Nat.lt_succ_self n))]
    · rw [copyDown_of_ne, update_self]
      intro j hj
      bv_omega

/-! ## The functions -/

variable {dst src : BitVec 32} {n : ℕ}

theorem eq_moved {m m' : Memory} (hn : n ≤ 2 ^ 32)
    (hin : ∀ i < n, m' (dst + ofNat 32 i) = m (src + ofNat 32 i))
    (hout : ∀ a, (∀ i < n, a ≠ dst + ofNat 32 i) → m' a = m a) :
    m' = moved dst src n m := by
  funext a
  rw [moved]
  split
  · next h =>
    have hin := hin _ h
    rwa [BitVec.ofNat_toNat, BitVec.setWidth_eq, add_sub_cancel] at hin
  · next h =>
    refine hout a fun i hi hai => h ?_
    rw [hai]
    bv_omega

theorem copyUp_moved (m : Memory) (hd : dst.toNat + n ≤ 2 ^ 32) (hs : src.toNat + n ≤ 2 ^ 32)
    (h : ¬(src < dst ∧ dst.toNat < src.toNat + n)) :
    copyUp n dst src m = moved dst src n m := by
  refine eq_moved (by omega) (copyUp_apply n dst src m (by omega) ?_)
    fun a ha => copyUp_of_ne n dst src m ha
  intro i j hij hj
  rw [lt_def] at h
  bv_omega

theorem copyDown_moved (m : Memory) (hd : dst.toNat + n ≤ 2 ^ 32) (hs : src.toNat + n ≤ 2 ^ 32)
    (h : src < dst) :
    copyDown n (dst + ofNat 32 n) (src + ofNat 32 n) m = moved dst src n m := by
  refine eq_moved (by omega) (copyDown_apply n dst src m (by omega) ?_)
    fun a ha => copyDown_of_ne n dst src m ha
  intro i j hij hj
  rw [lt_def] at h
  bv_omega

theorem startsInside_iff {n : BitVec 32} (hd : dst.toNat + n.toNat ≤ 2 ^ 32) :
    StartsInside dst src n ↔ src < dst ∧ dst < src + n := by
  rw [StartsInside, lt_def, lt_def]
  constructor <;> intro h <;> bv_omega

theorem Kernel.memmove_copies {n : BitVec 32} (m : Memory) (hd : dst.toNat + n.toNat ≤ 2 ^ 32)
    (hs : src.toNat + n.toNat ≤ 2 ^ 32) :
    Kernel.memmove dst src n m = (dst, moved dst src n.toNat m) := by
  by_cases h : src < dst ∧ dst < src + n
  · have hdown := copyDown_moved m hd hs h.1
    rw [BitVec.ofNat_toNat, BitVec.setWidth_eq] at hdown
    rw [Kernel.memmove, if_pos h, hdown]
  · rw [Kernel.memmove, if_neg h, copyUp_moved m hd hs (mt (startsInside_iff hd).1 h)]

theorem User.memmove_eq {n : BitVec 32} (m : Memory) (hn : n.toNat < 2 ^ 31) :
    User.memmove dst src n m = (dst, copyUp n.toNat dst src m) := by
  rw [User.memmove, BitVec.toInt_eq_toNat_of_lt (by omega), Int.toNat_natCast]

/-- The kernel's `memmove` moves, however the ranges overlap.  The user library's moves
unless the destination starts inside the source; then it fills the destination with
copies of the bytes of the source before it. -/
theorem memmove_moved (m : Memory) (dst src n : BitVec 32) (hn : n.toNat < 2 ^ 31)
    (hd : dst.toNat + n.toNat ≤ 2 ^ 32) (hs : src.toNat + n.toNat ≤ 2 ^ 32) :
    Kernel.memmove dst src n m = (dst, moved dst src n.toNat m) ∧
      (¬StartsInside dst src n → User.memmove dst src n m = (dst, moved dst src n.toNat m)) ∧
      (StartsInside dst src n → ∀ i < n.toNat,
        (User.memmove dst src n m).2 (dst + ofNat 32 i) =
          m (src + ofNat 32 (i % (dst.toNat - src.toNat)))) := by
  rw [User.memmove_eq m hn]
  refine ⟨Kernel.memmove_copies m hd hs, fun h => ?_, fun h => ?_⟩
  · rw [copyUp_moved m hd hs h]
  · have hlt : src.toNat < dst.toNat := BitVec.lt_def.1 h.1
    have hbound := dst.isLt
    exact copyUp_smears n.toNat dst src m (by omega) (by omega) (by omega) (by bv_omega)

/-- Two bytes moved up by one, on a memory in which every byte is the low byte of its
address: the theorem at such an input. -/
theorem memmove_moved_by_one :
    Kernel.memmove 1 0 2 (fun a => .ofBitVec (a.setWidth 8)) =
      (1, moved 1 0 2 fun a => .ofBitVec (a.setWidth 8)) :=
  (memmove_moved _ 1 0 2 (by decide) (by decide) (by decide)).1

/-- There the user library's `memmove` leaves the first byte twice. -/
theorem user_memmove_overlap :
    ∃ (m : Memory) (dst src n : BitVec 32), n.toNat < 2 ^ 31 ∧
      dst.toNat + n.toNat ≤ 2 ^ 32 ∧ src.toNat + n.toNat ≤ 2 ^ 32 ∧
      (User.memmove dst src n m).2 ≠ moved dst src n.toNat m ∧
      (User.memmove dst src n m).2 ≠ (Kernel.memmove dst src n m).2 := by
  refine ⟨fun a => .ofBitVec (a.setWidth 8), 1, 0, 2, by decide, by decide, by decide, ?_, ?_⟩
  · intro h
    have := congrFun h 2
    revert this
    decide
  · intro h
    have := congrFun h 2
    revert this
    decide

end Xv6.Memmove
