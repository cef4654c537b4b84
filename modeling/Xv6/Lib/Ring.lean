import Mathlib

/-!
# Ring buffers with free-running counters

A ring of `N` cells is addressed by counters of `w` bits that only ever count
up and wrap: counter value `k` stands for cell `k % N`.  When `N` divides `2 ^ w`
the wrap of the counters goes unnoticed, and a window of at most `N` consecutive
counter values names distinct cells.

`window data r n` is what the ring holds from counter `r` on, in order.  Storing
at the end appends to it (`window_store`), advancing its start drops its first
element (`window_succ`).
-/

namespace Xv6.Lib.Ring

open Function List
open BitVec (ofNat)

variable {α : Type*} {N w : ℕ} [NeZero N]

/-- The cell a counter value stands for. -/
def slot (N : ℕ) [NeZero N] (k : BitVec w) : Fin N :=
  Fin.ofNat N k.toNat

/-- The `n` elements from counter `r` on. -/
def window (data : Fin N → α) (r : BitVec w) (n : ℕ) : List α :=
  (List.range n).map fun i => data (slot N (r + ofNat w i))

@[simp] theorem window_zero (data : Fin N → α) (r : BitVec w) : window data r 0 = [] := rfl

@[simp] theorem length_window (data : Fin N → α) (r : BitVec w) (n : ℕ) :
    (window data r n).length = n := by
  simp [window]

theorem slot_add (hN : N ∣ 2 ^ w) (r : BitVec w) (i : ℕ) :
    (slot N (r + ofNat w i) : ℕ) = (r.toNat + i) % N := by
  simp only [slot, Fin.val_ofNat, BitVec.toNat_add, BitVec.toNat_ofNat, Nat.add_mod_mod]
  exact Nat.mod_mod_of_dvd _ hN

theorem slot_add_ne (hN : N ∣ 2 ^ w) (r : BitVec w) {i j : ℕ} (hij : i < j) (hj : j < i + N) :
    slot N (r + ofNat w i) ≠ slot N (r + ofNat w j) := by
  intro h
  have hval : (r.toNat + i) % N = (r.toNat + j) % N := by
    rw [← slot_add hN r i, ← slot_add hN r j, h]
  have hmod : r.toNat + i ≡ r.toNat + j [MOD N] := hval
  have hdvd : N ∣ j - i := by
    have := (Nat.modEq_iff_dvd' (by omega)).1 hmod
    rwa [Nat.add_sub_add_left] at this
  have hle := Nat.le_of_dvd (by omega) hdvd
  omega

theorem window_store (hN : N ∣ 2 ^ w) (data : Fin N → α) (r : BitVec w) {n : ℕ} (hn : n < N)
    (x : α) :
    window (update data (slot N (r + ofNat w n)) x) r (n + 1)
      = window data r n ++ [x] := by
  have hold : ∀ i ∈ List.range n,
      update data (slot N (r + ofNat w n)) x (slot N (r + ofNat w i))
        = data (slot N (r + ofNat w i)) := by
    intro i hi
    have hin : i < n := mem_range.1 hi
    exact update_of_ne (slot_add_ne hN r hin (by omega)) _ _
  rw [window, range_succ, map_append, map_congr_left hold]
  simp [window]

theorem window_succ (data : Fin N → α) (r : BitVec w) (n : ℕ) :
    window data r (n + 1) = data (slot N r) :: window data (r + 1) n := by
  rw [window, range_succ_eq_map, map_cons, map_map, window]
  refine congrArg₂ List.cons (by simp) ?_
  refine map_congr_left ?_
  intro i _
  have hi : r + ofNat w (i + 1) = r + 1 + ofNat w i := by
    rw [Nat.add_comm i 1, BitVec.ofNat_add, BitVec.add_assoc]
    rfl
  simp only [Function.comp, Nat.succ_eq_add_one, hi]

theorem window_concat (data : Fin N → α) (r : BitVec w) (n : ℕ) :
    window data r (n + 1) = window data r n ++ [data (slot N (r + ofNat w n))] := by
  rw [window, range_succ, map_append]
  rfl

theorem window_add (data : Fin N → α) (r : BitVec w) (m n : ℕ) :
    window data r (m + n) = window data r m ++ window data (r + ofNat w m) n := by
  induction n with
  | zero => simp
  | succ n ih =>
    rw [← Nat.add_assoc, window_concat, window_concat, ih, append_assoc, BitVec.add_assoc,
      BitVec.ofNat_add]

end Xv6.Lib.Ring
