import Xv6.Lib.Digits

/-!
# `find_digital_root`

The system call of `sysutils.c` that takes a number in `ebx` and returns its digital
root.  The loop takes the digits of `n` from the last one on and casts out nines as it
goes: whenever `res` passes `9` it is lowered by `9`.

`n` and `res` are `int`, so they are 32-bit words compared and divided as signed numbers.

* `rootLoop_spec` — what the loop keeps: `res` stays a digit, and congruent modulo `9`
  to what it started with and the digits taken.
* `sysFindDigitalRoot_correct` — the result.
-/

namespace Xv6.Syscall

open Xv6.Lib

theorem toInt_srem_ten (n : BitVec 32) : (n.srem 10).toInt = n.toInt.tmod 10 :=
  BitVec.toInt_srem n 10

theorem toInt_sdiv_ten (n : BitVec 32) : (n.sdiv 10).toInt = n.toInt.tdiv 10 :=
  BitVec.toInt_sdiv_of_ne_or_ne n 10 (Or.inr (by decide))

/-- The loop `while (n > 0)`.  Besides the last value of `res` it returns every value that
`res` is given on the way, in order. -/
def rootLoop (n res : BitVec 32) : BitVec 32 × List (BitVec 32) :=
  if 0 < n.toInt then
    let sum := res + n.srem 10
    let folded := if 9 < sum.toInt then sum - 9 else sum
    let rest := rootLoop (n.sdiv 10) folded
    (rest.1, sum :: folded :: rest.2)
  else (res, [])
termination_by n.toInt.toNat
decreasing_by
  rw [toInt_sdiv_ten, Int.tdiv_eq_ediv_of_nonneg (by omega)]
  omega

/-- `sys_find_digital_root`, with the values of `res`; `int res = 0` is the first. -/
def sysFindDigitalRoot (ebx : BitVec 32) : BitVec 32 × List (BitVec 32) :=
  let run := rootLoop ebx 0
  (run.1, 0 :: run.2)

/-! ## One round -/

theorem toInt_add_digit {n res : BitVec 32} (hn : 0 < n.toInt) (h₀ : 0 ≤ res.toInt)
    (h₉ : res.toInt ≤ 9) : (res + n.srem 10).toInt = res.toInt + n.toInt % 10 := by
  rw [BitVec.toInt_add, toInt_srem_ten, Int.tmod_eq_emod_of_nonneg hn.le]
  exact Int.bmod_eq_of_le (by omega) (by omega)

theorem toInt_sub_nine {sum : BitVec 32} (h₀ : 9 < sum.toInt) :
    (sum - 9).toInt = sum.toInt - 9 := by
  have hlt := BitVec.toInt_lt (x := sum)
  rw [BitVec.toInt_sub, show (9 : BitVec 32).toInt = 9 from rfl]
  exact Int.bmod_eq_of_le (by omega) (by omega)

/-! ## The loop -/

theorem rootLoop_spec (n res : BitVec 32) (h₀ : 0 ≤ res.toInt) (h₉ : res.toInt ≤ 9) :
    0 ≤ (rootLoop n res).1.toInt ∧ (rootLoop n res).1.toInt ≤ 9 ∧
      (0 < n.toInt → (rootLoop n res).1.toInt % 9 = (res.toInt + n.toInt) % 9) ∧
      (0 < n.toInt ∨ 0 < res.toInt → 0 < (rootLoop n res).1.toInt) ∧
      (n.toInt ≤ 0 → (rootLoop n res).1 = res) ∧
      ∀ v ∈ (rootLoop n res).2, 0 ≤ v.toInt ∧ v.toInt ≤ 18 := by
  fun_induction rootLoop n res with
  | case1 n res hn sum folded rest ih =>
    have hsum : sum.toInt = res.toInt + n.toInt % 10 := toInt_add_digit hn h₀ h₉
    have hdiv : (n.sdiv 10).toInt = n.toInt / 10 := by
      rw [toInt_sdiv_ten, Int.tdiv_eq_ediv_of_nonneg hn.le]
    obtain ⟨hf₀, hf₉, hfmod, hfpos⟩ : 0 ≤ folded.toInt ∧ folded.toInt ≤ 9 ∧
        folded.toInt % 9 = (res.toInt + n.toInt % 10) % 9 ∧
        (0 < sum.toInt → 0 < folded.toInt) := by
      by_cases h : 9 < sum.toInt
      · have hfolded : folded.toInt = sum.toInt - 9 := by
          rw [show folded = sum - 9 from if_pos h, toInt_sub_nine h]
        omega
      · rw [show folded = sum from if_neg h]
        omega
    obtain ⟨hr₀, hr₉, hrmod, hrpos, hrstop, hrall⟩ := ih hf₀ hf₉
    refine ⟨hr₀, hr₉, fun _ => ?_, fun _ => hrpos ?_, fun h => absurd hn (not_lt.2 h), ?_⟩
    · have hrest : rest.1.toInt % 9 = (folded.toInt + n.toInt / 10) % 9 := by
        by_cases hlast : 0 < (n.sdiv 10).toInt
        · rw [← hdiv]
          exact hrmod hlast
        · have hstop : rest.1 = folded := hrstop (not_lt.1 hlast)
          have hzero : n.toInt / 10 = 0 := by omega
          rw [hstop, hzero, add_zero]
      rw [hrest, Int.add_emod, hfmod, ← Int.add_emod]
      omega
    · by_cases hlast : 0 < n.toInt / 10
      · exact .inl (hdiv ▸ hlast)
      · exact .inr (hfpos (by omega))
    · intro v hv
      rcases List.mem_cons.1 hv with rfl | hv
      · omega
      · rcases List.mem_cons.1 hv with rfl | hv
        · omega
        · exact hrall v hv
  | case2 n res hn =>
    refine ⟨h₀, h₉, fun h => absurd h hn, fun h => h.resolve_left hn, fun _ => rfl, ?_⟩
    intro v hv
    cases hv

/-- For `n > 0` the call returns the digital root of `n`, which is `1 + (n - 1) % 9`, for
`n ≤ 0` it returns `0`, and `res` never leaves `0, …, 18`. -/
theorem sysFindDigitalRoot_correct (ebx : BitVec 32) :
    (0 < ebx.toInt →
      (sysFindDigitalRoot ebx).1.toInt = digitalRoot ebx.toInt.toNat ∧
        (sysFindDigitalRoot ebx).1.toInt = 1 + (ebx.toInt - 1) % 9) ∧
      (ebx.toInt ≤ 0 → (sysFindDigitalRoot ebx).1 = 0) ∧
      ∀ res ∈ (sysFindDigitalRoot ebx).2, 0 ≤ res.toInt ∧ res.toInt ≤ 18 := by
  obtain ⟨h₀, h₉, hmod, hpos, hstop, hall⟩ := rootLoop_spec ebx 0 le_rfl (by decide)
  have hzero : (0 : BitVec 32).toInt = 0 := rfl
  refine ⟨fun hn => ?_, hstop, ?_⟩
  · have hval : (rootLoop ebx 0).1.toInt = 1 + (ebx.toInt - 1) % 9 := by
      have := hmod hn
      have := hpos (Or.inl hn)
      omega
    refine ⟨?_, hval⟩
    rw [digitalRoot_eq (by omega)]
    change (rootLoop ebx 0).1.toInt = _
    omega
  · intro res hres
    rcases List.mem_cons.1 hres with rfl | hres
    · decide
    · exact hall res hres

end Xv6.Syscall
