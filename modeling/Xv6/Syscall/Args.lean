import Mathlib

/-!
# Arguments of system calls

`fetchint`, `fetchstr`, `argint`, `argptr` and `argstr` of `syscall.c`, and `sys_exec` of
`sysfile.c`, on the memory of a user process.

Addresses and sizes are 32-bit words, chosen by the process, and all sums wrap.  Every byte
the kernel reads through a user address goes through `load`, which stops with `Wild` if the
address is not in `[0, sz)`; so does a write to `argv` outside the array.  The value `-1`
is `none`.

* `fetchint_spec`, …, `argstr_spec` — no function stops, and what it returns is in range.
* `execLoop_spec` — the loop of `sys_exec` and the `argv` it has filled.
* `user_pointers_validated` — the result.
-/

namespace Xv6.Syscall.Args

open List

def KERNBASE : BitVec 32 := 0x80000000

def MAXARG : ℕ := 32

/-- A process, as far as its arguments go: `sz`, `tf->esp` and its memory. -/
structure User where
  sz : BitVec 32
  esp : BitVec 32
  mem : BitVec 32 → UInt8

/-- An access outside `[0, sz)`, or outside `argv`. -/
inductive Wild
  | wild
  deriving DecidableEq, Repr

/-- The byte `k` from `p` on. -/
def nth (p : BitVec 32) (k : ℕ) : BitVec 32 := p + BitVec.ofNat 32 k

/-! ## The functions -/

/-- A read of user memory. -/
def load (u : User) (a : BitVec 32) : Except Wild UInt8 :=
  if a < u.sz then .ok (u.mem a) else .error .wild

/-- The little-endian word at `a`. -/
def wordAt (u : User) (a : BitVec 32) : BitVec 32 :=
  (u.mem (nth a 3)).toBitVec ++ (u.mem (nth a 2)).toBitVec ++ (u.mem (nth a 1)).toBitVec ++
    (u.mem (nth a 0)).toBitVec

def loadWord (u : User) (addr : BitVec 32) : Except Wild (BitVec 32) := do
  let b₀ ← load u (nth addr 0)
  let b₁ ← load u (nth addr 1)
  let b₂ ← load u (nth addr 2)
  let b₃ ← load u (nth addr 3)
  pure (b₃.toBitVec ++ b₂.toBitVec ++ b₁.toBitVec ++ b₀.toBitVec)

/-- `fetchint`: the word stored through `ip`. -/
def fetchint (u : User) (addr : BitVec 32) : Except Wild (Option (BitVec 32)) :=
  if u.sz ≤ addr ∨ u.sz < addr + 4 then pure none
  else do
    let w ← loadWord u addr
    pure (some w)

/-- The loop of `fetchstr` at `s`: the value returned. -/
def strLoop (u : User) (pp s : BitVec 32) : Except Wild (Option (BitVec 32)) :=
  if s < u.sz then do
    let b ← load u s
    if b = 0 then pure (some (s - pp)) else strLoop u pp (s + 1)
  else pure none
termination_by u.sz.toNat - s.toNat
decreasing_by
  rename_i h
  rw [BitVec.lt_def] at h
  bv_omega

/-- `fetchstr`: the value returned, and the pointer stored through `pp`. -/
def fetchstr (u : User) (addr : BitVec 32) : Except Wild (Option (BitVec 32 × BitVec 32)) :=
  if u.sz ≤ addr then pure none
  else do
    let r ← strLoop u addr addr
    pure (r.map fun len => (len, addr))

/-- The address `argint` reads argument `n` from. -/
def argAddr (u : User) (n : BitVec 32) : BitVec 32 := u.esp + 4 + 4 * n

def argint (u : User) (n : BitVec 32) : Except Wild (Option (BitVec 32)) :=
  fetchint u (argAddr u n)

/-- `argptr`: the pointer stored through `pp`. -/
def argptr (u : User) (n size : BitVec 32) : Except Wild (Option (BitVec 32)) := do
  match ← argint u n with
  | none => pure none
  | some i =>
    if size.toInt < 0 ∨ u.sz ≤ i ∨ u.sz < i + size then pure none
    else pure (some i)

def argstr (u : User) (n : BitVec 32) : Except Wild (Option (BitVec 32 × BitVec 32)) := do
  match ← argint u n with
  | none => pure none
  | some addr => fetchstr u addr

def store (argv : List (BitVec 32)) (i : ℕ) (p : BitVec 32) : Except Wild (List (BitVec 32)) :=
  if i < argv.length then .ok (argv.set i p) else .error .wild

/-- The loop of `sys_exec` from `i` on: `argv` as it is passed to `exec`. -/
def execLoop (u : User) (uargv : BitVec 32) (i : ℕ) (argv : List (BitVec 32)) :
    Except Wild (Option (List (BitVec 32))) :=
  -- `i >= NELEM(argv)`
  if MAXARG ≤ i then pure none
  else do
    match ← fetchint u (uargv + 4 * BitVec.ofNat 32 i) with
    | none => pure none
    | some uarg =>
      if uarg = 0 then do
        let argv ← store argv i 0
        pure (some argv)
      else do
        match ← fetchstr u uarg with
        | none => pure none
        | some (_, p) => do
          let argv ← store argv i p
          execLoop u uargv (i + 1) argv
termination_by MAXARG - i

/-- `sys_exec` up to the call of `exec`: the path and `argv`. -/
def sysExec (u : User) : Except Wild (Option (BitVec 32 × List (BitVec 32))) := do
  match ← argstr u 0 with
  | none => pure none
  | some (_, path) =>
    match ← argint u 1 with
    | none => pure none
    | some uargv =>
      let r ← execLoop u uargv 0 (List.replicate MAXARG 0)
      pure (r.map fun argv => (path, argv))

/-! ## What is in range -/

/-- The `n` bytes from `p` on lie in `[0, sz)`. -/
def InRange (u : User) (p : BitVec 32) (n : ℕ) : Prop := ∀ k < n, nth p k < u.sz

/-- A string of length `n` at `p`, which with its NUL lies in `[0, sz)`. -/
structure IsString (u : User) (p : BitVec 32) (n : ℕ) : Prop where
  inRange : InRange u p (n + 1)
  nonzero : ∀ k < n, u.mem (nth p k) ≠ 0
  nul : u.mem (nth p n) = 0

variable {u : User}

theorem inRange_of_le {p : BitVec 32} {n : ℕ} (h : p.toNat + n ≤ u.sz.toNat) : InRange u p n := by
  intro k hk
  have := u.sz.isLt
  rw [nth, BitVec.lt_def]
  bv_omega

theorem toInt_nonneg_iff (x : BitVec 32) : 0 ≤ x.toInt ↔ x.toNat < 2 ^ 31 := by
  have := x.isLt
  rw [BitVec.toInt_eq_toNat_cond]
  split <;> omega

theorem load_of_lt {a : BitVec 32} (h : a < u.sz) : load u a = .ok (u.mem a) := if_pos h

theorem loadWord_of_inRange {addr : BitVec 32} (h : InRange u addr 4) :
    loadWord u addr = .ok (wordAt u addr) := by
  simp only [loadWord, load_of_lt (h 0 (by decide)), load_of_lt (h 1 (by decide)),
    load_of_lt (h 2 (by decide)), load_of_lt (h 3 (by decide))]
  rfl

theorem fetchint_spec (hsz : u.sz < KERNBASE) (addr : BitVec 32) :
    ∃ r, fetchint u addr = .ok r ∧ ∀ w, r = some w → InRange u addr 4 ∧ w = wordAt u addr := by
  by_cases hbad : u.sz ≤ addr ∨ u.sz < addr + 4
  · exact ⟨none, if_pos hbad, by rintro _ ⟨⟩⟩
  · have hin : InRange u addr 4 := by
      refine inRange_of_le ?_
      have hK : KERNBASE.toNat = 2147483648 := rfl
      rw [not_or, BitVec.le_def, BitVec.lt_def] at hbad
      rw [BitVec.lt_def] at hsz
      bv_omega
    refine ⟨some (wordAt u addr), ?_, ?_⟩
    · rw [fetchint, if_neg hbad, loadWord_of_inRange hin]
      rfl
    · rintro _ ⟨⟩
      exact ⟨hin, rfl⟩

theorem argint_spec (hsz : u.sz < KERNBASE) (n : BitVec 32) :
    ∃ r, argint u n = .ok r ∧
      ∀ w, r = some w → InRange u (argAddr u n) 4 ∧ w = wordAt u (argAddr u n) :=
  fetchint_spec hsz (argAddr u n)

theorem argptr_spec (hsz : u.sz < KERNBASE) (n size : BitVec 32) :
    ∃ r, argptr u n size = .ok r ∧
      ∀ p, r = some p → 0 ≤ size.toInt ∧ InRange u p size.toNat := by
  obtain ⟨r, hr, _⟩ := argint_spec hsz n
  rw [argptr, hr]
  cases r with
  | none => exact ⟨none, rfl, by rintro _ ⟨⟩⟩
  | some i =>
    by_cases hbad : size.toInt < 0 ∨ u.sz ≤ i ∨ u.sz < i + size
    · exact ⟨none, if_pos hbad, by rintro _ ⟨⟩⟩
    · refine ⟨some i, if_neg hbad, ?_⟩
      rintro _ ⟨⟩
      rw [not_or, not_or, not_lt, BitVec.le_def, BitVec.lt_def] at hbad
      obtain ⟨hsize, hlt, hle⟩ := hbad
      refine ⟨hsize, inRange_of_le ?_⟩
      have hK : KERNBASE.toNat = 2147483648 := rfl
      rw [toInt_nonneg_iff] at hsize
      rw [BitVec.lt_def] at hsz
      bv_omega

theorem strLoop_spec (hsz : u.sz < KERNBASE) {pp : BitVec 32} (s : BitVec 32) : ∀ {n : ℕ},
    s = nth pp n → pp.toNat + n ≤ u.sz.toNat → (∀ k < n, u.mem (nth pp k) ≠ 0) →
    ∃ r, strLoop u pp s = .ok r ∧
      ∀ len, r = some len → 0 ≤ len.toInt ∧ IsString u pp len.toNat := by
  have hK : KERNBASE.toNat = 2147483648 := rfl
  have hsz' : u.sz.toNat < 2147483648 := hK ▸ BitVec.lt_def.1 hsz
  fun_induction strLoop u pp s with
  | case1 s hs ih =>
    intro n hn hle hnz
    have hlt : pp.toNat + n < u.sz.toNat := by
      rw [hn, nth, BitVec.lt_def] at hs
      bv_omega
    rw [load_of_lt hs]
    by_cases hb : u.mem s = 0
    · refine ⟨some (s - pp), if_pos hb, ?_⟩
      rintro _ ⟨⟩
      have hlen : (s - pp).toNat = n := by
        rw [hn, nth]
        bv_omega
      rw [hlen]
      refine ⟨?_, inRange_of_le hlt, hnz, hn ▸ hb⟩
      rw [toInt_nonneg_iff]
      omega
    · have hnext : s + 1 = nth pp (n + 1) := by
        rw [hn, nth, nth, BitVec.ofNat_add, add_assoc]
        rfl
      have hnz' : ∀ k < n + 1, u.mem (nth pp k) ≠ 0 := by
        intro k hk
        rcases Nat.lt_succ_iff_lt_or_eq.1 hk with hk | rfl
        · exact hnz k hk
        · exact hn ▸ hb
      obtain ⟨r, hr, hspec⟩ := ih hnext hlt hnz'
      exact ⟨r, (if_neg hb).trans hr, hspec⟩
  | case2 s hs =>
    intro n _ _ _
    exact ⟨none, rfl, by rintro _ ⟨⟩⟩

theorem fetchstr_spec (hsz : u.sz < KERNBASE) (addr : BitVec 32) :
    ∃ r, fetchstr u addr = .ok r ∧ ∀ len p, r = some (len, p) →
      p = addr ∧ 0 ≤ len.toInt ∧ IsString u p len.toNat := by
  by_cases hbad : u.sz ≤ addr
  · exact ⟨none, if_pos hbad, by rintro _ _ ⟨⟩⟩
  · have hle : addr.toNat + 0 ≤ u.sz.toNat := by
      rw [BitVec.le_def] at hbad
      omega
    have hfirst : addr = nth addr 0 := (BitVec.add_zero addr).symm
    obtain ⟨r, hr, hspec⟩ := strLoop_spec hsz addr hfirst hle fun k hk =>
      absurd hk (Nat.not_lt_zero k)
    refine ⟨r.map fun len => (len, addr), ?_, ?_⟩
    · rw [fetchstr, if_neg hbad, hr]
      rfl
    · intro len p hp
      obtain ⟨len', rfl, hp⟩ := Option.map_eq_some_iff.1 hp
      cases hp
      exact ⟨rfl, hspec _ rfl⟩

theorem argstr_spec (hsz : u.sz < KERNBASE) (n : BitVec 32) :
    ∃ r, argstr u n = .ok r ∧ ∀ len p, r = some (len, p) →
      0 ≤ len.toInt ∧ IsString u p len.toNat := by
  obtain ⟨r, hr, _⟩ := argint_spec hsz n
  rw [argstr, hr]
  cases r with
  | none => exact ⟨none, rfl, by rintro _ _ ⟨⟩⟩
  | some addr =>
    obtain ⟨r, hr, hspec⟩ := fetchstr_spec hsz addr
    exact ⟨r, hr, fun len p hp => (hspec len p hp).2⟩

/-! ## `sys_exec` -/

/-- The array `argv` once `i` pointers are in it: strings, then nulls. -/
structure Filled (u : User) (argv : List (BitVec 32)) (i : ℕ) : Prop where
  length : argv.length = MAXARG
  strings : ∀ j < i, ∃ p n, argv[j]? = some p ∧ p ≠ 0 ∧ IsString u p n
  nulls : ∀ j, i ≤ j → j < MAXARG → argv[j]? = some 0

theorem store_of_lt {argv : List (BitVec 32)} {i : ℕ} (h : i < argv.length) (p : BitVec 32) :
    store argv i p = .ok (argv.set i p) := if_pos h

theorem Filled.set {argv : List (BitVec 32)} {i n : ℕ} {p : BitVec 32} (h : Filled u argv i)
    (hi : i < MAXARG) (hp : p ≠ 0) (hs : IsString u p n) : Filled u (argv.set i p) (i + 1) where
  length := (length_set ..).trans h.length
  strings := by
    intro j hj
    rcases Nat.lt_succ_iff_lt_or_eq.1 hj with hj | rfl
    · rw [getElem?_set_ne (by omega)]
      exact h.strings j hj
    · exact ⟨p, n, getElem?_set_self (h.length ▸ hi), hp, hs⟩
  nulls := by
    intro j hj hj'
    rw [getElem?_set_ne (by omega)]
    exact h.nulls j (by omega) hj'

theorem execLoop_spec (hsz : u.sz < KERNBASE) (uargv : BitVec 32) :
    ∀ (rounds i : ℕ) (argv : List (BitVec 32)), i + rounds = MAXARG → Filled u argv i →
    ∃ r, execLoop u uargv i argv = .ok r ∧
      ∀ argv', r = some argv' → ∃ k < MAXARG, Filled u argv' k := by
  intro rounds
  induction rounds with
  | zero =>
    intro i argv hi _
    refine ⟨none, ?_, by rintro _ ⟨⟩⟩
    rw [execLoop, if_pos (by omega)]
    rfl
  | succ rounds ih =>
    intro i argv hi hf
    have hlt : i < MAXARG := by omega
    have hlen : i < argv.length := hf.length ▸ hlt
    obtain ⟨r, hr, _⟩ := fetchint_spec hsz (uargv + 4 * BitVec.ofNat 32 i)
    rw [execLoop, if_neg (not_le.2 hlt), hr]
    cases r with
    | none => exact ⟨none, rfl, by rintro _ ⟨⟩⟩
    | some uarg =>
      dsimp only [bind, Except.bind]
      by_cases hzero : uarg = 0
      · -- the null that ends the vector is stored where there is one already
        have hsame : argv.set i 0 = argv := by
          refine ext_getElem? fun j => ?_
          by_cases hj : i = j
          · subst hj
            rw [getElem?_set_self hlen, hf.nulls i le_rfl hlt]
          · rw [getElem?_set_ne hj]
        rw [if_pos hzero, store_of_lt hlen, hsame]
        refine ⟨some argv, rfl, ?_⟩
        rintro _ ⟨⟩
        exact ⟨i, hlt, hf⟩
      · obtain ⟨r', hr', hspec⟩ := fetchstr_spec hsz uarg
        rw [if_neg hzero, hr']
        cases r' with
        | none => exact ⟨none, rfl, by rintro _ ⟨⟩⟩
        | some q =>
          obtain ⟨len, p⟩ := q
          obtain ⟨rfl, _, hstr⟩ := hspec len p rfl
          dsimp only
          rw [store_of_lt hlen]
          exact ih (i + 1) (argv.set i p) (by omega) (hf.set hlt hzero hstr)

theorem sysExec_spec (hsz : u.sz < KERNBASE) :
    ∃ r, sysExec u = .ok r ∧ ∀ path argv, r = some (path, argv) →
      (∃ n, IsString u path n) ∧ ∃ k < MAXARG, Filled u argv k := by
  obtain ⟨r, hr, hpath⟩ := argstr_spec hsz 0
  rw [sysExec, hr]
  cases r with
  | none => exact ⟨none, rfl, by rintro _ _ ⟨⟩⟩
  | some q =>
    obtain ⟨len, path⟩ := q
    obtain ⟨r₁, hr₁, _⟩ := argint_spec hsz 1
    dsimp only [bind, Except.bind]
    rw [hr₁]
    cases r₁ with
    | none => exact ⟨none, rfl, by rintro _ _ ⟨⟩⟩
    | some uargv =>
      have hzero : Filled u (List.replicate MAXARG 0) 0 :=
        ⟨length_replicate, fun j hj => absurd hj (Nat.not_lt_zero j),
          fun j _ hj => getElem?_replicate_of_lt hj⟩
      obtain ⟨r₂, hr₂, hspec⟩ := execLoop_spec hsz uargv MAXARG 0 _ (Nat.zero_add _) hzero
      refine ⟨r₂.map fun argv => (path, argv), ?_, ?_⟩
      · dsimp only
        rw [hr₂]
        rfl
      · intro path' argv hp
        obtain ⟨argv', rfl, hp⟩ := Option.map_eq_some_iff.1 hp
        cases hp
        exact ⟨⟨_, (hpath len path rfl).2⟩, hspec _ rfl⟩

/-- For every process below `KERNBASE`, whatever addresses and sizes it chooses: no function
touches a byte outside `[0, sz)`, and what a function returns stands for bytes in that range:
a word, `size` bytes, a string with its NUL, whose length is the value returned.  `sys_exec`
passes on a path and fewer than `MAXARG` strings, followed by nulls. -/
theorem user_pointers_validated (u : User) (hsz : u.sz < KERNBASE) :
    (∀ addr, ∃ r, fetchint u addr = .ok r ∧
      ∀ w, r = some w → InRange u addr 4 ∧ w = wordAt u addr) ∧
    (∀ n, ∃ r, argint u n = .ok r ∧
      ∀ w, r = some w → InRange u (argAddr u n) 4 ∧ w = wordAt u (argAddr u n)) ∧
    (∀ n size, ∃ r, argptr u n size = .ok r ∧
      ∀ p, r = some p → 0 ≤ size.toInt ∧ InRange u p size.toNat) ∧
    (∀ addr, ∃ r, fetchstr u addr = .ok r ∧ ∀ len p, r = some (len, p) →
      p = addr ∧ 0 ≤ len.toInt ∧ IsString u p len.toNat) ∧
    (∀ n, ∃ r, argstr u n = .ok r ∧ ∀ len p, r = some (len, p) →
      0 ≤ len.toInt ∧ IsString u p len.toNat) ∧
    ∃ r, sysExec u = .ok r ∧ ∀ path argv, r = some (path, argv) →
      (∃ n, IsString u path n) ∧ ∃ k < MAXARG, Filled u argv k :=
  ⟨fetchint_spec hsz, argint_spec hsz, argptr_spec hsz, fetchstr_spec hsz, argstr_spec hsz,
    sysExec_spec hsz⟩

/-- `exec("ls", {"ls", "-l", 0})`, with the stack at 4096. -/
def lsProcess : User where
  sz := 8192
  esp := 4096
  mem a :=
    -- the arguments of the call
    if a = 4100 then 0x88 else if a = 4101 then 0x13 else if a = 4104 then 0x70 else if a = 4105 then 0x17
    -- the strings, at 5000 and 5003
    else if a = 5000 then 108 else if a = 5001 then 115 else if a = 5003 then 45 else if a = 5004 then 108
    -- `argv`, at 6000
    else if a = 6000 then 0x88 else if a = 6001 then 0x13 else if a = 6004 then 0x8b
    else if a = 6005 then 0x13 else 0

theorem user_pointers_ls :
    sysExec lsProcess = .ok (some (5000, 5000 :: 5003 :: List.replicate 30 0)) ∧
    (∃ n, IsString lsProcess 5000 n) ∧
    ∃ k < MAXARG, Filled lsProcess (5000 :: 5003 :: List.replicate 30 0) k := by
  have hrun : sysExec lsProcess = .ok (some (5000, 5000 :: 5003 :: List.replicate 30 0)) := by
    decide +kernel
  obtain ⟨r, hr, hok⟩ := (user_pointers_validated lsProcess (by decide)).2.2.2.2.2
  obtain rfl := Except.ok.inj (hr.symm.trans hrun)
  exact ⟨hrun, hok 5000 _ rfl⟩

end Xv6.Syscall.Args
