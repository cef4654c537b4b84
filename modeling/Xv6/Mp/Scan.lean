import Mathlib

/-!
# The multiprocessor tables

`mpinit` of `mp.c` finds the processors of the machine in a table the BIOS leaves in
memory.  `mpsearch` looks for the floating pointer structure in three places, `mpconfig`
checks the configuration table it points to, and `mpinit` goes through the entries of that
table.

Addresses are 32-bit words, and the memory is a byte for each of them; the scan only reads
it.  How far an entry takes the scan depends on its first byte, so the loop of `mpinit` has
a fuel argument and returns `none` when that runs out.

* `Walk` — the entries from an address to the end of the table.
* `scan_of_walk`, `scan_of_unknown` — the loop follows them, and goes no further than an
  entry of unknown type: the `break` there leaves the `switch`, not the loop.
* `mpinit_of_known` — the result.
-/

namespace Xv6.Mp

open List
open BitVec (ofNat toNat_add)

/-- A byte for every address. -/
abbrev Memory := BitVec 32 → UInt8

def NCPU : ℕ := 8

def PHYSTOP : BitVec 32 := 0xE000000

def P2V (a : BitVec 32) : BitVec 32 := a + 0x80000000

/-! ## Reading the structures -/

/-- The `k` bytes at `p`. -/
def bytes (m : Memory) (p : BitVec 32) (k : ℕ) : List UInt8 :=
  (List.range k).map fun i => m (p + ofNat 32 i)

/-- `ushort` at `p`. -/
def half (m : Memory) (p : BitVec 32) : ℕ := (m p).toNat + 256 * (m (p + 1)).toNat

/-- `uint` at `p`. -/
def word (m : Memory) (p : BitVec 32) : BitVec 32 :=
  ofNat 32 (half m p + 65536 * half m (p + 2))

/-- `sum`: an `int` that is returned as a `uchar`. -/
def sum (m : Memory) (addr : BitVec 32) (len : ℕ) : UInt8 :=
  UInt8.ofNat ((bytes m addr len).foldl (fun sum b => sum + b.toNat) 0)

def mpSize : ℕ := 16

def mpconfSize : ℕ := 44

/-- The field `physaddr` of a `struct mp`. -/
def physaddr (m : Memory) (mp : BitVec 32) : BitVec 32 := word m (mp + 4)

/-- The field `imcrp` of a `struct mp`. -/
def imcrp (m : Memory) (mp : BitVec 32) : UInt8 := m (mp + 12)

/-- The field `length` of a `struct mpconf`. -/
def length (m : Memory) (conf : BitVec 32) : ℕ := half m (conf + 4)

/-- The field `version` of a `struct mpconf`. -/
def version (m : Memory) (conf : BitVec 32) : UInt8 := m (conf + 6)

/-- The field `lapicaddr` of a `struct mpconf`. -/
def lapicaddr (m : Memory) (conf : BitVec 32) : BitVec 32 := word m (conf + 36)

def mpSignature : List UInt8 := [0x5F, 0x4D, 0x50, 0x5F]

def confSignature : List UInt8 := [0x50, 0x43, 0x4D, 0x50]

/-! ## Finding the table -/

/-- The loop of `mpsearch1` up to `e`. -/
def search1Loop (m : Memory) (e : BitVec 32) : ℕ → BitVec 32 → Option (BitVec 32)
  | 0, _ => none
  | fuel + 1, p =>
    if p < e then
      if bytes m p 4 = mpSignature ∧ sum m p mpSize = 0 then some p
      else search1Loop m e fuel (p + ofNat 32 mpSize)
    else none

/-- `mpsearch1`.  The rounds that `len` allows take `p` to `e`. -/
def mpsearch1 (m : Memory) (a : BitVec 32) (len : ℕ) : Option (BitVec 32) :=
  let addr := P2V a
  search1Loop m (addr + ofNat 32 len) (len / mpSize + 1) addr

/-- `mpsearch`: the extended BIOS data area, or where there is none the last kilobyte of
base memory; then the BIOS. -/
def mpsearch (m : Memory) : Option (BitVec 32) :=
  let bda := P2V 0x400
  let p := ofNat 32 (half m (bda + 0x0E) * 16)
  let first :=
    if p ≠ 0 then mpsearch1 m p 1024
    else mpsearch1 m (ofNat 32 (half m (bda + 0x13) * 1024) - 1024) 1024
  first.or (mpsearch1 m 0xF0000 0x10000)

/-- `mpconfig`, with the `mp` it stores through `pmp`. -/
def mpconfig (m : Memory) : Option (BitVec 32 × BitVec 32) := do
  let mp ← mpsearch m
  if physaddr m mp = 0 then none
  else
    let conf := P2V (physaddr m mp)
    if bytes m conf 4 ≠ confSignature then none
    else if version m conf ≠ 1 ∧ version m conf ≠ 4 then none
    else if sum m conf (length m conf) ≠ 0 then none
    else some (mp, conf)

/-! ## The entries -/

/-- The table entry types. -/
inductive Kind
  | MPPROC | MPBUS | MPIOAPIC | MPIOINTR | MPLINTR
  deriving DecidableEq, Repr

/-- The type in the first byte of an entry. -/
def Kind.ofByte (b : UInt8) : Option Kind :=
  if b = 0 then some .MPPROC
  else if b = 1 then some .MPBUS
  else if b = 2 then some .MPIOAPIC
  else if b = 3 then some .MPIOINTR
  else if b = 4 then some .MPLINTR
  else none

/-- How far the scan advances: `sizeof(struct mpproc)`, `sizeof(struct mpioapic)`, and `8`
for the rest. -/
def Kind.size : Kind → ℕ
  | .MPPROC => 20
  | .MPIOAPIC => 8
  | .MPBUS | .MPIOINTR | .MPLINTR => 8

/-- What the scan fills in: `cpus[0]`, …, `cpus[ncpu - 1]` by their `apicid`, and
`ioapicid`. -/
structure Found where
  apicids : List UInt8
  ioapicid : UInt8
  deriving DecidableEq, Repr

def Found.ncpu (s : Found) : ℕ := s.apicids.length

/-- What the scan takes from an entry at `p`. -/
def Kind.record (m : Memory) (p : BitVec 32) (s : Found) : Kind → Found
  | .MPPROC => if s.ncpu < NCPU then { s with apicids := s.apicids ++ [m (p + 1)] } else s
  | .MPIOAPIC => { s with ioapicid := m (p + 1) }
  | .MPBUS | .MPIOINTR | .MPLINTR => s

/-- The loop of `mpinit` over the entries up to `e`, with `ismp`. -/
def scan (m : Memory) (e : BitVec 32) :
    ℕ → BitVec 32 → Bool → Found → Option (Bool × Found)
  | 0, _, _, _ => none
  | fuel + 1, p, ismp, s =>
    if p < e then
      match Kind.ofByte (m p) with
      | some t => scan m e fuel (p + ofNat 32 t.size) ismp (t.record m p s)
      -- `default: ismp = 0; break;`
      | none => scan m e fuel p false s
    else some (ismp, s)

/-- The panics of `mpinit`. -/
inductive Panic
  | expectSmp | notSuitable
  deriving DecidableEq, Repr

/-- The machine as `mpinit` leaves it: `lapic`, what the scan found, and what was written
to the ports. -/
structure Machine where
  lapic : BitVec 32
  found : Found
  outb : List (UInt16 × UInt8)
  deriving DecidableEq, Repr

/-- The first entry: `conf + 1`. -/
def firstEntry (conf : BitVec 32) : BitVec 32 := conf + ofNat 32 mpconfSize

/-- The end of the table: `(uchar*)conf + conf->length`. -/
def tableEnd (m : Memory) (conf : BitVec 32) : BitVec 32 := conf + ofNat 32 (length m conf)

/-- `mpinit`; `inb` is what `inb(0x23)` returns.  `none` is a scan that has not ended. -/
def mpinit (m : Memory) (inb : UInt8) (fuel : ℕ) : Option (Except Panic Machine) :=
  match mpconfig m with
  | none => some (.error .expectSmp)
  | some (mp, conf) => do
    let (ismp, found) ← scan m (tableEnd m conf) fuel (firstEntry conf) true ⟨[], 0⟩
    if !ismp then some (.error .notSuitable)
    else
      let outb := if imcrp m mp ≠ 0 then [(0x22, 0x70), (0x23, inb ||| 1)] else []
      some (.ok ⟨lapicaddr m conf, found, outb⟩)

/-! ## What the loop does -/

/-- The addresses of the entries from `p` to the end of the table. -/
inductive Walk (m : Memory) (e : BitVec 32) : BitVec 32 → List (BitVec 32) → Prop
  | done {p : BitVec 32} : ¬p < e → Walk m e p []
  | entry {p : BitVec 32} {t : Kind} {l : List (BitVec 32)} : p < e → Kind.ofByte (m p) = some t →
      Walk m e (p + ofNat 32 t.size) l → Walk m e p (p :: l)

/-- The scan comes from `p` to `q`. -/
inductive Reaches (m : Memory) (e : BitVec 32) : BitVec 32 → BitVec 32 → Prop
  | here {p : BitVec 32} : Reaches m e p p
  | entry {p q : BitVec 32} {t : Kind} : p < e → Kind.ofByte (m p) = some t →
      Reaches m e (p + ofNat 32 t.size) q → Reaches m e p q

/-- An entry of unknown type. -/
def Unknown (m : Memory) (e p : BitVec 32) : Prop := p < e ∧ Kind.ofByte (m p) = none

/-- What the scan takes from the entry at `p`, whatever its type. -/
def recordAt (m : Memory) (s : Found) (p : BitVec 32) : Found :=
  match Kind.ofByte (m p) with
  | some t => t.record m p s
  | none => s

variable {m : Memory} {e p q : BitVec 32}

theorem recordAt_of_ofByte {t : Kind} {s : Found} (h : Kind.ofByte (m p) = some t) :
    recordAt m s p = t.record m p s := by
  simp only [recordAt, h]

theorem scan_of_walk {l : List (BitVec 32)} (h : Walk m e p l) :
    ∀ {fuel : ℕ} (ismp : Bool) (s : Found), l.length < fuel →
      scan m e fuel p ismp s = some (ismp, l.foldl (recordAt m) s) := by
  induction h with
  | done hp =>
    intro fuel ismp s hfuel
    obtain ⟨k, rfl⟩ := Nat.exists_eq_add_one_of_ne_zero (Nat.ne_of_gt hfuel)
    rw [scan, if_neg hp]
    rfl
  | entry hp ht _ ih =>
    intro fuel ismp s hfuel
    obtain ⟨k, rfl⟩ := Nat.exists_eq_add_one_of_ne_zero (Nat.ne_of_gt (Nat.zero_lt_of_lt hfuel))
    rw [scan, if_pos hp, ht, foldl_cons, recordAt_of_ofByte ht]
    exact ih ismp _ (Nat.lt_of_succ_lt_succ hfuel)

theorem scan_of_unknown (h : Unknown m e p) :
    ∀ (fuel : ℕ) (ismp : Bool) (s : Found), scan m e fuel p ismp s = none := by
  intro fuel
  induction fuel with
  | zero => intro ismp s; rfl
  | succ fuel ih =>
    intro ismp s
    rw [scan, if_pos h.1, h.2]
    exact ih false s

theorem scan_of_reaches (h : Reaches m e p q) (hq : Unknown m e q) :
    ∀ (fuel : ℕ) (ismp : Bool) (s : Found), scan m e fuel p ismp s = none := by
  induction h with
  | here => exact scan_of_unknown hq
  | entry hp ht _ ih =>
    intro fuel ismp s
    cases fuel with
    | zero => rfl
    | succ fuel =>
      rw [scan, if_pos hp, ht]
      exact ih hq fuel ismp _

theorem Kind.size_bounds (t : Kind) : 0 < t.size ∧ t.size ≤ 20 := by
  cases t <;> decide

theorem toNat_next (he : e.toNat + 20 ≤ 2 ^ 32) (hp : p < e) (t : Kind) :
    (p + ofNat 32 t.size).toNat = p.toNat + t.size := by
  have := t.size_bounds
  rw [BitVec.lt_def] at hp
  rw [toNat_add, BitVec.toNat_ofNat]
  omega

theorem exists_walk (he : e.toNat + 20 ≤ 2 ^ 32) (p : BitVec 32) :
    (∃ l, Walk m e p l) ∨ ∃ q, Reaches m e p q ∧ Unknown m e q := by
  -- on the distance that is left
  induction hd : e.toNat - p.toNat using Nat.strong_induction_on generalizing p with
  | _ d ih =>
    by_cases hp : p < e
    · cases ht : Kind.ofByte (m p) with
      | none => exact .inr ⟨p, .here, hp, ht⟩
      | some t =>
        have hnext := toNat_next he hp t
        have hsize := t.size_bounds
        have hlt : p.toNat < e.toNat := BitVec.lt_def.1 hp
        rcases ih _ (by omega) (p + ofNat 32 t.size) rfl with ⟨l, hl⟩ | ⟨q, hq, hu⟩
        · exact .inl ⟨p :: l, .entry hp ht hl⟩
        · exact .inr ⟨q, .entry hp ht hq, hu⟩
    · exact .inl ⟨[], .done hp⟩

theorem not_unknown_of_walk {l : List (BitVec 32)} (h : Walk m e p l) :
    ∀ {q}, Reaches m e p q → ¬Unknown m e q := by
  induction h with
  | done hp =>
    intro q hq hu
    cases hq with
    | here => exact hp hu.1
    | entry hp' _ _ => exact hp hp'
  | entry hp ht _ ih =>
    intro q hq hu
    cases hq with
    | here => exact Option.some_ne_none _ (ht.symm.trans hu.2)
    | entry _ ht' hq =>
      cases ht.symm.trans ht'
      exact ih hq hu

/-! ## What the scan finds -/

/-- The entry at `p` is a processor. -/
def isProc (m : Memory) (p : BitVec 32) : Bool := Kind.ofByte (m p) == some .MPPROC

theorem apicids_recordAt (s : Found) (p : BitVec 32) :
    (recordAt m s p).apicids =
      if isProc m p ∧ s.ncpu < NCPU then s.apicids ++ [m (p + 1)] else s.apicids := by
  cases ht : Kind.ofByte (m p) with
  | none => simp [recordAt, isProc, ht]
  | some t =>
    rw [recordAt_of_ofByte ht]
    cases t <;> simp [Kind.record, isProc, ht]
    split <;> rfl

theorem apicids_foldl_recordAt (l : List (BitVec 32)) : ∀ s : Found, s.ncpu ≤ NCPU →
    (l.foldl (recordAt m) s).apicids =
      (s.apicids ++ (l.filter (isProc m)).map fun p => m (p + 1)).take NCPU := by
  induction l with
  | nil =>
    intro s hs
    rw [foldl_nil, filter_nil, map_nil, append_nil, take_of_length_le hs]
  | cons p l ih =>
    intro s hs
    have happ := apicids_recordAt (m := m) s p
    rw [foldl_cons]
    by_cases hp : isProc m p
    · rw [filter_cons_of_pos hp, map_cons]
      by_cases hn : s.ncpu < NCPU
      · rw [if_pos ⟨hp, hn⟩] at happ
        rw [ih _ (by rw [Found.ncpu, happ, length_append]; exact hn), happ,
          append_assoc, singleton_append]
      · -- the array is full: this entry and all that follow are left out
        rw [if_neg fun h => hn h.2] at happ
        have hfull : s.apicids.length = NCPU := le_antisymm hs (not_lt.1 hn)
        rw [ih _ (by rw [Found.ncpu, happ]; exact hs), happ, ← hfull, take_left,
          take_left]
    · rw [if_neg fun h => hp h.1] at happ
      rw [filter_cons_of_neg hp, ih _ (by rw [Found.ncpu, happ]; exact hs), happ]

/-! ## `mpinit` -/

variable {mp conf : BitVec 32}

theorem mpconfig_conf (h : mpconfig m = some (mp, conf)) : conf = P2V (physaddr m mp) := by
  rw [mpconfig] at h
  obtain ⟨mp', _, h⟩ := Option.bind_eq_some_iff.1 h
  simp only [Option.ite_none_left_eq_some, Option.some.injEq, Prod.mk.injEq] at h
  obtain ⟨_, _, _, _, rfl, rfl⟩ := h
  rfl

theorem length_lt (m : Memory) (conf : BitVec 32) : length m conf < 65536 := by
  have h₀ := (m (conf + 4)).toNat_lt
  have h₁ := (m (conf + 4 + 1)).toNat_lt
  rw [length, half]
  omega

theorem toNat_tableEnd (h : mpconfig m = some (mp, conf)) (hphys : physaddr m mp < PHYSTOP) :
    (tableEnd m conf).toNat + 20 ≤ 2 ^ 32 := by
  have hlen := length_lt m conf
  rw [BitVec.lt_def] at hphys
  rw [tableEnd, mpconfig_conf h, P2V]
  rw [mpconfig_conf h] at hlen
  have hstop : PHYSTOP.toNat = 234881024 := rfl
  have hbase : (0x80000000 : BitVec 32).toNat = 2147483648 := rfl
  rw [toNat_add, toNat_add, BitVec.toNat_ofNat, hbase]
  rw [P2V] at hlen
  omega

/-- If every entry the scan comes to has a known type, the scan goes through all entries of
the table and `mpinit` returns, with the first `NCPU` processors of the table. -/
theorem mpinit_of_known (inb : UInt8) (h : mpconfig m = some (mp, conf))
    (hphys : physaddr m mp < PHYSTOP)
    (hknown : ∀ p, Reaches m (tableEnd m conf) (firstEntry conf) p →
      ¬Unknown m (tableEnd m conf) p) :
    ∃ l, Walk m (tableEnd m conf) (firstEntry conf) l ∧ ∃ machine : Machine,
      (∀ fuel, l.length < fuel → mpinit m inb fuel = some (.ok machine)) ∧
      machine.found = l.foldl (recordAt m) ⟨[], 0⟩ ∧
      machine.found.apicids = ((l.filter (isProc m)).map fun p => m (p + 1)).take NCPU ∧
      machine.found.ncpu ≤ NCPU := by
  rcases exists_walk (m := m) (toNat_tableEnd h hphys) (firstEntry conf) with ⟨l, hl⟩ | ⟨q, hq, hu⟩
  · have hids := apicids_foldl_recordAt (m := m) l ⟨[], 0⟩ (Nat.zero_le _)
    refine ⟨l, hl, ⟨lapicaddr m conf, l.foldl (recordAt m) ⟨[], 0⟩,
      if imcrp m mp ≠ 0 then [(0x22, 0x70), (0x23, inb ||| 1)] else []⟩, ?_, rfl, hids, ?_⟩
    · intro fuel hfuel
      simp only [mpinit, h, scan_of_walk hl true ⟨[], 0⟩ hfuel]
      rfl
    · rw [Found.ncpu, hids]
      exact length_take_le _ _
  · exact absurd hu (hknown q hq)

theorem mpinit_of_unknown (inb : UInt8) (h : mpconfig m = some (mp, conf))
    (hq : Reaches m (tableEnd m conf) (firstEntry conf) q) (hu : Unknown m (tableEnd m conf) q)
    (fuel : ℕ) : mpinit m inb fuel = none := by
  simp only [mpinit, h, scan_of_reaches hq hu fuel true ⟨[], 0⟩]
  rfl

/-- A memory that is zero but for a BIOS data area, a floating pointer structure at
`0x9FC00` and behind it a table of 64 bytes with one entry, whose type is `type`. -/
def oneEntry (checksum type : UInt8) : Memory := fun a =>
  if a = 0x8000040E then 0xC0 else if a = 0x8000040F then 0x9F
  else
    ([0x5F, 0x4D, 0x50, 0x5F, 0x10, 0xFC, 0x09, 0x00, 1, 4, 0x8B, 0, 0, 0, 0, 0,
      0x50, 0x43, 0x4D, 0x50, 64, 0, 1, checksum].getD (a - 0x8009FC00).toNat 0) +
    if a = 0x8009FC3C then type else 0

/-- A processor. -/
theorem mpinit_of_known_proc :
    ∃ l, Walk (oneEntry 0x8F 0) (tableEnd (oneEntry 0x8F 0) 0x8009FC10)
      (firstEntry 0x8009FC10) l ∧ ∃ machine : Machine,
      (∀ fuel, l.length < fuel → mpinit (oneEntry 0x8F 0) 0 fuel = some (.ok machine)) ∧
      machine.found = l.foldl (recordAt (oneEntry 0x8F 0)) ⟨[], 0⟩ ∧
      machine.found.apicids = ((l.filter (isProc (oneEntry 0x8F 0))).map fun p =>
        oneEntry 0x8F 0 (p + 1)).take NCPU ∧
      machine.found.ncpu ≤ NCPU := by
  have hwalk : Walk (oneEntry 0x8F 0) (tableEnd (oneEntry 0x8F 0) 0x8009FC10)
      (firstEntry 0x8009FC10) [0x8009FC3C] :=
    .entry (t := .MPPROC) (by decide +kernel) (by decide +kernel) (.done (by decide +kernel))
  have hconf : mpconfig (oneEntry 0x8F 0) = some (0x8009FC00, 0x8009FC10) := by decide +kernel
  exact mpinit_of_known 0 hconf (by decide +kernel) fun p hp => not_unknown_of_walk hwalk hp

/-- An entry of type `5`: the table is accepted, and the scan does not end. -/
theorem mpinit_unknown_hangs :
    ∃ (m : Memory) (mp conf : BitVec 32), mpconfig m = some (mp, conf) ∧
      physaddr m mp < PHYSTOP ∧ ∀ (inb : UInt8) (fuel : ℕ), mpinit m inb fuel = none := by
  have hconf : mpconfig (oneEntry 0x8A 5) = some (0x8009FC00, 0x8009FC10) := by decide +kernel
  refine ⟨oneEntry 0x8A 5, 0x8009FC00, 0x8009FC10, hconf, by decide +kernel, ?_⟩
  intro inb fuel
  exact mpinit_of_unknown inb hconf .here ⟨by decide +kernel, by decide +kernel⟩ fuel

end Xv6.Mp
