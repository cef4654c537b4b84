import Xv6.Mem.Args
import Xv6.Mem.Directory
import Xv6.Fs.Ownership

/-!
# Loading a program

`exec` of `exec.c` and `loaduvm` of `vm.c`, on the bytes of a file.  The file is read with
`readi`; every field of its headers is what the bytes say.

* `exec` — the whole call.  `namei` is left out: the inode it found is an argument.
* `readi_reads` — in a consistent file system, `readi` answers with bytes of the file.
* `loaduvm_sure` — a segment is loaded into pages that are mapped, or the file is too short.
-/

namespace Xv6.Exec

open Xv6.Lib Xv6.Mem List Option
open BitVec (ofNat toNat_ofNat)

/-! ## The source -/

/-- What stops the kernel. -/
inductive Crash
  | mem (f : Fault)
  | fs (e : Fs.Panic)
  /-- "loaduvm: addr must be page aligned" -/
  | loadAligned
  /-- "loaduvm: address should exist" -/
  | loadExist
  /-- `copyout` reads an entry through the null pointer. -/
  | wild

/-- The memory functions in `exec`. -/
def lift {α : Type} : Except Fault α → Except Crash α
  | .ok a => .ok a
  | .error f => .error (.mem f)

/-- `readi` from a file, with an offset and a number of bytes: the result and the bytes. -/
abbrev Read := Addr → Addr → Except Crash (ℤ × List UInt8)

/-- `readi` from inode `i`. -/
def readi {N : ℕ} (sb : Fs.Superblock) (dev : Fs.Devsw) (i : Fin N) (s : Fs.State N) : Read :=
  fun off n =>
    match (Fs.readi sb dev i (UInt32.ofBitVec off) (UInt32.ofBitVec n)).run s with
    | .ok (r, _) => .ok r
    | .error e => .error (.fs e)

/-- A `uint` at offset `o`. -/
def uint (b : List UInt8) (o : ℕ) : Addr :=
  ofNat 32 ((b.getD o 0).toNat + 256 * (b.getD (o + 1) 0).toNat +
    65536 * (b.getD (o + 2) 0).toNat + 16777216 * (b.getD (o + 3) 0).toNat)

/-- A `ushort` at offset `o`. -/
def ushort (b : List UInt8) (o : ℕ) : ℕ := (b.getD o 0).toNat + 256 * (b.getD (o + 1) 0).toNat

def ELF_MAGIC : Addr := 0x464C457F

def ELF_PROG_LOAD : Addr := 1

/-- `struct elfhdr`, as far as it is read. -/
structure Elfhdr where
  magic : Addr
  entry : Addr
  phoff : Addr
  phnum : ℕ

def sizeofElfhdr : ℕ := 52

def Elfhdr.ofBytes (b : List UInt8) : Elfhdr := ⟨uint b 0, uint b 24, uint b 28, ushort b 44⟩

/-- `struct proghdr`, as far as it is read. -/
structure Proghdr where
  type : Addr
  off : Addr
  vaddr : Addr
  filesz : Addr
  memsz : Addr

def sizeofProghdr : ℕ := 32

def Proghdr.ofBytes (b : List UInt8) : Proghdr :=
  ⟨uint b 0, uint b 4, uint b 8, uint b 16, uint b 20⟩

/-- The loop of `loaduvm`, with `n` pages left from page `a` on and `left` bytes. -/
def loadLoop (read : Read) (pd : Pgdir) : ℕ → Page → Addr → ℕ → Kmem → Except Crash (Bool × Kmem)
  | 0, _, _, _, k => .ok (true, k)
  | n + 1, a, offset, left, k =>
    match pd.pde (PDX a) with
    | none => .error .loadExist
    | some t => do
        -- the address in an entry that is not present is 0
        let pa := ((t.pte (PTX a)).map Pte.pa).getD 0
        let m := if left < PGSIZE then left else PGSIZE
        let (r, bytes) ← read offset (ofNat 32 m)
        let k := k.store (P2V pa) 0 bytes
        if r ≠ m then .ok (false, k)
        else loadLoop read pd n (a + 1) (offset + ofNat 32 PGSIZE) (left - PGSIZE) k

/-- `loaduvm`; `false` is -1. -/
def loaduvm (read : Read) (pd : Pgdir) (addr offset sz : Addr) (k : Kmem) :
    Except Crash (Bool × Kmem) :=
  if addr.toNat % PGSIZE ≠ 0 then .error .loadAligned
  else loadLoop read pd (pages sz.toNat) (pageOf addr) offset sz.toNat k

/-- One segment: the new size, or `none` for `goto bad`. -/
def loadSegment (L : Layout) (read : Read) (ph : Proghdr) (sz : ℕ) (k : Kmem) (pd : Pgdir) :
    Except Crash (Option ℕ × Kmem × Pgdir) :=
  if ph.memsz < ph.filesz then .ok (none, k, pd)
  else if ph.vaddr + ph.memsz < ph.vaddr then .ok (none, k, pd)
  else do
    let (sz, k, pd) ← lift (allocuvm L sz (ph.vaddr + ph.memsz).toNat k pd)
    if sz = 0 then .ok (none, k, pd)
    else if ph.vaddr.toNat % PGSIZE ≠ 0 then .ok (none, k, pd)
    else do
      let (ok, k) ← loaduvm read pd ph.vaddr ph.off ph.filesz k
      .ok (if ok = true then some sz else none, k, pd)

/-- The loop over the program headers, with `n` of them left. -/
def loadProgram (L : Layout) (read : Read) :
    ℕ → Addr → ℕ → Kmem → Pgdir → Except Crash (Option ℕ × Kmem × Pgdir)
  | 0, _, sz, k, pd => .ok (some sz, k, pd)
  | n + 1, off, sz, k, pd => do
      let (r, bytes) ← read off (ofNat 32 sizeofProghdr)
      if r ≠ sizeofProghdr then .ok (none, k, pd)
      else if (Proghdr.ofBytes bytes).type ≠ ELF_PROG_LOAD then
        loadProgram L read n (off + ofNat 32 sizeofProghdr) sz k pd
      else do
        let (r, k, pd) ← loadSegment L read (Proghdr.ofBytes bytes) sz k pd
        match r with
        | none => .ok (none, k, pd)
        | some sz => loadProgram L read n (off + ofNat 32 sizeofProghdr) sz k pd

-- Irreducible: the elaborator would otherwise run the call wherever a result about it is used.
/-- Two pages at the next page boundary, the first of them inaccessible. -/
@[irreducible] def addStack (L : Layout) (sz : ℕ) (k : Kmem) (pd : Pgdir) :
    Except Crash (Option ℕ × Kmem × Pgdir) := do
  let (sz, k, pd) ← lift (allocuvm L (pages sz * PGSIZE) (pages sz * PGSIZE + 2 * PGSIZE) k pd)
  if sz = 0 then .ok (none, k, pd)
  else do
    let pd ← lift (clearpteu (ofNat 20 (sz / PGSIZE - 2)) pd)
    .ok (some sz, k, pd)

/-- `bad:` with a directory. -/
def bad {α : Type} (L : Layout) (k : Kmem) (pd : Pgdir) : Except Crash (Option α × Kmem) := do
  let k ← lift (freevm L k pd)
  .ok (none, k)

/-- Up to the arguments: the ELF header, the size of the new image and its directory. -/
def newImage (L : Layout) (read : Read) (k : Kmem) :
    Except Crash (Option (Elfhdr × ℕ × Pgdir) × Kmem) := do
  let (r, bytes) ← read 0 (ofNat 32 sizeofElfhdr)
  if r ≠ sizeofElfhdr then .ok (none, k)
  else if (Elfhdr.ofBytes bytes).magic ≠ ELF_MAGIC then .ok (none, k)
  else do
    let (pgdir, k) ← lift (setupkvm L k)
    match pgdir with
    | none => .ok (none, k)
    | some pd => do
        let (r, k, pd) ← loadProgram L read (Elfhdr.ofBytes bytes).phnum (Elfhdr.ofBytes bytes).phoff
          0 k pd
        match r with
        | none => bad L k pd
        | some sz => do
            let (r, k, pd) ← addStack L sz k pd
            match r with
            | none => bad L k pd
            | some sz => .ok (some (Elfhdr.ofBytes bytes, sz, pd), k)

/-- What `exec` changes of `struct proc` and of the trap frame. -/
structure Proc where
  pgdir : Pgdir
  sz : ℕ
  name : List UInt8
  eip : Addr
  esp : Addr

/-- The part of `path` after the last `/`. -/
def lastName (path : List UInt8) : List UInt8 := (path.splitOn 47).getLastD []

/-- `safestrcpy` into the 16 bytes of `name`. -/
def nameOf (path : List UInt8) : List UInt8 := (lastName path).take 15

/-- The memory part of `exec`: what it returns, the process and the memory. -/
def execMem (L : Layout) (read : Read) (path : List UInt8) (argv : List (List UInt8)) (p : Proc)
    (k : Kmem) : Except Crash (ℤ × Proc × Kmem) := do
  let (image, k) ← newImage L read k
  match image with
  | none => .ok (-1, p, k)
  | some (elf, sz, pd) =>
    match setupArgs pd argv (ofNat 32 sz) k with
    | (.wild, _, _) => .error .wild
    | (.fail, k, _) => do
        let k ← lift (freevm L k pd)
        .ok (-1, p, k)
    | (.ok, k, esp) => do
        let k ← lift (freevm L k p.pgdir)
        .ok (0, ⟨pd, sz, nameOf path, elf.entry, esp⟩, k)

/-- `exec` of the file with inode `i`; `iunlockput(ip)`, which every path comes to once, is put
last. -/
def exec {N : ℕ} (L : Layout) (sb : Fs.Superblock) (dev : Fs.Devsw) (i : Fin N)
    (path : List UInt8) (argv : List (List UInt8)) (p : Proc) (k : Kmem) (s : Fs.State N) :
    Except Crash (ℤ × Proc × Kmem × Fs.State N) := do
  let (r, p, k) ← execMem L (readi sb dev i s) path argv p k
  match (Fs.iput sb i).run s with
  | .ok (_, s) => .ok (r, p, k, s)
  | .error e => .error (.fs e)

/-! ## Reading -/

theorem sure_lift {α : Type} {Q : α → Prop} {x : Except Fault α} (h : Sure Q x) :
    Sure Q (lift x) := by
  cases x with
  | _ => exact h

/-- What `readi` answers on a file with contents `c`. -/
def readAt (c : List UInt8) (off n : Addr) : ℤ × List UInt8 :=
  if c.length < off.toNat ∨ 4294967296 ≤ off.toNat + n.toNat then (-1, [])
  else (((min (off.toNat + n.toNat) c.length - off.toNat : ℕ) : ℤ), (c.drop off.toNat).take n.toNat)

theorem readi_reads {N : ℕ} {sb : Fs.Superblock} {dev : Fs.Devsw} {i : Fin N} {s : Fs.State N}
    (h : Fs.Open sb s i []) (ht : (s.icache i).copy.type ≠ Fs.T_DEV) (off n : Addr) :
    readi sb dev i s off n = .ok (readAt ((s.icache i).copy.content s.disk) off n) := by
  have hoff : (UInt32.ofBitVec off).toNat = off.toNat := rfl
  have hn : (UInt32.ofBitVec n).toNat = n.toNat := rfl
  rw [readi, readAt, Fs.length_content]
  by_cases hbad : (s.icache i).copy.size < off.toNat ∨ 4294967296 ≤ off.toNat + n.toNat
  · obtain ⟨r, t, hrun, rfl⟩ := exists_ok_of_wp
      (m := Fs.readi sb dev i (UInt32.ofBitVec off) (UInt32.ofBitVec n)) (Q := fun r _ => r = (-1, []))
      (Fs.readi_refuses ht hbad rfl)
    rw [hrun, if_pos hbad]
  · rw [not_or] at hbad
    obtain ⟨r, t, hrun, -, rfl⟩ := exists_ok_of_wp
      (m := Fs.readi sb dev i (UInt32.ofBitVec off) (UInt32.ofBitVec n))
      (Fs.readi_spec h ht (by omega) (by omega))
    rw [hrun, if_neg (not_or.2 hbad)]
    rfl

theorem readAt_full {c : List UInt8} {off n : Addr} (h : (readAt c off n).1 = n.toNat) :
    off.toNat + n.toNat ≤ c.length ∧ off.toNat + n.toNat < 4294967296 ∧
      (readAt c off n).2 = (c.drop off.toNat).take n.toNat := by
  rw [readAt] at h ⊢
  by_cases hbad : c.length < off.toNat ∨ 4294967296 ≤ off.toNat + n.toNat
  · rw [if_pos hbad] at h
    exact absurd h (by dsimp only; omega)
  · rw [if_neg hbad] at h ⊢
    rw [not_or] at hbad
    dsimp only at h
    exact ⟨by omega, by omega, rfl⟩

theorem length_readAt (c : List UInt8) (off n : Addr) : (readAt c off n).2.length ≤ n.toNat := by
  rw [readAt]
  split
  · exact Nat.zero_le _
  · rw [length_take]
    exact Nat.min_le_left _ _

/-! ## Loading a segment -/

/-- The byte at user address `x`. -/
def byteAt (pd : Pgdir) (k : Kmem) (x : ℕ) : Option UInt8 :=
  (pd.lookup (ofNat 20 (x / PGSIZE))).map fun e =>
    k.mem (P2V e.pa) ⟨x % PGSIZE, Nat.mod_lt _ (by decide)⟩

variable {L : Layout} {M X : Multiset Page} {k : Kmem} {pd : Pgdir} {read : Read} {c : List UInt8}

theorem held_store (h : Held L M k X) (v : Page) (o : ℕ) (src : List UInt8) :
    Held L M (k.store v o src) X :=
  ⟨⟨h.ok.nodup, h.ok.unused, h.ok.managed⟩, h.total⟩

theorem byteAt_store (hM : Managed L M) (h : Held L M k (pd.all + X)) {a : ℕ}
    (ha : a < KERNBASE.toNat) {e : Pte} (he : pd.lookup (ofNat 20 a) = some e)
    {src : List UInt8} (hsrc : src.length ≤ PGSIZE) {x : ℕ} (hx : x < 2147483648) :
    byteAt pd (k.store (P2V e.pa) 0 src) x =
      if a * PGSIZE ≤ x ∧ x < a * PGSIZE + src.length then some (src.getD (x - a * PGSIZE) 0)
      else byteAt pd k x := by
  have hK : KERNBASE.toNat = 524288 := rfl
  have hsize : PGSIZE = 4096 := rfl
  rw [hsize] at hsrc ⊢
  have hpage : ∀ b, b < 524288 → (ofNat 20 b : Page) < KERNBASE := by
    intro b hb
    rw [BitVec.lt_def, toNat_ofNat]
    omega
  have hinj : ∀ b, b < 524288 → (ofNat 20 b : Page) = ofNat 20 a → b = a := by
    intro b hb hba
    have := congrArg BitVec.toNat hba
    rw [toNat_ofNat, toNat_ofNat] at this
    omega
  have hdiv : x / PGSIZE = x / 4096 := rfl
  rw [byteAt, byteAt]
  by_cases hxa : x / PGSIZE = a
  · rw [hxa, he, map_some, map_some]
    by_cases hin : a * 4096 ≤ x ∧ x < a * 4096 + src.length
    · rw [if_pos hin]
      have hlt : x % 4096 < src.length := by omega
      have hidx : x - a * 4096 = x % 4096 := by omega
      rw [mem_store_of_lt hlt (Nat.zero_add _).symm, hidx, getD_eq_getElem _ _ hlt]
    · rw [if_neg hin]
      refine congrArg some (mem_store (.inr (.inr ?_)))
      change 0 + src.length ≤ x % 4096
      omega
  · rw [if_neg (by omega)]
    cases hl : pd.lookup (ofNat 20 (x / PGSIZE)) with
    | none => rw [map_none, map_none]
    | some e' =>
      rw [map_some, map_some]
      refine congrArg some (mem_store (.inl fun hp => hxa (hinj _ (by omega) ?_)))
      exact frame_inj hM h (hpage _ (by omega)) (hpage _ (by omega)) hl he hp

theorem split_page {a x m left : ℕ} (hm : m = min left 4096) :
    a * 4096 ≤ x ∧ x < a * 4096 + left ↔ a * 4096 ≤ x ∧ x < a * 4096 + m ∨
      (a + 1) * 4096 ≤ x ∧ x < (a + 1) * 4096 + (left - 4096) := by
  omega

/-- What a segment that was loaded changes. -/
structure SegmentLoaded (pd : Pgdir) (k : Kmem) (c : List UInt8) (start off len : ℕ) (k' : Kmem) :
    Prop where
  inFile : len = 0 ∨ off + len ≤ c.length
  bytes : ∀ x, x < 2147483648 → byteAt pd k' x =
    if start ≤ x ∧ x < start + len then some (c.getD (off + (x - start)) 0) else byteAt pd k x

theorem loadLoop_sure (hM : Managed L M) (hread : ∀ off n, read off n = .ok (readAt c off n))
    (n : ℕ) : ∀ {a : ℕ} {offset : Addr} {left : ℕ} {k : Kmem}, left ≤ n * PGSIZE →
      (n = 0 ∨ (n - 1) * PGSIZE < left) → a + n ≤ KERNBASE.toNat →
      (∀ j, j < n → ∃ e, pd.lookup (ofNat 20 (a + j)) = some e) →
      Held L M k (pd.all + X) →
      Sure (fun r => Held L M r.2 (pd.all + X) ∧ (∀ v ∈ X, r.2.mem v = k.mem v) ∧
          (r.1 = true → SegmentLoaded pd k c (a * PGSIZE) offset.toNat left r.2))
        (loadLoop read pd n (ofNat 20 a) offset left k) := by
  have hK : KERNBASE.toNat = 524288 := rfl
  have hsize : PGSIZE = 4096 := rfl
  rw [hsize]
  induction n with
  | zero =>
    intro a offset left k hleft _ _ _ h
    obtain rfl : left = 0 := by omega
    refine ⟨h, fun _ _ => rfl, fun _ => ⟨.inl rfl, fun x _ => ?_⟩⟩
    rw [if_neg (by omega)]
  | succ n ih =>
    intro a offset left k hleft hmore ha hmap h
    obtain ⟨e, he⟩ := hmap 0 (Nat.succ_pos n)
    rw [Nat.add_zero] at he
    obtain ⟨t, ht, hte⟩ := bind_eq_some_iff.1 he
    have hpage : (ofNat 20 a : Page) < KERNBASE := by
      rw [BitVec.lt_def, toNat_ofNat]
      omega
    have hnot := frame_notMem hM h hpage he
    rw [loadLoop, ht]
    dsimp only
    rw [hte, hread, hsize]
    change Sure _ (if _ then _ else _)
    generalize hm : (if left < 4096 then left else 4096) = m
    have hmin : m = min left 4096 := by
      rw [← hm]
      split <;> omega
    have hmle : m ≤ 4096 := by omega
    have hmn : (ofNat 32 m : Addr).toNat = m := by
      rw [toNat_ofNat]
      omega
    have hlen := length_readAt c offset (ofNat 32 m)
    rw [hmn] at hlen
    have hother : ∀ v ∈ X, (k.store (P2V e.pa) 0 (readAt c offset (ofNat 32 m)).2).mem v =
        k.mem v := by
      intro v hv
      funext o
      refine mem_store (.inl ?_)
      rintro rfl
      exact hnot hv
    have hstored := held_store h (P2V e.pa) 0 (readAt c offset (ofNat 32 m)).2
    by_cases hr : (readAt c offset (ofNat 32 m)).1 ≠ m
    · rw [if_pos hr]
      exact ⟨hstored, hother, fun hc => nomatch hc⟩
    · rw [if_neg hr]
      have hall : (readAt c offset (ofNat 32 m)).1 = (ofNat 32 m : Addr).toNat := by
        rw [hmn]
        exact not_not.1 hr
      obtain ⟨hin, hwrap, hbytes⟩ := readAt_full hall
      rw [hmn] at hin hwrap hbytes
      have hblen : (readAt c offset (ofNat 32 m)).2.length = m := by
        rw [hbytes, length_take, length_drop]
        omega
      have hstore : ∀ x, x < 2147483648 → _ := fun x hx =>
        byteAt_store hM h (by omega) he (hblen.le.trans hmle) hx
      have hnext : (ofNat 20 a + 1 : Page) = ofNat 20 (a + 1) :=
        (BitVec.ofNat_add _ _).symm
      rw [hnext]
      refine (ih (by omega) (by omega) (by omega) (fun j hj => ?_) hstored).mono ?_
      · obtain ⟨e', he'⟩ := hmap (j + 1) (by omega)
        exact ⟨e', by rw [← he', Nat.add_right_comm, Nat.add_assoc]⟩
      · rintro ⟨ok, k'⟩ ⟨h', hmem', hload⟩
        refine ⟨h', fun v hv => (hmem' v hv).trans (hother v hv), fun hok => ?_⟩
        obtain ⟨hin', hrest⟩ := hload hok
        have hoff : left - 4096 ≠ 0 →
            (offset + ofNat 32 4096 : Addr).toNat = offset.toNat + 4096 := by
          intro hne
          rw [BitVec.toNat_add]
          change (offset.toNat + 4096) % 4294967296 = _
          omega
        refine ⟨.inr ?_, fun x hx => ?_⟩
        · omega
        · rw [hrest x hx, hstore x hx, hblen, hsize]
          by_cases hlow : a * 4096 ≤ x ∧ x < a * 4096 + m
          · have hhigh : ¬((a + 1) * 4096 ≤ x ∧ x < (a + 1) * 4096 + (left - 4096)) := by omega
            have hin := (split_page hmin).2 (.inl hlow)
            have hlt : x - a * 4096 < m := by omega
            rw [if_neg hhigh, if_pos hlow, if_pos hin, hbytes, getD_eq_getElem?_getD,
              getD_eq_getElem?_getD, getElem?_take_of_lt hlt, getElem?_drop]
          · rw [if_neg hlow]
            by_cases hhigh : (a + 1) * 4096 ≤ x ∧ x < (a + 1) * 4096 + (left - 4096)
            · have hin := (split_page hmin).2 (.inr hhigh)
              have hidx : offset.toNat + 4096 + (x - (a + 1) * 4096) =
                  offset.toNat + (x - a * 4096) := by omega
              rw [if_pos hhigh, if_pos hin, hoff (by omega), hidx]
            · rw [if_neg hhigh, if_neg fun hin => ((split_page hmin).1 hin).elim hlow hhigh]

theorem loaduvm_sure (hM : Managed L M) (hread : ∀ off n, read off n = .ok (readAt c off n))
    {addr offset sz : Addr} (halign : addr.toNat % PGSIZE = 0)
    (hend : addr.toNat + sz.toNat ≤ 2147483648)
    (hmap : ∀ b, b * PGSIZE < addr.toNat + sz.toNat → ∃ e, pd.lookup (ofNat 20 b) = some e)
    (h : Held L M k (pd.all + X)) :
    Sure (fun r => Held L M r.2 (pd.all + X) ∧ (∀ v ∈ X, r.2.mem v = k.mem v) ∧
        (r.1 = true → SegmentLoaded pd k c addr.toNat offset.toNat sz.toNat r.2))
      (loaduvm read pd addr offset sz k) := by
  have hK : KERNBASE.toNat = 524288 := rfl
  have hsize : PGSIZE = 4096 := rfl
  have hpages : pages sz.toNat = (sz.toNat + 4095) / 4096 := rfl
  have hpage : pageOf addr = ofNat 20 (addr.toNat / 4096) := rfl
  rw [hsize] at halign hmap
  have hstart : addr.toNat / 4096 * PGSIZE = addr.toNat := by
    rw [hsize]
    omega
  rw [loaduvm, if_neg (by rw [hsize]; omega), hpage]
  refine (loadLoop_sure hM hread _ ?_ ?_ ?_ (fun j hj => hmap _ ?_) h).mono fun r hr => ?_
  · rw [hsize, hpages]
    omega
  · rw [hsize, hpages]
    omega
  · rw [hK, hpages]
    omega
  · rw [hpages] at hj
    omega
  · rw [hstart] at hr
    exact hr

end Xv6.Exec
