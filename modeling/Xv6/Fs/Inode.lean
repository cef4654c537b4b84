import Xv6.Disk.Bitmap
import Xv6.Lib.Hoare
import Xv6.Lib.Lts
import Xv6.Param

/-!
# Inodes and their blocks

The block allocator, the inode cache, file contents and directories of `fs.c`.

* `disk` is what `bread` returns and `log_write` changes, block by block: the
  free map and the data blocks.  The inode blocks are read and written one
  `struct dinode` at a time, so they are the table `dinode`.
* An inode pointer is an index into `icache.inode`.
* A panic ends the run.  One call runs at a time, so the only lock a process can wait for is one
  that it has itself.
-/

namespace Xv6.Fs

open Xv6.Lib Function

/-! ## On the disk -/

def NDIRECT : ℕ := 12

/-- `NINDIRECT`, the number of block numbers in an indirect block. -/
def NINDIRECT : ℕ := BSIZE / 4

/-- `MAXFILE`, the most blocks a file has. -/
def MAXFILE : ℕ := NDIRECT + NINDIRECT

/-- `DIRSIZ`, the length of a name in a directory. -/
def DIRSIZ : ℕ := 14

def DIRENT : ℕ := 2 + DIRSIZ

def T_DIR : ℤ := 1

def T_FILE : ℤ := 2

def T_DEV : ℤ := 3

/-- A super block that `mkfs` may have written. -/
structure Superblock extends fields : Xv6.Superblock where
  /-- Block numbers are C integers. -/
  size_lt : size < 2 ^ 31
  /-- The free map lies before the data blocks and covers the disk. -/
  bmap_lt : ∀ b, b < size → b / BPB + bmapstart < size - nblocks

/-- `nmeta` of `mkfs.c`: the number of blocks before the data blocks. -/
def Superblock.nmeta (sb : Superblock) : ℕ := sb.size - sb.nblocks

structure Dinode where
  /-- File type; `0` for a free inode. -/
  type : ℤ
  major : ℤ
  minor : ℤ
  nlink : ℤ
  size : ℕ
  addrs : ℕ → ℕ

def Dinode.zero : Dinode := ⟨0, 0, 0, 0, 0, fun _ => 0⟩

def Dinode.setAddr (d : Dinode) (k a : ℕ) : Dinode :=
  { d with addrs := update d.addrs k a }

/-! ## In memory -/

structure Inode where
  inum : ℕ
  ref : ℕ
  /-- The inode has been read from the disk. -/
  valid : Bool
  copy : Dinode

/-- The file system: the disk and an inode cache of `N` entries. -/
structure State (N : ℕ) where
  disk : ℕ → Block
  /-- The inode blocks, inode by inode. -/
  dinode : ℕ → Dinode
  icache : Fin N → Inode

/-- `devsw`: what the device with a given major number reads and writes, if it
does. -/
structure Devsw where
  /-- `devsw[major].read`: the result and the bytes read. -/
  read : ℤ → Option (UInt32 → ℤ × List UInt8)
  write : ℤ → Option (List UInt8 → UInt32 → ℤ)

/-- How a run can end: the panics of `fs.c`, and a process that sleeps for ever. -/
inductive Panic
  /-- "balloc: out of blocks" -/
  | outOfBlocks
  /-- "freeing free block" -/
  | freeingFree
  /-- "ialloc: no inodes" -/
  | iallocNoInodes
  /-- "iget: no inodes" -/
  | igetNoInodes
  /-- "ilock" -/
  | ilock
  /-- "ilock: no type" -/
  | noType
  /-- "bmap: out of range" -/
  | outOfRange
  /-- "dirlookup not DIR" -/
  | notDir
  /-- "dirlookup read" -/
  | dirlookupRead
  /-- "dirlink read" -/
  | dirlinkRead
  /-- "dirlink" -/
  | dirlink
  /-- `acquiresleep` of a lock that the process itself has. -/
  | deadlock
  deriving DecidableEq

variable {N : ℕ}

/-- Kernel code that works on the file system. -/
abbrev Kernel (N : ℕ) := Prog (State N) Panic

/-- `bread`, modify, `log_write`: store into a block. -/
def setBlock (b : ℕ) (x : Block) : Kernel N PUnit :=
  modify fun s => { s with disk := update s.disk b x }

/-- Assign to the inode `i` points to. -/
def setInode (i : Fin N) (f : Inode → Inode) : Kernel N PUnit :=
  modify fun s => { s with icache := update s.icache i (f (s.icache i)) }

/-- Assign to fields of the inode that live on the disk. -/
def setCopy (i : Fin N) (f : Dinode → Dinode) : Kernel N PUnit :=
  setInode i fun ip => { ip with copy := f ip.copy }

def setAddr (i : Fin N) (k a : ℕ) : Kernel N PUnit := setCopy i fun d => d.setAddr k a

/-! ## Blocks -/

def bzero (b : ℕ) : Kernel N PUnit := setBlock b .zeroes

/-- The inner loop of `balloc`: the first free bit of a free-map block, whose
bits stand for the blocks from `b` on. -/
def findFree (sb : Superblock) (x : Block) (b : ℕ) : Option ℕ :=
  (List.range BPB).find? fun bi => b + bi < sb.size ∧ x.bit bi = false

/-- The outer loop of `balloc`, over the values of `b`. -/
def ballocFrom (sb : Superblock) : List ℕ → Kernel N ℕ
  | [] => throw .outOfBlocks
  | b :: bs => do
      let s ← get
      match findFree sb (s.disk (sb.BBLOCK b)) b with
      | some bi =>
        setBlock (sb.BBLOCK b) ((s.disk (sb.BBLOCK b)).setBit bi)
        bzero (b + bi)
        pure (b + bi)
      | none => ballocFrom sb bs

/-- `balloc`: `b` is `0`, `BPB`, `2 * BPB` and so on, below `sb.size`. -/
def balloc (sb : Superblock) : Kernel N ℕ :=
  ballocFrom sb ((List.range ((sb.size + BPB - 1) / BPB)).map (· * BPB))

def bfree (sb : Superblock) (b : ℕ) : Kernel N PUnit := do
  let s ← get
  let x := s.disk (sb.BBLOCK b)
  if x.bit (b % BPB) = false then throw .freeingFree
  else setBlock (sb.BBLOCK b) (x.clearBit (b % BPB))

/-! ## Inodes -/

def iupdate (i : Fin N) : Kernel N PUnit :=
  modify fun s =>
    { s with dinode := update s.dinode (s.icache i).inum (s.icache i).copy }

def iget (inum : ℕ) : Kernel N (Fin N) := do
  let s ← get
  match (List.finRange N).find? fun i => 0 < (s.icache i).ref ∧ (s.icache i).inum = inum with
  | some i =>
    setInode i fun ip => { ip with ref := ip.ref + 1 }
    pure i
  | none =>
    match (List.finRange N).find? fun i => (s.icache i).ref = 0 with
    | some i =>
      setInode i fun ip => { ip with inum, ref := 1, valid := false }
      pure i
    | none => throw .igetNoInodes

def idup (i : Fin N) : Kernel N PUnit := setInode i fun ip => { ip with ref := ip.ref + 1 }

/-- `ialloc`: the first free inode from 1 on. -/
def ialloc (sb : Superblock) (type : ℤ) : Kernel N (Fin N) := do
  let s ← get
  match (List.range sb.ninodes).find? fun inum => 1 ≤ inum ∧ (s.dinode inum).type = 0 with
  | some inum =>
    modify fun s =>
      { s with dinode := update s.dinode inum { Dinode.zero with type } }
    iget inum
  | none => throw .iallocNoInodes

/-- `ilock`, the lock apart. -/
def ilock (i : Fin N) : Kernel N PUnit := do
  let s ← get
  let ip := s.icache i
  if ip.ref < 1 then throw .ilock
  else if ip.valid = false then
    setInode i fun ip => { ip with copy := s.dinode ip.inum, valid := true }
    if (s.dinode ip.inum).type = 0 then throw .noType else pure ⟨⟩
  else pure ⟨⟩

/-! ## File contents -/

def loadAddr (sb : Superblock) (i : Fin N) (k : ℕ) : Kernel N ℕ := do
  let s ← get
  if (s.icache i).copy.addrs k = 0 then
    let addr ← balloc sb
    setAddr i k addr
    pure addr
  else pure ((s.icache i).copy.addrs k)

/-- The same for entry `j` of the indirect block `ind`. -/
def loadEntry (sb : Superblock) (ind j : ℕ) : Kernel N ℕ := do
  let s ← get
  let addr := ((s.disk ind).word j).toNat
  if addr = 0 then
    let addr ← balloc sb
    let s ← get
    setBlock ind ((s.disk ind).setWord j (UInt32.ofNat addr))
    pure addr
  else pure addr

def bmap (sb : Superblock) (i : Fin N) (bn : ℕ) : Kernel N ℕ := do
  if bn < NDIRECT then loadAddr sb i bn
  else if bn - NDIRECT < NINDIRECT then
    let ind ← loadAddr sb i NDIRECT
    loadEntry sb ind (bn - NDIRECT)
  else throw .outOfRange

/-- The first loop of `itrunc`. -/
def truncDirect (sb : Superblock) (i : Fin N) (k : ℕ) : Kernel N PUnit := do
  let s ← get
  let a := (s.icache i).copy.addrs k
  if a ≠ 0 then
    bfree sb a
    setAddr i k 0
  else pure ⟨⟩

/-- The loop of `itrunc` over the entries of the indirect block. -/
def truncEntry (sb : Superblock) (ind j : ℕ) : Kernel N PUnit := do
  let s ← get
  let a := ((s.disk ind).word j).toNat
  if a ≠ 0 then bfree sb a else pure ⟨⟩

def itrunc (sb : Superblock) (i : Fin N) : Kernel N PUnit := do
  forM (List.range NDIRECT) (truncDirect sb i)
  let s ← get
  let ind := (s.icache i).copy.addrs NDIRECT
  if ind ≠ 0 then
    forM (List.range NINDIRECT) (truncEntry sb ind)
    bfree sb ind
    setAddr i NDIRECT 0
  setCopy i fun d => { d with size := 0 }
  iupdate i

/-- `acquiresleep(&ip->lock)` by a process that has locked the inode `locked`, if it has locked
one. -/
def acquiresleep (locked : Option (Fin N)) (i : Fin N) : Kernel N PUnit :=
  if locked = some i then throw .deadlock else pure ⟨⟩

/-- `iput` by a process that has locked the inode `locked`. -/
def iput (sb : Superblock) (i : Fin N) (locked : Option (Fin N) := none) : Kernel N PUnit := do
  acquiresleep locked i
  let s ← get
  let ip := s.icache i
  if ip.valid = true ∧ ip.copy.nlink = 0 ∧ ip.ref = 1 then
    itrunc sb i
    setCopy i fun d => { d with type := 0 }
    iupdate i
    setInode i fun ip => { ip with valid := false }
  setInode i fun ip => { ip with ref := ip.ref - 1 }

/-- The `m` bytes of a block from `o` on. -/
def getBytes (x : Block) (o m : ℕ) : List UInt8 :=
  (List.range m).map fun k => x (Fin.ofNat BSIZE (o + k))

def putBytes (x : Block) (o : ℕ) (src : List UInt8) : Block := fun k =>
  if o ≤ k.val ∧ k.val < o + src.length then src.getD (k.val - o) 0 else x k

/-- The loop of `readi`; every round reads at least one of the `n` bytes, so
`fuel = n` rounds are enough. -/
def readLoop (sb : Superblock) (i : Fin N) : ℕ → ℕ → ℕ → Kernel N (List UInt8)
  | 0, _, _ => pure []
  | fuel + 1, off, n =>
    if n = 0 then pure []
    else do
      let a ← bmap sb i (off / BSIZE)
      let s ← get
      let m := min n (BSIZE - off % BSIZE)
      let rest ← readLoop sb i fuel (off + m) (n - m)
      pure (getBytes (s.disk a) (off % BSIZE) m ++ rest)

/-- `readi`: the result and the bytes stored at `dst`. -/
def readi (sb : Superblock) (dev : Devsw) (i : Fin N) (off n : UInt32) :
    Kernel N (ℤ × List UInt8) := do
  let s ← get
  let d := (s.icache i).copy
  if d.type = T_DEV then
    if d.major < 0 ∨ (NDEV : ℤ) ≤ d.major then pure (-1, [])
    else
      match dev.read d.major with
      | none => pure (-1, [])
      | some read => pure (read n)
  else if d.size < off.toNat ∨ off + n < off then pure (-1, [])
  else
    let n := if d.size < (off + n).toNat then d.size - off.toNat else n.toNat
    let bytes ← readLoop sb i n off.toNat n
    pure (n, bytes)

/-- The loop of `writei` over the bytes still to be written. -/
def writeLoop (sb : Superblock) (i : Fin N) : ℕ → ℕ → List UInt8 → Kernel N PUnit
  | 0, _, _ => pure ⟨⟩
  | fuel + 1, off, src =>
    if src.length = 0 then pure ⟨⟩
    else do
      let a ← bmap sb i (off / BSIZE)
      let s ← get
      let m := min src.length (BSIZE - off % BSIZE)
      setBlock a (putBytes (s.disk a) (off % BSIZE) (src.take m))
      writeLoop sb i fuel (off + m) (src.drop m)

/-- `writei` of the `n` bytes `src`. -/
def writei (sb : Superblock) (dev : Devsw) (i : Fin N) (src : List UInt8) (off n : UInt32) :
    Kernel N ℤ := do
  let s ← get
  let d := (s.icache i).copy
  if d.type = T_DEV then
    if d.major < 0 ∨ (NDEV : ℤ) ≤ d.major then pure (-1)
    else
      match dev.write d.major with
      | none => pure (-1)
      | some write => pure (write src n)
  else if d.size < off.toNat ∨ off + n < off then pure (-1)
  else if MAXFILE * BSIZE < (off + n).toNat then pure (-1)
  else
    writeLoop sb i n.toNat off.toNat src
    if 0 < n ∧ d.size < (off + n).toNat then
      setCopy i fun d => { d with size := (off + n).toNat }
      iupdate i
    pure n.toNat

/-! ## Directories -/

/-- `strncmp(p, q, n)` on strings that end with their list. -/
def strncmp : ℕ → List UInt8 → List UInt8 → ℤ
  | 0, _, _ => 0
  | n + 1, p, q =>
    if p.headD 0 ≠ 0 ∧ p.headD 0 = q.headD 0 then strncmp n p.tail q.tail
    else (p.headD 0).toNat - (q.headD 0).toNat

/-- `strncpy(s, t, n)`: the string up to its end, then zeroes. -/
def strncpy : ℕ → List UInt8 → List UInt8
  | 0, _ => []
  | n + 1, t => t.headD 0 :: strncpy n (if t.headD 0 = 0 then [] else t.tail)

/-- `de.inum` of the bytes of a `struct dirent`. -/
def direntInum (de : List UInt8) : ℕ := (de.getD 0 0).toNat + 256 * (de.getD 1 0).toNat

/-- The bytes of a `struct dirent`. -/
def encodeDirent (inum : ℕ) (name : List UInt8) : List UInt8 :=
  UInt8.ofNat inum :: UInt8.ofNat (inum / 256) :: strncpy DIRSIZ name

/-- The loop of `dirlookup` from `off` on. -/
def dirlookupFrom (sb : Superblock) (dev : Devsw) (i : Fin N) (name : List UInt8) :
    ℕ → ℕ → Kernel N (Option (Fin N × ℕ))
  | 0, _ => pure none
  | fuel + 1, off => do
      let s ← get
      if off < (s.icache i).copy.size then
        let (r, de) ← readi sb dev i (UInt32.ofNat off) (UInt32.ofNat DIRENT)
        if r ≠ DIRENT then throw .dirlookupRead
        else if direntInum de = 0 then dirlookupFrom sb dev i name fuel (off + DIRENT)
        else if strncmp DIRSIZ name (de.drop 2) = 0 then
          let j ← iget (direntInum de)
          pure (some (j, off))
        else dirlookupFrom sb dev i name fuel (off + DIRENT)
      else pure none

/-- `dirlookup`: the inode found and the offset of its entry. -/
def dirlookup (sb : Superblock) (dev : Devsw) (i : Fin N) (name : List UInt8) :
    Kernel N (Option (Fin N × ℕ)) := do
  let s ← get
  if (s.icache i).copy.type ≠ T_DIR then throw .notDir
  else dirlookupFrom sb dev i name ((s.icache i).copy.size + 1) 0

/-- The loop of `dirlink` that looks for an empty entry. -/
def emptyDirent (sb : Superblock) (dev : Devsw) (i : Fin N) : ℕ → ℕ → Kernel N ℕ
  | 0, off => pure off
  | fuel + 1, off => do
      let s ← get
      if off < (s.icache i).copy.size then
        let (r, de) ← readi sb dev i (UInt32.ofNat off) (UInt32.ofNat DIRENT)
        if r ≠ DIRENT then throw .dirlinkRead
        else if direntInum de = 0 then pure off
        else emptyDirent sb dev i fuel (off + DIRENT)
      else pure off

def dirlink (sb : Superblock) (dev : Devsw) (i : Fin N) (name : List UInt8) (inum : ℕ) :
    Kernel N ℤ := do
  let found ← dirlookup sb dev i name
  match found with
  | some (j, _) =>
    -- the caller has locked the directory
    iput sb j (some i)
    pure (-1)
  | none =>
    let s ← get
    let off ← emptyDirent sb dev i ((s.icache i).copy.size + 1) 0
    let r ← writei sb dev i (encodeDirent inum name) (UInt32.ofNat off) (UInt32.ofNat DIRENT)
    if r ≠ DIRENT then throw .dirlink else pure 0

end Xv6.Fs
