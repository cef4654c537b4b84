import Xv6.Disk.Block
import Xv6.Lib.Writes
import Xv6.Param

/-!
# The redo log: committing and recovering

`log.c` keeps a header block followed by copies of the blocks of one
transaction.  This file embeds `write_log`, `write_head`, `install_trans`,
`commit` and `recover_from_log` as functions on the kernel's view of the disk
(what `bread` returns), each recording in order the single-block writes it
makes with `bwrite`.

A crash loses everything but the disk.  The disk after a crash is the disk at
the start with a prefix of the recorded writes applied.

`recover_from_log` starts from an empty buffer cache, so `bread` reads the disk
itself.
-/

namespace Xv6.Log

open Xv6.Lib

/-- The disk: what is stored under each block number. -/
abbrev Disk := ℕ → Block

/-- `log.start` and `log.size`: the blocks `start .. start + size - 1`, of which
the first is the header block. -/
structure Region where
  /-- Block number of the header block. -/
  start : ℕ
  /-- Number of blocks of the log, the header included (`sb.nlog`). -/
  size : ℕ
  /-- There is room for the header. -/
  size_pos : 0 < size

/-- The block number `b` lies outside the log. -/
def Region.Outside (r : Region) (b : ℕ) : Prop := b < r.start ∨ r.start + r.size ≤ b

instance (r : Region) (b : ℕ) : Decidable (r.Outside b) :=
  inferInstanceAs (Decidable (_ ∨ _))

/-- The in-memory `struct logheader`: `block[0 .. n-1]`, which the array of
`LOGSIZE` entries has room for. -/
@[ext]
structure LogHeader where
  /-- The block numbers, as the C `int`s they are. -/
  block : List UInt32
  n_le : block.length ≤ LOGSIZE

/-- The field `n`. -/
def LogHeader.n (h : LogHeader) : ℕ := h.block.length

/-- The header after `log.lh.n = 0`. -/
def LogHeader.empty : LogHeader := ⟨[], Nat.zero_le _⟩

/-- What the log code works on: the blocks as `bread` returns them, the
in-memory header, and the `bwrite`s made so far in the order they were made. -/
structure Mem where
  /-- The contents `bread` returns. -/
  bread : ℕ → Block
  lh : LogHeader
  /-- The single-block disk writes made so far. -/
  writes : List (ℕ × Block)

/-- `bwrite`: the buffer of block `b` goes to the disk as one atomic write. -/
def bwrite (b : ℕ) (m : Mem) : Mem := { m with writes := m.writes ++ [(b, m.bread b)] }

/-- `memmove(to->data, from->data, BSIZE)` between two buffers. -/
def copyBuf (dst src : ℕ) (m : Mem) : Mem :=
  { m with bread := Function.update m.bread dst (m.bread src) }

/-! ## The header block -/

/-- Store `block[i ..]` into the header block, whose word 0 is `n`. -/
def putEntries : ℕ → List UInt32 → Block → Block
  | _, [], b => b
  | i, w :: ws, b => putEntries (i + 1) ws (b.setWord (i + 1) w)

/-- What `write_head` stores over a header block: `n` and the first `n`
entries; the words behind them stay. -/
def encodeHead (h : LogHeader) (b : Block) : Block :=
  putEntries 0 h.block (b.setWord 0 (UInt32.ofNat h.n))

/-- The field `n` of a header block. -/
def headN (b : Block) : ℕ := (b.word 0).toNat

/-- `read_head` on a header block.  A count that `log.lh.block` has no room for
makes the C code write past the array; there is no header to return then. -/
def readHead (b : Block) : Option LogHeader :=
  if h : headN b ≤ LOGSIZE then
    some ⟨(List.range (headN b)).map fun i => b.word (i + 1), by simpa using h⟩
  else none

/-! ## `log.c` -/

/-- The loop of `write_log`: copy the cached blocks `bs` to the log slots from
`tail` on. -/
def writeLogFrom (start : ℕ) : ℕ → List UInt32 → Mem → Mem
  | _, [], m => m
  | tail, b :: bs, m =>
    writeLogFrom start (tail + 1) bs (bwrite (start + tail + 1)
      (copyBuf (start + tail + 1) b.toNat m))

def writeLog (r : Region) (m : Mem) : Mem := writeLogFrom r.start 0 m.lh.block m

def writeHead (r : Region) (m : Mem) : Mem :=
  bwrite r.start
    { m with bread := Function.update m.bread r.start (encodeHead m.lh (m.bread r.start)) }

/-- The loop of `install_trans`: copy the log slots from `tail` on to the home
blocks `bs`. -/
def installFrom (start : ℕ) : ℕ → List UInt32 → Mem → Mem
  | _, [], m => m
  | tail, b :: bs, m =>
    installFrom start (tail + 1) bs (bwrite b.toNat (copyBuf b.toNat (start + tail + 1) m))

def installTrans (r : Region) (m : Mem) : Mem := installFrom r.start 0 m.lh.block m

def clearHead (m : Mem) : Mem := { m with lh := .empty }

def commit (r : Region) (m : Mem) : Mem :=
  if 0 < m.lh.n then
    writeHead r (clearHead (installTrans r (writeHead r (writeLog r m))))
  else m

/-- `recover_from_log` on a freshly booted kernel: the cache is empty, the
header is read from the disk. -/
def recoverFromLog (r : Region) (d : Disk) : Option Mem :=
  (readHead (d r.start)).map fun h =>
    writeHead r (clearHead (installTrans r { bread := d, lh := h, writes := [] }))

/-! ## Crashes -/

/-- The writes `commit` makes for the header `lh` over the cache `cache`. -/
def commitWrites (r : Region) (cache : Disk) (lh : LogHeader) : List (ℕ × Block) :=
  (commit r { bread := cache, lh := lh, writes := [] }).writes

/-- The writes `recover_from_log` makes on the disk `d`. -/
def recoverWrites (r : Region) (d : Disk) : Option (List (ℕ × Block)) :=
  (recoverFromLog r d).map Mem.writes

/-- `recover_from_log` cut off after `k` of its writes. -/
def recoverCut (r : Region) (d : Disk) (k : ℕ) : Option Disk :=
  (recoverWrites r d).map fun ws => applyWrites (ws.take k) d

/-- `recover_from_log` run to its end. -/
def recoverFully (r : Region) (d : Disk) : Option Disk :=
  (recoverWrites r d).map fun ws => applyWrites ws d

/-- The recoveries after a crash: one cut off after each of the listed numbers
of writes, and a last one that completes. -/
def recoverRestarting (r : Region) (d : Disk) (ks : List ℕ) : Option Disk :=
  (ks.foldlM (recoverCut r) d).bind (recoverFully r)

end Xv6.Log
