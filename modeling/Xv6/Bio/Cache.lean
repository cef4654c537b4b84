import Xv6.Lib.Hoare
import Xv6.Lib.Lts
import Xv6.Log.Commit

/-!
# The buffer cache

`bio.c` over the in-memory disk of `memide.c`, with the part of `log.c` that
works through the cache: `log_write`, and `commit` with the `write_log`,
`write_head` and `install_trans` it runs.

* A buffer pointer is an index into `bcache.buf`, and `bcache.head` is the list
  `lru` of all of them, most recently used first.
* A program that would go to sleep on a locked buffer, or panics, has no next
  state: it stops with a `Stop`.
* `bread` is `bref`, the search under `bcache.lock`, then `acquiresleep`, then
  the read from the disk.  Another process may run between the first and the
  rest; a client's `bread` is therefore two calls, `bget` and `wake`.

The state also carries a history of what was done to the cache, which no
function reads: every store into a buffer (`Event.store`), every `log_write`
and every block written to the disk.  `latest` and `Pending` are functions of
that history.
-/

namespace Xv6.Bio

open Xv6.Lib Xv6.Log Function

/-! ## State -/

/-- `struct buf`, its list links apart. -/
structure Buf where
  /-- The device; `0` before the first use. -/
  dev : UInt32
  blockno : UInt32
  /-- `flags & B_VALID`: the data has been read from the disk. -/
  valid : Bool
  /-- `flags & B_DIRTY`: the data has to be written to the disk. -/
  dirty : Bool
  /-- `lock.locked`: some process holds the sleep-lock. -/
  locked : Bool
  /-- How many processes hold the buffer or wait for its lock. -/
  refcnt : ℕ
  data : Block

/-- Who stores into a buffer: a client of the cache, or `commit`. -/
inductive Who
  | client
  | log
  deriving DecidableEq

/-- What happened to a block. -/
inductive Event
  /-- New contents were stored into its buffer. -/
  | store (who : Who) (b : UInt32) (d : Block)
  /-- It was passed to `log_write`. -/
  | logWrite (b : UInt32)
  /-- Its buffer was written to the disk. -/
  | write (b : UInt32)

/-- The machine: the disk, the cache of `N` buffers and the log header. -/
structure State (N : ℕ) where
  memdisk : Disk
  buf : Fin N → Buf
  /-- `bcache.head`: the buffers from `head.next` on. -/
  lru : List (Fin N)
  lh : LogHeader
  /-- The buffers modified since they were last passed to `log_write` or
  `bwrite`. -/
  unsaved : Fin N → Bool
  /-- What happened so far, the newest first. -/
  hist : List Event

/-- The disk and where the log lies on it. -/
structure Config where
  disksize : ℕ
  log : Region
  log_le : log.start + log.size ≤ disksize
  /-- Block numbers are 32-bit integers. -/
  disksize_lt : disksize < 2 ^ 32

/-- Why a call has no next state. -/
inductive Stop
  /-- `acquiresleep` finds the buffer locked and sleeps. -/
  | sleeps
  /-- panic "bget: no buffers" -/
  | noBuffers
  /-- panic "bwrite" -/
  | bwrite
  /-- panic "brelse" -/
  | brelse
  /-- panic "iderw: buf not locked" -/
  | notLocked
  /-- panic "iderw: nothing to do" -/
  | nothingToDo
  /-- panic "iderw: request not for disk 1" -/
  | notDisk1
  /-- panic "iderw: block out of range" -/
  | outOfRange
  /-- panic "too big a transaction" -/
  | tooBig
  deriving DecidableEq

variable {N : ℕ}

/-- Kernel code that works on the cache. -/
abbrev Kernel (N : ℕ) := Prog (State N) Stop

/-- Assign to the buffer `i` points to. -/
def State.setBuf (s : State N) (i : Fin N) (b : Buf) : State N :=
  { s with buf := update s.buf i b }

/-! ## `memide.c` -/

/-- `iderw`: write the buffer to the disk if it is dirty, else read it. -/
def iderw (C : Config) (i : Fin N) : Kernel N PUnit := do
  let s ← get
  let b := s.buf i
  if b.locked = false then throw .notLocked
  else if b.valid = true ∧ b.dirty = false then throw .nothingToDo
  else if b.dev ≠ 1 then throw .notDisk1
  else if C.disksize ≤ b.blockno.toNat then throw .outOfRange
  else if b.dirty = true then
    modify fun s =>
      { s.setBuf i { b with dirty := false, valid := true } with
        memdisk := update s.memdisk b.blockno.toNat b.data
        hist := .write b.blockno :: s.hist }
  else
    modify fun s => s.setBuf i { b with data := s.memdisk b.blockno.toNat, valid := true }

/-! ## `bio.c` -/

/-- The forward search of `bget`: the buffer that caches the block. -/
def State.cached (s : State N) (dev blockno : UInt32) : Option (Fin N) :=
  s.lru.find? fun i => (s.buf i).dev = dev ∧ (s.buf i).blockno = blockno

/-- The backward search of `bget`: the least recently used buffer that nobody
refers to and that is not dirty. -/
def State.unused (s : State N) : Option (Fin N) :=
  s.lru.reverse.find? fun i => (s.buf i).refcnt = 0 ∧ (s.buf i).dirty = false

/-- What `bget` does under `bcache.lock`: find the block or recycle a buffer. -/
def bref (dev blockno : UInt32) : Kernel N (Fin N) := do
  let s ← get
  match s.cached dev blockno with
  | some i =>
    modify fun s => s.setBuf i { s.buf i with refcnt := (s.buf i).refcnt + 1 }
    pure i
  | none =>
    match s.unused with
    | some i =>
      modify fun s => s.setBuf i
        { s.buf i with dev, blockno, valid := false, dirty := false, refcnt := 1 }
      pure i
    | none => throw .noBuffers

def acquiresleep (i : Fin N) : Kernel N PUnit := do
  let s ← get
  if (s.buf i).locked = true then throw .sleeps
  else modify fun s => s.setBuf i { s.buf i with locked := true }

def bget (dev blockno : UInt32) : Kernel N (Fin N) := do
  let i ← bref dev blockno
  acquiresleep i
  pure i

/-- The end of `bread`: read the block if the buffer is not valid. -/
def fill (C : Config) (i : Fin N) : Kernel N PUnit := do
  let s ← get
  if (s.buf i).valid = false then iderw C i else pure ⟨⟩

def bread (C : Config) (dev blockno : UInt32) : Kernel N (Fin N) := do
  let i ← bget dev blockno
  fill C i
  pure i

/-- A `bread` that was waiting in `acquiresleep` goes on. -/
def wake (C : Config) (i : Fin N) : Kernel N PUnit := do
  acquiresleep i
  fill C i

/-- A store into the data of a buffer. -/
def store (who : Who) (i : Fin N) (d : Block) : Kernel N PUnit :=
  modify fun s =>
    { s.setBuf i { s.buf i with data := d } with
      unsaved := update s.unsaved i true
      hist := .store who (s.buf i).blockno d :: s.hist }

/-- The client has passed the buffer to `log_write` or `bwrite`. -/
def saved (i : Fin N) : Kernel N PUnit :=
  modify fun s => { s with unsaved := update s.unsaved i false }

def bwrite (C : Config) (i : Fin N) : Kernel N PUnit := do
  let s ← get
  if (s.buf i).locked = false then throw .bwrite
  else
    modify fun s => s.setBuf i { s.buf i with dirty := true }
    iderw C i
    saved i

/-- `brelse`: a buffer nobody refers to any more goes to the head of the list. -/
def brelse (i : Fin N) : Kernel N PUnit := do
  let s ← get
  if (s.buf i).locked = false then throw .brelse
  else
    modify fun s =>
      { s.setBuf i { s.buf i with locked := false, refcnt := (s.buf i).refcnt - 1 } with
        lru := if (s.buf i).refcnt - 1 = 0 then i :: s.lru.erase i else s.lru }

/-! ## `log.c` through the cache -/

/-- Record a block number in the header, unless it is there already. -/
def absorb (h : LogHeader) (b : UInt32) (hn : h.n < LOGSIZE) : LogHeader :=
  if b ∈ h.block then h else ⟨h.block ++ [b], by simpa [LogHeader.n] using hn⟩

/-- `log_write`, made inside a transaction. -/
def logWrite (C : Config) (i : Fin N) : Kernel N PUnit := do
  let s ← get
  if hn : LOGSIZE ≤ s.lh.n ∨ C.log.size - 1 ≤ s.lh.n then throw .tooBig
  else
    modify fun s' =>
      { s'.setBuf i { s.buf i with dirty := true } with
        lh := absorb s.lh (s.buf i).blockno (by omega)
        hist := .logWrite (s.buf i).blockno :: s.hist }
    saved i

/-- The block number `log.start + tail + 1` of a log slot. -/
def Config.slot (C : Config) (tail : ℕ) : UInt32 := UInt32.ofNat (C.log.start + tail + 1)

/-- The block number `log.start` of the header block. -/
def Config.head (C : Config) : UInt32 := UInt32.ofNat C.log.start

def copyData (dst src : Fin N) : Kernel N PUnit := do
  let s ← get
  store .log dst (s.buf src).data

/-- The body of the loop of `write_log`. -/
def writeLogEntry (C : Config) (e : UInt32 × ℕ) : Kernel N PUnit := do
  let dst ← bread C ROOTDEV (C.slot e.2)
  let src ← bread C ROOTDEV e.1
  copyData dst src
  bwrite C dst
  brelse src
  brelse dst

def writeLog (C : Config) : Kernel N PUnit := do
  let s ← get
  forM s.lh.block.zipIdx (writeLogEntry C)

/-- The body of the loop of `install_trans`. -/
def installEntry (C : Config) (e : UInt32 × ℕ) : Kernel N PUnit := do
  let lbuf ← bread C ROOTDEV (C.slot e.2)
  let dbuf ← bread C ROOTDEV e.1
  copyData dbuf lbuf
  bwrite C dbuf
  brelse lbuf
  brelse dbuf

def installTrans (C : Config) : Kernel N PUnit := do
  let s ← get
  forM s.lh.block.zipIdx (installEntry C)

def writeHead (C : Config) : Kernel N PUnit := do
  let i ← bread C ROOTDEV C.head
  let s ← get
  store .log i (encodeHead s.lh (s.buf i).data)
  bwrite C i
  brelse i

def clearHead : Kernel N PUnit := modify fun s => { s with lh := .empty }

def commit (C : Config) : Kernel N PUnit := do
  let s ← get
  if 0 < s.lh.n then
    writeLog C
    writeHead C
    installTrans C
    clearHead
    writeHead C
  else pure ⟨⟩

/-! ## The machine -/

/-- `binit` on a kernel whose memory is zero, over the disk `d`. -/
def binit (N : ℕ) (d : Disk) : State N where
  memdisk := d
  buf _ := ⟨0, 0, false, false, false, 0, .zeroes⟩
  lru := (List.finRange N).reverse
  lh := .empty
  unsaved _ := false
  hist := []

/-- The calls clients make.  Between `bget` and `brelse` a client uses the
buffer only after `wake`, and it lets go of a modified buffer only after
passing it to `log_write` or `bwrite`. -/
inductive Call (N : ℕ)
  | bget (b : UInt32)
  /-- A `bread` gets the lock of the buffer it found and returns. -/
  | wake (i : Fin N)
  /-- The holder of a buffer modifies it. -/
  | store (i : Fin N) (d : Block)
  /-- The holder of a buffer calls `log_write`. -/
  | logWrite (i : Fin N)
  /-- The holder of a buffer calls `bwrite`. -/
  | bwrite (i : Fin N)
  /-- The holder of a buffer calls `brelse`. -/
  | brelse (i : Fin N)
  | commit

/-- The rules for using buffers that `bio.c` states and does not check. -/
def Call.Allowed (s : State N) : Call N → Prop
  | .wake i => 0 < (s.buf i).refcnt
  | .store i _ => (s.buf i).locked = true
  | .logWrite i => (s.buf i).locked = true
  | .brelse i => s.unsaved i = false
  | _ => True

instance (s : State N) : (c : Call N) → Decidable (c.Allowed s)
  | .wake i => inferInstanceAs (Decidable (0 < (s.buf i).refcnt))
  | .store i _ => inferInstanceAs (Decidable ((s.buf i).locked = true))
  | .logWrite i => inferInstanceAs (Decidable ((s.buf i).locked = true))
  | .brelse i => inferInstanceAs (Decidable (s.unsaved i = false))
  | .bget _ => inferInstanceAs (Decidable True)
  | .bwrite _ => inferInstanceAs (Decidable True)
  | .commit => inferInstanceAs (Decidable True)

/-- What a call does. -/
def Call.run (C : Config) : Call N → Kernel N PUnit
  | .bget b => do
      let _ ← bref ROOTDEV b
      pure ⟨⟩
  | .wake i => Bio.wake C i
  | .store i d => Bio.store .client i d
  | .logWrite i => Bio.logWrite C i
  | .bwrite i => Bio.bwrite C i
  | .brelse i => Bio.brelse i
  | .commit => Bio.commit C

/-- The state after a call that is allowed, does not sleep and does not panic. -/
def step (C : Config) (s : State N) (c : Call N) : Option (State N) :=
  if c.Allowed s then
    match (c.run C).run s with
    | .ok (_, t) => some t
    | .error _ => none
  else none

/-- The cache in use, from `binit` on. -/
def system (C : Config) (N : ℕ) (d : Disk) : Lts (State N) (Call N) where
  init s := s = binit N d
  step := step C

/-! ## What the history says -/

/-- The contents stored last into block `b` by those that `p` accepts, or what
the disk held at the start. -/
def latestBy (p : Who → Bool) (d : Disk) : List Event → UInt32 → Block
  | [], b => d b.toNat
  | .store w c x :: h, b => if p w = true ∧ c = b then x else latestBy p d h b
  | .logWrite _ :: h, b => latestBy p d h b
  | .write _ :: h, b => latestBy p d h b

/-- The contents stored last into block `b`. -/
def latest (d : Disk) (h : List Event) (b : UInt32) : Block := latestBy (fun _ => true) d h b

/-- The contents a client stored last into block `b`. -/
def latestClient (d : Disk) (h : List Event) (b : UInt32) : Block :=
  latestBy (· = .client) d h b

/-- Block `b` has been passed to `log_write` and not been written to its place
on the disk since. -/
def Pending : List Event → UInt32 → Prop
  | [], _ => False
  | .store _ _ _ :: h, b => Pending h b
  | .logWrite c :: h, b => c = b ∨ Pending h b
  | .write c :: h, b => c ≠ b ∧ Pending h b

end Xv6.Bio
