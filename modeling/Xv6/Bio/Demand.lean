import Xv6.Bio.Ring
import Xv6.Fs.Inode
import Xv6.Lib.Threads

/-!
# How many buffers the file system asks for

The functions of `fs.c` and `log.c` that work on buffers, reduced to what they do
to the buffer cache: which blocks they read, in which order they let go of them,
what they pass to `log_write`.  What the blocks contain is not modelled; where the
code branches on it, it asks for `data`, which may be anything.  Any number of
processes run file reads, file writes and transactions made of these functions.

* `bget_runs_dry` — enough readers make `bget` panic: each holds a buffer of a
  block of its own, and there are more processes than buffers.
* `bget_never_dry` — no function holds more than two buffers, so `bget` finds one
  as long as twice the number of processes inside a call and the number of dirty
  buffers are together at most `NBUF`.
-/

namespace Xv6.Bio.Demand

open Xv6.Lib Function Finset Option

/-! ## State and operations -/

/-- The buffer cache and the log, as processes share them. -/
structure State (P : Type) where
  cache : Ring.State NBUF P
  lh : List UInt32
  outstanding : ℕ
  committing : Bool
  /-- What the blocks turn out to contain when the code looks. -/
  data : ℕ → ℕ
  looked : ℕ

/-- The panics of `bio.c`, `log.c` and `fs.c` on the way. -/
inductive Panic
  /-- "bget: no buffers" -/
  | noBuffers
  /-- "too big a transaction" -/
  | tooBig
  /-- "log_write outside of trans" -/
  | outsideTrans
  /-- "log.committing" -/
  | committing
  /-- "balloc: out of blocks" -/
  | outOfBlocks
  /-- "freeing free block" -/
  | freeingFree
  /-- "ialloc: no inodes" -/
  | noInodes
  deriving DecidableEq

/-- What happens at one moment. -/
inductive Op
  /-- The part of `bget` under `bcache.lock`. -/
  | bget (b : UInt32)
  | acquire (i : Fin NBUF)
  /-- The read in `bread`, if the buffer is not valid. -/
  | fill (i : Fin NBUF)
  | logWrite (i : Fin NBUF)
  | bwrite (i : Fin NBUF)
  | release (i : Fin NBUF)
  /-- The part of `brelse` under `bcache.lock`. -/
  | putBack (i : Fin NBUF)
  /-- Look at the contents of an inode or a buffer. -/
  | data
  | beginOp
  /-- The first part of `end_op`, under `log.lock`. -/
  | endOp
  | header
  | clearHead
  | committed

/-- The result of an operation. -/
def Res : Op → Type
  | .bget _ => Option (Fin NBUF)
  | .logWrite _ => Option Panic
  | .data => ℕ
  | .endOp => Option Bool
  | .header => List UInt32
  | _ => PUnit

def B_VALID : UInt32 := 2

section Sem

variable {P : Type} [DecidableEq P]

/-- A step of the ring of buffers. -/
def State.onCache (s : State P) (a : Ring.Act NBUF P) : Option (PUnit × State P) :=
  (Ring.step s.cache a).map fun c => (⟨⟩, { s with cache := c })

/-- **What an operation of process `p` does**; `none` when it has to wait. -/
def sem (sb : Superblock) (p : P) : (o : Op) → State P → Option (Res o × State P)
  | .bget b, s =>
    match s.cache.select ROOTDEV b with
    | .ok (i, x) => some (some i, { s with cache := (s.cache.setBuf i x).goto p (.waiting i) })
    | .error _ => some (none, s)
  | .acquire _, s => s.onCache (.acquire p)
  | .fill i, s => s.onCache (.mark p i ((s.cache.buf i).flags ||| B_VALID))
  | .logWrite i, s =>
    if LOGSIZE ≤ s.lh.length ∨ sb.nlog - 1 ≤ s.lh.length then some (some .tooBig, s)
    else if s.outstanding < 1 then some (some .outsideTrans, s)
    else
      (Ring.step s.cache (.mark p i ((s.cache.buf i).flags ||| Ring.B_DIRTY))).map fun c =>
        (none, { s with
          cache := c
          lh := if (s.cache.buf i).blockno ∈ s.lh then s.lh
            else s.lh ++ [(s.cache.buf i).blockno] })
  | .bwrite i, s =>
    s.onCache (.mark p i (((s.cache.buf i).flags ||| B_VALID) &&& ~~~Ring.B_DIRTY))
  | .release i, s => s.onCache (.release p i)
  | .putBack _, s => s.onCache (.putBack p)
  | .data, s => some (s.data s.looked, { s with looked := s.looked + 1 })
  | .beginOp, s =>
    if s.committing = true ∨ LOGSIZE < s.lh.length + (s.outstanding + 1) * MAXOPBLOCKS then none
    else some (⟨⟩, { s with outstanding := s.outstanding + 1 })
  | .endOp, s =>
    if s.committing = true then some (none, s)
    else if s.outstanding - 1 = 0 then
      some (some true, { s with outstanding := s.outstanding - 1, committing := true })
    else some (some false, { s with outstanding := s.outstanding - 1 })
  | .header, s => some (s.lh, s)
  | .clearHead, s => some (⟨⟩, { s with lh := [] })
  | .committed, s => some (⟨⟩, { s with committing := false })

end Sem

/-! ## `bio.c` and `log.c` -/

/-- Kernel code on buffers. -/
abbrev K (α : Type) := Code Op Res Panic α

/-- One operation. -/
def ask (o : Op) : K (Res o) := Code.ask o

def bread (b : UInt32) : K (Fin NBUF) := do
  let i : Option (Fin NBUF) ← ask (.bget b)
  match i with
  | none => .panic .noBuffers
  | some i =>
    let _ ← ask (.acquire i)
    let _ ← ask (.fill i)
    pure i

def brelse (i : Fin NBUF) : K PUnit := do
  let _ ← ask (.release i)
  ask (.putBack i)

def logWrite (i : Fin NBUF) : K PUnit := do
  let r : Option Panic ← ask (.logWrite i)
  match r with
  | none => pure ⟨⟩
  | some e => .panic e

def writeHead (sb : Superblock) : K PUnit := do
  let i ← bread (.ofNat sb.logstart)
  let _ ← ask (.bwrite i)
  brelse i

/-- `write_log`, from the log block `tail` on. -/
def writeLog (sb : Superblock) : List UInt32 → ℕ → K PUnit
  | [], _ => pure ⟨⟩
  | b :: bs, tail => do
      let dst ← bread (.ofNat (sb.logstart + tail + 1))
      let src ← bread b
      let _ ← ask (.bwrite dst)
      brelse src
      brelse dst
      writeLog sb bs (tail + 1)

/-- `install_trans`, from the log block `tail` on. -/
def installTrans (sb : Superblock) : List UInt32 → ℕ → K PUnit
  | [], _ => pure ⟨⟩
  | b :: bs, tail => do
      let lbuf ← bread (.ofNat (sb.logstart + tail + 1))
      let dbuf ← bread b
      let _ ← ask (.bwrite dbuf)
      brelse lbuf
      brelse dbuf
      installTrans sb bs (tail + 1)

def commit (sb : Superblock) : K PUnit := do
  let lh : List UInt32 ← ask .header
  if 0 < lh.length then
    writeLog sb lh 0
    writeHead sb
    installTrans sb lh 0
    let _ ← ask .clearHead
    writeHead sb
  else pure ⟨⟩

def endOp (sb : Superblock) : K PUnit := do
  let r : Option Bool ← ask .endOp
  match r with
  | none => .panic .committing
  | some false => pure ⟨⟩
  | some true =>
    commit sb
    ask .committed

/-! ## `fs.c` -/

/-- Read a block, change it and log it: `bzero`, `iupdate`. -/
def change (b : UInt32) : K PUnit := do
  let bp ← bread b
  logWrite bp
  brelse bp

def bzero (b : ℕ) : K PUnit := change (.ofNat b)

def iupdate (sb : Superblock) (inum : ℕ) : K PUnit := change (.ofNat (sb.IBLOCK inum))

/-- `balloc`, from the `k`-th of the last blocks of the free map on.  Of a block
with a free bit `data` gives one more than the number of the bit. -/
def ballocFrom (sb : Superblock) : ℕ → ℕ → K ℕ
  | 0, _ => .panic .outOfBlocks
  | k + 1, b => do
      let bp ← bread (.ofNat (sb.BBLOCK b))
      let bit : ℕ ← ask .data
      match bit with
      | 0 =>
        brelse bp
        ballocFrom sb k (b + BPB)
      | bi + 1 =>
        logWrite bp
        brelse bp
        bzero (b + bi)
        pure (b + bi)

def balloc (sb : Superblock) : K ℕ := ballocFrom sb ((sb.size + BPB - 1) / BPB) 0

def bfree (sb : Superblock) (b : ℕ) : K PUnit := do
  let bp ← bread (.ofNat (sb.BBLOCK b))
  let bit : ℕ ← ask .data
  if bit = 0 then .panic .freeingFree
  else
    logWrite bp
    brelse bp

/-- `ialloc`, with `k` inodes left to look at; a free one has type 0. -/
def iallocFrom (sb : Superblock) : ℕ → ℕ → K ℕ
  | 0, _ => .panic .noInodes
  | k + 1, inum => do
      let bp ← bread (.ofNat (sb.IBLOCK inum))
      let type : ℕ ← ask .data
      if type = 0 then
        logWrite bp
        brelse bp
        pure inum
      else
        brelse bp
        iallocFrom sb k (inum + 1)

def ialloc (sb : Superblock) : K ℕ := iallocFrom sb (sb.ninodes - 1) 1

/-- `ilock`: read the inode if it is not valid. -/
def ilock (sb : Superblock) (inum : ℕ) : K PUnit := do
  let valid : ℕ ← ask .data
  if valid = 0 then
    let bp ← bread (.ofNat (sb.IBLOCK inum))
    brelse bp
  else pure ⟨⟩

/-- A block number, from where it is kept or from `balloc`. -/
def orBalloc (sb : Superblock) : K ℕ := do
  let addr : ℕ ← ask .data
  if addr = 0 then balloc sb else pure addr

def bmap (sb : Superblock) (bn : ℕ) : K ℕ := do
  if bn < Fs.NDIRECT then orBalloc sb
  else
    let ind ← orBalloc sb
    let bp ← bread (.ofNat ind)
    let addr : ℕ ← ask .data
    if addr = 0 then
      let addr ← balloc sb
      logWrite bp
      brelse bp
      pure addr
    else
      brelse bp
      pure addr

/-- The loops of `itrunc`: free those of `k` block numbers that are not zero. -/
def bfreeEach (sb : Superblock) : ℕ → K PUnit
  | 0 => pure ⟨⟩
  | k + 1 => do
      let addr : ℕ ← ask .data
      if addr = 0 then bfreeEach sb k
      else
        bfree sb addr
        bfreeEach sb k

def itrunc (sb : Superblock) (inum : ℕ) : K PUnit := do
  bfreeEach sb Fs.NDIRECT
  let ind : ℕ ← ask .data
  if ind = 0 then iupdate sb inum
  else
    let bp ← bread (.ofNat ind)
    bfreeEach sb Fs.NINDIRECT
    brelse bp
    bfree sb ind
    iupdate sb inum

/-- `iput`: free the inode if it has no links and no other references. -/
def iput (sb : Superblock) (inum : ℕ) : K PUnit := do
  let unused : ℕ ← ask .data
  if unused = 0 then pure ⟨⟩
  else
    itrunc sb inum
    iupdate sb inum

/-- The loop of `readi`, over the blocks `bns` of the file. -/
def readi (sb : Superblock) : List ℕ → K PUnit
  | [] => pure ⟨⟩
  | bn :: bns => do
      let addr ← bmap sb bn
      let bp ← bread (.ofNat addr)
      brelse bp
      readi sb bns

/-- The loop of `writei`. -/
def writeBlocks (sb : Superblock) : List ℕ → K PUnit
  | [] => pure ⟨⟩
  | bn :: bns => do
      let addr ← bmap sb bn
      change (.ofNat addr)
      writeBlocks sb bns

def writei (sb : Superblock) (inum : ℕ) (bns : List ℕ) : K PUnit := do
  writeBlocks sb bns
  let grown : ℕ ← ask .data
  if grown = 0 then pure ⟨⟩ else iupdate sb inum

/-! ## Calls -/

/-- The functions of `fs.c` that directory operations are made of. -/
inductive Routine
  | ilock (inum : ℕ)
  | iupdate (inum : ℕ)
  | iput (inum : ℕ)
  | ialloc
  | readi (bns : List ℕ)
  | writei (inum : ℕ) (bns : List ℕ)

/-- The code of a function. -/
def Routine.body (sb : Superblock) : Routine → K PUnit
  | .ilock inum => Demand.ilock sb inum
  | .iupdate inum => Demand.iupdate sb inum
  | .iput inum => Demand.iput sb inum
  | .ialloc => do
      let _ ← Demand.ialloc sb
      pure ⟨⟩
  | .readi bns => Demand.readi sb bns
  | .writei inum bns => Demand.writei sb inum bns

/-- One function after the other. -/
def routines (sb : Superblock) : List Routine → K PUnit
  | [] => pure ⟨⟩
  | r :: rs => do
      r.body sb
      routines sb rs

/-- `begin_op`, some functions, `end_op`. -/
def transaction (sb : Superblock) (rs : List Routine) : K PUnit := do
  let _ ← ask .beginOp
  routines sb rs
  endOp sb

/-- The loop of `filewrite`: a transaction for each part of the bytes. -/
def filewrite (sb : Superblock) (inum : ℕ) : List (List ℕ) → K PUnit
  | [] => pure ⟨⟩
  | bns :: parts => do
      transaction sb [.ilock inum, .writei inum bns]
      filewrite sb inum parts

/-- What a process asks the file system to do. -/
inductive Call
  | read (inum : ℕ) (bns : List ℕ)
  | write (inum : ℕ) (parts : List (List ℕ))
  /-- A system call that changes directories. -/
  | directory (rs : List Routine)

/-- The code of a call. -/
def Call.body (sb : Superblock) : Call → K PUnit
  | .read inum bns => routines sb [.ilock inum, .readi bns]
  | .write inum parts => filewrite sb inum parts
  | .directory rs => transaction sb rs

/-- The kernel. -/
def kernel (sb : Superblock) (P : Type) [DecidableEq P] :
    Lib.Kernel P (State P) Op Res Panic PUnit Call where
  sem := sem sb
  may _ _ _ := true
  body := Call.body sb

/-- All processes outside the file system, the cache as `binit` leaves it. -/
def boot (P : Type) (data : ℕ → ℕ) : Threads P (State P) Op Res Panic PUnit where
  shared := ⟨Ring.binit NBUF P, [], 0, false, data, 0⟩
  code _ := .ret ⟨⟩

/-- All runs, whatever the blocks contain. -/
def system (sb : Superblock) (P : Type) [DecidableEq P] [Fintype P] :
    Lts (Threads P (State P) Op Res Panic PUnit) (Sched P Call) :=
  (kernel sb P).system fun s => ∃ data, s = boot P data

/-- The code has ended in the panic of `bget`. -/
def runsDry : K PUnit → Bool
  | .panic e => decide (e = .noBuffers)
  | _ => false

/-! ## More readers than buffers -/

/-- A file system as `mkfs` lays it out. -/
def mkfsSb : Superblock := ⟨1000, 941, 200, 30, 2, 32, 58⟩

/-- Process `p` reads block 0 of inode `p`: its inode is valid, `bmap` finds the
number of the block, and `bget` selects a buffer for it. -/
def reader (p : Fin NPROC) : List (Sched (Fin NPROC) Call) :=
  [.call p (.read p [0]), .run p, .run p, .run p]

/-- The first `n` processes are readers. -/
def readers (n : ℕ) : List (Sched (Fin NPROC) Call) :=
  ((List.finRange NPROC).take n).flatMap reader

/-- The last of them. -/
def lastReader : Fin NPROC := ⟨30, by decide⟩

/-- **The buffer cache can run dry.**  Of 31 processes that each read a file of
their own, the last one finds no buffer. -/
theorem bget_runs_dry :
    ∃ s, (system mkfsSb (Fin NPROC)).Reach (fun _ _ => True) s ∧
      ∃ p, runsDry (s.code p) = true := by
  have hinit : (system mkfsSb (Fin NPROC)).Reach (fun _ _ => True)
      (boot (Fin NPROC) fun k => k + 100) := .init ⟨_, rfl⟩
  obtain ⟨s, hs, hv⟩ := Lts.reach_of_exec_map (readers 31)
    (fun s => runsDry (s.code lastReader)) true hinit (by decide +kernel)
  exact ⟨s, hs, _, hv⟩

/-! ## Nobody holds more than two -/

/-- What a process has of the cache: the buffers it holds, and where it is with
one more. -/
structure Local where
  held : Finset (Fin NBUF)
  place : Ring.Place NBUF

/-- A process outside the file system. -/
def Local.rest : Local := ⟨∅, .idle⟩

/-- The process has got the lock of a buffer. -/
def Local.hold (g : Local) (i : Fin NBUF) : Local := ⟨insert i g.held, .idle⟩

/-- The process goes to another place. -/
def Local.goto (g : Local) (x : Ring.Place NBUF) : Local := ⟨g.held, x⟩

/-- It is outside `bget` and `brelse` and holds at most `n` buffers. -/
def Local.Has (g : Local) (n : ℕ) : Prop := g.place = .idle ∧ g.held.card ≤ n

/-- The operations a process may ask for. -/
def legal (g : Local) : Op → Prop
  | .bget _ => g.Has 1
  | .acquire i => g.place = .waiting i
  | .fill i => g.place = .idle ∧ i ∈ g.held
  | .logWrite i => g.place = .idle ∧ i ∈ g.held
  | .bwrite i => g.place = .idle ∧ i ∈ g.held
  | .release i => g.place = .idle ∧ i ∈ g.held
  | .putBack i => g.place = .releasing i
  | _ => True

/-- What it may expect of the result. -/
def answers (g : Local) : (o : Op) → Res o → Prop
  | .bget _, r => r ≠ none
  | .acquire i, _ => i ∉ g.held
  | .logWrite _, r => r ≠ some .noBuffers
  | _, _ => True

/-- What it has afterwards. -/
def next (g : Local) : (o : Op) → Res o → Local
  | .bget _, some i => g.goto (.waiting i)
  | .acquire i, _ => g.hold i
  | .release i, _ => ⟨g.held.erase i, .releasing i⟩
  | .putBack _, _ => g.goto .idle
  | _, _ => g

/-- At most two buffers at a time. -/
def protocol : Protocol Op Res Local where
  legal := legal
  answers := answers
  next := next

/-- The panics that are not about running out of buffers. -/
def Other (e : Panic) : Prop := e ≠ .noBuffers

section Obeys

variable {sb : Superblock} {g h k : Local} {i : Fin NBUF} {b : UInt32} {α β : Type}

/-- The code, started with `g`, returns with `h`. -/
abbrev Leaves (c : K α) (g h : Local) : Prop := Obeys protocol (fun _ x => x = h) Other c g

/-- The code returns with what it started with. -/
abbrev Balanced (c : K α) (g : Local) : Prop := Leaves c g g

theorem Leaves.bind {c : K β} {f : β → K α} (hc : Leaves c g h) (hf : ∀ x, Leaves (f x) h k) :
    Leaves (c >>= f) g k := by
  rw [Leaves, obeys_bind]
  refine hc.mono ?_
  rintro x _ rfl
  exact hf x

theorem leaves_ite {p : Prop} [Decidable p] {c d : K α} (hc : p → Leaves c g h)
    (hd : ¬p → Leaves d g h) : Leaves (if p then c else d) g h :=
  obeys_ite.2 ⟨hc, hd⟩

theorem data_bind {f : ℕ → K α} (hf : ∀ n, Leaves (f n) g h) : Leaves (ask .data >>= f) g h :=
  ⟨trivial, fun n _ => hf n⟩

theorem Local.Has.hold {n : ℕ} (hg : g.Has n) (hi : i ∉ g.held) : (g.hold i).Has (n + 1) := by
  refine ⟨rfl, ?_⟩
  change (insert i g.held).card ≤ n + 1
  rw [card_insert_of_notMem hi]
  exact Nat.succ_le_succ hg.2

theorem Local.Has.mono {m n : ℕ} (hg : g.Has m) (hmn : m ≤ n) : g.Has n :=
  ⟨hg.1, hg.2.trans hmn⟩

theorem bread_bind {f : Fin NBUF → K α} (hg : g.Has 1)
    (hf : ∀ i, i ∉ g.held → Leaves (f i) (g.hold i) h) : Leaves (bread b >>= f) g h := by
  rw [Leaves, obeys_bind]
  refine ⟨hg, fun r hr => ?_⟩
  cases r with
  | none => exact absurd rfl hr
  | some i =>
    refine ⟨rfl, fun _ hi => ⟨⟨rfl, mem_insert_self i _⟩, fun _ _ => ?_⟩⟩
    exact hf i hi

theorem brelse_leaves (hg : g.place = .idle) (hi : i ∈ g.held) :
    Leaves (brelse i) g ⟨g.held.erase i, .idle⟩ :=
  ⟨⟨hg, hi⟩, fun _ _ => ⟨rfl, fun _ _ => rfl⟩⟩

theorem brelse_hold (hg : g.place = .idle) (hi : i ∉ g.held) :
    Leaves (brelse i) (g.hold i) g := by
  have hb := brelse_leaves (g := g.hold i) rfl (mem_insert_self i g.held)
  have herase : (g.hold i).held.erase i = g.held := erase_insert hi
  rwa [herase, ← hg] at hb

theorem logWrite_balanced (hg : g.place = .idle) (hi : i ∈ g.held) : Balanced (logWrite i) g := by
  refine ⟨⟨hg, hi⟩, fun r hr => ?_⟩
  cases r with
  | none => rfl
  | some e => exact fun he => hr (congrArg some he)

theorem logWrite_hold : Balanced (logWrite i) (g.hold i) :=
  logWrite_balanced rfl (mem_insert_self i _)

theorem bwrite_balanced (hg : g.place = .idle) (hi : i ∈ g.held) :
    Balanced (ask (.bwrite i)) g := ⟨⟨hg, hi⟩, fun _ _ => rfl⟩

/-! ### `fs.c` -/

theorem change_balanced (hg : g.Has 1) : Balanced (change b) g :=
  bread_bind hg fun _ hi => logWrite_hold.bind fun _ => brelse_hold hg.1 hi

theorem ballocFrom_balanced (hg : g.Has 1) (k n : ℕ) : Balanced (ballocFrom sb k n) g := by
  induction k generalizing n with
  | zero => exact nofun
  | succ k ih =>
    refine bread_bind hg fun i hi => data_bind fun bit => ?_
    cases bit with
    | zero => exact (brelse_hold hg.1 hi).bind fun _ => ih _
    | succ bi =>
      refine logWrite_hold.bind fun _ => (brelse_hold hg.1 hi).bind fun _ => ?_
      exact (change_balanced hg).bind fun _ => rfl

theorem balloc_balanced (hg : g.Has 1) : Balanced (balloc sb) g := ballocFrom_balanced hg _ _

theorem bfree_balanced (hg : g.Has 1) (n : ℕ) : Balanced (bfree sb n) g := by
  refine bread_bind hg fun i hi => data_bind fun bit => ?_
  refine leaves_ite (fun _ => nofun) fun _ => ?_
  exact logWrite_hold.bind fun _ => brelse_hold hg.1 hi

theorem iallocFrom_balanced (hg : g.Has 1) (k n : ℕ) : Balanced (iallocFrom sb k n) g := by
  induction k generalizing n with
  | zero => exact nofun
  | succ k ih =>
    refine bread_bind hg fun i hi => data_bind fun type => ?_
    refine leaves_ite (fun _ => ?_) fun _ => ?_
    · refine logWrite_hold.bind fun _ => (brelse_hold hg.1 hi).bind fun _ => rfl
    · exact (brelse_hold hg.1 hi).bind fun _ => ih _

theorem ilock_balanced (hg : g.Has 1) (inum : ℕ) : Balanced (ilock sb inum) g := by
  refine data_bind fun valid => ?_
  exact leaves_ite (fun _ => bread_bind hg fun _ hi => brelse_hold hg.1 hi) fun _ => rfl

theorem orBalloc_balanced (hg : g.Has 1) : Balanced (orBalloc sb) g := by
  refine data_bind fun addr => ?_
  exact leaves_ite (fun _ => balloc_balanced hg) fun _ => rfl

theorem bmap_balanced (hg : g.Has 0) (bn : ℕ) : Balanced (bmap sb bn) g := by
  have hg1 := hg.mono (Nat.zero_le 1)
  refine leaves_ite (fun _ => orBalloc_balanced hg1) fun _ => (orBalloc_balanced hg1).bind fun _ => ?_
  refine bread_bind hg1 fun i hi => data_bind fun addr => ?_
  refine leaves_ite (fun _ => ?_) fun _ => ?_
  · refine (balloc_balanced (hg.hold hi)).bind fun _ => logWrite_hold.bind fun _ => ?_
    exact (brelse_hold hg.1 hi).bind fun _ => rfl
  · exact (brelse_hold hg.1 hi).bind fun _ => rfl

theorem bfreeEach_balanced (hg : g.Has 1) (n : ℕ) : Balanced (bfreeEach sb n) g := by
  induction n with
  | zero => rfl
  | succ n ih =>
    refine data_bind fun addr => ?_
    exact leaves_ite (fun _ => ih) fun _ => (bfree_balanced hg _).bind fun _ => ih

theorem itrunc_balanced (hg : g.Has 0) (inum : ℕ) : Balanced (itrunc sb inum) g := by
  have hg1 := hg.mono (Nat.zero_le 1)
  refine (bfreeEach_balanced hg1 _).bind fun _ => data_bind fun ind => ?_
  refine leaves_ite (fun _ => change_balanced hg1) fun _ => bread_bind hg1 fun i hi => ?_
  refine (bfreeEach_balanced (hg.hold hi) _).bind fun _ => (brelse_hold hg.1 hi).bind fun _ => ?_
  exact (bfree_balanced hg1 _).bind fun _ => change_balanced hg1

theorem iput_balanced (hg : g.Has 0) (inum : ℕ) : Balanced (iput sb inum) g := by
  refine data_bind fun unused => ?_
  refine leaves_ite (fun _ => rfl) fun _ => (itrunc_balanced hg _).bind fun _ => ?_
  exact change_balanced (hg.mono (Nat.zero_le 1))

theorem readi_balanced (hg : g.Has 0) (bns : List ℕ) : Balanced (readi sb bns) g := by
  induction bns with
  | nil => rfl
  | cons bn bns ih =>
    refine (bmap_balanced hg bn).bind fun _ => bread_bind (hg.mono (Nat.zero_le 1)) fun i hi => ?_
    exact (brelse_hold hg.1 hi).bind fun _ => ih

theorem writei_balanced (hg : g.Has 0) (inum : ℕ) (bns : List ℕ) :
    Balanced (writei sb inum bns) g := by
  have hg1 := hg.mono (Nat.zero_le 1)
  have hblocks : Balanced (writeBlocks sb bns) g := by
    induction bns with
    | nil => rfl
    | cons bn bns ih =>
      refine (bmap_balanced hg bn).bind fun _ => (change_balanced hg1).bind fun _ => ih
  refine hblocks.bind fun _ => data_bind fun grown => ?_
  exact leaves_ite (fun _ => rfl) fun _ => change_balanced hg1

/-! ### `log.c` -/

theorem writeHead_balanced (hg : g.Has 1) : Balanced (writeHead sb) g :=
  bread_bind hg fun _ hi =>
    (bwrite_balanced rfl (mem_insert_self _ _)).bind fun _ => brelse_hold hg.1 hi

theorem writeLog_balanced (hg : g.Has 0) (bs : List UInt32) (tail : ℕ) :
    Balanced (writeLog sb bs tail) g := by
  induction bs generalizing tail with
  | nil => rfl
  | cons b bs ih =>
    refine bread_bind (hg.mono (Nat.zero_le 1)) fun i hi => bread_bind (hg.hold hi) fun j hj => ?_
    have hmem : i ∈ ((g.hold i).hold j).held :=
      mem_insert_of_mem (mem_insert_self i _)
    refine (bwrite_balanced rfl hmem).bind fun _ => (brelse_hold rfl hj).bind fun _ => ?_
    exact (brelse_hold hg.1 hi).bind fun _ => ih _

theorem installTrans_balanced (hg : g.Has 0) (bs : List UInt32) (tail : ℕ) :
    Balanced (installTrans sb bs tail) g := by
  induction bs generalizing tail with
  | nil => rfl
  | cons b bs ih =>
    refine bread_bind (hg.mono (Nat.zero_le 1)) fun i hi => bread_bind (hg.hold hi) fun j hj => ?_
    refine (bwrite_balanced rfl (mem_insert_self _ _)).bind fun _ => ?_
    -- the log block goes first, then the block installed
    have hij : i ∈ ((g.hold i).hold j).held :=
      mem_insert_of_mem (mem_insert_self i _)
    have hne : j ≠ i := by
      rintro rfl
      exact hj (mem_insert_self _ _)
    have hjg : j ∉ g.held := fun hjg => hj (mem_insert_of_mem hjg)
    have hswap : (⟨((g.hold i).hold j).held.erase i, .idle⟩ : Local) = g.hold j := by
      change (⟨(insert j (insert i g.held)).erase i, .idle⟩ : Local) = ⟨insert j g.held, .idle⟩
      rw [erase_insert_of_ne hne, erase_insert hi]
    have hrel := brelse_leaves (g := (g.hold i).hold j) rfl hij
    rw [hswap] at hrel
    exact hrel.bind fun _ => (brelse_hold hg.1 hjg).bind fun _ => ih _

theorem commit_balanced (hg : g.Has 0) : Balanced (commit sb) g := by
  have hhead : Balanced (writeHead sb) g := writeHead_balanced (hg.mono (Nat.zero_le 1))
  refine ⟨trivial, fun lh _ => ?_⟩
  change Leaves (if 0 < lh.length then _ else _) g g
  refine leaves_ite (fun _ => (writeLog_balanced hg _ _).bind fun _ => hhead.bind fun _ => ?_) fun _ => rfl
  refine (installTrans_balanced hg _ _).bind fun _ => ⟨trivial, fun _ _ => hhead⟩

theorem endOp_balanced (hg : g.Has 0) : Balanced (endOp sb) g := by
  refine ⟨trivial, fun r _ => ?_⟩
  match r with
  | none => exact nofun
  | some false => rfl
  | some true => exact (commit_balanced hg).bind fun _ => ⟨trivial, fun _ _ => rfl⟩

/-! ### Calls -/

theorem routine_balanced (hg : g.Has 0) (r : Routine) : Balanced (r.body sb) g := by
  have hg1 := hg.mono (Nat.zero_le 1)
  cases r with
  | ilock inum => exact ilock_balanced hg1 inum
  | iupdate inum => exact change_balanced hg1
  | iput inum => exact iput_balanced hg inum
  | ialloc => exact (iallocFrom_balanced hg1 _ _).bind fun _ => rfl
  | readi bns => exact readi_balanced hg bns
  | writei inum bns => exact writei_balanced hg inum bns

theorem routines_balanced (hg : g.Has 0) (rs : List Routine) : Balanced (routines sb rs) g := by
  induction rs with
  | nil => rfl
  | cons r rs ih => exact (routine_balanced hg r).bind fun _ => ih

theorem transaction_balanced (hg : g.Has 0) (rs : List Routine) :
    Balanced (transaction sb rs) g :=
  ⟨trivial, fun _ _ => (routines_balanced hg rs).bind fun _ => endOp_balanced hg⟩

theorem call_balanced (hg : g.Has 0) (c : Call) : Balanced (c.body sb) g := by
  cases c with
  | read inum bns => exact routines_balanced hg _
  | directory rs => exact transaction_balanced hg rs
  | write inum parts =>
    change Balanced (filewrite sb inum parts) g
    induction parts with
    | nil => rfl
    | cons bns parts ih => exact (transaction_balanced hg _).bind fun _ => ih

end Obeys

/-! ## All processes together -/

section Machine

variable {sb : Superblock} {P : Type} [DecidableEq P] [Fintype P]

/-- A buffer that is not held yet, or no longer, counts as one. -/
def size : Ring.Place NBUF → ℕ
  | .idle => 0
  | _ => 1

/-- How many buffers a process has. -/
def Local.size (g : Local) : ℕ := g.held.card + Demand.size g.place

/-- The cache is as the processes' accounts say. -/
structure Inv (s : State P) (G : P → Local) : Prop where
  cache : Ring.Inv s.cache
  place : ∀ p, s.cache.place p = (G p).place
  lock : ∀ p i, s.cache.lock i = some p ↔ i ∈ (G p).held
  two : ∀ p, (G p).size ≤ 2

theorem used_le {s : State P} {G : P → Local} (h : Inv s G) :
    (Finset.univ.filter fun i => 0 < (s.cache.buf i).refcnt).card ≤ ∑ p, (G p).size := by
  have hheld : ∀ i, Ring.held (s.cache.lock i) = ∑ p, if i ∈ (G p).held then 1 else 0 := by
    intro i
    rw [Ring.held_eq_card, card_filter]
    simp only [h.lock]
  have hon : ∀ x : Ring.Place NBUF, ∑ i, x.on i = size x := by
    intro x
    cases x <;> simp [size]
  calc (Finset.univ.filter fun i => 0 < (s.cache.buf i).refcnt).card
      = ∑ i, if 0 < (s.cache.buf i).refcnt then 1 else 0 := card_filter _ _
    _ ≤ ∑ i, (s.cache.buf i).refcnt := by
        refine sum_le_sum fun i _ => ?_
        split <;> omega
    _ = ∑ i, (∑ p, (if i ∈ (G p).held then 1 else 0) + ∑ p, (G p).place.on i) := by
        refine sum_congr rfl fun i _ => ?_
        rw [h.cache.count i, hheld]
        simp only [h.place]
    _ = ∑ p, (∑ i, (if i ∈ (G p).held then 1 else 0) + ∑ i, (G p).place.on i) := by
        simp only [← sum_add_distrib]
        exact sum_comm
    _ = ∑ p, (G p).size := by
        refine sum_congr rfl fun p _ => ?_
        rw [hon, Local.size]
        simp

/-- How many processes are inside a call. -/
def busy (s : Threads P (State P) Op Res Panic PUnit) : ℕ :=
  (Finset.univ.filter fun p => (s.code p).idle = false).card

/-- How many buffers are dirty. -/
def dirty (s : State P) : ℕ :=
  (Finset.univ.filter fun i => (s.cache.buf i).flags &&& Ring.B_DIRTY ≠ 0).card

variable {s : Threads P (State P) Op Res Panic PUnit} {G : P → Local} {p : P}

omit [DecidableEq P] in
theorem sum_size_lt (h : Accounts protocol (· = .rest) Other Inv s G)
    (hp : (s.code p).idle = false) (hone : (G p).size ≤ 1) :
    ∑ q, (G q).size < 2 * busy s := by
  have hle : ∀ q, (G q).size ≤ if (s.code q).idle = false then 2 else 0 := by
    intro q
    cases hc : s.code q with
    | ret a =>
      have hq := h.obeys q
      rw [hc] at hq
      rw [show G q = Local.rest from hq]
      simp [Local.rest, Local.size, size]
    | _ => simpa [Code.idle] using h.inv.two q
  have hlt : ∑ q, (G q).size < ∑ q, if (s.code q).idle = false then 2 else 0 := by
    refine sum_lt_sum (fun q _ => hle q) ⟨p, mem_univ p, ?_⟩
    rw [if_pos hp]
    omega
  refine hlt.trans_eq ?_
  rw [busy, card_filter, mul_sum]
  exact sum_congr rfl fun q _ => by split <;> rfl

theorem select_ne_error (h : Accounts protocol (· = .rest) Other Inv s G)
    (hp : (s.code p).idle = false) (hone : (G p).size ≤ 1)
    (hroom : 2 * busy s + dirty s.shared ≤ NBUF) (dev b : UInt32) (e : Ring.Stop) :
    s.shared.cache.select dev b ≠ .error e := by
  intro hsel
  obtain ⟨l, hl⟩ := h.inv.cache.ring
  have hlt := sum_size_lt h hp hone
  have hused := used_le h.inv
  have hall : (Finset.univ : Finset (Fin NBUF)) ⊆
      (Finset.univ.filter fun i => 0 < (s.shared.cache.buf i).refcnt) ∪
        (Finset.univ.filter fun i => (s.shared.cache.buf i).flags &&& Ring.B_DIRTY ≠ 0) := by
    intro i _
    simpa using Ring.select_error hl hsel i
  have hcard := (card_le_card hall).trans (card_union_le _ _)
  rw [card_univ, Fintype.card_fin] at hcard
  rw [dirty] at hroom
  omega

omit [DecidableEq P] in
theorem Inv.same {σ τ : State P} (h : Inv σ G) (hI : Ring.Inv τ.cache)
    (hplace : τ.cache.place = σ.cache.place) (hlock : τ.cache.lock = σ.cache.lock) : Inv τ G := by
  refine ⟨hI, fun q => ?_, fun q i => ?_, h.two⟩
  · rw [hplace]
    exact h.place q
  · rw [hlock]
    exact h.lock q i

theorem Inv.moved {σ τ : State P} (h : Inv σ G) (g : Local) (hI : Ring.Inv τ.cache)
    (hplace : τ.cache.place = update σ.cache.place p g.place)
    (hself : ∀ i, τ.cache.lock i = some p ↔ i ∈ g.held)
    (hother : ∀ q, q ≠ p → ∀ i, τ.cache.lock i = some q ↔ σ.cache.lock i = some q)
    (htwo : g.size ≤ 2) : Inv τ (update G p g) := by
  refine ⟨hI, fun q => ?_, fun q i => ?_, fun q => ?_⟩ <;> by_cases hq : q = p
  · subst hq
    simp [hplace]
  · simp [hplace, update_of_ne hq, h.place q]
  · subst hq
    simpa using hself i
  · rw [update_of_ne hq, hother q hq i]
    exact h.lock q i
  · subst hq
    simpa using htwo
  · rw [update_of_ne hq]
    exact h.two q

omit [Fintype P] in
theorem mark_same {c c' : Ring.State NBUF P} {i : Fin NBUF} {f : UInt32}
    (hst : Ring.step c (.mark p i f) = some c') : c'.place = c.place ∧ c'.lock = c.lock := by
  simp only [Ring.step] at hst
  split at hst
  · cases hst
    exact ⟨rfl, rfl⟩
  · cases hst

theorem Inv.mark {σ τ : State P} (h : Inv σ G) {i : Fin NBUF} {f : UInt32}
    (hst : Ring.step σ.cache (.mark p i f) = some τ.cache) : Inv τ G := by
  obtain ⟨hplace, hlock⟩ := mark_same hst
  exact h.same (Ring.step_inv h.cache hst) hplace hlock

omit [Fintype P] in
theorem onCache_eq {σ τ : State P} {a : Ring.Act NBUF P} {r : PUnit}
    (h : σ.onCache a = some (r, τ)) : Ring.step σ.cache a = some τ.cache := by
  obtain ⟨c, hc, heq⟩ := map_eq_some_iff.1 h
  cases heq
  exact hc

theorem Inv.locked {σ τ : State P} (h : Inv σ G) {i : Fin NBUF} {o : Option P} {x : Ring.Place NBUF}
    (g : Local) (hinv : Ring.Inv τ.cache) (hτ : (σ.cache.setLock i o).goto p x = τ.cache)
    (hx : x = g.place) (hi : ∀ q, q ≠ p → σ.cache.lock i ≠ some q) (ho : ∀ q, q ≠ p → o ≠ some q)
    (hself : ∀ j, j ≠ i → (j ∈ g.held ↔ j ∈ (G p).held)) (hmine : o = some p ↔ i ∈ g.held)
    (htwo : g.size ≤ 2) : Inv τ (update G p g) := by
  refine h.moved g hinv ?_ ?_ ?_ htwo
  · rw [← hτ, hx]
    rfl
  · intro j
    rw [← hτ]
    by_cases hj : j = i
    · subst hj
      simpa [Ring.State.goto, Ring.State.setLock] using hmine
    · simpa [Ring.State.goto, Ring.State.setLock, hj, hself j hj] using h.lock p j
  · intro q hq j
    rw [← hτ]
    by_cases hj : j = i
    · subst hj
      simp [Ring.State.goto, Ring.State.setLock, hi q hq, ho q hq]
    · simp [Ring.State.goto, Ring.State.setLock, hj]

theorem Inv.acquire {σ τ : State P} (h : Inv σ G) {i : Fin NBUF} (hwait : (G p).place = .waiting i)
    (hst : Ring.step σ.cache (.acquire p) = some τ.cache) :
    i ∉ (G p).held ∧ Inv τ (update G p ((G p).hold i)) := by
  have hinv := Ring.step_inv h.cache hst
  simp only [Ring.step, (h.place p).trans hwait] at hst
  split at hst
  · rename_i hfree
    have hno : i ∉ (G p).held := fun hi => by simp [(h.lock p i).2 hi] at hfree
    have htwo := h.two p
    simp only [Local.size, hwait, size] at htwo
    refine ⟨hno, h.locked ((G p).hold i) hinv (some_inj.1 hst) rfl (fun q _ => ?_)
      (fun q hq => ?_) (fun j hj => ?_) ?_ ?_⟩
    · rw [hfree]
      rintro ⟨⟩
    · simpa using Ne.symm hq
    · simp [Local.hold, hj]
    · simp [Local.hold]
    · simp only [Local.size, Local.hold, size, card_insert_of_notMem hno]
      omega
  · cases hst

theorem Inv.release {σ τ : State P} (h : Inv σ G) {i : Fin NBUF}
    (hl : (G p).place = .idle ∧ i ∈ (G p).held)
    (hst : Ring.step σ.cache (.release p i) = some τ.cache) :
    Inv τ (update G p ⟨(G p).held.erase i, .releasing i⟩) := by
  have hinv := Ring.step_inv h.cache hst
  have hmine := (h.lock p i).2 hl.2
  have htwo := h.two p
  have hpos := card_pos.2 ⟨i, hl.2⟩
  simp only [Local.size, hl.1, size] at htwo
  simp only [Ring.step] at hst
  split at hst
  · refine h.locked ⟨(G p).held.erase i, .releasing i⟩ hinv (some_inj.1 hst) rfl
      (fun q hq => ?_) (fun q _ => ?_) (fun j hj => ?_) ?_ ?_
    · rw [hmine]
      simpa using Ne.symm hq
    · rintro ⟨⟩
    · simp [hj]
    · simp
    · simp only [Local.size, size, card_erase_of_mem hl.2]
      omega
  · cases hst

theorem Inv.putBack {σ τ : State P} (h : Inv σ G) {i : Fin NBUF} (hl : (G p).place = .releasing i)
    (hst : Ring.step σ.cache (.putBack p) = some τ.cache) :
    Inv τ (update G p ((G p).goto .idle)) := by
  have hinv := Ring.step_inv h.cache hst
  simp only [Ring.step, (h.place p).trans hl] at hst
  have hc := some_inj.1 hst
  refine h.moved ((G p).goto .idle) hinv ?_ ?_ ?_ ?_
  · rw [← hc]
    rfl
  · intro j
    rw [← hc]
    exact h.lock p j
  · intro q _ j
    rw [← hc]
    exact Iff.rfl
  · have htwo := h.two p
    simp only [Local.size, size] at htwo
    simp only [Local.size, Local.goto, size]
    omega

theorem bget_keeps (h : Accounts protocol (· = .rest) Other Inv s G)
    (hroom : 2 * busy s + dirty s.shared ≤ NBUF) (hbusy : (s.code p).idle = false) {b : UInt32}
    (hl : (G p).Has 1) {r : Option (Fin NBUF)} {t : State P}
    (hsem : sem sb p (.bget b) s.shared = some (r, t)) :
    r ≠ none ∧ Inv t (update G p (next (G p) (.bget b) r)) := by
  obtain ⟨hidle, hcard⟩ := hl
  have hI := h.inv
  have hone : (G p).size ≤ 1 := by simpa [Local.size, hidle, size] using hcard
  simp only [sem] at hsem
  split at hsem
  · rename_i i x hsel
    cases hsem
    refine ⟨some_ne_none i, hI.moved ((G p).goto (.waiting i)) ?_ rfl (hI.lock p)
      (fun _ _ _ => Iff.rfl) ?_⟩
    · exact Ring.bget_inv hI.cache ((hI.place p).trans hidle) hsel
    · simpa [Local.goto, Local.size, size] using hcard
  · rename_i e hsel
    exact absurd hsel (select_ne_error h hbusy hone hroom _ _ _)

theorem op_keeps (h : Accounts protocol (· = .rest) Other Inv s G)
    (hroom : 2 * busy s + dirty s.shared ≤ NBUF) {o : Op} {k : Res o → K PUnit} {r : Res o}
    {t : State P} (hcode : s.code p = .op o k) (hl : legal (G p) o)
    (hsem : sem sb p o s.shared = some (r, t)) :
    answers (G p) o r ∧ Inv t (update G p (next (G p) o r)) := by
  have hbusy : (s.code p).idle = false := by rw [hcode]; rfl
  have hI := h.inv
  have hsame : update G p (G p) = G := update_eq_self p G
  cases o with
  | bget b => exact bget_keeps h hroom hbusy hl hsem
  | acquire i => exact hI.acquire hl (onCache_eq hsem)
  | release i => exact ⟨trivial, hI.release hl (onCache_eq hsem)⟩
  | putBack i => exact ⟨trivial, hI.putBack hl (onCache_eq hsem)⟩
  | fill i =>
    refine ⟨trivial, ?_⟩
    dsimp only [next]
    rw [hsame]
    exact hI.mark (onCache_eq hsem)
  | bwrite i =>
    refine ⟨trivial, ?_⟩
    dsimp only [next]
    rw [hsame]
    exact hI.mark (onCache_eq hsem)
  | logWrite i =>
    dsimp only [next]
    rw [hsame]
    simp only [sem] at hsem
    split at hsem
    · cases hsem
      exact ⟨by rintro ⟨⟩, hI⟩
    · split at hsem
      · cases hsem
        exact ⟨by rintro ⟨⟩, hI⟩
      · obtain ⟨c, hc, heq⟩ := map_eq_some_iff.1 hsem
        cases heq
        exact ⟨by rintro ⟨⟩, hI.mark hc⟩
  | data =>
    cases hsem
    refine ⟨trivial, ?_⟩
    dsimp only [next]
    rw [hsame]
    exact hI.same hI.cache rfl rfl
  | beginOp =>
    simp only [sem] at hsem
    split at hsem
    · cases hsem
    · cases hsem
      refine ⟨trivial, ?_⟩
      dsimp only [next]
      rw [hsame]
      exact hI.same hI.cache rfl rfl
  | endOp =>
    refine ⟨trivial, ?_⟩
    dsimp only [next]
    rw [hsame]
    simp only [sem] at hsem
    split at hsem
    · cases hsem
      exact hI
    · split at hsem
      · cases hsem
        exact hI.same hI.cache rfl rfl
      · cases hsem
        exact hI.same hI.cache rfl rfl
  | header =>
    cases hsem
    refine ⟨trivial, ?_⟩
    dsimp only [next]
    rw [hsame]
    exact hI
  | clearHead =>
    cases hsem
    refine ⟨trivial, ?_⟩
    dsimp only [next]
    rw [hsame]
    exact hI.same hI.cache rfl rfl
  | committed =>
    cases hsem
    refine ⟨trivial, ?_⟩
    dsimp only [next]
    rw [hsame]
    exact hI.same hI.cache rfl rfl

theorem accounts_of_reach
    (h : (system sb P).Reach (fun s _ => 2 * busy s + dirty s.shared ≤ NBUF) s) :
    ∃ G, Accounts protocol (· = .rest) Other Inv s G := by
  refine exists_accounts protocol (· = .rest) Other Inv ?_ ?_ ?_ h
  · rintro s ⟨data, rfl⟩
    refine ⟨fun _ => .rest, ⟨Ring.init_inv, fun _ => rfl, ?_, ?_⟩, fun _ => ⟨rfl, rfl⟩⟩
    · intro q i
      simp [boot, Ring.binit, Local.rest]
    · intro q
      simp [Local.rest, Local.size, size]
  · intro s G p o k r t hG hroom hcode hl hsem
    exact op_keeps hG hroom hcode hl hsem
  · rintro σ G p c - hrest -
    rw [hrest]
    exact call_balanced ⟨rfl, le_rfl⟩ c

/-- **The buffer cache does not run dry while there is room.**  In every run in
which twice the number of processes inside a call and the number of dirty buffers
are together at most `NBUF`, no `bget` panics. -/
theorem bget_never_dry
    (h : (system sb P).Reach (fun s _ => 2 * busy s + dirty s.shared ≤ NBUF) s) (p : P) :
    runsDry (s.code p) = false := by
  obtain ⟨G, hG⟩ := accounts_of_reach h
  have hob := hG.obeys p
  cases hc : s.code p with
  | ret a => rfl
  | op o k => rfl
  | panic e =>
    rw [hc] at hob
    exact decide_eq_false hob

/-- Three readers at once are within the bound. -/
theorem bget_never_dry_three :
    ∃ s, (system mkfsSb (Fin NPROC)).Reach
        (fun s _ => 2 * busy s + dirty s.shared ≤ NBUF) s ∧
      busy s = 3 ∧ ∀ p, runsDry (s.code p) = false := by
  have hinit : (system mkfsSb (Fin NPROC)).Reach (fun s _ => 2 * busy s + dirty s.shared ≤ NBUF)
      (boot (Fin NPROC) fun k => k + 100) := .init ⟨_, rfl⟩
  obtain ⟨s, hs, hv⟩ := Lts.reach_of_exec_map (readers 3) busy 3 hinit (by decide +kernel)
  exact ⟨s, hs, hv, fun p => bget_never_dry hs p⟩

end Machine

end Xv6.Bio.Demand
