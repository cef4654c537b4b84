import Xv6.Lib.Chain
import Xv6.Lib.Lts
import Xv6.Param

/-!
# The IDE driver

`iderw`, `idestart` and `ideintr` of `ide.c`, run by any number of processes together with
the interrupt handler and the disk.

A step is one stretch of code that nothing can come between: taking or releasing
`idelock`, appending to the queue, starting the disk, testing the flags, going to sleep.
The disk works on its own: it carries out a command at some time after the command was
started and then raises one interrupt.  The handler runs on one CPU, with interrupts off,
so that the next interrupt waits until it has returned.

A process that holds the sleep lock of a buffer may change its data and flags.  Buffers
whose locks are held are for different blocks, as in the buffer cache.

The fields from `req` on are not in the source: they record what the requests were.
-/

namespace Xv6.Ide

open Xv6.Lib Function

variable {P B D : Type}

/-- `struct buf`, as far as the driver reads it. -/
structure Buf (D : Type) where
  dev : ℕ
  blockno : ℕ
  valid : Bool
  dirty : Bool
  data : D

/-- Where a block is: the drive, from `dev & 1`, and the sector, with one sector to a block. -/
def Buf.place (x : Buf D) : ℕ × ℕ := (x.dev % 2, x.blockno)

def Buf.synced (x : Buf D) : Bool := x.valid && !x.dirty

/-- A command that was given to the disk and whose interrupt has not been dealt with. -/
structure Cmd (D : Type) where
  write : Bool
  place : ℕ × ℕ
  /-- What the disk was sent, or what it has read. -/
  data : D
  done : Bool

/-- Where a process is in `iderw`. -/
inductive Stage
  | enter
  | append
  /-- About to start the disk if the buffer is at the head. -/
  | start
  | wait
  | asleep
  /-- Woken, and about to take `idelock` again. -/
  | awake
  /-- About to release `idelock` and return. -/
  | leave
  deriving DecidableEq

/-- The process has `idelock`. -/
def Stage.holds : Stage → Bool
  | .append | .start | .wait | .leave => true
  | _ => false

/-- Where the handler is in `ideintr`. -/
inductive Handler (B : Type)
  | idle
  | enter
  /-- About to take the head off the queue. -/
  | pop
  /-- About to read the data, set the flags and wake the process. -/
  | finish (b : B)
  /-- About to start the disk on the next buffer. -/
  | next
  | leave

/-- The handler has `idelock`. -/
def Handler.holds : Handler B → Bool
  | .pop | .finish _ | .next | .leave => true
  | _ => false

/-- Who has `idelock`. -/
inductive Holder (P : Type)
  | proc (p : P)
  | intr
  deriving DecidableEq

structure State (P B D : Type) where
  buf : B → Buf D
  /-- The holder of the sleep lock of a buffer. -/
  lock : B → Option P
  idelock : Option (Holder P)
  idequeue : Option B
  qnext : B → Option B
  /-- Where the processes are in `iderw`, and with which buffer. -/
  pc : P → Option (Stage × B)
  handler : Handler B
  irq : Bool
  cmd : Option (Cmd D)
  disk : ℕ × ℕ → D
  havedisk1 : Bool
  panic : Bool
  /-- The buffer at the time of the call. -/
  req : P → Buf D
  /-- How often a transfer of a buffer completed since `iderw` was called with it. -/
  count : B → ℕ
  /-- The requests that were appended and have not completed. -/
  reqs : List B
  /-- The requests in the order they were appended, started, and completed. -/
  appended : List B
  started : List B
  completed : List B

/-- The steps. -/
inductive Act (P B D : Type)
  /-- `p` gets the lock of `b`, which may have been given to another block before. -/
  | lock (p : P) (b : B) (x : Buf D)
  /-- `p` changes the flags and the data of `b`. -/
  | edit (p : P) (b : B) (valid dirty : Bool) (data : D)
  /-- `p` releases the lock of `b`. -/
  | unlock (p : P) (b : B)
  | call (p : P) (b : B)
  | next (p : P)
  /-- `p` is woken in `sleep`, by `kill`. -/
  | kill (p : P)
  /-- The disk carries out its command. -/
  | disk
  | interrupt
  | handle

variable [DecidableEq P] [DecidableEq B] [Fintype B]

def State.goto (s : State P B D) (p : P) (v : Option (Stage × B)) : State P B D :=
  { s with pc := update s.pc p v }

/-- `idewait(0)` would return: the disk is not busy. -/
def State.ready (s : State P B D) : Bool :=
  match s.cmd with
  | none => true
  | some c => c.done

def idestart (s : State P B D) (b : B) : State P B D :=
  if FSSIZE ≤ (s.buf b).blockno then { s with panic := true }
  else
    { s with
      cmd := some ⟨(s.buf b).dirty, (s.buf b).place, (s.buf b).data, false⟩
      started := s.started ++ [b] }

/-- The checks at the start of `iderw`. -/
def iderwPanics (s : State P B D) (p : P) (b : B) : Bool :=
  decide (s.lock b ≠ some p) || (s.buf b).synced || (decide ((s.buf b).dev ≠ 0) && !s.havedisk1)

/-- `iderw`, from stage `st` on. -/
def iderw (s : State P B D) (p : P) (b : B) : Stage → Option (State P B D)
  | .enter =>
    if s.idelock = none then
      some { s.goto p (some (.append, b)) with idelock := some (.proc p) }
    else none
  | .append =>
    let (head, next) := appendNode (Fintype.card B) b s.idequeue s.qnext
    some { s.goto p (some (.start, b)) with
      idequeue := head
      qnext := next
      reqs := s.reqs ++ [b]
      appended := s.appended ++ [b] }
  | .start =>
    if s.idequeue = some b then
      if s.ready = true then some (idestart (s.goto p (some (.wait, b))) b) else none
    else some (s.goto p (some (.wait, b)))
  | .wait =>
    if (s.buf b).synced = true then some (s.goto p (some (.leave, b)))
    else some { s.goto p (some (.asleep, b)) with idelock := none }
  | .asleep => none
  | .awake =>
    if s.idelock = none then
      some { s.goto p (some (.wait, b)) with idelock := some (.proc p) }
    else none
  | .leave => some { s.goto p none with idelock := none }

def wakeup (s : State P B D) (b : B) : State P B D :=
  { s with pc := fun p => if s.pc p = some (.asleep, b) then some (.awake, b) else s.pc p }

/-- The data of a buffer after `insl`, if it is called. -/
def transferred (x : Buf D) (c : Option (Cmd D)) : D :=
  if x.dirty = true then x.data else c.elim x.data Cmd.data

/-- The handler reads the data, marks the buffer, which is the first request, and wakes the
process that waits for it. -/
def State.marked (s : State P B D) (b : B) : State P B D :=
  { wakeup s b with
    handler := .next
    buf := update s.buf b
      { s.buf b with valid := true, dirty := false, data := transferred (s.buf b) s.cmd }
    cmd := none
    count := update s.count b (s.count b + 1)
    reqs := s.reqs.tail
    completed := s.completed ++ [b] }

def ideintr (s : State P B D) : Option (State P B D) :=
  match s.handler with
  | .idle => none
  | .enter =>
    if s.idelock = none then some { s with handler := .pop, idelock := some .intr } else none
  | .pop =>
    match s.idequeue with
    | none => some { s with handler := .leave }
    | some b => some { s with handler := .finish b, idequeue := s.qnext b }
  | .finish b => some (s.marked b)
  | .next =>
    match s.idequeue with
    | none => some { s with handler := .leave }
    | some b =>
      if s.ready = true then some (idestart { s with handler := .leave } b) else none
  | .leave => some { s with handler := .idle, idelock := none }

/-- The disk carries out the command and raises the interrupt. -/
def execute (s : State P B D) : Option (State P B D) :=
  match s.cmd with
  | none => none
  | some c =>
    if c.done = true then none
    else if c.write = true then
      some { s with
        disk := update s.disk c.place c.data
        cmd := some { c with done := true }
        irq := true }
    else
      some { s with
        cmd := some { c with done := true, data := s.disk c.place }
        irq := true }

/-- One step. -/
def step (s : State P B D) (a : Act P B D) : Option (State P B D) :=
  if s.panic = true then none
  else match a with
  | .lock p b x =>
    if s.lock b = none ∧ ∀ c, s.lock c ≠ none → (s.buf c).place ≠ x.place then
      some { s with
        lock := update s.lock b (some p)
        buf := update s.buf b x }
    else none
  | .edit p b valid dirty data =>
    if s.lock b = some p ∧ s.pc p = none then
      some { s with buf := update s.buf b { s.buf b with valid, dirty, data } }
    else none
  | .unlock p b =>
    if s.lock b = some p ∧ s.pc p = none then
      some { s with lock := update s.lock b none }
    else none
  | .call p b =>
    if s.pc p = none then
      if iderwPanics s p b = true then some { s with panic := true }
      else
        some { s.goto p (some (.enter, b)) with
          req := update s.req p (s.buf b)
          count := update s.count b 0 }
    else none
  | .next p => (s.pc p).bind fun r => iderw s p r.2 r.1
  | .kill p =>
    match s.pc p with
    | some (.asleep, b) => some (s.goto p (some (.awake, b)))
    | _ => none
  | .disk => execute s
  | .interrupt =>
    match s.handler with
    | .idle => if s.irq = true then some { s with handler := .enter, irq := false } else none
    | _ => none
  | .handle => ideintr s

/-- Nothing has been asked for. -/
structure Initial (s : State P B D) : Prop where
  lock : ∀ b, s.lock b = none
  idelock : s.idelock = none
  idequeue : s.idequeue = none
  pc : ∀ p, s.pc p = none
  handler : s.handler = .idle
  irq : s.irq = false
  cmd : s.cmd = none
  reqs : s.reqs = []
  appended : s.appended = []
  started : s.started = []
  completed : s.completed = []

/-- The driver, its callers and the disk. -/
def system (P B D : Type) [DecidableEq P] [DecidableEq B] [Fintype B] :
    Lts (State P B D) (Act P B D) where
  init := Initial
  step := step

end Xv6.Ide
