import Xv6.Lib.Threads
import Xv6.Param

/-!
# Open files

`ftable`, the descriptor tables of the processes and the pipes, with the functions
of `file.c`, `pipe.c`, `sysfile.c` and `proc.c` that open, share and close files.

* Processes are slots of `ptable`, pages are the pages `kalloc` gives out.  Any
  process may come in between two operations; what a process does to its own
  descriptors nobody else sees.
* `create`, `namei`, the copy of the memory in `fork` and every `kalloc` may fail
  for reasons not modelled here: the code then asks for `luck`, which may be
  anything.
* The state carries a history that no function reads: how often a file was given a
  type, and how often `pipeclose` or `iput` was called for it; how often a page
  became a pipe, and how often it was freed.  `fault` records an access to a page
  that is not a pipe at the time.
-/

namespace Xv6.Ftable

open Xv6.Lib Function

/-! ## State -/

/-- An entry of `ftable`. -/
abbrev FileId := Fin NFILE

instance : NeZero NFILE := ⟨by decide⟩

/-- A descriptor. -/
abbrev Fd := Fin NOFILE

inductive FileType
  | FD_NONE
  | FD_PIPE
  | FD_INODE
  deriving DecidableEq

/-- `struct file`, on `m` pages. -/
structure File (m : ℕ) where
  type : FileType
  ref : ℕ
  readable : Bool
  writable : Bool
  /-- `f->pipe`, when the file is one. -/
  pipe : Option (Fin m)
  ip : ℕ

/-- `struct pipe`, as far as closing it goes. -/
structure Pipe where
  readopen : Bool
  writeopen : Bool
  deriving DecidableEq

/-- `p->state`; what runs, sleeps or is ready is `RUNNING` here. -/
inductive ProcState
  | UNUSED
  | EMBRYO
  | RUNNING
  | ZOMBIE
  deriving DecidableEq

/-- `n` processes and `m` pages. -/
structure State (n m : ℕ) where
  file : FileId → File m
  ofile : Fin n → Fd → Option FileId
  state : Fin n → ProcState
  pipe : Fin m → Option Pipe
  /-- The pipe a process is in `piperead` or `pipewrite` on. -/
  inside : Fin n → Option (Fin m)
  /-- What turns out when the code asks. -/
  luck : ℕ → ℕ
  asked : ℕ
  /-- How often the file was given a type. -/
  opened : FileId → ℕ
  /-- How often `pipeclose` or `iput` was called for it. -/
  released : FileId → ℕ
  /-- How often the page became a pipe. -/
  made : Fin m → ℕ
  freed : Fin m → ℕ
  /-- A page was used that was no pipe then. -/
  fault : Bool

variable {n m : ℕ}

/-! ## Operations -/

/-- What happens at one moment. -/
inductive Op (n m : ℕ)
  /-- Something that may go wrong: `0` if it does. -/
  | luck
  | filealloc
  | filedup (f : FileId)
  /-- `fileclose`, under `ftable.lock`. -/
  | fileclose (f : FileId)
  /-- Fill in the fields of a new file. -/
  | setfile (f : FileId) (type : FileType) (readable writable : Bool) (pipe : Option (Fin m))
      (ip : ℕ)
  | getfile (f : FileId)
  | fdalloc (f : FileId)
  | getfd (fd : Fd)
  | clearfd (fd : Fd)
  /-- `kalloc` in `pipealloc`, and setting up the pipe. -/
  | makepipe
  /-- `pipeclose` of one end, under `p->lock`, called for file `f`. -/
  | pipeclose (f : FileId) (pg : Fin m) (writable : Bool)
  | kfree (pg : Fin m)
  | iput (f : FileId) (ip : ℕ)
  /-- The call of `piperead` or `pipewrite`. -/
  | enter (f : FileId) (pg : Fin m)
  | touch (pg : Fin m)
  /-- The return from `piperead` or `pipewrite`. -/
  | leave
  /-- `allocproc`, up to `p->state = EMBRYO`. -/
  | allocproc
  | unalloc (np : Fin n)
  | setchild (np : Fin n) (fd : Fd) (f : FileId)
  | run (np : Fin n)
  | zombie
  /-- `p->state = UNUSED` in `wait`. -/
  | reap (p : Fin n)

/-- The result of an operation. -/
def Res : Op n m → Type
  | .luck => ℕ
  | .filealloc => Option FileId
  | .filedup _ => Bool
  | .fileclose _ => Option (Option (File m))
  | .getfile _ => File m
  | .fdalloc _ => Option Fd
  | .getfd _ => Option FileId
  | .makepipe => Option (Fin m)
  | .pipeclose _ _ _ => Bool
  | .allocproc => Option (Fin n)
  | _ => PUnit

/-- Assign to a file. -/
def State.setFile (s : State n m) (f : FileId) (x : File m) : State n m :=
  { s with file := update s.file f x }

/-- A file is given a type. -/
def State.openFile (s : State n m) (f : FileId) (x : File m) : State n m :=
  { s.setFile f x with opened := update s.opened f (s.opened f + 1) }

/-- Assign to a page. -/
def State.setPipe (s : State n m) (pg : Fin m) (x : Option Pipe) : State n m :=
  { s with pipe := update s.pipe pg x }

/-- A page becomes a pipe. -/
def State.makePipe (s : State n m) (pg : Fin m) : State n m :=
  { s.setPipe pg (some ⟨true, true⟩) with made := update s.made pg (s.made pg + 1) }

/-- A pipe's page is freed. -/
def State.freePipe (s : State n m) (pg : Fin m) : State n m :=
  { s.setPipe pg none with freed := update s.freed pg (s.freed pg + 1) }

/-- Assign to a descriptor. -/
def State.setFd (s : State n m) (p : Fin n) (fd : Fd) (x : Option FileId) : State n m :=
  { s with ofile := update s.ofile p (update (s.ofile p) fd x) }

/-- Assign to `p->state`. -/
def State.setState (s : State n m) (p : Fin n) (x : ProcState) : State n m :=
  { s with state := update s.state p x }

/-- A process enters or leaves a pipe. -/
def State.setInside (s : State n m) (p : Fin n) (x : Option (Fin m)) : State n m :=
  { s with inside := update s.inside p x }

/-- The page is accessed. -/
def State.access (s : State n m) (pg : Fin m) : State n m :=
  { s with fault := s.fault || (s.pipe pg).isNone }

/-- The next answer is used up. -/
def State.ask (s : State n m) : State n m := { s with asked := s.asked + 1 }

/-- One end of a pipe is closed. -/
def Pipe.close (x : Pipe) (writable : Bool) : Pipe :=
  if writable = true then { x with writeopen := false } else { x with readopen := false }

/-- `pipeclose` or `iput` is called for a file. -/
def State.release (s : State n m) (f : FileId) : State n m :=
  { s with released := update s.released f (s.released f + 1) }

/-- The first entry of `ftable` that is not used. -/
def State.freeFile (s : State n m) : Option FileId :=
  (List.finRange NFILE).find? fun f => (s.file f).ref = 0

/-- The first page `kalloc` could give out. -/
def State.freePage (s : State n m) : Option (Fin m) :=
  (List.finRange m).find? fun pg => (s.pipe pg).isNone

/-- **What an operation of process `p` does.** -/
def sem (p : Fin n) : (o : Op n m) → State n m → Option (Res o × State n m)
  | .luck, s => some (s.luck s.asked, s.ask)
  | .filealloc, s =>
    match s.freeFile with
    | none => some (none, s)
    | some f => some (some f, s.setFile f { s.file f with ref := 1 })
  | .filedup f, s =>
    if (s.file f).ref < 1 then some (false, s)
    else some (true, s.setFile f { s.file f with ref := (s.file f).ref + 1 })
  | .fileclose f, s =>
    if (s.file f).ref < 1 then some (none, s)
    else if 0 < (s.file f).ref - 1 then
      some (some none, s.setFile f { s.file f with ref := (s.file f).ref - 1 })
    else
      some (some (some (s.file f)), s.setFile f { s.file f with ref := 0, type := .FD_NONE })
  | .setfile f type readable writable pipe ip, s =>
    some (⟨⟩, s.openFile f { s.file f with type, readable, writable, pipe, ip })
  | .getfile f, s => some (s.file f, s)
  | .fdalloc f, s =>
    match (List.finRange NOFILE).find? fun fd => (s.ofile p fd).isNone with
    | none => some (none, s)
    | some fd => some (some fd, s.setFd p fd (some f))
  | .getfd fd, s => some (s.ofile p fd, s)
  | .clearfd fd, s => some (⟨⟩, s.setFd p fd none)
  | .makepipe, s =>
    if s.luck s.asked = 0 then some (none, s.ask)
    else
      match s.freePage with
      | none => some (none, s.ask)
      | some pg => some (some pg, s.ask.makePipe pg)
  | .pipeclose f pg writable, s =>
    match s.pipe pg with
    | none => some (false, (s.access pg).release f)
    | some x =>
      some (decide (x.close writable = ⟨false, false⟩),
        (s.setPipe pg (some (x.close writable))).release f)
  | .kfree pg, s =>
    some (⟨⟩, (s.access pg).freePipe pg)
  | .iput f _, s => some (⟨⟩, s.release f)
  | .enter _ pg, s => some (⟨⟩, (s.access pg).setInside p (some pg))
  | .touch pg, s => some (⟨⟩, s.access pg)
  | .leave, s => some (⟨⟩, s.setInside p none)
  | .allocproc, s =>
    match (List.finRange n).find? fun q => s.state q = .UNUSED with
    | none => some (none, s)
    | some np => some (some np, s.setState np .EMBRYO)
  | .unalloc np, s => some (⟨⟩, s.setState np .UNUSED)
  | .setchild np fd f, s => some (⟨⟩, s.setFd np fd (some f))
  | .run np, s => some (⟨⟩, s.setState np .RUNNING)
  | .zombie, s => some (⟨⟩, s.setState p .ZOMBIE)
  | .reap q, s => if s.state q = .ZOMBIE then some (⟨⟩, s.setState q .UNUSED) else none

/-! ## `file.c` and `pipe.c` -/

/-- The panics on the way. -/
inductive Panic
  /-- "filedup" -/
  | filedup
  /-- "fileclose" -/
  | fileclose
  /-- "fileread" or "filewrite" -/
  | fileio
  deriving DecidableEq

/-- Kernel code on files. -/
abbrev K (n m : ℕ) (α : Type) := Code (Op n m) Res Panic α

/-- One operation. -/
def ask (o : Op n m) : K n m (Res o) := Code.ask o

def filedup (f : FileId) : K n m PUnit := do
  let ok : Bool ← ask (.filedup f)
  if ok = true then pure ⟨⟩ else .panic .filedup

/-- `pipeclose`, for file `f`. -/
def pipeclose (f : FileId) (pg : Fin m) (writable : Bool) : K n m PUnit := do
  let last : Bool ← ask (.pipeclose f pg writable)
  if last = true then ask (.kfree pg) else pure ⟨⟩

/-- What `fileclose` does with the last copy of the file. -/
def finish (f : FileId) (ff : File m) : K n m PUnit :=
  match ff.type, ff.pipe with
  | .FD_PIPE, some pg => pipeclose f pg ff.writable
  | .FD_INODE, _ => ask (.iput f ff.ip)
  | _, _ => pure ⟨⟩

def fileclose (f : FileId) : K n m PUnit := do
  let r : Option (Option (File m)) ← ask (.fileclose f)
  match r with
  | none => .panic .fileclose
  | some none => pure ⟨⟩
  | some (some ff) => finish f ff

/-- `pipealloc`: the read end and the write end. -/
def pipealloc : K n m (Option (FileId × FileId)) := do
  let f0 : Option FileId ← ask .filealloc
  match f0 with
  | none => pure none
  | some f0 =>
    let f1 : Option FileId ← ask .filealloc
    match f1 with
    | none =>
      fileclose f0
      pure none
    | some f1 =>
      let p : Option (Fin m) ← ask .makepipe
      match p with
      | none =>
        fileclose f0
        fileclose f1
        pure none
      | some p =>
        let _ ← ask (.setfile f0 .FD_PIPE true false (some p) 0)
        let _ ← ask (.setfile f1 .FD_PIPE false true (some p) 0)
        pure (some (f0, f1))

/-- So many accesses of `piperead` or `pipewrite` to the pipe. -/
def accesses (pg : Fin m) : ℕ → K n m PUnit
  | 0 => pure ⟨⟩
  | k + 1 => do
      let _ ← ask (.touch pg)
      accesses pg k

/-- `fileread` and `filewrite`; `may` is the flag they check. -/
def fileio (f : FileId) (may : File m → Bool) (rounds : ℕ) : K n m ℤ := do
  let x : File m ← ask (.getfile f)
  if may x = false then pure (-1)
  else
    match x.type, x.pipe with
    | .FD_PIPE, some pg =>
      let _ ← ask (.enter f pg)
      accesses pg rounds
      let _ ← ask .leave
      pure 0
    | .FD_INODE, _ => pure 0
    | _, _ => .panic .fileio

/-! ## `sysfile.c` -/

/-- `sys_open`; the inode is the answer less one. -/
def sysOpen (omode : UInt32) : K n m ℤ := do
  let ip : ℕ ← ask .luck
  if ip = 0 then pure (-1)
  else
    let f : Option FileId ← ask .filealloc
    match f with
    | none => pure (-1)
    | some f =>
      let fd : Option Fd ← ask (.fdalloc f)
      match fd with
      | none =>
        fileclose f
        pure (-1)
      | some fd =>
        let _ ← ask (.setfile f .FD_INODE (omode &&& O_WRONLY = 0)
          (omode &&& O_WRONLY ≠ 0 ∨ omode &&& O_RDWR ≠ 0) none (ip - 1))
        pure fd.val

def sysPipe : K n m ℤ := do
  let ends ← pipealloc
  match ends with
  | none => pure (-1)
  | some (rf, wf) =>
    let fd0 : Option Fd ← ask (.fdalloc rf)
    match fd0 with
    | none =>
      fileclose rf
      fileclose wf
      pure (-1)
    | some fd0 =>
      let fd1 : Option Fd ← ask (.fdalloc wf)
      match fd1 with
      | none =>
        let _ ← ask (.clearfd fd0)
        fileclose rf
        fileclose wf
        pure (-1)
      | some _ => pure 0

def sysDup (fd : Fd) : K n m ℤ := do
  let f : Option FileId ← ask (.getfd fd)
  match f with
  | none => pure (-1)
  | some f =>
    let fd : Option Fd ← ask (.fdalloc f)
    match fd with
    | none => pure (-1)
    | some fd =>
      filedup f
      pure fd.val

def sysClose (fd : Fd) : K n m ℤ := do
  let f : Option FileId ← ask (.getfd fd)
  match f with
  | none => pure (-1)
  | some f =>
    let _ ← ask (.clearfd fd)
    fileclose f
    pure 0

/-- `sys_read`, with so many accesses to the pipe if it is one. -/
def sysRead (fd : Fd) (rounds : ℕ) : K n m ℤ := do
  let f : Option FileId ← ask (.getfd fd)
  match f with
  | none => pure (-1)
  | some f => fileio f File.readable rounds

def sysWrite (fd : Fd) (rounds : ℕ) : K n m ℤ := do
  let f : Option FileId ← ask (.getfd fd)
  match f with
  | none => pure (-1)
  | some f => fileio f File.writable rounds

/-! ## `proc.c` -/

/-- The loop of `fork` over the descriptors. -/
def dupEach (np : Fin n) : List Fd → K n m PUnit
  | [] => pure ⟨⟩
  | fd :: fds => do
      let f : Option FileId ← ask (.getfd fd)
      match f with
      | none => dupEach np fds
      | some f =>
        filedup f
        let _ ← ask (.setchild np fd f)
        dupEach np fds

def fork : K n m ℤ := do
  let np : Option (Fin n) ← ask .allocproc
  match np with
  | none => pure (-1)
  | some np =>
    let kstack : ℕ ← ask .luck
    if kstack = 0 then
      let _ ← ask (.unalloc np)
      pure (-1)
    else
      let pgdir : ℕ ← ask .luck
      if pgdir = 0 then
        let _ ← ask (.unalloc np)
        pure (-1)
      else
        dupEach np (List.finRange NOFILE)
        let _ ← ask (.run np)
        pure 1

/-- The loop of `exit` over the descriptors. -/
def closeEach : List Fd → K n m PUnit
  | [] => pure ⟨⟩
  | fd :: fds => do
      let f : Option FileId ← ask (.getfd fd)
      match f with
      | none => closeEach fds
      | some f =>
        fileclose f
        let _ ← ask (.clearfd fd)
        closeEach fds

/-- `exit`, as far as files go. -/
def exit : K n m ℤ := do
  closeEach (List.finRange NOFILE)
  let _ ← ask .zombie
  pure 0

/-! ## The machine -/

/-- A system call. -/
inductive Call (n : ℕ)
  | open (omode : UInt32)
  | pipe
  | dup (fd : Fd)
  | close (fd : Fd)
  | read (fd : Fd) (rounds : ℕ)
  | write (fd : Fd) (rounds : ℕ)
  | fork
  | exit
  /-- `wait`, when it finds the child `p`. -/
  | wait (p : Fin n)

/-- The code of a system call. -/
def Call.body : Call n → K n m ℤ
  | .open omode => sysOpen omode
  | .pipe => sysPipe
  | .dup fd => sysDup fd
  | .close fd => sysClose fd
  | .read fd rounds => sysRead fd rounds
  | .write fd rounds => sysWrite fd rounds
  | .fork => Ftable.fork
  | .exit => Ftable.exit
  | .wait p => do
      let _ ← ask (.reap p)
      pure 0

/-- The kernel; only a running process makes calls. -/
def kernel (n m : ℕ) : Kernel (Fin n) (State n m) (Op n m) Res Panic ℤ (Call n) where
  sem := sem
  may s p _ := decide (s.state p = .RUNNING)
  body := Call.body

/-- No file is open; some processes run. -/
def boot (n m : ℕ) (running : Fin n → Bool) (luck : ℕ → ℕ) :
    Threads (Fin n) (State n m) (Op n m) Res Panic ℤ where
  shared :=
    { file := fun _ => ⟨.FD_NONE, 0, false, false, none, 0⟩
      ofile := fun _ _ => none
      state := fun p => if running p = true then .RUNNING else .UNUSED
      pipe := fun _ => none
      inside := fun _ => none
      luck := luck
      asked := 0
      opened := fun _ => 0
      released := fun _ => 0
      made := fun _ => 0
      freed := fun _ => 0
      fault := false }
  code _ := .ret 0

/-- All runs, whatever fails. -/
def system (n m : ℕ) : Lts (Threads (Fin n) (State n m) (Op n m) Res Panic ℤ) (Sched (Fin n) (Call n)) :=
  (kernel n m).system fun s => ∃ running luck, s = boot n m running luck

end Xv6.Ftable
