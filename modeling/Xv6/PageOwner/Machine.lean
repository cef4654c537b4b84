import Xv6.Exec.Load
import Xv6.Ftable.Table
import Xv6.SharedMem.Machine

/-!
# Who has which page

The calls that take pages from `kalloc` and give them back: `fork`, `exit` and `wait`
as in `SharedMem.step`, `exec`, `sbrk`, and the creation and closing of pipes.  One
call runs at a time; the calls on shared memory are left out.

`main` is the start of the kernel, as far as it allocates memory.
-/

namespace Xv6.PageOwner

open Xv6.Lib Xv6.Mem Xv6.SharedMem

variable {P : Type}

/-! ## `growproc` -/

/-- `growproc`: the result, the process and the allocator. -/
def growproc (L : Layout) (n : BitVec 32) (pr : Proc P) (k : Kmem) :
    Except Fault (ℤ × Proc P × Kmem) :=
  let newsz := (BitVec.ofNat 32 pr.sz + n).toNat
  if 0 < n.toInt then do
    let (sz, k, pd) ← allocuvm L pr.sz newsz k pr.pgdir
    if sz = 0 then pure (-1, { pr with pgdir := pd }, k)
    else pure (0, { pr with pgdir := pd, sz := sz }, k)
  else if n.toInt < 0 then do
    let (k, pd) ← deallocuvm L pr.sz newsz k pr.pgdir
    let sz := deallocSize pr.sz newsz
    -- a size of 0 looks like a failure, but the pages are gone
    if sz = 0 then pure (-1, { pr with pgdir := pd }, k)
    else pure (0, { pr with pgdir := pd, sz := sz }, k)
  else pure (0, pr, k)

/-! ## Pipes -/

/-- `struct pipe`, with the page it is in. -/
structure Pipe extends Ftable.Pipe where
  page : Page

/-- One end is closed. -/
def Pipe.close (x : Pipe) (writable : Bool) : Pipe := ⟨x.toPipe.close writable, x.page⟩

/-- `pipeclose`: the pipe, unless it was freed. -/
def pipeclose (L : Layout) (writable : Bool) (x : Pipe) (k : Kmem) :
    Except Fault (Option Pipe × Kmem) :=
  if (x.close writable).readopen = false ∧ (x.close writable).writeopen = false then do
    let k ← kfree L x.page k
    pure (none, k)
  else .ok (some (x.close writable), k)

/-- `fileclose` of both ends. -/
def closeBoth (L : Layout) (x : Pipe) (k : Kmem) : Except Fault (Option Pipe × Kmem) := do
  let (x, k) ← pipeclose L false x k
  match x with
  | none => pure (none, k)
  | some x => pipeclose L true x k

/-- `sys_pipe`: the new pipe, if there is one; `files` says whether `filealloc`, `fds`
whether `fdalloc` finds room. -/
def sysPipe (L : Layout) (files fds : Bool) (k : Kmem) : Except Fault (Option Pipe × Kmem) :=
  if files = false then .ok (none, k)
  else
    match kalloc .kernel k with
    | none => .ok (none, k)
    | some (p, k) =>
      if fds = true then .ok (some ⟨⟨true, true⟩, p⟩, k) else closeBoth L ⟨⟨true, true⟩, p⟩ k

/-! ## The machine -/

/-- The processes and the allocator, and the pipes that are open. -/
structure State (P : Type) where
  mem : SharedMem.State P
  pipes : List Pipe

/-- The calls. -/
inductive Act (P : Type)
  /-- `fork`, with the `UNUSED` slot `c` for the child. -/
  | fork (p c : P)
  | exit (p : P)
  /-- `wait`, reaping the child `c`. -/
  | wait (p c : P)
  /-- `exec` of a file with any contents. -/
  | exec (p : P) (file path : List UInt8) (argv : List (List UInt8))
  | sbrk (p : P) (n : BitVec 32)
  | pipe (files fds : Bool)
  /-- `pipeclose` of an end of the pipe at place `i`. -/
  | close (i : ℕ) (writable : Bool)

variable [DecidableEq P]

/-- The process table after process `p` has changed. -/
def State.setProc (s : State P) (p : P) (pr : Proc P) (k : Kmem) : State P :=
  { s with mem := { s.mem with kmem := k, proc := Function.update s.mem.proc p (some pr) } }

/-- The pipes have changed. -/
def State.setPipes (s : State P) (pipes : List Pipe) (k : Kmem) : State P :=
  ⟨{ s.mem with kmem := k }, pipes⟩

/-- The call panicked. -/
def State.stop (s : State P) (f : Fault) : State P := { s with mem := s.mem.stop f }

/-- `exec` by process `p`. -/
def stepExec (L : Layout) (s : State P) (p : P) (pr : Proc P) (file path : List UInt8)
    (argv : List (List UInt8)) : State P :=
  match Exec.execMem L (fun off n => .ok (Exec.readAt file off n)) path argv
      ⟨pr.pgdir, pr.sz, [], 0, 0⟩ s.mem.kmem with
  | .error (.mem f) => s.stop f
  | .error _ => s.stop .trap
  | .ok (_, new, k) => s.setProc p { pr with pgdir := new.pgdir, sz := new.sz } k

/-- `sys_sbrk` by process `p`. -/
def stepSbrk (L : Layout) (s : State P) (p : P) (pr : Proc P) (n : BitVec 32) : State P :=
  match growproc L n pr s.mem.kmem with
  | .error f => s.stop f
  | .ok (_, pr, k) => s.setProc p pr k

def stepPipe (L : Layout) (s : State P) (files fds : Bool) : State P :=
  match sysPipe L files fds s.mem.kmem with
  | .error f => s.stop f
  | .ok (x, k) => s.setPipes (x.toList ++ s.pipes) k

/-- `pipeclose` of the pipe `x` between two others. -/
def stepClose (L : Layout) (s : State P) (before after : List Pipe) (x : Pipe) (writable : Bool) :
    State P :=
  match pipeclose L writable x s.mem.kmem with
  | .error f => s.stop f
  | .ok (x, k) => s.setPipes (before ++ x.toList ++ after) k

/-- One call. -/
def step (L : Layout) (initproc : P) (s : State P) (a : Act P) : Option (State P) :=
  if s.mem.fault.isSome then none
  else match a with
  | .fork p c => (SharedMem.step L initproc s.mem (.fork p c)).map fun m => { s with mem := m }
  | .exit p => (SharedMem.step L initproc s.mem (.exit p)).map fun m => { s with mem := m }
  | .wait p c => (SharedMem.step L initproc s.mem (.wait p c)).map fun m => { s with mem := m }
  | .exec p file path argv =>
    -- strings of an address space
    if ∀ x ∈ argv, x.length + 1 < 4294967296 then
      (s.mem.live p).map fun pr => stepExec L s p pr file path argv
    else none
  | .sbrk p n => (s.mem.live p).map fun pr => stepSbrk L s p pr n
  | .pipe files fds => some (stepPipe L s files fds)
  | .close i writable =>
    match s.pipes.drop i with
    | [] => none
    | x :: after => some (stepClose L s (s.pipes.take i) after x writable)

/-! ## The start -/

/-- `P2V(4*1024*1024)`, as a page. -/
def KINIT : Page := 0x80400#20

/-- `kvmalloc`; without memory the kernel would load a null page directory. -/
def kvmalloc (L : Layout) (k : Kmem) : Except Fault (Pgdir × Kmem) := do
  let (pd, k) ← setupkvm L k
  match pd with
  | none => .error .trap
  | some pd => pure (pd, k)

/-- `startothers`, for `n` other processors: their stacks. -/
def startothers : ℕ → Kmem → List Page × Kmem
  | 0, k => ([], k)
  | n + 1, k =>
    match kalloc .kernel k with
    | none => startothers n k
    | some (stack, k) =>
      let (aps, k) := startothers n k
      (stack :: aps, k)

/-- `userinit`: the first process, and the page `inituvm` could not map, if there is
one. -/
def userinit (L : Layout) (k : Kmem) : Except Fault (Proc P × List Page × Kmem) :=
  match kalloc .kernel k with
  | none => .error .trap
  | some (kstack, k) => do
      let (pd, k) ← setupkvm L k
      match pd with
      | none => .error .userinit
      | some pd =>
        let (mem, ok, k, pd) ← inituvm k pd
        pure (⟨false, none, PGSIZE, pd, kstack⟩, if ok = true then [] else [mem], k)

/-- An empty allocator. -/
def Kmem.empty : Kmem := ⟨[], fun _ _ => 0, fun _ => none⟩

/-- The machine with one process and no pipes. -/
def State.first (initproc : P) (pr : Proc P) (k : Kmem) : State P where
  mem :=
    { kmem := k
      pages := fun _ => ⟨0, 0⟩
      lock := none
      proc := Function.update (fun _ => none) initproc (some pr)
      pc := fun _ => .user
      fault := none
      opens := fun _ _ => 0
      closes := fun _ _ => 0
      zeroed := fun _ => []
      freed := fun _ => []
      reaped := fun _ => false }
  pipes := []

/-- `main`, on a machine with `ncpu` processors, up to the first process, and the
pages that stay with the kernel: those of `kpgdir`, the stacks of the other
processors and the page `inituvm` lost. -/
def main (L : Layout) (ncpu : ℕ) (initproc : P) : Except Fault (State P × Pgdir × List Page) := do
  let k ← freerange L L.kend KINIT Kmem.empty
  let (kpgdir, k) ← kvmalloc L k
  let (aps, k) := startothers (ncpu - 1) k
  let k ← freerange L KINIT (P2V PHYSTOP) k
  let (pr, lost, k) ← userinit L k
  pure (State.first initproc pr k, kpgdir, aps ++ lost)

/-- All runs from a state on. -/
def system (L : Layout) (initproc : P) (s : State P) : Lts (State P) (Act P) where
  init t := t = s
  step := step L initproc

end Xv6.PageOwner
