import Xv6.Fs.Inode

/-!
# The inode cache, step by step

The part of `fs.c` that decides which cache entry stands for which inode, and for
how long: `iget`, `idup`, `ilock`, `iunlock`, `iput` and `ialloc`, run by any
number of processes.

* A step is what happens between two moments at which another process may come
  in.  `iget`, `idup` and the decrement of `ref` are one step each, under
  `icache.lock`; `iput` looks at `ref`, truncates the inode, clears its type,
  invalidates the entry, releases the sleep-lock and decrements `ref` in this
  order, and others may run in between.  `ialloc` marks an inode on the disk and
  gets a reference to it afterwards.
* `disk` is what the inode blocks hold as seen through the buffer cache.
* What a process does with an inode it has locked is one step, `update`: it
  changes fields and calls `iupdate`.  It does not change the type.
-/

namespace Xv6.Icache

open Xv6.Lib Xv6.Fs Function

/-- The device and the number of an inode. -/
abbrev Key := UInt32 × UInt32

structure Entry where
  key : Key
  ref : ℕ
  /-- The inode has been read from the disk. -/
  valid : Bool
  copy : Dinode

/-- Where a process is. -/
inductive Place (N : ℕ)
  /-- Outside the functions of the inode cache. -/
  | idle
  | loading (i : Fin N)
  /-- In `iput`, with the lock, before the check of `nlink` and `ref`. -/
  | checking (i : Fin N)
  | truncating (i : Fin N)
  /-- Before the `iupdate` that clears the type. -/
  | clearing (i : Fin N)
  | invalidating (i : Fin N)
  /-- Before `releasesleep`; whether the inode has been freed. -/
  | releasing (i : Fin N) (freed : Bool)
  /-- Before `ip->ref--`; whether the inode has been freed. -/
  | dropping (i : Fin N) (freed : Bool)
  /-- In `ialloc`, before `iget` of the inode it has found. -/
  | allocated (k : Key)
  deriving DecidableEq

/-- The inode cache of `N` entries, the disk, and `P` processes. -/
structure State (N : ℕ) (P : Type) where
  entry : Fin N → Entry
  /-- `ip->lock`: the process that holds it. -/
  lock : Fin N → Option P
  disk : Key → Dinode
  /-- How many references to an entry a process has. -/
  refs : P → Fin N → ℕ
  place : P → Place N

variable {N : ℕ} {P : Type}

/-! ## The functions -/

/-- The search of `iget`: the entry of the inode. -/
def State.cached (s : State N P) (k : Key) : Option (Fin N) :=
  (List.finRange N).find? fun i => 0 < (s.entry i).ref ∧ (s.entry i).key = k

/-- The search of `iget`: an empty entry. -/
def State.empty (s : State N P) : Option (Fin N) :=
  (List.finRange N).find? fun i => (s.entry i).ref = 0

/-- `iget` under `icache.lock`: the entry and its new contents; `none` is the
panic "iget: no inodes". -/
def State.iget (s : State N P) (k : Key) : Option (Fin N × Entry) :=
  match s.cached k with
  | some i => some (i, { s.entry i with ref := (s.entry i).ref + 1 })
  | none => s.empty.map fun i => (i, { s.entry i with key := k, ref := 1, valid := false })

/-- The size and the block numbers after `itrunc`. -/
def truncated (d : Dinode) : Dinode := { d with size := 0, addrs := fun _ => 0 }

def cleared (d : Dinode) : Dinode := { d with type := 0 }

/-- What `ialloc` writes: a zeroed inode of the type. -/
def fresh (type : ℤ) : Dinode := { Dinode.zero with type }

/-! ## The machine -/

/-- What a process does next. -/
inductive Act (N : ℕ) (P : Type)
  | iget (p : P) (k : Key)
  | idup (p : P) (i : Fin N)
  | ilock (p : P) (i : Fin N)
  | load (p : P)
  /-- The holder of the lock changes the inode and calls `iupdate`. -/
  | update (p : P) (i : Fin N) (d : Dinode)
  | iunlock (p : P) (i : Fin N)
  | iput (p : P) (i : Fin N)
  /-- `ip->valid && ip->nlink == 0`, and `ip->ref` under `icache.lock`. -/
  | check (p : P)
  | itrunc (p : P)
  | clear (p : P)
  | invalidate (p : P)
  | release (p : P)
  | drop (p : P)
  /-- `ialloc` finds a free inode and marks it. -/
  | ialloc (p : P) (k : Key) (type : ℤ)
  /-- `iget` at the end of `ialloc`. -/
  | getNew (p : P)

variable [DecidableEq P]

/-- The process goes to another place. -/
def State.goto (s : State N P) (p : P) (x : Place N) : State N P :=
  { s with place := update s.place p x }

/-- Assign to an entry. -/
def State.setEntry (s : State N P) (i : Fin N) (e : Entry) : State N P :=
  { s with entry := update s.entry i e }

/-- Assign to a lock. -/
def State.setLock (s : State N P) (i : Fin N) (o : Option P) : State N P :=
  { s with lock := update s.lock i o }

/-- Write an inode. -/
def State.setDisk (s : State N P) (k : Key) (d : Dinode) : State N P :=
  { s with disk := update s.disk k d }

/-- Process `p` has `n` references to entry `i`. -/
def State.setRefs (s : State N P) (p : P) (i : Fin N) (n : ℕ) : State N P :=
  { s with refs := update s.refs p (update (s.refs p) i n) }

/-- `iget` by process `p`. -/
def State.get (s : State N P) (p : P) (k : Key) : Option (State N P) :=
  (s.iget k).map fun r => (s.setEntry r.1 r.2).setRefs p r.1 (s.refs p r.1 + 1)

/-- Change the copy of an inode, and write it to the disk. -/
def State.write (s : State N P) (i : Fin N) (d : Dinode) : State N P :=
  (s.setEntry i { s.entry i with copy := d }).setDisk (s.entry i).key d

/-- Process `p` has a reference to the inode. -/
def State.Knows (s : State N P) (p : P) (k : Key) : Prop :=
  ∃ i, 0 < s.refs p i ∧ (s.entry i).key = k

instance (s : State N P) (p : P) (k : Key) : Decidable (s.Knows p k) :=
  inferInstanceAs (Decidable (∃ i, 0 < s.refs p i ∧ (s.entry i).key = k))

/-- One step.  A process that must wait or panics has none; `iget` is called for
an inode with links or one the caller has a reference to. -/
def step (s : State N P) : Act N P → Option (State N P)
  | .iget p k =>
    if s.place p = .idle ∧ (0 < (s.disk k).nlink ∨ s.Knows p k) then s.get p k else none
  | .idup p i =>
    if s.place p = .idle ∧ 0 < s.refs p i then
      some ((s.setEntry i { s.entry i with ref := (s.entry i).ref + 1 }).setRefs p i
        (s.refs p i + 1))
    else none
  | .ilock p i =>
    if s.place p = .idle ∧ 0 < s.refs p i ∧ s.lock i = none then
      some ((s.setLock i (some p)).goto p (.loading i))
    else none
  | .load p =>
    match s.place p with
    | .loading i =>
      if (s.entry i).valid = true then some (s.goto p .idle)
      else if (s.disk (s.entry i).key).type = 0 then none
      else
        some ((s.setEntry i
          { s.entry i with copy := s.disk (s.entry i).key, valid := true }).goto p .idle)
    | _ => none
  | .update p i d =>
    if s.place p = .idle ∧ s.lock i = some p ∧ d.type = (s.entry i).copy.type then
      some (s.write i d)
    else none
  | .iunlock p i =>
    if s.place p = .idle ∧ s.lock i = some p then some (s.setLock i none) else none
  | .iput p i =>
    if s.place p = .idle ∧ 0 < s.refs p i ∧ s.lock i = none then
      some ((s.setLock i (some p)).goto p (.checking i))
    else none
  | .check p =>
    match s.place p with
    | .checking i =>
      if (s.entry i).valid = true ∧ (s.entry i).copy.nlink = 0 ∧ (s.entry i).ref = 1 then
        some (s.goto p (.truncating i))
      else some (s.goto p (.releasing i false))
    | _ => none
  | .itrunc p =>
    match s.place p with
    | .truncating i => some ((s.write i (truncated (s.entry i).copy)).goto p (.clearing i))
    | _ => none
  | .clear p =>
    match s.place p with
    | .clearing i => some ((s.write i (cleared (s.entry i).copy)).goto p (.invalidating i))
    | _ => none
  | .invalidate p =>
    match s.place p with
    | .invalidating i =>
      some ((s.setEntry i { s.entry i with valid := false }).goto p (.releasing i true))
    | _ => none
  | .release p =>
    match s.place p with
    | .releasing i freed => some ((s.setLock i none).goto p (.dropping i freed))
    | _ => none
  | .drop p =>
    match s.place p with
    | .dropping i _ =>
      some (((s.setEntry i { s.entry i with ref := (s.entry i).ref - 1 }).setRefs p i
        (s.refs p i - 1)).goto p .idle)
    | _ => none
  | .ialloc p k type =>
    if s.place p = .idle ∧ (s.disk k).type = 0 ∧ type ≠ 0 then
      some ((s.setDisk k (fresh type)).goto p (.allocated k))
    else none
  | .getNew p =>
    match s.place p with
    | .allocated k => (s.get p k).map fun t => t.goto p .idle
    | _ => none

/-- An empty cache over a disk. -/
def boot (N : ℕ) (P : Type) (disk : Key → Dinode) : State N P where
  entry _ := ⟨(0, 0), 0, false, .zero⟩
  lock _ := none
  disk := disk
  refs _ _ := 0
  place _ := .idle

/-- All runs, from a disk on which free inodes have no links. -/
def system (N : ℕ) (P : Type) [DecidableEq P] : Lts (State N P) (Act N P) where
  init s := ∃ disk, (∀ k, (disk k).type = 0 → (disk k).nlink = 0) ∧ s = boot N P disk
  step := step

end Xv6.Icache
