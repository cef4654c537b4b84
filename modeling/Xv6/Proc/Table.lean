import Xv6.Lib.Lts
import Xv6.Lib.Owner

/-!
# The process table and the scheduler

The process table, the CPUs and the code of `proc.c` that runs on them:
`scheduler`, `sched`, `yield`, `forkret`, `sleep`, `wakeup`, `kill`, `allocproc`,
`fork`, `exit` and `wait`.

`ptable.lock` belongs to the CPU whose current thread holds it; it is handed from
thread to thread across `swtch`.  A critical section is cut where one thread hands
over to the next and where `wait` goes round its loop, so a state in which the
lock is free is a state between critical sections.  What the source does without
the lock is a step of its own: the allocations of `fork`, the store of
`np->parent`, and `np->state = UNUSED` when an allocation fails.

The scheduler may pick any `RUNNABLE` process, which covers the order of its loop.
A process may make any call at any time, and is preempted at any point where it
does not hold the lock.

Not fields of the source: `birth` numbers the processes in the order in which
`allocproc` created them, `forker` is the number of the process that forked this
one, and `forked` and `reaped` record the numbers and pids of all children
created by `fork` and returned by `wait`.
-/

namespace Xv6.Proc

open Xv6.Lib Function List

inductive ProcState
  | unused
  | embryo
  | sleeping
  | runnable
  | running
  | zombie
  deriving DecidableEq

/-- An address to sleep on: a slot of the process table, or something else. -/
inductive Chan (N : ℕ)
  | proc (p : Fin N)
  | other (n : ℕ)
  deriving DecidableEq

/-- The fields of `struct proc` that the code of `proc.c` decides by. -/
structure Slot (N : ℕ) where
  state : ProcState
  pid : ℤ
  parent : Option (Fin N)
  chan : Option (Chan N)
  killed : Bool
  kstack : Bool
  birth : ℕ
  /-- The number of the process that forked it. -/
  forker : ℕ
  deriving DecidableEq

/-- Where the code of a process is, outside `ptable.lock`. -/
inductive Kpc (N : ℕ)
  | user
  /-- In `allocproc`, with slot `np`, before `kalloc`. -/
  | forking (np : Fin N)
  | stacked (np : Fin N)
  /-- In `fork`, `np->parent` stored, before the last critical section. -/
  | copied (np : Fin N)
  deriving DecidableEq

/-- The slot a call of `fork` is filling. -/
def Kpc.child {N : ℕ} : Kpc N → Option (Fin N)
  | .user => none
  | .forking np | .stacked np | .copied np => some np

/-- Where `swtch` returns to in a process that is not running. -/
inductive Resume
  | plain
  /-- In `sleep`, called with another lock than `ptable.lock`. -/
  | asleep
  | waiting
  deriving DecidableEq

/-- What a CPU is doing. -/
inductive Mode (N : ℕ)
  /-- `scheduler`, about to acquire `ptable.lock`. -/
  | idle
  /-- `scheduler`, in its loop over the table. -/
  | scan
  /-- `scheduler`, back from `swtch`, which process `p` has left. -/
  | back (p : Fin N)
  /-- Running process `p`, without `ptable.lock`. -/
  | run (p : Fin N)
  /-- Running process `p`, just entered by `swtch`, with `ptable.lock`. -/
  | tail (p : Fin N)
  /-- Running process `p` in `wait`, at the top of its loop, with `ptable.lock`. -/
  | waiting (p : Fin N)
  deriving DecidableEq

namespace Mode

variable {N : ℕ}

/-- The CPU's thread holds `ptable.lock`. -/
def locked : Mode N → Bool
  | .scan | .back _ | .tail _ | .waiting _ => true
  | _ => false

/-- The process whose thread the CPU executes. -/
def runs : Mode N → Option (Fin N)
  | .run p | .tail p | .waiting p => some p
  | _ => none

/-- The process the CPU has not finished with: the one it executes, or the one the
scheduler has just come back from. -/
def occupant : Mode N → Option (Fin N)
  | .run p | .tail p | .waiting p | .back p => some p
  | _ => none

end Mode

/-- The process table and the CPUs. -/
structure State (N : ℕ) (C : Type) where
  slot : Fin N → Slot N
  /-- Where the code of each process is. -/
  kpc : Fin N → Kpc N
  /-- Where each process continues. -/
  resume : Fin N → Resume
  mode : C → Mode N
  proc : C → Option (Fin N)
  /-- Whose page directory is loaded; `none` is the kernel's own. -/
  cr3 : C → Option (Fin N)
  /-- Whose thread holds `ptable.lock`. -/
  lock : Option C
  nextpid : ℤ
  /-- The number of processes created so far. -/
  births : ℕ
  /-- The children created by `fork`. -/
  forked : List (ℕ × ℤ)
  /-- The children returned by `wait`. -/
  reaped : List (ℕ × ℤ)

/-- The steps. -/
inductive Act (N : ℕ) (C : Type)
  /-- The scheduler acquires `ptable.lock`. -/
  | acquire (c : C)
  /-- The scheduler picks `p` and switches to it. -/
  | pick (c : C) (p : Fin N)
  | back (c : C)
  /-- The scheduler releases `ptable.lock`. -/
  | release (c : C)
  /-- A process entered by `swtch` goes on. -/
  | tail (c : C)
  | yield (c : C)
  /-- `sleep` on another address than a process, with another lock. -/
  | sleep (c : C) (n : ℕ)
  /-- `wakeup` on another address than a process. -/
  | wakeup (n : ℕ)
  | kill (pid : ℤ)
  /-- `fork`: the critical section of `allocproc`. -/
  | alloc (c : C)
  | noStack (c : C)
  /-- `allocproc`: `kalloc` succeeds. -/
  | stack (c : C)
  | noCopy (c : C)
  | copy (c : C)
  /-- `fork`: the last critical section. -/
  | publish (c : C)
  /-- `exit`: its critical section. -/
  | exit (c : C)
  /-- `wait`: acquire `ptable.lock`. -/
  | wait (c : C)
  /-- `wait`: one pass of its loop. -/
  | scanWait (c : C)

variable {N : ℕ} {C : Type}

/-! ## The code -/

/-- `p->state` becomes `RUNNABLE` if it is `SLEEPING` on `ch`. -/
def Slot.wake (ch : Chan N) (x : Slot N) : Slot N :=
  if x.state = .sleeping ∧ x.chan = some ch then { x with state := .runnable } else x

def wakeup1 (slot : Fin N → Slot N) (ch : Chan N) : Fin N → Slot N :=
  fun q => (slot q).wake ch

/-- The body of `kill`'s loop for the process it finds. -/
def Slot.kill (x : Slot N) : Slot N :=
  { x with killed := true, state := if x.state = .sleeping then .runnable else x.state }

/-- `kill`: the table afterwards, and what it returns. -/
def kill (slot : Fin N → Slot N) (pid : ℤ) : (Fin N → Slot N) × ℤ :=
  match (List.finRange N).find? fun q => (slot q).pid = pid with
  | some q => (update slot q (slot q).kill, 0)
  | none => (slot, -1)

/-- What a pass of `wait`'s loop comes to. -/
inductive WaitResult (N : ℕ)
  /-- It found the zombie `q` and returns its pid. -/
  | reap (q : Fin N)
  | fail
  | sleep
  deriving DecidableEq

/-- A pass of `wait`'s loop, by process `p`. -/
def waitScan (slot : Fin N → Slot N) (p : Fin N) : WaitResult N :=
  match (List.finRange N).find? fun q => (slot q).parent = some p ∧ (slot q).state = .zombie with
  | some q => .reap q
  | none =>
    if (∀ q, (slot q).parent ≠ some p) ∨ (slot p).killed = true then .fail else .sleep

/-- What `wait` leaves of a zombie's slot. -/
def Slot.freed (x : Slot N) : Slot N :=
  { x with state := .unused, pid := 0, parent := none, killed := false, kstack := false }

/-- The slot `allocproc` finds. -/
def findUnused (slot : Fin N → Slot N) : Option (Fin N) :=
  (List.finRange N).find? fun q => (slot q).state = .unused

/-- `nextpid++`, in 32 bits. -/
def nextPid (n : ℤ) : ℤ := Int.bmod (n + 1) (2 ^ 32)

section Init

variable [NeZero N]

/-- One pass of `exit`'s loop over the table, for the exiting process `p`. -/
def reparent (p : Fin N) (slot : Fin N → Slot N) (q : Fin N) : Fin N → Slot N :=
  if (slot q).parent = some p then
    if (slot q).state = .zombie then
      wakeup1 (update slot q { slot q with parent := some 0 }) (.proc 0)
    else update slot q { slot q with parent := some 0 }
  else slot

/-- `wakeup1(curproc->parent)`, for the exiting process `p`. -/
def wakeParent (p : Fin N) (slot : Fin N → Slot N) : Fin N → Slot N :=
  match (slot p).parent with
  | some q => wakeup1 slot (.proc q)
  | none => slot

/-- The critical section of `exit`, up to `sched`. -/
def exitTable (slot : Fin N → Slot N) (p : Fin N) : Fin N → Slot N :=
  let given := (List.finRange N).foldl (reparent p) (wakeParent p slot)
  update given p { given p with state := .zombie }

end Init

/-! ## What the code does to the other slots -/

/-- `y` is `x` after some `wakeup`s: at most a `SLEEPING` process has become
`RUNNABLE`; `parent` is left open. -/
structure Slot.Woke (x y : Slot N) : Prop where
  pid : y.pid = x.pid
  chan : y.chan = x.chan
  killed : y.killed = x.killed
  birth : y.birth = x.birth
  forker : y.forker = x.forker
  state : y.state = x.state ∨ x.state = .sleeping ∧ y.state = .runnable

namespace Slot.Woke

variable {x y z : Slot N}

theorem refl (x : Slot N) : x.Woke x :=
  ⟨rfl, rfl, rfl, rfl, rfl, .inl rfl⟩

theorem trans (h : x.Woke y) (h' : y.Woke z) : x.Woke z := by
  refine ⟨h'.pid.trans h.pid, h'.chan.trans h.chan, h'.killed.trans h.killed,
    h'.birth.trans h.birth, h'.forker.trans h.forker, ?_⟩
  rcases h'.state with hz | ⟨hy, hz⟩
  · rw [hz]
    exact h.state
  · rcases h.state with hx | ⟨_, hx⟩
    · exact .inr ⟨hx ▸ hy, hz⟩
    · rw [hx] at hy
      cases hy

theorem sleeping (h : x.Woke y) (hy : y.state = .sleeping) : x.state = .sleeping := by
  rcases h.state with hs | ⟨hs, _⟩
  · exact hs ▸ hy
  · exact hs

theorem state_iff (h : x.Woke y) (st : ProcState) (hs : st ≠ .sleeping) (hr : st ≠ .runnable) :
    y.state = st ↔ x.state = st := by
  rcases h.state with heq | ⟨hx, hy⟩
  · rw [heq]
  · rw [hx, hy]
    exact ⟨fun h => absurd h.symm hr, fun h => absurd h.symm hs⟩

end Slot.Woke

theorem Slot.wake_woke (x : Slot N) (ch : Chan N) : x.Woke (x.wake ch) := by
  unfold Slot.wake
  split
  · rename_i h
    exact ⟨rfl, rfl, rfl, rfl, rfl, .inr ⟨h.1, rfl⟩⟩
  · exact .refl x

theorem Slot.parent_wake (x : Slot N) (ch : Chan N) : (x.wake ch).parent = x.parent := by
  unfold Slot.wake
  split <;> rfl

theorem Slot.not_sleeping_wake (x : Slot N) (ch : Chan N) (hch : x.chan = some ch) :
    (x.wake ch).state ≠ .sleeping := by
  unfold Slot.wake
  split
  · exact nofun
  · rename_i h
    exact fun hs => h ⟨hs, hch⟩

theorem kill_cases (slot : Fin N → Slot N) (pid : ℤ) :
    (kill slot pid = (slot, -1) ∧ ∀ q, (slot q).pid ≠ pid) ∨
    ∃ q, kill slot pid = (update slot q (slot q).kill, 0) ∧ (slot q).pid = pid := by
  unfold kill
  split
  · rename_i q hq
    refine .inr ⟨q, rfl, ?_⟩
    simpa using find?_some hq
  · rename_i hnone
    refine .inl ⟨rfl, ?_⟩
    intro q hq
    have h := find?_eq_none.1 hnone q (mem_finRange q)
    simp [hq] at h

theorem kill_state_iff (slot : Fin N → Slot N) (pid : ℤ) (q : Fin N) (st : ProcState)
    (hs : st ≠ .sleeping) (hr : st ≠ .runnable) :
    ((kill slot pid).1 q).state = st ↔ (slot q).state = st := by
  rcases kill_cases slot pid with ⟨h, _⟩ | ⟨r, h, _⟩
  · rw [h]
  · rw [h]
    by_cases hq : q = r
    · subst hq
      simp only [update_self, Slot.kill]
      split
      · rename_i hsl
        rw [hsl]
        exact ⟨fun h => absurd h.symm hr, fun h => absurd h.symm hs⟩
      · exact Iff.rfl
    · simp only [update_of_ne hq]

theorem findUnused_state {slot : Fin N → Slot N} {np : Fin N} (h : findUnused slot = some np) :
    (slot np).state = .unused := by
  simpa using find?_some h

variable {q : Fin N}

theorem waitScan_reap {slot : Fin N → Slot N} {p : Fin N} (h : waitScan slot p = .reap q) :
    (slot q).parent = some p ∧ (slot q).state = .zombie := by
  unfold waitScan at h
  split at h
  · rename_i r hr
    cases h
    simpa using find?_some hr
  · split at h <;> cases h

theorem waitScan_fail {slot : Fin N → Slot N} {p : Fin N} (h : waitScan slot p = .fail) :
    (∀ q, (slot q).parent ≠ some p) ∨ (slot p).killed = true := by
  unfold waitScan at h
  split at h
  · cases h
  · split at h
    · assumption
    · cases h

theorem waitScan_sleep {slot : Fin N → Slot N} {p : Fin N} (h : waitScan slot p = .sleep)
    (hq : (slot q).parent = some p) : (slot q).state ≠ .zombie := by
  unfold waitScan at h
  split at h
  · cases h
  · rename_i hnone
    have hfind := find?_eq_none.1 hnone q (mem_finRange q)
    simpa [hq] using hfind

section Exit

variable [NeZero N] (p : Fin N) (slot : Fin N → Slot N)

theorem reparent_woke (q r : Fin N) : (slot r).Woke (reparent p slot q r) := by
  have hset : (slot r).Woke (update slot q { slot q with parent := some 0 } r) := by
    by_cases h : r = q
    · subst h
      rw [update_self]
      exact ⟨rfl, rfl, rfl, rfl, rfl, .inl rfl⟩
    · rw [update_of_ne h]
      exact .refl _
  unfold reparent
  split
  · split
    · exact hset.trans (Slot.wake_woke _ _)
    · exact hset
  · exact .refl _

theorem reparent_parent (q r : Fin N) :
    (reparent p slot q r).parent
      = if r = q ∧ (slot r).parent = some p then some 0 else (slot r).parent := by
  have hset (hq : (slot q).parent = some p) :
      (update slot q { slot q with parent := some 0 } r).parent
        = if r = q ∧ (slot r).parent = some p then some 0 else (slot r).parent := by
    by_cases h : r = q
    · subst h
      simp [hq]
    · simp [h]
  unfold reparent
  split
  · rename_i hq
    split
    · rw [wakeup1, Slot.parent_wake]
      exact hset hq
    · exact hset hq
  · rename_i hq
    rw [if_neg]
    rintro ⟨rfl, h⟩
    exact hq h

theorem reparent_wakes (hq : (slot q).parent = some p) (hz : (slot q).state = .zombie)
    (hch : (slot 0).chan = some (.proc 0)) : (reparent p slot q 0).state ≠ .sleeping := by
  rw [reparent, if_pos hq, if_pos hz]
  refine Slot.not_sleeping_wake _ _ ?_
  by_cases h : 0 = q
  · subst h
    simpa using hch
  · rwa [update_of_ne h]

variable (l : List (Fin N))

theorem foldl_reparent_woke (r : Fin N) : (slot r).Woke (l.foldl (reparent p) slot r) := by
  induction l generalizing slot with
  | nil => exact .refl _
  | cons q l ih => exact (reparent_woke p slot q r).trans (ih (reparent p slot q))

theorem foldl_reparent_parent (r : Fin N) :
    (l.foldl (reparent p) slot r).parent
      = if r ∈ l ∧ (slot r).parent = some p then some 0 else (slot r).parent := by
  induction l generalizing slot with
  | nil => simp
  | cons q l ih =>
    rw [foldl_cons, ih, reparent_parent]
    by_cases hp : (slot r).parent = some p
    · by_cases hr : r = q
      · subst hr
        simp [hp]
      · simp [hp, hr]
    · simp [hp]

theorem foldl_reparent_wakes (hmem : q ∈ l) (hq : (slot q).parent = some p)
    (hz : (slot q).state = .zombie) (hch : (slot 0).chan = some (.proc 0)) :
    (l.foldl (reparent p) slot 0).state ≠ .sleeping := by
  induction l generalizing slot with
  | nil => cases hmem
  | cons r l ih =>
    rw [foldl_cons]
    have hw := reparent_woke p slot r
    by_cases hqr : q = r
    · subst hqr
      -- init is awake now, and stays awake
      intro hs
      exact reparent_wakes p slot hq hz hch
        ((foldl_reparent_woke p (reparent p slot q) l 0).sleeping hs)
    · have hmem' : q ∈ l := by simpa [hqr] using hmem
      refine ih (reparent p slot r) hmem' ?_ ?_ ?_
      · rw [reparent_parent, if_neg fun h => hqr h.1]
        exact hq
      · exact ((hw q).state_iff .zombie nofun nofun).2 hz
      · rw [(hw 0).chan]
        exact hch

omit [NeZero N] in
theorem wakeParent_woke (r : Fin N) : (slot r).Woke (wakeParent p slot r) := by
  unfold wakeParent
  cases (slot p).parent with
  | none => exact .refl _
  | some q => exact Slot.wake_woke _ _

omit [NeZero N] in
theorem wakeParent_parent (r : Fin N) : (wakeParent p slot r).parent = (slot r).parent := by
  unfold wakeParent
  cases (slot p).parent with
  | none => rfl
  | some q => exact Slot.parent_wake _ _

variable {p slot}

theorem exitTable_woke (hq : q ≠ p) : (slot q).Woke (exitTable slot p q) := by
  have h := (wakeParent_woke p slot q).trans
    (foldl_reparent_woke p (wakeParent p slot) (List.finRange N) q)
  rw [exitTable]
  dsimp only
  rw [update_of_ne hq]
  exact h

theorem exitTable_parent (q : Fin N) :
    (exitTable slot p q).parent
      = if (slot q).parent = some p then some 0 else (slot q).parent := by
  have h : ((List.finRange N).foldl (reparent p) (wakeParent p slot) q).parent
      = if (slot q).parent = some p then some 0 else (slot q).parent := by
    rw [foldl_reparent_parent, wakeParent_parent]
    simp
  by_cases hq : q = p
  · subst hq
    rw [exitTable]
    dsimp only
    rw [update_self]
    exact h
  · rw [exitTable]
    dsimp only
    rw [update_of_ne hq]
    exact h

theorem exitTable_self_state : (exitTable slot p p).state = .zombie := by
  simp [exitTable]

theorem exitTable_self : (exitTable slot p p).birth = (slot p).birth ∧
    (exitTable slot p p).pid = (slot p).pid ∧ (exitTable slot p p).forker = (slot p).forker ∧
    (exitTable slot p p).killed = (slot p).killed := by
  have h := (wakeParent_woke p slot p).trans
    (foldl_reparent_woke p (wakeParent p slot) (List.finRange N) p)
  rw [exitTable]
  dsimp only
  rw [update_self]
  exact ⟨h.birth, h.pid, h.forker, h.killed⟩

theorem exitTable_wakes_parent (hq : q ≠ p) (hp : (slot p).parent = some q)
    (hch : (slot q).chan = some (.proc q)) : (exitTable slot p q).state ≠ .sleeping := by
  have h1 : (wakeParent p slot q).state ≠ .sleeping := by
    unfold wakeParent
    rw [hp]
    exact Slot.not_sleeping_wake _ _ hch
  have h2 := foldl_reparent_woke p (wakeParent p slot) (List.finRange N) q
  rw [exitTable]
  dsimp only
  rw [update_of_ne hq]
  exact fun hs => h1 (h2.sleeping hs)

theorem exitTable_wakes_init (hp : p ≠ 0) (hq : (slot q).parent = some p)
    (hz : (slot q).state = .zombie) (hch : (slot 0).chan = some (.proc 0)) :
    (exitTable slot p 0).state ≠ .sleeping := by
  have h := foldl_reparent_wakes p (wakeParent p slot) (List.finRange N) (mem_finRange q)
    ((wakeParent_parent p slot q).trans hq)
    (((wakeParent_woke p slot q).state_iff .zombie nofun nofun).2 hz)
    ((wakeParent_woke p slot 0).chan.trans hch)
  rw [exitTable]
  dsimp only
  rw [update_of_ne (Ne.symm hp)]
  exact h

end Exit

variable [DecidableEq C]

/-- A process leaves the CPU: `sched`, up to the scheduler's side of `swtch`. -/
def sched (s : State N C) (c : C) (p : Fin N) (r : Resume) (slot : Fin N → Slot N) : State N C :=
  { s with
    slot := slot
    resume := update s.resume p r
    mode := update s.mode c (.back p)
    lock := some c }

/-- Process `p`'s slot with another state and channel. -/
def setState (s : State N C) (p : Fin N) (st : ProcState) (ch : Option (Chan N)) : Fin N → Slot N :=
  update s.slot p { s.slot p with state := st, chan := ch }

/-- A process entered by `swtch` goes on. -/
def stepTail (s : State N C) (c : C) (p : Fin N) : State N C :=
  match s.resume p with
  | .plain => { s with mode := update s.mode c (.run p), lock := none }
  | .asleep =>
    { s with
      slot := setState s p (s.slot p).state none
      mode := update s.mode c (.run p)
      lock := none }
  | .waiting =>
    { s with
      slot := setState s p (s.slot p).state none
      mode := update s.mode c (.waiting p) }

/-- `fork`'s call of `allocproc`, by process `p`, up to its release of the lock. -/
def stepAlloc (s : State N C) (p : Fin N) : State N C :=
  match findUnused s.slot with
  | none => s
  | some np =>
    { s with
      slot := update s.slot np
        { s.slot np with state := .embryo, pid := s.nextpid, birth := s.births }
      kpc := update s.kpc p (.forking np)
      nextpid := nextPid s.nextpid
      births := s.births + 1 }

/-- A pass of `wait`'s loop by process `p`. -/
def stepWait (s : State N C) (c : C) (p : Fin N) : State N C :=
  match waitScan s.slot p with
  | .reap q =>
    { s with
      slot := update s.slot q (s.slot q).freed
      mode := update s.mode c (.run p)
      lock := none
      reaped := s.reaped ++ [((s.slot q).birth, (s.slot q).pid)] }
  | .fail => { s with mode := update s.mode c (.run p), lock := none }
  | .sleep => sched s c p .waiting (setState s p .sleeping (some (.proc p)))

/-- `fork`'s last critical section, by process `p` for slot `np`. -/
def stepPublish (s : State N C) (p np : Fin N) : State N C :=
  { s with
    slot := update s.slot np { s.slot np with state := .runnable }
    kpc := update (update s.kpc np .user) p .user
    resume := update s.resume np .plain
    forked := s.forked ++ [((s.slot np).birth, (s.slot np).pid)] }

/-- `fork` gives its slot back. -/
def stepAbandon (s : State N C) (p np : Fin N) : State N C :=
  { s with
    slot := update s.slot np { s.slot np with state := .unused, kstack := false }
    kpc := update s.kpc p .user }

variable [NeZero N]

/-- One step of the kernel. -/
def step (s : State N C) : Act N C → Option (State N C)
  | .acquire c =>
    if s.mode c = .idle ∧ s.lock = none then
      some { s with mode := update s.mode c .scan, lock := some c }
    else none
  | .pick c p =>
    if s.mode c = .scan ∧ (s.slot p).state = .runnable then
      some { s with
        slot := update s.slot p { s.slot p with state := .running }
        mode := update s.mode c (.tail p)
        proc := update s.proc c (some p)
        cr3 := update s.cr3 c (some p) }
    else none
  | .back c =>
    match s.mode c with
    | .back _ =>
      some { s with
        mode := update s.mode c .scan
        proc := update s.proc c none
        cr3 := update s.cr3 c none }
    | _ => none
  | .release c =>
    if s.mode c = .scan then
      some { s with mode := update s.mode c .idle, lock := none }
    else none
  | .tail c =>
    match s.mode c with
    | .tail p => some (stepTail s c p)
    | _ => none
  | .yield c =>
    match s.mode c with
    | .run p =>
      if s.lock = none then
        some (sched s c p .plain (setState s p .runnable (s.slot p).chan))
      else none
    | _ => none
  | .sleep c n =>
    match s.mode c with
    | .run p =>
      if s.lock = none ∧ s.kpc p = .user then
        some (sched s c p .asleep (setState s p .sleeping (some (.other n))))
      else none
    | _ => none
  | .wakeup n => if s.lock = none then some { s with slot := wakeup1 s.slot (.other n) } else none
  | .kill pid => if s.lock = none then some { s with slot := (kill s.slot pid).1 } else none
  | .alloc c =>
    match s.mode c with
    | .run p => if s.lock = none ∧ s.kpc p = .user then some (stepAlloc s p) else none
    | _ => none
  | .noStack c =>
    match s.mode c with
    | .run p =>
      match s.kpc p with
      | .forking np => some (stepAbandon s p np)
      | _ => none
    | _ => none
  | .stack c =>
    match s.mode c with
    | .run p =>
      match s.kpc p with
      | .forking np =>
        some { s with
          slot := update s.slot np { s.slot np with kstack := true }
          kpc := update s.kpc p (.stacked np) }
      | _ => none
    | _ => none
  | .noCopy c =>
    match s.mode c with
    | .run p =>
      match s.kpc p with
      | .stacked np => some (stepAbandon s p np)
      | _ => none
    | _ => none
  | .copy c =>
    match s.mode c with
    | .run p =>
      match s.kpc p with
      | .stacked np =>
        some { s with
          slot := update s.slot np
            { s.slot np with parent := some p, forker := (s.slot p).birth }
          kpc := update s.kpc p (.copied np) }
      | _ => none
    | _ => none
  | .publish c =>
    match s.mode c with
    | .run p =>
      match s.kpc p with
      | .copied np => if s.lock = none then some (stepPublish s p np) else none
      | _ => none
    | _ => none
  | .exit c =>
    match s.mode c with
    | .run p =>
      -- `exit` panics for init
      if s.lock = none ∧ s.kpc p = .user ∧ p ≠ 0 then
        some (sched s c p .plain (exitTable s.slot p))
      else none
    | _ => none
  | .wait c =>
    match s.mode c with
    | .run p =>
      if s.lock = none ∧ s.kpc p = .user then
        some { s with mode := update s.mode c (.waiting p), lock := some c }
      else none
    | _ => none
  | .scanWait c =>
    match s.mode c with
    | .waiting p => some (stepWait s c p)
    | _ => none

/-- The table after `userinit`: init is `RUNNABLE`, and nothing else exists. -/
def initSlot (p : Fin N) : Slot N :=
  if p = 0 then ⟨.runnable, 1, none, none, false, true, 0, 0⟩
  else ⟨.unused, 0, none, none, false, false, 0, 0⟩

/-- After `userinit`, with every CPU at the top of `scheduler`. -/
def initial : State N C where
  slot := initSlot
  kpc := fun _ => .user
  resume := fun _ => .plain
  mode := fun _ => .idle
  proc := fun _ => none
  cr3 := fun _ => none
  lock := none
  nextpid := 2
  births := 1
  forked := []
  reaped := []

/-- The kernel with a table of `N` slots on the CPUs `C`. -/
def system (N : ℕ) [NeZero N] (C : Type) [DecidableEq C] : Lts (State N C) (Act N C) where
  init s := s = initial
  step := step

/-! ## What a step can do -/

/-- The branches of the code, each with what it needs and what it does. -/
inductive Moves (s : State N C) : Act N C → State N C → Prop
  | acquire {c : C} : s.mode c = .idle → s.lock = none →
      Moves s (.acquire c) { s with mode := update s.mode c .scan, lock := some c }
  | pick {c : C} {p : Fin N} : s.mode c = .scan → (s.slot p).state = .runnable →
      Moves s (.pick c p) { s with
        slot := update s.slot p { s.slot p with state := .running }
        mode := update s.mode c (.tail p)
        proc := update s.proc c (some p)
        cr3 := update s.cr3 c (some p) }
  | back {c : C} {p : Fin N} : s.mode c = .back p →
      Moves s (.back c) { s with
        mode := update s.mode c .scan
        proc := update s.proc c none
        cr3 := update s.cr3 c none }
  | release {c : C} : s.mode c = .scan →
      Moves s (.release c) { s with mode := update s.mode c .idle, lock := none }
  | tail {c : C} {p : Fin N} : s.mode c = .tail p → Moves s (.tail c) (stepTail s c p)
  | yield {c : C} {p : Fin N} : s.mode c = .run p → s.lock = none →
      Moves s (.yield c) (sched s c p .plain (setState s p .runnable (s.slot p).chan))
  | sleep {c : C} {p : Fin N} {n : ℕ} : s.mode c = .run p → s.lock = none → s.kpc p = .user →
      Moves s (.sleep c n) (sched s c p .asleep (setState s p .sleeping (some (.other n))))
  | wakeup {n : ℕ} : s.lock = none →
      Moves s (.wakeup n) { s with slot := wakeup1 s.slot (.other n) }
  | kill {pid : ℤ} : s.lock = none → Moves s (.kill pid) { s with slot := (kill s.slot pid).1 }
  | alloc {c : C} {p : Fin N} : s.mode c = .run p → s.lock = none → s.kpc p = .user →
      Moves s (.alloc c) (stepAlloc s p)
  | noStack {c : C} {p np : Fin N} : s.mode c = .run p → s.kpc p = .forking np →
      Moves s (.noStack c) (stepAbandon s p np)
  | stack {c : C} {p np : Fin N} : s.mode c = .run p → s.kpc p = .forking np →
      Moves s (.stack c) { s with
        slot := update s.slot np { s.slot np with kstack := true }
        kpc := update s.kpc p (.stacked np) }
  | noCopy {c : C} {p np : Fin N} : s.mode c = .run p → s.kpc p = .stacked np →
      Moves s (.noCopy c) (stepAbandon s p np)
  | copy {c : C} {p np : Fin N} : s.mode c = .run p → s.kpc p = .stacked np →
      Moves s (.copy c) { s with
        slot := update s.slot np
          { s.slot np with parent := some p, forker := (s.slot p).birth }
        kpc := update s.kpc p (.copied np) }
  | publish {c : C} {p np : Fin N} : s.mode c = .run p → s.kpc p = .copied np → s.lock = none →
      Moves s (.publish c) (stepPublish s p np)
  | exit {c : C} {p : Fin N} : s.mode c = .run p → s.lock = none → s.kpc p = .user → p ≠ 0 →
      Moves s (.exit c) (sched s c p .plain (exitTable s.slot p))
  | wait {c : C} {p : Fin N} : s.mode c = .run p → s.lock = none → s.kpc p = .user →
      Moves s (.wait c) { s with mode := update s.mode c (.waiting p), lock := some c }
  | scanWait {c : C} {p : Fin N} : s.mode c = .waiting p → Moves s (.scanWait c) (stepWait s c p)

variable {s t : State N C} {a : Act N C}

omit [DecidableEq C] [NeZero N] in
theorem of_run {c : C} {f : Fin N → Option (State N C)}
    (h : (match s.mode c with
      | .run p => f p
      | _ => none) = some t) : ∃ p, s.mode c = .run p ∧ f p = some t := by
  split at h
  · exact ⟨_, ‹_›, h⟩
  · cases h

theorem moves_of_step (h : step s a = some t) : Moves s a t := by
  cases a with
  | acquire c =>
    obtain ⟨hc, rfl⟩ := of_guard h
    exact .acquire hc.1 hc.2
  | pick c p =>
    obtain ⟨hc, rfl⟩ := of_guard h
    exact .pick hc.1 hc.2
  | back c =>
    simp only [step] at h
    split at h
    · rename_i p hc
      cases h
      exact .back hc
    · cases h
  | release c =>
    obtain ⟨hc, rfl⟩ := of_guard h
    exact .release hc
  | tail c =>
    simp only [step] at h
    split at h
    · rename_i p hc
      cases h
      exact .tail hc
    · cases h
  | yield c =>
    obtain ⟨p, hc, h⟩ := of_run h
    obtain ⟨hl, rfl⟩ := of_guard h
    exact .yield hc hl
  | sleep c n =>
    obtain ⟨p, hc, h⟩ := of_run h
    obtain ⟨hl, rfl⟩ := of_guard h
    exact .sleep hc hl.1 hl.2
  | wakeup n =>
    obtain ⟨hl, rfl⟩ := of_guard h
    exact .wakeup hl
  | kill pid =>
    obtain ⟨hl, rfl⟩ := of_guard h
    exact .kill hl
  | alloc c =>
    obtain ⟨p, hc, h⟩ := of_run h
    obtain ⟨hl, rfl⟩ := of_guard h
    exact .alloc hc hl.1 hl.2
  | noStack c =>
    obtain ⟨p, hc, h⟩ := of_run h
    split at h
    · rename_i np hk
      cases h
      exact .noStack hc hk
    · cases h
  | stack c =>
    obtain ⟨p, hc, h⟩ := of_run h
    split at h
    · rename_i np hk
      cases h
      exact .stack hc hk
    · cases h
  | noCopy c =>
    obtain ⟨p, hc, h⟩ := of_run h
    split at h
    · rename_i np hk
      cases h
      exact .noCopy hc hk
    · cases h
  | copy c =>
    obtain ⟨p, hc, h⟩ := of_run h
    split at h
    · rename_i np hk
      cases h
      exact .copy hc hk
    · cases h
  | publish c =>
    obtain ⟨p, hc, h⟩ := of_run h
    split at h
    · rename_i np hk
      obtain ⟨hl, rfl⟩ := of_guard h
      exact .publish hc hk hl
    · cases h
  | exit c =>
    obtain ⟨p, hc, h⟩ := of_run h
    obtain ⟨hl, rfl⟩ := of_guard h
    exact .exit hc hl.1 hl.2.1 hl.2.2
  | wait c =>
    obtain ⟨p, hc, h⟩ := of_run h
    obtain ⟨hl, rfl⟩ := of_guard h
    exact .wait hc hl.1 hl.2
  | scanWait c =>
    simp only [step] at h
    split at h
    · rename_i p hc
      cases h
      exact .scanWait hc
    · cases h

end Xv6.Proc
