import Xv6.Lib.Lts
import Xv6.Param

/-!
# The log under concurrent operations

`begin_op`, `log_write` and `end_op` run by any number of processes.  Each
critical section of `log.lock` is one step; what `log.c` does outside the lock
is a step of its own: the two checks at the top of `log_write`, the whole of
`commit()`, and the moments in between.  A process that has to wait in
`begin_op` sleeps on `&log` until a `wakeup(&log)` (or a `kill`) makes it
runnable, and then runs the loop body again.

Beside the fields of `struct log` the state keeps a history that no step reads:
which blocks each operation logged, and between which commits it began and
ended.
-/

namespace Xv6.Log

open Xv6.Lib Function Option

/-- The `panic`s of `log.c`'s concurrent part. -/
inductive Panic
  /-- `panic("too big a transaction")` in `log_write`. -/
  | tooBig
  /-- `panic("log_write outside of trans")` in `log_write`. -/
  | outsideTrans
  /-- `panic("log.committing")` in `end_op`. -/
  | committing
  deriving DecidableEq, Repr

/-- Where a process is in the code of `log.c`. -/
inductive Pc
  | out
  /-- In `begin_op`, about to run the body of its loop. -/
  | test
  /-- In `begin_op`, asleep on `&log`. -/
  | sleeping
  /-- Between `begin_op` and `end_op`. -/
  | inOp
  /-- In `log_write` for block `b`, past the checks and before `acquire`. -/
  | appending (b : ℕ)
  /-- In `end_op` with `do_commit` set, about to call `commit()`. -/
  | commit
  /-- In `commit()`, about to execute `log.lh.n = 0`. -/
  | installed
  /-- Back from `commit()`, about to clear `log.committing`. -/
  | committed
  deriving DecidableEq, Repr

/-- The process is in the middle of an operation. -/
def Pc.active : Pc → Bool
  | .inOp | .appending _ => true
  | _ => false

/-- The process is committing. -/
def Pc.commits : Pc → Bool
  | .commit | .installed | .committed => true
  | _ => false

/-- The block a process is about to append. -/
def Pc.pending : Pc → Finset ℕ
  | .appending b => {b}
  | _ => ∅

/-- An operation that has ended: the blocks it passed to `log_write`, and the
number of commits that had been run when it began and when it ended. -/
structure Op where
  writes : List ℕ
  born : ℕ
  died : ℕ

/-- The fields of `struct log`, the processes, and the history. -/
structure State (P : Type) where
  outstanding : ℤ
  committing : Bool
  lh : List ℕ
  pc : P → Pc
  /-- The panic that stopped the machine, if one did. -/
  panic : Option Panic
  /-- History: the blocks logged by each process's current operation. -/
  writes : P → List ℕ
  /-- History: the number of commits when that operation began. -/
  born : P → ℕ
  /-- History: the operations that have ended. -/
  ended : List Op
  /-- History: the number of commits run so far. -/
  ncommit : ℕ

/-- The steps. -/
inductive Act (P : Type)
  | beginOp (p : P)
  /-- The body of `begin_op`'s loop, under the lock. -/
  | beginTest (p : P)
  /-- Call `log_write` for block `b`: the checks at its top. -/
  | logWrite (p : P) (b : ℕ)
  /-- The locked part of `log_write`. -/
  | append (p : P)
  /-- Call `end_op`: its first locked part. -/
  | endOp (p : P)
  /-- `commit()` up to and including `install_trans`. -/
  | commit (p : P)
  /-- `log.lh.n = 0` and the rest of `commit()`. -/
  | clear (p : P)
  /-- The second locked part of `end_op`. -/
  | finish (p : P)
  /-- A sleeping process is made runnable by `kill`. -/
  | kill (p : P)

variable {P : Type} [DecidableEq P]

def wakeup (pc : P → Pc) : P → Pc := fun q => if pc q = .sleeping then .test else pc q

/-- The search loop and the store of `log_write`: an equal block number is
overwritten by itself, otherwise the number goes behind the last one. -/
def absorb : List ℕ → ℕ → List ℕ
  | [], b => [b]
  | x :: xs, b => if x = b then b :: xs else x :: absorb xs b

/-- The body of `begin_op`'s loop. -/
def beginTest (s : State P) (p : P) : State P :=
  if s.committing then
    { s with pc := update s.pc p .sleeping }
  else if s.lh.length + (s.outstanding + 1) * MAXOPBLOCKS > LOGSIZE then
    -- this op might exhaust log space; wait for commit.
    { s with pc := update s.pc p .sleeping }
  else
    { s with
      outstanding := s.outstanding + 1
      pc := update s.pc p .inOp
      writes := update s.writes p []
      born := update s.born p s.ncommit }

/-- The checks at the top of `log_write`, made without the lock. -/
def logWrite (size : ℕ) (s : State P) (p : P) (b : ℕ) : State P :=
  if LOGSIZE ≤ s.lh.length ∨ (size : ℤ) - 1 ≤ s.lh.length then
    { s with panic := some .tooBig }
  else if s.outstanding < 1 then
    { s with panic := some .outsideTrans }
  else
    { s with pc := update s.pc p (.appending b) }

/-- The locked part of `log_write` for block `b`. -/
def append (s : State P) (p : P) (b : ℕ) : State P :=
  { s with
    lh := absorb s.lh b
    pc := update s.pc p .inOp
    writes := update s.writes p (b :: s.writes p) }

/-- The first locked part of `end_op`. -/
def endOp (s : State P) (p : P) : State P :=
  let ended := ⟨s.writes p, s.born p, s.ncommit⟩ :: s.ended
  if s.committing then
    { s with outstanding := s.outstanding - 1, panic := some .committing }
  else if s.outstanding - 1 = 0 then
    { s with
      outstanding := s.outstanding - 1
      committing := true
      pc := update s.pc p .commit
      ended := ended }
  else
    -- begin_op() may be waiting for log space
    { s with
      outstanding := s.outstanding - 1
      pc := wakeup (update s.pc p .out)
      ended := ended }

/-- `log.lh.n = 0`; another commit has been run. -/
def clear (s : State P) (p : P) : State P :=
  { s with
    lh := []
    pc := update s.pc p .committed
    ncommit := s.ncommit + 1 }

/-- The second locked part of `end_op`. -/
def finish (s : State P) (p : P) : State P :=
  { s with
    committing := false
    pc := wakeup (update s.pc p .out) }

/-- One step of the processes.  `size` is `log.size`.  A panic stops the
machine; an append for which `lh.block` has no entry left stores past the
array, and has no next state. -/
def step (size : ℕ) (s : State P) : Act P → Option (State P)
  | .beginOp p =>
    if s.panic = none ∧ s.pc p = .out then
      some { s with pc := update s.pc p .test }
    else none
  | .beginTest p => if s.panic = none ∧ s.pc p = .test then some (beginTest s p) else none
  | .logWrite p b => if s.panic = none ∧ s.pc p = .inOp then some (logWrite size s p b) else none
  | .append p =>
    match s.pc p with
    | .appending b =>
      if s.panic = none ∧ (b ∈ s.lh ∨ s.lh.length < LOGSIZE) then some (append s p b) else none
    | _ => none
  | .endOp p => if s.panic = none ∧ s.pc p = .inOp then some (endOp s p) else none
  | .commit p =>
    if s.panic = none ∧ s.pc p = .commit then
      some { s with pc := update s.pc p .installed }
    else none
  | .clear p => if s.panic = none ∧ s.pc p = .installed then some (clear s p) else none
  | .finish p => if s.panic = none ∧ s.pc p = .committed then some (finish s p) else none
  | .kill p =>
    if s.panic = none ∧ s.pc p = .sleeping then
      some { s with pc := update s.pc p .test }
    else none

/-- The log after `initlog`, with no process in an operation. -/
def initial : State P where
  outstanding := 0
  committing := false
  lh := []
  pc := fun _ => .out
  panic := none
  writes := fun _ => []
  born := fun _ => 0
  ended := []
  ncommit := 0

/-- The log and the processes `P`, with `log.size = size`. -/
def system (P : Type) [DecidableEq P] (size : ℕ) : Lts (State P) (Act P) where
  init s := s = initial
  step := step size

/-! ## Basic facts -/

theorem absorb_eq (l : List ℕ) (b : ℕ) : absorb l b = if b ∈ l then l else l ++ [b] := by
  induction l with
  | nil => simp [absorb]
  | cons x xs ih =>
    by_cases hx : x = b
    · simp [absorb, hx]
    · by_cases hb : b ∈ xs <;> simp [absorb, hx, Ne.symm hx, ih, hb]

@[simp] theorem mem_absorb {l : List ℕ} {b c : ℕ} : c ∈ absorb l b ↔ c ∈ l ∨ c = b := by
  rw [absorb_eq]
  by_cases hb : b ∈ l
  · rw [if_pos hb]
    constructor
    · exact .inl
    · rintro (h | rfl)
      · exact h
      · exact hb
  · simp [hb]

theorem nodup_absorb {l : List ℕ} (h : l.Nodup) (b : ℕ) : (absorb l b).Nodup := by
  rw [absorb_eq]
  by_cases hb : b ∈ l
  · rwa [if_pos hb]
  · rw [if_neg hb, List.nodup_append]
    refine ⟨h, List.nodup_singleton b, ?_⟩
    intro x hx y hy
    rw [List.mem_singleton.1 hy]
    rintro rfl
    exact hb hx

omit [DecidableEq P] in
@[simp] theorem active_wakeup (pc : P → Pc) (q : P) : (wakeup pc q).active = (pc q).active := by
  by_cases h : pc q = .sleeping <;> simp [wakeup, h, Pc.active]

omit [DecidableEq P] in
@[simp] theorem commits_wakeup (pc : P → Pc) (q : P) : (wakeup pc q).commits = (pc q).commits := by
  by_cases h : pc q = .sleeping <;> simp [wakeup, h, Pc.commits]

omit [DecidableEq P] in
@[simp] theorem pending_wakeup (pc : P → Pc) (q : P) : (wakeup pc q).pending = (pc q).pending := by
  by_cases h : pc q = .sleeping <;> simp [wakeup, h, Pc.pending]

/-! ## What a step can do -/

/-- The branches of the code, each with the tests that lead to it and the state
it leaves. -/
inductive Moves (size : ℕ) (s : State P) : Act P → State P → Prop
  | beginOp {p : P} : s.pc p = .out →
      Moves size s (.beginOp p) { s with pc := update s.pc p .test }
  | sleep {p : P} : s.pc p = .test →
      Moves size s (.beginTest p) { s with pc := update s.pc p .sleeping }
  | enter {p : P} : s.pc p = .test → s.committing = false →
      s.lh.length + (s.outstanding + 1) * MAXOPBLOCKS ≤ LOGSIZE →
      Moves size s (.beginTest p)
        { s with
          outstanding := s.outstanding + 1
          pc := update s.pc p .inOp
          writes := update s.writes p []
          born := update s.born p s.ncommit }
  | tooBig {p : P} {b : ℕ} : s.pc p = .inOp →
      (LOGSIZE ≤ s.lh.length ∨ (size : ℤ) - 1 ≤ s.lh.length) →
      Moves size s (.logWrite p b) { s with panic := some .tooBig }
  | outsideTrans {p : P} {b : ℕ} : s.pc p = .inOp → s.outstanding < 1 →
      Moves size s (.logWrite p b) { s with panic := some .outsideTrans }
  | check {p : P} {b : ℕ} : s.pc p = .inOp → s.lh.length < LOGSIZE →
      (s.lh.length : ℤ) < (size : ℤ) - 1 →
      Moves size s (.logWrite p b) { s with pc := update s.pc p (.appending b) }
  | append {p : P} {b : ℕ} : s.pc p = .appending b →
      Moves size s (.append p) (append s p b)
  | endPanic {p : P} : s.pc p = .inOp → s.committing = true →
      Moves size s (.endOp p)
        { s with outstanding := s.outstanding - 1, panic := some .committing }
  | endLast {p : P} : s.pc p = .inOp → s.committing = false → s.outstanding = 1 →
      Moves size s (.endOp p)
        { s with
          outstanding := 0
          committing := true
          pc := update s.pc p .commit
          ended := ⟨s.writes p, s.born p, s.ncommit⟩ :: s.ended }
  | endMore {p : P} : s.pc p = .inOp → s.committing = false → s.outstanding ≠ 1 →
      Moves size s (.endOp p)
        { s with
          outstanding := s.outstanding - 1
          pc := wakeup (update s.pc p .out)
          ended := ⟨s.writes p, s.born p, s.ncommit⟩ :: s.ended }
  | commit {p : P} : s.pc p = .commit →
      Moves size s (.commit p) { s with pc := update s.pc p .installed }
  | clear {p : P} : s.pc p = .installed → Moves size s (.clear p) (clear s p)
  | finish {p : P} : s.pc p = .committed → Moves size s (.finish p) (finish s p)
  | kill {p : P} : s.pc p = .sleeping →
      Moves size s (.kill p) { s with pc := update s.pc p .test }

variable {size : ℕ} {s : State P} {p : P}

theorem beginTest_moves (hp : s.pc p = .test) :
    Moves size s (.beginTest p) (beginTest s p) := by
  rw [beginTest]
  by_cases hc : s.committing = true
  · rw [if_pos hc]
    exact .sleep hp
  · rw [if_neg hc]
    by_cases hspace : s.lh.length + (s.outstanding + 1) * MAXOPBLOCKS > LOGSIZE
    · rw [if_pos hspace]
      exact .sleep hp
    · rw [if_neg hspace]
      exact .enter hp (by simpa using hc) (not_lt.1 hspace)

theorem logWrite_moves (b : ℕ) (hp : s.pc p = .inOp) :
    Moves size s (.logWrite p b) (logWrite size s p b) := by
  rw [logWrite]
  by_cases hbig : LOGSIZE ≤ s.lh.length ∨ (size : ℤ) - 1 ≤ s.lh.length
  · rw [if_pos hbig]
    exact .tooBig hp hbig
  · rw [if_neg hbig]
    simp only [not_or, not_le] at hbig
    by_cases hout : s.outstanding < 1
    · rw [if_pos hout]
      exact .outsideTrans hp hout
    · rw [if_neg hout]
      exact .check hp hbig.1 hbig.2

theorem endOp_moves (hp : s.pc p = .inOp) :
    Moves size s (.endOp p) (endOp s p) := by
  rw [endOp]
  by_cases hc : s.committing = true
  · rw [if_pos hc]
    exact .endPanic hp hc
  · rw [if_neg hc]
    simp only [Bool.not_eq_true] at hc
    by_cases hlast : s.outstanding - 1 = 0
    · rw [if_pos hlast, hlast]
      exact .endLast hp hc (by omega)
    · rw [if_neg hlast]
      exact .endMore hp hc (by omega)

theorem moves_of_step {t : State P} {a : Act P} (h : step size s a = some t) :
    s.panic = none ∧ Moves size s a t := by
  cases a with
  | append p =>
    rw [step] at h
    split at h
    · rename_i b hp
      obtain ⟨hg, ht⟩ := ite_none_right_eq_some.1 h
      cases ht
      exact ⟨hg.1, .append hp⟩
    · exact absurd h (by simp)
  | beginTest p =>
    obtain ⟨hg, ht⟩ := ite_none_right_eq_some.1 h
    cases ht
    exact ⟨hg.1, beginTest_moves hg.2⟩
  | logWrite p b =>
    obtain ⟨hg, ht⟩ := ite_none_right_eq_some.1 h
    cases ht
    exact ⟨hg.1, logWrite_moves b hg.2⟩
  | endOp p =>
    obtain ⟨hg, ht⟩ := ite_none_right_eq_some.1 h
    cases ht
    exact ⟨hg.1, endOp_moves hg.2⟩
  | beginOp p =>
    obtain ⟨hg, ht⟩ := ite_none_right_eq_some.1 h
    cases ht
    exact ⟨hg.1, .beginOp hg.2⟩
  | commit p =>
    obtain ⟨hg, ht⟩ := ite_none_right_eq_some.1 h
    cases ht
    exact ⟨hg.1, .commit hg.2⟩
  | clear p =>
    obtain ⟨hg, ht⟩ := ite_none_right_eq_some.1 h
    cases ht
    exact ⟨hg.1, .clear hg.2⟩
  | finish p =>
    obtain ⟨hg, ht⟩ := ite_none_right_eq_some.1 h
    cases ht
    exact ⟨hg.1, .finish hg.2⟩
  | kill p =>
    obtain ⟨hg, ht⟩ := ite_none_right_eq_some.1 h
    cases ht
    exact ⟨hg.1, .kill hg.2⟩

end Xv6.Log
