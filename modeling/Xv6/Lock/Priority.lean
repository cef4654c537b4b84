import Xv6.Lib.Lts
import Xv6.Lock.Queue

/-!
# The priority lock

`prior_acquire` and `p_release` on one `struct prioritylock`, run by any number
of processes on any number of CPUs.  Each critical section of `queue_lock` is
one step; every other access to the lock word `lock.locked` or to `lock.cpu` is
a step of its own.

From the `pushcli` at the top of `prior_acquire` to the `popcli` at the end of
`release` interrupts are off on the CPU the process runs on, so no other
process runs there in the meantime.

The invariant `LockInv` ties the lock word, the recorded CPU and the queue to
where the processes are.
-/

namespace Xv6.Lock

open Xv6.Lib Function List

variable {P C : Type}

/-- Where a process is, and on which CPU. -/
inductive Pc (C : Type)
  /-- Outside `prior_acquire` and `p_release`, without the lock. -/
  | out
  /-- In `prior_acquire`, about to read `lock.locked` in `holding`. -/
  | entered (c : C)
  /-- In `holding`, having read `lock.locked` as 1, about to read `lock.cpu`. -/
  | checking (c : C)
  /-- About to run the critical section that adds it to the queue. -/
  | adding (c : C)
  | waiting (c : C)
  /-- Out of the loop with the lock, about to store `lock.cpu`. -/
  | acquired (c : C)
  /-- Between `prior_acquire` and `p_release`. -/
  | critical (c : C)
  /-- In `release`, having cleared `lock.cpu`, about to clear `lock.locked`. -/
  | releasing (c : C)
  deriving DecidableEq, Repr

/-- The CPU on which a process has interrupts off. -/
def Pc.cpu : Pc C → Option C
  | .out => none
  | .entered c | .checking c | .adding c | .waiting c | .acquired c | .critical c
  | .releasing c => some c

/-- The process is waiting in `prior_acquire`, with its node in the queue. -/
def Pc.waits : Pc C → Bool
  | .waiting _ => true
  | _ => false

/-- The process has obtained the lock and not yet given it back. -/
def Pc.holds : Pc C → Bool
  | .acquired _ | .critical _ | .releasing _ => true
  | _ => false

/-- What can go wrong. -/
inductive Fault
  /-- `panic("acquire\n")` in `prior_acquire`. -/
  | acquire
  /-- `panic("release\n")` in `release`. -/
  | release
  /-- `lk->head->pid` with `lk->head` null. -/
  | nullHead
  /-- A panic of `rm_queue`. -/
  | rm (e : RmPanic)
  deriving DecidableEq, Repr

/-- One `struct prioritylock` and the processes using it. -/
structure State (P C : Type) where
  locked : Bool
  cpu : Option C
  queue : List QNode
  pc : P → Pc C
  /-- The fault that stopped the machine, if one did. -/
  fault : Option Fault
  /-- The number of nodes allocated so far. -/
  nalloc : ℕ
  /-- The nodes passed to `kfree`, the last one first. -/
  freed : List ℕ

/-- The steps. -/
inductive Act (P C : Type)
  /-- Call `prior_acquire` on CPU `c`: `pushcli`. -/
  | call (p : P) (c : C)
  /-- `holding` reads `lock.locked`. -/
  | readLocked (p : P)
  | readCpu (p : P)
  /-- The critical section with `add_queue`. -/
  | add (p : P)
  /-- The critical section in the loop. -/
  | attempt (p : P)
  | setCpu (p : P)
  /-- Call `p_release`: the check of `release` and `lk->cpu = 0`. -/
  | release (p : P)
  /-- `lk->locked = 0` and `popcli`. -/
  | unlock (p : P)

/-- `p_initlock`, with no process near the lock. -/
def initial : State P C where
  locked := false
  cpu := none
  queue := []
  pc := fun _ => .out
  fault := none
  nalloc := 0
  freed := []

variable [DecidableEq P] [DecidableEq C]

/-- The loop body of `prior_acquire`, under `queue_lock`.  The `xchg` stores 1
whether or not it obtains the lock. -/
def attempt (pid : P → ℤ) (s : State P C) (p : P) (c : C) : State P C :=
  match s.queue with
  | [] => { s with fault := some .nullHead }
  | x :: _ =>
    if x.pid = pid p ∧ s.locked = false then
      match rmQueue (pid p) s.queue with
      | .error e => { s with locked := true, fault := some (.rm e) }
      | .ok (q, node) =>
        { s with
          locked := true
          queue := q
          freed := node.id :: s.freed
          pc := update s.pc p (.acquired c) }
    else s

/-- One step of the processes; `pid` gives their pids. -/
def step (pid : P → ℤ) [Fintype P] (s : State P C) (a : Act P C) : Option (State P C) :=
  if s.fault.isSome then none
  else match a with
  | .call p c =>
    if s.pc p = .out ∧ ∀ q, (s.pc q).cpu ≠ some c then
      some { s with pc := update s.pc p (.entered c) }
    else none
  | .readLocked p =>
    match s.pc p with
    | .entered c =>
      some { s with pc := update s.pc p (if s.locked then .checking c else .adding c) }
    | _ => none
  | .readCpu p =>
    match s.pc p with
    | .checking c =>
      if s.cpu = some c then some { s with fault := some .acquire }
      else some { s with pc := update s.pc p (.adding c) }
    | _ => none
  | .add p =>
    match s.pc p with
    | .adding c =>
      some { s with
        queue := addQueue ⟨s.nalloc, pid p⟩ s.queue
        nalloc := s.nalloc + 1
        pc := update s.pc p (.waiting c) }
    | _ => none
  | .attempt p =>
    match s.pc p with
    | .waiting c => some (attempt pid s p c)
    | _ => none
  | .setCpu p =>
    match s.pc p with
    | .acquired c =>
      some { s with cpu := some c, pc := update s.pc p (.critical c) }
    | _ => none
  | .release p =>
    match s.pc p with
    | .critical c =>
      if s.locked ∧ s.cpu = some c then
        some { s with cpu := none, pc := update s.pc p (.releasing c) }
      else some { s with fault := some .release }
    | _ => none
  | .unlock p =>
    match s.pc p with
    | .releasing _ => some { s with locked := false, pc := update s.pc p .out }
    | _ => none

/-- The lock and the processes `P`, with the given pids, on the CPUs `C`. -/
def system (C : Type) [DecidableEq C] [Fintype P] (pid : P → ℤ) : Lts (State P C) (Act P C) where
  init s := s = initial
  step := step pid

/-! ## What a step can do -/

/-- The branches of the code.  `rm_queue` is called for the pid at the head, so
it removes the head. -/
inductive Moves (pid : P → ℤ) (s : State P C) : Act P C → State P C → Prop
  | call {p : P} {c : C} : s.pc p = .out → (∀ q, (s.pc q).cpu ≠ some c) →
      Moves pid s (.call p c) { s with pc := update s.pc p (.entered c) }
  | readLocked {p : P} {c : C} {v : Pc C} : s.pc p = .entered c → v = .checking c ∨ v = .adding c →
      Moves pid s (.readLocked p) { s with pc := update s.pc p v }
  | acquirePanic {p : P} {c : C} : s.pc p = .checking c → s.cpu = some c →
      Moves pid s (.readCpu p) { s with fault := some .acquire }
  | readCpu {p : P} {c : C} : s.pc p = .checking c →
      Moves pid s (.readCpu p) { s with pc := update s.pc p (.adding c) }
  | add {p : P} {c : C} : s.pc p = .adding c →
      Moves pid s (.add p)
        { s with
          queue := addQueue ⟨s.nalloc, pid p⟩ s.queue
          nalloc := s.nalloc + 1
          pc := update s.pc p (.waiting c) }
  | nullHead {p : P} {c : C} : s.pc p = .waiting c → s.queue = [] →
      Moves pid s (.attempt p) { s with fault := some .nullHead }
  | spin {p : P} {c : C} : s.pc p = .waiting c → Moves pid s (.attempt p) s
  | obtain {p : P} {c : C} {x : QNode} {q : List QNode} : s.pc p = .waiting c →
      s.queue = x :: q → x.pid = pid p → s.locked = false →
      Moves pid s (.attempt p)
        { s with
          locked := true
          queue := q
          freed := x.id :: s.freed
          pc := update s.pc p (.acquired c) }
  | setCpu {p : P} {c : C} : s.pc p = .acquired c →
      Moves pid s (.setCpu p) { s with cpu := some c, pc := update s.pc p (.critical c) }
  | release {p : P} {c : C} : s.pc p = .critical c →
      Moves pid s (.release p) { s with cpu := none, pc := update s.pc p (.releasing c) }
  | releasePanic {p : P} {c : C} : s.pc p = .critical c → ¬ (s.locked = true ∧ s.cpu = some c) →
      Moves pid s (.release p) { s with fault := some .release }
  | unlock {p : P} {c : C} : s.pc p = .releasing c →
      Moves pid s (.unlock p) { s with locked := false, pc := update s.pc p .out }

variable {p : P} {c : C} {t : State P C} {a : Act P C}

omit [DecidableEq C] in
theorem attempt_moves {pid : P → ℤ} {s : State P C} (hp : s.pc p = .waiting c) :
    Moves pid s (.attempt p) (attempt pid s p c) := by
  unfold attempt
  split
  · rename_i hq
    exact .nullHead hp hq
  · rename_i x q hq
    by_cases hx : x.pid = pid p ∧ s.locked = false
    · have hrm : rmQueue (pid p) s.queue = .ok (q, x) := by rw [hq, rmQueue, if_pos hx.1]
      rw [if_pos hx, hrm]
      exact .obtain hp hq hx.1 hx.2
    · rw [if_neg hx]
      exact .spin hp

theorem moves_of_step [Fintype P] {pid : P → ℤ} {s : State P C} (h : step pid s a = some t) :
    Moves pid s a t := by
  obtain ⟨-, h⟩ := Option.ite_none_left_eq_some.1 h
  cases a with
  | call p c =>
    obtain ⟨hg, ht⟩ := Option.ite_none_right_eq_some.1 h
    cases ht
    exact .call hg.1 hg.2
  | readLocked p =>
    dsimp only at h
    split at h
    · rename_i c hp
      cases h
      refine .readLocked hp ?_
      by_cases hl : s.locked = true
      · exact .inl (if_pos hl)
      · exact .inr (if_neg hl)
    · cases h
  | readCpu p =>
    dsimp only at h
    split at h
    · rename_i c hp
      by_cases hc : s.cpu = some c
      · rw [if_pos hc] at h
        cases h
        exact .acquirePanic hp hc
      · rw [if_neg hc] at h
        cases h
        exact .readCpu hp
    · cases h
  | add p =>
    dsimp only at h
    split at h
    · rename_i c hp
      cases h
      exact .add hp
    · cases h
  | attempt p =>
    dsimp only at h
    split at h
    · rename_i c hp
      cases h
      exact attempt_moves hp
    · cases h
  | setCpu p =>
    dsimp only at h
    split at h
    · rename_i c hp
      cases h
      exact .setCpu hp
    · cases h
  | release p =>
    dsimp only at h
    split at h
    · rename_i c hp
      by_cases hc : s.locked = true ∧ s.cpu = some c
      · rw [if_pos hc] at h
        cases h
        exact .release hp
      · rw [if_neg hc] at h
        cases h
        exact .releasePanic hp hc
    · cases h
  | unlock p =>
    dsimp only at h
    split at h
    · rename_i c hp
      cases h
      exact .unlock hp
    · cases h

/-! ## The invariant -/

/-- How the lock hangs together with the processes. -/
structure LockInv (pid : P → ℤ) (s : State P C) : Prop where
  noFault : s.fault = none
  cpuUnique : ∀ p q c, (s.pc p).cpu = some c → (s.pc q).cpu = some c → p = q
  locked_iff : s.locked = true ↔ ∃ p, (s.pc p).holds = true
  holder : ∀ p q, (s.pc p).holds = true → (s.pc q).holds = true → p = q
  cpu_iff : ∀ c, s.cpu = some c ↔ ∃ p, s.pc p = .critical c
  descending : Descending s.queue
  mem_queue : ∀ x, x ∈ s.queue.map QNode.pid ↔ ∃ p, (s.pc p).waits = true ∧ pid p = x
  nodes : (s.freed ++ s.queue.map QNode.id).Perm (List.range s.nalloc)

omit [DecidableEq P] [DecidableEq C] in
theorem lockInv_initial (pid : P → ℤ) : LockInv pid (initial : State P C) := by
  refine ⟨rfl, ?_, ?_, ?_, ?_, List.Pairwise.nil, ?_, List.Perm.refl _⟩ <;>
    simp [initial, Pc.cpu, Pc.holds, Pc.waits]

section

variable {pid : P → ℤ} {s : State P C} {v : Pc C}

omit [DecidableEq C]

theorem update_forall {f : Pc C → Bool} (hv : f v = f (s.pc p)) (q : P) :
    f (update s.pc p v q) = f (s.pc q) := by
  by_cases hq : q = p
  · subst hq; rw [update_self, hv]
  · rw [update_of_ne hq]

theorem LockInv.cpuUnique_update (h : LockInv pid s)
    (hv : ∀ c, v.cpu = some c → (s.pc p).cpu = some c) :
    ∀ q q' c, (update s.pc p v q).cpu = some c →
      (update s.pc p v q').cpu = some c → q = q' := by
  have hback : ∀ q c, (update s.pc p v q).cpu = some c → (s.pc q).cpu = some c := by
    intro q c hq
    by_cases hqp : q = p
    · subst hqp
      rw [update_self] at hq
      exact hv c hq
    · rwa [update_of_ne hqp] at hq
  intro q q' c hq hq'
  exact h.cpuUnique q q' c (hback q c hq) (hback q' c hq')

theorem LockInv.move (h : LockInv pid s) (hw : v.waits = (s.pc p).waits)
    (hh : v.holds = (s.pc p).holds) (hc : ∀ c, v ≠ .critical c ∧ s.pc p ≠ .critical c)
    (hcpu : ∀ q q' c, (update s.pc p v q).cpu = some c →
      (update s.pc p v q').cpu = some c → q = q') :
    LockInv pid { s with pc := update s.pc p v } := by
  refine ⟨h.noFault, hcpu, ?_, ?_, ?_, h.descending, ?_, h.nodes⟩
  · simp only [update_forall hh]
    exact h.locked_iff
  · simp only [update_forall hh]
    exact h.holder
  · intro c
    rw [show ({ s with pc := update s.pc p v } : State P C).cpu = s.cpu from rfl,
      h.cpu_iff c]
    refine exists_congr fun q => ?_
    by_cases hq : q = p
    · subst hq; simp [(hc c).1, (hc c).2]
    · simp [hq]
  · simp only [update_forall hw]
    exact h.mem_queue

theorem LockInv.add (hinj : Function.Injective pid) (h : LockInv pid s) (hp : s.pc p = .adding c) :
    LockInv pid { s with
      queue := addQueue ⟨s.nalloc, pid p⟩ s.queue
      nalloc := s.nalloc + 1
      pc := update s.pc p (.waiting c) } := by
  have hh : (Pc.waiting c).holds = (s.pc p).holds := by simp [hp, Pc.holds]
  have hperm := perm_addQueue ⟨s.nalloc, pid p⟩ s.queue
  -- the process was not waiting, so its pid is not in the queue
  have hnew : ∀ x ∈ s.queue, x.pid ≠ pid p := by
    intro x hx heq
    obtain ⟨q, hq, hpid⟩ := (h.mem_queue (pid p)).1 (mem_map.2 ⟨x, hx, heq⟩)
    rw [hinj hpid, hp] at hq
    simp [Pc.waits] at hq
  refine ⟨h.noFault, h.cpuUnique_update (by simp [hp, Pc.cpu]), ?_, ?_, ?_,
    descending_addQueue h.descending hnew, ?_, ?_⟩
  · simp only [update_forall hh]
    exact h.locked_iff
  · simp only [update_forall hh]
    exact h.holder
  · intro c'
    refine (h.cpu_iff c').trans (exists_congr fun q => ?_)
    by_cases hq : q = p
    · subst hq; simp [hp]
    · simp [hq]
  · intro x
    show x ∈ (addQueue _ _).map QNode.pid ↔ _
    rw [(hperm.map QNode.pid).mem_iff, map_cons, mem_cons, h.mem_queue x]
    constructor
    · rintro (rfl | ⟨q, hq, rfl⟩)
      · exact ⟨p, by simp [Pc.waits], rfl⟩
      · have hqp : q ≠ p := by rintro rfl; simp [hp, Pc.waits] at hq
        exact ⟨q, by simpa [hqp] using hq, rfl⟩
    · rintro ⟨q, hq, rfl⟩
      by_cases hqp : q = p
      · exact .inl (by rw [hqp])
      · exact .inr ⟨q, by simpa [hqp] using hq, rfl⟩
  · show (s.freed ++ (addQueue _ _).map QNode.id).Perm (List.range (s.nalloc + 1))
    rw [range_succ]
    refine ((hperm.map QNode.id).append_left s.freed).trans ?_
    rw [map_cons]
    exact perm_middle.trans ((h.nodes.cons _).trans (perm_append_singleton _ _).symm)

theorem LockInv.obtain (hinj : Function.Injective pid) (h : LockInv pid s) {x : QNode}
    {q : List QNode} (hp : s.pc p = .waiting c) (hq : s.queue = x :: q) (hx : x.pid = pid p)
    (hl : s.locked = false) :
    LockInv pid { s with
      locked := true
      queue := q
      freed := x.id :: s.freed
      pc := update s.pc p (.acquired c) } := by
  have hnone : ∀ r, (s.pc r).holds = false := by
    intro r
    by_contra hr
    have hlocked := h.locked_iff.2 ⟨r, by simpa using hr⟩
    simp [hl] at hlocked
  have honly : ∀ r, (update s.pc p (Pc.acquired c) r).holds = true → r = p := by
    intro r hr
    by_contra hrp
    rw [update_of_ne hrp, hnone r] at hr
    simp at hr
  have hdesc := h.descending
  rw [hq] at hdesc
  refine ⟨h.noFault, h.cpuUnique_update (by simp [hp, Pc.cpu]), ?_, ?_, ?_,
    (pairwise_cons.1 hdesc).2, ?_, ?_⟩
  · exact ⟨fun _ => ⟨p, by simp [Pc.holds]⟩, fun _ => rfl⟩
  · intro r r' hr hr'
    rw [honly r hr, honly r' hr']
  · intro c'
    refine (h.cpu_iff c').trans (exists_congr fun r => ?_)
    by_cases hr : r = p
    · subst hr; simp [hp]
    · simp [hr]
  · intro y
    have hy := h.mem_queue y
    rw [hq, map_cons, mem_cons] at hy
    show y ∈ q.map QNode.pid ↔ _
    constructor
    · intro hmem
      obtain ⟨r, hr, rfl⟩ := hy.1 (Or.inr hmem)
      have hrp : r ≠ p := by
        rintro rfl
        obtain ⟨z, hz, hzp⟩ := mem_map.1 hmem
        have hlt := (pairwise_cons.1 hdesc).1 z hz
        omega
      exact ⟨r, by simpa [hrp] using hr, rfl⟩
    · rintro ⟨r, hr, rfl⟩
      have hrp : r ≠ p := by rintro rfl; simp [Pc.waits] at hr
      rcases hy.2 ⟨r, by simpa [hrp] using hr, rfl⟩ with hyx | hyq
      · exact absurd (hinj (hyx.trans hx)) hrp
      · exact hyq
  · have hn := h.nodes
    rw [hq, map_cons] at hn
    exact perm_middle.symm.trans hn

theorem LockInv.setCpu (h : LockInv pid s) (hp : s.pc p = .acquired c) :
    LockInv pid { s with cpu := some c, pc := update s.pc p (.critical c) } := by
  have hw : (Pc.critical c).waits = (s.pc p).waits := by simp [hp, Pc.waits]
  have hh : (Pc.critical c).holds = (s.pc p).holds := by simp [hp, Pc.holds]
  refine ⟨h.noFault, h.cpuUnique_update (by simp [hp, Pc.cpu]), ?_, ?_, ?_, h.descending, ?_, h.nodes⟩
  · simp only [update_forall hh]
    exact h.locked_iff
  · simp only [update_forall hh]
    exact h.holder
  · intro c'
    constructor
    · rintro hc
      cases hc
      exact ⟨p, by simp⟩
    · rintro ⟨q, hq⟩
      -- the holder is unique, so the process in the critical section is this one
      have hqp : q = p := by
        by_contra hqp
        simp only [update_of_ne hqp] at hq
        exact hqp (h.holder q p (by simp [hq, Pc.holds]) (by simp [hp, Pc.holds]))
      subst hqp
      simpa using hq
  · simp only [update_forall hw]
    exact h.mem_queue

theorem LockInv.release (h : LockInv pid s) (hp : s.pc p = .critical c) :
    LockInv pid { s with cpu := none, pc := update s.pc p (.releasing c) } := by
  have hw : (Pc.releasing c).waits = (s.pc p).waits := by simp [hp, Pc.waits]
  have hh : (Pc.releasing c).holds = (s.pc p).holds := by simp [hp, Pc.holds]
  refine ⟨h.noFault, h.cpuUnique_update (by simp [hp, Pc.cpu]), ?_, ?_, ?_, h.descending, ?_, h.nodes⟩
  · simp only [update_forall hh]
    exact h.locked_iff
  · simp only [update_forall hh]
    exact h.holder
  · intro c'
    constructor
    · intro hc
      cases hc
    · rintro ⟨q, hq⟩
      have hqp : q ≠ p := by rintro rfl; simp at hq
      simp only [update_of_ne hqp] at hq
      exact absurd (h.holder q p (by simp [hq, Pc.holds]) (by simp [hp, Pc.holds])) hqp
  · simp only [update_forall hw]
    exact h.mem_queue

theorem LockInv.unlock (h : LockInv pid s) (hp : s.pc p = .releasing c) :
    LockInv pid { s with locked := false, pc := update s.pc p .out } := by
  have hw : (Pc.out : Pc C).waits = (s.pc p).waits := by simp [hp, Pc.waits]
  have hnone : ∀ q, (update s.pc p Pc.out q).holds = false := by
    intro q
    by_cases hqp : q = p
    · subst hqp; simp [Pc.holds]
    · rw [update_of_ne hqp]
      by_contra hq
      exact hqp (h.holder q p (by simpa using hq) (by simp [hp, Pc.holds]))
  refine ⟨h.noFault, h.cpuUnique_update (by simp [Pc.cpu]), ?_, ?_, ?_, h.descending, ?_, h.nodes⟩
  · simp [hnone]
  · intro q q' hq
    simp [hnone] at hq
  · intro c'
    refine (h.cpu_iff c').trans (exists_congr fun q => ?_)
    by_cases hq : q = p
    · subst hq; simp [hp]
    · simp [hq]
  · simp only [update_forall hw]
    exact h.mem_queue

theorem LockInv.step [DecidableEq C] [Fintype P] (hinj : Function.Injective pid) (h : LockInv pid s)
    (hst : step pid s a = some t) : LockInv pid t := by
  cases moves_of_step hst with
  | @call p c hp hfree =>
    refine h.move (by simp [hp, Pc.waits]) (by simp [hp, Pc.holds]) (by simp [hp]) ?_
    intro q q' c' hq hq'
    by_cases hqp : q = p <;> by_cases hqp' : q' = p
    · rw [hqp, hqp']
    · subst hqp
      simp only [update_self, update_of_ne hqp', Pc.cpu, Option.some.injEq] at hq hq'
      exact absurd (hq ▸ hq') (hfree q')
    · subst hqp'
      simp only [update_self, update_of_ne hqp, Pc.cpu, Option.some.injEq] at hq hq'
      exact absurd (hq' ▸ hq) (hfree q)
    · rw [update_of_ne hqp] at hq
      rw [update_of_ne hqp'] at hq'
      exact h.cpuUnique q q' c' hq hq'
  | readLocked hp hv =>
    rcases hv with rfl | rfl <;>
      exact h.move (by simp [hp, Pc.waits]) (by simp [hp, Pc.holds]) (by simp [hp])
        (h.cpuUnique_update (by simp [hp, Pc.cpu]))
  | @acquirePanic p c hp hc =>
    -- the recorded CPU is the holder's, and no other process runs there
    obtain ⟨q, hq⟩ := (h.cpu_iff c).1 hc
    have hqp := h.cpuUnique q p c (by simp [hq, Pc.cpu]) (by simp [hp, Pc.cpu])
    rw [hqp, hp] at hq
    cases hq
  | readCpu hp =>
    exact h.move (by simp [hp, Pc.waits]) (by simp [hp, Pc.holds]) (by simp [hp])
      (h.cpuUnique_update (by simp [hp, Pc.cpu]))
  | add hp => exact h.add hinj hp
  | @nullHead p c hp hq =>
    -- a waiting process has its pid in the queue
    have hmem := (h.mem_queue (pid p)).2 ⟨p, by simp [hp, Pc.waits], rfl⟩
    simp [hq] at hmem
  | spin _ => exact h
  | obtain hp hq hx hl => exact h.obtain hinj hp hq hx hl
  | setCpu hp => exact h.setCpu hp
  | release hp => exact h.release hp
  | @releasePanic p c hp hno =>
    refine absurd ⟨h.locked_iff.2 ⟨p, by simp [hp, Pc.holds]⟩, (h.cpu_iff c).2 ⟨p, hp⟩⟩ hno
  | unlock hp => exact h.unlock hp

end

/-! ## The protocol -/

omit [DecidableEq C] in
theorem holds_update {s : State P C} {q : P} {v : Pc C} (hs : (s.pc p).holds = false)
    (ht : (update s.pc q v p).holds = true) :
    p = q ∧ v.holds = true := by
  by_cases hpq : p = q
  · subst hpq
    exact ⟨rfl, by simpa using ht⟩
  · rw [update_of_ne hpq, hs] at ht
    cases ht

omit [DecidableEq C] in
theorem Moves.obtained {pid : P → ℤ} {s : State P C} (h : Moves pid s a t)
    (hs : (s.pc p).holds = false) (ht : (t.pc p).holds = true) :
    ∃ x q, s.queue = x :: q ∧ x.pid = pid p ∧ t.queue = q ∧ t.freed = x.id :: s.freed := by
  cases h with
  | call _ _ => exact absurd (holds_update hs ht).2 (by simp [Pc.holds])
  | readLocked _ hv =>
    have hh := (holds_update hs ht).2
    rcases hv with rfl | rfl <;> simp [Pc.holds] at hh
  | readCpu _ => exact absurd (holds_update hs ht).2 (by simp [Pc.holds])
  | add _ => exact absurd (holds_update hs ht).2 (by simp [Pc.holds])
  | obtain _ hq hx _ =>
    obtain ⟨rfl, -⟩ := holds_update hs ht
    exact ⟨_, _, hq, hx, rfl, rfl⟩
  | setCpu hp =>
    obtain ⟨rfl, -⟩ := holds_update hs ht
    simp [hp, Pc.holds] at hs
  | release hp =>
    obtain ⟨rfl, -⟩ := holds_update hs ht
    simp [hp, Pc.holds] at hs
  | unlock _ => exact absurd (holds_update hs ht).2 (by simp [Pc.holds])
  | _ => exact absurd (hs.symm.trans ht) (by simp)

/-- The lock word, the queue and the nodes in every reachable state.  For any
number of processes with distinct pids on any number of CPUs and any order of
their steps:

* at most one process is between a successful `prior_acquire` and the end of
  its `p_release`;
* the queue holds exactly the pids of the processes waiting in `prior_acquire`,
  in strictly decreasing order;
* a process that obtains the lock has the largest pid of the queue at that step,
  and frees its own node;
* no null head is dereferenced and no panic is reached;
* every node allocated by `add_queue` is in the queue or has been freed, and
  none twice. -/
theorem priority_lock_protocol [Fintype P] {pid : P → ℤ} (hinj : Function.Injective pid)
    {s : State P C} (h : (system C pid).Reach (fun _ _ => True) s) :
    (∀ p q, (s.pc p).holds = true → (s.pc q).holds = true → p = q) ∧
      (∀ x, x ∈ s.queue.map QNode.pid ↔ ∃ p, (s.pc p).waits = true ∧ pid p = x) ∧
      (s.queue.map QNode.pid).Pairwise (fun a b => b < a) ∧
      (∀ p a t, step pid s a = some t → (s.pc p).holds = false → (t.pc p).holds = true →
        (∀ x ∈ s.queue.map QNode.pid, x ≤ pid p) ∧
          ∃ x q, s.queue = x :: q ∧ x.pid = pid p ∧ t.queue = q ∧ t.freed = x.id :: s.freed) ∧
      s.fault = none ∧
      (s.freed ++ s.queue.map QNode.id).Perm (List.range s.nalloc) := by
  have hinv : LockInv pid s := by
    refine Lts.Reach.invariant ?_ ?_ h
    · rintro s rfl
      exact lockInv_initial pid
    · intro s a t hs _ hst
      exact hs.step hinj hst
  refine ⟨hinv.holder, hinv.mem_queue, ?_, ?_, hinv.noFault, hinv.nodes⟩
  · rw [pairwise_map]
    exact hinv.descending
  · intro p a t hst hs ht
    obtain ⟨z, q, hq, hz, hrest⟩ := (moves_of_step hst).obtained hs ht
    refine ⟨?_, z, q, hq, hz, hrest⟩
    intro x hx
    obtain ⟨y, hy, rfl⟩ := mem_map.1 hx
    have hdesc := hinv.descending
    rw [hq] at hy hdesc
    rw [← hz]
    exact hdesc.le_head y hy

/-- Processes 0 and 1, with the pids 4 and 9, wait on two CPUs; process 1 is the
one to obtain the lock although it came second. -/
theorem priority_lock_two_waiters :
    ∃ s : State (Fin 2) (Fin 2), ∃ t,
      (system (Fin 2) ![(4 : ℤ), 9]).Reach (fun _ _ => True) s ∧
        s.queue.map QNode.pid = [9, 4] ∧ step ![(4 : ℤ), 9] s (.attempt 1) = some t ∧
        (t.pc 1).holds = true ∧ t.queue.map QNode.pid = [4] ∧ t.freed = [1] ∧
        (∀ x ∈ s.queue.map QNode.pid, x ≤ 9) ∧ s.fault = none := by
  have h₀ : (system (Fin 2) ![(4 : ℤ), 9]).Reach (fun _ _ => True) initial := .init rfl
  obtain ⟨s, hs, hv⟩ := Lts.reach_of_exec_map
    [.call 0 0, .readLocked 0, .add 0, .call 1 1, .readLocked 1, .add 1]
    (fun s => (s.queue.map QNode.pid, (s.pc 1).holds,
      (step ![(4 : ℤ), 9] s (.attempt 1)).map fun t => ((t.pc 1).holds, t.freed)))
    ([9, 4], false, some (true, [1])) h₀ (by decide)
  simp only [Prod.mk.injEq, Option.map_eq_some_iff] at hv
  obtain ⟨hq, hout, t, ht, hholds, hfreed⟩ := hv
  obtain ⟨-, -, -, hmax, hfault, -⟩ := priority_lock_protocol (by decide) hs
  obtain ⟨hle, x, q, hsq, -, htq, -⟩ := hmax 1 _ t ht hout hholds
  rw [hsq, map_cons, cons.injEq, ← htq] at hq
  refine ⟨s, t, hs, ?_, ht, hholds, hq.2, hfreed, hle, hfault⟩
  rw [hsq, map_cons, hq.1, ← htq, hq.2]

end Xv6.Lock
