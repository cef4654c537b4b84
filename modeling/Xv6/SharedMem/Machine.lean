import Xv6.Mem.Held

/-!
# Shared memory pages

`sys_open_sharedmem` and `sys_close_sharedmem` of `sysutils.c`, run by any number
of processes together with `fork`, `exit` and `wait`.

`open` runs under `main_mem.lock`; `close` takes no lock.  Every read and every
write of `ref_count` and `frame`, every `kalloc`, `kfree` and `mappages` is a
step of its own.  `fork`, `exit` and `wait` touch only the caller's and the
child's memory and the allocator, and are one step each.

The source leaves out the expression for the virtual address that `open` maps;
here it is an argument of the step.  The pointer `open` hands back in `*res` is
not kept: no other code reads it.
-/

namespace Xv6.SharedMem

open Xv6.Lib Xv6.Mem Function List Option

def PAGE_COUNT : ℕ := 10

instance : NeZero PAGE_COUNT := ⟨by decide⟩

/-- An index into `main_mem.pages`. -/
abbrev Id := Fin PAGE_COUNT

structure SharedPage where
  refCount : ℤ
  frame : Page
  deriving DecidableEq

/-- `++` on an `int`. -/
def incr (n : ℤ) : ℤ := Int.bmod (n + 1) (2 ^ 32)

/-- `--` on an `int`. -/
def decr (n : ℤ) : ℤ := Int.bmod (n - 1) (2 ^ 32)

/-- What `struct proc` says about the memory of a process. -/
structure Proc (P : Type) where
  zombie : Bool
  parent : Option P
  sz : ℕ
  pgdir : Pgdir
  kstack : Page

/-- The kernel's own pages of a process. -/
def Proc.kpages {P : Type} (pr : Proc P) : Multiset Page := {pr.kstack} + pr.pgdir.kpages

/-- Where a process is.  In `open`, `new` is the page from `kalloc` when the
count was 0. -/
inductive Pc
  | user
  /-- `open` has `main_mem.lock` and is about to test `ref_count`. -/
  | openTest (id : Id)
  | openAlloc (id : Id)
  | openMap (id : Id) (new : Option Page)
  /-- About to read `ref_count` for the increment. -/
  | openRead (id : Id) (new : Option Page)
  /-- About to store `ref_count`, read as `n`. -/
  | openWrite (id : Id) (new : Option Page) (n : ℤ)
  | openFrame (id : Id) (v : Page)
  /-- About to release `main_mem.lock`. -/
  | openDone (id : Id)
  /-- `close` is about to read `ref_count`. -/
  | closeRead (id : Id)
  /-- About to store `ref_count`, read as `n`. -/
  | closeWrite (id : Id) (n : ℤ)
  | closeTest (id : Id)
  | closeFree (id : Id)
  deriving DecidableEq

/-- The shared page a call in progress is about. -/
def Pc.id? : Pc → Option Id
  | .user => none
  | .openTest id | .openAlloc id | .openMap id _ | .openRead id _ | .openWrite id _ _
  | .openFrame id _ | .openDone id | .closeRead id | .closeWrite id _ | .closeTest id
  | .closeFree id => some id

/-- The process is in `open` and has `main_mem.lock`. -/
def Pc.opens : Pc → Bool
  | .openTest _ | .openAlloc _ | .openMap _ _ | .openRead _ _ | .openWrite _ _ _
  | .openFrame _ _ | .openDone _ => true
  | _ => false

/-- The allocator, `main_mem` and the processes; a process slot that is `UNUSED`
is `none`. -/
structure State (P : Type) where
  kmem : Kmem
  pages : Id → SharedPage
  /-- The holder of `main_mem.lock`. -/
  lock : Option P
  proc : P → Option (Proc P)
  pc : P → Pc
  /-- The fault that stopped the machine, if one did. -/
  fault : Option Fault
  /-- How often each process has counted itself in. -/
  opens : P → Id → ℕ
  /-- How often each process has counted itself out. -/
  closes : P → Id → ℕ
  /-- The frames at the moments the count was brought to 0, the last one first. -/
  zeroed : Id → List Page
  /-- The frames `close` gave to `kfree`, the last one first. -/
  freed : Id → List Page
  /-- A process that had counted itself in has been reaped. -/
  reaped : Id → Bool

/-- The steps. -/
inductive Act (P : Type)
  /-- Call `open` and take `main_mem.lock`. -/
  | openCall (p : P) (id : Id)
  | closeCall (p : P) (id : Id)
  /-- The next step of the call `p` is in; `va` is the page `open` maps to. -/
  | next (p : P) (va : Page)
  /-- `fork`, with the `UNUSED` slot `c` for the child. -/
  | fork (p c : P)
  | exit (p : P)
  /-- `wait`, reaping the child `c`. -/
  | wait (p c : P)

variable {P : Type} [DecidableEq P]

/-- The process leaves its call, or goes on to `v`. -/
def State.goto (s : State P) (p : P) (v : Pc) : State P := { s with pc := update s.pc p v }

/-- A step that ran into a fault. -/
def State.stop (s : State P) (f : Fault) : State P := { s with fault := some f }

/-- `mappages(pgdir, va, PGSIZE, V2P(v), PTE_W|PTE_U)` in the page directory of a
process; `open` does not look at the result. -/
def openMap (s : State P) (p : P) (pr : Proc P) (id : Id) (new : Option Page) (va : Page) : State P :=
  match mappages (base va) PGSIZE (V2P (new.getD (s.pages id).frame)) (PTE_W ||| PTE_U) s.kmem
      pr.pgdir with
  | .error f => s.stop f
  | .ok (_, k, pd) =>
    { s.goto p (.openRead id new) with
      kmem := k
      proc := update s.proc p (some { pr with pgdir := pd }) }

/-- `*res = kalloc(); memset(*res, 0, PGSIZE)`.  The null pointer is not checked:
the kernel then clears whatever the process has mapped at address 0. -/
def openAlloc (s : State P) (p : P) (pr : Proc P) (id : Id) : State P :=
  match kalloc (.shared id) s.kmem with
  | some (v, k) => { s.goto p (.openMap id (some v)) with kmem := k.memset v 0 }
  | none =>
    match pr.pgdir.lookup 0 with
    | none => s.stop .trap
    | some e => { s.goto p (.openMap id (some 0)) with kmem := s.kmem.memset (P2V e.pa) 0 }

/-- The store of `ref_count++`. -/
def openWrite (s : State P) (p : P) (id : Id) (new : Option Page) (n : ℤ) : State P :=
  { s.goto p (match new with | some v => .openFrame id v | none => .openDone id) with
    pages := update s.pages id { s.pages id with refCount := incr n }
    opens := update s.opens p (update (s.opens p) id (s.opens p id + 1)) }

/-- The store of `ref_count--`. -/
def closeWrite (s : State P) (p : P) (id : Id) (n : ℤ) : State P :=
  { s.goto p (.closeTest id) with
    pages := update s.pages id { s.pages id with refCount := decr n }
    closes := update s.closes p (update (s.closes p) id (s.closes p id + 1))
    zeroed :=
      if decr n = 0 then update s.zeroed id ((s.pages id).frame :: s.zeroed id)
      else s.zeroed }

def closeFree (L : Layout) (s : State P) (p : P) (id : Id) : State P :=
  match kfree L (s.pages id).frame s.kmem with
  | .error f => s.stop f
  | .ok k =>
    { s.goto p .user with
      kmem := k
      freed := update s.freed id ((s.pages id).frame :: s.freed id) }

/-- The next step of the call a process is in. -/
def next (L : Layout) (s : State P) (p : P) (pr : Proc P) (va : Page) : Option (State P) :=
  match s.pc p with
  | .user => none
  | .openTest id =>
    some (s.goto p (if (s.pages id).refCount = 0 then .openAlloc id else .openMap id none))
  | .openAlloc id => some (openAlloc s p pr id)
  | .openMap id new => some (openMap s p pr id new va)
  | .openRead id new => some (s.goto p (.openWrite id new (s.pages id).refCount))
  | .openWrite id new n => some (openWrite s p id new n)
  | .openFrame id v =>
    some { s.goto p (.openDone id) with
      pages := update s.pages id { s.pages id with frame := v } }
  | .openDone _ => some { s.goto p .user with lock := none }
  | .closeRead id => some (s.goto p (.closeWrite id (s.pages id).refCount))
  | .closeWrite id n => some (closeWrite s p id n)
  | .closeTest id => some (s.goto p (if (s.pages id).refCount = 0 then .closeFree id else .user))
  | .closeFree id => some (closeFree L s p id)

def fork (L : Layout) (s : State P) (p c : P) (pr : Proc P) : State P :=
  match kalloc .kernel s.kmem with
  | none => s
  | some (kstack, k) =>
    match copyuvm L pr.pgdir pr.sz k with
    | .error f => s.stop f
    | .ok (none, k) =>
      match kfree L kstack k with
      | .error f => s.stop f
      | .ok k => { s with kmem := k }
    | .ok (some d, k) =>
      { s with
        kmem := k
        proc := update s.proc c (some ⟨false, some p, pr.sz, d, kstack⟩) }

/-- `exit`: the children go to `initproc`, and the process becomes a zombie. -/
def exit (initproc : P) (s : State P) (p : P) : State P :=
  if p = initproc then s.stop .initExiting
  else
    { s with
      proc := fun q => (s.proc q).map fun pr =>
        { pr with
          parent := if pr.parent = some p then some initproc else pr.parent
          zombie := pr.zombie || decide (q = p) } }

/-- `wait`, when it finds the zombie `c`. -/
def wait (L : Layout) (s : State P) (c : P) (pr : Proc P) : State P :=
  match kfree L pr.kstack s.kmem with
  | .error f => s.stop f
  | .ok k =>
    match freevm L k pr.pgdir with
    | .error f => s.stop f
    | .ok k =>
      { s with
        kmem := k
        proc := update s.proc c none
        reaped := fun id => s.reaped id || decide (0 < s.opens c id) }

/-- The process, when it exists and is not a zombie. -/
def State.live (s : State P) (p : P) : Option (Proc P) := (s.proc p).filter fun pr => !pr.zombie

/-- One step of the machine. -/
def step (L : Layout) (initproc : P) (s : State P) (a : Act P) : Option (State P) :=
  if s.fault.isSome then none
  else match a with
  | .openCall p id =>
    if (s.live p).isSome ∧ s.pc p = .user ∧ s.lock = none then
      some { s.goto p (.openTest id) with lock := some p }
    else none
  | .closeCall p id =>
    if (s.live p).isSome ∧ s.pc p = .user then some (s.goto p (.closeRead id)) else none
  | .next p va => (s.live p).bind fun pr => next L s p pr va
  | .fork p c =>
    if s.pc p = .user ∧ (s.proc c).isNone then (s.live p).map fun pr => fork L s p c pr
    else none
  | .exit p => if (s.live p).isSome ∧ s.pc p = .user then some (exit initproc s p) else none
  | .wait p c =>
    if (s.live p).isSome ∧ s.pc p = .user then
      match s.proc c with
      | none => none
      | some pr => if pr.zombie ∧ pr.parent = some p then some (wait L s c pr) else none
    else none

/-- The pages the kernel keeps for the processes, each as often as it is kept. -/
def State.kpages [Fintype P] (s : State P) : Multiset Page := ∑ p, (s.proc p).elim 0 Proc.kpages

/-- How often the user part of a process maps a page. -/
def State.maps (s : State P) (p : P) (v : Page) : ℕ :=
  (s.proc p).elim 0 fun pr => pr.pgdir.uframes.count v

/-- The machine before any of the calls: processes with address spaces of their
own, and `main_mem` as `initmem` leaves it. -/
structure Initial [Fintype P] (L : Layout) (s : State P) : Prop where
  kmem : s.kmem.Ok L
  /-- `initmem`; `frame` is null in the data segment. -/
  pages : ∀ id, s.pages id = ⟨0, 0⟩
  lock : s.lock = none
  pc : ∀ p, s.pc p = .user
  fault : s.fault = none
  opens : ∀ p id, s.opens p id = 0
  closes : ∀ p id, s.closes p id = 0
  zeroed : ∀ id, s.zeroed id = []
  freed : ∀ id, s.freed id = []
  reaped : ∀ id, s.reaped id = false
  /-- The memory of a process ends below `KERNBASE`. -/
  size : ∀ p pr, s.proc p = some pr → Mem.pages pr.sz ≤ KERNBASE.toNat
  /-- No page of the kernel is kept for two purposes. -/
  kpages : s.kpages.Nodup
  /-- These pages were handed out for the kernel. -/
  kernel : ∀ p pr v, s.proc p = some pr → v ∈ pr.kpages → s.kmem.use v = some .kernel
  /-- The pages mapped in the user part were handed out for user memory. -/
  user : ∀ p v, 0 < s.maps p v → s.kmem.use v = some .user
  once : ∀ v, ∑ p, s.maps p v ≤ 1

/-- The processes `P`, of which `initproc` is the first. -/
def system [Fintype P] (L : Layout) (initproc : P) : Lts (State P) (Act P) where
  init := Initial L
  step := step L initproc

/-! ## A small machine -/

/-- A kernel of a few dozen pages. -/
def smallLayout : Layout where
  data := 0x80108
  kend := 0x80115
  link_lt := by decide
  data_le := by decide
  kend_lt := by decide

/-- Two processes with empty user memory, the second a child of the first, and
four free pages. -/
def twoProcs : State (Fin 2) where
  kmem :=
    { freelist := [0x80400, 0x80401, 0x80402, 0x80403]
      mem := fun _ _ => 0
      use := fun v =>
        if v ∈ [0x80300, 0x80301, 0x80302, 0x80303] then some .kernel else none }
  pages := fun _ => ⟨0, 0⟩
  lock := none
  proc := ![some ⟨false, none, 0, .empty 0x80300, 0x80301⟩,
    some ⟨false, some 0, 0, .empty 0x80302, 0x80303⟩]
  pc := fun _ => .user
  fault := none
  opens := fun _ _ => 0
  closes := fun _ _ => 0
  zeroed := fun _ => []
  freed := fun _ => []
  reaped := fun _ => false

theorem initial_twoProcs : Initial smallLayout twoProcs := by
  have hmaps : ∀ p v, twoProcs.maps p v = 0 := by
    intro p v
    fin_cases p <;> simp [State.maps, twoProcs, uframes_empty]
  refine ⟨⟨?_, ?_, ?_⟩, fun _ => rfl, rfl, fun _ => rfl, rfl, fun _ _ => rfl, fun _ _ => rfl,
    fun _ => rfl, fun _ => rfl, fun _ => rfl, ?_, ?_, ?_, ?_, ?_⟩
  · decide +kernel
  · intro v hv
    simp only [twoProcs, mem_cons, not_mem_nil, or_false] at hv
    rcases hv with rfl | rfl | rfl | rfl <;> decide +kernel
  · intro v hv
    simp only [twoProcs, mem_cons, not_mem_nil, or_false] at hv
    rcases hv with rfl | rfl | rfl | rfl <;> decide +kernel
  · intro p pr hp
    fin_cases p <;> cases hp <;> decide +kernel
  · simp only [State.kpages, twoProcs, Fin.sum_univ_two]
    simp [Proc.kpages, kpages_empty]
  · intro p pr v hp hv
    fin_cases p <;> cases hp <;> simp [Proc.kpages, kpages_empty] at hv <;>
      rcases hv with rfl | rfl <;> decide +kernel
  · intro p v hv
    rw [hmaps] at hv
    cases hv
  · intro v
    simp [hmaps]

/-! ## What a step can do -/

/-- The steps, with their guards. -/
inductive Moves (L : Layout) (initproc : P) (s : State P) : Act P → State P → Prop
  | openCall {p : P} {id : Id} : s.pc p = .user → s.lock = none →
      Moves L initproc s (.openCall p id) { s.goto p (.openTest id) with lock := some p }
  | closeCall {p : P} {id : Id} : s.pc p = .user →
      Moves L initproc s (.closeCall p id) (s.goto p (.closeRead id))
  | next {p : P} {va : Page} {pr : Proc P} {t : State P} : s.proc p = some pr →
      next L s p pr va = some t → Moves L initproc s (.next p va) t
  | fork {p c : P} {pr : Proc P} : s.proc p = some pr → s.proc c = none →
      Moves L initproc s (.fork p c) (fork L s p c pr)
  | exit {p : P} : Moves L initproc s (.exit p) (exit initproc s p)
  | wait {p c : P} {pr : Proc P} : s.proc c = some pr →
      Moves L initproc s (.wait p c) (wait L s c pr)

omit [DecidableEq P] in
theorem proc_of_live {s : State P} {p : P} {pr : Proc P} (h : s.live p = some pr) :
    s.proc p = some pr :=
  (filter_eq_some_iff.1 h).1

theorem moves_of_step {L : Layout} {initproc : P} {s t : State P} {a : Act P}
    (h : step L initproc s a = some t) : s.fault = none ∧ Moves L initproc s a t := by
  unfold step at h
  split at h
  · cases h
  · rename_i hfault
    refine ⟨by simpa using hfault, ?_⟩
    cases a with
    | openCall p id =>
      obtain ⟨⟨_, hp, hl⟩, ht⟩ := ite_none_right_eq_some.1 h
      cases ht
      exact .openCall hp hl
    | closeCall p id =>
      obtain ⟨⟨_, hp⟩, ht⟩ := ite_none_right_eq_some.1 h
      cases ht
      exact .closeCall hp
    | next p va =>
      obtain ⟨pr, hpr, ht⟩ := bind_eq_some_iff.1 h
      exact .next (proc_of_live hpr) ht
    | fork p c =>
      obtain ⟨⟨_, hc⟩, ht⟩ := ite_none_right_eq_some.1 h
      obtain ⟨pr, hpr, rfl⟩ := map_eq_some_iff.1 ht
      exact .fork (proc_of_live hpr) (by simpa using hc)
    | exit p =>
      obtain ⟨_, ht⟩ := ite_none_right_eq_some.1 h
      cases ht
      exact .exit
    | wait p c =>
      obtain ⟨_, ht⟩ := ite_none_right_eq_some.1 h
      split at ht
      · cases ht
      · rename_i pr hpr
        obtain ⟨_, ht⟩ := ite_none_right_eq_some.1 ht
        cases ht
        exact .wait hpr

theorem fork_held {L : Layout} {M X : Multiset Page} {s : State P} {p c : P} {pr : Proc P}
    (hM : M.Nodup) (h : Held L M s.kmem X) (hsize : Mem.pages pr.sz ≤ KERNBASE.toNat) :
    fork L s p c pr = s ∨ (∃ f, fork L s p c pr = s.stop f ∧ f ≠ .doubleFree) ∨
    (∃ k, fork L s p c pr = { s with kmem := k } ∧ Held L M k X) ∨
    ∃ kstack d k, fork L s p c pr = { s with
        kmem := k
        proc := update s.proc c (some ⟨false, some p, pr.sz, d, kstack⟩) } ∧
      Held L M k (d.all + ({kstack} + X)) := by
  rw [fork]
  split
  · exact .inl rfl
  · rename_i kstack k hk
    have htaken := h.kalloc hk
    have hcopy := htaken.copyuvm pr.pgdir hM hsize
    split
    · rename_i f hf
      rw [hf] at hcopy
      exact .inr (.inl ⟨f, rfl, hcopy⟩)
    · rename_i k₁ hk₁
      rw [hk₁] at hcopy
      have hfree := (Held.congr hcopy (zero_add _)).kfree hM
      split
      · rename_i f hf
        rw [hf] at hfree
        exact .inr (.inl ⟨f, rfl, hfree⟩)
      · rename_i k₂ hk₂
        rw [hk₂] at hfree
        exact .inr (.inr (.inl ⟨k₂, rfl, hfree⟩))
    · rename_i d k₁ hk₁
      rw [hk₁] at hcopy
      exact .inr (.inr (.inr ⟨kstack, d, k₁, rfl, hcopy⟩))

end Xv6.SharedMem
