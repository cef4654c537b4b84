import Xv6.Lib.Lts

/-!
# Counting system calls

`syscall` of `syscall.c` counts every system call twice: in `num_sys_calls` of the CPU it
finishes on and in `shared_syscall_num`, both under the lock `shared_int`.

A process runs on one CPU at a time and may be taken off it and put on another one
whenever interrupts are on, which they are except between `pushcli` of `acquire` and
`popcli` of `release`.  Each counter is loaded and stored in separate steps, so nothing
but the lock keeps an increment from being lost.

`passed` is not a variable of the source: it is the number of calls that have been
through the counting section.

* `Inv` — who holds `shared_int`, and how far the counters are ahead of `passed`.
* `counters_agree` — the result.
-/

namespace Xv6.Syscall

open Xv6.Lib Finset
open Function (update update_eq_self update_of_ne update_self)

/-! ## The machine -/

def SYS_exit : ℤ := 2

/-- The numbers for which the table `syscalls` has an entry. -/
def table : List ℤ :=
  [1, 2, 3, 4, 5, 6, 7, 8, 9, 10, 11, 12, 13, 14, 15, 16, 17, 18, 19, 20, 21, 30, 32, 33, 34]

def NELEM : ℤ := 35

def known (num : ℤ) : Bool := 0 < num ∧ num < NELEM ∧ num ∈ table

/-- Where a process is. -/
inductive Pc
  | gone
  | user
  /-- In the handler of a known call. -/
  | handler (num : ℤ)
  | returned
  /-- In `acquire`, after `pushcli`. -/
  | spin
  | held
  /-- `num_sys_calls` has been loaded. -/
  | cpuLoaded (v : BitVec 32)
  /-- `num_sys_calls` has been stored. -/
  | cpuCounted
  /-- `shared_syscall_num` has been loaded. -/
  | sharedLoaded (v : BitVec 32)
  /-- `shared_syscall_num` has been stored. -/
  | counted
  deriving DecidableEq

/-- The process has the lock. -/
def Pc.inside : Pc → Bool
  | .held | .cpuLoaded _ | .cpuCounted | .sharedLoaded _ | .counted => true
  | _ => false

/-- Interrupts are off. -/
def Pc.pinned : Pc → Bool
  | .spin => true
  | x => x.inside

theorem Pc.pinned_of_inside {x : Pc} (h : x.inside = true) : x.pinned = true := by
  cases x with
  | gone | user | handler _ | returned | spin => exact nomatch h
  | _ => rfl

/-- What the call has added to `num_sys_calls` and `passed` does not count yet. -/
def Pc.cpuAhead : Pc → BitVec 32
  | .cpuCounted | .sharedLoaded _ | .counted => 1
  | _ => 0

/-- The same for `shared_syscall_num`. -/
def Pc.sharedAhead : Pc → BitVec 32
  | .counted => 1
  | _ => 0

variable (C P : Type)

/-- CPUs `C` and processes `P`. -/
structure State where
  run : C → Option P
  pc : P → Pc
  /-- `shared_int`: the CPU that has it. -/
  lock : Option C
  cpu : C → BitVec 32
  shared : BitVec 32
  /-- Calls that have been through the counting section. -/
  passed : ℕ

/-- What happens next. -/
inductive Action
  /-- A process is made, by `userinit` or `fork`. -/
  | born (p : P)
  /-- The scheduler of a CPU switches to a process. -/
  | on (c : C) (p : P)
  /-- The process on a CPU sleeps or yields. -/
  | off (c : C)
  /-- The process on a CPU goes on; outside the kernel it makes the system call `num`. -/
  | go (c : C) (num : ℤ)
  /-- A process that has been killed leaves through `exit` in `trap`. -/
  | exit (c : C)

variable {C P} [DecidableEq C] [DecidableEq P]

/-- Process `p` on CPU `c` goes on with `syscall`. -/
def State.goOn (s : State C P) (c : C) (p : P) (num : ℤ) : Option (State C P) :=
  match s.pc p with
  | .gone => none
  | .user =>
    if known num then some { s with pc := update s.pc p (.handler num) } else some s
  | .handler num =>
    -- `exit` does not return
    if num = SYS_exit then
      some { s with
        pc := update s.pc p .gone
        run := update s.run c none }
    else some { s with pc := update s.pc p .returned }
  | .returned => some { s with pc := update s.pc p .spin }
  | .spin =>
    if s.lock = none then
      some { s with pc := update s.pc p .held, lock := some c }
    else some s
  | .held => some { s with pc := update s.pc p (.cpuLoaded (s.cpu c)) }
  | .cpuLoaded v =>
    some { s with
      pc := update s.pc p .cpuCounted
      cpu := update s.cpu c (v + 1) }
  | .cpuCounted => some { s with pc := update s.pc p (.sharedLoaded s.shared) }
  | .sharedLoaded v => some { s with pc := update s.pc p .counted, shared := v + 1 }
  | .counted =>
    some { s with
      pc := update s.pc p .user
      lock := none
      passed := s.passed + 1 }

variable [Fintype C]

/-- One step. -/
def State.step (s : State C P) : Action C P → Option (State C P)
  | .born p =>
    if s.pc p = .gone then some { s with pc := update s.pc p .user } else none
  | .on c p =>
    if s.run c = none ∧ s.pc p ≠ .gone ∧ ∀ c', s.run c' ≠ some p then
      some { s with run := update s.run c (some p) }
    else none
  | .off c =>
    match s.run c with
    | none => none
    | some p =>
      if (s.pc p).pinned then none else some { s with run := update s.run c none }
  | .go c num =>
    match s.run c with
    | none => none
    | some p => s.goOn c p num
  | .exit c =>
    match s.run c with
    | none => none
    | some p =>
      if s.pc p = .user then
        some { s with
          pc := update s.pc p .gone
          run := update s.run c none }
      else none

/-- The kernel after it has started: no process yet, and all counters 0. -/
def boot : State C P where
  run _ := none
  pc _ := .gone
  lock := none
  cpu _ := 0
  shared := 0
  passed := 0

variable (C P) in
/-- The kernel with CPUs `C` and processes `P`. -/
def system : Lts (State C P) (Action C P) where
  init s := s = boot
  step := State.step

/-! ## The invariant -/

variable [Fintype P] {s t : State C P} {c : C} {p : P} {x : Pc}

/-- **The invariant.** -/
structure Inv (s : State C P) : Prop where
  once : ∀ c c' p, s.run c = some p → s.run c' = some p → c = c'
  /-- A process with interrupts off stays on its CPU. -/
  pinned : ∀ p, (s.pc p).pinned = true → ∃ c, s.run c = some p
  /-- The lock names the CPU of the process that has it. -/
  holder : ∀ c, s.lock = some c ↔ ∃ p, s.run c = some p ∧ (s.pc p).inside = true
  /-- What was loaded is still there. -/
  cpuLoaded : ∀ c p v, s.run c = some p → s.pc p = .cpuLoaded v → v = s.cpu c
  sharedLoaded : ∀ p v, s.pc p = .sharedLoaded v → v = s.shared
  /-- The counters are ahead by the call that is just being counted. -/
  cpus : ∑ c, s.cpu c = (s.passed : BitVec 32) + ∑ p, (s.pc p).cpuAhead
  total : s.shared = (s.passed : BitVec 32) + ∑ p, (s.pc p).sharedAhead

omit [DecidableEq C] [DecidableEq P] in
theorem inv_boot : Inv (boot : State C P) where
  once _ _ _ h := nomatch h
  pinned _ h := nomatch h
  holder _ := ⟨nofun, fun ⟨_, h, _⟩ => nomatch h⟩
  cpuLoaded _ _ _ h := nomatch h
  sharedLoaded _ _ h := nomatch h
  cpus := by
    change ∑ _ : C, (0 : BitVec 32) = ((0 : ℕ) : BitVec 32) + ∑ _ : P, (0 : BitVec 32)
    rw [sum_const_zero, sum_const_zero, Nat.cast_zero, add_zero]
  total := by
    change (0 : BitVec 32) = ((0 : ℕ) : BitVec 32) + ∑ _ : P, (0 : BitVec 32)
    rw [sum_const_zero, Nat.cast_zero, add_zero]

omit [DecidableEq C] [DecidableEq P] in
theorem Inv.lock_of_inside (h : Inv s) (hrun : s.run c = some p)
    (hin : (s.pc p).inside = true) : s.lock = some c := (h.holder c).2 ⟨p, hrun, hin⟩

omit [DecidableEq C] [DecidableEq P] in
theorem Inv.inside_unique (h : Inv s) {q : P} (hp : (s.pc p).inside = true)
    (hq : (s.pc q).inside = true) : p = q := by
  obtain ⟨c, hc⟩ := h.pinned p (Pc.pinned_of_inside hp)
  obtain ⟨d, hd⟩ := h.pinned q (Pc.pinned_of_inside hq)
  have hlock := h.lock_of_inside hc hp
  rw [h.lock_of_inside hd hq, Option.some.injEq] at hlock
  rw [hlock, hc, Option.some.injEq] at hd
  exact hd

theorem Inv.goOn (h : Inv s) (hrun : s.run c = some p) (ht : t.run = s.run)
    (hpc : t.pc = update s.pc p x)
    (hlock : t.lock = if x.inside then some c else if (s.pc p).inside then none else s.lock)
    (htake : x.inside = true → (s.pc p).inside = true ∨ s.lock = none)
    (hcpu : ∀ c', c' ≠ c → t.cpu c' = s.cpu c')
    (hshared : (s.pc p).inside = false → t.shared = s.shared)
    (hx : ∀ v, x = .cpuLoaded v → v = t.cpu c) (hx' : ∀ v, x = .sharedLoaded v → v = t.shared)
    (hcpus : ∑ c, t.cpu c + (s.passed + (s.pc p).cpuAhead) = ∑ c, s.cpu c + (t.passed + x.cpuAhead))
    (htotal : t.shared + (s.passed + (s.pc p).sharedAhead) = s.shared + (t.passed + x.sharedAhead)) :
    Inv t := by
  have hself : t.pc p = x := by rw [hpc, update_self]
  have hother : ∀ {q}, q ≠ p → t.pc q = s.pc q := fun hq => by
    rw [hpc, update_of_ne hq]
  refine ⟨by rw [ht]; exact h.once, fun q hq => ?_, fun c' => ?_, fun c' q v hc' hq => ?_,
    fun q v hq => ?_, ?_, ?_⟩
  · rw [ht]
    by_cases hqp : q = p
    · exact ⟨c, hqp ▸ hrun⟩
    · exact h.pinned q (by rwa [hother hqp] at hq)
  · rw [ht]
    by_cases hc : c' = c
    · subst hc
      have hiff : (∃ q, s.run c' = some q ∧ (t.pc q).inside = true) ↔ x.inside = true := by
        constructor
        · rintro ⟨q, hq, hin⟩
          rw [hrun, Option.some.injEq] at hq
          rwa [← hq, hself] at hin
        · exact fun hin => ⟨p, hrun, by rwa [hself]⟩
      rw [hiff, hlock]
      have hold := h.holder c'
      rw [hrun] at hold
      cases hin : x.inside with
      | true => simp
      | false =>
        cases hp : (s.pc p).inside with
        | true => simp
        | false => simpa [hp] using hold
    · have hiff : (∃ q, s.run c' = some q ∧ (t.pc q).inside = true) ↔ s.lock = some c' := by
        rw [h.holder c']
        refine exists_congr fun q => and_congr_right fun hq => ?_
        rw [hother fun hqp => hc (h.once c' c p (hqp ▸ hq) hrun)]
      rw [hiff, hlock]
      cases hin : x.inside with
      | true =>
        rcases htake hin with hp | hfree
        · rw [h.lock_of_inside hrun hp]
          simp
        · simp [hfree, Ne.symm hc]
      | false =>
        cases hp : (s.pc p).inside with
        | true =>
          rw [h.lock_of_inside hrun hp]
          simp [Ne.symm hc]
        | false => simp
  · rw [ht] at hc'
    by_cases hqp : q = p
    · subst hqp
      rw [h.once c' c q hc' hrun]
      exact hx v (hself.symm.trans hq)
    · have hne : c' ≠ c := by
        rintro rfl
        rw [hrun, Option.some.injEq] at hc'
        exact hqp hc'.symm
      rw [hother hqp] at hq
      rw [hcpu c' hne]
      exact h.cpuLoaded c' q v hc' hq
  · by_cases hqp : q = p
    · subst hqp
      exact hx' v (hself.symm.trans hq)
    · rw [hother hqp] at hq
      have hout : (s.pc p).inside = false := by
        by_contra hin
        exact hqp (h.inside_unique (by rw [hq]; rfl) (Bool.not_eq_false _ ▸ hin))
      rw [hshared hout]
      exact h.sharedLoaded q v hq
  · have hsum := sum_update_add (fun _ => Pc.cpuAhead) s.pc p x
    have hc := h.cpus
    rw [hpc]
    linear_combination hcpus + hc - hsum
  · have hsum := sum_update_add (fun _ => Pc.sharedAhead) s.pc p x
    have hc := h.total
    rw [hpc]
    linear_combination htotal + hc - hsum

omit [DecidableEq C] in
theorem Inv.outside (h : Inv s) (hp : (s.pc p).pinned = false) (hx : x.pinned = false)
    (hpc : t.pc = update s.pc p x)
    (honce : ∀ c c' q, t.run c = some q → t.run c' = some q → c = c')
    (hrun : ∀ c q, q ≠ p → (t.run c = some q ↔ s.run c = some q)) (hlock : t.lock = s.lock)
    (hcpu : t.cpu = s.cpu) (hshared : t.shared = s.shared) (hpassed : t.passed = s.passed) :
    Inv t := by
  have hself : t.pc p = x := by rw [hpc, update_self]
  have hother : ∀ {q}, q ≠ p → t.pc q = s.pc q := fun hq => by
    rw [hpc, update_of_ne hq]
  have hout : ∀ {y : Pc}, y.pinned = false → y.inside = false ∧ y.cpuAhead = 0 ∧
      y.sharedAhead = 0 := by
    intro y hy
    cases y with
    | gone | user | handler _ | returned => exact ⟨rfl, rfl, rfl⟩
    | _ => exact nomatch hy
  obtain ⟨hpin, hpc0, hps0⟩ := hout hp
  obtain ⟨hxin, hxc0, hxs0⟩ := hout hx
  have hne : ∀ {q}, (t.pc q).inside = true → q ≠ p := by
    rintro q hq rfl
    rw [hself, hxin] at hq
    exact nomatch hq
  refine ⟨honce, fun q hq => ?_, fun c => ?_, fun c q v hc hq => ?_, fun q v hq => ?_, ?_, ?_⟩
  · have hqp : q ≠ p := by
      rintro rfl
      rw [hself, hx] at hq
      exact nomatch hq
    rw [hother hqp] at hq
    obtain ⟨c, hc⟩ := h.pinned q hq
    exact ⟨c, (hrun c q hqp).2 hc⟩
  · rw [hlock, h.holder c]
    refine exists_congr fun q => ⟨fun ⟨hq, hin⟩ => ?_, fun ⟨hq, hin⟩ => ?_⟩
    · have hqp : q ≠ p := by
        rintro rfl
        rw [hpin] at hin
        exact nomatch hin
      exact ⟨(hrun c q hqp).2 hq, by rwa [hother hqp]⟩
    · exact ⟨(hrun c q (hne hin)).1 hq, by rwa [← hother (hne hin)]⟩
  · have hqp := hne (q := q) (by rw [hq]; rfl)
    rw [hcpu]
    exact h.cpuLoaded c q v ((hrun c q hqp).1 hc) (by rwa [← hother hqp])
  · have hqp := hne (q := q) (by rw [hq]; rfl)
    rw [hshared]
    exact h.sharedLoaded q v (by rwa [← hother hqp])
  · have hsum := sum_update_add (fun _ => Pc.cpuAhead) s.pc p x
    rw [hpc, hcpu, hpassed, h.cpus]
    rw [hpc0, hxc0] at hsum
    linear_combination -hsum
  · have hsum := sum_update_add (fun _ => Pc.sharedAhead) s.pc p x
    rw [hpc, hshared, hpassed, h.total]
    rw [hps0, hxs0] at hsum
    linear_combination -hsum

omit [Fintype C] [Fintype P] [DecidableEq P] in
theorem run_off (hrun : s.run c = some p) (d : C) (q : P) (hq : q ≠ p) :
    update s.run c none d = some q ↔ s.run d = some q := by
  by_cases hd : d = c
  · rw [hd, update_self, hrun]
    simp [Ne.symm hq]
  · rw [update_of_ne hd]

omit [DecidableEq P] in
theorem Inv.once_off (h : Inv s) (c d d' : C) (q : P) (hd : update s.run c none d = some q)
    (hd' : update s.run c none d' = some q) : d = d' := by
  have hon : ∀ e, update s.run c none e = some q → s.run e = some q := by
    intro e he
    by_cases hec : e = c
    · rw [hec, update_self] at he
      exact nomatch he
    · rwa [update_of_ne hec] at he
  exact h.once d d' q (hon d hd) (hon d' hd')

theorem Inv.goOn_step (h : Inv s) (hrun : s.run c = some p) {num : ℤ}
    (hs : s.goOn c p num = some t) : Inv t := by
  -- a step that stores into no counter
  have hmove : ∀ {x : Pc}, x.inside = (s.pc p).inside → x.cpuAhead = (s.pc p).cpuAhead →
      x.sharedAhead = (s.pc p).sharedAhead → (∀ v, x = .cpuLoaded v → v = s.cpu c) →
      (∀ v, x = .sharedLoaded v → v = s.shared) →
      Inv { s with pc := update s.pc p x } := by
    intro x hin hc hs hx hx'
    refine h.goOn hrun rfl rfl ?_ (fun hxin => .inl (hin ▸ hxin)) (fun _ _ => rfl)
      (fun _ => rfl) hx hx' (by rw [hc]) (by rw [hs])
    change s.lock = _
    rw [hin]
    split
    · rename_i hp
      exact h.lock_of_inside hrun hp
    · rfl
  cases hp : s.pc p with
  | gone => simp [State.goOn, hp] at hs
  | user =>
    simp only [State.goOn, hp] at hs
    split at hs
    · cases hs
      exact hmove (by rw [hp]; rfl) (by rw [hp]; rfl) (by rw [hp]; rfl) nofun nofun
    · cases hs
      exact h
  | handler num' =>
    simp only [State.goOn, hp] at hs
    split at hs
    · cases hs
      exact h.outside (by rw [hp]; rfl) rfl rfl (h.once_off c) (run_off hrun) rfl rfl rfl rfl
    · cases hs
      exact hmove (by rw [hp]; rfl) (by rw [hp]; rfl) (by rw [hp]; rfl) nofun nofun
  | returned =>
    simp only [State.goOn, hp] at hs
    cases hs
    exact hmove (by rw [hp]; rfl) (by rw [hp]; rfl) (by rw [hp]; rfl) nofun nofun
  | spin =>
    simp only [State.goOn, hp] at hs
    split at hs
    · rename_i hfree
      cases hs
      exact h.goOn hrun rfl rfl rfl (fun _ => .inr hfree) (fun _ _ => rfl) (fun _ => rfl) nofun
        nofun (by rw [hp]; rfl) (by rw [hp]; rfl)
    · cases hs
      exact h
  | held =>
    simp only [State.goOn, hp] at hs
    cases hs
    refine hmove (by rw [hp]; rfl) (by rw [hp]; rfl) (by rw [hp]; rfl) ?_ nofun
    rintro v hv
    exact (Pc.cpuLoaded.inj hv).symm
  | cpuLoaded v =>
    simp only [State.goOn, hp] at hs
    cases hs
    have hv := h.cpuLoaded c p v hrun hp
    refine h.goOn hrun rfl rfl ?_ (fun _ => .inl (by rw [hp]; rfl))
      (fun d hd => update_of_ne hd _ _) (fun _ => rfl) nofun nofun ?_ (by rw [hp]; rfl)
    · exact h.lock_of_inside hrun (by rw [hp]; rfl)
    · have hsum := sum_update_add (fun _ w => w) s.cpu c (v + 1)
      rw [hp]
      change ∑ d, update s.cpu c (v + 1) d + (_ + 0) = ∑ d, s.cpu d + (_ + 1)
      subst hv
      linear_combination hsum
  | cpuCounted =>
    simp only [State.goOn, hp] at hs
    cases hs
    refine hmove (by rw [hp]; rfl) (by rw [hp]; rfl) (by rw [hp]; rfl) nofun ?_
    rintro v hv
    exact (Pc.sharedLoaded.inj hv).symm
  | sharedLoaded v =>
    simp only [State.goOn, hp] at hs
    cases hs
    have hv := h.sharedLoaded p v hp
    refine h.goOn hrun rfl rfl ?_ (fun _ => .inl (by rw [hp]; rfl)) (fun _ _ => rfl)
      (fun hout => absurd hout (by rw [hp]; exact nofun)) nofun nofun (by rw [hp]; rfl) ?_
    · exact h.lock_of_inside hrun (by rw [hp]; rfl)
    · rw [hp, hv]
      change s.shared + 1 + (_ + 0) = s.shared + (_ + 1)
      ring
  | counted =>
    simp only [State.goOn, hp] at hs
    cases hs
    refine h.goOn hrun rfl rfl ?_ nofun (fun _ _ => rfl)
      (fun _ => rfl) nofun nofun ?_ ?_
    · rw [hp]
      rfl
    · rw [hp]
      change _ + ((s.passed : BitVec 32) + 1) = _ + (((s.passed + 1 : ℕ) : BitVec 32) + 0)
      rw [Nat.cast_succ, add_zero]
    · rw [hp]
      change _ + ((s.passed : BitVec 32) + 1) = _ + (((s.passed + 1 : ℕ) : BitVec 32) + 0)
      rw [Nat.cast_succ, add_zero]

theorem Inv.step (h : Inv s) {a : Action C P} (hs : s.step a = some t) : Inv t := by
  cases a with
  | born p =>
    rw [State.step] at hs
    split at hs
    · rename_i hp
      cases hs
      exact h.outside (by rw [hp]; rfl) rfl rfl h.once (fun _ _ _ => Iff.rfl) rfl rfl rfl rfl
    · exact nomatch hs
  | on c p =>
    rw [State.step] at hs
    split at hs
    · rename_i hc
      obtain ⟨hidle, -, hoff⟩ := hc
      cases hs
      have hp : (s.pc p).pinned = false := by
        by_contra hp
        obtain ⟨c', hc'⟩ := h.pinned p (Bool.not_eq_false _ ▸ hp)
        exact hoff c' hc'
      refine h.outside hp hp (update_eq_self p s.pc).symm ?_ ?_ rfl rfl rfl rfl
      · intro d d' q hd hd'
        have hplace : ∀ e, update s.run c (some p) e = some q → if q = p then e = c else
            s.run e = some q := by
          intro e he
          by_cases hec : e = c
          · rw [hec, update_self, Option.some.injEq] at he
            rw [if_pos he.symm, hec]
          · rw [update_of_ne hec] at he
            have hqp : q ≠ p := by
              rintro rfl
              exact hoff e he
            rwa [if_neg hqp]
        have h₁ := hplace d hd
        have h₂ := hplace d' hd'
        split at h₁
        · rename_i hqp
          rw [if_pos hqp] at h₂
          rw [h₁, h₂]
        · rename_i hqp
          rw [if_neg hqp] at h₂
          exact h.once d d' q h₁ h₂
      · intro d q hqp
        change update s.run c (some p) d = some q ↔ _
        by_cases hdc : d = c
        · rw [hdc, update_self, hidle]
          simp [Ne.symm hqp]
        · rw [update_of_ne hdc]
    · exact nomatch hs
  | off c =>
    rw [State.step] at hs
    split at hs
    · exact nomatch hs
    · rename_i p hrun
      split at hs
      · exact nomatch hs
      · rename_i hp
        cases hs
        rw [Bool.not_eq_true] at hp
        exact h.outside hp hp (update_eq_self p s.pc).symm (h.once_off c)
          (run_off hrun) rfl rfl rfl rfl
  | exit c =>
    rw [State.step] at hs
    split at hs
    · exact nomatch hs
    · rename_i p hrun
      split at hs
      · rename_i hp
        cases hs
        exact h.outside (by rw [hp]; rfl) rfl rfl (h.once_off c) (run_off hrun) rfl rfl rfl rfl
      · exact nomatch hs
  | go c num =>
    rw [State.step] at hs
    split at hs
    · exact nomatch hs
    · rename_i p hrun
      exact h.goOn_step hrun hs

theorem inv_of_reach (h : (system C P).Reach (fun _ _ => True) s) : Inv s := by
  refine h.invariant (I := Inv) ?_ fun s a t hs _ hst => hs.step hst
  rintro s rfl
  exact inv_boot

/-! ## The result -/

omit [DecidableEq C] [DecidableEq P] in
theorem Inv.outside_of_free (h : Inv s) (hfree : s.lock = none) (p : P) :
    (s.pc p).inside = false := by
  by_contra hp
  have hin : (s.pc p).inside = true := Bool.not_eq_false _ ▸ hp
  obtain ⟨c, hc⟩ := h.pinned p (Pc.pinned_of_inside hin)
  rw [h.lock_of_inside hc hin] at hfree
  exact nomatch hfree

/-- **The counters agree** whenever `shared_int` is free: `shared_syscall_num` is the sum of
`num_sys_calls` over all CPUs, and the number of calls that have been counted. -/
theorem counters_agree (h : (system C P).Reach (fun _ _ => True) s) (hfree : s.lock = none) :
    s.shared = ∑ c, s.cpu c ∧ s.shared = BitVec.ofNat 32 s.passed := by
  have hinv := inv_of_reach h
  have hzero : ∀ p, (s.pc p).cpuAhead = 0 ∧ (s.pc p).sharedAhead = 0 := by
    intro p
    have hout := hinv.outside_of_free hfree p
    cases hp : s.pc p with
    | held | cpuLoaded _ | cpuCounted | sharedLoaded _ | counted =>
      rw [hp] at hout
      exact nomatch hout
    | _ => exact ⟨rfl, rfl⟩
  have hcpus := hinv.cpus
  have htotal := hinv.total
  rw [sum_eq_zero fun p _ => (hzero p).1, add_zero] at hcpus
  rw [sum_eq_zero fun p _ => (hzero p).2, add_zero] at htotal
  exact ⟨htotal.trans hcpus.symm, htotal⟩

/-- A call that starts on one CPU and finishes on the other one. -/
theorem counters_agree_migrated : ∃ s : State (Fin 2) (Fin 2),
    (system (Fin 2) (Fin 2)).Reach (fun _ _ => True) s ∧
      (s.lock = none ∧ s.cpu 0 = 0 ∧ s.cpu 1 = 1 ∧ s.passed = 1) ∧
      s.shared = ∑ c, s.cpu c ∧ s.shared = BitVec.ofNat 32 s.passed := by
  have h₀ : (system (Fin 2) (Fin 2)).Reach (fun _ _ => True) boot := .init rfl
  obtain ⟨s, hs, hv⟩ := Lts.reach_of_exec_map
    [.born 0, .on 0 0, .go 0 13, .off 0, .on 1 0, .go 1 0, .go 1 0, .go 1 0, .go 1 0, .go 1 0,
      .go 1 0, .go 1 0, .go 1 0]
    (fun s => (s.lock, s.cpu 0, s.cpu 1, s.passed)) (none, 0, 1, 1) h₀ (by decide +kernel)
  simp only [Prod.mk.injEq] at hv
  exact ⟨s, hs, hv, counters_agree hs hv.1⟩

end Xv6.Syscall
