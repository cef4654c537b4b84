import Xv6.Proc.Sleep

/-!
# The clock

`sys_sleep` and the timer interrupt of `trap`, as client code of `sleep` and `wakeup`
around `tickslock`.  Any process may be the one that is interrupted.

A call is followed from its `acquire` to its return, with the number of ticks that pass
meanwhile.  `ticks` is an `uint`, and so `ticks - ticks0 < n` compares 32-bit numbers although
`n` is an `int`.
-/

namespace Xv6.Ticks

open Xv6.Lib Xv6.Sleep Function

variable {P : Type}

/-- What `tickslock` guards. -/
structure Data (P : Type) where
  ticks : UInt32
  /-- The local variables of the calls of `sys_sleep`. -/
  ticks0 : P → UInt32

/-- Where a process is in `sys_sleep(n)` or in the timer interrupt. -/
inductive Place
  /-- Outside, the last `sys_sleep` having returned `r`. -/
  | idle (r : ℤ)
  /-- About to read `ticks`. -/
  | entered (n : UInt32)
  /-- At the loop test. -/
  | loop (n : UInt32)
  /-- In the interrupt, before `ticks++`, after it, and after `wakeup(&ticks)`. -/
  | ticking (r : ℤ)
  | ticked (r : ℤ)
  | woken (r : ℤ)
  deriving DecidableEq

inductive Call
  | sysSleep (n : UInt32)
  | tick

/-- The code of `sys_sleep` and of the timer interrupt. -/
def clock [DecidableEq P] : Client P Unit (Data P) Place Call where
  outside _ l call :=
    match l, call with
    | .idle _, .sysSleep n => some (.acquire (.entered n))
    | .idle r, .tick => some (.acquire (.ticking r))
    | _, _ => none
  inside p killed d l _ :=
    match l with
    | .entered n =>
      some (.store { d with ticks0 := update d.ticks0 p d.ticks } (.loop n))
    | .loop n =>
      if d.ticks - d.ticks0 p < n then
        if killed then some (.release (.idle (-1))) else some (.sleep () (.loop n))
      else some (.release (.idle 0))
    | .ticking r => some (.store { d with ticks := d.ticks + 1 } (.ticked r))
    | .ticked r => some (.wakeup () (.woken r))
    | .woken r => some (.release (.idle r))
    | .idle _ => none

/-- At boot. -/
def start (d : Data P) (l : P → Place) : Prop := d = ⟨0, fun _ => 0⟩ ∧ ∀ p, l p = .idle 0

/-- Whether the step is a `ticks++`. -/
def ticksOf (s : State P Unit (Data P) Place) : Act P Call → ℕ
  | .run q _ =>
    match s.pc q with
    | .inside (.ticking _) => 1
    | _ => 0
  | _ => 0

/-- **A call of `sys_sleep(n)`** by `p`, in any run of the system: the states from its `acquire` to
its return, each with the number of ticks since the call. -/
inductive InCall [DecidableEq P] (p : P) (n : UInt32) : ℕ → State P Unit (Data P) Place → Prop
  | call {s t : State P Unit (Data P) Place} {r : ℤ} : (system clock start).Reach (fun _ _ => True) s →
      s.pc p = .outside (.idle r) → step clock s (.run p (.sysSleep n)) = some t → InCall p n 0 t
  | step {s t : State P Unit (Data P) Place} {k : ℕ} {a : Act P Call} : InCall p n k s →
      (∀ l, s.pc p ≠ .outside l) → step clock s a = some t → InCall p n (k + ticksOf s a) t

variable {s t : State P Unit (Data P) Place} {a : Act P Call} {p : P} {n : UInt32} {k : ℕ}

/-- The argument of a call that has read `ticks`. -/
def waiting : Pc Unit Place → Option UInt32
  | .inside (.loop m) | .entered _ (.loop m) | .both _ (.loop m) | .falling _ (.loop m)
  | .asleep _ (.loop m) | .runnable _ (.loop m) | .resumed (.loop m) | .retaking (.loop m) => some m
  | _ => none

/-- Where the call is after `k` ticks. -/
inductive At (s : State P Unit (Data P) Place) (p : P) (n : UInt32) (k : ℕ) : Pc Unit Place → Prop
  | entered : k = 0 → At s p n k (.inside (.entered n))
  | waits {x : Pc Unit Place} : waiting x = some n → s.data.ticks - s.data.ticks0 p = .ofNat k →
      (∀ l, x = .entered () l → k < 2 ^ 32 → k < n.toNat) → At s p n k x
  | slept : n.toNat ≤ k → At s p n k (.outside (.idle 0))
  | killed : s.killed p = true → At s p n k (.outside (.idle (-1)))

/-- Nothing that the call looks at has changed. -/
theorem At.frame {x : Pc Unit Place} (h : At s p n k x) (ht : t.data.ticks = s.data.ticks)
    (h0 : t.data.ticks0 p = s.data.ticks0 p) (hk : s.killed p = true → t.killed p = true) :
    At t p n k x := by
  cases h with
  | entered h => exact .entered h
  | waits hx hd hlt => exact .waits hx (by rw [ht, h0, hd]) hlt
  | slept h => exact .slept h
  | killed h => exact .killed (hk h)

/-- The call has moved on inside `sleep`. -/
theorem At.move {x y : Pc Unit Place} (h : At s p n k x) (hin : ∀ l, x ≠ .inside l)
    (hout : ∀ l, x ≠ .outside l) (hxy : waiting y = waiting x) (hy : ∀ l, y ≠ .entered () l) :
    At s p n k y := by
  cases h with
  | entered _ => exact absurd rfl (hin _)
  | waits hx hd _ => exact .waits (hxy.trans hx) hd fun l hl => absurd hl (hy l)
  | slept _ => exact absurd rfl (hout _)
  | killed _ => exact absurd rfl (hout _)

theorem At.wake {x : Pc Unit Place} (h : At s p n k x) (c : Unit) : At s p n k (x.wake c) := by
  rcases x.wake_cases c with hx | ⟨l, rfl, hx⟩
  · rwa [hx]
  · rw [hx]
    exact h.move (by simp) (by simp) (by cases l <;> rfl) (by simp)

theorem At.rouse {x : Pc Unit Place} (h : At s p n k x) : At s p n k x.rouse := by
  cases x with
  | asleep c l => exact h.move (by simp) (by simp) (by cases l <;> rfl) (by simp [Pc.rouse])
  | _ => exact h

/-- A tick while the process does not hold `tickslock`. -/
theorem At.tick {x : Pc Unit Place} (h : At s p n k x) (hlk : x.hasLk = false)
    (hout : ∀ l, x ≠ .outside l) (ht : t.data.ticks = s.data.ticks + 1)
    (h0 : t.data.ticks0 p = s.data.ticks0 p) : At t p n (k + 1) x := by
  cases h with
  | entered _ => cases hlk
  | waits hx hd _ =>
    refine .waits hx ?_ fun l hl => by rw [hl] at hlk; cases hlk
    rw [ht, h0, UInt32.ofNat_add, ← hd]
    grind
  | slept _ => exact absurd rfl (hout _)
  | killed _ => exact absurd rfl (hout _)

variable [DecidableEq P]

/-- A state of the call can be reached. -/
theorem InCall.reach (h : InCall p n k s) : (system clock start).Reach (fun _ _ => True) s := by
  induction h with
  | call hs _ hst => exact .step (a := .run p (.sysSleep n)) hs trivial hst
  | step _ _ hst ih => exact .step ih trivial hst

/-- A process that moves leaves the calls of the others alone. -/
theorem At.put (h : At s p n k (s.pc p)) {q : P} (hq : p ≠ q) {x : Pc Unit Place}
    (hpc : t.pc p = update s.pc q x p) (hd : t.data = s.data) (hk : t.killed = s.killed) :
    At t p n k (t.pc p) := by
  rw [hpc, update_of_ne hq]
  exact h.frame (by rw [hd]) (by rw [hd]) fun h => by rwa [hk]

/-- A step of the call with `tickslock`: it reads `ticks`, goes to sleep or returns. -/
theorem At.own {l : Place} {i : Call} {o : InStep Unit (Data P) Place} (h : At s p n k (.inside l))
    (hin : clock.inside p (s.killed p) s.data l i = some o) :
    At (stepIn s p l o) p n k ((stepIn s p l o).pc p) := by
  cases h with
  | entered hk =>
    cases hin
    simp only [stepIn, State.put, update_self]
    exact .waits rfl (by simp [hk]) (by simp)
  | waits hx hd _ =>
    cases l with
    | loop m =>
      cases hx
      have hmod : (UInt32.ofNat k).toNat = k % 2 ^ 32 := UInt32.toNat_ofNat
      simp only [clock, hd] at hin
      split at hin
      · rename_i hlt
        rw [UInt32.lt_iff_toNat_lt, hmod] at hlt
        split at hin <;> cases hin <;> simp only [stepIn, State.put, update_self]
        · rename_i hkill
          exact .killed hkill
        · exact .waits rfl hd fun l _ hsmall => by rwa [Nat.mod_eq_of_lt hsmall] at hlt
      · rename_i hge
        rw [UInt32.lt_iff_toNat_lt, hmod, not_lt] at hge
        cases hin
        simp only [stepIn, State.put, update_self]
        exact .slept (hge.trans (Nat.mod_le _ _))
    | _ => cases hx

/-- A step of a process with `tickslock`. -/
theorem At.run (hl : Locked s) (h : At s p n k (s.pc p)) (hout : ∀ l, s.pc p ≠ .outside l) {q : P}
    {l : Place} {i : Call} {o : InStep Unit (Data P) Place} (hpc : s.pc q = .inside l)
    (hin : clock.inside q (s.killed q) s.data l i = some o) :
    At (stepIn s q l o) p n (k + ticksOf s (.run q i)) ((stepIn s q l o).pc p) := by
  by_cases hq : p = q
  · subst hq
    rw [hpc] at h
    have hk : ticksOf s (.run p i) = 0 := by
      cases h with
      | entered _ => simp [ticksOf, hpc]
      | waits hx =>
        cases l with
        | loop m => simp [ticksOf, hpc]
        | _ => cases hx
    rw [hk]
    exact h.own hin
  · have hfree : (s.pc p).hasLk = false := by
      by_contra hlk
      exact hq (hl.lk.unique (by simpa using hlk) (by rw [hpc]; rfl))
    cases l with
    | entered m =>
      cases hin
      simp only [stepIn, State.put, ticksOf, hpc, update_of_ne hq, Nat.add_zero]
      exact h.frame rfl (update_of_ne hq _ _) id
    | loop m =>
      simp only [ticksOf, hpc]
      simp only [clock] at hin
      split at hin
      · split at hin <;> cases hin <;> exact h.put hq rfl rfl rfl
      · cases hin
        exact h.put hq rfl rfl rfl
    | ticking r =>
      cases hin
      simp only [stepIn, State.put, ticksOf, hpc, update_of_ne hq]
      exact h.tick hfree hout rfl rfl
    | ticked r =>
      cases hin
      simp only [ticksOf, hpc]
      exact h.put hq rfl rfl rfl
    | woken r =>
      cases hin
      simp only [ticksOf, hpc]
      exact h.put hq rfl rfl rfl
    | idle r => cases hin

/-- **A step of the system**, while the call is on. -/
theorem At.step (hl : Locked s) (h : At s p n k (s.pc p)) (hout : ∀ l, s.pc p ≠ .outside l)
    (hst : Moves clock s a t) : At t p n (k + ticksOf s a) (t.pc p) := by
  -- a step inside `sleep`
  have go {q : P} {x y : Pc Unit Place} (hpc : s.pc q = x) (hin : ∀ l, x ≠ .inside l)
      (hxy : waiting y = waiting x) (hy : ∀ l, y ≠ .entered () l) {t : State P Unit (Data P) Place}
      (ht : t.pc = update s.pc q y) (hd : t.data = s.data) (hk : t.killed = s.killed) :
      At t p n k (t.pc p) := by
    by_cases hq : p = q
    · subst hq
      rw [hpc] at h hout
      rw [ht, update_self]
      exact (h.move hin hout hxy hy).frame (by rw [hd]) (by rw [hd]) fun h => by rwa [hk]
    · exact h.put hq (by rw [ht]) hd hk
  -- a process in `wakeup` is not in `sys_sleep`
  have wakes {q : P} {x : Pc Unit Place} (hpc : s.pc q = x) (hin : ∀ l, x ≠ .inside l)
      (hx : waiting x = none) : p ≠ q := by
    rintro rfl
    rw [hpc] at h hout
    cases h with
    | entered _ => exact hin _ rfl
    | waits hx' => cases hx.symm.trans hx'
    | slept _ => exact hout _ rfl
    | killed _ => exact hout _ rfl
  cases hst with
  | @move q i l l' hpc hm => cases l <;> cases i <;> cases hm
  | @acquire q i l l' hpc hm hfree =>
    have hq : p ≠ q := fun heq => hout l (heq ▸ hpc)
    simp only [ticksOf, hpc]
    exact h.put hq rfl rfl rfl
  | @wakeupOut q i l l' c hpc hm => cases l <;> cases i <;> cases hm
  | store hpc hm => exact h.run hl hout hpc hm
  | wakeupIn hpc hm => exact h.run hl hout hpc hm
  | sleep hpc hm => exact h.run hl hout hpc hm
  | release hpc hm => exact h.run hl hout hpc hm
  | @entered q c l hpc _ => exact go hpc (by simp) (by cases l <;> rfl) (by simp) rfl rfl rfl
  | @both q c l hpc => exact go hpc (by simp) (by cases l <;> rfl) (by simp) rfl rfl rfl
  | @falling q c l hpc => exact go hpc (by simp) (by cases l <;> rfl) (by simp) rfl rfl rfl
  | @runnable q c l hpc _ => exact go hpc (by simp) (by cases l <;> rfl) (by simp) rfl rfl rfl
  | @resumed q l hpc => exact go hpc (by simp) (by cases l <;> rfl) (by simp) rfl rfl rfl
  | @retaking q l hpc _ => exact go hpc (by simp) (by cases l <;> rfl) (by simp) rfl rfl rfl
  | wakeup hpc _ => exact h.put (wakes hpc (by simp) rfl) rfl rfl rfl
  | woke hpc => exact h.put (wakes hpc (by simp) rfl) rfl rfl rfl
  | @waking q b c l l' hpc =>
    show At _ p n k (update (fun r => (s.pc r).wake c) q _ p)
    rw [update_of_ne (wakes hpc (by simp) rfl)]
    exact (h.wake c).frame rfl rfl id
  | @kill q _ =>
    show At _ p n k (update s.pc q _ p)
    by_cases hq : p = q
    · subst hq
      rw [update_self]
      exact h.rouse.frame rfl rfl fun _ => update_self ..
    · rw [update_of_ne hq]
      exact h.frame rfl rfl fun hk => (update_of_ne hq ..).trans hk

theorem at_of_inCall (h : InCall p n k s) : At s p n k (s.pc p) := by
  induction h with
  | @call s t r hs hpc hst =>
    simp only [Sleep.step, hpc, clock, Option.bind_some, stepOut] at hst
    obtain ⟨-, rfl⟩ := of_guard hst
    simp only [State.put, update_self]
    exact .entered rfl
  | step hin hout hst ih => exact ih.step (locked_of_reach hin.reach) hout (moves_of_step hst)

/-- **`sys_sleep(n)` sleeps for `n` ticks.**  With any number of processes, interrupts and
`kill` at any time, and `ticks` wrapping around: when a call has returned, at least `n` ticks have
passed since it was made and it returns 0, or it has been killed and returns -1; and before 2^32
ticks a call goes to sleep only while fewer than `n` have passed. -/
theorem sys_sleep_waits (h : InCall p n k s) :
    (∀ l, s.pc p = .outside l →
      l = .idle 0 ∧ n.toNat ≤ k ∨ l = .idle (-1) ∧ s.killed p = true) ∧
    ∀ l, s.pc p = .entered () l → k < 2 ^ 32 → k < n.toNat := by
  have hat := at_of_inCall h
  generalize s.pc p = x at hat
  cases hat with
  | entered _ => simp
  | waits hx _ hlt =>
    refine ⟨fun l hl => ?_, hlt⟩
    subst hl
    cases l <;> cases hx
  | slept hk => simp [hk]
  | killed hk => simp [hk]

/-- Follow a call through a run, counting the ticks. -/
def follow (p : P) : ℕ → State P Unit (Data P) Place → List (Act P Call) →
    Option (ℕ × State P Unit (Data P) Place)
  | k, s, [] => some (k, s)
  | k, s, a :: as =>
    match s.pc p with
    | .outside _ => none
    | _ => (step clock s a).bind fun t => follow p (k + ticksOf s a) t as

theorem InCall.follow {as : List (Act P Call)} : ∀ {k k' : ℕ} {s t : State P Unit (Data P) Place},
    InCall p n k s → Ticks.follow p k s as = some (k', t) → InCall p n k' t := by
  induction as with
  | nil =>
    intro k k' s t h hrun
    cases hrun
    exact h
  | cons a as ih =>
    intro k k' s t h hrun
    rw [Ticks.follow] at hrun
    split at hrun
    · cases hrun
    · rename_i hout
      obtain ⟨u, hu, hrest⟩ := Option.bind_eq_some_iff.1 hrun
      exact ih (.step h hout hu) hrest

/-- Process 0 calls `sys_sleep(2)` and sleeps; two ticks later it returns. -/
theorem sys_sleep_two_ticks : ∃ s : State (Fin 2) Unit (Data (Fin 2)) Place, InCall 0 2 2 s ∧
    s.pc 0 = .outside (.idle 0) ∧ s.killed 0 = false ∧ (2 : UInt32).toNat ≤ 2 := by
  let s₀ : State (Fin 2) Unit (Data (Fin 2)) Place :=
    ⟨⟨0, fun _ => 0⟩, none, none, fun _ => .outside (.idle 0), fun _ => false⟩
  have h₀ : (system clock start).Reach (fun _ _ => True) s₀ :=
    .init ⟨rfl, rfl, fun _ => .idle 0, fun _ => rfl, rfl, fun _ => rfl⟩
  let sleeps : List (Act (Fin 2) Call) := [.run 0 .tick, .go 0, .go 0, .go 0]
  let ticks : List (Act (Fin 2) Call) :=
    [.run 1 .tick, .run 1 .tick, .run 1 .tick, .go 1, .go 1, .go 1, .run 1 .tick]
  let wakes : List (Act (Fin 2) Call) := [.go 0, .go 0, .go 0]
  have hrun : (((step clock s₀ (.run 0 (.sysSleep 2))).bind fun s => follow 0 0 s
      (.run 0 .tick :: sleeps ++ ticks ++ wakes ++ sleeps ++ ticks ++ wakes ++ [.run 0 .tick])).map
        fun x => (x.1, x.2.pc 0, x.2.killed 0)) = some (2, .outside (.idle 0), false) := by
    decide +kernel
  obtain ⟨⟨k, s⟩, hs, hv⟩ := Option.map_eq_some_iff.1 hrun
  obtain ⟨t, ht, hs⟩ := Option.bind_eq_some_iff.1 hs
  simp only [Prod.mk.injEq] at hv
  obtain ⟨rfl, hpc, hkill⟩ := hv
  have hin := (InCall.call h₀ rfl ht).follow hs
  refine ⟨s, hin, hpc, hkill, ?_⟩
  rcases (sys_sleep_waits hin).1 _ hpc with h | h
  · exact h.2
  · exact absurd h.2 (by simp [hkill])

end Xv6.Ticks
