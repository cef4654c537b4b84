import Xv6.Proc.Sleep

/-!
# `sleep` on `ptable.lock` itself

When the lock that protects the condition is `ptable.lock`, `sleep` neither
acquires nor releases anything before it becomes `SLEEPING`: it leaves the CPU
with the lock, which the scheduler then frees, and it is picked again by a
scheduler that holds the lock, so it comes back from `sleep` with it.  A process
that holds the lock wakes others with `wakeup1`; `wakeup`, called without the
lock, is one critical section of its own.

The same clients as in `Xv6.Proc.Sleep` run here.  `no_lost_wakeup` is the
result for both kinds of lock.
-/

namespace Xv6.Sleep

open Xv6.Lib Function

/-- Where a process is. -/
inductive PtPc (Chan L : Type)
  /-- In client code, without `ptable.lock`. -/
  | outside (l : L)
  /-- In client code, with `ptable.lock`. -/
  | inside (l : L)
  | asleep (c : Chan) (l : L)
  | runnable (c : Chan) (l : L)
  deriving DecidableEq

namespace PtPc

variable {Chan L : Type}

/-- The process holds `ptable.lock`. -/
def hasPt : PtPc Chan L → Bool
  | .inside _ => true
  | _ => false

/-- The process is `SLEEPING` on `c`. -/
def sleeps [DecidableEq Chan] (c : Chan) : PtPc Chan L → Bool
  | .asleep c' _ => c' = c
  | _ => false

/-- The process still owes a `wakeup`. -/
def owed (owes : L → Bool) : PtPc Chan L → Bool
  | .outside l | .inside l | .asleep _ l | .runnable _ l => owes l

/-- What `wakeup1(c)` does to a process. -/
def wake [DecidableEq Chan] (c : Chan) : PtPc Chan L → PtPc Chan L
  | .asleep c' l => if c' = c then .runnable c' l else .asleep c' l
  | x => x

/-- What `kill` does to the state of a process. -/
def rouse : PtPc Chan L → PtPc Chan L
  | .asleep c l => .runnable c l
  | x => x

end PtPc

/-- The lock, the data it protects and the processes. -/
structure PtState (P Chan D L : Type) where
  data : D
  pt : Option P
  pc : P → PtPc Chan L
  killed : P → Bool

variable {P Chan D L I : Type} [DecidableEq P] [DecidableEq Chan]

/-- Move one process. -/
def PtState.put (s : PtState P Chan D L) (p : P) (x : PtPc Chan L) : PtState P Chan D L :=
  { s with pc := update s.pc p x }

/-- Run `wakeup1(c)` and move one process. -/
def PtState.wakeup1 (s : PtState P Chan D L) (c : Chan) (p : P) (x : PtPc Chan L) :
    PtState P Chan D L :=
  { s with pc := update (fun q => (s.pc q).wake c) p x }

/-- A step of client code without `ptable.lock`. -/
def ptStepOut (s : PtState P Chan D L) (p : P) : OutStep Chan L → Option (PtState P Chan D L)
  | .move l' => some (s.put p (.outside l'))
  | .acquire l' => if s.pt = none then some { s.put p (.inside l') with pt := some p } else none
  | .wakeup c l' => if s.pt = none then some (s.wakeup1 c p (.outside l')) else none

/-- A step of client code with `ptable.lock`. -/
def ptStepIn (s : PtState P Chan D L) (p : P) : InStep Chan D L → PtState P Chan D L
  | .store d l' => { s.put p (.inside l') with data := d }
  | .wakeup c l' => s.wakeup1 c p (.inside l')
  | .sleep c l' => { s.put p (.asleep c l') with pt := none }
  | .release l' => { s.put p (.outside l') with pt := none }

variable (M : Client P Chan D L I)

/-- One step of the processes. -/
def ptStep (s : PtState P Chan D L) : Act P I → Option (PtState P Chan D L)
  | .run p i =>
    match s.pc p with
    | .outside l => (M.outside p l i).bind (ptStepOut s p)
    | .inside l => (M.inside p (s.killed p) s.data l i).map (ptStepIn s p)
    | _ => none
  | .go p =>
    match s.pc p with
    | .runnable _ l =>
      if s.pt = none then some { s.put p (.inside l) with pt := some p } else none
    | _ => none
  | .kill p =>
    if s.pt = none then
      some { s.put p (s.pc p).rouse with killed := update s.killed p true }
    else none

/-- The processes `P` running the client under `ptable.lock`. -/
def ptSystem (init : D → (P → L) → Prop) : Lts (PtState P Chan D L) (Act P I) where
  init s := s.pt = none ∧ ∃ ls : P → L, (∀ p, s.pc p = .outside (ls p)) ∧ init s.data ls
  step := ptStep M

variable {M} {c : Chan} {cond : D → Prop} {owes : L → Bool}

/-! ## No lost wakeup -/

namespace PtPc

variable (x : PtPc Chan L)

theorem wake_cases (c : Chan) : x.wake c = x ∨ ∃ l, x = .asleep c l ∧ x.wake c = .runnable c l := by
  cases x with
  | asleep c' l =>
    by_cases hc : c' = c
    · subst hc
      exact .inr ⟨l, rfl, if_pos rfl⟩
    · exact .inl (if_neg hc)
  | _ => exact .inl rfl

theorem owed_wake (owes : L → Bool) (c : Chan) : (x.wake c).owed owes = x.owed owes := by
  rcases x.wake_cases c with h | ⟨l, rfl, h⟩ <;> rw [h]
  rfl

theorem sleeps_of_wake {c c' : Chan} (h : (x.wake c).sleeps c' = true) : x.sleeps c' = true := by
  rcases x.wake_cases c with hw | ⟨l, rfl, hw⟩
  · rwa [hw] at h
  · rw [hw] at h
    cases h

theorem not_sleeps_wake (c : Chan) : (x.wake c).sleeps c = false := by
  cases x with
  | asleep c' l =>
    by_cases hc : c' = c
    · subst hc
      simp [wake, sleeps]
    · simp [wake, sleeps, hc]
  | _ => rfl

end PtPc

/-- When the condition is true and somebody sleeps on `c`, somebody owes a
`wakeup`. -/
def PtNoLost (c : Chan) (cond : D → Prop) (owes : L → Bool) (d : D) (pc : P → PtPc Chan L) : Prop :=
  ∀ p, (pc p).sleeps c = true → cond d → ∃ q, (pc q).owed owes = true

namespace PtNoLost

variable {d d' : D} {pc : P → PtPc Chan L} {p : P} {x : PtPc Chan L}

theorem move (hi : PtNoLost c cond owes d pc) (hcond : cond d' → cond d ∨ x.owed owes = true)
    (hsleeps : x.sleeps c = true → (pc p).sleeps c = true ∨ ¬ cond d')
    (howed : (pc p).owed owes = true → x.owed owes = true ∨ ∀ q, (pc q).sleeps c = false) :
    PtNoLost c cond owes d' (update pc p x) := by
  intro q hq hc
  have hold : ∃ r, (pc r).sleeps c = true := by
    by_cases h : q = p
    · subst h
      rw [update_self] at hq
      rcases hsleeps hq with hold | hnc
      · exact ⟨q, hold⟩
      · exact absurd hc hnc
    · rw [update_of_ne h] at hq
      exact ⟨q, hq⟩
  obtain ⟨r, hr⟩ := hold
  have hpay : x.owed owes = true → ∃ u, (update pc p x u).owed owes = true := by
    intro hx
    exact ⟨p, by rwa [update_self]⟩
  rcases hcond hc with hd | hx
  · obtain ⟨u, hu⟩ := hi r hr hd
    by_cases h : u = p
    · subst h
      rcases howed hu with hx | hquiet
      · exact hpay hx
      · rw [hquiet r] at hr
        cases hr
    · exact ⟨u, by rwa [update_of_ne h]⟩
  · exact hpay hx

omit [DecidableEq P] in
theorem wake (hi : PtNoLost c cond owes d pc) (c' : Chan) :
    PtNoLost c cond owes d fun q => (pc q).wake c' := by
  intro q hq hc
  obtain ⟨u, hu⟩ := hi q (PtPc.sleeps_of_wake _ hq) hc
  exact ⟨u, by rwa [PtPc.owed_wake]⟩

theorem wakeup1 (hi : PtNoLost c cond owes d pc) {c' : Chan} (hx : x.sleeps c = false)
    (hduty : c' ≠ c → (pc p).owed owes = true → x.owed owes = true) :
    PtNoLost c cond owes d (update (fun q => (pc q).wake c') p x) := by
  refine (hi.wake c').move .inl (fun h => by rw [hx] at h; cases h) ?_
  intro howed
  rw [PtPc.owed_wake] at howed
  by_cases hc : c' = c
  · subst hc
    exact .inr fun q => PtPc.not_sleeps_wake _ _
  · exact .inl (hduty hc howed)

end PtNoLost

theorem PtNoLost.stepOut {s t : PtState P Chan D L} {p : P} {l : L} {o : OutStep Chan L}
    (hi : PtNoLost c cond owes s.data s.pc) (hpc : s.pc p = .outside l) (hduty : o.Duty c owes l)
    (h : ptStepOut s p o = some t) : PtNoLost c cond owes t.data t.pc := by
  cases o with
  | move l' =>
    cases h
    refine hi.move .inl (fun h => by cases h) ?_
    rw [hpc]
    exact fun h => .inl (hduty h)
  | acquire l' =>
    rw [ptStepOut] at h
    split at h
    · cases h
      refine hi.move .inl (fun h => by cases h) ?_
      rw [hpc]
      exact fun h => .inl (hduty h)
    · cases h
  | wakeup c' l' =>
    rw [ptStepOut] at h
    split at h
    · cases h
      refine hi.wakeup1 rfl ?_
      rw [hpc]
      exact hduty
    · cases h

theorem PtNoLost.stepIn {s : PtState P Chan D L} {p : P} {l : L} {o : InStep Chan D L}
    (hi : PtNoLost c cond owes s.data s.pc) (hpc : s.pc p = .inside l)
    (hduty : o.Duty c cond owes s.data l) :
    PtNoLost c cond owes (ptStepIn s p o).data (ptStepIn s p o).pc := by
  cases o with
  | store d l' =>
    refine hi.move hduty.1 (fun h => by cases h) ?_
    rw [hpc]
    exact fun h => .inl (hduty.2 h)
  | wakeup c' l' =>
    refine hi.wakeup1 rfl ?_
    rw [hpc]
    exact hduty
  | sleep c' l' =>
    refine hi.move .inl ?_ ?_
    · intro hs
      exact .inr (hduty.1 (by simpa [PtPc.sleeps] using hs))
    · rw [hpc]
      exact fun h => .inl (hduty.2 h)
  | release l' =>
    refine hi.move .inl (fun h => by cases h) ?_
    rw [hpc]
    exact fun h => .inl (hduty h)

theorem PtNoLost.step {s t : PtState P Chan D L} {a : Act P I} (hM : M.Disciplined c cond owes)
    (hi : PtNoLost c cond owes s.data s.pc) (h : ptStep M s a = some t) :
    PtNoLost c cond owes t.data t.pc := by
  cases a with
  | run p i =>
    simp only [ptStep] at h
    split at h
    · rename_i l hpc
      obtain ⟨o, ho, hst⟩ := Option.bind_eq_some_iff.1 h
      exact hi.stepOut hpc (hM.outside p l i o ho) hst
    · rename_i l hpc
      obtain ⟨o, ho, hst⟩ := Option.map_eq_some_iff.1 h
      subst hst
      exact hi.stepIn hpc (hM.inside p _ _ l i o ho)
    · cases h
  | go p =>
    simp only [ptStep] at h
    split at h
    · rename_i c' l hpc
      split at h
      · cases h
        refine hi.move .inl (fun h => by cases h) ?_
        rw [hpc]
        exact fun h => .inl h
      · cases h
    · cases h
  | kill p =>
    rw [ptStep] at h
    split at h
    · cases h
      refine hi.move .inl ?_ ?_
      · intro hs
        revert hs
        cases s.pc p <;> simp [PtPc.rouse, PtPc.sleeps]
      · intro howed
        revert howed
        cases s.pc p <;> exact fun h => .inl h
    · cases h

/-! ## Both kinds of lock -/

/-- **`sleep` and `wakeup` lose no wakeup.**  The client sleeps on `c` only while
its condition is false, and a process that makes the condition true keeps the
debt of a `wakeup(c)` until it has paid.  Then in every state reached in which
`lk` is free, the condition is true and no `wakeup(c)` is owed, nobody is
`SLEEPING` on `c` or has released `lk` inside `sleep` without yet being
`SLEEPING`; whether `lk` is a lock of its own or `ptable.lock`. -/
theorem no_lost_wakeup (init : D → (P → L) → Prop) (hM : M.Disciplined c cond owes) :
    (∀ s : State P Chan D L, (system M init).Reach (fun _ _ => True) s → s.lk = none →
      cond s.data → (∀ q, (s.pc q).owed owes = false) → ∀ p, (s.pc p).sleeps c = false) ∧
    (∀ s : PtState P Chan D L, (ptSystem M init).Reach (fun _ _ => True) s → s.pt = none →
      cond s.data → (∀ q, (s.pc q).owed owes = false) → ∀ p, (s.pc p).sleeps c = false) := by
  refine ⟨?_, ?_⟩
  · intro s hs _ hc howed
    exact (noLost_of_reach (fun s a _ _ => hM.obeys c cond owes s a) hs).quiet hc howed
  · intro s hs _ hc howed p
    have hn : PtNoLost c cond owes s.data s.pc := by
      refine hs.invariant (I := fun s => PtNoLost c cond owes s.data s.pc) ?_ ?_
      · rintro s ⟨_, ls, hpc, _⟩ p hp
        rw [hpc p] at hp
        cases hp
      · intro s a t hi _ hst
        exact hi.step hM hst
    by_contra hp
    obtain ⟨q, hq⟩ := hn p (Bool.not_eq_false _ ▸ hp) hc
    rw [howed q] at hq
    cases hq

/-! ## The queue of `sleep1.p` -/

/-- Where a consumer or producer is. -/
inductive QPlace
  | top
  /-- With `lk`, at the test or the increment. -/
  | held
  /-- A consumer after its decrement. -/
  | taken
  /-- A producer after its increment, with `lk`. -/
  | added
  /-- A producer after `release(lk)`, before `wakeup`. -/
  | released
  deriving DecidableEq

/-- The consumers and producers of `sleep1.p`: the data is `value`, and a
producer calls `wakeup` after `release(lk)`. -/
def queue (producer : P → Bool) : Client P Unit ℕ QPlace Unit where
  outside _ l _ :=
    match l with
    | .top => some (.acquire .held)
    | .released => some (.wakeup () .top)
    | _ => none
  inside p _ value l _ :=
    match l with
    | .held =>
      if producer p then some (.store (value + 1) .added)
      else if 0 < value then some (.store (value - 1) .taken)
      else some (.sleep () .held)
    | .taken => some (.release .top)
    | .added => some (.release .released)
    | _ => none

/-- A producer owes from its increment to its `wakeup`. -/
def QPlace.pays : QPlace → Bool
  | .added | .released => true
  | _ => false

omit [DecidableEq P] in
theorem queue_disciplined (producer : P → Bool) :
    (queue producer).Disciplined () (fun value => 0 < value) QPlace.pays := by
  refine ⟨?_, ?_⟩
  · intro p l i o h
    cases l with
    | top =>
      cases h
      exact fun h => h
    | released =>
      cases h
      exact fun h => absurd rfl h
    | _ => cases h
  · intro p k value l i o h
    cases l with
    | held =>
      simp only [queue] at h
      split at h
      · cases h
        exact ⟨fun _ => .inr rfl, fun h => by cases h⟩
      · split at h
        · rename_i hpos
          cases h
          exact ⟨fun _ => .inl hpos, fun h => by cases h⟩
        · rename_i hpos
          cases h
          exact ⟨fun _ => hpos, fun h => h⟩
    | taken =>
      cases h
      exact fun h => by cases h
    | added =>
      cases h
      exact fun _ => rfl
    | _ => cases h

/-- One consumer, `false`, and one producer, `true`; the queue is empty. -/
def onePair (value : ℕ) (l : Bool → QPlace) : Prop :=
  value = 0 ∧ ∀ p, l p = .top

/-- A consumer finds the queue empty and sleeps; a producer adds a value,
releases the lock and wakes it. -/
theorem queue_wakes_consumer :
    (∃ s, (system (queue id) onePair).Reach (fun _ _ => True) s ∧ s.data = 1 ∧
      ∀ p, (s.pc p).sleeps () = false) ∧
    (∃ s, (ptSystem (queue id) onePair).Reach (fun _ _ => True) s ∧ s.data = 1 ∧
      ∀ p, (s.pc p).sleeps () = false) := by
  refine ⟨?_, ?_⟩
  · have h₀ : (system (queue id) onePair).Reach (fun _ _ => True)
        ⟨0, none, none, fun _ => .outside .top, fun _ => false⟩ :=
      .init ⟨rfl, rfl, fun _ => .top, fun _ => rfl, rfl, fun _ => rfl⟩
    obtain ⟨s, hs, hv⟩ := Lts.reach_of_exec_map
      [.run false (), .run false (), .go false, .go false, .go false, .run true (), .run true (),
        .run true (), .run true (), .go true, .go true, .go true]
      (fun s => (s.lk, s.data, s.pc false, s.pc true))
      (none, 1, .runnable () .held, .outside .top) h₀ (by decide +kernel)
    simp only [Prod.mk.injEq] at hv
    obtain ⟨hlk, hd, hf, ht⟩ := hv
    refine ⟨s, hs, hd, (no_lost_wakeup onePair (queue_disciplined id)).1 s hs hlk ?_ ?_⟩
    · rw [hd]
      exact Nat.one_pos
    · rintro (_ | _)
      · rw [hf]
        rfl
      · rw [ht]
        rfl
  · have h₀ : (ptSystem (queue id) onePair).Reach (fun _ _ => True)
        ⟨0, none, fun _ => .outside .top, fun _ => false⟩ :=
      .init ⟨rfl, fun _ => .top, fun _ => rfl, rfl, fun _ => rfl⟩
    obtain ⟨s, hs, hv⟩ := Lts.reach_of_exec_map
      [.run false (), .run false (), .run true (), .run true (), .run true (), .run true ()]
      (fun s => (s.pt, s.data, s.pc false, s.pc true))
      (none, 1, .runnable () .held, .outside .top) h₀ (by decide +kernel)
    simp only [Prod.mk.injEq] at hv
    obtain ⟨hpt, hd, hf, ht⟩ := hv
    refine ⟨s, hs, hd, (no_lost_wakeup onePair (queue_disciplined id)).2 s hs hpt ?_ ?_⟩
    · rw [hd]
      exact Nat.one_pos
    · rintro (_ | _)
      · rw [hf]
        rfl
      · rw [ht]
        rfl

end Xv6.Sleep
