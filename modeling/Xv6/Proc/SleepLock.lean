import Xv6.Proc.Sleep

/-!
# Owner-checked sleep locks

`acquiresleep`, `releasesleep` and `holdingsleep` on one `struct sleeplock`, as
client code of `sleep` and `wakeup` around the spinlock `lk->lk`.  Any process
may call any of them at any time, in particular `releasesleep` without holding
the lock; the test of `lk->pid` then makes the call do nothing.

`held` is not a field of the source: `acquiresleep` sets it for its caller and every
call of `releasesleep` clears it for its caller, whatever the code then does, so that
the fields the code does have can be compared with the calls that were made.
-/

namespace Xv6.SleepLock

open Xv6.Lib Xv6.Sleep Function

variable {P : Type} [DecidableEq P]

/-- `struct sleeplock`, without its spinlock and name. -/
structure Data (P : Type) where
  locked : Bool
  pid : ℤ
  /-- The processes that have called `releasesleep` no more since they completed
  `acquiresleep`. -/
  held : P → Bool

/-- Where a process is in the code of the sleep lock. -/
inductive Place
  | idle
  /-- In `acquiresleep`, at the loop test. -/
  | acquiring
  /-- In `acquiresleep`, having stored `locked` and `pid`. -/
  | acquired
  /-- In `releasesleep`, at the test of the owner. -/
  | releasing
  /-- In `releasesleep`, not being the owner. -/
  | refused
  /-- In `releasesleep`, having cleared `locked` and `pid`. -/
  | cleared
  /-- In `releasesleep`, after `wakeup(lk)`. -/
  | woken
  /-- In `holdingsleep`, before it reads the fields. -/
  | asking
  /-- Outside, `holdingsleep` having returned `r`. -/
  | answered (r : Bool)
  deriving DecidableEq

/-- The functions a process can call. -/
inductive Call
  | acquiresleep
  | releasesleep
  | holdingsleep

/-- The code of the three functions; `pid` gives the processes' pids, and the
channel slept on is the lock itself. -/
def sleeplock (pid : P → ℤ) : Client P Unit (Data P) Place Call where
  outside _ l call :=
    match l, call with
    | .idle, .acquiresleep | .answered _, .acquiresleep => some (.acquire .acquiring)
    | .idle, .releasesleep | .answered _, .releasesleep => some (.acquire .releasing)
    | .idle, .holdingsleep | .answered _, .holdingsleep => some (.acquire .asking)
    | _, _ => none
  inside p _ d l _ :=
    match l with
    | .acquiring =>
      if d.locked then some (.sleep () .acquiring)
      else some (.store ⟨true, pid p, update d.held p true⟩ .acquired)
    | .acquired => some (.release .idle)
    | .releasing =>
      if d.pid ≠ pid p then some (.store { d with held := update d.held p false } .refused)
      else some (.store ⟨false, 0, update d.held p false⟩ .cleared)
    | .refused => some (.release .idle)
    | .cleared => some (.wakeup () .woken)
    | .woken => some (.release .idle)
    | .asking => some (.release (.answered (d.locked && d.pid = pid p)))
    | .idle | .answered _ => none

/-- `initsleeplock`, with nobody near the lock. -/
def initsleeplock (d : Data P) (l : P → Place) : Prop :=
  (d.locked = false ∧ d.pid = 0 ∧ ∀ p, d.held p = false) ∧ ∀ p, l p = .idle

/-- Between clearing `locked` and `wakeup(lk)` a process owes the waiters. -/
def Place.owes : Place → Bool
  | .cleared => true
  | _ => false

/-! ## The fields name the holder -/

/-- `locked` and `pid` say exactly who holds the lock. -/
structure Owned (pid : P → ℤ) (d : Data P) : Prop where
  holder : ∀ p, d.held p = true ↔ d.locked = true ∧ d.pid = pid p
  locked : d.locked = true → ∃ p, d.pid = pid p
  free : d.locked = false → d.pid = 0

namespace Owned

variable {pid : P → ℤ} {d : Data P}

theorem acquire (hinj : Function.Injective pid) (hd : Owned pid d) (hfree : d.locked = false)
    (p : P) : Owned pid ⟨true, pid p, update d.held p true⟩ := by
  refine ⟨?_, fun _ => ⟨p, rfl⟩, nofun⟩
  intro q
  by_cases hq : q = p
  · subst hq
    simp
  · have hnot : d.held q = false := by
      by_contra h
      have hlocked := ((hd.holder q).1 (Bool.not_eq_false _ ▸ h)).1
      rw [hfree] at hlocked
      cases hlocked
    have hne : pid p ≠ pid q := fun h => hq (hinj h).symm
    simp [update_of_ne hq, hnot, hne]

theorem release (hinj : Function.Injective pid) (hd : Owned pid d) {p : P} (hp : d.pid = pid p) :
    Owned pid ⟨false, 0, update d.held p false⟩ := by
  refine ⟨?_, nofun, fun _ => rfl⟩
  intro q
  by_cases hq : q = p
  · subst hq
    simp
  · have hnot : d.held q = false := by
      by_contra h
      have hpid := ((hd.holder q).1 (Bool.not_eq_false _ ▸ h)).2
      exact hq (hinj (hpid.symm.trans hp))
    simp [update_of_ne hq, hnot]

theorem refuse (hd : Owned pid d) {p : P} (hp : d.pid ≠ pid p) :
    update d.held p false = d.held := by
  refine update_eq_self_iff.2 (Bool.eq_false_of_not_eq_true fun h => ?_).symm
  exact hp ((hd.holder p).1 h).2

omit [DecidableEq P] in
theorem unique (hinj : Function.Injective pid) (hd : Owned pid d) {p q : P}
    (hp : d.held p = true) (hq : d.held q = true) : p = q := by
  have h1 := ((hd.holder p).1 hp).2
  have h2 := ((hd.holder q).1 hq).2
  exact hinj (h1.symm.trans h2)

omit [DecidableEq P] in
theorem held_iff (hne : ∀ p, pid p ≠ 0) (hd : Owned pid d) (p : P) :
    d.held p = true ↔ d.pid = pid p := by
  rw [hd.holder p]
  refine ⟨fun h => h.2, fun h => ⟨?_, h⟩⟩
  by_contra hl
  have hzero := hd.free (Bool.not_eq_true _ ▸ hl)
  exact hne p (h.symm.trans hzero)

end Owned

variable {pid : P → ℤ}

theorem owned_of_reach (hinj : Function.Injective pid)
    {s : State P Unit (Data P) Place}
    (h : (system (sleeplock pid) initsleeplock).Reach (fun _ _ => True) s) :
    Owned pid s.data := by
  refine data_invariant (J := Owned pid) ?_ ?_ h
  · rintro d ls ⟨⟨hl, hp, hh⟩, _⟩
    refine ⟨?_, ?_, fun _ => hp⟩
    · intro p
      simp [hl, hh p]
    · intro hlocked
      rw [hl] at hlocked
      cases hlocked
  · intro p k d l i d' l' hd hin
    cases l with
    | acquiring =>
      simp only [sleeplock] at hin
      split at hin
      · cases hin
      · rename_i hlocked
        cases hin
        exact hd.acquire hinj (Bool.not_eq_true _ ▸ hlocked) p
    | releasing =>
      simp only [sleeplock] at hin
      split at hin
      · rename_i hpid
        cases hin
        rw [hd.refuse hpid]
        exact hd
      · rename_i hpid
        cases hin
        exact hd.release hinj (not_not.1 hpid)
    | _ => cases hin

/-! ## Waiters are woken -/

omit [DecidableEq P] in
theorem sleeplock_prompt [DecidableEq P] (pid : P → ℤ) : (sleeplock pid).Prompt Place.owes := by
  refine ⟨?_, ?_, ?_, ?_⟩
  · intro p l i l' h
    cases l <;> cases i <;> cases h
  · intro p l i c l' h
    cases l <;> cases i <;> cases h
  · intro p k d l i c l' h
    cases l with
    | acquiring =>
      simp only [sleeplock] at h
      split at h <;> cases h
      rfl
    | releasing =>
      simp only [sleeplock] at h
      split at h <;> cases h
    | _ => cases h
  · intro p k d l i l' h
    cases l with
    | acquiring =>
      simp only [sleeplock] at h
      split at h <;> cases h
    | releasing =>
      simp only [sleeplock] at h
      split at h <;> cases h
    | acquired | refused | woken | asking =>
      cases h
      rfl
    | _ => cases h

theorem sleeplock_disciplined (pid : P → ℤ) :
    (sleeplock pid).Disciplined () (fun d => d.locked = false) Place.owes := by
  refine ⟨?_, ?_⟩
  · intro p l i o h
    cases l <;> cases i <;> cases h <;> exact nofun
  · intro p k d l i o h
    cases l with
    | acquiring =>
      simp only [sleeplock] at h
      split at h
      · rename_i hlocked
        cases h
        exact ⟨fun _ h => Bool.noConfusion (hlocked.symm.trans h), nofun⟩
      · cases h
        exact ⟨nofun, nofun⟩
    | releasing =>
      simp only [sleeplock] at h
      split at h
      · cases h
        exact ⟨fun hfree => .inl hfree, nofun⟩
      · cases h
        exact ⟨fun _ => .inr rfl, nofun⟩
    | cleared =>
      cases h
      exact fun h => absurd rfl h
    | acquired | refused | woken | asking =>
      cases h
      exact nofun
    | _ => cases h

/-! ## The protocol -/

/-- **Owner-checked sleep locks.**  In every state reached with `lk->lk` free,
`locked` is 1 exactly when `lk->pid` is the pid of a process that holds the lock,
at most one process holds it, and nobody is `SLEEPING` on it while `locked` is 0.
In every state reached, a `releasesleep` by a process that does not hold the lock
only takes and gives back `lk->lk`; that of the holder clears `locked` and `pid`, after
which nobody holds the lock, and calls `wakeup(lk)` before it gives `lk->lk` back; and
`holdingsleep` answers true exactly for the holder. -/
theorem owner_checked_sleep_lock (hinj : Function.Injective pid) (hne : ∀ p, pid p ≠ 0)
    {s : State P Unit (Data P) Place}
    (hs : (system (sleeplock pid) initsleeplock).Reach (fun _ _ => True) s) :
    (s.lk = none →
      (s.data.locked = true ↔ ∃ p, s.data.pid = pid p ∧ s.data.held p = true) ∧
      (∀ p q, s.data.held p = true → s.data.held q = true → p = q) ∧
      (s.data.locked = false → ∀ p, (s.pc p).sleeps () = false)) ∧
    (∀ p l t, s.pc p = .outside l → step (sleeplock pid) s (.run p .releasesleep) = some t →
      t = { s.put p (.inside .releasing) with lk := some p }) ∧
    (∀ p i, s.data.held p = false → s.pc p = .inside .releasing →
      step (sleeplock pid) s (.run p i) = some (s.put p (.inside .refused))) ∧
    (∀ p i, s.pc p = .inside .refused →
      step (sleeplock pid) s (.run p i) = some { s.put p (.outside .idle) with lk := none }) ∧
    (∀ p i, s.data.held p = true → s.pc p = .inside .releasing →
      step (sleeplock pid) s (.run p i) =
        some { s.put p (.inside .cleared) with data := ⟨false, 0, fun _ => false⟩ }) ∧
    (∀ p i, s.pc p = .inside .cleared →
      step (sleeplock pid) s (.run p i) = some (s.put p (.wakeup true () .cleared .woken))) ∧
    (∀ p i, s.pc p = .inside .woken →
      step (sleeplock pid) s (.run p i) = some { s.put p (.outside .idle) with lk := none }) ∧
    (∀ p i, s.pc p = .inside .asking →
      step (sleeplock pid) s (.run p i) =
        some { s.put p (.outside (.answered (s.data.held p))) with lk := none }) := by
  have hd := owned_of_reach hinj hs
  refine ⟨?_, ?_, ?_, ?_, ?_, ?_, ?_, ?_⟩
  · intro hlk
    refine ⟨⟨?_, ?_⟩, ?_, ?_⟩
    · intro hlocked
      obtain ⟨p, hp⟩ := hd.locked hlocked
      exact ⟨p, hp, (hd.holder p).2 ⟨hlocked, hp⟩⟩
    · rintro ⟨p, _, hp⟩
      exact ((hd.holder p).1 hp).1
    · intro p q hp hq
      exact hd.unique hinj hp hq
    · intro hfree
      refine quiet_of_free (sleeplock_prompt pid) ?_
        (fun s a _ _ => (sleeplock_disciplined pid).obeys _ _ _ s a) hs hlk hfree
      rintro d ls ⟨_, hidle⟩ p
      rw [hidle p]
      rfl
  · intro p l t hpc hst
    simp only [step, hpc] at hst
    obtain ⟨o, ho, hst⟩ := Option.bind_eq_some_iff.1 hst
    have hacq : o = .acquire .releasing := by
      cases l <;> first | (cases ho; rfl) | cases ho
    rw [hacq, stepOut] at hst
    split at hst
    · exact (Option.some.inj hst).symm
    · cases hst
  · intro p i hp hpc
    have hpid : s.data.pid ≠ pid p := by
      intro h
      rw [(hd.held_iff hne p).2 h] at hp
      cases hp
    simp [step, hpc, sleeplock, hpid, stepIn, hd.refuse hpid, State.put]
  · intro p i hpc
    simp [step, hpc, sleeplock, stepIn]
  · intro p i hp hpc
    have hnone : update s.data.held p false = fun _ => false := by
      funext q
      by_cases hq : q = p
      · rw [hq, update_self]
      · rw [update_of_ne hq]
        exact Bool.eq_false_of_not_eq_true fun h => hq (hd.unique hinj h hp)
    simp [step, hpc, sleeplock, (hd.held_iff hne p).1 hp, stepIn, hnone]
  · intro p i hpc
    simp [step, hpc, sleeplock, stepIn]
  · intro p i hpc
    simp [step, hpc, sleeplock, stepIn]
  · intro p i hpc
    have hans : (s.data.locked && decide (s.data.pid = pid p)) = s.data.held p := by
      rw [Bool.eq_iff_iff, hd.holder p]
      simp
    simp [step, hpc, sleeplock, hans, stepIn]

/-- Process 0 holds the lock, process 1 sleeps on it, and process 2 is about to
test the owner in a `releasesleep` of its own: it is refused.  Then process 0 releases. -/
theorem owner_checked_foreign_release :
    ∃ s, (system (sleeplock ![(1 : ℤ), 2, 3]) initsleeplock).Reach (fun _ _ => True) s ∧
      s.data.locked = true ∧ s.data.pid = 1 ∧ s.pc 1 = .asleep () .acquiring ∧
      step (sleeplock ![(1 : ℤ), 2, 3]) s (.run 2 .releasesleep) =
        some (s.put 2 (.inside .refused)) ∧
    ∃ t, (system (sleeplock ![(1 : ℤ), 2, 3]) initsleeplock).Reach (fun _ _ => True) t ∧
      t.data.held 0 = true ∧ t.pc 1 = .asleep () .acquiring ∧
      step (sleeplock ![(1 : ℤ), 2, 3]) t (.run 0 .releasesleep) =
        some { t.put 0 (.inside .cleared) with data := ⟨false, 0, fun _ => false⟩ } := by
  have hinj : Function.Injective ![(1 : ℤ), 2, 3] := by decide
  have hne : ∀ p, ![(1 : ℤ), 2, 3] p ≠ 0 := by decide
  have h₀ : (system (sleeplock ![(1 : ℤ), 2, 3]) initsleeplock).Reach (fun _ _ => True)
      ⟨⟨false, 0, fun _ => false⟩, none, none, fun _ => .outside .idle, fun _ => false⟩ :=
    .init ⟨rfl, rfl, fun _ => .idle, fun _ => rfl, ⟨rfl, rfl, fun _ => rfl⟩, fun _ => rfl⟩
  let acts : List (Act (Fin 3) Call) := [.run 0 .acquiresleep, .run 0 .acquiresleep,
    .run 0 .acquiresleep, .run 1 .acquiresleep, .run 1 .acquiresleep, .go 1, .go 1, .go 1,
    .run 2 .releasesleep]
  obtain ⟨s, hs, hv⟩ := Lts.reach_of_exec_map acts
    (fun s => ((s.data.locked, s.data.pid, s.data.held 2), s.pc 1, s.pc 2))
    ((true, 1, false), .asleep () .acquiring, .inside .releasing) h₀ (by decide +kernel)
  obtain ⟨t, ht, hw⟩ := Lts.reach_of_exec_map
    (acts ++ [.run 2 .releasesleep, .run 2 .releasesleep, .run 0 .releasesleep])
    (fun t => (t.data.held 0, t.pc 1, t.pc 0))
    (true, .asleep () .acquiring, .inside .releasing) h₀ (by decide +kernel)
  simp only [Prod.mk.injEq] at hv hw
  obtain ⟨⟨hlocked, hpid, hheld⟩, hpc1, hpc2⟩ := hv
  obtain ⟨hholds, hwaits, hpc0⟩ := hw
  refine ⟨s, hs, hlocked, hpid, hpc1, ?_, t, ht, hholds, hwaits, ?_⟩
  · exact (owner_checked_sleep_lock hinj hne hs).2.2.1 2 .releasesleep hheld hpc2
  · exact (owner_checked_sleep_lock hinj hne ht).2.2.2.2.1 0 .releasesleep hholds hpc0

end Xv6.SleepLock
