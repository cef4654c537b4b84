import Xv6.Lib.Lts
import Xv6.Lib.Owner

/-!
# `sleep` and `wakeup` around a spinlock

Any number of processes run client code that shares some data under a spinlock
`lk`, other than `ptable.lock`, and waits with `sleep(chan, lk)`.  The client is
a parameter: `Client.outside` gives what a process does next while it does not
hold `lk`, `Client.inside` what it does next while it does, as functions of its
own state, the shared data, its `killed` flag and an input that stands for the
choices the code does not make (arguments, bytes of user memory).

`sleep` and `wakeup` themselves are taken apart into their accesses to the two
locks:

* `sleep`: acquire `ptable.lock`; release `lk`; store `SLEEPING` and leave the
  CPU, which frees `ptable.lock`; when runnable again and picked by a scheduler,
  which holds `ptable.lock`, clear `chan` and release `ptable.lock`; acquire
  `lk`.
* `wakeup`: acquire `ptable.lock`; `wakeup1`; release `ptable.lock`.
* `kill` may set any process's flag and make it runnable whenever `ptable.lock`
  is free.

The results are rules for clients: what every store keeps holds of the data in
every reached state (`Client.data_invariant`), and a client that sleeps only
while its condition is false and pays for every change with a `wakeup` loses no
wakeup (`NoLost`).
-/

namespace Xv6.Sleep

open Xv6.Lib Function

/-! ## Clients -/

/-- What a process does next while it does not hold `lk`. -/
inductive OutStep (Chan L : Type)
  /-- Something that touches neither the locks nor the data. -/
  | move (l : L)
  | acquire (l : L)
  | wakeup (c : Chan) (l : L)

/-- What a process does next while it holds `lk`. -/
inductive InStep (Chan D L : Type)
  | store (d : D) (l : L)
  | wakeup (c : Chan) (l : L)
  | sleep (c : Chan) (l : L)
  | release (l : L)

/-- The code of the processes, as far as `lk` is concerned. -/
structure Client (P Chan D L I : Type) where
  /-- The next step of a process that does not hold `lk`. -/
  outside : P → L → I → Option (OutStep Chan L)
  /-- The next step of a process that holds `lk`; the second argument is its
  `killed` flag. -/
  inside : P → Bool → D → L → I → Option (InStep Chan D L)

/-- Where a process is. -/
inductive Pc (Chan L : Type)
  /-- In client code, without `lk`. -/
  | outside (l : L)
  | inside (l : L)
  /-- In `sleep`, about to acquire `ptable.lock`. -/
  | entered (c : Chan) (l : L)
  /-- In `sleep` with both locks, about to release `lk`. -/
  | both (c : Chan) (l : L)
  /-- In `sleep`, `lk` released, about to become `SLEEPING`. -/
  | falling (c : Chan) (l : L)
  | asleep (c : Chan) (l : L)
  | runnable (c : Chan) (l : L)
  /-- Running again, inside `sleep`, with `ptable.lock`. -/
  | resumed (l : L)
  /-- In `sleep`, about to acquire `lk` again. -/
  | retaking (l : L)
  /-- In `wakeup`, about to acquire `ptable.lock`; `h` tells whether the caller
  holds `lk`, `l` and `l'` are its states before and after the call. -/
  | wakeup (h : Bool) (c : Chan) (l l' : L)
  /-- In `wakeup` with `ptable.lock`, about to run `wakeup1`. -/
  | waking (h : Bool) (c : Chan) (l l' : L)
  /-- In `wakeup` after `wakeup1`, about to release `ptable.lock`. -/
  | woke (h : Bool) (l' : L)
  deriving DecidableEq

namespace Pc

variable {Chan L : Type}

/-- The process holds `lk`. -/
def hasLk : Pc Chan L → Bool
  | .inside _ | .entered _ _ | .both _ _ => true
  | .wakeup h _ _ _ | .waking h _ _ _ | .woke h _ => h
  | _ => false

/-- The process holds `ptable.lock`. -/
def hasPt : Pc Chan L → Bool
  | .both _ _ | .falling _ _ | .resumed _ | .waking _ _ _ _ | .woke _ _ => true
  | _ => false

/-- The process has called `sleep(c, lk)` and still holds `lk`. -/
def falls [DecidableEq Chan] (c : Chan) : Pc Chan L → Bool
  | .entered c' _ | .both c' _ => c' = c
  | _ => false

/-- The process is `SLEEPING` on `c`, or has released `lk` inside `sleep`
without yet being `SLEEPING`. -/
def sleeps [DecidableEq Chan] (c : Chan) : Pc Chan L → Bool
  | .falling c' _ | .asleep c' _ => c' = c
  | _ => false

/-- The process still owes a `wakeup` for a change it made, as its state `l`
records; a call of `wakeup` pays when `wakeup1` has run. -/
def owed (owes : L → Bool) : Pc Chan L → Bool
  | .outside l | .inside l | .entered _ l | .both _ l | .falling _ l | .asleep _ l
  | .runnable _ l | .resumed l | .retaking l | .wakeup _ _ l _ | .waking _ _ l _
  | .woke _ l => owes l

/-- What `wakeup1(c)` does to a process. -/
def wake [DecidableEq Chan] (c : Chan) : Pc Chan L → Pc Chan L
  | .asleep c' l => if c' = c then .runnable c' l else .asleep c' l
  | x => x

/-- What `kill` does to the state of a process. -/
def rouse : Pc Chan L → Pc Chan L
  | .asleep c l => .runnable c l
  | x => x

end Pc

/-- The locks, the data and the processes. -/
structure State (P Chan D L : Type) where
  data : D
  lk : Option P
  pt : Option P
  pc : P → Pc Chan L
  killed : P → Bool

/-- The steps. -/
inductive Act (P I : Type)
  /-- The next step of a process in client code. -/
  | run (p : P) (i : I)
  /-- The next step of a process in `sleep` or `wakeup`. -/
  | go (p : P)
  | kill (p : P)

variable {P Chan D L I : Type} [DecidableEq P] [DecidableEq Chan]

/-- Move one process. -/
def State.put (s : State P Chan D L) (p : P) (x : Pc Chan L) : State P Chan D L :=
  { s with pc := update s.pc p x }

/-- A step of client code without `lk`. -/
def stepOut (s : State P Chan D L) (p : P) (l : L) : OutStep Chan L → Option (State P Chan D L)
  | .move l' => some (s.put p (.outside l'))
  | .acquire l' => if s.lk = none then some { s.put p (.inside l') with lk := some p } else none
  | .wakeup c l' => some (s.put p (.wakeup false c l l'))

/-- A step of client code with `lk`. -/
def stepIn (s : State P Chan D L) (p : P) (l : L) : InStep Chan D L → State P Chan D L
  | .store d l' => { s.put p (.inside l') with data := d }
  | .wakeup c l' => s.put p (.wakeup true c l l')
  | .sleep c l' => s.put p (.entered c l')
  | .release l' => { s.put p (.outside l') with lk := none }

/-- A step of a process inside `sleep` or `wakeup`. -/
def stepGo (s : State P Chan D L) (p : P) : Option (State P Chan D L) :=
  match s.pc p with
  | .entered c l => if s.pt = none then some { s.put p (.both c l) with pt := some p } else none
  | .both c l => some { s.put p (.falling c l) with lk := none }
  | .falling c l => some { s.put p (.asleep c l) with pt := none }
  | .runnable _ l => if s.pt = none then some { s.put p (.resumed l) with pt := some p } else none
  | .resumed l => some { s.put p (.retaking l) with pt := none }
  | .retaking l => if s.lk = none then some { s.put p (.inside l) with lk := some p } else none
  | .wakeup h c l l' =>
    if s.pt = none then some { s.put p (.waking h c l l') with pt := some p } else none
  | .waking h c _ l' =>
    some { s with pc := update (fun q => (s.pc q).wake c) p (.woke h l') }
  | .woke h l' => some { s.put p (if h then .inside l' else .outside l') with pt := none }
  | .outside _ | .inside _ | .asleep _ _ => none

variable (M : Client P Chan D L I)

/-- One step of the processes. -/
def step (s : State P Chan D L) : Act P I → Option (State P Chan D L)
  | .run p i =>
    match s.pc p with
    | .outside l => (M.outside p l i).bind (stepOut s p l)
    | .inside l => (M.inside p (s.killed p) s.data l i).map (stepIn s p l)
    | _ => none
  | .go p => stepGo s p
  | .kill p =>
    if s.pt = none then
      some { s.put p (s.pc p).rouse with killed := update s.killed p true }
    else none

/-- The processes `P` running the client, from data and states that meet `init`
with nobody near the locks. -/
def system (init : D → (P → L) → Prop) : Lts (State P Chan D L) (Act P I) where
  init s := s.lk = none ∧ s.pt = none ∧
    ∃ ls : P → L, (∀ p, s.pc p = .outside (ls p)) ∧ init s.data ls
  step := step M

/-! ## What a step can do -/

/-- The branches of the code, each with what it needs and what it does. -/
inductive Moves (s : State P Chan D L) : Act P I → State P Chan D L → Prop
  | move {p : P} {i : I} {l l' : L} : s.pc p = .outside l → M.outside p l i = some (.move l') →
      Moves s (.run p i) (s.put p (.outside l'))
  | acquire {p : P} {i : I} {l l' : L} : s.pc p = .outside l →
      M.outside p l i = some (.acquire l') → s.lk = none →
      Moves s (.run p i) { s.put p (.inside l') with lk := some p }
  | wakeupOut {p : P} {i : I} {l l' : L} {c : Chan} : s.pc p = .outside l →
      M.outside p l i = some (.wakeup c l') →
      Moves s (.run p i) (s.put p (.wakeup false c l l'))
  | store {p : P} {i : I} {l l' : L} {d : D} : s.pc p = .inside l →
      M.inside p (s.killed p) s.data l i = some (.store d l') →
      Moves s (.run p i) { s.put p (.inside l') with data := d }
  | wakeupIn {p : P} {i : I} {l l' : L} {c : Chan} : s.pc p = .inside l →
      M.inside p (s.killed p) s.data l i = some (.wakeup c l') →
      Moves s (.run p i) (s.put p (.wakeup true c l l'))
  | sleep {p : P} {i : I} {l l' : L} {c : Chan} : s.pc p = .inside l →
      M.inside p (s.killed p) s.data l i = some (.sleep c l') →
      Moves s (.run p i) (s.put p (.entered c l'))
  | release {p : P} {i : I} {l l' : L} : s.pc p = .inside l →
      M.inside p (s.killed p) s.data l i = some (.release l') →
      Moves s (.run p i) { s.put p (.outside l') with lk := none }
  | entered {p : P} {c : Chan} {l : L} : s.pc p = .entered c l → s.pt = none →
      Moves s (.go p) { s.put p (.both c l) with pt := some p }
  | both {p : P} {c : Chan} {l : L} : s.pc p = .both c l →
      Moves s (.go p) { s.put p (.falling c l) with lk := none }
  | falling {p : P} {c : Chan} {l : L} : s.pc p = .falling c l →
      Moves s (.go p) { s.put p (.asleep c l) with pt := none }
  | runnable {p : P} {c : Chan} {l : L} : s.pc p = .runnable c l → s.pt = none →
      Moves s (.go p) { s.put p (.resumed l) with pt := some p }
  | resumed {p : P} {l : L} : s.pc p = .resumed l →
      Moves s (.go p) { s.put p (.retaking l) with pt := none }
  | retaking {p : P} {l : L} : s.pc p = .retaking l → s.lk = none →
      Moves s (.go p) { s.put p (.inside l) with lk := some p }
  | wakeup {p : P} {h : Bool} {c : Chan} {l l' : L} : s.pc p = .wakeup h c l l' → s.pt = none →
      Moves s (.go p) { s.put p (.waking h c l l') with pt := some p }
  | waking {p : P} {h : Bool} {c : Chan} {l l' : L} : s.pc p = .waking h c l l' →
      Moves s (.go p) { s with pc := update (fun q => (s.pc q).wake c) p (.woke h l') }
  | woke {p : P} {h : Bool} {l : L} : s.pc p = .woke h l →
      Moves s (.go p) { s.put p (if h then .inside l else .outside l) with pt := none }
  | kill {p : P} : s.pt = none →
      Moves s (.kill p) { s.put p (s.pc p).rouse with killed := update s.killed p true }

variable {M} {s t : State P Chan D L} {a : Act P I}

variable {p : P} {ok : State P Chan D L → Act P I → Prop} {init : D → (P → L) → Prop}
  {K : L → D → Prop}

theorem moves_of_run {i : I} (h : step M s (.run p i) = some t) :
    Moves M s (.run p i) t := by
  simp only [step] at h
  split at h
  · rename_i l hpc
    obtain ⟨o, ho, hst⟩ := Option.bind_eq_some_iff.1 h
    cases o with
    | move l' =>
      cases hst
      exact .move hpc ho
    | acquire l' =>
      obtain ⟨hlk, rfl⟩ := of_guard hst
      exact .acquire hpc ho hlk
    | wakeup c l' =>
      cases hst
      exact .wakeupOut hpc ho
  · rename_i l hpc
    obtain ⟨o, ho, hst⟩ := Option.map_eq_some_iff.1 h
    cases o with
    | store d l' => exact hst ▸ .store hpc ho
    | wakeup c l' => exact hst ▸ .wakeupIn hpc ho
    | sleep c l' => exact hst ▸ .sleep hpc ho
    | release l' => exact hst ▸ .release hpc ho
  · cases h

theorem moves_of_go (h : stepGo s p = some t) : Moves M s (.go p) t := by
  unfold stepGo at h
  split at h
  · rename_i c l hpc
    obtain ⟨hpt, rfl⟩ := of_guard h
    exact .entered hpc hpt
  · rename_i hpc
    cases h
    exact .both hpc
  · rename_i hpc
    cases h
    exact .falling hpc
  · rename_i c l hpc
    obtain ⟨hpt, rfl⟩ := of_guard h
    exact .runnable hpc hpt
  · rename_i hpc
    cases h
    exact .resumed hpc
  · rename_i l hpc
    obtain ⟨hlk, rfl⟩ := of_guard h
    exact .retaking hpc hlk
  · rename_i hpc
    obtain ⟨hpt, rfl⟩ := of_guard h
    exact .wakeup hpc hpt
  · rename_i hpc
    cases h
    exact .waking hpc
  · rename_i hpc
    cases h
    exact .woke hpc
  · cases h
  · cases h
  · cases h

theorem moves_of_step (h : step M s a = some t) : Moves M s a t := by
  cases a with
  | run p i => exact moves_of_run h
  | go p => exact moves_of_go h
  | kill p =>
    obtain ⟨hpt, rfl⟩ := of_guard h
    exact .kill hpt

/-! ## The two locks -/

/-- The lock words name the processes that hold the locks. -/
structure Locked (s : State P Chan D L) : Prop where
  lk : Owner s.lk fun p => (s.pc p).hasLk
  pt : Owner s.pt fun p => (s.pc p).hasPt

namespace Pc

variable (x : Pc Chan L)

theorem wake_cases (c : Chan) : x.wake c = x ∨ ∃ l, x = .asleep c l ∧ x.wake c = .runnable c l := by
  cases x with
  | asleep c' l =>
    by_cases hc : c' = c
    · subst hc
      exact .inr ⟨l, rfl, if_pos rfl⟩
    · exact .inl (if_neg hc)
  | _ => exact .inl rfl

@[simp] theorem hasLk_wake (c : Chan) : (x.wake c).hasLk = x.hasLk := by
  rcases x.wake_cases c with h | ⟨l, rfl, h⟩ <;> rw [h]
  rfl

@[simp] theorem hasPt_wake (c : Chan) : (x.wake c).hasPt = x.hasPt := by
  rcases x.wake_cases c with h | ⟨l, rfl, h⟩ <;> rw [h]
  rfl

@[simp] theorem falls_wake (c c' : Chan) : (x.wake c).falls c' = x.falls c' := by
  rcases x.wake_cases c with h | ⟨l, rfl, h⟩ <;> rw [h]
  rfl

@[simp] theorem owed_wake (owes : L → Bool) (c : Chan) : (x.wake c).owed owes = x.owed owes := by
  rcases x.wake_cases c with h | ⟨l, rfl, h⟩ <;> rw [h]
  rfl

theorem sleeps_of_wake {c c' : Chan} (h : (x.wake c).sleeps c' = true) : x.sleeps c' = true := by
  rcases x.wake_cases c with hw | ⟨l, rfl, hw⟩
  · rwa [hw] at h
  · rw [hw] at h
    cases h

theorem hasPt_of_sleeps_wake {c : Chan} (h : (x.wake c).sleeps c = true) : x.hasPt = true := by
  rcases x.wake_cases c with hw | ⟨l, rfl, hw⟩
  · cases x with
    | asleep c' l =>
      have hc : c' = c := by simpa [hw, sleeps] using h
      subst hc
      simp [wake] at hw
    | falling c' l => rfl
    | _ => cases h
  · rw [hw] at h
    cases h

omit [DecidableEq Chan] in
@[simp] theorem hasLk_rouse : x.rouse.hasLk = x.hasLk := by
  cases x <;> rfl

omit [DecidableEq Chan] in
@[simp] theorem hasPt_rouse : x.rouse.hasPt = x.hasPt := by
  cases x <;> rfl

omit [DecidableEq Chan] in
@[simp] theorem owed_rouse (owes : L → Bool) : x.rouse.owed owes = x.owed owes := by
  cases x <;> rfl

@[simp] theorem falls_rouse (c : Chan) : x.rouse.falls c = x.falls c := by
  cases x <;> rfl

theorem sleeps_of_rouse {c : Chan} (h : x.rouse.sleeps c = true) : x.sleeps c = true := by
  cases x with
  | asleep c' l => cases h
  | _ => exact h

theorem hasLk_of_falls {c : Chan} (h : x.falls c = true) : x.hasLk = true := by
  cases x <;> simp_all [falls, hasLk]

end Pc

namespace Locked

omit [DecidableEq P] [DecidableEq Chan] in
theorem of_outside {ls : P → L} (hlk : s.lk = none) (hpt : s.pt = none)
    (hpc : ∀ p, s.pc p = .outside (ls p)) : Locked s := by
  refine ⟨?_, ?_⟩
  · rw [hlk]
    exact Owner.of_free fun p => by rw [hpc p]; rfl
  · rw [hpt]
    exact Owner.of_free fun p => by rw [hpc p]; rfl

theorem step (hi : Locked s) (h : Moves M s a t) : Locked t := by
  have hlk := hi.lk
  have hpt := hi.pt
  cases h with
  | move hpc _ => exact ⟨hlk.keep (by rw [hpc]; rfl), hpt.keep (by rw [hpc]; rfl)⟩
  | acquire hpc _ hfree =>
    rw [hfree] at hlk
    exact ⟨hlk.take rfl, hpt.keep (by rw [hpc]; rfl)⟩
  | wakeupOut hpc _ => exact ⟨hlk.keep (by rw [hpc]; rfl), hpt.keep (by rw [hpc]; rfl)⟩
  | store hpc _ => exact ⟨hlk.keep (by rw [hpc]; rfl), hpt.keep (by rw [hpc]; rfl)⟩
  | wakeupIn hpc _ => exact ⟨hlk.keep (by rw [hpc]; rfl), hpt.keep (by rw [hpc]; rfl)⟩
  | sleep hpc _ => exact ⟨hlk.keep (by rw [hpc]; rfl), hpt.keep (by rw [hpc]; rfl)⟩
  | release hpc _ => exact ⟨hlk.drop (by rw [hpc]; rfl) rfl, hpt.keep (by rw [hpc]; rfl)⟩
  | entered hpc hfree =>
    rw [hfree] at hpt
    exact ⟨hlk.keep (by rw [hpc]; rfl), hpt.take rfl⟩
  | both hpc => exact ⟨hlk.drop (by rw [hpc]; rfl) rfl, hpt.keep (by rw [hpc]; rfl)⟩
  | falling hpc => exact ⟨hlk.keep (by rw [hpc]; rfl), hpt.drop (by rw [hpc]; rfl) rfl⟩
  | runnable hpc hfree =>
    rw [hfree] at hpt
    exact ⟨hlk.keep (by rw [hpc]; rfl), hpt.take rfl⟩
  | resumed hpc => exact ⟨hlk.keep (by rw [hpc]; rfl), hpt.drop (by rw [hpc]; rfl) rfl⟩
  | retaking hpc hfree =>
    rw [hfree] at hlk
    exact ⟨hlk.take rfl, hpt.keep (by rw [hpc]; rfl)⟩
  | wakeup hpc hfree =>
    rw [hfree] at hpt
    exact ⟨hlk.keep (by rw [hpc]; rfl), hpt.take rfl⟩
  | @waking p h c l l' hpc =>
    have hlk' : Owner s.lk fun q => ((s.pc q).wake c).hasLk := by simpa using hlk
    have hpt' : Owner s.pt fun q => ((s.pc q).wake c).hasPt := by simpa using hpt
    exact ⟨hlk'.keep (by rw [Pc.hasLk_wake, hpc]; rfl), hpt'.keep (by rw [Pc.hasPt_wake, hpc]; rfl)⟩
  | @woke p h l hpc =>
    refine ⟨hlk.keep ?_, hpt.drop (by rw [hpc]; rfl) ?_⟩
    · rw [hpc]
      cases h <;> rfl
    · cases h <;> rfl
  | kill _ => exact ⟨hlk.keep (by simp), hpt.keep (by simp)⟩

end Locked

theorem locked_of_reach (h : (system M init).Reach ok s) : Locked s := by
  refine h.invariant ?_ ?_
  · rintro s ⟨hlk, hpt, ls, hpc, _⟩
    exact Locked.of_outside hlk hpt hpc
  · intro s a t hi _ hst
    exact hi.step (moves_of_step hst)

/-! ## Rules for clients -/

theorem data_invariant {J : D → Prop} (hinit : ∀ d ls, init d ls → J d)
    (hstore : ∀ p k d l i d' l', J d → M.inside p k d l i = some (.store d' l') → J d')
    (h : (system M init).Reach ok s) : J s.data := by
  refine h.invariant (I := fun s => J s.data) ?_ ?_
  · rintro s ⟨_, _, ls, _, hd⟩
    exact hinit _ ls hd
  · intro s a t hi _ hst
    cases moves_of_step hst with
    | store _ hin => exact hstore _ _ _ _ _ _ _ hi hin
    | _ => exact hi

/-- What a client knows about the data at each of its places with `lk`: facts
about the data it has just tested or stored, since nobody else stores while it
holds `lk`. -/
structure Client.Knows (M : Client P Chan D L I) (K : L → D → Prop) : Prop where
  acquire : ∀ p l i l', M.outside p l i = some (.acquire l') → ∀ d, K l' d
  store : ∀ p k d l i d' l', M.inside p k d l i = some (.store d' l') → K l' d'
  wakeup : ∀ p k d l i c l', M.inside p k d l i = some (.wakeup c l') → K l' d
  sleep : ∀ p k d l i c l', M.inside p k d l i = some (.sleep c l') → ∀ d', K l' d'

/-- The knowledge of a process, wherever it is. -/
def Pc.Known (K : L → D → Prop) (d : D) : Pc Chan L → Prop
  | .inside l | .wakeup true _ _ l | .waking true _ _ l | .woke true l => K l d
  | .entered _ l | .both _ l | .falling _ l | .asleep _ l | .runnable _ l | .resumed l
  | .retaking l => ∀ d', K l d'
  | .outside _ | .wakeup false _ _ _ | .waking false _ _ _ | .woke false _ => True

omit [DecidableEq Chan] in
theorem Pc.Known.of_free {d d' : D} {x : Pc Chan L} (h : x.Known K d) (hx : x.hasLk = false) :
    x.Known K d' := by
  cases x with
  | inside l => cases hx
  | wakeup b c l l' | waking b c l l' | woke b l =>
    cases b with
    | true => cases hx
    | false => trivial
  | outside l => trivial
  | _ => exact h

theorem Pc.Known.wake {d : D} {x : Pc Chan L} (h : x.Known K d) (c : Chan) :
    (x.wake c).Known K d := by
  rcases x.wake_cases c with hw | ⟨l, rfl, hw⟩
  · rwa [hw]
  · rw [hw]
    exact h

omit [DecidableEq Chan] in
theorem Pc.Known.rouse {d : D} {x : Pc Chan L} (h : x.Known K d) :
    x.rouse.Known K d := by
  cases x <;> exact h

omit [DecidableEq Chan] in
theorem known_update {d : D} {pc : P → Pc Chan L} {x : Pc Chan L}
    (hi : ∀ q, q ≠ p → (pc q).Known K d) (hx : x.Known K d) (q : P) :
    (update pc p x q).Known K d := by
  by_cases h : q = p
  · subst h
    rwa [update_self]
  · rw [update_of_ne h]
    exact hi q h

theorem known_step (hM : M.Knows K) (hl : Locked s) (hi : ∀ p, (s.pc p).Known K s.data)
    (h : Moves M s a t) : ∀ p, (t.pc p).Known K t.data := by
  cases h with
  | move => exact known_update (fun q _ => hi q) trivial
  | acquire _ hout _ => exact known_update (fun q _ => hi q) (hM.acquire _ _ _ _ hout _)
  | wakeupOut => exact known_update (fun q _ => hi q) trivial
  | @store p i l l' d hpc hin =>
    refine known_update ?_ (hM.store _ _ _ _ _ _ _ hin)
    intro q hq
    refine (hi q).of_free ?_
    by_contra hlk
    exact hq (hl.lk.unique (Bool.not_eq_false _ ▸ hlk) (by rw [hpc]; rfl))
  | wakeupIn _ hin => exact known_update (fun q _ => hi q) (hM.wakeup _ _ _ _ _ _ _ hin)
  | sleep _ hin => exact known_update (fun q _ => hi q) (hM.sleep _ _ _ _ _ _ _ hin)
  | release => exact known_update (fun q _ => hi q) trivial
  | @entered p c l hpc | @both p c l hpc | @falling p c l hpc | @runnable p c l hpc =>
    have hk := hi p
    rw [hpc] at hk
    exact known_update (fun q _ => hi q) hk
  | @resumed p l hpc =>
    have hk := hi p
    rw [hpc] at hk
    exact known_update (fun q _ => hi q) hk
  | @retaking p l hpc =>
    have hk := hi p
    rw [hpc] at hk
    exact known_update (fun q _ => hi q) (hk _)
  | @wakeup p b c l l' hpc =>
    have hk := hi p
    rw [hpc] at hk
    refine known_update (fun q _ => hi q) ?_
    cases b <;> exact hk
  | @waking p b c l l' hpc =>
    have hk := hi p
    rw [hpc] at hk
    refine known_update (fun q _ => (hi q).wake c) ?_
    cases b <;> exact hk
  | @woke p b l hpc =>
    have hk := hi p
    rw [hpc] at hk
    refine known_update (fun q _ => hi q) ?_
    cases b <;> exact hk
  | @kill p _ => exact known_update (fun q _ => hi q) (hi p).rouse

theorem known_of_reach (hM : M.Knows K) (h : (system M init).Reach ok s) (p : P) :
    (s.pc p).Known K s.data := by
  refine h.invariant (I := fun s => Locked s ∧ ∀ p, (s.pc p).Known K s.data) ?_ ?_ |>.2 p
  · rintro s ⟨hlk, hpt, ls, hpc, _⟩
    refine ⟨Locked.of_outside hlk hpt hpc, ?_⟩
    intro p
    rw [hpc p]
    trivial
  · rintro s a t ⟨hl, hi⟩ _ hst
    have hm := moves_of_step hst
    exact ⟨hl.step hm, known_step hM hl hi hm⟩

/-- A client owes nothing when it does not hold `lk`: it calls `wakeup` before it
releases `lk` or sleeps. -/
structure Client.Prompt (M : Client P Chan D L I) (owes : L → Bool) : Prop where
  move : ∀ p l i l', M.outside p l i = some (.move l') → owes l' = false
  wakeupOut : ∀ p l i c l', M.outside p l i = some (.wakeup c l') → owes l' = false
  sleep : ∀ p k d l i c l', M.inside p k d l i = some (.sleep c l') → owes l' = false
  release : ∀ p k d l i l', M.inside p k d l i = some (.release l') → owes l' = false

/-- A process owes a `wakeup` only in client code with `lk`, or in a `wakeup` it
called from there. -/
def Pc.prompt (owes : L → Bool) : Pc Chan L → Bool
  | .inside _ | .wakeup true _ _ _ | .waking true _ _ _ | .woke true _ => true
  | .wakeup false _ l l' | .waking false _ l l' => !owes l && !owes l'
  | .outside l | .entered _ l | .both _ l | .falling _ l | .asleep _ l | .runnable _ l
  | .resumed l | .retaking l | .woke false l => !owes l

omit [DecidableEq Chan] in
theorem Pc.not_owed_of_prompt {owes : L → Bool} {x : Pc Chan L} (h : x.prompt owes = true)
    (hlk : x.hasLk = false) : x.owed owes = false := by
  cases x with
  | wakeup b c l l' | waking b c l l' | woke b l' =>
    cases b <;> simp_all [prompt, hasLk, owed]
  | _ => simp_all [prompt, hasLk, owed]

theorem Pc.prompt_wake {owes : L → Bool} {x : Pc Chan L} (c : Chan) :
    (x.wake c).prompt owes = x.prompt owes := by
  rcases x.wake_cases c with h | ⟨l, rfl, h⟩ <;> rw [h]
  rfl

omit [DecidableEq Chan] in
theorem Pc.prompt_rouse {owes : L → Bool} (x : Pc Chan L) : x.rouse.prompt owes = x.prompt owes := by
  cases x <;> rfl

omit [DecidableEq Chan] in
theorem prompt_update {owes : L → Bool} {pc : P → Pc Chan L} (hi : ∀ q, (pc q).prompt owes = true)
    {x : Pc Chan L} (hx : x.prompt owes = true) (q : P) :
    (update pc p x q).prompt owes = true := by
  by_cases h : q = p
  · subst h
    rwa [update_self]
  · rw [update_of_ne h]
    exact hi q

theorem prompt_step {owes : L → Bool} (hM : M.Prompt owes) (hi : ∀ p, (s.pc p).prompt owes = true)
    (h : Moves M s a t) : ∀ p, (t.pc p).prompt owes = true := by
  cases h with
  | move _ hout => exact prompt_update hi (by simp [Pc.prompt, hM.move _ _ _ _ hout])
  | @wakeupOut p i l l' c hpc hout =>
    have hl := hi p
    rw [hpc] at hl
    refine prompt_update hi ?_
    rw [Pc.prompt, hM.wakeupOut _ _ _ _ _ hout]
    simpa [Pc.prompt] using hl
  | sleep _ hin => exact prompt_update hi (by simp [Pc.prompt, hM.sleep _ _ _ _ _ _ _ hin])
  | release _ hin => exact prompt_update hi (by simp [Pc.prompt, hM.release _ _ _ _ _ _ hin])
  | acquire | store | wakeupIn | retaking => exact prompt_update hi rfl
  | @entered p c l hpc | @both p c l hpc | @falling p c l hpc | @runnable p c l hpc =>
    have hl := hi p
    rw [hpc] at hl
    exact prompt_update hi hl
  | @resumed p l hpc =>
    have hl := hi p
    rw [hpc] at hl
    exact prompt_update hi hl
  | @wakeup p b c l l' hpc =>
    have hl := hi p
    rw [hpc] at hl
    refine prompt_update hi ?_
    cases b <;> exact hl
  | @waking p b c l l' hpc =>
    have hl := hi p
    rw [hpc] at hl
    refine prompt_update (fun q => by rw [Pc.prompt_wake]; exact hi q) ?_
    cases b <;> simp_all [Pc.prompt]
  | @woke p b l hpc =>
    have hl := hi p
    rw [hpc] at hl
    refine prompt_update hi ?_
    cases b <;> exact hl
  | @kill p _ => exact prompt_update hi (by rw [Pc.prompt_rouse]; exact hi p)

/-! ## No lost wakeup -/

section NoLost

variable (c : Chan) (cond : D → Prop) (owes : L → Bool)

/-- A step without `lk` keeps a debt on `c`, unless it pays. -/
def OutStep.Duty (l : L) : OutStep Chan L → Prop
  | .move l' | .acquire l' => owes l = true → owes l' = true
  | .wakeup c' l' => c' ≠ c → owes l = true → owes l' = true

/-- A step with `lk` keeps a debt on `c`, unless it pays.  A store that makes
the condition true takes on a debt, and `sleep` on `c` is called only while the
condition is false. -/
def InStep.Duty (d : D) (l : L) : InStep Chan D L → Prop
  | .store d' l' => (cond d' → cond d ∨ owes l' = true) ∧ (owes l = true → owes l' = true)
  | .wakeup c' l' => c' ≠ c → owes l = true → owes l' = true
  | .sleep c' l' => (c' = c → ¬ cond d) ∧ (owes l = true → owes l' = true)
  | .release l' => owes l = true → owes l' = true

/-- **The discipline**: every step of the client meets its duty. -/
structure Client.Disciplined (M : Client P Chan D L I) : Prop where
  outside : ∀ p l i o, M.outside p l i = some o → o.Duty c owes l
  inside : ∀ p k d l i o, M.inside p k d l i = some o → o.Duty c cond owes d l

/-- Nobody sleeps on `c` or is about to without `lk`. -/
def Quiet (s : State P Chan D L) : Prop :=
  ∀ q, (s.pc q).sleeps c = false

instance [Fintype P] (s : State P Chan D L) : Decidable (Quiet c s) :=
  inferInstanceAs (Decidable (∀ q, (s.pc q).sleeps c = false))

/-- The step of a process meets its duty, or it releases `lk` at a moment when
nobody sleeps on `c`. -/
def Obeys (M : Client P Chan D L I) (s : State P Chan D L) : Act P I → Prop
  | .run p i =>
    (∀ l o, s.pc p = .outside l → M.outside p l i = some o → o.Duty c owes l) ∧
    (∀ l o, s.pc p = .inside l → M.inside p (s.killed p) s.data l i = some o →
      o.Duty c cond owes s.data l ∨ (∃ l', o = .release l') ∧ Quiet c s)
  | _ => True

omit [DecidableEq P] in
theorem Client.Disciplined.obeys (hM : M.Disciplined c cond owes) (s : State P Chan D L)
    (a : Act P I) : Obeys c cond owes M s a := by
  cases a with
  | run p i =>
    refine ⟨?_, ?_⟩
    · intro l o _ ho
      exact hM.outside p l i o ho
    · intro l o _ ho
      exact .inl (hM.inside p _ _ l i o ho)
  | _ => trivial

/-- A `wakeup` on another channel is called with the debt kept for afterwards. -/
def Pc.honest : Pc Chan L → Prop
  | .wakeup _ c' l l' | .waking _ c' l l' => c' ≠ c → owes l = true → owes l' = true
  | _ => True

/-- Nobody enters `sleep` on `c` while the condition is true, and when it is true
and somebody sleeps there, somebody owes a `wakeup`. -/
structure NoLost (d : D) (pc : P → Pc Chan L) : Prop where
  falls : ∀ p, (pc p).falls c = true → ¬ cond d
  sleeps : ∀ p, (pc p).sleeps c = true → cond d → ∃ q, (pc q).owed owes = true
  honest : ∀ p, (pc p).honest c owes

namespace NoLost

variable {c cond owes} {d : D} {pc : P → Pc Chan L}

omit [DecidableEq P] in
theorem of_outside {ls : P → L} (hpc : ∀ p, pc p = .outside (ls p)) : NoLost c cond owes d pc := by
  refine ⟨?_, ?_, ?_⟩
  · intro p hp
    rw [hpc p] at hp
    cases hp
  · intro p hp
    rw [hpc p] at hp
    cases hp
  · intro p
    rw [hpc p]
    trivial

theorem move (hi : NoLost c cond owes d pc) {x : Pc Chan L} (hfalls : x.falls c = true → ¬ cond d)
    (hsleeps : x.sleeps c = true → (pc p).sleeps c = true ∨ ¬ cond d)
    (howed : (pc p).owed owes = true → x.owed owes = true ∨ ∀ q, (pc q).sleeps c = false)
    (hhonest : x.honest c owes) : NoLost c cond owes d (update pc p x) := by
  refine ⟨?_, ?_, ?_⟩
  · intro q hq
    by_cases h : q = p
    · subst h
      rw [update_self] at hq
      exact hfalls hq
    · rw [update_of_ne h] at hq
      exact hi.falls q hq
  · intro q hq hc
    -- some process slept on `c` before the step, so somebody owed
    have hold : ∃ r, (pc r).sleeps c = true := by
      by_cases h : q = p
      · subst h
        rw [update_self] at hq
        rcases hsleeps hq with hold | hnc
        · exact ⟨q, hold⟩
        · exact absurd hc hnc
      · rw [update_of_ne h] at hq
        exact ⟨q, hq⟩
    obtain ⟨r, hr⟩ := hold
    obtain ⟨u, hu⟩ := hi.sleeps r hr hc
    by_cases h : u = p
    · subst h
      rcases howed hu with hx | hquiet
      · exact ⟨u, by rwa [update_self]⟩
      · rw [hquiet r] at hr
        cases hr
    · exact ⟨u, by rwa [update_of_ne h]⟩
  · intro q
    by_cases h : q = p
    · subst h
      rwa [update_self]
    · rw [update_of_ne h]
      exact hi.honest q

theorem store (hi : NoLost c cond owes d pc) {d' : D} {l l' : L} (hp : pc p = .inside l)
    (hfalls : ∀ q, (pc q).falls c = true → q = p) (hnew : cond d' → cond d ∨ owes l' = true)
    (hold : owes l = true → owes l' = true) :
    NoLost c cond owes d' (update pc p (.inside l')) := by
  refine ⟨?_, ?_, ?_⟩
  · intro q hq
    by_cases h : q = p
    · subst h
      rw [update_self] at hq
      cases hq
    · rw [update_of_ne h] at hq
      exact absurd (hfalls q hq) h
  · intro q hq hc
    rcases hnew hc with hd | hl
    · by_cases h : q = p
      · subst h
        rw [update_self] at hq
        cases hq
      · rw [update_of_ne h] at hq
        obtain ⟨u, hu⟩ := hi.sleeps q hq hd
        by_cases hup : u = p
        · subst hup
          rw [hp] at hu
          exact ⟨u, by rw [update_self]; exact hold hu⟩
        · exact ⟨u, by rwa [update_of_ne hup]⟩
    · exact ⟨p, by rw [update_self]; exact hl⟩
  · intro q
    by_cases h : q = p
    · subst h
      rw [update_self]
      trivial
    · rw [update_of_ne h]
      exact hi.honest q

omit [DecidableEq P] in
theorem wake (hi : NoLost c cond owes d pc) (c' : Chan) :
    NoLost c cond owes d fun q => (pc q).wake c' := by
  refine ⟨?_, ?_, ?_⟩
  · intro q hq
    rw [Pc.falls_wake] at hq
    exact hi.falls q hq
  · intro q hq hc
    obtain ⟨u, hu⟩ := hi.sleeps q (Pc.sleeps_of_wake _ hq) hc
    exact ⟨u, by rwa [Pc.owed_wake]⟩
  · intro q
    rcases (pc q).wake_cases c' with h | ⟨l, _, h⟩
    · rw [h]
      exact hi.honest q
    · rw [h]
      trivial

theorem go (hi : NoLost c cond owes d pc) {x y : Pc Chan L} (hp : pc p = y)
    (hfalls : x.falls c = true → y.falls c = true)
    (hsleeps : x.sleeps c = true → y.sleeps c = true ∨ y.falls c = true)
    (howed : x.owed owes = y.owed owes) (hhonest : y.honest c owes → x.honest c owes) :
    NoLost c cond owes d (update pc p x) := by
  subst hp
  refine hi.move ?_ ?_ ?_ ?_
  · intro hx
    exact hi.falls p (hfalls hx)
  · intro hx
    rcases hsleeps hx with h | h
    · exact .inl h
    · exact .inr (hi.falls p h)
  · intro h
    rw [howed]
    exact .inl h
  · exact hhonest (hi.honest p)

theorem step (hi : NoLost c cond owes s.data s.pc) (hl : Locked s) (hd : Obeys c cond owes M s a)
    (h : Moves M s a t) : NoLost c cond owes t.data t.pc := by
  cases h with
  | @move p i l l' hpc hout =>
    have hduty := hd.1 l _ hpc hout
    refine hi.move (fun h => by cases h) (fun h => by cases h) ?_ trivial
    rw [hpc]
    exact fun h => .inl (hduty h)
  | @acquire p i l l' hpc hout _ =>
    have hduty := hd.1 l _ hpc hout
    refine hi.move (fun h => by cases h) (fun h => by cases h) ?_ trivial
    rw [hpc]
    exact fun h => .inl (hduty h)
  | @wakeupOut p i l l' c' hpc hout =>
    have hduty := hd.1 l _ hpc hout
    refine hi.move (fun h => by cases h) (fun h => by cases h) ?_ hduty
    rw [hpc]
    exact fun h => .inl h
  | @store p i l l' d hpc hin =>
    rcases hd.2 l _ hpc hin with hduty | ⟨⟨l'', hrel⟩, _⟩
    · refine hi.store hpc ?_ hduty.1 hduty.2
      intro q hq
      exact hl.lk.unique (Pc.hasLk_of_falls _ hq) (by rw [hpc]; rfl)
    · cases hrel
  | @wakeupIn p i l l' c' hpc hin =>
    rcases hd.2 l _ hpc hin with hduty | ⟨⟨l'', hrel⟩, _⟩
    · refine hi.move (fun h => by cases h) (fun h => by cases h) ?_ hduty
      rw [hpc]
      exact fun h => .inl h
    · cases hrel
  | @sleep p i l l' c' hpc hin =>
    rcases hd.2 l _ hpc hin with hduty | ⟨⟨l'', hrel⟩, _⟩
    · refine hi.move ?_ (fun h => by cases h) ?_ trivial
      · intro hf
        exact hduty.1 (by simpa [Pc.falls] using hf)
      · rw [hpc]
        exact fun h => .inl (hduty.2 h)
    · cases hrel
  | @release p i l l' hpc hin =>
    refine hi.move (fun h => by cases h) (fun h => by cases h) ?_ trivial
    intro howed
    rw [hpc] at howed
    rcases hd.2 l _ hpc hin with hduty | ⟨_, hquiet⟩
    · exact .inl (hduty howed)
    · exact .inr hquiet
  | entered hpc _ => exact hi.go hpc (fun h => h) (fun h => by cases h) rfl fun h => h
  | both hpc => exact hi.go hpc (fun h => by cases h) (fun h => .inr h) rfl fun h => h
  | falling hpc => exact hi.go hpc (fun h => by cases h) (fun h => .inl h) rfl fun h => h
  | runnable hpc _ => exact hi.go hpc (fun h => by cases h) (fun h => by cases h) rfl fun h => h
  | resumed hpc => exact hi.go hpc (fun h => by cases h) (fun h => by cases h) rfl fun h => h
  | retaking hpc _ => exact hi.go hpc (fun h => by cases h) (fun h => by cases h) rfl fun h => h
  | wakeup hpc _ => exact hi.go hpc (fun h => by cases h) (fun h => by cases h) rfl fun h => h
  | @waking p b c' l l' hpc =>
    refine (hi.wake c').move (fun h => by cases h) (fun h => by cases h) ?_ trivial
    intro howed
    rw [Pc.owed_wake, hpc] at howed
    by_cases hc : c' = c
    · -- everybody `SLEEPING` on `c` is awake now; `p` has `ptable.lock`, so nobody is about to sleep
      refine .inr ?_
      intro q
      by_contra hq
      have hq' : ((s.pc q).wake c).sleeps c = true := by simpa [hc] using hq
      have hqp : q = p :=
        hl.pt.unique (Pc.hasPt_of_sleeps_wake _ hq') (by rw [hpc]; rfl)
      subst hqp
      rw [hpc] at hq'
      cases hq'
    · have hh := hi.honest p
      rw [hpc] at hh
      exact .inl (hh hc howed)
  | @woke p b l hpc =>
    refine hi.go hpc ?_ ?_ ?_ ?_
    · cases b <;> exact fun h => by cases h
    · cases b <;> exact fun h => by cases h
    · cases b <;> rfl
    · cases b <;> exact fun _ => trivial
  | @kill p _ =>
    refine hi.go rfl ?_ ?_ (Pc.owed_rouse _ _) ?_
    · rw [Pc.falls_rouse]
      exact fun h => h
    · exact fun h => .inl (Pc.sleeps_of_rouse _ h)
    · cases s.pc p <;> exact fun h => h

end NoLost

variable {c cond owes}

theorem noLost_of_reach (hok : ∀ s a, (system M init).Reach ok s → ok s a → Obeys c cond owes M s a)
    (h : (system M init).Reach ok s) : NoLost c cond owes s.data s.pc := by
  induction h with
  | init hs =>
    obtain ⟨_, _, ls, hpc, _⟩ := hs
    exact NoLost.of_outside hpc
  | step hr hs hst ih =>
    exact ih.step (locked_of_reach hr) (hok _ _ hr hs) (moves_of_step hst)

omit [DecidableEq P] in
theorem NoLost.quiet (hn : NoLost c cond owes s.data s.pc) (hc : cond s.data)
    (howed : ∀ q, (s.pc q).owed owes = false) : Quiet c s := by
  intro p
  by_contra hp
  obtain ⟨q, hq⟩ := hn.sleeps p (Bool.not_eq_false _ ▸ hp) hc
  rw [howed q] at hq
  cases hq

theorem quiet_of_free (hM : M.Prompt owes) (hinit : ∀ d ls, init d ls → ∀ p, owes (ls p) = false)
    (hok : ∀ s a, (system M init).Reach ok s → ok s a → Obeys c cond owes M s a)
    (h : (system M init).Reach ok s) (hlk : s.lk = none) (hc : cond s.data) : Quiet c s := by
  have hprompt : ∀ p, (s.pc p).prompt owes = true := by
    refine h.invariant (I := fun s => ∀ p, (s.pc p).prompt owes = true) ?_ ?_
    · rintro s ⟨_, _, ls, hpc, hd⟩ p
      rw [hpc p, Pc.prompt, hinit _ ls hd p]
      rfl
    · intro s a t hi _ hst
      exact prompt_step hM hi (moves_of_step hst)
  have hfree : Owner none fun p => (s.pc p).hasLk := hlk ▸ (locked_of_reach h).lk
  refine (noLost_of_reach hok h).quiet hc ?_
  intro q
  exact Pc.not_owed_of_prompt (hprompt q) (hfree.not_of_free q)

end NoLost

end Xv6.Sleep
