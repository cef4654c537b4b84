import Xv6.Proc.Reap

/-!
# Whom `kill` reaches

`kill` looks for the first slot with the given pid and does not look at its state.
An `UNUSED` slot carries a pid too: 0 when it has never been used or `wait` has freed
it, and a pid that was issued when `fork` failed after `allocproc` had numbered the
slot.  `kill` then returns 0 and sets `killed` in the `UNUSED` slot, and since neither
`allocproc` nor `fork` clears `killed`, the next process created in that slot starts
killed (`kill_zero_reaches_unused`).

For a pid that no `UNUSED` slot carries, `kill` reaches exactly the named process, and
for no other (`kill_reaches_named`); and in runs in which `kill` is only called for
pids that no `UNUSED` or `EMBRYO` slot carries, every child starts with `killed` 0.
-/

namespace Xv6.Proc

open Xv6.Lib Function

variable {N : ℕ} {C : Type}

/-! ## The pids -/

/-- As long as fewer than 2^31 pids have been issued, the pids of the slots are
distinct, and only `UNUSED` slots have pid 0. -/
structure Pids (s : State N C) : Prop where
  next : s.births + 1 < 2 ^ 31 → s.nextpid = s.births + 1
  range : s.births < 2 ^ 31 → ∀ p, 0 ≤ (s.slot p).pid ∧ (s.slot p).pid ≤ s.births
  apart : s.births < 2 ^ 31 → ∀ p q, (s.slot p).pid ≠ 0 → (s.slot p).pid = (s.slot q).pid → p = q
  used : s.births < 2 ^ 31 → ∀ p, (s.slot p).state ≠ .unused → (s.slot p).pid ≠ 0

theorem nextPid_eq {n : ℕ} (h : n + 2 < 2 ^ 31) : nextPid (n + 1) = n + 2 := by
  rw [nextPid, Int.bmod_eq_of_le] <;> omega

namespace Pids

variable {s t : State N C} {p q np : Fin N}

theorem move (h : Pids s) (hnext : t.nextpid = s.nextpid) (hbirths : t.births = s.births)
    (hpid : ∀ q, (t.slot q).pid = (s.slot q).pid)
    (hused : ∀ q, (s.slot q).state = .unused → (t.slot q).state = .unused) : Pids t := by
  refine ⟨?_, ?_, ?_, ?_⟩
  · rw [hnext, hbirths]
    exact h.next
  · intro hb q
    rw [hbirths] at hb ⊢
    rw [hpid]
    exact h.range hb q
  · intro hb q r hq hqr
    rw [hbirths] at hb
    rw [hpid] at hq hqr
    rw [hpid] at hqr
    exact h.apart hb q r hq hqr
  · intro hb q hq
    rw [hbirths] at hb
    rw [hpid]
    exact h.used hb q fun hs => hq (hused q hs)

theorem moveOne (h : Pids s) {x : Slot N} (hslot : t.slot = update s.slot p x)
    (hnext : t.nextpid = s.nextpid) (hbirths : t.births = s.births)
    (hpid : x.pid = (s.slot p).pid) (hused : (s.slot p).state = .unused → x.state = .unused) :
    Pids t := by
  refine h.move hnext hbirths ?_ ?_
  · intro q
    rw [hslot]
    by_cases hq : q = p
    · subst hq
      rwa [update_self]
    · rw [update_of_ne hq]
  · intro q
    rw [hslot]
    by_cases hq : q = p
    · subst hq
      rwa [update_self]
    · rw [update_of_ne hq]
      exact id

theorem alloc (h : Pids s) : Pids (stepAlloc s p) := by
  unfold stepAlloc
  split
  · exact h
  · rename_i np hnp
    refine ⟨?_, ?_, ?_, ?_⟩
    · intro hb
      have hn := h.next (by simp only at hb; omega)
      simp only at hb ⊢
      rw [hn, nextPid_eq (by omega)]
      push_cast
      ring
    · intro hb q
      simp only at hb ⊢
      have hn := h.next hb
      have hr := h.range (by omega)
      by_cases hq : q = np
      · subst hq
        rw [update_self]
        simp only [hn]
        omega
      · rw [update_of_ne hq]
        have := hr q
        omega
    · intro hb q r hq hqr
      simp only at hb hq hqr
      have hn := h.next hb
      have hrange := h.range (by omega)
      by_cases hqn : q = np
      · by_cases hrn : r = np
        · rw [hqn, hrn]
        · subst hqn
          rw [update_self, update_of_ne hrn] at hqr
          have := hrange r
          simp only [hn] at hqr
          omega
      · by_cases hrn : r = np
        · subst hrn
          rw [update_self, update_of_ne hqn] at hqr
          have := hrange q
          simp only [hn] at hqr
          omega
        · rw [update_of_ne hqn] at hq hqr
          rw [update_of_ne hrn] at hqr
          exact h.apart (by omega) q r hq hqr
    · intro hb q hq
      simp only at hb hq ⊢
      have hn := h.next hb
      by_cases hqn : q = np
      · subst hqn
        rw [update_self]
        simp only [hn]
        omega
      · rw [update_of_ne hqn] at hq ⊢
        exact h.used (by omega) q hq

theorem reap (h : Pids s) (hslot : t.slot = update s.slot q (s.slot q).freed)
    (hnext : t.nextpid = s.nextpid) (hbirths : t.births = s.births) : Pids t := by
  have hfreed : ∀ r, (t.slot r).pid ≠ 0 → r ≠ q ∧ t.slot r = s.slot r := by
    intro r hr
    by_cases hrq : r = q
    · subst hrq
      rw [hslot, update_self] at hr
      exact absurd rfl hr
    · exact ⟨hrq, by rw [hslot, update_of_ne hrq]⟩
  refine ⟨?_, ?_, ?_, ?_⟩
  · rw [hnext, hbirths]
    exact h.next
  · intro hb r
    by_cases hr : (t.slot r).pid = 0
    · rw [hr]
      omega
    · rw [(hfreed r hr).2, hbirths]
      exact h.range (by omega) r
  · intro hb r r' hr hrr'
    have hr' : (t.slot r').pid ≠ 0 := hrr' ▸ hr
    have hold := (hfreed r hr).2
    rw [hold] at hr hrr'
    rw [(hfreed r' hr').2] at hrr'
    exact h.apart (by omega) r r' hr hrr'
  · intro hb r hr
    by_cases hrq : r = q
    · subst hrq
      rw [hslot, update_self] at hr
      exact absurd rfl hr
    · rw [hslot, update_of_ne hrq] at hr ⊢
      exact h.used (by omega) r hr

variable [NeZero N]

theorem initial : Pids (Proc.initial : State N C) := by
  have hpid : ∀ p : Fin N, (initSlot p).pid = if p = 0 then 1 else 0 := by
    intro p
    unfold initSlot
    split <;> rfl
  refine ⟨fun _ => rfl, ?_, ?_, ?_⟩
  · intro _ p
    change 0 ≤ (initSlot p).pid ∧ (initSlot p).pid ≤ ((1 : ℕ) : ℤ)
    rw [hpid]
    split <;> simp
  · intro _ p q hp hpq
    change (initSlot p).pid ≠ 0 at hp
    change (initSlot p).pid = (initSlot q).pid at hpq
    rw [hpid] at hp
    rw [hpid, hpid] at hpq
    have h0 : p = 0 := by
      by_contra h
      simp [h] at hp
    by_contra hne
    have hq : q ≠ 0 := fun h => hne (h0.trans h.symm)
    simp [h0, hq] at hpq
  · intro _ p hp
    change (initSlot p).pid ≠ 0
    change (initSlot p).state ≠ .unused at hp
    unfold initSlot at hp ⊢
    split at hp
    · rename_i h0
      simp [h0]
    · exact absurd rfl hp

variable [DecidableEq C] {a : Act N C} {c : C}

theorem step (h : Pids s) (hi : CpuInv s) (hm : Moves s a t) : Pids t := by
  have hused : ∀ {c p x}, (s.mode c).runs = some p → (s.slot p).state = .unused → x = ProcState.unused := by
    intro c p x hc hu
    rw [hi.running hc] at hu
    cases hu
  cases hm with
  | acquire | back | release | wait => exact ⟨h.next, h.range, h.apart, h.used⟩
  | @pick c p hc hr =>
    refine h.moveOne rfl rfl rfl rfl ?_
    rw [hr]
    rintro ⟨⟩
  | @tail c p hc =>
    unfold stepTail
    split
    · exact ⟨h.next, h.range, h.apart, h.used⟩
    · exact h.moveOne rfl rfl rfl rfl id
    · exact h.moveOne rfl rfl rfl rfl id
  | @yield c p hc _ => exact h.moveOne rfl rfl rfl rfl (hused (c := c) (by rw [hc]; rfl))
  | @sleep c p n hc _ _ => exact h.moveOne rfl rfl rfl rfl (hused (c := c) (by rw [hc]; rfl))
  | @wakeup n _ =>
    have hw : ∀ q, (s.slot q).Woke (wakeup1 s.slot (.other n) q) := fun q => Slot.wake_woke _ _
    exact h.move rfl rfl (fun q => (hw q).pid) fun q => ((hw q).state_iff .unused (by decide) (by decide)).2
  | @kill pid _ =>
    refine h.move rfl rfl ?_ fun q => (kill_state_iff _ _ q .unused (by decide) (by decide)).2
    intro q
    rcases kill_cases s.slot pid with ⟨hk, _⟩ | ⟨r, hk, _⟩
    · simp only [hk]
    · simp only [hk]
      by_cases hq : q = r
      · subst hq
        simp [Slot.kill]
      · simp [hq]
  | alloc => exact h.alloc
  | noStack => exact h.moveOne rfl rfl rfl rfl fun _ => rfl
  | stack => exact h.moveOne rfl rfl rfl rfl id
  | noCopy => exact h.moveOne rfl rfl rfl rfl fun _ => rfl
  | copy => exact h.moveOne rfl rfl rfl rfl id
  | @publish c p np hc hk _ =>
    refine h.moveOne rfl rfl rfl rfl ?_
    rw [hi.forks.embryo p np (by rw [hk]; rfl)]
    rintro ⟨⟩
  | @exit c p hc _ _ _ =>
    refine h.move rfl rfl ?_ ?_
    · intro q
      by_cases hq : q = p
      · subst hq
        exact exitTable_self.2.1
      · exact (exitTable_woke hq).pid
    · intro q hu
      by_cases hq : q = p
      · subst hq
        exact hused (c := c) (by rw [hc]; rfl) hu
      · exact ((exitTable_woke hq).state_iff .unused (by decide) (by decide)).2 hu
  | @scanWait c p hc =>
    unfold stepWait
    split
    · exact h.reap rfl rfl rfl
    · exact ⟨h.next, h.range, h.apart, h.used⟩
    · exact h.moveOne rfl rfl rfl rfl (hused (c := c) (by rw [hc]; rfl))

end Pids

variable [NeZero N] [DecidableEq C]

theorem pids_of_reach {ok : State N C → Act N C → Prop} {s : State N C}
    (h : (system N C).Reach ok s) : Pids s := by
  induction h with
  | init hs =>
    subst hs
    exact Pids.initial
  | step hr _ hst ih => exact ih.step (cpuInv_of_reach hr) (moves_of_step hst)

/-! ## The law of `kill` -/

/-- `kill(pid)` returns 0 exactly when a slot that is not `UNUSED` has the pid; it then
sets that slot's `killed` and makes it `RUNNABLE` if it was `SLEEPING`, and changes
nothing else; and it changes nothing when it returns -1. -/
def KillLaw (slot : Fin N → Slot N) (pid : ℤ) : Prop :=
  ((kill slot pid).2 = 0 ↔ ∃ q, (slot q).state ≠ .unused ∧ (slot q).pid = pid) ∧
  (∀ q, (slot q).state ≠ .unused → (slot q).pid = pid →
    (kill slot pid).1 = update slot q (slot q).kill) ∧
  ((kill slot pid).2 = -1 → (kill slot pid).1 = slot)

omit [NeZero N] [DecidableEq C] in
theorem killLaw_iff {s : State N C} (h : Pids s) (hb : s.births < 2 ^ 31) (pid : ℤ) :
    KillLaw s.slot pid ↔ ∀ q, (s.slot q).state = .unused → (s.slot q).pid ≠ pid := by
  have hsame : ∀ q r, (s.slot q).state ≠ .unused → (s.slot q).pid = pid → (s.slot r).pid = pid →
      q = r := by
    intro q r hq hqp hrp
    exact h.apart hb q r (h.used hb q hq) (hqp.trans hrp.symm)
  refine ⟨?_, ?_⟩
  · intro hlaw q hq hqp
    rcases kill_cases s.slot pid with ⟨_, hnone⟩ | ⟨r, hk, _⟩
    · exact hnone q hqp
    · obtain ⟨u, hu, hup⟩ := hlaw.1.1 (by rw [hk])
      rw [hsame u q hu hup hqp] at hu
      exact hu hq
  · intro hfree
    rcases kill_cases s.slot pid with ⟨hk, hnone⟩ | ⟨r, hk, hr⟩
    · refine ⟨?_, ?_, ?_⟩
      · rw [hk]
        refine ⟨nofun, ?_⟩
        rintro ⟨q, _, hq⟩
        exact absurd hq (hnone q)
      · intro q _ hq
        exact absurd hq (hnone q)
      · rw [hk]
        exact fun _ => rfl
    · have hru : (s.slot r).state ≠ .unused := fun hu => hfree r hu hr
      refine ⟨?_, ?_, ?_⟩
      · rw [hk]
        exact ⟨fun _ => ⟨r, hru, hr⟩, fun _ => rfl⟩
      · intro q hq hqp
        rw [hk, hsame q r hq hqp hr]
      · rw [hk]
        exact nofun

/-! ## Children start unkilled -/

/-- The pid a step calls `kill` for. -/
def Act.killPid : Act N C → Option ℤ
  | .kill pid => some pid
  | _ => none

/-- A `kill` is called for a pid that no `UNUSED` or `EMBRYO` slot carries. -/
def KillsNamed (s : State N C) (a : Act N C) : Prop :=
  ∀ pid ∈ a.killPid, ∀ q, (s.slot q).state = .unused ∨ (s.slot q).state = .embryo →
    (s.slot q).pid ≠ pid

instance (s : State N C) (a : Act N C) : Decidable (KillsNamed s a) :=
  inferInstanceAs (Decidable (∀ pid ∈ a.killPid, ∀ q,
    (s.slot q).state = .unused ∨ (s.slot q).state = .embryo → (s.slot q).pid ≠ pid))

/-- Slots without a process have `killed` 0. -/
def Unkilled (slot : Fin N → Slot N) : Prop :=
  ∀ q, (slot q).state = .unused ∨ (slot q).state = .embryo → (slot q).killed = false

namespace Unkilled

variable {slot : Fin N → Slot N} {x : Slot N} {p : Fin N}

omit [NeZero N] in
theorem update (h : Unkilled slot) (hx : x.state = .unused ∨ x.state = .embryo → x.killed = false) :
    Unkilled (update slot p x) := by
  intro q hq
  by_cases hqp : q = p
  · subst hqp
    rw [update_self] at hq ⊢
    exact hx hq
  · rw [update_of_ne hqp] at hq ⊢
    exact h q hq

theorem step {s t : State N C} {a : Act N C} (h : Unkilled s.slot) (hi : CpuInv s)
    (hok : KillsNamed s a) (hm : Moves s a t) : Unkilled t.slot := by
  cases hm with
  | acquire | back | release | wait => exact h
  | pick => exact h.update (by rintro (hs | hs) <;> cases hs)
  | @tail c p hc =>
    unfold stepTail
    split
    · exact h
    · exact h.update (h p)
    · exact h.update (h p)
  | yield | sleep => exact h.update (by rintro (hs | hs) <;> cases hs)
  | @wakeup n _ =>
    intro q hq
    have hw : (s.slot q).Woke (wakeup1 s.slot (.other n) q) := Slot.wake_woke _ _
    change (wakeup1 s.slot (.other n) q).killed = false
    rw [hw.killed]
    exact h q (hq.imp (hw.state_iff .unused nofun nofun).1 (hw.state_iff .embryo nofun nofun).1)
  | @kill pid _ =>
    rcases kill_cases s.slot pid with ⟨hk, _⟩ | ⟨r, hk, hr⟩
    · rw [hk]
      exact h
    · rw [hk]
      refine h.update ?_
      intro hs
      refine absurd hr (hok pid rfl r ?_)
      have hiff : ∀ st, st ≠ .sleeping → st ≠ .runnable → (s.slot r).kill.state = st →
          (s.slot r).state = st := by
        intro st h1 h2 h3
        have hst := kill_state_iff s.slot pid r st h1 h2
        rw [hk] at hst
        simp only [update_self] at hst
        exact hst.1 h3
      exact hs.imp (hiff .unused nofun nofun) (hiff .embryo nofun nofun)
  | @alloc c p _ _ _ =>
    unfold stepAlloc
    split
    · exact h
    · rename_i np hnp
      exact h.update fun _ => h np (.inl (findUnused_state hnp))
  | @noStack c p np _ hk => exact h.update fun _ => h np (.inr (hi.forks.embryo p np (by rw [hk]; rfl)))
  | stack => exact h.update (h _)
  | @noCopy c p np _ hk => exact h.update fun _ => h np (.inr (hi.forks.embryo p np (by rw [hk]; rfl)))
  | copy => exact h.update (h _)
  | publish => exact h.update (by rintro (hs | hs) <;> cases hs)
  | @exit c p hc _ _ _ =>
    intro q hq
    by_cases hqp : q = p
    · subst hqp
      rcases hq with hs | hs <;> simp only [sched, exitTable_self_state] at hs <;> cases hs
    · have hw : (s.slot q).Woke (exitTable s.slot p q) := exitTable_woke hqp
      change (exitTable s.slot p q).killed = false
      rw [hw.killed]
      exact h q (hq.imp (hw.state_iff .unused nofun nofun).1 (hw.state_iff .embryo nofun nofun).1)
  | @scanWait c p hc =>
    unfold stepWait
    split
    · exact h.update fun _ => rfl
    · exact h
    · exact h.update (by rintro (hs | hs) <;> cases hs)

end Unkilled

/-- **`kill` reaches exactly the named process.**  In every state reached with fewer
than 2^31 pids issued, the law of `kill` holds exactly for the pids that no `UNUSED`
slot carries.  In every run in which `kill` is only called for pids that no `UNUSED` or
`EMBRYO` slot carries, every child a call of `fork` is about to make `RUNNABLE` has
`killed` 0. -/
theorem kill_reaches_named :
    (∀ s : State N C, (system N C).Reach (fun _ _ => True) s → s.births < 2 ^ 31 →
      ∀ pid, (KillLaw s.slot pid ↔ ∀ q, (s.slot q).state = .unused → (s.slot q).pid ≠ pid)) ∧
    (∀ s : State N C, (system N C).Reach KillsNamed s →
      ∀ p np, s.kpc p = .copied np → (s.slot np).killed = false) := by
  refine ⟨?_, ?_⟩
  · intro s hs hb pid
    exact killLaw_iff (pids_of_reach hs) hb pid
  · intro s hs p np hk
    have hclean : Unkilled s.slot := by
      clear hk
      induction hs with
      | init hs =>
        subst hs
        intro q _
        simp only [initial, initSlot]
        split <;> rfl
      | step hr hok hst ih => exact ih.step (cpuInv_of_reach hr) hok (moves_of_step hst)
    exact hclean np (.inr ((cpuInv_of_reach hs).forks.embryo p np (by rw [hk]; rfl)))

/-- Init has filled the slot of its child: the child is not killed, and `kill(1)`
reaches init. -/
theorem kill_reaches_init :
    ∃ s : State 2 Bool, (system 2 Bool).Reach KillsNamed s ∧ s.kpc 0 = .copied 1 ∧
      (s.slot 1).killed = false ∧ KillLaw s.slot 1 := by
  have h₀ : (system 2 Bool).Reach KillsNamed initial := .init rfl
  obtain ⟨s, hs, hv⟩ := Lts.reach_of_exec_map
    [.kill 1, .acquire false, .pick false 0, .tail false, .alloc false, .stack false, .copy false]
    (fun s => (s.births, s.kpc 0, (s.slot 0).state, (s.slot 1).state))
    (2, .copied 1, .running, .embryo) h₀ (by decide +kernel)
  simp only [Prod.mk.injEq] at hv
  obtain ⟨hb, hk, hs0, hs1⟩ := hv
  refine ⟨s, hs, hk, kill_reaches_named.2 s hs 0 1 hk, ?_⟩
  refine (kill_reaches_named.1 s (hs.mono fun _ _ _ => trivial) (by rw [hb]; decide) 1).2 ?_
  refine Fin.forall_fin_two.2 ⟨?_, ?_⟩
  · rw [hs0]
    exact nofun
  · rw [hs1]
    exact nofun

/-- **`kill(0)` reaches an `UNUSED` slot.**  With only init in the table, `kill(0)`
returns 0 although no process has pid 0; and the next child of init is `RUNNABLE` with
`killed` set, although nobody has killed it. -/
theorem kill_zero_reaches_unused :
    (∃ s : State 2 Bool, (system 2 Bool).Reach (fun _ _ => True) s ∧ s.births < 2 ^ 31 ∧
      (kill s.slot 0).2 = 0 ∧ ∀ q, (s.slot q).state ≠ .unused → (s.slot q).pid ≠ 0) ∧
    (∃ s : State 2 Bool, (system 2 Bool).Reach (fun _ _ => True) s ∧ s.births < 2 ^ 31 ∧
      (s.slot 1).state = .runnable ∧ (s.slot 1).pid = 2 ∧ (s.slot 1).killed = true) := by
  have h₀ : (system 2 Bool).Reach (fun _ _ => True) initial := .init rfl
  refine ⟨⟨initial, h₀, by decide, by decide, by decide⟩, ?_⟩
  obtain ⟨s, hs, hv⟩ := Lts.reach_of_exec_map
    [.kill 0, .acquire false, .pick false 0, .tail false, .alloc false, .stack false, .copy false,
      .publish false]
    (fun s => (s.births, (s.slot 1).state, (s.slot 1).pid, (s.slot 1).killed))
    (2, .runnable, 2, true) h₀ (by decide +kernel)
  simp only [Prod.mk.injEq] at hv
  exact ⟨s, hs, by rw [hv.1]; decide, hv.2⟩

/-- **Pids name processes.**  In every state reached with fewer than 2^31 pids issued, a
slot in use has a positive pid, which no other slot has. -/
theorem pids_name_processes {s : State N C} (h : (system N C).Reach (fun _ _ => True) s)
    (hb : s.births < 2 ^ 31) {p : Fin N} (hp : (s.slot p).state ≠ .unused) :
    0 < (s.slot p).pid ∧ ∀ q, (s.slot q).pid = (s.slot p).pid → q = p := by
  have hpids := pids_of_reach h
  have hne := hpids.used hb p hp
  refine ⟨lt_of_le_of_ne (hpids.range hb p).1 hne.symm, ?_⟩
  intro q hq
  exact (hpids.apart hb p q hne hq.symm).symm

/-- The child of init that `allocproc` has just made. -/
theorem pids_of_child :
    ∃ s : State 2 Bool, (system 2 Bool).Reach (fun _ _ => True) s ∧ s.births = 2 ∧
      (s.slot 1).state = .embryo ∧ ∀ q, (s.slot q).pid = (s.slot 1).pid → q = 1 := by
  have h₀ : (system 2 Bool).Reach (fun _ _ => True) initial := .init rfl
  obtain ⟨s, hs, hv⟩ := Lts.reach_of_exec_map
    [.acquire false, .pick false 0, .tail false, .alloc false]
    (fun s => (s.births, (s.slot 1).state)) (2, .embryo) h₀ (by decide +kernel)
  simp only [Prod.mk.injEq] at hv
  exact ⟨s, hs, hv.1, hv.2, (pids_name_processes hs (by rw [hv.1]; decide) (by rw [hv.2]; exact nofun)).2⟩

end Xv6.Proc
