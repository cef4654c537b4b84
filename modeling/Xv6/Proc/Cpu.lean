import Xv6.Proc.Table

/-!
# One CPU per process

Which process runs where.  The invariant has four parts, each with its own rule
for the ways a step can change it: `ptable.lock` names the CPU whose thread holds
it; `c->proc` and the loaded page directory are those of the process the CPU has
not finished with; a process is `RUNNING` exactly when one CPU executes its
thread; and the slot a call of `fork` is filling is `EMBRYO` and belongs to that
call alone.
-/

namespace Xv6.Proc

open Xv6.Lib Function

variable {N : ℕ} {C : Type} [DecidableEq C]

/-! ## Who runs where -/

/-- A process is `RUNNING` exactly when some CPU executes its thread, and then only
one does. -/
structure Runs (mode : C → Mode N) (slot : Fin N → Slot N) : Prop where
  running : ∀ p, (slot p).state = .running ↔ ∃ c, (mode c).runs = some p
  unique : ∀ c c' p, (mode c).runs = some p → (mode c').runs = some p → c = c'

namespace Runs

variable {mode : C → Mode N} {slot slot' : Fin N → Slot N} {c : C} {m : Mode N} {p : Fin N}

omit [DecidableEq C] in
theorem slots (h : Runs mode slot)
    (hs : ∀ q, (slot' q).state = .running ↔ (slot q).state = .running) : Runs mode slot' :=
  ⟨fun q => (hs q).trans (h.running q), h.unique⟩

theorem keep (h : Runs mode slot) (hm : m.runs = (mode c).runs)
    (hs : ∀ q, (slot' q).state = .running ↔ (slot q).state = .running) :
    Runs (update mode c m) slot' := by
  have heq : ∀ c', (update mode c m c').runs = (mode c').runs := by
    intro c'
    by_cases hc : c' = c
    · subst hc
      rw [update_self, hm]
    · rw [update_of_ne hc]
  refine ⟨?_, ?_⟩
  · intro q
    simp only [heq]
    exact (hs q).trans (h.running q)
  · intro c₁ c₂ q h₁ h₂
    rw [heq] at h₁ h₂
    exact h.unique c₁ c₂ q h₁ h₂

theorem leave (h : Runs mode slot) (hp : (mode c).runs = some p) (hm : m.runs = none)
    (hstate : (slot' p).state ≠ .running)
    (hs : ∀ q, q ≠ p → ((slot' q).state = .running ↔ (slot q).state = .running)) :
    Runs (update mode c m) slot' := by
  have hother : ∀ c' q, (update mode c m c').runs = some q ↔
      c' ≠ c ∧ (mode c').runs = some q := by
    intro c' q
    by_cases hc : c' = c
    · subst hc
      simp [hm]
    · simp [hc]
  refine ⟨?_, ?_⟩
  · intro q
    simp only [hother]
    by_cases hq : q = p
    · subst hq
      refine ⟨fun hr => absurd hr hstate, ?_⟩
      rintro ⟨c', hc', hr⟩
      exact absurd (h.unique c' c q hr hp) hc'
    · rw [hs q hq, h.running q]
      refine ⟨?_, fun ⟨c', _, hr⟩ => ⟨c', hr⟩⟩
      rintro ⟨c', hr⟩
      refine ⟨c', ?_, hr⟩
      rintro rfl
      rw [hp] at hr
      exact hq (Option.some.inj hr).symm
  · intro c₁ c₂ q h₁ h₂
    exact h.unique c₁ c₂ q ((hother c₁ q).1 h₁).2 ((hother c₂ q).1 h₂).2

theorem enter (h : Runs mode slot) (hc : (mode c).runs = none) (hm : m.runs = some p)
    (hp : (slot p).state ≠ .running) (hstate : (slot' p).state = .running)
    (hs : ∀ q, q ≠ p → ((slot' q).state = .running ↔ (slot q).state = .running)) :
    Runs (update mode c m) slot' := by
  have hnew : ∀ c' q, (update mode c m c').runs = some q ↔
      (c' = c ∧ q = p) ∨ (mode c').runs = some q := by
    intro c' q
    by_cases hcc : c' = c
    · subst hcc
      simp [hm, hc, eq_comm]
    · simp [hcc]
  have hnone : ∀ c', (mode c').runs ≠ some p := fun c' hr => hp ((h.running p).2 ⟨c', hr⟩)
  refine ⟨?_, ?_⟩
  · intro q
    simp only [hnew]
    by_cases hq : q = p
    · subst hq
      exact ⟨fun _ => ⟨c, .inl ⟨rfl, rfl⟩⟩, fun _ => hstate⟩
    · rw [hs q hq, h.running q]
      refine ⟨fun ⟨c', hr⟩ => ⟨c', .inr hr⟩, ?_⟩
      rintro ⟨c', ⟨_, hqp⟩ | hr⟩
      · exact absurd hqp hq
      · exact ⟨c', hr⟩
  · intro c₁ c₂ q h₁ h₂
    rcases (hnew c₁ q).1 h₁ with ⟨hc₁, hq⟩ | hr₁
    · rcases (hnew c₂ q).1 h₂ with ⟨hc₂, _⟩ | hr₂
      · rw [hc₁, hc₂]
      · exact absurd (hq ▸ hr₂) (hnone c₂)
    · rcases (hnew c₂ q).1 h₂ with ⟨_, hq⟩ | hr₂
      · exact absurd (hq ▸ hr₁) (hnone c₁)
      · exact h.unique c₁ c₂ q hr₁ hr₂

end Runs

/-! ## The slots being filled -/

/-- The slot a call of `fork` is filling is `EMBRYO`, and no other call fills it. -/
structure Forks (kpc : Fin N → Kpc N) (slot : Fin N → Slot N) : Prop where
  embryo : ∀ p np, (kpc p).child = some np → (slot np).state = .embryo
  alone : ∀ p q np, (kpc p).child = some np → (kpc q).child = some np → p = q

namespace Forks

variable {kpc : Fin N → Kpc N} {slot slot' : Fin N → Slot N} {p np : Fin N} {k : Kpc N}

theorem slots (h : Forks kpc slot)
    (hs : ∀ q, (slot q).state = .embryo → (slot' q).state = .embryo) : Forks kpc slot' :=
  ⟨fun q nq hq => hs nq (h.embryo q nq hq), h.alone⟩

theorem start (h : Forks kpc slot) (hnp : (slot np).state = .unused) (hk : k.child = some np)
    (hstate : (slot' np).state = .embryo) (hs : ∀ q, q ≠ np → slot' q = slot q) :
    Forks (update kpc p k) slot' := by
  have hfresh : ∀ q, (kpc q).child ≠ some np := by
    intro q hq
    have he := h.embryo q np hq
    rw [hnp] at he
    cases he
  refine ⟨?_, ?_⟩
  · intro q nq hq
    by_cases hnq : nq = np
    · rwa [hnq]
    · by_cases hqp : q = p
      · subst hqp
        rw [update_self, hk] at hq
        exact absurd (Option.some.inj hq).symm hnq
      · rw [update_of_ne hqp] at hq
        rw [hs nq hnq]
        exact h.embryo q nq hq
  · intro q q' nq hq hq'
    by_cases hqp : q = p
    · by_cases hqp' : q' = p
      · rw [hqp, hqp']
      · subst hqp
        rw [update_self, hk] at hq
        rw [update_of_ne hqp', ← hq] at hq'
        exact absurd hq' (hfresh q')
    · by_cases hqp' : q' = p
      · subst hqp'
        rw [update_self, hk] at hq'
        rw [update_of_ne hqp, ← hq'] at hq
        exact absurd hq (hfresh q)
      · rw [update_of_ne hqp] at hq
        rw [update_of_ne hqp'] at hq'
        exact h.alone q q' nq hq hq'

theorem next (h : Forks kpc slot) (hp : (kpc p).child = some np) (hk : k.child = some np)
    (hs : ∀ q, (slot q).state = .embryo → (slot' q).state = .embryo) :
    Forks (update kpc p k) slot' := by
  have heq : ∀ q, (update kpc p k q).child = (kpc q).child := by
    intro q
    by_cases hq : q = p
    · subst hq
      rw [update_self, hk, hp]
    · rw [update_of_ne hq]
  refine ⟨?_, ?_⟩
  · intro q nq hq
    rw [heq] at hq
    exact hs nq (h.embryo q nq hq)
  · intro q q' nq hq hq'
    rw [heq] at hq hq'
    exact h.alone q q' nq hq hq'

theorem stop (h : Forks kpc slot) (hp : (kpc p).child = some np) (hk : k.child = none)
    (hs : ∀ q, q ≠ np → slot' q = slot q) : Forks (update kpc p k) slot' := by
  have hother : ∀ q nq, (update kpc p k q).child = some nq →
      q ≠ p ∧ (kpc q).child = some nq := by
    intro q nq hq
    by_cases hqp : q = p
    · subst hqp
      rw [update_self, hk] at hq
      cases hq
    · rw [update_of_ne hqp] at hq
      exact ⟨hqp, hq⟩
  refine ⟨?_, ?_⟩
  · intro q nq hq
    obtain ⟨hqp, hq⟩ := hother q nq hq
    have hne : nq ≠ np := by
      rintro rfl
      exact hqp (h.alone q p nq hq hp)
    rw [hs nq hne]
    exact h.embryo q nq hq
  · intro q q' nq hq hq'
    exact h.alone q q' nq (hother q nq hq).2 (hother q' nq hq').2

end Forks

/-! ## The invariant -/

/-- The CPUs and the table agree. -/
structure CpuInv (s : State N C) : Prop where
  lock : Owner s.lock fun c => (s.mode c).locked
  proc : ∀ c, s.proc c = (s.mode c).occupant
  cr3 : ∀ c, s.cr3 c = (s.mode c).occupant
  runs : Runs s.mode s.slot
  forks : Forks s.kpc s.slot

theorem follows_set {β : Type} {f : C → β} {mode : C → Mode N} {g : Mode N → β} {c : C} {m : Mode N}
    {v : β} (h : ∀ c, f c = g (mode c)) (hv : v = g m) (c' : C) :
    update f c v c' = g (update mode c m c') := by
  by_cases hc : c' = c
  · subst hc
    rw [update_self, update_self, hv]
  · rw [update_of_ne hc, update_of_ne hc]
    exact h c'

theorem follows_keep {β : Type} {f : C → β} {mode : C → Mode N} {g : Mode N → β} {c : C} {m : Mode N}
    (h : ∀ c, f c = g (mode c)) (hm : g m = g (mode c)) (c' : C) :
    f c' = g (update mode c m c') := by
  by_cases hc : c' = c
  · subst hc
    rw [update_self, hm]
    exact h c'
  · rw [update_of_ne hc]
    exact h c'

namespace CpuInv

variable {s t : State N C} {c : C} {p : Fin N}

omit [DecidableEq C] in
theorem running (h : CpuInv s) (hc : (s.mode c).runs = some p) : (s.slot p).state = .running :=
  (h.runs.running p).2 ⟨c, hc⟩

theorem sched (h : CpuInv s) {r : Resume} {slot : Fin N → Slot N} (hc : (s.mode c).runs = some p)
    (hlock : s.lock = none ∨ s.lock = some c) (hstate : (slot p).state ≠ .running)
    (hs : ∀ q, q ≠ p → ((slot q).state = .running ↔ (s.slot q).state = .running))
    (he : ∀ q, q ≠ p → (s.slot q).state = .embryo → (slot q).state = .embryo) :
    CpuInv (Proc.sched s c p r slot) := by
  have hocc : (Mode.back p : Mode N).occupant = (s.mode c).occupant := by
    cases hm : s.mode c <;> rw [hm] at hc <;> cases hc <;> rfl
  refine ⟨?_, follows_keep h.proc hocc, follows_keep h.cr3 hocc,
    h.runs.leave hc rfl hstate hs, h.forks.slots ?_⟩
  · rcases hlock with hl | hl
    · exact (hl ▸ h.lock).take rfl
    · have hlk := h.lock
      have hlocked := (hlk c).1 hl
      rw [hl] at hlk
      exact hlk.keep hlocked.symm
  · intro q hq
    refine he q ?_ hq
    rintro rfl
    rw [h.running hc] at hq
    cases hq

omit [DecidableEq C] in
theorem table (h : CpuInv s) {slot : Fin N → Slot N}
    (hs : ∀ q, (slot q).state = .running ↔ (s.slot q).state = .running)
    (he : ∀ q, (s.slot q).state = .embryo → (slot q).state = .embryo) :
    CpuInv { s with slot := slot } :=
  ⟨h.lock, h.proc, h.cr3, h.runs.slots hs, h.forks.slots he⟩

end CpuInv

theorem state_update {slot : Fin N → Slot N} {np : Fin N} {x : Slot N} (st : ProcState)
    (hx : x.state = st ↔ (slot np).state = st) (q : Fin N) :
    (update slot np x q).state = st ↔ (slot q).state = st := by
  by_cases hq : q = np
  · subst hq
    rw [update_self]
    exact hx
  · rw [update_of_ne hq]

namespace CpuInv

variable {s t : State N C} {a : Act N C} {c : C} {p np : Fin N}

theorem tail (h : CpuInv s) (hc : s.mode c = .tail p) : CpuInv (stepTail s c p) := by
  have hocc : (s.mode c).occupant = some p := by rw [hc]; rfl
  have hruns : (s.mode c).runs = some p := by rw [hc]; rfl
  have hlocked : (s.mode c).locked = true := by rw [hc]; rfl
  have hslot : ∀ st q, (setState s p (s.slot p).state none q).state = st ↔ (s.slot q).state = st :=
    fun st => state_update st Iff.rfl
  unfold stepTail
  split
  · exact ⟨h.lock.drop hlocked rfl, follows_keep h.proc hocc.symm, follows_keep h.cr3 hocc.symm,
      h.runs.keep hruns.symm fun _ => Iff.rfl, h.forks⟩
  · exact ⟨h.lock.drop hlocked rfl, follows_keep h.proc hocc.symm, follows_keep h.cr3 hocc.symm,
      h.runs.keep hruns.symm (hslot .running), h.forks.slots fun q => (hslot .embryo q).2⟩
  · exact ⟨h.lock.keep hlocked.symm, follows_keep h.proc hocc.symm, follows_keep h.cr3 hocc.symm,
      h.runs.keep hruns.symm (hslot .running), h.forks.slots fun q => (hslot .embryo q).2⟩

omit [DecidableEq C] in
theorem alloc (h : CpuInv s) : CpuInv (stepAlloc s p) := by
  unfold stepAlloc
  split
  · exact h
  · rename_i np hnp
    have hun := findUnused_state hnp
    refine ⟨h.lock, h.proc, h.cr3, h.runs.slots (state_update .running ?_),
      h.forks.start hun rfl (by simp) fun q hq => update_of_ne hq _ _⟩
    rw [hun]
    exact ⟨nofun, nofun⟩

omit [DecidableEq C] in
theorem abandon (h : CpuInv s) (hk : (s.kpc p).child = some np) : CpuInv (stepAbandon s p np) := by
  have he := h.forks.embryo p np hk
  refine ⟨h.lock, h.proc, h.cr3, h.runs.slots (state_update .running ?_),
    h.forks.stop hk rfl fun q hq => update_of_ne hq _ _⟩
  rw [he]
  exact ⟨nofun, nofun⟩

omit [DecidableEq C] in
theorem fill (h : CpuInv s) {k : Kpc N} {x : Slot N} (hk : (s.kpc p).child = some np)
    (hk' : k.child = some np) (hx : x.state = (s.slot np).state) :
    CpuInv { s with
      slot := update s.slot np x
      kpc := update s.kpc p k } :=
  ⟨h.lock, h.proc, h.cr3, h.runs.slots (state_update .running (by rw [hx])),
    h.forks.next hk hk' fun q => (state_update .embryo (by rw [hx]) q).2⟩

omit [DecidableEq C] in
theorem publish (h : CpuInv s) (hc : s.mode c = .run p) (hk : s.kpc p = .copied np) :
    CpuInv (stepPublish s p np) := by
  have hchild : (s.kpc p).child = some np := by rw [hk]; rfl
  have he := h.forks.embryo p np hchild
  have hrun : (s.slot p).state = .running := h.running (by rw [hc]; rfl)
  have hne : p ≠ np := by
    rintro rfl
    rw [hrun] at he
    cases he
  have hforks : Forks (update s.kpc np .user) s.slot := by
    refine ⟨?_, ?_⟩
    · intro q nq hq
      by_cases hqn : q = np
      · subst hqn
        rw [update_self] at hq
        cases hq
      · rw [update_of_ne hqn] at hq
        exact h.forks.embryo q nq hq
    · intro q q' nq hq hq'
      by_cases hqn : q = np
      · subst hqn
        rw [update_self] at hq
        cases hq
      · by_cases hqn' : q' = np
        · subst hqn'
          rw [update_self] at hq'
          cases hq'
        · rw [update_of_ne hqn] at hq
          rw [update_of_ne hqn'] at hq'
          exact h.forks.alone q q' nq hq hq'
  refine ⟨h.lock, h.proc, h.cr3, h.runs.slots (state_update .running ?_),
    hforks.stop ?_ rfl fun q hq => update_of_ne hq _ _⟩
  · rw [he]
    exact ⟨nofun, nofun⟩
  · rw [update_of_ne hne]
    exact hchild

theorem scanWait (h : CpuInv s) (hc : s.mode c = .waiting p) : CpuInv (stepWait s c p) := by
  have hocc : (s.mode c).occupant = some p := by rw [hc]; rfl
  have hruns : (s.mode c).runs = some p := by rw [hc]; rfl
  have hlocked : (s.mode c).locked = true := by rw [hc]; rfl
  unfold stepWait
  split
  · rename_i q hq
    have hz := (waitScan_reap hq).2
    refine ⟨h.lock.drop hlocked rfl, follows_keep h.proc hocc.symm, follows_keep h.cr3 hocc.symm,
      h.runs.keep hruns.symm (state_update .running ?_),
      h.forks.slots fun r => (state_update .embryo ?_ r).2⟩
    · rw [hz]
      exact ⟨nofun, nofun⟩
    · rw [hz]
      exact ⟨nofun, nofun⟩
  · exact ⟨h.lock.drop hlocked rfl, follows_keep h.proc hocc.symm, follows_keep h.cr3 hocc.symm,
      h.runs.keep hruns.symm fun _ => Iff.rfl, h.forks⟩
  · refine h.sched hruns (.inr ((h.lock c).2 hlocked)) ?_ ?_ ?_
    · simp [setState]
    · intro q hq
      simp [setState, hq]
    · intro q hq
      simp [setState, hq]

variable [NeZero N]

theorem step (h : CpuInv s) (hm : Moves s a t) : CpuInv t := by
  cases hm with
  | @acquire c hc hl =>
    refine ⟨(hl ▸ h.lock).take rfl, follows_keep h.proc ?_, follows_keep h.cr3 ?_,
      h.runs.keep ?_ fun _ => Iff.rfl, h.forks⟩ <;> rw [hc] <;> rfl
  | @pick c p hc hr =>
    refine ⟨h.lock.keep (by rw [hc]; rfl), follows_set h.proc rfl, follows_set h.cr3 rfl,
      h.runs.enter (by rw [hc]; rfl) rfl (by rw [hr]; exact nofun) (by simp) ?_,
      h.forks.slots fun q => (state_update .embryo (by rw [hr]; exact ⟨nofun, nofun⟩) q).2⟩
    intro q hq
    simp [hq]
  | @back c p hc =>
    exact ⟨h.lock.keep (by rw [hc]; rfl), follows_set h.proc rfl, follows_set h.cr3 rfl,
      h.runs.keep (by rw [hc]; rfl) fun _ => Iff.rfl, h.forks⟩
  | @release c hc =>
    refine ⟨h.lock.drop (by rw [hc]; rfl) rfl, follows_keep h.proc ?_, follows_keep h.cr3 ?_,
      h.runs.keep ?_ fun _ => Iff.rfl, h.forks⟩ <;> rw [hc] <;> rfl
  | tail hc => exact h.tail hc
  | @yield c p hc hl =>
    refine h.sched (by rw [hc]; rfl) (.inl hl) ?_ ?_ ?_
    · simp [setState]
    · intro q hq
      simp [setState, hq]
    · intro q hq
      simp [setState, hq]
  | @sleep c p n hc hl _ =>
    refine h.sched (by rw [hc]; rfl) (.inl hl) ?_ ?_ ?_
    · simp [setState]
    · intro q hq
      simp [setState, hq]
    · intro q hq
      simp [setState, hq]
  | wakeup _ =>
    exact h.table (fun q => (Slot.wake_woke _ _).state_iff .running nofun nofun)
      fun q => ((Slot.wake_woke _ _).state_iff .embryo nofun nofun).2
  | kill _ =>
    exact h.table (fun q => kill_state_iff _ _ q .running nofun nofun)
      fun q => (kill_state_iff _ _ q .embryo nofun nofun).2
  | alloc _ _ _ => exact h.alloc
  | noStack _ hk => exact h.abandon (by rw [hk]; rfl)
  | stack _ hk => exact h.fill (by rw [hk]; rfl) rfl rfl
  | noCopy _ hk => exact h.abandon (by rw [hk]; rfl)
  | copy _ hk => exact h.fill (by rw [hk]; rfl) rfl rfl
  | publish hc hk _ => exact h.publish hc hk
  | @exit c p hc hl _ _ =>
    refine h.sched (by rw [hc]; rfl) (.inl hl) ?_ ?_ ?_
    · rw [exitTable_self_state]
      exact nofun
    · intro q hq
      exact (exitTable_woke hq).state_iff .running nofun nofun
    · intro q hq
      exact ((exitTable_woke hq).state_iff .embryo nofun nofun).2
  | @wait c p hc hl _ =>
    refine ⟨(hl ▸ h.lock).take rfl, follows_keep h.proc ?_, follows_keep h.cr3 ?_,
      h.runs.keep ?_ fun _ => Iff.rfl, h.forks⟩ <;> rw [hc] <;> rfl
  | scanWait hc => exact h.scanWait hc

omit [DecidableEq C] in
theorem initial : CpuInv (Proc.initial : State N C) := by
  refine ⟨Owner.of_free fun _ => rfl, fun _ => rfl, fun _ => rfl, ⟨?_, nofun⟩, nofun, nofun⟩
  intro p
  refine ⟨?_, nofun⟩
  intro hp
  simp only [Proc.initial, initSlot] at hp
  split at hp <;> cases hp

end CpuInv

theorem cpuInv_of_reach [NeZero N] {ok : State N C → Act N C → Prop} {s : State N C}
    (h : (system N C).Reach ok s) : CpuInv s := by
  refine h.invariant ?_ ?_
  · rintro s rfl
    exact CpuInv.initial
  · intro s a t hi _ hst
    exact hi.step (moves_of_step hst)

/-! ## One CPU per process -/

/-- **One CPU per process.**  In every state reached with `ptable.lock` free, a
process is `RUNNING` exactly when it is `c->proc` of exactly one CPU, no process is
`c->proc` of two CPUs, and a process that is not `RUNNING` is `c->proc` of none.
And whenever `wait` is about to free the kernel stack and page directory of a
process, no CPU executes its thread, has it as `c->proc`, or has its page directory
loaded. -/
theorem one_cpu_per_process [NeZero N] {s : State N C}
    (hs : (system N C).Reach (fun _ _ => True) s) :
    (s.lock = none →
      (∀ p, (s.slot p).state = .running ↔ ∃! c, s.proc c = some p) ∧
      (∀ p c c', s.proc c = some p → s.proc c' = some p → c = c') ∧
      (∀ p, (s.slot p).state ≠ .running → ∀ c, s.proc c ≠ some p)) ∧
    (∀ c p q, s.mode c = .waiting p → waitScan s.slot p = .reap q →
      ∀ c', (s.mode c').runs ≠ some q ∧ s.proc c' ≠ some q ∧ s.cr3 c' ≠ some q) := by
  have hi := cpuInv_of_reach hs
  refine ⟨?_, ?_⟩
  · intro hl
    -- without the lock no scheduler is coming back, so `c->proc` is what runs
    have hproc : ∀ c, s.proc c = (s.mode c).runs := by
      intro c
      have hfree : (s.mode c).locked = false := (hl ▸ hi.lock).not_of_free c
      rw [hi.proc c]
      cases hm : s.mode c with
      | back p =>
        rw [hm] at hfree
        cases hfree
      | _ => rfl
    have huniq : ∀ p c c', s.proc c = some p → s.proc c' = some p → c = c' := by
      intro p c c' h h'
      rw [hproc] at h h'
      exact hi.runs.unique c c' p h h'
    refine ⟨?_, huniq, ?_⟩
    · intro p
      rw [hi.runs.running p]
      simp only [← hproc]
      refine ⟨?_, fun ⟨c, hc, _⟩ => ⟨c, hc⟩⟩
      rintro ⟨c, hc⟩
      exact ⟨c, hc, fun c' hc' => huniq p c' c hc' hc⟩
    · intro p hp c hc
      rw [hproc] at hc
      exact hp (hi.running hc)
  · intro c p q hc hq c'
    have hz := (waitScan_reap hq).2
    have hruns : (s.mode c').runs ≠ some q := by
      intro hr
      rw [hi.running hr] at hz
      cases hz
    -- only the CPU in `wait` has the lock, so no other scheduler is coming back from `q`
    have hocc : (s.mode c').occupant ≠ some q := by
      intro ho
      cases hm : s.mode c' with
      | back r =>
        have hcc : c' = c := hi.lock.unique (by rw [hm]; rfl) (by rw [hc]; rfl)
        rw [hcc, hc] at hm
        cases hm
      | run r | tail r | waiting r =>
        rw [hm] at ho hruns
        exact hruns ho
      | idle | scan =>
        rw [hm] at ho
        cases ho
    refine ⟨hruns, ?_, ?_⟩
    · rw [hi.proc c']
      exact hocc
    · rw [hi.cr3 c']
      exact hocc

/-- Init forks a child, which exits on the other CPU; when init's `wait` is about to
free the child's kernel stack and page directory, no CPU is on them. -/
theorem one_cpu_at_reap :
    ∃ s, (system 2 Bool).Reach (fun _ _ => True) s ∧ s.mode false = .waiting 0 ∧
      waitScan s.slot 0 = .reap 1 ∧ (s.slot 0).state = .running ∧
      ∀ c, (s.mode c).runs ≠ some 1 ∧ s.proc c ≠ some 1 ∧ s.cr3 c ≠ some 1 := by
  have h₀ : (system 2 Bool).Reach (fun _ _ => True) initial := .init rfl
  obtain ⟨s, hs, hv⟩ := Lts.reach_of_exec_map
    [.acquire false, .pick false 0, .tail false, .alloc false, .stack false, .copy false,
      .publish false, .acquire true, .pick true 1, .tail true, .exit true, .back true,
      .release true, .wait false]
    (fun s => (s.mode false, waitScan s.slot 0, (s.slot 0).state))
    (.waiting 0, .reap 1, .running) h₀ (by decide +kernel)
  simp only [Prod.mk.injEq] at hv
  obtain ⟨hm, hw, hr⟩ := hv
  exact ⟨s, hs, hm, hw, hr, (one_cpu_per_process hs).2 false 0 1 hm hw⟩

end Xv6.Proc
