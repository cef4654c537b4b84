import Xv6.Proc.Cpu

/-!
# Parents, zombies and `wait`

Every process but init has a living parent that will find it: the process that
forked it, or init once that one has exited.  `exit` hands its children to init in
the same critical section in which it becomes a zombie, and wakes whoever may be
sleeping in `wait` for one of the zombies involved, so nobody sleeps in `wait` with
a zombie child.

The accounts of the children are kept by number: each one created by `fork` is
either still in the table or has been returned by exactly one `wait`.
-/

namespace Xv6.Proc

open Xv6.Lib Function List

variable {N : ℕ} {C : Type} [NeZero N]

/-- `SLEEPING`, `RUNNABLE` or `RUNNING`. -/
def ProcState.alive : ProcState → Bool
  | .sleeping | .runnable | .running => true
  | _ => false

/-- Neither `UNUSED` nor `EMBRYO`: created by a `fork` that has succeeded. -/
def ProcState.born : ProcState → Bool
  | .unused | .embryo => false
  | _ => true

variable {st : ProcState} {x : Slot N}

theorem ProcState.born_of_alive (h : st.alive = true) : st.born = true := by
  cases st <;> first | rfl | cases h

omit [NeZero N] in
theorem Slot.Woke.born {y : Slot N} (h : x.Woke y) : y.state.born = x.state.born := by
  rcases h.state with hs | ⟨hx, hy⟩
  · rw [hs]
  · rw [hx, hy]
    rfl

/-! ## The family tree -/

/-- The parents are alive, and nobody sleeps in `wait` with a zombie child. -/
structure Family (kpc : Fin N → Kpc N) (slot : Fin N → Slot N) : Prop where
  init : (slot 0).state.alive = true
  orphan : (slot 0).parent = none
  self : ∀ p, (slot p).parent ≠ some p
  unused : ∀ p, (slot p).state = .unused → (slot p).parent = none
  embryo : ∀ p q, (slot p).state = .embryo → (slot p).parent = some q → kpc q = .copied p
  busy : ∀ p, kpc p ≠ .user → (slot p).state.alive = true
  copied : ∀ p np, kpc p = .copied np → (slot np).parent = some p ∧ (slot np).forker = (slot p).birth
  parent : ∀ p, p ≠ 0 → (slot p).state.born = true → ∃ q, (slot p).parent = some q ∧
    (slot q).state.alive = true ∧ ((slot q).birth = (slot p).forker ∨ q = 0)
  waits : ∀ p, (slot p).state = .sleeping → (slot p).chan = some (.proc p) →
    ∀ q, (slot q).parent = some p → (slot q).state ≠ .zombie

namespace Family

variable {kpc : Fin N → Kpc N} {slot slot' : Fin N → Slot N} {p q np : Fin N}

theorem move (h : Family kpc slot)
    (hfix : ∀ q, (slot' q).parent = (slot q).parent ∧ (slot' q).birth = (slot q).birth ∧
      (slot' q).forker = (slot q).forker)
    (hstate : ∀ q, (slot' q).state = (slot q).state ∨
      (slot q).state.alive = true ∧ (slot' q).state.alive = true)
    (hwait : ∀ q, (slot' q).state = .sleeping → (slot' q).chan = some (.proc q) →
      ((slot q).state = .sleeping ∧ (slot q).chan = some (.proc q)) ∨
      ∀ r, (slot r).parent = some q → (slot r).state ≠ .zombie) : Family kpc slot' := by
  have halive : ∀ q, (slot' q).state.alive = (slot q).state.alive := by
    intro q
    rcases hstate q with hs | ⟨h1, h2⟩
    · rw [hs]
    · rw [h1, h2]
  have hdead : ∀ q st, st.alive = false → (slot' q).state = st → (slot q).state = st := by
    intro q st hst hq
    rcases hstate q with hs | ⟨_, h2⟩
    · rw [← hs]
      exact hq
    · rw [hq, hst] at h2
      cases h2
  have hborn : ∀ q, (slot' q).state.born = true → (slot q).state.born = true := by
    intro q hq
    rcases hstate q with hs | ⟨h1, _⟩
    · rw [← hs]
      exact hq
    · exact ProcState.born_of_alive h1
  refine ⟨?_, ?_, ?_, ?_, ?_, ?_, ?_, ?_, ?_⟩
  · rw [halive]
    exact h.init
  · rw [(hfix 0).1]
    exact h.orphan
  · intro q
    rw [(hfix q).1]
    exact h.self q
  · intro q hq
    rw [(hfix q).1]
    exact h.unused q (hdead q .unused rfl hq)
  · intro q r hq hr
    rw [(hfix q).1] at hr
    exact h.embryo q r (hdead q .embryo rfl hq) hr
  · intro q hq
    rw [halive]
    exact h.busy q hq
  · intro q nq hq
    rw [(hfix nq).1, (hfix nq).2.2, (hfix q).2.1]
    exact h.copied q nq hq
  · intro q hq hb
    obtain ⟨r, hr, ha, hf⟩ := h.parent q hq (hborn q hb)
    refine ⟨r, (hfix q).1.trans hr, (halive r).trans ha, ?_⟩
    rw [(hfix r).2.1, (hfix q).2.2]
    exact hf
  · intro q hq hch r hr hz
    rw [(hfix r).1] at hr
    have hz' := hdead r .zombie rfl hz
    rcases hwait q hq hch with ⟨hsl, hc⟩ | hnone
    · exact h.waits q hsl hc r hr hz'
    · exact hnone r hr hz'

theorem moveOne (h : Family kpc slot) {ch : Option (Chan N)} (hp : (slot p).state.alive = true)
    (hst : st.alive = true) (hwait : st = .sleeping → ch = some (.proc p) →
      ∀ r, (slot r).parent = some p → (slot r).state ≠ .zombie) :
    Family kpc (update slot p { slot p with state := st, chan := ch }) := by
  refine h.move ?_ ?_ ?_
  · intro q
    by_cases hq : q = p
    · subst hq
      simp
    · simp [hq]
  · intro q
    by_cases hq : q = p
    · subst hq
      simp [hp, hst]
    · simp [hq]
  · intro q hs hc
    by_cases hq : q = p
    · subst hq
      rw [update_self] at hs hc
      exact .inr (hwait hs hc)
    · rw [update_of_ne hq] at hs hc
      exact .inl ⟨hs, hc⟩

theorem wakeup (h : Family kpc slot) (ch : Chan N) : Family kpc (wakeup1 slot ch) := by
  refine h.move ?_ ?_ ?_
  · intro q
    exact ⟨Slot.parent_wake _ _, (Slot.wake_woke _ _).birth, (Slot.wake_woke _ _).forker⟩
  · intro q
    rcases (Slot.wake_woke (slot q) ch).state with hs | ⟨h1, h2⟩
    · exact .inl hs
    · refine .inr ⟨by rw [h1]; rfl, ?_⟩
      rw [wakeup1, h2]
      rfl
  · intro q hs hc
    have hw := Slot.wake_woke (slot q) ch
    exact .inl ⟨hw.sleeping hs, hw.chan ▸ hc⟩

theorem kill (h : Family kpc slot) (pid : ℤ) : Family kpc (Proc.kill slot pid).1 := by
  rcases kill_cases slot pid with ⟨hk, _⟩ | ⟨q, hk, _⟩
  · rw [hk]
    exact h
  · rw [hk]
    dsimp only
    refine h.move ?_ ?_ ?_
    · intro r
      by_cases hr : r = q
      · subst hr
        simp [Slot.kill]
      · simp [hr]
    · intro r
      by_cases hr : r = q
      · subst hr
        by_cases hs : (slot r).state = .sleeping
        · simp [Slot.kill, hs, ProcState.alive]
        · simp [Slot.kill, hs]
      · simp [hr]
    · intro r hs hc
      by_cases hr : r = q
      · subst hr
        rw [update_self, Slot.kill] at hs
        dsimp only at hs
        split at hs
        · cases hs
        · rename_i hne
          exact absurd hs hne
      · rw [update_of_ne hr] at hs hc
        exact .inl ⟨hs, hc⟩

theorem replace (h : Family kpc slot) (hdead : (slot np).state.alive = false) {kpc' : Fin N → Kpc N}
    (hself : x.parent ≠ some np) (hunused : x.state = .unused → x.parent = none)
    (hembryo : ∀ q, x.state = .embryo → x.parent = some q → kpc' q = .copied np)
    (hkeep : ∀ q r, r ≠ np → kpc q = .copied r → kpc' q = .copied r)
    (hbusy : ∀ q, kpc' q ≠ .user → kpc q ≠ .user ∨ (slot q).state.alive = true)
    (hcopied : ∀ q r, kpc' q = .copied r →
      (r = np ∧ x.parent = some q ∧ x.forker = (slot q).birth ∧ (slot q).state.alive = true) ∨
      (r ≠ np ∧ kpc q = .copied r))
    (hparent : x.state.born = true → ∃ q, x.parent = some q ∧ (slot q).state.alive = true ∧
      ((slot q).birth = x.forker ∨ q = 0)) (hsleep : x.state ≠ .sleeping)
    (hzombie : x.state ≠ .zombie) :
    Family kpc' (update slot np x) := by
  have hne : ∀ q, (slot q).state.alive = true → q ≠ np := by
    rintro q hq rfl
    rw [hq] at hdead
    cases hdead
  have h0 : (0 : Fin N) ≠ np := hne 0 h.init
  refine ⟨?_, ?_, ?_, ?_, ?_, ?_, ?_, ?_, ?_⟩
  · rw [update_of_ne h0]
    exact h.init
  · rw [update_of_ne h0]
    exact h.orphan
  · intro q
    by_cases hq : q = np
    · subst hq
      rwa [update_self]
    · rw [update_of_ne hq]
      exact h.self q
  · intro q hs
    by_cases hq : q = np
    · subst hq
      rw [update_self] at hs ⊢
      exact hunused hs
    · rw [update_of_ne hq] at hs ⊢
      exact h.unused q hs
  · intro q r hs hr
    by_cases hq : q = np
    · subst hq
      rw [update_self] at hs hr
      exact hembryo r hs hr
    · rw [update_of_ne hq] at hs hr
      exact hkeep r q hq (h.embryo q r hs hr)
  · intro q hq
    have ha : (slot q).state.alive = true := by
      rcases hbusy q hq with hk | ha
      · exact h.busy q hk
      · exact ha
    rw [update_of_ne (hne q ha)]
    exact ha
  · intro q r hq
    rcases hcopied q r hq with ⟨rfl, hp, hf, ha⟩ | ⟨hr, hk⟩
    · rw [update_self, update_of_ne (hne q ha)]
      exact ⟨hp, hf⟩
    · have ha : (slot q).state.alive = true := h.busy q (by rw [hk]; exact nofun)
      rw [update_of_ne hr, update_of_ne (hne q ha)]
      exact h.copied q r hk
  · intro q hq0 hb
    by_cases hq : q = np
    · subst hq
      rw [update_self] at hb ⊢
      obtain ⟨r, hr, ha, hf⟩ := hparent hb
      exact ⟨r, hr, by rwa [update_of_ne (hne r ha)], by rwa [update_of_ne (hne r ha)]⟩
    · rw [update_of_ne hq] at hb ⊢
      obtain ⟨r, hr, ha, hf⟩ := h.parent q hq0 hb
      exact ⟨r, hr, by rwa [update_of_ne (hne r ha)], by rwa [update_of_ne (hne r ha)]⟩
  · intro q hs hc r hr hz
    by_cases hq : q = np
    · subst hq
      rw [update_self] at hs
      exact hsleep hs
    · rw [update_of_ne hq] at hs hc
      by_cases hrn : r = np
      · subst hrn
        rw [update_self] at hz
        exact hzombie hz
      · rw [update_of_ne hrn] at hr hz
        exact h.waits q hs hc r hr hz

theorem exit (h : Family kpc slot) (hp0 : p ≠ 0) (hk : kpc p = .user)
    (hrun : (slot p).state = .running) : Family kpc (exitTable slot p) := by
  have halive : ∀ q, q ≠ p → (exitTable slot p q).state.alive = (slot q).state.alive := by
    intro q hq
    have hw : (slot q).Woke (exitTable slot p q) := exitTable_woke hq
    rcases hw.state with hs | ⟨h1, h2⟩
    · rw [hs]
    · rw [h1, h2]
      rfl
  have hkept : ∀ st q, st ≠ .sleeping → st ≠ .runnable → st ≠ .zombie →
      (exitTable slot p q).state = st → (slot q).state = st := by
    intro st q hs hr hz hq
    by_cases hqp : q = p
    · subst hqp
      rw [exitTable_self_state] at hq
      exact absurd hq.symm hz
    · exact ((exitTable_woke hqp).state_iff st hs hr).1 hq
  have hbirth : ∀ q, (exitTable slot p q).birth = (slot q).birth := by
    intro q
    by_cases hqp : q = p
    · subst hqp
      exact exitTable_self.1
    · exact (exitTable_woke hqp).birth
  have hforker : ∀ q, (exitTable slot p q).forker = (slot q).forker := by
    intro q
    by_cases hqp : q = p
    · subst hqp
      exact exitTable_self.2.2.1
    · exact (exitTable_woke hqp).forker
  have hinit : (exitTable slot p 0).state.alive = true := by
    rw [halive 0 (Ne.symm hp0)]
    exact h.init
  have hborn : ∀ q, (exitTable slot p q).state.born = true → (slot q).state.born = true := by
    intro q hq
    by_cases hqp : q = p
    · subst hqp
      rw [hrun]
      rfl
    · have hw : (slot q).Woke (exitTable slot p q) := exitTable_woke hqp
      rcases hw.state with hs | ⟨h1, _⟩
      · rwa [← hs]
      · rw [h1]
        rfl
  refine ⟨hinit, ?_, ?_, ?_, ?_, ?_, ?_, ?_, ?_⟩
  · rw [exitTable_parent, h.orphan]
    rfl
  · intro q
    rw [exitTable_parent]
    split
    · rename_i hq
      intro h0
      cases h0
      rw [h.orphan] at hq
      cases hq
    · exact h.self q
  · intro q hq
    have hold := h.unused q (hkept .unused q nofun nofun nofun hq)
    rw [exitTable_parent, hold]
    rfl
  · intro q r hq hr
    have hold := hkept .embryo q nofun nofun nofun hq
    rw [exitTable_parent] at hr
    split at hr
    · rename_i hqp
      have hcop := h.embryo q p hold hqp
      rw [hk] at hcop
      cases hcop
    · exact h.embryo q r hold hr
  · intro q hq
    have hqp : q ≠ p := by
      rintro rfl
      exact hq hk
    rw [halive q hqp]
    exact h.busy q hq
  · intro q r hq
    have hqp : q ≠ p := by
      rintro rfl
      rw [hk] at hq
      cases hq
    obtain ⟨hpar, hfor⟩ := h.copied q r hq
    rw [exitTable_parent, hpar, if_neg fun he => hqp (Option.some.inj he), hforker, hbirth]
    exact ⟨rfl, hfor⟩
  · intro q hq0 hb
    obtain ⟨r, hr, ha, hf⟩ := h.parent q hq0 (hborn q hb)
    rw [exitTable_parent, hr]
    by_cases hrp : r = p
    · exact ⟨0, if_pos (by rw [hrp]), hinit, .inr rfl⟩
    · refine ⟨r, if_neg fun he => hrp (Option.some.inj he), ?_, ?_⟩
      · rw [halive r hrp]
        exact ha
      · rw [hbirth, hforker]
        exact hf
  · intro q hs hc r hr hz
    have hqp : q ≠ p := by
      rintro rfl
      rw [exitTable_self_state] at hs
      cases hs
    have hw : (slot q).Woke (exitTable slot p q) := exitTable_woke hqp
    rw [hw.chan] at hc
    rw [exitTable_parent] at hr
    by_cases hrp : r = p
    · -- the exiting process itself: its parent has been woken
      subst hrp
      rw [if_neg (h.self r)] at hr
      exact exitTable_wakes_parent hqp hr hc hs
    · have hz' := ((exitTable_woke hrp).state_iff .zombie nofun nofun).1 hz
      split at hr
      · -- a zombie handed to init: init has been woken
        rename_i hpar
        cases hr
        exact exitTable_wakes_init hp0 hpar hz' hc hs
      · exact h.waits q (hw.sleeping hs) hc r hr hz'

theorem initial : Family (fun _ => .user) (initSlot : Fin N → Slot N) := by
  have h0 : (initSlot (0 : Fin N)).state = .runnable := by simp [initSlot]
  have hpar : ∀ q : Fin N, (initSlot q).parent = none := by
    intro q
    unfold initSlot
    split <;> rfl
  have hstate : ∀ q : Fin N, q ≠ 0 → (initSlot q).state = .unused := by
    intro q hq
    simp [initSlot, hq]
  refine ⟨by rw [h0]; rfl, hpar 0, ?_, fun q _ => hpar q, ?_, fun q hq => absurd rfl hq,
    by rintro _ _ ⟨⟩, ?_, ?_⟩
  · intro q
    rw [hpar q]
    rintro ⟨⟩
  · intro q r _ hr
    rw [hpar q] at hr
    cases hr
  · intro q hq hb
    rw [hstate q hq] at hb
    cases hb
  · intro q _ _ r hr
    rw [hpar r] at hr
    cases hr

theorem fill (h : Family kpc slot) (hdead : (slot np).state.alive = false)
    (hp : (slot p).state.alive = true) {k : Kpc N} (hmine : ∀ r, kpc p = .copied r → r = np)
    (hother : ∀ q, q ≠ p → kpc q ≠ .copied np) (hunused : x.state = .unused → x.parent = none)
    (hparent : x.parent = none ∨ x.parent = some p ∧ x.forker = (slot p).birth)
    (hembryo : x.state = .embryo → x.parent = some p → k = .copied np)
    (hk : ∀ r, k = .copied r → r = np ∧ x.parent = some p)
    (hborn : x.state.born = true → x.state = .runnable ∧ x.parent = some p) :
    Family (update kpc p k) (update slot np x) := by
  have hpn : p ≠ np := by
    rintro rfl
    rw [hp] at hdead
    cases hdead
  have hmine' : x.parent = some p → x.forker = (slot p).birth := by
    intro hx
    rcases hparent with hn | ⟨_, hf⟩
    · rw [hx] at hn
      cases hn
    · exact hf
  refine h.replace hdead ?_ hunused ?_ ?_ ?_ ?_ ?_ ?_ ?_
  · rcases hparent with hn | ⟨hx, _⟩
    · rw [hn]
      exact nofun
    · rw [hx]
      exact fun he => hpn (Option.some.inj he)
  · intro q he hq
    rcases hparent with hn | ⟨hx, _⟩
    · rw [hq] at hn
      cases hn
    · have hqp : q = p := Option.some.inj (hq.symm.trans hx)
      subst hqp
      rw [update_self]
      exact hembryo he hx
  · intro q r hr hq
    have hqp : q ≠ p := by
      rintro rfl
      exact hr (hmine r hq)
    rwa [update_of_ne hqp]
  · intro q hq
    by_cases hqp : q = p
    · exact .inr (hqp ▸ hp)
    · rw [update_of_ne hqp] at hq
      exact .inl hq
  · intro q r hq
    by_cases hqp : q = p
    · subst hqp
      rw [update_self] at hq
      obtain ⟨rfl, hx⟩ := hk r hq
      exact .inl ⟨rfl, hx, hmine' hx, hp⟩
    · rw [update_of_ne hqp] at hq
      refine .inr ⟨?_, hq⟩
      rintro rfl
      exact hother q hqp hq
  · intro hb
    obtain ⟨_, hx⟩ := hborn hb
    exact ⟨p, hx, hp, .inl (hmine' hx).symm⟩
  · intro hs
    have hr := (hborn (by rw [hs]; rfl)).1
    rw [hs] at hr
    cases hr
  · intro hz
    have hr := (hborn (by rw [hz]; rfl)).1
    rw [hz] at hr
    cases hr

theorem parent_of_child (h : Family kpc slot) (hf : Forks kpc slot) (hchild : (kpc p).child = some np)
    (hnot : ∀ r, kpc p ≠ .copied r) : (slot np).parent = none := by
  cases hq : (slot np).parent with
  | none => rfl
  | some q =>
    have hcop := h.embryo np q (hf.embryo p np hchild) hq
    have hqp := hf.alone q p np (by rw [hcop]; rfl) hchild
    exact absurd (hqp ▸ hcop) (hnot np)

variable {s : State N C}

theorem alloc (h : Family s.kpc s.slot) (hk : s.kpc p = .user) (hp : (s.slot p).state = .running) :
    Family (stepAlloc s p).kpc (stepAlloc s p).slot := by
  unfold stepAlloc
  split
  · exact h
  · rename_i np hnp
    have hun := findUnused_state hnp
    have hpar := h.unused np hun
    refine h.fill (by rw [hun]; rfl) (by rw [hp]; rfl) ?_ ?_ nofun (.inl hpar) ?_ nofun nofun
    · rw [hk]
      exact nofun
    · intro q _ hq
      have hcop := (h.copied q np hq).1
      rw [hpar] at hcop
      cases hcop
    · intro _ hx
      rw [hpar] at hx
      cases hx

theorem abandon (h : Family s.kpc s.slot) (hf : Forks s.kpc s.slot)
    (hp : (s.slot p).state = .running) (hchild : (s.kpc p).child = some np)
    (hnot : ∀ r, s.kpc p ≠ .copied r) :
    Family (stepAbandon s p np).kpc (stepAbandon s p np).slot := by
  have hpar := h.parent_of_child hf hchild hnot
  refine h.fill (by rw [hf.embryo p np hchild]; rfl) (by rw [hp]; rfl)
    (fun r hr => absurd hr (hnot r)) ?_ (fun _ => hpar) (.inl hpar) nofun nofun nofun
  intro q hqp hq
  exact hqp (hf.alone q p np (by rw [hq]; rfl) hchild)

theorem stack (h : Family s.kpc s.slot) (hf : Forks s.kpc s.slot)
    (hp : (s.slot p).state = .running) (hk : s.kpc p = .forking np) :
    Family (update s.kpc p (.stacked np))
      (update s.slot np { s.slot np with kstack := true }) := by
  have hchild : (s.kpc p).child = some np := by rw [hk]; rfl
  have he := hf.embryo p np hchild
  have hpar := h.parent_of_child hf hchild (by rw [hk]; exact nofun)
  refine h.fill (by rw [he]; rfl) (by rw [hp]; rfl) ?_ ?_ (fun _ => hpar) (.inl hpar) ?_ nofun ?_
  · rw [hk]
    exact nofun
  · intro q hqp hq
    exact hqp (hf.alone q p np (by rw [hq]; rfl) hchild)
  · intro _ hx
    rw [hpar] at hx
    cases hx
  · intro hb
    rw [he] at hb
    cases hb

theorem copy (h : Family s.kpc s.slot) (hf : Forks s.kpc s.slot)
    (hp : (s.slot p).state = .running) (hk : s.kpc p = .stacked np) :
    Family (update s.kpc p (.copied np)) (update s.slot np
      { s.slot np with parent := some p, forker := (s.slot p).birth }) := by
  have hchild : (s.kpc p).child = some np := by rw [hk]; rfl
  have he := hf.embryo p np hchild
  refine h.fill (by rw [he]; rfl) (by rw [hp]; rfl) ?_ ?_ ?_ (.inr ⟨rfl, rfl⟩) (fun _ _ => rfl) ?_ ?_
  · rw [hk]
    exact nofun
  · intro q hqp hq
    exact hqp (hf.alone q p np (by rw [hq]; rfl) hchild)
  · intro hun
    rw [he] at hun
    cases hun
  · rintro r ⟨rfl⟩
    exact ⟨rfl, rfl⟩
  · intro hb
    rw [he] at hb
    cases hb

theorem publish (h : Family s.kpc s.slot) (hf : Forks s.kpc s.slot)
    (hp : (s.slot p).state = .running) (hk : s.kpc p = .copied np) :
    Family (stepPublish s p np).kpc (stepPublish s p np).slot := by
  have hchild : (s.kpc p).child = some np := by rw [hk]; rfl
  have he := hf.embryo p np hchild
  have hpar := h.copied p np hk
  have hnp : s.kpc np = .user := by
    by_contra hne
    have ha := h.busy np hne
    rw [he] at ha
    cases ha
  have hkpc : update s.kpc np .user = s.kpc := by
    rw [← hnp]
    exact update_eq_self _ _
  unfold stepPublish
  dsimp only
  rw [hkpc]
  refine h.fill (by rw [he]; rfl) (by rw [hp]; rfl) ?_ ?_ nofun (.inr hpar) nofun nofun
    fun _ => ⟨rfl, hpar.1⟩
  · rw [hk]
    rintro r ⟨rfl⟩
    rfl
  · intro q hqp hq
    exact hqp (hf.alone q p np (by rw [hq]; rfl) hchild)

theorem reap (h : Family kpc slot) (hf : Forks kpc slot) (hz : (slot q).state = .zombie) :
    Family kpc (update slot q (slot q).freed) := by
  refine h.replace (by rw [hz]; rfl) nofun (fun _ => rfl) nofun (fun _ _ _ hq => hq)
    (fun _ hq => .inl hq) ?_ nofun nofun nofun
  intro p r hp
  refine .inr ⟨?_, hp⟩
  rintro rfl
  have he := hf.embryo p r (by rw [hp]; rfl)
  rw [hz] at he
  cases he

variable [DecidableEq C] {t : State N C} {a : Act N C} {c : C}

theorem step (h : Family s.kpc s.slot) (hi : CpuInv s) (hm : Moves s a t) :
    Family t.kpc t.slot := by
  cases hm with
  | acquire | back | release | wait => exact h
  | @pick c p hc hr => exact h.moveOne (by rw [hr]; rfl) rfl nofun
  | @tail c p hc =>
    have hr := hi.running (c := c) (p := p) (by rw [hc]; rfl)
    have hm : Family s.kpc (setState s p (s.slot p).state none) :=
      h.moveOne (by rw [hr]; rfl) (by rw [hr]; rfl) nofun
    unfold stepTail
    split
    · exact h
    · exact hm
    · exact hm
  | @yield c p hc _ => exact h.moveOne (by rw [hi.running (c := c) (p := p) (by rw [hc]; rfl)]; rfl) rfl nofun
  | @sleep c p n hc _ _ =>
    exact h.moveOne (by rw [hi.running (c := c) (p := p) (by rw [hc]; rfl)]; rfl) rfl nofun
  | wakeup => exact h.wakeup _
  | kill => exact h.kill _
  | @alloc c p hc _ hk => exact h.alloc hk (hi.running (c := c) (by rw [hc]; rfl))
  | @noStack c p np hc hk =>
    exact h.abandon hi.forks (hi.running (c := c) (by rw [hc]; rfl)) (by rw [hk]; rfl)
      (by rw [hk]; exact nofun)
  | @stack c p np hc hk => exact h.stack hi.forks (hi.running (c := c) (by rw [hc]; rfl)) hk
  | @noCopy c p np hc hk =>
    exact h.abandon hi.forks (hi.running (c := c) (by rw [hc]; rfl)) (by rw [hk]; rfl)
      (by rw [hk]; exact nofun)
  | @copy c p np hc hk => exact h.copy hi.forks (hi.running (c := c) (by rw [hc]; rfl)) hk
  | @publish c p np hc hk _ => exact h.publish hi.forks (hi.running (c := c) (by rw [hc]; rfl)) hk
  | @exit c p hc _ hk hp0 => exact h.exit hp0 hk (hi.running (c := c) (by rw [hc]; rfl))
  | @scanWait c p hc =>
    have hr := hi.running (c := c) (p := p) (by rw [hc]; rfl)
    unfold stepWait
    split
    · rename_i q hq
      exact h.reap hi.forks (waitScan_reap hq).2
    · exact h
    · rename_i hw
      exact h.moveOne (by rw [hr]; rfl) rfl fun _ _ q hq => waitScan_sleep hw hq

end Family

/-! ## The accounts of the children -/

/-- What slot `p` adds to the accounts: the child in it, if there is one. -/
def Slot.child (p : Fin N) (x : Slot N) : Multiset (ℕ × ℤ) :=
  if p ≠ 0 ∧ x.state.born = true then {(x.birth, x.pid)} else 0

/-- Each child created by `fork` is in the table or has been returned by `wait`, and
their numbers are distinct. -/
structure Accounts (s : State N C) : Prop where
  balance : (s.forked : Multiset (ℕ × ℤ)) = s.reaped + ∑ p, Slot.child p (s.slot p)
  nodup : (s.forked.map Prod.fst).Nodup
  past : ∀ x ∈ s.forked, x.1 < s.births
  embryo : ∀ p, (s.slot p).state = .embryo →
    (s.slot p).birth < s.births ∧ ∀ x ∈ s.forked, x.1 ≠ (s.slot p).birth
  apart : ∀ p q, (s.slot p).state = .embryo → (s.slot q).state = .embryo →
    (s.slot p).birth = (s.slot q).birth → p = q

namespace Accounts

variable {s t : State N C} {p q np : Fin N}

theorem move (h : Accounts s) (hforked : t.forked = s.forked) (hreaped : t.reaped = s.reaped)
    (hbirths : t.births = s.births)
    (hid : ∀ q, (t.slot q).birth = (s.slot q).birth ∧ (t.slot q).pid = (s.slot q).pid)
    (hborn : ∀ q, (t.slot q).state.born = (s.slot q).state.born)
    (hemb : ∀ q, (t.slot q).state = .embryo → (s.slot q).state = .embryo) : Accounts t := by
  have hchild : ∀ q, Slot.child q (t.slot q) = Slot.child q (s.slot q) := by
    intro q
    rw [Slot.child, Slot.child, hborn q, (hid q).1, (hid q).2]
  refine ⟨?_, ?_, ?_, ?_, ?_⟩
  · rw [hforked, hreaped, h.balance]
    simp only [hchild]
  · rw [hforked]
    exact h.nodup
  · rw [hforked, hbirths]
    exact h.past
  · intro q hq
    rw [hforked, hbirths, (hid q).1]
    exact h.embryo q (hemb q hq)
  · intro q r hq hr
    rw [(hid q).1, (hid r).1]
    exact h.apart q r (hemb q hq) (hemb r hr)

theorem moveOne (h : Accounts s) (hslot : t.slot = update s.slot p x)
    (hforked : t.forked = s.forked) (hreaped : t.reaped = s.reaped) (hbirths : t.births = s.births)
    (hid : x.birth = (s.slot p).birth ∧ x.pid = (s.slot p).pid)
    (hborn : x.state.born = (s.slot p).state.born)
    (hemb : x.state = .embryo → (s.slot p).state = .embryo) : Accounts t := by
  refine h.move hforked hreaped hbirths ?_ ?_ ?_
  · intro q
    rw [hslot]
    by_cases hq : q = p
    · subst hq
      rwa [update_self]
    · rw [update_of_ne hq]
      exact ⟨rfl, rfl⟩
  · intro q
    rw [hslot]
    by_cases hq : q = p
    · subst hq
      rwa [update_self]
    · rw [update_of_ne hq]
  · intro q
    rw [hslot]
    by_cases hq : q = p
    · subst hq
      rwa [update_self]
    · rw [update_of_ne hq]
      exact id

theorem moveLive (h : Accounts s) {ch : Option (Chan N)} (hslot : t.slot = setState s p st ch)
    (hforked : t.forked = s.forked) (hreaped : t.reaped = s.reaped) (hbirths : t.births = s.births)
    (hp : (s.slot p).state.alive = true) (hst : st.alive = true) : Accounts t := by
  refine h.moveOne hslot hforked hreaped hbirths ⟨rfl, rfl⟩ ?_ ?_
  · rw [ProcState.born_of_alive hp]
    exact ProcState.born_of_alive hst
  · rintro rfl
    cases hst

theorem alloc (h : Accounts s) : Accounts (stepAlloc s p) := by
  unfold stepAlloc
  split
  · exact h
  · rename_i np hnp
    have hun := findUnused_state hnp
    have hsum := sum_update_add (fun q => Slot.child q) s.slot np
      { s.slot np with state := .embryo, pid := s.nextpid, birth := s.births }
    have hold : Slot.child np (s.slot np) = 0 := by simp [Slot.child, hun, ProcState.born]
    have hnew : Slot.child np
        { s.slot np with state := .embryo, pid := s.nextpid, birth := s.births } = 0 := by
      simp [Slot.child, ProcState.born]
    rw [hold, hnew, add_zero, add_zero] at hsum
    refine ⟨?_, h.nodup, ?_, ?_, ?_⟩
    · rw [hsum]
      exact h.balance
    · intro x hx
      exact Nat.lt_succ_of_lt (h.past x hx)
    · intro q hq
      by_cases hqn : q = np
      · subst hqn
        simp only [update_self]
        exact ⟨Nat.lt_succ_self _, fun x hx => (h.past x hx).ne⟩
      · simp only [update_of_ne hqn] at hq ⊢
        exact ⟨Nat.lt_succ_of_lt (h.embryo q hq).1, (h.embryo q hq).2⟩
    · intro q r hq hr hqr
      by_cases hqn : q = np
      · by_cases hrn : r = np
        · rw [hqn, hrn]
        · subst hqn
          simp only [update_self, update_of_ne hrn] at hr hqr
          exact absurd hqr.symm (h.embryo r hr).1.ne
      · by_cases hrn : r = np
        · subst hrn
          simp only [update_self, update_of_ne hqn] at hq hqr
          exact absurd hqr (h.embryo q hq).1.ne
        · simp only [update_of_ne hqn, update_of_ne hrn] at hq hr hqr
          exact h.apart q r hq hr hqr

theorem publish (h : Accounts s) (he : (s.slot np).state = .embryo) (hnp : np ≠ 0) :
    Accounts (stepPublish s p np) := by
  have hsum := sum_update_add (fun q => Slot.child q) s.slot np { s.slot np with state := .runnable }
  have hold : Slot.child np (s.slot np) = 0 := by simp [Slot.child, he, ProcState.born]
  have hnew : Slot.child np { s.slot np with state := .runnable }
      = {((s.slot np).birth, (s.slot np).pid)} := by
    simp [Slot.child, ProcState.born, hnp]
  rw [hold, hnew, add_zero] at hsum
  have hemb : ∀ q, (update s.slot np { s.slot np with state := .runnable } q).state = .embryo →
      q ≠ np ∧ (s.slot q).state = .embryo := by
    intro q hq
    by_cases hqn : q = np
    · subst hqn
      rw [update_self] at hq
      cases hq
    · rw [update_of_ne hqn] at hq
      exact ⟨hqn, hq⟩
  refine ⟨?_, ?_, ?_, ?_, ?_⟩
  · simp only [stepPublish]
    rw [hsum, ← add_assoc, ← h.balance, ← Multiset.coe_add]
    rfl
  · simp only [stepPublish, map_append, map_cons, map_nil]
    refine nodup_append.2 ⟨h.nodup, nodup_singleton _, ?_⟩
    intro b hb b' hb'
    obtain ⟨x, hx, rfl⟩ := mem_map.1 hb
    rw [mem_singleton.1 hb']
    exact (h.embryo np he).2 x hx
  · intro x hx
    rcases mem_append.1 hx with hx | hx
    · exact h.past x hx
    · rw [mem_singleton.1 hx]
      exact (h.embryo np he).1
  · intro q hq
    obtain ⟨hqn, hq⟩ := hemb q hq
    simp only [stepPublish, update_of_ne hqn]
    refine ⟨(h.embryo q hq).1, ?_⟩
    intro x hx
    rcases mem_append.1 hx with hx | hx
    · exact (h.embryo q hq).2 x hx
    · rw [mem_singleton.1 hx]
      exact fun heq => hqn (h.apart q np hq he heq.symm)
  · intro q r hq hr hqr
    obtain ⟨hqn, hq⟩ := hemb q hq
    obtain ⟨hrn, hr⟩ := hemb r hr
    simp only [stepPublish, update_of_ne hqn, update_of_ne hrn] at hqr
    exact h.apart q r hq hr hqr

theorem reap (h : Accounts s) (hslot : t.slot = update s.slot q (s.slot q).freed)
    (hforked : t.forked = s.forked) (hbirths : t.births = s.births)
    (hreaped : t.reaped = s.reaped ++ [((s.slot q).birth, (s.slot q).pid)])
    (hz : (s.slot q).state = .zombie) (hq : q ≠ 0) : Accounts t := by
  have hsum := sum_update_add (fun r => Slot.child r) s.slot q (s.slot q).freed
  have hold : Slot.child q (s.slot q) = {((s.slot q).birth, (s.slot q).pid)} := by
    simp [Slot.child, hz, ProcState.born, hq]
  have hnew : Slot.child q (s.slot q).freed = 0 := by
    simp [Slot.child, Slot.freed, ProcState.born]
  rw [hold, hnew, add_zero] at hsum
  have hemb : ∀ r, (t.slot r).state = .embryo → r ≠ q ∧ (s.slot r).state = .embryo := by
    intro r hr
    rw [hslot] at hr
    by_cases hrq : r = q
    · subst hrq
      rw [update_self] at hr
      cases hr
    · rw [update_of_ne hrq] at hr
      exact ⟨hrq, hr⟩
  refine ⟨?_, ?_, ?_, ?_, ?_⟩
  · rw [hforked, hreaped, hslot, h.balance, ← hsum, ← Multiset.coe_add, add_assoc]
    congr 1
    rw [add_comm]
    rfl
  · rw [hforked]
    exact h.nodup
  · rw [hforked, hbirths]
    exact h.past
  · intro r hr
    obtain ⟨hrq, hr⟩ := hemb r hr
    rw [hslot, hforked, hbirths, update_of_ne hrq]
    exact h.embryo r hr
  · intro r r' hr hr' heq
    obtain ⟨hrq, hr⟩ := hemb r hr
    obtain ⟨hrq', hr'⟩ := hemb r' hr'
    rw [hslot, update_of_ne hrq, update_of_ne hrq'] at heq
    exact h.apart r r' hr hr' heq

theorem initial : Accounts (Proc.initial : State N C) := by
  have hchild : ∀ q : Fin N, Slot.child q (initSlot q) = 0 := by
    intro q
    by_cases hq : q = 0
    · simp [Slot.child, hq]
    · simp [Slot.child, initSlot, hq, ProcState.born]
  have hemb : ∀ q : Fin N, (initSlot q).state ≠ .embryo := by
    intro q
    unfold initSlot
    split <;> rintro ⟨⟩
  refine ⟨?_, nodup_nil, by rintro _ ⟨⟩, fun q hq => absurd hq (hemb q), fun q _ hq => absurd hq (hemb q)⟩
  simp [Proc.initial, hchild]

variable [DecidableEq C] {a : Act N C} {c : C}

theorem step (h : Accounts s) (hi : CpuInv s) (hf : Family s.kpc s.slot) (hm : Moves s a t) :
    Accounts t := by
  have halive : ∀ {c p}, (s.mode c).runs = some p → (s.slot p).state.alive = true := by
    intro c p hc
    rw [hi.running hc]
    rfl
  cases hm with
  | acquire | back | release | wait => exact ⟨h.balance, h.nodup, h.past, h.embryo, h.apart⟩
  | @pick c p hc hr =>
    refine h.moveOne rfl rfl rfl rfl ⟨rfl, rfl⟩ ?_ (by rintro ⟨⟩)
    rw [hr]
    rfl
  | @tail c p hc =>
    have ha := halive (c := c) (p := p) (by rw [hc]; rfl)
    unfold stepTail
    split
    · exact ⟨h.balance, h.nodup, h.past, h.embryo, h.apart⟩
    · exact h.moveLive rfl rfl rfl rfl ha ha
    · exact h.moveLive rfl rfl rfl rfl ha ha
  | @yield c p hc _ => exact h.moveLive rfl rfl rfl rfl (halive (c := c) (by rw [hc]; rfl)) rfl
  | @sleep c p n hc _ _ => exact h.moveLive rfl rfl rfl rfl (halive (c := c) (by rw [hc]; rfl)) rfl
  | @wakeup n _ =>
    have hw : ∀ q, (s.slot q).Woke (wakeup1 s.slot (.other n) q) := fun q => Slot.wake_woke _ _
    exact h.move rfl rfl rfl (fun q => ⟨(hw q).birth, (hw q).pid⟩) (fun q => (hw q).born)
      fun q => ((hw q).state_iff .embryo (by decide) (by decide)).1
  | @kill pid _ =>
    rcases kill_cases s.slot pid with ⟨hk, _⟩ | ⟨q, hk, _⟩
    · rw [hk]
      exact h
    · refine h.moveOne (congrArg Prod.fst hk) rfl rfl rfl ⟨rfl, rfl⟩ ?_ ?_
      · by_cases hs : (s.slot q).state = .sleeping
        · simp [Slot.kill, hs, ProcState.born]
        · simp [Slot.kill, hs]
      · by_cases hs : (s.slot q).state = .sleeping
        · simp [Slot.kill, hs]
        · simp [Slot.kill, hs]
  | alloc => exact h.alloc
  | @noStack c p np hc hk =>
    refine h.moveOne rfl rfl rfl rfl ⟨rfl, rfl⟩ ?_ (by rintro ⟨⟩)
    rw [hi.forks.embryo p np (by rw [hk]; rfl)]
    rfl
  | stack => exact h.moveOne rfl rfl rfl rfl ⟨rfl, rfl⟩ rfl id
  | @noCopy c p np hc hk =>
    refine h.moveOne rfl rfl rfl rfl ⟨rfl, rfl⟩ ?_ (by rintro ⟨⟩)
    rw [hi.forks.embryo p np (by rw [hk]; rfl)]
    rfl
  | copy => exact h.moveOne rfl rfl rfl rfl ⟨rfl, rfl⟩ rfl id
  | @publish c p np hc hk _ =>
    have he := hi.forks.embryo p np (by rw [hk]; rfl)
    refine h.publish he ?_
    rintro rfl
    have ha := hf.init
    rw [he] at ha
    cases ha
  | @exit c p hc _ hk hp0 =>
    have hr := hi.running (c := c) (p := p) (by rw [hc]; rfl)
    refine h.move rfl rfl rfl ?_ ?_ ?_
    · intro q
      by_cases hq : q = p
      · subst hq
        exact ⟨exitTable_self.1, exitTable_self.2.1⟩
      · exact ⟨(exitTable_woke hq).birth, (exitTable_woke hq).pid⟩
    · intro q
      by_cases hq : q = p
      · subst hq
        simp only [sched, exitTable_self_state, hr]
        rfl
      · exact (exitTable_woke hq).born
    · intro q he
      by_cases hq : q = p
      · subst hq
        simp only [sched, exitTable_self_state] at he
        cases he
      · exact ((exitTable_woke hq).state_iff .embryo (by decide) (by decide)).1 he
  | @scanWait c p hc =>
    unfold stepWait
    split
    · rename_i q hq
      have hz := (waitScan_reap hq).2
      refine h.reap rfl rfl rfl rfl hz ?_
      rintro rfl
      have ha := hf.init
      rw [hz] at ha
      cases ha
    · exact ⟨h.balance, h.nodup, h.past, h.embryo, h.apart⟩
    · exact h.moveLive rfl rfl rfl rfl (halive (c := c) (by rw [hc]; rfl)) rfl

end Accounts

theorem family_of_reach [DecidableEq C] {ok : State N C → Act N C → Prop} {s : State N C}
    (h : (system N C).Reach ok s) : CpuInv s ∧ Family s.kpc s.slot ∧ Accounts s := by
  refine h.invariant (I := fun s => CpuInv s ∧ Family s.kpc s.slot ∧ Accounts s) ?_ ?_
  · rintro s rfl
    exact ⟨CpuInv.initial, Family.initial, Accounts.initial⟩
  · rintro s a t ⟨hi, hf, ha⟩ _ hst
    have hm := moves_of_step hst
    exact ⟨hi.step hm, hf.step hi hm, ha.step hi hf hm⟩

/-! ## Every exited child is reaped once -/

theorem Accounts.mem_table {s : State N C} {x : ℕ × ℤ} (hx : x ∈ ∑ p, Slot.child p (s.slot p)) :
    ∃ p, p ≠ 0 ∧ (s.slot p).state.born = true ∧ ((s.slot p).birth, (s.slot p).pid) = x := by
  obtain ⟨p, _, hp⟩ := Multiset.mem_sum.1 hx
  rw [Slot.child] at hp
  split at hp
  · rename_i hb
    exact ⟨p, hb.1, hb.2, (Multiset.mem_singleton.1 hp).symm⟩
  · cases hp

/-- **Every exited child can be reaped, exactly once.**  In every state reached with
`ptable.lock` free, every process other than init that is neither `UNUSED` nor
`EMBRYO` has a parent that is neither `UNUSED` nor `ZOMBIE`, and which is the process
that forked it or init; and no process is `SLEEPING` in `wait` while it has a
`ZOMBIE` child.  In every state reached, a child returned by `wait` has been returned
once, was created by `fork` and is no longer in the table, a child created by `fork`
and not yet returned is still in the table, and a `wait` about to return -1 has been
called by a process that has no children or has been killed. -/
theorem every_child_reaped_once [DecidableEq C] {s : State N C}
    (hs : (system N C).Reach (fun _ _ => True) s) :
    (s.lock = none →
      (∀ p, p ≠ 0 → (s.slot p).state ≠ .unused → (s.slot p).state ≠ .embryo →
        ∃ q, (s.slot p).parent = some q ∧ (s.slot q).state ≠ .unused ∧
          (s.slot q).state ≠ .zombie ∧ ((s.slot q).birth = (s.slot p).forker ∨ q = 0)) ∧
      (∀ p q, (s.slot p).state = .sleeping → (s.slot p).chan = some (.proc p) →
        (s.slot q).parent = some p → (s.slot q).state ≠ .zombie)) ∧
    (∀ x ∈ s.reaped, s.reaped.count x = 1 ∧ x ∈ s.forked ∧
      ∀ p, p ≠ 0 → (s.slot p).state.born = true → ((s.slot p).birth, (s.slot p).pid) ≠ x) ∧
    (∀ x ∈ s.forked, x ∈ s.reaped ∨
      ∃ p, p ≠ 0 ∧ (s.slot p).state.born = true ∧ ((s.slot p).birth, (s.slot p).pid) = x) ∧
    (∀ c p, s.mode c = .waiting p → waitScan s.slot p = .fail →
      (∀ q, (s.slot q).state ≠ .unused → (s.slot q).parent ≠ some p) ∨
        (s.slot p).killed = true) := by
  obtain ⟨_, hf, ha⟩ := family_of_reach hs
  have hnodup : (s.reaped + ∑ p, Slot.child p (s.slot p) : Multiset (ℕ × ℤ)).Nodup := by
    rw [← ha.balance]
    exact Multiset.coe_nodup.2 ha.nodup.of_map
  have hmem : ∀ x, x ∈ s.forked ↔ x ∈ s.reaped ∨ x ∈ ∑ p, Slot.child p (s.slot p) := by
    intro x
    rw [← Multiset.mem_coe, ha.balance, Multiset.mem_add, Multiset.mem_coe]
  obtain ⟨hreaped, _, hdisj⟩ := Multiset.nodup_add.1 hnodup
  refine ⟨?_, ?_, ?_, ?_⟩
  · intro _
    refine ⟨?_, fun p q hp hch hq => hf.waits p hp hch q hq⟩
    intro p hp0 hun hem
    have hborn : (s.slot p).state.born = true := by
      cases hst : (s.slot p).state <;> first | rfl | exact absurd hst hun | exact absurd hst hem
    obtain ⟨q, hq, hal, hfork⟩ := hf.parent p hp0 hborn
    refine ⟨q, hq, ?_, ?_, hfork⟩
    · intro h
      rw [h] at hal
      cases hal
    · intro h
      rw [h] at hal
      cases hal
  · intro x hx
    refine ⟨count_eq_one_of_mem (Multiset.coe_nodup.1 hreaped) hx, (hmem x).2 (.inl hx), ?_⟩
    intro p hp0 hborn hpx
    have hin : x ∈ ∑ p, Slot.child p (s.slot p) := by
      refine Multiset.mem_sum.2 ⟨p, Finset.mem_univ p, ?_⟩
      rw [Slot.child, if_pos ⟨hp0, hborn⟩, hpx]
      exact Multiset.mem_singleton_self x
    exact Multiset.disjoint_left.1 hdisj hx hin
  · intro x hx
    exact ((hmem x).1 hx).imp_right Accounts.mem_table
  · intro c p _ hw
    exact (waitScan_fail hw).imp_left fun h q _ => h q

/-- Init forks a child, which exits and is returned by init's `wait`, once. -/
theorem init_reaps_child :
    ∃ s, (system 2 Bool).Reach (fun _ _ => True) s ∧ s.lock = none ∧ s.reaped = [(1, 2)] ∧
      s.reaped.count (1, 2) = 1 ∧ (1, 2) ∈ s.forked := by
  have h₀ : (system 2 Bool).Reach (fun _ _ => True) initial := .init rfl
  obtain ⟨s, hs, hv⟩ := Lts.reach_of_exec_map
    [.acquire false, .pick false 0, .tail false, .alloc false, .stack false, .copy false,
      .publish false, .acquire true, .pick true 1, .tail true, .exit true, .back true,
      .release true, .wait false, .scanWait false]
    (fun s => (s.lock, s.reaped)) (none, [(1, 2)]) h₀ (by decide +kernel)
  simp only [Prod.mk.injEq] at hv
  have hx := (every_child_reaped_once hs).2.1 (1, 2) (by rw [hv.2]; exact mem_singleton.2 rfl)
  exact ⟨s, hs, hv.1, hv.2, hx.1, hx.2.1⟩

end Xv6.Proc
