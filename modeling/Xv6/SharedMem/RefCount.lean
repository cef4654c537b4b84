import Xv6.SharedMem.Machine

/-!
# The reference counts of shared pages

Runs of `sys_open_sharedmem` and `sys_close_sharedmem` alone.  `close` takes no
lock and does not ask whether the caller has the page open, so in general the
count goes wrong: `close_breaks_count`.  It is right in every run in which a
close is made only by a process that has the page open and does not overlap
another call on the same page, and in which `kalloc` succeeds:
`ref_count_exact`.
-/

namespace Xv6.SharedMem

open Xv6.Lib Xv6.Mem Function

variable {P : Type}

/-- The steps of the two calls. -/
def Act.isCall : Act P → Bool
  | .openCall _ _ | .closeCall _ _ | .next _ _ => true
  | _ => false

/-- When a step keeps the counts right:

* `open` starts while no `close` of the page is in progress;
* `close` starts while no other call on the page is in progress, in a process
  that has opened the page more often than it has closed it;
* `kalloc` finds a page when the count is 0;
* the count has not reached the largest `int`. -/
def Orderly (s : State P) : Act P → Prop
  | .openCall _ id => ∀ q, (s.pc q).id? = some id → (s.pc q).opens = true
  | .closeCall p id => s.closes p id < s.opens p id ∧ ∀ q, (s.pc q).id? ≠ some id
  | .next p _ =>
    match s.pc p with
    | .openAlloc _ => s.kmem.freelist ≠ []
    | .openWrite _ _ n => n < 2 ^ 31 - 1
    | _ => True
  | _ => True

/-- The test of `Orderly` at the step after `pc`. -/
def decidableNext (s : State P) : (pc : Pc) → Decidable (match pc with
      | .openAlloc _ => s.kmem.freelist ≠ []
      | .openWrite _ _ n => n < 2 ^ 31 - 1
      | _ => True)
  | .openAlloc _ => inferInstanceAs (Decidable (s.kmem.freelist ≠ []))
  | .openWrite _ _ n => inferInstanceAs (Decidable (n < 2 ^ 31 - 1))
  | .user | .openTest _ | .openMap _ _ | .openRead _ _ | .openFrame _ _ | .openDone _
  | .closeRead _ | .closeWrite _ _ | .closeTest _ | .closeFree _ => .isTrue trivial

instance [Fintype P] (s : State P) : (a : Act P) → Decidable (Orderly s a)
  | .openCall _ id =>
    inferInstanceAs (Decidable (∀ q, (s.pc q).id? = some id → (s.pc q).opens = true))
  | .closeCall p id =>
    inferInstanceAs (Decidable (s.closes p id < s.opens p id ∧ ∀ q, (s.pc q).id? ≠ some id))
  | .next p _ => decidableNext s (s.pc p)
  | .fork _ _ | .exit _ | .wait _ _ => .isTrue trivial

/-- A close is made by a process that has the page open. -/
def HasOpen (s : State P) : Act P → Prop
  | .closeCall p id => s.closes p id < s.opens p id
  | _ => True

instance (s : State P) : (a : Act P) → Decidable (HasOpen s a)
  | .closeCall p id => inferInstanceAs (Decidable (s.closes p id < s.opens p id))
  | .openCall _ _ | .next _ _ | .fork _ _ | .exit _ | .wait _ _ => .isTrue trivial

/-! ## The invariant -/

/-- No call on the page is in progress: a positive count goes with a frame that
is allocated, and each return to 0 has been answered by a `kfree`. -/
structure Settled (s : State P) (id : Id) : Prop where
  nonneg : 0 ≤ (s.pages id).refCount
  frame : 0 < (s.pages id).refCount → s.kmem.use (s.pages id).frame = some (.shared id)
  freed : s.freed id = s.zeroed id

/-- What is known while a call on the page is at the given place. -/
def Stage (s : State P) (id : Id) : Pc → Prop
  | .user => True
  | .openTest _ => Settled s id
  | .openAlloc _ => Settled s id ∧ (s.pages id).refCount = 0
  | .openMap _ (some v) | .openRead _ (some v) =>
    Settled s id ∧ (s.pages id).refCount = 0 ∧ s.kmem.use v = some (.shared id)
  | .openMap _ none | .openRead _ none => Settled s id ∧ 0 < (s.pages id).refCount
  | .openWrite _ (some v) n =>
    Settled s id ∧ (s.pages id).refCount = 0 ∧ n = 0 ∧ s.kmem.use v = some (.shared id)
  | .openWrite _ none n =>
    Settled s id ∧ 0 < (s.pages id).refCount ∧ n = (s.pages id).refCount
  | .openFrame _ v =>
    (s.pages id).refCount = 1 ∧ s.kmem.use v = some (.shared id) ∧ s.freed id = s.zeroed id
  | .openDone _ => Settled s id
  | .closeRead _ => Settled s id ∧ 0 < (s.pages id).refCount
  | .closeWrite _ n => Settled s id ∧ 0 < (s.pages id).refCount ∧ n = (s.pages id).refCount
  | .closeTest _ =>
    0 ≤ (s.pages id).refCount ∧ s.kmem.use (s.pages id).frame = some (.shared id) ∧
      s.zeroed id = if (s.pages id).refCount = 0 then (s.pages id).frame :: s.freed id
        else s.freed id
  | .closeFree _ =>
    (s.pages id).refCount = 0 ∧ s.kmem.use (s.pages id).frame = some (.shared id) ∧
      s.zeroed id = (s.pages id).frame :: s.freed id

/-- The part of the state that the counts are about. -/
structure SameShared (s t : State P) (id : Id) : Prop where
  pages : t.pages id = s.pages id
  zeroed : t.zeroed id = s.zeroed id
  freed : t.freed id = s.freed id
  /-- The frames of this page are still allocated. -/
  use : ∀ v, s.kmem.use v = some (.shared id) → t.kmem.use v = some (.shared id)

theorem Settled.same {s t : State P} {id : Id} (h : Settled s id) (hs : SameShared s t id) :
    Settled t id := by
  refine ⟨?_, ?_, ?_⟩
  · rw [hs.pages]
    exact h.nonneg
  · rw [hs.pages]
    exact fun hpos => hs.use _ (h.frame hpos)
  · rw [hs.freed, hs.zeroed]
    exact h.freed

theorem Stage.same {s t : State P} {id : Id} {v : Pc} (h : Stage s id v) (hs : SameShared s t id) :
    Stage t id v := by
  unfold Stage at h ⊢
  split
  · trivial
  · exact h.same hs
  · exact ⟨h.1.same hs, by rw [hs.pages]; exact h.2⟩
  · exact ⟨h.1.same hs, by rw [hs.pages]; exact h.2.1, hs.use _ h.2.2⟩
  · exact ⟨h.1.same hs, by rw [hs.pages]; exact h.2.1, hs.use _ h.2.2⟩
  · exact ⟨h.1.same hs, by rw [hs.pages]; exact h.2⟩
  · exact ⟨h.1.same hs, by rw [hs.pages]; exact h.2⟩
  · exact ⟨h.1.same hs, by rw [hs.pages]; exact h.2.1, h.2.2.1, hs.use _ h.2.2.2⟩
  · exact ⟨h.1.same hs, by rw [hs.pages]; exact h.2⟩
  · exact ⟨by rw [hs.pages]; exact h.1, hs.use _ h.2.1, by rw [hs.freed, hs.zeroed]; exact h.2.2⟩
  · exact h.same hs
  · exact ⟨h.1.same hs, by rw [hs.pages]; exact h.2⟩
  · exact ⟨h.1.same hs, by rw [hs.pages]; exact h.2⟩
  · rw [hs.pages, hs.zeroed, hs.freed]
    exact ⟨h.1, hs.use _ h.2.1, h.2.2⟩
  · rw [hs.pages, hs.zeroed, hs.freed]
    exact ⟨h.1, hs.use _ h.2.1, h.2.2⟩

/-- The calls in progress exclude each other on every page. -/
structure CallsInv (s : State P) : Prop where
  lock : ∀ p, (s.pc p).opens = true → s.lock = some p
  /-- At most one call on a page is in progress. -/
  one : ∀ p q id, (s.pc p).id? = some id → (s.pc q).id? = some id → p = q
  idle : ∀ id, (∀ p, (s.pc p).id? ≠ some id) → Settled s id
  /-- The pages some call is about. -/
  busy : ∀ p id, (s.pc p).id? = some id → Stage s id (s.pc p)

variable [DecidableEq P]

theorem CallsInv.move {s t : State P} {p : P} {id : Id} {v : Pc} (h : CallsInv s)
    (hpc : t.pc = update s.pc p v)
    (hp : (s.pc p).id? = some id ∨ (s.pc p).id? = none ∧ ∀ q, (s.pc q).id? ≠ some id)
    (hv : v.id? = some id ∨ v.id? = none)
    (hlock : ∀ q, (t.pc q).opens = true → t.lock = some q)
    (hsame : ∀ id', id' ≠ id → SameShared s t id')
    (hstage : v.id? = some id → Stage t id v) (hset : v.id? = none → Settled t id) :
    CallsInv t := by
  -- no other process is in a call on this page
  have hother : ∀ q, q ≠ p → (s.pc q).id? ≠ some id := by
    intro q hq hid
    rcases hp with hp | ⟨-, hnone⟩
    · exact hq (h.one q p id hid hp)
    · exact hnone q hid
  have hpid : ∀ id', id' ≠ id → (s.pc p).id? ≠ some id' := by
    intro id' hid' hsome
    rcases hp with hp | ⟨hp, -⟩
    · rw [hp] at hsome
      exact hid' (Option.some.inj hsome).symm
    · rw [hp] at hsome
      cases hsome
  have hvid : ∀ id', v.id? = some id' → id' = id := by
    intro id' hsome
    rcases hv with hv | hv <;> rw [hv] at hsome
    · exact (Option.some.inj hsome).symm
    · cases hsome
  refine ⟨hlock, ?_, ?_, ?_⟩
  · intro q r id' hq hr
    rw [hpc] at hq hr
    by_cases hqp : q = p <;> by_cases hrp : r = p
    · rw [hqp, hrp]
    · subst hqp
      rw [update_self] at hq
      rw [update_of_ne hrp] at hr
      exact absurd (hvid id' hq ▸ hr) (hother r hrp)
    · subst hrp
      rw [update_of_ne hqp] at hq
      rw [update_self] at hr
      exact absurd (hvid id' hr ▸ hq) (hother q hqp)
    · rw [update_of_ne hqp] at hq
      rw [update_of_ne hrp] at hr
      exact h.one q r id' hq hr
  · intro id' hnone
    rw [hpc] at hnone
    by_cases hid : id' = id
    · subst hid
      have hvn := hnone p
      rw [update_self] at hvn
      exact hset (hv.resolve_left hvn)
    · refine (h.idle id' ?_).same (hsame id' hid)
      intro q
      by_cases hqp : q = p
      · rw [hqp]
        exact hpid id' hid
      · have hq := hnone q
        rwa [update_of_ne hqp] at hq
  · intro q id' hq
    rw [hpc] at hq ⊢
    by_cases hqp : q = p
    · subst hqp
      rw [update_self] at hq ⊢
      have hid := hvid id' hq
      subst hid
      exact hstage hq
    · rw [update_of_ne hqp] at hq ⊢
      have hid : id' ≠ id := fun heq => hother q hqp (heq ▸ hq)
      exact (h.busy q id' hq).same (hsame id' hid)

theorem CallsInv.lock_goto {s : State P} {p : P} {v : Pc} (h : CallsInv s)
    (hv : v.opens = true → (s.pc p).opens = true) :
    ∀ q, (update s.pc p v q).opens = true → s.lock = some q := by
  intro q hq
  by_cases hqp : q = p
  · subst hqp
    rw [update_self] at hq
    exact h.lock q (hv hq)
  · rw [update_of_ne hqp] at hq
    exact h.lock q hq

/-- **The invariant of the counts.** -/
structure CountInv [Fintype P] (L : Layout) (s : State P) : Prop extends CallsInv s where
  kmem : s.kmem.Ok L
  /-- The count is the number of opens less the number of closes. -/
  count : ∀ id, (s.pages id).refCount = ∑ p, (s.opens p id : ℤ) - ∑ p, (s.closes p id : ℤ)
  bound : ∀ id, (s.pages id).refCount < 2 ^ 31
  /-- No process has closed a page more often than it has opened it. -/
  closes_le : ∀ p id, s.closes p id ≤ s.opens p id
  /-- A process about to count itself out has the page open. -/
  pending : ∀ p id, (s.pc p = .closeRead id ∨ ∃ n, s.pc p = .closeWrite id n) →
    s.closes p id < s.opens p id
  fault : s.fault ≠ some .doubleFree

omit [DecidableEq P] in
theorem countInv_initial [Fintype P] {L : Layout} {s : State P} (h : Initial L s) :
    CountInv L s := by
  have hid : ∀ p, (s.pc p).id? = none := fun p => by rw [h.pc]; rfl
  refine ⟨⟨?_, ?_, ?_, ?_⟩, h.kmem, ?_, ?_, ?_, ?_, ?_⟩
  · intro p hp
    rw [h.pc] at hp
    cases hp
  · intro p q id hp
    rw [hid] at hp
    cases hp
  · intro id _
    refine ⟨?_, ?_, ?_⟩
    · simp [h.pages]
    · simp [h.pages]
    · rw [h.freed, h.zeroed]
  · intro p id hp
    rw [hid] at hp
    cases hp
  · intro id
    simp [h.pages, h.opens, h.closes]
  · intro id
    simp [h.pages]
  · intro p id
    simp [h.opens, h.closes]
  · intro p id hp
    rw [h.pc] at hp
    rcases hp with hp | ⟨n, hp⟩ <;> cases hp
  · simp [h.fault]

section Steps

variable [Fintype P] {L : Layout} {s t : State P} {p : P} {id : Id} {v : Pc}

omit [DecidableEq P] in
theorem CountInv.stop (h : CountInv L s) {f : Fault} (hf : f ≠ .doubleFree) :
    CountInv L (s.stop f) :=
  ⟨⟨h.lock, h.one, fun id' hid' => ⟨(h.idle id' hid').nonneg, (h.idle id' hid').frame,
      (h.idle id' hid').freed⟩, fun q id' hq => (h.busy q id' hq).same ⟨rfl, rfl, rfl, fun _ hw => hw⟩⟩,
    h.kmem, h.count, h.bound, h.closes_le, h.pending, by simpa [State.stop] using hf⟩

theorem CountInv.pending_goto (h : CountInv L s) (hv : ∀ id', v = .closeRead id' ∨
    (∃ n, v = .closeWrite id' n) → s.closes p id' < s.opens p id') :
    ∀ q id', (update s.pc p v q = .closeRead id' ∨
      ∃ n, update s.pc p v q = .closeWrite id' n) → s.closes q id' < s.opens q id' := by
  intro q id' hq
  by_cases hqp : q = p
  · subst hqp
    simp only [update_self] at hq
    exact hv id' hq
  · simp only [update_of_ne hqp] at hq
    exact h.pending q id' hq

theorem CountInv.quiet {i : Id} (h : CountInv L s) (hpc : t.pc = update s.pc p v)
    (hp : (s.pc p).id? = some i ∨ (s.pc p).id? = none ∧ ∀ q, (s.pc q).id? ≠ some i)
    (hv : v.id? = some i ∨ v.id? = none)
    (hlock : ∀ q, (t.pc q).opens = true → t.lock = some q)
    (hpages : t.pages = s.pages) (hopens : t.opens = s.opens) (hcloses : t.closes = s.closes)
    (hzeroed : t.zeroed = s.zeroed) (hfreed : t.freed = s.freed) (hkmem : t.kmem.Ok L)
    (huse : ∀ w id', s.kmem.use w = some (.shared id') → t.kmem.use w = some (.shared id'))
    (hfault : t.fault = s.fault)
    (hpend : ∀ id', v = .closeRead id' ∨ (∃ n, v = .closeWrite id' n) →
      s.closes p id' < s.opens p id')
    (hstage : SameShared s t i → v.id? = some i → Stage t i v)
    (hset : v.id? = none → Settled s i) : CountInv L t := by
  have hsame : ∀ id', SameShared s t id' := fun id' =>
    ⟨by rw [hpages], by rw [hzeroed], by rw [hfreed], fun w hw => huse w _ hw⟩
  refine ⟨h.toCallsInv.move hpc hp hv hlock (fun id' _ => hsame id')
    (hstage (hsame i)) (fun hid => (hset hid).same (hsame i)),
    hkmem, ?_, ?_, ?_, ?_, ?_⟩
  · rw [hpages, hopens, hcloses]
    exact h.count
  · rw [hpages]
    exact h.bound
  · rw [hopens, hcloses]
    exact h.closes_le
  · rw [hpc, hopens, hcloses]
    exact h.pending_goto hpend
  · rw [hfault]
    exact h.fault

variable {n : ℤ} {pr : Proc P}

theorem incr_eq (h₀ : 0 ≤ n) (h : n < 2 ^ 31 - 1) : incr n = n + 1 := by
  rw [incr, Int.bmod_eq_of_le] <;> omega

theorem decr_eq (h₀ : 0 < n) (h : n < 2 ^ 31) : decr n = n - 1 := by
  rw [decr, Int.bmod_eq_of_le] <;> omega

omit [DecidableEq P] in
theorem CountInv.refCount_pos (h : CountInv L s) (hlt : s.closes p id < s.opens p id) :
    0 < (s.pages id).refCount := by
  have hsum : ∑ q, (s.closes q id : ℤ) < ∑ q, (s.opens q id : ℤ) := by
    refine Finset.sum_lt_sum (fun q _ => ?_) ⟨p, Finset.mem_univ p, ?_⟩
    · exact_mod_cast h.closes_le q id
    · exact_mod_cast hlt
  have hcount := h.count id
  omega

theorem CountInv.openCall (h : CountInv L s) (hp : s.pc p = .user) (hl : s.lock = none)
    (hok : Orderly s (.openCall p id)) :
    CountInv L { s.goto p (.openTest id) with lock := some p } := by
  have hno : ∀ q, (s.pc q).opens ≠ true := by
    intro q hq
    have hlock := h.lock q hq
    rw [hl] at hlock
    cases hlock
  have hnone : ∀ q, (s.pc q).id? ≠ some id := fun q hq => hno q (hok q hq)
  refine h.quiet (p := p) (i := id) rfl (Or.inr ⟨by rw [hp]; rfl, hnone⟩) (Or.inl rfl) ?_ rfl rfl rfl
    rfl rfl h.kmem (fun _ _ hw => hw) rfl ?_ (fun hs _ => (h.idle id hnone).same hs) (by simp [Pc.id?])
  · intro q hq
    by_cases hqp : q = p
    · rw [hqp]
    · simp only [State.goto, update_of_ne hqp] at hq
      exact absurd hq (hno q)
  · rintro id' (h' | ⟨n, h'⟩) <;> cases h'

theorem CountInv.closeCall (h : CountInv L s) (hp : s.pc p = .user)
    (hok : Orderly s (.closeCall p id)) : CountInv L (s.goto p (.closeRead id)) := by
  refine h.quiet (p := p) (i := id) rfl (Or.inr ⟨by rw [hp]; rfl, hok.2⟩) (Or.inl rfl)
    (h.lock_goto (by simp [Pc.opens])) rfl rfl rfl rfl rfl h.kmem (fun _ _ hw => hw) rfl ?_
    (fun hs _ => ⟨(h.idle id hok.2).same hs, h.refCount_pos hok.1⟩) (by simp [Pc.id?])
  rintro id' (h' | ⟨n, h'⟩) <;> cases h'
  exact hok.1

theorem CountInv.openAlloc (h : CountInv L s) (hp : s.pc p = .openAlloc id)
    (hfree : s.kmem.freelist ≠ []) : CountInv L (SharedMem.openAlloc s p pr id) := by
  have hst := h.busy p id (by rw [hp]; rfl)
  rw [hp] at hst
  unfold SharedMem.openAlloc
  split
  · rename_i w k hk
    obtain ⟨hlist, huse⟩ := kalloc_eq_some hk
    have hnone : s.kmem.use w = none := h.kmem.unused w (by simp [hlist])
    have hkeep : ∀ w' u, s.kmem.use w' = some u → k.use w' = some u := by
      intro w' u hw'
      have hne : w' ≠ w := by
        rintro rfl
        rw [hnone] at hw'
        cases hw'
      rw [huse, update_of_ne hne, hw']
    refine h.quiet (p := p) (i := id) rfl (Or.inl (by rw [hp]; rfl)) (Or.inl rfl)
      (h.lock_goto (by simp [hp, Pc.opens])) rfl rfl rfl rfl rfl ((h.kmem.kalloc hk).memset w 0)
      (fun w' _ hw' => hkeep w' _ hw') rfl ?_ ?_ (by simp [Pc.id?])
    · rintro id' (h' | ⟨n, h'⟩) <;> cases h'
    · intro hs _
      exact ⟨hst.1.same hs, hst.2, by simp [huse]⟩
  · rename_i hk
    unfold kalloc at hk
    split at hk
    · contradiction
    · cases hk

theorem CountInv.openMap (h : CountInv L s) {new : Option Page} {va : Page}
    (hp : s.pc p = .openMap id new) : CountInv L (SharedMem.openMap s p pr id new va) := by
  have hst := h.busy p id (by rw [hp]; rfl)
  rw [hp] at hst
  unfold SharedMem.openMap
  split
  · rename_i f hf
    have hremap := mappages_error hf
    exact h.stop (by simp [hremap])
  · rename_i b k pd hmap
    obtain ⟨U, hg⟩ := mappages_page_grown hmap
    refine h.quiet (p := p) (i := id) rfl (Or.inl (by rw [hp]; rfl)) (Or.inl rfl)
      (h.lock_goto (by simp [hp, Pc.opens])) rfl rfl rfl rfl rfl (hg.ok h.kmem)
      (fun _ _ hw => hg.use_of_some h.kmem hw) rfl ?_ ?_ (by simp [Pc.id?])
    · rintro id' (h' | ⟨n, h'⟩) <;> cases h'
    · intro hs _
      cases new with
      | none => exact Stage.same (v := .openRead id none) hst hs
      | some w => exact Stage.same (v := .openRead id (some w)) hst hs

theorem CountInv.goto {i : Id} (h : CountInv L s) (hp : (s.pc p).id? = some i)
    (hv : v.id? = some i ∨ v.id? = none) (hopens : v.opens = true → (s.pc p).opens = true)
    (hpend : ∀ id', v = .closeRead id' ∨ (∃ n, v = .closeWrite id' n) →
      s.closes p id' < s.opens p id')
    (hstage : v.id? = some i → Stage s i v) (hset : v.id? = none → Settled s i) :
    CountInv L (s.goto p v) :=
  h.quiet (p := p) (i := i) rfl (Or.inl hp) hv (h.lock_goto hopens) rfl rfl rfl rfl rfl h.kmem
    (fun _ _ hw => hw) rfl hpend (fun hs hid => (hstage hid).same hs) hset

theorem sum_count_update (f : P → Id → ℕ) (p : P) (id id' : Id) :
    ∑ q, (update f p (update (f p) id (f p id + 1)) q id' : ℤ)
      = ∑ q, (f q id' : ℤ) + if id' = id then 1 else 0 := by
  have hsum := sum_update_add (fun (_ : P) (x : Id → ℕ) => ((x id' : ℕ) : ℤ)) f p
    (update (f p) id (f p id + 1))
  by_cases hid : id' = id
  · subst hid
    rw [update_self] at hsum
    rw [if_pos rfl]
    push_cast at hsum
    linarith
  · rw [update_of_ne hid] at hsum
    rw [if_neg hid]
    linarith

omit [Fintype P] in
theorem le_count_update (f : P → Id → ℕ) (p : P) (id : Id) (q : P) (id' : Id) :
    f q id' ≤ update f p (update (f p) id (f p id + 1)) q id' := by
  by_cases hqp : q = p
  · subst hqp
    rw [update_self]
    by_cases hid : id' = id
    · subst hid
      rw [update_self]
      omega
    · rw [update_of_ne hid]
  · rw [update_of_ne hqp]

omit [Fintype P] in
theorem count_update_le {f g : P → Id → ℕ} (h : ∀ q id', f q id' ≤ g q id')
    (hlt : f p id < g p id) (q : P) (id' : Id) :
    update f p (update (f p) id (f p id + 1)) q id' ≤ g q id' := by
  by_cases hqp : q = p
  · subst hqp
    rw [update_self]
    by_cases hid : id' = id
    · subst hid
      rwa [update_self]
    · rw [update_of_ne hid]
      exact h q id'
  · rw [update_of_ne hqp]
    exact h q id'

theorem CountInv.openWrite (h : CountInv L s) {new : Option Page}
    (hp : s.pc p = .openWrite id new n) (hn : n < 2 ^ 31 - 1) :
    CountInv L (SharedMem.openWrite s p id new n) := by
  have hst := h.busy p id (by rw [hp]; rfl)
  rw [hp] at hst
  -- the count has not changed since it was read
  have hread : n = (s.pages id).refCount ∧ Settled s id := by
    cases new with
    | none => exact ⟨hst.2.2, hst.1⟩
    | some w => exact ⟨by rw [hst.2.1, hst.2.2.1], hst.1⟩
  have hn0 : 0 ≤ n := hread.1 ▸ hread.2.nonneg
  have hincr := incr_eq hn0 hn
  have hother : ∀ id', id' ≠ id → SameShared s (SharedMem.openWrite s p id new n) id' := by
    intro id' hid
    exact ⟨update_of_ne hid _ _, rfl, rfl, fun _ hw => hw⟩
  have hpage : (SharedMem.openWrite s p id new n).pages id
      = { s.pages id with refCount := n + 1 } := by
    rw [← hincr]
    exact update_self _ _ _
  refine ⟨h.toCallsInv.move rfl (Or.inl (by rw [hp]; rfl)) (Or.inl ?_) ?_ hother ?_ ?_, h.kmem,
    ?_, ?_, ?_, ?_, h.fault⟩
  · cases new <;> rfl
  · exact h.lock_goto (by simp [hp, Pc.opens])
  · intro _
    cases new with
    | none =>
      refine ⟨?_, ?_, ?_⟩
      · rw [hpage]
        dsimp only
        omega
      · rw [hpage]
        exact fun _ => hst.1.frame hst.2.1
      · exact hst.1.freed
    | some w =>
      refine ⟨?_, hst.2.2.2, hst.1.freed⟩
      rw [hpage, hst.2.2.1]
      rfl
  · intro hid
    cases new <;> cases hid
  · intro id'
    have hsum := sum_count_update s.opens p id id'
    have hcount := h.count id'
    show (update s.pages id _ id').refCount = _ - ∑ q, (s.closes q id' : ℤ)
    rw [show ∑ q, ((SharedMem.openWrite s p id new n).opens q id' : ℤ) = _ from hsum]
    by_cases hid : id' = id
    · subst hid
      rw [update_self, if_pos rfl]
      dsimp only
      omega
    · rw [update_of_ne hid, if_neg hid]
      omega
  · intro id'
    by_cases hid : id' = id
    · subst hid
      rw [hpage]
      dsimp only
      omega
    · rw [(hother id' hid).pages]
      exact h.bound id'
  · intro q id'
    exact (h.closes_le q id').trans (le_count_update s.opens p id q id')
  · intro q id' hq
    refine (h.pending_goto (p := p) ?_ q id' hq).trans_le (le_count_update s.opens p id q id')
    intro id'' h'
    cases new <;> rcases h' with h' | ⟨n, h'⟩ <;> cases h'

theorem CountInv.openFrame (h : CountInv L s) {w : Page} (hp : s.pc p = .openFrame id w) :
    CountInv L { s.goto p (.openDone id) with
      pages := update s.pages id { s.pages id with frame := w } } := by
  have hst := h.busy p id (by rw [hp]; rfl)
  rw [hp] at hst
  have hcount : ∀ id', (update s.pages id { s.pages id with frame := w } id').refCount
      = (s.pages id').refCount := by
    intro id'
    by_cases hid : id' = id
    · subst hid
      rw [update_self]
    · rw [update_of_ne hid]
  refine ⟨h.toCallsInv.move rfl (Or.inl (by rw [hp]; rfl)) (Or.inl rfl) ?_ ?_ ?_ ?_, h.kmem,
    ?_, ?_, h.closes_le, ?_, h.fault⟩
  · exact h.lock_goto (by simp [hp, Pc.opens])
  · intro id' hid
    exact ⟨update_of_ne hid _ _, rfl, rfl, fun _ hw => hw⟩
  · intro _
    refine ⟨?_, ?_, hst.2.2⟩
    · dsimp only
      rw [hcount, hst.1]
      decide
    · intro _
      show s.kmem.use (update s.pages id _ id).frame = _
      rw [update_self]
      exact hst.2.1
  · intro hid
    cases hid
  · intro id'
    dsimp only
    rw [hcount]
    exact h.count id'
  · intro id'
    dsimp only
    rw [hcount]
    exact h.bound id'
  · refine h.pending_goto ?_
    rintro id' (h' | ⟨n, h'⟩) <;> cases h'

theorem CountInv.closeWrite (h : CountInv L s) (hp : s.pc p = .closeWrite id n) :
    CountInv L (SharedMem.closeWrite s p id n) := by
  have hst := h.busy p id (by rw [hp]; rfl)
  rw [hp] at hst
  obtain ⟨hset, hpos, hn⟩ := hst
  have hlt := h.pending p id (Or.inr ⟨n, hp⟩)
  have hdecr := decr_eq (hn ▸ hpos) (hn ▸ h.bound id)
  have hother : ∀ id', id' ≠ id → SameShared s (SharedMem.closeWrite s p id n) id' := by
    intro id' hid
    refine ⟨update_of_ne hid _ _, ?_, rfl, fun _ hw => hw⟩
    show (if decr n = 0 then update s.zeroed id _ else s.zeroed) id' = s.zeroed id'
    by_cases hz : decr n = 0
    · rw [if_pos hz, update_of_ne hid]
    · rw [if_neg hz]
  have hpage : (SharedMem.closeWrite s p id n).pages id
      = { s.pages id with refCount := n - 1 } := by
    rw [← hdecr]
    exact update_self _ _ _
  refine ⟨h.toCallsInv.move rfl (Or.inl (by rw [hp]; rfl)) (Or.inl rfl) ?_ hother ?_ ?_, h.kmem,
    ?_, ?_, ?_, ?_, h.fault⟩
  · exact h.lock_goto (by simp [Pc.opens])
  · intro _
    refine ⟨?_, ?_, ?_⟩
    · rw [hpage]
      dsimp only
      omega
    · rw [hpage]
      exact hset.frame hpos
    · rw [hpage]
      show (if decr n = 0 then update s.zeroed id _ else s.zeroed) id
        = if n - 1 = 0 then (s.pages id).frame :: s.freed id else s.freed id
      rw [hdecr, hset.freed]
      by_cases hz : n - 1 = 0
      · rw [if_pos hz, if_pos hz, update_self]
      · rw [if_neg hz, if_neg hz]
  · intro hid
    cases hid
  · intro id'
    have hsum := sum_count_update s.closes p id id'
    have hcount := h.count id'
    show (update s.pages id _ id').refCount = ∑ q, (s.opens q id' : ℤ) - _
    rw [show ∑ q, ((SharedMem.closeWrite s p id n).closes q id' : ℤ) = _ from hsum]
    by_cases hid : id' = id
    · subst hid
      rw [update_self, if_pos rfl]
      dsimp only
      omega
    · rw [update_of_ne hid, if_neg hid]
      omega
  · intro id'
    by_cases hid : id' = id
    · subst hid
      have hb := h.bound id'
      rw [hpage]
      dsimp only
      omega
    · rw [(hother id' hid).pages]
      exact h.bound id'
  · exact count_update_le h.closes_le hlt
  · intro q id' hq
    -- only this process counted itself out, and it is past the store now
    have hqp : q ≠ p := by
      rintro rfl
      rcases hq with hq | ⟨m, hq⟩ <;> simp [SharedMem.closeWrite, State.goto] at hq
    have hq' := h.pending_goto (v := .closeTest id) (by
      rintro id'' (h' | ⟨m, h'⟩) <;> cases h') q id' hq
    show update s.closes p _ q id' < s.opens q id'
    rwa [update_of_ne hqp]

theorem CountInv.closeFree (h : CountInv L s) (hp : s.pc p = .closeFree id) :
    CountInv L (SharedMem.closeFree L s p id) := by
  have hst := h.busy p id (by rw [hp]; rfl)
  rw [hp] at hst
  obtain ⟨hzero, huse, hz⟩ := hst
  unfold SharedMem.closeFree
  split
  · rename_i f hf
    have hkf := kfree_error (h.kmem.notMem_of_use huse) hf
    exact h.stop (by simp [hkf])
  · rename_i k hk
    have hrel := kfree_released hk
    refine ⟨h.toCallsInv.move rfl (Or.inl (by rw [hp]; rfl)) (Or.inr rfl) ?_ ?_ ?_ ?_,
      h.kmem.kfree hk, h.count, h.bound, h.closes_le, ?_, h.fault⟩
    · exact h.lock_goto (by simp [Pc.opens])
    · intro id' hid
      refine ⟨rfl, rfl, update_of_ne hid _ _, ?_⟩
      intro w hw
      have hne : w ≠ (s.pages id).frame := by
        rintro rfl
        rw [huse] at hw
        simp only [Option.some.injEq, Use.shared.injEq] at hw
        exact hid (Fin.ext hw.symm)
      rw [hrel.use, if_neg (by simpa using hne), hw]
    · intro hid
      cases hid
    · intro _
      refine ⟨?_, ?_, ?_⟩
      · exact hzero.ge
      · intro hpos
        exact absurd hzero (ne_of_gt hpos)
      · show update s.freed id _ id = s.zeroed id
        rw [update_self, hz]
    · refine h.pending_goto ?_
      rintro id' (h' | ⟨n, h'⟩) <;> cases h'

theorem CountInv.next (h : CountInv L s) {va : Page} (hst : SharedMem.next L s p pr va = some t)
    (hok : Orderly s (.next p va)) : CountInv L t := by
  have hbusy := h.busy p
  unfold Orderly at hok
  unfold SharedMem.next at hst
  cases hp : s.pc p with
  | user => simp [hp] at hst
  | openTest id =>
    simp only [hp, Option.some.injEq] at hst hok hbusy
    subst hst
    have hset := hbusy id rfl
    by_cases hz : (s.pages id).refCount = 0
    · rw [if_pos hz]
      refine h.goto (i := id) (by rw [hp]; rfl) (Or.inl rfl) (by simp [hp, Pc.opens]) ?_
        (fun _ => ⟨hset, hz⟩) (by simp [Pc.id?])
      rintro id' (h' | ⟨n, h'⟩) <;> cases h'
    · rw [if_neg hz]
      have hpos : 0 < (s.pages id).refCount := lt_of_le_of_ne hset.nonneg (Ne.symm hz)
      refine h.goto (i := id) (by rw [hp]; rfl) (Or.inl rfl) (by simp [hp, Pc.opens]) ?_
        (fun _ => ⟨hset, hpos⟩) (by simp [Pc.id?])
      rintro id' (h' | ⟨n, h'⟩) <;> cases h'
  | openAlloc id =>
    simp only [hp, Option.some.injEq] at hst hok
    subst hst
    exact h.openAlloc hp hok
  | openMap id new =>
    simp only [hp, Option.some.injEq] at hst
    subst hst
    exact h.openMap hp
  | openRead id new =>
    simp only [hp, Option.some.injEq] at hst hbusy
    subst hst
    have hstage := hbusy id rfl
    refine h.goto (i := id) (by rw [hp]; rfl) (Or.inl rfl) (by simp [hp, Pc.opens]) ?_ ?_
      (by simp [Pc.id?])
    · rintro id' (h' | ⟨n, h'⟩) <;> cases h'
    · intro _
      cases new with
      | none => exact ⟨hstage.1, hstage.2, rfl⟩
      | some w => exact ⟨hstage.1, hstage.2.1, hstage.2.1, hstage.2.2⟩
  | openWrite id new n =>
    simp only [hp, Option.some.injEq] at hst hok
    subst hst
    exact h.openWrite hp hok
  | openFrame id w =>
    simp only [hp, Option.some.injEq] at hst
    subst hst
    exact h.openFrame hp
  | openDone id =>
    simp only [hp, Option.some.injEq] at hst hbusy
    subst hst
    have hset := hbusy id rfl
    have honly : ∀ q, (s.pc q).opens = true → q = p := by
      intro q hq
      have hq' := (h.lock q hq).symm.trans (h.lock p (by simp [hp, Pc.opens]))
      exact Option.some.inj hq'
    refine h.quiet (p := p) (i := id) rfl (Or.inl (by rw [hp]; rfl)) (Or.inr rfl) ?_ rfl rfl rfl
      rfl rfl h.kmem (fun _ _ hw => hw) rfl ?_ (by simp [Pc.id?]) (fun _ => hset)
    · intro q hq
      by_cases hqp : q = p
      · subst hqp
        simp [State.goto, Pc.opens] at hq
      · simp only [State.goto, update_of_ne hqp] at hq
        exact absurd (honly q hq) hqp
    · rintro id' (h' | ⟨n, h'⟩) <;> cases h'
  | closeRead id =>
    simp only [hp, Option.some.injEq] at hst hbusy
    subst hst
    have hstage := hbusy id rfl
    refine h.goto (i := id) (by rw [hp]; rfl) (Or.inl rfl) (by simp [Pc.opens]) ?_
      (fun _ => ⟨hstage.1, hstage.2, rfl⟩) (by simp [Pc.id?])
    rintro id' (h' | ⟨n, h'⟩) <;> cases h'
    exact h.pending p id (Or.inl hp)
  | closeWrite id n =>
    simp only [hp, Option.some.injEq] at hst
    subst hst
    exact h.closeWrite hp
  | closeTest id =>
    simp only [hp, Option.some.injEq] at hst hbusy
    subst hst
    obtain ⟨hnonneg, huse, hzeroed⟩ := hbusy id rfl
    by_cases hz : (s.pages id).refCount = 0
    · rw [if_pos hz] at hzeroed ⊢
      refine h.goto (i := id) (by rw [hp]; rfl) (Or.inl rfl) (by simp [Pc.opens]) ?_
        (fun _ => ⟨hz, huse, hzeroed⟩) (by simp [Pc.id?])
      rintro id' (h' | ⟨n, h'⟩) <;> cases h'
    · rw [if_neg hz] at hzeroed ⊢
      refine h.goto (i := id) (by rw [hp]; rfl) (Or.inr rfl) (by simp [Pc.opens]) ?_
        (by simp [Pc.id?]) (fun _ => ⟨hnonneg, fun _ => huse, hzeroed.symm⟩)
      rintro id' (h' | ⟨n, h'⟩) <;> cases h'
  | closeFree id =>
    simp only [hp, Option.some.injEq] at hst
    subst hst
    exact h.closeFree hp

theorem CountInv.step {initproc : P} {a : Act P} (h : CountInv L s) (hcall : a.isCall = true)
    (hok : Orderly s a) (hst : SharedMem.step L initproc s a = some t) : CountInv L t := by
  obtain ⟨-, hm⟩ := moves_of_step hst
  cases hm with
  | openCall hp hl => exact h.openCall hp hl hok
  | closeCall hp => exact h.closeCall hp hok
  | next _ hn => exact h.next hn hok
  | _ => cases hcall

end Steps

/-! ## The counts -/

omit [DecidableEq P] in
theorem CountInv.phase [Fintype P] {L : Layout} {s : State P} (h : CountInv L s) (id : Id) :
    Settled s id ∨
      (∃ p v, s.pc p = .openFrame id v ∧ (s.pages id).refCount = 1 ∧
        s.kmem.use v = some (.shared id) ∧ s.freed id = s.zeroed id) ∨
      ∃ p, (s.pc p = .closeTest id ∨ s.pc p = .closeFree id) ∧ 0 ≤ (s.pages id).refCount ∧
        s.kmem.use (s.pages id).frame = some (.shared id) ∧
        s.zeroed id = if (s.pages id).refCount = 0 then (s.pages id).frame :: s.freed id
          else s.freed id := by
  by_cases hbusy : ∃ p, (s.pc p).id? = some id
  · obtain ⟨p, hp⟩ := hbusy
    have hst := h.busy p id hp
    cases hpc : s.pc p with
    | user => simp [hpc, Pc.id?] at hp
    | openFrame id' v =>
      simp only [hpc, Pc.id?, Option.some.injEq] at hp
      rw [hpc] at hst
      exact .inr (Or.inl ⟨p, v, hp ▸ hpc, hst⟩)
    | closeTest id' =>
      simp only [hpc, Pc.id?, Option.some.injEq] at hp
      rw [hpc] at hst
      exact .inr (Or.inr ⟨p, Or.inl (hp ▸ hpc), hst⟩)
    | closeFree id' =>
      simp only [hpc, Pc.id?, Option.some.injEq] at hp
      rw [hpc] at hst
      exact .inr (Or.inr ⟨p, Or.inr (hp ▸ hpc), hst.1.ge, hst.2.1, by rw [if_pos hst.1, hst.2.2]⟩)
    | openTest id' =>
      rw [hpc] at hst
      exact .inl hst
    | openDone id' =>
      rw [hpc] at hst
      exact .inl hst
    | openMap id' new =>
      rw [hpc] at hst
      cases new <;> exact .inl hst.1
    | openRead id' new =>
      rw [hpc] at hst
      cases new <;> exact .inl hst.1
    | openWrite id' new n =>
      rw [hpc] at hst
      cases new <;> exact .inl hst.1
    | _ =>
      rw [hpc] at hst
      exact .inl hst.1
  · exact .inl (h.idle id fun p hp => hbusy ⟨p, hp⟩)

/-- **When the counts are right.**  In every run of the two calls whose steps meet
the condition `Orderly`, in every state reached:

* the count is the number of opens less the number of closes, and not negative;
* when it is positive, `frame` is a page allocated for this id (or the `open`
  that has just counted itself in is about to store such a page there);
* the frames passed to `kfree` are those at the moments the count returned to 0,
  each once, but for the one a `close` in progress is about to free. -/
theorem ref_count_exact [Fintype P] {L : Layout} {initproc : P} {s : State P}
    (h : (system L initproc).Reach (fun s a => a.isCall = true ∧ Orderly s a) s) (id : Id) :
    (s.pages id).refCount = ∑ p, (s.opens p id : ℤ) - ∑ p, (s.closes p id : ℤ) ∧
      0 ≤ (s.pages id).refCount ∧
      (0 < (s.pages id).refCount →
        ∃ v, s.kmem.use v = some (.shared id) ∧ v ∉ s.kmem.freelist ∧
          (v = (s.pages id).frame ∨ ∃ p, s.pc p = .openFrame id v)) ∧
      (s.zeroed id = s.freed id ∨
        s.zeroed id = (s.pages id).frame :: s.freed id ∧ (s.pages id).refCount = 0 ∧
          ∃ p, s.pc p = .closeTest id ∨ s.pc p = .closeFree id) ∧
      s.fault ≠ some .doubleFree := by
  have hinv : CountInv L s := by
    refine Lts.Reach.invariant ?_ ?_ h
    · exact fun s hs => countInv_initial hs
    · exact fun s a t hs hok hst => hs.step hok.1 hok.2 hst
  refine ⟨hinv.count id, ?_⟩
  rcases hinv.phase id with hset | ⟨p, v, hp, hone, huse, hfreed⟩ | ⟨p, hp, hnonneg, huse, hz⟩
  · exact ⟨hset.nonneg, fun hpos => ⟨_, hset.frame hpos,
      hinv.kmem.notMem_of_use (hset.frame hpos), Or.inl rfl⟩, Or.inl hset.freed.symm, hinv.fault⟩
  · exact ⟨by omega, fun _ => ⟨v, huse, hinv.kmem.notMem_of_use huse, Or.inr ⟨p, hp⟩⟩,
      Or.inl hfreed.symm, hinv.fault⟩
  · refine ⟨hnonneg, fun _ => ⟨_, huse, hinv.kmem.notMem_of_use huse, Or.inl rfl⟩, ?_, hinv.fault⟩
    by_cases hzero : (s.pages id).refCount = 0
    · rw [if_pos hzero] at hz
      exact .inr ⟨hz, hzero, p, hp⟩
    · rw [if_neg hzero] at hz
      exact .inl hz

/-- A process opens page 0, closes it and finds the count back at 0. -/
theorem ref_count_exact_single :
    ∃ s, (system smallLayout (0 : Fin 2)).Reach (fun s a => a.isCall = true ∧ Orderly s a) s ∧
      s.freed 0 = [0x80400] ∧ 0 ≤ (s.pages 0).refCount ∧ s.fault ≠ some .doubleFree := by
  have h₀ : (system smallLayout (0 : Fin 2)).Reach (fun s a => a.isCall = true ∧ Orderly s a) twoProcs :=
    .init initial_twoProcs
  obtain ⟨s, hs, hv⟩ := Lts.reach_of_exec_map
    (.openCall 0 0 :: List.replicate 7 (.next 0 1) ++ .closeCall 0 0 :: List.replicate 4 (.next 0 1))
    (fun s => s.freed 0) [0x80400] h₀ (by decide +kernel)
  obtain ⟨-, hnonneg, -, -, hfault⟩ := ref_count_exact hs 0
  exact ⟨s, hs, hv, hnonneg, hfault⟩

/-- **The counts go wrong.**  A process that never opened page 0 closes it, and the
count is negative.  And when both processes have it open and close it at the same
time, both find the count at 0 after their decrement, and its frame is freed
twice. -/
theorem close_breaks_count :
    (∃ s, (system smallLayout (0 : Fin 2)).Reach (fun _ a => a.isCall = true) s ∧
      (s.pages 0).refCount = -1) ∧
    ∃ s, (system smallLayout (0 : Fin 2)).Reach (fun s a => a.isCall = true ∧ HasOpen s a) s ∧
      s.fault = some .doubleFree := by
  refine ⟨?_, ?_⟩
  · have h₀ : (system smallLayout (0 : Fin 2)).Reach (fun _ a => a.isCall = true) twoProcs :=
      .init initial_twoProcs
    exact Lts.reach_of_exec_map [.closeCall 0 0, .next 0 0, .next 0 0]
      (fun s => (s.pages 0).refCount) (-1) h₀ (by decide +kernel)
  · have h₀ : (system smallLayout (0 : Fin 2)).Reach (fun s a => a.isCall = true ∧ HasOpen s a)
        twoProcs := .init initial_twoProcs
    exact Lts.reach_of_exec_map
      (.openCall 0 0 :: List.replicate 7 (.next 0 1) ++ .openCall 1 0 :: List.replicate 5 (.next 1 1) ++
        [.closeCall 0 0, .next 0 0, .next 0 0, .closeCall 1 0, .next 1 0, .next 1 0,
          .next 0 0, .next 1 0, .next 0 0, .next 1 0])
      (fun s => s.fault) (some .doubleFree) h₀ (by decide +kernel)

end Xv6.SharedMem
