import Xv6.Ide.Queue
import Xv6.Lib.Progress

/-!
# Every call of `iderw` returns

The disk, the handler and the processes in `iderw` serve the queue by themselves: as long
as a process is in `iderw` one of them can take a step, since no interrupt is lost and a
process that sleeps has its request in the queue; and each step leaves less `work`.
-/

namespace Xv6.Ide

open Xv6.Lib Function

variable {P B D : Type} {s t : State P B D} {p : P} {b : B} {st : Stage} {v : Option (Stage × B)}

/-- A step of the driver or the disk. -/
def Act.ofDriver : Act P B D → Bool
  | .next _ | .disk | .interrupt | .handle => true
  | _ => false

/-- What a process has before it; up to `append`, its request too. -/
def left : Option (Stage × B) → ℕ
  | none => 0
  | some (.leave, _) | some (.asleep, _) => 1
  | some (.wait, _) => 2
  | some (.awake, _) => 3
  | some (.start, _) => 10
  | some (.append, _) => 20
  | some (.enter, _) => 21

/-- What the handler has before it; at `next` it may start the disk again. -/
def Handler.left : Handler B → ℕ
  | .idle => 0
  | .leave => 1
  | .finish _ => 3
  | .pop => 4
  | .enter => 5
  | .next => 9

/-- What the queue, the handler and the disk have before them. -/
def State.rest (s : State P B D) : ℕ :=
  9 * s.reqs.length + s.handler.left + 6 * s.irq.toNat + 7 * (!s.ready).toNat

/-- A bound on the steps until nobody is in `iderw`: each step lowers it. -/
def work [Fintype P] (s : State P B D) : ℕ := ∑ q, left (s.pc q) + s.rest

/-- A command that has been carried out has its interrupt pending or being handled. -/
def Signalled (s : State P B D) : Prop :=
  ∀ c, s.cmd = some c → c.done = true → s.irq = true ∨ s.handler.busy = true

/-- A step that loses no interrupt and leaves less to do. -/
structure Serves [Fintype P] (s t : State P B D) : Prop where
  signalled : Signalled s → Signalled t
  less : work t < work s

theorem signalled_of_none (h : s.cmd = none) : Signalled s := by
  intro c hc
  rw [h] at hc
  cases hc

theorem signalled_idestart (h : Signalled s) (b : B) : Signalled (idestart s b) := by
  rw [idestart]
  split
  · exact h
  · rintro c ⟨⟩ ⟨⟩

theorem rest_idestart (s : State P B D) (b : B) : (idestart s b).rest ≤ s.rest + 7 := by
  rw [idestart]
  split
  · exact Nat.le_add_right _ _
  · simp [State.rest, State.ready]

variable [Fintype P]

theorem serves_of_rest (hpc : t.pc = s.pc) (hsignal : Signalled s → Signalled t)
    (hless : t.rest < s.rest) : Serves s t := by
  refine ⟨hsignal, ?_⟩
  rw [work, work, hpc]
  omega

theorem serves_execute (hst : execute s = some t) : Serves s t := by
  unfold execute at hst
  split at hst
  · cases hst
  · rename_i c hc
    split at hst
    · cases hst
    · rename_i hdone
      have hready : (!s.ready).toNat = 1 := by simp [State.ready, hc, hdone]
      split at hst
      all_goals
        cases hst
        refine serves_of_rest rfl (fun _ _ _ _ => .inl rfl) ?_
        change 9 * s.reqs.length + s.handler.left + 6 + 0 < 9 * s.reqs.length + s.handler.left + _ + _
        omega

variable [DecidableEq P]

theorem serves_of_pc (hp : s.pc p = some (st, b)) (hpc : t.pc = update s.pc p v)
    (hsignal : Signalled s → Signalled t) (hless : left v + t.rest < left (some (st, b)) + s.rest) :
    Serves s t := by
  have hsum := sum_update_add (fun (_ : P) (x : Option (Stage × B)) => left x) s.pc p v
  rw [hp] at hsum
  refine ⟨hsignal, ?_⟩
  rw [work, work, hpc]
  omega

variable [DecidableEq B]

theorem serves_mark (h : Inv s) (hh : s.handler = .finish b) : Serves s (s.marked b) := by
  obtain ⟨rest, hreqs⟩ := List.head?_eq_some_iff.1 (h.disk.finish b hh)
  obtain ⟨p, st, hp, -⟩ := h.waiting b (by rw [hreqs]; exact List.mem_cons_self)
  refine serves_of_pc (v := if st = .asleep then some (.awake, b) else some (st, b)) hp ?_
    (fun _ => signalled_of_none rfl) ?_
  · funext q
    change (if s.pc q = some (.asleep, b) then some (Stage.awake, b) else s.pc q) = _
    by_cases hq : q = p
    · simp [hq, hp]
    · have hne : s.pc q ≠ some (.asleep, b) := fun hq' => hq (h.same_proc hq' hp)
      rw [update_of_ne hq, if_neg hne]
  · have hrest : (s.marked b).rest + 3 ≤ s.rest := by
      rw [State.rest, State.rest, hh]
      simp [State.marked, wakeup, hreqs, Handler.left, State.ready]
      omega
    split
    · rename_i hst
      subst hst
      simp only [left]
      omega
    · omega

theorem serves_ideintr (h : Inv s) (hst : ideintr s = some t) : Serves s t := by
  cases hh : s.handler with
  | idle =>
    rw [ideintr, hh] at hst
    cases hst
  | enter =>
    rw [ideintr, hh] at hst
    obtain ⟨-, rfl⟩ := of_guard hst
    refine serves_of_rest rfl (fun _ _ _ _ => .inr rfl) ?_
    simp [State.rest, State.ready, hh, Handler.left]
  | pop =>
    rw [ideintr, hh] at hst
    dsimp only at hst
    split at hst
    · rename_i hnone
      -- the command that is done is for the head of the queue
      obtain ⟨-, c, hc, -⟩ := h.disk.busy (by rw [hh]; rfl)
      obtain ⟨b, rest, hreqs, -⟩ := h.disk.active c hc
      have hhead := h.chain.head
      rw [hh, hnone, hreqs] at hhead
      cases hhead
    · cases hst
      refine serves_of_rest rfl (fun _ _ _ _ => .inr rfl) ?_
      simp [State.rest, State.ready, hh, Handler.left]
  | finish b =>
    rw [ideintr, hh] at hst
    cases hst
    exact serves_mark h hh
  | next =>
    rw [ideintr, hh] at hst
    dsimp only at hst
    have hnone := signalled_of_none (s := { s with handler := .leave }) (h.disk.next hh)
    have hrest : ({ s with handler := .leave } : State P B D).rest + 8 = s.rest := by
      simp [State.rest, State.ready, hh, Handler.left]
      omega
    split at hst
    · cases hst
      exact serves_of_rest rfl (fun _ => hnone) (by omega)
    · rename_i b _
      obtain ⟨-, rfl⟩ := of_guard hst
      have hle := rest_idestart { s with handler := .leave } b
      exact serves_of_rest (by rw [idestart]; split <;> rfl) (fun _ => signalled_idestart hnone b) (by omega)
  | leave =>
    rw [ideintr, hh] at hst
    cases hst
    refine serves_of_rest rfl ?_ (by simp [State.rest, State.ready, hh, Handler.left])
    intro hs c hc hdone
    exact .inl ((hs c hc hdone).resolve_right (by simp [hh, Handler.busy]))

variable [Fintype B]

theorem serves_iderw (hp : s.pc p = some (st, b)) (hst : iderw s p b st = some t) :
    Serves s t := by
  have hless : ∀ {m n : ℕ}, m < n → m + s.rest < n + s.rest := fun h => by omega
  cases st with
  | enter =>
    obtain ⟨-, rfl⟩ := of_guard hst
    exact serves_of_pc hp rfl id (hless (show 20 < 21 by decide))
  | append =>
    cases hst
    refine serves_of_pc hp rfl id ?_
    simp [State.rest, State.goto, State.ready, left]
    omega
  | start =>
    rw [iderw] at hst
    split at hst
    · obtain ⟨-, rfl⟩ := of_guard hst
      have hle : _ ≤ s.rest + 7 := rest_idestart (s.goto p (some (.wait, b))) b
      refine serves_of_pc hp (by rw [idestart]; split <;> rfl) (signalled_idestart (s := s.goto p _) · b) ?_
      change 2 + _ < 10 + s.rest
      omega
    · cases hst
      exact serves_of_pc hp rfl id (hless (show 2 < 10 by decide))
  | wait =>
    rw [iderw] at hst
    split at hst <;> cases hst <;> exact serves_of_pc hp rfl id (hless (show 1 < 2 by decide))
  | asleep => cases hst
  | awake =>
    obtain ⟨-, rfl⟩ := of_guard hst
    exact serves_of_pc hp rfl id (hless (show 2 < 3 by decide))
  | leave =>
    cases hst
    exact serves_of_pc hp rfl id (hless (show 0 < 1 by decide))

theorem serves_step {a : Act P B D} (h : (system P B D).Reach (fun _ _ => True) s)
    (ha : a.ofDriver = true) (hst : step s a = some t) : Serves s t := by
  unfold step at hst
  split at hst
  · cases hst
  rename_i hrun
  cases a with
  | next p =>
    obtain ⟨r, hr, hnext⟩ := Option.bind_eq_some_iff.1 hst
    exact serves_iderw hr hnext
  | disk => exact serves_execute hst
  | interrupt =>
    dsimp only at hst
    split at hst
    · rename_i hh
      obtain ⟨hirq, rfl⟩ := of_guard hst
      refine serves_of_rest rfl (fun _ _ _ _ => .inr rfl) ?_
      simp [State.rest, State.ready, hh, hirq, Handler.left]
    · cases hst
  | handle => exact serves_ideintr ((inv_of_reach h).resolve_left hrun) hst
  | _ => cases ha

theorem signalled_of_reach (h : (system P B D).Reach (fun _ _ => True) s) : Signalled s := by
  induction h with
  | init hs => exact signalled_of_none hs.cmd
  | @step s t a hr _ hst ih =>
    by_cases ha : a.ofDriver = true
    · exact (serves_step hr ha hst).signalled ih
    -- the other steps touch neither the command nor the interrupt
    change step s a = some t at hst
    unfold step at hst
    split at hst
    · cases hst
    cases a with
    | lock | edit | unlock =>
      obtain ⟨-, rfl⟩ := of_guard hst
      exact ih
    | call =>
      dsimp only at hst
      split at hst
      · split at hst <;> cases hst <;> exact ih
      · cases hst
    | kill =>
      dsimp only at hst
      split at hst <;> cases hst
      exact ih
    | _ => exact absurd rfl ha

omit [Fintype P] in
theorem driver_enabled (h : Inv s) (hsignal : Signalled s) (hrun : s.panic = false)
    (hp : s.pc p = some (st, b)) : ∃ a, a.ofDriver = true ∧ (step s a).isSome = true := by
  have hout : ∀ {q st' c}, s.pc q = some (st', c) → st'.holds = true → s.idelock ≠ none := by
    intro q st' c hq hst hnone
    rw [(h.holder q).2 (inLock_of_pc hq hst)] at hnone
    cases hnone
  cases hl : s.idelock with
  | some x =>
    cases x with
    | proc q =>
      refine ⟨.next q, rfl, ?_⟩
      have hin := (h.holder q).1 hl
      cases hq : s.pc q with
      | none =>
        rw [hq] at hin
        cases hin
      | some r =>
        obtain ⟨st', c⟩ := r
        rw [hq] at hin
        simp only [step, hrun, hq]
        cases st' with
        | append | leave => rfl
        | start =>
          have hready : s.idequeue = some c → s.ready = true := fun hhead => by
            rw [State.ready, (h.start q c hq).2 ((h.start_head hq).1 hhead)]
          by_cases hhead : s.idequeue = some c <;> simp [iderw, hhead, hready]
        | wait => by_cases hb : (s.buf c).synced = true <;> simp [iderw, hb]
        | _ => cases hin
    | intr =>
      refine ⟨.handle, rfl, ?_⟩
      have hin := h.intr.1 hl
      cases hh : s.handler with
      | pop => cases hq : s.idequeue <;> simp [step, hrun, ideintr, hh, hq]
      | next =>
        have hready : s.ready = true := by rw [State.ready, h.disk.next hh]
        cases hq : s.idequeue <;> simp [step, hrun, ideintr, hh, hq, hready]
      | finish | leave => simp [step, hrun, ideintr, hh]
      | _ =>
        rw [hh] at hin
        cases hin
  | none =>
    have hhandler := h.handler_not_holding hl
    cases hcmd : s.cmd with
    | none =>
      -- there is no request, so the process is about to take the lock
      obtain hr | hn | ⟨q, c, hq, -⟩ := h.disk.idle hcmd
      · refine ⟨.next p, rfl, ?_⟩
        have hok := (h.procs p st b hp).2
        simp only [step, hrun, hp]
        cases st with
        | enter | awake => simp [iderw, hl]
        | asleep =>
          rw [StageOk, hr] at hok
          cases hok
        | _ => exact absurd hl (hout hp rfl)
      · rw [hn] at hhandler
        cases hhandler
      · exact absurd hl (hout hq rfl)
    | some c =>
      cases hdone : c.done with
      | false =>
        refine ⟨.disk, rfl, ?_⟩
        cases hw : c.write <;> simp [step, hrun, execute, hcmd, hdone, hw]
      | true =>
        have hirq := hsignal c hcmd hdone
        cases hh : s.handler with
        | idle =>
          rw [hh] at hirq
          exact ⟨.interrupt, rfl, by simp [step, hrun, hh, hirq.resolve_right Bool.false_ne_true]⟩
        | enter => exact ⟨.handle, rfl, by simp [step, hrun, ideintr, hh, hl]⟩
        | _ =>
          rw [hh] at hhandler
          cases hhandler

/-- **Every call of `iderw` returns.**  From every reachable state, a run of steps of the
disk, the interrupt handler and the processes in `iderw`, in any order, has at most `work s`
steps; and when none of them can take another step, unless the kernel has panicked, nobody
is in `iderw` any more. -/
theorem iderw_returns (h : (system P B D).Reach (fun _ _ => True) s) {as : List (Act P B D)}
    (has : ∀ a ∈ as, a.ofDriver = true)
    (hrun : (system P B D).exec (fun _ _ => True) s as = some t) :
    as.length ≤ work s ∧
      (t.panic = false → (∀ a, a.ofDriver = true → step t a = none) → ∀ p, t.pc p = none) := by
  have hbound := Lts.exec_length_le (K := fun a => a.ofDriver = true)
    (fun s a t hs ha hst => (serves_step hs ha hst).less) h has hrun
  refine ⟨by omega, ?_⟩
  intro hpanic hstuck p
  by_contra hp
  obtain ⟨r, hp⟩ := Option.ne_none_iff_exists'.1 hp
  have ht := Lts.reach_of_exec h hrun
  have hinv : Inv t := (inv_of_reach ht).resolve_left (by simp [hpanic])
  obtain ⟨a, ha, hsome⟩ := driver_enabled hinv (signalled_of_reach ht) hpanic hp
  rw [hstuck a ha] at hsome
  cases hsome

/-- Two calls have been made; seventeen steps later the first is about to return. -/
theorem iderw_returns_first : ∃ s t : State (Fin 2) (Fin 2) ℕ,
    (system (Fin 2) (Fin 2) ℕ).Reach (fun _ _ => True) s ∧
      (system (Fin 2) (Fin 2) ℕ).exec (fun _ _ => True) s (twoRequests.drop 4) = some t ∧
      t.pc 0 = some (.leave, 0) ∧ 17 ≤ work s := by
  have hinit : (system (Fin 2) (Fin 2) ℕ).Reach (fun _ _ => True) quiet :=
    .init ⟨fun _ => rfl, rfl, rfl, fun _ => rfl, rfl, rfl, rfl, rfl, rfl, rfl, rfl⟩
  obtain ⟨s, hs, hv⟩ := Lts.reach_of_exec_map (twoRequests.take 4)
    (fun s => ((system _ _ _).exec (fun _ _ => True) s (twoRequests.drop 4)).map fun t => t.pc 0)
    (some (some (.leave, 0))) hinit (by decide +kernel)
  obtain ⟨t, ht, hpc⟩ := Option.map_eq_some_iff.1 hv
  exact ⟨s, t, hs, ht, hpc, (iderw_returns hs (by decide) ht).1⟩

end Xv6.Ide
