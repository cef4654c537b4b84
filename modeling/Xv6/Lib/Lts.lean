import Mathlib

/-!
# Labelled transition systems and their runs

A system is given by its initial states and an executable step function: an
action is offered to a state, and the step answers with the next state or with
`none` when the action is not enabled there.  Nondeterminism (which process
moves, what arguments it chooses) lives in the actions.

* `Lts.Reach ok` — the states reached by runs **all of whose steps meet `ok`**.
  Taking `ok` to be always true gives plain reachability.
* `Lts.Reach.invariant` — the induction every safety result goes through.
* `Lts.exec` — running a list of actions, so that a concrete run can be
  evaluated (`Lts.reach_of_exec`).
* `sum_update_add` — how a sum over all processes (or all entries of a table)
  changes when one of them moves.
-/

namespace Xv6.Lib

open Function Finset

/-- Runs of two processes name them `0` and `1`. -/
instance neZero_two : NeZero 2 := ⟨Nat.succ_ne_zero 1⟩

/-- Runs of three processes. -/
instance neZero_three : NeZero 3 := ⟨Nat.succ_ne_zero 2⟩

theorem of_guard {σ : Type*} {b : Prop} [Decidable b] {x t : σ}
    (h : (if b then some x else none) = some t) : b ∧ x = t := by
  obtain ⟨hb, hx⟩ := Option.ite_none_right_eq_some.1 h
  exact ⟨hb, Option.some.inj hx⟩

/-- A labelled transition system with an executable step. -/
structure Lts (σ α : Type*) where
  init : σ → Prop
  /-- The state after an action, or `none` when the action is not enabled. -/
  step : σ → α → Option σ

namespace Lts

variable {σ α : Type*} (L : Lts σ α)

/-- The states reached by runs in which every step meets the condition `ok`,
which reads the state before the step and the action. -/
inductive Reach (ok : σ → α → Prop) : σ → Prop
  | init {s : σ} : L.init s → Reach ok s
  | step {s t : σ} {a : α} : Reach ok s → ok s a → L.step s a = some t → Reach ok t

variable {L}

theorem Reach.invariant {ok : σ → α → Prop} {I : σ → Prop}
    (hinit : ∀ s, L.init s → I s)
    (hstep : ∀ s a t, I s → ok s a → L.step s a = some t → I t)
    {s : σ} (h : L.Reach ok s) : I s := by
  induction h with
  | init hs => exact hinit _ hs
  | step _ hok hst ih => exact hstep _ _ _ ih hok hst

theorem Reach.mono {ok ok' : σ → α → Prop} (hle : ∀ s a, ok s a → ok' s a) {s : σ}
    (h : L.Reach ok s) : L.Reach ok' s := by
  induction h with
  | init hs => exact .init hs
  | step _ hok hst ih => exact .step ih (hle _ _ hok) hst

variable (L)

/-- Run a list of actions, giving up when one is not enabled or does not meet
the condition. -/
def exec (ok : σ → α → Prop) [∀ s a, Decidable (ok s a)] : σ → List α → Option σ
  | s, [] => some s
  | s, a :: as => if ok s a then (L.step s a).bind fun t => exec ok t as else none

variable {L}

theorem reach_of_exec {ok : σ → α → Prop} [∀ s a, Decidable (ok s a)] {as : List α} :
    ∀ {s t : σ}, L.Reach ok s → L.exec ok s as = some t → L.Reach ok t := by
  induction as with
  | nil =>
    intro s t hs he
    cases he
    exact hs
  | cons a as ih =>
    intro s t hs he
    rw [exec] at he
    by_cases hok : ok s a
    · rw [if_pos hok] at he
      obtain ⟨u, hu, hrest⟩ := Option.bind_eq_some_iff.1 he
      exact ih (.step hs hok hu) hrest
    · rw [if_neg hok] at he
      exact absurd he (by simp)

theorem reach_of_exec_map {ok : σ → α → Prop} [∀ s a, Decidable (ok s a)] {β : Type*} {s : σ}
    (as : List α) (f : σ → β) (v : β) (hs : L.Reach ok s)
    (he : (L.exec ok s as).map f = some v) : ∃ t, L.Reach ok t ∧ f t = v := by
  obtain ⟨t, ht, hv⟩ := Option.map_eq_some_iff.1 he
  exact ⟨t, reach_of_exec hs ht, hv⟩

end Lts

/-! ## Sums over an updated function -/

theorem sum_update_add {P β M : Type*} [Fintype P] [DecidableEq P] [AddCommMonoid M]
    (f : P → β → M) (g : P → β) (p : P) (v : β) :
    ∑ q, f q (update g p v q) + f p (g p) = ∑ q, f q (g q) + f p v := by
  rw [← add_sum_erase _ _ (mem_univ p),
    ← add_sum_erase (Finset.univ : Finset P) (fun q => f q (g q)) (mem_univ p)]
  have hrest : ∑ q ∈ Finset.univ.erase p, f q (update g p v q)
      = ∑ q ∈ Finset.univ.erase p, f q (g q) := by
    refine sum_congr rfl ?_
    intro q hq
    rw [update_of_ne (ne_of_mem_erase hq)]
  rw [hrest, update_self]
  abel

end Xv6.Lib
