import Mathlib

/-!
# Stores and sequences of atomic writes

A store maps addresses to values and is changed by single-address writes, each
of which happens entirely or not at all.  A program that is cut off part of the
way through leaves the store with a *prefix* of its writes applied, so a crash
is `applyWrites (ws.take k)`.
-/

namespace Xv6.Lib

open Function List

variable {A V : Type*} [DecidableEq A]

/-- The store after a sequence of atomic writes, the first of the list first. -/
def applyWrites (ws : List (A × V)) (d : A → V) : A → V :=
  ws.foldl (fun d w => update d w.1 w.2) d

@[simp] theorem applyWrites_nil (d : A → V) : applyWrites [] d = d := rfl

@[simp] theorem applyWrites_cons (w : A × V) (ws : List (A × V)) (d : A → V) :
    applyWrites (w :: ws) d = applyWrites ws (update d w.1 w.2) := rfl

theorem applyWrites_append (ws vs : List (A × V)) (d : A → V) :
    applyWrites (ws ++ vs) d = applyWrites vs (applyWrites ws d) :=
  foldl_append

variable {ws : List (A × V)} {a : A}

theorem applyWrites_of_notMem (h : a ∉ ws.map Prod.fst) :
    ∀ d : A → V, applyWrites ws d a = d a := by
  induction ws with
  | nil => intro d; rfl
  | cons w ws ih =>
    intro d
    simp only [map_cons, mem_cons, not_or] at h
    rw [applyWrites_cons, ih h.2, update_of_ne h.1]

theorem applyWrites_of_forall {v : V} (hall : ∀ w ∈ ws, w.1 = a → w.2 = v) :
    ∀ d : A → V, (a ∈ ws.map Prod.fst ∨ d a = v) → applyWrites ws d a = v := by
  induction ws with
  | nil =>
    intro d h
    rcases h with h | h
    · simp at h
    · exact h
  | cons w ws ih =>
    intro d h
    rw [applyWrites_cons]
    refine ih (fun w' hw' => hall w' (mem_cons_of_mem _ hw')) _ ?_
    by_cases hw : w.1 = a
    · right
      rw [hw, update_self]
      exact hall w (mem_cons_self ..) hw
    · rw [update_of_ne (Ne.symm hw)]
      rcases h with h | h
      · rw [map_cons, mem_cons] at h
        exact .inl (h.resolve_left (Ne.symm hw))
      · exact .inr h

omit [DecidableEq A] in
theorem notMem_take_fst (h : a ∉ ws.map Prod.fst) (k : ℕ) :
    a ∉ (ws.take k).map Prod.fst := by
  rw [map_take]
  exact fun hc => h (mem_of_mem_take hc)

end Xv6.Lib
