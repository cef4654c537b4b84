import Xv6.Lib.Hoare

/-!
# Programs that leave a trace

A program over `σ × List τ` that does what a program over `σ` does and notes events along
the way.  `Erases` says that the notes change nothing, so what is known of the program
without them holds with them (`Erases.wp`); what the trace holds is then shown apart from
it, and the two are put together by `wp_and`.
-/

namespace Xv6.Lib

variable {σ τ ε α β : Type}

/-- A program that notes nothing. -/
def untraced (m : Prog σ ε α) : Prog (σ × List τ) ε α := fun s =>
  (m s.1).map fun r => (r.1, r.2, s.2)

/-- Note an event. -/
def emit (x : τ) : Prog (σ × List τ) ε PUnit := modify fun s => (s.1, x :: s.2)

/-- The traced program does what the other one does. -/
def Erases (m' : Prog (σ × List τ) ε α) (m : Prog σ ε α) : Prop :=
  ∀ s, (m'.run s).map (fun r => (r.1, r.2.1)) = m.run s.1

/-! ## Specifications -/

section Rules

variable {E : ε → Prop} {s : σ × List τ}

@[simp] theorem wp_untraced {m : Prog σ ε α} {Q : α → σ × List τ → Prop} :
    wp (untraced m) Q E s ↔ wp m (fun a t => Q a (t, s.2)) E s.1 := by
  simp only [wp, untraced, StateT.run]
  cases m s.1 with
  | _ => exact Iff.rfl

theorem wp_and {m : Prog σ ε α} {Q Q' : α → σ → Prop} {E E' : ε → Prop} {s : σ} (h : wp m Q E s)
    (h' : wp m Q' E' s) : wp m (fun a t => Q a t ∧ Q' a t) E s :=
  wp_mono (wp_both h h') (fun _ _ hq => hq) fun _ he => he.1

end Rules

/-! ## Erasing -/

section Erasing

variable {m' : Prog (σ × List τ) ε α} {m : Prog σ ε α}

theorem Erases.wp {Q : α → σ → Prop} {E : ε → Prop} {s : σ × List τ} (h : Erases m' m)
    (hm : Lib.wp m Q E s.1) : Lib.wp m' (fun a t => Q a t.1) E s := by
  have hrun := h s
  simp only [Lib.wp] at hm ⊢
  cases hr : m'.run s with
  | ok r =>
    rw [hr] at hrun
    rw [← hrun] at hm
    exact hm
  | error e =>
    rw [hr] at hrun
    rw [← hrun] at hm
    exact hm

theorem erases_untraced (m : Prog σ ε α) : Erases (untraced m : Prog (σ × List τ) ε α) m := by
  intro s
  simp only [untraced, StateT.run]
  cases m s.1 with
  | _ => rfl

theorem erases_pure (a : α) : Erases (pure a : Prog (σ × List τ) ε α) (pure a) := fun _ => rfl

theorem erases_throw (e : ε) : Erases (throw e : Prog (σ × List τ) ε α) (throw e) := fun _ => rfl

theorem Erases.bind {f' : α → Prog (σ × List τ) ε β} {f : α → Prog σ ε β} (h : Erases m' m)
    (hf : ∀ a, Erases (f' a) (f a)) : Erases (m' >>= f') (m >>= f) := by
  intro s
  have hrun := h s
  rw [StateT.run_bind, StateT.run_bind, ← hrun]
  cases hr : m'.run s with
  | ok r => exact hf r.1 r.2
  | error e => rfl

theorem Erases.ite {c : Prop} [Decidable c] {n' : Prog (σ × List τ) ε α} {n : Prog σ ε α}
    (h : Erases m' m) (h' : Erases n' n) : Erases (if c then m' else n') (if c then m else n) := by
  by_cases hc : c
  · rw [if_pos hc, if_pos hc]
    exact h
  · rw [if_neg hc, if_neg hc]
    exact h'

end Erasing

end Xv6.Lib
