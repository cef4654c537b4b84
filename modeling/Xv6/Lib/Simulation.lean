import Xv6.Lib.Hoare

/-!
# Programs over two states that do the same

Two programs, each over a state of its own, simulate each other when from related states
they return the same value in related states, or stop with the same error.

* `Sim R m' m s' s` — run from `s'` and `s`.
* one rule for each way of building a program.  In `Sim.bind` the second part may use
  what a specification says of the first run.
* `Sim.forM`, the rule for a loop over a list.
* `Sim.ok` — what the one run says of the other.
-/

namespace Xv6.Lib

variable {τ σ ε α β : Type} {R : τ → σ → Prop} {s' : τ} {s : σ}

/-- **Simulation** of one run by another, for states that are related by `R`. -/
def Sim (R : τ → σ → Prop) (m' : Prog τ ε α) (m : Prog σ ε α) (s' : τ) (s : σ) : Prop :=
  match m'.run s', m.run s with
  | .ok (a', t'), .ok (a, t) => a' = a ∧ R t' t
  | .error e', .error e => e' = e
  | _, _ => False

theorem Sim.pure {a : α} (h : R s' s) : Sim R (pure a : Prog τ ε α) (pure a) s' s := ⟨rfl, h⟩

theorem Sim.throw {e : ε} : Sim R (throw e : Prog τ ε α) (throw e) s' s := rfl

theorem Sim.modify {f' : τ → τ} {f : σ → σ} (h : R (f' s') (f s)) :
    Sim R (modify f' : Prog τ ε PUnit) (modify f) s' s := ⟨rfl, h⟩

theorem Sim.bind {m' : Prog τ ε β} {m : Prog σ ε β} {f' : β → Prog τ ε α} {f : β → Prog σ ε α}
    (h : Sim R m' m s' s)
    (hf : ∀ b t' t, m.run s = .ok (b, t) → R t' t → Sim R (f' b) (f b) t' t) :
    Sim R (m' >>= f') (m >>= f) s' s := by
  simp only [Sim, StateT.run_bind] at h hf ⊢
  cases hm' : m'.run s' with
  | error e' =>
    cases hm : m.run s with
    | error e =>
      rw [hm', hm] at h
      exact h
    | ok r =>
      rw [hm', hm] at h
      exact h.elim
  | ok r' =>
    cases hm : m.run s with
    | error e =>
      rw [hm', hm] at h
      exact h.elim
    | ok r =>
      rw [hm', hm] at h
      obtain ⟨b', t'⟩ := r'
      obtain ⟨b, t⟩ := r
      obtain ⟨rfl, ht⟩ := h
      exact hf b' t' t hm ht

theorem Sim.get {f' : τ → Prog τ ε α} {f : σ → Prog σ ε α} (h : Sim R (f' s') (f s) s' s) :
    Sim R (get >>= f') (get >>= f) s' s := h

theorem Sim.forM {f' : β → Prog τ ε PUnit} {f : β → Prog σ ε PUnit} {xs : List β}
    (hstep : ∀ x ∈ xs, ∀ t' t, R t' t → Sim R (f' x) (f x) t' t) (h : R s' s) :
    Sim R (forM xs f') (forM xs f) s' s := by
  induction xs generalizing s' s with
  | nil => exact ⟨rfl, h⟩
  | cons x xs ih =>
    rw [List.forM_cons, List.forM_cons]
    refine Sim.bind (hstep x (by simp) s' s h) fun _ t' t _ ht => ?_
    exact ih (fun y hy => hstep y (by simp [hy])) ht

theorem Sim.ok {m' : Prog τ ε α} {m : Prog σ ε α} {a : α} {t' : τ} (h : Sim R m' m s' s)
    (hrun : m'.run s' = .ok (a, t')) : ∃ t, m.run s = .ok (a, t) ∧ R t' t := by
  rw [Sim, hrun] at h
  cases hm : m.run s with
  | error e =>
    rw [hm] at h
    exact h.elim
  | ok r =>
    rw [hm] at h
    obtain ⟨b, t⟩ := r
    obtain ⟨rfl, ht⟩ := h
    exact ⟨t, rfl, ht⟩

end Xv6.Lib
