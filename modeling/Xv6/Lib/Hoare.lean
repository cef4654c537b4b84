import Mathlib

/-!
# Pre- and postconditions for programs that can fail

A program reads and changes a state and either returns a value or stops with an
error, after which there is no state to speak of: `StateT σ (Except ε)`.

* `wp m Q E s` — run from `s`, the program returns a value and a state that
  meet `Q`, or stops with an error that meets `E`.  With `E` false it is total
  correctness; with `E` true it is partial correctness.
* one equation for each way of building a program (`wp_pure`, `wp_bind`,
  `wp_get`, `wp_modify`, `wp_throw`, `wp_ite`), which together unfold a
  straight-line program;
* `wp_mono` and `wp_post`, by which a callee's specification is used in its caller;
* `wp_forM`, the invariant rule for a loop over a list.
* `Sure` — total correctness of a computation without a state.
-/

namespace Xv6.Lib

variable {σ ε α β : Type}

/-- Programs over the state `σ` that may stop with an error in `ε`. -/
abbrev Prog (σ ε α : Type) := StateT σ (Except ε) α

/-- **The weakest precondition.**  From `s` the program returns with `Q`, or
stops with an error in `E`. -/
def wp (m : Prog σ ε α) (Q : α → σ → Prop) (E : ε → Prop) (s : σ) : Prop :=
  match m.run s with
  | .ok (a, t) => Q a t
  | .error e => E e

section Rules

variable {Q : α → σ → Prop} {E : ε → Prop} {s : σ}

@[simp] theorem wp_pure {a : α} : wp (pure a : Prog σ ε α) Q E s ↔ Q a s := Iff.rfl

@[simp] theorem wp_throw {e : ε} : wp (throw e : Prog σ ε α) Q E s ↔ E e := Iff.rfl

@[simp] theorem wp_get {Q : σ → σ → Prop} : wp (get : Prog σ ε σ) Q E s ↔ Q s s := Iff.rfl

@[simp] theorem wp_modify {Q : PUnit → σ → Prop} {f : σ → σ} :
    wp (modify f : Prog σ ε PUnit) Q E s ↔ Q ⟨⟩ (f s) := Iff.rfl

@[simp] theorem wp_bind {m : Prog σ ε β} {f : β → Prog σ ε α} :
    wp (m >>= f) Q E s ↔ wp m (fun b t => wp (f b) Q E t) E s := by
  simp only [wp, StateT.run_bind]
  cases m.run s with
  | _ => exact Iff.rfl

variable {m : Prog σ ε α} {Q' : α → σ → Prop}

theorem wp_ite {c : Prop} [Decidable c] {n : Prog σ ε α} :
    wp (if c then m else n) Q E s ↔ (c → wp m Q E s) ∧ (¬c → wp n Q E s) := by
  by_cases hc : c <;> simp [hc]

theorem wp_mono {E' : ε → Prop} (h : wp m Q E s) (hQ : ∀ a t, Q a t → Q' a t) (hE : ∀ e, E e → E' e) :
    wp m Q' E' s := by
  simp only [wp] at h ⊢
  cases hr : m.run s with
  | ok r =>
    rw [hr] at h
    exact hQ _ _ h
  | error e =>
    rw [hr] at h
    exact hE _ h

theorem wp_post (h : wp m Q E s) (hQ : ∀ a t, Q a t → Q' a t) : wp m Q' E s :=
  wp_mono h hQ fun _ he => he

theorem wp_ok {a : α} {t : σ} (h : wp m Q E s) (hr : m.run s = .ok (a, t)) :
    Q a t := by
  simpa only [wp, hr] using h

theorem wp_error {e : ε} (h : wp m Q E s) (hr : m.run s = .error e) : E e := by
  simpa only [wp, hr] using h

theorem exists_ok_of_wp (h : wp m Q (fun _ => False) s) :
    ∃ a t, m.run s = .ok (a, t) ∧ Q a t := by
  simp only [wp] at h
  cases hr : m.run s with
  | ok r =>
    rw [hr] at h
    exact ⟨r.1, r.2, rfl, h⟩
  | error e =>
    rw [hr] at h
    exact h.elim

theorem run_of_wp (h : wp m Q E s) :
    (∃ a t, m.run s = .ok (a, t) ∧ Q a t) ∨ ∃ e, m.run s = .error e ∧ E e := by
  cases hr : m.run s with
  | ok r => exact .inl ⟨r.1, r.2, rfl, wp_ok h hr⟩
  | error e => exact .inr ⟨e, rfl, wp_error h hr⟩

theorem wp_both {E' : ε → Prop} (h : wp m Q E s) (h' : wp m Q' E' s) :
    wp m (fun a t => Q a t ∧ Q' a t) (fun e => E e ∧ E' e) s := by
  simp only [wp] at h h' ⊢
  cases hr : m.run s with
  | ok r =>
    rw [hr] at h h'
    exact ⟨h, h'⟩
  | error e =>
    rw [hr] at h h'
    exact ⟨h, h'⟩

theorem wp_iff_of_exact {a : α} {t : σ}
    (h : wp m (fun b u => b = a ∧ u = t) (fun _ => False) s) : wp m Q E s ↔ Q a t := by
  obtain ⟨_, _, hrun, rfl, rfl⟩ := exists_ok_of_wp h
  rw [wp, hrun]

theorem wp_forM {f : β → Prog σ ε PUnit} {I : List β → σ → Prop}
    (hstep : ∀ x xs t, I (x :: xs) t → wp (f x) (fun _ u => I xs u) E t) :
    ∀ (xs : List β) (t : σ), I xs t → wp (forM xs f) (fun _ u => I [] u) E t := by
  intro xs
  induction xs with
  | nil => intro t ht; exact ht
  | cons x xs ih =>
    intro t ht
    rw [List.forM_cons, wp_bind]
    exact wp_post (hstep x xs t ht) fun _ u hu => ih u hu

end Rules

/-- The computation returns, and the result satisfies `Q`. -/
def Sure (Q : α → Prop) : Except ε α → Prop
  | .ok a => Q a
  | .error _ => False

theorem exists_ok_of_sure {Q : α → Prop} {x : Except ε α} (h : Sure Q x) : ∃ a, x = .ok a ∧ Q a := by
  cases x with
  | error e => exact h.elim
  | ok a => exact ⟨a, rfl, h⟩

theorem Sure.bind {P : α → Prop} {Q : β → Prop} {x : Except ε α} {f : α → Except ε β}
    (hx : Sure P x) (hf : ∀ a, P a → Sure Q (f a)) : Sure Q (x >>= f) := by
  cases x with
  | error e => exact hx.elim
  | ok a => exact hf a hx

theorem Sure.mono {P Q : α → Prop} {x : Except ε α} (hx : Sure P x) (h : ∀ a, P a → Q a) :
    Sure Q x := by
  cases x with
  | error e => exact hx
  | ok a => exact h a hx

end Xv6.Lib
