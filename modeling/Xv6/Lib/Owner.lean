import Mathlib

/-!
# Who owns a lock

A lock word names its owner (`Option P`), and whether a process has the lock
can be read off the place it has reached in its code.  `Owner o f` says that
the two agree.  The lemmas say how the agreement is kept when one process
moves: it neither takes nor drops the lock, it takes it while it is free, or it
drops it.  Mutual exclusion is then a fact about `Option`.
-/

namespace Xv6.Lib

open Function

variable {P β : Type*}

/-- The word `o` names exactly the process for which `f` holds. -/
def Owner (o : Option P) (f : P → Bool) : Prop :=
  ∀ p, o = some p ↔ f p = true

namespace Owner

variable {o : Option P} {f : P → Bool}

theorem unique (h : Owner o f) {p q : P} (hp : f p = true) (hq : f q = true) : p = q := by
  have h1 := (h p).2 hp
  rw [(h q).2 hq] at h1
  exact (Option.some.inj h1).symm

theorem not_of_free (h : Owner none f) (p : P) : f p = false := by
  cases hp : f p
  · rfl
  · exact absurd ((h p).2 hp) (by simp)

theorem of_free (h : ∀ p, f p = false) : Owner none f := by
  intro p
  simp [h p]

theorem congr (h : Owner o f) {g : P → Bool} (hg : ∀ p, g p = f p) : Owner o g := by
  intro p
  rw [hg p]
  exact h p

section Update

variable [DecidableEq P] {pc : P → β} {g : β → Bool} {p : P} {x : β}

theorem keep (h : Owner o fun q => g (pc q)) (hx : g x = g (pc p)) :
    Owner o fun q => g (update pc p x q) := by
  refine h.congr ?_
  intro q
  by_cases hq : q = p
  · subst hq
    rw [update_self, hx]
  · rw [update_of_ne hq]

theorem take (h : Owner none fun q => g (pc q)) (hx : g x = true) :
    Owner (some p) fun q => g (update pc p x q) := by
  intro q
  by_cases hq : q = p
  · subst hq
    simp [hx]
  · have hfree : g (pc q) = false := h.not_of_free q
    simp [update_of_ne hq, hfree, Ne.symm hq]

theorem drop (h : Owner o fun q => g (pc q)) (hp : g (pc p) = true) (hx : g x = false) :
    Owner none fun q => g (update pc p x q) := by
  refine of_free ?_
  intro q
  by_cases hq : q = p
  · subst hq
    rw [update_self, hx]
  · rw [update_of_ne hq]
    by_contra hne
    exact hq (h.unique (Bool.not_eq_false _ ▸ hne) hp)

end Update

end Owner

end Xv6.Lib
