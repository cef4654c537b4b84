import Xv6.Lib.Lts

/-!
# Runs that end

The rule for termination: when every step of some kind lowers a measure, the measure
bounds the runs of such steps.
-/

namespace Xv6.Lib.Lts

variable {σ α : Type*} {L : Lts σ α} {ok : σ → α → Prop} [∀ s a, Decidable (ok s a)]

theorem exec_length_le {K : α → Prop} {μ : σ → ℕ}
    (hless : ∀ s a t, L.Reach ok s → K a → L.step s a = some t → μ t < μ s) {as : List α} :
    ∀ {s t : σ}, L.Reach ok s → (∀ a ∈ as, K a) → L.exec ok s as = some t →
      as.length + μ t ≤ μ s := by
  induction as with
  | nil =>
    intro s t _ _ he
    cases he
    simp
  | cons a as ih =>
    intro s t hs hkind he
    obtain ⟨hok, he⟩ := Option.ite_none_right_eq_some.1 he
    obtain ⟨u, hu, hrest⟩ := Option.bind_eq_some_iff.1 he
    have hlt := hless s a u hs (hkind a (by simp)) hu
    have hle := ih (.step hs hok hu) (fun b hb => hkind b (List.mem_cons_of_mem a hb)) hrest
    rw [List.length_cons]
    omega

end Xv6.Lib.Lts
