import Mathlib

/-!
# The entries of a table

A table of `n` slots is a function of which the values below `n` count; a slot
that holds `0` is empty.  `entries n f` lists what the other slots hold.

* filling an empty slot adds one entry (`entries_update`), emptying a slot
  takes one away (`entries_clear`);
* when no entry occurs twice, what a slot holds determines the slot
  (`slot_unique`).

`flatMap_update` is the same for a list of tables of which one changes.
-/

namespace Xv6.Lib

open Function List

variable {V : Type*} [Zero V] [DecidableEq V]

/-- The contents of the slots that are not empty. -/
def entries (n : ℕ) (f : ℕ → V) : List V := ((List.range n).map f).filter (· ≠ 0)

variable {n k : ℕ} {f : ℕ → V}

theorem mem_entries {v : V} :
    v ∈ entries n f ↔ v ≠ 0 ∧ ∃ k, k < n ∧ f k = v := by
  simp [entries, and_comm]

theorem entries_congr {g : ℕ → V} (h : ∀ k, k < n → f k = g k) :
    entries n f = entries n g := by
  rw [entries, entries, map_congr_left fun k hk => h k (mem_range.1 hk)]

theorem entries_eq_nil (h : ∀ k, k < n → f k = 0) : entries n f = [] := by
  refine eq_nil_iff_forall_not_mem.2 ?_
  intro v hv
  obtain ⟨hv0, k, hk, rfl⟩ := mem_entries.1 hv
  exact hv0 (h k hk)

theorem entries_succ (n : ℕ) (f : ℕ → V) :
    entries (n + 1) f = entries n f ++ if f n = 0 then [] else [f n] := by
  rw [entries, entries, range_succ, map_append, filter_append]
  congr 1
  by_cases h : f n = 0 <;> simp [h]

theorem entries_update {a : V} (hk : k < n) (h0 : f k = 0) (ha : a ≠ 0) :
    (entries n (update f k a)).Perm (a :: entries n f) := by
  induction n with
  | zero => omega
  | succ n ih =>
    rw [entries_succ, entries_succ]
    by_cases hkn : k = n
    · subst hkn
      rw [update_self, if_neg ha, if_pos h0, append_nil,
        entries_congr fun j hj => update_of_ne (Nat.ne_of_lt hj) a f]
      exact perm_append_comm
    · rw [update_of_ne (Ne.symm hkn)]
      exact (ih (by omega)).append_right _

theorem entries_clear (hk : k < n) (ha : f k ≠ 0) :
    (entries n f).Perm (f k :: entries n (update f k 0)) := by
  have h := entries_update (f := update f k 0) hk (update_self ..) ha
  rwa [update_idem, update_eq_self] at h

theorem slot_unique (h : (entries n f).Nodup) {l : ℕ} (hk : k < n) (hl : l < n) (hne : f k ≠ 0)
    (heq : f k = f l) : k = l := by
  by_contra hkl
  have hclear := (entries_clear hk hne).nodup_iff.1 h
  refine (nodup_cons.1 hclear).1 (mem_entries.2 ⟨hne, l, hl, ?_⟩)
  rw [update_of_ne (Ne.symm hkl), heq]

omit [Zero V] [DecidableEq V] in
theorem flatMap_update {N : ℕ} {f g : ℕ → List V} {l l' : List V} (hn : n < N)
    (hsame : ∀ m, m < N → m ≠ n → g m = f m) (h : (l' ++ g n).Perm (l ++ f n)) :
    (l' ++ (List.range N).flatMap g).Perm (l ++ (List.range N).flatMap f) := by
  induction N with
  | zero => omega
  | succ N ih =>
    rw [range_succ, flatMap_append, flatMap_append, flatMap_singleton,
      flatMap_singleton]
    by_cases hnN : n = N
    · subst hnN
      have hrest : (List.range n).flatMap g = (List.range n).flatMap f :=
        flatMap_congr fun m hm =>
          hsame m (Nat.lt_succ_of_lt (mem_range.1 hm)) (Nat.ne_of_lt (mem_range.1 hm))
      rw [hrest]
      refine (perm_append_comm_assoc ..).trans (.trans ?_ (perm_append_comm_assoc ..))
      exact h.append_left _
    · rw [hsame N (Nat.lt_succ_self N) (Ne.symm hnN), ← append_assoc, ← append_assoc]
      exact (ih (by omega) fun m hm => hsame m (Nat.lt_succ_of_lt hm)).append_right _

end Xv6.Lib
