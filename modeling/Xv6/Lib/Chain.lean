import Mathlib

/-!
# Singly linked lists

A list in memory: a head pointer and a `next` pointer in every node, null at the end.
Appending walks to the last node; the walk is bounded by the number of nodes, which is
enough for a list that has no node twice.
-/

namespace Xv6.Lib

open Function List

variable {α : Type*}

/-- From the pointer `h` the links lead over the nodes `l` to null. -/
def Chain (next : α → Option α) : Option α → List α → Prop
  | h, [] => h = none
  | h, a :: l => h = some a ∧ Chain next (next a) l

/-- The last node, at most `n` links from `a`. -/
def lastNode (next : α → Option α) : ℕ → α → α
  | 0, a => a
  | n + 1, a =>
    match next a with
    | none => a
    | some b => lastNode next n b

variable {next : α → Option α} {h : Option α} {l : List α} {b : α}

theorem Chain.head (hc : Chain next h l) :
    h = l.head? := by
  cases l with
  | nil => exact hc
  | cons a l => exact hc.1

variable [DecidableEq α]

/-- Append the node `b` at the tail: `b->next = 0`, then the walk, then the link. -/
def appendNode (n : ℕ) (b : α) (h : Option α) (next : α → Option α) :
    Option α × (α → Option α) :=
  let next := Function.update next b none
  match h with
  | none => (some b, next)
  | some a => (some a, Function.update next (lastNode next n a) (some b))

theorem Chain.update (hc : Chain next h l) (hb : b ∉ l) (x : Option α) :
    Chain (Function.update next b x) h l := by
  induction l generalizing h with
  | nil => exact hc
  | cons a l ih =>
    rw [mem_cons, not_or] at hb
    obtain ⟨hne, hb'⟩ := hb
    refine ⟨hc.1, ?_⟩
    rw [update_of_ne (Ne.symm hne)]
    exact ih hc.2 hb'

theorem Chain.link (hnone : next b = none) (n : ℕ) :
    ∀ {a : α}, Chain next (some a) (a :: l) → l.length ≤ n → (a :: l).Nodup → b ∉ a :: l →
      lastNode next n a ∈ a :: l ∧
        Chain (Function.update next (lastNode next n a) (some b)) (some a) (a :: l ++ [b]) := by
  induction l generalizing n with
  | nil =>
    intro a hc _ _ hb
    have hend : next a = none := hc.2
    have hlast : lastNode next n a = a := by
      cases n with
      | zero => rfl
      | succ n => rw [lastNode, hend]
    have hne : b ≠ a := fun he => hb (he ▸ mem_cons_self)
    rw [hlast]
    refine ⟨mem_cons_self, rfl, ?_⟩
    rw [update_self]
    refine ⟨rfl, ?_⟩
    rw [update_of_ne hne]
    exact hnone
  | cons c l ih =>
    intro a hc hn hnd hb
    have hstep : next a = some c := hc.2.1
    obtain ⟨n, rfl⟩ : ∃ k, n = k + 1 := ⟨n - 1, by rw [length_cons] at hn; omega⟩
    have hwalk : lastNode next (n + 1) a = lastNode next n c := by rw [lastNode, hstep]
    obtain ⟨hmem, hchain⟩ := ih n (hstep ▸ hc.2) (by simpa using hn) (nodup_cons.1 hnd).2
      fun hmem => hb (mem_cons_of_mem _ hmem)
    have hne : a ≠ lastNode next n c := fun he => (nodup_cons.1 hnd).1 (he ▸ hmem)
    rw [hwalk]
    refine ⟨mem_cons_of_mem _ hmem, rfl, ?_⟩
    rw [update_of_ne hne, hstep]
    exact hchain

theorem Chain.appendNode [Fintype α] (hc : Chain next h l) (hnd : l.Nodup) (hb : b ∉ l) :
    Chain (Lib.appendNode (Fintype.card α) b h next).2
      (Lib.appendNode (Fintype.card α) b h next).1 (l ++ [b]) := by
  have hc' := hc.update hb none
  cases l with
  | nil =>
    have hh : h = none := hc
    rw [hh]
    refine ⟨rfl, ?_⟩
    change Function.update next b none b = none
    rw [update_self]
  | cons a l =>
    have hh : h = some a := hc.1
    rw [hh] at hc'
    have hlen : l.length ≤ Fintype.card α := by
      have := List.Nodup.length_le_card hnd
      rw [length_cons] at this
      omega
    rw [hh]
    exact (Chain.link (update_self ..) _ hc' hlen hnd hb).2

end Xv6.Lib
