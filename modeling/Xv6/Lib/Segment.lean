import Mathlib

/-!
# Linked nodes with data

Nodes in memory with a `next` pointer and some data each.  `Segment next data a l b` says that from
`a` the links lead over the nodes `l`, each with the data it is listed with, to `b`.  A ring is a
list of nodes that leads back to where it starts.
-/

namespace Xv6.Lib

open List

variable {α β : Type*} {next next' : α → α} {data data' : α → β}

/-- From `a` the links lead over the nodes of `l` to `b`. -/
def Segment (next : α → α) (data : α → β) : α → List (α × β) → α → Prop
  | a, [], b => a = b
  | a, x :: l, b => a = x.1 ∧ data x.1 = x.2 ∧ Segment next data (next x.1) l b

theorem segment_append {a c : α} {l l' : List (α × β)} : Segment next data a (l ++ l') c ↔
    ∃ b, Segment next data a l b ∧ Segment next data b l' c := by
  induction l generalizing a with
  | nil =>
    constructor
    · exact fun h => ⟨a, rfl, h⟩
    · rintro ⟨b, rfl, h⟩
      exact h
  | cons x l ih =>
    constructor
    · rintro ⟨ha, hx, h⟩
      obtain ⟨b, hl, hl'⟩ := ih.1 h
      exact ⟨b, ⟨ha, hx, hl⟩, hl'⟩
    · rintro ⟨b, ⟨ha, hx, hl⟩, hl'⟩
      exact ⟨ha, hx, ih.2 ⟨b, hl, hl'⟩⟩

theorem Segment.congr {a b : α} {l : List (α × β)} (h : Segment next data a l b)
    (hnext : ∀ x ∈ l, next' x.1 = next x.1) (hdata : ∀ x ∈ l, data' x.1 = data x.1) :
    Segment next' data' a l b := by
  induction l generalizing a with
  | nil => exact h
  | cons x l ih =>
    obtain ⟨ha, hx, h⟩ := h
    refine ⟨ha, (hdata x mem_cons_self).trans hx, ?_⟩
    rw [hnext x mem_cons_self]
    exact ih h (fun y hy => hnext y (mem_cons_of_mem _ hy))
      fun y hy => hdata y (mem_cons_of_mem _ hy)

theorem Segment.data_eq {a b : α} {l : List (α × β)} (h : Segment next data a l b) :
    ∀ x ∈ l, data x.1 = x.2 := by
  induction l generalizing a with
  | nil => exact fun _ hx => absurd hx not_mem_nil
  | cons y l ih =>
    intro x hx
    obtain rfl | hx := mem_cons.1 hx
    · exact h.2.1
    · exact ih h.2.2 x hx

theorem Segment.rotate {a : α} {x : α × β} {l l' : List (α × β)}
    (h : Segment next data a (l ++ x :: l') a) : Segment next data x.1 (x :: l' ++ l) x.1 := by
  obtain ⟨b, hl, hb, hx, hl'⟩ := segment_append.1 h
  rw [hb] at hl
  exact segment_append.2 ⟨a, ⟨rfl, hx, hl'⟩, hl⟩

/-- The last node of a list, or the one before it. -/
def lastNodeD (prev : α) (l : List (α × β)) : α := (l.map Prod.fst).getLastD prev

theorem lastNodeD_cons (prev : α) (x : α × β) (l : List (α × β)) :
    lastNodeD prev (x :: l) = lastNodeD x.1 l := by
  rw [lastNodeD, lastNodeD, map_cons, getLastD_cons]

end Xv6.Lib
