import Mathlib

/-!
# Doubly linked rings

A ring of nodes through a sentinel, as kernels build it: every node has a `next`
and a `prev` pointer, the sentinel has both as well, and following either from
the sentinel leads over the nodes back to it.  A pointer is `none` when it points
to the sentinel.

* `Linked K a l b` — from `a` the links lead over the nodes `l` to `b`, and back.
* `Links.unlink` and `Links.pushFront` — splicing a node out and in at the front,
  write by write; `IsRing.unlink` and `IsRing.pushFront` say what they do to the list.
* `walk` and `search` — the two loops over a ring.  A loop that is still running
  when its fuel is used up has the result `none`.
-/

namespace Xv6.Lib

open Function List

variable {α : Type*}

/-- The links of all nodes and of the sentinel, `none`. -/
structure Links (α : Type*) where
  next : Option α → Option α
  prev : Option α → Option α

/-- From `a` the links lead over `l` to `b`, in both directions. -/
def Linked (K : Links α) (a : Option α) : List α → Option α → Prop
  | [], b => K.next a = b ∧ K.prev b = a
  | x :: l, b => (K.next a = some x ∧ K.prev (some x) = a) ∧ Linked K (some x) l b

/-- The links form one ring through the sentinel over the nodes `l`. -/
structure IsRing (K : Links α) (l : List α) : Prop where
  nodup : l.Nodup
  linked : Linked K none l none

/-- The same links read backwards. -/
def Links.flip (K : Links α) : Links α := ⟨K.prev, K.next⟩

variable {K : Links α} {x : α} {l : List α} {a b : Option α}

theorem linked_append {m : List α} :
    Linked K a (l ++ x :: m) b ↔ Linked K a l (some x) ∧ Linked K (some x) m b := by
  induction l generalizing a with
  | nil => simp [Linked]
  | cons y l ih => simp [Linked, ih, and_assoc]

theorem Linked.flip (h : Linked K a l b) :
    Linked K.flip b l.reverse a := by
  induction l generalizing a with
  | nil => exact ⟨h.2, h.1⟩
  | cons x l ih =>
    rw [reverse_cons]
    exact linked_append.2 ⟨ih h.2, h.1.2, h.1.1⟩

theorem IsRing.flip (h : IsRing K l) : IsRing K.flip l.reverse :=
  ⟨nodup_reverse.2 h.nodup, h.linked.flip⟩

theorem Linked.congr {K' : Links α} (h : Linked K a l b)
    (hn : ∀ u, u = a ∨ (∃ x ∈ l, u = some x) → K'.next u = K.next u)
    (hp : ∀ u, u = b ∨ (∃ x ∈ l, u = some x) → K'.prev u = K.prev u) : Linked K' a l b := by
  induction l generalizing a with
  | nil => exact ⟨(hn a (.inl rfl)).trans h.1, (hp b (.inl rfl)).trans h.2⟩
  | cons x l ih =>
    refine ⟨⟨(hn a (.inl rfl)).trans h.1.1, ?_⟩, ih h.2 ?_ ?_⟩
    · exact (hp _ (.inr ⟨x, by simp, rfl⟩)).trans h.1.2
    · rintro u (rfl | ⟨y, hy, rfl⟩)
      · exact hn _ (.inr ⟨x, by simp, rfl⟩)
      · exact hn _ (.inr ⟨y, by simp [hy], rfl⟩)
    · rintro u (rfl | ⟨y, hy, rfl⟩)
      · exact hp _ (.inl rfl)
      · exact hp _ (.inr ⟨y, by simp [hy], rfl⟩)

theorem Linked.prev_mem (h : Linked K a l b) :
    K.prev b = a ∨ ∃ x ∈ l, K.prev b = some x := by
  induction l generalizing a with
  | nil => exact .inl h.2
  | cons x l ih =>
    rcases ih h.2 with hx | ⟨y, hy, hb⟩
    · exact .inr ⟨x, by simp, hx⟩
    · exact .inr ⟨y, by simp [hy], hb⟩

/-! ## Loops -/

/-- Follow the pointers from `a` to the sentinel. -/
def walk (f : Option α → Option α) : ℕ → Option α → Option (List α)
  | 0, _ => none
  | _ + 1, none => some []
  | n + 1, some x => (walk f n (f (some x))).map (x :: ·)

/-- Follow the pointers from `a` until a node passes the test, or to the
sentinel. -/
def search (f : Option α → Option α) (p : α → Bool) : ℕ → Option α → Option (Option α)
  | 0, _ => none
  | _ + 1, none => some none
  | n + 1, some x => if p x = true then some (some x) else search f p n (f (some x))

theorem search_of_walk {f : Option α → Option α} (p : α → Bool) {n : ℕ} (h : walk f n a = some l) :
    search f p n a = some (l.find? p) := by
  induction n generalizing a l with
  | zero => simp [walk] at h
  | succ n ih =>
    cases a with
    | none =>
      obtain rfl : [] = l := by simpa [walk] using h
      rfl
    | some x =>
      obtain ⟨m, hm, rfl⟩ := Option.map_eq_some_iff.1 h
      rw [search, find?_cons, ih hm]
      cases p x <;> rfl

theorem Linked.walk (h : Linked K a l none) :
    Lib.walk K.next (l.length + 1) (K.next a) = some l := by
  induction l generalizing a with
  | nil => rw [h.1]; rfl
  | cons x l ih =>
    rw [h.1.1, length_cons, Lib.walk, ih h.2]
    rfl

theorem IsRing.walk_next (h : IsRing K l) :
    Lib.walk K.next (l.length + 1) (K.next none) = some l := h.linked.walk

theorem IsRing.walk_prev (h : IsRing K l) :
    Lib.walk K.prev (l.length + 1) (K.prev none) = some l.reverse := by
  have hw := h.flip.walk_next
  rw [length_reverse] at hw
  exact hw

/-! ## Writes -/

section Writes

variable [DecidableEq α]

def Links.setNext (K : Links α) (a v : Option α) : Links α :=
  { K with next := update K.next a v }

def Links.setPrev (K : Links α) (a v : Option α) : Links α :=
  { K with prev := update K.prev a v }

/-- Splice `x` out: `x->next->prev = x->prev; x->prev->next = x->next`. -/
def Links.unlink (K : Links α) (x : α) : Links α :=
  let K := K.setPrev (K.next (some x)) (K.prev (some x))
  K.setNext (K.prev (some x)) (K.next (some x))

/-- Put `x` behind the sentinel: `x->next = head->next; x->prev = head;
head->next->prev = x; head->next = x`. -/
def Links.pushFront (K : Links α) (x : α) : Links α :=
  let K := K.setNext (some x) (K.next none)
  let K := K.setPrev (some x) none
  let K := K.setPrev (K.next none) (some x)
  K.setNext none (some x)

theorem Linked.retarget (c : Option α) (h : Linked K a l b) (hl : l.Nodup)
    (ha : ∀ x ∈ l, a ≠ some x) (hc : ∀ x ∈ l, c ≠ some x) :
    Linked ((K.setPrev c (K.prev b)).setNext (K.prev b) c) a l c := by
  induction l generalizing a with
  | nil =>
    rw [h.2]
    simp [Linked, Links.setPrev, Links.setNext]
  | cons x l ih =>
    obtain ⟨hx, hl'⟩ := nodup_cons.1 hl
    have hb : K.prev b ≠ a := by
      rcases h.2.prev_mem with hp | ⟨y, hy, hp⟩
      · rw [hp]
        exact (ha x (by simp)).symm
      · rw [hp]
        exact (ha y (by simp [hy])).symm
    refine ⟨⟨?_, ?_⟩, ih h.2 hl' ?_ fun y hy => hc y (by simp [hy])⟩
    · simp [Links.setPrev, Links.setNext, update_of_ne hb.symm, h.1.1]
    · simp [Links.setPrev, Links.setNext, update_of_ne (hc x (by simp)).symm, h.1.2]
    · intro y hy hxy
      cases hxy
      exact hx hy

theorem unlink_eq (h : K.next (some x) ≠ some x) :
    K.unlink x =
      (K.setPrev (K.next (some x)) (K.prev (some x))).setNext (K.prev (some x))
        (K.next (some x)) := by
  simp [Links.unlink, Links.setPrev, update_of_ne h.symm]

theorem IsRing.unlink (h : IsRing K l) (hx : x ∈ l) :
    IsRing (K.unlink x) (l.erase x) := by
  obtain ⟨l₁, l₂, rfl⟩ := append_of_mem hx
  obtain ⟨h₁, h₂⟩ := linked_append.1 h.linked
  have hnd := h.nodup
  rw [nodup_middle, nodup_cons, mem_append, not_or] at hnd
  obtain ⟨⟨hx₁, hx₂⟩, hnd⟩ := hnd
  have hnd₁ : l₁.Nodup := (nodup_append.1 hnd).1
  rw [erase_append_right _ hx₁, erase_cons_head]
  refine ⟨hnd, ?_⟩
  cases l₂ with
  | nil =>
    have hnext : K.next (some x) = none := h₂.1
    rw [unlink_eq (by simp [hnext]), hnext, append_nil]
    exact h₁.retarget none hnd₁ (by simp) (by simp)
  | cons z l₂ =>
    have hnext : K.next (some x) = some z := h₂.1.1
    have hz : z ∉ l₁ := fun hz => (nodup_append.1 hnd).2.2 z hz z (by simp) rfl
    have hzx : z ≠ x := fun hzx => hx₂ (by simp [hzx])
    have hzl : z ∉ l₂ := (nodup_cons.1 (nodup_append.1 hnd).2.1).1
    rw [unlink_eq (by simpa [hnext] using hzx), hnext]
    refine linked_append.2 ⟨h₁.retarget (some z) hnd₁ (by simp) ?_, h₂.2.congr ?_ ?_⟩
    · rintro y hy hyz
      cases hyz
      exact hz hy
    · -- the node before `x` is none of those behind it
      intro u hu
      refine update_of_ne ?_ _ _
      rintro rfl
      rcases h₁.prev_mem with hp | ⟨y, hy, hp⟩
      · simp [hp] at hu
      · have hyl : y ∈ z :: l₂ := by simpa [hp] using hu
        exact (nodup_append.1 hnd).2.2 y hy y hyl rfl
    · intro u hu
      refine update_of_ne ?_ _ _
      rintro rfl
      simp [hzl] at hu

theorem IsRing.pushFront (h : IsRing K l) (hx : x ∉ l) :
    IsRing (K.pushFront x) (x :: l) := by
  refine ⟨nodup_cons.2 ⟨hx, h.nodup⟩, ?_⟩
  cases l with
  | nil =>
    have hnext : K.next none = none := h.linked.1
    simp [Linked, Links.pushFront, Links.setNext, Links.setPrev, hnext, update_of_ne]
  | cons z l =>
    have hnext : K.next none = some z := h.linked.1.1
    have hxz : x ≠ z := fun hxz => hx (by simp [hxz])
    have hz : z ∉ l := (nodup_cons.1 h.nodup).1
    refine ⟨?_, ?_, h.linked.2.congr ?_ ?_⟩
    · simp [Links.pushFront, Links.setNext, Links.setPrev, update_of_ne, hnext, hxz]
    · simp [Links.pushFront, Links.setNext, Links.setPrev, update_of_ne, hnext]
    · intro u hu
      have hux : u ≠ some x := by
        rintro rfl
        exact hx (by simpa using hu)
      have hu0 : u ≠ none := by
        rintro rfl
        simp at hu
      simp [Links.pushFront, Links.setNext, Links.setPrev, update_of_ne, hux, hu0]
    · intro u hu
      have hux : u ≠ some x := by
        rintro rfl
        exact hx (mem_cons_of_mem _ (by simpa using hu))
      have huz : u ≠ some z := by
        rintro rfl
        exact hz (by simpa using hu)
      simp [Links.pushFront, Links.setNext, Links.setPrev, update_of_ne, hux, huz, hnext]

end Writes

end Xv6.Lib
