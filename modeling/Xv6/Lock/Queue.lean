import Mathlib

/-!
# The queue of a priority lock

`struct queue` of `spinlock.h` is a singly linked list of pages from `kalloc`,
each holding a pid.  A queue is modelled by the list of its nodes, `next` being
the tail and the null pointer the empty list; a node remembers which `kalloc`
it came from, so that its `kfree` can be told apart from any other.

`addQueue` and `rmQueue` follow `add_queue` and `rm_queue`: the head is treated
apart from the loop that walks `temp`.
-/

namespace Xv6.Lock

open List

/-- A node of `struct queue`. -/
structure QNode where
  /-- Which `kalloc` returned the page of this node. -/
  id : ℕ
  pid : ℤ
  deriving DecidableEq, Repr

/-- The `panic`s of `rm_queue`. -/
inductive RmPanic
  | queueNull
  | notFound
  deriving DecidableEq, Repr

/-- The loop of `add_queue` at `temp`, whose `next` is the list `rest`: walk on
while the next pid is larger, then link `res` in. -/
def addAfter (res temp : QNode) : List QNode → List QNode
  | [] => [temp, res]
  | nx :: rest =>
    if nx.pid > res.pid then temp :: addAfter res nx rest else temp :: res :: nx :: rest

/-- `add_queue`, `res` being the node it has allocated. -/
def addQueue (res : QNode) : List QNode → List QNode
  | [] => [res]
  | temp :: rest => if temp.pid < res.pid then res :: temp :: rest else addAfter res temp rest

/-- The loop of `rm_queue` at `temp`, whose `next` is the list `rest`: the list
left behind and the node passed to `kfree`. -/
def rmAfter (pid : ℤ) (temp : QNode) : List QNode → Except RmPanic (List QNode × QNode)
  | [] => .error .notFound
  | nx :: rest =>
    if nx.pid ≠ pid then (rmAfter pid nx rest).map fun r => (temp :: r.1, r.2)
    else .ok (temp :: rest, nx)

/-- `rm_queue`: the list left behind and the node passed to `kfree`. -/
def rmQueue (pid : ℤ) : List QNode → Except RmPanic (List QNode × QNode)
  | [] => .error .queueNull
  | temp :: rest => if temp.pid = pid then .ok (rest, temp) else rmAfter pid temp rest

/-! ## Adding a node -/

/-- A queue in strictly decreasing order of pid. -/
def Descending (q : List QNode) : Prop := q.Pairwise fun a b => b.pid < a.pid

theorem perm_addAfter (res : QNode) : ∀ (rest : List QNode) (temp : QNode),
    (addAfter res temp rest).Perm (res :: temp :: rest) := by
  intro rest
  induction rest with
  | nil => intro temp; exact List.Perm.swap res temp []
  | cons nx rest ih =>
    intro temp
    rw [addAfter]
    split
    · exact ((ih nx).cons temp).trans (List.Perm.swap res temp (nx :: rest))
    · exact List.Perm.swap res temp (nx :: rest)

theorem perm_addQueue (res : QNode) (q : List QNode) : (addQueue res q).Perm (res :: q) := by
  cases q with
  | nil => exact List.Perm.refl _
  | cons temp rest =>
    rw [addQueue]
    split
    · exact List.Perm.refl _
    · exact perm_addAfter res rest temp

theorem descending_addAfter (res : QNode) : ∀ (rest : List QNode) (temp : QNode),
    Descending (temp :: rest) → res.pid < temp.pid → (∀ x ∈ rest, x.pid ≠ res.pid) →
    Descending (addAfter res temp rest) := by
  intro rest
  induction rest with
  | nil =>
    intro temp _ hlt _
    simpa [addAfter, Descending] using hlt
  | cons nx rest ih =>
    intro temp hd hlt hne
    simp only [Descending, pairwise_cons] at hd
    obtain ⟨htemp, hnx, hrest⟩ := hd
    rw [addAfter]
    split
    · rename_i hgt
      have hrec := ih nx (pairwise_cons.2 ⟨hnx, hrest⟩) hgt
        fun x hx => hne x (mem_cons_of_mem _ hx)
      refine pairwise_cons.2 ⟨?_, hrec⟩
      intro x hx
      rcases mem_cons.1 ((perm_addAfter res rest nx).mem_iff.1 hx) with rfl | hx
      · exact hlt
      · exact htemp x hx
    · rename_i hngt
      have hle : nx.pid < res.pid :=
        lt_of_le_of_ne (not_lt.1 hngt) (hne nx (mem_cons_self ..))
      refine pairwise_cons.2 ⟨?_, pairwise_cons.2 ⟨?_, pairwise_cons.2 ⟨hnx, hrest⟩⟩⟩
      · intro x hx
        rcases mem_cons.1 hx with rfl | hx
        · exact hlt
        · exact htemp x hx
      · intro x hx
        rcases mem_cons.1 hx with rfl | hx
        · exact hle
        · exact (hnx x hx).trans hle

variable {q : List QNode}

theorem descending_addQueue {res : QNode} (hd : Descending q) (hne : ∀ x ∈ q, x.pid ≠ res.pid) :
    Descending (addQueue res q) := by
  cases q with
  | nil => exact pairwise_singleton _ _
  | cons temp rest =>
    rw [addQueue]
    split
    · rename_i hlt
      refine pairwise_cons.2 ⟨?_, hd⟩
      intro x hx
      rcases mem_cons.1 hx with rfl | hx
      · exact hlt
      · exact ((pairwise_cons.1 hd).1 x hx).trans hlt
    · rename_i hnlt
      refine descending_addAfter res rest temp hd ?_ fun x hx => hne x (mem_cons_of_mem _ hx)
      exact lt_of_le_of_ne (not_lt.1 hnlt) (hne temp (mem_cons_self ..)).symm

theorem Descending.le_head {x : QNode} (hd : Descending (x :: q)) :
    ∀ y ∈ x :: q, y.pid ≤ x.pid := by
  intro y hy
  rcases mem_cons.1 hy with rfl | hy
  · exact le_refl _
  · exact ((pairwise_cons.1 hd).1 y hy).le

/-! ## Where the node goes

`add_queue` itself allows equal pids; the new node then comes directly before the first
node that is not larger, the head apart. -/

/-- A queue in decreasing order of pid. -/
def NonIncreasing (q : List QNode) : Prop := q.Pairwise fun a b => b.pid ≤ a.pid

theorem addAfter_split (res : QNode) : ∀ (rest : List QNode) (temp : QNode),
    NonIncreasing (temp :: rest) → res.pid ≤ temp.pid →
    ∃ before after, temp :: rest = before ++ after ∧
      addAfter res temp rest = before ++ res :: after ∧
      (∀ x ∈ before, res.pid ≤ x.pid) ∧ ∀ x ∈ after, x.pid ≤ res.pid := by
  intro rest
  induction rest with
  | nil =>
    intro temp _ hle
    refine ⟨[temp], [], rfl, rfl, ?_, forall_mem_nil _⟩
    simpa using hle
  | cons nx rest ih =>
    intro temp hs hle
    obtain ⟨_, hs⟩ := pairwise_cons.1 hs
    rw [addAfter]
    split
    · rename_i hgt
      obtain ⟨before, after, hq, hadd, hb, ha⟩ := ih nx hs hgt.le
      refine ⟨temp :: before, after, ?_, ?_, forall_mem_cons.2 ⟨hle, hb⟩, ha⟩
      · rw [hq, cons_append]
      · rw [hadd, cons_append]
    · rename_i hngt
      have hnx : nx.pid ≤ res.pid := not_lt.1 hngt
      refine ⟨[temp], nx :: rest, rfl, rfl, by simpa using hle, ?_⟩
      refine forall_mem_cons.2 ⟨hnx, fun x hx => ?_⟩
      exact ((pairwise_cons.1 hs).1 x hx).trans hnx

theorem addQueue_split (res : QNode) (hs : NonIncreasing q) :
    ∃ before after, q = before ++ after ∧ addQueue res q = before ++ res :: after ∧
      (∀ x ∈ before, res.pid ≤ x.pid) ∧ ∀ x ∈ after, x.pid ≤ res.pid := by
  cases q with
  | nil => exact ⟨[], [], rfl, rfl, forall_mem_nil _, forall_mem_nil _⟩
  | cons temp rest =>
    rw [addQueue]
    split
    · rename_i hlt
      refine ⟨[], temp :: rest, rfl, rfl, forall_mem_nil _, ?_⟩
      refine forall_mem_cons.2 ⟨hlt.le, fun x hx => ?_⟩
      exact ((pairwise_cons.1 hs).1 x hx).trans hlt.le
    · rename_i hnlt
      exact addAfter_split res rest temp hs (not_lt.1 hnlt)

theorem NonIncreasing.insert {before after : List QNode} {res : QNode}
    (hs : NonIncreasing (before ++ after)) (hb : ∀ x ∈ before, res.pid ≤ x.pid)
    (ha : ∀ x ∈ after, x.pid ≤ res.pid) : NonIncreasing (before ++ res :: after) := by
  obtain ⟨hs₁, hs₂, hs₃⟩ := pairwise_append.1 hs
  refine pairwise_append.2 ⟨hs₁, pairwise_cons.2 ⟨ha, hs₂⟩, fun x hx => ?_⟩
  exact forall_mem_cons.2 ⟨hb x hx, hs₃ x hx⟩

/-! ## Removing a node -/

theorem rmAfter_first {pid : ℤ} {n : QNode} (hn : n.pid = pid) (b : List QNode) :
    ∀ (a : List QNode) (temp : QNode), (∀ x ∈ a, x.pid ≠ pid) →
    rmAfter pid temp (a ++ n :: b) = .ok (temp :: (a ++ b), n) := by
  intro a
  induction a with
  | nil =>
    intro temp _
    rw [nil_append, rmAfter, if_neg (not_not.2 hn), nil_append]
  | cons nx a ih =>
    intro temp hne
    obtain ⟨hnx, hne⟩ := forall_mem_cons.1 hne
    rw [cons_append, rmAfter, if_pos hnx, ih nx hne]
    rfl

theorem exists_first {pid : ℤ} (h : ∃ x ∈ q, x.pid = pid) :
    ∃ a n b, q = a ++ n :: b ∧ n.pid = pid ∧ ∀ x ∈ a, x.pid ≠ pid := by
  obtain ⟨n, hn⟩ : ∃ n, q.find? (fun x => x.pid = pid) = some n := by
    rw [← Option.isSome_iff_exists, find?_isSome]
    simpa using h
  obtain ⟨hpid, a, b, hq, ha⟩ := find?_eq_some_iff_append.1 hn
  exact ⟨a, n, b, hq, by simpa using hpid, by simpa using ha⟩

end Xv6.Lock
