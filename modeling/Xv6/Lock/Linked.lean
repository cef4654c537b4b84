import Xv6.Lib.Chain
import Xv6.Lock.Queue

/-!
# The queue of a priority lock in memory

`add_queue` and `rm_queue` of `spinlock.c` with their pointers: the nodes are pages from
`kalloc`, and a queue is a chain of `next` pointers from `head` to null.  The walks along
the chain have a fuel argument, so that a walk that does not end can be told from one
that does.

`Represents` ties a heap to the list of its nodes, and the functions here are shown to do
to the chain what `Lock.addQueue` and `Lock.rmQueue` do to the list:

* `Represents.addQueue`, `Represents.rmQueue` and `Represents.rmQueue_error`.
* `queue_operations` — what that means for a queue in order.
-/

namespace Xv6.Lock.Linked

open Xv6.Lib Function List

/-- The memory the two functions use: the fields of the nodes by the address of their page,
the free list of `kalloc`, and `*head`. -/
structure Heap where
  next : ℕ → Option ℕ
  pid : ℕ → ℤ
  free : List ℕ
  head : Option ℕ

/-- Why a function does not return. -/
inductive Stop
  | running
  /-- `kalloc` has returned null, which `add_queue` writes through. -/
  | nullPointer
  | panic (p : RmPanic)
  deriving DecidableEq, Repr

/-- `kfree`: the page is filled with `1`s, and its first word, where a node has `next`,
links it to the free list. -/
def kfree (p : ℕ) (h : Heap) : Heap :=
  { h with
    next := update h.next p h.free.head?
    pid := update h.pid p 0x01010101
    free := p :: h.free }

/-- The loop of `add_queue`: the `temp` it ends with. -/
def addWalk (h : Heap) (pid : ℤ) : ℕ → ℕ → Option ℕ
  | 0, _ => none
  | fuel + 1, temp =>
    match h.next temp with
    | none => some temp
    | some nx => if h.pid nx > pid then addWalk h pid fuel nx else some temp

def addQueue (fuel : ℕ) (pid : ℤ) (h : Heap) : Except Stop Heap :=
  match h.free with
  | [] => .error .nullPointer
  | res :: free =>
    let next := update h.next res none
    let h := { h with pid := update h.pid res pid, next := next, free := free }
    match h.head with
    | none => .ok { h with head := some res }
    | some temp =>
      if h.pid temp < h.pid res then
        .ok { h with next := update h.next res (some temp), head := some res }
      else
        match addWalk h (h.pid res) fuel temp with
        | none => .error .running
        | some temp =>
          let next := update h.next res (h.next temp)
          .ok { h with next := update next temp (some res) }

/-- The loop of `rm_queue`: `temp`, and `temp2` behind it. -/
def rmWalk (h : Heap) (pid : ℤ) : ℕ → ℕ → Except Stop (ℕ × ℕ)
  | 0, _ => .error .running
  | fuel + 1, temp =>
    match h.next temp with
    | none => .error (.panic .notFound)
    | some nx => if h.pid nx ≠ pid then rmWalk h pid fuel nx else .ok (temp, nx)

def rmQueue (fuel : ℕ) (pid : ℤ) (h : Heap) : Except Stop Heap :=
  match h.head with
  | none => .error (.panic .queueNull)
  | some temp =>
    if h.pid temp = pid then .ok (kfree temp { h with head := h.next temp })
    else
      match rmWalk h pid fuel temp with
      | .error e => .error e
      | .ok (temp, temp2) =>
        .ok (kfree temp2 { h with next := update h.next temp (h.next temp2) })

/-! ## Heaps and lists -/

/-- The chain from `head` is the list `q`, and no page is twice in it or free. -/
structure Represents (h : Heap) (q : List QNode) : Prop where
  chain : Chain h.next h.head (q.map QNode.id)
  pids : ∀ n ∈ q, h.pid n.id = n.pid
  nodup : (q.map QNode.id ++ h.free).Nodup

variable {h : Heap} {q : List QNode} {pid : ℤ}

variable {res : ℕ} {free : List ℕ}

theorem Represents.free_not_mem (hr : Represents h q) (hfree : h.free = res :: free) :
    res ∉ q.map QNode.id := by
  intro hmem
  refine disjoint_of_nodup_append hr.nodup hmem ?_
  rw [hfree]
  exact mem_cons_self

/-! ## Adding -/

theorem addWalk_spec (h : Heap) (pid : ℤ) (res : ℕ) : ∀ (rest : List QNode) (temp : QNode),
    Chain h.next (some temp.id) ((temp :: rest).map QNode.id) →
    (∀ n ∈ rest, h.pid n.id = n.pid) → ((temp :: rest).map QNode.id).Nodup →
    res ∉ (temp :: rest).map QNode.id →
    ∃ t, (∀ fuel, rest.length < fuel → addWalk h pid fuel temp.id = some t) ∧
      t ∈ (temp :: rest).map QNode.id ∧
      Chain (update (update h.next res (h.next t)) t (some res))
        (some temp.id) ((addAfter ⟨res, pid⟩ temp rest).map QNode.id) := by
  intro rest
  induction rest with
  | nil =>
    intro temp hc _ _ hres
    have hend : h.next temp.id = none := hc.2
    have hne : res ≠ temp.id := fun he => hres (he ▸ mem_cons_self)
    refine ⟨temp.id, fun fuel hfuel => ?_, mem_cons_self, rfl, ?_⟩
    · obtain ⟨k, rfl⟩ := Nat.exists_eq_add_of_lt hfuel
      rw [addWalk, hend]
    · rw [update_self]
      refine ⟨rfl, ?_⟩
      rw [update_of_ne hne, update_self, hend]
      rfl
  | cons nx rest ih =>
    intro temp hc hpids hnd hres
    have hstep : h.next temp.id = some nx.id := hc.2.1
    obtain ⟨hnx, hpids⟩ := forall_mem_cons.1 hpids
    have hne : res ≠ temp.id := fun he => hres (he ▸ mem_cons_self)
    have hres' : res ∉ (nx :: rest).map QNode.id := fun hmem => hres (mem_cons_of_mem _ hmem)
    obtain ⟨htemp, hnd⟩ := nodup_cons.1 hnd
    rw [addAfter]
    by_cases hgt : nx.pid > pid
    · -- the walk goes on behind `temp`, whose link stays
      obtain ⟨t, hwalk, hmem, hchain⟩ := ih nx (hstep ▸ hc.2) hpids hnd hres'
      have hne' : temp.id ≠ t := fun he => htemp (he ▸ hmem)
      rw [if_pos hgt]
      refine ⟨t, fun fuel hfuel => ?_, mem_cons_of_mem _ hmem, rfl, ?_⟩
      · obtain ⟨k, rfl⟩ := Nat.exists_eq_add_of_lt hfuel
        simp only [addWalk, hstep, hnx, hgt, if_true]
        exact hwalk _ (by rw [length_cons]; omega)
      · rw [update_of_ne hne', update_of_ne hne.symm, hstep]
        exact hchain
    · rw [if_neg hgt]
      refine ⟨temp.id, fun fuel hfuel => ?_, mem_cons_self, rfl, ?_⟩
      · obtain ⟨k, rfl⟩ := Nat.exists_eq_add_of_lt hfuel
        simp only [addWalk, hstep, hnx, hgt, if_false]
      · rw [update_self]
        refine ⟨rfl, ?_⟩
        rw [update_of_ne hne, update_self]
        exact (Chain.update (h := h.next temp.id) hc.2 hres' _).update htemp _

theorem Represents.of_chain (hr : Represents h q) (hfree : h.free = res :: free)
    {next : ℕ → Option ℕ} {head : Option ℕ}
    (hc : Chain next head ((Lock.addQueue ⟨res, pid⟩ q).map QNode.id)) :
    Represents ⟨next, update h.pid res pid, free, head⟩ (Lock.addQueue ⟨res, pid⟩ q) := by
  have hperm := perm_addQueue ⟨res, pid⟩ q
  refine ⟨hc, fun n hn => ?_, ?_⟩
  · change update h.pid res pid n.id = n.pid
    rcases mem_cons.1 (hperm.mem_iff.1 hn) with rfl | hn
    · exact update_self ..
    · have hne : n.id ≠ res := fun he => hr.free_not_mem hfree (he ▸ mem_map_of_mem hn)
      rw [update_of_ne hne]
      exact hr.pids n hn
  · have hids : ((Lock.addQueue ⟨res, pid⟩ q).map QNode.id ++ free).Perm
        (q.map QNode.id ++ h.free) := by
      rw [hfree]
      exact ((hperm.map QNode.id).append_right free).trans perm_middle.symm
    exact hids.nodup_iff.2 hr.nodup

theorem Represents.addQueue (hr : Represents h q) (hfree : h.free = res :: free) (pid : ℤ) :
    ∃ h', Represents h' (Lock.addQueue ⟨res, pid⟩ q) ∧ h'.free = free ∧
      ∀ fuel, q.length < fuel → Linked.addQueue fuel pid h = .ok h' := by
  have hres := hr.free_not_mem hfree
  -- the queue as it is once the fields of the new node are set
  have hc₁ : Chain (update h.next res none) h.head (q.map QNode.id) :=
    hr.chain.update hres none
  cases q with
  | nil =>
    have hhead : h.head = none := hr.chain
    have hchain : Chain (update h.next res none) (some res)
        ((Lock.addQueue ⟨res, pid⟩ []).map QNode.id) := ⟨rfl, update_self ..⟩
    refine ⟨_, hr.of_chain hfree hchain, rfl, fun fuel _ => ?_⟩
    simp only [Linked.addQueue, hfree, hhead]
  | cons temp rest =>
    have hhead : h.head = some temp.id := hr.chain.1
    have hne : temp.id ≠ res := fun he => hres (he ▸ mem_cons_self)
    have hpid : h.pid temp.id = temp.pid := hr.pids temp mem_cons_self
    by_cases hlt : temp.pid < pid
    · have hchain : Chain (update (update h.next res none) res (some temp.id))
          (some res) ((Lock.addQueue ⟨res, pid⟩ (temp :: rest)).map QNode.id) := by
        rw [Lock.addQueue, if_pos hlt]
        refine ⟨rfl, ?_⟩
        rw [update_self, ← hhead]
        exact hc₁.update hres _
      refine ⟨_, hr.of_chain hfree hchain, rfl, fun fuel _ => ?_⟩
      simp only [Linked.addQueue, hfree, hhead, update_of_ne hne, update_self,
        hpid, hlt, if_true]
    · have hpids : ∀ n ∈ rest, update h.pid res pid n.id = n.pid := by
        intro n hn
        have hmem : n.id ∈ (temp :: rest).map QNode.id :=
          mem_map_of_mem (mem_cons_of_mem _ hn)
        have hne' : n.id ≠ res := fun he => hres (he ▸ hmem)
        rw [update_of_ne hne']
        exact hr.pids n (mem_cons_of_mem _ hn)
      obtain ⟨t, hwalk, _, hchain⟩ := addWalk_spec
        ⟨update h.next res none, update h.pid res pid, free, h.head⟩ pid res
        rest temp (hhead ▸ hc₁) hpids (nodup_append.1 hr.nodup).1 hres
      have hadd : addAfter ⟨res, pid⟩ temp rest = Lock.addQueue ⟨res, pid⟩ (temp :: rest) := by
        rw [Lock.addQueue, if_neg hlt]
      rw [hadd] at hchain
      refine ⟨_, hr.of_chain hfree hchain, rfl, fun fuel hfuel => ?_⟩
      have hwalk := hwalk fuel (Nat.lt_of_succ_lt hfuel)
      rw [hhead] at hwalk
      simp only [Linked.addQueue, hfree, hhead, update_of_ne hne, update_self,
        hpid, hlt, if_false, hwalk]

/-! ## Removing -/

theorem rmWalk_spec (h : Heap) (pid : ℤ) : ∀ (rest : List QNode) (temp : QNode),
    Chain h.next (some temp.id) ((temp :: rest).map QNode.id) →
    (∀ n ∈ rest, h.pid n.id = n.pid) → ((temp :: rest).map QNode.id).Nodup →
    ∀ {q' : List QNode} {n : QNode}, rmAfter pid temp rest = .ok (q', n) →
    ∃ t, (∀ fuel, rest.length < fuel → rmWalk h pid fuel temp.id = .ok (t, n.id)) ∧
      t ∈ (temp :: rest).map QNode.id ∧
      Chain (update h.next t (h.next n.id)) (some temp.id) (q'.map QNode.id) := by
  intro rest
  induction rest with
  | nil => intro temp _ _ _ q' n hrm; cases hrm
  | cons nx rest ih =>
    intro temp hc hpids hnd q' n hrm
    have hstep : h.next temp.id = some nx.id := hc.2.1
    obtain ⟨hnx, hpids⟩ := forall_mem_cons.1 hpids
    obtain ⟨htemp, hnd⟩ := nodup_cons.1 hnd
    rw [rmAfter] at hrm
    by_cases hne : nx.pid ≠ pid
    · rw [if_pos hne] at hrm
      cases hrec : rmAfter pid nx rest with
      | error e => rw [hrec] at hrm; cases hrm
      | ok r =>
        obtain ⟨q₁, n₁⟩ := r
        rw [hrec] at hrm
        cases hrm
        obtain ⟨t, hwalk, hmem, hchain⟩ := ih nx (hstep ▸ hc.2) hpids hnd hrec
        have hne' : temp.id ≠ t := fun he => htemp (he ▸ hmem)
        refine ⟨t, fun fuel hfuel => ?_, mem_cons_of_mem _ hmem, rfl, ?_⟩
        · obtain ⟨k, rfl⟩ := Nat.exists_eq_add_of_lt hfuel
          simp only [rmWalk, hstep, hnx, if_pos hne]
          exact hwalk _ (by rw [length_cons]; omega)
        · rw [update_of_ne hne', hstep]
          exact hchain
    · rw [if_neg hne] at hrm
      cases hrm
      refine ⟨temp.id, fun fuel hfuel => ?_, mem_cons_self, rfl, ?_⟩
      · obtain ⟨k, rfl⟩ := Nat.exists_eq_add_of_lt hfuel
        simp only [rmWalk, hstep, hnx, hne, if_false]
      · rw [update_self]
        refine Chain.update (h := h.next nx.id) hc.2.2 ?_ _
        exact fun hmem => htemp (mem_cons_of_mem _ hmem)

theorem rmWalk_error (h : Heap) (pid : ℤ) : ∀ (rest : List QNode) (temp : QNode),
    Chain h.next (some temp.id) ((temp :: rest).map QNode.id) →
    (∀ n ∈ rest, h.pid n.id = n.pid) → (∀ n ∈ rest, n.pid ≠ pid) →
    ∀ fuel, rest.length < fuel → rmWalk h pid fuel temp.id = .error (.panic .notFound) := by
  intro rest
  induction rest with
  | nil =>
    intro temp hc _ _ fuel hfuel
    have hend : h.next temp.id = none := hc.2
    obtain ⟨k, rfl⟩ := Nat.exists_eq_add_of_lt hfuel
    rw [rmWalk, hend]
  | cons nx rest ih =>
    intro temp hc hpids hne fuel hfuel
    have hstep : h.next temp.id = some nx.id := hc.2.1
    obtain ⟨hnx, hpids⟩ := forall_mem_cons.1 hpids
    obtain ⟨hnenx, hne⟩ := forall_mem_cons.1 hne
    obtain ⟨k, rfl⟩ := Nat.exists_eq_add_of_lt hfuel
    simp only [rmWalk, hstep, hnx, hnenx, if_true, ne_eq, not_false_eq_true]
    exact ih nx (hstep ▸ hc.2) hpids hne _ (by rw [length_cons]; omega)

theorem Represents.rmQueue_error (hr : Represents h q) (hne : ∀ n ∈ q, n.pid ≠ pid) :
    ∃ p, ∀ fuel, q.length < fuel → Linked.rmQueue fuel pid h = .error (.panic p) := by
  cases q with
  | nil =>
    have hhead : h.head = none := hr.chain
    exact ⟨.queueNull, fun fuel _ => by simp only [Linked.rmQueue, hhead]⟩
  | cons temp rest =>
    have hhead : h.head = some temp.id := hr.chain.1
    obtain ⟨hpid, hpids⟩ := forall_mem_cons.1 hr.pids
    obtain ⟨hnetemp, hne⟩ := forall_mem_cons.1 hne
    refine ⟨.notFound, fun fuel hfuel => ?_⟩
    have hwalk := rmWalk_error h pid rest temp (hhead ▸ hr.chain) hpids hne fuel
      (Nat.lt_of_succ_lt hfuel)
    simp only [Linked.rmQueue, hhead, hpid, hnetemp, if_false, hwalk]

theorem Represents.of_bypass {a b : List QNode} {n : QNode} (hr : Represents h (a ++ n :: b))
    {next : ℕ → Option ℕ} {head : Option ℕ} (hc : Chain next head ((a ++ b).map QNode.id)) :
    Represents (kfree n.id { h with next := next, head := head }) (a ++ b) := by
  have hids : ((a ++ n :: b).map QNode.id ++ h.free).Perm
      ((a ++ b).map QNode.id ++ n.id :: h.free) := by
    have hperm : (a ++ n :: b).Perm (n :: (a ++ b)) := perm_middle
    exact ((hperm.map QNode.id).append_right h.free).trans perm_middle.symm
  have hnd := hids.nodup_iff.1 hr.nodup
  have hout : n.id ∉ (a ++ b).map QNode.id := fun hmem =>
    disjoint_of_nodup_append hnd hmem mem_cons_self
  refine ⟨hc.update hout _, fun x hx => ?_, hnd⟩
  have hne : x.id ≠ n.id := fun he => hout (he ▸ mem_map_of_mem hx)
  change update h.pid n.id _ x.id = x.pid
  rw [update_of_ne hne]
  refine hr.pids x ?_
  rw [mem_append] at hx ⊢
  exact hx.imp_right (mem_cons_of_mem n)

theorem Represents.rmQueue {a b : List QNode} {n : QNode} (hr : Represents h (a ++ n :: b))
    (hn : n.pid = pid) (hne : ∀ x ∈ a, x.pid ≠ pid) :
    ∃ h', Represents h' (a ++ b) ∧ h'.free = n.id :: h.free ∧
      ∀ fuel, (a ++ n :: b).length < fuel → Linked.rmQueue fuel pid h = .ok h' := by
  cases a with
  | nil =>
    have hhead : h.head = some n.id := hr.chain.1
    have hpid : h.pid n.id = pid := (hr.pids n mem_cons_self).trans hn
    have hchain : Chain h.next (h.next n.id) (([] ++ b).map QNode.id) := hr.chain.2
    refine ⟨_, hr.of_bypass hchain, rfl, fun fuel _ => ?_⟩
    simp only [Linked.rmQueue, hhead, hpid, if_true]
  | cons temp a =>
    have hhead : h.head = some temp.id := hr.chain.1
    obtain ⟨hpid, hpids⟩ := forall_mem_cons.1 hr.pids
    obtain ⟨hnetemp, hne⟩ := forall_mem_cons.1 hne
    obtain ⟨t, hwalk, _, hchain⟩ := rmWalk_spec h pid (a ++ n :: b) temp (hhead ▸ hr.chain) hpids
      (nodup_append.1 hr.nodup).1 (rmAfter_first hn b a temp hne)
    refine ⟨_, hr.of_bypass hchain, rfl, fun fuel hfuel => ?_⟩
    have hwalk := hwalk fuel (Nat.lt_of_succ_lt hfuel)
    simp only [Linked.rmQueue, hhead, hpid, hnetemp, if_false, hwalk]

/-! ## The operations on a queue in order -/

/-- On a queue in order `add_queue` puts the pid between the nodes that are not smaller and
those that are not larger.  On any queue `rm_queue` takes out and frees the first node that
has the pid, and panics exactly when there is none.  Removing a pid that has just been
added to a queue without it leaves the queue and the free list as they were. -/
theorem queue_operations (h : Heap) (q : List QNode) (hr : Represents h q) (pid : ℤ) :
    (∀ res free, h.free = res :: free → NonIncreasing q →
      ∃ before after h', q = before ++ after ∧
        Represents h' (before ++ ⟨res, pid⟩ :: after) ∧ h'.free = free ∧
        (∀ fuel, q.length < fuel → Linked.addQueue fuel pid h = .ok h') ∧
        NonIncreasing (before ++ ⟨res, pid⟩ :: after) ∧ ∀ x ∈ before, pid ≤ x.pid) ∧
    (∀ a n b, q = a ++ n :: b → n.pid = pid → (∀ x ∈ a, x.pid ≠ pid) →
      ∃ h', Represents h' (a ++ b) ∧ h'.free = n.id :: h.free ∧
        ∀ fuel, q.length < fuel → Linked.rmQueue fuel pid h = .ok h') ∧
    (∀ fuel, q.length < fuel →
      ((∃ p, Linked.rmQueue fuel pid h = .error (.panic p)) ↔ ∀ x ∈ q, x.pid ≠ pid)) ∧
    (h.free ≠ [] → NonIncreasing q → (∀ x ∈ q, x.pid ≠ pid) →
      ∃ h' h'', Represents h'' q ∧ h''.free = h.free ∧
        (∀ fuel, q.length < fuel → Linked.addQueue fuel pid h = .ok h') ∧
        ∀ fuel, q.length + 1 < fuel → Linked.rmQueue fuel pid h' = .ok h'') := by
  refine ⟨?_, ?_, ?_, ?_⟩
  · intro res free hfree hs
    obtain ⟨before, after, hq, hadd, hb, ha⟩ := addQueue_split ⟨res, pid⟩ hs
    obtain ⟨h', hr', hfree', hrun⟩ := hr.addQueue hfree pid
    rw [hadd] at hr'
    exact ⟨before, after, h', hq, hr', hfree', hrun, NonIncreasing.insert (hq ▸ hs) hb ha, hb⟩
  · rintro a n b rfl hn hne
    exact hr.rmQueue hn hne
  · intro fuel hfuel
    refine ⟨fun hpanic => ?_, fun hne => ?_⟩
    · -- otherwise there is a first node with the pid, and it is removed
      by_contra hex
      push Not at hex
      obtain ⟨a, n, b, rfl, hn, hne⟩ := exists_first hex
      obtain ⟨h', _, _, hrun⟩ := hr.rmQueue hn hne
      obtain ⟨p, hpanic⟩ := hpanic
      rw [hrun fuel hfuel] at hpanic
      cases hpanic
    · obtain ⟨p, hrun⟩ := hr.rmQueue_error hne
      exact ⟨p, hrun fuel hfuel⟩
  · intro hfree hs hne
    obtain ⟨res, free, hfree⟩ := exists_cons_of_ne_nil hfree
    obtain ⟨before, after, hq, hadd, _, _⟩ := addQueue_split ⟨res, pid⟩ hs
    obtain ⟨h', hr', hfree', hrun⟩ := hr.addQueue hfree pid
    rw [hadd] at hr'
    obtain ⟨h'', hr'', hfree'', hrun'⟩ := hr'.rmQueue rfl fun x hx =>
      hne x (hq ▸ mem_append_left after hx)
    refine ⟨h', h'', hq ▸ hr'', ?_, hrun, fun fuel hfuel => hrun' fuel ?_⟩
    · rw [hfree'', hfree', hfree]
    · rw [hq, length_append] at hfuel
      rw [length_append, length_cons]
      omega

/-- The pids `5` and `3` in the pages `1` and `2`, with page `7` free. -/
def twoNodes : Heap :=
  ⟨fun p => if p = 1 then some 2 else none, fun p => if p = 1 then 5 else 3, [7], some 1⟩

theorem represents_twoNodes : Represents twoNodes [⟨1, 5⟩, ⟨2, 3⟩] :=
  ⟨⟨rfl, rfl, rfl⟩, by decide, by decide⟩

/-- Adding pid `4` to it. -/
theorem queue_operations_twoNodes :
    ∃ before after h', [⟨1, 5⟩, ⟨2, 3⟩] = before ++ after ∧
      Represents h' (before ++ ⟨7, 4⟩ :: after) ∧ h'.free = [] ∧
      (∀ fuel, 2 < fuel → Linked.addQueue fuel 4 twoNodes = .ok h') ∧
      NonIncreasing (before ++ ⟨7, 4⟩ :: after) ∧ ∀ x ∈ before, 4 ≤ x.pid :=
  (queue_operations twoNodes _ represents_twoNodes 4).1 7 [] rfl (by simp [NonIncreasing])

end Xv6.Lock.Linked
