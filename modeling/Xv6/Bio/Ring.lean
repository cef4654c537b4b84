import Xv6.Bio.Cache
import Xv6.Lib.Links

/-!
# The ring of buffers

`bio.c` once more, now with the `prev` and `next` pointers of the buffers and with
the processes that use them.  A process that has selected a buffer in `bget` waits
for its lock, holds it, and lets go of it in `brelse` in two steps: it releases
the lock, and then, under `bcache.lock`, it decrements `refcnt` and moves the
buffer.

* `cache_structure` — after `binit` and any interleaving of `bget` and `brelse`,
  the pointers form one ring over all buffers, no block has two buffers, `refcnt`
  counts the users of a buffer, and `bget` recycles only a buffer that has none
  and is clean.
* `select_simulates`, `putBack_simulates` — the ring is the list `lru` of the cache
  model: what is done here is what `bref` and `brelse` do there.
-/

namespace Xv6.Bio.Ring

open Xv6.Lib Function List

variable {N : ℕ} {P : Type}

instance : NeZero NBUF := ⟨by decide⟩

/-! ## State -/

def B_DIRTY : UInt32 := 4

/-- `struct buf`, without its links, its lock and its data. -/
structure Buf where
  flags : UInt32
  dev : UInt32
  blockno : UInt32
  refcnt : ℕ

/-- What a process is about to do with a buffer. -/
inductive Place (N : ℕ)
  /-- It is outside `bget` and `brelse`. -/
  | idle
  /-- It has selected the buffer in `bget` and waits for its lock. -/
  | waiting (i : Fin N)
  /-- It has released the lock in `brelse` and has not decremented `refcnt` yet. -/
  | releasing (i : Fin N)
  deriving DecidableEq

/-- `bcache`, and where each process is. -/
structure State (N : ℕ) (P : Type) where
  /-- The `next` and `prev` fields; `none` is `&bcache.head`. -/
  links : Links (Fin N)
  buf : Fin N → Buf
  /-- `b->lock`: the process that holds it. -/
  lock : Fin N → Option P
  place : P → Place N

/-- Why `bget` does not select a buffer. -/
inductive Stop
  /-- panic "bget: no buffers" -/
  | noBuffers
  /-- A loop over the ring does not end. -/
  | loops
  deriving DecidableEq

/-! ## `bio.c` -/

/-- The links `binit` makes, from zeroed memory. -/
def binitLinks (N : ℕ) : Links (Fin N) :=
  (List.finRange N).foldl Links.pushFront ⟨fun _ => none, fun _ => none⟩

/-- `binit`, with all processes outside the cache. -/
def binit (N : ℕ) (P : Type) : State N P where
  links := binitLinks N
  buf _ := ⟨0, 0, 0, 0⟩
  lock _ := none
  place _ := .idle

/-- The test of the first loop of `bget`. -/
def State.hit (s : State N P) (dev blockno : UInt32) (i : Fin N) : Bool :=
  decide ((s.buf i).dev = dev ∧ (s.buf i).blockno = blockno)

/-- The test of the second loop of `bget`. -/
def State.recyclable (s : State N P) (i : Fin N) : Bool :=
  decide ((s.buf i).refcnt = 0 ∧ (s.buf i).flags &&& B_DIRTY = 0)

/-- What `bget` does under `bcache.lock`: the buffer it selects, with its new
fields. -/
def State.select (s : State N P) (dev blockno : UInt32) : Except Stop (Fin N × Buf) :=
  match search s.links.next (s.hit dev blockno) (N + 1) (s.links.next none) with
  | none => .error .loops
  | some (some i) => .ok (i, { s.buf i with refcnt := (s.buf i).refcnt + 1 })
  | some none =>
    match search s.links.prev s.recyclable (N + 1) (s.links.prev none) with
    | none => .error .loops
    | some (some i) => .ok (i, ⟨0, dev, blockno, 1⟩)
    | some none => .error .noBuffers

/-- What `brelse` does under `bcache.lock`. -/
def State.putBack (s : State N P) (i : Fin N) : State N P :=
  let refcnt := (s.buf i).refcnt - 1
  { s with
    buf := update s.buf i { s.buf i with refcnt }
    links := if refcnt = 0 then (s.links.unlink i).pushFront i else s.links }

/-! ## The machine -/

/-- What a process does next. -/
inductive Act (N : ℕ) (P : Type)
  /-- The part of `bget` under `bcache.lock`. -/
  | bget (p : P) (dev blockno : UInt32)
  | acquire (p : P)
  /-- The holder of a buffer changes its flags, in `log_write` or in `iderw`. -/
  | mark (p : P) (i : Fin N) (flags : UInt32)
  | release (p : P) (i : Fin N)
  /-- The part of `brelse` under `bcache.lock`. -/
  | putBack (p : P)

variable [DecidableEq P]

/-- The process goes to another place. -/
def State.goto (s : State N P) (p : P) (x : Place N) : State N P :=
  { s with place := update s.place p x }

/-- Assign to the fields of a buffer. -/
def State.setBuf (s : State N P) (i : Fin N) (b : Buf) : State N P :=
  { s with buf := update s.buf i b }

/-- Assign to the lock of a buffer. -/
def State.setLock (s : State N P) (i : Fin N) (o : Option P) : State N P :=
  { s with lock := update s.lock i o }

/-- One step.  A process that must wait or panics has none, and device numbers
are not zero. -/
def step (s : State N P) : Act N P → Option (State N P)
  | .bget p dev blockno =>
    if s.place p = .idle ∧ dev ≠ 0 then
      match s.select dev blockno with
      | .ok (i, b) => some ((s.setBuf i b).goto p (.waiting i))
      | .error _ => none
    else none
  | .acquire p =>
    match s.place p with
    | .waiting i =>
      if s.lock i = none then some ((s.setLock i (some p)).goto p .idle) else none
    | _ => none
  | .mark p i flags =>
    if s.place p = .idle ∧ s.lock i = some p then
      some (s.setBuf i { s.buf i with flags })
    else none
  | .release p i =>
    if s.place p = .idle ∧ s.lock i = some p then
      some ((s.setLock i none).goto p (.releasing i))
    else none
  | .putBack p =>
    match s.place p with
    | .releasing i => some ((s.putBack i).goto p .idle)
    | _ => none

/-- All runs of `bget` and `brelse`, from `binit` on. -/
def system (N : ℕ) (P : Type) [DecidableEq P] : Lts (State N P) (Act N P) where
  init s := s = binit N P
  step := step

/-! ## The ring is a list -/

/-- The links form a ring over all buffers, in the order `l`. -/
structure Whole (K : Links (Fin N)) (l : List (Fin N)) : Prop where
  ring : IsRing K l
  all : ∀ i, i ∈ l

omit [DecidableEq P]

variable {K : Links (Fin N)} {l : List (Fin N)} {dev blockno : UInt32} {b : Buf} {c : Bio.State N}

theorem Whole.length (h : Whole K l) : l.length = N := by
  have huniv : l.toFinset = Finset.univ := by
    ext i
    simp [h.all i]
  rw [← toFinset_card_of_nodup h.ring.nodup, huniv, Finset.card_univ, Fintype.card_fin]

theorem Whole.search_next (h : Whole K l) (f : Fin N → Bool) :
    search K.next f (N + 1) (K.next none) = some (l.find? f) := by
  have hw := h.ring.walk_next
  rw [h.length] at hw
  exact search_of_walk f hw

theorem Whole.search_prev (h : Whole K l) (f : Fin N → Bool) :
    search K.prev f (N + 1) (K.prev none) = some (l.reverse.find? f) := by
  have hw := h.ring.walk_prev
  rw [h.length] at hw
  exact search_of_walk f hw

theorem Whole.toFront (h : Whole K l) (i : Fin N) :
    Whole ((K.unlink i).pushFront i) (i :: l.erase i) := by
  refine ⟨(h.ring.unlink (h.all i)).pushFront (h.ring.nodup.not_mem_erase), fun j => ?_⟩
  by_cases hj : j = i
  · simp [hj]
  · exact mem_cons_of_mem _ ((mem_erase_of_ne hj).2 (h.all j))

theorem foldl_pushFront (h : IsRing K l) :
    ∀ m : List (Fin N), m.Nodup → (∀ i ∈ m, i ∉ l) →
      IsRing (m.foldl Links.pushFront K) (m.reverse ++ l) := by
  intro m
  induction m generalizing K l with
  | nil => intro _ _; simpa using h
  | cons i m ih =>
    intro hm hl
    obtain ⟨hi, hm'⟩ := nodup_cons.1 hm
    have hnext := ih (h.pushFront (hl i (by simp))) hm' (by
      intro j hj hmem
      rcases mem_cons.1 hmem with rfl | hjl
      · exact hi hj
      · exact hl j (by simp [hj]) hjl)
    simpa using hnext

theorem binit_whole : Whole (binitLinks N) (List.finRange N).reverse := by
  refine ⟨?_, by simp⟩
  have h0 : IsRing (⟨fun _ => none, fun _ => none⟩ : Links (Fin N)) [] := ⟨by simp, rfl, rfl⟩
  simpa [binitLinks] using foldl_pushFront h0 (List.finRange N) (nodup_finRange N) (by simp)

theorem select_eq {s : State N P} (h : Whole s.links l) (dev blockno : UInt32) :
    s.select dev blockno =
      match l.find? (s.hit dev blockno) with
      | some i => .ok (i, { s.buf i with refcnt := (s.buf i).refcnt + 1 })
      | none =>
        match l.reverse.find? s.recyclable with
        | some i => .ok (i, ⟨0, dev, blockno, 1⟩)
        | none => .error .noBuffers := by
  rw [State.select, h.search_next, h.search_prev]
  cases l.find? (s.hit dev blockno) <;> cases l.reverse.find? s.recyclable <;> rfl

theorem select_ok {s : State N P} (h : Whole s.links l) {i : Fin N}
    (hs : s.select dev blockno = .ok (i, b)) :
    ((s.buf i).dev = dev ∧ (s.buf i).blockno = blockno ∧
        b = { s.buf i with refcnt := (s.buf i).refcnt + 1 }) ∨
      ((∀ j, ¬((s.buf j).dev = dev ∧ (s.buf j).blockno = blockno)) ∧
        ((s.buf i).refcnt = 0 ∧ (s.buf i).flags &&& B_DIRTY = 0) ∧ b = ⟨0, dev, blockno, 1⟩) := by
  rw [select_eq h] at hs
  cases hf : l.find? (s.hit dev blockno) with
  | some j =>
    simp only [hf, Except.ok.injEq, Prod.mk.injEq] at hs
    obtain ⟨rfl, rfl⟩ := hs
    have hj := find?_some hf
    simp only [State.hit, decide_eq_true_eq] at hj
    exact .inl ⟨hj.1, hj.2, rfl⟩
  | none =>
    have hmiss : ∀ j, ¬((s.buf j).dev = dev ∧ (s.buf j).blockno = blockno) := by
      intro j
      simpa [State.hit] using find?_eq_none.1 hf j (h.all j)
    cases hr : l.reverse.find? s.recyclable with
    | none => simp [hf, hr] at hs
    | some j =>
      simp only [hf, hr, Except.ok.injEq, Prod.mk.injEq] at hs
      obtain ⟨rfl, rfl⟩ := hs
      have hj := find?_some hr
      simp only [State.recyclable, decide_eq_true_eq] at hj
      exact .inr ⟨hmiss, hj, rfl⟩

theorem select_error {s : State N P} (h : Whole s.links l) {e : Stop}
    (hs : s.select dev blockno = .error e) (i : Fin N) :
    0 < (s.buf i).refcnt ∨ (s.buf i).flags &&& B_DIRTY ≠ 0 := by
  rw [select_eq h] at hs
  cases hf : l.find? (s.hit dev blockno) with
  | some j => simp [hf] at hs
  | none =>
    cases hr : l.reverse.find? s.recyclable with
    | some j => simp [hf, hr] at hs
    | none =>
      have hi := find?_eq_none.1 hr i (mem_reverse.2 (h.all i))
      simp only [State.recyclable, decide_eq_true_eq, not_and_or] at hi
      exact hi.imp Nat.pos_of_ne_zero id

/-! ## The cache model is about this ring -/

/-- A state of the cache model with the same buffers, whose list is the ring. -/
structure Abstracts (s : State N P) (c : Bio.State N) : Prop where
  whole : Whole s.links c.lru
  dev : ∀ i, (c.buf i).dev = (s.buf i).dev
  blockno : ∀ i, (c.buf i).blockno = (s.buf i).blockno
  refcnt : ∀ i, (c.buf i).refcnt = (s.buf i).refcnt
  dirty : ∀ i, (c.buf i).dirty = false ↔ (s.buf i).flags &&& B_DIRTY = 0

theorem search_cached {s : State N P} (h : Abstracts s c) (dev blockno : UInt32) :
    search s.links.next (s.hit dev blockno) (N + 1) (s.links.next none)
      = some (c.cached dev blockno) := by
  rw [h.whole.search_next, Bio.State.cached]
  congr 2
  funext i
  simp [State.hit, h.dev, h.blockno]

theorem search_unused {s : State N P} (h : Abstracts s c) :
    search s.links.prev s.recyclable (N + 1) (s.links.prev none) = some c.unused := by
  rw [h.whole.search_prev, Bio.State.unused]
  congr 2
  funext i
  simp [State.recyclable, h.refcnt, h.dirty]

theorem putBack_whole {s : State N P} (h : Whole s.links l) (i : Fin N) :
    Whole (s.putBack i).links (if (s.buf i).refcnt - 1 = 0 then i :: l.erase i else l) := by
  dsimp only [State.putBack]
  split
  · exact h.toFront i
  · exact h

theorem Abstracts.update {s : State N P} (h : Abstracts s c) {i : Fin N} {b' : Bio.Buf}
    (hd : b'.dev = b.dev) (hb : b'.blockno = b.blockno) (hr : b'.refcnt = b.refcnt)
    (hf : b'.dirty = false ↔ b.flags &&& B_DIRTY = 0) (hl : Whole K l) :
    Abstracts { s with links := K, buf := update s.buf i b }
      { c.setBuf i b' with lru := l } := by
  refine ⟨hl, fun k => ?_, fun k => ?_, fun k => ?_, fun k => ?_⟩ <;>
    by_cases hk : k = i
  · simpa [hk, Bio.State.setBuf] using hd
  · simpa [hk, Bio.State.setBuf] using h.dev k
  · simpa [hk, Bio.State.setBuf] using hb
  · simpa [hk, Bio.State.setBuf] using h.blockno k
  · simpa [hk, Bio.State.setBuf] using hr
  · simpa [hk, Bio.State.setBuf] using h.refcnt k
  · simpa [hk, Bio.State.setBuf] using hf
  · simpa [hk, Bio.State.setBuf] using h.dirty k

theorem select_simulates {s : State N P} (h : Abstracts s c) (dev blockno : UInt32) :
    wp (bref dev blockno)
      (fun i c' => ∃ b, s.select dev blockno = .ok (i, b) ∧
        Abstracts { s with buf := update s.buf i b } c')
      (fun e => e = .noBuffers ∧ s.select dev blockno = .error .noBuffers) c := by
  rw [State.select, search_cached h, search_unused h, bref, wp_bind, wp_get]
  cases hc : c.cached dev blockno with
  | some i =>
    dsimp only
    rw [wp_bind, wp_modify, wp_pure]
    refine ⟨_, rfl, h.update ?_ ?_ ?_ ?_ h.whole⟩
    · exact h.dev i
    · exact h.blockno i
    · exact congrArg (· + 1) (h.refcnt i)
    · exact h.dirty i
  | none =>
    cases hu : c.unused with
    | some i =>
      dsimp only
      rw [wp_bind, wp_modify, wp_pure]
      exact ⟨_, rfl, h.update rfl rfl rfl (by simp) h.whole⟩
    | none =>
      dsimp only
      rw [wp_throw]
      exact ⟨rfl, rfl⟩

theorem putBack_simulates {s : State N P} (h : Abstracts s c) {i : Fin N}
    (hi : (c.buf i).locked = true) :
    wp (Bio.brelse i) (fun _ c' => Abstracts (s.putBack i) c') (fun _ => False) c := by
  rw [Bio.brelse, wp_bind, wp_get, wp_ite]
  refine ⟨fun hno => by simp [hi] at hno, fun _ => ?_⟩
  rw [wp_modify, h.refcnt i]
  refine h.update ?_ ?_ rfl ?_ (putBack_whole h.whole i)
  · exact h.dev i
  · exact h.blockno i
  · exact h.dirty i

/-! ## Invariant -/

/-- How often a process counts as a user of buffer `i` because of its place. -/
def Place.on (i : Fin N) : Place N → ℕ
  | .idle => 0
  | .waiting j => if i = j then 1 else 0
  | .releasing j => if i = j then 1 else 0

@[simp] theorem Place.on_idle (i : Fin N) : Place.on i .idle = 0 := rfl

@[simp] theorem Place.on_waiting (i j : Fin N) :
    Place.on i (.waiting j) = if i = j then 1 else 0 := rfl

@[simp] theorem Place.on_releasing (i j : Fin N) :
    Place.on i (.releasing j) = if i = j then 1 else 0 := rfl

/-- How often a buffer is held. -/
def held : Option P → ℕ
  | none => 0
  | some _ => 1

@[simp] theorem held_none : held (none : Option P) = 0 := rfl

@[simp] theorem held_some (p : P) : held (some p) = 1 := rfl

/-- No two buffers have the same block. -/
def Unique (buf : Fin N → Buf) : Prop :=
  ∀ i j, (buf i).dev ≠ 0 → (buf j).dev = (buf i).dev → (buf j).blockno = (buf i).blockno → j = i

/-- What holds between two steps. -/
structure Inv [Fintype P] (s : State N P) : Prop where
  ring : ∃ l, Whole s.links l
  unique : Unique s.buf
  count : ∀ i, (s.buf i).refcnt = held (s.lock i) + ∑ p, (s.place p).on i

theorem Unique.keep {buf : Fin N → Buf} (h : Unique buf) {i : Fin N} (hd : b.dev = (buf i).dev)
    (hb : b.blockno = (buf i).blockno) :
    Unique (update buf i b) := by
  have hkey : ∀ m, (update buf i b m).dev = (buf m).dev ∧
      (update buf i b m).blockno = (buf m).blockno := by
    intro m
    by_cases hm : m = i
    · subst hm
      simp [hd, hb]
    · simp [update_of_ne hm]
  intro j k
  simp only [(hkey _).1, (hkey _).2]
  exact h j k

theorem Unique.assign {buf : Fin N → Buf} (h : Unique buf) (i : Fin N)
    (hmiss : ∀ j, ¬((buf j).dev = b.dev ∧ (buf j).blockno = b.blockno)) :
    Unique (update buf i b) := by
  intro j k
  by_cases hj : j = i <;> by_cases hk : k = i
  · intros
    rw [hj, hk]
  · subst hj
    simp only [update_self, update_of_ne hk]
    intro _ hkd hkb
    exact absurd ⟨hkd, hkb⟩ (hmiss k)
  · subst hk
    simp only [update_self, update_of_ne hj]
    intro _ hjd hjb
    exact absurd ⟨hjd.symm, hjb.symm⟩ (hmiss j)
  · simp only [update_of_ne hj, update_of_ne hk]
    exact h j k

section Users

variable [Fintype P] {s : State N P} {p : P} {i : Fin N}

theorem init_inv : Inv (binit N P) := by
  refine ⟨⟨_, binit_whole⟩, ?_, ?_⟩
  · intro i j hi
    exact absurd rfl hi
  · intro i
    simp [binit]

theorem Inv.refcnt_pos (h : Inv s) (hp : s.place p = .releasing i) : 0 < (s.buf i).refcnt := by
  have hle := Finset.single_le_sum (f := fun q => (s.place q).on i) (fun _ _ => Nat.zero_le _)
    (Finset.mem_univ p)
  rw [h.count i]
  simp only [hp, Place.on_releasing, if_pos] at hle
  omega

theorem mark_inv (h : Inv s) (flags : UInt32) :
    Inv (s.setBuf i { s.buf i with flags }) := by
  refine ⟨h.ring, h.unique.keep rfl rfl, fun k => ?_⟩
  have hc := h.count k
  by_cases hk : k = i
  · subst hk
    simpa [State.setBuf] using hc
  · simpa [State.setBuf, hk] using hc

theorem sum_on_eq_card (place : P → Place N) (i : Fin N) :
    ∑ p, (place p).on i = (Finset.univ.filter fun p => place p = .waiting i).card
      + (Finset.univ.filter fun p => place p = .releasing i).card := by
  rw [Finset.card_filter, Finset.card_filter, ← Finset.sum_add_distrib]
  refine Finset.sum_congr rfl fun p _ => ?_
  cases place p <;> simp [eq_comm]

end Users

section Steps

variable [DecidableEq P] [Fintype P] {s t : State N P} {p : P} {i : Fin N}

theorem Inv.count_goto (h : Inv s) (x : Place N) (hplace : t.place = update s.place p x)
    (hk : ∀ k, (t.buf k).refcnt + held (s.lock k) + (s.place p).on k
      = (s.buf k).refcnt + held (t.lock k) + x.on k) (k : Fin N) :
    (t.buf k).refcnt = held (t.lock k) + ∑ q, (t.place q).on k := by
  have hsum := sum_update_add (fun _ x => Place.on k x) s.place p x
  have hc := h.count k
  have hk := hk k
  rw [hplace]
  omega

theorem bget_inv (h : Inv s) (hp : s.place p = .idle) (hsel : s.select dev blockno = .ok (i, b)) :
    Inv ((s.setBuf i b).goto p (.waiting i)) := by
  obtain ⟨l, hl⟩ := h.ring
  refine ⟨⟨l, hl⟩, ?_, h.count_goto (.waiting i) rfl fun k => ?_⟩
  · rcases select_ok hl hsel with ⟨-, -, rfl⟩ | ⟨hmiss, -, rfl⟩
    · exact h.unique.keep rfl rfl
    · exact h.unique.assign i hmiss
  · by_cases hk : k = i
    · subst hk
      rcases select_ok hl hsel with ⟨-, -, rfl⟩ | ⟨-, hfree, rfl⟩
      · simp [State.goto, State.setBuf, hp]
        omega
      · simp [State.goto, State.setBuf, hp, hfree.1]
        omega
    · simp [State.goto, State.setBuf, hp, hk]

theorem acquire_inv (h : Inv s) (hp : s.place p = .waiting i) (hi : s.lock i = none) :
    Inv ((s.setLock i (some p)).goto p .idle) := by
  refine ⟨h.ring, h.unique, h.count_goto .idle rfl fun k => ?_⟩
  by_cases hk : k = i
  · subst hk
    simp [State.goto, State.setLock, hp, hi]
  · simp [State.goto, State.setLock, hp, hk]

theorem release_inv (h : Inv s) (hp : s.place p = .idle) (hi : s.lock i = some p) :
    Inv ((s.setLock i none).goto p (.releasing i)) := by
  refine ⟨h.ring, h.unique, h.count_goto (.releasing i) rfl fun k => ?_⟩
  by_cases hk : k = i
  · subst hk
    simp [State.goto, State.setLock, hp, hi]
  · simp [State.goto, State.setLock, hp, hk]

theorem putBack_inv (h : Inv s) (hp : s.place p = .releasing i) :
    Inv ((s.putBack i).goto p .idle) := by
  obtain ⟨l, hl⟩ := h.ring
  have hpos := h.refcnt_pos hp
  refine ⟨⟨_, putBack_whole hl i⟩, h.unique.keep rfl rfl, h.count_goto .idle rfl fun k => ?_⟩
  by_cases hk : k = i
  · subst hk
    simp [State.goto, State.putBack, hp]
    omega
  · simp [State.goto, State.putBack, hp, hk]

theorem step_inv {a : Act N P} (h : Inv s) (hst : step s a = some t) : Inv t := by
  cases a with
  | bget p dev blockno =>
    simp only [step] at hst
    split at hst
    · rename_i hidle
      split at hst
      · rename_i i b hsel
        cases hst
        exact bget_inv h hidle.1 hsel
      · cases hst
    · cases hst
  | acquire p =>
    simp only [step] at hst
    split at hst
    · rename_i i hp
      obtain ⟨hi, rfl⟩ := of_guard hst
      exact acquire_inv h hp hi
    · cases hst
  | mark p i flags =>
    simp only [step] at hst
    split at hst
    · cases hst
      exact mark_inv h flags
    · cases hst
  | release p i =>
    obtain ⟨hi, rfl⟩ := of_guard hst
    exact release_inv h hi.1 hi.2
  | putBack p =>
    simp only [step] at hst
    split at hst
    · rename_i i hp
      cases hst
      exact putBack_inv h hp
    · cases hst

theorem inv_of_reach {ok : State N P → Act N P → Prop} (h : (system N P).Reach ok s) : Inv s := by
  refine h.invariant (I := Inv) ?_ fun s a t hI _ hst => step_inv hI hst
  rintro s rfl
  exact init_inv

theorem held_eq_card (o : Option P) : held o = (Finset.univ.filter fun p => o = some p).card := by
  cases o with
  | none => simp
  | some q => simp [Finset.filter_eq]

/-- **The buffer cache is sound.**  After `binit` and any interleaving of `bget`
and `brelse` by any processes: following `next` from the head leads over every
buffer once and back to the head, and following `prev` leads over them in the
opposite order; no block of a device has two buffers; `refcnt` counts the
processes that hold the buffer, wait for its lock, or are about to decrement it;
and a buffer to which `bget` gives another block has `refcnt` 0 and is clean. -/
theorem cache_structure (h : (system N P).Reach (fun _ _ => True) s) :
    (∃ l : List (Fin N), l.Nodup ∧ (∀ i, i ∈ l) ∧
        walk s.links.next (N + 1) (s.links.next none) = some l ∧
        walk s.links.prev (N + 1) (s.links.prev none) = some l.reverse) ∧
      (∀ i j, (s.buf i).dev ≠ 0 → (s.buf j).dev = (s.buf i).dev →
        (s.buf j).blockno = (s.buf i).blockno → j = i) ∧
      (∀ i, (s.buf i).refcnt = (Finset.univ.filter fun p => s.lock i = some p).card
        + ((Finset.univ.filter fun p => s.place p = .waiting i).card
          + (Finset.univ.filter fun p => s.place p = .releasing i).card)) ∧
      (∀ p dev blockno t, step s (.bget p dev blockno) = some t → ∀ i,
        ((t.buf i).dev ≠ (s.buf i).dev ∨ (t.buf i).blockno ≠ (s.buf i).blockno) →
        (s.buf i).refcnt = 0 ∧ (s.buf i).flags &&& B_DIRTY = 0) := by
  have hI := inv_of_reach h
  obtain ⟨l, hl⟩ := hI.ring
  refine ⟨⟨l, hl.ring.nodup, hl.all, ?_, ?_⟩, hI.unique, fun i => ?_, ?_⟩
  · have hw := hl.ring.walk_next
    rwa [hl.length] at hw
  · have hw := hl.ring.walk_prev
    rwa [hl.length] at hw
  · rw [hI.count i, held_eq_card, sum_on_eq_card]
  · intro p dev blockno t hst i hne
    simp only [step] at hst
    split at hst
    · split at hst
      · rename_i j b hsel
        cases hst
        by_cases hi : i = j
        · subst hi
          rcases select_ok hl hsel with ⟨-, -, rfl⟩ | ⟨-, hfree, -⟩
          · simp [State.goto, State.setBuf] at hne
          · exact hfree
        · simp [State.goto, State.setBuf, update_of_ne hi] at hne
      · cases hst
    · cases hst

/-- Process 0 holds block 7 of device 1, process 1 waits for it. -/
theorem cache_structure_shared :
    ∃ s, (system NBUF (Fin 2)).Reach (fun _ _ => True) s ∧
      ∃ i, (s.buf i).refcnt = 2 ∧ (s.buf i).refcnt
        = (Finset.univ.filter fun p => s.lock i = some p).card
          + ((Finset.univ.filter fun p => s.place p = .waiting i).card
            + (Finset.univ.filter fun p => s.place p = .releasing i).card) := by
  have hinit : (system NBUF (Fin 2)).Reach (fun _ _ => True) (binit NBUF (Fin 2)) := .init rfl
  obtain ⟨s, hs, hv⟩ := Lts.reach_of_exec_map [.bget 0 1 7, .acquire 0, .bget 1 1 7]
    (fun s => (s.buf 0).refcnt) 2 hinit (by decide +kernel)
  exact ⟨s, hs, _, hv, (cache_structure hs).2.2.1 _⟩

/-- **The ring refines the list.**  After `binit` and any interleaving of `bget` and
`brelse` the cache model has a state for the ring; and from every such state `bget` and
`brelse` do along the links what the model does along its list, the panic included. -/
theorem ring_refines_list (h : (system N P).Reach (fun _ _ => True) s) :
    (∃ c, Abstracts s c) ∧ ∀ c, Abstracts s c →
      (∀ dev blockno, wp (bref dev blockno)
        (fun i c' => ∃ b, s.select dev blockno = .ok (i, b) ∧
          Abstracts { s with buf := update s.buf i b } c')
        (fun e => e = .noBuffers ∧ s.select dev blockno = .error .noBuffers) c) ∧
      ∀ i, (c.buf i).locked = true →
        wp (Bio.brelse i) (fun _ c' => Abstracts (s.putBack i) c') (fun _ => False) c := by
  obtain ⟨l, hl⟩ := (inv_of_reach h).ring
  refine ⟨⟨⟨fun _ => .zeroes, fun i => ⟨(s.buf i).dev, (s.buf i).blockno, false,
    decide ((s.buf i).flags &&& B_DIRTY ≠ 0), false, (s.buf i).refcnt, .zeroes⟩, l, .empty,
    fun _ => false, []⟩, hl, fun _ => rfl, fun _ => rfl, fun _ => rfl, fun i => by simp⟩, ?_⟩
  intro c hc
  exact ⟨select_simulates hc, fun _ => putBack_simulates hc⟩

/-- A buffer that one process holds and another waits for. -/
theorem ring_refines_shared :
    ∃ s : State NBUF (Fin 2), (system NBUF (Fin 2)).Reach (fun _ _ => True) s ∧
      (s.buf 0).refcnt = 2 ∧ ∃ c, Abstracts s c := by
  have hinit : (system NBUF (Fin 2)).Reach (fun _ _ => True) (binit NBUF (Fin 2)) := .init rfl
  obtain ⟨s, hs, hv⟩ := Lts.reach_of_exec_map [.bget 0 1 7, .acquire 0, .bget 1 1 7]
    (fun s => (s.buf 0).refcnt) 2 hinit (by decide +kernel)
  exact ⟨s, hs, hv, (ring_refines_list hs).1⟩

end Steps

end Xv6.Bio.Ring
