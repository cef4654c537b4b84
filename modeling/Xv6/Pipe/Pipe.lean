import Xv6.Lib.Ring
import Xv6.Proc.Sleep

/-!
# Pipes

`pipewrite`, `piperead` and `pipeclose` on one `struct pipe`, as client code of
`sleep` and `wakeup` around `p->lock`.  Every pass through a loop is a step, so
that `kill` may come between any two of them; the calls of different processes
interleave where `p->lock` is free.

`nread` and `nwrite` are the 32-bit counters of the source and wrap.  `stored`
and `copied` are not fields of the source: they record all bytes `pipewrite` has
stored and all bytes `piperead` has copied out, in order.  `fresh`, likewise,
records that a call has changed the buffer since it last woke the other side.

The page of the pipe is not freed: in the source nobody calls a function on a
pipe that has both ends closed.
-/

namespace Xv6.Pipe

open Xv6.Lib Xv6.Sleep

def PIPESIZE : ℕ := 512

instance : NeZero PIPESIZE := ⟨by decide⟩

/-- `struct pipe`, without its lock. -/
structure Data where
  data : Fin PIPESIZE → UInt8
  nread : BitVec 32
  nwrite : BitVec 32
  readopen : Bool
  writeopen : Bool
  /-- All bytes stored by `pipewrite`. -/
  stored : List UInt8
  /-- All bytes copied out by `piperead`. -/
  copied : List UInt8

namespace Data

/-- The number of unread bytes, `nwrite - nread` in 32 bits. -/
def count (d : Data) : ℕ :=
  (d.nwrite - d.nread).toNat

def put (d : Data) (b : UInt8) : Data :=
  { d with
    data := Function.update d.data (Ring.slot PIPESIZE d.nwrite) b
    nwrite := d.nwrite + 1
    stored := d.stored ++ [b] }

def get (d : Data) : Data :=
  { d with
    nread := d.nread + 1
    copied := d.copied ++ [d.data (Ring.slot PIPESIZE d.nread)] }

def full (d : Data) : Bool :=
  d.nwrite = d.nread + BitVec.ofNat 32 PIPESIZE

def empty (d : Data) : Bool :=
  d.nread = d.nwrite

end Data

/-- The two channels, `&p->nread` and `&p->nwrite`. -/
inductive Chan
  | nread
  | nwrite
  deriving DecidableEq

/-- Where a process is in the code of the pipe. -/
inductive Place
  /-- Outside, the last call having returned `r`. -/
  | idle (r : ℤ)
  /-- `pipewrite` of `n` bytes, at the test of the outer loop with `i` stored. -/
  | writing (i : ℕ) (n : ℤ) (fresh : Bool)
  /-- `pipewrite`, in the inner loop after `wakeup(&p->nread)`. -/
  | waiting (i : ℕ) (n : ℤ)
  /-- `pipewrite` after its loops and the last `wakeup`. -/
  | wrote (n : ℤ)
  /-- `piperead` of `n` bytes, at the test of the first loop. -/
  | reading (n : ℤ)
  /-- `piperead`, at the test of the second loop with `i` copied. -/
  | copying (i : ℕ) (n : ℤ) (fresh : Bool)
  /-- `piperead` after its loops and the last `wakeup`. -/
  | read (i : ℕ)
  | closing (writable : Bool)
  /-- `pipeclose`, having cleared its flag. -/
  | closed (writable : Bool)
  /-- `pipeclose` after its `wakeup`. -/
  | done
  deriving DecidableEq

/-- The functions a process can call. -/
inductive Call
  | pipewrite (n : ℤ)
  | piperead (n : ℤ)
  | pipeclose (writable : Bool)

variable {P : Type}

/-- The code of the three functions.  The input of a step gives the next call and
the next byte of the writer's memory. -/
def pipe (P : Type) : Client P Chan Data Place (Call × UInt8) where
  outside _ l input :=
    match l, input.1 with
    | .idle _, .pipewrite n => some (.acquire (.writing 0 n false))
    | .idle _, .piperead n => some (.acquire (.reading n))
    | .idle _, .pipeclose w => some (.acquire (.closing w))
    | _, _ => none
  inside _ killed d l input :=
    match l with
    | .writing i n _ =>
      if (i : ℤ) < n then
        if d.full then
          if d.readopen = false ∨ killed then some (.release (.idle (-1)))
          else some (.wakeup .nread (.waiting i n))
        else some (.store (d.put input.2) (.writing (i + 1) n true))
      else some (.wakeup .nread (.wrote n))
    | .waiting i n => some (.sleep .nwrite (.writing i n false))
    | .wrote n => some (.release (.idle n))
    | .reading n =>
      if d.empty ∧ d.writeopen then
        if killed then some (.release (.idle (-1)))
        else some (.sleep .nread (.reading n))
      else some (.store d (.copying 0 n false))
    | .copying i n _ =>
      if (i : ℤ) < n then
        if d.empty then some (.wakeup .nwrite (.read i))
        else some (.store d.get (.copying (i + 1) n true))
      else some (.wakeup .nwrite (.read i))
    | .read i => some (.release (.idle i))
    | .closing true => some (.store { d with writeopen := false } (.closed true))
    | .closing false => some (.store { d with readopen := false } (.closed false))
    | .closed true => some (.wakeup .nread .done)
    | .closed false => some (.wakeup .nwrite .done)
    | .done => some (.release (.idle 0))
    | .idle _ => none

/-- `pipealloc`, with nobody near the pipe. -/
def pipealloc (d : Data) (l : P → Place) : Prop :=
  (d.nread = 0 ∧ d.nwrite = 0 ∧ d.readopen = true ∧ d.writeopen = true ∧ d.stored = [] ∧
    d.copied = []) ∧ ∀ p, l p = .idle 0

/-! ## What a step can do -/

/-- The branches of the code under `p->lock`, for the `killed` flag, the pipe and
the writer's next byte. -/
inductive Code (k : Bool) (d : Data) (b : UInt8) : Place → InStep Chan Data Place → Prop
  | giveUp {i : ℕ} {n : ℤ} {f : Bool} : (i : ℤ) < n → d.full = true →
      (d.readopen = false ∨ k = true) → Code k d b (.writing i n f) (.release (.idle (-1)))
  | wait {i : ℕ} {n : ℤ} {f : Bool} : d.full = true → d.readopen = true →
      Code k d b (.writing i n f) (.wakeup .nread (.waiting i n))
  | put {i : ℕ} {n : ℤ} {f : Bool} : d.full = false →
      Code k d b (.writing i n f) (.store (d.put b) (.writing (i + 1) n true))
  | written {i : ℕ} {n : ℤ} {f : Bool} : Code k d b (.writing i n f) (.wakeup .nread (.wrote n))
  | sleepFull {i : ℕ} {n : ℤ} : Code k d b (.waiting i n) (.sleep .nwrite (.writing i n false))
  | wrote {n : ℤ} : Code k d b (.wrote n) (.release (.idle n))
  | killed {n : ℤ} : Code k d b (.reading n) (.release (.idle (-1)))
  | sleepEmpty {n : ℤ} : d.empty = true → d.writeopen = true →
      Code k d b (.reading n) (.sleep .nread (.reading n))
  | copy {n : ℤ} : Code k d b (.reading n) (.store d (.copying 0 n false))
  | get {i : ℕ} {n : ℤ} {f : Bool} : d.empty = false →
      Code k d b (.copying i n f) (.store d.get (.copying (i + 1) n true))
  | copied {i : ℕ} {n : ℤ} {f : Bool} : Code k d b (.copying i n f) (.wakeup .nwrite (.read i))
  | read {i : ℕ} : Code k d b (.read i) (.release (.idle i))
  | closeWrite : Code k d b (.closing true) (.store { d with writeopen := false } (.closed true))
  | closeRead : Code k d b (.closing false) (.store { d with readopen := false } (.closed false))
  | closedWrite : Code k d b (.closed true) (.wakeup .nread .done)
  | closedRead : Code k d b (.closed false) (.wakeup .nwrite .done)
  | done : Code k d b .done (.release (.idle 0))

theorem code_of_inside {p : P} {k : Bool} {d : Data} {l : Place} {input : Call × UInt8}
    {o : InStep Chan Data Place} (h : (pipe P).inside p k d l input = some o) :
    Code k d input.2 l o := by
  cases l with
  | writing i n f =>
    simp only [pipe] at h
    split at h
    · rename_i hlt
      split at h
      · rename_i hfull
        split at h
        · rename_i hgive
          cases h
          exact .giveUp hlt hfull hgive
        · rename_i hgo
          cases h
          refine .wait hfull ?_
          by_contra hopen
          exact hgo (.inl (Bool.not_eq_true _ ▸ hopen))
      · rename_i hfull
        cases h
        exact .put (Bool.not_eq_true _ ▸ hfull)
    · cases h
      exact .written
  | reading n =>
    simp only [pipe] at h
    split at h
    · rename_i hwait
      split at h
      · cases h
        exact .killed
      · cases h
        exact .sleepEmpty hwait.1 hwait.2
    · cases h
      exact .copy
  | copying i n f =>
    simp only [pipe] at h
    split at h
    · split at h
      · cases h
        exact .copied
      · rename_i hempty
        cases h
        exact .get (Bool.not_eq_true _ ▸ hempty)
    · cases h
      exact .copied
  | waiting i n =>
    cases h
    exact .sleepFull
  | wrote n =>
    cases h
    exact .wrote
  | read i =>
    cases h
    exact .read
  | closing w =>
    cases w <;> cases h
    · exact .closeRead
    · exact .closeWrite
  | closed w =>
    cases w <;> cases h
    · exact .closedRead
    · exact .closedWrite
  | done =>
    cases h
    exact .done
  | idle r => cases h

theorem outside_cases {p : P} {l : Place} {input : Call × UInt8} {o : OutStep Chan Place}
    (h : (pipe P).outside p l input = some o) :
    (∃ r, l = .idle r) ∧ ((∃ n, o = .acquire (.writing 0 n false)) ∨
      (∃ n, o = .acquire (.reading n)) ∨ (∃ w, o = .acquire (.closing w))) := by
  obtain ⟨c, b⟩ := input
  cases l with
  | idle r =>
    refine ⟨⟨r, rfl⟩, ?_⟩
    cases c with
    | pipewrite n =>
      cases h
      exact .inl ⟨n, rfl⟩
    | piperead n =>
      cases h
      exact .inr (.inl ⟨n, rfl⟩)
    | pipeclose w =>
      cases h
      exact .inr (.inr ⟨w, rfl⟩)
  | _ => cases h

/-! ## First in, first out -/

/-- The buffered bytes, from `data[nread % PIPESIZE]` on, in order. -/
def Data.buffered (d : Data) : List UInt8 :=
  Ring.window d.data d.nread d.count

/-- At most `PIPESIZE` bytes are buffered, and they are what has been stored and
not yet copied out. -/
structure Fifo (d : Data) : Prop where
  count_le : d.count ≤ PIPESIZE
  stored : d.stored = d.copied ++ d.buffered

namespace Data

variable {d : Data}

theorem nwrite_eq (d : Data) : d.nwrite = d.nread + BitVec.ofNat 32 d.count := by
  rw [count, BitVec.ofNat_toNat, BitVec.setWidth_eq, BitVec.add_comm, BitVec.sub_add_cancel]

theorem count_put (b : UInt8) (h : d.count < PIPESIZE) : (d.put b).count = d.count + 1 := by
  simp only [put, count, PIPESIZE] at *
  bv_omega

theorem count_get (h : 0 < d.count) : d.get.count + 1 = d.count := by
  simp only [get, count] at *
  bv_omega

theorem full_iff (d : Data) : d.full = true ↔ d.count = PIPESIZE := by
  rw [full, decide_eq_true_iff, count, PIPESIZE]
  bv_omega

theorem empty_iff (d : Data) : d.empty = true ↔ d.count = 0 := by
  rw [empty, decide_eq_true_iff, count]
  bv_omega

end Data

theorem dvd_wrap : PIPESIZE ∣ 2 ^ 32 := by decide

namespace Fifo

variable {d : Data}

theorem put (hd : Fifo d) (h : d.full = false) (b : UInt8) : Fifo (d.put b) := by
  have hroom : d.count < PIPESIZE := by
    refine lt_of_le_of_ne hd.count_le ?_
    intro heq
    rw [(d.full_iff).2 heq] at h
    cases h
  have hcount := Data.count_put b hroom
  refine ⟨by omega, ?_⟩
  have hwin : (d.put b).buffered = d.buffered ++ [b] := by
    unfold Data.buffered
    rw [hcount]
    simp only [Data.put]
    rw [d.nwrite_eq]
    exact Ring.window_store dvd_wrap _ _ hroom b
  rw [hwin, ← List.append_assoc]
  exact congrArg (· ++ [b]) hd.stored

theorem get (hd : Fifo d) (h : d.empty = false) : Fifo d.get := by
  have hpos : 0 < d.count := by
    refine Nat.pos_of_ne_zero ?_
    intro heq
    rw [(d.empty_iff).2 heq] at h
    cases h
  have hcount := Data.count_get hpos
  have hle := hd.count_le
  refine ⟨by omega, ?_⟩
  have hwin : d.buffered = d.data (Ring.slot PIPESIZE d.nread) :: d.get.buffered := by
    unfold Data.buffered
    rw [← hcount, Ring.window_succ]
    rfl
  have hst := hd.stored
  rw [hwin, List.append_cons] at hst
  exact hst

end Fifo

variable [DecidableEq P]

/-- **Pipe delivery is first in, first out.**  In every state reached, whatever
the interleaving and however often the counters have wrapped, at most `PIPESIZE`
bytes are unread, and the bytes stored so far are those copied out so far
followed by the buffered ones; so what has been copied out is a prefix of what
has been stored. -/
theorem pipe_fifo {s : State P Chan Data Place}
    (hs : (system (pipe P) pipealloc).Reach (fun _ _ => True) s) :
    s.data.count ≤ PIPESIZE ∧
    s.data.stored = s.data.copied ++ s.data.buffered ∧
    s.data.copied <+: s.data.stored := by
  have hd : Fifo s.data := by
    refine data_invariant (J := Fifo) ?_ ?_ hs
    · rintro d ls ⟨⟨hr, hw, _, _, hst, hco⟩, _⟩
      have hcount : d.count = 0 := by
        simp [Data.count, hr, hw]
      refine ⟨by rw [hcount]; exact Nat.zero_le _, ?_⟩
      rw [hst, hco, Data.buffered, hcount]
      rfl
    · intro p k d l i d' l' hd hin
      cases code_of_inside hin with
      | put hfull => exact hd.put hfull _
      | get hempty => exact hd.get hempty
      | copy => exact hd
      | _ => exact ⟨hd.count_le, hd.stored⟩
  exact ⟨hd.count_le, hd.stored, ⟨_, hd.stored.symm⟩⟩

/-- The freshly allocated pipe with zeroed data. -/
def freshPipe : State P Chan Data Place where
  data := ⟨fun _ => 0, 0, 0, true, true, [], []⟩
  lk := none
  pt := none
  pc := fun _ => .outside (.idle 0)
  killed := fun _ => false

theorem reach_freshPipe {ok : State P Chan Data Place → Act P (Call × UInt8) → Prop} :
    (system (pipe P) pipealloc).Reach ok freshPipe :=
  .init ⟨rfl, rfl, fun _ => .idle 0, fun _ => rfl, ⟨rfl, rfl, rfl, rfl, rfl, rfl⟩, fun _ => rfl⟩

/-- A writer stores 7 and 8, and a reader has copied out the first of them. -/
theorem pipe_fifo_two_bytes :
    ∃ s, (system (pipe Bool) pipealloc).Reach (fun _ _ => True) s ∧ s.data.copied = [7] ∧
      [7, 8] = s.data.copied ++ s.data.buffered := by
  have h₀ : (system (pipe Bool) pipealloc).Reach (fun _ _ => True) freshPipe := reach_freshPipe
  obtain ⟨s, hs, hv⟩ := Lts.reach_of_exec_map
    [.run true (.pipewrite 2, 0), .run true (.pipewrite 2, 7), .run true (.pipewrite 2, 8),
      .run true (.pipewrite 2, 0), .go true, .go true, .go true, .run true (.pipewrite 2, 0),
      .run false (.piperead 1, 0), .run false (.piperead 1, 0), .run false (.piperead 1, 0)]
    (fun s => (s.data.stored, s.data.copied)) ([7, 8], [7])
    h₀ (by decide +kernel)
  simp only [Prod.mk.injEq] at hv
  refine ⟨s, hs, hv.2, ?_⟩
  rw [← hv.1]
  exact (pipe_fifo hs).2.1

end Xv6.Pipe
