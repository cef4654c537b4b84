import Xv6.Pipe.Pipe

/-!
# Wakeups on pipes

Who may sleep on a pipe, and when.  A reader sleeps on `&p->nread` while the
buffer is empty and the write end open, a writer on `&p->nwrite` while the buffer
is full and the read end open.

Every path through `piperead` and `pipeclose` that changes the buffer or an end
ends in the `wakeup` the change calls for, and so does every path through
`pipewrite` but one: when it finds the buffer full and the read end closed or
itself killed, it returns -1 at once, without `wakeup(&p->nread)` for the bytes
it has stored since it took the lock.  A reader that was asleep then stays asleep
in front of a full buffer (`killed_writer_loses_wakeup`).  In runs in which no call
returns like that with bytes stored since its last `wakeup(&p->nread)`, no wakeup is
lost (`pipe_loses_no_wakeup`).
-/

namespace Xv6.Pipe

open Xv6.Lib Xv6.Sleep

variable {P : Type}

/-- The step is the return of `pipewrite` from a full buffer, by a call that has stored
bytes since its last `wakeup(&p->nread)`. -/
def abandons (s : State P Chan Data Place) : Act P (Call × UInt8) → Bool
  | .run p _ =>
    match s.pc p with
    | .inside (.writing i n true) =>
      (i : ℤ) < n ∧ s.data.full = true ∧ (s.data.readopen = false ∨ s.killed p = true)
    | _ => false
  | _ => false

/-! ## What the code owes the sleepers -/

/-- The places at which a process owes the readers a `wakeup(&p->nread)`: it has
stored bytes, or closed the write end, since its last one. -/
def Place.owesReaders : Place → Bool
  | .writing _ _ fresh => fresh
  | .closed w => w
  | _ => false

/-- The places at which a process owes the writers a `wakeup(&p->nwrite)`. -/
def Place.owesWriters : Place → Bool
  | .copying _ _ fresh => fresh
  | .closed w => !w
  | _ => false

/-- A reader need not wait. -/
def Data.Readable (d : Data) : Prop :=
  d.empty = false ∨ d.writeopen = false

/-- A writer need not wait. -/
def Data.Writable (d : Data) : Prop :=
  d.full = false ∨ d.readopen = false

/-- A writer about to sleep has found the buffer full and the read end open. -/
def Place.Knows : Place → Data → Prop
  | .waiting _ _, d => d.full = true ∧ d.readopen = true
  | _, _ => True

theorem pipe_knows : (pipe P).Knows Place.Knows := by
  refine ⟨?_, ?_, ?_, ?_⟩
  · intro p l i l' h d
    rcases (outside_cases h).2 with ⟨n, ho⟩ | ⟨n, ho⟩ | ⟨w, ho⟩ <;> cases ho <;> trivial
  · intro p k d l i d' l' h
    cases code_of_inside h <;> trivial
  · intro p k d l i c l' h
    cases code_of_inside h with
    | wait hfull hopen => exact ⟨hfull, hopen⟩
    | _ => trivial
  · intro p k d l i c l' h d'
    cases code_of_inside h <;> trivial

theorem pipe_prompt {owes : Place → Bool} (hidle : ∀ r, owes (.idle r) = false)
    (hwriting : ∀ i n, owes (.writing i n false) = false)
    (hreading : ∀ n, owes (.reading n) = false) : (pipe P).Prompt owes := by
  refine ⟨?_, ?_, ?_, ?_⟩
  · intro p l i l' h
    rcases (outside_cases h).2 with ⟨n, ho⟩ | ⟨n, ho⟩ | ⟨w, ho⟩ <;> cases ho
  · intro p l i c l' h
    rcases (outside_cases h).2 with ⟨n, ho⟩ | ⟨n, ho⟩ | ⟨w, ho⟩ <;> cases ho
  · intro p k d l i c l' h
    cases code_of_inside h with
    | sleepFull => exact hwriting _ _
    | sleepEmpty => exact hreading _
  · intro p k d l i l' h
    cases code_of_inside h <;> exact hidle _

theorem outside_duty {owes : Place → Bool} (hidle : ∀ r, owes (.idle r) = false) {c : Chan} {p : P}
    {l : Place} {i : Call × UInt8} {o : OutStep Chan Place} (h : (pipe P).outside p l i = some o) :
    o.Duty c owes l := by
  obtain ⟨⟨r, rfl⟩, ho⟩ := outside_cases h
  rcases ho with ⟨n, rfl⟩ | ⟨n, rfl⟩ | ⟨w, rfl⟩ <;> exact fun h => by rw [hidle r] at h; cases h

theorem obeys_readers (s : State P Chan Data Place) (a : Act P (Call × UInt8))
    (hok : abandons s a = false) :
    Obeys .nread Data.Readable Place.owesReaders (pipe P) s a := by
  cases a with
  | run p i =>
    refine ⟨fun l o _ ho => outside_duty (fun _ => rfl) ho, ?_⟩
    intro l o hpc ho
    cases code_of_inside ho with
    | @giveUp _ _ fresh hlt hfull hgive =>
      refine .inl fun hfresh => ?_
      obtain rfl : fresh = true := hfresh
      simp [abandons, hpc, hlt, hfull, hgive] at hok
    | wait | written | closedWrite => exact .inl fun h => absurd rfl h
    | put => exact .inl ⟨fun _ => .inr rfl, fun _ => rfl⟩
    | sleepFull => exact .inl ⟨nofun, nofun⟩
    | sleepEmpty hempty hopen =>
      refine .inl ⟨fun _ => ?_, nofun⟩
      rintro (h | h)
      · rw [hempty] at h
        cases h
      · rw [hopen] at h
        cases h
    | copy => exact .inl ⟨fun h => .inl h, nofun⟩
    | get hempty => exact .inl ⟨fun _ => .inl (.inl hempty), nofun⟩
    | closeWrite => exact .inl ⟨fun _ => .inr rfl, nofun⟩
    | closeRead => exact .inl ⟨fun h => .inl h, nofun⟩
    | copied | closedRead => exact .inl fun _ h => by cases h
    | wrote | killed | read | done => exact .inl nofun
  | _ => trivial

theorem obeys_writers [DecidableEq P] {ok : State P Chan Data Place → Act P (Call × UInt8) → Prop}
    {s : State P Chan Data Place} (a : Act P (Call × UInt8))
    (hs : (system (pipe P) pipealloc).Reach ok s) :
    Obeys .nwrite Data.Writable Place.owesWriters (pipe P) s a := by
  cases a with
  | run p i =>
    refine ⟨fun l o _ ho => outside_duty (fun _ => rfl) ho, ?_⟩
    intro l o hpc ho
    refine .inl ?_
    cases code_of_inside ho with
    | giveUp | wrote | killed | read | done => exact nofun
    | wait | written | closedWrite => exact fun _ h => by cases h
    | put hfull => exact ⟨fun _ => .inl (.inl hfull), nofun⟩
    | sleepFull =>
      have hknown : s.data.full = true ∧ s.data.readopen = true := by
        have h := known_of_reach pipe_knows hs p
        rw [hpc] at h
        exact h
      refine ⟨fun _ => ?_, nofun⟩
      rintro (h | h)
      · rw [hknown.1] at h
        cases h
      · rw [hknown.2] at h
        cases h
    | sleepEmpty => exact ⟨nofun, nofun⟩
    | copy => exact ⟨fun h => .inl h, nofun⟩
    | get => exact ⟨fun _ => .inr rfl, fun _ => rfl⟩
    | closeWrite => exact ⟨fun h => .inl h, nofun⟩
    | closeRead => exact ⟨fun _ => .inr rfl, nofun⟩
    | copied | closedRead => exact fun h => absurd rfl h
  | _ => trivial

/-! ## No lost wakeup -/

variable [DecidableEq P]

theorem step_of_abandons {s : State P Chan Data Place} {p : P} {i : Call × UInt8}
    (h : abandons s (.run p i) = true) :
    step (pipe P) s (.run p i) = some { s.put p (.outside (.idle (-1))) with lk := none } ∧
      s.data.full = true ∧ ∀ c, (s.pc p).sleeps c = false := by
  simp only [abandons] at h
  split at h
  · rename_i j n hpc
    obtain ⟨hlt, hfull, hgive⟩ := of_decide_eq_true h
    refine ⟨?_, hfull, fun c => by rw [hpc]; rfl⟩
    simp [step, hpc, pipe, hlt, hfull, hgive, stepIn]
  · cases h

/-- **No lost wakeup on pipes.**  In every run in which no `pipewrite` returns from a full
buffer with bytes stored since its last `wakeup(&p->nread)`, in every state reached with
`p->lock` free: if the buffer is non-empty or the write end closed, no process is `SLEEPING`
on `&p->nread`; if the buffer is not full or the read end closed, no process is `SLEEPING` on
`&p->nwrite`.  Conversely, in every run, such a return while a process sleeps on `&p->nread`
leaves it asleep, with the lock free and the buffer full. -/
theorem pipe_loses_no_wakeup {s : State P Chan Data Place} :
    ((system (pipe P) pipealloc).Reach (fun s a => abandons s a = false) s → s.lk = none →
      (0 < s.data.count ∨ s.data.writeopen = false → ∀ p, (s.pc p).sleeps .nread = false) ∧
      (s.data.count < PIPESIZE ∨ s.data.readopen = false →
        ∀ p, (s.pc p).sleeps .nwrite = false)) ∧
    ((system (pipe P) pipealloc).Reach (fun _ _ => True) s → ∀ p i q,
      abandons s (.run p i) = true → (s.pc q).sleeps .nread = true →
      ∃ t, step (pipe P) s (.run p i) = some t ∧ t.lk = none ∧ t.data.count = PIPESIZE ∧
        (t.pc q).sleeps .nread = true) := by
  refine ⟨fun hs hlk => ?_, fun _ p i q hgive hq => ?_⟩
  swap
  · obtain ⟨hst, hfull, hawake⟩ := step_of_abandons hgive
    have hqp : q ≠ p := by
      rintro rfl
      rw [hawake] at hq
      cases hq
    refine ⟨_, hst, rfl, (s.data.full_iff).1 hfull, ?_⟩
    change (Function.update s.pc p _ q).sleeps _ = true
    rwa [Function.update_of_ne hqp]
  have hinit : ∀ owes : Place → Bool, owes (.idle 0) = false →
      ∀ (d : Data) (ls : P → Place), pipealloc d ls → ∀ p, owes (ls p) = false := by
    rintro owes hidle d ls ⟨_, hls⟩ p
    rw [hls p]
    exact hidle
  refine ⟨?_, ?_⟩
  · intro hc
    have hreadable : s.data.Readable := by
      refine hc.imp_left ?_
      intro hpos
      by_contra hempty
      have hzero := (s.data.empty_iff).1 (Bool.not_eq_false _ ▸ hempty)
      omega
    exact quiet_of_free (pipe_prompt (fun _ => rfl) (fun _ _ => rfl) fun _ => rfl)
      (hinit Place.owesReaders rfl) (fun s a _ hok => obeys_readers s a hok) hs hlk hreadable
  · intro hc
    have hwritable : s.data.Writable := by
      refine hc.imp_left ?_
      intro hroom
      by_contra hfull
      have hsize := (s.data.full_iff).1 (Bool.not_eq_false _ ▸ hfull)
      omega
    exact quiet_of_free (pipe_prompt (fun _ => rfl) (fun _ _ => rfl) fun _ => rfl)
      (hinit Place.owesWriters rfl) (fun s a hr _ => obeys_writers a hr) hs hlk hwritable

/-- A reader finds the pipe empty and sleeps; a writer stores one byte and wakes
it, so with the lock free again nobody sleeps on `&p->nread`. -/
theorem pipe_wakes_reader :
    ∃ s, (system (pipe Bool) pipealloc).Reach (fun s a => abandons s a = false) s ∧
      s.lk = none ∧ s.data.count = 1 ∧ s.pc false = .runnable .nread (.reading 1) ∧
      ∀ p, (s.pc p).sleeps .nread = false := by
  have h₀ : (system (pipe Bool) pipealloc).Reach (fun s a => abandons s a = false) freshPipe :=
    reach_freshPipe
  obtain ⟨s, hs, hv⟩ := Lts.reach_of_exec_map
    [.run false (.piperead 1, 0), .run false (.piperead 1, 0), .go false, .go false, .go false,
      .run true (.pipewrite 1, 0), .run true (.pipewrite 1, 7), .run true (.pipewrite 1, 0),
      .go true, .go true, .go true, .run true (.pipewrite 1, 0)]
    (fun s => (s.lk, s.data.count, s.pc false)) (none, 1, .runnable .nread (.reading 1)) h₀
    (by decide +kernel)
  simp only [Prod.mk.injEq] at hv
  refine ⟨s, hs, hv.1, hv.2.1, hv.2.2, (pipe_loses_no_wakeup.1 hs hv.1).1 (.inl ?_)⟩
  rw [hv.2.1]
  exact Nat.one_pos

/-- **A killed writer loses a wakeup.**  A reader sleeps on the empty pipe; a
writer of 513 bytes is killed, fills the buffer and returns -1.  The lock is free,
512 bytes are buffered, and the reader is still `SLEEPING`. -/
theorem killed_writer_loses_wakeup :
    ∃ s, (system (pipe Bool) pipealloc).Reach (fun _ _ => True) s ∧ s.lk = none ∧
      s.data.count = PIPESIZE ∧ s.pc false = .asleep .nread (.reading 1) := by
  have h₀ : (system (pipe Bool) pipealloc).Reach (fun _ _ => True) freshPipe := reach_freshPipe
  obtain ⟨s, hs, hv⟩ := Lts.reach_of_exec_map
    ([.run false (.piperead 1, 0), .run false (.piperead 1, 0), .go false, .go false, .go false,
      .kill true, .run true (.pipewrite 513, 0)] ++ List.replicate 513 (.run true (.pipewrite 513, 7)))
    (fun s => (s.lk, s.data.count, s.pc false)) (none, PIPESIZE, .asleep .nread (.reading 1)) h₀
    (by decide +kernel)
  simp only [Prod.mk.injEq] at hv
  exact ⟨s, hs, hv⟩

end Xv6.Pipe
