import Xv6.Fs.LogWrites

/-!
# Writers that share an open file

`filewrite` of `file.c` by any number of processes on one `struct file` of type `FD_INODE`.
A write goes in chunks; between two chunks of one call other processes run, and a chunk is
written with the inode locked.  `begin_op` and `end_op` only delay a writer and are left out.

What other processes do elsewhere is a step as well, with any outcome that leaves the inode and
the contents of the file as they are (`Others`; `writei_others` is a case of it).

* `Inv` — the file is what it was and after it the chunks in the order they were written, and
  `f->off` is its size, or will be once the holder of the lock has added what it wrote.
* `shared_writers_lose_nothing` — so nothing is lost, and nothing is written twice.
-/

namespace Xv6.Fs.Filewrite

open Xv6.Lib Logged Function List Option

variable {P : Type} [DecidableEq P] {N : ℕ}

/-! ## The source -/

/-- `struct file`, as far as no write changes it. -/
structure File (N : ℕ) where
  writable : Bool
  ip : Fin N

/-- Where a call of `filewrite` is. -/
inductive Stage
  | loop
  | ilock
  | write
  | advance (r : ℤ)
  | iunlock (r : ℤ)
  | check (r : ℤ)

/-- A call that has not returned: the bytes `addr[0 .. n]`, and `parts`, the chunks that it has
written. -/
structure Call where
  src : List UInt8
  i : ℕ
  stage : Stage
  parts : List (List UInt8)

/-- A call that has returned. -/
structure Result where
  src : List UInt8
  ret : ℤ
  parts : List (List UInt8)

def Call.n1 (c : Call) : ℕ :=
  if maxChunk < c.src.length - c.i then maxChunk else c.src.length - c.i

/-- The bytes from `addr + i` on that `writei` is to write. -/
def Call.chunk (c : Call) : List UInt8 := (c.src.drop c.i).take c.n1

inductive Fault
  | fs (e : Panic)
  /-- "short filewrite" -/
  | short
  deriving DecidableEq

structure State (P : Type) (N : ℕ) where
  fs : Fs.State N
  off : UInt32
  /-- The holder of the inode's lock. -/
  lock : Option P
  call : P → Option Call
  panic : Option Fault
  results : P → List Result
  /-- The chunks in the order they were written, with the process that wrote each. -/
  written : List (P × List UInt8)
  /-- The number of bytes of all calls. -/
  asked : ℕ

namespace State

def goto (s : State P N) (p : P) (c : Call) : State P N :=
  { s with call := update s.call p (some c) }

def leave (s : State P N) (p : P) (c : Call) : State P N :=
  { s with
    call := update s.call p none
    results := update s.results p (s.results p ++
      [⟨c.src, if c.i = c.src.length then c.src.length else -1, c.parts⟩]) }

/-- The chunks of `p`. -/
def own (s : State P N) (p : P) : List (List UInt8) :=
  (s.written.filter fun x => x.1 = p).map Prod.snd

end State

/-- The next part of a call of `filewrite`. -/
def filewrite (sb : Superblock) (dev : Devsw) (f : File N) (s : State P N) (p : P) (c : Call) :
    Option (State P N) :=
  match c.stage with
  | .loop =>
    some (if c.i < c.src.length then s.goto p { c with stage := .ilock } else s.leave p c)
  | .ilock =>
    if s.lock = none then
      match (Fs.ilock f.ip).run s.fs with
      | .ok (_, t) => some { s.goto p { c with stage := .write } with fs := t, lock := some p }
      | .error e => some { s with panic := some (.fs e) }
    else none
  | .write =>
    match (Fs.writei sb dev f.ip c.chunk s.off (UInt32.ofNat c.n1)).run s.fs with
    | .ok (r, t) =>
      let part := if 0 < r then [c.chunk] else []
      some { s.goto p { c with stage := .advance r, parts := c.parts ++ part } with
        fs := t
        written := s.written ++ part.map (p, ·) }
    | .error e => some { s with panic := some (.fs e) }
  | .advance r =>
    some { s.goto p { c with stage := .iunlock r } with
      off := if 0 < r then s.off + UInt32.ofNat r.toNat else s.off }
  | .iunlock r => some { s.goto p { c with stage := .check r } with lock := none }
  | .check r =>
    if r < 0 then some (s.leave p c)
    else if r ≠ c.n1 then some { s with panic := some .short }
    else some (s.goto p { c with stage := .loop, i := c.i + r.toNat })

inductive Action (P : Type) (N : ℕ)
  /-- `filewrite` is called with these bytes. -/
  | call (p : P) (src : List UInt8)
  | next (p : P)
  /-- Something happens to the file system. -/
  | other (t : Fs.State N)

def step (sb : Superblock) (dev : Devsw) (f : File N) (s : State P N) :
    Action P N → Option (State P N)
  | .call p src =>
    if s.call p = none then
      if f.writable = false then
        some { s with results := update s.results p (s.results p ++ [⟨src, -1, []⟩]) }
      else some { s.goto p ⟨src, 0, .loop, []⟩ with asked := s.asked + src.length }
    else none
  | .next p => if s.panic = none then (s.call p).bind (filewrite sb dev f s p) else none
  | .other t => if s.panic = none then some { s with fs := t } else none

/-! ## What is assumed -/

/-- The file: a regular one, that is open. -/
structure Regular (sb : Superblock) (ip : Fin N) (s : Fs.State N) : Prop where
  sound : Sound sb s
  ref : 0 < (s.icache ip).ref
  valid : (s.icache ip).valid = true
  type : (s.icache ip).copy.type = T_FILE

/-- The contents of the file. -/
def bytes (ip : Fin N) (s : Fs.State N) : List UInt8 := (s.icache ip).copy.content s.disk

/-- **Nobody else writes the file**: the inode in memory and the contents stay, and the file
system is in order. -/
structure Others (sb : Superblock) (ip : Fin N) (s t : Fs.State N) : Prop where
  sound : Sound sb t
  ref : 0 < (t.icache ip).ref
  valid : (t.icache ip).valid = true
  copy : (t.icache ip).copy = (s.icache ip).copy
  bytes : bytes ip t = bytes ip s

/-- All calls together stay within the greatest size of a file, and nobody else writes it. -/
def Allowed (sb : Superblock) (f : File N) (old : List UInt8) (s : State P N) :
    Action P N → Prop
  | .call _ src => old.length + s.asked + src.length ≤ MAXFILE * BSIZE
  | .next _ => True
  | .other t => Others sb f.ip s.fs t

/-- No call has been made; the file holds `old`, and `f->off` is its size. -/
structure Start (sb : Superblock) (f : File N) (old : List UInt8) (s : State P N) : Prop where
  file : Regular sb f.ip s.fs
  bytes : bytes f.ip s.fs = old
  off : s.off.toNat = old.length
  lock : s.lock = none
  call : ∀ p, s.call p = none
  panic : s.panic = none
  results : ∀ p, s.results p = []
  written : s.written = []
  asked : s.asked = 0

def system (sb : Superblock) (dev : Devsw) (f : File N) (old : List UInt8) (P : Type)
    [DecidableEq P] : Lts (State P N) (Action P N) where
  init := Start sb f old
  step := step sb dev f

variable {sb : Superblock} {dev : Devsw} {f : File N} {ip : Fin N}

variable {src : List UInt8}

/-! ## The invariant -/

/-- The lock is held. -/
def Stage.holds : Stage → Bool
  | .write | .advance _ | .iunlock _ => true
  | _ => false

/-- What has been written and is not yet in `f->off`. -/
def Stage.ahead : Stage → ℕ
  | .advance r => r.toNat
  | _ => 0

/-- How far the call has written. -/
def Call.reached (c : Call) : ℕ :=
  match c.stage with
  | .loop | .ilock | .write => c.i
  | .advance _ | .iunlock _ | .check _ => c.i + c.n1

/-- What the stage says. -/
def Call.At (c : Call) : Prop :=
  match c.stage with
  | .loop => True
  | .ilock | .write => c.i < c.src.length
  | .advance r | .iunlock r | .check r => c.i < c.src.length ∧ r = c.n1

structure Call.Good (c : Call) : Prop where
  le : c.i ≤ c.src.length
  stage : c.At
  /-- The chunks so far are the bytes so far. -/
  parts : c.parts.flatten = c.src.take c.reached
  small : ∀ x ∈ c.parts, x.length ≤ maxChunk

/-- **What a call returns**, with all its bytes cut into chunks. -/
structure Result.Good (r : Result) : Prop where
  ret : r.ret = r.src.length
  parts : r.parts.flatten = r.src
  small : ∀ x ∈ r.parts, x.length ≤ maxChunk

namespace State

/-- What `p` has still to write. -/
def left (s : State P N) (p : P) : ℕ :=
  (s.call p).elim 0 fun c => c.src.length - c.reached

/-- What the holder of the lock has written and not yet added to `f->off`. -/
def ahead (s : State P N) : ℕ :=
  (s.lock.bind s.call).elim 0 fun c => c.stage.ahead

/-- All chunks, one after the other. -/
def added (s : State P N) : List UInt8 := (s.written.map Prod.snd).flatten

end State

structure Inv [Fintype P] (sb : Superblock) (f : File N) (old : List UInt8) (s : State P N) :
    Prop where
  file : Regular sb f.ip s.fs
  bytes : bytes f.ip s.fs = old ++ s.added
  off : s.off.toNat + s.ahead = (old ++ s.added).length
  holder : ∀ p, s.lock = some p ↔ ∃ c, s.call p = some c ∧ c.stage.holds = true
  call : ∀ p c, s.call p = some c → c.Good
  own : ∀ p, s.own p = (s.results p).flatMap Result.parts ++ (s.call p).elim [] Call.parts
  results : ∀ p, ∀ r ∈ s.results p, r.Good
  sum : s.added.length + ∑ p, s.left p = s.asked
  bound : ∀ p, s.call p ≠ none → old.length + s.asked ≤ MAXFILE * BSIZE
  panic : s.panic = none ∨ s.panic = some (.fs .outOfBlocks)

/-! ## Moves of one writer -/

section

variable {s : State P N} {p q : P} {c d : Call} {old : List UInt8}

theorem call_cases {o : Option Call} {x : Call} (h : update s.call p o q = some x) :
    q = p ∧ o = some x ∨ q ≠ p ∧ s.call q = some x := by
  by_cases hq : q = p
  · rw [hq, update_self] at h
    exact .inl ⟨hq, h⟩
  · rw [update_of_ne hq] at h
    exact .inr ⟨hq, h⟩

omit [DecidableEq P] in
theorem ahead_of_lock (hl : s.lock = some p) (hc : s.call p = some c) :
    s.ahead = c.stage.ahead := by
  rw [State.ahead, hl, bind_some, hc]
  rfl

omit [DecidableEq P] in
theorem ahead_of_none (hl : s.lock = none) : s.ahead = 0 := by
  rw [State.ahead, hl]
  rfl

theorem ahead_goto (d : Call) (hl : s.lock = some p) : (s.goto p d).ahead = d.stage.ahead :=
  ahead_of_lock (p := p) hl (update_self ..)

theorem holder_keep
    (h : ∀ q, s.lock = some q ↔ ∃ x, s.call q = some x ∧ x.stage.holds = true)
    (hc : s.call p = some c) (hh : d.stage.holds = c.stage.holds) (q : P) :
    s.lock = some q ↔ ∃ x, update s.call p (some d) q = some x ∧ x.stage.holds = true := by
  rw [h q]
  by_cases hq : q = p
  · rw [hq, update_self, hc]
    simp only [Option.some.injEq, exists_eq_left', hh]
  · rw [update_of_ne hq]

theorem holder_take
    (h : ∀ q, s.lock = some q ↔ ∃ x, s.call q = some x ∧ x.stage.holds = true)
    (hl : s.lock = none) (hh : d.stage.holds = true) (q : P) :
    some p = some q ↔
      ∃ x, update s.call p (some d) q = some x ∧ x.stage.holds = true := by
  by_cases hq : q = p
  · rw [hq, update_self]
    simp only [Option.some.injEq, exists_eq_left', hh]
  · rw [update_of_ne hq, ← h q, hl]
    simp only [Option.some.injEq, reduceCtorEq, iff_false]
    exact fun he => hq he.symm

theorem holder_release
    (h : ∀ q, s.lock = some q ↔ ∃ x, s.call q = some x ∧ x.stage.holds = true)
    (hl : s.lock = some p) (hh : d.stage.holds = false) (q : P) :
    (none : Option P) = some q ↔
      ∃ x, update s.call p (some d) q = some x ∧ x.stage.holds = true := by
  by_cases hq : q = p
  · rw [hq, update_self]
    simp only [Option.some.injEq, exists_eq_left', hh, reduceCtorEq, Bool.false_eq_true]
  · rw [update_of_ne hq, ← h q, hl]
    simp only [Option.some.injEq, reduceCtorEq, false_iff]
    exact fun he => hq he.symm

theorem elim_goto {β : Type} (hc : s.call p = some c) (e : β) (g : Call → β) (hg : g d = g c)
    (q : P) : (update s.call p (some d) q).elim e g = (s.call q).elim e g := by
  by_cases hq : q = p
  · rw [hq, update_self, hc]
    exact hg
  · rw [update_of_ne hq]

variable [Fintype P]

theorem Inv.move (h : Inv sb f old s) (hc : s.call p = some c) (hgood : d.Good)
    (hparts : d.parts = c.parts)
    (hleft : d.src.length - d.reached = c.src.length - c.reached) (l : Option P) (o : UInt32)
    (hholder : ∀ q, l = some q ↔
      ∃ x, update s.call p (some d) q = some x ∧ x.stage.holds = true)
    (hoff : o.toNat + State.ahead { s.goto p d with lock := l, off := o } =
      s.off.toNat + s.ahead) :
    Inv sb f old { s.goto p d with lock := l, off := o } := by
  have hcall : s.call p ≠ none := by
    rw [hc]
    exact nofun
  refine ⟨h.file, h.bytes, hoff.trans h.off, hholder, fun q x hx => ?_, fun q => ?_, h.results, ?_,
    fun _ _ => h.bound p hcall, h.panic⟩
  · obtain ⟨-, hx⟩ | ⟨-, hx⟩ := call_cases hx
    · cases hx
      exact hgood
    · exact h.call q x hx
  · exact (h.own q).trans (congrArg _ (elim_goto hc [] Call.parts hparts q).symm)
  · have hsame : ∀ q, State.left { s.goto p d with lock := l, off := o } q = s.left q :=
      elim_goto hc 0 (fun x => x.src.length - x.reached) hleft
    simp only [hsame]
    exact h.sum

theorem Inv.goto (h : Inv sb f old s) (hc : s.call p = some c) (hgood : d.Good)
    (hparts : d.parts = c.parts)
    (hleft : d.src.length - d.reached = c.src.length - c.reached)
    (hh : d.stage.holds = c.stage.holds) (ha : d.stage.ahead = c.stage.ahead) :
    Inv sb f old (s.goto p d) := by
  refine h.move hc hgood hparts hleft s.lock s.off (holder_keep h.holder hc hh) ?_
  refine congrArg (s.off.toNat + ·) ?_
  cases hl : s.lock with
  | none => rw [ahead_of_none hl, ahead_of_none rfl]
  | some q =>
    obtain ⟨x, hx, -⟩ := (h.holder q).1 hl
    rw [ahead_of_lock hl hx, State.ahead, bind_some]
    have helim := elim_goto hc 0 (fun x => x.stage.ahead) ha q
    rw [hx] at helim
    exact helim

theorem Inv.leave (h : Inv sb f old s) (hc : s.call p = some c) (hstage : c.stage = .loop)
    (hdone : ¬c.i < c.src.length) : Inv sb f old (s.leave p c) := by
  have hgood := h.call p c hc
  have hi : c.i = c.src.length := by
    have := hgood.le
    omega
  have hreached : c.reached = c.src.length := by rw [Call.reached, hstage, ← hi]
  have hcall : s.call p ≠ none := by
    rw [hc]
    exact nofun
  refine ⟨h.file, h.bytes, ?_, fun q => ?_, fun q x hx => ?_, fun q => ?_, fun q r hr => ?_, ?_,
    fun _ _ => h.bound p hcall, h.panic⟩
  · refine Eq.trans (congrArg (s.off.toNat + ·) ?_) h.off
    cases hl : s.lock with
    | none => rw [ahead_of_none hl, ahead_of_none (by exact hl)]
    | some q =>
      obtain ⟨x, hx, hholds⟩ := (h.holder q).1 hl
      have hq : q ≠ p := by
        rintro rfl
        rw [hc] at hx
        cases hx
        rw [hstage] at hholds
        exact nomatch hholds
      rw [ahead_of_lock hl hx]
      refine ahead_of_lock (s := s.leave p c) hl ?_
      exact (update_of_ne hq _ _).trans hx
  · change s.lock = some q ↔ ∃ x, update s.call p none q = some x ∧ _
    rw [h.holder q]
    by_cases hq : q = p
    · rw [hq, update_self, hc]
      simp only [Option.some.injEq, exists_eq_left', hstage, Stage.holds, reduceCtorEq, false_and,
        exists_false, Bool.false_eq_true]
    · rw [update_of_ne hq]
  · obtain ⟨-, hx⟩ | ⟨-, hx⟩ := call_cases hx
    · exact nomatch hx
    · exact h.call q x hx
  · change s.own q = (update s.results p _ q).flatMap Result.parts ++
      (update s.call p none q).elim [] Call.parts
    rw [h.own q]
    by_cases hq : q = p
    · rw [hq, update_self, update_self, hc, flatMap_append,
        flatMap_singleton]
      exact (append_nil _).symm
    · rw [update_of_ne hq, update_of_ne hq]
  · change r ∈ update s.results p _ q at hr
    by_cases hq : q = p
    · rw [hq, update_self, mem_append, mem_singleton] at hr
      rcases hr with hr | rfl
      · exact h.results p r hr
      · refine ⟨if_pos hi, ?_, hgood.small⟩
        rw [← take_length (l := c.src), ← hreached]
        exact hgood.parts
    · rw [update_of_ne hq] at hr
      exact h.results q r hr
  · have hsame : ∀ q, (s.leave p c).left q = s.left q := by
      intro q
      change (update s.call p none q).elim 0 _ = (s.call q).elim 0 _
      by_cases hq : q = p
      · rw [hq, update_self, hc]
        simp only [Option.elim, hreached, Nat.sub_self]
      · rw [update_of_ne hq]
    simp only [hsame]
    exact h.sum

/-! ## The chunk -/

theorem Call.n1_le (c : Call) : c.n1 ≤ maxChunk := by
  rw [Call.n1]
  split <;> omega

theorem Call.n1_le_left (c : Call) : c.n1 ≤ c.src.length - c.i := by
  rw [Call.n1]
  split <;> omega

theorem Call.n1_pos (h : c.i < c.src.length) : 0 < c.n1 := by
  have hmax : maxChunk = 1536 := rfl
  rw [Call.n1]
  split <;> omega

theorem Call.length_chunk (c : Call) : c.chunk.length = c.n1 := by
  have hle := c.n1_le_left
  rw [Call.chunk, length_take, length_drop]
  omega

theorem Call.take_chunk (c : Call) : c.src.take c.i ++ c.chunk = c.src.take (c.i + c.n1) := by
  rw [Call.chunk, take_add]

theorem run_ilock_valid {s : Fs.State N} (h : Regular sb ip s) :
    (Fs.ilock ip).run s = .ok (⟨⟩, s) := by
  have hspec : wp (Fs.ilock ip) (fun _ t => t = s) (fun _ => False) s := by
    have hr := h.ref
    rw [Fs.ilock, wp_bind, wp_get]
    dsimp only
    rw [if_neg (by omega), if_neg (by rw [h.valid]; exact nofun)]
    rfl
  obtain ⟨_, t, hrun, rfl⟩ := exists_ok_of_wp hspec
  exact hrun

variable {t : Fs.State N}

theorem Regular.append {s : Fs.State N} (h : Regular sb ip s) {off : ℕ}
    (hoff : off = (bytes ip s).length) (hw : Written sb s ip off src t) :
    Regular sb ip t ∧ bytes ip t = bytes ip s ++ src := by
  obtain ⟨-, hcopy, -⟩ := h.sound.agree ip h.ref h.valid
  refine ⟨⟨hw.sound, ?_, ?_, ?_⟩, ?_⟩
  · rw [hw.inode]
    exact h.ref
  · rw [hw.inode]
    exact h.valid
  · rw [hw.inode]
    change (t.dinode (s.icache ip).inum).type = T_FILE
    rw [hw.type, ← hcopy]
    exact h.type
  · rw [bytes, hw.inode]
    change (t.dinode (s.icache ip).inum).content t.disk = _
    rw [hw.content, ← hcopy, hoff]
    change (bytes ip s).take _ ++ src ++ (bytes ip s).drop _ = _
    rw [take_length, drop_eq_nil_of_le (Nat.le_add_right _ _), append_nil]

theorem Inv.room (h : Inv sb f old s) (hc : s.call p = some c) (hstage : c.stage = .write) :
    (old ++ s.added).length + c.n1 ≤ MAXFILE * BSIZE := by
  have hat := (h.call p c hc).stage
  rw [Call.At, hstage] at hat
  have hsum := h.sum
  have hle := c.n1_le_left
  have hleft : s.left p = c.src.length - c.i := by
    rw [State.left, hc]
    change c.src.length - c.reached = _
    rw [Call.reached, hstage]
  have hone : s.left p ≤ ∑ q, s.left q :=
    Finset.single_le_sum (fun _ _ => Nat.zero_le _) (Finset.mem_univ p)
  have hbound := h.bound p (by rw [hc]; exact nofun)
  rw [length_append]
  omega

theorem Inv.wrote (h : Inv sb f old s) (hc : s.call p = some c) (hstage : c.stage = .write)
    (hw : Written sb s.fs f.ip s.off.toNat c.chunk t) :
    Inv sb f old { s.goto p { c with stage := .advance c.n1, parts := c.parts ++ [c.chunk] } with
      fs := t
      written := s.written ++ [(p, c.chunk)] } := by
  have hgood := h.call p c hc
  have hat := hgood.stage
  rw [Call.At, hstage] at hat
  have hlock : s.lock = some p := (h.holder p).2 ⟨c, hc, by rw [hstage]; rfl⟩
  have hoff := h.off
  rw [ahead_of_lock hlock hc, hstage] at hoff
  obtain ⟨hfile, hbytes⟩ := h.file.append (by rw [h.bytes]; exact hoff) hw
  have hadded : ((s.written ++ [(p, c.chunk)]).map Prod.snd).flatten = s.added ++ c.chunk := by
    rw [map_append, flatten_append]
    exact congrArg (s.added ++ ·) (append_nil _)
  have hreached : c.reached = c.i := by rw [Call.reached, hstage]
  have hparts : (c.parts ++ [c.chunk]).flatten = c.src.take (c.i + c.n1) := by
    rw [flatten_append, hgood.parts, hreached, ← c.take_chunk]
    exact congrArg (_ ++ ·) (append_nil _)
  refine ⟨hfile, ?_, ?_, holder_keep h.holder hc (by rw [hstage]; rfl), fun q x hx => ?_,
    fun q => ?_, h.results, ?_, fun _ _ => h.bound p (by rw [hc]; exact nofun), h.panic⟩
  · change Filewrite.bytes f.ip t = old ++ ((s.written ++ [(p, c.chunk)]).map Prod.snd).flatten
    rw [hbytes, h.bytes, hadded, append_assoc]
  · have hahead := ahead_goto { c with stage := .advance c.n1, parts := c.parts ++ [c.chunk] } hlock
    change s.off.toNat + (s.goto p _).ahead =
      (old ++ ((s.written ++ [(p, c.chunk)]).map Prod.snd).flatten).length
    rw [hahead, hadded, ← append_assoc, length_append, ← hoff, c.length_chunk]
    rfl
  · obtain ⟨-, hx⟩ | ⟨-, hx⟩ := call_cases hx
    · cases hx
      refine ⟨hgood.le, ⟨hat, rfl⟩, hparts, fun x hx => ?_⟩
      rcases mem_append.1 hx with hx | hx
      · exact hgood.small x hx
      · rw [mem_singleton.1 hx, c.length_chunk]
        exact c.n1_le
    · exact h.call q x hx
  · change ((s.written ++ [(p, c.chunk)]).filter fun x => decide (x.1 = q)).map Prod.snd =
      (s.results q).flatMap Result.parts ++ (update s.call p _ q).elim [] Call.parts
    rw [filter_append, map_append]
    have hown : (s.written.filter fun x => decide (x.1 = q)).map Prod.snd = _ := h.own q
    rw [hown]
    by_cases hq : q = p
    · rw [hq, update_self, hc, filter_cons_of_pos (by simp)]
      exact append_assoc _ _ _
    · rw [update_of_ne hq, filter_cons_of_neg (by simpa using Ne.symm hq)]
      exact append_nil _
  · have hsum := sum_update_add (fun _ o => Option.elim o 0 fun x : Call => x.src.length - x.reached)
      s.call p (some { c with stage := .advance c.n1, parts := c.parts ++ [c.chunk] })
    rw [hc] at hsum
    change _ + (c.src.length - c.reached) = _ + (c.src.length - (c.i + c.n1)) at hsum
    rw [hreached] at hsum
    have hbefore := h.sum
    have hle := c.n1_le_left
    change (((s.written ++ [(p, c.chunk)]).map Prod.snd).flatten).length + ∑ q, Option.elim
      (update s.call p (some { c with
        stage := .advance c.n1, parts := c.parts ++ [c.chunk] }) q) 0 _ = s.asked
    rw [hadded, length_append, c.length_chunk]
    change s.added.length + ∑ q, Option.elim (s.call q) 0 _ = s.asked at hbefore
    omega

/-! ## Every step -/

theorem Inv.filewrite {t : State P N} (h : Inv sb f old s)
    (hc : s.call p = some c) (hst : filewrite sb dev f s p c = some t) : Inv sb f old t := by
  have hgood := h.call p c hc
  have hat := hgood.stage
  have hparts := hgood.parts
  have hmax : MAXFILE * BSIZE = 71680 := rfl
  have hchunk : maxChunk = 1536 := rfl
  unfold Filewrite.filewrite at hst
  rw [Call.At] at hat
  rw [Call.reached] at hparts
  cases hstage : c.stage with
  | loop =>
    rw [hstage] at hst hat hparts
    cases hst
    by_cases hi : c.i < c.src.length
    · rw [if_pos hi]
      refine h.goto hc ⟨hgood.le, hi, hparts, hgood.small⟩ rfl ?_ (by rw [hstage]; rfl)
        (by rw [hstage]; rfl)
      simp only [Call.reached, hstage]
    · rw [if_neg hi]
      exact h.leave hc hstage hi
  | ilock =>
    rw [hstage] at hst hat hparts
    obtain ⟨hl, hst⟩ := ite_none_right_eq_some.1 hst
    rw [run_ilock_valid h.file] at hst
    cases hst
    refine h.move (d := { c with stage := .write }) hc ⟨hgood.le, hat, hparts, hgood.small⟩ rfl ?_
      (some p) s.off (holder_take h.holder hl rfl) ?_
    · simp only [Call.reached, hstage]
    · rw [ahead_of_none hl]
      exact congrArg (s.off.toNat + ·) (ahead_goto (s := { s with lock := some p }) _ rfl)
  | write =>
    rw [hstage] at hst hat hparts
    have hlock : s.lock = some p := (h.holder p).2 ⟨c, hc, by rw [hstage]; rfl⟩
    have hoff := h.off
    rw [ahead_of_lock hlock hc, hstage] at hoff
    change s.off.toNat = _ at hoff
    have hroom := h.room hc hstage
    have hn1 := c.n1_le
    have hn : (UInt32.ofNat c.n1).toNat = c.n1 := by
      rw [UInt32.toNat_ofNat']
      exact Nat.mod_eq_of_lt (by omega)
    have hsize : (s.fs.icache f.ip).copy.size = s.off.toNat := by
      rw [hoff, ← h.bytes, Filewrite.bytes, length_content]
    have hspec : wp (Fs.writei sb dev f.ip c.chunk s.off (UInt32.ofNat c.n1)) _
        (· = .outOfBlocks) s.fs :=
      writei_spec h.file.sound h.file.ref h.file.valid (by rw [h.file.type]; decide)
        (c.length_chunk.trans hn.symm) hsize.ge (by omega) (by omega) fun _ => rfl
    cases hrun : (Fs.writei sb dev f.ip c.chunk s.off (UInt32.ofNat c.n1)).run s.fs with
    | error e =>
      rw [hrun] at hst
      cases hst
      obtain rfl := wp_error hspec hrun
      exact ⟨h.file, h.bytes, h.off, h.holder, h.call, h.own, h.results, h.sum, h.bound,
        .inr rfl⟩
    | ok x =>
      obtain ⟨r, t⟩ := x
      obtain ⟨rfl, hw⟩ := wp_ok hspec hrun
      have hpos : (0 : ℤ) < c.n1 := by
        have := Call.n1_pos hat
        omega
      rw [hrun] at hst
      dsimp only at hst
      rw [hn, if_pos hpos] at hst
      cases hst
      exact h.wrote hc hstage hw
  | advance r =>
    rw [hstage] at hst hat hparts
    cases hst
    obtain ⟨hi, rfl⟩ := hat
    have hlock : s.lock = some p := (h.holder p).2 ⟨c, hc, by rw [hstage]; rfl⟩
    have hn1 := c.n1_le
    refine h.move (d := { c with stage := .iunlock c.n1 }) hc
      ⟨hgood.le, ⟨hi, rfl⟩, hparts, hgood.small⟩ rfl ?_ s.lock _
      (holder_keep h.holder hc (by rw [hstage]; rfl)) ?_
    · change c.src.length - (c.i + c.n1) = _
      rw [Call.reached, hstage]
    · have hpos : (0 : ℤ) < c.n1 := by
        have := Call.n1_pos hi
        omega
      have hoff := h.off
      have hsum := h.sum
      have hbound := h.bound p (by rw [hc]; exact nofun)
      have hahead := ahead_goto { c with stage := .iunlock c.n1 } hlock
      rw [ahead_of_lock hlock hc, hstage, length_append] at hoff
      rw [ahead_of_lock hlock hc, hstage]
      change s.off.toNat + (c.n1 : ℤ).toNat = _ at hoff
      change _ + (s.goto p _).ahead = s.off.toNat + (c.n1 : ℤ).toNat
      rw [hahead, if_pos hpos, Int.toNat_natCast, UInt32.toNat_add, UInt32.toNat_ofNat',
        Nat.add_mod_mod, Nat.mod_eq_of_lt (by omega)]
      rfl
  | iunlock r =>
    rw [hstage] at hst hat hparts
    cases hst
    have hlock : s.lock = some p := (h.holder p).2 ⟨c, hc, by rw [hstage]; rfl⟩
    refine h.move (d := { c with stage := .check r }) hc ⟨hgood.le, hat, hparts, hgood.small⟩ rfl ?_
      none s.off (holder_release h.holder hlock rfl) ?_
    · change c.src.length - (c.i + c.n1) = _
      rw [Call.reached, hstage]
    · rw [ahead_of_lock hlock hc, hstage, ahead_of_none rfl]
      rfl
  | check r =>
    rw [hstage] at hst hat hparts
    obtain ⟨hi, rfl⟩ := hat
    have hle := c.n1_le_left
    dsimp only at hst
    rw [if_neg (by omega), if_neg (by simp)] at hst
    cases hst
    rw [Int.toNat_natCast]
    refine h.goto hc ⟨?_, trivial, hparts, hgood.small⟩ rfl ?_ (by rw [hstage]; rfl)
      (by rw [hstage]; rfl)
    · change c.i + c.n1 ≤ c.src.length
      omega
    · change c.src.length - (c.i + c.n1) = _
      rw [Call.reached, hstage]

theorem Inv.enter (h : Inv sb f old s) (hnone : s.call p = none)
    (hbound : old.length + s.asked + src.length ≤ MAXFILE * BSIZE) :
    Inv sb f old { s.goto p ⟨src, 0, .loop, []⟩ with asked := s.asked + src.length } := by
  refine ⟨h.file, h.bytes, ?_, fun q => ?_, fun q x hx => ?_, fun q => ?_, h.results, ?_,
    fun _ _ => ?_, h.panic⟩
  · refine Eq.trans (congrArg (s.off.toNat + ·) ?_) h.off
    cases hl : s.lock with
    | none => rw [ahead_of_none hl, ahead_of_none (by exact hl)]
    | some q =>
      obtain ⟨x, hx, -⟩ := (h.holder q).1 hl
      have hq : q ≠ p := by
        rintro rfl
        rw [hnone] at hx
        exact nomatch hx
      rw [ahead_of_lock hl hx]
      refine ahead_of_lock (s := s.goto p ⟨src, 0, .loop, []⟩) hl ?_
      exact (update_of_ne hq _ _).trans hx
  · change s.lock = some q ↔ ∃ x, update s.call p (some _) q = some x ∧ _
    rw [h.holder q]
    by_cases hq : q = p
    · rw [hq, update_self, hnone]
      simp only [Option.some.injEq, exists_eq_left', Stage.holds, reduceCtorEq, false_and,
        exists_false, Bool.false_eq_true]
    · rw [update_of_ne hq]
  · obtain ⟨-, hx⟩ | ⟨-, hx⟩ := call_cases hx
    · cases hx
      exact ⟨Nat.zero_le _, trivial, rfl, fun _ hx => absurd hx not_mem_nil⟩
    · exact h.call q x hx
  · change s.own q = _ ++ (update s.call p (some _) q).elim [] Call.parts
    rw [h.own q]
    by_cases hq : q = p
    · rw [hq, update_self, hnone]
      rfl
    · rw [update_of_ne hq]
      rfl
  · have hsum := sum_update_add (fun _ o => Option.elim o 0 fun x : Call => x.src.length - x.reached)
      s.call p (some ⟨src, 0, .loop, []⟩)
    rw [hnone] at hsum
    change _ + 0 = _ + src.length at hsum
    have hbefore := h.sum
    change s.added.length + ∑ q, Option.elim (s.call q) 0 _ = s.asked at hbefore
    change s.added.length + ∑ q, Option.elim (update s.call p (some ⟨src, 0, .loop, []⟩) q) 0 _
      = s.asked + src.length
    omega
  · change old.length + (s.asked + src.length) ≤ _
    omega

theorem Inv.other (h : Inv sb f old s) (ht : Others sb f.ip s.fs t) :
    Inv sb f old { s with fs := t } :=
  ⟨⟨ht.sound, ht.ref, ht.valid, ht.copy ▸ h.file.type⟩, ht.bytes.trans h.bytes, h.off, h.holder,
    h.call, h.own, h.results, h.sum, h.bound, h.panic⟩

theorem Inv.step {t : State P N} {a : Action P N} (hw : f.writable = true) (h : Inv sb f old s)
    (hok : Allowed sb f old s a) (hst : step sb dev f s a = some t) : Inv sb f old t := by
  unfold Filewrite.step at hst
  cases a with
  | call p src =>
    obtain ⟨hnone, hst⟩ := ite_none_right_eq_some.1 hst
    rw [if_neg (by rw [hw]; exact nofun)] at hst
    cases hst
    exact h.enter hnone hok
  | next p =>
    obtain ⟨-, hst⟩ := ite_none_right_eq_some.1 hst
    obtain ⟨c, hc, hst⟩ := bind_eq_some_iff.1 hst
    exact h.filewrite hc hst
  | other t =>
    obtain ⟨-, hst⟩ := ite_none_right_eq_some.1 hst
    cases hst
    exact h.other hok

theorem Start.inv (h : Start sb f old s) : Inv sb f old s := by
  have hadded : s.added = [] := by rw [State.added, h.written]; rfl
  have hahead : s.ahead = 0 := ahead_of_none h.lock
  refine ⟨h.file, ?_, ?_, fun p => ?_, fun p c hc => ?_, fun p => ?_, fun p r hr => ?_, ?_,
    fun p hp => absurd (h.call p) hp, .inl h.panic⟩
  · rw [hadded, append_nil]
    exact h.bytes
  · rw [hadded, hahead, append_nil]
    exact h.off
  · rw [h.lock, h.call p]
    simp only [reduceCtorEq, false_and, exists_false]
  · rw [h.call p] at hc
    exact nomatch hc
  · rw [State.own, h.written, h.results p, h.call p]
    rfl
  · rw [h.results p] at hr
    exact absurd hr not_mem_nil
  · have hleft : ∀ p, s.left p = 0 := by
      intro p
      rw [State.left, h.call p]
      rfl
    simp only [hleft, hadded, h.asked, Finset.sum_const_zero, length_nil, Nat.add_zero]

theorem inv_of_reach (hw : f.writable = true)
    (h : (system sb dev f old P).Reach (Allowed sb f old) s) : Inv sb f old s :=
  h.invariant (I := Inv sb f old) (fun _ hs => Start.inv hs) fun _ _ _ hi hok hst =>
    hi.step hw hok hst

theorem Inv.moves (h : Inv sb f old s) (hno : s.panic = none) (hc : s.call p = some c) :
    ∃ q t, Filewrite.step sb dev f s (.next q) = some t := by
  have hfree : ∀ q x, s.call q = some x → s.lock = none ∨ x.stage.holds = true →
      ∃ t, Filewrite.step sb dev f s (.next q) = some t := by
    intro q x hx hl
    have hstep : Filewrite.step sb dev f s (.next q) = Filewrite.filewrite sb dev f s q x := by
      rw [Filewrite.step, if_pos hno, hx]
      rfl
    rw [hstep, Filewrite.filewrite]
    cases hstage : x.stage with
    | loop | advance r | iunlock r => exact ⟨_, rfl⟩
    | ilock =>
      rw [hstage] at hl
      rw [if_pos (hl.resolve_right nofun), run_ilock_valid h.file]
      exact ⟨_, rfl⟩
    | write =>
      cases (Fs.writei sb dev f.ip x.chunk s.off (UInt32.ofNat x.n1)).run s.fs with
      | _ => exact ⟨_, rfl⟩
    | check r =>
      dsimp only
      by_cases hneg : r < 0
      · rw [if_pos hneg]
        exact ⟨_, rfl⟩
      · rw [if_neg hneg]
        by_cases hne : r ≠ x.n1
        · rw [if_pos hne]
          exact ⟨_, rfl⟩
        · rw [if_neg hne]
          exact ⟨_, rfl⟩
  cases hl : s.lock with
  | none => exact ⟨p, hfree p c hc (.inl hl)⟩
  | some q =>
    obtain ⟨x, hx, hholds⟩ := (h.holder q).1 hl
    exact ⟨q, hfree q x hx (.inr hholds)⟩

/-- **Writers sharing one open file lose nothing.**  When all calls have returned, each has
returned its `n`, the file is its old contents and then an interleaving of the chunks that the
calls were cut into, and `f->off` is the new size.  Until then somebody can go on, unless the
disk is full. -/
theorem shared_writers_lose_nothing (sb : Superblock) (dev : Devsw) (f : File N)
    (hw : f.writable = true) (old : List UInt8) (s : State P N)
    (h : (system sb dev f old P).Reach (Allowed sb f old) s) :
    (s.panic = none ∨ s.panic = some (.fs .outOfBlocks)) ∧
      (∀ p, s.panic = none → s.call p ≠ none →
        ∃ q t, step sb dev f s (.next q) = some t) ∧
      (∀ p, ∀ r ∈ s.results p, r.ret = r.src.length ∧ r.parts.flatten = r.src ∧
        ∀ x ∈ r.parts, x.length ≤ maxChunk) ∧
      ((∀ p, s.call p = none) →
        bytes f.ip s.fs = old ++ (s.written.map Prod.snd).flatten ∧
          s.off.toNat = (bytes f.ip s.fs).length ∧
          ∀ p, (s.written.filter fun x => x.1 = p).map Prod.snd =
            (s.results p).flatMap Result.parts) := by
  have hinv := inv_of_reach hw h
  refine ⟨hinv.panic, fun p hno hp => ?_, fun p r hr => ?_, fun hall => ⟨hinv.bytes, ?_, fun p => ?_⟩⟩
  · obtain ⟨c, hc⟩ := ne_none_iff_exists'.1 hp
    exact hinv.moves hno hc
  · have hgood := hinv.results p r hr
    exact ⟨hgood.ret, hgood.parts, hgood.small⟩
  · have hlock : s.lock = none := by
      by_contra hne
      obtain ⟨q, hq⟩ := ne_none_iff_exists'.1 hne
      obtain ⟨c, hc, -⟩ := (hinv.holder q).1 hq
      rw [hall q] at hc
      exact nomatch hc
    have hoff := hinv.off
    rw [ahead_of_none hlock] at hoff
    rw [hinv.bytes]
    exact hoff
  · have hown := hinv.own p
    rw [hall p] at hown
    exact hown.trans (append_nil _)

end

/-! ## Two writers -/

/-- The empty file of `smallFs`, open for writing. -/
def twoWriters : State (Fin 2) 1 where
  fs := smallFs
  off := 0
  lock := none
  call := fun _ => none
  panic := none
  results := fun _ => []
  written := []
  asked := 0

/-- Calls of a few bytes, and nothing else. -/
def small (s : State (Fin 2) 1) : Action (Fin 2) 1 → Bool
  | .call _ src => decide (s.asked + src.length ≤ 10)
  | .next _ => true
  | .other _ => false

theorem allowed_of_small {s : State (Fin 2) 1} {a : Action (Fin 2) 1} (h : small s a = true) :
    Allowed smallSb ⟨true, 0⟩ [] s a := by
  cases a with
  | call p src =>
    have hle : s.asked + src.length ≤ 10 := of_decide_eq_true h
    have hmax : MAXFILE * BSIZE = 71680 := rfl
    change 0 + s.asked + src.length ≤ _
    omega
  | next p => trivial
  | other t => exact nomatch h

/-- The second writer waits for the lock while the first one writes. -/
def twoWrites : List (Action (Fin 2) 1) :=
  [.call 0 [104, 105], .call 1 [106], .next 0, .next 1, .next 0, .next 0, .next 0, .next 0, .next 1,
    .next 0, .next 0, .next 1, .next 1, .next 1, .next 1, .next 1]

theorem shared_writers_lose_nothing_two : ∃ s : State (Fin 2) 1,
    (system smallSb noDevices ⟨true, 0⟩ [] (Fin 2)).Reach (Allowed smallSb ⟨true, 0⟩ []) s ∧
    (∀ p, s.call p = none) ∧
    bytes 0 s.fs = [104, 105, 106] ∧ s.off.toNat = (bytes 0 s.fs).length := by
  have hstart : Start smallSb ⟨true, 0⟩ [] twoWriters :=
    ⟨⟨smallFs_sound, by decide, rfl, rfl⟩, by decide +kernel, rfl, rfl, fun _ => rfl, rfl, fun _ => rfl,
      rfl, rfl⟩
  have hinit : (system smallSb noDevices ⟨true, 0⟩ [] (Fin 2)).Reach (fun s a => small s a = true)
      twoWriters := .init hstart
  obtain ⟨s, hs, hv⟩ := Lts.reach_of_exec_map twoWrites
    (fun s => ((s.call 0).isNone, (s.call 1).isNone, s.written.map Prod.snd))
    (true, true, [[104, 105], [106]]) hinit (by decide +kernel)
  obtain ⟨h0, h1, hwritten⟩ : (s.call 0).isNone = true ∧ (s.call 1).isNone = true ∧
      s.written.map Prod.snd = [[104, 105], [106]] := by
    simpa only [Prod.mk.injEq] using hv
  have hall : ∀ p, s.call p = none := by
    intro p
    match p with
    | 0 => exact isNone_iff_eq_none.1 h0
    | 1 => exact isNone_iff_eq_none.1 h1
  have hreach : (system smallSb noDevices ⟨true, 0⟩ [] (Fin 2)).Reach
      (Allowed smallSb ⟨true, 0⟩ []) s := hs.mono fun _ _ => allowed_of_small
  obtain ⟨-, -, -, hend⟩ := shared_writers_lose_nothing smallSb noDevices ⟨true, 0⟩ rfl [] s hreach
  obtain ⟨hbytes, hoff, -⟩ := hend hall
  rw [hwritten] at hbytes
  exact ⟨s, hreach, hall, hbytes, hoff⟩

end Xv6.Fs.Filewrite
