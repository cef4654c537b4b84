import Xv6.Ftable.Table

/-!
# File reference counts are exact

* `Local` — what a process has: its descriptors, those of the child it is making,
  references, pipe ends and duties it has in hand.  `Local.res` counts all of it,
  and `total` says what the counts of all processes must add up to.
* `protocol` — which operations an account allows.
* `call_obeys` — every system call keeps to it.
-/

namespace Xv6.Ftable

open Xv6.Lib Function List

variable {n m : ℕ}

/-! ## Accounts -/

/-- What a process has. -/
structure Local (n m : ℕ) where
  live : Bool
  table : Fd → Option FileId
  /-- The process it is creating, and the descriptors of that one. -/
  child : Option (Fin n × (Fd → Option FileId))
  /-- References it has beyond those of the descriptors. -/
  owed : FileId → ℤ
  /-- Files it has allocated and not given a type yet. -/
  blank : FileId → ℕ
  /-- Closed files for which it must call `pipeclose` or `iput`. -/
  duty : FileId → ℕ
  /-- Pipe ends that no file refers to. -/
  ends : Fin m × Bool → ℕ
  dead : Fin m → ℕ
  /-- The pipe it is in `piperead` or `pipewrite` on. -/
  inside : Option (Fin m)
  /-- A file whose fields it has read. -/
  seen : Option (FileId × File m)

/-- A process that does not run. -/
def Local.off : Local n m :=
  ⟨false, fun _ => none, none, 0, 0, 0, 0, 0, none, none⟩

/-- How many descriptors refer to a file. -/
def slots (T : Fd → Option FileId) (f : FileId) : ℤ := ∑ fd, if T fd = some f then 1 else 0

/-- How many descriptors of the child do. -/
def childSlots (c : Option (Fin n × (Fd → Option FileId))) (f : FileId) : ℤ :=
  match c with
  | none => 0
  | some (_, T) => slots T f

/-- What is counted. -/
inductive Key (m : ℕ)
  | share (f : FileId)
  | blank (f : FileId)
  | duty (f : FileId)
  | ends (pg : Fin m) (writable : Bool)
  | dead (pg : Fin m)

/-- How much of it a process has. -/
def Local.res (g : Local n m) : Key m → ℤ
  | .share f => slots g.table f + childSlots g.child f + g.owed f
  | .blank f => g.blank f
  | .duty f => g.duty f
  | .ends pg w => g.ends (pg, w)
  | .dead pg => g.dead pg

/-- The file is an end of a pipe. -/
def File.hasEnd (x : File m) (pg : Fin m) (w : Bool) : Prop :=
  x.type = .FD_PIPE ∧ x.pipe = some pg ∧ x.writable = w

instance (x : File m) (pg : Fin m) (w : Bool) : Decidable (x.hasEnd pg w) :=
  inferInstanceAs (Decidable (_ ∧ _ ∧ _))

/-- The end of the pipe is open. -/
def Pipe.isOpen (x : Pipe) (w : Bool) : Bool := if w = true then x.writeopen else x.readopen

/-- The page is a pipe, with this end open. -/
def State.isOpen (s : State n m) (pg : Fin m) (w : Bool) : Bool :=
  (s.pipe pg).any fun x => x.isOpen w

/-- `1` if the file has a type. -/
def File.typed (x : File m) : ℤ := if x.type = .FD_NONE then 0 else 1

/-- How many files are this end. -/
def ends (file : FileId → File m) (pg : Fin m) (w : Bool) : ℤ :=
  ∑ f, if (file f).hasEnd pg w then 1 else 0

/-- How much of it there must be in all. -/
def total (s : State n m) : Key m → ℤ
  | .share f => (s.file f).ref
  | .blank f => (if 0 < (s.file f).ref then 1 else 0) - (s.file f).typed
  | .duty f => s.opened f - s.released f - (s.file f).typed
  | .ends pg w => (if s.isOpen pg w = true then 1 else 0) - ends s.file pg w
  | .dead pg => if s.pipe pg = some ⟨false, false⟩ then 1 else 0

/-- The process is outside all calls. -/
structure Rest (g : Local n m) : Prop where
  child : g.child = none
  owed : g.owed = 0
  blank : g.blank = 0
  duty : g.duty = 0
  ends : g.ends = 0
  dead : g.dead = 0
  inside : g.inside = none

/-! ## The protocol -/

/-- The child is on its own. -/
def Local.parted (g : Local n m) : Local n m := { g with child := none, seen := none }

/-- The operations a process may ask for. -/
def allowed (g : Local n m) : Op n m → Prop
  | .filedup f => 1 ≤ g.res (.share f) ∧ g.blank f = 0
  | .fileclose f => 1 ≤ g.res (.share f) ∧ g.inside = none
  | .setfile f type _ w pipe _ => g.blank f = 1 ∧
      ((type = .FD_PIPE ∧ ∃ pg, pipe = some pg ∧ 1 ≤ g.ends (pg, w)) ∨ type = .FD_INODE)
  | .getfile f => 1 ≤ g.res (.share f) ∧ g.blank f = 0 ∧ g.inside = none
  | .pipeclose f pg w => 1 ≤ g.duty f ∧ 1 ≤ g.ends (pg, w)
  | .kfree pg => 1 ≤ g.dead pg
  | .iput f _ => 1 ≤ g.duty f
  | .enter f pg => ∃ x, g.seen = some (f, x) ∧ x.type = .FD_PIPE ∧ x.pipe = some pg
  | .touch pg => g.inside = some pg
  | .allocproc => g.child = none
  | .unalloc q => g.child = some (q, fun _ => none)
  | .setchild q fd _ => ∃ T, g.child = some (q, T) ∧ T fd = none
  | .run q => (∃ T, g.child = some (q, T)) ∧ Rest g.parted
  | .zombie => Rest g ∧ ∀ fd, g.table fd = none
  | _ => True

/-- The operations a process may ask for, if it runs. -/
def legal (g : Local n m) (o : Op n m) : Prop := g.live = true ∧ allowed g o

/-- What it may expect of the result. -/
def answers (g : Local n m) : (o : Op n m) → Res o → Prop
  | .filealloc, some f => g.res (.share f) = 0 ∧ g.blank f = 0
  | .filedup _, r => r = true
  | .fileclose f, r => match r with
      | none => False
      | some none => g.blank f = 0
      | some (some ff) => (ff.type = .FD_PIPE → ff.pipe ≠ none) ∧
          (g.blank f = 1 ↔ ff.type = .FD_NONE)
  | .getfile _, x => x.type ≠ .FD_NONE ∧ (x.type = .FD_PIPE → x.pipe ≠ none)
  | .fdalloc _, some fd => g.table fd = none
  | .getfd fd, r => r = g.table fd
  | _, _ => True

/-- One more, or one less, of what is counted. -/
def bump {α : Type} [DecidableEq α] (f : α → ℕ) (a : α) : α → ℕ := f + Pi.single a 1

/-- The process has one reference less. -/
def Local.drop (g : Local n m) (f : FileId) : Local n m :=
  { g with owed := g.owed - Pi.single f 1, seen := none }

/-- What a process has after `fileclose` has seen the last reference go. -/
def Local.closed (g : Local n m) (f : FileId) (ff : File m) : Local n m :=
  { g with
    owed := g.owed - Pi.single f 1
    blank := update g.blank f 0
    duty := if ff.type = .FD_NONE then g.duty else bump g.duty f
    ends := match ff.type, ff.pipe with
      | .FD_PIPE, some pg => bump g.ends (pg, ff.writable)
      | _, _ => g.ends
    seen := none }

/-- What it has after closing one end of a pipe. -/
def Local.endClosed (g : Local n m) (f : FileId) (pg : Fin m) (w last : Bool) : Local n m :=
  { g with
    duty := g.duty - Pi.single f 1
    ends := g.ends - Pi.single (pg, w) 1
    dead := if last = true then bump g.dead pg else g.dead }

/-- What it has after `filealloc`. -/
def Local.got (g : Local n m) (f : FileId) : Local n m :=
  { g with owed := g.owed + Pi.single f 1, blank := update g.blank f 1 }

/-- The process gets one reference more. -/
def Local.dup (g : Local n m) (f : FileId) : Local n m := { g with owed := g.owed + Pi.single f 1 }

/-- A reference goes into a descriptor. -/
def Local.store (g : Local n m) (fd : Fd) (f : FileId) : Local n m :=
  { g with table := update g.table fd (some f), owed := g.owed - Pi.single f 1 }

/-- A descriptor is cleared, and its reference stays. -/
def Local.take (g : Local n m) (fd : Fd) : Local n m :=
  { g with
    table := update g.table fd none
    owed := match g.table fd with
      | none => g.owed
      | some f => g.owed + Pi.single f 1 }

/-- A pipe has two ends. -/
def Local.piped (g : Local n m) (pg : Fin m) : Local n m :=
  { g with ends := bump (bump g.ends (pg, false)) (pg, true) }

/-- A file gets its type. -/
def Local.typed (g : Local n m) (f : FileId) (type : FileType) (w : Bool) (pipe : Option (Fin m)) :
    Local n m :=
  { g with
    blank := update g.blank f 0
    ends := match type, pipe with
      | .FD_PIPE, some pg => g.ends - Pi.single (pg, w) 1
      | _, _ => g.ends }

/-- A reference goes into a descriptor of the child. -/
def Local.give (g : Local n m) (q : Fin n) (fd : Fd) (f : FileId) : Local n m :=
  { g with
    child := match g.child with
      | none => none
      | some (_, T) => some (q, update T fd (some f))
    owed := g.owed - Pi.single f 1 }

/-- What it has afterwards. -/
def next (g : Local n m) : (o : Op n m) → Res o → Local n m
  | .filealloc, some f => g.got f
  | .filedup f, _ => g.dup f
  | .fileclose f, some none => g.drop f
  | .fileclose f, some (some ff) => g.closed f ff
  | .setfile f type _ w pipe _, _ => g.typed f type w pipe
  | .getfile f, x => { g with seen := some (f, x) }
  | .fdalloc f, some fd => g.store fd f
  | .clearfd fd, _ => g.take fd
  | .makepipe, some pg => g.piped pg
  | .pipeclose f pg w, last => g.endClosed f pg w last
  | .kfree pg, _ => { g with dead := g.dead - Pi.single pg 1 }
  | .iput f _, _ => { g with duty := g.duty - Pi.single f 1 }
  | .enter _ pg, _ => { g with inside := some pg }
  | .leave, _ => { g with inside := none }
  | .allocproc, some q => { g with child := some (q, fun _ => none) }
  | .unalloc _, _ => { g with child := none }
  | .setchild q fd f, _ => g.give q fd f
  | .run _, _ => g.parted
  | .zombie, _ => .off
  | _, _ => g

/-- The rules. -/
def protocol : Protocol (Op n m) Res (Local n m) where
  legal := legal
  answers := answers
  next := next

/-! ## Every call obeys -/

section Obeys

variable {α β : Type} {g h k : Local n m} {f : FileId} {fd : Fd}

/-- No panic is reached. -/
def NoPanic (_ : Panic) : Prop := False

/-- The code, started with `g`, returns with `h`. -/
abbrev Leaves (c : K n m α) (g h : Local n m) : Prop :=
  Obeys protocol (fun _ x => x = h) NoPanic c g

variable {Q : α → Local n m → Prop}

theorem Leaves.bind {c : K n m β} {c' : β → K n m α} (hc : Leaves c g h)
    (hf : ∀ x, Obeys protocol Q NoPanic (c' x) h) :
    Obeys protocol Q NoPanic (c >>= c') g := by
  rw [obeys_bind]
  refine hc.mono ?_
  rintro x _ rfl
  exact hf x

theorem slots_nonneg (T : Fd → Option FileId) (f : FileId) : 0 ≤ slots T f :=
  Finset.sum_nonneg fun _ _ => by split <;> simp

theorem slots_update (T : Fd → Option FileId) (fd : Fd) (x : Option FileId) (f : FileId) :
    slots (update T fd x) f
      = slots T f + (if x = some f then 1 else 0) - (if T fd = some f then 1 else 0) := by
  have hsum := sum_update_add (fun (_ : Fd) (y : Option FileId) => if y = some f then (1 : ℤ) else 0)
    T fd x
  simp only [slots]
  linarith

theorem slots_pos {T : Fd → Option FileId} (h : T fd = some f) : 1 ≤ slots T f := by
  have hle := Finset.single_le_sum (f := fun fd => if T fd = some f then (1 : ℤ) else 0)
    (fun _ _ => by split <;> simp) (Finset.mem_univ fd)
  simpa [slots, h] using hle

@[simp] theorem childSlots_none (f : FileId) :
    childSlots (none : Option (Fin n × (Fd → Option FileId))) f = 0 := rfl

theorem childSlots_nonneg (c : Option (Fin n × (Fd → Option FileId))) (f : FileId) :
    0 ≤ childSlots c f := by
  match c with
  | none => exact le_rfl
  | some (_, T) => exact slots_nonneg T f

/-- The process lets go of one reference. -/
def Local.put (g : Local n m) (f : FileId) : Local n m :=
  { g with owed := g.owed - Pi.single f 1, blank := update g.blank f 0, seen := none }

theorem filedup_leaves (hlive : g.live = true) (hs : 1 ≤ g.res (.share f)) (hb : g.blank f = 0) :
    Leaves (filedup f) g (g.dup f) := by
  refine ⟨⟨hlive, hs, hb⟩, fun r hr => ?_⟩
  cases r with
  | false => exact absurd hr (by simp [protocol, answers])
  | true => rfl

theorem bump_sub {α : Type} [DecidableEq α] (u : α → ℕ) (a : α) : bump u a - Pi.single a 1 = u :=
  add_tsub_cancel_right _ _

theorem le_bump {α : Type} [DecidableEq α] (u : α → ℕ) (a : α) : 1 ≤ bump u a a := by
  simp [bump]

theorem finish_leaves {ff : File m} (hlive : g.live = true)
    (hpipe : ff.type = .FD_PIPE → ff.pipe ≠ none) :
    Leaves (finish f ff) (g.closed f ff) (g.put f) := by
  cases ht : ff.type with
  | FD_NONE =>
    have hfin : finish (n := n) f ff = pure ⟨⟩ := by simp [finish, ht]
    rw [hfin]
    change g.closed f ff = g.put f
    simp [Local.closed, Local.put, ht]
  | FD_INODE =>
    have hfin : finish (n := n) f ff = ask (.iput f ff.ip) := by
      simp only [finish, ht]
      rfl
    have hduty : (g.closed f ff).duty = bump g.duty f := by simp [Local.closed, ht]
    rw [hfin]
    refine ⟨⟨hlive, ?_⟩, fun _ _ => ?_⟩
    · change 1 ≤ (g.closed f ff).duty f
      rw [hduty]
      exact le_bump _ _
    · change ({ g.closed f ff with duty := (g.closed f ff).duty - Pi.single f 1 } : Local n m) = _
      rw [hduty, bump_sub]
      simp [Local.closed, Local.put, ht]
  | FD_PIPE =>
    obtain ⟨pg, hpg⟩ := Option.ne_none_iff_exists'.1 (hpipe ht)
    have hfin : finish (n := n) f ff = pipeclose f pg ff.writable := by simp [finish, ht, hpg]
    have hends : (g.closed f ff).ends = bump g.ends (pg, ff.writable) := by
      simp [Local.closed, ht, hpg]
    have hduty : (g.closed f ff).duty = bump g.duty f := by simp [Local.closed, ht]
    rw [hfin]
    refine ⟨⟨hlive, ?_, ?_⟩, fun last _ => ?_⟩
    · rw [hduty]
      exact le_bump _ _
    · rw [hends]
      exact le_bump _ _
    · have hput : ∀ d, ({ (g.closed f ff).endClosed f pg ff.writable last with dead := d } :
          Local n m) = { g.put f with dead := d } := by
        intro d
        simp only [Local.endClosed, hends, hduty, bump_sub]
        rfl
      cases last with
      | false => exact hput g.dead
      | true =>
        refine ⟨⟨hlive, le_bump _ _⟩, fun _ _ => ?_⟩
        change ({ (g.closed f ff).endClosed f pg ff.writable true with
          dead := bump g.dead pg - Pi.single pg 1 } : Local n m) = g.put f
        rw [hput, bump_sub]
        rfl

theorem fileclose_leaves (hlive : g.live = true) (hs : 1 ≤ g.res (.share f))
    (hin : g.inside = none) : Leaves (fileclose f) g (g.put f) := by
  refine ⟨⟨hlive, hs, hin⟩, fun r hr => ?_⟩
  match r with
  | none => exact hr
  | some none =>
    change g.blank f = 0 at hr
    change g.drop f = g.put f
    rw [Local.drop, Local.put, ← hr, update_eq_self]
  | some (some ff) => exact finish_leaves hlive hr.1

/-! ### System calls -/

/-- The code returns, and its process is at rest. -/
abbrev Rests (c : K n m α) (g : Local n m) : Prop :=
  Obeys protocol (fun _ x => Rest x) NoPanic c g

theorem getfd_bind {c : Option FileId → K n m α} (hlive : g.live = true)
    (hc : Obeys protocol Q NoPanic (c (g.table fd)) g) :
    Obeys protocol Q NoPanic (ask (.getfd fd) >>= c) g := by
  refine ⟨⟨hlive, trivial⟩, fun r hr => ?_⟩
  change r = g.table fd at hr
  subst hr
  exact hc

theorem luck_bind {c : ℕ → K n m α} (hlive : g.live = true)
    (hc : ∀ r, Obeys protocol Q NoPanic (c r) g) :
    Obeys protocol Q NoPanic (ask .luck >>= c) g := ⟨⟨hlive, trivial⟩, fun r _ => hc r⟩

theorem clearfd_bind {c : PUnit → K n m α} (hlive : g.live = true)
    (hc : Obeys protocol Q NoPanic (c ⟨⟩) (g.take fd)) :
    Obeys protocol Q NoPanic (ask (.clearfd fd) >>= c) g := ⟨⟨hlive, trivial⟩, fun _ _ => hc⟩

theorem fdalloc_bind {c : Option Fd → K n m α} (hlive : g.live = true)
    (hnone : Obeys protocol Q NoPanic (c none) g)
    (hsome : ∀ fd, g.table fd = none → Obeys protocol Q NoPanic (c (some fd)) (g.store fd f)) :
    Obeys protocol Q NoPanic (ask (.fdalloc f) >>= c) g := by
  refine ⟨⟨hlive, trivial⟩, fun r hr => ?_⟩
  match r with
  | none => exact hnone
  | some fd => exact hsome fd hr

theorem filealloc_bind {c : Option FileId → K n m α} (hlive : g.live = true)
    (hnone : Obeys protocol Q NoPanic (c none) g)
    (hsome : ∀ f, g.res (.share f) = 0 → g.blank f = 0 →
      Obeys protocol Q NoPanic (c (some f)) (g.got f)) :
    Obeys protocol Q NoPanic (ask .filealloc >>= c) g := by
  refine ⟨⟨hlive, trivial⟩, fun r hr => ?_⟩
  match r with
  | none => exact hnone
  | some f => exact hsome f hr.1 hr.2

theorem makepipe_bind {c : Option (Fin m) → K n m α} (hlive : g.live = true)
    (hnone : Obeys protocol Q NoPanic (c none) g)
    (hsome : ∀ pg, Obeys protocol Q NoPanic (c (some pg)) (g.piped pg)) :
    Obeys protocol Q NoPanic (ask .makepipe >>= c) g := by
  refine ⟨⟨hlive, trivial⟩, fun r _ => ?_⟩
  match r with
  | none => exact hnone
  | some pg => exact hsome pg

theorem setfile_bind {c : PUnit → K n m α} {type : FileType} {r w : Bool} {pipe : Option (Fin m)}
    {ip : ℕ} (hlive : g.live = true) (hf : g.blank f = 1)
    (htype : (type = .FD_PIPE ∧ ∃ pg, pipe = some pg ∧ 1 ≤ g.ends (pg, w)) ∨ type = .FD_INODE)
    (hc : Obeys protocol Q NoPanic (c ⟨⟩) (g.typed f type w pipe)) :
    Obeys protocol Q NoPanic (ask (.setfile f type r w pipe ip) >>= c) g :=
  ⟨⟨hlive, hf, htype⟩, fun _ _ => hc⟩

/-- What a process in the middle of a call has in hand. -/
structure Holding (g : Local n m) (c : Option (Fin n × (Fd → Option FileId))) (o : FileId → ℤ)
    (b : FileId → ℕ) (e : Fin m × Bool → ℕ) : Prop where
  live : g.live = true
  child : g.child = c
  owed : g.owed = o
  blank : g.blank = b
  duty : g.duty = 0
  ends : g.ends = e
  dead : g.dead = 0
  inside : g.inside = none

section Holding

variable {c : Option (Fin n × (Fd → Option FileId))} {o : FileId → ℤ} {b : FileId → ℕ}
  {e : Fin m × Bool → ℕ}

theorem Rest.holding (hg : Rest g) (hlive : g.live = true) : Holding g none 0 0 0 :=
  ⟨hlive, hg.child, hg.owed, hg.blank, hg.duty, hg.ends, hg.dead, hg.inside⟩

theorem Holding.rest (hg : Holding g none 0 0 0) : Rest g :=
  ⟨hg.child, hg.owed, hg.blank, hg.duty, hg.ends, hg.dead, hg.inside⟩

theorem Holding.share (hg : Holding g c o b e) (f : FileId) :
    g.res (.share f) = slots g.table f + childSlots c f + o f := by
  rw [Local.res, hg.child, hg.owed]

theorem Holding.one_le_share (hg : Holding g c o b e) (hf : 1 ≤ o f) : 1 ≤ g.res (.share f) := by
  have hslots := slots_nonneg g.table f
  have hchild := childSlots_nonneg c f
  rw [hg.share]
  omega

theorem Holding.one_le_share_of_slot (hg : Holding g c 0 b e) (hf : g.table fd = some f) :
    1 ≤ g.res (.share f) := by
  have hslots := slots_pos hf
  have hchild := childSlots_nonneg c f
  rw [hg.share, Pi.zero_apply]
  omega

theorem Holding.got (hg : Holding g c o b e) (f : FileId) :
    Holding (g.got f) c (o + Pi.single f 1) (update b f 1) e :=
  { hg with
    owed := by rw [Local.got, hg.owed]
    blank := by rw [Local.got, hg.blank] }

theorem Holding.put (hg : Holding g c o b e) (f : FileId) :
    Holding (g.put f) c (o - Pi.single f 1) (update b f 0) e :=
  { hg with
    owed := by rw [Local.put, hg.owed]
    blank := by rw [Local.put, hg.blank] }

theorem Holding.dup (hg : Holding g c o b e) (f : FileId) :
    Holding (g.dup f) c (o + Pi.single f 1) b e :=
  { hg with owed := by rw [Local.dup, hg.owed] }

theorem Holding.store (hg : Holding g c o b e) (fd : Fd) (f : FileId) :
    Holding (g.store fd f) c (o - Pi.single f 1) b e :=
  { hg with owed := by rw [Local.store, hg.owed] }

theorem Holding.take (hg : Holding g c o b e) (hfd : g.table fd = some f) :
    Holding (g.take fd) c (o + Pi.single f 1) b e :=
  { hg with owed := by simp only [Local.take, hfd, hg.owed] }

theorem Holding.typedInode (hg : Holding g c o b e) (f : FileId) (w : Bool)
    (pipe : Option (Fin m)) :
    Holding (g.typed f .FD_INODE w pipe) c o (update b f 0) e :=
  { hg with
    blank := by
      change update g.blank f 0 = _
      rw [hg.blank] }

theorem Holding.piped (hg : Holding g c o b e) (pg : Fin m) :
    Holding (g.piped pg) c o b (bump (bump e (pg, false)) (pg, true)) :=
  { hg with ends := by rw [Local.piped, hg.ends] }

theorem Holding.typedPipe (hg : Holding g c o b e) (f : FileId) (w : Bool) (pg : Fin m) :
    Holding (g.typed f .FD_PIPE w (some pg)) c o (update b f 0)
      (e - Pi.single (pg, w) 1) :=
  { hg with
    blank := by rw [Local.typed, hg.blank]
    ends := by rw [Local.typed, hg.ends] }

theorem Holding.fileclose (hg : Holding g c o b e) (hf : 1 ≤ g.res (.share f)) :
    Leaves (fileclose f) g (g.put f) := fileclose_leaves hg.live hf hg.inside

end Holding

theorem sysClose_rests (hg : Holding g none 0 0 0) : Rests (sysClose fd) g := by
  refine getfd_bind hg.live ?_
  cases hfd : g.table fd with
  | none => exact hg.rest
  | some f =>
    have htake := hg.take hfd
    refine clearfd_bind hg.live ((htake.fileclose ?_).bind fun _ => ?_)
    · exact htake.one_le_share (by simp)
    · have hput := htake.put f
      rw [add_sub_cancel_right, update_zero] at hput
      exact hput.rest

theorem sysOpen_rests (hg : Holding g none 0 0 0) (omode : UInt32) : Rests (sysOpen omode) g := by
  refine luck_bind hg.live fun ip => obeys_ite.2 ⟨fun _ => hg.rest, fun _ => ?_⟩
  refine filealloc_bind hg.live hg.rest fun f _ _ => ?_
  have hgot := hg.got f
  refine fdalloc_bind hgot.live ?_ fun fd _ => ?_
  · refine (hgot.fileclose (hgot.one_le_share (by simp))).bind fun _ => ?_
    have hput := hgot.put f
    rw [add_sub_cancel_right, update_idem, update_zero] at hput
    exact hput.rest
  · have hstore := hgot.store fd f
    rw [add_sub_cancel_right] at hstore
    refine setfile_bind hstore.live ?_ (.inr rfl) ?_
    · rw [hstore.blank, update_self]
    · have htyped := hstore.typedInode f (omode &&& O_WRONLY ≠ 0 ∨ omode &&& O_RDWR ≠ 0) none
      rw [update_idem, update_zero] at htyped
      exact htyped.rest

theorem two_files (f0 f1 : FileId) :
    update (update (update (update (0 : FileId → ℕ) f0 1) f1 1)
      f0 0) f1 0 = 0 := by
  funext f
  simp only [update_apply, Pi.zero_apply]
  split_ifs <;> rfl

theorem two_ends (pg : Fin m) :
    bump (bump (0 : Fin m × Bool → ℕ) (pg, false)) (pg, true) - Pi.single (pg, false) 1
      - Pi.single (pg, true) 1 = 0 := by
  funext x
  simp only [bump, zero_add, Pi.sub_apply, Pi.add_apply, Pi.zero_apply]
  omega

theorem closeBoth_obeys {f0 f1 : FileId} {b : FileId → ℕ} {a : α}
    (hg : Holding g none (Pi.single f0 1 + Pi.single f1 1) b 0)
    (hb : update (update b f0 0) f1 0 = 0) (hQ : ∀ x, Rest x → Q a x) :
    Obeys protocol Q NoPanic (do fileclose f0; fileclose f1; pure a) g := by
  have hf0 : 0 ≤ (Pi.single f1 1 : FileId → ℤ) f0 := by
    rw [Pi.single_apply]
    split_ifs <;> simp
  refine (hg.fileclose (f := f0) (hg.one_le_share (by simpa using hf0))).bind fun _ => ?_
  have hput0 := hg.put f0
  rw [add_sub_cancel_left] at hput0
  refine (hput0.fileclose (f := f1) (hput0.one_le_share (by simp))).bind fun _ => ?_
  have hput1 := hput0.put f1
  rw [sub_self, hb] at hput1
  exact hQ _ hput1.rest

theorem pipealloc_obeys (hg : Holding g none 0 0 0) :
    Obeys protocol (fun r x => match r with
      | none => Rest x
      | some (f0, f1) => Holding x none (Pi.single f0 1 + Pi.single f1 1) 0 0) NoPanic
      pipealloc g := by
  refine filealloc_bind hg.live hg.rest fun f0 _ _ => ?_
  have hgot0 := hg.got f0
  rw [zero_add] at hgot0
  refine filealloc_bind hgot0.live ?_ fun f1 hf1 _ => ?_
  · refine (hgot0.fileclose (hgot0.one_le_share (by simp))).bind fun _ => ?_
    have hput := hgot0.put f0
    rw [sub_self, update_idem, update_zero] at hput
    exact hput.rest
  -- The second file is another one: it has no share yet.
  have hne : f1 ≠ f0 := by
    rintro rfl
    have hshare := hgot0.one_le_share (f := f1) (by simp)
    omega
  have hgot1 := hgot0.got f1
  refine makepipe_bind hgot1.live ?_ fun pg => ?_
  · exact closeBoth_obeys hgot1 (two_files f0 f1) fun _ hx => hx
  · have hpipe := hgot1.piped pg
    refine setfile_bind hpipe.live ?_ (.inl ⟨rfl, pg, rfl, ?_⟩) ?_
    · rw [hpipe.blank, update_of_ne hne.symm, update_self]
    · rw [hpipe.ends]
      simp [bump]
    have htyped0 := hpipe.typedPipe f0 false pg
    refine setfile_bind htyped0.live ?_ (.inl ⟨rfl, pg, rfl, ?_⟩) ?_
    · rw [htyped0.blank, update_of_ne hne, update_self]
    · rw [htyped0.ends]
      simp [bump]
    have htyped1 := htyped0.typedPipe f1 true pg
    rw [two_files, two_ends] at htyped1
    exact htyped1

theorem sysPipe_rests (hg : Holding g none 0 0 0) : Rests sysPipe g := by
  refine obeys_bind.2 ((pipealloc_obeys hg).mono ?_)
  rintro (_ | ⟨rf, wf⟩) h hpost
  · exact hpost
  have hh : Holding h none (Pi.single rf 1 + Pi.single wf 1) 0 0 := hpost
  refine fdalloc_bind hh.live ?_ fun fd0 _ => ?_
  · exact closeBoth_obeys hh (by simp) fun _ hx => hx
  have hstore0 := hh.store fd0 rf
  rw [add_sub_cancel_left] at hstore0
  refine fdalloc_bind hstore0.live ?_ fun fd1 _ => ?_
  · have hfd : (h.store fd0 rf).table fd0 = some rf := update_self ..
    have htake := hstore0.take hfd
    rw [add_comm] at htake
    exact clearfd_bind hstore0.live (closeBoth_obeys htake (by simp) fun _ hx => hx)
  · have hstore1 := hstore0.store fd1 wf
    rw [sub_self] at hstore1
    exact hstore1.rest

theorem sysDup_rests (hg : Holding g none 0 0 0) : Rests (sysDup fd) g := by
  refine getfd_bind hg.live ?_
  cases hfd : g.table fd with
  | none => exact hg.rest
  | some f =>
    refine fdalloc_bind hg.live hg.rest fun fd' hfd' => ?_
    have hstore := hg.store fd' f
    -- The new descriptor has no reference yet, the old one has.
    have hshare : 1 ≤ (g.store fd' f).res (.share f) := by
      have hpos := slots_pos hfd
      have hupd := slots_update g.table fd' (some f) f
      rw [if_pos rfl, if_neg (by simp [hfd'])] at hupd
      rw [hstore.share, show (g.store fd' f).table = update g.table fd' (some f) from rfl,
        hupd]
      simp
      omega
    refine (filedup_leaves hstore.live hshare ?_).bind fun _ => ?_
    · rw [hstore.blank, Pi.zero_apply]
    · have hdup := hstore.dup f
      rw [sub_add_cancel] at hdup
      exact hdup.rest

theorem dupEach_obeys {q : Fin n} {T : Fd → Option FileId} (fds : List Fd) (hfds : fds.Nodup)
    (hT : ∀ fd ∈ fds, T fd = none) (hg : Holding g (some (q, T)) 0 0 0) :
    Obeys protocol (fun _ x => ∃ T', Holding x (some (q, T')) 0 0 0) NoPanic (dupEach q fds) g := by
  induction fds generalizing g T with
  | nil => exact ⟨T, hg⟩
  | cons fd fds ih =>
    obtain ⟨hmem, hnodup⟩ := nodup_cons.1 hfds
    refine getfd_bind hg.live ?_
    cases hfd : g.table fd with
    | none => exact ih hnodup (fun fd' h => hT fd' (mem_cons_of_mem _ h)) hg
    | some f =>
      refine (filedup_leaves hg.live (hg.one_le_share_of_slot hfd) ?_).bind fun _ => ?_
      · rw [hg.blank, Pi.zero_apply]
      have hdup := hg.dup f
      refine ⟨⟨hdup.live, T, hdup.child, hT fd mem_cons_self⟩, fun _ _ => ?_⟩
      have hgive : Holding ((g.dup f).give q fd f) (some (q, update T fd (some f)))
          0 0 0 :=
        { hdup with
          child := by simp only [Local.give, hdup.child]
          owed := by simp only [Local.give, hdup.owed, zero_add, sub_self] }
      refine ih hnodup (fun fd' h => ?_) hgive
      rw [update_of_ne (by rintro rfl; exact hmem h)]
      exact hT fd' (mem_cons_of_mem _ h)

theorem fork_rests (hg : Holding g none 0 0 0) : Rests fork g := by
  refine ⟨⟨hg.live, hg.child⟩, fun r _ => ?_⟩
  match r with
  | none => exact hg.rest
  | some q =>
    have hchild : Holding { g with child := some (q, fun _ => none) } (some (q, fun _ => none))
        0 0 0 := { hg with child := rfl }
    have hback : Rest ({ g with child := none } : Local n m) := { hg.rest with child := rfl }
    refine luck_bind hchild.live fun _ => obeys_ite.2 ⟨fun _ => ?_, fun _ => ?_⟩
    · exact ⟨⟨hg.live, rfl⟩, fun _ _ => hback⟩
    refine luck_bind hchild.live fun _ => obeys_ite.2 ⟨fun _ => ?_, fun _ => ?_⟩
    · exact ⟨⟨hg.live, rfl⟩, fun _ _ => hback⟩
    refine obeys_bind.2 ((dupEach_obeys _ (nodup_finRange _) (fun _ _ => rfl) hchild).mono ?_)
    rintro _ h ⟨T, hh⟩
    have hrest : Rest h.parted :=
      ⟨rfl, hh.owed, hh.blank, hh.duty, hh.ends, hh.dead, hh.inside⟩
    exact ⟨⟨hh.live, ⟨T, hh.child⟩, hrest⟩, fun _ _ => hrest⟩

theorem closeEach_obeys (fds : List Fd) (hfds : ∀ fd, fd ∉ fds → g.table fd = none)
    (hg : Holding g none 0 0 0) :
    Obeys protocol (fun _ x => Holding x none 0 0 0 ∧ ∀ fd, x.table fd = none) NoPanic
      (closeEach fds) g := by
  induction fds generalizing g with
  | nil => exact ⟨hg, fun fd => hfds fd (by simp)⟩
  | cons fd fds ih =>
    refine getfd_bind hg.live ?_
    cases hfd : g.table fd with
    | none =>
      refine ih (fun fd' h => ?_) hg
      by_cases heq : fd' = fd
      · rw [heq, hfd]
      · exact hfds fd' (by simp [heq, h])
    | some f =>
      refine (hg.fileclose (hg.one_le_share_of_slot hfd)).bind fun _ => ?_
      have hput := hg.put f
      have htake := hput.take (show (g.put f).table fd = some f from hfd)
      rw [sub_add_cancel, update_zero] at htake
      refine clearfd_bind hput.live (ih (fun fd' h => ?_) htake)
      by_cases heq : fd' = fd
      · rw [heq]
        exact update_self ..
      · exact (update_of_ne heq ..).trans (hfds fd' (by simp [heq, h]))

theorem exit_rests (hg : Holding g none 0 0 0) : Rests exit g := by
  refine obeys_bind.2 ((closeEach_obeys _ (fun fd h => ?_) hg).mono ?_)
  · exact absurd (mem_finRange fd) h
  · rintro _ h ⟨hh, hempty⟩
    exact ⟨⟨hh.live, hh.rest, hempty⟩, fun _ _ => ⟨rfl, rfl, rfl, rfl, rfl, rfl, rfl⟩⟩

theorem accesses_leaves {pg : Fin m} (hlive : g.live = true) (hin : g.inside = some pg) (k : ℕ) :
    Leaves (accesses pg k) g g := by
  induction k with
  | zero => rfl
  | succ k ih => exact ⟨⟨hlive, hin⟩, fun _ _ => ih⟩

theorem fileio_rests (hg : Holding g none 0 0 0) (hfd : g.table fd = some f) (may : File m → Bool)
    (rounds : ℕ) : Rests (fileio f may rounds) g := by
  refine ⟨⟨hg.live, hg.one_le_share_of_slot hfd, ?_, hg.inside⟩, fun x hx => ?_⟩
  · rw [hg.blank, Pi.zero_apply]
  have hseen : Holding { g with seen := some (f, x) } none 0 0 0 := { hg with }
  refine obeys_ite.2 ⟨fun _ => hseen.rest, fun _ => ?_⟩
  cases htype : x.type with
  | FD_NONE => exact absurd htype hx.1
  | FD_INODE => exact hseen.rest
  | FD_PIPE =>
    obtain ⟨pg, hpg⟩ := Option.ne_none_iff_exists'.1 (hx.2 htype)
    rw [hpg]
    refine ⟨⟨hseen.live, x, rfl, htype, hpg⟩, fun _ _ => ?_⟩
    refine (accesses_leaves (g := { g with seen := some (f, x), inside := some pg }) hg.live rfl
      rounds).bind fun _ => ?_
    exact ⟨⟨hg.live, trivial⟩, fun _ _ => { hseen.rest with inside := rfl }⟩

theorem call_obeys (call : Call n) (hlive : g.live = true) (hg : Rest g) :
    Rests (call.body (m := m)) g := by
  have hh := hg.holding hlive
  cases call with
  | «open» omode => exact sysOpen_rests hh omode
  | pipe => exact sysPipe_rests hh
  | dup fd => exact sysDup_rests hh
  | close fd => exact sysClose_rests hh
  | read fd rounds =>
    refine getfd_bind hlive ?_
    cases hfd : g.table fd with
    | none => exact hg
    | some f => exact fileio_rests hh hfd _ rounds
  | write fd rounds =>
    refine getfd_bind hlive ?_
    cases hfd : g.table fd with
    | none => exact hg
    | some f => exact fileio_rests hh hfd _ rounds
  | fork => exact fork_rests hh
  | exit => exact exit_rests hh
  | wait p => exact ⟨⟨hlive, trivial⟩, fun _ _ => hg⟩

end Obeys

end Xv6.Ftable
