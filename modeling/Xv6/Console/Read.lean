import Xv6.Console.Line
import Xv6.Lib.Lts

/-!
# Readers of the console

`consoleread` of `console.c` by any number of processes, and the keyboard interrupt.

A reader runs with `cons.lock` held and gives it up where it sleeps; it may look again at any
time, which allows every wakeup.  `spec` follows the line discipline as it is meant, and `out`
records which process took which character out of the buffer.

*The buffer is the discipline.*  `Taken.rep`: whatever the readers do, the ring holds the
characters that are finished and unread, and after them the line (`Rep`).

*What is read is what was finished.*  `Taken.out`, `Taken.own`: the characters taken, in order,
are the finished ones, and each process has in its buffers those it took.  `Result.Good`: a `^D` is
taken by a read that returns nothing else.
-/

namespace Xv6.Console

open Xv6.Lib Function List Option

/-! ## The source -/

/-- A `consoleread` that has not returned; `dst` is what it has stored. -/
structure Call where
  target : ℤ
  n : ℤ
  dst : List UInt8
  deriving DecidableEq

/-- A `consoleread` that has returned `ret`. -/
structure Result where
  target : ℤ
  ret : ℤ
  dst : List UInt8
  /-- A `^D` was taken out of the buffer. -/
  mark : Bool
  /-- How many characters had been taken in all. -/
  upto : ℕ
  deriving DecidableEq

structure State (P : Type) where
  input : Input
  /-- The reader that holds `cons.lock`. -/
  lock : Option P
  call : P → Option Call
  killed : P → Bool
  spec : Line
  /-- The characters taken out of the buffer, with the process that took each. -/
  out : List (P × UInt8)
  results : P → List Result

variable {P : Type} [DecidableEq P]

namespace State

/-- The call returns. -/
def leave (s : State P) (p : P) (r : Result) : State P :=
  { s with
    lock := none
    call := update s.call p none
    results := update s.results p (s.results p ++ [r]) }

/-- The reader has taken `c`, and the read index stays advanced. -/
def take (s : State P) (p : P) (c : UInt8) : State P :=
  { s with
    input := { s.input with r := s.input.r + 1 }
    spec := { s.spec with taken := s.spec.taken + 1 }
    out := s.out ++ [(p, c)] }

/-- The characters that `p` has taken. -/
def own (s : State P) (p : P) : List UInt8 := (s.out.filter fun x => x.1 = p).map Prod.snd

end State

/-- `*dst++ = c; --n`, and a newline ends the loop. -/
def store (s : State P) (p : P) (c : Call) (ch : UInt8) : State P :=
  let s := s.take p ch
  let c := { c with dst := c.dst ++ [ch], n := c.n - 1 }
  if ch = newline then s.leave p ⟨c.target, c.target - c.n, c.dst, false, s.spec.taken⟩
  else { s with call := update s.call p (some c) }

/-- One turn of the loop of `consoleread`, with `cons.lock` held. -/
def consoleread (s : State P) (p : P) (c : Call) : State P :=
  if c.n ≤ 0 then s.leave p ⟨c.target, c.target - c.n, c.dst, false, s.spec.taken⟩
  else if s.input.r = s.input.w then
    if s.killed p then s.leave p ⟨c.target, -1, c.dst, false, s.spec.taken⟩
    -- sleep(&input.r, &cons.lock)
    else { s with lock := none }
  else
    let ch := s.input.charAt s.input.r
    if ch = C 'D' then
      if c.n < c.target then
        -- the index was advanced, and is put back
        { s with input := { s.input with r := s.input.r + 1 - 1 } }.leave p
          ⟨c.target, c.target - c.n, c.dst, false, s.spec.taken⟩
      else
        (s.take p ch).leave p ⟨c.target, c.target - c.n, c.dst, true, s.spec.taken + 1⟩
    else store s p c ch

inductive Action (P : Type)
  /-- `consoleintr` gets a character. -/
  | key (c : UInt8)
  /-- `consoleread` is called with `n`. -/
  | call (p : P) (n : ℤ)
  /-- `acquire(&cons.lock)`, at the start and when `sleep` returns. -/
  | acquire (p : P)
  | next (p : P)
  | kill (p : P)

def step (s : State P) : Action P → Option (State P)
  | .key c =>
    if s.lock = none then some { s with input := s.input.key c, spec := s.spec.key c } else none
  | .call p n =>
    if s.call p = none then some { s with call := update s.call p (some ⟨n, n, []⟩) }
    else none
  | .acquire p =>
    if s.lock = none ∧ s.call p ≠ none then some { s with lock := some p } else none
  | .next p => if s.lock = some p then (s.call p).map (consoleread s p) else none
  | .kill p => some { s with killed := update s.killed p true }

/-- `input` is zeroed. -/
def boot : State P where
  input := ⟨fun _ => 0, 0, 0, 0⟩
  lock := none
  call := fun _ => none
  killed := fun _ => false
  spec := ⟨[], 0, []⟩
  out := []
  results := fun _ => []

def system (P : Type) [DecidableEq P] : Lts (State P) (Action P) where
  init s := s = boot
  step := step

/-! ## What holds of the calls -/

/-- A call has stored what it has counted, and nothing that ends a read. -/
structure Call.Good (c : Call) : Prop where
  count : c.n = c.target - c.dst.length
  least : c.dst = [] ∨ 0 ≤ c.n
  mark : C 'D' ∉ c.dst
  plain : newline ∉ c.dst

/-- The characters that a call took. -/
def Result.chars (r : Result) : List UInt8 := r.dst ++ if r.mark then [C 'D'] else []

/-- **What a call returns.**  A `^D` is taken by a call that returns `0` and nothing else; a call
that is not killed returns what it was asked for, or up to a newline, or up to a `^D` that it has
left in the buffer. -/
structure Result.Good (l : Line) (r : Result) : Prop where
  eof : r.mark = true → r.dst = [] ∧ r.ret = 0
  mark : C 'D' ∉ r.dst
  plain : newline ∉ r.dst.dropLast
  most : r.dst.length ≤ r.target.toNat
  ret : r.ret = -1 ∨ r.ret = r.dst.length
  upto : r.upto ≤ l.taken
  ended : r.ret = -1 ∨ r.mark = true ∨ r.dst.length = r.target.toNat ∨
    r.dst.getLast? = some newline ∨ r.dst ≠ [] ∧ l.committed[r.upto]? = some (C 'D')

/-- What holds when every `p` has taken `part p` beyond what its finished calls took. -/
structure Taken (s : State P) (part : P → List UInt8) : Prop where
  rep : Rep s.input s.spec
  out : s.out.map Prod.snd = s.spec.committed.take s.spec.taken
  own : ∀ p, s.own p = (s.results p).flatMap Result.chars ++ part p
  call : ∀ p c, s.call p = some c → c.Good
  results : ∀ p, ∀ r ∈ s.results p, r.Good s.spec

/-- What the unfinished call of `p` has stored. -/
def State.part (s : State P) (p : P) : List UInt8 := (s.call p).elim [] Call.dst

def Inv (s : State P) : Prop := Taken s s.part

/-! ## Lines only grow -/

/-- Nothing finished is lost, and nothing is read back. -/
structure Line.Grows (l l' : Line) : Prop where
  committed : l.committed <+: l'.committed
  taken : l.taken ≤ l'.taken

theorem Line.add_grows (l : Line) (c : UInt8) : l.Grows (l.add c) := by
  rw [Line.add]
  split
  · exact ⟨prefix_append _ _, le_rfl⟩
  · exact ⟨prefix_rfl, le_rfl⟩

theorem Line.key_grows (l : Line) (c : UInt8) : l.Grows (l.key c) := by
  rw [Line.key]
  split_ifs
  · exact ⟨prefix_rfl, le_rfl⟩
  · exact ⟨prefix_rfl, le_rfl⟩
  · exact ⟨prefix_rfl, le_rfl⟩
  · exact l.add_grows _
  · exact l.add_grows _
  · exact ⟨prefix_rfl, le_rfl⟩

theorem Line.add_taken (l : Line) (c : UInt8) : (l.add c).taken = l.taken := by
  rw [Line.add]
  split <;> rfl

theorem Line.key_taken (l : Line) (c : UInt8) : (l.key c).taken = l.taken := by
  rw [Line.key]
  split_ifs <;> first | rfl | exact l.add_taken _

theorem Result.Good.grows {l l' : Line} {r : Result} (h : r.Good l) (hg : l.Grows l') :
    r.Good l' := by
  refine ⟨h.eof, h.mark, h.plain, h.most, h.ret, h.upto.trans hg.taken, ?_⟩
  rcases h.ended with hk | hm | ht | hn | ⟨hne, hc⟩
  · exact .inl hk
  · exact .inr (.inl hm)
  · exact .inr (.inr (.inl ht))
  · exact .inr (.inr (.inr (.inl hn)))
  · obtain ⟨more, hmore⟩ := hg.committed
    have hlt := (List.getElem?_eq_some_iff.1 hc).1
    refine .inr (.inr (.inr (.inr ⟨hne, ?_⟩)))
    rw [← hmore, getElem?_append_left hlt]
    exact hc

/-! ## What a turn does -/

variable {s : State P} {p : P} {part : P → List UInt8}

theorem own_take (s : State P) (p : P) (c : UInt8) (q : P) :
    (s.take p c).own q = s.own q ++ if p = q then [c] else [] := by
  change ((s.out ++ [(p, c)]).filter fun x => decide (x.1 = q)).map Prod.snd = _
  rw [filter_append, map_append]
  refine congrArg (s.own q ++ ·) ?_
  by_cases hq : p = q
  · rw [if_pos hq, filter_cons_of_pos (by simpa using hq)]
    rfl
  · rw [if_neg hq, filter_cons_of_neg (by simpa using hq)]
    rfl

theorem Taken.take (h : Taken s part) (hne : s.input.r ≠ s.input.w) :
    Taken (s.take p (s.input.charAt s.input.r))
      (update part p (part p ++ [s.input.charAt s.input.r])) := by
  obtain ⟨hc, hrep⟩ := h.rep.take hne
  refine ⟨hrep, ?_, fun q => ?_, h.call, fun q r hr => ?_⟩
  · change (s.out ++ [(p, _)]).map Prod.snd = s.spec.committed.take (s.spec.taken + 1)
    rw [map_append, h.out, take_add_one, hc]
    rfl
  · rw [own_take, h.own q]
    by_cases hq : p = q
    · obtain rfl := hq
      rw [if_pos rfl, update_self, append_assoc]
      rfl
    · rw [if_neg hq, update_of_ne (Ne.symm hq), append_nil]
      rfl
  · exact (h.results q r hr).grows ⟨prefix_rfl, Nat.le_succ _⟩

theorem Taken.leave (h : Taken s part) {r : Result} (hr : r.Good s.spec) (hpart : part p = r.chars) :
    Taken (s.leave p r) (update part p []) := by
  refine ⟨h.rep, h.out, fun q => ?_, fun q c hc => ?_, fun q x hx => ?_⟩
  · change s.own q = (update s.results p (s.results p ++ [r]) q).flatMap Result.chars ++ _
    rw [h.own q]
    by_cases hq : q = p
    · obtain rfl := hq
      rw [update_self, update_self, flatMap_append, flatMap_singleton,
        hpart, append_nil]
    · rw [update_of_ne hq, update_of_ne hq]
  · change update s.call p none q = some c at hc
    by_cases hq : q = p
    · obtain rfl := hq
      rw [update_self] at hc
      exact nomatch hc
    · rw [update_of_ne hq] at hc
      exact h.call q c hc
  · change x ∈ update s.results p (s.results p ++ [r]) q at hx
    by_cases hq : q = p
    · obtain rfl := hq
      rw [update_self, mem_append, mem_singleton] at hx
      rcases hx with hx | rfl
      · exact h.results q x hx
      · exact hr
    · rw [update_of_ne hq] at hx
      exact h.results q x hx

theorem Taken.stay (h : Taken s part) {c : Call} (hc : c.Good) (hpart : part p = c.dst) :
    Taken { s with call := update s.call p (some c) } part := by
  refine ⟨h.rep, h.out, h.own, fun q x hx => ?_, h.results⟩
  change update s.call p (some c) q = some x at hx
  by_cases hq : q = p
  · obtain rfl := hq
    rw [update_self] at hx
    cases hx
    exact hc
  · rw [update_of_ne hq] at hx
    exact h.call q x hx

theorem part_update (s : State P) (p : P) (o : Option Call) :
    (State.part { s with call := update s.call p o }) =
      update s.part p (o.elim [] Call.dst) := by
  funext q
  by_cases hq : q = p
  · obtain rfl := hq
    rw [update_self]
    change (update s.call q o q).elim [] Call.dst = _
    rw [update_self]
  · rw [update_of_ne hq]
    change (update s.call p o q).elim [] Call.dst = _
    rw [update_of_ne hq]
    rfl

theorem part_leave (s : State P) (p : P) (r : Result) :
    (s.leave p r).part = update s.part p [] :=
  part_update s p none

omit [DecidableEq P] in
theorem part_call {c : Call} (hc : s.call p = some c) : s.part p = c.dst := by
  rw [State.part, hc]
  rfl

/-! ## The results -/

variable {c : Call} {l : Line}

theorem Call.Good.most (hc : c.Good) : c.dst.length ≤ c.target.toNat := by
  have hcount := hc.count
  rcases hc.least with hnil | hn
  · rw [hnil]
    exact Nat.zero_le _
  · omega

theorem Call.Good.result (hc : c.Good) {ret : ℤ} {n : ℕ}
    (hret : ret = -1 ∨ ret = c.target - c.n) (hn : n ≤ l.taken)
    (hend : ret = -1 ∨ c.n ≤ 0 ∨ c.n < c.target ∧ l.committed[n]? = some (C 'D')) :
    Result.Good l ⟨c.target, ret, c.dst, false, n⟩ := by
  have hcount := hc.count
  refine ⟨nofun, hc.mark, fun hm => hc.plain (mem_of_mem_dropLast hm), hc.most, ?_, hn, ?_⟩
  · change ret = -1 ∨ ret = (c.dst.length : ℤ)
    omega
  · rcases hend with hk | hz | ⟨hlt, hcom⟩
    · exact .inl hk
    · refine .inr (.inr (.inl ?_))
      have hmost := hc.most
      change c.dst.length = c.target.toNat
      omega
    · refine .inr (.inr (.inr (.inr ⟨fun hnil => ?_, hcom⟩)))
      change c.dst = [] at hnil
      rw [hnil, length_nil] at hcount
      omega

theorem Call.Good.store (hc : c.Good) (hn : 0 < c.n) {ch : UInt8} (hd : ch ≠ C 'D')
    (hnl : ch ≠ newline) : Call.Good { c with dst := c.dst ++ [ch], n := c.n - 1 } := by
  refine ⟨?_, .inr ?_, fun hm => ?_, fun hm => ?_⟩
  · change c.n - 1 = c.target - (c.dst ++ [ch]).length
    rw [length_append, length_singleton, hc.count]
    push_cast
    ring
  · change 0 ≤ c.n - 1
    omega
  · rcases mem_append.1 hm with hm | hm
    · exact hc.mark hm
    · exact hd (mem_singleton.1 hm).symm
  · rcases mem_append.1 hm with hm | hm
    · exact hc.plain hm
    · exact hnl (mem_singleton.1 hm).symm

theorem Call.Good.newline (hc : c.Good) (hn : 0 < c.n) {n : ℕ} (htaken : n ≤ l.taken) :
    Result.Good l ⟨c.target, c.target - (c.n - 1), c.dst ++ [Console.newline], false, n⟩ := by
  have hcount := hc.count
  have hlen : (c.dst ++ [Console.newline]).length = c.dst.length + 1 := by
    rw [length_append, length_singleton]
  refine ⟨nofun, fun hm => ?_, fun hm => ?_, ?_, .inr ?_, htaken, .inr (.inr (.inr (.inl ?_)))⟩
  · rcases mem_append.1 hm with hm | hm
    · exact hc.mark hm
    · exact absurd (mem_singleton.1 hm) (by decide)
  · rw [dropLast_concat] at hm
    exact hc.plain hm
  · change (c.dst ++ [Console.newline]).length ≤ c.target.toNat
    omega
  · change c.target - (c.n - 1) = ((c.dst ++ [Console.newline]).length : ℤ)
    rw [hlen, hcount]
    push_cast
    ring
  · exact getLast?_concat

theorem Call.Good.eof (hc : c.Good) (hfirst : ¬ c.n < c.target) {n : ℕ}
    (htaken : n ≤ l.taken) : c.dst = [] ∧
      Result.Good l ⟨c.target, c.target - c.n, c.dst, true, n⟩ := by
  have hcount := hc.count
  have hnil : c.dst = [] := length_eq_zero_iff.1 (by omega)
  have hzero : c.target - c.n = 0 := by
    rw [hnil, length_nil] at hcount
    omega
  refine ⟨hnil, fun _ => ⟨hnil, hzero⟩, hc.mark, ?_, hc.most, .inr ?_, htaken, .inr (.inl rfl)⟩
  · change Console.newline ∉ c.dst.dropLast
    rw [hnil]
    exact not_mem_nil
  · change c.target - c.n = (c.dst.length : ℤ)
    rw [hzero, hnil]
    rfl

/-! ## Every step -/

theorem Inv.leave (h : Inv s) (hc : s.call p = some c) {ret : ℤ} {n : ℕ}
    (hr : Result.Good s.spec ⟨c.target, ret, c.dst, false, n⟩) :
    Inv (s.leave p ⟨c.target, ret, c.dst, false, n⟩) := by
  rw [Inv, part_leave]
  refine Taken.leave h hr ?_
  rw [part_call hc]
  exact (append_nil _).symm

theorem Inv.store (h : Inv s) (hc : s.call p = some c) (hn : 0 < c.n)
    (hne : s.input.r ≠ s.input.w) (hd : s.input.charAt s.input.r ≠ C 'D') :
    Inv (store s p c (s.input.charAt s.input.r)) := by
  have hgood := h.call p c hc
  have htake := Taken.take (p := p) h hne
  have hpart : update s.part p (s.part p ++ [s.input.charAt s.input.r]) p =
      c.dst ++ [s.input.charAt s.input.r] := by
    rw [update_self, part_call hc]
  rw [Console.store]
  by_cases hnl : s.input.charAt s.input.r = newline
  · rw [if_pos hnl, Inv, part_leave]
    have hr : Result.Good (s.take p (s.input.charAt s.input.r)).spec _ :=
      hgood.newline hn (n := s.spec.taken + 1) le_rfl
    rw [hnl] at htake hpart hr ⊢
    have hleave := htake.leave (p := p) hr (hpart.trans (append_nil _).symm)
    rw [update_idem] at hleave
    exact hleave
  · rw [if_neg hnl, Inv, part_update]
    have hstay := htake.stay (p := p) (hgood.store hn hd hnl) hpart
    rw [part_call hc] at hstay
    exact hstay

theorem Inv.consoleread (h : Inv s) (hc : s.call p = some c) : Inv (consoleread s p c) := by
  have hgood := h.call p c hc
  rw [Console.consoleread]
  by_cases hn : c.n ≤ 0
  · rw [if_pos hn]
    exact h.leave hc (hgood.result (.inr rfl) le_rfl (.inr (.inl hn)))
  rw [if_neg hn]
  by_cases hempty : s.input.r = s.input.w
  · rw [if_pos hempty]
    by_cases hk : s.killed p = true
    · rw [if_pos hk]
      exact h.leave hc (hgood.result (.inl rfl) le_rfl (.inl rfl))
    · rw [if_neg hk]
      exact ⟨h.rep, h.out, h.own, h.call, h.results⟩
  rw [if_neg hempty]
  by_cases hd : s.input.charAt s.input.r = C 'D'
  · rw [if_pos hd]
    by_cases hlt : c.n < c.target
    · rw [if_pos hlt, BitVec.add_sub_cancel]
      have hnext := (h.rep.take hempty).1
      rw [hd] at hnext
      exact h.leave hc (hgood.result (.inr rfl) le_rfl (.inr (.inr ⟨hlt, hnext⟩)))
    · rw [if_neg hlt]
      obtain ⟨hnil, hr⟩ := hgood.eof (l := (s.take p (C 'D')).spec) hlt
        (n := s.spec.taken + 1) le_rfl
      have htake := Taken.take (p := p) h hempty
      rw [hd] at htake ⊢
      rw [Inv, part_leave]
      have hleave := htake.leave (p := p) hr (by
        rw [update_self, part_call hc]
        rfl)
      rw [update_idem] at hleave
      exact hleave
  · rw [if_neg hd]
    exact h.store hc (Int.not_le.1 hn) hempty hd

theorem Inv.key (h : Inv s) (c : UInt8) :
    Inv { s with input := s.input.key c, spec := s.spec.key c } := by
  have hgrows := s.spec.key_grows c
  refine ⟨h.rep.key c, ?_, h.own, h.call, fun p r hr => (h.results p r hr).grows hgrows⟩
  change s.out.map Prod.snd = (s.spec.key c).committed.take (s.spec.key c).taken
  obtain ⟨more, hmore⟩ := hgrows.committed
  rw [h.out, s.spec.key_taken, ← hmore, take_append_of_le_length h.rep.taken]

theorem Inv.step {t : State P} {a : Action P} (h : Inv s) (hst : step s a = some t) : Inv t := by
  unfold Console.step at hst
  cases a with
  | key c =>
    obtain ⟨-, hst⟩ := ite_none_right_eq_some.1 hst
    cases hst
    exact h.key c
  | call p n =>
    obtain ⟨hnone, hst⟩ := ite_none_right_eq_some.1 hst
    cases hst
    have hpart : s.part p = [] := by rw [State.part, hnone]; rfl
    rw [Inv, part_update]
    have hgood : Call.Good ⟨n, n, []⟩ :=
      ⟨(sub_zero n).symm, .inl rfl, not_mem_nil, not_mem_nil⟩
    have hstay := Taken.stay h hgood hpart
    rw [← update_eq_self p s.part, hpart] at hstay
    exact hstay
  | acquire p =>
    obtain ⟨-, hst⟩ := ite_none_right_eq_some.1 hst
    cases hst
    exact ⟨h.rep, h.out, h.own, h.call, h.results⟩
  | next p =>
    obtain ⟨-, hst⟩ := ite_none_right_eq_some.1 hst
    obtain ⟨c, hc, rfl⟩ := map_eq_some_iff.1 hst
    exact h.consoleread hc
  | kill p =>
    cases hst
    exact ⟨h.rep, h.out, h.own, h.call, h.results⟩

theorem inv_boot : Inv (boot : State P) := by
  refine ⟨⟨rfl, rfl, rfl, Nat.zero_le _, fun _ => rfl, not_mem_nil, le_rfl⟩, rfl, fun _ => rfl,
    fun p c hc => ?_, fun _ _ hr => absurd hr not_mem_nil⟩
  exact nomatch hc

theorem inv_of_reach {ok : State P → Action P → Prop} (h : (system P).Reach ok s) : Inv s :=
  h.invariant (fun _ hs => hs ▸ inv_boot) fun _ _ _ hi _ hst => hi.step hst

/-! ## The line discipline -/

theorem Rep.charAt_key {i : Input} (h : Rep i l) (c : UInt8) {k : ℕ} (hk : k < (i.e - i.r).toNat) :
    (i.key c).charAt (i.r + BitVec.ofNat 32 k) = i.charAt (i.r + BitVec.ofNat 32 k) := by
  rw [h.edit_sub_read] at hk
  have hput : ∀ d, l.unread.length + l.line.length < INPUT_BUF →
      (i.put d).charAt (i.r + BitVec.ofNat 32 k) = i.charAt (i.r + BitVec.ofNat 32 k) := by
    intro d hroom
    have hne := Ring.slot_add_ne dvd_counters i.r hk (by omega)
    rw [← h.edit_eq] at hne
    have hbuf : (i.put d).buf = update i.buf (Ring.slot INPUT_BUF i.e) d := by
      rw [Input.put]
      split <;> rfl
    rw [Input.charAt, hbuf, update_of_ne hne]
    rfl
  have hkill : ∀ n (j : Input), (Input.killLoop n j).buf = j.buf := by
    intro n
    induction n with
    | zero => exact fun _ => rfl
    | succ n ih =>
      intro j
      rw [Input.killLoop]
      split
      · exact ih _
      · rfl
  rw [Input.key, h.edit_sub_read]
  split_ifs with hp hu hb hne hroom
  · rfl
  · rw [Input.charAt, hkill]
    rfl
  · rfl
  · rfl
  · exact hput _ hroom.2
  · exact hput _ hroom.2
  · rfl

/-- **The console line discipline.**  However keys and reads interleave, and however often the
indices wrap: the indices are in order, a full buffer can be read, nothing in the buffer is
overwritten, the pending part is the line as edited, and the characters taken by the reads, with
those still to be read, are the finished ones in order. -/
theorem console_line_discipline (h : (system P).Reach (fun _ _ => True) s) :
    (s.input.w - s.input.r).toNat ≤ (s.input.e - s.input.r).toNat ∧
      (s.input.e - s.input.r).toNat ≤ INPUT_BUF ∧
      ((s.input.e - s.input.r).toNat = INPUT_BUF → s.input.w = s.input.e) ∧
      (∀ c k, k < (s.input.e - s.input.r).toNat →
        (s.input.key c).charAt (s.input.r + BitVec.ofNat 32 k) =
          s.input.charAt (s.input.r + BitVec.ofNat 32 k)) ∧
      Ring.window s.input.buf s.input.w (s.input.e - s.input.w).toNat = s.spec.line ∧
      s.out.map Prod.snd ++ Ring.window s.input.buf s.input.r (s.input.w - s.input.r).toNat =
        s.spec.committed ∧
      ∀ p, s.own p = (s.results p).flatMap Result.chars ++ s.part p ∧
        (∀ r ∈ s.results p, r.Good s.spec) ∧ ∀ c, s.call p = some c → c.Good := by
  have hinv := inv_of_reach h
  have hrep := hinv.rep
  have hsplit := hrep.window
  rw [Ring.window_add, ← hrep.w] at hsplit
  obtain ⟨hunread, hline⟩ := append_inj hsplit (Ring.length_window _ _ _)
  refine ⟨?_, ?_, fun hfull => ?_, fun c k hk => hrep.charAt_key c hk, ?_, ?_, fun p =>
    ⟨hinv.own p, hinv.results p, hinv.call p⟩⟩
  · rw [hrep.write_sub_read, hrep.edit_sub_read]
    exact Nat.le_add_right _ _
  · rw [hrep.edit_sub_read]
    exact hrep.room
  · rw [hrep.edit_sub_read] at hfull
    exact (hrep.edit_eq_write.2 (hrep.full hfull)).symm
  · rw [hrep.edit_sub_write]
    exact hline
  · rw [hrep.write_sub_read, hunread, hinv.out]
    exact take_append_drop _ _

/-- A line with a correction and a `^D` in the middle, read by two processes: the first read stops
before the `^D`, and the second takes it and returns nothing. -/
def twoReads : List (Action (Fin 2)) :=
  [.call 0 5, .acquire 0, .next 0, .key 97, .key 98, .key (C 'H'), .key (C 'D'), .key 99,
    .acquire 0, .next 0, .next 0, .call 1 5, .acquire 1, .next 1]

theorem console_line_discipline_two : ∃ s : State (Fin 2),
    (system (Fin 2)).Reach (fun _ _ => True) s ∧ s.out.map Prod.snd = [97, C 'D'] ∧
    s.results 0 = [⟨5, 1, [97], false, 1⟩] ∧ s.results 1 = [⟨5, 0, [], true, 2⟩] ∧
    Ring.window s.input.buf s.input.w (s.input.e - s.input.w).toNat = [99] := by
  have hinit : (system (Fin 2)).Reach (fun _ _ => True) boot := .init rfl
  obtain ⟨s, hs, hv⟩ := Lts.reach_of_exec_map twoReads
    (fun s => (s.out.map Prod.snd, s.results 0, s.results 1, s.spec.line))
    ([97, C 'D'], [⟨5, 1, [97], false, 1⟩], [⟨5, 0, [], true, 2⟩], [99]) hinit (by decide +kernel)
  obtain ⟨hout, h0, h1, hline⟩ : s.out.map Prod.snd = [97, C 'D'] ∧
      s.results 0 = [⟨5, 1, [97], false, 1⟩] ∧ s.results 1 = [⟨5, 0, [], true, 2⟩] ∧
      s.spec.line = [99] := by
    simpa only [Prod.mk.injEq] using hv
  exact ⟨s, hs, hout, h0, h1, (console_line_discipline hs).2.2.2.2.1.trans hline⟩

end Xv6.Console
