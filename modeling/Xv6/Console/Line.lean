import Xv6.Lib.Ring

/-!
# The console line discipline

`consoleintr` and `consoleread` of `console.c`, against a description of what they are for:
a line that is edited, and the characters of the lines that were finished (`Line`).

The three indices of the source are 32-bit counters into a ring of `INPUT_BUF` characters.
`Rep` says that the ring holds the unread characters and the line.
-/

namespace Xv6.Console

open Xv6.Lib List
open BitVec (ofNat ofNat_add toNat_ofNat)

def INPUT_BUF : ℕ := 128

instance : NeZero INPUT_BUF := ⟨by decide⟩

/-- `C(x)`, control-`x`. -/
def C (x : Char) : UInt8 := UInt8.ofNat (x.toNat - '@'.toNat)

def newline : UInt8 := 10

def carriageReturn : UInt8 := 13

def delete : UInt8 := 0x7f

/-! ## The source -/

structure Input where
  buf : Fin INPUT_BUF → UInt8
  r : BitVec 32
  w : BitVec 32
  e : BitVec 32

namespace Input

def charAt (i : Input) (k : BitVec 32) : UInt8 := i.buf (Ring.slot INPUT_BUF k)

/-- The loop of `C('U')`; every round takes back one character. -/
def killLoop : ℕ → Input → Input
  | 0, i => i
  | n + 1, i =>
    if i.e ≠ i.w ∧ i.charAt (i.e - 1) ≠ newline then killLoop n { i with e := i.e - 1 } else i

/-- `input.buf[input.e++ % INPUT_BUF] = c`, and the line is finished if need be. -/
def put (i : Input) (c : UInt8) : Input :=
  let i := { i with
    buf := Function.update i.buf (Ring.slot INPUT_BUF i.e) c
    e := i.e + 1 }
  if c = newline ∨ c = C 'D' ∨ i.e = i.r + ofNat 32 INPUT_BUF then { i with w := i.e } else i

/-- One character in `consoleintr`. -/
def key (i : Input) (c : UInt8) : Input :=
  if c = C 'P' then i
  else if c = C 'U' then killLoop (i.e - i.w).toNat i
  else if c = C 'H' ∨ c = delete then if i.e ≠ i.w then { i with e := i.e - 1 } else i
  else if c ≠ 0 ∧ (i.e - i.r).toNat < INPUT_BUF then
    i.put (if c = carriageReturn then newline else c)
  else i

end Input

/-! ## What it is for -/

/-- All finished characters, how many of them have been read, and the line that is being
edited. -/
structure Line where
  committed : List UInt8
  taken : ℕ
  line : List UInt8

namespace Line

/-- Finished and not read. -/
def unread (l : Line) : List UInt8 := l.committed.drop l.taken

/-- A character is added to the line, which is finished by a newline, by `^D`, and when the
buffer is full. -/
def add (l : Line) (c : UInt8) : Line :=
  if c = newline ∨ c = C 'D' ∨ l.unread.length + l.line.length + 1 = INPUT_BUF then
    { l with committed := l.committed ++ (l.line ++ [c]), line := [] }
  else { l with line := l.line ++ [c] }

/-- A key is pressed: `^U` deletes the line, backspace its last character, and a character
for which there is no room is dropped. -/
def key (l : Line) (c : UInt8) : Line :=
  if c = C 'P' then l
  else if c = C 'U' then { l with line := [] }
  else if c = C 'H' ∨ c = delete then { l with line := l.line.dropLast }
  else if c ≠ 0 ∧ l.unread.length + l.line.length < INPUT_BUF then
    l.add (if c = carriageReturn then newline else c)
  else l

end Line

/-! ## The one is the other -/

/-- **The ring holds the unread characters and the line.** -/
structure Rep (i : Input) (l : Line) : Prop where
  w : i.w = i.r + ofNat 32 l.unread.length
  e : i.e = i.w + ofNat 32 l.line.length
  window : Ring.window i.buf i.r (l.unread.length + l.line.length) = l.unread ++ l.line
  room : l.unread.length + l.line.length ≤ INPUT_BUF
  full : l.unread.length + l.line.length = INPUT_BUF → l.line = []
  plain : newline ∉ l.line
  taken : l.taken ≤ l.committed.length

variable {i : Input} {l : Line}

theorem dvd_counters : INPUT_BUF ∣ 2 ^ 32 := by decide

theorem Rep.edit_sub_read (h : Rep i l) : (i.e - i.r).toNat = l.unread.length + l.line.length := by
  have hroom := h.room
  have hsize : INPUT_BUF = 128 := rfl
  rw [h.e, h.w, BitVec.add_assoc, ← ofNat_add, BitVec.add_comm, BitVec.add_sub_cancel,
    toNat_ofNat, Nat.mod_eq_of_lt]
  omega

theorem Rep.write_sub_read (h : Rep i l) : (i.w - i.r).toNat = l.unread.length := by
  have hroom := h.room
  have hsize : INPUT_BUF = 128 := rfl
  rw [h.w, BitVec.add_comm, BitVec.add_sub_cancel, toNat_ofNat, Nat.mod_eq_of_lt]
  omega

theorem Rep.edit_sub_write (h : Rep i l) : (i.e - i.w).toNat = l.line.length := by
  have hroom := h.room
  have hsize : INPUT_BUF = 128 := rfl
  rw [h.e, BitVec.add_comm, BitVec.add_sub_cancel, toNat_ofNat, Nat.mod_eq_of_lt]
  omega

theorem Rep.edit_eq (h : Rep i l) :
    i.e = i.r + ofNat 32 (l.unread.length + l.line.length) := by
  rw [h.e, h.w, BitVec.add_assoc, ← ofNat_add]

theorem Rep.edit_eq_write (h : Rep i l) : i.e = i.w ↔ l.line = [] := by
  rw [← length_eq_zero_iff, ← h.edit_sub_write]
  constructor
  · intro he
    rw [he, BitVec.sub_self]
    rfl
  · intro hz
    exact sub_eq_zero.1 (BitVec.eq_of_toNat_eq hz)

theorem Rep.back (h : Rep i l) {rest : List UInt8} {c : UInt8} (hline : l.line = rest ++ [c]) :
    i.charAt (i.e - 1) = c ∧ Rep { i with e := i.e - 1 } { l with line := rest } := by
  have hlen : l.line.length = rest.length + 1 := by rw [hline, length_append]; rfl
  have hwin := h.window
  have hplain := h.plain
  have hroom := h.room
  have he : i.e - 1 = i.r + ofNat 32 (l.unread.length + rest.length) := by
    rw [h.edit_eq, hlen, ← Nat.add_assoc, ofNat_add, ← BitVec.add_assoc]
    exact BitVec.add_sub_cancel _ _
  rw [hlen, ← Nat.add_assoc, Ring.window_concat, hline, ← append_assoc] at hwin
  obtain ⟨hinit, hlast⟩ := append_inj' hwin rfl
  refine ⟨?_, h.w, ?_, hinit, ?_, fun hfull => ?_, fun hmem => ?_, h.taken⟩
  · rw [Input.charAt, he]
    exact (List.cons.inj hlast).1
  · change i.e - 1 = i.w + _
    rw [he, h.w, BitVec.add_assoc, ← ofNat_add]
  · change l.unread.length + rest.length ≤ INPUT_BUF
    omega
  · change l.unread.length + rest.length = INPUT_BUF at hfull
    omega
  · exact hplain (by rw [hline]; exact mem_append_left _ hmem)

theorem Rep.kill (n : ℕ) : ∀ {i : Input} {l : Line}, Rep i l → l.line.length ≤ n →
    Rep (Input.killLoop n i) { l with line := [] } := by
  induction n with
  | zero =>
    intro i l h hn
    obtain ⟨cm, tk, ln⟩ := l
    obtain rfl : ln = [] := length_eq_zero_iff.1 (Nat.le_zero.1 hn)
    exact h
  | succ n ih =>
    intro i l h hn
    rw [Input.killLoop]
    rcases eq_nil_or_concat' l.line with hnil | ⟨rest, c, hline⟩
    · have he := h.edit_eq_write.2 hnil
      rw [if_neg fun hc => hc.1 he]
      obtain ⟨cm, tk, ln⟩ := l
      obtain rfl : ln = [] := hnil
      exact h
    · obtain ⟨hlast, hback⟩ := h.back hline
      have hne : i.e ≠ i.w := by
        rw [Ne, h.edit_eq_write, hline]
        simp
      have hc : i.charAt (i.e - 1) ≠ newline := by
        rw [hlast]
        intro hc
        exact h.plain (by rw [hline, hc]; simp)
      rw [if_pos ⟨hne, hc⟩]
      rw [hline, length_append, length_singleton] at hn
      have hkill := ih hback (Nat.le_of_succ_le_succ hn)
      exact hkill

theorem unread_commit (h : l.taken ≤ l.committed.length) (cs : List UInt8) :
    ({ l with committed := l.committed ++ cs, line := [] } : Line).unread = l.unread ++ cs :=
  drop_append_of_le_length h

theorem Rep.put (h : Rep i l) (c : UInt8) (hroom : l.unread.length + l.line.length < INPUT_BUF) :
    Rep (i.put c) (l.add c) := by
  have hsize : INPUT_BUF = 128 := rfl
  have hstore := Ring.window_store dvd_counters i.buf i.r hroom c
  rw [← h.edit_eq, h.window, append_assoc] at hstore
  have hnext : i.e + 1 = i.r + ofNat 32 (l.unread.length + l.line.length + 1) := by
    rw [h.edit_eq, BitVec.add_assoc]
    exact congrArg (i.r + ·) (ofNat_add _ _).symm
  have hend : i.e + 1 = i.r + ofNat 32 INPUT_BUF ↔
      l.unread.length + l.line.length + 1 = INPUT_BUF := by
    rw [hnext, add_right_inj, ← BitVec.toNat_inj, toNat_ofNat, toNat_ofNat]
    omega
  rw [Input.put, Line.add]
  simp only [hend]
  by_cases hc : c = newline ∨ c = C 'D' ∨ l.unread.length + l.line.length + 1 = INPUT_BUF
  · rw [if_pos hc, if_pos hc]
    have hunread := unread_commit h.taken (l.line ++ [c])
    have hlen : ({ l with committed := l.committed ++ (l.line ++ [c]), line := [] } :
        Line).unread.length = l.unread.length + l.line.length + 1 := by
      rw [hunread, length_append, length_append, length_singleton, Nat.add_assoc]
    refine ⟨?_, (BitVec.add_zero _).symm, ?_, ?_, fun _ => rfl, not_mem_nil, ?_⟩
    · rw [hlen]
      exact hnext
    · rw [hlen, hunread]
      exact hstore.trans (append_nil _).symm
    · rw [hlen]
      exact hroom
    · change l.taken ≤ (l.committed ++ _).length
      have := h.taken
      rw [length_append]
      omega
  · rw [if_neg hc, if_neg hc]
    rw [not_or, not_or] at hc
    have hlen : (l.line ++ [c]).length = l.line.length + 1 := by
      rw [length_append, length_singleton]
    refine ⟨h.w, ?_, ?_, ?_, fun hfull => ?_, ?_, h.taken⟩
    · change i.e + 1 = i.w + ofNat 32 (l.line ++ [c]).length
      rw [hlen, h.e, ofNat_add, ← BitVec.add_assoc]
      rfl
    · change Ring.window _ i.r (l.unread.length + (l.line ++ [c]).length) = _
      rw [hlen]
      exact hstore
    · change l.unread.length + (l.line ++ [c]).length ≤ INPUT_BUF
      omega
    · change l.unread.length + (l.line ++ [c]).length = INPUT_BUF at hfull
      omega
    · change newline ∉ l.line ++ [c]
      rw [mem_append, mem_singleton, not_or]
      exact ⟨h.plain, fun he => hc.1 he.symm⟩

theorem Rep.key (h : Rep i l) (c : UInt8) : Rep (i.key c) (l.key c) := by
  rw [Input.key, Line.key, h.edit_sub_read, h.edit_sub_write]
  by_cases hp : c = C 'P'
  · rw [if_pos hp, if_pos hp]
    exact h
  rw [if_neg hp, if_neg hp]
  by_cases hu : c = C 'U'
  · rw [if_pos hu, if_pos hu]
    exact Rep.kill _ h le_rfl
  rw [if_neg hu, if_neg hu]
  by_cases hb : c = C 'H' ∨ c = delete
  · rw [if_pos hb, if_pos hb]
    rcases eq_nil_or_concat' l.line with hnil | ⟨rest, x, hline⟩
    · rw [if_neg fun hne => hne (h.edit_eq_write.2 hnil), hnil]
      obtain ⟨cm, tk, ln⟩ := l
      obtain rfl : ln = [] := hnil
      exact h
    · have hne : i.e ≠ i.w := by
        rw [Ne, h.edit_eq_write, hline]
        simp
      rw [if_pos hne, hline, dropLast_concat]
      exact (h.back hline).2
  rw [if_neg hb, if_neg hb]
  by_cases hroom : c ≠ 0 ∧ l.unread.length + l.line.length < INPUT_BUF
  · rw [if_pos hroom, if_pos hroom]
    exact h.put _ hroom.2
  · rw [if_neg hroom, if_neg hroom]
    exact h

theorem Rep.take (h : Rep i l) (hne : i.r ≠ i.w) :
    l.committed[l.taken]? = some (i.charAt i.r) ∧
      Rep { i with r := i.r + 1 } { l with taken := l.taken + 1 } := by
  have hpos : l.unread ≠ [] := by
    intro hnil
    have hw := h.w
    rw [hnil] at hw
    exact hne (hw.trans (BitVec.add_zero _)).symm
  obtain ⟨c, rest, hunread⟩ := exists_cons_of_ne_nil hpos
  have hnext : l.committed.drop (l.taken + 1) = rest := by
    have htail := congrArg List.tail hunread
    rwa [Line.unread, tail_drop] at htail
  have hfirst : l.committed[l.taken]? = some c := by
    have hhead := congrArg List.head? hunread
    rwa [Line.unread, head?_drop] at hhead
  have hlt : l.taken < l.committed.length := by
    by_contra hge
    exact hpos (drop_eq_nil_of_le (Nat.le_of_not_lt hge))
  have hlen : l.unread.length = rest.length + 1 := by rw [hunread, length_cons]
  have hwin := h.window
  rw [hunread, length_cons, Nat.add_right_comm, Ring.window_succ, cons_append] at hwin
  obtain ⟨hc, hrest⟩ := List.cons.inj hwin
  have hroom := h.room
  have hunread' : ({ l with taken := l.taken + 1 } : Line).unread = rest := hnext
  refine ⟨?_, ?_, h.e, ?_, ?_, fun hfull => ?_, h.plain, hlt⟩
  · rw [hfirst]
    exact congrArg some hc.symm
  · rw [hunread']
    change i.w = i.r + 1 + _
    rw [h.w, hlen, Nat.add_comm, ofNat_add, BitVec.add_assoc]
    rfl
  · rw [hunread']
    exact hrest
  · rw [hunread']
    change rest.length + l.line.length ≤ INPUT_BUF
    omega
  · rw [hunread'] at hfull
    change rest.length + l.line.length = INPUT_BUF at hfull
    omega

end Xv6.Console
