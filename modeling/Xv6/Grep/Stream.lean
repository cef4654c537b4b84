import Xv6.Grep.Match

/-!
# `grep` on a stream

The function `grep` of `grep.c`, with its buffer of 1024 bytes, into which `read` puts what has
come so far.  `cut i` says how many bytes the `i`-th `read` gives, at least one and at most as many
as it is asked for and there are.

* `lines_spec` — the inner loop prints the matching lines of the buffer.
* `grep_prints_matching_lines` — `grep` prints the matching lines of the stream, for all patterns,
  exactly if no `read` ends inside a line that begins the buffer and is finished later.
* `grep_loses_line` — otherwise `grep` drops the beginning of the line.
-/

namespace Xv6.Grep

open List

/-! ## The code -/

def newline : UInt8 := 10

def sizeofBuf : ℕ := 1024

/-- `strchr`: the distance to the first `c` before the NUL. -/
def strchr (c : UInt8) : List UInt8 → Option ℕ
  | [] => none
  | a :: s => if a = 0 then none else if a = c then some 0 else (strchr c s).map (· + 1)

/-- The string at a pointer. -/
def str (s : List UInt8) : List UInt8 := s.takeWhile (· ≠ 0)

/-- `memmove` inside `buf`, byte by byte. -/
def memmove (dst src : ℕ) : ℕ → List UInt8 → List UInt8
  | 0, buf => buf
  | n + 1, buf => memmove (dst + 1) (src + 1) n (buf.set dst (buf.getD src 0))

/-- `read(fd, ..., n)` of a stream: the bytes it gives, and those that are left. -/
def read (cut n : ℕ) (s : List UInt8) : List UInt8 × List UInt8 :=
  (s.take (min (cut + 1) n), s.drop (min (cut + 1) n))

/-- The loop over the newlines of the buffer: the buffer and `p` behind it, and what is written.
`none` is for a loop that has not come to its end. -/
def lines (pattern : List UInt8) : ℕ → List UInt8 → ℕ → Option (List UInt8 × ℕ × List UInt8)
  | 0, _, _ => none
  | n + 1, buf, p =>
    match strchr newline (buf.drop p) with
    | none => some (buf, p, [])
    | some k =>
      if «match» pattern (str ((buf.set (p + k) 0).drop p)) then
        (lines pattern n ((buf.set (p + k) 0).set (p + k) newline) (p + k + 1)).map fun r =>
          (r.1, r.2.1,
            (((buf.set (p + k) 0).set (p + k) newline).drop p).take (k + 1) ++ r.2.2)
      else lines pattern n (buf.set (p + k) 0) (p + k + 1)

/-- The end of the loop's body: what is behind the last newline goes to the front. -/
def keep (buf : List UInt8) (p m : ℕ) : List UInt8 × ℕ :=
  if 0 < (if p = 0 then 0 else m) then (memmove 0 p (m - p) buf, m - p) else (buf, 0)

/-- `grep` from its `i`-th `read` on: what is written, and for each `read` the number of bytes it
was asked for and the bytes it gave. -/
def grepLoop (pattern : List UInt8) (cut : ℕ → ℕ) :
    ℕ → ℕ → List UInt8 → ℕ → List UInt8 → Option (List UInt8 × List (ℕ × List UInt8))
  | 0, _, _, _, _ => none
  | n + 1, i, buf, m, s =>
    let got := read (cut i) (sizeofBuf - m - 1) s
    if got.1 = [] then some ([], [])
    else
      let filled := (buf.take m ++ got.1 ++ buf.drop (m + got.1.length)).set (m + got.1.length) 0
      match lines pattern (sizeofBuf + 1) filled 0 with
      | none => none
      | some (buf, p, out) =>
        let kept := keep buf p (m + got.1.length)
        (grepLoop pattern cut n (i + 1) kept.1 kept.2 got.2).map fun r =>
          (out ++ r.1, (sizeofBuf - m - 1, got.1) :: r.2)

/-- `grep(pattern, fd)` on a stream; `buf` is zero at the start of the program. -/
def grep (pattern : List UInt8) (cut : ℕ → ℕ) (s : List UInt8) :
    Option (List UInt8 × List (ℕ × List UInt8)) :=
  grepLoop pattern cut (s.length + 1) 0 (List.replicate sizeofBuf 0) 0 s

/-! ## Lines -/

/-- The lines of a text that end in a newline, without it, and the rest. -/
def splitLines : List UInt8 → List (List UInt8) × List UInt8
  | [] => ([], [])
  | a :: s =>
    if a = newline then ([] :: (splitLines s).1, (splitLines s).2)
    else
      match (splitLines s).1 with
      | [] => ([], a :: (splitLines s).2)
      | l :: ls => ((a :: l) :: ls, (splitLines s).2)

variable {l t buf : List UInt8} {p : ℕ}

theorem splitLines_rest (h : newline ∉ l) : splitLines l = ([], l) := by
  induction l with
  | nil => rfl
  | cons a l ih =>
    rw [mem_cons, not_or] at h
    rw [splitLines, if_neg (Ne.symm h.1), ih h.2]

theorem splitLines_line (s : List UInt8) (h : newline ∉ l) :
    splitLines (l ++ newline :: s) = (l :: (splitLines s).1, (splitLines s).2) := by
  induction l with
  | nil => rw [nil_append, splitLines, if_pos rfl]
  | cons a l ih =>
    rw [mem_cons, not_or] at h
    rw [cons_append, splitLines, if_neg (Ne.symm h.1), ih h.2]

theorem line_cases (t : List UInt8) :
    newline ∉ t ∨ ∃ l s, t = l ++ newline :: s ∧ newline ∉ l := by
  by_cases h : newline ∈ t
  · exact .inr (eq_append_cons_of_mem h |>.imp fun l ⟨s, ht, hl⟩ => ⟨s, ht, hl⟩)
  · exact .inl h

theorem newline_notMem_rest (t : List UInt8) : newline ∉ (splitLines t).2 := by
  induction t with
  | nil => exact not_mem_nil
  | cons a t ih =>
    rw [splitLines]
    by_cases ha : a = newline
    · rw [if_pos ha]
      exact ih
    rw [if_neg ha]
    cases h : (splitLines t).1 with
    | nil => exact fun hmem => (mem_cons.1 hmem).elim (fun h => ha h.symm) ih
    | cons l ls => exact ih

theorem splitLines_join (t : List UInt8) :
    (splitLines t).1.flatMap (· ++ [newline]) ++ (splitLines t).2 = t := by
  induction t with
  | nil => rfl
  | cons a t ih =>
    rw [splitLines]
    by_cases ha : a = newline
    · rw [if_pos ha, ha, flatMap_cons, append_assoc, ih]
      rfl
    rw [if_neg ha]
    cases h : (splitLines t).1 with
    | nil =>
      rw [h] at ih
      exact congrArg (a :: ·) ih
    | cons l ls =>
      rw [h] at ih
      exact congrArg (a :: ·) ih

theorem length_rest_le (t : List UInt8) : (splitLines t).2.length ≤ t.length := by
  have h := congrArg List.length (splitLines_join t)
  rw [length_append] at h
  omega

theorem rest_subset (t : List UInt8) : (splitLines t).2 ⊆ t := by
  intro a ha
  rw [← splitLines_join t]
  exact mem_append_right _ ha

theorem rest_lt (h : newline ∈ t) : (splitLines t).2.length < t.length := by
  have hjoin := splitLines_join t
  refine lt_of_le_of_ne (length_rest_le t) fun heq => newline_notMem_rest t ?_
  have hlen := congrArg List.length hjoin
  rw [length_append, heq] at hlen
  have hnil := length_eq_zero_iff.1 (Nat.add_eq_right.1 hlen)
  rw [hnil, nil_append] at hjoin
  rw [hjoin]
  exact h

theorem splitLines_append (u v : List UInt8) : splitLines (u ++ v) =
    ((splitLines u).1 ++ (splitLines ((splitLines u).2 ++ v)).1,
      (splitLines ((splitLines u).2 ++ v)).2) := by
  -- On the number of newlines in `u`, through its length.
  induction hn : u.length using Nat.strong_induction_on generalizing u with
  | _ n ih =>
    obtain h | ⟨l, s, rfl, hl⟩ := line_cases u
    · rw [splitLines_rest h]
      rfl
    · have hlt : s.length < n := by
        rw [← hn, length_append, length_cons]
        omega
      rw [append_assoc, cons_append, splitLines_line _ hl, splitLines_line _ hl,
        ih _ hlt s rfl]
      rfl

/-- **What `grep` is for**: the lines that match, each with its newline. -/
def matching (pattern s : List UInt8) : List UInt8 :=
  ((splitLines s).1.filter («match» pattern)).flatMap (· ++ [newline])

theorem matching_append (pattern u v : List UInt8) : matching pattern (u ++ v) =
    matching pattern u ++ matching pattern ((splitLines u).2 ++ v) := by
  rw [matching, splitLines_append, filter_append, flatMap_append]
  rfl

theorem matching_rest {pattern : List UInt8} (h : newline ∉ t) : matching pattern t = [] := by
  rw [matching, splitLines_rest h]
  rfl

theorem matching_line (pattern : List UInt8) (s : List UInt8) (h : newline ∉ l) :
    matching pattern (l ++ newline :: s) =
      (if «match» pattern l then l ++ [newline] else []) ++ matching pattern s := by
  rw [matching, splitLines_line s h, filter_cons]
  by_cases hm : «match» pattern l = true
  · rw [if_pos hm, if_pos hm, flatMap_cons]
    rfl
  · rw [if_neg hm, if_neg hm]
    rfl

/-! ## The buffer -/

theorem strchr_none (j : List UInt8) (h : newline ∉ t) :
    strchr newline (t ++ 0 :: j) = none := by
  induction t with
  | nil => rfl
  | cons a t ih =>
    rw [mem_cons, not_or] at h
    rw [cons_append, strchr, ih h.2, if_neg (Ne.symm h.1)]
    by_cases ha : a = 0
    · rw [if_pos ha]
    · rw [if_neg ha]
      rfl

theorem strchr_some (s : List UInt8) (h : newline ∉ l) (h0 : 0 ∉ l) :
    strchr newline (l ++ newline :: s) = some l.length := by
  induction l with
  | nil => rfl
  | cons a l ih =>
    rw [mem_cons, not_or] at h h0
    rw [cons_append, strchr, if_neg (Ne.symm h0.1), if_neg (Ne.symm h.1), ih h.2 h0.2]
    rfl

theorem str_line (s : List UInt8) (h0 : 0 ∉ l) : str (l ++ 0 :: s) = l := by
  rw [str, takeWhile_append_of_pos]
  · rw [takeWhile_cons_of_neg (by decide), append_nil]
  · intro a ha
    exact decide_eq_true fun h => h0 (h ▸ ha)

theorem drop_set {s : List UInt8} (b c : UInt8) (h : buf.drop p = l ++ b :: s) :
    (buf.set (p + l.length) c).drop p = l ++ c :: s := by
  rw [List.drop_set, if_neg (by omega), h, Nat.add_sub_cancel_left,
    List.set_append_right _ _ le_rfl, Nat.sub_self, List.set_cons_zero]

theorem drop_line {s : List UInt8} (b : UInt8) (h : buf.drop p = l ++ b :: s) :
    buf.drop (p + l.length + 1) = s := by
  have hsplit : buf.drop (p + (l.length + 1)) = (buf.drop p).drop (l.length + 1) :=
    (drop_drop ..).symm
  rw [Nat.add_assoc, hsplit, h, drop_append, drop_eq_nil_of_le (Nat.le_succ _),
    Nat.add_sub_cancel_left, drop_one]
  rfl

theorem lines_spec (pattern j : List UInt8) : ∀ (n : ℕ) (buf t : List UInt8) (p : ℕ),
    buf.drop p = t ++ 0 :: j → 0 ∉ t → t.length < n →
    ∃ buf', lines pattern n buf p =
        some (buf', p + (t.length - (splitLines t).2.length), matching pattern t) ∧
      buf'.drop (p + (t.length - (splitLines t).2.length)) = (splitLines t).2 ++ 0 :: j ∧
      buf'.length = buf.length := by
  intro n
  induction n with
  | zero => exact fun _ _ _ _ _ h => absurd h (Nat.not_lt_zero _)
  | succ n ih =>
    intro buf t p hbuf h0 hn
    rw [lines]
    obtain hrest | ⟨l, s, rfl, hl⟩ := line_cases t
    · rw [hbuf, strchr_none j hrest, splitLines_rest hrest, matching_rest hrest, Nat.sub_self]
      exact ⟨buf, rfl, hbuf, rfl⟩
    rw [append_assoc, cons_append] at hbuf
    rw [mem_append, mem_cons, not_or, not_or] at h0
    obtain ⟨hl0, -, hs0⟩ := h0
    rw [hbuf, strchr_some _ hl hl0]
    have hcut := drop_set newline 0 hbuf
    have hback := drop_set 0 newline hcut
    have hle := length_rest_le s
    have hlen : (l ++ newline :: s).length = l.length + 1 + s.length := by
      rw [length_append, length_cons]
      omega
    have hpos : p + ((l ++ newline :: s).length - (splitLines (l ++ newline :: s)).2.length) =
        p + l.length + 1 + (s.length - (splitLines s).2.length) := by
      rw [hlen, splitLines_line s hl]
      dsimp only
      omega
    rw [hpos, splitLines_line s hl, matching_line pattern s hl]
    dsimp only
    rw [hcut, str_line _ hl0]
    by_cases hm : «match» pattern l = true
    · obtain ⟨buf', hrun, hdrop, hlen'⟩ := ih _ s (p + l.length + 1) (drop_line newline hback) hs0
        (by omega)
      refine ⟨buf', ?_, hdrop, ?_⟩
      · have htake : (l ++ newline :: (s ++ 0 :: j)).take (l.length + 1) = l ++ [newline] := by
          rw [take_append, take_of_length_le (Nat.le_succ _), Nat.add_sub_cancel_left]
          rfl
        rw [if_pos hm, if_pos hm, hrun, hback, htake]
        rfl
      · rw [hlen', length_set, length_set]
    · obtain ⟨buf', hrun, hdrop, hlen'⟩ := ih _ s (p + l.length + 1) (drop_line 0 hcut) hs0
        (by omega)
      refine ⟨buf', ?_, hdrop, ?_⟩
      · rw [if_neg hm, if_neg hm, hrun]
        rfl
      · rw [hlen', length_set]

theorem length_memmove : ∀ (n dst src : ℕ) (buf : List UInt8),
    (memmove dst src n buf).length = buf.length := by
  intro n
  induction n with
  | zero => exact fun _ _ _ => rfl
  | succ n ih =>
    intro dst src buf
    rw [memmove, ih, length_set]

theorem take_memmove : ∀ (n dst src : ℕ) (buf : List UInt8), dst ≤ src → src + n ≤ buf.length →
    (memmove dst src n buf).take (dst + n) = buf.take dst ++ (buf.drop src).take n := by
  intro n
  induction n with
  | zero =>
    intro dst src buf _ _
    rw [memmove, take_zero, append_nil, Nat.add_zero]
  | succ n ih =>
    intro dst src buf hle hlen
    have hsrc : src < buf.length := by omega
    have hdst : dst < buf.length := by omega
    rw [memmove, Nat.add_comm n 1, ← Nat.add_assoc, ih _ _ _ (by omega)
      (by rw [length_set]; omega), getD_eq_getElem _ _ hsrc]
    have hfront : (buf.set dst buf[src]).take (dst + 1) = buf.take dst ++ [buf[src]] := by
      rw [take_set, take_succ_eq_append_getElem hdst, set_append_right _ _ (by simp)]
      have hzero : dst - (buf.take dst).length = 0 := by
        rw [length_take]
        omega
      rw [hzero]
      rfl
    have hback : (buf.set dst buf[src]).drop (src + 1) = buf.drop (src + 1) := by
      rw [List.drop_set, if_pos (by omega)]
    rw [hfront, hback, List.append_assoc]
    congr 1
    rw [Nat.add_comm 1 n, drop_eq_getElem_cons hsrc]
    rfl

theorem length_keep (buf : List UInt8) (p m : ℕ) : (keep buf p m).1.length = buf.length := by
  by_cases h : 0 < (if p = 0 then 0 else m)
  · rw [keep, if_pos h]
    exact length_memmove ..
  · rw [keep, if_neg h]

theorem keep_spec {j : List UInt8} (hbuf : buf.drop p = t ++ 0 :: j) (hp : p ≠ 0) :
    (keep buf p (p + t.length)).2 = t.length ∧
      (keep buf p (p + t.length)).1.take t.length = t := by
  have hlen := congrArg List.length hbuf
  rw [length_drop, length_append, length_cons] at hlen
  rw [keep, if_neg hp, if_pos (by omega), Nat.add_sub_cancel_left]
  refine ⟨rfl, ?_⟩
  have hmove := take_memmove t.length 0 p buf (Nat.zero_le _) (by omega)
  rw [Nat.zero_add, hbuf, take_left] at hmove
  exact hmove

theorem keep_zero (buf : List UInt8) (m : ℕ) : keep buf 0 m = (buf, 0) := by
  rw [keep, if_pos rfl, if_neg (lt_irrefl 0)]

/-! ## The stream -/

/-- How the stream `s` comes behind the beginning `t` of a line: each `read`, of what is left of the
buffer, brings a newline, or there is none in the rest of the stream either. -/
def WholeFrom (cut : ℕ → ℕ) : ℕ → ℕ → List UInt8 → List UInt8 → Prop
  | 0, _, _, _ => True
  | n + 1, i, t, s =>
    let got := read (cut i) (sizeofBuf - t.length - 1) s
    if newline ∈ got.1 then WholeFrom cut n (i + 1) (splitLines (t ++ got.1)).2 got.2
    else newline ∉ got.2

/-- No `read` ends inside a line that begins the buffer and is finished later. -/
def Whole (cut : ℕ → ℕ) (s : List UInt8) : Prop := WholeFrom cut (s.length + 1) 0 [] s

instance decidableWholeFrom (cut : ℕ → ℕ) : ∀ n i t s, Decidable (WholeFrom cut n i t s)
  | 0, _, _, _ => .isTrue trivial
  | n + 1, i, t, s => by
    have := decidableWholeFrom cut n (i + 1)
    rw [WholeFrom]
    infer_instance

instance (cut : ℕ → ℕ) (s : List UInt8) : Decidable (Whole cut s) :=
  inferInstanceAs (Decidable (WholeFrom ..))

/-- No line is longer than the buffer takes. -/
def Short (s : List UInt8) : Prop := ∀ l ∈ (splitLines s).1, l.length ≤ 1022

instance (s : List UInt8) : Decidable (Short s) :=
  inferInstanceAs (Decidable (∀ l ∈ (splitLines s).1, l.length ≤ 1022))

theorem Short.rest {u v : List UInt8} (h : Short (u ++ v)) (hu : newline ∉ u)
    (hlen : u.length = 1023) : newline ∉ v := by
  intro hmem
  obtain hv | ⟨l, s, rfl, hl⟩ := line_cases v
  · exact hv hmem
  · rw [← append_assoc] at h
    have hline : newline ∉ u ++ l := fun hm => (mem_append.1 hm).elim hu hl
    have hshort := h (u ++ l) (by rw [splitLines_line s hline]; exact mem_cons_self)
    rw [length_append] at hshort
    omega

theorem Short.append {u v : List UInt8} (h : Short (u ++ v)) : Short ((splitLines u).2 ++ v) := by
  intro l hl
  refine h l ?_
  rw [splitLines_append]
  exact mem_append_right _ hl

theorem read_spec (cut : ℕ) {n : ℕ} (s : List UInt8) (hn : 0 < n) :
    (read cut n s).1 ++ (read cut n s).2 = s ∧ (read cut n s).1.length ≤ n ∧
      ((read cut n s).1 = [] → s = []) := by
  refine ⟨take_append_drop .., (length_take_le ..).trans (Nat.min_le_right ..), ?_⟩
  intro h
  obtain hz | hs := take_eq_nil_iff.1 h
  · omega
  · exact hs

theorem wholeFrom_of_full (cut : ℕ → ℕ) (hcut : ∀ i, sizeofBuf ≤ cut i + 1) : ∀ (n i : ℕ)
    (t s : List UInt8), t.length ≤ 1022 → newline ∉ t → Short (t ++ s) → WholeFrom cut n i t s := by
  intro n
  induction n with
  | zero => exact fun _ _ _ _ _ _ => trivial
  | succ n ih =>
    intro i t s ht hnl hshort
    have h1024 : sizeofBuf = 1024 := rfl
    have hcut' := hcut i
    have hread : read (cut i) (sizeofBuf - t.length - 1) s =
        (s.take (1023 - t.length), s.drop (1023 - t.length)) := by
      rw [read, Nat.min_eq_right (by omega), h1024, Nat.sub_right_comm]
    rw [WholeFrom, hread]
    dsimp only
    have hjoin : t ++ s = t ++ s.take (1023 - t.length) ++ s.drop (1023 - t.length) := by
      rw [append_assoc, take_append_drop]
    rw [hjoin] at hshort
    split
    · rename_i hnew
      refine ih (i + 1) _ _ ?_ (newline_notMem_rest _) hshort.append
      have hlt := rest_lt (mem_append_right t hnew)
      have hle := length_take_le (1023 - t.length) s
      rw [length_append] at hlt
      omega
    · rename_i hnew
      have hline : newline ∉ t ++ s.take (1023 - t.length) :=
        fun h => (mem_append.1 h).elim hnl hnew
      by_cases hlen : s.length < 1023 - t.length
      · rw [drop_eq_nil_of_le hlen.le]
        exact not_mem_nil
      · refine hshort.rest hline ?_
        rw [length_append, length_take]
        omega

theorem wholeFrom_rest (cut : ℕ → ℕ) : ∀ (n i : ℕ) (t : List UInt8) {s : List UInt8}, newline ∉ s →
    WholeFrom cut n i t s := by
  intro n
  cases n with
  | zero => exact fun _ _ _ _ => trivial
  | succ n =>
    intro i t s hs
    rw [WholeFrom, read, if_neg fun h => hs (mem_of_mem_take h)]
    exact fun h => hs (mem_of_mem_drop h)

theorem match_nil (text : List UInt8) : «match» [] text = true := by
  cases text <;> rfl

theorem length_matching {pattern : List UInt8} (hall : ∀ l, «match» pattern l = true)
    (t : List UInt8) : (matching pattern t).length + (splitLines t).2.length = t.length := by
  have hfilter : (splitLines t).1.filter («match» pattern) = (splitLines t).1 :=
    filter_eq_self.2 fun l _ => hall l
  rw [matching, hfilter, ← length_append, splitLines_join]

theorem rest_append {u v : List UInt8} (hu : newline ∉ u) (hv : newline ∈ v) :
    (splitLines (u ++ v)).2 = (splitLines v).2 := by
  obtain ⟨l, w, rfl, hl⟩ := eq_append_cons_of_mem hv
  have hul : newline ∉ u ++ l := fun h => (mem_append.1 h).elim hu hl
  rw [← append_assoc, splitLines_line _ hul, splitLines_line _ hl]

theorem filled_eq (piece : List UInt8) (hsize : buf.length = sizeofBuf)
    (htake : buf.take t.length = t) (hfit : t.length + piece.length < sizeofBuf) :
    ∃ j, (buf.take t.length ++ piece ++ buf.drop (t.length + piece.length)).set
        (t.length + piece.length) 0 = t ++ piece ++ 0 :: j ∧
      (t ++ piece ++ 0 :: j).length = sizeofBuf := by
  have hlt : t.length + piece.length < buf.length := by omega
  have hlen : (t ++ piece).length = t.length + piece.length := length_append
  refine ⟨buf.drop (t.length + piece.length + 1), ?_, ?_⟩
  · rw [htake, drop_eq_getElem_cons hlt, set_append_right _ _ hlen.le, hlen, Nat.sub_self,
      set_cons_zero]
  · rw [length_append, length_cons, length_drop, hlen]
    omega

theorem grepLoop_spec (pattern : List UInt8) (cut : ℕ → ℕ) : ∀ (n i : ℕ) (buf t s : List UInt8),
    buf.length = sizeofBuf → buf.take t.length = t → t.length ≤ 1022 → newline ∉ t → 0 ∉ t →
    0 ∉ s → s.length < n →
    ∃ out log, grepLoop pattern cut n i buf t.length s = some (out, log) ∧
      (log.map Prod.snd).flatten = s ∧
      (WholeFrom cut n i t s → out = matching pattern (t ++ s)) ∧
      ((∀ l, «match» pattern l = true) → out.length ≤ (matching pattern (t ++ s)).length ∧
        (out.length = (matching pattern (t ++ s)).length → WholeFrom cut n i t s)) := by
  intro n
  induction n with
  | zero => exact fun _ _ _ _ _ _ _ _ _ _ h => absurd h (Nat.not_lt_zero _)
  | succ n ih =>
    intro i buf t s hsize htake hroom hnl h0 hs0 hn
    have h1024 : sizeofBuf = 1024 := rfl
    obtain ⟨hjoin, hfit, hend⟩ := read_spec (cut i) (n := sizeofBuf - t.length - 1) s (by omega)
    rw [grepLoop, WholeFrom]
    generalize read (cut i) (sizeofBuf - t.length - 1) s = got at hjoin hfit hend
    obtain ⟨piece, s'⟩ := got
    dsimp only at hjoin hfit hend ⊢
    by_cases hpiece : piece = []
    · rw [if_pos hpiece]
      have hs := hend hpiece
      rw [hs, hpiece, append_eq_nil_iff] at hjoin
      rw [hs, append_nil, matching_rest hnl, hpiece, if_neg not_mem_nil]
      refine ⟨[], [], rfl, rfl, fun _ => rfl, fun _ => ⟨le_rfl, fun _ => ?_⟩⟩
      rw [hjoin.2]
      exact not_mem_nil
    rw [if_neg hpiece]
    obtain ⟨j, hfill, hlen⟩ := filled_eq piece hsize htake (by omega)
    have hpos : 0 < piece.length := length_pos_iff.2 hpiece
    rw [← hjoin, mem_append, not_or] at hs0
    have htext0 : 0 ∉ t ++ piece := fun h => (mem_append.1 h).elim h0 hs0.1
    have htext : (t ++ piece).length = t.length + piece.length := length_append
    obtain ⟨buf', hlines, hdrop, hsize'⟩ := lines_spec pattern j (sizeofBuf + 1)
      (t ++ piece ++ 0 :: j) (t ++ piece) 0 rfl htext0 (by omega)
    rw [hfill, hlines]
    dsimp only
    rw [Nat.zero_add] at hdrop ⊢
    rw [hlen] at hsize'
    have hrest := length_rest_le (t ++ piece)
    have hs' : s'.length < n := by
      have hsum := congrArg List.length hjoin
      rw [length_append] at hsum
      omega
    by_cases hnew : newline ∈ piece
    · have hsub := rest_subset (t ++ piece)
      have hp := rest_lt (mem_append_right t hnew)
      have hkeep := keep_spec hdrop (by omega)
      rw [Nat.sub_add_cancel hrest, htext] at hkeep
      rw [← htext] at hkeep ⊢
      obtain ⟨out, log, hrun, hlog, hout, hlen⟩ := ih (i + 1)
        (keep buf' ((t ++ piece).length - (splitLines (t ++ piece)).2.length)
          (t ++ piece).length).1 (splitLines (t ++ piece)).2 s'
        ((length_keep ..).trans hsize') hkeep.2 (by omega) (newline_notMem_rest _)
        (fun h => htext0 (hsub h)) hs0.2 hs'
      rw [if_pos hnew, ← hjoin, ← append_assoc, matching_append _ (t ++ piece)]
      refine ⟨_, _, by rw [hkeep.1, hrun]; rfl, ?_, fun hwhole => ?_, fun hall => ?_⟩
      · rw [map_cons, flatten_cons, hlog]
      · rw [← hout hwhole]
      · obtain ⟨hle, heq⟩ := hlen hall
        rw [length_append, length_append]
        exact ⟨Nat.add_le_add_left hle _, fun h => heq (Nat.add_left_cancel h)⟩
    · -- There is no newline: the beginning of the line is dropped.
      have htextnl : newline ∉ t ++ piece := fun h => (mem_append.1 h).elim hnl hnew
      rw [splitLines_rest htextnl, Nat.sub_self, keep_zero]
      obtain ⟨out, log, hrun, hlog, hout, hlen⟩ := ih (i + 1) buf' [] s' hsize' rfl
        (Nat.zero_le _) not_mem_nil not_mem_nil hs0.2 hs'
      rw [nil_append] at hout hlen
      rw [if_neg hnew, ← hjoin, ← append_assoc, matching_rest htextnl]
      refine ⟨_, _, by rw [show (0 : ℕ) = ([] : List UInt8).length from rfl, hrun]; rfl, ?_,
        fun hlast => ?_, fun hall => ?_⟩
      · rw [map_cons, flatten_cons, hlog]
      · have hnone : newline ∉ t ++ piece ++ s' := fun h => (mem_append.1 h).elim htextnl hlast
        rw [hout (wholeFrom_rest cut n (i + 1) [] hlast), matching_rest hlast, matching_rest hnone]
        rfl
      · have hle := (hlen hall).1
        have hshort := length_matching hall s'
        have hfull := length_matching hall (t ++ piece ++ s')
        by_cases hlast : newline ∈ s'
        · rw [rest_append htextnl hlast, length_append] at hfull
          refine ⟨hle.trans (by omega), fun heq => ?_⟩
          rw [nil_append] at heq
          dsimp only at heq
          omega
        · rw [matching_rest hlast] at hle
          exact ⟨hle.trans (Nat.zero_le _), fun _ => hlast⟩

/-- **`grep` prints the matching lines of the stream**, in order and in full, for all patterns,
exactly if no `read` ends inside a line that begins the buffer and is finished later.  It always
ends, having read the stream; and a stream of short lines of which each `read` gives all it is asked
for, as of a regular file, comes that way. -/
theorem grep_prints_matching_lines (cut : ℕ → ℕ) (s : List UInt8) (h0 : 0 ∉ s) :
    (∀ pattern, ∃ out log, grep pattern cut s = some (out, log) ∧ (log.map Prod.snd).flatten = s) ∧
      ((∀ pattern, ∃ log, grep pattern cut s = some (matching pattern s, log)) ↔ Whole cut s) ∧
      ((∀ i, sizeofBuf ≤ cut i + 1) → Short s → Whole cut s) := by
  have hspec := fun pattern => grepLoop_spec pattern cut (s.length + 1) 0
    (List.replicate sizeofBuf 0) [] s length_replicate rfl (Nat.zero_le _) not_mem_nil
    not_mem_nil h0 (Nat.lt_succ_self _)
  refine ⟨fun pattern => ?_, ⟨fun hall => ?_, fun hwhole pattern => ?_⟩, fun hcut hshort => ?_⟩
  · obtain ⟨out, log, hrun, hlog, -⟩ := hspec pattern
    exact ⟨out, log, hrun, hlog⟩
  · -- the empty pattern matches every line
    obtain ⟨out, log, hrun, -, -, hlen⟩ := hspec []
    obtain ⟨log', hrun'⟩ := hall []
    obtain ⟨rfl, -⟩ := Prod.mk.inj (Option.some.inj (hrun.symm.trans hrun'))
    exact (hlen match_nil).2 rfl
  · obtain ⟨out, log, hrun, -, hout, -⟩ := hspec pattern
    exact ⟨log, hrun.trans (by rw [hout hwhole, nil_append])⟩
  · exact wholeFrom_of_full cut hcut _ 0 [] s (Nat.zero_le _) not_mem_nil hshort

/-- Two lines, four bytes at a time. -/
theorem grep_prints_matching_lines_two : Whole (fun _ => 3) [97, 98, 10, 97, 98, 10] ∧
    ∀ pattern, ∃ log, grep pattern (fun _ => 3) [97, 98, 10, 97, 98, 10] =
      some (matching pattern [97, 98, 10, 97, 98, 10], log) :=
  have hwhole : Whole (fun _ => 3) [97, 98, 10, 97, 98, 10] := by decide
  ⟨hwhole, (grep_prints_matching_lines (fun _ => 3) _ (by decide)).2.1.2 hwhole⟩

/-- **A line that comes in pieces is lost**: `a` and then the newline. The first `read` brings no
newline, `p` is still `buf`, and `m = 0` throws the `a` away. -/
theorem grep_loses_line : 0 ∉ ([97, 10] : List UInt8) ∧ Short [97, 10] ∧
    grep [97] (fun _ => 0) [97, 10] = some ([], [(1023, [97]), (1023, [10])]) ∧
      matching [97] [97, 10] = [97, 10] := by
  decide +kernel

end Xv6.Grep
