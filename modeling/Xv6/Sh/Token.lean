import Mathlib

/-!
# The tokens of a command line

`gettoken` and `peek` of `sh.c`.  A pointer into the line is given by the string from there on; the
positions that are stored in the tree are counted from the start of the line, and `es` is its end.
A line has no NUL in it, `parsecmd` finds its end with `strlen`: the `case 0` of `gettoken` is that
end.

* `lex` — the tokens that `gettoken` gives one after the other.
* `Lexes` — what the tokens of a line are: symbols, `>>` rather than twice `>`, and words that are as
  long as can be, with blanks before and after them.
* `lexes_iff` — they are the same.
-/

namespace Xv6.Sh

open List

/-- What `gettoken` returns. -/
inductive Kind
  | eof
  | bar
  | lpar
  | rpar
  | semi
  | amp
  | lt
  | gt
  /-- `>>`, for which `gettoken` returns `+`. -/
  | append
  /-- A word, for which it returns `a`. -/
  | word
  deriving DecidableEq

def whitespace : List UInt8 := [32, 9, 13, 10, 11]

/-- `symbols`: `<|>&;()`. -/
def symbols : List UInt8 := [60, 124, 62, 38, 59, 40, 41]

def blank (c : UInt8) : Bool := whitespace.contains c

/-- A character that a word goes on with. -/
def wordChar (c : UInt8) : Bool := !whitespace.contains c && !symbols.contains c

/-- The symbols that `gettoken` takes by themselves. -/
def symbol (c : UInt8) : Option Kind :=
  if c = 124 then some .bar
  else if c = 40 then some .lpar
  else if c = 41 then some .rpar
  else if c = 59 then some .semi
  else if c = 38 then some .amp
  else if c = 60 then some .lt
  else none

def skip (s : List UInt8) : List UInt8 := s.dropWhile blank

/-- A token: what it is, and where it starts and ends. -/
structure Tok where
  kind : Kind
  q : ℕ
  eq : ℕ
  deriving DecidableEq

/-- `gettoken`, from the string `s` on: the token and what comes after it. -/
def gettoken (es : ℕ) (s : List UInt8) : Tok × List UInt8 :=
  let q := es - (skip s).length
  match skip s with
  | [] => (⟨.eof, q, q⟩, [])
  | c :: r =>
    match symbol c with
    | some k => (⟨k, q, q + 1⟩, skip r)
    | none =>
      if c = 62 then
        if r.head? = some 62 then (⟨.append, q, q + 2⟩, skip r.tail)
        else (⟨.gt, q, q + 1⟩, skip r)
      else (⟨.word, q, q + ((c :: r).takeWhile wordChar).length⟩,
        skip ((c :: r).dropWhile wordChar))

def peek (toks s : List UInt8) : Bool × List UInt8 :=
  ((skip s).head?.elim false toks.contains, skip s)

variable {es o : ℕ} {s b r w : List UInt8} {c : UInt8} {k : Kind} {ts : List Tok}

/-! ## Blanks -/

theorem skip_blanks (hb : ∀ c ∈ b, blank c = true) (r : List UInt8) : skip (b ++ r) = skip r := by
  induction b with
  | nil => rfl
  | cons a b ih =>
    rw [cons_append, skip, dropWhile_cons_of_pos (hb a mem_cons_self)]
    exact ih fun c hc => hb c (mem_cons_of_mem _ hc)

theorem skip_cons (hc : blank c = false) : skip (c :: r) = c :: r :=
  dropWhile_cons_of_neg (by rw [hc]; exact Bool.false_ne_true)

theorem blank_of_skip (h : skip s = c :: r) : blank c = false := by
  have hnot := head_dropWhile_not blank (l := s) (by
    rw [show s.dropWhile blank = c :: r from h]
    exact cons_ne_nil _ _)
  simpa only [show s.dropWhile blank = c :: r from h, head_cons] using hnot

theorem skip_skip (s : List UInt8) : skip (skip s) = skip s := by
  cases h : skip s with
  | nil => rfl
  | cons c r => exact skip_cons (blank_of_skip h)

theorem length_skip_le (s : List UInt8) : (skip s).length ≤ s.length :=
  (dropWhile_suffix _).length_le

theorem exists_blanks (s : List UInt8) : ∃ b, (∀ c ∈ b, blank c = true) ∧ s = b ++ skip s :=
  ⟨s.takeWhile blank, fun _ hc => mem_takeWhile_imp hc, takeWhile_append_dropWhile.symm⟩

/-! ## Characters -/

theorem symbol_cases (h : symbol c = some k) : c ∈ symbols ∧ blank c = false ∧ wordChar c = false ∧
    k ≠ .eof := by
  rw [symbol] at h
  split_ifs at h with h₁ h₂ h₃ h₄ h₅ h₆ <;> cases h <;> subst c <;> decide

theorem wordChar_of (hb : blank c = false) (hs : symbol c = none) (hgt : c ≠ 62) :
    wordChar c = true := by
  have hmem : c ∉ symbols := by
    intro hc
    simp only [symbols, mem_cons, not_mem_nil, or_false] at hc
    obtain rfl | rfl | rfl | rfl | rfl | rfl | rfl := hc
    · exact absurd hs (by decide)
    · exact absurd hs (by decide)
    · exact hgt rfl
    · exact absurd hs (by decide)
    · exact absurd hs (by decide)
    · exact absurd hs (by decide)
    · exact absurd hs (by decide)
  rw [blank] at hb
  rw [wordChar, hb]
  simpa using hmem

theorem wordChar_not (h : wordChar c = true) : blank c = false ∧ symbol c = none ∧ c ≠ 62 := by
  rw [wordChar, Bool.and_eq_true, Bool.not_eq_true', Bool.not_eq_true'] at h
  obtain ⟨hb, hs⟩ := h
  have hmem : c ∉ symbols := by simpa using hs
  refine ⟨hb, ?_, ?_⟩
  · cases hk : symbol c with
    | none => rfl
    | some k => exact absurd (symbol_cases hk).1 hmem
  · rintro rfl
    exact hmem (by decide)

/-! ## One token -/

theorem gettoken_skip (es : ℕ) (s : List UInt8) : gettoken es (skip s) = gettoken es s := by
  rw [gettoken, gettoken, skip_skip]

theorem gettoken_blanks (es : ℕ) (hb : ∀ c ∈ b, blank c = true) (r : List UInt8) :
    gettoken es (b ++ r) = gettoken es r := by
  rw [← gettoken_skip es (b ++ r), skip_blanks hb, gettoken_skip]

theorem gettoken_nil (es : ℕ) : gettoken es [] = (⟨.eof, es, es⟩, []) := rfl

theorem gettoken_symbol (es : ℕ) (h : symbol c = some k) : gettoken es (c :: r) =
    (⟨k, es - (c :: r).length, es - (c :: r).length + 1⟩, skip r) := by
  rw [gettoken, skip_cons (symbol_cases h).2.1]
  simp only [h]

theorem gettoken_append (es : ℕ) (r : List UInt8) : gettoken es (62 :: 62 :: r) =
    (⟨.append, es - (62 :: 62 :: r).length, es - (62 :: 62 :: r).length + 2⟩, skip r) := by
  rw [gettoken, skip_cons (by decide)]
  rfl

theorem gettoken_gt (es : ℕ) (h : r.head? ≠ some 62) : gettoken es (62 :: r) =
    (⟨.gt, es - (62 :: r).length, es - (62 :: r).length + 1⟩, skip r) := by
  rw [gettoken, skip_cons (by decide)]
  simp only [show symbol 62 = none from by decide, if_true, if_neg h]

theorem gettoken_word (es : ℕ) (hne : w ≠ []) (hw : ∀ c ∈ w, wordChar c = true)
    (hr : ∀ c r', r = c :: r' → wordChar c = false) : gettoken es (w ++ r) =
      (⟨.word, es - (w ++ r).length, es - (w ++ r).length + w.length⟩, skip r) := by
  have htake : (w ++ r).takeWhile wordChar = w := by
    rw [takeWhile_append_of_pos hw]
    cases r with
    | nil => rw [takeWhile_nil, append_nil]
    | cons c r' =>
      rw [takeWhile_cons_of_neg (by rw [hr c r' rfl]; exact Bool.false_ne_true),
        append_nil]
  have hdrop : (w ++ r).dropWhile wordChar = r := by
    rw [dropWhile_append_of_pos hw]
    cases r with
    | nil => rfl
    | cons c r' => exact dropWhile_cons_of_neg (by rw [hr c r' rfl]; exact Bool.false_ne_true)
  cases w with
  | nil => exact absurd rfl hne
  | cons a w =>
    obtain ⟨hblank, hsym, hgt⟩ := wordChar_not (hw a mem_cons_self)
    rw [cons_append] at htake hdrop ⊢
    rw [gettoken, skip_cons hblank]
    simp only [hsym, if_neg hgt, htake, hdrop]

theorem shape (s : List UInt8) (hs : ∀ c r, s = c :: r → blank c = false) :
    s = [] ∨ (∃ c r k, s = c :: r ∧ symbol c = some k) ∨ (∃ r, s = 62 :: 62 :: r) ∨
      (∃ r, s = 62 :: r ∧ r.head? ≠ some 62) ∨
      ∃ w r, s = w ++ r ∧ w ≠ [] ∧ (∀ c ∈ w, wordChar c = true) ∧
        ∀ c r', r = c :: r' → wordChar c = false := by
  cases s with
  | nil => exact .inl rfl
  | cons c r =>
    have hb := hs c r rfl
    cases hk : symbol c with
    | some k => exact .inr (.inl ⟨c, r, k, rfl, hk⟩)
    | none =>
      by_cases hgt : c = 62
      · subst hgt
        by_cases hh : r.head? = some 62
        · obtain ⟨r', rfl⟩ : ∃ r', r = 62 :: r' := by
            cases r with
            | nil => cases hh
            | cons a r' =>
              obtain rfl : a = 62 := Option.some.inj hh
              exact ⟨r', rfl⟩
          exact .inr (.inr (.inl ⟨r', rfl⟩))
        · exact .inr (.inr (.inr (.inl ⟨r, rfl, hh⟩)))
      · refine .inr (.inr (.inr (.inr ⟨(c :: r).takeWhile wordChar, (c :: r).dropWhile wordChar,
          takeWhile_append_dropWhile.symm, ?_, fun _ ha => mem_takeWhile_imp ha,
          fun a r' ha => ?_⟩)))
        · rw [takeWhile_cons_of_pos (wordChar_of hb hk hgt)]
          exact cons_ne_nil _ _
        · have hnot := head_dropWhile_not wordChar (l := c :: r) (by
            rw [ha]
            exact cons_ne_nil _ _)
          simpa only [ha, head_cons] using hnot

theorem gettoken_length (es : ℕ) (s : List UInt8) (h : (gettoken es s).1.kind ≠ .eof) :
    (gettoken es s).2.length < s.length := by
  rw [← gettoken_skip] at h ⊢
  refine lt_of_lt_of_le ?_ (length_skip_le s)
  obtain hs | ⟨c, r, k, hs, hk⟩ | ⟨r, hs⟩ | ⟨r, hs, hr⟩ | ⟨w, r, hs, hne, hw, hr⟩ :=
    shape (skip s) fun c r hs => blank_of_skip hs
  · rw [hs] at h
    exact absurd rfl h
  · rw [hs, gettoken_symbol es hk, length_cons]
    exact Nat.lt_succ_of_le (length_skip_le r)
  · rw [hs, gettoken_append, length_cons, length_cons]
    exact (Nat.lt_succ_of_le (length_skip_le r)).trans (Nat.lt_succ_self _)
  · rw [hs, gettoken_gt es hr, length_cons]
    exact Nat.lt_succ_of_le (length_skip_le r)
  · rw [hs, gettoken_word es hne hw hr, length_append]
    have := length_pos_of_ne_nil hne
    have := length_skip_le r
    dsimp only
    omega

theorem skip_eof (h : (gettoken es s).1.kind = .eof) : skip s = [] := by
  rw [← gettoken_skip] at h
  obtain hs | ⟨c, r, k, hs, hk⟩ | ⟨r, hs⟩ | ⟨r, hs, hr⟩ | ⟨w, r, hs, hne, hw, hr⟩ :=
    shape (skip s) fun c r hs => blank_of_skip hs
  · exact hs
  · rw [hs, gettoken_symbol es hk] at h
    exact absurd h (symbol_cases hk).2.2.2
  · rw [hs, gettoken_append] at h
    cases h
  · rw [hs, gettoken_gt es hr] at h
    cases h
  · rw [hs, gettoken_word es hne hw hr] at h
    cases h

theorem gettoken_eof (h : (gettoken es s).1.kind = .eof) : (gettoken es s).2 = [] := by
  rw [← gettoken_skip, skip_eof h, gettoken_nil]

/-! ## All tokens -/

/-- The tokens that `gettoken` gives, up to the end. -/
def lex (es : ℕ) (s : List UInt8) : List Tok :=
  if h : (gettoken es s).1.kind = .eof then [] else (gettoken es s).1 :: lex es (gettoken es s).2
termination_by s.length
decreasing_by exact gettoken_length es s h

theorem lex_eof (h : (gettoken es s).1.kind = .eof) : lex es s = [] := by
  rw [lex, dif_pos h]

theorem lex_nil (es : ℕ) : lex es [] = [] := lex_eof rfl

theorem lex_tok (h : (gettoken es s).1.kind ≠ .eof) :
    lex es s = (gettoken es s).1 :: lex es (gettoken es s).2 := by
  rw [lex, dif_neg h]

theorem lex_congr {s' : List UInt8} (h : gettoken es s = gettoken es s') : lex es s = lex es s' := by
  by_cases hk : (gettoken es s).1.kind = .eof
  · rw [lex_eof hk, lex_eof (h ▸ hk)]
  · rw [lex_tok hk, h]
    exact (lex_tok (h ▸ hk)).symm

theorem lex_skip (es : ℕ) (s : List UInt8) : lex es (skip s) = lex es s :=
  lex_congr (gettoken_skip es s)

theorem lex_blanks (es : ℕ) (hb : ∀ c ∈ b, blank c = true) (r : List UInt8) :
    lex es (b ++ r) = lex es r := lex_congr (gettoken_blanks es hb r)

/-- The tokens of a line that starts at position `o`: symbols, `>>` where there are two `>`, and
words that end only at a blank, at a symbol or at the end of the line; with blanks between them. -/
inductive Lexes : ℕ → List UInt8 → List Tok → Prop
  | nil {o : ℕ} {b : List UInt8} : (∀ c ∈ b, blank c = true) → Lexes o b []
  | symbol {o : ℕ} {b r : List UInt8} {c : UInt8} {k : Kind} {ts : List Tok} :
      (∀ c ∈ b, blank c = true) → symbol c = some k → Lexes (o + b.length + 1) r ts →
      Lexes o (b ++ c :: r) (⟨k, o + b.length, o + b.length + 1⟩ :: ts)
  | append {o : ℕ} {b r : List UInt8} {ts : List Tok} :
      (∀ c ∈ b, blank c = true) → Lexes (o + b.length + 2) r ts →
      Lexes o (b ++ 62 :: 62 :: r) (⟨.append, o + b.length, o + b.length + 2⟩ :: ts)
  | gt {o : ℕ} {b r : List UInt8} {ts : List Tok} :
      (∀ c ∈ b, blank c = true) → r.head? ≠ some 62 → Lexes (o + b.length + 1) r ts →
      Lexes o (b ++ 62 :: r) (⟨.gt, o + b.length, o + b.length + 1⟩ :: ts)
  | word {o : ℕ} {b w r : List UInt8} {ts : List Tok} :
      (∀ c ∈ b, blank c = true) → w ≠ [] → (∀ c ∈ w, wordChar c = true) →
      (∀ c r', r = c :: r' → wordChar c = false) → Lexes (o + b.length + w.length) r ts →
      Lexes o (b ++ (w ++ r)) (⟨.word, o + b.length, o + b.length + w.length⟩ :: ts)

theorem Lexes.lex_eq (h : Lexes o s ts) : lex (o + s.length) s = ts := by
  induction h with
  | @nil o b hb =>
    refine lex_eof ?_
    rw [show b = b ++ [] from (append_nil b).symm, gettoken_blanks _ hb]
    rfl
  | @symbol o b r c k ts hb hk _ ih =>
    have hes : o + (b ++ c :: r).length = o + b.length + 1 + r.length := by
      rw [length_append, length_cons]
      omega
    have hq : o + b.length + 1 + r.length - (c :: r).length = o + b.length := by
      rw [length_cons]
      omega
    rw [hes, lex_blanks _ hb, lex_tok (by rw [gettoken_symbol _ hk]; exact (symbol_cases hk).2.2.2),
      gettoken_symbol _ hk, lex_skip, ih, hq]
  | @append o b r ts hb _ ih =>
    have hes : o + (b ++ 62 :: 62 :: r).length = o + b.length + 2 + r.length := by
      rw [length_append, length_cons, length_cons]
      omega
    have hq : o + b.length + 2 + r.length - (62 :: 62 :: r).length = o + b.length := by
      rw [length_cons, length_cons]
      omega
    rw [hes, lex_blanks _ hb, lex_tok (by rw [gettoken_append]; exact nofun), gettoken_append,
      lex_skip, ih, hq]
  | @gt o b r ts hb hr _ ih =>
    have hes : o + (b ++ 62 :: r).length = o + b.length + 1 + r.length := by
      rw [length_append, length_cons]
      omega
    have hq : o + b.length + 1 + r.length - (62 :: r).length = o + b.length := by
      rw [length_cons]
      omega
    rw [hes, lex_blanks _ hb, lex_tok (by rw [gettoken_gt _ hr]; exact nofun), gettoken_gt _ hr,
      lex_skip, ih, hq]
  | @word o b w r ts hb hne hw hr _ ih =>
    have hes : o + (b ++ (w ++ r)).length = o + b.length + w.length + r.length := by
      rw [length_append, length_append]
      omega
    have hq : o + b.length + w.length + r.length - (w ++ r).length = o + b.length := by
      rw [length_append]
      omega
    rw [hes, lex_blanks _ hb, lex_tok (by rw [gettoken_word _ hne hw hr]; exact nofun),
      gettoken_word _ hne hw hr, lex_skip, ih, hq]

theorem exists_lexes (s : List UInt8) : ∀ o, ∃ ts, Lexes o s ts := by
  induction hn : s.length using Nat.strong_induction_on generalizing s with
  | _ n ih =>
    intro o
    obtain ⟨b, hb, hsplit⟩ := exists_blanks s
    have hlen := congrArg List.length hsplit
    rw [length_append] at hlen
    obtain hs | ⟨c, r, k, hs, hk⟩ | ⟨r, hs⟩ | ⟨r, hs, hr⟩ | ⟨w, r, hs, hne, hw, hr⟩ :=
      shape (skip s) fun c r hs => blank_of_skip hs
    · rw [hs, append_nil] at hsplit
      exact ⟨[], hsplit ▸ .nil hb⟩
    · rw [hs, length_cons] at hlen
      obtain ⟨ts, hts⟩ := ih r.length (by omega) r rfl (o + b.length + 1)
      exact ⟨_, by rw [hsplit, hs]; exact .symbol hb hk hts⟩
    · rw [hs, length_cons, length_cons] at hlen
      obtain ⟨ts, hts⟩ := ih r.length (by omega) r rfl (o + b.length + 2)
      exact ⟨_, by rw [hsplit, hs]; exact .append hb hts⟩
    · rw [hs, length_cons] at hlen
      obtain ⟨ts, hts⟩ := ih r.length (by omega) r rfl (o + b.length + 1)
      exact ⟨_, by rw [hsplit, hs]; exact .gt hb hr hts⟩
    · have hpos := length_pos_of_ne_nil hne
      rw [hs, length_append] at hlen
      obtain ⟨ts, hts⟩ := ih r.length (by omega) r rfl (o + b.length + w.length)
      exact ⟨_, by rw [hsplit, hs]; exact .word hb hne hw hr hts⟩

theorem lexes_iff : Lexes o s ts ↔ lex (o + s.length) s = ts := by
  refine ⟨Lexes.lex_eq, fun h => ?_⟩
  obtain ⟨us, hus⟩ := exists_lexes s o
  rwa [← h, hus.lex_eq]

/-! ## `peek` -/

/-- The first character of a token. -/
def Kind.first : Kind → Option UInt8
  | .eof => none
  | .bar => some 124
  | .lpar => some 40
  | .rpar => some 41
  | .semi => some 59
  | .amp => some 38
  | .lt => some 60
  | .gt => some 62
  | .append => some 62
  | .word => none

theorem symbol_first (h : symbol c = some k) : k.first = some c := by
  rw [symbol] at h
  split_ifs at h with h₁ h₂ h₃ h₄ h₅ h₆ <;> cases h <;> subst c <;> rfl

theorem peek_eq (es : ℕ) {toks : List UInt8} (htoks : ∀ c ∈ toks, c ∈ symbols) (s : List UInt8) :
    peek toks s = ((gettoken es s).1.kind.first.elim false toks.contains, skip s) := by
  rw [← gettoken_skip, peek]
  obtain hs | ⟨c, r, k, hs, hk⟩ | ⟨r, hs⟩ | ⟨r, hs, hr⟩ | ⟨w, r, hs, hne, hw, hr⟩ :=
    shape (skip s) fun c r hs => blank_of_skip hs
  · rw [hs]
    rfl
  · rw [hs, gettoken_symbol es hk]
    dsimp only
    rw [symbol_first hk]
    rfl
  · rw [hs, gettoken_append]
    rfl
  · rw [hs, gettoken_gt es hr]
    rfl
  · rw [hs, gettoken_word es hne hw hr]
    cases w with
    | nil => exact absurd rfl hne
    | cons a w =>
      have ha : a ∉ toks := by
        intro hmem
        have hchar := hw a mem_cons_self
        rw [wordChar, Bool.and_eq_true, Bool.not_eq_true', Bool.not_eq_true'] at hchar
        exact absurd (htoks a hmem) (by simpa using hchar.2)
      have hfalse : toks.contains a = false := by simpa using ha
      rw [cons_append, head?_cons, Option.elim_some, hfalse]
      rfl

end Xv6.Sh
