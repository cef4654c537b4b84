import Xv6.Sh.Parser

/-!
# The strings of a parsed line

`nulterminate` ends every string of the tree where it stands in the line, by a NUL over the character
after it.

* `Span` — a word of the line, between its start and its end.
* `Derives.fromWord` — the strings of the tree are word tokens.
* `getElem?_nulterminate` — the stores are at the ends of the strings.
* `nulterminate_keeps_tokens` — after `nulterminate` each of them is read as the text of its token.
-/

namespace Xv6.Sh

open List

/-- The strings of a tree: those of `argv` in the `EXEC` nodes and `file` in the `REDIR` nodes. -/
def Cmd.strings : Cmd → List (ℕ × ℕ)
  | .exec argv => argv
  | .redir cmd file efile _ _ => (file, efile) :: cmd.strings
  | .pipe left right => left.strings ++ right.strings
  | .list left right => left.strings ++ right.strings
  | .back cmd => cmd.strings

/-- The NUL-terminated string at `q`. -/
def stringAt (buf : List UInt8) (q : ℕ) : List UInt8 := (buf.drop q).takeWhile (· ≠ 0)

/-- The text of a token. -/
def Tok.text (input : List UInt8) (t : Tok) : List UInt8 := (input.drop t.q).take (t.eq - t.q)

variable {input buf pre s : List UInt8} {o q e i : ℕ} {ts : List Tok} {t : Tok} {c : Cmd}
  {nt : Nonterminal} {rs : List Redirection} {ws : List (ℕ × ℕ)} {p p' : ℕ × ℕ}

/-! ## Words of the line -/

/-- A word of the line. -/
structure Span (input : List UInt8) (p : ℕ × ℕ) : Prop where
  start_le : p.1 ≤ p.2
  le : p.2 ≤ input.length
  inside : ∀ i, p.1 ≤ i → i < p.2 → ∃ c, input[i]? = some c ∧ wordChar c = true
  ends : ∀ c, input[p.2]? = some c → wordChar c = false

theorem Span.apart (h : Span input p) (h' : Span input p') : ¬ (p.1 ≤ p'.2 ∧ p'.2 < p.2) := by
  rintro ⟨hle, hlt⟩
  obtain ⟨c, hc, hword⟩ := h.inside _ hle hlt
  rw [h'.ends c hc] at hword
  cases hword

theorem span_word {b w r : List UInt8} (hw : ∀ c ∈ w, wordChar c = true)
    (hr : ∀ c r', r = c :: r' → wordChar c = false) :
    Span (b ++ (w ++ r)) (b.length, b.length + w.length) where
  start_le := Nat.le_add_right _ _
  le := by
    rw [length_append, length_append]
    dsimp only
    omega
  inside i hle hlt := by
    dsimp only at hle hlt
    rw [getElem?_append_right hle, getElem?_append_left (by omega),
      getElem?_eq_getElem (by omega)]
    exact ⟨_, rfl, hw _ (getElem_mem _)⟩
  ends c hc := by
    dsimp only at hc
    rw [← append_assoc, getElem?_append_right (by rw [length_append]),
      length_append, Nat.sub_self] at hc
    cases r with
    | nil => cases hc
    | cons a r' =>
      obtain rfl : a = c := Option.some.inj hc
      exact hr a r' rfl

theorem span_after {b x r : List UInt8} (h : ∀ pre, pre.length = o + b.length + x.length →
    Span (pre ++ r) p) (hpre : pre.length = o) : Span (pre ++ (b ++ (x ++ r))) p := by
  have hspan := h (pre ++ b ++ x) (by rw [length_append, length_append, hpre])
  rwa [append_assoc, append_assoc] at hspan

theorem Lexes.span (h : Lexes o s ts) : ∀ pre : List UInt8, pre.length = o →
    ∀ t ∈ ts, t.kind = .word → Span (pre ++ s) (t.q, t.eq) := by
  induction h with
  | nil _ =>
    intro pre _ t ht
    cases ht
  | @symbol o b r c k ts _ hk _ ih =>
    intro pre hpre t ht hword
    obtain rfl | ht := mem_cons.1 ht
    · have hfirst := symbol_first hk
      rw [show k = .word from hword] at hfirst
      cases hfirst
    · exact span_after (x := [c]) (fun pre hp => ih pre hp t ht hword) hpre
  | @append o b r ts _ _ ih =>
    intro pre hpre t ht hword
    obtain rfl | ht := mem_cons.1 ht
    · cases hword
    · exact span_after (x := [62, 62]) (fun pre hp => ih pre hp t ht hword) hpre
  | @gt o b r ts _ _ _ ih =>
    intro pre hpre t ht hword
    obtain rfl | ht := mem_cons.1 ht
    · cases hword
    · exact span_after (x := [62]) (fun pre hp => ih pre hp t ht hword) hpre
  | @word o b w r ts _ _ hw hr _ ih =>
    intro pre hpre t ht hword
    obtain rfl | ht := mem_cons.1 ht
    · have hspan := span_word (b := pre ++ b) hw hr
      rwa [append_assoc, length_append, hpre] at hspan
    · exact span_after (x := w) (fun pre hp => ih pre hp t ht hword) hpre

/-! ## The strings of the tree -/

/-- The string is that of a word token. -/
def FromWord (ts : List Tok) (p : ℕ × ℕ) : Prop := ∃ t ∈ ts, t.kind = .word ∧ p = (t.q, t.eq)

theorem FromWord.mono {us : List Tok} (h : FromWord ts p) (hsub : ts ⊆ us) : FromWord us p := by
  obtain ⟨t, ht, hword, hp⟩ := h
  exact ⟨t, hsub ht, hword, hp⟩

theorem mem_strings_wrap (rs : List Redirection) : ∀ {c : Cmd},
    p ∈ (c.wrap rs).strings ↔ p ∈ c.strings ∨ ∃ r ∈ rs, p = (r.file, r.efile) := by
  induction rs with
  | nil =>
    intro c
    simp [Cmd.wrap]
  | cons r rs ih =>
    intro c
    rw [show c.wrap (r :: rs) = (Cmd.redir c r.file r.efile r.mode r.fd).wrap rs from rfl, ih,
      Cmd.strings, mem_cons, exists_mem_cons_iff, or_comm (a := p = _), or_assoc]

theorem strings_backs (n : ℕ) : ∀ c : Cmd, (c.backs n).strings = c.strings := by
  induction n with
  | zero => exact fun _ => rfl
  | succ n ih =>
    intro c
    rw [Cmd.backs, ih]
    rfl

theorem Redirs.fromWord (h : Redirs ts rs) : ∀ r ∈ rs, FromWord ts (r.file, r.efile) := by
  induction h with
  | nil => exact fun r hr => absurd hr not_mem_nil
  | @cons op f r ts rs hr hf _ ih =>
    intro r' hr'
    obtain rfl | hr' := mem_cons.1 hr'
    · refine ⟨f, by simp, hf, ?_⟩
      cases hop : op.kind <;> rw [hop] at hr <;> cases hr <;> rfl
    · exact (ih r' hr').mono fun t ht => mem_cons_of_mem _ (mem_cons_of_mem _ ht)

theorem Words.fromWord (h : Words ts ws rs) :
    (∀ p ∈ ws, FromWord ts p) ∧ ∀ r ∈ rs, FromWord ts (r.file, r.efile) := by
  induction h with
  | nil => exact ⟨fun p hp => absurd hp not_mem_nil, fun r hr => absurd hr not_mem_nil⟩
  | @cons t ts us ws rs rs' ht hredirs _ ih =>
    have hleft : ts ⊆ t :: (ts ++ us) := fun u hu => by simp [hu]
    have hright : us ⊆ t :: (ts ++ us) := fun u hu => by simp [hu]
    refine ⟨fun p hp => ?_, fun r hr => ?_⟩
    · obtain rfl | hp := mem_cons.1 hp
      · exact ⟨t, mem_cons_self, ht, rfl⟩
      · exact (ih.1 p hp).mono hright
    · obtain hr | hr := mem_append.1 hr
      · exact (hredirs.fromWord r hr).mono hleft
      · exact (ih.2 r hr).mono hright

theorem Derives.fromWord (h : Derives nt ts c) : ∀ p ∈ c.strings, FromWord ts p := by
  induction h with
  | @block lp rp ts us c rs _ _ _ hredirs ih =>
    intro p hp
    obtain hp | ⟨r, hr, rfl⟩ := (mem_strings_wrap rs).1 hp
    · exact (ih p hp).mono fun t ht => by simp [ht]
    · exact (hredirs.fromWord r hr).mono fun t ht => by simp [ht]
  | @simple ts us ws rs rs' hredirs hwords _ =>
    intro p hp
    obtain hp | ⟨r, hr, rfl⟩ := (mem_strings_wrap _).1 hp
    · exact (hwords.fromWord.1 p hp).mono fun t ht => by simp [ht]
    · obtain hr | hr := mem_append.1 hr
      · exact (hredirs.fromWord r hr).mono fun t ht => by simp [ht]
      · exact (hwords.fromWord.2 r hr).mono fun t ht => by simp [ht]
  | single _ ih => exact ih
  | pipe _ _ _ ih ih' =>
    intro p hp
    obtain hp | hp := mem_append.1 hp
    · exact (ih p hp).mono fun t ht => by simp [ht]
    · exact (ih' p hp).mono fun t ht => by simp [ht]
  | back _ _ ih =>
    intro p hp
    rw [strings_backs] at hp
    exact (ih p hp).mono fun t ht => by simp [ht]
  | list _ _ _ _ ih ih' =>
    intro p hp
    obtain hp | hp := mem_append.1 hp
    · rw [strings_backs] at hp
      exact (ih p hp).mono fun t ht => by simp [ht]
    · exact (ih' p hp).mono fun t ht => by simp [ht]

/-! ## What `nulterminate` stores -/

/-- The character at `i` once those at `is` are NUL. -/
def nulAt (is : List ℕ) (buf : List UInt8) (i : ℕ) : Option UInt8 :=
  if i ∈ is then buf[i]?.map fun _ => 0 else buf[i]?

theorem getElem?_set_nul (buf : List UInt8) (e i : ℕ) : (buf.set e 0)[i]? = nulAt [e] buf i := by
  rw [getElem?_set', nulAt]
  by_cases h : e = i
  · subst h
    rw [if_pos rfl, if_pos (mem_singleton.2 rfl)]
    rfl
  · rw [if_neg h, if_neg fun hm => h (mem_singleton.1 hm).symm]

theorem nulAt_nulAt {is js : List ℕ} {buf' : List UInt8} (h : buf'[i]? = nulAt is buf i) :
    nulAt js buf' i = nulAt (is ++ js) buf i := by
  unfold nulAt at h ⊢
  rw [h]
  by_cases hi : i ∈ is <;> by_cases hj : i ∈ js <;>
    simp [hi, hj, Function.comp_def]

theorem getElem?_foldl_set (ws : List (ℕ × ℕ)) : ∀ (buf : List UInt8) (i : ℕ),
    (ws.foldl (fun buf arg => buf.set arg.2 0) buf)[i]? = nulAt (ws.map Prod.snd) buf i := by
  induction ws with
  | nil =>
    intro buf i
    simp [nulAt]
  | cons p ws ih =>
    intro buf i
    rw [foldl_cons, ih, nulAt_nulAt (getElem?_set_nul buf p.2 i)]
    rfl

theorem getElem?_nulterminate (c : Cmd) : ∀ (buf : List UInt8) (i : ℕ),
    (nulterminate c buf)[i]? = nulAt (c.strings.map Prod.snd) buf i := by
  induction c with
  | exec argv => exact getElem?_foldl_set argv
  | redir c file efile mode fd ih =>
    intro buf i
    rw [nulterminate, getElem?_set_nul, nulAt_nulAt (ih buf i)]
    simp only [Cmd.strings, map_cons, nulAt, mem_append, mem_cons, or_comm,
      not_mem_nil, false_or]
  | pipe left right ihl ihr =>
    intro buf i
    rw [nulterminate, ihr, nulAt_nulAt (ihl buf i), Cmd.strings, map_append]
  | list left right ihl ihr =>
    intro buf i
    rw [nulterminate, ihr, nulAt_nulAt (ihl buf i), Cmd.strings, map_append]
  | back c ih => exact ih

theorem stringAt_eq (h0 : 0 ∉ input) (hqe : q ≤ e)
    (hin : ∀ i, q ≤ i → i < e → buf[i]? = input[i]?) (hend : buf[e]? = some 0) :
    stringAt buf q = (input.drop q).take (e - q) := by
  have hlen : e < buf.length := (List.getElem?_eq_some_iff.1 hend).1
  have htext : (buf.drop q).take (e - q) = (input.drop q).take (e - q) := by
    refine ext_getElem? fun k => ?_
    rw [getElem?_take, getElem?_take, getElem?_drop, getElem?_drop]
    split
    · exact hin _ (Nat.le_add_right _ _) (by omega)
    · rfl
  have hnul : (buf.drop q).drop (e - q) = 0 :: buf.drop (e + 1) := by
    rw [drop_drop, Nat.add_sub_cancel' hqe, drop_eq_getElem_cons hlen,
      (List.getElem?_eq_some_iff.1 hend).2]
  have hall : ∀ c ∈ (input.drop q).take (e - q), decide (c ≠ 0) = true := by
    intro c hc
    refine decide_eq_true ?_
    rintro rfl
    exact h0 (mem_of_mem_drop (mem_of_mem_take hc))
  rw [stringAt, ← take_append_drop (e - q) (buf.drop q), htext, hnul,
    takeWhile_append_of_pos hall, takeWhile_cons_of_neg (by decide), append_nil]

/-- **`nulterminate` damages no token.**  For every line that `parsecmd` accepts, each string of the
tree is that of a word token, and read in the buffer up to its NUL it is the text of that token. -/
theorem nulterminate_keeps_tokens (input : List UInt8) (c : Cmd) (buf : List UInt8)
    (h0 : 0 ∉ input) (h : parsecmd input = .ok (c, buf)) :
    ∃ ts, Lexes 0 input ts ∧ ∀ p ∈ c.strings, ∃ t ∈ ts, t.kind = .word ∧ p = (t.q, t.eq) ∧
      stringAt buf p.1 = t.text input := by
  obtain ⟨hder, rfl⟩ := derives_of_parsecmd h
  have hlexes : Lexes 0 input (lex input.length input) := lexes_iff.2 (by rw [Nat.zero_add])
  have hspan : ∀ p ∈ c.strings, Span input p := by
    intro p hp
    obtain ⟨t, ht, hword, rfl⟩ := hder.fromWord p hp
    exact hlexes.span [] rfl t ht hword
  refine ⟨_, hlexes, fun p hp => ?_⟩
  obtain ⟨t, ht, hword, rfl⟩ := hder.fromWord p hp
  refine ⟨t, ht, hword, rfl, ?_⟩
  have hle := (hspan _ hp).le
  refine stringAt_eq h0 (hspan _ hp).start_le (fun i hqi hie => ?_) ?_
  · -- The other strings end elsewhere.
    have hother : i ∉ c.strings.map Prod.snd := by
      intro hi
      obtain ⟨p', hp', rfl⟩ := mem_map.1 hi
      exact (hspan _ hp).apart (hspan _ hp') ⟨hqi, hie⟩
    rw [getElem?_nulterminate, nulAt, if_neg hother, getElem?_append_left (by omega)]
  · rw [getElem?_nulterminate, nulAt, if_pos (mem_map_of_mem hp), getElem?_eq_getElem (by
      rw [length_append, length_singleton]
      omega)]
    rfl

theorem nulterminate_keeps_tokens_redir :
    parsecmd [97, 62, 98] = .ok (.redir (.exec [(0, 1)]) 2 3 513 1, [97, 0, 98, 0]) ∧
      ∃ ts, Lexes 0 [97, 62, 98] ts ∧ ∀ p ∈ [(2, 3), (0, 1)], ∃ t ∈ ts, t.kind = .word ∧
        p = (t.q, t.eq) ∧ stringAt [97, 0, 98, 0] p.1 = t.text [97, 62, 98] :=
  ⟨rfl, nulterminate_keeps_tokens [97, 62, 98] (.redir (.exec [(0, 1)]) 2 3 513 1) [97, 0, 98, 0]
    (by decide) rfl⟩

end Xv6.Sh
