import Xv6.Sh.Token

/-!
# The parser of the shell

`parsecmd` and the functions below it, and the grammar they are for.

* `Derives` — the grammar, with the tree of each derivation.
* `parseline_sound` — what the parser accepts is in the grammar.
* `Derives.complete` — what is in the grammar is accepted, with the tree of its derivation.
* `parsecmd_accepts_grammar` — both, for whole lines.
-/

namespace Xv6.Sh

open List

/-! ## The code -/

def MAXARGS : ℕ := 10

def O_RDONLY : ℕ := 0x000

def O_WRONLY : ℕ := 0x001

def O_CREATE : ℕ := 0x200

/-- `struct cmd`. A string is where it starts and where it ends. -/
inductive Cmd
  | exec (argv : List (ℕ × ℕ))
  | redir (cmd : Cmd) (file efile mode fd : ℕ)
  | pipe (left right : Cmd)
  | list (left right : Cmd)
  | back (cmd : Cmd)
  deriving DecidableEq

/-- Why parsing stops. -/
inductive Stop
  | panic (msg : String)
  /-- A store beyond the end of `argv`. -/
  | wild
  /-- More rounds than a loop or a recursion was given. -/
  | fuel
  deriving DecidableEq

/-- What `redircmd` puts around a command. -/
structure Redirection where
  file : ℕ
  efile : ℕ
  mode : ℕ
  fd : ℕ
  deriving DecidableEq

/-- `redircmd`, for one redirection after the other. -/
def Cmd.wrap (cmd : Cmd) (rs : List Redirection) : Cmd :=
  rs.foldl (fun c r => .redir c r.file r.efile r.mode r.fd) cmd

/-- The `switch` of `parseredirs`. -/
def redirection (k : Kind) (f : Tok) : Option Redirection :=
  match k with
  | .lt => some ⟨f.q, f.eq, O_RDONLY, 0⟩
  | .gt => some ⟨f.q, f.eq, O_WRONLY ||| O_CREATE, 1⟩
  | .append => some ⟨f.q, f.eq, O_WRONLY ||| O_CREATE, 1⟩
  | _ => none

/-- The loop of `parseredirs`.  The redirections are put around a node that is filled later, so they
are collected, the first one first. -/
def redirsLoop (es : ℕ) :
    ℕ → List Redirection → List UInt8 → Except Stop (List Redirection × List UInt8)
  | 0, _, _ => .error .fuel
  | n + 1, rs, s =>
    let more := peek [60, 62] s
    if more.1 = true then
      let tok := gettoken es more.2
      let f := gettoken es tok.2
      if f.1.kind ≠ .word then .error (.panic "missing file for redirection")
      else redirsLoop es n (rs ++ (redirection tok.1.kind f.1).toList) f.2
    else .ok (rs, more.2)

def parseredirs (es : ℕ) (rs : List Redirection) (s : List UInt8) :
    Except Stop (List Redirection × List UInt8) := redirsLoop es (s.length + 1) rs s

def storeArg (argv : List (ℕ × ℕ)) (arg : ℕ × ℕ) : Except Stop (List (ℕ × ℕ)) :=
  if argv.length < MAXARGS then .ok (argv ++ [arg]) else .error .wild

def endArgs (argv : List (ℕ × ℕ)) : Except Stop Unit :=
  if argv.length < MAXARGS then .ok () else .error .wild

/-- The loop of `parseexec`; `argc` is the length of `argv`. -/
def argsLoop (es : ℕ) : ℕ → List (ℕ × ℕ) → List Redirection → List UInt8 →
    Except Stop (List (ℕ × ℕ) × List Redirection × List UInt8)
  | 0, _, _, _ => .error .fuel
  | n + 1, argv, rs, s =>
    let stop := peek [124, 41, 38, 59] s
    if stop.1 = true then .ok (argv, rs, stop.2)
    else
      let tok := gettoken es stop.2
      if tok.1.kind = .eof then .ok (argv, rs, tok.2)
      else if tok.1.kind ≠ .word then .error (.panic "syntax")
      else do
        let argv ← storeArg argv (tok.1.q, tok.1.eq)
        if MAXARGS ≤ argv.length then .error (.panic "too many args")
        else
          let r ← parseredirs es rs tok.2
          argsLoop es n argv r.1 r.2

/-- `parseblock`; `line` is `parseline`. -/
def parseblock (line : List UInt8 → Except Stop (Cmd × List UInt8)) (es : ℕ) (s : List UInt8) :
    Except Stop (Cmd × List UInt8) :=
  let left := peek [40] s
  if left.1 = false then .error (.panic "parseblock")
  else do
    let r ← line (gettoken es left.2).2
    let right := peek [41] r.2
    if right.1 = false then .error (.panic "syntax - missing )")
    else
      let rs ← parseredirs es [] (gettoken es right.2).2
      .ok (r.1.wrap rs.1, rs.2)

def parseexec (line : List UInt8 → Except Stop (Cmd × List UInt8)) (es : ℕ) (s : List UInt8) :
    Except Stop (Cmd × List UInt8) :=
  let block := peek [40] s
  if block.1 = true then parseblock line es block.2
  else do
    let rs ← parseredirs es [] block.2
    let r ← argsLoop es (rs.2.length + 1) [] rs.1 rs.2
    endArgs r.1
    .ok ((Cmd.exec r.1).wrap r.2.1, r.2.2)

def parsepipe (line : List UInt8 → Except Stop (Cmd × List UInt8)) (es : ℕ) :
    ℕ → List UInt8 → Except Stop (Cmd × List UInt8)
  | 0, _ => .error .fuel
  | n + 1, s => do
      let r ← parseexec line es s
      let more := peek [124] r.2
      if more.1 = true then
        let right ← parsepipe line es n (gettoken es more.2).2
        .ok (.pipe r.1 right.1, right.2)
      else .ok (r.1, more.2)

/-- The loop of `parseline`. -/
def backLoop (es : ℕ) : ℕ → Cmd → List UInt8 → Except Stop (Cmd × List UInt8)
  | 0, _, _ => .error .fuel
  | n + 1, cmd, s =>
    let more := peek [38] s
    if more.1 = true then backLoop es n (.back cmd) (gettoken es more.2).2
    else .ok (cmd, more.2)

def parseline (es : ℕ) : ℕ → List UInt8 → Except Stop (Cmd × List UInt8)
  | 0, _ => .error .fuel
  | n + 1, s => do
      let r ← parsepipe (parseline es n) es (s.length + 1) s
      let b ← backLoop es (r.2.length + 1) r.1 r.2
      let more := peek [59] b.2
      if more.1 = true then
        let right ← parseline es n (gettoken es more.2).2
        .ok (.list b.1 right.1, right.2)
      else .ok (b.1, more.2)

/-- `parsecmd`, up to the call of `nulterminate`. -/
def parsetree (line : List UInt8) : Except Stop Cmd := do
  let r ← parseline line.length (line.length + 1) line
  let rest := (peek [] r.2).2
  if rest ≠ [] then .error (.panic "syntax") else .ok r.1

/-- `nulterminate`, on the buffer with the line. -/
def nulterminate : Cmd → List UInt8 → List UInt8
  | .exec argv, buf => argv.foldl (fun buf arg => buf.set arg.2 0) buf
  | .redir cmd _ efile _ _, buf => (nulterminate cmd buf).set efile 0
  | .pipe left right, buf => nulterminate right (nulterminate left buf)
  | .list left right, buf => nulterminate right (nulterminate left buf)
  | .back cmd, buf => nulterminate cmd buf

/-- `parsecmd`: the tree, and the buffer with the line, which was followed by a NUL. -/
def parsecmd (line : List UInt8) : Except Stop (Cmd × List UInt8) := do
  let cmd ← parsetree line
  .ok (cmd, nulterminate cmd (line ++ [0]))

/-! ## The grammar -/

/-- `redir*`: each is an operator and a word. -/
inductive Redirs : List Tok → List Redirection → Prop
  | nil : Redirs [] []
  | cons {op f : Tok} {r : Redirection} {ts : List Tok} {rs : List Redirection} :
      redirection op.kind f = some r → f.kind = .word → Redirs ts rs →
      Redirs (op :: f :: ts) (r :: rs)

/-- `(word redir*)*`, with the words and the redirections. -/
inductive Words : List Tok → List (ℕ × ℕ) → List Redirection → Prop
  | nil : Words [] [] []
  | cons {t : Tok} {ts us : List Tok} {ws : List (ℕ × ℕ)} {rs rs' : List Redirection} :
      t.kind = .word → Redirs ts rs → Words us ws rs' →
      Words (t :: (ts ++ us)) ((t.q, t.eq) :: ws) (rs ++ rs')

/-- `BACK` around a command, `n` times. -/
def Cmd.backs : ℕ → Cmd → Cmd
  | 0, c => c
  | n + 1, c => Cmd.backs n (.back c)

/-- The nonterminals. -/
inductive Nonterminal
  | line
  | pipe
  | exec

/-- **The grammar**, and the tree of each derivation. -/
inductive Derives : Nonterminal → List Tok → Cmd → Prop
  | block {lp rp : Tok} {ts us : List Tok} {c : Cmd} {rs : List Redirection} : lp.kind = .lpar →
      Derives .line ts c → rp.kind = .rpar → Redirs us rs →
      Derives .exec (lp :: (ts ++ rp :: us)) (c.wrap rs)
  | simple {ts us : List Tok} {ws : List (ℕ × ℕ)} {rs rs' : List Redirection} : Redirs ts rs →
      Words us ws rs' → ws.length < MAXARGS →
      Derives .exec (ts ++ us) ((Cmd.exec ws).wrap (rs ++ rs'))
  | single {ts : List Tok} {c : Cmd} : Derives .exec ts c → Derives .pipe ts c
  | pipe {b : Tok} {ts us : List Tok} {c d : Cmd} : Derives .exec ts c → b.kind = .bar →
      Derives .pipe us d → Derives .pipe (ts ++ b :: us) (.pipe c d)
  | back {ts as : List Tok} {c : Cmd} : Derives .pipe ts c → (∀ t ∈ as, t.kind = .amp) →
      Derives .line (ts ++ as) (c.backs as.length)
  | list {b : Tok} {ts as us : List Tok} {c d : Cmd} : Derives .pipe ts c →
      (∀ t ∈ as, t.kind = .amp) → b.kind = .semi → Derives .line us d →
      Derives .line (ts ++ (as ++ b :: us)) (.list (c.backs as.length) d)

variable {es n : ℕ} {s : List UInt8} {ts us rest : List Tok} {t : Tok} {k : Kind} {c : Cmd}
  {rs new : List Redirection} {ws argv : List (ℕ × ℕ)} {nt : Nonterminal}

/-! ## The next token -/

/-- The kind of the first token. -/
def headKind (ts : List Tok) : Kind := ts.head?.elim .eof Tok.kind

theorem kind_gettoken (es : ℕ) (s : List UInt8) :
    (gettoken es s).1.kind = headKind (lex es s) := by
  by_cases h : (gettoken es s).1.kind = .eof
  · rw [h, lex_eof h]
    rfl
  · rw [lex_tok h]
    rfl

theorem gettoken_of_lex (h : lex es s = t :: ts) :
    (gettoken es s).1 = t ∧ lex es (gettoken es s).2 = ts ∧
      (gettoken es s).2.length < s.length := by
  have hne : (gettoken es s).1.kind ≠ .eof := by
    intro he
    rw [lex_eof he] at h
    cases h
  rw [lex_tok hne] at h
  exact ⟨(List.cons.inj h).1, (List.cons.inj h).2, gettoken_length es s hne⟩

theorem lex_of_headKind (h : headKind (lex es s) ≠ .eof) :
    lex es s = (gettoken es s).1 :: lex es (gettoken es s).2 := by
  refine lex_tok ?_
  rwa [kind_gettoken]

theorem peek_of_first (es : ℕ) {toks : List UInt8} {f : Kind → Bool}
    (htoks : ∀ c ∈ toks, c ∈ symbols) (hf : ∀ k : Kind, k.first.elim false toks.contains = f k)
    {s : List UInt8} : peek toks s = (f (headKind (lex es s)), skip s) := by
  rw [peek_eq es htoks, kind_gettoken, hf]

/-- The operators of redirections. -/
def redirKinds : List Kind := [.lt, .gt, .append]

/-- The kinds that end a simple command, the end of the line apart. -/
def endKinds : List Kind := [.bar, .rpar, .amp, .semi]

theorem peek_redirs (es : ℕ) (s : List UInt8) :
    peek [60, 62] s = (decide (headKind (lex es s) ∈ redirKinds), skip s) :=
  peek_of_first (f := fun k => decide (k ∈ redirKinds)) es (by simp [symbols])
    fun k => by cases k <;> rfl

theorem peek_ends (es : ℕ) (s : List UInt8) :
    peek [124, 41, 38, 59] s = (decide (headKind (lex es s) ∈ endKinds), skip s) :=
  peek_of_first (f := fun k => decide (k ∈ endKinds)) es (by simp [symbols])
    fun k => by cases k <;> rfl

theorem peek_lpar (es : ℕ) (s : List UInt8) :
    peek [40] s = (decide (headKind (lex es s) = .lpar), skip s) :=
  peek_of_first (f := fun k => decide (k = .lpar)) es (by simp [symbols])
    fun k => by cases k <;> rfl

theorem peek_rpar (es : ℕ) (s : List UInt8) :
    peek [41] s = (decide (headKind (lex es s) = .rpar), skip s) :=
  peek_of_first (f := fun k => decide (k = .rpar)) es (by simp [symbols])
    fun k => by cases k <;> rfl

theorem peek_bar (es : ℕ) (s : List UInt8) :
    peek [124] s = (decide (headKind (lex es s) = .bar), skip s) :=
  peek_of_first (f := fun k => decide (k = .bar)) es (by simp [symbols])
    fun k => by cases k <;> rfl

theorem peek_amp (es : ℕ) (s : List UInt8) :
    peek [38] s = (decide (headKind (lex es s) = .amp), skip s) :=
  peek_of_first (f := fun k => decide (k = .amp)) es (by simp [symbols])
    fun k => by cases k <;> rfl

theorem peek_semi (es : ℕ) (s : List UInt8) :
    peek [59] s = (decide (headKind (lex es s) = .semi), skip s) :=
  peek_of_first (f := fun k => decide (k = .semi)) es (by simp [symbols])
    fun k => by cases k <;> rfl

/-- It parses as expected, or stops with a panic. -/
def Ends {α : Type} (Q : α → Prop) : Except Stop α → Prop
  | .ok a => Q a
  | .error (.panic _) => True
  | .error .wild => False
  | .error .fuel => False

theorem Ends.bind {α β : Type} {P : α → Prop} {Q : β → Prop} {x : Except Stop α}
    {f : α → Except Stop β} (hx : Ends P x) (hf : ∀ a, P a → Ends Q (f a)) : Ends Q (x >>= f) := by
  cases x with
  | ok a => exact hf a hx
  | error e => cases e <;> exact hx

theorem Ends.mono {α : Type} {P Q : α → Prop} {x : Except Stop α} (hx : Ends P x)
    (h : ∀ a, P a → Q a) : Ends Q x := by
  cases x with
  | ok a => exact h a hx
  | error e => cases e <;> exact hx

/-! ## What is accepted is in the grammar -/

/-- The tokens `ts` have been taken. -/
structure Took (es : ℕ) (s s' : List UInt8) (ts : List Tok) : Prop where
  lex_eq : lex es s = ts ++ lex es s'
  length_le : s'.length ≤ s.length

theorem Took.skip (es : ℕ) (s : List UInt8) : Took es s (skip s) [] :=
  ⟨(lex_skip es s).symm, length_skip_le s⟩

theorem Took.trans {s₁ s₂ : List UInt8} (h : Took es s s₁ ts) (h' : Took es s₁ s₂ us) :
    Took es s s₂ (ts ++ us) :=
  ⟨by rw [h.lex_eq, h'.lex_eq, append_assoc], h'.length_le.trans h.length_le⟩

theorem Took.token (es : ℕ) (s : List UInt8) (h : headKind (lex es s) ≠ .eof) :
    Took es s (gettoken es s).2 [(gettoken es s).1] ∧ (gettoken es s).2.length < s.length := by
  have hlex := lex_of_headKind h
  have hlt := (gettoken_of_lex hlex).2.2
  exact ⟨⟨hlex, hlt.le⟩, hlt⟩

theorem Took.eof (h : (gettoken es s).1.kind = .eof) : Took es s (gettoken es s).2 [] := by
  rw [gettoken_eof h]
  exact ⟨(lex_eof h).trans (lex_nil es).symm, Nat.zero_le _⟩

theorem redirection_of_mem (h : k ∈ redirKinds) (f : Tok) : ∃ r, redirection k f = some r := by
  simp only [redirKinds, mem_cons, not_mem_nil, or_false] at h
  obtain rfl | rfl | rfl := h <;> exact ⟨_, rfl⟩

theorem redirsLoop_sound (n : ℕ) : ∀ {s : List UInt8} {rs : List Redirection}, s.length < n →
    Ends (fun r => ∃ ts us, Took es s r.2 ts ∧ Redirs ts us ∧ r.1 = rs ++ us)
      (redirsLoop es n rs s) := by
  induction n with
  | zero =>
    intro s rs hn
    exact absurd hn (Nat.not_lt_zero _)
  | succ n ih =>
    intro s rs hn
    rw [redirsLoop, peek_redirs es]
    simp only [decide_eq_true_eq, gettoken_skip]
    split
    · rename_i hmore
      have hne : headKind (lex es s) ≠ .eof := by
        intro h
        rw [h] at hmore
        exact absurd hmore (by decide)
      obtain ⟨htook, hlt⟩ := Took.token es s hne
      split
      · trivial
      · rename_i hword
        rw [ne_eq, not_not] at hword
        have hne' : headKind (lex es (gettoken es s).2) ≠ .eof := by
          rw [← kind_gettoken, hword]
          exact nofun
        obtain ⟨htook', hlt'⟩ := Took.token es (gettoken es s).2 hne'
        obtain ⟨r, hr⟩ := redirection_of_mem (kind_gettoken es s ▸ hmore)
          (gettoken es (gettoken es s).2).1
        rw [hr]
        refine (ih (by omega)).mono ?_
        rintro a ⟨ts, us, hts, hus, ha⟩
        refine ⟨_, r :: us, htook.trans (htook'.trans hts), .cons hr hword hus, ?_⟩
        rw [ha, append_assoc]
        rfl
    · exact ⟨[], [], Took.skip es s, .nil, (append_nil rs).symm⟩

theorem parseredirs_sound (es : ℕ) (rs : List Redirection) (s : List UInt8) :
    Ends (fun r => ∃ ts us, Took es s r.2 ts ∧ Redirs ts us ∧ r.1 = rs ++ us)
      (parseredirs es rs s) :=
  redirsLoop_sound _ (Nat.lt_succ_self _)

theorem argsLoop_sound (n : ℕ) : ∀ {s : List UInt8} {argv : List (ℕ × ℕ)} {rs : List Redirection},
    s.length < n → argv.length < MAXARGS →
    Ends (fun r => r.1.length < MAXARGS ∧ ∃ ts ws rs', Took es s r.2.2 ts ∧ Words ts ws rs' ∧
        r.1 = argv ++ ws ∧ r.2.1 = rs ++ rs')
      (argsLoop es n argv rs s) := by
  induction n with
  | zero =>
    intro s argv rs hn
    exact absurd hn (Nat.not_lt_zero _)
  | succ n ih =>
    intro s argv rs hn hargs
    rw [argsLoop, peek_ends es]
    simp only [decide_eq_true_eq, gettoken_skip]
    split
    · exact ⟨hargs, [], [], [], Took.skip es s, .nil, (append_nil _).symm,
        (append_nil _).symm⟩
    split
    · rename_i heof
      exact ⟨hargs, [], [], [], Took.eof heof, .nil, (append_nil _).symm,
        (append_nil _).symm⟩
    split
    · trivial
    rename_i hneof hword
    rw [ne_eq, not_not] at hword
    obtain ⟨htook, hlt⟩ := Took.token es s (by rwa [← kind_gettoken])
    rw [storeArg, if_pos hargs]
    refine Ends.bind (P := fun a => a = argv ++ [((gettoken es s).1.q, (gettoken es s).1.eq)])
      rfl ?_
    rintro a rfl
    rw [length_append, length_singleton]
    split
    · trivial
    · rename_i hfew
      refine (parseredirs_sound es rs _).bind ?_
      rintro r ⟨ts, us, hts, hus, hr⟩
      have hle := hts.length_le
      refine (ih (by omega) (by rw [length_append, length_singleton]; omega)).mono ?_
      rintro x ⟨hx, ts', ws, rs', htook', hwords, hargv, hredirs⟩
      have hall := Words.cons hword hus hwords
      refine ⟨hx, _, _, _, htook.trans (hts.trans htook'), hall, ?_, ?_⟩
      · rw [hargv, append_assoc]
        rfl
      · rw [hredirs, hr, append_assoc]

/-- A command has been parsed. -/
def Parsed (es : ℕ) (nt : Nonterminal) (s : List UInt8) (r : Cmd × List UInt8) : Prop :=
  ∃ ts, Took es s r.2 ts ∧ Derives nt ts r.1

theorem headKind_skip (es : ℕ) (s : List UInt8) :
    headKind (lex es (skip s)) = headKind (lex es s) := by rw [lex_skip]

section Sound

variable {line : List UInt8 → Except Stop (Cmd × List UInt8)} {m : ℕ}

theorem parseblock_sound (hline : ∀ s', s'.length < m → Ends (Parsed es .line s') (line s'))
    (hs : s.length ≤ m) (hl : headKind (lex es s) = .lpar) :
    Ends (Parsed es .exec s) (parseblock line es s) := by
  obtain ⟨htook, hlt⟩ := Took.token es s (by rw [hl]; exact nofun)
  have hkind : (gettoken es s).1.kind = .lpar := by rw [kind_gettoken, hl]
  rw [parseblock, peek_lpar es]
  simp only [hl, gettoken_skip]
  refine (hline _ (by omega)).bind ?_
  rintro r ⟨ts, hts, hder⟩
  rw [peek_rpar es]
  simp only [gettoken_skip]
  split
  · trivial
  · rename_i hr
    have hr' : headKind (lex es r.2) = .rpar := by simpa using hr
    obtain ⟨htook', -⟩ := Took.token es r.2 (by rw [hr']; exact nofun)
    have hkind' : (gettoken es r.2).1.kind = .rpar := by rw [kind_gettoken, hr']
    refine (parseredirs_sound es [] _).bind ?_
    rintro x ⟨us, rs, hus, hredirs, hx⟩
    refine ⟨_, htook.trans (hts.trans (htook'.trans hus)), ?_⟩
    rw [hx]
    exact .block hkind hder hkind' hredirs

theorem parseexec_sound (hline : ∀ s', s'.length < m → Ends (Parsed es .line s') (line s'))
    (hs : s.length ≤ m) : Ends (Parsed es .exec s) (parseexec line es s) := by
  have hle := length_skip_le s
  rw [parseexec, peek_lpar es]
  simp only [decide_eq_true_eq]
  split
  · rename_i hl
    refine (parseblock_sound hline (by omega) (by rwa [headKind_skip])).mono ?_
    rintro r ⟨ts, hts, hder⟩
    exact ⟨_, (Took.skip es s).trans hts, hder⟩
  · refine (parseredirs_sound es [] _).bind ?_
    rintro x ⟨ts, rs, hts, hredirs, hx⟩
    refine (argsLoop_sound _ (Nat.lt_succ_self _) (by decide)).bind ?_
    rintro y ⟨hy, us, ws, rs', hus, hwords, hargv, hall⟩
    rw [nil_append] at hx hargv
    have hlen : ws.length < MAXARGS := hargv ▸ hy
    rw [endArgs, if_pos hy]
    have hder := Derives.simple hredirs hwords hlen
    refine ⟨_, (Took.skip es s).trans (hts.trans hus), ?_⟩
    dsimp only
    rwa [hall, hx, hargv]

theorem parsepipe_sound (hline : ∀ s', s'.length < m → Ends (Parsed es .line s') (line s'))
    (n : ℕ) : ∀ {s : List UInt8}, s.length ≤ m → s.length < n →
      Ends (Parsed es .pipe s) (parsepipe line es n s) := by
  induction n with
  | zero =>
    intro s _ hn
    exact absurd hn (Nat.not_lt_zero _)
  | succ n ih =>
    intro s hs hn
    rw [parsepipe]
    refine (parseexec_sound hline hs).bind ?_
    rintro r ⟨ts, hts, hder⟩
    have hle := hts.length_le
    rw [peek_bar es]
    simp only [decide_eq_true_eq, gettoken_skip]
    split
    · rename_i hb
      obtain ⟨htook, hlt⟩ := Took.token es r.2 (by rw [hb]; exact nofun)
      have hkind : (gettoken es r.2).1.kind = .bar := by rw [kind_gettoken, hb]
      refine (ih (by omega) (by omega)).bind ?_
      rintro x ⟨us, hus, hder'⟩
      exact ⟨_, hts.trans (htook.trans hus), .pipe hder hkind hder'⟩
    · refine ⟨_, hts.trans (Took.skip es r.2), ?_⟩
      rw [append_nil]
      exact .single hder

end Sound

theorem backLoop_sound (n : ℕ) : ∀ {s : List UInt8} {c : Cmd}, s.length < n →
    Ends (fun r => ∃ as, Took es s r.2 as ∧ (∀ t ∈ as, t.kind = .amp) ∧ r.1 = c.backs as.length)
      (backLoop es n c s) := by
  induction n with
  | zero =>
    intro s c hn
    exact absurd hn (Nat.not_lt_zero _)
  | succ n ih =>
    intro s c hn
    rw [backLoop, peek_amp es]
    simp only [decide_eq_true_eq, gettoken_skip]
    split
    · rename_i ha
      obtain ⟨htook, hlt⟩ := Took.token es s (by rw [ha]; exact nofun)
      have hkind : (gettoken es s).1.kind = .amp := by rw [kind_gettoken, ha]
      refine (ih (by omega)).mono ?_
      rintro r ⟨as, has, hamps, hr⟩
      refine ⟨_, htook.trans has, fun t ht => ?_, hr⟩
      obtain rfl | ht := mem_cons.1 ht
      · exact hkind
      · exact hamps t ht
    · exact ⟨[], Took.skip es s, fun t ht => absurd ht not_mem_nil, rfl⟩

theorem parseline_sound (n : ℕ) : ∀ {s : List UInt8}, s.length < n →
    Ends (Parsed es .line s) (parseline es n s) := by
  induction n with
  | zero =>
    intro s hn
    exact absurd hn (Nat.not_lt_zero _)
  | succ n ih =>
    intro s hn
    rw [parseline]
    refine (parsepipe_sound (fun s' hs' => ih hs') _ (Nat.lt_succ_iff.1 hn)
      (Nat.lt_succ_self _)).bind ?_
    rintro r ⟨ts, hts, hder⟩
    refine (backLoop_sound _ (Nat.lt_succ_self _)).bind ?_
    rintro b ⟨as, has, hamps, hb⟩
    have hle := hts.length_le
    have hle' := has.length_le
    rw [peek_semi es]
    simp only [decide_eq_true_eq, gettoken_skip]
    split
    · rename_i hs
      obtain ⟨htook, hlt⟩ := Took.token es b.2 (by rw [hs]; exact nofun)
      have hkind : (gettoken es b.2).1.kind = .semi := by rw [kind_gettoken, hs]
      refine (ih (by omega)).bind ?_
      rintro x ⟨us, hus, hder'⟩
      refine ⟨_, hts.trans (has.trans (htook.trans hus)), ?_⟩
      rw [hb]
      exact .list hder hamps hkind hder'
    · refine ⟨_, hts.trans (has.trans (Took.skip es b.2)), ?_⟩
      rw [append_nil, hb]
      exact .back hder hamps

/-! ## What is in the grammar is accepted -/

theorem redirection_mem {f : Tok} {r : Redirection} (h : redirection k f = some r) :
    k ∈ redirKinds := by
  cases k <;> first | decide | cases h

theorem Redirs.headKind_append (h : Redirs ts rs) (rest : List Tok) :
    headKind (ts ++ rest) ∈ redirKinds ∨ headKind (ts ++ rest) = headKind rest := by
  cases h with
  | nil => exact .inr rfl
  | cons hr _ _ => exact .inl (redirection_mem hr)

theorem Words.headKind_append (h : Words ts ws rs) (rest : List Tok) :
    headKind (ts ++ rest) = .word ∨ headKind (ts ++ rest) = headKind rest := by
  cases h with
  | nil => exact .inr rfl
  | cons ht _ _ => exact .inl ht

/-- What can come after a part of a line that derives from the nonterminal. -/
def Nonterminal.follow : Nonterminal → List Kind
  | .exec => [.eof, .rpar, .semi, .amp, .bar]
  | .pipe => [.eof, .rpar, .semi, .amp]
  | .line => [.eof, .rpar]

theorem not_redir_of_follow (h : k ∈ Nonterminal.exec.follow) : k ∉ redirKinds := by
  cases k <;> revert h <;> decide

/-- The parser gives `a` and goes on from a string with the tokens `rest`. -/
def Gives {α : Type} (es : ℕ) (s : List UInt8) (rest : List Tok) (a : α)
    (x : Except Stop (α × List UInt8)) : Prop :=
  ∃ s', x = .ok (a, s') ∧ lex es s' = rest ∧ s'.length ≤ s.length

theorem redirsLoop_complete (h : Redirs ts new) (hrest : headKind rest ∉ redirKinds) :
    ∀ (rs : List Redirection) {n : ℕ} {s : List UInt8}, lex es s = ts ++ rest → s.length < n →
      Gives es s rest (rs ++ new) (redirsLoop es n rs s) := by
  induction h with
  | nil =>
    intro rs n s hlex hn
    obtain ⟨n, rfl⟩ := Nat.exists_eq_succ_of_ne_zero (Nat.ne_zero_of_lt hn)
    rw [nil_append] at hlex
    rw [redirsLoop, peek_redirs es, hlex]
    refine ⟨skip s, ?_, by rw [lex_skip, hlex], length_skip_le s⟩
    rw [append_nil]
    exact if_neg (by rwa [decide_eq_true_eq])
  | @cons op f r ts new hr hf _ ih =>
    intro rs n s hlex hn
    obtain ⟨n, rfl⟩ := Nat.exists_eq_succ_of_ne_zero (Nat.ne_zero_of_lt hn)
    obtain ⟨hop, hlex₁, hlt₁⟩ := gettoken_of_lex hlex
    obtain ⟨hf', hlex₂, hlt₂⟩ := gettoken_of_lex hlex₁
    have hmem : headKind (lex es s) ∈ redirKinds := by
      rw [hlex]
      exact redirection_mem hr
    obtain ⟨s', hs', hlex', hle⟩ := ih (rs ++ [r]) (n := n) hlex₂ (by omega)
    refine ⟨s', ?_, hlex', by omega⟩
    rw [redirsLoop, peek_redirs es, decide_eq_true hmem]
    simp only [gettoken_skip, hop, hf', hf, hr, ne_eq, not_true_eq_false, if_true, if_false,
      Option.toList_some, hs', append_assoc, singleton_append]

theorem parseredirs_complete (h : Redirs ts new) (hlex : lex es s = ts ++ rest)
    (hrest : headKind rest ∉ redirKinds) (rs : List Redirection) :
    Gives es s rest (rs ++ new) (parseredirs es rs s) :=
  redirsLoop_complete h hrest rs hlex (Nat.lt_succ_self _)

theorem argsLoop_complete (h : Words ts ws new) (hrest : headKind rest ∈ Nonterminal.exec.follow) :
    ∀ (argv : List (ℕ × ℕ)) (rs : List Redirection) {n : ℕ} {s : List UInt8},
      lex es s = ts ++ rest → s.length < n → argv.length + ws.length < MAXARGS →
      ∃ s', argsLoop es n argv rs s = .ok (argv ++ ws, rs ++ new, s') ∧ lex es s' = rest ∧
        s'.length ≤ s.length := by
  induction h with
  | nil =>
    intro argv rs n s hlex hn _
    obtain ⟨n, rfl⟩ := Nat.exists_eq_succ_of_ne_zero (Nat.ne_zero_of_lt hn)
    rw [nil_append] at hlex
    rw [argsLoop, peek_ends es, hlex, append_nil, append_nil]
    by_cases hend : headKind rest ∈ endKinds
    · refine ⟨skip s, ?_, by rw [lex_skip, hlex], length_skip_le s⟩
      exact if_pos (decide_eq_true hend)
    · have heof : headKind rest = .eof := by
        revert hrest hend
        cases headKind rest <;> decide
      have hkind : (gettoken es s).1.kind = .eof := by rw [kind_gettoken, hlex, heof]
      obtain ⟨hlex', hle⟩ := Took.eof hkind
      refine ⟨(gettoken es s).2, ?_, by rw [← hlex, hlex', nil_append], hle⟩
      simp only [decide_eq_true_eq, if_neg hend, gettoken_skip, if_pos hkind]
  | @cons t ts us ws new new' ht hredirs hwords ih =>
    intro argv rs n s hlex hn hargs
    obtain ⟨n, rfl⟩ := Nat.exists_eq_succ_of_ne_zero (Nat.ne_zero_of_lt hn)
    rw [cons_append, append_assoc] at hlex
    rw [length_cons] at hargs
    obtain ⟨htok, hlex₁, hlt⟩ := gettoken_of_lex hlex
    have hend : headKind (lex es s) ∉ endKinds := by
      rw [hlex, show headKind (t :: (ts ++ (us ++ rest))) = .word from ht]
      decide
    have hnot : headKind (us ++ rest) ∉ redirKinds := by
      obtain h | h := hwords.headKind_append rest
      · rw [h]
        decide
      · rw [h]
        exact not_redir_of_follow hrest
    obtain ⟨s₁, hs₁, hlex₂, hle₁⟩ := parseredirs_complete hredirs hlex₁ hnot rs
    obtain ⟨s', hs', hlex', hle⟩ := ih (argv ++ [(t.q, t.eq)]) (rs ++ new) (n := n)
      hlex₂ (by omega) (by rw [length_append, length_singleton]; omega)
    refine ⟨s', ?_, hlex', by omega⟩
    have hfew : ¬ MAXARGS ≤ (argv ++ [(t.q, t.eq)]).length := by
      rw [length_append, length_singleton]
      omega
    have hstore : storeArg argv (t.q, t.eq) = .ok (argv ++ [(t.q, t.eq)]) := if_pos (by omega)
    rw [argsLoop, peek_ends es, decide_eq_false hend]
    simp only [gettoken_skip, htok, ht, reduceCtorEq, ne_eq, not_true_eq_false, if_false,
      Bool.false_eq_true, hstore]
    simp only [bind, Except.bind, if_neg hfew, hs₁, hs', append_assoc, singleton_append]

/-- What completeness says of a derivation. -/
def Complete (es : ℕ) : Nonterminal → List Tok → Cmd → Prop
  | .exec, ts, c => ∀ {s rest n}, lex es s = ts ++ rest →
      headKind rest ∈ Nonterminal.exec.follow → s.length ≤ n →
      Gives es s rest c (parseexec (parseline es n) es s)
  | .pipe, ts, c => ∀ {s rest n m}, lex es s = ts ++ rest →
      headKind rest ∈ Nonterminal.pipe.follow → s.length ≤ n → s.length < m →
      Gives es s rest c (parsepipe (parseline es n) es m s)
  | .line, ts, c => ∀ {s rest n}, lex es s = ts ++ rest →
      headKind rest ∈ Nonterminal.line.follow → s.length < n →
      Gives es s rest c (parseline es n s)

theorem complete_block {lp rp : Tok} (hlp : lp.kind = .lpar) (hline : Complete es .line ts c)
    (hrp : rp.kind = .rpar) (hredirs : Redirs us rs) :
    Complete es .exec (lp :: (ts ++ rp :: us)) (c.wrap rs) := by
  intro s rest n hlex hrest hn
  rw [cons_append, append_assoc, cons_append] at hlex
  obtain ⟨-, hlex₁, hlt⟩ := gettoken_of_lex hlex
  have hl : headKind (lex es s) = .lpar := by rw [hlex]; exact hlp
  have hr : headKind (rp :: (us ++ rest)) = .rpar := hrp
  obtain ⟨s₁, hs₁, hlex₂, hle₁⟩ := hline (n := n) hlex₁ (by rw [hr]; decide) (by omega)
  obtain ⟨-, hlex₃, hlt₁⟩ := gettoken_of_lex hlex₂
  obtain ⟨s', hs', hlex', hle⟩ := parseredirs_complete hredirs hlex₃ (not_redir_of_follow hrest) []
  refine ⟨s', ?_, hlex', by omega⟩
  rw [parseexec, peek_lpar es, decide_eq_true hl]
  simp only [if_true]
  rw [parseblock, peek_lpar es, headKind_skip, decide_eq_true hl]
  simp only [gettoken_skip, hs₁, bind, Except.bind, peek_rpar es, hlex₂, hr, decide_true, hs',
    nil_append, if_false, Bool.true_eq_false]

theorem complete_simple (hredirs : Redirs ts rs) (hwords : Words us ws new)
    (hlen : ws.length < MAXARGS) :
    Complete es .exec (ts ++ us) ((Cmd.exec ws).wrap (rs ++ new)) := by
  intro s rest n hlex hrest hn
  rw [append_assoc] at hlex
  have hhead : headKind (us ++ rest) ∉ redirKinds ∧ headKind (us ++ rest) ≠ .lpar := by
    obtain h | h := hwords.headKind_append rest
    · rw [h]
      decide
    · rw [h]
      exact ⟨not_redir_of_follow hrest, fun hl => absurd (hl ▸ hrest) (by decide)⟩
  have hl : headKind (lex es s) ≠ .lpar := by
    rw [hlex]
    obtain h | h := hredirs.headKind_append (us ++ rest)
    · exact fun hl => absurd (hl ▸ h) (by decide)
    · rw [h]
      exact hhead.2
  obtain ⟨s₁, hs₁, hlex₁, hle₁⟩ :=
    parseredirs_complete hredirs ((lex_skip es s).trans hlex) hhead.1 []
  obtain ⟨s', hs', hlex', hle⟩ := argsLoop_complete hwords hrest [] rs hlex₁
    (Nat.lt_succ_self _) (by rwa [length_nil, Nat.zero_add])
  have hskip := length_skip_le s
  refine ⟨s', ?_, hlex', by omega⟩
  rw [parseexec, peek_lpar es, decide_eq_false hl]
  simp only [Bool.false_eq_true, if_false, hs₁, bind, Except.bind, nil_append] at hs' ⊢
  simp only [hs', endArgs, if_pos hlen]

theorem complete_single (h : Complete es .exec ts c) : Complete es .pipe ts c := by
  intro s rest n m hlex hrest hn hm
  obtain ⟨m, rfl⟩ := Nat.exists_eq_succ_of_ne_zero (Nat.ne_zero_of_lt hm)
  have hfollow : headKind rest ∈ Nonterminal.exec.follow ∧ headKind rest ≠ .bar := by
    revert hrest
    cases headKind rest <;> decide
  obtain ⟨s', hs', hlex', hle⟩ := h hlex hfollow.1 hn
  have hskip := length_skip_le s'
  refine ⟨skip s', ?_, by rw [lex_skip, hlex'], by omega⟩
  rw [parsepipe, hs']
  simp only [bind, Except.bind, peek_bar es, hlex', decide_eq_false hfollow.2, Bool.false_eq_true,
    if_false]

theorem complete_pipe {b : Tok} {d : Cmd} (h : Complete es .exec ts c) (hb : b.kind = .bar)
    (hright : Complete es .pipe us d) : Complete es .pipe (ts ++ b :: us) (.pipe c d) := by
  intro s rest n m hlex hrest hn hm
  obtain ⟨m, rfl⟩ := Nat.exists_eq_succ_of_ne_zero (Nat.ne_zero_of_lt hm)
  rw [append_assoc, cons_append] at hlex
  have hbar : headKind (b :: (us ++ rest)) = .bar := hb
  obtain ⟨s₁, hs₁, hlex₁, hle₁⟩ := h hlex (by rw [hbar]; decide) hn
  obtain ⟨-, hlex₂, hlt⟩ := gettoken_of_lex hlex₁
  obtain ⟨s', hs', hlex', hle⟩ := hright (n := n) (m := m) hlex₂ hrest (by omega) (by omega)
  refine ⟨s', ?_, hlex', by omega⟩
  rw [parsepipe, hs₁]
  simp only [bind, Except.bind, peek_bar es, hlex₁, hbar, decide_true, if_true, gettoken_skip, hs']

variable {as : List Tok}

theorem backLoop_complete (has : ∀ t ∈ as, t.kind = .amp) (hrest : headKind rest ≠ .amp) :
    ∀ {n : ℕ} {s : List UInt8} {c : Cmd},
      lex es s = as ++ rest → s.length < n →
      Gives es s rest (c.backs as.length) (backLoop es n c s) := by
  induction as with
  | nil =>
    intro n s c hlex hn
    obtain ⟨n, rfl⟩ := Nat.exists_eq_succ_of_ne_zero (Nat.ne_zero_of_lt hn)
    rw [nil_append] at hlex
    refine ⟨skip s, ?_, by rw [lex_skip, hlex], length_skip_le s⟩
    rw [backLoop, peek_amp es, hlex, decide_eq_false hrest]
    rfl
  | cons t as ih =>
    intro n s c hlex hn
    obtain ⟨n, rfl⟩ := Nat.exists_eq_succ_of_ne_zero (Nat.ne_zero_of_lt hn)
    obtain ⟨-, hlex₁, hlt⟩ := gettoken_of_lex hlex
    have ha : headKind (lex es s) = .amp := by
      rw [hlex]
      exact has t mem_cons_self
    obtain ⟨s', hs', hlex', hle⟩ := ih (fun u hu => has u (mem_cons_of_mem _ hu)) (n := n)
      (c := .back c) hlex₁ (by omega)
    refine ⟨s', ?_, hlex', by omega⟩
    rw [backLoop, peek_amp es, decide_eq_true ha]
    simp only [if_true, gettoken_skip, hs']
    rfl

theorem complete_backs (h : Complete es .pipe ts c) (has : ∀ t ∈ as, t.kind = .amp)
    (hlex : lex es s = ts ++ (as ++ rest)) (hrest : headKind rest ∈ [Kind.eof, .rpar, .semi])
    (hn : s.length ≤ n) :
    ∃ s₁, parsepipe (parseline es n) es (s.length + 1) s = .ok (c, s₁) ∧
      Gives es s rest (c.backs as.length) (backLoop es (s₁.length + 1) c s₁) := by
  have hfollow : headKind (as ++ rest) ∈ Nonterminal.pipe.follow := by
    cases as with
    | nil =>
      revert hrest
      rw [nil_append]
      cases headKind rest <;> decide
    | cons t as =>
      rw [show headKind (t :: as ++ rest) = .amp from has t mem_cons_self]
      decide
  have hamp : headKind rest ≠ .amp := fun ha => absurd (ha ▸ hrest) (by decide)
  obtain ⟨s₁, hs₁, hlex₁, hle₁⟩ := h hlex hfollow hn (Nat.lt_succ_self _)
  obtain ⟨s', hs', hlex', hle⟩ := backLoop_complete has hamp (c := c) hlex₁ (Nat.lt_succ_self _)
  exact ⟨s₁, hs₁, s', hs', hlex', hle.trans hle₁⟩

theorem complete_back (h : Complete es .pipe ts c) (has : ∀ t ∈ as, t.kind = .amp) :
    Complete es .line (ts ++ as) (c.backs as.length) := by
  intro s rest n hlex hrest hn
  obtain ⟨n, rfl⟩ := Nat.exists_eq_succ_of_ne_zero (Nat.ne_zero_of_lt hn)
  rw [append_assoc] at hlex
  have hfollow : headKind rest ∈ [Kind.eof, .rpar, .semi] ∧ headKind rest ≠ .semi := by
    revert hrest
    cases headKind rest <;> decide
  obtain ⟨s₁, hs₁, s', hs', hlex', hle⟩ :=
    complete_backs h has hlex hfollow.1 (Nat.lt_succ_iff.1 hn)
  have hskip := length_skip_le s'
  refine ⟨skip s', ?_, by rw [lex_skip, hlex'], by omega⟩
  rw [parseline, hs₁]
  simp only [bind, Except.bind, hs', peek_semi es, hlex', decide_eq_false hfollow.2,
    Bool.false_eq_true, if_false]

theorem complete_list {b : Tok} {d : Cmd} (h : Complete es .pipe ts c)
    (has : ∀ t ∈ as, t.kind = .amp) (hb : b.kind = .semi) (hright : Complete es .line us d) :
    Complete es .line (ts ++ (as ++ b :: us)) (.list (c.backs as.length) d) := by
  intro s rest n hlex hrest hn
  obtain ⟨n, rfl⟩ := Nat.exists_eq_succ_of_ne_zero (Nat.ne_zero_of_lt hn)
  rw [append_assoc, append_assoc, cons_append] at hlex
  have hsemi : headKind (b :: (us ++ rest)) = .semi := hb
  obtain ⟨s₁, hs₁, s₂, hs₂, hlex₂, hle₂⟩ :=
    complete_backs h has hlex (by rw [hsemi]; decide) (Nat.lt_succ_iff.1 hn)
  obtain ⟨-, hlex₃, hlt⟩ := gettoken_of_lex hlex₂
  obtain ⟨s', hs', hlex', hle⟩ := hright (n := n) hlex₃ hrest (by omega)
  refine ⟨s', ?_, hlex', by omega⟩
  rw [parseline, hs₁]
  simp only [bind, Except.bind, hs₂, peek_semi es, hlex₂, hsemi, decide_true, if_true,
    gettoken_skip, hs']

theorem Derives.complete (h : Derives nt ts c) : Complete es nt ts c := by
  induction h with
  | block hlp _ hrp hredirs ih => exact complete_block hlp ih hrp hredirs
  | simple hredirs hwords hlen => exact complete_simple hredirs hwords hlen
  | single _ ih => exact complete_single ih
  | pipe _ hb _ ih ih' => exact complete_pipe ih hb ih'
  | back _ has ih => exact complete_back ih has
  | list _ has hb _ ih ih' => exact complete_list ih has hb ih'

/-! ## Whole lines -/

theorem parsetree_sound (line : List UInt8) :
    Ends (fun c => Derives .line (lex line.length line) c) (parsetree line) := by
  refine (parseline_sound _ (Nat.lt_succ_self _)).bind ?_
  rintro r ⟨ts, hts, hder⟩
  dsimp only [peek]
  split
  · trivial
  · rename_i hrest
    rw [ne_eq, not_not] at hrest
    have hlex := hts.lex_eq
    rw [← lex_skip _ r.2, hrest, lex_nil, append_nil] at hlex
    rw [hlex]
    exact hder

theorem parsetree_complete {line : List UInt8} (h : Derives .line (lex line.length line) c) :
    parsetree line = .ok c := by
  have hend : headKind [] ∈ Nonterminal.line.follow := by decide
  obtain ⟨s', hs', hlex, -⟩ := h.complete (append_nil _).symm hend (Nat.lt_succ_self _)
  have heof : (gettoken line.length s').1.kind = .eof := by
    rw [kind_gettoken, hlex]
    rfl
  have hskip := skip_eof heof
  rw [parsetree, hs']
  simp only [bind, Except.bind, peek, hskip, ne_eq, not_true_eq_false, if_false]

theorem derives_of_parsecmd {line buf : List UInt8} (h : parsecmd line = .ok (c, buf)) :
    Derives .line (lex line.length line) c ∧ buf = nulterminate c (line ++ [0]) := by
  have hends := parsetree_sound line
  cases htree : parsetree line with
  | error e =>
    rw [parsecmd, htree] at h
    cases h
  | ok d =>
    rw [parsecmd, htree] at h
    rw [htree] at hends
    obtain ⟨rfl, rfl⟩ := Prod.mk.inj (Except.ok.inj h)
    exact ⟨hends, rfl⟩

/-- **`parsecmd` accepts the grammar.**  A line has one list of tokens, and the lines that derive
from the grammar are those for which `parsecmd` returns, with the tree of the derivation.  On every
other line it stops with a panic: it always comes to an end, and never stores beyond `argv`. -/
theorem parsecmd_accepts_grammar (line : List UInt8) :
    ∃ ts, (∀ us, Lexes 0 line us ↔ us = ts) ∧
      (∀ c, Derives .line ts c ↔ ∃ buf, parsecmd line = .ok (c, buf)) ∧
      ((¬ ∃ c, Derives .line ts c) ↔ ∃ msg, parsecmd line = .error (.panic msg)) := by
  refine ⟨lex line.length line, fun us => ?_, fun c => ⟨fun h => ?_, ?_⟩, ⟨fun h => ?_, ?_⟩⟩
  · rw [lexes_iff, Nat.zero_add, eq_comm]
  · exact ⟨_, by rw [parsecmd, parsetree_complete h]; rfl⟩
  · rintro ⟨buf, h⟩
    exact (derives_of_parsecmd h).1
  · have hends := parsetree_sound line
    cases htree : parsetree line with
    | ok d =>
      rw [htree] at hends
      exact absurd ⟨d, hends⟩ h
    | error e =>
      rw [htree] at hends
      cases e with
      | panic msg => exact ⟨msg, by rw [parsecmd, htree]; rfl⟩
      | _ => exact hends.elim
  · rintro ⟨msg, h⟩ ⟨c, hder⟩
    rw [parsecmd, parsetree_complete hder] at h
    cases h

end Xv6.Sh
