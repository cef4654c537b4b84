import Xv6.Lib.Lts

/-!
# Processes that take atomic steps on shared state

A process runs `Code`: it asks for one operation after the other and goes on
with the results.  Operations are atomic, they may have to wait, and those of
different processes interleave in any order.

To reason about such code one process at a time, a `Protocol` gives each process
a private account of what it holds and knows, and says which operations the
account allows, which answers it lets one expect and how it changes.  `Obeys` is
then a statement about one program alone.

* `Obeys` has one rule for each way of building a program (`obeys_ret`,
  `obeys_ask`, `obeys_bind`, `obeys_ite`) and `Obeys.mono` for calls.
* `exists_accounts` — if every legal operation keeps an invariant of the shared
  state and the accounts, and the body of every call obeys the protocol, then the
  invariant holds in every state reached, and every process goes on obeying.
  `exists_accounts_of_step` also lets an operation change the account of a process
  that is at rest.
-/

namespace Xv6.Lib

open Function

/-- Code that asks for operations `Op` with results `Res`, returns a value, or
panics. -/
inductive Code (Op : Type) (Res : Op → Type) (ε α : Type) : Type
  | ret (a : α)
  | panic (e : ε)
  | op (o : Op) (k : Res o → Code Op Res ε α)

namespace Code

variable {Op : Type} {Res : Op → Type} {ε α β : Type}

/-- Sequential composition. -/
def bind : Code Op Res ε α → (α → Code Op Res ε β) → Code Op Res ε β
  | ret a, f => f a
  | panic e, _ => panic e
  | op o k, f => op o fun r => (k r).bind f

instance : Monad (Code Op Res ε) where
  pure := ret
  bind := bind

/-- A single operation. -/
def ask (o : Op) : Code Op Res ε (Res o) := op o ret

/-- The code has ended in a panic. -/
def panicked : Code Op Res ε α → Bool
  | panic _ => true
  | _ => false

/-- The code has returned. -/
def idle : Code Op Res ε α → Bool
  | ret _ => true
  | _ => false

/-- The operation the code asks for next. -/
def next? : Code Op Res ε α → Option Op
  | op o _ => some o
  | _ => none

end Code

/-! ## Protocols -/

/-- What a process may do and what it then knows, in terms of its own account. -/
structure Protocol (Op : Type) (Res : Op → Type) (Γ : Type) where
  legal : Γ → Op → Prop
  /-- The operation may have this result. -/
  answers : Γ → (o : Op) → Res o → Prop
  next : Γ → (o : Op) → Res o → Γ

section Obeys

variable {Op : Type} {Res : Op → Type} {ε α β Γ : Type}

/-- **The code obeys the protocol**: from the account `g` on it asks for legal
operations only, panics only as `E` allows and returns with `Q`. -/
def Obeys (L : Protocol Op Res Γ) (Q : α → Γ → Prop) (E : ε → Prop) :
    Code Op Res ε α → Γ → Prop
  | .ret a, g => Q a g
  | .panic e, _ => E e
  | .op o k, g => L.legal g o ∧ ∀ r, L.answers g o r → Obeys L Q E (k r) (L.next g o r)

variable {L : Protocol Op Res Γ} {Q : α → Γ → Prop} {E : ε → Prop} {g : Γ}

@[simp] theorem obeys_bind {c : Code Op Res ε β} {f : β → Code Op Res ε α} :
    Obeys L Q E (c >>= f) g ↔ Obeys L (fun b g' => Obeys L Q E (f b) g') E c g := by
  change Obeys L Q E (c.bind f) g ↔ _
  induction c generalizing g with
  | ret b => exact Iff.rfl
  | panic e => exact Iff.rfl
  | op o k ih =>
    rw [Code.bind, Obeys, Obeys]
    exact and_congr_right fun _ => forall_congr' fun r => imp_congr_right fun _ => ih r

theorem obeys_ite {p : Prop} [Decidable p] {c d : Code Op Res ε α} :
    Obeys L Q E (if p then c else d) g ↔ (p → Obeys L Q E c g) ∧ (¬p → Obeys L Q E d g) := by
  by_cases hp : p <;> simp [hp]

theorem Obeys.mono {c : Code Op Res ε α} {Q' : α → Γ → Prop} (h : Obeys L Q E c g)
    (hQ : ∀ a g', Q a g' → Q' a g') : Obeys L Q' E c g := by
  induction c generalizing g with
  | ret a => exact hQ a g h
  | panic e => exact h
  | op o k ih => exact ⟨h.1, fun r hr => ih r (h.2 r hr)⟩

end Obeys

/-! ## Any number of processes -/

/-- The shared state and the code each process has still to run. -/
structure Threads (P σ : Type) (Op : Type) (Res : Op → Type) (ε α : Type) where
  /-- The state all processes work on. -/
  shared : σ
  /-- What is left of the call each process is in. -/
  code : P → Code Op Res ε α

/-- What can happen next. -/
inductive Sched (P C : Type)
  /-- A process that is in no call makes one. -/
  | call (p : P) (c : C)
  /-- A process takes the next step of its call. -/
  | run (p : P)
  deriving DecidableEq

/-- A kernel: what an operation does, if it need not wait, and which calls there
are. -/
structure Kernel (P σ : Type) (Op : Type) (Res : Op → Type) (ε α C : Type) where
  sem : P → (o : Op) → σ → Option (Res o × σ)
  /-- The calls a process may make. -/
  may : σ → P → C → Bool
  body : C → Code Op Res ε α

section Threads

variable {P σ Op ε α C Γ : Type} {Res : Op → Type} [DecidableEq P] [Fintype P]

/-- One step; after a panic there is none. -/
def Kernel.step (K : Kernel P σ Op Res ε α C) (s : Threads P σ Op Res ε α) :
    Sched P C → Option (Threads P σ Op Res ε α)
  | .call p c =>
    if (∃ q, (s.code q).panicked = true) ∨ (s.code p).idle = false ∨
      K.may s.shared p c = false then none
    else some { s with code := update s.code p (K.body c) }
  | .run p =>
    if ∃ q, (s.code q).panicked = true then none
    else
      match s.code p with
      | .op o k => (K.sem p o s.shared).map fun r =>
        ⟨r.2, update s.code p (k r.1)⟩
      | _ => none

/-- All runs of the kernel from some states on. -/
def Kernel.system (K : Kernel P σ Op Res ε α C) (init : Threads P σ Op Res ε α → Prop) :
    Lts (Threads P σ Op Res ε α) (Sched P C) where
  init := init
  step := K.step

variable {K : Kernel P σ Op Res ε α C} {init : Threads P σ Op Res ε α → Prop}
  {ok : Threads P σ Op Res ε α → Sched P C → Prop} {s : Threads P σ Op Res ε α}

/-- Accounts for all processes that agree with the shared state, and from which
each process obeys the protocol until it is at rest. -/
structure Accounts (L : Protocol Op Res Γ) (Rest : Γ → Prop) (E : ε → Prop)
    (Inv : σ → (P → Γ) → Prop) (s : Threads P σ Op Res ε α) (G : P → Γ) : Prop where
  inv : Inv s.shared G
  obeys : ∀ p, Obeys L (fun _ g => Rest g) E (s.code p) (G p)

theorem obeys_of_idle {L : Protocol Op Res Γ} {Q : α → Γ → Prop} {E : ε → Prop}
    {c : Code Op Res ε α} {g : Γ} (hc : c.idle = true) (hQ : ∀ a, Q a g) : Obeys L Q E c g := by
  cases c with
  | ret a => exact hQ a
  | _ => simp [Code.idle] at hc

theorem rest_of_idle {L : Protocol Op Res Γ} {Rest : Γ → Prop} {E : ε → Prop}
    {c : Code Op Res ε α} {g : Γ} (h : Obeys L (fun _ g => Rest g) E c g)
    (hc : c.idle = true) : Rest g := by
  cases c with
  | ret a => exact h
  | _ => simp [Code.idle] at hc

theorem exists_accounts_of_step (L : Protocol Op Res Γ) (Rest : Γ → Prop) (E : ε → Prop)
    (Inv : σ → (P → Γ) → Prop)
    (hinit : ∀ s, init s → ∃ G, Inv s.shared G ∧ ∀ p, (s.code p).idle = true ∧ Rest (G p))
    (hop : ∀ s G p o k r t, Accounts L Rest E Inv s G → ok s (.run p) → s.code p = .op o k →
      L.legal (G p) o → K.sem p o s.shared = some (r, t) →
      L.answers (G p) o r ∧ ∃ G', Inv t G' ∧ G' p = L.next (G p) o r ∧
        ∀ q, q ≠ p → G' q = G q ∨ ((s.code q).idle = true ∧ Rest (G' q)))
    (hcall : ∀ σ G p c, Inv σ G → Rest (G p) → K.may σ p c = true →
      Obeys L (fun _ g => Rest g) E (K.body c) (G p))
    (h : (K.system init).Reach ok s) : ∃ G, Accounts L Rest E Inv s G := by
  refine h.invariant (I := fun s => ∃ G, Accounts L Rest E Inv s G) ?_ ?_
  · intro s hs
    obtain ⟨G, hG, hrest⟩ := hinit s hs
    exact ⟨G, hG, fun p => obeys_of_idle (hrest p).1 fun _ => (hrest p).2⟩
  · rintro s a t ⟨G, hG⟩ hok hst
    cases a with
    | call p c =>
      simp only [Kernel.system, Kernel.step] at hst
      split at hst
      · cases hst
      · rename_i hno
        obtain ⟨-, hno'⟩ := not_or.1 hno
        obtain ⟨hidle, hmay⟩ := not_or.1 hno'
        cases hst
        refine ⟨G, hG.inv, fun q => ?_⟩
        by_cases hq : q = p
        · subst hq
          have hrest : Rest (G q) := rest_of_idle (hG.obeys q) (by simpa using hidle)
          dsimp only
          rw [update_self]
          exact hcall _ G q c hG.inv hrest (by simpa using hmay)
        · dsimp only
          rw [update_of_ne hq]
          exact hG.obeys q
    | run p =>
      simp only [Kernel.system, Kernel.step] at hst
      split at hst
      · cases hst
      · split at hst
        · rename_i o k hc
          obtain ⟨⟨r, u⟩, hr, rfl⟩ := Option.map_eq_some_iff.1 hst
          have hob := hG.obeys p
          rw [hc] at hob
          obtain ⟨hans, G', hinv, hself, hother⟩ := hop s G p o k r u hG hok hc hob.1 hr
          refine ⟨G', hinv, fun q => ?_⟩
          by_cases hq : q = p
          · subst hq
            dsimp only
            rw [update_self, hself]
            exact hob.2 r hans
          · dsimp only
            rw [update_of_ne hq]
            rcases hother q hq with heq | ⟨hidle, hrest⟩
            · rw [heq]
              exact hG.obeys q
            · exact obeys_of_idle hidle fun _ => hrest
        · cases hst

theorem exists_accounts (L : Protocol Op Res Γ) (Rest : Γ → Prop) (E : ε → Prop)
    (Inv : σ → (P → Γ) → Prop)
    (hinit : ∀ s, init s → ∃ G, Inv s.shared G ∧ ∀ p, (s.code p).idle = true ∧ Rest (G p))
    (hop : ∀ s G p o k r t, Accounts L Rest E Inv s G → ok s (.run p) → s.code p = .op o k →
      L.legal (G p) o → K.sem p o s.shared = some (r, t) →
      L.answers (G p) o r ∧ Inv t (update G p (L.next (G p) o r)))
    (hcall : ∀ σ G p c, Inv σ G → Rest (G p) → K.may σ p c = true →
      Obeys L (fun _ g => Rest g) E (K.body c) (G p))
    (h : (K.system init).Reach ok s) : ∃ G, Accounts L Rest E Inv s G := by
  refine exists_accounts_of_step L Rest E Inv hinit ?_ hcall h
  intro s G p o k r t hG hok hc hl hr
  obtain ⟨hans, hinv⟩ := hop s G p o k r t hG hok hc hl hr
  exact ⟨hans, _, hinv, update_self .., fun q hq => .inl (update_of_ne hq _ _)⟩

end Threads

end Xv6.Lib
