import Mathlib

/-!
# The matcher of `grep`

`match`, `matchhere` and `matchstar` of `grep.c`.  A C string is the list of the bytes before its
NUL, so that the end of a list is the NUL.

* `parse` reads a pattern as a list of items, `Item.lang` says what an item stands for.
* `matchhere_iff` — `matchhere` finds a prefix in the language of the pattern.
* `match_iff_language` — `match` finds a substring in it.
-/

namespace Xv6.Grep

open List

open scoped Computability

def dot : UInt8 := 46

def star : UInt8 := 42

def dollar : UInt8 := 36

def caret : UInt8 := 94

/-! ## The code -/

/-- `matchstar`, where `here` is `matchhere` of the rest of the pattern. -/
def matchstar (here : List UInt8 → Bool) (c : UInt8) : List UInt8 → Bool
  | [] => here []
  | a :: text =>
    if here (a :: text) then true
    else if a = c ∨ c = dot then matchstar here c text
    else false

/-- The last two lines of `matchhere`, for a first character `x` of the pattern. -/
def matchone (here : List UInt8 → Bool) (x : UInt8) : List UInt8 → Bool
  | [] => false
  | a :: text => if x = dot ∨ x = a then here text else false

/-- `matchhere`: search for `re` at the beginning of the text. -/
def matchhere : List UInt8 → List UInt8 → Bool
  | [], _ => true
  | [x], text =>
    if x = dollar then text = [] else matchone (matchhere []) x text
  | x :: y :: re, text =>
    if y = star then matchstar (matchhere re) x text else matchone (matchhere (y :: re)) x text

/-- The loop of `match`, which looks at the empty string too. -/
def matchAnywhere (re : List UInt8) : List UInt8 → Bool
  | [] => matchhere re []
  | a :: text => if matchhere re (a :: text) then true else matchAnywhere re text

def «match» : List UInt8 → List UInt8 → Bool
  | [], text => matchAnywhere [] text
  | x :: re, text => if x = caret then matchhere re text else matchAnywhere (x :: re) text

/-! ## What a pattern stands for -/

/-- An item of a pattern. -/
inductive Item
  /-- The character, or any if it is a dot. -/
  | one (x : UInt8)
  | many (x : UInt8)
deriving DecidableEq, Repr

/-- A pattern from left to right: its items, and whether the end anchor is behind them. -/
def parse : List UInt8 → List Item × Bool
  | [] => ([], false)
  | [x] => if x = dollar then ([], true) else ([.one x], false)
  | x :: y :: re =>
    if y = star then (.many x :: (parse re).1, (parse re).2)
    else (.one x :: (parse (y :: re)).1, (parse (y :: re)).2)

/-- The texts of one character that `x` stands for. -/
def single (x : UInt8) : Language UInt8 := {w | ∃ a, w = [a] ∧ (x = dot ∨ x = a)}

def Item.lang : Item → Language UInt8
  | .one x => single x
  | .many x => (single x)∗

/-- The language of a pattern, without its anchors. -/
def language (items : List Item) : Language UInt8 := (items.map Item.lang).prod

/-! ## `matchhere` -/

/-- The text begins with a word of the language, and is all of it if there is an end anchor. -/
def Begins (p : List Item × Bool) (text : List UInt8) : Prop :=
  ∃ w post, text = w ++ post ∧ w ∈ language p.1 ∧ (p.2 = true → post = [])

variable {text : List UInt8} {p : List Item × Bool} {x : UInt8}

theorem begins_nil : Begins ([], false) text :=
  ⟨[], text, rfl, Language.nil_mem_one, fun h => nomatch h⟩

theorem begins_anchor : Begins ([], true) text ↔ text = [] := by
  constructor
  · rintro ⟨w, post, rfl, hw, hpost⟩
    rw [hpost rfl, (Language.mem_one w).1 hw]
    rfl
  · rintro rfl
    exact ⟨[], [], rfl, Language.nil_mem_one, fun _ => rfl⟩

theorem begins_cons {i : Item} :
    Begins (i :: p.1, p.2) text ↔ ∃ u rest, text = u ++ rest ∧ u ∈ i.lang ∧ Begins p rest := by
  constructor
  · rintro ⟨w, post, rfl, hw, hpost⟩
    rw [language, map_cons, prod_cons] at hw
    obtain ⟨u, hu, v, hv, rfl⟩ := Language.mem_mul.1 hw
    exact ⟨u, v ++ post, append_assoc u v post, hu, v, post, rfl, hv, hpost⟩
  · rintro ⟨u, rest, rfl, hu, v, post, rfl, hv, hpost⟩
    refine ⟨u ++ v, post, (append_assoc u v post).symm, ?_, hpost⟩
    rw [language, map_cons, prod_cons]
    exact Language.append_mem_mul hu hv

theorem begins_one :
    Begins (.one x :: p.1, p.2) text ↔
      ∃ a rest, text = a :: rest ∧ (x = dot ∨ x = a) ∧ Begins p rest := by
  rw [begins_cons]
  constructor
  · rintro ⟨u, rest, rfl, ⟨a, rfl, ha⟩, hrest⟩
    exact ⟨a, rest, rfl, ha, hrest⟩
  · rintro ⟨a, rest, rfl, ha, hrest⟩
    exact ⟨[a], rest, rfl, ⟨a, rfl, ha⟩, hrest⟩

theorem mem_many {u : List UInt8} :
    u ∈ (single x)∗ ↔ u = [] ∨ ∃ a v, u = a :: v ∧ (x = dot ∨ x = a) ∧ v ∈ (single x)∗ := by
  have hunfold : (single x)∗ = 1 + single x * (single x)∗ :=
    (Language.one_add_self_mul_kstar_eq_kstar _).symm
  constructor
  · intro hu
    rw [hunfold] at hu
    obtain hone | hmul := (Language.mem_add _ _ _).1 hu
    · exact .inl ((Language.mem_one u).1 hone)
    · obtain ⟨s, ⟨a, rfl, ha⟩, v, hv, rfl⟩ := Language.mem_mul.1 hmul
      exact .inr ⟨a, v, rfl, ha, hv⟩
  · rintro (rfl | ⟨a, v, rfl, ha, hv⟩)
    · exact Language.nil_mem_kstar _
    · have hfirst : [a] ∈ single x := ⟨a, rfl, ha⟩
      rw [hunfold]
      exact (Language.mem_add _ _ _).2 (.inr (Language.append_mem_mul hfirst hv))

theorem begins_many :
    Begins (.many x :: p.1, p.2) text ↔
      Begins p text ∨ ∃ a rest, text = a :: rest ∧ (x = dot ∨ x = a) ∧
        Begins (.many x :: p.1, p.2) rest := by
  rw [begins_cons]
  constructor
  · rintro ⟨u, rest, rfl, hu, hrest⟩
    obtain rfl | ⟨a, v, rfl, ha, hv⟩ := mem_many.1 hu
    · exact .inl hrest
    · exact .inr ⟨a, v ++ rest, rfl, ha, begins_cons.2 ⟨v, rest, rfl, hv, hrest⟩⟩
  · rintro (h | ⟨a, rest, rfl, ha, h⟩)
    · exact ⟨[], text, rfl, Language.nil_mem_kstar _, h⟩
    · obtain ⟨v, rest, rfl, hv, hrest⟩ := begins_cons.1 h
      exact ⟨a :: v, rest, rfl, mem_many.2 (.inr ⟨a, v, rfl, ha, hv⟩), hrest⟩

theorem matchstar_iff {here : List UInt8 → Bool} (x : UInt8)
    (hhere : ∀ text, here text = true ↔ Begins p text) (text : List UInt8) :
    matchstar here x text = true ↔ Begins (.many x :: p.1, p.2) text := by
  induction text with
  | nil =>
    rw [matchstar, hhere, begins_many]
    constructor
    · exact .inl
    · rintro (h | ⟨a, rest, h, -⟩)
      · exact h
      · exact nomatch h
  | cons a text ih =>
    rw [matchstar, begins_many, ← hhere]
    by_cases h : here (a :: text) = true
    · rw [if_pos h]
      exact ⟨fun _ => .inl h, fun _ => rfl⟩
    rw [if_neg h]
    by_cases ha : a = x ∨ x = dot
    · rw [if_pos ha, ih]
      refine ⟨fun hb => .inr ⟨a, text, rfl, ha.symm.imp id Eq.symm, hb⟩, ?_⟩
      rintro (h' | ⟨b, rest, hcons, -, hb⟩)
      · exact absurd h' h
      · rw [(List.cons.inj hcons).2]
        exact hb
    · rw [if_neg ha]
      refine ⟨fun hf => absurd hf Bool.false_ne_true, ?_⟩
      rintro (h' | ⟨b, rest, hcons, hb, -⟩)
      · exact absurd h' h
      · rw [(List.cons.inj hcons).1] at ha
        exact absurd (hb.symm.imp Eq.symm id) ha

theorem matchone_iff {here : List UInt8 → Bool} (x : UInt8)
    (hhere : ∀ text, here text = true ↔ Begins p text) (text : List UInt8) :
    matchone here x text = true ↔ Begins (.one x :: p.1, p.2) text := by
  rw [begins_one]
  cases text with
  | nil =>
    refine ⟨fun h => absurd h Bool.false_ne_true, ?_⟩
    rintro ⟨a, rest, h, -⟩
    exact nomatch h
  | cons a text =>
    rw [matchone]
    by_cases ha : x = dot ∨ x = a
    · rw [if_pos ha, hhere]
      refine ⟨fun h => ⟨a, text, rfl, ha, h⟩, ?_⟩
      rintro ⟨b, rest, hcons, -, h⟩
      rw [(List.cons.inj hcons).2]
      exact h
    · rw [if_neg ha]
      refine ⟨fun h => absurd h Bool.false_ne_true, ?_⟩
      rintro ⟨b, rest, hcons, hb, -⟩
      rw [(List.cons.inj hcons).1] at ha
      exact absurd hb ha

theorem matchhere_iff (re : List UInt8) : ∀ text,
    matchhere re text = true ↔ Begins (parse re) text := by
  -- The recursion of the code: one item of the pattern is read at a time.
  induction re using parse.induct with
  | case1 =>
    intro text
    rw [matchhere, parse]
    exact ⟨fun _ => begins_nil, fun _ => rfl⟩
  | case2 =>
    intro text
    rw [matchhere, parse, if_pos rfl, if_pos rfl, begins_anchor]
    exact decide_eq_true_iff
  | case3 x hx =>
    intro text
    have hend : ([.one x], false) = (.one x :: (parse []).1, (parse []).2) := rfl
    rw [matchhere, parse, if_neg hx, if_neg hx, hend]
    exact matchone_iff x (fun rest => ⟨fun _ => begins_nil, fun _ => rfl⟩) text
  | case4 x re ih =>
    intro text
    rw [matchhere, parse, if_pos rfl, if_pos rfl]
    exact matchstar_iff x ih text
  | case5 x y re hy ih =>
    intro text
    rw [matchhere, parse, if_neg hy, if_neg hy]
    exact matchone_iff x ih text

/-! ## `match` -/

theorem matchAnywhere_iff (re text : List UInt8) : matchAnywhere re text = true ↔
    ∃ pre rest, text = pre ++ rest ∧ Begins (parse re) rest := by
  induction text with
  | nil =>
    rw [matchAnywhere, matchhere_iff]
    refine ⟨fun h => ⟨[], [], rfl, h⟩, ?_⟩
    rintro ⟨pre, rest, hsplit, h⟩
    rw [(append_eq_nil_iff.1 hsplit.symm).2] at h
    exact h
  | cons a text ih =>
    rw [matchAnywhere]
    by_cases h : matchhere re (a :: text) = true
    · rw [if_pos h]
      exact ⟨fun _ => ⟨[], a :: text, rfl, (matchhere_iff re _).1 h⟩, fun _ => rfl⟩
    rw [if_neg h, ih]
    constructor
    · rintro ⟨pre, rest, rfl, hrest⟩
      exact ⟨a :: pre, rest, rfl, hrest⟩
    · rintro ⟨pre, rest, hsplit, hrest⟩
      -- The pattern does not match at the front, so the substring starts behind `a`.
      cases pre with
      | nil =>
        rw [nil_append] at hsplit
        rw [← hsplit] at hrest
        exact absurd ((matchhere_iff re _).2 hrest) h
      | cons b pre =>
        obtain ⟨-, htext⟩ := List.cons.inj hsplit
        exact ⟨pre, rest, htext, hrest⟩

/-- The pattern begins with `^`. -/
def anchored (re : List UInt8) : Bool := re.head? = some caret

/-- The pattern without a leading `^`. -/
def body (re : List UInt8) : List UInt8 := if anchored re then re.tail else re

/-- **The matcher is sound and complete**: `match` says yes if and only if some substring of the
text is in the language of the pattern, a prefix if the pattern begins with `^` and a suffix if it
has the end anchor. -/
theorem match_iff_language (re text : List UInt8) : «match» re text = true ↔
    ∃ pre w post, text = pre ++ w ++ post ∧ w ∈ language (parse (body re)).1 ∧
      (anchored re = true → pre = []) ∧ ((parse (body re)).2 = true → post = []) := by
  have hfree : anchored re = false → (matchAnywhere re text = true ↔
      ∃ pre w post, text = pre ++ w ++ post ∧ w ∈ language (parse re).1 ∧
        (anchored re = true → pre = []) ∧ ((parse re).2 = true → post = [])) := by
    intro hre
    rw [matchAnywhere_iff, hre]
    constructor
    · rintro ⟨pre, rest, rfl, w, post, rfl, hw, hpost⟩
      exact ⟨pre, w, post, (append_assoc ..).symm, hw,
        fun h => absurd h Bool.false_ne_true, hpost⟩
    · rintro ⟨pre, w, post, rfl, hw, -, hpost⟩
      exact ⟨pre, w ++ post, append_assoc .., w, post, rfl, hw, hpost⟩
  cases re with
  | nil => exact hfree rfl
  | cons x re =>
    rw [«match»]
    by_cases hx : x = caret
    · have hanch : anchored (x :: re) = true := by
        rw [anchored, hx]
        rfl
      have hbody : body (x :: re) = re := by
        rw [body, if_pos hanch]
        rfl
      rw [if_pos hx, matchhere_iff, hanch, hbody]
      constructor
      · rintro ⟨w, post, rfl, hw, hpost⟩
        exact ⟨[], w, post, rfl, hw, fun _ => rfl, hpost⟩
      · rintro ⟨pre, w, post, rfl, hw, hpre, hpost⟩
        rw [hpre rfl]
        exact ⟨w, post, rfl, hw, hpost⟩
    · have hanch : anchored (x :: re) = false := by
        simp [anchored, hx]
      have hbody : body (x :: re) = x :: re := by
        rw [body, hanch]
        rfl
      rw [if_neg hx, hbody]
      exact hfree hanch

-- `a.*b$` finds the end of `xaabb`; `^` and `*` are themselves where they are no operators.
example : «match» [97, dot, star, 98, dollar] [120, 97, 97, 98, 98] = true := by decide
example : «match» [star, caret] [97, star, caret] = true := by decide

end Xv6.Grep
