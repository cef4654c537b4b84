import Xv6.Fs.Directory

/-!
# The pieces of a path

`skipelem` takes the next piece off a path.  The pieces of a path are what is between its slashes,
without the empty ones.

* `skipelem_none`, `skipelem_some` — one call takes one piece.
* `elems_eq` — repeated calls take all of them, in order, each cut to the length of a name.
* `pieces_double`, `pieces_trailing` — more slashes do not matter.
-/

namespace Xv6.Fs

open List

variable {path path' name name' w p q : List UInt8}

def slash : UInt8 := 47

/-- A piece in the buffer `name`: cut to `DIRSIZ` bytes, or with a NUL after it. -/
def cut (w name : List UInt8) : List UInt8 :=
  if DIRSIZ ≤ w.length then w.take DIRSIZ else w ++ 0 :: name.drop (w.length + 1)

/-- `skipelem`: the rest of the path and what is in `name`, or `none` if there is no piece left.  The
path is the string up to its NUL. -/
def skipelem (path name : List UInt8) : Option (List UInt8 × List UInt8) :=
  let path := path.dropWhile (· == slash)
  if path = [] then none
  else some ((path.dropWhile (· != slash)).dropWhile (· == slash),
    cut (path.takeWhile (· != slash)) name)

/-! ## Pieces -/

/-- The non-empty pieces between the slashes. -/
def pieces (path : List UInt8) : List (List UInt8) :=
  (path.splitOnP (· == slash)).filter (· ≠ [])

theorem pieces_nil : pieces [] = [] := rfl

theorem pieces_slash (p : List UInt8) : pieces (slash :: p) = pieces p := by
  rw [pieces, splitOnP_cons_eq_if_modifyHead, if_pos (beq_self_eq_true slash)]
  rfl

theorem splitOnP_last (hw : slash ∉ w) : w.splitOnP (· == slash) = [w] := by
  induction w with
  | nil => rfl
  | cons a w ih =>
    rw [mem_cons, not_or] at hw
    rw [splitOnP_cons_eq_if_modifyHead, ih hw.2, if_neg (by simpa using Ne.symm hw.1)]
    rfl

theorem pieces_append (p q : List UInt8) : pieces (p ++ slash :: q) = pieces p ++ pieces q := by
  have hsplit : (p ++ slash :: q).splitOnP (· == slash) =
      p.splitOnP (· == slash) ++ q.splitOnP (· == slash) := by
    induction p with
    | nil => rw [nil_append, splitOnP_cons_eq_if_modifyHead,
        if_pos (beq_self_eq_true slash), splitOnP_nil, singleton_append]
    | cons a p ih =>
      rw [cons_append, splitOnP_cons_eq_if_modifyHead, ih,
        splitOnP_cons_eq_if_modifyHead]
      split
      · rfl
      · cases hp : p.splitOnP (· == slash) with
        | nil => exact absurd hp (splitOnP_ne_nil _ _)
        | cons v vs => rfl
  rw [pieces, hsplit, filter_append]
  rfl

theorem pieces_last (hw : slash ∉ w) (hne : w ≠ []) : pieces w = [w] := by
  rw [pieces, splitOnP_last hw, filter_cons_of_pos (by simpa using hne), filter_nil]

theorem pieces_word (hw : slash ∉ w) (hne : w ≠ []) (q : List UInt8) :
    pieces (w ++ slash :: q) = w :: pieces q := by
  rw [pieces_append, pieces_last hw hne, singleton_append]

theorem pieces_dropSlashes (p : List UInt8) : pieces (p.dropWhile (· == slash)) = pieces p := by
  induction p with
  | nil => rfl
  | cons a p ih =>
    by_cases ha : a = slash
    · rw [ha, dropWhile_cons_of_pos (by simp), ih, pieces_slash]
    · rw [dropWhile_cons_of_neg (by simpa using ha)]

theorem piece_cases (h : ∀ a q, path = a :: q → a ≠ slash) :
    path = [] ∨ ∃ w, w = path.takeWhile (· != slash) ∧ w ≠ [] ∧ slash ∉ w ∧
      (path = w ∧ path.dropWhile (· != slash) = [] ∨
        ∃ q, path = w ++ slash :: q ∧ path.dropWhile (· != slash) = slash :: q) := by
  cases hp : path with
  | nil => exact .inl rfl
  | cons a q =>
    have ha := h a q hp
    refine .inr ⟨_, rfl, ?_, ?_, ?_⟩
    · rw [takeWhile_cons_of_pos (by simpa using ha)]
      exact cons_ne_nil _ _
    · intro hmem
      exact absurd (mem_takeWhile_imp hmem) (by simp)
    · have hsplit := takeWhile_append_dropWhile (p := fun c => c != slash) (l := a :: q)
      cases hd : (a :: q).dropWhile (· != slash) with
      | nil =>
        rw [hd, append_nil] at hsplit
        exact .inl ⟨hsplit.symm, rfl⟩
      | cons b r =>
        have hb : b = slash := by
          have hnot := head_dropWhile_not (fun c => c != slash) (l := a :: q) (by rw [hd]; simp)
          simp only [hd, head_cons] at hnot
          simpa using hnot
        rw [hd, hb] at hsplit
        exact .inr ⟨r, hsplit.symm, by rw [hb]⟩

theorem head_dropSlashes (path : List UInt8) :
    ∀ a q, path.dropWhile (· == slash) = a :: q → a ≠ slash := by
  intro a q h
  have hnot := head_dropWhile_not (fun c => c == slash) (l := path) (by rw [h]; simp)
  simp only [h, head_cons] at hnot
  simpa using hnot

theorem pieces_eq_nil_iff (h : ∀ a q, path = a :: q → a ≠ slash) : pieces path = [] ↔ path = [] := by
  obtain rfl | ⟨w, -, hne, hw, ⟨hpath, -⟩ | ⟨q, hpath, -⟩⟩ := piece_cases h
  · exact iff_of_true rfl rfl
  · rw [hpath, pieces_last hw hne]
    exact iff_of_false (cons_ne_nil _ _) hne
  · rw [hpath, pieces_word hw hne]
    exact iff_of_false (cons_ne_nil _ _) (by simp)

/-! ## `skipelem` -/

theorem skipelem_none : skipelem path name = none ↔ pieces path = [] := by
  rw [← pieces_dropSlashes, pieces_eq_nil_iff (head_dropSlashes path), skipelem]
  simp

theorem skipelem_some (h : skipelem path name = some (path', name')) :
    ∃ w, pieces path = w :: pieces path' ∧ name' = cut w name ∧
      (path' = [] ↔ pieces path' = []) ∧ path'.length < path.length ∧ path' ⊆ path := by
  rw [skipelem] at h
  split at h
  · cases h
  · rename_i hne
    cases h
    have hlen : (path.dropWhile (· == slash)).length ≤ path.length :=
      (dropWhile_suffix _).length_le
    have hrest : (((path.dropWhile (· == slash)).dropWhile (· != slash)).dropWhile
        (· == slash)).length ≤ ((path.dropWhile (· == slash)).dropWhile (· != slash)).length :=
      (dropWhile_suffix _).length_le
    obtain hnil | ⟨w, hw, hwne, hslash, hcases⟩ := piece_cases (head_dropSlashes path)
    · exact absurd hnil hne
    · refine ⟨w, ?_, by rw [hw], (pieces_eq_nil_iff (head_dropSlashes _)).symm, ?_, ?_⟩
      · rw [pieces_dropSlashes, ← pieces_dropSlashes path]
        obtain ⟨hpath, hd⟩ | ⟨q, hpath, hd⟩ := hcases
        · rw [hd, hpath, pieces_last hslash hwne, pieces_nil]
        · rw [hd, hpath, pieces_word hslash hwne, pieces_slash]
      · have hpos := length_pos_of_ne_nil hwne
        obtain ⟨hpath, hd⟩ | ⟨q, hpath, hd⟩ := hcases
        · rw [hd] at hrest ⊢
          have := congrArg List.length hpath
          rw [length_nil] at hrest
          omega
        · rw [hd] at hrest ⊢
          have := congrArg List.length hpath
          rw [length_append] at this
          omega
      · exact ((dropWhile_suffix _).trans ((dropWhile_suffix _).trans
          (dropWhile_suffix _))).subset

theorem mem_of_mem_splitOnP {f : UInt8 → Bool} {a : UInt8} (ha : a ∈ w) :
    w ∈ path.splitOnP f → a ∈ path := by
  induction path generalizing w with
  | nil =>
    intro hw
    rw [splitOnP_nil, mem_singleton] at hw
    rw [hw] at ha
    exact ha
  | cons x path ih =>
    intro hw
    rw [splitOnP_cons_eq_if_modifyHead] at hw
    split at hw
    · obtain rfl | hw := mem_cons.1 hw
      · exact absurd ha not_mem_nil
      · exact mem_cons_of_mem _ (ih ha hw)
    · cases hs : path.splitOnP f with
      | nil =>
        rw [hs] at hw
        exact absurd hw not_mem_nil
      | cons v vs =>
        rw [hs, modifyHead_cons] at hw
        obtain rfl | hw := mem_cons.1 hw
        · obtain rfl | ha := mem_cons.1 ha
          · exact mem_cons_self
          · exact mem_cons_of_mem _ (ih ha (hs ▸ mem_cons_self))
        · exact mem_cons_of_mem _ (ih ha (hs ▸ mem_cons_of_mem _ hw))

theorem not_mem_pieces {a : UInt8} (h : a ∉ path) (hw : w ∈ pieces path) : a ∉ w :=
  fun ha => h (mem_of_mem_splitOnP ha (mem_of_mem_filter hw))

/-- What comes out in `name`, one call of `skipelem` after the other. -/
def elems (path name : List UInt8) : List (List UInt8) :=
  match h : skipelem path name with
  | none => []
  | some (path', name') => nameOf name' :: elems path' name'
termination_by path.length
decreasing_by
  obtain ⟨-, -, -, -, hlt, -⟩ := skipelem_some h
  exact hlt

theorem upTo_of_not_mem {n : ℕ} (h : 0 ∉ w) : upTo n w = w.take n := by
  refine takeWhile_eq_self_iff.2 fun a ha => ?_
  simpa using fun h0 : a = 0 => h (h0 ▸ mem_of_mem_take ha)

theorem nameOf_cut (h : 0 ∉ w) (name : List UInt8) : nameOf (cut w name) = w.take DIRSIZ := by
  rw [nameOf, cut]
  by_cases hlen : DIRSIZ ≤ w.length
  · rw [if_pos hlen, upTo_of_not_mem fun hm => h (mem_of_mem_take hm), take_take,
      min_self]
  · have hall : ∀ a ∈ w, (fun a => decide (a ≠ 0)) a = true := fun a ha => by
      simpa using fun h0 : a = 0 => h (h0 ▸ ha)
    obtain ⟨m, hm⟩ : ∃ m, DIRSIZ - w.length = m + 1 := ⟨DIRSIZ - w.length - 1, by omega⟩
    rw [if_neg hlen, upTo, take_append, take_of_length_le (by omega),
      takeWhile_append_of_pos hall, hm, take_succ_cons, takeWhile_cons_of_neg,
      append_nil]
    simp

theorem elems_eq (h0 : 0 ∉ path) (name : List UInt8) :
    elems path name = (pieces path).map (List.take DIRSIZ) := by
  induction hn : path.length using Nat.strong_induction_on generalizing path name with
  | _ n ih =>
    rw [elems]
    split
    · rename_i hs
      rw [skipelem_none.1 hs]
      rfl
    · rename_i path' name' hs
      obtain ⟨w, hpieces, hname, -, hlt, hsub⟩ := skipelem_some hs
      have hw : 0 ∉ w := not_mem_pieces h0 (hpieces ▸ mem_cons_self)
      rw [ih path'.length (hn ▸ hlt) (fun hz => h0 (hsub hz)) name' rfl, hpieces, map_cons,
        hname, nameOf_cut hw]

/-! ## More slashes -/

theorem pieces_double (p q : List UInt8) :
    pieces (p ++ slash :: slash :: q) = pieces (p ++ slash :: q) := by
  rw [pieces_append, pieces_slash, pieces_append]

theorem pieces_trailing (p : List UInt8) (k : ℕ) : pieces (p ++ List.replicate k slash) = pieces p := by
  have hslashes : ∀ k, pieces (List.replicate k slash) = [] := by
    intro k
    induction k with
    | zero => rfl
    | succ k ih => rw [replicate_succ, pieces_slash, ih]
  cases k with
  | zero => rw [replicate_zero, append_nil]
  | succ k => rw [replicate_succ, pieces_append, hslashes, append_nil]

end Xv6.Fs
