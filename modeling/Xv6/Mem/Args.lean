import Xv6.Mem.User

/-!
# The arguments of a new program

The part of `exec` that puts the arguments on the stack of the new image: the strings from
the top of the stack page downwards, each at a multiple of four, and below them the frame
that `main` finds.  Nothing but the guard page below the stack page limits their size.

* `Stack` — the new page directory when this part begins.
* `used` — the room the strings take; `places` — where they go.
* `exec_args` — the arguments are put on the stack if and only if they fit in the page.
-/

namespace Xv6.Mem

open List
open BitVec (eq_of_toNat_eq ofNat toNat_sub)

/-! ## The code -/

def MAXARG : ℕ := 32

def pushed (sp : Addr) (s : List UInt8) : Addr := (sp - ofNat 32 (s.length + 1)) &&& ~~~3#32

/-- The loop over `argv`; `ptrs` are the entries of `ustack` from 3 on, so their number is
`argc`.  A result other than `ok` is `goto bad`. -/
def pushArgs (pd : Pgdir) : List (List UInt8) → List Addr → Addr → Kmem →
    Ret × Kmem × Addr × List Addr
  | [], ptrs, sp, k => (.ok, k, sp, ptrs)
  | s :: argv, ptrs, sp, k =>
    if MAXARG ≤ ptrs.length then (.fail, k, sp, ptrs)
    else
      match copyout pd (pushed sp s) (s ++ [0]) k with
      | (.ok, k) => pushArgs pd argv (ptrs ++ [pushed sp s]) (pushed sp s) k
      | (r, k) => (r, k, pushed sp s, ptrs)

/-- The bytes of a word. -/
def wordBytes (w : Addr) : List UInt8 := (List.range 4).map fun j => UInt8.ofNat (w.toNat / 256 ^ j)

/-- `ustack`, with `argc` pointers. -/
def ustack (ptrs : List Addr) (sp : Addr) : List Addr :=
  [0xffffffff, ofNat 32 ptrs.length, sp - ofNat 32 ((ptrs.length + 1) * 4)] ++
    ptrs ++ [0]

/-- From `sp = sz` to the second `copyout`: the result, and the new `sp`. -/
def setupArgs (pd : Pgdir) (argv : List (List UInt8)) (sz : Addr) (k : Kmem) : Ret × Kmem × Addr :=
  match pushArgs pd argv [] sz k with
  | (.ok, k, sp, ptrs) =>
    let esp := sp - ofNat 32 ((3 + ptrs.length + 1) * 4)
    let (r, k) := copyout pd esp ((ustack ptrs sp).flatMap wordBytes) k
    (r, k, esp)
  | (r, k, sp, _) => (r, k, sp)

/-! ## What is there -/

/-- The new image of size `sz`: its last page is the stack, in frame `v`, and the one below
it the guard page. -/
structure Stack (pd : Pgdir) (sz : ℕ) (v : Page) : Prop where
  aligned : sz % 4096 = 0
  low : 2 * 4096 ≤ sz
  high : sz < 2147483648
  stack : ∀ a : Addr, sz - 4096 ≤ a.toNat → a.toNat < sz → userFrame pd a = some v
  guard : ∀ a : Addr, sz - 8192 ≤ a.toNat → a.toNat < sz - 4096 → userFrame pd a = none
  /-- All of the image has page tables. -/
  tables : ∀ a : Addr, a.toNat < sz → pd.pde (PDX (pageOf a)) ≠ none
  /-- The kernel half is not for users, and the last page of it is mapped. -/
  kernel : ∀ a : Addr, 2147483648 ≤ a.toNat → userFrame pd a = none
  device : pd.pde (PDX (pageOf 0xffffffff)) ≠ none

/-- The next multiple of four. -/
def align (n : ℕ) : ℕ := (n + 3) / 4 * 4

/-- The room the strings take. -/
def used (argv : List (List UInt8)) : ℕ := (argv.map fun s => align (s.length + 1)).sum

/-- Where the strings go, below `sp`. -/
def places : ℕ → List (List UInt8) → List ℕ
  | _, [] => []
  | sp, s :: argv => (sp - align (s.length + 1)) :: places (sp - align (s.length + 1)) argv

/-- Memory with the strings below `sp` in the page `v`, which begins at `top`. -/
def stored (v : Page) (top : ℕ) : ℕ → List (List UInt8) → Kmem → Kmem
  | _, [], k => k
  | sp, s :: argv, k =>
    stored v top (sp - align (s.length + 1)) argv
      (k.store v (sp - align (s.length + 1) - top) (s ++ [0]))

/-- The user memory at `va`. -/
def Holds (pd : Pgdir) (k : Kmem) (va : ℕ) (bytes : List UInt8) : Prop :=
  ∀ i (h : i < bytes.length),
    (userFrame pd (ofNat 32 (va + i))).map (fun v => k.mem v (offOf (ofNat 32 (va + i))))
      = some bytes[i]

/-! ## Addresses -/

variable {pd : Pgdir} {sz sp p : ℕ} {v : Page} {k : Kmem} {src s : List UInt8}
  {argv : List (List UInt8)}

theorem used_cons : used (s :: argv) = align (s.length + 1) + used argv := by
  rw [used, map_cons, sum_cons, used]

theorem toNat_ofNat_lt {n : ℕ} (h : n < 4294967296) : (ofNat 32 n : Addr).toNat = n := by
  rw [BitVec.toNat_ofNat]
  exact Nat.mod_eq_of_lt h

theorem after_ofNat (n i : ℕ) : after (ofNat 32 n) i = ofNat 32 (n + i) := by
  rw [after, BitVec.ofNat_add]

theorem and_not_three (x : Addr) : (x &&& ~~~3#32).toNat = x.toNat / 4 * 4 := by
  have hshift : x &&& ~~~3#32 = (x >>> 2) <<< 2 := by
    ext i hi
    interval_cases i <;> simp
  have hlt := x.isLt
  rw [hshift, BitVec.toNat_shiftLeft, BitVec.toNat_ushiftRight, Nat.shiftRight_eq_div_pow,
    Nat.shiftLeft_eq]
  omega

theorem toNat_pushed (hsp : sp < 4294967296) (h4 : sp % 4 = 0) (hs : s.length + 1 < 4294967296) :
    (pushed (ofNat 32 sp) s).toNat =
      if align (s.length + 1) ≤ sp then sp - align (s.length + 1)
      else 4294967296 + sp - align (s.length + 1) := by
  rw [pushed, and_not_three, toNat_sub, toNat_ofNat_lt hsp, toNat_ofNat_lt hs]
  by_cases hle : align (s.length + 1) ≤ sp
  · rw [if_pos hle]
    rw [align] at hle ⊢
    omega
  · rw [if_neg hle]
    rw [align] at hle ⊢
    omega

/-! ## Copying to the stack page -/

theorem Stack.copyout_top (h : Stack pd sz v) (src : List UInt8) (hlow : sz - 4096 ≤ p)
    (hhigh : p + src.length ≤ sz) :
    copyout pd (ofNat 32 p) src k = (.ok, k.store v (p - (sz - 4096)) src) ∨
      src.length = 0 := by
  by_cases h0 : src.length = 0
  · exact .inr h0
  left
  have hsz := h.high
  have hal := h.aligned
  have hp : (ofNat 32 p : Addr).toNat = p := toNat_ofNat_lt (by omega)
  have huva : uva2ka pd (pageOf (ofNat 32 p)) = .page v :=
    uva2ka_page.2 (h.stack _ (by omega) (by omega))
  have hoff : (offOf (ofNat 32 p)).val = p - (sz - 4096) := by
    rw [val_offOf, hp]
    omega
  have hn : min (PGSIZE - (offOf (ofNat 32 p)).val) src.length = src.length := by
    have hsize : PGSIZE = 4096 := rfl
    rw [hoff]
    omega
  obtain ⟨n, hn'⟩ := Nat.exists_eq_succ_of_ne_zero h0
  rw [copyout, hn', copyoutLoop, if_neg h0, huva]
  dsimp only
  rw [hn, take_length, drop_length, hoff]
  cases n with
  | zero => rfl
  | succ n => rw [copyoutLoop, if_pos length_nil]

theorem copyout_ne_ok {va : Addr} (hlen : src.length < 4294967296) {i : ℕ} (hi : i < src.length)
    (hnone : userFrame pd (after va i) = none) : (copyout pd va src k).1 ≠ .ok := by
  intro hok
  have := (copyout_copied pd va k hlen).ok_iff.1 hok i hi
  rw [hnone] at this
  exact nomatch this

theorem Stack.copyout_below (h : Stack pd sz v) (src : List UInt8) (hlow : p < sz - 4096)
    (hpos : 0 < src.length) (hhigh : sz - 8192 < p + src.length) (hlen : src.length < 4294967296) :
    (copyout pd (ofNat 32 p) src k).1 ≠ .ok := by
  have hsz := h.high
  by_cases hp : sz - 8192 ≤ p
  · refine copyout_ne_ok hlen (i := 0) (by omega) ?_
    rw [after_ofNat]
    refine h.guard _ ?_ ?_ <;> rw [toNat_ofNat_lt (by omega)] <;> omega
  · refine copyout_ne_ok hlen (i := sz - 8192 - p) (by omega) ?_
    rw [after_ofNat]
    refine h.guard _ ?_ ?_ <;> rw [toNat_ofNat_lt (by omega)] <;> omega

theorem Stack.copyout_tame (h : Stack pd sz v) (hhigh : p + src.length ≤ sz) :
    (copyout pd (ofNat 32 p) src k).1 ≠ .wild := by
  have hsz := h.high
  refine (copyout_copied pd _ k (by omega)).tame.2 fun i hi _ => h.tables _ ?_
  rw [after_ofNat, toNat_ofNat_lt (by omega)]
  omega

theorem length_string (s : List UInt8) : (s ++ [0]).length = s.length + 1 := by
  rw [length_append, length_singleton]

theorem Stack.push_below (h : Stack pd sz v) (hsp : sz - 4096 ≤ sp) (hsp' : sp ≤ sz)
    (h4 : sp % 4 = 0) (hs : s.length + 1 < 4294967296)
    (hroom : sp - (sz - 4096) < align (s.length + 1)) :
    (copyout pd (pushed (ofNat 32 sp) s) (s ++ [0]) k).1 ≠ .ok ∧
      (align (s.length + 1) ≤ sp + 128 →
        (copyout pd (pushed (ofNat 32 sp) s) (s ++ [0]) k).1 ≠ .wild) := by
  have hsz := h.high
  have hlow := h.low
  have hlen := length_string s
  have hpushed := toNat_pushed (s := s) (show sp < 4294967296 by omega) h4 hs
  by_cases hwrap : align (s.length + 1) ≤ sp
  · rw [if_pos hwrap] at hpushed
    have haddr : pushed (ofNat 32 sp) s = ofNat 32 (sp - align (s.length + 1)) := by
      apply eq_of_toNat_eq
      rw [hpushed, toNat_ofNat_lt (by omega)]
    rw [haddr]
    rw [align] at *
    exact ⟨h.copyout_below (s ++ [0]) (by omega) (by omega) (by omega) (by omega),
      fun _ => h.copyout_tame (by omega)⟩
  · rw [if_neg hwrap] at hpushed
    -- the string reaches over the end of the address space
    rw [align] at *
    refine ⟨copyout_ne_ok (by omega)
      (i := 4294967295 - (pushed (ofNat 32 sp) s).toNat) (by omega) (h.kernel _ ?_),
      fun hclose => (copyout_copied pd _ k (by omega)).tame.2 fun i hi hbefore => ?_⟩
    · rw [toNat_after]
      omega
    · have hfirst : ∀ a : Addr, a.toNat = (pushed (ofNat 32 sp) s).toNat →
          userFrame pd a = none := fun a ha => h.kernel a (by omega)
      by_cases hi0 : i = 0
      · have hpage : pageOf (after (pushed (ofNat 32 sp) s) i) = pageOf 0xffffffff := by
          apply eq_of_toNat_eq
          rw [toNat_pageOf, toNat_pageOf, toNat_after, hi0]
          have hlast : (0xffffffff : Addr).toNat = 4294967295 := rfl
          rw [hlast]
          omega
        rw [hpage]
        exact h.device
      · have := hbefore 0 (by omega)
        rw [hfirst _ (by rw [toNat_after]; omega)] at this
        exact nomatch this

/-! ## The strings -/

theorem mem_stored_rest {top : ℕ} {w : Page} {j : Fin PGSIZE} : ∀ (argv : List (List UInt8)) {sp : ℕ}
    {k : Kmem}, top + used argv ≤ sp → (w ≠ v ∨ j.val < sp - used argv - top ∨ sp - top ≤ j.val) →
    (stored v top sp argv k).mem w j = k.mem w j := by
  intro argv
  induction argv with
  | nil => intro sp k _ _; rfl
  | cons s argv ih =>
    intro sp k hroom hout
    rw [used_cons] at hroom hout
    by_cases hw : w = v
    · have hout' := hout.resolve_left fun hne => hne hw
      rw [stored, ih (by omega) (.inr (by omega)), mem_store]
      right
      rw [length_string]
      simp only [align] at *
      omega
    · rw [stored, ih (by omega) (.inl hw), mem_store (.inl hw)]

theorem mem_stored {top : ℕ} : ∀ (argv : List (List UInt8)) {sp : ℕ} {k : Kmem},
    top + used argv ≤ sp → ∀ i (hi : i < argv.length) (hi' : i < (places sp argv).length) j
      (hj : j < (argv[i] ++ [0]).length) (o : Fin PGSIZE), o.val = (places sp argv)[i] - top + j →
    (stored v top sp argv k).mem v o = (argv[i] ++ [0])[j] := by
  intro argv
  induction argv with
  | nil => intro sp k _ i hi; exact absurd hi (Nat.not_lt_zero i)
  | cons s argv ih =>
    intro sp k hroom i hi hi' j hj o ho
    rw [used_cons] at hroom
    rw [stored]
    cases i with
    | zero =>
      change o.val = sp - align (s.length + 1) - top + j at ho
      rw [mem_stored_rest argv (by omega) (.inr (.inr (by omega)))]
      exact mem_store_of_lt hj ho
    | succ i => exact ih (by omega) i (by simpa using hi) (by simpa [places] using hi') j hj o ho

theorem Stack.pushArgs (h : Stack pd sz v) : ∀ (argv : List (List UInt8)) (ptrs : List Addr)
    (sp : ℕ) {k : Kmem}, sz - 4096 ≤ sp → sp ≤ sz → sp % 4 = 0 →
    ptrs.length + argv.length ≤ MAXARG → (∀ s ∈ argv, s.length + 1 < 4294967296) →
    if sz - 4096 + used argv ≤ sp then
      Mem.pushArgs pd argv ptrs (ofNat 32 sp) k =
        (.ok, stored v (sz - 4096) sp argv k, ofNat 32 (sp - used argv),
          ptrs ++ (places sp argv).map (ofNat 32))
    else (Mem.pushArgs pd argv ptrs (ofNat 32 sp) k).1 ≠ .ok ∧
      ((argv.map List.length).sum + 4 * argv.length ≤ sp + 128 →
        (Mem.pushArgs pd argv ptrs (ofNat 32 sp) k).1 ≠ .wild) := by
  intro argv
  induction argv with
  | nil =>
    intro ptrs sp k hlow hhigh _ _ _
    rw [if_pos (by simpa [used] using hlow)]
    simp [Mem.pushArgs, stored, used, places]
  | cons s argv ih =>
    intro ptrs sp k hlow hhigh h4 hargc hlens
    have hs := hlens s mem_cons_self
    have hsz := h.high
    have hcount : ptrs.length + (argv.length + 1) ≤ MAXARG := hargc
    have hlen := length_string s
    have hmax : ¬MAXARG ≤ ptrs.length := by omega
    rw [Mem.pushArgs, if_neg hmax, used_cons]
    by_cases hroom : align (s.length + 1) ≤ sp - (sz - 4096)
    · -- the string fits
      have haddr : pushed (ofNat 32 sp) s = ofNat 32 (sp - align (s.length + 1)) := by
        apply eq_of_toNat_eq
        rw [toNat_pushed (by omega) h4 hs, if_pos (by omega), toNat_ofNat_lt (by omega)]
      have hcopy : copyout pd (ofNat 32 (sp - align (s.length + 1))) (s ++ [0]) k =
          (.ok, k.store v (sp - align (s.length + 1) - (sz - 4096)) (s ++ [0])) := by
        refine (h.copyout_top (s ++ [0]) (by omega) ?_).resolve_right (by omega)
        rw [hlen]
        simp only [align] at *
        omega
      have hnext := ih (ptrs ++ [ofNat 32 (sp - align (s.length + 1))])
        (sp - align (s.length + 1))
        (k := k.store v (sp - align (s.length + 1) - (sz - 4096)) (s ++ [0])) (by omega) (by omega)
        (by simp only [align] at *; omega) (by simp; omega)
        fun t ht => hlens t (mem_cons_of_mem _ ht)
      rw [haddr, hcopy]
      by_cases hrest : sz - 4096 + (align (s.length + 1) + used argv) ≤ sp
      · rw [if_pos hrest]
        rw [if_pos (by omega)] at hnext
        dsimp only
        rw [hnext, stored, places, append_assoc,
          ← Nat.sub_sub sp (align (s.length + 1)) (used argv)]
        rfl
      · rw [if_neg hrest]
        rw [if_neg (by omega)] at hnext
        dsimp only
        refine ⟨hnext.1, fun htotal => hnext.2 ?_⟩
        simp only [map_cons, sum_cons, length_cons] at htotal
        simp only [align] at *
        omega
    · -- it does not
      obtain ⟨hok, hwild⟩ := h.push_below (s := s) (k := k) hlow hhigh h4 hs (by omega)
      rw [if_neg (by omega)]
      generalize hcopy : copyout pd (pushed (ofNat 32 sp) s) (s ++ [0]) k = r at hok hwild
      obtain ⟨r, k'⟩ := r
      cases r with
      | ok => exact absurd rfl hok
      | fail => exact ⟨nofun, fun _ => nofun⟩
      | wild =>
        refine ⟨nofun, fun htotal => hwild ?_⟩
        simp only [map_cons, sum_cons, length_cons] at htotal
        simp only [align] at *
        omega

/-! ## The frame -/

theorem length_ustack (ptrs : List Addr) (x : Addr) : (ustack ptrs x).length = ptrs.length + 4 := by
  simp [ustack]

theorem length_wordBytes (ws : List Addr) : (ws.flatMap wordBytes).length = 4 * ws.length := by
  induction ws with
  | nil => rfl
  | cons w ws ih =>
    rw [flatMap_cons, length_append, ih, wordBytes, length_map, length_range,
      length_cons]
    omega

theorem length_places : ∀ (argv : List (List UInt8)) (sp : ℕ), (places sp argv).length = argv.length := by
  intro argv
  induction argv with
  | nil => intro sp; rfl
  | cons s argv ih => intro sp; rw [places, length_cons, ih, length_cons]

theorem places_apart : ∀ (argv : List (List UInt8)) (sp : ℕ), used argv ≤ sp →
    (∀ i (h : i < argv.length) (h' : i < (places sp argv).length),
      sp - used argv ≤ (places sp argv)[i] ∧ (places sp argv)[i] + argv[i].length + 1 ≤ sp) ∧
    ∀ i j (hi : i < (places sp argv).length) (hj : j < (places sp argv).length)
      (hj' : j < argv.length), i < j →
      (places sp argv)[j] + argv[j].length + 1 ≤ (places sp argv)[i] := by
  intro argv
  induction argv with
  | nil =>
    intro sp _
    exact ⟨fun i h => absurd h (Nat.not_lt_zero i), fun i _ h => absurd h (Nat.not_lt_zero i)⟩
  | cons s argv ih =>
    intro sp hroom
    rw [used_cons] at hroom
    obtain ⟨hin, hapart⟩ := ih (sp - align (s.length + 1)) (by omega)
    have hal : s.length + 1 ≤ align (s.length + 1) := by
      rw [align]
      omega
    refine ⟨fun i hi hi' => ?_, fun i j hi hj hj' hij => ?_⟩
    · rw [used_cons]
      cases i with
      | zero =>
        change _ ≤ sp - align (s.length + 1) ∧ sp - align (s.length + 1) + s.length + 1 ≤ sp
        omega
      | succ i =>
        have := hin i (by simpa using hi) (by simpa [places] using hi')
        simp only [places, getElem_cons_succ]
        omega
    · obtain ⟨j, rfl⟩ := Nat.exists_eq_succ_of_ne_zero (show j ≠ 0 by omega)
      have hj₁ : j < argv.length := by simpa using hj'
      have hj₂ : j < (places (sp - align (s.length + 1)) argv).length := by simpa [places] using hj
      simp only [places, Nat.succ_eq_add_one, getElem_cons_succ]
      cases i with
      | zero =>
        have := hin j hj₁ hj₂
        rw [getElem_cons_zero]
        omega
      | succ i =>
        rw [getElem_cons_succ]
        exact hapart i j (by simpa [places] using hi) hj₂ hj₁ (by omega)

theorem Stack.holds (h : Stack pd sz v) {va : ℕ} {bytes : List UInt8} (hlow : sz - 4096 ≤ va)
    (hhigh : va + bytes.length ≤ sz)
    (hbytes : ∀ i (hi : i < bytes.length) (o : Fin PGSIZE), o.val = va - (sz - 4096) + i →
      k.mem v o = bytes[i]) : Holds pd k va bytes := by
  intro i hi
  have hsz := h.high
  have hal := h.aligned
  have hlow' := h.low
  have haddr : (ofNat 32 (va + i) : Addr).toNat = va + i := toNat_ofNat_lt (by omega)
  rw [h.stack _ (by omega) (by omega), Option.map_some, Option.some.injEq]
  refine hbytes i hi _ ?_
  rw [val_offOf, haddr]
  omega

/-! ## The result -/

/-- The image of the arguments: the frame at `esp`, then the strings. -/
structure Laid (pd : Pgdir) (argv : List (List UInt8)) (sz esp : ℕ) (k : Kmem) : Prop where
  /-- The fake return address, `argc`, the address of the next word, `argc` pointers and a
  final 0. -/
  frame : Holds pd k esp (([0xffffffff, ofNat 32 argv.length, ofNat 32 (esp + 12)] ++
    (places sz argv).map (ofNat 32) ++ [0]).flatMap wordBytes)
  /-- Every pointer addresses a copy of its argument, with the final 0. -/
  string : ∀ i (h : i < argv.length) (h' : i < (places sz argv).length),
    Holds pd k (places sz argv)[i] (argv[i] ++ [0])
  /-- All of it lies in the stack page. -/
  low : sz - 4096 ≤ esp
  high : ∀ i (h : i < argv.length) (h' : i < (places sz argv).length),
    (places sz argv)[i] + argv[i].length + 1 ≤ sz
  above : ∀ i (h' : i < (places sz argv).length), esp + 4 * (argv.length + 4) ≤ (places sz argv)[i]
  apart : ∀ i j (hi : i < (places sz argv).length) (hj : j < (places sz argv).length)
    (hj' : j < argv.length), i < j →
    (places sz argv)[j] + argv[j].length + 1 ≤ (places sz argv)[i]

theorem Stack.setupArgs (argv : List (List UInt8)) (k : Kmem) (h : Stack pd sz v)
    (hargc : argv.length ≤ MAXARG) (hlens : ∀ s ∈ argv, s.length + 1 < 4294967296) :
    ((Mem.setupArgs pd argv (ofNat 32 sz) k).1 = .ok ↔
      used argv + 4 * (argv.length + 4) ≤ PGSIZE) ∧
    ((Mem.setupArgs pd argv (ofNat 32 sz) k).1 = .ok →
      ∃ esp : ℕ, (Mem.setupArgs pd argv (ofNat 32 sz) k).2.2 = ofNat 32 esp ∧
        esp + used argv + 4 * (argv.length + 4) = sz ∧
        Laid pd argv sz esp (Mem.setupArgs pd argv (ofNat 32 sz) k).2.1 ∧
        ∀ w, w ≠ v → (Mem.setupArgs pd argv (ofNat 32 sz) k).2.1.mem w = k.mem w) ∧
    ((argv.map List.length).sum < sz → (Mem.setupArgs pd argv (ofNat 32 sz) k).1 ≠ .wild) := by
  have hsize : PGSIZE = 4096 := rfl
  have hmax : MAXARG = 32 := rfl
  have hsz := h.high
  have hal := h.aligned
  have hlow := h.low
  have hpush := h.pushArgs argv [] sz (k := k) (by omega) le_rfl (by omega)
    (by simpa using hargc) hlens
  by_cases hroom : sz - 4096 + used argv ≤ sz
  · rw [if_pos hroom, nil_append] at hpush
    generalize hptrs : (places sz argv).map (ofNat 32 : ℕ → Addr) = ptrs at hpush
    have hlen : ptrs.length = argv.length := by rw [← hptrs, length_map, length_places]
    have hframe : ((ustack ptrs (ofNat 32 (sz - used argv))).flatMap wordBytes).length =
        4 * (argv.length + 4) := by rw [length_wordBytes, length_ustack, hlen]
    obtain ⟨esp, hesp⟩ : ∃ esp, esp + 4 * (argv.length + 4) = sz - used argv :=
      ⟨sz - used argv - 4 * (argv.length + 4), by omega⟩
    have hsp : (ofNat 32 (sz - used argv) - ofNat 32 ((3 + ptrs.length + 1) * 4) : Addr)
        = ofNat 32 esp := by
      apply eq_of_toNat_eq
      rw [toNat_sub, toNat_ofNat_lt (by omega), toNat_ofNat_lt (by omega),
        toNat_ofNat_lt (by omega)]
      omega
    have hnext : (ofNat 32 (sz - used argv) - ofNat 32 ((ptrs.length + 1) * 4) : Addr)
        = ofNat 32 (esp + 12) := by
      apply eq_of_toNat_eq
      rw [toNat_sub, toNat_ofNat_lt (by omega), toNat_ofNat_lt (by omega),
        toNat_ofNat_lt (by omega)]
      omega
    have hrun : Mem.setupArgs pd argv (ofNat 32 sz) k =
        ((copyout pd (ofNat 32 esp) ((ustack ptrs (ofNat 32 (sz - used argv))).flatMap
          wordBytes) (stored v (sz - 4096) sz argv k)).1,
        (copyout pd (ofNat 32 esp) ((ustack ptrs (ofNat 32 (sz - used argv))).flatMap
          wordBytes) (stored v (sz - 4096) sz argv k)).2, ofNat 32 esp) := by
      rw [Mem.setupArgs, hpush]
      dsimp only
      rw [hsp]
    rw [hrun]
    dsimp only
    by_cases hfit : sz - 4096 ≤ esp
    · have hcopy := (h.copyout_top (p := esp) (k := stored v (sz - 4096) sz argv k)
        ((ustack ptrs (ofNat 32 (sz - used argv))).flatMap wordBytes) hfit
        (by omega)).resolve_right (by omega)
      rw [hcopy]
      obtain ⟨hin, hapart⟩ := places_apart argv sz (by omega)
      refine ⟨⟨fun _ => by omega, fun _ => rfl⟩, fun _ => ⟨esp, rfl, by omega, ?_, fun w hw => ?_⟩,
        fun _ => nofun⟩
      · refine ⟨?_, fun i hi hi' => ?_, hfit, fun i hi hi' => (hin i hi hi').2, fun i hi' => ?_, hapart⟩
        · have hwords : [0xffffffff, ofNat 32 argv.length, ofNat 32 (esp + 12)] ++
              (places sz argv).map (ofNat 32 : ℕ → Addr) ++ [0] =
                ustack ptrs (ofNat 32 (sz - used argv)) := by
            rw [ustack, hnext, hlen, hptrs]
          rw [hwords]
          exact h.holds hfit (by omega) fun i hi o ho => mem_store_of_lt hi ho
        · have hi₁ := hin i hi hi'
          have hs := length_string argv[i]
          refine h.holds (by omega) (by omega) fun j hj o ho => ?_
          rw [mem_store (.inr (.inr (by omega)))]
          exact mem_stored argv hroom i hi hi' j hj o ho
        · have := (hin i (by rwa [length_places] at hi') hi').1
          omega
      · funext o
        rw [mem_store (.inl hw), mem_stored_rest argv hroom (.inl hw)]
    · have hne := h.copyout_below (p := esp) (k := stored v (sz - 4096) sz argv k)
        ((ustack ptrs (ofNat 32 (sz - used argv))).flatMap wordBytes) (by omega)
        (by omega) (by omega) (by omega)
      refine ⟨⟨fun hok => absurd hok hne, fun hle => by omega⟩, fun hok => absurd hok hne, fun _ => ?_⟩
      exact h.copyout_tame (by omega)
  · rw [if_neg hroom] at hpush
    obtain ⟨hne, htame⟩ := hpush
    have hrun : (Mem.setupArgs pd argv (ofNat 32 sz) k).1 =
        (Mem.pushArgs pd argv [] (ofNat 32 sz) k).1 := by
      rw [Mem.setupArgs]
      generalize Mem.pushArgs pd argv [] (ofNat 32 sz) k = r at hne
      obtain ⟨r, k', sp', ptrs'⟩ := r
      cases r with
      | ok => exact absurd rfl hne
      | _ => rfl
    rw [hrun]
    refine ⟨⟨fun hok => absurd hok hne, fun hle => by omega⟩, fun hok => absurd hok hne,
      fun htotal => htame ?_⟩
    omega

/-- **`exec` builds the argument stack in one page.**  It gets past the arguments if and
only if the strings and the frame fit in the stack page; then they are there, and nothing
but the stack page has changed. -/
theorem exec_args (pd : Pgdir) (argv : List (List UInt8)) (sz : ℕ) (v : Page) (k : Kmem)
    (h : Stack pd sz v) (hargc : argv.length ≤ MAXARG)
    (hlens : ∀ s ∈ argv, s.length + 1 < 4294967296) :
    ((setupArgs pd argv (ofNat 32 sz) k).1 = .ok ↔
      used argv + 4 * (argv.length + 4) ≤ PGSIZE) ∧
    ((setupArgs pd argv (ofNat 32 sz) k).1 = .ok →
      ∃ esp : ℕ, (setupArgs pd argv (ofNat 32 sz) k).2.2 = ofNat 32 esp ∧
        esp + used argv + 4 * (argv.length + 4) = sz ∧
        Laid pd argv sz esp (setupArgs pd argv (ofNat 32 sz) k).2.1 ∧
        ∀ w, w ≠ v → (setupArgs pd argv (ofNat 32 sz) k).2.1.mem w = k.mem w) ∧
    ((argv.map List.length).sum < sz → (setupArgs pd argv (ofNat 32 sz) k).1 ≠ .wild) :=
  h.setupArgs argv k hargc hlens

/-- An image of two pages, the guard page and the stack. -/
def stackPage : Pgdir :=
  ⟨0x80400, fun i =>
    if i.val = 0 then
      some ⟨0x401, fun j =>
        if j.val = 0 then some ⟨0x402, PTE_W⟩
        else if j.val = 1 then some ⟨0x403, PTE_W ||| PTE_U⟩ else none⟩
    else if i.val = 1023 then some ⟨0x404, fun _ => none⟩ else none⟩

theorem stack_stackPage : Stack stackPage 8192 (P2V 0x403) := by
  have hframe : ∀ a : Addr, userFrame stackPage a =
      if a.toNat / 4096 = 1 then some (P2V 0x403) else none := by
    intro a
    have hlt := a.isLt
    have hpage := toNat_pageOf a
    by_cases h₁ : a.toNat / 4096 = 1
    · have hp : pageOf a = 1 := eq_of_toNat_eq (by rw [hpage, h₁]; rfl)
      rw [if_pos h₁, userFrame, hp]
      decide +kernel
    · rw [if_neg h₁]
      by_cases h₀ : a.toNat / 4096 = 0
      · have hp : pageOf a = 0 := eq_of_toNat_eq (by rw [hpage, h₀]; rfl)
        rw [userFrame, hp]
        decide +kernel
      · rw [userFrame, Pgdir.lookup]
        simp only [stackPage, PDX, PTX, hpage]
        by_cases hd : a.toNat / 4096 / 1024 = 0
        · rw [if_pos hd, Option.bind_some]
          dsimp only
          rw [if_neg (by omega), if_neg (by omega)]
          rfl
        · rw [if_neg hd]
          by_cases hl : a.toNat / 4096 / 1024 = 1023
          · rw [if_pos hl]
            rfl
          · rw [if_neg hl]
            rfl
  refine ⟨rfl, le_rfl, by decide, fun a h₁ h₂ => ?_, fun a h₁ h₂ => ?_, fun a h => ?_, fun a h => ?_, ?_⟩
  · rw [hframe, if_pos (by omega)]
  · rw [hframe, if_neg (by omega)]
  · have hd : (PDX (pageOf a)).val = 0 := by
      change (pageOf a).toNat / 1024 = 0
      rw [toNat_pageOf]
      omega
    change (if (PDX (pageOf a)).val = 0 then _ else _) ≠ none
    rw [if_pos hd]
    exact Option.some_ne_none _
  · rw [hframe, if_neg (by omega)]
  · decide +kernel

theorem exec_args_three : ∃ esp : ℕ, esp + 44 = 8192 ∧
    Laid stackPage [[103, 114, 101, 112], [45, 105], [97]] 8192 esp
      (setupArgs stackPage [[103, 114, 101, 112], [45, 105], [97]] 8192 noPages).2.1 := by
  obtain ⟨hiff, hlaid, -⟩ := exec_args stackPage [[103, 114, 101, 112], [45, 105], [97]] 8192 (P2V 0x403)
    noPages stack_stackPage (by decide) (by decide)
  obtain ⟨esp, -, hesp, h, -⟩ := hlaid (hiff.2 (by decide))
  exact ⟨esp, hesp, h⟩

end Xv6.Mem
