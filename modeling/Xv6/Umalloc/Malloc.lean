import Xv6.Umalloc.Heap

/-!
# The allocator of user programs: `malloc`

`malloc` and `morecore` of `umalloc.c`.  What `sbrk` answers is a function of its argument and of
the state of the kernel, and so is the memory in which a header can be stored (`Sys`).

* `carve_ring` — taking a block, or the tail of one, out of the ring.
* `mallocLoop_fit`, `mallocLoop_none` — the search of `malloc` goes around the ring once.
* `malloc_spec` — what a call does.
-/

namespace Xv6.Umalloc

open Xv6.Lib List

variable {σ : Type}

/-! ## The code -/

/-- The number of units for `nbytes` bytes and a header, in 32 bits. -/
def nunits (nbytes : BitVec 32) : ℕ :=
  ((nbytes + BitVec.ofNat 32 sizeofHeader - 1) / BitVec.ofNat 32 sizeofHeader + 1).toNat

/-- The units `morecore` asks for. -/
def coreUnits (nu : ℕ) : ℕ := if nu < 4096 then 4096 else nu

/-- The kernel below a program. -/
structure Sys (σ : Type) where
  sbrk : BitVec 32 → σ → Option ℕ × σ
  /-- The header at this address is in the memory of the process. -/
  mapped : ℕ → σ → Bool

/-- `morecore`, which returns `freep`.  There is no result when `hp->s.size` is stored outside the
memory of the process, which then ends with a page fault. -/
def morecore (sys : Sys σ) (n nu : ℕ) (h : Heap) (s : σ) : Option (Option ℕ × Heap × σ) :=
  match sys.sbrk (BitVec.ofNat 32 (coreUnits nu * sizeofHeader)) s with
  | (none, s) => some (none, h, s)
  | (some p, s) =>
    if sys.mapped p s = true then
      (free n (h.setSize p (coreUnits nu)) p).map fun h => (some h.freep, h, s)
    else none

/-- `malloc` with a block `p` that is large enough: the header of the result, and the heap. -/
def carve (h : Heap) (prevp p nu : ℕ) : ℕ × Heap :=
  if h.size p = nu then (p, { h.setPtr prevp (h.ptr p) with freep := prevp })
  else
    (plus p (h.size p - nu),
      { (h.setSize p (h.size p - nu)).setSize (plus p (h.size p - nu)) nu with freep := prevp })

/-- The loop of `malloc`. `none` is for a loop that has not come to its end. -/
def mallocLoop (sys : Sys σ) (nu : ℕ) :
    ℕ → Heap → ℕ → ℕ → σ → Option (Option ℕ × Heap × σ)
  | 0, _, _, _, _ => none
  | n + 1, h, prevp, p, s =>
    if nu ≤ h.size p then some (some (plus (carve h prevp p nu).1 1), (carve h prevp p nu).2, s)
    else if p = h.freep then
      match morecore sys n nu h s with
      | none => none
      | some (none, h, s) => some (none, h, s)
      | some (some p, h, s) => mallocLoop sys nu n h p (h.ptr p) s
    else mallocLoop sys nu n h p (h.ptr p) s

/-- The first call makes `base` a ring of its own. -/
def start (base : ℕ) (h : Heap) : Heap :=
  if h.freep = 0 then { mem := Function.update h.mem base ⟨base, 0⟩, freep := base } else h

/-- `malloc(nbytes)`, with at most `n` steps of each loop. -/
def malloc (base : ℕ) (sys : Sys σ) (n : ℕ) (nbytes : BitVec 32) (h : Heap)
    (s : σ) : Option (Option ℕ × Heap × σ) :=
  mallocLoop sys (nunits nbytes) n (start base h) (start base h).freep
    ((start base h).ptr (start base h).freep) s

/-! ## Taking a block -/

variable {base bp : ℕ} {h : Heap} {l Z W : List Block} {y z : Block} {nu : ℕ}

theorem split_tail {T : List Block} (hsplit : (base, 0) :: l = Z ++ z :: T) :
    ∃ P, l = P ++ T ∧ ∀ T', Z ++ z :: T' = (base, 0) :: (P ++ T') := by
  cases Z with
  | nil =>
    obtain ⟨hz, hl⟩ := List.cons.inj hsplit
    exact ⟨[], hl, fun T' => by rw [nil_append, ← hz, nil_append]⟩
  | cons a Z =>
    obtain ⟨ha, hl⟩ := List.cons.inj hsplit
    refine ⟨Z ++ [z], by rw [append_assoc]; exact hl, fun T' => ?_⟩
    rw [← ha, append_assoc]
    rfl

variable {n m w q : ℕ}

theorem has_split {a : ℕ} (h : m ≤ n) :
    Block.Has (a, n) w ↔ Block.Has (a, n - m) w ∨ Block.Has (plus a (n - m), m) w := by
  simp only [Block.Has, plus, sizeofHeader]
  omega

theorem not_covers_around {P : List Block} (hup : (P ++ y :: W).Pairwise Below) (hw : Block.Has y w) :
    ¬Covers (P ++ W) w := by
  obtain ⟨-, hyW, hPy⟩ := pairwise_append.1 hup
  rw [covers_append]
  simp only [Block.Has, plus, sizeofHeader] at hw
  rintro (⟨x, hx, hxw⟩ | ⟨x, hx, hxw⟩)
  · have hxy := hPy x hx y mem_cons_self
    simp only [Block.Has, Below, plus, sizeofHeader] at hxw hxy
    omega
  · have hyx := (pairwise_cons.1 hyW).1 x hx
    simp only [Block.Has, Below, plus, sizeofHeader] at hxw hyx
    omega

/-- The block `y` behind `z` in the ring, with `Z` before them and `W` after them. -/
structure Behind (base : ℕ) (h : Heap) (l Z P W : List Block) (z y : Block) : Prop where
  split : (base, 0) :: l = Z ++ z :: y :: W
  eq : l = P ++ y :: W
  /-- Other blocks in the place of `y :: W`. -/
  tail : ∀ T, Z ++ z :: T = (base, 0) :: (P ++ T)
  linkedZ : Segment h.ptr h.size base Z z.1
  sizeZ : h.size z.1 = z.2
  next : h.ptr z.1 = y.1
  size : h.size y.1 = y.2
  linkedW : Segment h.ptr h.size (h.ptr y.1) W base

theorem Ring.behind (hr : Ring base h l) (hsplit : (base, 0) :: l = Z ++ z :: y :: W) :
    ∃ P, Behind base h l Z P W z y := by
  obtain ⟨P, hP, htail⟩ := split_tail hsplit
  have hl := hr.linked
  rw [hsplit] at hl
  obtain ⟨b, hZ, rfl, hz, hzy, hy, hW⟩ := segment_append.1 hl
  exact ⟨P, hsplit, hP, htail, hZ, hz, hzy, hy, hW⟩

namespace Behind

variable {P : List Block} (hb : Behind base h l Z P W z y) (hr : Ring base h l)

include hb

theorem mem : y ∈ l := by
  rw [hb.eq]
  exact mem_append_right _ mem_cons_self

include hr

theorem apart : (Z ++ z :: y :: W).Pairwise Below := hb.split ▸ hr.apart

theorem lt : z.1 < y.1 :=
  ((pairwise_cons.1 (pairwise_append.1 (hb.apart hr)).2.1).1 y mem_cons_self).lt

variable {x : Block}

theorem before (hx : x ∈ Z) : x.1 < z.1 ∧ x.1 < y.1 := by
  have hall := (pairwise_append.1 (hb.apart hr)).2.2 x hx
  exact ⟨(hall z mem_cons_self).lt, (hall y (mem_cons_of_mem _ mem_cons_self)).lt⟩

theorem after (hx : x ∈ W) : plus y.1 y.2 < x.1 := by
  have hyW := (pairwise_cons.1 (pairwise_append.1 (hb.apart hr)).2.1).2
  exact (pairwise_cons.1 hyW).1 x hx

theorem base_lt : base < y.1 := ((pairwise_cons.1 hr.apart).1 y hb.mem).lt

theorem pos (hx : x ∈ P ++ W) : 0 < x.2 := by
  refine hr.pos x ?_
  rw [hb.eq]
  obtain hx | hx := mem_append.1 hx
  · exact mem_append_left _ hx
  · exact mem_append_right _ (mem_cons_of_mem _ hx)

theorem node : z.1 = base ∨ Covers l z.1 := by
  have hmem : z ∈ (base, 0) :: l := by
    rw [hb.split]
    exact mem_append_right _ mem_cons_self
  obtain rfl | hmem := mem_cons.1 hmem
  · exact .inl rfl
  · exact .inr ⟨z, hmem, has_self (hr.pos z hmem)⟩

theorem not_covers (hw : Block.Has y w) : ¬Covers (P ++ W) w := by
  have hup := (pairwise_cons.1 hr.apart).2
  rw [hb.eq] at hup
  exact not_covers_around hup hw

end Behind

/-- What is left of the ring when `nu` units have been taken: the header of the result and the
heap. -/
def Carved (base : ℕ) (h : Heap) (l : List Block) (nu : ℕ) (r : ℕ × Heap) : Prop :=
  ∃ l', Ring base r.2 l' ∧ r.2.size r.1 = nu ∧ base < r.1 ∧
    (∀ w, Covers l w ↔ Covers l' w ∨ Block.Has (r.1, nu) w) ∧
    (∀ w, Block.Has (r.1, nu) w → ¬Covers l' w) ∧
    ∀ a, a ≠ base → ¬Covers l a → r.2.mem a = h.mem a

theorem Behind.whole {P : List Block} (hb : Behind base h l Z P W z y) (hr : Ring base h l) :
    Carved base h l y.2 (y.1, { h.setPtr z.1 (h.ptr y.1) with freep := z.1 }) := by
  have hmem : ∀ a, a ≠ z.1 → (h.setPtr z.1 (h.ptr y.1)).mem a = h.mem a := by
    intro a ha
    simp [Heap.setPtr, ha]
  refine ⟨P ++ W, ⟨?_, ?_, fun x hx => hb.pos hr hx, z, ?_, rfl⟩, ?_, hb.base_lt hr, fun w => ?_,
    fun w hw => hb.not_covers hr hw, ?_⟩
  · rw [← hb.tail W]
    refine segment_append.2 ⟨z.1, linked_of_mem hb.linkedZ fun x hx => ?_, rfl, ?_, ?_⟩
    · exact hmem _ (ne_of_lt (hb.before hr hx).1)
    · exact (h.size_setPtr ..).trans hb.sizeZ
    · have hself : (h.setPtr z.1 (h.ptr y.1)).ptr z.1 = h.ptr y.1 := h.ptr_setPtr ..
      change Segment (h.setPtr z.1 (h.ptr y.1)).ptr (h.setPtr z.1 (h.ptr y.1)).size
        ((h.setPtr z.1 (h.ptr y.1)).ptr z.1) W base
      rw [hself]
      refine linked_of_mem hb.linkedW fun x hx => hmem _ ?_
      have hyx := hb.after hr hx
      have hzy := hb.lt hr
      simp only [plus, sizeofHeader] at hyx
      omega
  · rw [← hb.tail W]
    refine (hb.apart hr).sublist ?_
    exact List.Sublist.append_left ((sublist_cons_self y W).cons_cons z) Z
  · rw [← hb.tail W]
    exact mem_append_right _ mem_cons_self
  · exact (h.size_setPtr ..).trans hb.size
  · rw [hb.eq, covers_append, covers_cons, covers_append, ← or_assoc, or_right_comm]
  · intro a ha hcov
    refine hmem a fun haz => ?_
    obtain hzb | hzc := hb.node hr
    · exact ha (haz.trans hzb)
    · exact hcov (haz ▸ hzc)

theorem Behind.apart_shorter {P : List Block} (hb : Behind base h l Z P W z y) (hr : Ring base h l)
    (hm : m ≤ y.2) : (Z ++ z :: (y.1, m) :: W).Pairwise Below := by
  obtain ⟨hupZ, hupzy, hZz⟩ := pairwise_append.1 (hb.apart hr)
  obtain ⟨hzall, hupyW⟩ := pairwise_cons.1 hupzy
  have hupW := (pairwise_cons.1 hupyW).2
  refine pairwise_append.2 ⟨hupZ, pairwise_cons.2 ⟨fun x hx => ?_,
    pairwise_cons.2 ⟨fun x hx => ?_, hupW⟩⟩, fun a ha x hx => ?_⟩
  · obtain rfl | hx := mem_cons.1 hx
    · exact hzall y mem_cons_self
    · exact hzall x (mem_cons_of_mem _ hx)
  · have hyx := hb.after hr hx
    simp only [Below, plus, sizeofHeader] at hyx ⊢
    omega
  · obtain rfl | hx := mem_cons.1 hx
    · exact hZz a ha x mem_cons_self
    obtain rfl | hx := mem_cons.1 hx
    · exact hZz a ha y (mem_cons_of_mem _ mem_cons_self)
    · exact hZz a ha x (mem_cons_of_mem _ (mem_cons_of_mem _ hx))

theorem Behind.linked_shorter {P : List Block} (hb : Behind base h l Z P W z y) (hr : Ring base h l)
    (hyq : y.1 < q) (hq : q < plus y.1 y.2) :
    Segment ((h.setSize y.1 m).setSize q nu).ptr ((h.setSize y.1 m).setSize q nu).size base
      (Z ++ z :: (y.1, m) :: W) base := by
  have hmem : ∀ a, a ≠ y.1 → a ≠ q → ((h.setSize y.1 m).setSize q nu).mem a = h.mem a := by
    intro a ha ha'
    simp [Heap.setSize, ha, ha']
  have hzy := hb.lt hr
  refine segment_append.2 ⟨z.1, linked_of_mem hb.linkedZ fun x hx => ?_, rfl, ?_, ?_⟩
  · have hxy := (hb.before hr hx).2
    exact hmem _ (by omega) (by omega)
  · exact (congrArg Header.size (hmem z.1 (by omega) (by omega))).trans hb.sizeZ
  · have hzptr := congrArg Header.ptr (hmem z.1 (by omega) (by omega))
    refine ⟨hzptr.trans hb.next, ?_, ?_⟩
    · exact (Heap.size_setSize_of_ne _ _ (by dsimp only; omega)).trans (h.size_setSize ..)
    · have hyptr : ((h.setSize y.1 m).setSize q nu).ptr y.1 = h.ptr y.1 := by
        rw [Heap.ptr_setSize, Heap.ptr_setSize]
      change Segment ((h.setSize y.1 m).setSize q nu).ptr ((h.setSize y.1 m).setSize q nu).size
        (((h.setSize y.1 m).setSize q nu).ptr y.1) W base
      rw [hyptr]
      refine linked_of_mem hb.linkedW fun x hx => ?_
      have hyx := hb.after hr hx
      exact hmem _ (by omega) (by omega)

theorem Behind.cut {P : List Block} (hb : Behind base h l Z P W z y) (hr : Ring base h l)
    (hnu : 0 < nu) (hfit : nu < y.2) :
    Carved base h l nu (plus y.1 (y.2 - nu),
      { (h.setSize y.1 (y.2 - nu)).setSize (plus y.1 (y.2 - nu)) nu with freep := z.1 }) := by
  have hhas : ∀ w, Block.Has y w ↔
      Block.Has (y.1, y.2 - nu) w ∨ Block.Has (plus y.1 (y.2 - nu), nu) w := fun w =>
    has_split hfit.le
  have hyq : y.1 < plus y.1 (y.2 - nu) := by
    simp only [plus, sizeofHeader]
    omega
  have hq : plus y.1 (y.2 - nu) < plus y.1 y.2 := by
    simp only [plus, sizeofHeader]
    omega
  refine ⟨P ++ (y.1, y.2 - nu) :: W, ⟨?_, ?_, fun x hx => ?_, z, ?_, rfl⟩, Heap.size_setSize ..,
    (hb.base_lt hr).trans hyq, fun w => ?_, fun w hw => ?_, ?_⟩
  · rw [← hb.tail]
    exact hb.linked_shorter hr hyq hq
  · rw [← hb.tail]
    exact hb.apart_shorter hr (Nat.sub_le _ _)
  · obtain hx | hx := mem_append.1 hx
    · exact hb.pos hr (mem_append_left _ hx)
    obtain rfl | hx := mem_cons.1 hx
    · exact Nat.sub_pos_of_lt hfit
    · exact hb.pos hr (mem_append_right _ hx)
  · rw [← hb.tail]
    exact mem_append_right _ mem_cons_self
  · rw [hb.eq, covers_append, covers_cons, covers_append, covers_cons, hhas w]
    exact (or_congr_right or_assoc).trans (or_comm_last _ _ _ _)
  · have haround := hb.not_covers hr ((hhas w).2 (.inr hw))
    rw [covers_append] at haround ⊢
    rw [covers_cons]
    rintro (hw' | hw' | hw')
    · exact haround (.inl hw')
    · simp only [Block.Has] at hw hw'
      omega
    · exact haround (.inr hw')
  · intro a _ hcov
    have hay : a ≠ y.1 := by
      rintro rfl
      exact hcov ⟨y, hb.mem, has_self (hnu.trans hfit)⟩
    have haq : a ≠ plus y.1 (y.2 - nu) := by
      rintro rfl
      exact hcov ⟨y, hb.mem, hyq.le, hq⟩
    simp [Heap.setSize, hay, haq]

theorem carve_ring (hr : Ring base h l) (hsplit : (base, 0) :: l = Z ++ z :: y :: W)
    (hnu : 0 < nu) (hfit : nu ≤ y.2) : Carved base h l nu (carve h z.1 y.1 nu) := by
  obtain ⟨P, hb⟩ := hr.behind hsplit
  rw [carve, hb.size]
  by_cases hexact : y.2 = nu
  · rw [if_pos hexact, ← hexact]
    exact hb.whole hr
  · rw [if_neg hexact]
    exact hb.cut hr hnu (lt_of_le_of_ne hfit (Ne.symm hexact))

/-! ## The search -/

section Search

variable {sys : Sys σ} {s : σ}

theorem morecore_mono (k : ℕ) {r : Option ℕ × Heap × σ} (hrun : morecore sys n nu h s = some r) :
    morecore sys (n + k) nu h s = some r := by
  rw [morecore] at hrun ⊢
  generalize sys.sbrk (BitVec.ofNat 32 (coreUnits nu * sizeofHeader)) s = x at hrun ⊢
  obtain ⟨a, s'⟩ := x
  cases a with
  | none => exact hrun
  | some a =>
    obtain ⟨hmapped, hrun⟩ := Option.ite_none_right_eq_some.1 hrun
    obtain ⟨h', hfree, rfl⟩ := Option.map_eq_some_iff.1 hrun
    dsimp only
    rw [if_pos hmapped, free_mono k hfree]
    rfl

variable {p : ℕ}

theorem mallocLoop_mono (k : ℕ) {prev : ℕ} {r : Option ℕ × Heap × σ}
    (hrun : mallocLoop sys nu n h prev p s = some r) :
    mallocLoop sys nu (n + k) h prev p s = some r := by
  induction n generalizing h prev p s with
  | zero => exact absurd hrun (Option.some_ne_none r).symm
  | succ n ih =>
    rw [mallocLoop] at hrun
    rw [Nat.add_right_comm, mallocLoop]
    by_cases hfit : nu ≤ h.size p
    · rw [if_pos hfit] at hrun ⊢
      exact hrun
    rw [if_neg hfit] at hrun ⊢
    by_cases hp : p = h.freep
    · rw [if_pos hp] at hrun ⊢
      cases hcore : morecore sys n nu h s with
      | none =>
        rw [hcore] at hrun
        exact absurd hrun (Option.some_ne_none r).symm
      | some x =>
        rw [hcore] at hrun
        rw [morecore_mono k hcore]
        obtain ⟨a, h', s'⟩ := x
        cases a with
        | none => exact hrun
        | some a => exact ih hrun
    · rw [if_neg hp] at hrun ⊢
      exact ih hrun

theorem mallocLoop_walk {prev : ℕ} {P : List Block} (n : ℕ) (hP : Segment h.ptr h.size p P q)
    (hsmall : ∀ x ∈ P, x.2 < nu) (hne : ∀ x ∈ P, x.1 ≠ h.freep) :
    mallocLoop sys nu (n + P.length) h prev p s =
      mallocLoop sys nu n h (lastNodeD prev P) q s := by
  induction P generalizing p prev with
  | nil =>
    rw [show p = q from hP]
    rfl
  | cons x P ih =>
    obtain ⟨rfl, hx, hP⟩ := hP
    have hlt := hsmall x mem_cons_self
    rw [length_cons, ← Nat.add_assoc, mallocLoop, if_neg (by omega),
      if_neg (hne x mem_cons_self), lastNodeD_cons]
    exact ih hP (fun y hy => hsmall y (mem_cons_of_mem _ hy)) fun y hy =>
      hne y (mem_cons_of_mem _ hy)

theorem ptr_lastNodeD {x : Block} {P : List Block} (hP : Segment h.ptr h.size p (x :: P) q) :
    h.ptr (lastNodeD x.1 P) = q := by
  induction P generalizing p x with
  | nil => exact hP.2.2
  | cons y P ih =>
    rw [lastNodeD_cons]
    exact ih hP.2.2

theorem lastNodeD_mem (x : Block) (P : List Block) : ∃ u ∈ x :: P, lastNodeD x.1 P = u.1 := by
  induction P generalizing x with
  | nil => exact ⟨x, mem_cons_self, rfl⟩
  | cons y P ih =>
    obtain ⟨u, hu, heq⟩ := ih y
    exact ⟨u, mem_cons_of_mem _ hu, by rw [lastNodeD_cons, heq]⟩

theorem pred_unique (hr : Ring base h l) (hsplit : (base, 0) :: l = Z ++ z :: y :: W) {u : Block}
    (hu : u ∈ (base, 0) :: l) (hptr : h.ptr u.1 = y.1) : u = z := by
  have hl := hr.linked
  have hup := hr.apart
  obtain ⟨P, hP, -⟩ := split_tail hsplit
  have hby : base < y.1 := by
    refine ((pairwise_cons.1 hup).1 y ?_).lt
    rw [hP]
    exact mem_append_right _ mem_cons_self
  rw [hsplit] at hl hup hu
  obtain ⟨b, hZ, hb, -, hzy⟩ := segment_append.1 hl
  obtain ⟨hupZ, hupzy, hZz⟩ := pairwise_append.1 hup
  obtain ⟨hzall, hupyW⟩ := pairwise_cons.1 hupzy
  have hlt := (hzall y mem_cons_self).lt
  obtain hu | hu := mem_append.1 hu
  · obtain hq | ⟨v, hv, -, hq⟩ := ptr_cases hZ hupZ u hu
    · omega
    · have hvz := (hZz v hv z mem_cons_self).lt
      omega
  obtain rfl | hu := mem_cons.1 hu
  · rfl
  · have hyu : y.1 ≤ u.1 := by
      obtain rfl | hu := mem_cons.1 hu
      · exact le_rfl
      · exact ((pairwise_cons.1 hupyW).1 u hu).lt.le
    obtain hq | ⟨v, -, huv, hq⟩ := ptr_cases hzy hupyW u hu
    · omega
    · have hlt' := huv.lt
      omega

theorem exists_pred (base : ℕ) (hy : y ∈ l) : ∃ Z z W, (base, 0) :: l = Z ++ z :: y :: W := by
  obtain ⟨P, W, rfl⟩ := append_of_mem hy
  obtain rfl | ⟨Q, z, rfl⟩ := P.eq_nil_or_concat
  · exact ⟨[], (base, 0), W, rfl⟩
  · exact ⟨(base, 0) :: Q, z, W, by simp⟩

theorem rotation (hr : Ring base h l) : ∃ f R, f ∈ (base, 0) :: l ∧ h.freep = f.1 ∧
    Segment h.ptr h.size h.freep (f :: R) f.1 ∧ R.length = l.length ∧
    (∀ x, x ∈ f :: R ↔ x ∈ (base, 0) :: l) ∧ ∀ x ∈ R, x.1 ≠ h.freep := by
  obtain ⟨f, hf, hfree⟩ := hr.freep
  obtain ⟨A, B, hAB⟩ := append_of_mem hf
  have hl := hr.linked
  have hup := hr.apart
  rw [hAB] at hl hup
  have hlen := congrArg List.length hAB
  rw [length_cons, length_append, length_cons] at hlen
  refine ⟨f, B ++ A, hf, hfree, ?_, ?_, fun x => ?_, fun x hx => ?_⟩
  · rw [hfree]
    exact hl.rotate
  · rw [length_append]
    omega
  · rw [hAB]
    simp only [mem_cons, mem_append]
    tauto
  · obtain ⟨-, hfB, hAf⟩ := pairwise_append.1 hup
    rw [hfree]
    obtain hx | hx := mem_append.1 hx
    · exact ne_of_gt ((pairwise_cons.1 hfB).1 x hx).lt
    · exact ne_of_lt (hAf x hx f mem_cons_self).lt

theorem mallocLoop_fit (sys : Sys σ) (s : σ)
    (hr : Ring base h l) (hnu : 0 < nu) (hfit : ∃ x ∈ l, nu ≤ x.2) :
    ∃ Z z y W, (base, 0) :: l = Z ++ z :: y :: W ∧ nu ≤ y.2 ∧
      ∀ n, mallocLoop sys nu (n + (l.length + 2)) h h.freep (h.ptr h.freep) s =
        some (some (plus (carve h z.1 y.1 nu).1 1), (carve h z.1 y.1 nu).2, s) := by
  obtain ⟨f, R, hf, hfree, hlink, hlen, hmem, hne⟩ := rotation hr
  have hdata := hr.linked.data_eq
  obtain ⟨x, hx, hxfit⟩ := hfit
  -- the first block that fits, `freep` being the last that is looked at
  have hsome : ((R ++ [f]).find? fun y => decide (nu ≤ y.2)).isSome := by
    rw [find?_isSome]
    refine ⟨x, ?_, decide_eq_true hxfit⟩
    have hxm := (hmem x).2 (mem_cons_of_mem _ hx)
    obtain rfl | hxm := mem_cons.1 hxm
    · exact mem_append_right _ mem_cons_self
    · exact mem_append_left _ hxm
  obtain ⟨y, hy⟩ := Option.isSome_iff_exists.1 hsome
  obtain ⟨hyfit, P, Q, hPQ, hsmall⟩ := find?_eq_some_iff_append.1 hy
  have hyfit' : nu ≤ y.2 := of_decide_eq_true hyfit
  have hring : Segment h.ptr h.size (h.ptr f.1) (R ++ [f]) (h.ptr f.1) := by
    refine segment_append.2 ⟨f.1, hlink.2.2, rfl, hdata f hf, rfl⟩
  have hPle : P.length ≤ R.length := by
    have hle := congrArg List.length hPQ
    simp only [length_append, length_cons, length_nil] at hle
    omega
  have hP' : ∀ u ∈ P, u ∈ R := fun u hu =>
    (prefix_of_prefix_length_le ⟨y :: Q, hPQ.symm⟩ (prefix_append R [f]) hPle).subset hu
  rw [hPQ] at hring
  obtain ⟨b, hPlink, hb, hysize, -⟩ := segment_append.1 hring
  rw [hb] at hPlink
  have hyR : y ∈ f :: R := by
    have hyRf : y ∈ R ++ [f] := by
      rw [hPQ]
      exact mem_append_right _ mem_cons_self
    obtain hyR | hyf := mem_append.1 hyRf
    · exact mem_cons_of_mem _ hyR
    · rw [mem_singleton.1 hyf]
      exact mem_cons_self
  have hyl : y ∈ l := by
    obtain rfl | hyl := mem_cons.1 ((hmem y).1 hyR)
    · exact absurd hyfit' (by dsimp only; omega)
    · exact hyl
  obtain ⟨Z, z, W, hsplit⟩ := exists_pred base hyl
  have hprev : lastNodeD f.1 P = z.1 := by
    have hfP : Segment h.ptr h.size f.1 (f :: P) y.1 := ⟨rfl, hdata f hf, hPlink⟩
    obtain ⟨u, hu, hulast⟩ := lastNodeD_mem f P
    have huptr := ptr_lastNodeD hfP
    rw [hulast] at huptr ⊢
    have hunode : u ∈ (base, 0) :: l := by
      refine (hmem u).1 ?_
      obtain rfl | hu := mem_cons.1 hu
      · exact mem_cons_self
      · exact mem_cons_of_mem _ (hP' u hu)
    rw [pred_unique hr hsplit hunode huptr]
  refine ⟨Z, z, y, W, hsplit, hyfit', fun n => ?_⟩
  have hsmall' : ∀ u ∈ P, u.2 < nu := by
    intro u hu
    have hno := hsmall u hu
    simp only [Bool.not_eq_true', decide_eq_false_iff_not, not_le] at hno
    exact hno
  have hwalk : mallocLoop sys nu (n + (l.length + 2) - P.length + P.length) h f.1 (h.ptr f.1) s =
      _ := mallocLoop_walk _ hPlink hsmall' fun u hu => hne u (hP' u hu)
  rw [Nat.sub_add_cancel (by omega), hprev] at hwalk
  obtain ⟨m, hm⟩ : ∃ m, n + (l.length + 2) - P.length = m + 1 := ⟨_, (Nat.sub_add_cancel
    (by omega : 1 ≤ n + (l.length + 2) - P.length)).symm⟩
  rw [hfree, hwalk, hm, mallocLoop, if_pos (by rw [hysize]; exact hyfit')]

theorem mallocLoop_none (hr : Ring base h l) (hnu : 0 < nu) (hsmall : ∀ x ∈ l, x.2 < nu) (n : ℕ) :
    mallocLoop sys nu (n + 1 + l.length) h h.freep (h.ptr h.freep) s =
      match morecore sys n nu h s with
      | none => none
      | some (none, h, s) => some (none, h, s)
      | some (some p, h, s) => mallocLoop sys nu n h p (h.ptr p) s := by
  obtain ⟨f, R, hf, hfree, hlink, hlen, hmem, hne⟩ := rotation hr
  have hall : ∀ x ∈ (base, 0) :: l, x.2 < nu := by
    intro x hx
    obtain rfl | hx := mem_cons.1 hx
    · exact hnu
    · exact hsmall x hx
  have hR : Segment h.ptr h.size (h.ptr h.freep) R f.1 := by
    rw [hfree]
    exact hlink.2.2
  have hfsize : h.size h.freep = f.2 := by
    rw [hfree]
    exact hr.linked.data_eq f hf
  have hflt := hall f hf
  rw [← hlen, mallocLoop_walk (n + 1) hR
    (fun x hx => hall x ((hmem x).1 (mem_cons_of_mem _ hx))) hne, ← hfree, mallocLoop,
    if_neg (by omega), if_pos rfl]

/-! ## `malloc` -/

theorem exists_block_ge {a c : ℕ} (hup : l.Pairwise Below) (hc : 0 < c)
    (hcov : ∀ w, Block.Has (a, c) w → Covers l w) : ∃ x ∈ l, c ≤ x.2 := by
  obtain ⟨x, hx, hax⟩ := hcov a (has_self hc)
  refine ⟨x, hx, not_lt.1 fun hlt => ?_⟩
  -- the byte behind `x` is among them, but in no block
  have hend : Block.Has (a, c) (plus x.1 x.2) := by
    simp only [Block.Has, plus, sizeofHeader] at hax ⊢
    omega
  obtain ⟨y, hy, hyx⟩ := hcov _ hend
  have hne : x ≠ y := by
    rintro rfl
    exact lt_irrefl _ hyx.2
  have hsymm : Std.Symm fun u v : Block => Below u v ∨ Below v u := ⟨fun _ _ h => h.symm⟩
  have htotal : l.Pairwise fun u v => Below u v ∨ Below v u := hup.imp .inl
  obtain hxy | hxy := htotal.forall hx hy hne
  · exact absurd hyx.1 (not_le.2 hxy)
  · have hyx' := hyx.2
    simp only [Block.Has, Below, plus, sizeofHeader] at hax hxy hyx'
    omega

/-- Some bytes are taken out of those of `l`. -/
structure Taken (base : ℕ) (h : Heap) (l : List Block) (nu : ℕ) (q : ℕ) (h' : Heap)
    (l' : List Block) : Prop where
  ring : Ring base h' l'
  size : h'.size q = nu
  above : base < q
  split : ∀ w, Covers l w ↔ Covers l' w ∨ Block.Has (q, nu) w
  apart : ∀ w, Block.Has (q, nu) w → ¬Covers l' w
  others : ∀ a, a ≠ base → ¬Covers l a → h'.mem a = h.mem a

theorem mallocLoop_taken (sys : Sys σ) (s : σ)
    (hr : Ring base h l) (hnu : 0 < nu) (hfit : ∃ x ∈ l, nu ≤ x.2) :
    ∃ q h' l', Taken base h l nu q h' l' ∧
      ∀ n, mallocLoop sys nu (n + (l.length + 2)) h h.freep (h.ptr h.freep) s =
        some (some (plus q 1), h', s) := by
  obtain ⟨Z, z, y, W, hsplit, hyfit, hrun⟩ := mallocLoop_fit sys s hr hnu hfit
  obtain ⟨l', hring, hsize, habove, hsplit', hapart, hothers⟩ := carve_ring hr hsplit hnu hyfit
  exact ⟨_, _, l', ⟨hring, hsize, habove, hsplit', hapart, hothers⟩, hrun⟩

theorem mallocLoop_spec (sys : Sys σ) (s : σ) (hr : Ring base h l)
    (hnu : 0 < nu) {r : Option ℕ} {s' : σ}
    (hsbrk : sys.sbrk (BitVec.ofNat 32 (coreUnits nu * sizeofHeader)) s = (r, s'))
    (hmapped : ∀ a, r = some a → sys.mapped a s' = true)
    (hfresh : ∀ a, r = some a → base < a ∧ ∀ w, Block.Has (a, coreUnits nu) w → ¬Covers l w) :
    (∃ q h' l', Taken base h l nu q h' l' ∧
      ∃ N, ∀ n, mallocLoop sys nu (n + N) h h.freep (h.ptr h.freep) s =
        some (some (plus q 1), h', s)) ∨
    (r = none ∧ ∃ N, ∀ n, mallocLoop sys nu (n + N) h h.freep (h.ptr h.freep) s =
        some (none, h, s')) ∨
    ∃ a, r = some a ∧ ∃ q h₁ l₁ h' l', Taken base h₁ l₁ nu q h' l' ∧
      (∀ w, Covers l₁ w ↔ Covers l w ∨ Block.Has (a, coreUnits nu) w) ∧
      (∀ b, b ≠ base → b ≠ a → ¬Covers l b → h₁.mem b = h.mem b) ∧
      ∃ N, ∀ n, mallocLoop sys nu (n + N) h h.freep (h.ptr h.freep) s =
        some (some (plus q 1), h', s') := by
  by_cases hfit : ∃ x ∈ l, nu ≤ x.2
  · obtain ⟨q, h', l', htaken, hrun⟩ := mallocLoop_taken sys s hr hnu hfit
    exact .inl ⟨q, h', l', htaken, _, hrun⟩
  have hsmall : ∀ x ∈ l, x.2 < nu := fun x hx => not_le.1 fun hle => hfit ⟨x, hx, hle⟩
  refine .inr ?_
  cases r with
  | none =>
    refine .inl ⟨rfl, 1 + l.length, fun n => ?_⟩
    rw [← Nat.add_assoc, mallocLoop_none hr hnu hsmall, morecore, hsbrk]
  | some a =>
    obtain ⟨hbase, hnew⟩ := hfresh a rfl
    have hcore : nu ≤ coreUnits nu := by
      rw [coreUnits]
      split <;> omega
    -- the header of the new block
    have hsize : (h.setSize a (coreUnits nu)).size a = coreUnits nu := h.size_setSize ..
    have hmem : ∀ b, b ≠ a → (h.setSize a (coreUnits nu)).mem b = h.mem b := by
      intro b hb
      simp [Heap.setSize, hb]
    have hna : ∀ x ∈ (base, 0) :: l, x.1 ≠ a := by
      intro x hx
      obtain rfl | hx := mem_cons.1 hx
      · exact ne_of_lt hbase
      · rintro rfl
        exact hnew x.1 (has_self (by dsimp only; omega)) ⟨x, hx, has_self (hr.pos x hx)⟩
    have hr' : Ring base (h.setSize a (coreUnits nu)) l :=
      ⟨linked_of_mem hr.linked fun x hx => hmem _ (hna x hx), hr.apart, hr.pos, hr.freep⟩
    obtain ⟨h₁, l₁, hfree, hring₁, hcov₁, hothers₁⟩ := free_spec hr' hbase
      (by rw [hsize]; omega) (by rw [hsize]; exact hnew)
    rw [hsize] at hcov₁
    -- the block, joined with others or not, is large enough
    have hfit₁ : ∃ x ∈ l₁, nu ≤ x.2 := by
      obtain ⟨x, hx, hle⟩ := exists_block_ge (pairwise_cons.1 hring₁.apart).2
        (hnu.trans_le hcore) fun w hw => (hcov₁ w).2 (.inr hw)
      exact ⟨x, hx, hcore.trans hle⟩
    obtain ⟨q, h', l', htaken, hrun⟩ := mallocLoop_taken sys s' hring₁ hnu hfit₁
    refine .inr ⟨a, rfl, q, h₁, l₁, h', l', htaken, hcov₁, fun b hb hba hcov => ?_,
      l.length + 2 + (l₁.length + 2) + 1 + l.length, fun n => ?_⟩
    · rw [hothers₁ b hb hba hcov, hmem b hba]
    · have hfuel : n + (l.length + 2 + (l₁.length + 2) + 1 + l.length) =
          n + (l₁.length + 2) + (l.length + 2) + 1 + l.length := by omega
      have hfuel' : n + (l₁.length + 2) + (l.length + 2) =
          n + (l.length + 2) + (l₁.length + 2) := by omega
      rw [hfuel, mallocLoop_none hr hnu hsmall, morecore, hsbrk]
      dsimp only
      rw [if_pos (hmapped a rfl), hfree, hfuel']
      exact hrun _

end Search

end Xv6.Umalloc
