import Xv6.Lib.Segment

/-!
# The allocator of user programs: `free`

`umalloc.c`.  Addresses are bytes; a header takes `sizeof(Header)`, eight, and `p + n` on headers
is `plus p n`.  The free blocks and `base` make up a ring in the order of their addresses.

* `Ring` — the ring, with its blocks apart from each other.
* `findGap_eq` — the search of `free` ends, at the block before the gap.
* `join_ring` — `free` puts the block there and joins it with its neighbours.
-/

namespace Xv6.Umalloc

open Xv6.Lib List

/-! ## The code -/

structure Header where
  ptr : ℕ
  size : ℕ
deriving DecidableEq

/-- What is in the headers, and `freep`, which is 0 before the first call. -/
structure Heap where
  mem : ℕ → Header
  freep : ℕ

def sizeofHeader : ℕ := 8

/-- `p + n` for a pointer to headers. -/
def plus (p n : ℕ) : ℕ := p + sizeofHeader * n

namespace Heap

def ptr (h : Heap) (p : ℕ) : ℕ := (h.mem p).ptr

def size (h : Heap) (p : ℕ) : ℕ := (h.mem p).size

def setPtr (h : Heap) (p q : ℕ) : Heap :=
  { h with mem := Function.update h.mem p { h.mem p with ptr := q } }

def setSize (h : Heap) (p n : ℕ) : Heap :=
  { h with mem := Function.update h.mem p { h.mem p with size := n } }

@[simp] theorem freep_setPtr (h : Heap) (p q : ℕ) : (h.setPtr p q).freep = h.freep := rfl

@[simp] theorem freep_setSize (h : Heap) (p n : ℕ) : (h.setSize p n).freep = h.freep := rfl

@[simp] theorem ptr_setPtr (h : Heap) (p q : ℕ) : (h.setPtr p q).ptr p = q := by
  simp [ptr, setPtr]

@[simp] theorem size_setPtr (h : Heap) (p q a : ℕ) : (h.setPtr p q).size a = h.size a := by
  by_cases ha : a = p
  · simp [size, setPtr, ha]
  · simp [size, setPtr, ha]

@[simp] theorem size_setSize (h : Heap) (p n : ℕ) : (h.setSize p n).size p = n := by
  simp [size, setSize]

@[simp] theorem ptr_setSize (h : Heap) (p n a : ℕ) : (h.setSize p n).ptr a = h.ptr a := by
  by_cases ha : a = p
  · simp [ptr, setSize, ha]
  · simp [ptr, setSize, ha]

theorem size_setSize_of_ne (h : Heap) {p a : ℕ} (n : ℕ) (ha : a ≠ p) :
    (h.setSize p n).size a = h.size a := by
  simp [size, setSize, ha]

end Heap

/-- The loop of `free`: the block after which `bp` comes. `none` is for a search that has not come
to its end. -/
def findGap (h : Heap) (bp : ℕ) : ℕ → ℕ → Option ℕ
  | 0, _ => none
  | n + 1, p =>
    if p < bp ∧ bp < h.ptr p then some p
    else if h.ptr p ≤ p ∧ (p < bp ∨ bp < h.ptr p) then some p
    else findGap h bp n (h.ptr p)

/-- `bp` joined with the block after it. -/
def joinUpper (h : Heap) (bp p : ℕ) : Heap :=
  if plus bp (h.size bp) = h.ptr p then
    (h.setSize bp (h.size bp + h.size (h.ptr p))).setPtr bp (h.ptr (h.ptr p))
  else h.setPtr bp (h.ptr p)

/-- `bp` joined with the block before it. -/
def joinLower (h : Heap) (bp p : ℕ) : Heap :=
  if plus p (h.size p) = bp then
    (h.setSize p (h.size p + h.size bp)).setPtr p (h.ptr bp)
  else h.setPtr p bp

/-- `free` behind its loop. -/
def join (h : Heap) (bp p : ℕ) : Heap := { joinLower (joinUpper h bp p) bp p with freep := p }

/-- `free((void*)(bp + 1))`, with at most `n` steps of the search. -/
def free (n : ℕ) (h : Heap) (bp : ℕ) : Option Heap := (findGap h bp n h.freep).map (join h bp)

/-! ## The ring -/

/-- A block: its address and its number of units. -/
abbrev Block := ℕ × ℕ

/-- `y` is above `x`, and there is a gap between them. -/
def Below (x y : Block) : Prop := plus x.1 x.2 < y.1

/-- Byte `z` is in the block. -/
def Block.Has (x : Block) (z : ℕ) : Prop := x.1 ≤ z ∧ z < plus x.1 x.2

/-- Byte `z` is in one of the blocks. -/
def Covers (l : List Block) (z : ℕ) : Prop := ∃ x ∈ l, Block.Has x z

theorem covers_cons {x : Block} {l : List Block} {z : ℕ} :
    Covers (x :: l) z ↔ Block.Has x z ∨ Covers l z := by
  simp [Covers]

theorem covers_append {l l' : List Block} {z : ℕ} :
    Covers (l ++ l') z ↔ Covers l z ∨ Covers l' z := by
  simp [Covers, or_and_right, exists_or]

/-- **The ring of free blocks**: from `base`, whose size is 0, over the blocks of `l` in the order
of their addresses back to `base`, no two of them adjacent. -/
structure Ring (base : ℕ) (h : Heap) (l : List Block) : Prop where
  linked : Segment h.ptr h.size base ((base, 0) :: l) base
  apart : ((base, 0) :: l).Pairwise Below
  pos : ∀ x ∈ l, 0 < x.2
  freep : ∃ x ∈ (base, 0) :: l, h.freep = x.1

variable {base bp : ℕ} {h : Heap} {l A B : List Block} {x : Block}

theorem Below.lt {x y : Block} (hxy : Below x y) : x.1 < y.1 :=
  lt_of_le_of_lt (Nat.le_add_right _ _) hxy

/-! ## The search -/

theorem findGap_walk {p q : ℕ} (n : ℕ) (hl : Segment h.ptr h.size p l q)
    (hgo : ∀ x ∈ l, ¬(x.1 < bp ∧ bp < h.ptr x.1) ∧
      ¬(h.ptr x.1 ≤ x.1 ∧ (x.1 < bp ∨ bp < h.ptr x.1))) :
    findGap h bp (n + l.length) p = findGap h bp n q := by
  induction l generalizing p with
  | nil => rw [show p = q from hl, length_nil, Nat.add_zero]
  | cons x l ih =>
    obtain ⟨rfl, -, hl⟩ := hl
    obtain ⟨hfirst, hsecond⟩ := hgo x mem_cons_self
    rw [length_cons, ← Nat.add_assoc, findGap, if_neg hfirst, if_neg hsecond]
    exact ih hl fun y hy => hgo y (mem_cons_of_mem _ hy)

theorem findGap_mono (k : ℕ) {n p q : ℕ} (hrun : findGap h bp n p = some q) :
    findGap h bp (n + k) p = some q := by
  induction n generalizing p with
  | zero => exact absurd hrun (Option.some_ne_none q).symm
  | succ n ih =>
    rw [findGap] at hrun
    rw [Nat.add_right_comm, findGap]
    by_cases hfirst : p < bp ∧ bp < h.ptr p
    · rw [if_pos hfirst] at hrun ⊢
      exact hrun
    rw [if_neg hfirst] at hrun ⊢
    by_cases hsecond : h.ptr p ≤ p ∧ (p < bp ∨ bp < h.ptr p)
    · rw [if_pos hsecond] at hrun ⊢
      exact hrun
    rw [if_neg hsecond] at hrun ⊢
    exact ih hrun

theorem free_mono (k : ℕ) {n : ℕ} {h' : Heap} (hrun : free n h bp = some h') :
    free (n + k) h bp = some h' := by
  obtain ⟨p, hp, rfl⟩ := Option.map_eq_some_iff.1 hrun
  rw [free, findGap_mono k hp]
  rfl

theorem ptr_cases {p q : ℕ} (hl : Segment h.ptr h.size p l q) (hup : l.Pairwise Below) :
    ∀ y ∈ l, h.ptr y.1 = q ∨ ∃ z ∈ l, Below y z ∧ h.ptr y.1 = z.1 := by
  induction l generalizing p with
  | nil => exact fun _ hy => absurd hy not_mem_nil
  | cons a l ih =>
    obtain ⟨hall, hup'⟩ := pairwise_cons.1 hup
    obtain ⟨-, -, hl⟩ := hl
    intro y hy
    obtain rfl | hy := mem_cons.1 hy
    · cases l with
      | nil => exact .inl hl
      | cons b l => exact .inr ⟨b, by simp, hall b mem_cons_self, hl.1⟩
    · obtain hq | ⟨z, hz, hyz⟩ := ih hl hup' y hy
      · exact .inl hq
      · exact .inr ⟨z, mem_cons_of_mem _ hz, hyz⟩

/-- Where `bp` belongs: after `x`, before all of `B`. -/
structure Gap (base : ℕ) (h : Heap) (l A B : List Block) (x : Block) (bp : ℕ) : Prop where
  split : (base, 0) :: l = A ++ x :: B
  before : x.1 < bp
  after : ∀ y ∈ B, bp < y.1

theorem Gap.ptr (hr : Ring base h l) (hg : Gap base h l A B x bp) :
    B = [] ∧ h.ptr x.1 = base ∨ ∃ y B', B = y :: B' ∧ h.ptr x.1 = y.1 := by
  have hl := hr.linked
  rw [hg.split] at hl
  obtain ⟨b, -, -, -, hB⟩ := segment_append.1 hl
  cases B with
  | nil => exact .inl ⟨rfl, hB⟩
  | cons y B => exact .inr ⟨y, B, rfl, hB.1⟩

theorem findGap_eq (hr : Ring base h l) (hg : Gap base h l A B x bp) (hbase : base < bp) (n : ℕ) :
    findGap h bp (n + (l.length + 2)) h.freep = some x.1 := by
  have hl := hr.linked
  have hup := hr.apart
  have hsplit := hg.split
  rw [hsplit] at hl hup
  obtain ⟨b, hA, hb, hx, hB⟩ := segment_append.1 hl
  obtain ⟨hupA, hupxB, hAx⟩ := pairwise_append.1 hup
  have hbefore := hg.before
  have hbx : base ≤ x.1 := by
    have hmem : x ∈ (base, 0) :: l := by
      rw [hsplit]
      simp
    obtain rfl | hmem := mem_cons.1 hmem
    · exact le_rfl
    · exact ((pairwise_cons.1 hr.apart).1 x hmem).lt.le
  -- the nodes below the gap
  have hgoA : ∀ y ∈ A, ¬(y.1 < bp ∧ bp < h.ptr y.1) ∧
      ¬(h.ptr y.1 ≤ y.1 ∧ (y.1 < bp ∨ bp < h.ptr y.1)) := by
    intro y hy
    have hyx := (hAx y hy x mem_cons_self).lt
    obtain hptr | ⟨z, hz, hyz, hptr⟩ := ptr_cases hA hupA y hy
    · omega
    · have hzx := (hAx z hz x mem_cons_self).lt
      have hlt := hyz.lt
      omega
  -- the node before the gap
  have hstop : ∀ k, findGap h bp (k + 1) x.1 = some x.1 := by
    intro k
    rw [findGap]
    obtain ⟨-, hptr⟩ | ⟨y, B', rfl, hptr⟩ := hg.ptr hr
    · by_cases hin : x.1 < bp ∧ bp < h.ptr x.1
      · rw [if_pos hin]
      · rw [if_neg hin, if_pos ⟨by omega, .inl hbefore⟩]
    · rw [if_pos ⟨hbefore, by rw [hptr]; exact hg.after y mem_cons_self⟩]
  -- the nodes above the gap
  have hgoB : ∀ y ∈ B, ¬(y.1 < bp ∧ bp < h.ptr y.1) ∧
      ¬(h.ptr y.1 ≤ y.1 ∧ (y.1 < bp ∨ bp < h.ptr y.1)) := by
    intro y hy
    have hyb := hg.after y hy
    obtain hptr | ⟨z, -, hyz, hptr⟩ := ptr_cases hB (pairwise_cons.1 hupxB).2 y hy
    · omega
    · have hlt := hyz.lt
      omega
  have hlen : l.length + 1 = A.length + (B.length + 1) := by
    have := congrArg List.length hsplit
    simpa using this
  obtain ⟨f, hf, hfree⟩ := hr.freep
  rw [hfree]
  have hround : ∀ k, findGap h bp (k + 1 + A.length) base = some x.1 := by
    intro k
    rw [findGap_walk (k + 1) hA hgoA, hb]
    exact hstop k
  rw [hsplit, mem_append, mem_cons] at hf
  obtain hf | rfl | hf := hf
  · obtain ⟨A₁, A₂, rfl⟩ := append_of_mem hf
    obtain ⟨c, -, hA₂⟩ := segment_append.1 hA
    have hc : c = f.1 := hA₂.1
    rw [hc] at hA₂
    have hwalk := findGap_walk (n + (l.length + 2) - (f :: A₂).length) hA₂ fun y hy =>
      hgoA y (mem_append_right _ hy)
    rw [length_append, length_cons] at hlen
    rw [Nat.sub_add_cancel (by rw [length_cons]; omega), hb] at hwalk
    rw [hwalk, ← hstop (n + l.length - A₂.length)]
    congr 1
    rw [length_cons]
    omega
  · exact hstop _
  · -- up to the end of the ring, and once more from `base`
    obtain ⟨B₁, B₂, rfl⟩ := append_of_mem hf
    obtain ⟨c, -, hB₂⟩ := segment_append.1 hB
    have hc : c = f.1 := hB₂.1
    rw [hc] at hB₂
    have hwalk := findGap_walk (n + (l.length + 2) - (f :: B₂).length) hB₂ fun y hy =>
      hgoB y (mem_append_right _ hy)
    rw [length_append, length_cons] at hlen
    rw [Nat.sub_add_cancel (by rw [length_cons]; omega)] at hwalk
    rw [hwalk, ← hround (n + l.length - B₂.length - A.length)]
    congr 1
    rw [length_cons]
    omega

/-! ## Joining -/

theorem mem_joinUpper {p a : ℕ} (ha : a ≠ bp) : (joinUpper h bp p).mem a = h.mem a := by
  rw [joinUpper]
  split <;> simp [Heap.setPtr, Heap.setSize, ha]

theorem mem_joinLower {p a : ℕ} (ha : a ≠ p) : (joinLower h bp p).mem a = h.mem a := by
  rw [joinLower]
  split <;> simp [Heap.setPtr, Heap.setSize, ha]

theorem linked_of_mem {h' : Heap} {p q : ℕ} (hl : Segment h.ptr h.size p l q)
    (hmem : ∀ x ∈ l, h'.mem x.1 = h.mem x.1) : Segment h'.ptr h'.size p l q :=
  hl.congr (fun x hx => congrArg Header.ptr (hmem x hx)) fun x hx =>
    congrArg Header.size (hmem x hx)

theorem covers_join {a s t z : ℕ} :
    Block.Has (a, s + t) z ↔ Block.Has (a, s) z ∨ Block.Has (plus a s, t) z := by
  simp only [Block.Has, plus, sizeofHeader]
  omega

theorem joinUpper_spec (hr : Ring base h l) (hg : Gap base h l A B x bp) (hbase : base < bp)
    (hpos : 0 < h.size bp) (habove : ∀ y ∈ B, plus bp (h.size bp) ≤ y.1) :
    ∃ t B', 0 < t ∧ B' ⊆ B ∧
      Segment (joinUpper h bp x.1).ptr (joinUpper h bp x.1).size bp ((bp, t) :: B') base ∧
      ((bp, t) :: B').Pairwise Below ∧
      ∀ z, Covers ((bp, t) :: B') z ↔ Block.Has (bp, h.size bp) z ∨ Covers B z := by
  have hl := hr.linked
  have hup := hr.apart
  rw [hg.split] at hl hup
  obtain ⟨b, -, -, -, hB⟩ := segment_append.1 hl
  have hupB := (pairwise_cons.1 (pairwise_append.1 hup).2.1).2
  have hmem : ∀ y ∈ B, (joinUpper h bp x.1).mem y.1 = h.mem y.1 := fun y hy =>
    mem_joinUpper (ne_of_gt (hg.after y hy))
  obtain ⟨rfl, hptr⟩ | ⟨y, B', rfl, hptr⟩ := hg.ptr hr
  · have hno : plus bp (h.size bp) ≠ h.ptr x.1 := by
      rw [hptr, plus]
      omega
    refine ⟨h.size bp, [], hpos, fun _ hy => hy, ?_, pairwise_singleton _ _, fun z => ?_⟩
    · rw [joinUpper, if_neg hno, hptr]
      exact ⟨rfl, by simp, by simp [Segment]⟩
    · rw [covers_cons]
  obtain ⟨-, hy, hB'⟩ := hB
  obtain ⟨hyB', hupB'⟩ := pairwise_cons.1 hupB
  by_cases hyes : plus bp (h.size bp) = h.ptr x.1
  · have hend : plus bp (h.size bp + y.2) = plus y.1 y.2 := by
      rw [← hptr, ← hyes]
      simp only [plus, sizeofHeader]
      omega
    refine ⟨h.size bp + y.2, B', by omega, fun _ hz => mem_cons_of_mem _ hz, ?_, ?_, ?_⟩
    · have hrest := linked_of_mem hB' fun z hz => hmem z (mem_cons_of_mem _ hz)
      have hself : (joinUpper h bp x.1).ptr bp = h.ptr y.1 ∧
          (joinUpper h bp x.1).size bp = h.size bp + y.2 := by
        rw [joinUpper, if_pos hyes, hptr]
        exact ⟨by simp, by simp [hy]⟩
      exact ⟨rfl, hself.2, by rw [hself.1]; exact hrest⟩
    · refine pairwise_cons.2 ⟨fun z hz => ?_, hupB'⟩
      have hyz := hyB' z hz
      rw [Below, hend]
      exact hyz
    · intro z
      rw [covers_cons, covers_cons, covers_join, hyes, hptr, or_assoc]
  · have hlt : plus bp (h.size bp) < y.1 :=
      lt_of_le_of_ne (habove y mem_cons_self) fun he => hyes (he.trans hptr.symm)
    refine ⟨h.size bp, y :: B', hpos, fun _ hz => hz, ?_, ?_, fun z => covers_cons⟩
    · have hrest : Segment h.ptr h.size y.1 (y :: B') base := ⟨rfl, hy, hB'⟩
      have hrest' := linked_of_mem hrest hmem
      have hself : (joinUpper h bp x.1).ptr bp = y.1 ∧
          (joinUpper h bp x.1).size bp = h.size bp := by
        rw [joinUpper, if_neg hyes, hptr]
        exact ⟨by simp, by simp⟩
      exact ⟨rfl, hself.2, by rw [hself.1]; exact hrest'⟩
    · refine pairwise_cons.2 ⟨fun z hz => ?_, hupB⟩
      obtain rfl | hz := mem_cons.1 hz
      · exact hlt
      · exact hlt.trans (hyB' z hz).lt

theorem joinLower_spec {t : ℕ} (hx : h.size x.1 = x.2) (hlt : x.1 < bp) (hle : plus x.1 x.2 ≤ bp)
    (hl : Segment h.ptr h.size bp ((bp, t) :: B) base) (hup : ((bp, t) :: B).Pairwise Below) :
    ∃ x' T, x'.1 = x.1 ∧ x.2 ≤ x'.2 ∧ (x.2 = 0 → x' = x) ∧ T ⊆ (bp, t) :: B ∧
      Segment (joinLower h bp x.1).ptr (joinLower h bp x.1).size x.1 (x' :: T) base ∧
      (x' :: T).Pairwise Below ∧
      ∀ z, Covers (x' :: T) z ↔ Block.Has x z ∨ Covers ((bp, t) :: B) z := by
  obtain ⟨hB, hupB⟩ := pairwise_cons.1 hup
  have hmem : ∀ y ∈ (bp, t) :: B, (joinLower h bp x.1).mem y.1 = h.mem y.1 := by
    intro y hy
    refine mem_joinLower (ne_of_gt ?_)
    obtain rfl | hy := mem_cons.1 hy
    · exact hlt
    · exact hlt.trans (hB y hy).lt
  have hrest := linked_of_mem hl hmem
  obtain ⟨-, hbp, hlB⟩ := hl
  by_cases hyes : plus x.1 (h.size x.1) = bp
  · have hend : plus x.1 (x.2 + t) = plus bp t := by
      rw [← hyes, hx]
      simp only [plus, sizeofHeader]
      omega
    refine ⟨(x.1, x.2 + t), B, rfl, Nat.le_add_right _ _, fun h0 => ?_,
      fun _ hz => mem_cons_of_mem _ hz, ?_, ?_, fun z => ?_⟩
    · rw [hx, h0, plus] at hyes
      omega
    · have hself : (joinLower h bp x.1).ptr x.1 = h.ptr bp ∧
          (joinLower h bp x.1).size x.1 = x.2 + t := by
        rw [joinLower, if_pos hyes]
        exact ⟨by simp, by simp [hx, hbp]⟩
      refine ⟨rfl, hself.2, ?_⟩
      rw [hself.1]
      exact linked_of_mem hlB fun y hy => hmem y (mem_cons_of_mem _ hy)
    · refine pairwise_cons.2 ⟨fun z hz => ?_, hupB⟩
      rw [Below, hend]
      exact hB z hz
    · rw [covers_cons, covers_cons, covers_join, ← hx, hyes, or_assoc, hx]
  · have hlt' : plus x.1 x.2 < bp := lt_of_le_of_ne hle fun he => hyes (by rw [hx, he])
    refine ⟨x, (bp, t) :: B, rfl, le_rfl, fun _ => rfl, fun _ hz => hz, ?_, ?_, fun z => covers_cons⟩
    · have hself : (joinLower h bp x.1).ptr x.1 = bp ∧
          (joinLower h bp x.1).size x.1 = x.2 := by
        rw [joinLower, if_neg hyes]
        exact ⟨by simp, by simp [hx]⟩
      refine ⟨rfl, hself.2, ?_⟩
      rw [hself.1]
      exact hrest
    · refine pairwise_cons.2 ⟨fun z hz => ?_, hup⟩
      obtain rfl | hz := mem_cons.1 hz
      · exact hlt'
      · exact hlt'.trans (hB z hz).lt

theorem mem_join {a p : ℕ} (hbp : a ≠ bp) (hp : a ≠ p) : (join h bp p).mem a = h.mem a :=
  (mem_joinLower hp).trans (mem_joinUpper hbp)

theorem or_comm_last (a b c d : Prop) : a ∨ b ∨ d ∨ c ↔ (a ∨ b ∨ c) ∨ d := by tauto

theorem join_ring (hr : Ring base h l) (hg : Gap base h l A B x bp) (hbase : base < bp)
    (hpos : 0 < h.size bp) (hbelow : plus x.1 x.2 ≤ bp)
    (habove : ∀ y ∈ B, plus bp (h.size bp) ≤ y.1) :
    ∃ l', Ring base (join h bp x.1) l' ∧
      ∀ z, Covers l' z ↔ Covers l z ∨ Block.Has (bp, h.size bp) z := by
  obtain ⟨t, B', ht, hsub, hl₁, hup₁, hcov₁⟩ := joinUpper_spec hr hg hbase hpos habove
  have hl := hr.linked
  have hup := hr.apart
  have hsplit := hg.split
  rw [hsplit] at hl hup
  obtain ⟨b, hA, hb, hx, -⟩ := segment_append.1 hl
  obtain ⟨hupA, -, hAx⟩ := pairwise_append.1 hup
  have hx₁ : (joinUpper h bp x.1).size x.1 = x.2 := by
    rw [← hx]
    exact congrArg Header.size (mem_joinUpper (ne_of_lt hg.before))
  obtain ⟨x', T, hx', hle, hzero, hT, hl₂, hup₂, hcov₂⟩ :=
    joinLower_spec hx₁ hg.before hbelow hl₁ hup₁
  have hAx' : ∀ a ∈ A, ∀ y ∈ x' :: T, Below a y := by
    intro a ha y hy
    have hax : plus a.1 a.2 < x.1 := hAx a ha x mem_cons_self
    obtain rfl | hy := mem_cons.1 hy
    · rw [Below, hx']
      exact hax
    · have hxy := ((pairwise_cons.1 hup₂).1 y hy).lt
      rw [hx'] at hxy
      exact hax.trans hxy
  have hA' : Segment (join h bp x.1).ptr (join h bp x.1).size base A x.1 := by
    rw [hb] at hA
    refine linked_of_mem hA fun a ha => ?_
    have hax := (hAx a ha x mem_cons_self).lt
    exact mem_join (ne_of_lt (hax.trans hg.before)) (ne_of_lt hax)
  have hall : Segment (join h bp x.1).ptr (join h bp x.1).size base (A ++ x' :: T) base :=
    segment_append.2 ⟨x.1, hA', hl₂⟩
  have happart : (A ++ x' :: T).Pairwise Below := pairwise_append.2 ⟨hupA, hup₂, hAx'⟩
  have hTpos : ∀ y ∈ T, 0 < y.2 := by
    intro y hy
    obtain rfl | hy := mem_cons.1 (hT hy)
    · exact ht
    · have hyB := hsub hy
      refine hr.pos y ?_
      cases A with
      | nil =>
        rw [(List.cons.inj hsplit).2]
        exact hyB
      | cons a A =>
        rw [(List.cons.inj hsplit).2]
        exact mem_append_right _ (mem_cons_of_mem _ hyB)
  -- `base` stays at the front, whether or not it is the node before the gap
  cases A with
  | nil =>
    obtain ⟨hxb, hlB⟩ := List.cons.inj hsplit
    have hxx' : x' = x := hzero (by rw [← hxb])
    rw [nil_append, hxx', ← hxb] at happart
    rw [nil_append, hxx'] at hall
    have hring : Ring base (join h bp x.1) T :=
      ⟨by rw [hxb]; exact hall, happart, hTpos, (base, 0), mem_cons_self, by rw [hxb, join]⟩
    refine ⟨T, hring, ?_⟩
    intro z
    have hz := hcov₂ z
    have hz₁ := hcov₁ z
    have hnone : ¬Block.Has (base, 0) z := by
      rw [Block.Has, plus]
      omega
    rw [covers_cons, hxx', ← hxb, or_iff_right hnone, or_iff_right hnone, hz₁] at hz
    rw [hlB, hz, or_comm]
  | cons a A =>
    obtain ⟨hab, hlA⟩ : (base, 0) = a ∧ l = A ++ x :: B := List.cons.inj hsplit
    rw [← hab, cons_append] at hall happart
    have hxl : x ∈ l := by
      rw [hlA]
      exact mem_append_right _ mem_cons_self
    refine ⟨A ++ x' :: T, ⟨hall, happart, fun y hy => ?_, x', by simp, hx'.symm⟩, ?_⟩
    · obtain hy | hy := mem_append.1 hy
      · exact hr.pos y (by rw [hlA]; exact mem_append_left _ hy)
      · obtain rfl | hy := mem_cons.1 hy
        · exact (hr.pos x hxl).trans_le hle
        · exact hTpos y hy
    · intro z
      have hz := hcov₂ z
      have hz₁ := hcov₁ z
      rw [covers_append, hlA, covers_append, hz, hz₁, covers_cons]
      exact or_comm_last _ _ _ _

/-! ## `free` -/

/-- The two blocks have no byte in common. -/
def Disj (x y : Block) : Prop := ∀ z, Block.Has x z → ¬Block.Has y z

theorem Disj.le_or {x y : Block} (hd : Disj x y) (hx : 0 < x.2) (hy : 0 < y.2) :
    plus x.1 x.2 ≤ y.1 ∨ plus y.1 y.2 ≤ x.1 := by
  by_contra hno
  simp only [plus, sizeofHeader] at hno
  refine hd (max x.1 y.1) ?_ ?_
  all_goals
    simp only [Block.Has, plus, sizeofHeader]
    omega

theorem exists_gap {a : Block} (hup : (a :: l).Pairwise Below) (ha : a.1 < bp)
    (hne : ∀ y ∈ l, y.1 ≠ bp) :
    ∃ A x B, a :: l = A ++ x :: B ∧ x.1 < bp ∧ ∀ y ∈ B, bp < y.1 := by
  induction l generalizing a with
  | nil => exact ⟨[], a, [], rfl, ha, fun _ hy => absurd hy not_mem_nil⟩
  | cons b l ih =>
    obtain ⟨-, hup'⟩ := pairwise_cons.1 hup
    obtain hb | hb := lt_or_gt_of_ne (hne b mem_cons_self)
    · obtain ⟨A, x, B, hsplit, hx, hB⟩ := ih hup' hb fun y hy => hne y (mem_cons_of_mem _ hy)
      exact ⟨a :: A, x, B, by rw [hsplit]; rfl, hx, hB⟩
    · refine ⟨[], a, b :: l, rfl, ha, fun y hy => ?_⟩
      obtain rfl | hy := mem_cons.1 hy
      · exact hb
      · exact hb.trans ((pairwise_cons.1 hup').1 y hy).lt

theorem has_self {x : Block} (hx : 0 < x.2) : Block.Has x x.1 := by
  simp only [Block.Has, plus, sizeofHeader]
  omega

theorem free_spec (hr : Ring base h l) (hbase : base < bp) (hpos : 0 < h.size bp)
    (hdisj : ∀ z, Block.Has (bp, h.size bp) z → ¬Covers l z) :
    ∃ h' l', (∀ n, free (n + (l.length + 2)) h bp = some h') ∧ Ring base h' l' ∧
      (∀ z, Covers l' z ↔ Covers l z ∨ Block.Has (bp, h.size bp) z) ∧
      ∀ a, a ≠ base → a ≠ bp → ¬Covers l a → h'.mem a = h.mem a := by
  have hone : ∀ y ∈ l, Disj y (bp, h.size bp) := fun y hy z hz hz' => hdisj z hz' ⟨y, hy, hz⟩
  have hne : ∀ y ∈ l, y.1 ≠ bp := by
    rintro y hy rfl
    exact hone y hy y.1 (has_self (hr.pos y hy)) (has_self hpos)
  obtain ⟨A, x, B, hsplit, hx, hB⟩ := exists_gap hr.apart hbase hne
  have hg : Gap base h l A B x bp := ⟨hsplit, hx, hB⟩
  have hB' : ∀ y ∈ B, y ∈ l := by
    intro y hy
    have hmem : y ∈ (base, 0) :: l := by
      rw [hsplit]
      exact mem_append_right _ (mem_cons_of_mem _ hy)
    obtain rfl | hmem := mem_cons.1 hmem
    · exact absurd (hB _ hy) (by dsimp only; omega)
    · exact hmem
  have hbelow : plus x.1 x.2 ≤ bp := by
    have hmem : x ∈ (base, 0) :: l := by
      rw [hsplit]
      exact mem_append_right _ mem_cons_self
    obtain rfl | hmem := mem_cons.1 hmem
    · exact hx.le
    · obtain hle | hle := (hone x hmem).le_or (hr.pos x hmem) hpos
      · exact hle
      · simp only [plus, sizeofHeader] at hle
        omega
  have habove : ∀ y ∈ B, plus bp (h.size bp) ≤ y.1 := by
    intro y hy
    have hby := hB y hy
    obtain hle | hle := (hone y (hB' y hy)).le_or (hr.pos y (hB' y hy)) hpos
    · simp only [plus, sizeofHeader] at hle
      omega
    · exact hle
  obtain ⟨l', hring, hcov⟩ := join_ring hr hg hbase hpos hbelow habove
  refine ⟨join h bp x.1, l', fun n => ?_, hring, hcov, fun a hab habp hcova => ?_⟩
  · rw [free, findGap_eq hr hg hbase n]
    rfl
  · refine mem_join habp fun hax => ?_
    have hmem : x ∈ (base, 0) :: l := by
      rw [hsplit]
      exact mem_append_right _ mem_cons_self
    obtain rfl | hmem := mem_cons.1 hmem
    · exact hab hax
    · refine hcova ⟨x, hmem, ?_⟩
      rw [hax]
      exact has_self (hr.pos x hmem)

end Xv6.Umalloc
