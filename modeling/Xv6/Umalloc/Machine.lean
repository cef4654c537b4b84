import Xv6.Lib.Lts
import Xv6.Umalloc.Malloc

/-!
# A program that allocates

Any sequence of calls of `malloc` and of `free` for blocks that are allocated.  `sbrk` answers
nothing, or a region above `base` and above all earlier regions.

* `Sound` — the ring of free blocks and the live blocks make up what `sbrk` has given.
* `heap_sound` — every state that is reached is sound, and every call comes to its end.
-/

namespace Xv6.Umalloc

open Xv6.Lib List

/-- The heap; the blocks that are allocated, with the numbers of bytes asked for; and the regions
`sbrk` has given. -/
structure State where
  heap : Heap
  live : List (Block × ℕ)
  regions : List Block

/-- A call, with a bound on the steps of its loops. -/
inductive Act
  /-- `malloc(nbytes)`, where `sbrk`, if it is called, returns `answer`. -/
  | malloc (nbytes : BitVec 32) (answer : Option ℕ) (n : ℕ)
  | free (ap : ℕ) (n : ℕ)

/-- `sbrk` notes the region it gives, which is memory of the process. -/
def sbrk (answer : Option ℕ) : Sys (List Block) where
  sbrk n regions :=
    match answer with
    | none => (none, regions)
    | some a => (some a, regions ++ [(a, n.toNat / sizeofHeader)])
  mapped _ _ := true

/-- One call. -/
def step (base : ℕ) (s : State) : Act → Option State
  | .malloc nbytes answer n =>
    match malloc base (sbrk answer) n nbytes s.heap s.regions with
    | none => none
    | some (none, h, regions) => some { s with heap := h, regions := regions }
    | some (some ap, h, regions) =>
      some ⟨h, ((ap - sizeofHeader, h.size (ap - sizeofHeader)), nbytes.toNat) :: s.live, regions⟩
  | .free ap n =>
    match s.live.find? (fun b => plus b.1.1 1 = ap) with
    | none => none
    | some b =>
      (free n s.heap (ap - sizeofHeader)).map fun h => { s with heap := h, live := s.live.erase b }

/-- The number of units is computed without overflow, and so is the argument of `sbrk`. -/
def Small (nbytes : BitVec 32) : Prop :=
  ((nbytes.toNat + sizeofHeader - 1) / sizeofHeader + 1) * sizeofHeader < 2 ^ 31

/-- What is asked of a caller and of `sbrk`. -/
def Allowed (base : ℕ) (s : State) : Act → Prop
  | .malloc nbytes answer _ => Small nbytes ∧
      ∀ a, answer = some a → plus base 1 ≤ a ∧ ∀ r ∈ s.regions, plus r.1 r.2 ≤ a
  | .free _ _ => True

instance (nbytes : BitVec 32) : Decidable (Small nbytes) := by
  unfold Small
  infer_instance

instance (base : ℕ) (s : State) : ∀ a, Decidable (Allowed base s a)
  | .malloc nbytes none _ => decidable_of_iff (Small nbytes) (by simp [Allowed])
  | .malloc nbytes (some a) _ =>
    decidable_of_iff (Small nbytes ∧ plus base 1 ≤ a ∧ ∀ r ∈ s.regions, plus r.1 r.2 ≤ a)
      (by simp [Allowed])
  | .free _ _ => .isTrue trivial

/-- The program has not called `malloc` yet. -/
def Initial (s : State) : Prop := s.heap.freep = 0 ∧ s.live = [] ∧ s.regions = []

def system (base : ℕ) : Lts State Act where
  init := Initial
  step := step base

/-! ## The invariant -/

/-- The live blocks. -/
def State.blocks (s : State) : List Block := s.live.map Prod.fst

/-- **A sound heap**, with the free blocks `l`. -/
structure Sound (base : ℕ) (s : State) (l : List Block) : Prop where
  ring : s.heap.freep = 0 ∧ l = [] ∧ s.live = [] ∨ Ring base s.heap l
  header : ∀ b ∈ s.live, s.heap.size b.1.1 = b.1.2
  room : ∀ b ∈ s.live, 0 < b.1.2 ∧ b.2 ≤ sizeofHeader * (b.1.2 - 1)
  above : ∀ b ∈ s.live, base < b.1.1
  live : s.blocks.Pairwise Disj
  apart : ∀ w, Covers l w → ¬Covers s.blocks w
  units : ∀ w, Covers s.regions w ↔ Covers l w ∨ Covers s.blocks w

variable {base : ℕ} {s : State} {l : List Block}

variable {nbytes : BitVec 32} {b : Block × ℕ}

theorem nunits_eq (h : Small nbytes) :
    nunits nbytes = (nbytes.toNat + sizeofHeader - 1) / sizeofHeader + 1 := by
  have h32 := nbytes.isLt
  have hone : (1 : BitVec 32).toNat = 1 := rfl
  have height : 8 % 2 ^ 32 = 8 := rfl
  rw [Small, sizeofHeader] at h
  rw [nunits, sizeofHeader, BitVec.toNat_add, BitVec.toNat_udiv, BitVec.toNat_sub,
    BitVec.toNat_add, BitVec.toNat_ofNat, hone, height]
  omega

theorem sbrk_eq (answer : Option ℕ) (n : BitVec 32) (regions : List Block) :
    (sbrk answer).sbrk n regions = (answer, ((sbrk answer).sbrk n regions).2) := by
  cases answer <;> rfl

theorem Sound.started (h : Sound base s l) (hbase : 0 < base) : Ring base (start base s.heap) l := by
  obtain ⟨hfree, rfl, -⟩ | hr := h.ring
  · rw [start, if_pos hfree]
    refine ⟨⟨rfl, ?_, ?_⟩, pairwise_singleton _ _, fun _ hx => absurd hx not_mem_nil,
      (base, 0), mem_cons_self, rfl⟩
    · simp [Heap.size]
    · simp [Segment, Heap.ptr]
  · have hne : s.heap.freep ≠ 0 := by
      obtain ⟨x, hx, hfree⟩ := hr.freep
      obtain rfl | hx := mem_cons.1 hx
      · rw [hfree]
        exact hbase.ne'
      · have hlt := ((pairwise_cons.1 hr.apart).1 x hx).lt
        omega
    rw [start, if_neg hne]
    exact hr

theorem Sound.start_size (h : Sound base s l) :
    ∀ b ∈ s.live, (start base s.heap).size b.1.1 = b.1.2 := by
  intro b hb
  rw [← h.header b hb]
  obtain ⟨-, -, hlive⟩ | hr := h.ring
  · rw [hlive] at hb
    exact absurd hb not_mem_nil
  · have habove := h.above b hb
    rw [start]
    split
    · simp [Heap.size, habove.ne']
    · rfl

theorem covers_blocks (hb : b ∈ s.live) (hpos : 0 < b.1.2) :
    Covers s.blocks b.1.1 :=
  ⟨b.1, mem_map_of_mem hb, has_self hpos⟩

theorem Sound.take (h : Sound base s l) {h₁ h' : Heap} {l₁ l' regions : List Block} {q nu bytes : ℕ}
    (ht : Taken base h₁ l₁ nu q h' l') (hnu : 0 < nu) (hbytes : bytes ≤ sizeofHeader * (nu - 1))
    (hsize : ∀ b ∈ s.live, h₁.size b.1.1 = b.1.2)
    (hapart : ∀ w, Covers l₁ w → ¬Covers s.blocks w)
    (hunits : ∀ w, Covers regions w ↔ Covers l₁ w ∨ Covers s.blocks w) :
    Sound base ⟨h', ((q, nu), bytes) :: s.live, regions⟩ l' := by
  refine ⟨.inr ht.ring, fun b hb => ?_, fun b hb => ?_, fun b hb => ?_, ?_, fun w hw hw' => ?_,
    fun w => ?_⟩
  · obtain rfl | hb := mem_cons.1 hb
    · exact ht.size
    · rw [← hsize b hb]
      have hcov := covers_blocks hb (h.room b hb).1
      exact congrArg Header.size (ht.others b.1.1 (h.above b hb).ne' fun hl => hapart _ hl hcov)
  · obtain rfl | hb := mem_cons.1 hb
    · exact ⟨hnu, hbytes⟩
    · exact h.room b hb
  · obtain rfl | hb := mem_cons.1 hb
    · exact ht.above
    · exact h.above b hb
  · refine pairwise_cons.2 ⟨fun y hy w hw hw' => ?_, h.live⟩
    exact hapart w ((ht.split w).2 (.inr hw)) ⟨y, hy, hw'⟩
  · obtain hw' | hw' := covers_cons.1 hw'
    · exact ht.apart w hw' hw
    · exact hapart w ((ht.split w).2 (.inl hw)) hw'
  · rw [hunits w, ht.split w]
    change _ ↔ Covers l' w ∨ Covers ((q, nu) :: s.blocks) w
    rw [covers_cons, or_assoc]

theorem Sound.mallocWith {σ : Type} (h : Sound base s l) (hbase : 0 < base)
    (sys : Sys σ) (k : σ) {answer : Option ℕ} {k' : σ}
    (hsmall : Small nbytes)
    (hcall : sys.sbrk (BitVec.ofNat 32 (coreUnits (nunits nbytes) * sizeofHeader)) k = (answer, k'))
    (hmapped : ∀ a, answer = some a → sys.mapped a k' = true)
    (hanswer : ∀ a, answer = some a → plus base 1 ≤ a ∧ ∀ r ∈ s.regions, plus r.1 r.2 ≤ a) :
    ∃ r, (∃ N, ∀ n, Umalloc.malloc base sys (n + N) nbytes s.heap k = some r) ∧
      (answer = none ∧ r = (none, start base s.heap, k') ∨
        ∃ q nu l' regions, r.1 = some (plus q 1) ∧ r.2.1.size q = nu ∧
          (r.2.2 = k ∧ regions = s.regions ∨ ∃ a, answer = some a ∧ r.2.2 = k' ∧
            regions = s.regions ++ [(a, coreUnits (nunits nbytes))]) ∧
          Sound base ⟨r.2.1, ((q, nu), nbytes.toNat) :: s.live, regions⟩ l') := by
  have hnu := nunits_eq hsmall
  have hpos : 0 < nunits nbytes := by
    rw [hnu]
    exact Nat.succ_pos _
  have hbytes : nbytes.toNat ≤ sizeofHeader * (nunits nbytes - 1) := by
    rw [hnu, sizeofHeader]
    omega
  have hring := h.started hbase
  have hcore : 0 < coreUnits (nunits nbytes) := by
    rw [coreUnits]
    split <;> omega
  -- a region that is above all others has no byte of them
  have hnew : ∀ a, answer = some a → ∀ w, Block.Has (a, coreUnits (nunits nbytes)) w →
      ¬Covers s.regions w := by
    rintro a ha w hw ⟨r, hr, hrw⟩
    have hle := (hanswer a ha).2 r hr
    simp only [Block.Has] at hw hrw
    omega
  have hfresh : ∀ a, answer = some a →
      base < a ∧ ∀ w, Block.Has (a, coreUnits (nunits nbytes)) w → ¬Covers l w := by
    intro a ha
    have hbase := (hanswer a ha).1
    rw [plus, sizeofHeader] at hbase
    exact ⟨by omega, fun w hw hl => hnew a ha w hw ((h.units w).2 (.inl hl))⟩
  obtain ⟨q, h', l', ht, N, hrun⟩ | ⟨rfl, N, hrun⟩ | ⟨a, rfl, q, h₁, l₁, h', l', ht, hcov, hothers,
      N, hrun⟩ := mallocLoop_spec sys k hring hpos hcall hmapped hfresh
  · refine ⟨_, ⟨N, hrun⟩, .inr ⟨q, nunits nbytes, l', s.regions, rfl, ht.size, .inl ⟨rfl, rfl⟩, ?_⟩⟩
    exact h.take ht hpos hbytes h.start_size h.apart h.units
  · exact ⟨_, ⟨N, hrun⟩, .inl ⟨rfl, rfl⟩⟩
  · refine ⟨_, ⟨N, hrun⟩, .inr ⟨q, nunits nbytes, l', _, rfl, ht.size, .inr ⟨a, rfl, rfl, rfl⟩, ?_⟩⟩
    have hregion : ∀ w, Block.Has (a, coreUnits (nunits nbytes)) w → ¬Covers s.blocks w :=
      fun w hw hb => hnew a rfl w hw ((h.units w).2 (.inr hb))
    refine h.take ht hpos hbytes (fun b hb => ?_) (fun w hw hb => ?_) fun w => ?_
    · have hself := covers_blocks hb (h.room b hb).1
      have hna : b.1.1 ≠ a := by
        rintro rfl
        exact hregion _ (has_self hcore) hself
      rw [← h.start_size b hb]
      exact congrArg Header.size
        (hothers _ (h.above b hb).ne' hna fun hl => h.apart _ hl hself)
    · obtain hl | hr := (hcov w).1 hw
      · exact h.apart w hl hb
      · exact hregion w hr hb
    · have hnil : ¬Covers [] w := by
        rintro ⟨_, hx, _⟩
        exact absurd hx not_mem_nil
      rw [covers_append, covers_cons, h.units w, hcov w, or_iff_left hnil, or_right_comm]

theorem sbrk_units (hsmall : Small nbytes) :
    (BitVec.ofNat 32 (coreUnits (nunits nbytes) * sizeofHeader)).toNat =
        coreUnits (nunits nbytes) * sizeofHeader ∧
      coreUnits (nunits nbytes) * sizeofHeader < 2 ^ 31 := by
  have hnu := nunits_eq hsmall
  rw [Small, ← hnu] at hsmall
  rw [BitVec.toNat_ofNat, coreUnits, sizeofHeader] at *
  split <;> omega

theorem Sound.malloc (h : Sound base s l) (hbase : 0 < base)
    {answer : Option ℕ} (hok : Allowed base s (.malloc nbytes answer 0)) :
    ∃ r, (∃ N, ∀ n, malloc base (sbrk answer) (n + N) nbytes s.heap s.regions = some r) ∧
      (r.1 = none ∧ r.2.1 = start base s.heap ∧ r.2.2 = s.regions ∨
        ∃ q nu l', r.1 = some (plus q 1) ∧ r.2.1.size q = nu ∧
          Sound base ⟨r.2.1, ((q, nu), nbytes.toNat) :: s.live, r.2.2⟩ l') := by
  obtain ⟨hsmall, hanswer⟩ := hok
  have harg : (BitVec.ofNat 32 (coreUnits (nunits nbytes) * sizeofHeader)).toNat / sizeofHeader =
      coreUnits (nunits nbytes) := by
    rw [(sbrk_units hsmall).1]
    exact Nat.mul_div_cancel _ (by decide)
  obtain ⟨r, hrun, ⟨rfl, rfl⟩ | ⟨q, nu, l', regions, hres, hsize, hreg, hsound⟩⟩ :=
    h.mallocWith hbase (sbrk answer) s.regions hsmall (sbrk_eq ..) (fun _ _ => rfl) hanswer
  · exact ⟨_, hrun, .inl ⟨rfl, rfl, rfl⟩⟩
  · refine ⟨r, hrun, .inr ⟨q, nu, l', hres, hsize, ?_⟩⟩
    have hregions : r.2.2 = regions := by
      obtain ⟨hr, rfl⟩ | ⟨a, rfl, hr, rfl⟩ := hreg
      · exact hr
      · rw [hr, sbrk]
        dsimp only
        rw [harg]
    rw [hregions]
    exact hsound

/-! ## Every run -/

theorem initial_sound (h : Initial s) : Sound base s [] := by
  obtain ⟨hfree, hlive, hregions⟩ := h
  have hnone : ∀ b, b ∉ s.live := by
    intro b
    rw [hlive]
    exact not_mem_nil
  have hblocks : s.blocks = [] := by rw [State.blocks, hlive, map_nil]
  have hnil : ∀ w, ¬Covers [] w := fun w ⟨_, hx, _⟩ => absurd hx not_mem_nil
  refine ⟨.inl ⟨hfree, rfl, hlive⟩, fun b hb => absurd hb (hnone b), fun b hb => absurd hb (hnone b),
    fun b hb => absurd hb (hnone b), ?_, fun w hw => absurd hw (hnil w), fun w => ?_⟩
  · rw [hblocks]
    exact List.Pairwise.nil
  · rw [hblocks, hregions]
    exact (or_self_iff).symm

theorem Sound.free (h : Sound base s l) (hb : b ∈ s.live) :
    ∃ h' l', (∃ N, ∀ n, free (n + N) s.heap b.1.1 = some h') ∧
      Sound base { s with heap := h', live := s.live.erase b } l' := by
  have hr : Ring base s.heap l := by
    obtain ⟨-, -, hlive⟩ | hr := h.ring
    · rw [hlive] at hb
      exact absurd hb not_mem_nil
    · exact hr
  have hsize := h.header b hb
  have hpos := (h.room b hb).1
  -- the other live blocks have no byte of this one
  have hperm : s.blocks.Perm (b.1 :: (s.live.erase b).map Prod.fst) :=
    (perm_cons_erase hb).map Prod.fst
  have hdisj : (b.1 :: (s.live.erase b).map Prod.fst).Pairwise Disj :=
    (hperm.pairwise_iff fun hxy z hy hx => hxy z hx hy).1 h.live
  obtain ⟨hother, hlive⟩ := pairwise_cons.1 hdisj
  have hcovb : ∀ w, Covers s.blocks w ↔
      Block.Has b.1 w ∨ Covers ((s.live.erase b).map Prod.fst) w := by
    intro w
    rw [← covers_cons, Covers, Covers]
    exact exists_congr fun x => and_congr_left' hperm.mem_iff
  have hmem : ∀ c ∈ s.live.erase b, c ∈ s.live := fun c hc => mem_of_mem_erase hc
  have hb' : (b.1.1, s.heap.size b.1.1) = b.1 := by rw [hsize]
  obtain ⟨h', l', hrun, hring, hcov, hothers⟩ := free_spec hr (h.above b hb) (by rw [hsize]; exact hpos)
    (fun w hw hl => h.apart w hl ((hcovb w).2 (.inl (by rw [hb'] at hw; exact hw))))
  rw [hb'] at hcov
  refine ⟨h', l', ⟨_, hrun⟩, .inr hring, fun c hc => ?_, fun c hc => h.room c (hmem c hc),
    fun c hc => h.above c (hmem c hc), hlive, fun w hw hw' => ?_, fun w => ?_⟩
  · have hcc := covers_blocks (hmem c hc) (h.room c (hmem c hc)).1
    have hne : c.1.1 ≠ b.1.1 := by
      intro heq
      refine hother c.1 (mem_map_of_mem hc) b.1.1 (has_self hpos) ?_
      rw [← heq]
      exact has_self (h.room c (hmem c hc)).1
    rw [← h.header c (hmem c hc)]
    exact congrArg Header.size
      (hothers _ (h.above c (hmem c hc)).ne' hne fun hl => h.apart _ hl hcc)
  · obtain hl | hbw := (hcov w).1 hw
    · exact h.apart w hl ((hcovb w).2 (.inr hw'))
    · obtain ⟨y, hy, hyw⟩ := hw'
      exact hother y hy w hbw hyw
  · rw [h.units w, hcovb w, hcov w, or_assoc]
    rfl

theorem find_live {ap : ℕ} (hfind : s.live.find? (fun b => plus b.1.1 1 = ap) = some b) :
    b ∈ s.live ∧ ap - sizeofHeader = b.1.1 := by
  have hap := find?_some hfind
  have hap' : plus b.1.1 1 = ap := of_decide_eq_true hap
  refine ⟨mem_of_find?_eq_some hfind, ?_⟩
  rw [← hap', plus]
  omega

theorem eq_of_fuel {α : Type} {f : ℕ → Option α} {N n : ℕ} {a b : α}
    (hmono : ∀ k, f (n + k) = some b) (ha : ∀ n, f (n + N) = some a) : a = b :=
  Option.some.inj ((ha n).symm.trans (hmono N))

theorem sound_step {a : Act} {t : State} (hbase : 0 < base) (h : Sound base s l)
    (hok : Allowed base s a) (hst : step base s a = some t) : ∃ l', Sound base t l' := by
  cases a with
  | malloc nbytes answer n =>
    obtain ⟨r, ⟨N, hrun⟩, hres⟩ := h.malloc hbase hok
    rw [step] at hst
    cases hm : malloc base (sbrk answer) n nbytes s.heap s.regions with
    | none =>
      rw [hm] at hst
      exact absurd hst (Option.some_ne_none t).symm
    | some r' =>
      obtain rfl : r = r' := eq_of_fuel
        (f := fun n => malloc base (sbrk answer) n nbytes s.heap s.regions)
        (fun k => mallocLoop_mono k hm) hrun
      rw [hm] at hst
      obtain ⟨res, h', regions⟩ := r
      obtain ⟨hnone, hheap, hregions⟩ | ⟨q, nu, l', hsome, hsize, hsound⟩ := hres
      · dsimp only at hnone hheap hregions
        rw [hnone] at hst
        cases hst
        refine ⟨l, .inr ?_, ?_, h.room, h.above, h.live, h.apart, ?_⟩
        · rw [hheap]
          exact h.started hbase
        · rw [hheap]
          exact h.start_size
        · rw [hregions]
          exact h.units
      · dsimp only at hsome hsize hsound
        have hq : plus q 1 - sizeofHeader = q := by
          rw [plus]
          omega
        rw [hsome] at hst
        dsimp only at hst
        rw [hq, hsize] at hst
        cases hst
        exact ⟨l', hsound⟩
  | free ap n =>
    rw [step] at hst
    cases hfind : s.live.find? (fun b => plus b.1.1 1 = ap) with
    | none =>
      rw [hfind] at hst
      exact absurd hst (Option.some_ne_none t).symm
    | some b =>
      rw [hfind] at hst
      obtain ⟨hb, hap⟩ := find_live hfind
      obtain ⟨h', l', ⟨N, hrun⟩, hsound⟩ := h.free hb
      obtain ⟨h'', hfree, rfl⟩ := Option.map_eq_some_iff.1 hst
      rw [hap] at hfree
      obtain rfl : h' = h'' := eq_of_fuel (f := fun n => free n s.heap b.1.1)
        (fun k => free_mono k hfree) hrun
      exact ⟨l', hsound⟩

/-- **The heap is sound in every run.** The free blocks make up one ring through `base`, in the
order of their addresses and no two of them adjacent; live blocks are disjoint from each other and
from the free ones and as large as asked for; together they are what `sbrk` has given. From there
every call comes to its end, and a `malloc` that returns 0 has done nothing but start the ring. -/
theorem heap_sound (base : ℕ) (hbase : 0 < base) (s : State)
    (h : (system base).Reach (Allowed base) s) :
    ∃ l, (s.heap.freep = 0 ∧ l = [] ∨ Ring base s.heap l) ∧ s.blocks.Pairwise Disj ∧
      (∀ w, Covers l w → ¬Covers s.blocks w) ∧
      (∀ b ∈ s.live, s.heap.size b.1.1 = b.1.2 ∧ b.2 ≤ sizeofHeader * (b.1.2 - 1)) ∧
      (∀ w, Covers s.regions w ↔ Covers l w ∨ Covers s.blocks w) ∧
      (∀ b ∈ s.live, ∃ N h', ∀ n, free (n + N) s.heap b.1.1 = some h') ∧
      ∀ nbytes answer, Allowed base s (.malloc nbytes answer 0) →
        ∃ N r, (∀ n, malloc base (sbrk answer) (n + N) nbytes s.heap s.regions = some r) ∧
          (r.1 = none → r.2.1 = start base s.heap ∧ r.2.2 = s.regions) := by
  obtain ⟨l, hs⟩ : ∃ l, Sound base s l := by
    refine Lts.Reach.invariant (I := fun s => ∃ l, Sound base s l) ?_ ?_ h
    · exact fun s hs => ⟨[], initial_sound hs⟩
    · rintro s a t ⟨l, hl⟩ hok hst
      exact sound_step hbase hl hok hst
  refine ⟨l, hs.ring.imp_left fun hz => ⟨hz.1, hz.2.1⟩, hs.live, hs.apart,
    fun b hb => ⟨hs.header b hb, (hs.room b hb).2⟩, hs.units, fun b hb => ?_,
    fun nbytes answer hok => ?_⟩
  · obtain ⟨h', -, ⟨N, hrun⟩, -⟩ := hs.free hb
    exact ⟨N, h', hrun⟩
  · obtain ⟨r, ⟨N, hrun⟩, ⟨-, hheap, hregions⟩ | ⟨q, nu, l', hsome, -⟩⟩ := hs.malloc hbase hok
    · exact ⟨N, r, hrun, fun _ => ⟨hheap, hregions⟩⟩
    · exact ⟨N, r, hrun, fun hnone => absurd (hsome.symm.trans hnone) (Option.some_ne_none _)⟩

/-- Nothing is allocated. -/
def fresh : State := ⟨⟨fun _ => ⟨0, 0⟩, 0⟩, [], []⟩

/-- Ten bytes and twenty bytes from a region at 8192, and then the ten bytes are freed. -/
def threeCalls : List Act :=
  [.malloc 10 (some 8192) 10, .malloc 20 none 10, .free 40944 10]

theorem heap_sound_three : ∃ s : State, (system 4096).Reach (Allowed 4096) s ∧
    s.live = [((40904, 4), 20)] ∧
    ∃ l, Ring 4096 s.heap l ∧ ∀ w, Covers s.regions w ↔ Covers l w ∨ Covers s.blocks w := by
  have hinit : (system 4096).Reach (Allowed 4096) fresh := .init ⟨rfl, rfl, rfl⟩
  obtain ⟨s, hs, hv⟩ := Lts.reach_of_exec_map threeCalls (fun s => (s.live, s.heap.freep))
    ([((40904, 4), 20)], 8192) hinit (by decide +kernel)
  obtain ⟨hlive, hfreep⟩ := Prod.mk.inj hv
  obtain ⟨l, hring, -, -, -, hunits, -⟩ := heap_sound 4096 (by decide) s hs
  refine ⟨s, hs, hlive, l, hring.resolve_left fun hz => ?_, hunits⟩
  rw [hz.1] at hfreep
  exact absurd hfreep (by decide)

end Xv6.Umalloc
