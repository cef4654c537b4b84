import Xv6.Umalloc.Machine
import Xv6.PageOwner.Grow

/-!
# `malloc` on top of `sys_sbrk`

The allocator with the kernel's `sys_sbrk` and `growproc` below it, both with the 32-bit arithmetic
of the source.

* `malloc_fits` — as long as sizes do not overflow, what `malloc` returns is as large as asked for
  and below the end of the process.
* `malloc_too_small` — and what happens when they do.
-/

namespace Xv6.Umalloc

open Xv6.Lib Xv6.Mem Xv6.PageOwner Xv6.SharedMem List Option

variable {P : Type}

/-- What `sbrk` reads and writes: the process and the page allocator, and for the record the
regions given to `malloc`. -/
structure Kernel (P : Type) where
  proc : SharedMem.Proc P
  kmem : Kmem
  regions : List Block

/-- `sys_sbrk`, the old size or -1. A kernel that panics returns to no one. -/
def sysSbrk (L : Layout) (n : BitVec 32) (k : Kernel P) : Option ℕ × Kernel P :=
  match growproc L n k.proc k.kmem with
  | .error _ => (none, k)
  | .ok (r, pr, km) =>
    if r < 0 then (none, { k with proc := pr, kmem := km })
    else (some k.proc.sz, ⟨pr, km, k.regions ++ [(k.proc.sz, n.toNat / sizeofHeader)]⟩)

/-- The kernel below the program; its memory reaches to the end of the page that `sz` is in. -/
def kernelSys (L : Layout) : Sys (Kernel P) where
  sbrk := sysSbrk L
  mapped p k := p + sizeofHeader ≤ pages k.proc.sz * PGSIZE

/-- The program and its kernel. -/
structure Process (P : Type) where
  heap : Heap
  live : List (Block × ℕ)
  kernel : Kernel P

/-- A call. -/
inductive Call
  | malloc (nbytes : BitVec 32) (n : ℕ)
  | free (ap : ℕ) (n : ℕ)
  /-- The program calls `sbrk` for itself. -/
  | sbrk (n : BitVec 32)

/-- What the allocator knows of. -/
def Process.state (s : Process P) : State := ⟨s.heap, s.live, s.kernel.regions⟩

/-- One call. -/
def run (L : Layout) (base : ℕ) (s : Process P) : Call → Option (Process P)
  | .malloc nbytes n =>
    match malloc base (kernelSys L) n nbytes s.heap s.kernel with
    | none => none
    | some (none, h, k) => some { s with heap := h, kernel := k }
    | some (some ap, h, k) =>
      some ⟨h, ((ap - sizeofHeader, h.size (ap - sizeofHeader)), nbytes.toNat) :: s.live, k⟩
  | .free ap n =>
    (step base s.state (.free ap n)).map fun t => { s with heap := t.heap, live := t.live }
  | .sbrk n => some { s with kernel := { (sysSbrk L n s.kernel).2 with regions := s.kernel.regions } }

/-- Sizes do not overflow, and the program takes no memory away. -/
def Sized : Call → Prop
  | .malloc nbytes _ => Small nbytes
  | .free _ _ => True
  | .sbrk n => 0 ≤ n.toInt

/-- The program has not called `malloc` yet; `base` is in its memory. -/
def Loaded (base : ℕ) (s : Process P) : Prop :=
  Initial s.state ∧ plus base 1 ≤ s.kernel.proc.sz ∧ s.kernel.proc.sz < 2 ^ 31

def process (L : Layout) (base : ℕ) (P : Type) : Lts (Process P) Call where
  init := Loaded base
  step := run L base

/-! ## `growproc` -/

variable {L : Layout} {base : ℕ}

theorem growproc_size {n : BitVec 32} {pr pr' : SharedMem.Proc P} {k k' : Kmem} {r : ℤ}
    (hn : 0 ≤ n.toInt) (hsz : pr.sz < 2 ^ 31) (h : growproc L n pr k = .ok (r, pr', k')) :
    r = -1 ∧ pr'.sz = pr.sz ∨ r = 0 ∧ pr'.sz = pr.sz + n.toNat ∧ pr'.sz < 2 ^ 31 := by
  have hK : KERNBASE.toNat * PGSIZE = 2147483648 := rfl
  rcases hn.eq_or_lt with hzero | hn
  · rw [growproc, if_neg (by omega), if_neg (by omega)] at h
    cases h
    have hnat : n.toNat = 0 := by
      rw [BitVec.toInt] at hzero
      split at hzero <;> omega
    exact .inr ⟨rfl, by omega, hsz⟩
  have hnew : (BitVec.ofNat 32 pr.sz + n).toNat = pr.sz + n.toNat := by
    rw [BitVec.toInt] at hn
    rw [BitVec.toNat_add, BitVec.toNat_ofNat]
    split at hn <;> omega
  rw [growproc, if_pos hn, hnew, allocuvm, if_neg (by omega : ¬pr.sz + n.toNat < pr.sz)] at h
  by_cases hbig : KERNBASE.toNat * PGSIZE ≤ pr.sz + n.toNat
  · rw [if_pos hbig] at h
    have hh := Prod.mk.inj (Except.ok.inj h)
    exact .inl ⟨hh.1.symm, congrArg SharedMem.Proc.sz (Prod.mk.inj hh.2).1.symm⟩
  · rw [if_neg hbig] at h
    cases ha : allocLoop L pr.sz (pr.sz + n.toNat) (pages (pr.sz + n.toNat) - pages pr.sz)
        (pages pr.sz) k pr.pgdir with
    | error f =>
      rw [ha] at h
      cases h
    | ok x =>
      rw [ha] at h
      obtain ⟨b, k₁, pd₁⟩ := x
      cases b with
      | false =>
        have hh := Prod.mk.inj (Except.ok.inj h)
        have hsize := congrArg SharedMem.Proc.sz (Prod.mk.inj hh.2).1.symm
        exact .inl ⟨hh.1.symm, hsize⟩
      | true =>
        have hne : pr.sz + n.toNat ≠ 0 := by
          intro hzero
          have hn0 : n = 0 := BitVec.toNat_eq.2 (by change n.toNat = 0; omega)
          rw [hn0] at hn
          exact absurd hn (by decide)
        change (if pr.sz + n.toNat = 0 then _ else _) = _ at h
        rw [if_neg hne] at h
        have hh := Prod.mk.inj (Except.ok.inj h)
        have hsize : pr'.sz = pr.sz + n.toNat :=
          congrArg SharedMem.Proc.sz (Prod.mk.inj hh.2).1.symm
        exact .inr ⟨hh.1.symm, hsize, by omega⟩

theorem sysSbrk_spec {n : BitVec 32} {k : Kernel P} (hn : 0 ≤ n.toInt) (hsz : k.proc.sz < 2 ^ 31) :
    ∃ answer k', sysSbrk L n k = (answer, k') ∧
      (answer = none ∧ k'.proc.sz = k.proc.sz ∧ k'.regions = k.regions ∨
        answer = some k.proc.sz ∧ k'.proc.sz = k.proc.sz + n.toNat ∧ k'.proc.sz < 2 ^ 31 ∧
          k'.regions = k.regions ++ [(k.proc.sz, n.toNat / sizeofHeader)]) := by
  rw [sysSbrk]
  cases hg : growproc L n k.proc k.kmem with
  | error f => exact ⟨none, k, rfl, .inl ⟨rfl, rfl, rfl⟩⟩
  | ok x =>
    obtain ⟨r, pr, km⟩ := x
    dsimp only
    obtain ⟨rfl, hsize⟩ | ⟨rfl, hsize, hlt⟩ := growproc_size hn hsz hg
    · rw [if_pos (by decide)]
      exact ⟨_, _, rfl, .inl ⟨rfl, hsize, rfl⟩⟩
    · rw [if_neg (by decide)]
      exact ⟨_, _, rfl, .inr ⟨rfl, hsize, hlt, rfl⟩⟩

/-! ## Every run -/

/-- The heap is sound, and all of it is below the end of the process. -/
structure Below31 (base : ℕ) (s : Process P) (l : List Block) : Prop where
  sound : Sound base s.state l
  base : plus base 1 ≤ s.kernel.proc.sz
  size : s.kernel.proc.sz < 2 ^ 31
  regions : ∀ r ∈ s.kernel.regions, plus r.1 r.2 ≤ s.kernel.proc.sz

variable {s : Process P} {l : List Block}

theorem Below31.malloc (h : Below31 base s l) (hbase : 0 < base) {nbytes : BitVec 32}
    (hsmall : Small nbytes) {n : ℕ} {r : Option ℕ × Heap × Kernel P}
    (hrun : malloc base (kernelSys L) n nbytes s.heap s.kernel = some r) :
    ∃ l', r.1 = none ∧ Below31 base ⟨r.2.1, s.live, r.2.2⟩ l' ∨
      ∃ q nu, r.1 = some (plus q 1) ∧ r.2.1.size q = nu ∧
        Below31 base ⟨r.2.1, ((q, nu), nbytes.toNat) :: s.live, r.2.2⟩ l' := by
  obtain ⟨harg, hmax⟩ := sbrk_units hsmall
  have hpos : 0 < coreUnits (nunits nbytes) := by
    rw [coreUnits]
    split <;> omega
  have hint : 0 < (BitVec.ofNat 32 (coreUnits (nunits nbytes) * sizeofHeader)).toInt := by
    rw [BitVec.toInt, harg, sizeofHeader] at *
    split <;> omega
  obtain ⟨answer, k', hcall, hkernel⟩ := sysSbrk_spec (L := L) hint.le h.size
  rw [harg, Nat.mul_div_cancel _ (by decide : 0 < sizeofHeader)] at hkernel
  have hanswer : ∀ a, answer = some a →
      plus base 1 ≤ a ∧ ∀ r ∈ s.state.regions, plus r.1 r.2 ≤ a := by
    rintro a rfl
    obtain ⟨hno, -⟩ | ⟨hyes, -⟩ := hkernel
    · exact absurd hno (some_ne_none a)
    · cases hyes
      exact ⟨h.base, h.regions⟩
  have hmapped : ∀ a, answer = some a → (kernelSys L).mapped a k' = true := by
    rintro a rfl
    obtain ⟨hno, -⟩ | ⟨hyes, hsz, -⟩ := hkernel
    · exact absurd hno (some_ne_none a)
    · cases hyes
      refine decide_eq_true ?_
      rw [hsz, pages, PGSIZE, sizeofHeader]
      omega
  obtain ⟨r', ⟨N, hrun'⟩, hres⟩ :=
    h.sound.mallocWith hbase (kernelSys L) s.kernel hsmall hcall hmapped hanswer
  obtain rfl : r' = r := eq_of_fuel
    (f := fun n => Umalloc.malloc base (kernelSys L) n nbytes s.heap s.kernel)
    (fun k => mallocLoop_mono k hrun) hrun'
  -- the kernel after the call
  have hafter : ∀ regions, (r'.2.2 = s.kernel ∧ regions = s.kernel.regions ∨ r'.2.2 = k' ∧
      (answer = none ∧ regions = s.kernel.regions ∨ answer ≠ none ∧
        regions = s.kernel.regions ++ [(s.kernel.proc.sz, coreUnits (nunits nbytes))])) →
      r'.2.2.regions = regions ∧ plus base 1 ≤ r'.2.2.proc.sz ∧ r'.2.2.proc.sz < 2 ^ 31 ∧
        ∀ x ∈ r'.2.2.regions, plus x.1 x.2 ≤ r'.2.2.proc.sz := by
    rintro regions (⟨hk, rfl⟩ | ⟨hk, hcase⟩)
    · rw [hk]
      exact ⟨rfl, h.base, h.size, h.regions⟩
    · rw [hk]
      obtain ⟨hno, hsz, hreg⟩ | ⟨hyes, hsz, hlt, hreg⟩ := hkernel
      · rw [hsz, hreg]
        obtain ⟨-, rfl⟩ | ⟨hne, -⟩ := hcase
        · exact ⟨rfl, h.base, h.size, h.regions⟩
        · exact absurd hno hne
      · have hbase' := h.base
        obtain ⟨hno, -⟩ | ⟨-, rfl⟩ := hcase
        · rw [hno] at hyes
          exact absurd hyes.symm (some_ne_none _)
        refine ⟨hreg, by omega, hlt, fun x hx => ?_⟩
        rw [hreg] at hx
        obtain hx | hx := mem_append.1 hx
        · exact (h.regions x hx).trans (by omega)
        · rw [mem_singleton.1 hx, hsz, plus, Nat.mul_comm]
  obtain ⟨hno, rfl⟩ | ⟨q, nu, l', regions, hsome, hsize, hreg, hsound⟩ := hres
  · obtain ⟨hregions, hb, hlt, hall⟩ := hafter _ (.inr ⟨rfl, .inl ⟨hno, rfl⟩⟩)
    refine ⟨l, .inl ⟨rfl, ⟨.inr ?_, h.sound.start_size, h.sound.room, h.sound.above, h.sound.live,
      h.sound.apart, ?_⟩, hb, hlt, hall⟩⟩
    · exact h.sound.started hbase
    · rw [Process.state, hregions]
      exact h.sound.units
  · have hcase : r'.2.2 = s.kernel ∧ regions = s.kernel.regions ∨ r'.2.2 = k' ∧
        (answer = none ∧ regions = s.kernel.regions ∨ answer ≠ none ∧
          regions = s.kernel.regions ++ [(s.kernel.proc.sz, coreUnits (nunits nbytes))]) := by
      obtain hsame | ⟨a, ha, hk, hregions⟩ := hreg
      · exact .inl hsame
      · refine .inr ⟨hk, .inr ⟨by rw [ha]; exact some_ne_none a, ?_⟩⟩
        obtain ⟨hno, -⟩ | ⟨hyes, -⟩ := hkernel
        · rw [ha] at hno
          exact absurd hno (some_ne_none a)
        · rw [hyes] at ha
          rw [hregions, Option.some.inj ha]
          rfl
    obtain ⟨hregions, hb, hlt, hall⟩ := hafter regions hcase
    refine ⟨l', .inr ⟨q, nu, hsome, hsize, ?_, hb, hlt, hall⟩⟩
    rw [Process.state, hregions]
    exact hsound

theorem Below31.run (h : Below31 base s l) (hbase : 0 < base) {c : Call} {t : Process P}
    (hc : Sized c) (hst : run L base s c = some t) : ∃ l', Below31 base t l' := by
  cases c with
  | malloc nbytes n =>
    rw [Umalloc.run] at hst
    cases hm : Umalloc.malloc base (kernelSys L) n nbytes s.heap s.kernel with
    | none =>
      rw [hm] at hst
      exact absurd hst (some_ne_none t).symm
    | some r =>
      rw [hm] at hst
      obtain ⟨l', ⟨hnone, hl'⟩ | ⟨q, nu, hsome, hsize, hl'⟩⟩ := h.malloc hbase hc hm
      · obtain ⟨res, h', k'⟩ := r
        dsimp only at hnone hl'
        rw [hnone] at hst
        cases hst
        exact ⟨l', hl'⟩
      · obtain ⟨res, h', k'⟩ := r
        dsimp only at hsome hsize hl'
        have hq : plus q 1 - sizeofHeader = q := by
          rw [plus]
          omega
        rw [hsome] at hst
        dsimp only at hst
        rw [hq, hsize] at hst
        cases hst
        exact ⟨l', hl'⟩
  | free ap n =>
    obtain ⟨u, hu, rfl⟩ := map_eq_some_iff.1 hst
    obtain ⟨l', hl'⟩ := sound_step hbase h.sound (a := .free ap n) trivial hu
    have hregions : u.regions = s.kernel.regions := by
      rw [step] at hu
      cases hfind : s.state.live.find? (fun b => plus b.1.1 1 = ap) with
      | none =>
        rw [hfind] at hu
        exact absurd hu (some_ne_none u).symm
      | some b =>
        rw [hfind] at hu
        obtain ⟨h', -, rfl⟩ := map_eq_some_iff.1 hu
        rfl
    refine ⟨l', ?_, h.base, h.size, h.regions⟩
    rw [Process.state, ← hregions]
    exact hl'
  | sbrk n =>
    cases hst
    obtain ⟨answer, k', hcall, hkernel⟩ := sysSbrk_spec (L := L) (n := n) hc h.size
    have hb := h.base
    have hlt := h.size
    have hsz : s.kernel.proc.sz ≤ k'.proc.sz ∧ k'.proc.sz < 2 ^ 31 := by
      obtain ⟨-, hsz, -⟩ | ⟨-, hsz, hlt', -⟩ := hkernel
      · omega
      · exact ⟨by omega, hlt'⟩
    rw [hcall]
    exact ⟨l, h.sound, hb.trans hsz.1, hsz.2, fun r hr => (h.regions r hr).trans hsz.1⟩

theorem Below31.end_le (h : Below31 base s l) {b : Block × ℕ} (hb : b ∈ s.live) :
    plus b.1.1 b.1.2 ≤ s.kernel.proc.sz := by
  have hpos := (h.sound.room b hb).1
  have hlast : Block.Has b.1 (plus b.1.1 b.1.2 - 1) := by
    simp only [Block.Has, plus, sizeofHeader]
    omega
  obtain ⟨r, hr, hhas⟩ := (h.sound.units _).2 (.inr ⟨b.1, mem_map_of_mem hb, hlast⟩)
  have hle := h.regions r hr
  have hlt := hhas.2
  omega

/-- **What `malloc` returns is large enough**, and below the end of the process, if no size has
overflowed: the header says at least `nbytes` bytes, and all of them are below `sz`. -/
theorem malloc_fits (L : Layout) (base : ℕ) (hbase : 0 < base) (s : Process P)
    (h : (process L base P).Reach (fun _ c => Sized c) s) (nbytes : BitVec 32)
    (hsmall : Small nbytes) (n ap : ℕ) (h' : Heap) (k' : Kernel P)
    (hrun : malloc base (kernelSys L) n nbytes s.heap s.kernel = some (some ap, h', k')) :
    nbytes.toNat ≤ sizeofHeader * (h'.size (ap - sizeofHeader) - 1) ∧
      ap + sizeofHeader * (h'.size (ap - sizeofHeader) - 1) ≤ k'.proc.sz := by
  obtain ⟨l, hs⟩ : ∃ l, Below31 base s l := by
    refine Lts.Reach.invariant (I := fun s => ∃ l, Below31 base s l) ?_ ?_ h
    · rintro s ⟨hinit, hb, hsz⟩
      refine ⟨[], initial_sound hinit, hb, hsz, fun r hr => ?_⟩
      have hregions : s.kernel.regions = [] := hinit.2.2
      rw [hregions] at hr
      exact absurd hr not_mem_nil
    · rintro s c t ⟨l, hl⟩ hc hst
      exact hl.run hbase hc hst
  obtain ⟨l', ⟨hnone, -⟩ | ⟨q, nu, hsome, hsize, hl'⟩⟩ := hs.malloc hbase hsmall hrun
  · exact absurd hnone (some_ne_none ap)
  · have hend := hl'.end_le mem_cons_self
    obtain ⟨hpos, hroom⟩ := hl'.sound.room _ mem_cons_self
    obtain rfl : ap = plus q 1 := Option.some.inj hsome
    have hq : plus q 1 - sizeofHeader = q := by
      rw [plus]
      omega
    dsimp only at hend hpos hroom hsize
    rw [hq, hsize]
    refine ⟨hroom, ?_⟩
    simp only [plus, sizeofHeader] at hend ⊢
    omega

/-- One page of user memory, with `base` in it, and ten free pages. -/
def onePageProcess : Process Unit :=
  ⟨⟨fun _ => ⟨0, 0⟩, 0⟩, [], ⟨oneUserPage, ⟨[0x80410, 0x80411, 0x80412, 0x80413, 0x80414, 0x80415,
    0x80416, 0x80417, 0x80418, 0x80419], fun _ _ => 0, fun _ => none⟩, []⟩⟩

theorem malloc_fits_one : ∃ ap h' k',
    malloc 64 (kernelSys smallLayout) 10 20 onePageProcess.heap onePageProcess.kernel =
        some (some ap, h', k') ∧
      20 ≤ sizeofHeader * (h'.size (ap - sizeofHeader) - 1) ∧
      ap + sizeofHeader * (h'.size (ap - sizeofHeader) - 1) ≤ k'.proc.sz := by
  have hinit : (process smallLayout 64 Unit).Reach (fun _ c => Sized c) onePageProcess :=
    .init ⟨⟨rfl, rfl, rfl⟩, by decide, by decide⟩
  have hrun : (malloc 64 (kernelSys smallLayout) 10 20 onePageProcess.heap
      onePageProcess.kernel).map Prod.fst = some (some 36840) := by decide +kernel
  obtain ⟨⟨res, h', k'⟩, hm, hres⟩ := map_eq_some_iff.1 hrun
  obtain rfl : res = some 36840 := hres
  exact ⟨36840, h', k', hm, malloc_fits smallLayout 64 (by decide) onePageProcess hinit 20
    (by decide) 10 36840 h' k' hm⟩

/-- Two pages of user memory, of which the process has asked for 4200 bytes. -/
def unalignedProcess : Process Unit :=
  { onePageProcess with
    kernel.proc := ⟨false, none, 4200, ⟨0x80400, Function.update (fun _ => none) (PDX 0)
      (some ⟨0x401, Function.update (Function.update (fun _ => none) (PTX 0)
        (some ⟨0x402, PTE_W ||| PTE_U⟩)) (PTX 1) (some ⟨0x403, PTE_W ||| PTE_U⟩)⟩)⟩, 0x80404⟩ }

/-- **A block that is too small, and one that is not there.** For `0xFFFFFFFF` bytes the number of
units wraps to 1, and the block has nothing but its header. For `0x80000000` bytes the argument of
`sbrk` is negative, `growproc` takes the wrapped size for no change and succeeds; the header is
stored in the rest of the last page, and the block starts above the end of the process. -/
theorem malloc_too_small :
    (malloc 64 (kernelSys smallLayout) 10 0xFFFFFFFF onePageProcess.heap onePageProcess.kernel).map
        (fun r => (r.1, r.1.map fun ap => sizeofHeader * (r.2.1.size (ap - sizeofHeader) - 1))) =
      some (some 36864, some 0) ∧
    (malloc 64 (kernelSys smallLayout) 10 0x80000000 unalignedProcess.heap
        unalignedProcess.kernel).map (fun r => (r.1, r.2.2.proc.sz)) = some (some 4208, 4200) := by
  refine ⟨?_, ?_⟩ <;> decide +kernel

end Xv6.Umalloc
