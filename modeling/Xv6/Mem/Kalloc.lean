import Mathlib

/-!
# The page allocator

`kalloc`, `kfree` and `freerange` of `kalloc.c`.  Addresses are 32-bit; a page is named by
its 20-bit number, and the null pointer is page 0.  The free list is a list of
pages, the kernel addresses `kfree` was given.

The source does not notice when `kfree` is given a page that is already free:
it links the page into the list a second time and the list becomes cyclic.  The
model reports `Fault.doubleFree` there and goes no further.

* `Kmem.use` records what each page was last handed out for.  No code reads it.
* `Kmem.Released` says what a group of calls of `kfree` did.
-/

namespace Xv6.Mem

open Function List

def PGSIZE : ℕ := 4096

/-- A 32-bit address. -/
abbrev Addr := BitVec 32

/-- The number of a page: an address without its twelve low bits. -/
abbrev Page := BitVec 20

instance lawfulBEq_page : LawfulBEq Page := inferInstance

/-- The contents of a page. -/
abbrev PageData := Fin PGSIZE → UInt8

/-- The page of an address, `PGROUNDDOWN`. -/
def pageOf (va : Addr) : Page := BitVec.ofNat 20 (va.toNat / PGSIZE)

/-- The first address of a page. -/
def base (p : Page) : Addr := BitVec.ofNat 32 (p.toNat * PGSIZE)

/-- `KERNBASE`, as a page. -/
def KERNBASE : Page := 0x80000#20

/-- `KERNLINK`, as a page. -/
def KERNLINK : Page := 0x80100#20

/-- `EXTMEM`, as a page. -/
def EXTMEM : Page := 0x100#20

/-- `PHYSTOP`, as a page. -/
def PHYSTOP : Page := 0xE000#20

/-- `DEVSPACE`, as a page. -/
def DEVSPACE : Page := 0xFE000#20

def V2P (v : Page) : Page := v - KERNBASE

def P2V (pa : Page) : Page := pa + KERNBASE

@[simp] theorem P2V_V2P (v : Page) : P2V (V2P v) = v := by
  simp [P2V, V2P]

@[simp] theorem V2P_P2V (pa : Page) : V2P (P2V pa) = pa := by
  simp [P2V, V2P]

/-- Where the linker put the kernel. -/
structure Layout where
  /-- The first page of the kernel's writable data, the symbol `data`. -/
  data : Page
  /-- The first page after the kernel, from the symbol `end`. -/
  kend : Page
  link_lt : KERNLINK < data
  /-- The data ends before the pages that are handed out. -/
  data_le : data ≤ kend
  kend_lt : kend < P2V PHYSTOP

/-- What goes wrong in the memory code. -/
inductive Fault
  | kfree
  /-- `kfree` of a page on the free list. -/
  | doubleFree
  | remap
  | copyuvmPte
  | copyuvmPresent
  | initExiting
  | clearpteu
  | userinit
  /-- A page fault in the kernel, `panic("trap")`. -/
  | trap
  deriving DecidableEq, Repr

/-- What a page was handed out for. -/
inductive Use
  /-- A kernel stack, a page directory, a page table or a pipe. -/
  | kernel
  | user
  /-- The frame of the shared page with this id. -/
  | shared (id : ℕ)
  deriving DecidableEq, Repr

/-- `kmem` and the memory it manages. -/
structure Kmem where
  freelist : List Page
  mem : Page → PageData
  /-- What each page was last handed out for, `none` once it is freed. -/
  use : Page → Option Use

/-- `memset` of a whole page. -/
def Kmem.memset (k : Kmem) (v : Page) (c : UInt8) : Kmem :=
  { k with mem := update k.mem v fun _ => c }

/-- `memmove` of a whole page. -/
def Kmem.memmove (k : Kmem) (dst src : Page) : Kmem :=
  { k with mem := update k.mem dst (k.mem src) }

def kfree (L : Layout) (v : Page) (k : Kmem) : Except Fault Kmem :=
  if v < L.kend ∨ PHYSTOP ≤ V2P v then .error .kfree
  else if v ∈ k.freelist then .error .doubleFree
  else .ok { k.memset v 1 with freelist := v :: k.freelist, use := update k.use v none }

/-- The loop of `freerange`, with `n` pages left from `v` on. -/
def freeLoop (L : Layout) : ℕ → Page → Kmem → Except Fault Kmem
  | 0, _, k => .ok k
  | n + 1, v, k => (kfree L v k).bind fun k => freeLoop L n (v + 1) k

/-- `freerange`, which is `kinit1` and `kinit2`. -/
def freerange (L : Layout) (vstart vend : Page) (k : Kmem) : Except Fault Kmem :=
  freeLoop L (vend.toNat - vstart.toNat) vstart k

/-- `kalloc`, for the given use. -/
def kalloc (u : Use) (k : Kmem) : Option (Page × Kmem) :=
  match k.freelist with
  | [] => none
  | r :: rest =>
    some (r, { k with freelist := rest, use := update k.use r (some u) })

@[simp] theorem Kmem.freelist_memset (k : Kmem) (v : Page) (c : UInt8) :
    (k.memset v c).freelist = k.freelist := rfl

@[simp] theorem Kmem.use_memset (k : Kmem) (v : Page) (c : UInt8) :
    (k.memset v c).use = k.use := rfl

@[simp] theorem Kmem.freelist_memmove (k : Kmem) (v w : Page) :
    (k.memmove v w).freelist = k.freelist := rfl

@[simp] theorem Kmem.use_memmove (k : Kmem) (v w : Page) : (k.memmove v w).use = k.use := rfl

/-! ## Sound allocators -/

/-- The free list holds each of its pages once, and only pages that were given
back and that `kfree` accepts. -/
structure Kmem.Ok (L : Layout) (k : Kmem) : Prop where
  /-- No page is twice on the list. -/
  nodup : k.freelist.Nodup
  /-- A page on the list is handed out to nobody. -/
  unused : ∀ v ∈ k.freelist, k.use v = none
  /-- A page on the list is one of those the allocator manages. -/
  managed : ∀ v ∈ k.freelist, L.kend ≤ v

variable {v : Page} {L : Layout} {k k' : Kmem} {u : Use}

theorem Layout.kend_ne_zero (L : Layout) (h : L.kend ≤ v) : v ≠ 0 := by
  rintro rfl
  have h₁ := L.link_lt
  have h₂ := L.data_le
  simp only [KERNLINK, BitVec.lt_def, BitVec.le_def] at h h₁ h₂
  simp at h h₁
  omega

theorem Kmem.Ok.notMem_of_use (h : k.Ok L) (hu : k.use v = some u) : v ∉ k.freelist := by
  intro hv
  rw [h.unused v hv] at hu
  cases hu

theorem Kmem.Ok.memset (h : k.Ok L) (v : Page) (c : UInt8) :
    (k.memset v c).Ok L :=
  ⟨h.nodup, h.unused, h.managed⟩

/-! ## What the two calls do -/

/-- `k'` is `k` after the pages of `M` were given back. -/
structure Kmem.Released (k k' : Kmem) (M : Multiset Page) : Prop where
  free : (k'.freelist : Multiset Page) = M + k.freelist
  use : ∀ v, k'.use v = if v ∈ M then none else k.use v

theorem Kmem.Released.refl (k : Kmem) : k.Released k 0 := by
  refine ⟨?_, ?_⟩
  · simp
  · simp

theorem Kmem.Released.trans {k₁ k₂ k₃ : Kmem} {M N : Multiset Page} (h₁ : k₁.Released k₂ M)
    (h₂ : k₂.Released k₃ N) : k₁.Released k₃ (M + N) := by
  refine ⟨?_, ?_⟩
  · rw [h₂.free, h₁.free]
    abel
  · intro v
    rw [h₂.use, h₁.use]
    by_cases hN : v ∈ N <;> by_cases hM : v ∈ M <;> simp [hN, hM]

theorem kfree_released (h : kfree L v k = .ok k') :
    k.Released k' {v} := by
  unfold kfree at h
  split at h
  · cases h
  · split at h
    · cases h
    · cases h
      refine ⟨by simp, ?_⟩
      intro w
      by_cases hw : w = v
      · simp [hw]
      · simp [hw]

theorem kfree_managed (h : kfree L v k = .ok k') :
    L.kend ≤ v := by
  unfold kfree at h
  split at h
  · cases h
  · rename_i hv
    exact BitVec.not_lt.1 fun hlt => hv (Or.inl hlt)

theorem kfree_error {e : Fault} (hv : v ∉ k.freelist) (h : kfree L v k = .error e) :
    e = .kfree := by
  unfold kfree at h
  split at h
  · cases h
    rfl
  · cases h

theorem kfree_notMem (h : kfree L v k = .ok k') :
    v ∉ k.freelist := by
  unfold kfree at h
  split at h
  · cases h
  · split at h
    · cases h
    · assumption

theorem Kmem.Ok.kfree (hk : k.Ok L) (h : Mem.kfree L v k = .ok k') : k'.Ok L := by
  have hman := kfree_managed h
  have hnot := kfree_notMem h
  have hrel := kfree_released h
  have hperm : k'.freelist.Perm (v :: k.freelist) := Multiset.coe_eq_coe.1 hrel.free
  refine ⟨?_, ?_, ?_⟩
  · exact hperm.nodup_iff.2 (nodup_cons.2 ⟨hnot, hk.nodup⟩)
  · intro w hw
    rw [hrel.use]
    rcases mem_cons.1 (hperm.mem_iff.1 hw) with rfl | hw
    · simp
    · simp [hk.unused w hw]
  · intro w hw
    rcases mem_cons.1 (hperm.mem_iff.1 hw) with rfl | hw
    · exact hman
    · exact hk.managed w hw

theorem kalloc_eq_some {r : Page} (h : kalloc u k = some (r, k')) :
    k.freelist = r :: k'.freelist ∧ k'.use = update k.use r (some u) := by
  unfold kalloc at h
  split at h
  · cases h
  · rename_i hq
    cases h
    exact ⟨hq, rfl⟩

theorem Kmem.Ok.kalloc {r : Page} (hk : k.Ok L) (h : Mem.kalloc u k = some (r, k')) : k'.Ok L := by
  obtain ⟨hfree, huse⟩ := kalloc_eq_some h
  have hnd := hk.nodup
  rw [hfree, nodup_cons] at hnd
  refine ⟨hnd.2, ?_, ?_⟩
  · intro v hv
    have hvr : v ≠ r := fun heq => hnd.1 (heq ▸ hv)
    rw [huse, update_of_ne hvr]
    exact hk.unused v (by simp [hfree, hv])
  · intro v hv
    exact hk.managed v (by simp [hfree, hv])

end Xv6.Mem
