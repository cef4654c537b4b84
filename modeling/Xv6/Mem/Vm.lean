import Xv6.Mem.Kalloc

/-!
# Page directories

`walkpgdir`, `mappages`, `setupkvm`, `inituvm`, `allocuvm`, `deallocuvm`, `freevm`,
`clearpteu` and `copyuvm` of `vm.c`.  A page directory is a tree of two levels: an entry that is not present
is `none`, a present one carries the physical page it points to.  The pages the
tree itself is stored in come from `kalloc` and go back in `freevm`.

Sizes are in bytes; the loops that step by `PGSIZE` count pages.
-/

namespace Xv6.Mem

open Function

/-- The flag bits of an entry, `PTE_FLAGS`, without `PTE_P`. -/
abbrev Perm := BitVec 12

def PTE_W : Perm := 0x002

def PTE_U : Perm := 0x004

/-- A present entry of a page table. -/
structure Pte where
  pa : Page
  perm : Perm
  deriving DecidableEq

/-- The number of entries of a page table and of a page directory,
`NPTENTRIES` and `NPDENTRIES`. -/
@[irreducible] def NPTENTRIES : ℕ := 1024

/-- A page table, with the physical page it is stored in. -/
structure PageTable where
  pa : Page
  pte : Fin NPTENTRIES → Option Pte

/-- A page directory, with the kernel address of the page it is stored in. -/
structure Pgdir where
  page : Page
  pde : Fin NPTENTRIES → Option PageTable

def PDX (a : Page) : Fin NPTENTRIES := ⟨a.toNat / 1024, by unfold NPTENTRIES; omega⟩

def PTX (a : Page) : Fin NPTENTRIES := ⟨a.toNat % 1024, by unfold NPTENTRIES; omega⟩

/-- The entry for a page, when its page table exists and the entry is present. -/
def Pgdir.lookup (pd : Pgdir) (a : Page) : Option Pte := (pd.pde (PDX a)).bind fun t => t.pte (PTX a)

/-- Store an entry into an existing page table. -/
def PageTable.set (t : PageTable) (j : Fin NPTENTRIES) (e : Option Pte) : PageTable :=
  { t with pte := update t.pte j e }

/-- Store the entry of a page whose page table is `t`. -/
def Pgdir.setPte (pd : Pgdir) (a : Page) (t : PageTable) (e : Option Pte) : Pgdir :=
  { pd with pde := update pd.pde (PDX a) (some (t.set (PTX a) e)) }

/-- A page directory or page table with no entries. -/
def Pgdir.empty (v : Page) : Pgdir := ⟨v, fun _ => none⟩

/-- `walkpgdir`: the page table that has the entry of page `a`, or `none` for
the null pointer. -/
def walkpgdir (alloc : Bool) (a : Page) (k : Kmem) (pd : Pgdir) : Option (PageTable × Kmem × Pgdir) :=
  match pd.pde (PDX a) with
  | some t => some (t, k, pd)
  | none =>
    if alloc then
      match kalloc .kernel k with
      | none => none
      | some (v, k') =>
        some (⟨V2P v, fun _ => none⟩, k'.memset v 0,
          { pd with pde := update pd.pde (PDX a) (some ⟨V2P v, fun _ => none⟩) })
    else none

/-- The loop of `mappages`; `true` when all pages up to `last` were mapped.  The
first argument bounds the number of rounds. -/
def mapLoop (perm : Perm) (last : Page) :
    ℕ → Page → Page → Kmem → Pgdir → Except Fault (Bool × Kmem × Pgdir)
  | 0, _, _, k, pd => .ok (false, k, pd)
  | n + 1, a, pa, k, pd =>
    match walkpgdir true a k pd with
    | none => .ok (false, k, pd)
    | some (t, k, pd) =>
      match t.pte (PTX a) with
      | some _ => .error .remap
      | none =>
        let pd := pd.setPte a t (some ⟨pa, perm⟩)
        if a = last then .ok (true, k, pd) else mapLoop perm last n (a + 1) (pa + 1) k pd

/-- `mappages`.  The loop visits `last - a + 1` pages, counted modulo the
address space. -/
def mappages (va size : Addr) (pa : Page) (perm : Perm) (k : Kmem) (pd : Pgdir) :
    Except Fault (Bool × Kmem × Pgdir) :=
  let a := pageOf va
  let last := pageOf (va + size - 1)
  mapLoop perm last ((last - a).toNat + 1) a pa k pd

/-- A size in bytes, rounded up to pages. -/
def pages (sz : ℕ) : ℕ := (sz + PGSIZE - 1) / PGSIZE

/-- The page after the last one that shares its page table with page `a`,
`PGADDR(PDX(a) + 1, 0, 0)`. -/
def nextTable (a : ℕ) : ℕ := (a / 1024 + 1) * 1024

/-- The loop of `deallocuvm`, at page `a`.  The first argument bounds the number
of rounds. -/
def deallocLoop (L : Layout) (last : ℕ) : ℕ → ℕ → Kmem → Pgdir → Except Fault (Kmem × Pgdir)
  | 0, _, k, pd => .ok (k, pd)
  | n + 1, a, k, pd =>
    if a < last then
      match pd.pde (PDX (BitVec.ofNat 20 a)) with
      -- no page table here: go on with the next one
      | none => deallocLoop L last n (nextTable a) k pd
      | some t =>
        match t.pte (PTX (BitVec.ofNat 20 a)) with
        | none => deallocLoop L last n (a + 1) k pd
        | some e =>
          if e.pa = 0 then .error .kfree
          else (kfree L (P2V e.pa) k).bind fun k =>
            deallocLoop L last n (a + 1) k (pd.setPte (BitVec.ofNat 20 a) t none)
    else .ok (k, pd)

/-- The size `deallocuvm` returns. -/
def deallocSize (oldsz newsz : ℕ) : ℕ := if oldsz ≤ newsz then oldsz else newsz

/-- `deallocuvm`, without the size it returns. -/
def deallocuvm (L : Layout) (oldsz newsz : ℕ) (k : Kmem) (pd : Pgdir) :
    Except Fault (Kmem × Pgdir) :=
  if oldsz ≤ newsz then .ok (k, pd)
  else deallocLoop L (pages oldsz) (pages oldsz - pages newsz) (pages newsz) k pd

/-- The loop of `allocuvm` at page `a`, with `n` pages left; `false` when memory ran
out and the new pages were given back. -/
def allocLoop (L : Layout) (oldsz newsz : ℕ) :
    ℕ → ℕ → Kmem → Pgdir → Except Fault (Bool × Kmem × Pgdir)
  | 0, _, k, pd => .ok (true, k, pd)
  | n + 1, a, k, pd =>
    match kalloc .user k with
    | none => do
        let (k, pd) ← deallocuvm L newsz oldsz k pd
        pure (false, k, pd)
    | some (mem, k) => do
        let (ok, k, pd) ← mappages (base (BitVec.ofNat 20 a)) PGSIZE (V2P mem)
          (PTE_W ||| PTE_U) (k.memset mem 0) pd
        if ok = true then allocLoop L oldsz newsz n (a + 1) k pd
        else
          let (k, pd) ← deallocuvm L newsz oldsz k pd
          let k ← kfree L mem k
          pure (false, k, pd)

/-- `allocuvm`; the size is 0 when it fails. -/
def allocuvm (L : Layout) (oldsz newsz : ℕ) (k : Kmem) (pd : Pgdir) :
    Except Fault (ℕ × Kmem × Pgdir) :=
  if KERNBASE.toNat * PGSIZE ≤ newsz then .ok (0, k, pd)
  else if newsz < oldsz then .ok (oldsz, k, pd)
  else do
    let (ok, k, pd) ← allocLoop L oldsz newsz (pages newsz - pages oldsz) (pages oldsz) k pd
    pure (if ok = true then newsz else 0, k, pd)

/-- `clearpteu`, at page `a`. -/
def clearpteu (a : Page) (pd : Pgdir) : Except Fault Pgdir :=
  match pd.pde (PDX a) with
  | none => .error .clearpteu
  | some t =>
    .ok (pd.setPte a t ((t.pte (PTX a)).map fun e => { e with perm := e.perm &&& ~~~PTE_U }))

/-- `inituvm`: the new page, and whether it was mapped, which is not looked at. -/
def inituvm (k : Kmem) (pd : Pgdir) : Except Fault (Page × Bool × Kmem × Pgdir) :=
  match kalloc .user k with
  | none => .error .trap
  | some (mem, k) => do
      let (ok, k, pd) ← mappages 0 PGSIZE (V2P mem) (PTE_W ||| PTE_U) (k.memset mem 0) pd
      pure (mem, ok, k, pd)

/-- `kfree` of the pages of a list, in order. -/
def kfreeAll (L : Layout) : List Page → Kmem → Except Fault Kmem
  | [], k => .ok k
  | v :: vs, k =>
    match kfree L v k with
    | .error f => .error f
    | .ok k => kfreeAll L vs k

/-- The pages of the page tables of a directory, in the order of the entries. -/
def Pgdir.tables (pd : Pgdir) : List Page :=
  (List.finRange NPTENTRIES).filterMap fun i => (pd.pde i).map fun t => P2V t.pa

def freevm (L : Layout) (k : Kmem) (pd : Pgdir) : Except Fault Kmem :=
  match deallocuvm L (KERNBASE.toNat * PGSIZE) 0 k pd with
  | .error f => .error f
  | .ok (k, pd) => kfreeAll L (pd.tables ++ [pd.page]) k

/-- What `setupkvm` and `copyuvm` do when memory runs out: `freevm(d); return 0`. -/
def giveUp (L : Layout) (k : Kmem) (d : Pgdir) : Except Fault (Option Pgdir × Kmem) :=
  match freevm L k d with
  | .error f => .error f
  | .ok k => .ok (none, k)

/-- `struct kmap`, in pages. -/
structure Kmap where
  virt : Page
  physStart : Page
  physEnd : Page
  perm : Perm

/-- The table `kmap`. -/
def kmap (L : Layout) : List Kmap :=
  [⟨KERNBASE, 0, EXTMEM, PTE_W⟩, ⟨KERNLINK, V2P KERNLINK, V2P L.data, 0⟩,
    ⟨L.data, V2P L.data, PHYSTOP, PTE_W⟩, ⟨DEVSPACE, DEVSPACE, 0, PTE_W⟩]

/-- The loop of `setupkvm` over `kmap`. -/
def mapKernel (L : Layout) : List Kmap → Kmem → Pgdir → Except Fault (Option Pgdir × Kmem)
  | [], k, pd => .ok (some pd, k)
  | m :: ms, k, pd =>
    match mappages (base m.virt) (base (m.physEnd - m.physStart)) m.physStart m.perm k pd with
    | .error f => .error f
    | .ok (true, k, pd) => mapKernel L ms k pd
    | .ok (false, k, pd) => giveUp L k pd

/-- `setupkvm`; `none` when memory runs out. -/
def setupkvm (L : Layout) (k : Kmem) : Except Fault (Option Pgdir × Kmem) :=
  match kalloc .kernel k with
  | none => .ok (none, k)
  | some (v, k) => mapKernel L (kmap L) (k.memset v 0) (Pgdir.empty v)

/-- The loop of `copyuvm` at page `i`, with `n` pages left to copy into `d`. -/
def copyLoop (L : Layout) (pd : Pgdir) : ℕ → ℕ → Kmem → Pgdir → Except Fault (Option Pgdir × Kmem)
  | 0, _, k, d => .ok (some d, k)
  | n + 1, i, k, d =>
    match pd.pde (PDX (BitVec.ofNat 20 i)) with
    | none => .error .copyuvmPte
    | some t =>
      match t.pte (PTX (BitVec.ofNat 20 i)) with
      | none => .error .copyuvmPresent
      | some e =>
        match kalloc .user k with
        | none => giveUp L k d
        | some (mem, k) =>
          let k := k.memmove mem (P2V e.pa)
          match mappages (base (BitVec.ofNat 20 i)) PGSIZE (V2P mem) e.perm k d with
          | .error f => .error f
          | .ok (true, k, d) => copyLoop L pd n (i + 1) k d
          | .ok (false, k, d) =>
            match kfree L mem k with
            | .error f => .error f
            | .ok k => giveUp L k d

/-- `copyuvm`; `none` when memory runs out. -/
def copyuvm (L : Layout) (pd : Pgdir) (sz : ℕ) (k : Kmem) : Except Fault (Option Pgdir × Kmem) :=
  match setupkvm L k with
  | .error f => .error f
  | .ok (none, k) => .ok (none, k)
  | .ok (some d, k) => copyLoop L pd (pages sz) 0 k d

end Xv6.Mem
