import Xv6.Lib.Hoare
import Xv6.Mem.Space
import Xv6.Mem.User
import Xv6.SharedMem.Machine
import Xv6.Syscall.Args

/-!
# The shared memory calls, with their arguments

`sys_open_sharedmem` and `sys_close_sharedmem` from the fetching of the arguments to the
return value, by a process that runs alone.  `open` takes the lock first and looks at its
arguments then, and it looks at the results of neither `kalloc` nor `mappages`; an id is
not compared with `PAGE_COUNT` anywhere.  So `main_mem.pages` is indexed by all integers
here, and the elements that a call touches are recorded.

The source leaves out the expression for the virtual address that `open` maps; here it is
an argument.
-/

namespace Xv6.SharedMem.Call

open Xv6.Lib Xv6.Mem Function List

/-- What one call can see of the machine. -/
structure State where
  /-- The page allocator and physical memory. -/
  kmem : Kmem
  /-- `main_mem.pages`, and what is before and after it. -/
  pages : ℤ → SharedPage
  /-- This CPU holds `main_mem.lock`. -/
  locked : Bool
  ncli : ℕ
  pgdir : Pgdir
  sz : ℕ
  esp : Addr
  /-- The elements of `main_mem.pages` read or written so far. -/
  touched : List ℤ

/-- What stops the machine. -/
inductive Stop
  /-- `panic("acquire")`. -/
  | acquire
  /-- `panic("release")`. -/
  | release
  /-- `panic("popcli")`. -/
  | popcli
  | mem (f : Fault)
  deriving DecidableEq

/-- Code that runs in a call. -/
abbrev M := Prog State Stop

/-! ## Locks -/

/-- `acquire(&main_mem.lock)`, when no other CPU has it. -/
def acquire : M Unit := do
  modify fun s => { s with ncli := s.ncli + 1 }
  let s ← get
  if s.locked = true then throw .acquire
  modify fun s => { s with locked := true }

/-- `release(&main_mem.lock)`. -/
def release : M Unit := do
  let s ← get
  if s.locked = false then throw .release
  if s.ncli = 0 then throw .popcli
  modify fun s => { s with locked := false, ncli := s.ncli - 1 }

/-! ## User memory -/

/-- The frame behind a user address, for a read in the kernel. -/
def frameOf (va : Addr) : M Page := do
  let s ← get
  match s.pgdir.lookup (pageOf va) with
  | none => throw (.mem .trap)
  | some e => pure (P2V e.pa)

/-- The frame behind a user address, for a write in the kernel: `CR0_WP` is set. -/
def frameForWrite (va : Addr) : M Page := do
  let s ← get
  match s.pgdir.lookup (pageOf va) with
  | none => throw (.mem .trap)
  | some e => if e.perm &&& PTE_W = 0 then throw (.mem .trap) else pure (P2V e.pa)

def loadByte (va : Addr) : M UInt8 := do
  let v ← frameOf va
  let s ← get
  pure (s.kmem.mem v (offOf va))

/-- `*(int *)va`. -/
def loadWord (va : Addr) : M (BitVec 32) := do
  let b₀ ← loadByte (after va 0)
  let b₁ ← loadByte (after va 1)
  let b₂ ← loadByte (after va 2)
  let b₃ ← loadByte (after va 3)
  pure (b₃.toBitVec ++ b₂.toBitVec ++ b₁.toBitVec ++ b₀.toBitVec)

def storeByte (va : Addr) (b : UInt8) : M Unit := do
  let v ← frameForWrite va
  modify fun s => { s with kmem := s.kmem.store v (offOf va).val [b] }

/-- `*(char **)va = base(v)`. -/
def storeWord (va : Addr) (w : BitVec 32) : M Unit := do
  storeByte (after va 0) ⟨w.extractLsb' 0 8⟩
  storeByte (after va 1) ⟨w.extractLsb' 8 8⟩
  storeByte (after va 2) ⟨w.extractLsb' 16 8⟩
  storeByte (after va 3) ⟨w.extractLsb' 24 8⟩

/-! ## Arguments -/

/-- `fetchint`; `none` is -1. -/
def fetchint (addr : Addr) : M (Option (BitVec 32)) := do
  let s ← get
  if s.sz ≤ addr.toNat ∨ s.sz < (addr + 4).toNat then pure none
  else
    let w ← loadWord addr
    pure (some w)

/-- `argint`. -/
def argint (n : BitVec 32) : M (Option (BitVec 32)) := do
  let s ← get
  fetchint (s.esp + 4 + 4 * n)

/-- `argptr`. -/
def argptr (n size : BitVec 32) : M (Option Addr) := do
  match ← argint n with
  | none => pure none
  | some i =>
    let s ← get
    if size.toInt < 0 ∨ s.sz ≤ i.toNat ∨ s.sz < (i + size).toNat then pure none
    else pure (some i)

/-! ## `main_mem.pages` -/

/-- A read of `main_mem.pages[id]`. -/
def page (id : ℤ) : M SharedPage := do
  modify fun s => { s with touched := id :: s.touched }
  let s ← get
  pure (s.pages id)

/-- A write to `main_mem.pages[id]`. -/
def setPage (id : ℤ) (f : SharedPage → SharedPage) : M Unit :=
  modify fun s =>
    { s with
      pages := update s.pages id (f (s.pages id))
      touched := id :: s.touched }

/-! ## The calls -/

/-- `kalloc()`; `none` is the null pointer. -/
def kallocFrame (id : ℤ) : M (Option Page) := do
  let s ← get
  match kalloc (.shared id.toNat) s.kmem with
  | none => pure none
  | some (v, k) =>
    modify fun s => { s with kmem := k }
    pure (some v)

/-- `memset(v, 0, PGSIZE)`; the null pointer is an address of user memory. -/
def clear (v : Option Page) : M Unit := do
  let v ← match v with
    | some v => pure v
    | none => frameForWrite 0
  modify fun s => { s with kmem := s.kmem.memset v 0 }

/-- `mappages(pgdir, va, PGSIZE, V2P(v), PTE_W|PTE_U)`, with the result thrown away. -/
def mapPage (va : Addr) (v : Page) : M Unit := do
  let s ← get
  match mappages va PGSIZE (V2P v) (PTE_W ||| PTE_U) s.kmem s.pgdir with
  | .error f => throw (.mem f)
  | .ok (_, k, pd) => modify fun s => { s with kmem := k, pgdir := pd }

/-- `sys_open_sharedmem`, for a page that nobody has.  The value stored in `*res` is kept
in a variable; the source reads it back. -/
def openNew (va : Addr) (id : ℤ) (res : Addr) : M Unit := do
  let v ← kallocFrame id
  storeWord res (base (v.getD 0))
  clear v
  mapPage va (v.getD 0)
  setPage id fun pg => { pg with refCount := incr pg.refCount }
  setPage id fun pg => { pg with frame := v.getD 0 }

/-- `sys_open_sharedmem`, for a page that somebody has. -/
def openShared (va : Addr) (id : ℤ) (res : Addr) (frame : Page) : M Unit := do
  mapPage va frame
  setPage id fun pg => { pg with refCount := incr pg.refCount }
  storeWord res (base frame)

/-- `sys_open_sharedmem`. -/
def openSharedmem (va : Addr) : M ℤ := do
  acquire
  match ← argint 0 with
  | none => pure (-1)
  | some id =>
    match ← argptr 1 4 with
    | none => pure (-1)
    | some res =>
      let pg ← page id.toInt
      if pg.refCount = 0 then openNew va id.toInt res
      else openShared va id.toInt res pg.frame
      release
      pure 0

/-- `kfree`, which does not look whether the page is free.  Freed a second time it leads back to
itself: the list is one round of the circle. -/
def kfree (L : Layout) (v : Page) (k : Kmem) : Except Fault Kmem :=
  if v < L.kend ∨ PHYSTOP ≤ V2P v then .error .kfree
  else .ok { k.memset v 1 with
    freelist := v :: k.freelist.takeWhile (· ≠ v)
    use := update k.use v none }

/-- `sys_close_sharedmem`. -/
def closeSharedmem (L : Layout) : M ℤ := do
  match ← argint 0 with
  | none => pure (-1)
  | some id =>
    setPage id.toInt fun pg => { pg with refCount := decr pg.refCount }
    let pg ← page id.toInt
    if pg.refCount = 0 then
      let s ← get
      match kfree L pg.frame s.kmem with
      | .error f => throw (.mem f)
      | .ok k => modify fun s => { s with kmem := k }
    pure 0

/-! ## Reading the arguments -/

variable {s t : State} {L : Layout}

/-- User memory is there: all pages below the size are present and writable. -/
structure State.User (s : State) : Prop where
  size : s.sz ≤ KERNBASE.toNat * PGSIZE
  present : ∀ a : Page, a.toNat < Mem.pages s.sz →
    ∃ e, s.pgdir.lookup a = some e ∧ e.perm &&& PTE_W ≠ 0

/-- The byte at a user address. -/
def State.byte (s : State) (va : Addr) : UInt8 :=
  (s.pgdir.lookup (pageOf va)).elim 0 fun e => s.kmem.mem (P2V e.pa) (offOf va)

/-- The process, as the functions of `syscall.c` see it. -/
def State.user (s : State) : Syscall.Args.User := ⟨BitVec.ofNat 32 s.sz, s.esp, s.byte⟩

/-- Argument `n` of the call, if it is inside user memory. -/
def State.arg (s : State) (n : BitVec 32) : Option (BitVec 32) :=
  (Syscall.Args.argint s.user n).toOption.join

/-- Argument `n` of the call, if it points to `size` bytes of user memory. -/
def State.ptr (s : State) (n size : BitVec 32) : Option Addr :=
  (Syscall.Args.argptr s.user n size).toOption.join

variable {addr res : Addr} {u : State} {v a : Page} {id : BitVec 32}

/-- The four bytes from `addr` on are in user memory. -/
theorem State.User.inside (h : s.User) (hin : ¬(s.sz ≤ addr.toNat ∨ s.sz < (addr + 4).toNat))
    {i : ℕ} (hi : i < 4) :
    ∃ e, s.pgdir.lookup (pageOf (after addr i)) = some e ∧ e.perm &&& PTE_W ≠ 0 := by
  have hK : KERNBASE.toNat * PGSIZE = 2147483648 := rfl
  have hfour : (4 : Addr).toNat = 4 := rfl
  have hsize := h.size
  rw [BitVec.toNat_add, hfour] at hin
  apply h.present
  rw [toNat_pageOf, toNat_after, Mem.pages]
  simp only [PGSIZE]
  omega

/-- Sizes are below `2 ^ 32`, so the comparisons of `syscall.c` are those of numbers. -/
theorem State.User.out_iff (h : s.User) (n : BitVec 32) :
    (s.user.sz ≤ addr ∨ s.user.sz < addr + n) ↔ (s.sz ≤ addr.toNat ∨ s.sz < (addr + n).toNat) := by
  have hK : KERNBASE.toNat * PGSIZE = 2147483648 := rfl
  have hsize := h.size
  rw [BitVec.le_def, BitVec.lt_def, State.user, BitVec.toNat_ofNat, Nat.mod_eq_of_lt (by omega)]

theorem State.User.fetchint_eq (h : s.User) (addr : Addr) :
    Syscall.Args.fetchint s.user addr =
      .ok (if s.sz ≤ addr.toNat ∨ s.sz < (addr + 4).toNat then none
        else some (Syscall.Args.wordAt s.user addr)) := by
  have hK : KERNBASE.toNat * PGSIZE = 2147483648 := rfl
  have hsize := h.size
  have hsz : s.user.sz.toNat = s.sz := Nat.mod_eq_of_lt (by omega)
  rw [Syscall.Args.fetchint]
  by_cases hout : s.sz ≤ addr.toNat ∨ s.sz < (addr + 4).toNat
  · rw [if_pos ((h.out_iff 4).2 hout), if_pos hout]
    rfl
  · have hin : Syscall.Args.InRange s.user addr 4 := by
      refine Syscall.Args.inRange_of_le ?_
      have hfour : (4 : Addr).toNat = 4 := rfl
      rw [BitVec.toNat_add, hfour] at hout
      omega
    rw [if_neg fun hc => hout ((h.out_iff 4).1 hc), if_neg hout,
      Syscall.Args.loadWord_of_inRange hin]
    rfl

theorem wp_loadByte {va : Addr} {e : Pte} (he : s.pgdir.lookup (pageOf va) = some e) :
    wp (loadByte va) (fun b t => b = s.byte va ∧ t = s) (fun _ => False) s := by
  simp only [loadByte, frameOf, wp_bind, wp_get, he, wp_pure]
  rw [State.byte, he]
  exact ⟨rfl, trivial⟩

theorem wp_loadWord (h : s.User) (hin : ¬(s.sz ≤ addr.toNat ∨ s.sz < (addr + 4).toNat)) :
    wp (loadWord addr) (fun w t => w = Syscall.Args.wordAt s.user addr ∧ t = s) (fun _ => False) s := by
  have hload : ∀ i < 4, wp (loadByte (after addr i)) (fun b t => b = s.byte (after addr i) ∧ t = s)
      (fun _ => False) s := by
    intro i hi
    obtain ⟨e, he, -⟩ := h.inside hin hi
    exact wp_loadByte he
  rw [loadWord, wp_bind]
  refine wp_post (hload 0 (by decide)) ?_
  rintro _ _ ⟨rfl, rfl⟩
  rw [wp_bind]
  refine wp_post (hload 1 (by decide)) ?_
  rintro _ _ ⟨rfl, rfl⟩
  rw [wp_bind]
  refine wp_post (hload 2 (by decide)) ?_
  rintro _ _ ⟨rfl, rfl⟩
  rw [wp_bind]
  refine wp_post (hload 3 (by decide)) ?_
  rintro _ _ ⟨rfl, rfl⟩
  exact ⟨rfl, rfl⟩

/-- `argint` on the page table is the one on user memory. -/
theorem wp_argint (h : s.User) (n : BitVec 32) :
    wp (argint n) (fun r t => r = s.arg n ∧ t = s) (fun _ => False) s := by
  rw [argint, wp_bind, wp_get, fetchint, wp_bind, wp_get, wp_ite, State.arg, Syscall.Args.argint,
    h.fetchint_eq]
  refine ⟨fun hout => ?_, fun hin => ?_⟩
  · exact ⟨(congrArg (fun r => (Except.ok r).toOption.join) (if_pos hout)).symm, rfl⟩
  · rw [wp_bind]
    refine wp_post (wp_loadWord h hin) ?_
    rintro _ _ ⟨rfl, rfl⟩
    exact ⟨(congrArg (fun r => (Except.ok r).toOption.join) (if_neg hin)).symm, rfl⟩

theorem State.User.argint_eq (h : s.User) (n : BitVec 32) :
    Syscall.Args.argint s.user n = .ok (s.arg n) := by
  rw [State.arg, Syscall.Args.argint, h.fetchint_eq]
  rfl

theorem State.User.ptr_eq (h : s.User) (n size : BitVec 32) :
    s.ptr n size = (s.arg n).bind fun i =>
      if size.toInt < 0 ∨ s.sz ≤ i.toNat ∨ s.sz < (i + size).toNat then none else some i := by
  rw [State.ptr, Syscall.Args.argptr, h.argint_eq]
  cases s.arg n with
  | none => rfl
  | some i =>
    change (if size.toInt < 0 ∨ s.user.sz ≤ i ∨ s.user.sz < i + size then pure none
      else pure (some i) : Except Syscall.Args.Wild (Option (BitVec 32))).toOption.join = _
    simp only [h.out_iff size, Option.bind_some]
    split <;> rfl

/-- `argptr` on the page table is the one on user memory. -/
theorem wp_argptr (h : s.User) (n size : BitVec 32) :
    wp (argptr n size) (fun r t => r = s.ptr n size ∧ t = s) (fun _ => False) s := by
  rw [argptr, wp_bind, h.ptr_eq]
  refine wp_post (wp_argint h n) ?_
  rintro _ _ ⟨rfl, rfl⟩
  cases harg : State.arg _ n with
  | none => exact ⟨rfl, rfl⟩
  | some i =>
    rw [wp_bind, wp_get, wp_ite, Option.bind_some]
    refine ⟨fun hout => ?_, fun hin => ?_⟩
    · rw [if_pos hout]
      exact ⟨rfl, rfl⟩
    · rw [if_neg hin]
      exact ⟨rfl, rfl⟩

/-! ## Writing the result -/

/-- Only the contents of pages changed. -/
structure Written (s t : State) : Prop where
  state : t = { s with kmem := t.kmem }
  freelist : t.kmem.freelist = s.kmem.freelist

theorem Written.trans {u : State} (h : Written s t) (h' : Written t u) : Written s u := by
  refine ⟨?_, h'.freelist.trans h.freelist⟩
  rw [h'.state, h.state]

theorem wp_storeByte {va : Addr} {b : UInt8}
    (he : ∃ e, s.pgdir.lookup (pageOf va) = some e ∧ e.perm &&& PTE_W ≠ 0) :
    wp (storeByte va b) (fun _ t => Written s t) (fun _ => False) s := by
  obtain ⟨e, he, hw⟩ := he
  simp only [storeByte, frameForWrite, wp_bind, wp_get, he, if_neg hw, wp_pure, wp_modify]
  exact ⟨rfl, rfl⟩

theorem wp_storeWord (h : s.User) (hin : ¬(s.sz ≤ addr.toNat ∨ s.sz < (addr + 4).toNat))
    (w : BitVec 32) :
    wp (storeWord addr w) (fun _ t => Written s t) (fun _ => False) s := by
  have hstore : ∀ i < 4, ∀ b t, Written s t →
      wp (storeByte (after addr i) b) (fun _ u => Written s u) (fun _ => False) t := by
    intro i hi b t ht
    refine wp_post (wp_storeByte ?_) fun _ u hu => ht.trans hu
    rw [ht.state]
    exact h.inside hin hi
  rw [storeWord, wp_bind]
  refine wp_post (hstore 0 (by decide) _ s ⟨rfl, rfl⟩) fun _ t ht => ?_
  rw [wp_bind]
  refine wp_post (hstore 1 (by decide) _ t ht) fun _ t ht => ?_
  rw [wp_bind]
  refine wp_post (hstore 2 (by decide) _ t ht) fun _ t ht => ?_
  exact hstore 3 (by decide) _ t ht

/-! ## What the calls need, and what they do -/

/-- The pages that `open` needs: one for a page that nobody has, one for a page table. -/
def needed (s : State) (a : Page) (id : ℤ) : ℕ :=
  (if (s.pages id).refCount = 0 then 1 else 0) + if (s.pgdir.pde (PDX a)).isNone then 1 else 0

/-- What `open` needs to map its page at `a`: arguments that are there, an id of
`main_mem.pages`, and memory for the page and for a page table. -/
structure OpenFits (s : State) (a : Page) (id : BitVec 32) : Prop where
  arg : s.arg 0 = some id
  res : (s.ptr 1 4).isSome
  low : 0 ≤ id.toInt
  high : id.toInt < PAGE_COUNT
  unmapped : s.pgdir.lookup a = none
  memory : needed s a id.toInt ≤ s.kmem.freelist.length

/-- What `close` needs: if there is an argument it is an id of `main_mem.pages`, and a
frame that is given up is one of the allocator's. -/
structure CloseFits (L : Layout) (s : State) : Prop where
  low : ∀ id, s.arg 0 = some id → 0 ≤ id.toInt
  high : ∀ id, s.arg 0 = some id → id.toInt < PAGE_COUNT
  frame : ∀ id, s.arg 0 = some id → decr (s.pages id.toInt).refCount = 0 →
    L.kend ≤ (s.pages id.toInt).frame ∧ V2P (s.pages id.toInt).frame < PHYSTOP

/-- The call touched the elements `ids`, and some of these only. -/
def Touched (s t : State) (ids : ℤ → Prop) : Prop :=
  ∃ l, t.touched = l ++ s.touched ∧ ∀ i ∈ l, ids i

/-- The lock, the interrupts and what lies around `main_mem.pages` are as before. -/
structure Restored (s t : State) : Prop where
  locked : t.locked = s.locked
  ncli : t.ncli = s.ncli
  touched : Touched s t fun i => 0 ≤ i ∧ i < PAGE_COUNT

/-- The shared page is counted once more, and mapped at `a`; the first to open it gets a page that
was free. -/
structure Opened (s t : State) (a : Page) (id : ℤ) : Prop where
  others : ∀ i, i ≠ id → t.pages i = s.pages i
  count : (t.pages id).refCount = incr (s.pages id).refCount
  fresh : (s.pages id).refCount = 0 → (t.pages id).frame ∈ s.kmem.freelist
  frame : (s.pages id).refCount ≠ 0 → (t.pages id).frame = (s.pages id).frame
  mapped : t.pgdir.lookup a = some ⟨V2P (t.pages id).frame, PTE_W ||| PTE_U⟩

/-- The shared page is counted once less, and freed when nobody is left. -/
structure Closed (s t : State) (id : ℤ) : Prop where
  others : ∀ i, i ≠ id → t.pages i = s.pages i
  count : (t.pages id).refCount = decr (s.pages id).refCount
  frame : (t.pages id).frame = (s.pages id).frame
  free : t.kmem.freelist = if decr (s.pages id).refCount = 0
    then (s.pages id).frame :: s.kmem.freelist.takeWhile (· ≠ (s.pages id).frame)
    else s.kmem.freelist

theorem touched_iff {ids : ℤ → Prop} {l : List ℤ} (h : t.touched = l ++ s.touched) :
    Touched s t ids ↔ ∀ i ∈ l, ids i := by
  constructor
  · rintro ⟨l', hl', hids⟩
    obtain rfl : l' = l := append_cancel_right (hl'.symm.trans h)
    exact hids
  · exact fun hids => ⟨l, h, hids⟩

/-- A call is over: it returned 0 and did what it is for, or -1 and did nothing; and the kernel is
as it was. -/
def Done (s : State) (P : State → Prop) (r : ℤ) (t : State) : Prop :=
  Restored s t ∧ (r = 0 ∧ P t ∨ r = -1 ∧ t.pages = s.pages ∧ t.kmem = s.kmem)

/-- What `open` is for. -/
def OpenDone (s : State) (a : Page) : ℤ → State → Prop :=
  Done s fun t => ∃ id, s.arg 0 = some id ∧ Opened s t a id.toInt

/-- What `close` is for. -/
def CloseDone (s : State) : ℤ → State → Prop :=
  Done s fun t => ∃ id, s.arg 0 = some id ∧ Closed s t id.toInt

theorem CloseFits.of_arg (harg : s.arg 0 = some id)
    (hid : 0 ≤ id.toInt ∧ id.toInt < PAGE_COUNT)
    (hframe : decr (s.pages id.toInt).refCount = 0 →
      L.kend ≤ (s.pages id.toInt).frame ∧ V2P (s.pages id.toInt).frame < PHYSTOP) :
    CloseFits L s := by
  refine ⟨?_, ?_, ?_⟩
  all_goals
    intro id' hid'
    obtain rfl := Option.some.inj (harg.symm.trans hid')
  · exact hid.1
  · exact hid.2
  · exact hframe

theorem Closed.of_update {id : ℤ}
    (hpages : t.pages = update s.pages id
      { s.pages id with refCount := decr (s.pages id).refCount })
    (hfree : t.kmem.freelist = if decr (s.pages id).refCount = 0
      then (s.pages id).frame :: s.kmem.freelist.takeWhile (· ≠ (s.pages id).frame)
    else s.kmem.freelist) : Closed s t id := by
  refine ⟨fun i hi => ?_, ?_, ?_, hfree⟩
  · rw [hpages, update_of_ne hi]
  · rw [hpages, update_self]
  · rw [hpages, update_self]

/-! ## `close` -/

theorem kfree_cond : ¬(v < L.kend ∨ PHYSTOP ≤ V2P v) ↔ L.kend ≤ v ∧ V2P v < PHYSTOP := by
  rw [not_or, BitVec.not_lt, BitVec.not_le]

/-- On a page that is not free it is the `kfree` of the allocator. -/
theorem kfree_of_not_mem {k : Kmem} (h : v ∉ k.freelist) : kfree L v k = Mem.kfree L v k := by
  have hall : k.freelist.takeWhile (· ≠ v) = k.freelist := by
    rw [takeWhile_eq_self_iff]
    intro a ha
    simpa using ne_of_mem_of_not_mem ha h
  rw [kfree, Mem.kfree, if_neg h, hall]

/-- **`close`** does what it is for exactly if its argument allows it. -/
theorem closeSharedmem_done_iff (h : s.User) :
    wp (closeSharedmem L) (CloseDone s) (fun _ => False) s ↔ CloseFits L s := by
  rw [closeSharedmem, wp_bind, wp_iff_of_exact (wp_argint h 0)]
  cases harg : s.arg 0 with
  | none =>
    refine iff_of_true ⟨⟨rfl, rfl, [], rfl, by simp⟩, .inr ⟨rfl, rfl, rfl⟩⟩ ⟨?_, ?_, ?_⟩
    all_goals
      intro id hid
      rw [harg] at hid
      cases hid
  | some id =>
    have htouched : ∀ t : State, t.touched = id.toInt :: id.toInt :: s.touched →
        ((Touched s t fun i => 0 ≤ i ∧ i < PAGE_COUNT) ↔ 0 ≤ id.toInt ∧ id.toInt < PAGE_COUNT) := by
      intro t ht
      rw [touched_iff (l := [id.toInt, id.toInt]) ht]
      simp
    simp only [setPage, page, wp_bind, wp_modify, wp_get, wp_pure, update_self, wp_ite]
    constructor
    · rintro ⟨hlast, hmore⟩
      by_cases hzero : decr (s.pages id.toInt).refCount = 0
      · have hlast' := hlast hzero
        rw [kfree] at hlast'
        split at hlast'
        · rename_i k hk
          split at hk
          · exact hlast'.elim
          · cases hk
        · rename_i k hk
          split at hk
          · cases hk
          · rename_i hcond
            have hid := (htouched _ rfl).1 hlast'.1.touched
            exact .of_arg harg hid fun _ => kfree_cond.1 hcond
      · have hid := (htouched _ rfl).1 (hmore hzero).1.touched
        exact .of_arg harg hid fun hz => absurd hz hzero
    · intro hfits
      have hid : 0 ≤ id.toInt ∧ id.toInt < PAGE_COUNT := ⟨hfits.low id harg, hfits.high id harg⟩
      refine ⟨fun hzero => ?_, fun hzero => ?_⟩
      · rw [kfree, if_neg (kfree_cond.2 (hfits.frame id harg hzero))]
        refine ⟨⟨rfl, rfl, (htouched _ rfl).2 hid⟩, .inl ⟨rfl, id, harg, .of_update rfl ?_⟩⟩
        rw [if_pos hzero]
      · refine ⟨⟨rfl, rfl, (htouched _ rfl).2 hid⟩, .inl ⟨rfl, id, harg, .of_update rfl ?_⟩⟩
        rw [if_neg hzero]

/-! ## `open` -/

/-- `mappages` of a page that is mapped. -/
theorem mappages_remap {k : Kmem} {pd : Pgdir} {pa : Page} {perm : Perm} {e : Pte}
    (h : pd.lookup a = some e) : mappages (base a) PGSIZE pa perm k pd = .error .remap := by
  rw [Pgdir.lookup, Option.bind_eq_some_iff] at h
  obtain ⟨t, ht, he⟩ := h
  have hw : walkpgdir true a k pd = some (t, k, pd) := by rw [walkpgdir, ht]
  rw [mappages, pageOf_base, pageOf_base_last, sub_self,
    show (0 : Page).toNat + 1 = 0 + 1 from rfl, mapLoop, hw]
  dsimp only
  rw [he]

theorem walkpgdir_eq_none {k : Kmem} {pd : Pgdir} :
    walkpgdir true a k pd = none ↔ (pd.pde (PDX a)).isNone ∧ k.freelist = [] := by
  rw [walkpgdir]
  cases pd.pde (PDX a) with
  | some t => simp
  | none => cases hfree : k.freelist <;> simp [kalloc, hfree]

/-- The page `a`, which was not mapped, is mapped to `v`, if there was a page for the page table. -/
structure MappedAt (s t : State) (a v : Page) : Prop where
  state : t = { s with kmem := t.kmem, pgdir := t.pgdir }
  unmapped : s.pgdir.lookup a = none
  here : t.pgdir.lookup a = if (s.pgdir.pde (PDX a)).isNone ∧ s.kmem.freelist = [] then none
    else some ⟨V2P v, PTE_W ||| PTE_U⟩
  others : ∀ b, b ≠ a → t.pgdir.lookup b = s.pgdir.lookup b

theorem wp_mapPage (v : Page) : wp (mapPage (base a) v) (fun _ t => MappedAt s t a v)
    (fun _ => s.pgdir.lookup a ≠ none) s := by
  rw [mapPage, wp_bind, wp_get]
  cases hl : s.pgdir.lookup a with
  | some e =>
    rw [mappages_remap hl]
    exact Option.some_ne_none e
  | none =>
    rw [mappages_one hl]
    cases hw : walkpgdir true a s.kmem s.pgdir with
    | none =>
      refine ⟨rfl, hl, ?_, fun _ _ => rfl⟩
      rw [if_pos (walkpgdir_eq_none.1 hw)]
      exact hl
    | some r =>
      refine ⟨rfl, hl, ?_, fun b hb => ?_⟩
      · rw [if_neg fun hno => Option.some_ne_none r (hw.symm.trans (walkpgdir_eq_none.2 hno))]
        exact lookup_setPte_self
      · change (r.2.2.setPte a r.1 _).lookup b = _
        rw [lookup_setPte_of_ne (walkpgdir_grown hw).2 hb, walkpgdir_lookup hw]

/-- It is mapped if the free pages are enough; `n` of them were taken before. -/
theorem MappedAt.lookup_eq (h : MappedAt t u a v) (n : ℕ) (hpgdir : t.pgdir = s.pgdir)
    (hfree : s.kmem.freelist.length = n + t.kmem.freelist.length) :
    u.pgdir.lookup a = if n + (if (s.pgdir.pde (PDX a)).isNone then 1 else 0) ≤
      s.kmem.freelist.length then some ⟨V2P v, PTE_W ||| PTE_U⟩ else none := by
  rw [h.here, hpgdir, hfree]
  by_cases hpde : (s.pgdir.pde (PDX a)).isNone
  · cases t.kmem.freelist <;> simp [hpde]
  · simp [hpde]

theorem wp_kallocFrame (id : ℤ) (h : s.kmem.freelist ≠ []) :
    wp (kallocFrame id) (fun r t => ∃ v, r = some v ∧ t = { s with kmem := t.kmem } ∧
      s.kmem.freelist = v :: t.kmem.freelist) (fun _ => False) s := by
  obtain ⟨v, rest, hfree⟩ := exists_cons_of_ne_nil h
  rw [kallocFrame, wp_bind, wp_get, kalloc, hfree]
  exact ⟨v, rfl, rfl, rfl⟩

theorem wp_clear (v : Page) : wp (clear (some v)) (fun _ t => Written s t) (fun _ => False) s :=
  ⟨rfl, rfl⟩

theorem State.User.mapped (h : s.User) (hmap : MappedAt s t a v) : t.User := by
  have hsz : t.sz = s.sz := by rw [hmap.state]
  refine ⟨hsz ▸ h.size, fun b hb => ?_⟩
  obtain ⟨e, he, hw⟩ := h.present b (hsz ▸ hb)
  have hne : b ≠ a := by
    rintro rfl
    rw [hmap.unmapped] at he
    cases he
  exact ⟨e, (hmap.others b hne).trans he, hw⟩

theorem wp_acquire_iff {Q : Unit → State → Prop} {E : Stop → Prop} (h : s.locked = false) :
    wp acquire Q E s ↔ Q ⟨⟩ { s with ncli := s.ncli + 1, locked := true } := by
  simp [acquire, h]

theorem wp_release_iff {Q : Unit → State → Prop} : wp release Q (fun _ => False) s ↔
    s.locked = true ∧ s.ncli ≠ 0 ∧ Q ⟨⟩ { s with locked := false, ncli := s.ncli - 1 } := by
  by_cases hl : s.locked = true
  · by_cases hn : s.ncli = 0 <;> simp [release, hl, hn]
  · simp [release, hl]

/-- `open` has the lock and the arguments. -/
def State.inside (s : State) (id : ℤ) : State :=
  { s with ncli := s.ncli + 1, locked := true, touched := id :: s.touched }

/-- `open` has come to the `release`: it has counted itself in, and its page is mapped if there was
memory for it. -/
structure Passed (s t : State) (a : Page) (id : ℤ) : Prop where
  locked : t.locked = true
  ncli : t.ncli = s.ncli + 1
  touched : ∃ l, t.touched = l ++ s.touched ∧ l ≠ [] ∧ ∀ i ∈ l, i = id
  unmapped : s.pgdir.lookup a = none
  others : ∀ i, i ≠ id → t.pages i = s.pages i
  count : (t.pages id).refCount = incr (s.pages id).refCount
  fresh : (s.pages id).refCount = 0 → (t.pages id).frame ∈ s.kmem.freelist
  frame : (s.pages id).refCount ≠ 0 → (t.pages id).frame = (s.pages id).frame
  mapped : t.pgdir.lookup a = if needed s a id ≤ s.kmem.freelist.length
    then some ⟨V2P (t.pages id).frame, PTE_W ||| PTE_U⟩ else none

/-- The branch for a page that nobody has, when there is a page for it. -/
theorem openNew_passes {id : ℤ} (huser : s.User)
    (hin : ¬(s.sz ≤ res.toNat ∨ s.sz < (res + 4).toNat)) (hzero : (s.pages id).refCount = 0)
    (hne : s.kmem.freelist ≠ []) : wp (openNew (base a) id res) (fun _ u => Passed s u a id)
      (fun _ => s.pgdir.lookup a ≠ none) (s.inside id) := by
  rw [openNew, wp_bind]
  refine wp_mono (wp_kallocFrame id hne) ?_ fun _ h => h.elim
  rintro _ t₁ ⟨v, rfl, ht₁, hfree⟩
  have huser₁ : t₁.User := by
    rw [ht₁]
    exact ⟨huser.size, huser.present⟩
  have hsz₁ : t₁.sz = s.sz := by
    rw [ht₁]
    rfl
  rw [wp_bind]
  refine wp_mono (wp_storeWord huser₁ (by rwa [hsz₁]) _) (fun _ t₂ hw₂ => ?_) fun _ h => h.elim
  rw [wp_bind]
  refine wp_mono (wp_clear v) (fun _ t₃ hw₃ => ?_) fun _ h => h.elim
  have hw := hw₂.trans hw₃
  have ht₃ : t₃ = { s.inside id with kmem := t₃.kmem } := by rw [hw.state, ht₁]
  have hpgdir : t₃.pgdir = s.pgdir := by
    rw [ht₃]
    rfl
  have hlength : s.kmem.freelist.length = 1 + t₃.kmem.freelist.length := by
    rw [hw.freelist, show s.kmem.freelist = _ from hfree, length_cons, add_comm]
  rw [wp_bind]
  refine wp_mono (wp_mapPage v) (fun _ t₄ hmap => ?_) fun _ h => hpgdir ▸ h
  have ht₄ : t₄ = { s.inside id with kmem := t₄.kmem, pgdir := t₄.pgdir } := by
    rw [hmap.state, ht₃]
  simp only [setPage, wp_bind, wp_modify, update_self, update_idem]
  rw [ht₄]
  refine ⟨rfl, rfl, ⟨[id, id, id], rfl, by simp, by simp⟩, hpgdir ▸ hmap.unmapped,
    fun i hi => update_of_ne hi _ _, ?_, fun _ => ?_, fun h => absurd hzero h, ?_⟩
  · dsimp only
    rw [update_self]
    rfl
  · dsimp only
    rw [update_self, show s.kmem.freelist = _ from hfree]
    exact mem_cons_self
  · dsimp only
    rw [update_self, needed, if_pos hzero]
    exact hmap.lookup_eq 1 hpgdir hlength

/-- The branch for a page that somebody has. -/
theorem openShared_passes {id : ℤ} (huser : s.User)
    (hin : ¬(s.sz ≤ res.toNat ∨ s.sz < (res + 4).toNat)) (hpos : (s.pages id).refCount ≠ 0) :
    wp (openShared (base a) id res (s.pages id).frame) (fun _ u => Passed s u a id)
      (fun _ => s.pgdir.lookup a ≠ none) (s.inside id) := by
  have huser₀ : (s.inside id).User := ⟨huser.size, huser.present⟩
  rw [openShared, wp_bind]
  refine wp_mono (wp_mapPage (s.pages id).frame) (fun _ t₁ hmap => ?_) fun _ h => h
  have huser₁ := huser₀.mapped hmap
  have hsz₁ : t₁.sz = s.sz := by
    rw [hmap.state]
    rfl
  rw [setPage, wp_bind, wp_modify]
  refine wp_mono (wp_storeWord ?_ ?_ _) (fun _ t₂ hw => ?_) fun _ h => h.elim
  · exact ⟨huser₁.size, huser₁.present⟩
  · rwa [← hsz₁] at hin
  rw [hw.state, hmap.state]
  refine ⟨rfl, rfl, ⟨[id, id], rfl, by simp, by simp⟩, hmap.unmapped,
    fun i hi => update_of_ne hi _ _, ?_, fun h => absurd h hpos, fun _ => ?_, ?_⟩
  · dsimp only
    rw [update_self]
    rfl
  · dsimp only
    rw [update_self]
    rfl
  · dsimp only
    rw [update_self, needed, if_neg hpos]
    exact hmap.lookup_eq 0 rfl (zero_add _).symm

/-- What is left to do succeeds if the id is one of `main_mem.pages` and there was memory. -/
theorem Passed.done_iff (h : Passed s t a id.toInt) (hlock : s.locked = false)
    (harg : s.arg 0 = some id) (hres : (s.ptr 1 4).isSome) :
    wp (do release; pure (0 : ℤ)) (OpenDone s a) (fun _ => False) t ↔ OpenFits s a id := by
  obtain ⟨l, hl, hne, hids⟩ := h.touched
  rw [wp_bind, wp_release_iff]
  constructor
  · rintro ⟨-, -, hrestored, ⟨-, id', harg', hopened⟩ | ⟨hminus, -⟩⟩
    · obtain rfl := Option.some.inj (harg.symm.trans harg')
      obtain ⟨i, hi⟩ := exists_mem_of_ne_nil l hne
      have hid := (touched_iff hl).1 hrestored.touched i hi
      rw [hids i hi] at hid
      refine ⟨harg, hres, hid.1, hid.2, h.unmapped, ?_⟩
      by_contra hno
      exact nomatch ((if_neg hno).symm.trans h.mapped.symm).trans hopened.mapped
    · cases hminus
  · intro hfits
    refine ⟨h.locked, by rw [h.ncli]; omega, ⟨hlock.symm, ?_, l, hl, fun i hi => ?_⟩,
      .inl ⟨rfl, id, harg, h.others, h.count, h.fresh, h.frame,
        h.mapped.trans (if_pos hfits.memory)⟩⟩
    · dsimp only
      rw [h.ncli, Nat.add_sub_cancel]
    · rw [hids i hi]
      exact ⟨hfits.low, hfits.high⟩

theorem State.User.ptr_inside (hs : s.User) (h : s.ptr 1 4 = some res) :
    ¬(s.sz ≤ res.toNat ∨ s.sz < (res + 4).toNat) := by
  rw [hs.ptr_eq, Option.bind_eq_some_iff] at h
  obtain ⟨i, -, hi⟩ := h
  split at hi
  · cases hi
  · rename_i hin
    cases hi
    exact fun hout => hin (.inr hout)

/-- `open` does what it is for if it gets its arguments, and does so from there on: when it returns
-1 it has the lock. -/
theorem openSharedmem_iff (h : s.User) (hlock : s.locked = false) :
    wp (openSharedmem (base a)) (OpenDone s a) (fun _ => False) s ↔
      ∃ id res, s.arg 0 = some id ∧ s.ptr 1 4 = some res ∧
        wp (do
          if (s.pages id.toInt).refCount = 0 then openNew (base a) id.toInt res
          else openShared (base a) id.toInt res (s.pages id.toInt).frame
          release
          pure (0 : ℤ)) (OpenDone s a) (fun _ => False) (s.inside id.toInt) := by
  have hkept : ∀ t : State, t.locked = true → ¬OpenDone s a (-1) t := by
    intro t ht hd
    have := hd.1.locked
    rw [ht, hlock] at this
    cases this
  have huser : ({ s with ncli := s.ncli + 1, locked := true } : State).User := ⟨h.size, h.present⟩
  rw [openSharedmem, wp_bind, wp_acquire_iff hlock, wp_bind, wp_iff_of_exact (wp_argint huser 0)]
  change wp (match s.arg 0 with | none => _ | some id => _) _ _ _ ↔ _
  cases hid : s.arg 0 with
  | none => exact iff_of_false (hkept _ rfl) (by simp)
  | some id =>
    dsimp only
    rw [wp_bind, wp_iff_of_exact (wp_argptr huser 1 4)]
    change wp (match s.ptr 1 4 with | none => _ | some res => _) _ _ _ ↔ _
    cases hres : s.ptr 1 4 with
    | none => exact iff_of_false (hkept _ rfl) (by simp)
    | some res =>
      dsimp only
      rw [page, wp_bind, wp_bind, wp_modify, wp_bind, wp_get, wp_pure]
      constructor
      · exact fun hdone => ⟨id, res, rfl, rfl, hdone⟩
      · rintro ⟨id', res', hid', hres', hdone⟩
        obtain rfl := Option.some.inj hid'
        obtain rfl := Option.some.inj hres'
        exact hdone

/-- What follows the reading of the arguments. -/
theorem open_done_iff (h : s.User) (hlock : s.locked = false) (hid : s.arg 0 = some id)
    (hres : s.ptr 1 4 = some res) :
    wp (do
      if (s.pages id.toInt).refCount = 0 then openNew (base a) id.toInt res
      else openShared (base a) id.toInt res (s.pages id.toInt).frame
      release
      pure (0 : ℤ)) (OpenDone s a) (fun _ => False) (s.inside id.toInt) ↔ OpenFits s a id := by
  have hin := h.ptr_inside hres
  have hsome := Option.isSome_of_eq_some hres
  -- a branch that comes to the `release`
  have hrest : ∀ m : M Unit, wp m (fun _ u => Passed s u a id.toInt)
      (fun _ => s.pgdir.lookup a ≠ none) (s.inside id.toInt) →
      (wp m (fun _ u => wp (do release; pure (0 : ℤ)) (OpenDone s a) (fun _ => False) u)
        (fun _ => False) (s.inside id.toInt) ↔ OpenFits s a id) := by
    intro m hm
    refine ⟨fun hdone => ?_, fun hfits => wp_mono hm
      (fun _ u hu => (hu.done_iff hlock hid hsome).2 hfits) fun _ hne => hne hfits.unmapped⟩
    obtain ⟨_, u, -, hu, hpass⟩ :=
      exists_ok_of_wp (wp_mono (wp_both hdone hm) (fun _ _ hu => hu) fun _ he => he.1)
    exact (hpass.done_iff hlock hid hsome).1 hu
  split
  · rename_i hzero
    rw [wp_bind]
    by_cases hfree : s.kmem.freelist = []
    · refine iff_of_false (fun hdone => ?_) fun hfits => ?_
      · -- the frame of the first to open the page comes from the free list
        obtain ⟨_, u, -, hu⟩ := exists_ok_of_wp hdone
        rw [wp_bind, wp_release_iff] at hu
        obtain ⟨-, -, -, ⟨-, id', hid', hopened⟩ | ⟨hminus, -⟩⟩ := hu
        · obtain rfl := Option.some.inj (hid.symm.trans hid')
          have hfresh := hopened.fresh hzero
          rw [hfree] at hfresh
          cases hfresh
        · cases hminus
      · have hmem := hfits.memory
        rw [needed, if_pos hzero, hfree, length_nil] at hmem
        omega
    · exact hrest _ (openNew_passes h hin hzero hfree)
  · rename_i hpos
    rw [wp_bind]
    exact hrest _ (openShared_passes h hin hpos)

/-- **`open`** does what it is for exactly if its arguments and the memory allow it. -/
theorem openSharedmem_done_iff (h : s.User) (hlock : s.locked = false) :
    wp (openSharedmem (base a)) (OpenDone s a) (fun _ => False) s ↔ ∃ id, OpenFits s a id := by
  rw [openSharedmem_iff h hlock]
  constructor
  · rintro ⟨id, res, hid, hres, hdone⟩
    exact ⟨id, (open_done_iff h hlock hid hres).1 hdone⟩
  · rintro ⟨id, hfits⟩
    obtain ⟨res, hres⟩ := Option.isSome_iff_exists.1 hfits.res
    exact ⟨id, res, hfits.arg, hres, (open_done_iff h hlock hfits.arg hres).2 hfits⟩

/-! ## The result -/

/-- **The shared memory calls leave the kernel as it was** exactly when the arguments are there,
the id is one of `main_mem.pages`, the page to be mapped is free and memory does not run out, and
a frame given up is one of the allocator's: then the lock and the interrupts are as before, no
other element is touched, and the call is carried out. -/
theorem sharedmem_calls_restore (L : Layout) (s : State) (a : Page) (h : s.User)
    (hlock : s.locked = false) :
    (wp (openSharedmem (base a)) (OpenDone s a) (fun _ => False) s ↔ ∃ id, OpenFits s a id) ∧
      (wp (closeSharedmem L) (CloseDone s) (fun _ => False) s ↔ CloseFits L s) :=
  ⟨openSharedmem_done_iff h hlock, closeSharedmem_done_iff h⟩

/-- Memory of a process with one page: the id and the pointer are at 4 and 8. -/
def argsMem (id res : UInt8) : Page → Fin PGSIZE → UInt8 :=
  fun v o => if v = 0x80402 then if o.val = 4 then id else if o.val = 8 then res else 0 else 0

/-- A process with one page calls with the arguments `id` and `res`; the shared page with
id 1 is open. -/
def calling (sz : ℕ) (id res : UInt8) (free : List Page) : State :=
  ⟨⟨free, argsMem id res, fun _ => none⟩, fun i => if i = 1 then ⟨1, 0x80500⟩ else ⟨0, 0⟩,
    false, 0, onePage, sz, 0, []⟩

theorem user_calling (id res : UInt8) (free : List Page) : (calling 4096 id res free).User := by
  have hsize : 4096 ≤ KERNBASE.toNat * PGSIZE := by decide
  have hpages : Mem.pages 4096 = 1 := by decide
  refine ⟨hsize, fun a ha => ⟨⟨0x402, PTE_W ||| PTE_U⟩, ?_, by decide⟩⟩
  change a.toNat < Mem.pages 4096 at ha
  rw [hpages] at ha
  obtain rfl : a = 0 := BitVec.eq_of_toNat_eq (by simpa using ha)
  change onePage.lookup 0 = _
  decide +kernel

/-- The first to open page 2, and one who closes page 1. -/
theorem sharedmem_calls_restore_one :
    wp (openSharedmem (base 2)) (OpenDone (calling 4096 2 16 [0x80403]) 2) (fun _ => False)
        (calling 4096 2 16 [0x80403]) ∧
      wp (closeSharedmem smallLayout) (CloseDone (calling 4096 1 16 [])) (fun _ => False)
        (calling 4096 1 16 []) := by
  have hone : (calling 4096 1 16 []).arg 0 = some 1 := by decide +kernel
  refine ⟨(sharedmem_calls_restore smallLayout (calling 4096 2 16 [0x80403]) 2
      (user_calling 2 16 _) rfl).1.2 ⟨2, ⟨?_, ?_, by decide, by decide, ?_, ?_⟩⟩,
    (sharedmem_calls_restore smallLayout (calling 4096 1 16 []) 2
      (user_calling 1 16 _) rfl).2.2 (.of_arg hone (by decide) fun _ => ?_)⟩
  all_goals decide +kernel

/-- What is left of a run that returned: the result, the lock, the depth, the elements
touched, the count of the shared page with id 1, and whether page `a` is mapped. -/
def seen (m : M ℤ) (a : Page) (s : State) : Option (ℤ × Bool × ℕ × List ℤ × ℤ × Bool) :=
  (m.run s).toOption.map fun r =>
    (r.1, r.2.locked, r.2.ncli, r.2.touched, (r.2.pages 1).refCount, (r.2.pgdir.lookup a).isSome)

/-- **Calls that fail.**  With arguments outside user memory `open` returns -1 and keeps
the lock and the interrupts off.  An id of 10 reaches the element after the last one, in
both calls.  Without memory for a page table `open` returns 0, counts the page and maps
nothing. -/
theorem sharedmem_calls_fail :
    seen (openSharedmem 0x2000) 2 (calling 0 1 16 []) = some (-1, true, 1, [], 1, false) ∧
      seen (openSharedmem 0x2000) 2 (calling 4096 10 16 [0x80403]) =
        some (0, false, 0, [10, 10, 10], 1, true) ∧
      seen (closeSharedmem smallLayout) 2 (calling 4096 10 16 []) =
        some (0, false, 0, [10, 10], 1, false) ∧
      seen (openSharedmem 0x400000) 0x400 (calling 4096 1 16 []) =
        some (0, false, 0, [1, 1], 2, false) := by
  refine ⟨?_, ?_, ?_, ?_⟩ <;> decide +kernel

end Xv6.SharedMem.Call
