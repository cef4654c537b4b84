import Xv6.Fs.Content
import Xv6.Lib.Traced

/-!
# The blocks a write passes to `log_write`

`filewrite` cuts a write into chunks so that each fits into one transaction.  Here
`writei` and what it calls run with a trace: every `log_write` adds its block number.

* `erases_writei` — the trace changes nothing.
* `Notes` — what a call adds to the trace: free-map blocks, one for each block that is
  allocated, and the blocks it names.
* `writei_chunk_fits` — a chunk makes at most `MAXOPBLOCKS` different numbers.
-/

namespace Xv6.Fs.Logged

open Xv6.Lib Finset

variable {N : ℕ}

/-- Kernel code with the block numbers given to `log_write`, the last one first. -/
abbrev Traced (N : ℕ) := Prog (State N × List ℕ) Panic

/-! ## The functions -/

/-- `bread`, modify, `log_write`. -/
def setBlock (b : ℕ) (x : Block) : Traced N PUnit := do
  untraced (Fs.setBlock b x)
  emit b

def bzero (b : ℕ) : Traced N PUnit := setBlock b .zeroes

/-- The outer loop of `balloc`. -/
def ballocFrom (sb : Superblock) : List ℕ → Traced N ℕ
  | [] => throw .outOfBlocks
  | b :: bs => do
      let s ← untraced get
      match findFree sb (s.disk (sb.BBLOCK b)) b with
      | some bi =>
        setBlock (sb.BBLOCK b) ((s.disk (sb.BBLOCK b)).setBit bi)
        bzero (b + bi)
        pure (b + bi)
      | none => ballocFrom sb bs

def balloc (sb : Superblock) : Traced N ℕ :=
  ballocFrom sb ((List.range ((sb.size + BPB - 1) / BPB)).map (· * BPB))

def loadAddr (sb : Superblock) (i : Fin N) (k : ℕ) : Traced N ℕ := do
  let s ← untraced get
  if (s.icache i).copy.addrs k = 0 then
    let addr ← balloc sb
    untraced (setAddr i k addr)
    pure addr
  else pure ((s.icache i).copy.addrs k)

/-- The same for entry `j` of the indirect block `ind`. -/
def loadEntry (sb : Superblock) (ind j : ℕ) : Traced N ℕ := do
  let s ← untraced get
  let addr := ((s.disk ind).word j).toNat
  if addr = 0 then
    let addr ← balloc sb
    let s ← untraced get
    setBlock ind ((s.disk ind).setWord j (UInt32.ofNat addr))
    pure addr
  else pure addr

def bmap (sb : Superblock) (i : Fin N) (bn : ℕ) : Traced N ℕ := do
  if bn < NDIRECT then loadAddr sb i bn
  else if bn - NDIRECT < NINDIRECT then
    let ind ← loadAddr sb i NDIRECT
    loadEntry sb ind (bn - NDIRECT)
  else throw .outOfRange

/-- The loop of `writei`. -/
def writeLoop (sb : Superblock) (i : Fin N) : ℕ → ℕ → List UInt8 → Traced N PUnit
  | 0, _, _ => pure ⟨⟩
  | fuel + 1, off, src =>
    if src.length = 0 then pure ⟨⟩
    else do
      let a ← bmap sb i (off / BSIZE)
      let s ← untraced get
      let m := min src.length (BSIZE - off % BSIZE)
      setBlock a (putBytes (s.disk a) (off % BSIZE) (src.take m))
      writeLoop sb i fuel (off + m) (src.drop m)

/-- `iupdate`, which writes block `IBLOCK(ip->inum, sb)`. -/
def iupdate (inodestart : ℕ) (i : Fin N) : Traced N PUnit := do
  let s ← untraced get
  untraced (Fs.iupdate i)
  emit ((s.icache i).inum / IPB + inodestart)

def writei (sb : Superblock) (inodestart : ℕ) (dev : Devsw) (i : Fin N) (src : List UInt8)
    (off n : UInt32) : Traced N ℤ := do
  let s ← untraced get
  let d := (s.icache i).copy
  if d.type = T_DEV then
    if d.major < 0 ∨ (NDEV : ℤ) ≤ d.major then pure (-1)
    else
      match dev.write d.major with
      | none => pure (-1)
      | some write => pure (write src n)
  else if d.size < off.toNat ∨ off + n < off then pure (-1)
  else if MAXFILE * BSIZE < (off + n).toNat then pure (-1)
  else
    writeLoop sb i n.toNat off.toNat src
    if 0 < n ∧ d.size < (off + n).toNat then
      untraced (setCopy i fun d => { d with size := (off + n).toNat })
      iupdate inodestart i
    pure n.toNat

/-! ## The trace changes nothing -/

variable {sb : Superblock} {i : Fin N} {s t : State N} {l l' : List ℕ}

theorem erases_setBlock (b : ℕ) (x : Block) :
    Erases (setBlock b x : Traced N PUnit) (Fs.setBlock b x) := fun _ => rfl

theorem erases_ballocFrom (bs : List ℕ) :
    Erases (ballocFrom sb bs : Traced N ℕ) (Fs.ballocFrom sb bs) := by
  induction bs with
  | nil => exact erases_throw _
  | cons b bs ih =>
    refine (erases_untraced get).bind fun s => ?_
    cases findFree sb (s.disk (sb.BBLOCK b)) b with
    | some bi =>
      exact (erases_setBlock _ _).bind fun _ => (erases_setBlock _ _).bind fun _ => erases_pure _
    | none => exact ih

theorem erases_balloc : Erases (balloc sb : Traced N ℕ) (Fs.balloc sb) := erases_ballocFrom _

theorem erases_loadAddr (k : ℕ) : Erases (loadAddr sb i k) (Fs.loadAddr sb i k) :=
  (erases_untraced get).bind fun _ => .ite
    (erases_balloc.bind fun _ => (erases_untraced _).bind fun _ => erases_pure _) (erases_pure _)

theorem erases_loadEntry (ind j : ℕ) :
    Erases (loadEntry sb ind j : Traced N ℕ) (Fs.loadEntry sb ind j) :=
  (erases_untraced get).bind fun _ => .ite
    (erases_balloc.bind fun _ => (erases_untraced get).bind fun _ =>
      (erases_setBlock _ _).bind fun _ => erases_pure _) (erases_pure _)

theorem erases_bmap (bn : ℕ) : Erases (bmap sb i bn) (Fs.bmap sb i bn) :=
  .ite (erases_loadAddr bn) <| .ite
    ((erases_loadAddr NDIRECT).bind fun _ => erases_loadEntry _ _) (erases_throw _)

theorem erases_writeLoop (fuel : ℕ) : ∀ (off : ℕ) (src : List UInt8),
    Erases (writeLoop sb i fuel off src) (Fs.writeLoop sb i fuel off src) := by
  induction fuel with
  | zero => exact fun _ _ => erases_pure _
  | succ fuel ih =>
    intro off src
    exact .ite (erases_pure _) <| (erases_bmap _).bind fun _ => (erases_untraced get).bind fun _ =>
      (erases_setBlock _ _).bind fun _ => ih _ _

theorem erases_iupdate (inodestart : ℕ) : Erases (iupdate inodestart i) (Fs.iupdate i) :=
  fun _ => rfl

theorem erases_writei (inodestart : ℕ) (dev : Devsw) (src : List UInt8) (off n : UInt32) :
    Erases (writei sb inodestart dev i src off n) (Fs.writei sb dev i src off n) := by
  refine (erases_untraced get).bind fun s => ?_
  refine .ite (.ite (erases_pure _) ?_) <| .ite (erases_pure _) <| .ite (erases_pure _) <|
    (erases_writeLoop _ _ _).bind fun _ => .ite ?_ (erases_pure _)
  · cases dev.write (s.icache i).copy.major with
    | _ => exact erases_pure _
  · exact (erases_untraced _).bind fun _ => (erases_iupdate _).bind fun _ => erases_pure _

/-! ## What is noted -/

/-- Between `l` and `l'`, at most `m` free-map blocks were noted and otherwise blocks
of `A`. -/
def Notes (l l' : List ℕ) (m : ℕ) (A : Finset ℕ) : Prop :=
  ∃ S : Finset ℕ, S.card ≤ m ∧ l'.toFinset ⊆ l.toFinset ∪ S ∪ A

theorem Notes.refl (l : List ℕ) (m : ℕ) (A : Finset ℕ) : Notes l l m A :=
  ⟨∅, Nat.zero_le _, by
    rw [union_empty]
    exact subset_union_left⟩

theorem Notes.trans {l₁ : List ℕ} {m₁ m₂ m : ℕ} {A B C : Finset ℕ} (h : Notes l l₁ m₁ A)
    (h' : Notes l₁ l' m₂ B) (hm : m₁ + m₂ ≤ m) (hA : A ⊆ C) (hB : B ⊆ C) : Notes l l' m C := by
  obtain ⟨S, hS, hsub⟩ := h
  obtain ⟨T, hT, hsub'⟩ := h'
  refine ⟨S ∪ T, (card_union_le S T).trans (by omega), fun b hb => ?_⟩
  have hb' := hsub' hb
  simp only [mem_union] at hb' ⊢
  obtain (hb' | hb') | hb' := hb'
  · have hb'' := hsub hb'
    simp only [mem_union] at hb''
    have := @hA b
    tauto
  · tauto
  · exact .inr (hB hb')

theorem Notes.cons (l : List ℕ) (m : ℕ) {b : ℕ} {A : Finset ℕ} (hb : b ∈ A) :
    Notes l (b :: l) m A := by
  refine ⟨∅, Nat.zero_le _, fun c hc => ?_⟩
  rw [List.toFinset_cons, mem_insert] at hc
  simp only [mem_union]
  obtain rfl | hc := hc
  · exact .inr hb
  · exact .inl (.inl hc)

theorem Notes.card {m : ℕ} {A : Finset ℕ} (h : Notes [] l m A) : l.toFinset.card ≤ m + A.card := by
  obtain ⟨S, hS, hsub⟩ := h
  rw [List.toFinset_nil, empty_union] at hsub
  exact (card_le_card hsub).trans ((card_union_le S A).trans (by omega))

theorem wp_setBlock {b : ℕ} {x : Block} {Q : PUnit → State N × List ℕ → Prop} {E : Panic → Prop} :
    wp (setBlock b x) Q E (s, l) ↔
      Q ⟨⟩ ({ s with disk := Function.update s.disk b x }, b :: l) := Iff.rfl

theorem balloc_notes (E : Panic → Prop) (hE : E .outOfBlocks) :
    wp (balloc sb) (fun b r => r.1.icache = s.icache ∧ Notes l r.2 1 {b}) E (s, l) := by
  rw [balloc]
  generalize (List.range ((sb.size + BPB - 1) / BPB)).map (· * BPB) = bs
  induction bs with
  | nil => exact hE
  | cons b bs ih =>
    rw [ballocFrom, wp_bind, wp_untraced, wp_get]
    dsimp only
    cases findFree sb (s.disk (sb.BBLOCK b)) b with
    | none => exact ih
    | some bi =>
      refine ⟨rfl, {sb.BBLOCK b}, le_of_eq (card_singleton _), fun c hc => ?_⟩
      simp only [List.toFinset_cons, mem_insert, mem_union,
        mem_singleton] at hc ⊢
      tauto

theorem loadAddr_notes (k : ℕ) : wp (loadAddr sb i k)
    (fun a r => Notes l r.2 (if (s.icache i).copy.addrs k = 0 then 1 else 0) {a}) (fun _ => True)
    (s, l) := by
  rw [loadAddr, wp_bind, wp_untraced, wp_get, wp_ite]
  refine ⟨fun h0 => ?_, fun hne => ?_⟩
  · rw [wp_bind]
    refine wp_post (balloc_notes _ trivial) fun b r hr => ?_
    rw [if_pos h0]
    exact hr.2
  · exact .refl _ _ _

theorem loadEntry_notes (ind j : ℕ) : wp (loadEntry sb ind j)
    (fun a r => r.1.icache = s.icache ∧
      Notes l r.2 (if indirect s.disk ind j = 0 then 1 else 0) {a, ind}) (fun _ => True)
    (s, l) := by
  rw [loadEntry, wp_bind, wp_untraced, wp_get]
  dsimp only
  rw [wp_ite]
  refine ⟨fun h0 => ?_, fun hne => ?_⟩
  · have h0' : indirect s.disk ind j = 0 := h0
    rw [wp_bind, if_pos h0']
    refine wp_post (balloc_notes _ trivial) fun b r hr => ?_
    refine ⟨hr.1, hr.2.trans (Notes.cons r.2 0 (b := ind) (A := {b, ind}) (by simp)) le_rfl ?_ ?_⟩
    · simp
    · exact Finset.Subset.refl _
  · exact ⟨rfl, .refl _ _ _⟩

/-- The blocks `bmap` names: the one it answers with, and the indirect block. -/
def named (a bn : ℕ) (t : State N) (i : Fin N) : Finset ℕ :=
  if bn < NDIRECT then {a} else {a, (t.icache i).copy.addrs NDIRECT}

theorem bmap_notes {bn : ℕ} (h : Open sb s i []) :
    wp (bmap sb i bn) (fun a r =>
      Notes l r.2 ((s.icache i).copy.missing s.disk bn) (named a bn r.1 i) ∧
        ((s.icache i).copy.addrs NDIRECT ≠ 0 →
          (r.1.icache i).copy.addrs NDIRECT = (s.icache i).copy.addrs NDIRECT)) (fun _ => True)
      (s, l) := by
  rw [bmap, wp_ite]
  refine ⟨fun hk => ?_, fun hk => ?_⟩
  · have hload := (erases_loadAddr bn).wp (s := (s, l))
      (loadAddr_spec (E := fun _ => True) h hk.le fun _ _ => trivial)
    refine wp_post (wp_and (loadAddr_notes bn) hload) fun a r hr => ⟨?_, fun _ => ?_⟩
    · have hno : ¬(NDIRECT ≤ bn ∧ (s.icache i).copy.addrs NDIRECT = 0) := by omega
      have hmiss : (s.icache i).copy.missing s.disk bn =
          if (s.icache i).copy.addrs bn = 0 then 1 else 0 := by
        rw [Dinode.missing, if_neg hno, blockAt_direct hk, Nat.add_zero]
      rw [named, if_pos hk, hmiss]
      exact hr.1
    · exact hr.2.others _ (Nat.ne_of_gt hk)
  · rw [wp_ite]
    refine ⟨fun hj => ?_, fun _ => trivial⟩
    have hload := (erases_loadAddr NDIRECT).wp (s := (s, l))
      (loadAddr_spec (E := fun _ => True) h le_rfl fun _ _ => trivial)
    rw [wp_bind]
    refine wp_post (wp_and (loadAddr_notes NDIRECT) hload) ?_
    rintro ind ⟨u, l₁⟩ ⟨hnotes, hu⟩
    refine wp_post (loadEntry_notes ind (bn - NDIRECT)) ?_
    rintro a ⟨t, l₂⟩ ⟨hcache, hnotes₂⟩
    have hind : (t.icache i).copy.addrs NDIRECT = ind := by
      dsimp only at hcache hu
      rw [hcache, hu.addr]
    refine ⟨?_, fun hne => ?_⟩
    · rw [named, if_neg hk, hind]
      refine hnotes.trans hnotes₂ ?_ (by simp) (Finset.Subset.refl _)
      -- the entry is looked up in the indirect block, which is new or was there
      have hentry : (s.icache i).copy.addrs NDIRECT ≠ 0 →
          indirect u.disk ind (bn - NDIRECT) = (s.icache i).copy.blockAt s.disk bn := by
        intro hne
        have hus : u = s := hu.hit hne
        have haddr := hu.addr
        dsimp only at haddr
        rw [hus] at haddr ⊢
        rw [blockAt_indirect (by omega) hj hne, haddr]
      rw [Dinode.missing]
      by_cases h0 : (s.icache i).copy.addrs NDIRECT = 0
      · have hmiss : NDIRECT ≤ bn ∧ (s.icache i).copy.addrs NDIRECT = 0 := ⟨by omega, h0⟩
        rw [if_pos h0, blockAt_missing (by omega) h0, if_pos hmiss, if_pos rfl]
        split <;> omega
      · rw [if_neg h0, hentry h0]
        omega
    · have hus : u = s := hu.hit hne
      dsimp only at hcache
      rw [hcache, hus]

/-! ## The loop -/

/-- How many blocks `len` bytes from `off` on lie in. -/
def blocksAt (off len : ℕ) : ℕ :=
  if len = 0 then 0 else (off + len - 1) / BSIZE + 1 - off / BSIZE

/-- What the loop of `writei` notes: the data blocks, the indirect block, and a free-map
block for each that was missing. -/
structure LoopNotes (s : State N) (l : List ℕ) (i : Fin N) (off len : ℕ) (t : State N)
    (l' : List ℕ) : Prop where
  notes : ∃ D : Finset ℕ, D.card ≤ blocksAt off len ∧
    Notes l l' ((s.icache i).copy.neededFor s.disk off len)
      (insert ((t.icache i).copy.addrs NDIRECT) D)
  ind : (s.icache i).copy.addrs NDIRECT ≠ 0 →
    (t.icache i).copy.addrs NDIRECT = (s.icache i).copy.addrs NDIRECT

theorem LoopNotes.refl (s : State N) (l : List ℕ) (i : Fin N) (off : ℕ) :
    LoopNotes s l i off 0 s l :=
  ⟨⟨∅, Nat.zero_le _, .refl _ _ _⟩, fun _ => rfl⟩

theorem blocksAt_succ {off len m : ℕ} (hlen : len ≠ 0) (hm : min len (BSIZE - off % BSIZE) = m) :
    blocksAt (off + m) (len - m) + 1 ≤ blocksAt off len := by
  have hsize : BSIZE = 512 := rfl
  rw [blocksAt, blocksAt, if_neg hlen]
  rw [hsize] at hm ⊢
  split_ifs <;> omega

theorem writeLoop_notes (fuel : ℕ) : ∀ (off : ℕ) (src : List UInt8) (s : State N) (l : List ℕ),
    Open sb s i [] → src.length ≤ fuel → off + src.length ≤ MAXFILE * BSIZE →
    wp (writeLoop sb i fuel off src) (fun _ r => LoopNotes s l i off src.length r.1 r.2)
      (fun _ => True) (s, l) := by
  induction fuel with
  | zero =>
    intro off src s l _ hfuel _
    rw [Nat.le_zero.1 hfuel]
    exact .refl s l i off
  | succ fuel ih =>
    intro off src s l h hfuel hmax
    rw [writeLoop, wp_ite]
    refine ⟨fun h0 => ?_, fun hpos => ?_⟩
    · rw [h0]
      exact .refl s l i off
    have hbn : off / BSIZE < MAXFILE := Nat.div_lt_of_lt_mul (by rw [Nat.mul_comm]; omega)
    have hmod : off % BSIZE < BSIZE := Nat.mod_lt _ BSIZE_pos
    have hmapped := (erases_bmap (off / BSIZE)).wp (s := (s, l))
      (bmap_spec (E := fun _ => True) h hbn fun _ => trivial)
    rw [wp_bind]
    refine wp_post (wp_and (bmap_notes h) hmapped) ?_
    rintro a ⟨u, l₁⟩ ⟨⟨hnotes, hkeep⟩, hm⟩
    rw [wp_bind, wp_untraced, wp_get]
    dsimp only at hnotes hkeep hm ⊢
    obtain rfl := hm.addr
    generalize hmdef : min src.length (BSIZE - off % BSIZE) = m
    generalize hx : putBytes (u.disk ((u.icache i).copy.blockAt u.disk (off / BSIZE)))
      (off % BSIZE) (src.take m) = x
    have hblock : ∀ k, (u.icache i).copy.blockAt (Function.update u.disk
        ((u.icache i).copy.blockAt u.disk (off / BSIZE)) x) k =
          (u.icache i).copy.blockAt u.disk k := by
      intro k
      have hstore := hm.isOpen.blockAt_store hm.ne x hm.isOpen.inum
        (by rw [view_self]; exact hm.isOpen.type) k
      rwa [view_self] at hstore
    have hlen : (src.drop m).length = src.length - m := List.length_drop
    rw [wp_bind, wp_setBlock]
    refine wp_post (ih (off + m) (src.drop m) _ _ (hm.isOpen.store hm.ne x) (by omega) (by omega))
      fun _ r hr => ?_
    obtain ⟨⟨D, hD, hrest⟩, hind⟩ := hr
    rw [hlen] at hD hrest
    rw [neededFor_congr hblock] at hrest
    have hneed := hm.neededFor hpos hmdef
    have hcount := blocksAt_succ hpos hmdef
    refine ⟨⟨insert ((u.icache i).copy.blockAt u.disk (off / BSIZE)) D,
      (card_insert_le _ _).trans (by omega), ?_⟩, fun hne => ?_⟩
    · have hnamed : named ((u.icache i).copy.blockAt u.disk (off / BSIZE)) (off / BSIZE) u i ⊆
          insert ((r.1.icache i).copy.addrs NDIRECT)
            (insert ((u.icache i).copy.blockAt u.disk (off / BSIZE)) D) := by
        rw [named]
        split
        · simp
        · rename_i hdirect
          have hne : (u.icache i).copy.addrs NDIRECT ≠ 0 := fun h0 => hdirect (hm.ind.1 h0).1
          rw [← hind hne]
          intro c hc
          simp only [mem_insert, mem_singleton] at hc ⊢
          tauto
      have hfirst := hnotes.trans (m := (s.icache i).copy.missing s.disk (off / BSIZE))
        (Notes.cons l₁ 0 (mem_insert_of_mem (mem_insert_self _ D))) le_rfl hnamed
        (Finset.Subset.refl _)
      exact hfirst.trans hrest (by omega) (Finset.Subset.refl _)
        (insert_subset_insert _ (subset_insert _ _))
    · have hne' : (u.icache i).copy.addrs NDIRECT ≠ 0 := by rwa [hkeep hne]
      rw [hind hne']
      exact hkeep hne

/-! ## A chunk of `filewrite` -/

def maxChunk : ℕ := (MAXOPBLOCKS - 1 - 1 - 2) / 2 * 512

theorem chunk_blocks {d : Dinode} {disk : ℕ → Block} (hfull : d.Full disk) {off len : ℕ}
    (hoff : off ≤ d.size) (hlen : len ≤ maxChunk) :
    blocksAt off len + d.neededFor disk off len ≤ 8 := by
  have hchunk : maxChunk = 1536 := rfl
  have hsize : BSIZE = 512 := rfl
  rw [blocksAt, Dinode.neededFor]
  by_cases h0 : len = 0
  · rw [if_pos h0, if_pos h0]
    omega
  rw [if_neg h0, if_neg h0]
  generalize hk : (off + len - 1) / BSIZE + 1 = k₁
  have hlast : off / BSIZE < k₁ := by
    rw [hsize] at hk ⊢
    omega
  have hfilter : ((Finset.Ico (off / BSIZE + 1) k₁).filter fun k => d.blockAt disk k = 0).card ≤
      k₁ - (off / BSIZE + 1) := by
    refine (card_filter_le _ _).trans ?_
    rw [Nat.card_Ico]
  rw [needed_succ hlast]
  by_cases halign : off % BSIZE = 0
  · have hfirst : (if d.blockAt disk (off / BSIZE) = 0 then 1 else 0) ≤ 1 := by split <;> omega
    have hind : (if NDIRECT < k₁ ∧ d.addrs NDIRECT = 0 then 1 else 0) ≤ 1 := by split <;> omega
    rw [hsize] at hk halign hlast hfilter hfirst ⊢
    omega
  · have hthere : d.blockAt disk (off / BSIZE) ≠ 0 := by
      refine hfull _ ?_
      rw [hsize] at halign ⊢
      omega
    have hind : (if NDIRECT < k₁ ∧ d.addrs NDIRECT = 0 then 1 else 0) ≤ 1 := by split <;> omega
    rw [if_neg hthere]
    rw [hsize] at hk halign hlast hfilter ⊢
    omega

/-- **A chunk of `filewrite` fits into one transaction**: with at most `maxChunk` bytes at
an offset within the file, `writei` gives at most `MAXOPBLOCKS` different block numbers to
`log_write`.  It stops only when there are not enough free blocks. -/
theorem writei_chunk_fits (sb : Superblock) (inodestart : ℕ) (dev : Devsw) (s : State N)
    (i : Fin N) (src : List UInt8) (off n : UInt32) (h : Open sb s i [])
    (ht : (s.icache i).copy.type ≠ T_DEV) (hsrc : src.length = n.toNat)
    (hoff : off.toNat ≤ (s.icache i).copy.size) (hn : n.toNat ≤ maxChunk)
    (hmax : off.toNat + n.toNat ≤ MAXFILE * BSIZE) :
    wp (writei sb inodestart dev i src off n)
      (fun r t => r = n.toNat ∧ t.2.toFinset.card ≤ MAXOPBLOCKS)
      (fun e => e = .outOfBlocks ∧
        sb.free s.disk < (s.icache i).copy.neededFor s.disk off.toNat n.toNat) (s, []) := by
  have hbytes : MAXFILE * BSIZE = 71680 := rfl
  have hadd : (off + n).toNat = off.toNat + n.toNat := by
    rw [UInt32.toNat_add]
    exact Nat.mod_eq_of_lt (by omega)
  have hwrap : ¬off + n < off := by
    rw [add_lt_self_iff]
    omega
  have hfull : (s.icache i).copy.Full s.disk := by
    have := h.full (s.icache i).inum h.inum (by rw [view_self]; exact h.type)
    rwa [view_self] at this
  have hloop := (erases_writeLoop n.toNat off.toNat src).wp (s := (s, []))
    (writeLoop_spec (E := fun e => e = .outOfBlocks ∧
      sb.free s.disk < (s.icache i).copy.neededFor s.disk off.toNat n.toNat) n.toNat off.toNat src s
      h (by omega) (by omega) fun hlt => ⟨rfl, by rwa [hsrc] at hlt⟩)
  have hblocks := chunk_blocks hfull hoff hn
  rw [writei, wp_bind, wp_untraced, wp_get]
  dsimp only
  rw [if_neg ht, if_neg (not_or.2 ⟨by omega, hwrap⟩), hadd, if_neg (by omega), wp_bind]
  refine wp_post (wp_and hloop (writeLoop_notes n.toNat off.toNat src s [] h (by omega) (by omega))) ?_
  rintro - ⟨t, l⟩ ⟨-, ⟨D, hD, hnotes⟩, -⟩
  rw [hsrc] at hD hnotes
  have hcard := hnotes.card
  have hinsert := card_insert_le ((t.icache i).copy.addrs NDIRECT) D
  have hten : MAXOPBLOCKS = 10 := rfl
  dsimp only at hcard
  rw [wp_ite]
  refine ⟨fun _ => ?_, fun _ => ⟨rfl, ?_⟩⟩
  · refine ⟨rfl, ?_⟩
    change (List.toFinset (_ :: l)).card ≤ _
    rw [List.toFinset_cons]
    have hinode := card_insert_le ((t.icache i).inum / IPB + inodestart) l.toFinset
    refine (card_insert_le _ _).trans ?_
    omega
  · dsimp only
    omega

theorem writei_chunk_fits_two : wp (writei smallSb 2 noDevices 0 [104, 105] 0 2)
    (fun r t => r = (2 : UInt32).toNat ∧ t.2.toFinset.card ≤ MAXOPBLOCKS)
    (fun e => e = .outOfBlocks ∧ smallSb.free smallFs.disk <
      (smallFs.icache 0).copy.neededFor smallFs.disk (0 : UInt32).toNat (2 : UInt32).toNat)
    (smallFs, []) :=
  writei_chunk_fits smallSb 2 noDevices smallFs 0 [104, 105] 0 2
    (smallFs_sound.isOpen (by decide) rfl) (by decide) rfl (by decide) (by decide) (by decide)

end Xv6.Fs.Logged
