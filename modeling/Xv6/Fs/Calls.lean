import Xv6.Fs.Ownership

/-!
# Block ownership over whole runs

The file-system calls in any order, one after the other, on any inodes, from
any image on which ownership is exact.  `Call.Allowed` says what `fs.c` asks of
a caller: to have a reference to the inode, and to have locked it.

`create`, `sys_link` and `sys_unlink` are sequences of these calls, with `setAttr` for
their stores to an inode.  A run takes the calls in any order, so also in theirs.
-/

namespace Xv6.Fs

open Xv6.Lib List

variable {N : ℕ} {sb : Superblock} {dev : Devsw} {s t : State N} {i : Fin N}

/-! ## Calls -/

/-- `ip->major = major; ip->minor = minor; ip->nlink = nlink; iupdate(ip)`, as
the system calls do. -/
def setAttr (i : Fin N) (major minor nlink : ℤ) : Kernel N PUnit := do
  setCopy i fun d => { d with major, minor, nlink }
  iupdate i

/-- A call into `fs.c`. -/
inductive Call (N : ℕ)
  | ialloc (type : ℤ)
  | iget (inum : ℕ)
  | idup (i : Fin N)
  | ilock (i : Fin N)
  | readi (i : Fin N) (off n : UInt32)
  | writei (i : Fin N) (src : List UInt8) (off n : UInt32)
  | dirlink (i : Fin N) (name : List UInt8) (inum : ℕ)
  | setAttr (i : Fin N) (major minor nlink : ℤ)
  | itrunc (i : Fin N)
  | iput (i : Fin N)

/-- The caller has locked the inode: it holds a reference, and `ilock` has read
the inode. -/
def State.locked (s : State N) (i : Fin N) : Prop :=
  0 < (s.icache i).ref ∧ (s.icache i).valid = true

/-- What callers see to. -/
def Call.Allowed (sb : Superblock) (s : State N) : Call N → Prop
  | .ialloc _ => True
  | .iget _ => True
  | .idup i => 0 < (s.icache i).ref
  | .ilock i => (s.icache i).inum < sb.ninodes
  | .readi i _ _ => s.locked i
  | .writei i src _ n => s.locked i ∧ src.length = n.toNat
  | .dirlink i _ _ => s.locked i
  | .setAttr i _ _ _ => s.locked i
  | .itrunc i => s.locked i
  | .iput i => 0 < (s.icache i).ref

instance (s : State N) (i : Fin N) : Decidable (s.locked i) :=
  inferInstanceAs (Decidable (_ ∧ _))

instance (sb : Superblock) (s : State N) : (c : Call N) → Decidable (c.Allowed sb s)
  | .ialloc _ => inferInstanceAs (Decidable True)
  | .iget _ => inferInstanceAs (Decidable True)
  | .idup i => inferInstanceAs (Decidable (0 < (s.icache i).ref))
  | .ilock i => inferInstanceAs (Decidable ((s.icache i).inum < sb.ninodes))
  | .readi i _ _ => inferInstanceAs (Decidable (s.locked i))
  | .writei i src _ n => inferInstanceAs (Decidable (s.locked i ∧ src.length = n.toNat))
  | .dirlink i _ _ => inferInstanceAs (Decidable (s.locked i))
  | .setAttr i _ _ _ => inferInstanceAs (Decidable (s.locked i))
  | .itrunc i => inferInstanceAs (Decidable (s.locked i))
  | .iput i => inferInstanceAs (Decidable (0 < (s.icache i).ref))

/-- What a call does. -/
def Call.run (sb : Superblock) (dev : Devsw) : Call N → Kernel N PUnit
  | .ialloc type => discard (Fs.ialloc sb type)
  | .iget inum => discard (Fs.iget inum)
  | .idup i => Fs.idup i
  | .ilock i => Fs.ilock i
  | .readi i off n => discard (Fs.readi sb dev i off n)
  | .writei i src off n => discard (Fs.writei sb dev i src off n)
  | .dirlink i name inum => discard (Fs.dirlink sb dev i name inum)
  | .setAttr i major minor nlink => Fs.setAttr i major minor nlink
  | .itrunc i => Fs.itrunc sb i
  | .iput i => Fs.iput sb i

/-- **Block ownership.**  The free map marks exactly the blocks before the data
blocks and those that inodes refer to; they refer to data blocks, to none of
them twice, and have all the blocks below their size. -/
structure Image (sb : Superblock) (s : State N) : Prop where
  marked : ∀ b, b < sb.size →
    (sb.used s.disk b = true ↔ b < sb.nmeta ∨ b ∈ owned sb s.disk s.dinode)
  once : (owned sb s.disk s.dinode).Nodup
  data : ∀ b, b ∈ owned sb s.disk s.dinode → sb.nmeta ≤ b ∧ b < sb.size
  full : ∀ n, n < sb.ninodes → (s.dinode n).type ≠ 0 → (s.dinode n).Full s.disk

/-- The file system in use, from an image and an empty inode cache on.  A call
that panics ends the run. -/
def system (sb : Superblock) (dev : Devsw) (N : ℕ) : Lts (State N) (Call N) where
  init s := Image sb s ∧ ∀ i, (s.icache i).ref = 0
  step s c :=
    match (c.run sb dev).run s with
    | .ok (_, t) => some t
    | .error _ => none

/-! ## What every call keeps -/

theorem Image.exact (h : Image sb s) : Exact sb s.disk s.dinode [] where
  marked b hb := by
    by_cases hm : b ∈ owned sb s.disk s.dinode
    · have hge : ¬b < sb.nmeta := by
        have := (h.data b hm).1
        omega
      rw [if_pos ((h.marked b hb).2 (.inr hm)), if_neg hge, nil_append,
        count_eq_one_of_mem h.once hm]
    · rw [nil_append, count_eq_zero_of_not_mem hm]
      by_cases hlt : b < sb.nmeta
      · rw [if_pos ((h.marked b hb).2 (.inl hlt)), if_pos hlt]
      · rw [if_neg fun hu => ((h.marked b hb).1 hu).elim hlt hm, if_neg hlt]
  inside b hb := (h.data b hb).2

theorem Image.sound (h : Image sb s) (hfree : ∀ i, (s.icache i).ref = 0) : Sound sb s := by
  refine ⟨h.exact, h.full, ?_, ?_⟩
  · intro i hr
    have := hfree i
    omega
  · intro i j hr
    have := hfree i
    omega

theorem Sound.image (h : Sound sb s) : Image sb s where
  marked _ hb := h.exact.used_iff hb
  once := h.exact.nodup
  data b hb := ⟨(h.exact.used_of_mem hb).2, h.exact.inside b hb⟩
  full := h.full

theorem wp_discard {α : Type} {m : Kernel N α} {E : Panic → Prop} {R : State N → Prop}
    (h : wp m (fun _ t => R t) E s) : wp (discard m) (fun _ t => R t) E s := by
  change wp (m >>= fun _ => pure PUnit.unit) _ E s
  rw [wp_bind]
  exact wp_post h fun _ _ ht => ht

theorem setAttr_spec {major minor nlink : ℤ} {E : Panic → Prop} (h : Open sb s i []) :
    wp (setAttr i major minor nlink) (fun _ t => Sound sb t) E s := by
  rw [setAttr, wp_bind, wp_setCopy, wp_iupdate]
  generalize hd : ({ (s.icache i).copy with major, minor, nlink } : Dinode) = d
  refine (h.withCopy (d := d) (by rw [← hd]) (by rw [← hd]) ?_).updated
  rw [← hd]
  have hf := h.full (s.icache i).inum h.inum (by rw [view_self]; exact h.type)
  rwa [view_self] at hf

theorem call_spec (hs : Sound sb s) {c : Call N} (hc : c.Allowed sb s) :
    wp (c.run sb dev) (fun _ t => Sound sb t) (· ≠ .freeingFree) s := by
  cases c with
  | ialloc type => exact wp_discard (ialloc_spec hs (by decide) (by decide))
  | iget inum => exact wp_discard (wp_post (iget_spec hs (by decide)) fun _ _ ht => ht.1)
  | idup i =>
    change wp (idup i) _ _ s
    rw [idup, wp_setInode]
    exact hs.setInode _ rfl rfl (fun _ => hc) id
  | ilock i => exact ilock_spec hs hc (by decide) (by decide)
  | readi i off n =>
    refine wp_discard (wp_post (readi_same (hs.isOpen hc.1 hc.2)) ?_)
    rintro _ _ rfl
    exact hs
  | writei i src off n => exact wp_discard (writei_sound hs hc.1.1 hc.1.2 hc.2 (by decide))
  | dirlink i name inum => exact wp_discard (dirlink_spec hs hc.1 hc.2 fun _ he => he)
  | setAttr i major minor nlink => exact setAttr_spec (hs.isOpen hc.1 hc.2)
  | itrunc i => exact wp_post (itrunc_spec (hs.isOpen hc.1 hc.2)) fun _ _ ht => ht.sound
  | iput i => exact iput_spec hs hc (by simp)

theorem sound_of_reach (h : (system sb dev N).Reach (fun s c => c.Allowed sb s) s) :
    Sound sb s := by
  refine h.invariant (I := Sound sb) ?_ ?_
  · rintro s ⟨himage, hfree⟩
    exact himage.sound hfree
  · intro s c t hs hc hst
    simp only [system] at hst
    split at hst
    · rename_i r u hrun
      cases hst
      have hspec : wp (c.run sb dev) (fun _ t => Sound sb t) (· ≠ .freeingFree) s :=
        call_spec hs hc
      have ht := wp_ok hspec hrun
      exact ht
    · cases hst

/-! ## Ownership -/

/-- **Block ownership is exact** after any sequence of calls; in such a state
`balloc` returns a data block that nothing refers to, and no call makes `bfree`
panic. -/
theorem block_ownership_exact (sb : Superblock) (dev : Devsw) (s : State N)
    (h : (system sb dev N).Reach (fun s c => c.Allowed sb s) s) :
    Image sb s ∧
    (∀ b t, (balloc sb).run s = .ok (b, t) →
      sb.nmeta ≤ b ∧ b < sb.size ∧ b ∉ owned sb s.disk s.dinode) ∧
    ∀ c : Call N, c.Allowed sb s → (c.run sb dev).run s ≠ .error .freeingFree := by
  have hs := sound_of_reach h
  refine ⟨hs.image, ?_, ?_⟩
  · intro b t hrun
    have hspec : wp (balloc sb) _ (fun _ => True) s :=
      balloc_spec (fun _ hc => hs.exact.used_of_lt hc) fun _ => trivial
    obtain ⟨disk', -, ha⟩ := wp_ok hspec hrun
    refine ⟨?_, ha.lt, hs.exact.not_mem_of_free ha.free⟩
    by_contra hlt
    have hused := hs.exact.used_of_lt (Nat.lt_of_not_le hlt)
    rw [ha.free] at hused
    cases hused
  · intro c hc hrun
    have hspec : wp (c.run sb dev) (fun _ t => Sound sb t) (· ≠ .freeingFree) s :=
      call_spec hs hc
    exact wp_error hspec hrun rfl

/-- An image without a file, and an empty inode cache. -/
def emptyFs : State 2 where
  disk := smallDisk
  dinode _ := .zero
  icache _ := ⟨0, 0, false, .zero⟩

theorem emptyFs_image : Image smallSb emptyFs := by
  have hused : ∀ b, b < 20 → smallSb.used smallDisk b = decide (b < 6) := by decide +kernel
  have hown : owned smallSb emptyFs.disk emptyFs.dinode = [] := by decide +kernel
  refine ⟨?_, ?_, ?_, ?_⟩
  · intro b hb
    rw [hown, show smallSb.used emptyFs.disk b = decide (b < 6) from hused b hb]
    simp [show smallSb.nmeta = 6 from rfl]
  · simp [hown]
  · simp [hown]
  · exact fun _ _ ht => absurd rfl ht

/-- A file is made, written and closed; it then has block 6, which is marked. -/
theorem file_made_owns_block : ∃ t : State 2,
    (system smallSb noDevices 2).Reach (fun s c => c.Allowed smallSb s) t ∧ (t.dinode 1).size = 2 ∧
    (t.dinode 1).addrs 0 = 6 ∧ smallSb.used t.disk 6 = true ∧ Image smallSb t := by
  have hinit : (system smallSb noDevices 2).Reach (fun s c => c.Allowed smallSb s) emptyFs :=
    .init ⟨emptyFs_image, fun _ => rfl⟩
  obtain ⟨t, ht, hv⟩ := Lts.reach_of_exec_map
    [.ialloc T_FILE, .ilock 0, .setAttr 0 0 0 1, .writei 0 [104, 105] 0 2, .iput 0]
    (fun t => ((t.dinode 1).size, (t.dinode 1).addrs 0, smallSb.used t.disk 6)) (2, 6, true)
    hinit (by decide +kernel)
  simp only [Prod.mk.injEq] at hv
  exact ⟨t, ht, hv.1, hv.2.1, hv.2.2, (block_ownership_exact smallSb noDevices t ht).1⟩

end Xv6.Fs
