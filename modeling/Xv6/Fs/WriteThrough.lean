import Xv6.Fs.Refine

/-!
# The inode cache is write-through

Every run over the bare disk is one over the inode table, where the inodes in memory are
as in the table between calls.
-/

namespace Xv6.Fs.Raw

open Xv6.Lib Function

variable {N : ℕ} {F : Format} {dev : Devsw} {r : State N} {i : Fin N}

/-! ## Runs -/

theorem allowed_congr {sb : Superblock} {s s' : Fs.State N} (h : s'.icache = s.icache)
    {c : Call N} (hc : c.Allowed sb s') : c.Allowed sb s := by
  cases c with
  | ialloc type => trivial
  | iget inum => trivial
  | idup i | ilock i | iput i =>
    simp only [Call.Allowed, h] at hc ⊢
    exact hc
  | readi i off n | writei i src off n | dirlink i name inum | setAttr i major minor nlink
  | itrunc i =>
    simp only [Call.Allowed, State.locked, h] at hc ⊢
    exact hc

theorem rep_of_reach (h : (system F dev N).Reach (Allowed F) r) :
    ∃ s, (Fs.system F.toSuperblock dev N).Reach (fun s c => c.Allowed F.toSuperblock s) s ∧
      Rep F r s := by
  refine h.invariant (I := fun r => ∃ s, (Fs.system F.toSuperblock dev N).Reach
    (fun s c => c.Allowed F.toSuperblock s) s ∧ Rep F r s) ?_ ?_
  · rintro r ⟨himage, hcache⟩
    exact ⟨r.fs F, .init ⟨himage, fun i => (hcache i).1⟩, rfl, fun _ _ => rfl, fun _ _ => rfl,
      fun i => (hcache i).2⟩
  · rintro r c r' ⟨s, hs, hrep⟩ ⟨hc, htyped⟩ hst
    have hc' := allowed_congr (s := s) hrep.icache hc
    have hsim : Sim (Rep F) (run F dev c) (c.run F.toSuperblock dev) r s :=
      run_sim hrep (sound_of_reach hs) hc' htyped
    simp only [system] at hst
    split at hst
    · rename_i u r₁ hrun
      cases hst
      obtain ⟨t, ht, hrep'⟩ := hsim.ok hrun
      refine ⟨t, hs.step hc' ?_, hrep'⟩
      simp only [Fs.system, ht]
    · cases hst

/-! ## The cache -/

/-- The entry `i` is dropped; `d` is what happens to be in memory. -/
def State.drop (r : State N) (i : Fin N) (d : Dinode) : State N :=
  { r with icache := update r.icache i { r.icache i with valid := false, copy := d } }

theorem run_ilock {s : Fs.State N} {ip : Inode} (hi : s.icache i = ip) (hr : 0 < ip.ref)
    (hv : ip.valid = false) (ht : (s.dinode ip.inum).type ≠ 0) :
    (ilock i).run s =
      .ok (⟨⟩, s.setIp i { ip with copy := s.dinode ip.inum, valid := true }) := by
  subst hi
  have href : ¬(s.icache i).ref < 1 := by omega
  change (if (s.icache i).ref < 1 then throw Panic.ilock
    else if (s.icache i).valid = false then _ else _ : Fs.Kernel N PUnit).run s = _
  rw [if_neg href, if_pos hv, if_neg ht]
  rfl

theorem ilock_drop (hr : 0 < (r.icache i).ref) (hv : (r.icache i).valid = true)
    (hcopy : (r.icache i).copy = slot F r.disk (r.icache i).inum)
    (ht : (r.icache i).copy.type ≠ 0) (d : Dinode) :
    (lift F (ilock i)).run (r.drop i d) = .ok (⟨⟩, r) := by
  have htype : (slot F r.disk (r.icache i).inum).type ≠ 0 := hcopy ▸ ht
  have hrun := run_ilock (s := (r.drop i d).fs F) (update_self ..) hr rfl htype
  have hback : ({ r.icache i with copy := slot F r.disk (r.icache i).inum, valid := true } : Inode)
      = r.icache i := by rw [← hcopy, ← hv]
  rw [run_lift_ok hrun]
  change Except.ok (_, (⟨r.disk, update (update r.icache i _) i _⟩ : State N)) = _
  rw [update_idem]
  change Except.ok (_, (⟨r.disk, update r.icache i
    { r.icache i with copy := slot F r.disk (r.icache i).inum, valid := true }⟩ : State N)) = _
  rw [hback, update_eq_self]

/-- **The inode cache is write-through.**  After any sequence of calls each inode in
memory that has been read is what its 64 bytes on the disk are; when it is dropped,
`ilock` reads it back; and `iupdate` changes no byte of another inode. -/
theorem inode_cache_write_through (F : Format) (dev : Devsw) (r : State N)
    (h : (system F dev N).Reach (Allowed F) r) :
    (∀ i, 0 < (r.icache i).ref → (r.icache i).valid = true →
      (r.icache i).copy = slot F r.disk (r.icache i).inum ∧
      ∀ d, (lift F (ilock i)).run (r.drop i d) = .ok (⟨⟩, r)) ∧
    ∀ (r' : State N) (i : Fin N) (t : State N), (iupdate F i).run r' = .ok (⟨⟩, t) →
      ∀ n o, n ≠ (r'.icache i).inum → o < 64 → slotByte F t.disk n o = slotByte F r'.disk n o := by
  refine ⟨fun i hr hv => ?_, fun r' i t hrun n o hn ho => ?_⟩
  · obtain ⟨s, hs, hrep⟩ := rep_of_reach h
    have hagree := (sound_of_reach hs).agree i
    rw [Agrees, ← hrep.icache] at hagree
    obtain ⟨hlt, hcopy, htype⟩ := hagree hr hv
    rw [hrep.dinode _ hlt] at hcopy
    exact ⟨hcopy, ilock_drop hr hv hcopy htype⟩
  · cases hrun
    exact slotByte_setSlot_of_ne F r'.disk hn _ ho

/-! ## A small disk -/

/-- The inodes are in block 2. -/
def smallFormat : Format where
  toSuperblock := smallSb
  inodes_lt n hn := by
    have hn' : n < 4 := hn
    have hdiv : n / IPB = 0 := Nat.div_eq_of_lt (hn'.trans (by decide))
    rw [hdiv]
    decide

/-- No inode is in use. -/
def emptyDisk : State 2 where
  disk := smallDisk
  icache _ := ⟨0, 0, false, .zero⟩

theorem emptyDisk_image : Image smallSb (emptyDisk.fs smallFormat) := by
  have hused : ∀ b, b < 20 → smallSb.used (emptyDisk.fs smallFormat).disk b = decide (b < 6) := by
    decide +kernel
  have htype : ∀ n, n < 4 → ((emptyDisk.fs smallFormat).dinode n).type = 0 := by decide +kernel
  have hown : owned smallSb (emptyDisk.fs smallFormat).disk (emptyDisk.fs smallFormat).dinode = [] := by
    decide +kernel
  refine ⟨?_, ?_, ?_, ?_⟩
  · intro b hb
    rw [hown, hused b hb]
    simp [show smallSb.nmeta = 6 from rfl]
  · simp [hown]
  · simp [hown]
  · exact fun n hn ht => absurd (htype n hn) ht

/-- A file is made and written; its entry in the cache is what block 2 has. -/
theorem inode_cache_write_through_made : ∃ r : State 2,
    (system smallFormat noDevices 2).Reach (Allowed smallFormat) r ∧ (r.icache 0).copy.size = 2 ∧
    (r.icache 0).copy.addrs 0 = 6 ∧ (r.icache 0).copy = slot smallFormat r.disk 1 := by
  have hinit : (system smallFormat noDevices 2).Reach (Allowed smallFormat) emptyDisk :=
    .init ⟨emptyDisk_image, fun _ => ⟨rfl, fits_zero (by decide)⟩⟩
  obtain ⟨r, hr, hv⟩ := Lts.reach_of_exec_map
    [.ialloc T_FILE, .ilock 0, .setAttr 0 0 0 1, .writei 0 [104, 105] 0 2]
    (fun r => ((r.icache 0).copy.size, (r.icache 0).copy.addrs 0, (r.icache 0).inum,
      (r.icache 0).ref, (r.icache 0).valid)) (2, 6, 1, 1, true) hinit (by decide +kernel)
  simp only [Prod.mk.injEq] at hv
  obtain ⟨hsize, haddr, hinum, href, hvalid⟩ := hv
  have hcopy := ((inode_cache_write_through smallFormat noDevices r hr).1 0
    (by rw [href]; decide) hvalid).1
  rw [hinum] at hcopy
  exact ⟨r, hr, hsize, haddr, hcopy⟩

end Xv6.Fs.Raw
