import Xv6.Fs.Blocks

/-!
# The blocks of a file

`Dinode.blockAt` is the number of a block of a file, wherever it is recorded.
Under exact ownership no block with contents is an indirect block and no two
places in files share a block (`Exact.blockAt_unique`).

`bmap` finds the number of a block and allocates the block if the file has
none.  While it runs, the copy of the inode in memory is ahead of the disk:
`Open` is the state in which ownership is exact once that copy is written.
`Keeps` says that files only grow: the blocks they had stay, with their
contents.
-/

namespace Xv6.Fs

open Xv6.Lib Function List

variable {N : ℕ} {sb : Superblock} {disk disk' : ℕ → Block} {s t : State N} {i : Fin N}
  {tbl tbl' : ℕ → Dinode} {extra : List ℕ} {d : Dinode} {b k n m : ℕ} {E : Panic → Prop}

/-! ## The blocks of one inode -/

/-- The number of block `k` of a file, `0` if it has none. -/
def Dinode.blockAt (disk : ℕ → Block) (d : Dinode) (k : ℕ) : ℕ :=
  if k < NDIRECT then d.addrs k
  else if k - NDIRECT < NINDIRECT ∧ d.addrs NDIRECT ≠ 0 then
    indirect disk (d.addrs NDIRECT) (k - NDIRECT)
  else 0

/-- Every block below the size is allocated. -/
def Dinode.Full (disk : ℕ → Block) (d : Dinode) : Prop :=
  ∀ k, k * BSIZE < d.size → d.blockAt disk k ≠ 0

theorem blockAt_direct (hk : k < NDIRECT) : d.blockAt disk k = d.addrs k := if_pos hk

theorem blockAt_indirect (hk : NDIRECT ≤ k) (hlt : k - NDIRECT < NINDIRECT)
    (ha : d.addrs NDIRECT ≠ 0) :
    d.blockAt disk k = indirect disk (d.addrs NDIRECT) (k - NDIRECT) := by
  rw [Dinode.blockAt, if_neg (by omega), if_pos ⟨hlt, ha⟩]

theorem blockAt_missing (hk : NDIRECT ≤ k) (ha : d.addrs NDIRECT = 0) :
    d.blockAt disk k = 0 := by
  rw [Dinode.blockAt, if_neg (by omega), if_neg (by simp [ha])]

theorem blockAt_congr
    (h : d.addrs NDIRECT ≠ 0 → disk' (d.addrs NDIRECT) = disk (d.addrs NDIRECT)) :
    d.blockAt disk' k = d.blockAt disk k := by
  rw [Dinode.blockAt, Dinode.blockAt]
  split
  · rfl
  · split
    · rename_i hk
      rw [indirect, h hk.2, indirect]
    · rfl

theorem blockAt_cases (hne : d.blockAt disk k ≠ 0) :
    (k < NDIRECT ∧ d.blockAt disk k = d.addrs k) ∨
    (NDIRECT ≤ k ∧ k - NDIRECT < NINDIRECT ∧ d.addrs NDIRECT ≠ 0 ∧
      d.blockAt disk k = indirect disk (d.addrs NDIRECT) (k - NDIRECT)) := by
  rw [Dinode.blockAt] at hne ⊢
  split
  · rename_i hk
    exact .inl ⟨hk, rfl⟩
  · rename_i hk
    rw [if_neg hk] at hne
    split
    · rename_i hin
      exact .inr ⟨by omega, hin.1, hin.2, rfl⟩
    · rename_i hin
      rw [if_neg hin] at hne
      exact absurd rfl hne

theorem refs_nodup (ht : d.type ≠ 0) (h : (d.owned disk).Nodup) : (d.refs disk).Nodup := by
  rwa [Dinode.owned, if_neg ht] at h

theorem blockAt_mem_refs (hne : d.blockAt disk k ≠ 0) : d.blockAt disk k ∈ d.refs disk := by
  rw [Dinode.refs]
  rcases blockAt_cases hne with ⟨hk, heq⟩ | ⟨hk, hlt, ha, heq⟩
  · rw [heq] at hne ⊢
    exact mem_append_left _ (mem_entries.2 ⟨hne, k, hk, rfl⟩)
  · rw [heq] at hne ⊢
    rw [if_neg ha]
    refine mem_append_right _ (mem_cons_of_mem _ ?_)
    exact mem_entries.2 ⟨hne, k - NDIRECT, hlt, rfl⟩

theorem blockAt_mem_owned (ht : d.type ≠ 0) (hne : d.blockAt disk k ≠ 0) :
    d.blockAt disk k ∈ d.owned disk := by
  rw [Dinode.owned, if_neg ht]
  exact blockAt_mem_refs hne

theorem blockAt_ne_indirect (hnd : (d.refs disk).Nodup) (hne : d.blockAt disk k ≠ 0) :
    d.blockAt disk k ≠ d.addrs NDIRECT := by
  intro heq
  have ha : d.addrs NDIRECT ≠ 0 := heq ▸ hne
  rw [Dinode.refs, if_neg ha, nodup_append] at hnd
  obtain ⟨-, hrest, hdisj⟩ := hnd
  rcases blockAt_cases hne with ⟨hk, hb⟩ | ⟨hk, hlt, -, hb⟩
  · refine hdisj _ (mem_entries.2 ⟨hb ▸ hne, k, hk, rfl⟩) _ mem_cons_self ?_
    rw [← hb, heq]
  · refine (nodup_cons.1 hrest).1 (mem_entries.2 ⟨ha, k - NDIRECT, hlt, ?_⟩)
    rw [← hb, heq]

theorem blockAt_inj (hnd : (d.refs disk).Nodup) (hne : d.blockAt disk k ≠ 0)
    (heq : d.blockAt disk k = d.blockAt disk m) : k = m := by
  rcases blockAt_cases hne with ⟨hk, hb⟩ | ⟨hk, hlt, ha, hb⟩ <;>
    rcases blockAt_cases (heq ▸ hne) with ⟨hk', hb'⟩ | ⟨hk', hlt', ha', hb'⟩
  · rw [Dinode.refs, nodup_append] at hnd
    exact slot_unique hnd.1 hk hk' (hb ▸ hne) (by rw [← hb, ← hb', heq])
  · rw [Dinode.refs, if_neg ha', nodup_append] at hnd
    refine absurd ?_ (hnd.2.2 _ (mem_entries.2 ⟨hb ▸ hne, k, hk, rfl⟩) _
      (mem_cons_of_mem _ (mem_entries.2 ⟨hb' ▸ heq ▸ hne, m - NDIRECT, hlt', rfl⟩)))
    rw [← hb, ← hb', heq]
  · rw [Dinode.refs, if_neg ha, nodup_append] at hnd
    refine absurd ?_ (hnd.2.2 _ (mem_entries.2 ⟨hb' ▸ heq ▸ hne, m, hk', rfl⟩) _
      (mem_cons_of_mem _ (mem_entries.2 ⟨hb ▸ hne, k - NDIRECT, hlt, rfl⟩)))
    rw [← hb, ← hb', heq]
  · rw [Dinode.refs, if_neg ha, nodup_append] at hnd
    have := slot_unique (nodup_cons.1 hnd.2.1).2 hlt hlt' (hb ▸ hne) (by rw [← hb, ← hb', heq])
    omega

/-! ## The blocks of several inodes -/

theorem Exact.owned_nodup (h : Exact sb disk tbl extra) : (owned sb disk tbl).Nodup :=
  (nodup_append.1 h.nodup).2.1

theorem Exact.refs_nodup (h : Exact sb disk tbl extra) (hn : n < sb.ninodes)
    (ht : (tbl n).type ≠ 0) : ((tbl n).refs disk).Nodup :=
  Fs.refs_nodup ht ((nodup_flatMap.1 h.owned_nodup).1 n (mem_range.2 hn))

theorem Exact.owner_unique (h : Exact sb disk tbl extra) (hn : n < sb.ninodes)
    (hm : m < sb.ninodes) (hbn : b ∈ (tbl n).owned disk) (hbm : b ∈ (tbl m).owned disk) :
    n = m := by
  have hpair := (nodup_flatMap.1 h.owned_nodup).2
  have hlt : ∀ {n m : ℕ}, n < m → m < sb.ninodes → b ∈ (tbl n).owned disk →
      b ∉ (tbl m).owned disk := fun {n m} hnm hm hbn hbm => by
    have := pairwise_iff_getElem.1 hpair n m (by simpa using hnm.trans hm) (by simpa using hm)
      hnm
    simp only [getElem_range] at this
    exact this hbn hbm
  rcases lt_trichotomy n m with hnm | hnm | hnm
  · exact absurd hbm (hlt hnm hm hbn)
  · exact hnm
  · exact absurd hbn (hlt hnm hn hbm)

theorem Exact.mem_of_blockAt (h : Exact sb disk tbl extra) (hn : n < sb.ninodes)
    (ht : (tbl n).type ≠ 0) (hne : (tbl n).blockAt disk k ≠ 0) :
    sb.nmeta ≤ (tbl n).blockAt disk k ∧ (tbl n).blockAt disk k < sb.size := by
  have hm := mem_append_right extra (mem_owned hn (blockAt_mem_owned ht hne))
  exact ⟨(h.used_of_mem hm).2, h.inside _ hm⟩

theorem Exact.blockAt_ne_indirect (h : Exact sb disk tbl extra) (hn : n < sb.ninodes)
    (ht : (tbl n).type ≠ 0) (hne : (tbl n).blockAt disk k ≠ 0) (hm : m < sb.ninodes)
    (htm : (tbl m).type ≠ 0) : (tbl n).blockAt disk k ≠ (tbl m).addrs NDIRECT := by
  intro heq
  have hmem := indirect_mem_owned disk htm (heq ▸ hne)
  have hnm : n = m := h.owner_unique hn hm (blockAt_mem_owned ht hne) (heq ▸ hmem)
  subst hnm
  exact Fs.blockAt_ne_indirect (h.refs_nodup hn ht) hne heq

theorem Exact.blockAt_unique (h : Exact sb disk tbl extra) (hn : n < sb.ninodes)
    (ht : (tbl n).type ≠ 0) (hm : m < sb.ninodes) (htm : (tbl m).type ≠ 0) {l : ℕ}
    (hne : (tbl n).blockAt disk k ≠ 0) (heq : (tbl n).blockAt disk k = (tbl m).blockAt disk l) :
    n = m ∧ k = l := by
  have hnm : n = m := h.owner_unique hn hm (blockAt_mem_owned ht hne)
    (heq ▸ blockAt_mem_owned htm (heq ▸ hne))
  subst hnm
  exact ⟨rfl, blockAt_inj (h.refs_nodup hn ht) hne heq⟩

/-! ## Growing a file -/

/-- The number of free blocks. -/
def Superblock.free (sb : Superblock) (disk : ℕ → Block) : ℕ :=
  ((Finset.range sb.size).filter fun b => sb.used disk b = false).card

theorem Allocated.free_succ (ha : Allocated sb disk b disk') :
    sb.free disk' + 1 = sb.free disk := by
  have hmem : b ∈ (Finset.range sb.size).filter fun b => sb.used disk b = false := by
    simp [ha.lt, ha.free]
  have heq : ((Finset.range sb.size).filter fun b => sb.used disk' b = false)
      = ((Finset.range sb.size).filter fun b => sb.used disk b = false).erase b := by
    ext c
    simp only [Finset.mem_filter, Finset.mem_range, Finset.mem_erase]
    by_cases hcb : c = b
    · subst hcb
      simp [ha.used]
    · refine ⟨fun h => ⟨hcb, h.1, ?_⟩, fun h => ⟨h.2.1, ?_⟩⟩
      · rw [← ha.others c h.1 hcb]
        exact h.2
      · rw [ha.others c h.2.1 hcb]
        exact h.2.2
  rw [Superblock.free, Superblock.free, heq, Finset.card_erase_add_one hmem]

theorem free_eq_zero (h : ∀ b, b < sb.size → sb.used disk b = true) : sb.free disk = 0 := by
  rw [Superblock.free, Finset.card_eq_zero, Finset.filter_eq_empty_iff]
  intro b hb
  rw [h b (Finset.mem_range.1 hb)]
  decide

theorem free_congr (h : ∀ b, b < sb.size → sb.used disk' b = sb.used disk b) :
    sb.free disk' = sb.free disk := by
  rw [Superblock.free, Superblock.free]
  congr 1
  exact Finset.filter_congr fun b hb => by rw [h b (Finset.mem_range.1 hb)]

/-- The blocks that files have stay where they are with what is in them. -/
structure Keeps (sb : Superblock) (disk : ℕ → Block) (tbl : ℕ → Dinode) (disk' : ℕ → Block)
    (tbl' : ℕ → Dinode) : Prop where
  type : ∀ n, (tbl' n).type = (tbl n).type
  size : ∀ n, (tbl' n).size = (tbl n).size
  block : ∀ n, n < sb.ninodes → (tbl n).type ≠ 0 → ∀ k, (tbl n).blockAt disk k ≠ 0 →
    (tbl' n).blockAt disk' k = (tbl n).blockAt disk k
  data : ∀ n, n < sb.ninodes → (tbl n).type ≠ 0 → ∀ k, (tbl n).blockAt disk k ≠ 0 →
    disk' ((tbl n).blockAt disk k) = disk ((tbl n).blockAt disk k)

theorem Keeps.refl : Keeps sb disk tbl disk tbl :=
  ⟨fun _ => rfl, fun _ => rfl, fun _ _ _ _ _ => rfl, fun _ _ _ _ _ => rfl⟩

theorem Keeps.trans {disk'' : ℕ → Block} {tbl'' : ℕ → Dinode} (h : Keeps sb disk tbl disk' tbl')
    (h' : Keeps sb disk' tbl' disk'' tbl'') : Keeps sb disk tbl disk'' tbl'' := by
  refine ⟨fun n => (h'.type n).trans (h.type n), fun n => (h'.size n).trans (h.size n), ?_, ?_⟩
  · intro n hn ht k hne
    have hb := h.block n hn ht k hne
    rw [h'.block n hn (h.type n ▸ ht) k (hb ▸ hne), hb]
  · intro n hn ht k hne
    have hb := h.block n hn ht k hne
    rw [← h.data n hn ht k hne, ← hb]
    exact h'.data n hn (h.type n ▸ ht) k (hb ▸ hne)

theorem Keeps.full (h : Keeps sb disk tbl disk' tbl') (hn : n < sb.ninodes)
    (ht : (tbl n).type ≠ 0) (hf : (tbl n).Full disk) : (tbl' n).Full disk' := by
  intro k hk
  have hne := hf k (h.size n ▸ hk)
  rw [h.block n hn ht k hne]
  exact hne

theorem Allocated.blockAt (ha : Allocated sb disk b disk') (h : Exact sb disk tbl extra)
    (hn : n < sb.ninodes) (ht : (tbl n).type ≠ 0) (k : ℕ) :
    (tbl n).blockAt disk' k = (tbl n).blockAt disk k := by
  refine blockAt_congr fun hne => ?_
  have hm := mem_append_right extra
    (mem_owned hn (indirect_mem_owned disk ht hne))
  refine ha.same _ (h.used_of_mem hm).2 ?_
  rintro rfl
  exact h.not_mem_of_free ha.free hm

theorem Allocated.keeps (ha : Allocated sb disk b disk') (h : Exact sb disk tbl extra) :
    Keeps sb disk tbl disk' tbl := by
  refine ⟨fun _ => rfl, fun _ => rfl, fun n hn ht k _ => ha.blockAt h hn ht k, ?_⟩
  intro n hn ht k hne
  have hm := mem_append_right extra (mem_owned hn (blockAt_mem_owned ht hne))
  refine ha.same _ (h.used_of_mem hm).2 ?_
  intro heq
  exact h.not_mem_of_free ha.free (heq ▸ hm)

/-! ## What an inode refers to after a block number is recorded -/

theorem owned_setAddr_direct (ht : d.type ≠ 0) (hk : k < NDIRECT) (h0 : d.addrs k = 0)
    (hb : b ≠ 0) : ((d.setAddr k b).owned disk).Perm (b :: d.owned disk) := by
  have hind : (d.setAddr k b).addrs NDIRECT = d.addrs NDIRECT :=
    update_of_ne (Nat.ne_of_gt hk) _ _
  rw [Dinode.owned, if_neg (show (d.setAddr k b).type ≠ 0 from ht), Dinode.owned, if_neg ht,
    Dinode.refs, hind, Dinode.refs, ← cons_append]
  exact (entries_update hk h0 hb).append_right _

theorem entries_zeroes (h : disk b = .zeroes) : entries NINDIRECT (indirect disk b) = [] := by
  refine entries_eq_nil fun j _ => ?_
  simp [indirect, h, Block.word, Block.byte, Block.zeroes]

theorem owned_setAddr_indirect (ht : d.type ≠ 0) (h0 : d.addrs NDIRECT = 0) (hb : b ≠ 0)
    (hz : disk b = .zeroes) : ((d.setAddr NDIRECT b).owned disk).Perm (b :: d.owned disk) := by
  have hdir : entries NDIRECT (d.setAddr NDIRECT b).addrs = entries NDIRECT d.addrs :=
    entries_congr fun k hk => update_of_ne (Nat.ne_of_lt hk) _ _
  have hind : (d.setAddr NDIRECT b).addrs NDIRECT = b := by simp [Dinode.setAddr]
  rw [Dinode.owned, if_neg (show (d.setAddr NDIRECT b).type ≠ 0 from ht), Dinode.owned, if_neg ht,
    Dinode.refs, hdir, hind, if_neg hb, entries_zeroes hz, Dinode.refs, if_pos h0, append_nil]
  exact perm_append_comm

/-- The disk after `a[j] = b` in the indirect block `ind`. -/
def setEntry (disk : ℕ → Block) (ind j b : ℕ) : ℕ → Block :=
  update disk ind ((disk ind).setWord j (UInt32.ofNat b))

theorem indirect_setEntry {ind j : ℕ} (hj : j < NINDIRECT) (hb : b < 2 ^ 32) (l : ℕ)
    (hl : l < NINDIRECT) :
    indirect (setEntry disk ind j b) ind l = update (indirect disk ind) j b l := by
  rw [indirect, setEntry, update_self]
  by_cases hlj : l = j
  · subst hlj
    rw [Block.word_setWord_self _ hj, update_self, UInt32.toNat_ofNat_of_lt' hb]
  · rw [Block.word_setWord_of_ne _ hl hlj, update_of_ne hlj, indirect]

theorem owned_setEntry {j : ℕ} (ht : d.type ≠ 0) (ha : d.addrs NDIRECT ≠ 0) (hj : j < NINDIRECT)
    (h0 : indirect disk (d.addrs NDIRECT) j = 0) (hb : b ≠ 0) (hlt : b < 2 ^ 32) :
    (d.owned (setEntry disk (d.addrs NDIRECT) j b)).Perm (b :: d.owned disk) := by
  rw [Dinode.owned, if_neg ht, Dinode.owned, if_neg ht, Dinode.refs, if_neg ha, Dinode.refs,
    if_neg ha, entries_congr (indirect_setEntry hj hlt)]
  have hp := (entries_update hj h0 hb).cons (d.addrs NDIRECT)
  refine (hp.append_left _).trans ?_
  refine ((List.Perm.swap ..).append_left _).trans ?_
  exact perm_middle

theorem blockAt_setAddr_direct (hk : k < NDIRECT) (l : ℕ) :
    (d.setAddr k b).blockAt disk l = if l = k then b else d.blockAt disk l := by
  have hind : (d.setAddr k b).addrs NDIRECT = d.addrs NDIRECT :=
    update_of_ne (Nat.ne_of_gt hk) _ _
  by_cases hlk : l = k
  · rw [if_pos hlk, hlk, blockAt_direct hk]
    simp [Dinode.setAddr]
  · rw [if_neg hlk, Dinode.blockAt, hind, Dinode.blockAt]
    split
    · exact update_of_ne hlk _ _
    · rfl

theorem blockAt_setAddr_indirect (h0 : d.addrs NDIRECT = 0) (hz : disk b = .zeroes) (l : ℕ) :
    (d.setAddr NDIRECT b).blockAt disk l = d.blockAt disk l := by
  have hind : (d.setAddr NDIRECT b).addrs NDIRECT = b := by simp [Dinode.setAddr]
  by_cases hl : l < NDIRECT
  · rw [blockAt_direct hl, blockAt_direct hl]
    exact update_of_ne (Nat.ne_of_lt hl) _ _
  · rw [blockAt_missing (d := d) (by omega) h0, Dinode.blockAt, if_neg hl, hind]
    simp [indirect, hz, Block.word, Block.byte, Block.zeroes]

theorem blockAt_setEntry {j : ℕ} (ha : d.addrs NDIRECT ≠ 0) (hj : j < NINDIRECT)
    (hb : b < 2 ^ 32) (l : ℕ) : d.blockAt (setEntry disk (d.addrs NDIRECT) j b) l =
      if l = NDIRECT + j then b else d.blockAt disk l := by
  by_cases hl : l < NDIRECT
  · rw [blockAt_direct hl, blockAt_direct hl, if_neg (by omega)]
  · by_cases hin : l - NDIRECT < NINDIRECT
    · rw [blockAt_indirect (by omega) hin ha, blockAt_indirect (by omega) hin ha,
        indirect_setEntry hj hb _ hin]
      by_cases hlj : l = NDIRECT + j
      · rw [if_pos hlj, hlj, Nat.add_sub_cancel_left, update_self]
      · rw [if_neg hlj, update_of_ne (by omega)]
    · rw [Dinode.blockAt, if_neg hl, if_neg (by simp [hin]), if_neg (by omega), Dinode.blockAt,
        if_neg hl, if_neg (by simp [hin])]

/-! ## An inode in use -/

/-- The inodes as they are about to be, with the copy of inode `i` that is being
changed in memory. -/
def view (s : State N) (i : Fin N) : ℕ → Dinode :=
  update s.dinode (s.icache i).inum (s.icache i).copy

@[simp] theorem view_self (s : State N) (i : Fin N) :
    view s i (s.icache i).inum = (s.icache i).copy := update_self ..

theorem view_of_ne (h : n ≠ (s.icache i).inum) : view s i n = s.dinode n :=
  update_of_ne h ..

/-- The copy in memory is what is on the disk. -/
def Agrees (sb : Superblock) (s : State N) (i : Fin N) : Prop :=
  0 < (s.icache i).ref → (s.icache i).valid = true →
    (s.icache i).inum < sb.ninodes ∧ (s.icache i).copy = s.dinode (s.icache i).inum ∧
      (s.icache i).copy.type ≠ 0

/-- Some process has the inode `i` locked. -/
structure InUse (sb : Superblock) (s : State N) (i : Fin N) : Prop where
  ref : 0 < (s.icache i).ref
  valid : (s.icache i).valid = true
  inum : (s.icache i).inum < sb.ninodes
  type : (s.icache i).copy.type ≠ 0
  agree : ∀ j, j ≠ i → Agrees sb s j
  unique : ∀ j k, 0 < (s.icache j).ref → 0 < (s.icache k).ref →
    (s.icache j).inum = (s.icache k).inum → j = k

theorem InUse.congr (h : InUse sb s i) (hi : t.icache i = { s.icache i with copy := d })
    (ht : d.type ≠ 0) (hothers : ∀ j, j ≠ i → t.icache j = s.icache j)
    (hdinode : t.dinode = s.dinode) : InUse sb t i := by
  have href : ∀ j, (t.icache j).ref = (s.icache j).ref ∧ (t.icache j).inum = (s.icache j).inum := by
    intro j
    by_cases hj : j = i
    · rw [hj, hi]
      exact ⟨rfl, rfl⟩
    · rw [hothers j hj]
      exact ⟨rfl, rfl⟩
  refine ⟨?_, ?_, ?_, ?_, ?_, ?_⟩
  · rw [(href i).1]
    exact h.ref
  · rw [hi]
    exact h.valid
  · rw [(href i).2]
    exact h.inum
  · rw [hi]
    exact ht
  · intro j hj
    have := h.agree j hj
    rw [Agrees, hothers j hj, hdinode]
    exact this
  · intro j k hj hk he
    rw [(href j).1] at hj
    rw [(href k).1] at hk
    rw [(href j).2, (href k).2] at he
    exact h.unique j k hj hk he

/-- **While an inode is in use**, its copy in memory counts and not what is on
the disk. -/
structure Open (sb : Superblock) (s : State N) (i : Fin N) (extra : List ℕ) : Prop
    extends InUse sb s i where
  exact : Exact sb s.disk (view s i) extra
  full : ∀ n, n < sb.ninodes → (view s i n).type ≠ 0 → (view s i n).Full s.disk

/-- Only block numbers change, those of inode `i`. -/
structure Grows (sb : Superblock) (s : State N) (i : Fin N) (t : State N) : Prop where
  keeps : Keeps sb s.disk (view s i) t.disk (view t i)
  copy : ∃ f, t.icache i = { s.icache i with copy := { (s.icache i).copy with addrs := f } }
  others : ∀ j, j ≠ i → t.icache j = s.icache j
  dinode : t.dinode = s.dinode

theorem Grows.refl : Grows sb s i s := ⟨.refl, ⟨_, rfl⟩, fun _ _ => rfl, rfl⟩

theorem Grows.trans {u : State N} (h : Grows sb s i t) (h' : Grows sb t i u) : Grows sb s i u := by
  obtain ⟨f, hf⟩ := h.copy
  obtain ⟨g, hg⟩ := h'.copy
  refine ⟨h.keeps.trans h'.keeps, ⟨g, ?_⟩, fun j hj => (h'.others j hj).trans (h.others j hj),
    h'.dinode.trans h.dinode⟩
  rw [hg, hf]

theorem Open.grow (h : Open sb s i extra) {extra' : List ℕ} (hg : Grows sb s i t)
    (hexact : Exact sb t.disk (view t i) extra') : Open sb t i extra' := by
  obtain ⟨f, hf⟩ := hg.copy
  refine ⟨h.toInUse.congr hf h.type hg.others hg.dinode, hexact, ?_⟩
  intro n hn ht
  have ht' : (view s i n).type ≠ 0 := hg.keeps.type n ▸ ht
  exact hg.keeps.full hn ht' (h.full n hn ht')

/-! ## The three places where a block number is recorded -/

theorem Exact.data_of_free (h : Exact sb disk tbl extra) (hf : sb.used disk b = false) :
    sb.nmeta ≤ b := by
  by_contra hlt
  rw [h.used_of_lt (by omega)] at hf
  cases hf

theorem Allocated.ne_zero (ha : Allocated sb disk b disk') (h : Exact sb disk tbl extra) :
    b ≠ 0 := by
  have h0 := h.data_of_free ha.free
  have := BBLOCK_lt ha.lt
  omega

/-- The state after `ip->addrs[k] = b` over the disk `disk'`. -/
def State.recordAddr (s : State N) (i : Fin N) (disk' : ℕ → Block) (k b : ℕ) : State N :=
  { s with
    disk := disk'
    icache := update s.icache i
      { s.icache i with copy := (s.icache i).copy.setAddr k b } }

theorem view_recordAddr (s : State N) (i : Fin N) (disk' : ℕ → Block) (k b : ℕ) :
    view (s.recordAddr i disk' k b) i =
      update (view s i) (s.icache i).inum ((s.icache i).copy.setAddr k b) := by
  simp [view, State.recordAddr]

theorem Open.recordAddr (h : Open sb s i []) (ha : Allocated sb s.disk b disk')
    (hperm : (((s.icache i).copy.setAddr k b).owned disk').Perm
      (b :: (s.icache i).copy.owned disk'))
    (hblock : ∀ l, (s.icache i).copy.blockAt s.disk l ≠ 0 →
      ((s.icache i).copy.setAddr k b).blockAt disk' l = (s.icache i).copy.blockAt disk' l) :
    Open sb (s.recordAddr i disk' k b) i [] ∧ Grows sb s i (s.recordAddr i disk' k b) := by
  have hkeep := ha.keeps h.exact
  have hg : Grows sb s i (s.recordAddr i disk' k b) := by
    refine ⟨?_, ⟨update (s.icache i).copy.addrs k b, ?_⟩, ?_, rfl⟩
    · refine hkeep.trans ?_
      rw [view_recordAddr]
      refine ⟨?_, ?_, ?_, fun _ _ _ _ _ => rfl⟩
      · intro n
        by_cases hn : n = (s.icache i).inum
        · rw [hn, update_self, view_self]
          rfl
        · rw [update_of_ne hn]
      · intro n
        by_cases hn : n = (s.icache i).inum
        · rw [hn, update_self, view_self]
          rfl
        · rw [update_of_ne hn]
      · intro n hlt ht l hne
        by_cases hn : n = (s.icache i).inum
        · subst hn
          rw [update_self]
          rw [ha.blockAt h.exact hlt ht, view_self] at hne
          rw [view_self]
          exact hblock l hne
        · rw [update_of_ne hn]
          rfl
    · simp [State.recordAddr, Dinode.setAddr]
    · intro j hj
      simp [State.recordAddr, hj]
  refine ⟨h.grow hg ?_, hg⟩
  refine (h.exact.alloc ha).update h.inum (fun _ _ => rfl) ?_ ?_
  · intro m _ hm
    rw [view_recordAddr, update_of_ne hm]
    rfl
  · rw [view_recordAddr, update_self, view_self]
    exact hperm

theorem Open.indirect_data (h : Open sb s i extra)
    (hind : (s.icache i).copy.addrs NDIRECT ≠ 0) :
    sb.nmeta ≤ (s.icache i).copy.addrs NDIRECT := by
  have hmem : (s.icache i).copy.addrs NDIRECT ∈ (view s i (s.icache i).inum).owned s.disk := by
    rw [view_self]
    exact indirect_mem_owned _ h.type hind
  exact (h.exact.used_of_mem (mem_append_right _ (mem_owned h.inum hmem))).2

theorem Open.recordEntry {j : ℕ} (h : Open sb s i []) (ha : Allocated sb s.disk b disk')
    (hind : (s.icache i).copy.addrs NDIRECT ≠ 0) (hj : j < NINDIRECT)
    (h0 : indirect disk' ((s.icache i).copy.addrs NDIRECT) j = 0) :
    Open sb { s with disk := setEntry disk' ((s.icache i).copy.addrs NDIRECT) j b } i [] ∧
      Grows sb s i { s with disk := setEntry disk' ((s.icache i).copy.addrs NDIRECT) j b } := by
  have hkeep := ha.keeps h.exact
  have hexact := h.exact.alloc ha
  have hb : b < 2 ^ 32 := by
    have := ha.lt
    have := sb.size_lt
    omega
  have hmem : (s.icache i).copy.addrs NDIRECT ∈ (view s i (s.icache i).inum).owned disk' := by
    rw [view_self]
    exact indirect_mem_owned _ h.type hind
  have hdata := h.indirect_data hind
  -- the other inodes have other indirect blocks
  have hother : ∀ m, m < sb.ninodes → m ≠ (s.icache i).inum → (view s i m).type ≠ 0 →
      (view s i m).addrs NDIRECT ≠ 0 →
      (view s i m).addrs NDIRECT ≠ (s.icache i).copy.addrs NDIRECT := by
    intro m hm hne ht ha' heq
    refine hne (hexact.owner_unique hm h.inum (indirect_mem_owned _ ht ha') ?_)
    rw [heq]
    exact hmem
  have hg : Grows sb s i
      { s with disk := setEntry disk' ((s.icache i).copy.addrs NDIRECT) j b } := by
    refine ⟨hkeep.trans ⟨fun _ => rfl, fun _ => rfl, ?_, ?_⟩, ⟨_, rfl⟩, fun _ _ => rfl, rfl⟩
    · intro n hn ht l hne
      change (view s i n).blockAt _ l = _
      by_cases hni : n = (s.icache i).inum
      · subst hni
        rw [view_self] at hne ⊢
        rw [blockAt_setEntry hind hj hb, if_neg]
        rintro rfl
        rw [blockAt_indirect (by omega) (by omega) hind, Nat.add_sub_cancel_left] at hne
        exact hne h0
      · exact blockAt_congr fun ha' => update_of_ne (hother n hn hni ht ha') ..
    · intro n hn ht l hne
      refine update_of_ne ?_ ..
      have := hexact.blockAt_ne_indirect hn ht hne h.inum (by rw [view_self]; exact h.type)
      rwa [view_self] at this
  refine ⟨h.grow hg ?_, hg⟩
  refine hexact.update h.inum (fun c hc => used_update_data hdata hc) ?_ ?_
  · intro m hm hne
    exact Dinode.owned_congr fun ht ha' => update_of_ne (hother m hm hne ht ha') ..
  · change (view s i (s.icache i).inum |>.owned _).Perm _
    rw [view_self]
    exact owned_setEntry h.type hind hj h0 (ha.ne_zero h.exact) hb

/-! ## `bmap` -/

theorem Open.balloc (h : Open sb s i extra) (hE : sb.free s.disk = 0 → E .outOfBlocks) :
    wp (balloc sb) (fun b t => ∃ disk', t = { s with disk := disk' } ∧
      Allocated sb s.disk b disk') E s :=
  balloc_spec (fun _ hc => h.exact.used_of_lt hc) fun hall => hE (free_eq_zero hall)

theorem wp_setAddr {Q : PUnit → State N → Prop} :
    wp (setAddr i k b) Q E { s with disk := disk' } ↔ Q ⟨⟩ (s.recordAddr i disk' k b) := Iff.rfl

theorem wp_setEntry {ind j : ℕ} {Q : PUnit → State N → Prop} :
    wp (setBlock ind ((disk' ind).setWord j (UInt32.ofNat b))) Q E { s with disk := disk' } ↔
      Q ⟨⟩ { s with disk := setEntry disk' ind j b } := Iff.rfl

/-- How many blocks `bmap` has to allocate for block `bn` of a file. -/
def Dinode.missing (disk : ℕ → Block) (d : Dinode) (bn : ℕ) : ℕ :=
  (if d.blockAt disk bn = 0 then 1 else 0) +
    if NDIRECT ≤ bn ∧ d.addrs NDIRECT = 0 then 1 else 0

/-- What finding the number `a` in slot `k` of `ip->addrs` leaves behind, and
whether a block was allocated for it. -/
structure Loaded (sb : Superblock) (s : State N) (i : Fin N) (k a : ℕ) (t : State N) : Prop where
  isOpen : Open sb t i []
  grows : Grows sb s i t
  addr : (t.icache i).copy.addrs k = a
  ne : a ≠ 0
  hit : (s.icache i).copy.addrs k ≠ 0 → t = s
  others : ∀ l, l ≠ k → (t.icache i).copy.addrs l = (s.icache i).copy.addrs l
  block : ∀ l, l ≠ k ∨ k = NDIRECT →
    (t.icache i).copy.blockAt t.disk l = (s.icache i).copy.blockAt s.disk l
  free : sb.free t.disk + (if (s.icache i).copy.addrs k = 0 then 1 else 0) = sb.free s.disk

theorem loadAddr_spec (h : Open sb s i []) (hk : k ≤ NDIRECT)
    (hE : (s.icache i).copy.addrs k = 0 → sb.free s.disk = 0 → E .outOfBlocks) :
    wp (loadAddr sb i k) (fun a t => Loaded sb s i k a t) E s := by
  rw [loadAddr, wp_bind, wp_get, wp_ite]
  refine ⟨fun h0 => ?_, fun hne => ?_⟩
  · rw [wp_bind]
    refine wp_post (h.balloc (hE h0)) ?_
    rintro b - ⟨disk', rfl, ha⟩
    have hb := ha.ne_zero h.exact
    rw [wp_bind, wp_setAddr, wp_pure]
    have hcopy : ((s.recordAddr i disk' k b).icache i).copy = (s.icache i).copy.setAddr k b := by
      simp [State.recordAddr]
    have hself : (view s i (s.icache i).inum).type ≠ 0 := by
      rw [view_self]
      exact h.type
    have hold : ∀ l, (s.icache i).copy.blockAt disk' l = (s.icache i).copy.blockAt s.disk l := by
      intro l
      have := ha.blockAt h.exact h.inum hself l
      rwa [view_self] at this
    have hblock : ∀ l, l ≠ k ∨ k = NDIRECT → ((s.icache i).copy.setAddr k b).blockAt disk' l =
        (s.icache i).copy.blockAt s.disk l := by
      intro l hl
      rcases Nat.lt_or_eq_of_le hk with hlt | rfl
      · rw [blockAt_setAddr_direct hlt, if_neg (hl.resolve_right (Nat.ne_of_lt hlt)), hold l]
      · rw [blockAt_setAddr_indirect h0 ha.zero, hold l]
    have hrec := h.recordAddr (k := k) ha (by
      rcases Nat.lt_or_eq_of_le hk with hlt | rfl
      · exact owned_setAddr_direct h.type hlt h0 hb
      · exact owned_setAddr_indirect h.type h0 hb ha.zero) (by
      intro l hne
      rw [hold l]
      refine hblock l ?_
      rcases Nat.lt_or_eq_of_le hk with hlt | rfl
      · refine .inl ?_
        rintro rfl
        rw [blockAt_direct hlt] at hne
        exact hne h0
      · exact .inr rfl)
    refine ⟨hrec.1, hrec.2, ?_, hb, fun hne => absurd h0 hne, ?_, ?_, ?_⟩
    · rw [hcopy]
      simp [Dinode.setAddr]
    · intro l hl
      rw [hcopy]
      exact update_of_ne hl _ _
    · intro l hl
      rw [hcopy]
      exact hblock l hl
    · rw [if_pos h0]
      exact ha.free_succ
  · rw [wp_pure]
    refine ⟨h, .refl, rfl, hne, fun _ => rfl, fun _ _ => rfl, fun _ _ => rfl, ?_⟩
    rw [if_neg hne]
    exact Nat.add_zero _

/-- What finding the number `a` of block `bn` of the file leaves behind. -/
structure Mapped (sb : Superblock) (s : State N) (i : Fin N) (bn a : ℕ) (t : State N) : Prop where
  isOpen : Open sb t i []
  grows : Grows sb s i t
  addr : (t.icache i).copy.blockAt t.disk bn = a
  ne : a ≠ 0
  hit : (s.icache i).copy.blockAt s.disk bn ≠ 0 → t = s
  rest : ∀ l, l ≠ bn → (t.icache i).copy.blockAt t.disk l = (s.icache i).copy.blockAt s.disk l
  ind : (t.icache i).copy.addrs NDIRECT = 0 ↔
    bn < NDIRECT ∧ (s.icache i).copy.addrs NDIRECT = 0
  free : sb.free t.disk + (s.icache i).copy.missing s.disk bn = sb.free s.disk

theorem loadEntry_spec {bn : ℕ} (h : Open sb s i []) (hbn : NDIRECT ≤ bn)
    (hj : bn - NDIRECT < NINDIRECT) (hind : (s.icache i).copy.addrs NDIRECT ≠ 0)
    (hE : (s.icache i).copy.blockAt s.disk bn = 0 → sb.free s.disk = 0 → E .outOfBlocks) :
    wp (loadEntry sb ((s.icache i).copy.addrs NDIRECT) (bn - NDIRECT))
      (fun a t => Mapped sb s i bn a t) E s := by
  have hat : (s.icache i).copy.blockAt s.disk bn = _ := blockAt_indirect hbn hj hind
  have hmiss : (s.icache i).copy.missing s.disk bn =
      if (s.icache i).copy.blockAt s.disk bn = 0 then 1 else 0 := by
    have hno : ¬(NDIRECT ≤ bn ∧ (s.icache i).copy.addrs NDIRECT = 0) := fun hc => hind hc.2
    rw [Dinode.missing, if_neg hno, Nat.add_zero]
  rw [loadEntry, wp_bind, wp_get, wp_ite]
  change (indirect s.disk _ _ = 0 → _) ∧ (¬indirect s.disk _ _ = 0 → _)
  rw [← hat]
  refine ⟨fun h0 => ?_, fun hne => ?_⟩
  · rw [wp_bind]
    refine wp_post (h.balloc (hE h0)) ?_
    rintro b - ⟨disk', rfl, ha⟩
    rw [wp_bind, wp_get, wp_bind, wp_setEntry, wp_pure]
    have hb : b < 2 ^ 32 := by
      have := ha.lt
      have := sb.size_lt
      omega
    have hself : (view s i (s.icache i).inum).type ≠ 0 := by
      rw [view_self]
      exact h.type
    have hold : ∀ l, (s.icache i).copy.blockAt disk' l = (s.icache i).copy.blockAt s.disk l := by
      intro l
      have := ha.blockAt h.exact h.inum hself l
      rwa [view_self] at this
    have h0' : indirect disk' ((s.icache i).copy.addrs NDIRECT) (bn - NDIRECT) = 0 := by
      rw [← blockAt_indirect hbn hj hind, hold, h0]
    have hrec := h.recordEntry ha hind hj h0'
    have hbn' : NDIRECT + (bn - NDIRECT) = bn := by omega
    refine ⟨hrec.1, hrec.2, ?_, ha.ne_zero h.exact, fun hne => absurd h0 hne, ?_,
      ⟨fun hc => absurd hc hind, fun hc => absurd hc.2 hind⟩, ?_⟩
    · rw [blockAt_setEntry hind hj hb, if_pos hbn'.symm]
    · intro l hl
      rw [blockAt_setEntry hind hj hb, if_neg (by rwa [hbn']), hold]
    · have hfree : sb.free (setEntry disk' ((s.icache i).copy.addrs NDIRECT) (bn - NDIRECT) b) =
          sb.free disk' := free_congr fun c hc => used_update_data (h.indirect_data hind) hc
      rw [hmiss, if_pos h0, ← ha.free_succ]
      exact congrArg (· + 1) hfree
  · rw [wp_pure]
    change Mapped sb s i bn (indirect s.disk _ _) s
    rw [← hat]
    refine ⟨h, .refl, rfl, hne, fun _ => rfl, fun _ _ => rfl,
      ⟨fun hc => absurd hc hind, fun hc => absurd hc.2 hind⟩, ?_⟩
    rw [hmiss, if_neg hne]
    exact Nat.add_zero _

theorem bmap_spec {bn : ℕ} (h : Open sb s i []) (hbn : bn < MAXFILE)
    (hE : sb.free s.disk < (s.icache i).copy.missing s.disk bn → E .outOfBlocks) :
    wp (bmap sb i bn) (fun a t => Mapped sb s i bn a t) E s := by
  rw [bmap, wp_ite]
  refine ⟨fun hk => ?_, fun hk => ?_⟩
  · have hat : (s.icache i).copy.blockAt s.disk bn = (s.icache i).copy.addrs bn :=
      blockAt_direct hk
    have hno : ¬(NDIRECT ≤ bn ∧ (s.icache i).copy.addrs NDIRECT = 0) := by omega
    have hmiss : (s.icache i).copy.missing s.disk bn =
        if (s.icache i).copy.addrs bn = 0 then 1 else 0 := by
      rw [Dinode.missing, if_neg hno, Nat.add_zero, hat]
    refine wp_post (loadAddr_spec h hk.le ?_) ?_
    · intro h0 hf
      refine hE ?_
      rw [hmiss, if_pos h0, hf]
      exact Nat.one_pos
    intro a t ht
    refine ⟨ht.isOpen, ht.grows, ?_, ht.ne, ?_, ?_, ?_, ?_⟩
    · rw [blockAt_direct hk]
      exact ht.addr
    · rw [hat]
      exact ht.hit
    · exact fun l hl => ht.block l (.inl hl)
    · rw [ht.others _ (Nat.ne_of_gt hk)]
      exact (and_iff_right hk).symm
    · rw [hmiss]
      exact ht.free
  · have hj : bn - NDIRECT < NINDIRECT := by
      simp only [MAXFILE] at hbn
      omega
    rw [if_pos hj, wp_bind]
    refine wp_post (loadAddr_spec h le_rfl ?_) ?_
    · intro h0 hf
      refine hE ?_
      rw [Dinode.missing, blockAt_missing (by omega) h0, if_pos rfl, if_pos ⟨by omega, h0⟩, hf]
      exact Nat.two_pos
    intro ind u hu
    have hind : (u.icache i).copy.addrs NDIRECT ≠ 0 := hu.addr ▸ hu.ne
    have hsame : ∀ l, (u.icache i).copy.blockAt u.disk l = (s.icache i).copy.blockAt s.disk l :=
      fun l => hu.block l (.inr rfl)
    have hmiss : (s.icache i).copy.missing s.disk bn =
        (u.icache i).copy.missing u.disk bn +
          if (s.icache i).copy.addrs NDIRECT = 0 then 1 else 0 := by
      have hno : ¬(NDIRECT ≤ bn ∧ (u.icache i).copy.addrs NDIRECT = 0) := fun hc => hind hc.2
      have hand : (NDIRECT ≤ bn ∧ (s.icache i).copy.addrs NDIRECT = 0) ↔
          (s.icache i).copy.addrs NDIRECT = 0 := and_iff_right (by omega)
      simp only [Dinode.missing, hsame, if_neg hno, hand, Nat.add_zero]
    rw [← hu.addr]
    refine wp_post (loadEntry_spec hu.isOpen (by omega) hj hind ?_) ?_
    · intro h0 hf
      refine hE ?_
      rw [hmiss, ← hu.free, hf, Dinode.missing, if_pos h0]
      omega
    intro a t ht
    refine ⟨ht.isOpen, hu.grows.trans ht.grows, ht.addr, ht.ne, ?_, ?_, ?_, ?_⟩
    · intro hne
      have hne' : (s.icache i).copy.addrs NDIRECT ≠ 0 := by
        intro h0
        exact hne (blockAt_missing (by omega) h0)
      rw [ht.hit (by rw [hsame]; exact hne), hu.hit hne']
    · intro l hl
      rw [ht.rest l hl, hsame]
    · rw [ht.ind]
      exact ⟨fun hc => absurd hc.2 hind, fun hc => absurd hc.1 hk⟩
    · rw [hmiss, ← hu.free, ← ht.free]
      omega

end Xv6.Fs
