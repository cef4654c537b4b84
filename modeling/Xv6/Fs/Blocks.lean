import Xv6.Fs.Inode
import Xv6.Lib.Entries

/-!
# Which blocks are in use

The free map against the block numbers found in inodes and indirect blocks.
`Exact` says, as one equation for every block, that the map marks a block as
often as it is referred to: so no block is referred to twice, no block in use
is free and no free block is marked.  Between allocating a block and recording
its number somewhere, the block is among the `extra` ones.
-/

namespace Xv6.Fs

open Xv6.Lib Function List

variable {N : ℕ} {sb : Superblock} {disk disk' : ℕ → Block} {s t : State N} {b : ℕ}
  {E : Panic → Prop}

/-! ## References -/

/-- The block numbers in an indirect block. -/
def indirect (disk : ℕ → Block) (ind j : ℕ) : ℕ := ((disk ind).word j).toNat

/-- The blocks an inode refers to: by its direct addresses, and by its indirect
block, which is one of them. -/
def Dinode.refs (disk : ℕ → Block) (d : Dinode) : List ℕ :=
  entries NDIRECT d.addrs ++
    if d.addrs NDIRECT = 0 then []
    else d.addrs NDIRECT :: entries NINDIRECT (indirect disk (d.addrs NDIRECT))

/-- The blocks of an inode, none if it is free. -/
def Dinode.owned (disk : ℕ → Block) (d : Dinode) : List ℕ :=
  if d.type = 0 then [] else d.refs disk

/-- The blocks of all inodes. -/
def owned (sb : Superblock) (disk : ℕ → Block) (tbl : ℕ → Dinode) : List ℕ :=
  (List.range sb.ninodes).flatMap fun n => (tbl n).owned disk

/-- The free map marks block `b`. -/
def Superblock.used (sb : Superblock) (disk : ℕ → Block) (b : ℕ) : Bool :=
  (disk (sb.BBLOCK b)).bit (b % BPB)

/-- **Block ownership is exact.**  The free map marks the blocks before the
data blocks, the `extra` ones and those of the inodes, each of which is one of
these once. -/
structure Exact (sb : Superblock) (disk : ℕ → Block) (tbl : ℕ → Dinode) (extra : List ℕ) :
    Prop where
  marked : ∀ b, b < sb.size → (if sb.used disk b = true then 1 else 0) =
    (if b < sb.nmeta then 1 else 0) + (extra ++ owned sb disk tbl).count b
  inside : ∀ b, b ∈ extra ++ owned sb disk tbl → b < sb.size

instance (disk : ℕ → Block) (tbl : ℕ → Dinode) (extra : List ℕ) :
    Decidable (Exact sb disk tbl extra) :=
  decidable_of_iff (_ ∧ _) ⟨fun h => ⟨h.1, h.2⟩, fun h => ⟨h.marked, h.inside⟩⟩

section Exact

variable {tbl tbl' : ℕ → Dinode} {extra extra' : List ℕ}

theorem Exact.count_le (h : Exact sb disk tbl extra) (b : ℕ) :
    (extra ++ owned sb disk tbl).count b ≤ 1 := by
  by_cases hb : b < sb.size
  · have := h.marked b hb
    split at this <;> omega
  · have hnot : b ∉ extra ++ owned sb disk tbl := fun hm => hb (h.inside b hm)
    rw [count_eq_zero_of_not_mem hnot]
    omega

theorem Exact.nodup (h : Exact sb disk tbl extra) : (extra ++ owned sb disk tbl).Nodup :=
  nodup_iff_count_le_one.2 h.count_le

theorem Exact.used_of_mem (h : Exact sb disk tbl extra) (hb : b ∈ extra ++ owned sb disk tbl) :
    sb.used disk b = true ∧ sb.nmeta ≤ b := by
  have hm := h.marked b (h.inside b hb)
  have hpos := count_pos_iff.2 hb
  constructor
  · by_contra hu
    rw [if_neg hu] at hm
    omega
  · by_contra hlt
    rw [if_pos (by omega : b < sb.nmeta)] at hm
    split at hm <;> omega

theorem Exact.used_of_lt (h : Exact sb disk tbl extra) (hb : b < sb.nmeta) :
    sb.used disk b = true := by
  have hm := h.marked b (hb.trans_le (Nat.sub_le _ _))
  rw [if_pos hb] at hm
  by_contra hu
  rw [if_neg hu] at hm
  omega

theorem Exact.used_iff (h : Exact sb disk tbl extra) (hb : b < sb.size) :
    sb.used disk b = true ↔ b < sb.nmeta ∨ b ∈ extra ++ owned sb disk tbl := by
  refine ⟨fun hu => ?_, ?_⟩
  · by_contra hnot
    rw [not_or] at hnot
    have hm := h.marked b hb
    rw [if_pos hu, if_neg hnot.1, count_eq_zero_of_not_mem hnot.2] at hm
    omega
  · rintro (hlt | hm)
    · exact h.used_of_lt hlt
    · exact (h.used_of_mem hm).1

theorem Exact.perm (h : Exact sb disk tbl extra)
    (hused : ∀ b, b < sb.size → sb.used disk' b = sb.used disk b)
    (hp : (extra' ++ owned sb disk' tbl').Perm (extra ++ owned sb disk tbl)) :
    Exact sb disk' tbl' extra' where
  marked b hb := by
    rw [hused b hb, hp.count_eq]
    exact h.marked b hb
  inside b hb := h.inside b (hp.mem_iff.1 hb)

theorem Exact.update (h : Exact sb disk tbl extra) {n : ℕ} (hn : n < sb.ninodes)
    (hused : ∀ b, b < sb.size → sb.used disk' b = sb.used disk b)
    (hsame : ∀ m, m < sb.ninodes → m ≠ n → (tbl' m).owned disk' = (tbl m).owned disk)
    (hp : (extra' ++ (tbl' n).owned disk').Perm (extra ++ (tbl n).owned disk)) :
    Exact sb disk' tbl' extra' :=
  h.perm hused (flatMap_update hn hsame hp)

theorem mem_owned {n : ℕ} (hn : n < sb.ninodes) (hb : b ∈ (tbl n).owned disk) :
    b ∈ owned sb disk tbl :=
  mem_flatMap.2 ⟨n, mem_range.2 hn, hb⟩

theorem indirect_mem_owned (disk : ℕ → Block) {d : Dinode} (ht : d.type ≠ 0)
    (ha : d.addrs NDIRECT ≠ 0) : d.addrs NDIRECT ∈ d.owned disk := by
  rw [Dinode.owned, if_neg ht, Dinode.refs, if_neg ha]
  exact mem_append_right _ mem_cons_self

theorem Dinode.owned_congr {d : Dinode}
    (h : d.type ≠ 0 → d.addrs NDIRECT ≠ 0 → disk' (d.addrs NDIRECT) = disk (d.addrs NDIRECT)) :
    d.owned disk' = d.owned disk := by
  rw [Dinode.owned, Dinode.owned]
  split
  · rfl
  · rename_i ht
    rw [Dinode.refs, Dinode.refs]
    split
    · rfl
    · rename_i ha
      have hsame : ∀ j, indirect disk' (d.addrs NDIRECT) j = indirect disk (d.addrs NDIRECT) j :=
        fun j => by rw [indirect, h ht ha, indirect]
      rw [entries_congr fun j _ => hsame j]

theorem Exact.owned_congr (h : Exact sb disk tbl extra)
    (hsame : ∀ n, n < sb.ninodes → (tbl n).type ≠ 0 → (tbl n).addrs NDIRECT ≠ 0 →
      sb.nmeta ≤ (tbl n).addrs NDIRECT →
      disk' ((tbl n).addrs NDIRECT) = disk ((tbl n).addrs NDIRECT)) :
    owned sb disk' tbl = owned sb disk tbl := by
  refine flatMap_congr fun n hn => Dinode.owned_congr fun ht ha => ?_
  have hn' := mem_range.1 hn
  refine hsame n hn' ht ha (h.used_of_mem ?_).2
  exact mem_append_right _ (mem_owned hn' (indirect_mem_owned disk ht ha))

end Exact

/-! ## The allocator -/

/-- Block `b` has been allocated. -/
structure Allocated (sb : Superblock) (disk : ℕ → Block) (b : ℕ) (disk' : ℕ → Block) : Prop where
  lt : b < sb.size
  free : sb.used disk b = false
  used : sb.used disk' b = true
  others : ∀ c, c < sb.size → c ≠ b → sb.used disk' c = sb.used disk c
  zero : disk' b = .zeroes
  same : ∀ c, sb.nmeta ≤ c → c ≠ b → disk' c = disk c

/-- Block `b` has been freed. -/
structure Freed (sb : Superblock) (disk : ℕ → Block) (b : ℕ) (disk' : ℕ → Block) : Prop where
  free : sb.used disk' b = false
  others : ∀ c, c < sb.size → c ≠ b → sb.used disk' c = sb.used disk c
  same : ∀ c, sb.nmeta ≤ c → disk' c = disk c

theorem BBLOCK_lt (hb : b < sb.size) : sb.BBLOCK b < sb.nmeta := sb.bmap_lt b hb

theorem mod_ne_of_BBLOCK_eq {c : ℕ} (hne : c ≠ b) (h : sb.BBLOCK c = sb.BBLOCK b) :
    c % BPB ≠ b % BPB := by
  intro hmod
  have hdiv : c / BPB = b / BPB := by
    simp only [Superblock.BBLOCK] at h
    omega
  refine hne ?_
  rw [← Nat.div_add_mod c BPB, ← Nat.div_add_mod b BPB, hdiv, hmod]

variable {x : Block} {b₀ bi : ℕ}

theorem used_update_bit {v : Bool} (hx : x.bit (b % BPB) = v)
    (hothers : ∀ k, k < BPB → k ≠ b % BPB → x.bit k = (disk (sb.BBLOCK b)).bit k) (c : ℕ) :
    sb.used (update disk (sb.BBLOCK b) x) c = if c = b then v else sb.used disk c := by
  rw [Superblock.used]
  by_cases hB : sb.BBLOCK c = sb.BBLOCK b
  · rw [hB, update_self]
    by_cases hcb : c = b
    · rw [if_pos hcb, hcb, hx]
    · rw [if_neg hcb, hothers _ (Nat.mod_lt _ BPB_pos) (mod_ne_of_BBLOCK_eq hcb hB),
        Superblock.used, hB]
  · rw [update_of_ne hB, if_neg fun hcb => hB (by rw [hcb]), Superblock.used]

theorem findFree_some (h : findFree sb x b₀ = some bi) :
    bi < BPB ∧ b₀ + bi < sb.size ∧ x.bit bi = false := by
  have hmem := mem_of_find?_eq_some h
  have hp := find?_some h
  exact ⟨mem_range.1 hmem, by simpa using hp⟩

theorem BBLOCK_add (sb : Superblock) (h₀ : b₀ % BPB = 0) (hbi : bi < BPB) :
    sb.BBLOCK (b₀ + bi) = sb.BBLOCK b₀ ∧ (b₀ + bi) % BPB = bi := by
  obtain ⟨q, rfl⟩ := Nat.dvd_of_mod_eq_zero h₀
  refine ⟨?_, by rw [Nat.mul_add_mod, Nat.mod_eq_of_lt hbi]⟩
  rw [Superblock.BBLOCK, Nat.mul_add_div BPB_pos, Nat.div_eq_of_lt hbi, Superblock.BBLOCK,
    Nat.mul_div_cancel_left _ BPB_pos, Nat.add_zero]

theorem findFree_data (hmeta : ∀ c, c < sb.nmeta → sb.used disk c = true) (h₀ : b₀ % BPB = 0)
    (h : findFree sb (disk (sb.BBLOCK b₀)) b₀ = some bi) :
    bi < BPB ∧ b₀ + bi < sb.size ∧ sb.used disk (b₀ + bi) = false ∧ sb.nmeta ≤ b₀ + bi := by
  obtain ⟨hbi, hlt, hbit⟩ := findFree_some h
  obtain ⟨hblock, hmod⟩ := BBLOCK_add sb h₀ hbi
  have hfree : sb.used disk (b₀ + bi) = false := by
    rw [Superblock.used, hblock, hmod]
    exact hbit
  refine ⟨hbi, hlt, hfree, ?_⟩
  by_contra hlt'
  rw [hmeta _ (by omega)] at hfree
  cases hfree

theorem findFree_none (h : findFree sb x b₀ = none) (hbi : bi < BPB) (hlt : b₀ + bi < sb.size) :
    x.bit bi = true := by
  have := find?_eq_none.1 h bi (mem_range.2 hbi)
  simpa [hlt] using this

theorem used_update_data (hb : sb.nmeta ≤ b) {c : ℕ} (hc : c < sb.size) :
    sb.used (update disk b x) c = sb.used disk c := by
  have hne : sb.BBLOCK c ≠ b := by
    have := BBLOCK_lt hc
    omega
  rw [Superblock.used, update_of_ne hne, Superblock.used]

theorem allocated_of_free (hb : b < sb.size) (hdata : sb.nmeta ≤ b)
    (hfree : sb.used disk b = false) :
    Allocated sb disk b (update
      (update disk (sb.BBLOCK b) ((disk (sb.BBLOCK b)).setBit (b % BPB))) b .zeroes) := by
  have hB := BBLOCK_lt hb
  have hmod : b % BPB < BPB := Nat.mod_lt _ BPB_pos
  have hused : ∀ c, c < sb.size → sb.used (update (update disk (sb.BBLOCK b)
      ((disk (sb.BBLOCK b)).setBit (b % BPB))) b .zeroes) c
      = if c = b then true else sb.used disk c := fun c hc => by
    rw [used_update_data hdata hc, used_update_bit (Block.bit_setBit_self _ _)
      fun k hk hne => Block.bit_setBit_of_ne _ hmod hk hne]
  refine ⟨hb, hfree, ?_, ?_, update_self .., ?_⟩
  · rw [hused b hb, if_pos rfl]
  · intro c hc hne
    rw [hused c hc, if_neg hne]
  · intro c hc hne
    rw [update_of_ne hne, update_of_ne (by omega)]

theorem ballocFrom_spec (hmeta : ∀ c, c < sb.nmeta → sb.used s.disk c = true) (bs : List ℕ)
    (hbs : ∀ b₀ ∈ bs, b₀ % BPB = 0)
    (hE : (∀ b₀ ∈ bs, ∀ bi, bi < BPB → b₀ + bi < sb.size → sb.used s.disk (b₀ + bi) = true) →
      E .outOfBlocks) :
    wp (ballocFrom sb bs) (fun b t => ∃ disk', t = { s with disk := disk' } ∧
      Allocated sb s.disk b disk') E s := by
  induction bs with
  | nil =>
    rw [ballocFrom, wp_throw]
    exact hE fun _ h => absurd h not_mem_nil
  | cons b₀ bs ih =>
    have h₀ : b₀ % BPB = 0 := hbs b₀ mem_cons_self
    rw [ballocFrom, wp_bind, wp_get]
    cases hf : findFree sb (s.disk (sb.BBLOCK b₀)) b₀ with
    | some bi =>
      obtain ⟨hbi, hlt, hfree, hdata⟩ := findFree_data hmeta h₀ hf
      obtain ⟨hblock, hmod⟩ := BBLOCK_add sb h₀ hbi
      have ha := allocated_of_free hlt hdata hfree
      rw [hblock, hmod] at ha
      exact ⟨_, rfl, ha⟩
    | none =>
      refine ih (fun b₁ h₁ => hbs b₁ (mem_cons_of_mem _ h₁)) ?_
      intro hall
      refine hE ?_
      intro b₁ h₁ bi hbi hlt
      rcases mem_cons.1 h₁ with rfl | h₁
      · obtain ⟨hblock, hmod⟩ := BBLOCK_add sb h₀ hbi
        rw [Superblock.used, hblock, hmod]
        exact findFree_none hf hbi hlt
      · exact hall b₁ h₁ bi hbi hlt

theorem balloc_spec (hmeta : ∀ c, c < sb.nmeta → sb.used s.disk c = true)
    (hE : (∀ b, b < sb.size → sb.used s.disk b = true) → E .outOfBlocks) :
    wp (balloc sb) (fun b t => ∃ disk', t = { s with disk := disk' } ∧
      Allocated sb s.disk b disk') E s := by
  refine ballocFrom_spec hmeta _ ?_ ?_
  · intro b₀ h₀
    obtain ⟨k, -, rfl⟩ := mem_map.1 h₀
    exact Nat.mul_mod_left _ _
  · intro hall
    refine hE ?_
    intro b hb
    have hmem : b / BPB * BPB ∈ (List.range ((sb.size + BPB - 1) / BPB)).map (· * BPB) := by
      refine mem_map.2 ⟨b / BPB, mem_range.2 ?_, rfl⟩
      have hpos := BPB_pos
      rw [Nat.lt_iff_add_one_le, Nat.le_div_iff_mul_le hpos, Nat.add_mul, Nat.one_mul]
      have := Nat.div_mul_le_self b BPB
      omega
    have := hall _ hmem (b % BPB) (Nat.mod_lt _ BPB_pos)
    rw [Nat.div_add_mod'] at this
    exact this hb

theorem bfree_spec (hb : b < sb.size) (hused : sb.used s.disk b = true) :
    wp (bfree sb b) (fun _ t => ∃ disk', t = { s with disk := disk' } ∧ Freed sb s.disk b disk')
      E s := by
  have hB := BBLOCK_lt hb
  have hmod : b % BPB < BPB := Nat.mod_lt _ BPB_pos
  have hbit : (s.disk (sb.BBLOCK b)).bit (b % BPB) = true := hused
  rw [bfree, wp_bind, wp_get]
  dsimp only
  rw [if_neg (by simp [hbit])]
  have hu : ∀ c, sb.used (update s.disk (sb.BBLOCK b)
      ((s.disk (sb.BBLOCK b)).clearBit (b % BPB))) c = if c = b then false else sb.used s.disk c :=
    used_update_bit (Block.bit_clearBit_self _ _)
      fun k hk hne => Block.bit_clearBit_of_ne _ hmod hk hne
  refine ⟨_, rfl, ?_, ?_, ?_⟩
  · rw [hu, if_pos rfl]
  · intro c _ hne
    rw [hu, if_neg hne]
  · intro c hc
    rw [update_of_ne (by omega)]

/-! ## Ownership through the allocator -/

section

variable {tbl : ℕ → Dinode} {extra : List ℕ}

theorem Exact.not_mem_of_free (h : Exact sb disk tbl extra) (hfree : sb.used disk b = false) :
    b ∉ extra ++ owned sb disk tbl := by
  intro hm
  rw [(h.used_of_mem hm).1] at hfree
  cases hfree

theorem Exact.alloc (h : Exact sb disk tbl extra) (ha : Allocated sb disk b disk') :
    Exact sb disk' tbl (b :: extra) := by
  have hnot := h.not_mem_of_free ha.free
  have hown : owned sb disk' tbl = owned sb disk tbl := by
    refine h.owned_congr fun n hn ht hne hc => ha.same _ hc ?_
    intro heq
    refine hnot (mem_append_right _ (mem_owned hn ?_))
    rw [← heq]
    exact indirect_mem_owned disk ht hne
  refine ⟨?_, ?_⟩
  · intro c hc
    rw [hown, cons_append, count_cons]
    by_cases hcb : c = b
    · subst hcb
      have hm := h.marked c hc
      rw [ha.free] at hm
      rw [ha.used, if_pos rfl]
      simp only [Bool.false_eq_true, if_false] at hm
      simp only [beq_self_eq_true, if_true]
      omega
    · rw [ha.others c hc hcb, h.marked c hc]
      simp [Ne.symm hcb]
  · intro c hc
    rw [hown, cons_append, mem_cons] at hc
    rcases hc with rfl | hc
    · exact ha.lt
    · exact h.inside c hc

theorem Exact.free (h : Exact sb disk tbl (b :: extra)) (hf : Freed sb disk b disk') :
    Exact sb disk' tbl extra := by
  have hown : owned sb disk' tbl = owned sb disk tbl :=
    h.owned_congr fun _ _ _ _ hc => hf.same _ hc
  refine ⟨?_, ?_⟩
  · intro c hc
    have hm := h.marked c hc
    rw [cons_append, count_cons] at hm
    rw [hown]
    by_cases hcb : c = b
    · subst hcb
      rw [hf.free]
      simp only [beq_self_eq_true, if_true] at hm
      simp only [Bool.false_eq_true, if_false]
      split at hm <;> omega
    · rw [hf.others c hc hcb, hm]
      simp [Ne.symm hcb]
  · intro c hc
    rw [hown] at hc
    exact h.inside c (mem_cons_of_mem _ hc)

end

end Xv6.Fs
