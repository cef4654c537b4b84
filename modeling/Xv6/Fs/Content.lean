import Xv6.Fs.Bmap

/-!
# Files are byte sequences

`readi` and `writei` work block by block; what they amount to is reading and
overwriting a stretch of the bytes of the file (`Dinode.content`).

* One round of the loop of `writei` writes within one block (`Mapped.wrote`),
  and rounds compose (`Wrote.trans`).
* The blocks a write has to allocate are counted beforehand
  (`Dinode.neededFor`), so that with as many free blocks the loop gets to its
  end (`writeLoop_spec`).
* When the file grows, the inode is written to the disk; when it does not, no
  block was allocated and the inode on the disk is still right
  (`Wrote.beyond`, `Wrote.within`).
-/

namespace Xv6.Fs

open Xv6.Lib Function List

variable {N : ℕ} {sb : Superblock} {disk disk' : ℕ → Block} {s t u : State N} {i : Fin N}
  {tbl tbl' : ℕ → Dinode} {d : Dinode} {b k n m off : ℕ} {src : List UInt8} {E : Panic → Prop}

/-- Byte `p` of a file. -/
def Dinode.byteAt (disk : ℕ → Block) (d : Dinode) (p : ℕ) : UInt8 :=
  disk (d.blockAt disk (p / BSIZE)) (Fin.ofNat BSIZE (p % BSIZE))

theorem BSIZE_pos : 0 < BSIZE := by decide

/-! ## How many blocks a write needs -/

/-- The blocks missing from block `k₀` to before block `k₁` of a file, the
indirect block among them. -/
def Dinode.needed (disk : ℕ → Block) (d : Dinode) (k₀ k₁ : ℕ) : ℕ :=
  ((Finset.Ico k₀ k₁).filter fun k => d.blockAt disk k = 0).card +
    if k₀ < k₁ ∧ NDIRECT < k₁ ∧ d.addrs NDIRECT = 0 then 1 else 0

/-- The blocks missing for `len` bytes from `off` on. -/
def Dinode.neededFor (disk : ℕ → Block) (d : Dinode) (off len : ℕ) : ℕ :=
  if len = 0 then 0 else d.needed disk (off / BSIZE) ((off + len - 1) / BSIZE + 1)

variable {k₁ a bn : ℕ} {dev : Devsw}

theorem needed_succ (hk : k < k₁) : d.needed disk k k₁ =
    ((Finset.Ico (k + 1) k₁).filter fun l => d.blockAt disk l = 0).card +
      (if d.blockAt disk k = 0 then 1 else 0) +
      if NDIRECT < k₁ ∧ d.addrs NDIRECT = 0 then 1 else 0 := by
  rw [Dinode.needed, ← Finset.insert_Ico_add_one_left_eq_Ico hk, Finset.filter_insert]
  congr 1
  · split
    · rw [Finset.card_insert_of_notMem (by simp)]
    · rw [Nat.add_zero]
  · simp only [hk, true_and]

theorem missing_le_needed (hk : k < k₁) : d.missing disk k ≤ d.needed disk k k₁ := by
  rw [needed_succ hk, Dinode.missing]
  split_ifs <;> omega

theorem needed_congr (h : ∀ l, d.blockAt disk' l = d.blockAt disk l) :
    d.needed disk' k k₁ = d.needed disk k k₁ := by
  simp only [Dinode.needed, h]

theorem Mapped.needed (h : Mapped sb s i k a t) (k₁ : ℕ) (hk : k + 1 < k₁) :
    (t.icache i).copy.needed t.disk (k + 1) k₁ + (s.icache i).copy.missing s.disk k =
      (s.icache i).copy.needed s.disk k k₁ := by
  have hrest : ((Finset.Ico (k + 1) k₁).filter fun l => (t.icache i).copy.blockAt t.disk l = 0)
      = (Finset.Ico (k + 1) k₁).filter fun l => (s.icache i).copy.blockAt s.disk l = 0 := by
    refine Finset.filter_congr fun l hl => ?_
    rw [h.rest l (by have := (Finset.mem_Ico.1 hl).1; omega)]
  have hind : (if k + 1 < k₁ ∧ NDIRECT < k₁ ∧ (t.icache i).copy.addrs NDIRECT = 0 then 1 else 0)
      + (if NDIRECT ≤ k ∧ (s.icache i).copy.addrs NDIRECT = 0 then 1 else 0)
      = if NDIRECT < k₁ ∧ (s.icache i).copy.addrs NDIRECT = 0 then 1 else 0 := by
    simp only [h.ind]
    split_ifs <;> omega
  rw [Dinode.needed, needed_succ (by omega), Dinode.missing, hrest, ← hind]
  omega

theorem neededFor_congr {len : ℕ} (h : ∀ l, d.blockAt disk' l = d.blockAt disk l) :
    d.neededFor disk' off len = d.neededFor disk off len := by
  rw [Dinode.neededFor, Dinode.neededFor, needed_congr h]

theorem Mapped.neededFor {len : ℕ} (h : Mapped sb s i (off / BSIZE) a t) (hlen : len ≠ 0)
    (hm : min len (BSIZE - off % BSIZE) = m) :
    (t.icache i).copy.neededFor t.disk (off + m) (len - m) +
      (s.icache i).copy.missing s.disk (off / BSIZE) ≤
        (s.icache i).copy.neededFor s.disk off len := by
  have hmod : off % BSIZE < BSIZE := Nat.mod_lt _ BSIZE_pos
  have hneed : (s.icache i).copy.neededFor s.disk off len =
      (s.icache i).copy.needed s.disk (off / BSIZE) ((off + len - 1) / BSIZE + 1) := if_neg hlen
  rw [hneed, Dinode.neededFor]
  split
  · rw [Nat.zero_add]
    exact missing_le_needed (Nat.lt_succ_of_le (Nat.div_le_div_right (by omega)))
  · rename_i hrest
    -- there is more to write, so this block is written to its end
    have hfull : off + m = (off / BSIZE + 1) * BSIZE := by
      have := Nat.div_add_mod off BSIZE
      rw [Nat.add_mul, Nat.one_mul, Nat.mul_comm]
      omega
    have hdiv : (off + m) / BSIZE = off / BSIZE + 1 := by
      rw [hfull, Nat.mul_div_cancel _ BSIZE_pos]
    have hend : off + m + (len - m) - 1 = off + len - 1 := by omega
    have hlast : off / BSIZE + 1 ≤ (off + len - 1) / BSIZE := by
      rw [← hdiv]
      exact Nat.div_le_div_right (by omega)
    rw [hdiv, hend]
    exact (h.needed ((off + len - 1) / BSIZE + 1) (by omega)).le

/-! ## Storing into a block of a file -/

theorem putBytes_apply {x : Block} {o q : ℕ} (hq : q < BSIZE) :
    putBytes x o src (Fin.ofNat BSIZE q) =
      if o ≤ q ∧ q < o + src.length then src.getD (q - o) 0 else x (Fin.ofNat BSIZE q) := by
  have hval : (Fin.ofNat BSIZE q).val = q := Nat.mod_eq_of_lt hq
  rw [putBytes, hval]

theorem Open.blockAt_store (h : Open sb s i []) (hne : (s.icache i).copy.blockAt s.disk bn ≠ 0)
    (x : Block) (hn : n < sb.ninodes) (ht : (view s i n).type ≠ 0) (k : ℕ) : (view s i n).blockAt
      (update s.disk ((s.icache i).copy.blockAt s.disk bn) x) k =
        (view s i n).blockAt s.disk k := by
  refine blockAt_congr fun _ => update_of_ne (Ne.symm ?_) ..
  have := h.exact.blockAt_ne_indirect (n := (s.icache i).inum) (k := bn) h.inum
    (by rw [view_self]; exact h.type) (by rw [view_self]; exact hne) hn ht
  rwa [view_self] at this

theorem Open.data_of_blockAt (h : Open sb s i []) (hne : (s.icache i).copy.blockAt s.disk bn ≠ 0) :
    sb.nmeta ≤ (s.icache i).copy.blockAt s.disk bn := by
  have := h.exact.mem_of_blockAt (n := (s.icache i).inum) (k := bn) h.inum
    (by rw [view_self]; exact h.type) (by rw [view_self]; exact hne)
  rw [view_self] at this
  exact this.1

theorem Open.store (h : Open sb s i []) (hne : (s.icache i).copy.blockAt s.disk bn ≠ 0) (x : Block) :
    Open sb { s with disk := update s.disk ((s.icache i).copy.blockAt s.disk bn) x }
      i [] := by
  refine ⟨⟨h.ref, h.valid, h.inum, h.type, h.agree, h.unique⟩, ?_, ?_⟩
  · refine h.exact.perm (fun c hc => used_update_data (h.data_of_blockAt hne) hc) ?_
    refine .of_eq (congrArg _ (h.exact.owned_congr fun n hn ht ha _ => ?_))
    refine update_of_ne (Ne.symm ?_) ..
    have := h.exact.blockAt_ne_indirect (n := (s.icache i).inum) (k := bn) h.inum
      (by rw [view_self]; exact h.type) (by rw [view_self]; exact hne) hn ht
    rwa [view_self] at this
  · intro n hn ht k hk
    have hb := h.blockAt_store hne x hn ht k
    exact fun h0 => h.full n hn ht k hk (hb.symm.trans h0)

/-- **What writing `src` at `off` leaves behind.** -/
structure Wrote (sb : Superblock) (s : State N) (i : Fin N) (off : ℕ) (src : List UInt8)
    (t : State N) : Prop where
  isOpen : Open sb t i []
  copy : ∃ f, t.icache i = { s.icache i with copy := { (s.icache i).copy with addrs := f } }
  others : ∀ j, j ≠ i → t.icache j = s.icache j
  dinode : t.dinode = s.dinode
  /-- Nothing is allocated when all the blocks are there. -/
  same : (∀ p, off ≤ p → p < off + src.length →
    (s.icache i).copy.blockAt s.disk (p / BSIZE) ≠ 0) → t.icache i = s.icache i
  /-- Files keep the blocks they have. -/
  block : ∀ n, n < sb.ninodes → (view s i n).type ≠ 0 → ∀ k, (view s i n).blockAt s.disk k ≠ 0 →
    (view t i n).blockAt t.disk k = (view s i n).blockAt s.disk k
  /-- No byte changes that is not written. -/
  byte : ∀ n, n < sb.ninodes → (view s i n).type ≠ 0 → ∀ p,
    (view s i n).blockAt s.disk (p / BSIZE) ≠ 0 →
    ¬(n = (s.icache i).inum ∧ off ≤ p ∧ p < off + src.length) →
    (view t i n).byteAt t.disk p = (view s i n).byteAt s.disk p
  /-- Every byte of `src` is written. -/
  written : ∀ p, off ≤ p → p < off + src.length →
    (t.icache i).copy.blockAt t.disk (p / BSIZE) ≠ 0 ∧
      (t.icache i).copy.byteAt t.disk p = src.getD (p - off) 0

theorem Wrote.inum (h : Wrote sb s i off src t) : (t.icache i).inum = (s.icache i).inum := by
  obtain ⟨f, hf⟩ := h.copy
  rw [hf]

theorem Wrote.type (h : Wrote sb s i off src t) (n : ℕ) :
    (view t i n).type = (view s i n).type := by
  obtain ⟨f, hf⟩ := h.copy
  by_cases hn : n = (s.icache i).inum
  · rw [hn, view_self, ← h.inum, view_self, hf]
  · rw [view_of_ne hn, view_of_ne (by rwa [h.inum]), h.dinode]

theorem Wrote.inum_lt (h : Wrote sb s i off src t) : (s.icache i).inum < sb.ninodes :=
  h.inum ▸ h.isOpen.inum

theorem Wrote.type_ne (h : Wrote sb s i off src t) : (s.icache i).copy.type ≠ 0 := by
  have ht := h.type (s.icache i).inum
  rw [view_self, ← h.inum, view_self] at ht
  exact ht ▸ h.isOpen.type

theorem Wrote.trans {src₁ src₂ : List UInt8} (h : Wrote sb s i off src₁ u)
    (h' : Wrote sb u i (off + src₁.length) src₂ t) : Wrote sb s i off (src₁ ++ src₂) t := by
  have hblock : ∀ n, n < sb.ninodes → (view s i n).type ≠ 0 → ∀ k,
      (view s i n).blockAt s.disk k ≠ 0 →
      (view t i n).blockAt t.disk k = (view s i n).blockAt s.disk k := by
    intro n hn ht k hne
    have hb := h.block n hn ht k hne
    rw [h'.block n hn (h.type n ▸ ht) k (hb ▸ hne), hb]
  have hself : view u i (u.icache i).inum = (u.icache i).copy := view_self u i
  refine ⟨h'.isOpen, ?_, fun j hj => (h'.others j hj).trans (h.others j hj),
    h'.dinode.trans h.dinode, ?_, hblock, ?_, ?_⟩
  · obtain ⟨f, hf⟩ := h.copy
    obtain ⟨g, hg⟩ := h'.copy
    exact ⟨g, by rw [hg, hf]⟩
  · intro hall
    rw [length_append] at hall
    have hu := h.same fun p hp hlt => hall p hp (by omega)
    rw [← hu]
    refine h'.same fun p hp hlt => ?_
    have hne := hall p (by omega) (by omega)
    have hb := h.block (s.icache i).inum h.inum_lt (by rw [view_self]; exact h.type_ne) _
      (by rw [view_self]; exact hne)
    rw [← h.inum, hself] at hb
    rw [hb, h.inum, view_self]
    exact hne
  · intro n hn ht p hne hout
    rw [length_append] at hout
    have hb := h.block n hn ht _ hne
    rw [h'.byte n hn (h.type n ▸ ht) p (hb ▸ hne) (by rw [h.inum]; omega)]
    exact h.byte n hn ht p hne (by omega)
  · intro p hp hlt
    rw [length_append] at hlt
    by_cases hp₁ : p < off + src₁.length
    · obtain ⟨hne, hbyte⟩ := h.written p hp hp₁
      have hself' : view t i (u.icache i).inum = (t.icache i).copy := by
        rw [← h'.inum]
        exact view_self t i
      have hb := h'.block _ h.isOpen.inum (by rw [hself]; exact h.isOpen.type) (p / BSIZE)
        (by rw [hself]; exact hne)
      have hy := h'.byte _ h.isOpen.inum (by rw [hself]; exact h.isOpen.type) p
        (by rw [hself]; exact hne) (by omega)
      rw [hself, hself'] at hb hy
      rw [hb, hy, hbyte, getD_append _ _ _ _ (by omega)]
      exact ⟨hne, rfl⟩
    · obtain ⟨hne, hbyte⟩ := h'.written p (by omega) (by omega)
      refine ⟨hne, ?_⟩
      rw [hbyte, getD_append_right _ _ _ _ (by omega)]
      congr 1
      omega

/-! ## The loop of `writei` -/

theorem div_of_chunk (off q : ℕ) (hq : off % BSIZE + q < BSIZE) :
    (off + q) / BSIZE = off / BSIZE ∧ (off + q) % BSIZE = off % BSIZE + q := by
  have hdm := Nat.div_add_mod off BSIZE
  have heq : off + q = BSIZE * (off / BSIZE) + (off % BSIZE + q) := by omega
  refine ⟨?_, ?_⟩
  · rw [heq, Nat.mul_add_div BSIZE_pos, Nat.div_eq_of_lt hq, Nat.add_zero]
  · rw [heq, Nat.mul_add_mod, Nat.mod_eq_of_lt hq]

theorem Mapped.wrote (hm : Mapped sb s i (off / BSIZE) a u) (src : List UInt8)
    (hpos : 0 < src.length) (hlen : off % BSIZE + src.length ≤ BSIZE) :
    Wrote sb s i off src { u with
      disk := update u.disk a (putBytes (u.disk a) (off % BSIZE) src) } := by
  obtain ⟨f, hf⟩ := hm.grows.copy
  have hinum : (u.icache i).inum = (s.icache i).inum := by rw [hf]
  have hne : (u.icache i).copy.blockAt u.disk (off / BSIZE) ≠ 0 := hm.addr ▸ hm.ne
  obtain rfl := hm.addr
  have hO := hm.isOpen
  have hview : ∀ n, (view u i n).type = (view s i n).type := hm.grows.keeps.type
  have hself : view u i (u.icache i).inum = (u.icache i).copy := view_self u i
  refine ⟨hO.store hne _, ⟨f, hf⟩, hm.grows.others, hm.grows.dinode, ?_, ?_, ?_, ?_⟩
  · intro hall
    rw [hm.hit (hall off le_rfl (by omega))]
  · intro n hn ht k hk
    refine (hO.blockAt_store hne _ hn (hview n ▸ ht) k).trans ?_
    exact hm.grows.keeps.block n hn ht k hk
  · intro n hn ht p hp hout
    have htu : (view u i n).type ≠ 0 := hview n ▸ ht
    have hb := hm.grows.keeps.block n hn ht _ hp
    have hd := hm.grows.keeps.data n hn ht _ hp
    have hs := hO.blockAt_store hne (putBytes (u.disk ((u.icache i).copy.blockAt u.disk
      (off / BSIZE))) (off % BSIZE) src) hn htu (p / BSIZE)
    rw [Dinode.byteAt, Dinode.byteAt]
    change update u.disk _ _ ((view u i n).blockAt _ _) _ = _
    rw [hs]
    by_cases hsame : (view u i n).blockAt u.disk (p / BSIZE) =
        (u.icache i).copy.blockAt u.disk (off / BSIZE)
    · -- the block written to, at another place
      obtain ⟨rfl, hdiv⟩ := hO.exact.blockAt_unique hn htu hO.inum (by rw [hself]; exact hO.type)
        (hb ▸ hp) (by rw [hself]; exact hsame)
      rw [hsame, update_self, putBytes_apply (Nat.mod_lt _ BSIZE_pos), if_neg, ← hsame,
        hb, hd]
      intro hin
      refine hout ⟨hinum, ?_⟩
      have h₁ := Nat.div_add_mod p BSIZE
      have h₂ := Nat.div_add_mod off BSIZE
      rw [hdiv] at h₁
      omega
    · rw [update_of_ne hsame, hb, hd]
  · intro p hp hlt
    obtain ⟨hdiv, hmod⟩ := div_of_chunk off (p - off) (by omega)
    rw [Nat.add_sub_cancel' hp] at hdiv hmod
    have hs := hO.blockAt_store hne (putBytes (u.disk ((u.icache i).copy.blockAt u.disk
      (off / BSIZE))) (off % BSIZE) src) hO.inum (by rw [hself]; exact hO.type) (off / BSIZE)
    rw [hself] at hs
    dsimp only
    rw [Dinode.byteAt, hdiv, hs]
    refine ⟨hne, ?_⟩
    rw [update_self, putBytes_apply (Nat.mod_lt _ BSIZE_pos), hmod, if_pos (by omega)]
    congr 1
    omega

theorem Wrote.nil (h : Open sb s i []) : Wrote sb s i off [] s := by
  refine ⟨h, ⟨_, rfl⟩, fun _ _ => rfl, rfl, fun _ => rfl, fun _ _ _ _ _ => rfl,
    fun _ _ _ _ _ _ => rfl, ?_⟩
  intro p hp hlt
  simp only [length_nil] at hlt
  omega

theorem writeLoop_spec (fuel : ℕ) : ∀ (off : ℕ) (src : List UInt8) (s : State N),
    Open sb s i [] → src.length ≤ fuel → off + src.length ≤ MAXFILE * BSIZE →
    (sb.free s.disk < (s.icache i).copy.neededFor s.disk off src.length → E .outOfBlocks) →
    wp (writeLoop sb i fuel off src) (fun _ t => Wrote sb s i off src t) E s := by
  induction fuel with
  | zero =>
    intro off src s h hfuel _ _
    obtain rfl := length_eq_zero_iff.1 (Nat.le_zero.1 hfuel)
    exact .nil h
  | succ fuel ih =>
    intro off src s h hfuel hmax hE
    rw [writeLoop, wp_ite]
    refine ⟨fun h0 => ?_, fun hpos => ?_⟩
    · obtain rfl := length_eq_zero_iff.1 h0
      exact .nil h
    have hbn : off / BSIZE < MAXFILE := Nat.div_lt_of_lt_mul (by rw [Nat.mul_comm]; omega)
    have hmod : off % BSIZE < BSIZE := Nat.mod_lt _ BSIZE_pos
    have hneed : (s.icache i).copy.neededFor s.disk off src.length =
        (s.icache i).copy.needed s.disk (off / BSIZE) ((off + src.length - 1) / BSIZE + 1) :=
      if_neg hpos
    rw [wp_bind]
    refine wp_post (bmap_spec h hbn ?_) ?_
    · intro hlt
      refine hE (hlt.trans_le ?_)
      rw [hneed]
      refine missing_le_needed (Nat.lt_succ_of_le ?_)
      exact Nat.div_le_div_right (by omega)
    intro a u hm
    rw [wp_bind, wp_get, wp_bind, setBlock, wp_modify]
    generalize hmdef : min src.length (BSIZE - off % BSIZE) = m
    have hlen : (src.take m).length = m := by
      rw [length_take]
      omega
    have hw := hm.wrote (src.take m) (by omega) (by omega)
    have hblock : ∀ l, (u.icache i).copy.blockAt (update u.disk a
        (putBytes (u.disk a) (off % BSIZE) (src.take m))) l =
          (u.icache i).copy.blockAt u.disk l := by
      intro l
      obtain rfl := hm.addr
      have := hm.isOpen.blockAt_store hm.ne (putBytes (u.disk ((u.icache i).copy.blockAt u.disk
        (off / BSIZE))) (off % BSIZE) (src.take m)) hm.isOpen.inum
        (by rw [view_self]; exact hm.isOpen.type) l
      rwa [view_self] at this
    have hfree : sb.free (update u.disk a
        (putBytes (u.disk a) (off % BSIZE) (src.take m))) = sb.free u.disk := by
      obtain rfl := hm.addr
      exact free_congr fun c hc => used_update_data (hm.isOpen.data_of_blockAt hm.ne) hc
    refine wp_post (ih (off + m) (src.drop m) _ hw.isOpen ?_ ?_ ?_) ?_
    · rw [length_drop]
      omega
    · rw [length_drop]
      omega
    · intro hlt
      refine hE ?_
      rw [← hm.free]
      dsimp only at hlt
      rw [hfree, length_drop, neededFor_congr hblock] at hlt
      have hrest := hm.neededFor hpos hmdef
      omega
    · intro _ t ht
      have hall : Wrote sb s i off (src.take m ++ src.drop m) t :=
        hw.trans (by rw [hlen]; exact ht)
      rwa [take_append_drop] at hall

/-! ## The file system between calls -/

/-- **The invariant of the file system.** -/
structure Sound (sb : Superblock) (s : State N) : Prop where
  /-- The free map marks what is in use, and nothing is in use twice. -/
  exact : Exact sb s.disk s.dinode []
  /-- Files have all the blocks below their size. -/
  full : ∀ n, n < sb.ninodes → (s.dinode n).type ≠ 0 → (s.dinode n).Full s.disk
  /-- Inodes in memory are as on the disk. -/
  agree : ∀ i, Agrees sb s i
  unique : ∀ i j, 0 < (s.icache i).ref → 0 < (s.icache j).ref →
    (s.icache i).inum = (s.icache j).inum → i = j

theorem Sound.view_eq (h : Sound sb s) (hr : 0 < (s.icache i).ref)
    (hv : (s.icache i).valid = true) : view s i = s.dinode := by
  obtain ⟨-, hcopy, -⟩ := h.agree i hr hv
  rw [view, hcopy, update_eq_self]

theorem Sound.isOpen (h : Sound sb s) (hr : 0 < (s.icache i).ref)
    (hv : (s.icache i).valid = true) : Open sb s i [] := by
  obtain ⟨hlt, hcopy, ht⟩ := h.agree i hr hv
  have hview := h.view_eq hr hv
  exact ⟨⟨hr, hv, hlt, ht, fun j _ => h.agree j, h.unique⟩, hview ▸ h.exact, hview ▸ h.full⟩

theorem Open.sound (h : Open sb s i []) (hcopy : (s.icache i).copy = s.dinode (s.icache i).inum) :
    Sound sb s := by
  have hview : view s i = s.dinode := by rw [view, hcopy, update_eq_self]
  refine ⟨hview ▸ h.exact, hview ▸ h.full, ?_, h.unique⟩
  intro j
  by_cases hj : j = i
  · subst hj
    exact fun _ _ => ⟨h.inum, hcopy, h.type⟩
  · exact h.agree j hj

/-- The state after `iupdate`. -/
def State.updated (s : State N) (i : Fin N) : State N := { s with dinode := view s i }

theorem wp_iupdate {Q : PUnit → State N → Prop} :
    wp (iupdate i) Q E s ↔ Q ⟨⟩ (s.updated i) := Iff.rfl

theorem Open.updated (h : Open sb s i []) : Sound sb (s.updated i) := by
  have hview : view (s.updated i) i = view s i := by simp [view, State.updated]
  refine Open.sound (i := i) ⟨⟨h.ref, h.valid, h.inum, h.type, ?_, h.unique⟩, ?_, ?_⟩
    (view_self s i).symm
  · intro j hj hr hv
    obtain ⟨hlt, hcopy, ht⟩ := h.agree j hj hr hv
    have hne : (s.icache j).inum ≠ (s.icache i).inum := fun he => hj (h.unique j i hr h.ref he)
    exact ⟨hlt, hcopy.trans (view_of_ne hne).symm, ht⟩
  · rw [hview]
    exact h.exact
  · rw [hview]
    exact h.full

/-- The state after an assignment to `ip->...`. -/
def State.withCopy (s : State N) (i : Fin N) (d : Dinode) : State N :=
  { s with icache := update s.icache i { s.icache i with copy := d } }

theorem wp_setCopy {f : Dinode → Dinode} {Q : PUnit → State N → Prop} :
    wp (setCopy i f) Q E s ↔ Q ⟨⟩ (s.withCopy i (f (s.icache i).copy)) := Iff.rfl

theorem withCopy_self (s : State N) (i : Fin N) (d : Dinode) :
    (s.withCopy i d).icache i = { s.icache i with copy := d } := by simp [State.withCopy]

theorem withCopy_of_ne (s : State N) {i j : Fin N} (d : Dinode) (h : j ≠ i) :
    (s.withCopy i d).icache j = s.icache j := by simp [State.withCopy, h]

theorem view_withCopy (s : State N) (i : Fin N) (d : Dinode) :
    view (s.withCopy i d) i = update (view s i) (s.icache i).inum d := by
  simp [view, State.withCopy]

theorem Exact.withCopy (h : Exact sb s.disk (view s i) []) (hn : (s.icache i).inum < sb.ninodes)
    (ha : d.addrs = (s.icache i).copy.addrs) (ht : d.type = (s.icache i).copy.type) :
    Exact sb s.disk (view (s.withCopy i d) i) [] := by
  rw [view_withCopy]
  refine h.update hn (fun _ _ => rfl) ?_ ?_
  · intro m _ hm
    rw [update_of_ne hm]
  · rw [update_self, view_self, Dinode.owned, ht, Dinode.refs, ha]
    exact .refl _

theorem InUse.withCopy (h : InUse sb s i) (ht : d.type ≠ 0) : InUse sb (s.withCopy i d) i :=
  h.congr (withCopy_self s i d) ht (fun _ hj => withCopy_of_ne s d hj) rfl

theorem Open.withCopy (h : Open sb s i []) (ha : d.addrs = (s.icache i).copy.addrs)
    (ht : d.type = (s.icache i).copy.type) (hf : d.Full s.disk) :
    Open sb (s.withCopy i d) i [] := by
  refine ⟨h.toInUse.withCopy (ht ▸ h.type), h.exact.withCopy h.inum ha ht, ?_⟩
  rw [view_withCopy]
  intro n hn htn
  by_cases hni : n = (s.icache i).inum
  · rw [hni, update_self]
    exact hf
  · rw [update_of_ne hni] at htn ⊢
    exact h.full n hn htn

/-! ## `readi` and `writei` -/

/-- The contents of a file. -/
def Dinode.content (disk : ℕ → Block) (d : Dinode) : List UInt8 :=
  (List.range d.size).map (d.byteAt disk)

theorem length_content : (d.content disk).length = d.size := by simp [Dinode.content]

theorem getElem_content {p : ℕ} (hp : p < (d.content disk).length) :
    (d.content disk)[p] = d.byteAt disk p := by simp [Dinode.content]

theorem Dinode.Full.block {p : ℕ} (h : d.Full disk) (hp : p < d.size) :
    d.blockAt disk (p / BSIZE) ≠ 0 :=
  h _ ((Nat.div_mul_le_self p BSIZE).trans_lt hp)

theorem add_lt_self_iff (off n : UInt32) : off + n < off ↔ 2 ^ 32 ≤ off.toNat + n.toNat := by
  rw [UInt32.lt_iff_toNat_lt, UInt32.toNat_add]
  have := off.toNat_lt
  have := n.toNat_lt
  omega

/-- **What a call of `writei` leaves behind** that wrote `src` at `off`. -/
structure Written (sb : Superblock) (s : State N) (i : Fin N) (off : ℕ) (src : List UInt8)
    (t : State N) : Prop where
  sound : Sound sb t
  inode : t.icache i = { s.icache i with copy := t.dinode (s.icache i).inum }
  others : ∀ j, j ≠ i → t.icache j = s.icache j
  type : (t.dinode (s.icache i).inum).type = (s.dinode (s.icache i).inum).type
  size : (t.dinode (s.icache i).inum).size =
    max (s.dinode (s.icache i).inum).size (off + src.length)
  /-- The contents are the old ones with `src` from `off` on. -/
  content : (t.dinode (s.icache i).inum).content t.disk =
    ((s.dinode (s.icache i).inum).content s.disk).take off ++ src ++
      ((s.dinode (s.icache i).inum).content s.disk).drop (off + src.length)
  /-- The other inodes are untouched. -/
  dinode : ∀ n, n ≠ (s.icache i).inum → t.dinode n = s.dinode n
  rest : ∀ n, n < sb.ninodes → n ≠ (s.icache i).inum → (s.dinode n).type ≠ 0 →
    (t.dinode n).content t.disk = (s.dinode n).content s.disk

theorem Wrote.content (h : Wrote sb s i off src t) (hf : (s.icache i).copy.Full s.disk)
    (hoff : off ≤ (s.icache i).copy.size) (hd : d.addrs = (t.icache i).copy.addrs)
    (hsize : d.size = max (s.icache i).copy.size (off + src.length)) :
    d.content t.disk = ((s.icache i).copy.content s.disk).take off ++ src ++
      ((s.icache i).copy.content s.disk).drop (off + src.length) := by
  have hbyte : ∀ p, d.byteAt t.disk p = (t.icache i).copy.byteAt t.disk p := by
    intro p
    simp only [Dinode.byteAt, Dinode.blockAt, hd]
  have hold : ∀ p, p < (s.icache i).copy.size → ¬(off ≤ p ∧ p < off + src.length) →
      d.byteAt t.disk p = (s.icache i).copy.byteAt s.disk p := by
    intro p hp hout
    have := h.byte (s.icache i).inum h.inum_lt (by rw [view_self]; exact h.type_ne) p
      (by rw [view_self]; exact hf.block hp) (fun hc => hout hc.2)
    rw [view_self, ← h.inum, view_self] at this
    rw [hbyte, this]
  refine ext_getElem ?_ ?_
  · simp only [length_content, length_append, length_take, length_drop]
    omega
  · intro p hp hp'
    rw [length_content] at hp
    rw [getElem_content]
    by_cases h₁ : p < off
    · rw [getElem_append_left (by simp [length_content]; omega),
        getElem_append_left (by simp [length_content]; omega), getElem_take,
        getElem_content]
      exact hold p (by omega) (by omega)
    · by_cases h₂ : p < off + src.length
      · rw [getElem_append_left (by simp [length_content]; omega),
          getElem_append_right (by simp [length_content]; omega), hbyte,
          (h.written p (by omega) h₂).2]
        simp only [length_take, length_content]
        rw [getD_eq_getElem _ _ (by omega)]
        congr 1
        omega
      · rw [getElem_append_right (by simp [length_content]; omega), getElem_drop,
          getElem_content, hold p (by omega) (by omega)]
        congr 1
        simp only [length_append, length_take, length_content]
        omega

theorem Wrote.rest (h : Wrote sb s i off src t) (hs : Sound sb s) (hn : n < sb.ninodes)
    (hne : n ≠ (s.icache i).inum) (ht : (s.dinode n).type ≠ 0) :
    (s.dinode n).content t.disk = (s.dinode n).content s.disk := by
  have hv : view s i n = s.dinode n := view_of_ne hne
  have hv' : view t i n = s.dinode n := by rw [view_of_ne (by rwa [h.inum]), h.dinode]
  refine map_congr_left fun p hp => ?_
  have := h.byte n hn (by rw [hv]; exact ht) p
    (by rw [hv]; exact (hs.full n hn ht).block (mem_range.1 hp)) (fun hc => hne hc.1)
  rwa [hv, hv'] at this

theorem Wrote.full (h : Wrote sb s i off src t) (hf : (s.icache i).copy.Full s.disk)
    (hoff : off ≤ (s.icache i).copy.size) (hd : d.addrs = (t.icache i).copy.addrs)
    (hsize : d.size = max (s.icache i).copy.size (off + src.length)) : d.Full t.disk := by
  have hblock : ∀ k, d.blockAt t.disk k = (t.icache i).copy.blockAt t.disk k := by
    intro k
    simp only [Dinode.blockAt, hd]
  intro k hk
  rw [hblock]
  by_cases hlt : k * BSIZE < (s.icache i).copy.size
  · have := h.block (s.icache i).inum h.inum_lt (by rw [view_self]; exact h.type_ne) k
      (by rw [view_self]; exact hf k hlt)
    rw [view_self, ← h.inum, view_self] at this
    rw [this]
    exact hf k hlt
  · have := (h.written (k * BSIZE) (by omega) (by omega)).1
    rwa [Nat.mul_div_cancel _ BSIZE_pos] at this

theorem Wrote.within (h : Wrote sb s i off src t) (hs : Sound sb s) (hr : 0 < (s.icache i).ref)
    (hv : (s.icache i).valid = true) (hoff : off ≤ (s.icache i).copy.size)
    (hno : src.length = 0 ∨ off + src.length ≤ (s.icache i).copy.size) :
    Written sb s i off src t := by
  obtain ⟨hlt, hcopy, htype⟩ := hs.agree i hr hv
  have hf : (s.icache i).copy.Full s.disk := hcopy ▸ hs.full _ hlt (hcopy ▸ htype)
  have hsame : t.icache i = s.icache i := by
    refine h.same fun p hp hlt' => ?_
    exact hf.block (by omega)
  have hsize : (s.icache i).copy.size = max (s.icache i).copy.size (off + src.length) := by
    omega
  have hcontent := h.content hf hoff (d := (s.icache i).copy) (by rw [hsame]) hsize
  refine ⟨h.isOpen.sound ?_, ?_, h.others, ?_, ?_, ?_, ?_, ?_⟩
  · rw [hsame, h.dinode, hcopy]
  · rw [hsame, h.dinode, ← hcopy]
  · rw [h.dinode]
  · rw [h.dinode, ← hcopy]
    exact hsize
  · rw [h.dinode, ← hcopy]
    exact hcontent
  · intro n _
    rw [h.dinode]
  · intro n hn hne ht
    rw [h.dinode]
    exact h.rest hs hn hne ht

theorem Wrote.beyond (h : Wrote sb s i off src t) (hs : Sound sb s) (hr : 0 < (s.icache i).ref)
    (hv : (s.icache i).valid = true) (hoff : off ≤ (s.icache i).copy.size)
    (hgrow : (s.icache i).copy.size < off + src.length) : Written sb s i off src
      ((t.withCopy i { (t.icache i).copy with size := off + src.length }).updated i) := by
  obtain ⟨hlt, hcopy, htype⟩ := hs.agree i hr hv
  have hf : (s.icache i).copy.Full s.disk := hcopy ▸ hs.full _ hlt (hcopy ▸ htype)
  obtain ⟨f, hcf⟩ := h.copy
  generalize hd : ({ (t.icache i).copy with size := off + src.length } : Dinode) = d
  have haddrs : d.addrs = (t.icache i).copy.addrs := by rw [← hd]
  have hdtype : d.type = (t.icache i).copy.type := by rw [← hd]
  have hsize : d.size = max (s.icache i).copy.size (off + src.length) := by
    rw [← hd]
    dsimp only
    omega
  have hopen := h.isOpen.withCopy haddrs hdtype (h.full hf hoff haddrs hsize)
  have hself : ((t.withCopy i d).updated i).dinode (s.icache i).inum = d := by
    rw [State.updated, view_withCopy, ← h.inum]
    exact update_self ..
  have hother : ∀ n, n ≠ (s.icache i).inum →
      ((t.withCopy i d).updated i).dinode n = s.dinode n := by
    intro n hn
    rw [State.updated, view_withCopy, h.inum]
    dsimp only
    rw [update_of_ne hn, view_of_ne (by rwa [h.inum]), h.dinode]
  refine ⟨hopen.updated, ?_, ?_, ?_, ?_, ?_, hother, ?_⟩
  · rw [hself]
    refine (withCopy_self t i d).trans ?_
    rw [hcf]
  · intro j hj
    exact (withCopy_of_ne t d hj).trans (h.others j hj)
  · rw [hself, hdtype, hcf, hcopy]
  · rw [hself, hsize, hcopy]
  · rw [hself, ← hcopy]
    exact h.content hf hoff haddrs hsize
  · intro n hn hne ht
    rw [hother n hne]
    exact h.rest hs hn hne ht

theorem writei_spec {off n : UInt32} (hs : Sound sb s) (hr : 0 < (s.icache i).ref)
    (hv : (s.icache i).valid = true) (ht : (s.icache i).copy.type ≠ T_DEV)
    (hsrc : src.length = n.toNat) (hoff : off.toNat ≤ (s.icache i).copy.size)
    (hwrap : off.toNat + n.toNat < 2 ^ 32) (hmax : off.toNat + n.toNat ≤ MAXFILE * BSIZE)
    (hE : sb.free s.disk < (s.icache i).copy.neededFor s.disk off.toNat n.toNat →
      E .outOfBlocks) :
    wp (writei sb dev i src off n) (fun r t => r = n.toNat ∧ Written sb s i off.toNat src t)
      E s := by
  have hadd : (off + n).toNat = off.toNat + n.toNat := by
    rw [UInt32.toNat_add]
    exact Nat.mod_eq_of_lt hwrap
  have hlt : ¬off + n < off := by
    rw [add_lt_self_iff]
    omega
  rw [writei, wp_bind, wp_get]
  dsimp only
  rw [if_neg ht, if_neg (not_or.2 ⟨by omega, hlt⟩), hadd, if_neg (by omega), wp_bind]
  have hopen := hs.isOpen hr hv
  refine wp_post (writeLoop_spec n.toNat off.toNat src s hopen (by omega) (by omega) ?_) ?_
  · rw [hsrc]
    exact hE
  intro _ t hw
  have hpos : 0 < n ↔ 0 < n.toNat := UInt32.lt_iff_toNat_lt
  rw [wp_ite, hpos, ← hsrc]
  refine ⟨fun hgrow => ?_, fun hno => ?_⟩
  · rw [wp_bind, wp_setCopy, wp_bind, wp_iupdate, wp_pure]
    exact ⟨rfl, hw.beyond hs hr hv hoff hgrow.2⟩
  · rw [wp_pure]
    exact ⟨rfl, hw.within hs hr hv hoff (by omega)⟩

theorem writei_refuses {off n : UInt32} {Q : ℤ → State N → Prop}
    (ht : (s.icache i).copy.type ≠ T_DEV)
    (hbad : (s.icache i).copy.size < off.toNat ∨ 2 ^ 32 ≤ off.toNat + n.toNat ∨
      MAXFILE * BSIZE < off.toNat + n.toNat) (hQ : Q (-1) s) :
    wp (writei sb dev i src off n) Q E s := by
  rw [writei, wp_bind, wp_get]
  dsimp only
  rw [if_neg ht, wp_ite]
  refine ⟨fun _ => hQ, fun hok => ?_⟩
  rw [add_lt_self_iff, not_or] at hok
  have hadd : (off + n).toNat = off.toNat + n.toNat := by
    rw [UInt32.toNat_add]
    exact Nat.mod_eq_of_lt (by omega)
  rw [hadd, if_pos (by omega)]
  exact hQ

theorem readLoop_spec (h : Open sb s i []) (fuel : ℕ) : ∀ off n : ℕ, n ≤ fuel →
    off + n ≤ (s.icache i).copy.size →
    wp (readLoop sb i fuel off n) (fun bytes t => t = s ∧
      bytes = (List.range n).map fun q => (s.icache i).copy.byteAt s.disk (off + q)) E s := by
  have hf : (s.icache i).copy.Full s.disk := by
    have := h.full (s.icache i).inum h.inum (by rw [view_self]; exact h.type)
    rwa [view_self] at this
  induction fuel with
  | zero =>
    intro off n hn _
    obtain rfl := Nat.le_zero.1 hn
    exact ⟨rfl, rfl⟩
  | succ fuel ih =>
    intro off n hn hsize
    rw [readLoop, wp_ite]
    refine ⟨fun h0 => ?_, fun hpos => ?_⟩
    · subst h0
      exact ⟨rfl, rfl⟩
    have hmod : off % BSIZE < BSIZE := Nat.mod_lt _ BSIZE_pos
    have hne := hf.block (p := off) (by omega)
    have hbn : off / BSIZE < MAXFILE := by
      rcases blockAt_cases hne with ⟨hk, -⟩ | ⟨-, hk, -⟩ <;> simp only [MAXFILE] <;> omega
    have hmiss : (s.icache i).copy.missing s.disk (off / BSIZE) = 0 := by
      rw [Dinode.missing, if_neg hne, if_neg]
      exact fun hc => hne (blockAt_missing hc.1 hc.2)
    rw [wp_bind]
    refine wp_post (bmap_spec h hbn fun hlt => absurd hlt (by omega)) ?_
    intro a t hm
    obtain rfl := hm.hit hne
    obtain rfl := hm.addr
    rw [wp_bind, wp_get, wp_bind]
    generalize hmdef : min n (BSIZE - off % BSIZE) = m
    refine wp_post (ih (off + m) (n - m) (by omega) (by omega)) ?_
    rintro rest u ⟨rfl, rfl⟩
    rw [wp_pure]
    refine ⟨rfl, ?_⟩
    have hsplit : n = m + (n - m) := by omega
    conv_rhs => rw [hsplit, range_add, map_append, map_map]
    congr 1
    · refine map_congr_left fun q hq => ?_
      have hq' := mem_range.1 hq
      obtain ⟨hdiv, hmod'⟩ := div_of_chunk off q (by omega)
      rw [Dinode.byteAt, hdiv, hmod']
    · refine map_congr_left fun q _ => ?_
      rw [Function.comp_apply, Nat.add_assoc]

theorem readi_spec {off n : UInt32} (h : Open sb s i []) (ht : (s.icache i).copy.type ≠ T_DEV)
    (hoff : off.toNat ≤ (s.icache i).copy.size) (hwrap : off.toNat + n.toNat < 2 ^ 32) :
    wp (readi sb dev i off n) (fun r t => t = s ∧
      r = (((min (off.toNat + n.toNat) (s.icache i).copy.size - off.toNat : ℕ) : ℤ),
        (((s.icache i).copy.content s.disk).drop off.toNat).take n.toNat)) E s := by
  have hadd : (off + n).toNat = off.toNat + n.toNat := by
    rw [UInt32.toNat_add]
    exact Nat.mod_eq_of_lt hwrap
  have hlt : ¬off + n < off := by
    rw [add_lt_self_iff]
    omega
  rw [readi, wp_bind, wp_get]
  dsimp only
  rw [if_neg ht, if_neg (not_or.2 ⟨by omega, hlt⟩), hadd]
  have hn : (if (s.icache i).copy.size < off.toNat + n.toNat
      then (s.icache i).copy.size - off.toNat else n.toNat) =
      min (off.toNat + n.toNat) (s.icache i).copy.size - off.toNat := by
    split <;> omega
  rw [hn, wp_bind]
  refine wp_post (readLoop_spec h _ off.toNat _ le_rfl (by omega)) ?_
  rintro bytes t ⟨rfl, rfl⟩
  rw [wp_pure]
  refine ⟨rfl, Prod.ext rfl ?_⟩
  refine ext_getElem ?_ ?_
  · simp only [length_map, length_range, length_take, length_drop,
      length_content]
    omega
  · intro q hq hq'
    rw [getElem_map, getElem_range, getElem_take, getElem_drop,
      getElem_content]

theorem readi_refuses {off n : UInt32} {Q : ℤ × List UInt8 → State N → Prop}
    (ht : (s.icache i).copy.type ≠ T_DEV)
    (hbad : (s.icache i).copy.size < off.toNat ∨ 2 ^ 32 ≤ off.toNat + n.toNat) (hQ : Q (-1, []) s) :
    wp (readi sb dev i off n) Q E s := by
  rw [readi, wp_bind, wp_get]
  dsimp only
  rw [if_neg ht, if_pos (by rw [add_lt_self_iff]; exact hbad)]
  exact hQ

/-- **Files are byte sequences.**  `c` stands for the contents of the file that
inode `i` is the copy of.  `writei` refuses to leave a gap, to overflow and to
pass the greatest size, and otherwise replaces the bytes from `off` on by `src`,
given as many free blocks as it has to allocate; `readi` answers with the bytes
from `off` on. -/
theorem file_is_byte_sequence (sb : Superblock) (dev : Devsw) (s : State N) (i : Fin N)
    (hs : Sound sb s) (hr : 0 < (s.icache i).ref) (hv : (s.icache i).valid = true)
    (ht : (s.icache i).copy.type = T_FILE ∨ (s.icache i).copy.type = T_DIR)
    (off n : UInt32) (src : List UInt8) (hsrc : src.length = n.toNat) (c : List UInt8)
    (hc : c = (s.dinode (s.icache i).inum).content s.disk) :
    (c.length < off.toNat ∨ 2 ^ 32 ≤ off.toNat + n.toNat ∨
        MAXFILE * BSIZE < off.toNat + n.toNat →
      (writei sb dev i src off n).run s = .ok (-1, s)) ∧
    (off.toNat ≤ c.length → off.toNat + n.toNat < 2 ^ 32 →
      off.toNat + n.toNat ≤ MAXFILE * BSIZE →
      (s.dinode (s.icache i).inum).neededFor s.disk off.toNat n.toNat ≤ sb.free s.disk →
      ∃ t, (writei sb dev i src off n).run s = .ok ((n.toNat : ℤ), t) ∧
        (t.dinode (s.icache i).inum).content t.disk =
          c.take off.toNat ++ src ++ c.drop (off.toNat + n.toNat) ∧
        (t.dinode (s.icache i).inum).size = max c.length (off.toNat + n.toNat) ∧
        (∀ m, m < sb.ninodes → m ≠ (s.icache i).inum → (s.dinode m).type ≠ 0 →
          t.dinode m = s.dinode m ∧ (t.dinode m).content t.disk = (s.dinode m).content s.disk) ∧
        Sound sb t) ∧
    (c.length < off.toNat ∨ 2 ^ 32 ≤ off.toNat + n.toNat →
      (readi sb dev i off n).run s = .ok ((-1, []), s)) ∧
    (off.toNat ≤ c.length → off.toNat + n.toNat < 2 ^ 32 →
      (readi sb dev i off n).run s =
        .ok ((((min (off.toNat + n.toNat) c.length - off.toNat : ℕ) : ℤ),
          (c.drop off.toNat).take n.toNat), s)) := by
  obtain ⟨hlt, hcopy, htype⟩ := hs.agree i hr hv
  have hdev : (s.icache i).copy.type ≠ T_DEV := by
    rcases ht with ht | ht <;> rw [ht] <;> decide
  rw [← hcopy] at hc ⊢
  have hlen : c.length = (s.icache i).copy.size := by rw [hc, length_content]
  rw [hlen]
  refine ⟨?_, ?_, ?_, ?_⟩
  · intro hbad
    obtain ⟨r, t, hrun, rfl, rfl⟩ := exists_ok_of_wp (m := writei sb dev i src off n)
      (Q := fun r t => r = -1 ∧ t = s) (writei_refuses hdev hbad ⟨rfl, rfl⟩)
    exact hrun
  · intro hoff hwrap hmax hfree
    obtain ⟨r, t, hrun, rfl, hw⟩ := exists_ok_of_wp (m := writei sb dev i src off n)
      (writei_spec hs hr hv hdev hsrc hoff hwrap hmax fun hlt' => absurd hfree (by omega))
    refine ⟨t, hrun, ?_, ?_, ?_, hw.sound⟩
    · rw [hw.content, ← hcopy, ← hc, hsrc]
    · rw [hw.size, ← hcopy, hsrc]
    · exact fun m hm hne htm => ⟨hw.dinode m hne, hw.rest m hm hne htm⟩
  · intro hbad
    obtain ⟨r, t, hrun, rfl, rfl⟩ := exists_ok_of_wp (m := readi sb dev i off n)
      (Q := fun r t => r = (-1, []) ∧ t = s) (readi_refuses hdev hbad ⟨rfl, rfl⟩)
    exact hrun
  · intro hoff hwrap
    obtain ⟨r, t, hrun, rfl, rfl⟩ := exists_ok_of_wp (m := readi sb dev i off n)
      (readi_spec (hs.isOpen hr hv) hdev hoff hwrap)
    rw [hc]
    exact hrun

/-! ## A small file system -/

/-- A disk of 20 blocks, of which the first 6 are no data blocks. -/
def smallSb : Superblock where
  size := 20
  nblocks := 14
  ninodes := 4
  nlog := 0
  logstart := 2
  inodestart := 2
  bmapstart := 3
  size_lt := by decide
  bmap_lt b hb := by
    rw [Nat.div_eq_of_lt (by rw [BPB_eq]; omega)]
    decide

/-- The free map marks the first 6 blocks; nothing else is on the disk. -/
def smallDisk (b : ℕ) : Block := if b = 3 then fun k => if k = 0 then 0x3f else 0 else .zeroes

/-- An empty file, inode 1, which some process has locked. -/
def smallFs : State 1 where
  disk := smallDisk
  dinode n := if n = 1 then { Dinode.zero with type := T_FILE, nlink := 1 } else .zero
  icache _ := ⟨1, 1, true, { Dinode.zero with type := T_FILE, nlink := 1 }⟩

/-- No device can be read or written. -/
def noDevices : Devsw := ⟨fun _ => none, fun _ => none⟩

theorem smallFs_exact : Exact smallSb smallDisk smallFs.dinode [] := by decide +kernel

theorem smallFs_sound : Sound smallSb smallFs where
  exact := smallFs_exact
  full n _ _ k hk := by
    have hsize : (smallFs.dinode n).size = 0 := by
      simp only [smallFs]
      split <;> rfl
    omega
  agree _ _ _ := ⟨show 1 < 4 by decide, rfl, show T_FILE ≠ 0 by decide⟩
  unique i j _ _ _ := Subsingleton.elim i j

/-- Two bytes are written into the empty file. -/
theorem small_file_written : ∃ t, (writei smallSb noDevices 0 [104, 105] 0 2).run smallFs =
    .ok (2, t) ∧ (t.dinode 1).content t.disk = [104, 105] ∧ Sound smallSb t := by
  obtain ⟨t, hrun, hcontent, -, -, hsound⟩ := (file_is_byte_sequence smallSb noDevices smallFs 0
    smallFs_sound (by decide) rfl (.inl rfl) 0 2 [104, 105] rfl [] (by decide +kernel)).2.1
    (by decide) (by decide) (by decide) (by decide +kernel)
  exact ⟨t, hrun, hcontent, hsound⟩

end Xv6.Fs
