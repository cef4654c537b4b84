import Xv6.Fs.Raw
import Xv6.Lib.Simulation

/-!
# Bare blocks do as the inode table does

`Raw.run` of a call and `Call.run` of it return the same and leave the same disk behind,
the inode blocks being what `slot` reads from them.

* `Near` — two states of the table model that differ in inode blocks alone;
  `Tame` — code that does the same from both and leaves the inode blocks alone.
* `Rep` — a bare disk with the inodes of a state of the table model.
* `run_sim` — every call.
-/

namespace Xv6.Fs.Raw

open Xv6.Lib Function List

variable {N : ℕ} {α β : Type} {F : Format} {dev : Devsw} {s s' t : Fs.State N} {r : State N}
  {i : Fin N} {b : ℕ}

/-! ## Code that leaves the inode blocks alone -/

/-- Two states that differ in inode blocks alone; those of the first are as in `disk₀`. -/
structure Near (F : Format) (disk₀ : ℕ → Block) (s' s : Fs.State N) : Prop where
  icache : s'.icache = s.icache
  disk : ∀ b, ¬F.inodeBlock b → s'.disk b = s.disk b
  dinode : ∀ n, n < F.ninodes → s.dinode n = slot F disk₀ n
  fits : ∀ i, (s.icache i).copy.Fits
  table : s'.dinode = slot F disk₀
  inodes : ∀ b, F.inodeBlock b → s'.disk b = disk₀ b

/-- Code that does the same from both states and leaves the inode blocks alone. -/
def Tame (F : Format) (m : Fs.Kernel N α) (s : Fs.State N) : Prop :=
  ∀ disk₀ s', Near F disk₀ s' s → Sim (Near F disk₀) m m s' s

theorem Tame.pure (a : α) : Tame F (pure a : Fs.Kernel N α) s := fun _ _ h => Sim.pure h

theorem Tame.throw (e : Panic) : Tame F (throw e : Fs.Kernel N α) s := fun _ _ _ => Sim.throw

theorem Tame.bind {m : Fs.Kernel N β} {f : β → Fs.Kernel N α} (h : Tame F m s)
    (hf : ∀ a t, m.run s = .ok (a, t) → Tame F (f a) t) : Tame F (m >>= f) s :=
  fun disk₀ s' hs => (h disk₀ s' hs).bind fun a t' t hrun ht => hf a t hrun disk₀ t' ht

theorem Tame.get {f : Fs.State N → Fs.Kernel N α} (h : Tame F (f s) s)
    (hf : ∀ s', s'.icache = s.icache → (∀ b, ¬F.inodeBlock b → s'.disk b = s.disk b) →
      (∀ n, n < F.ninodes → s'.dinode n = s.dinode n) → f s' = f s) :
    Tame F (get >>= f) s := by
  intro disk₀ s' hs
  refine Sim.get ?_
  rw [hf s' hs.icache hs.disk fun n hn => by rw [hs.table, hs.dinode n hn]]
  exact h disk₀ s' hs

theorem Tame.setBlock (hb : ¬F.inodeBlock b) (x : Block) : Tame F (setBlock b x) s := by
  intro disk₀ s' hs
  refine Sim.modify ⟨hs.icache, fun c hc => ?_, hs.dinode, hs.fits, hs.table, fun c hc => ?_⟩
  · change update s'.disk b x c = update s.disk b x c
    by_cases hcb : c = b
    · rw [hcb, update_self, update_self]
    · rw [update_of_ne hcb, update_of_ne hcb, hs.disk c hc]
  · have hcb : c ≠ b := fun h => hb (h ▸ hc)
    change update s'.disk b x c = disk₀ c
    rw [update_of_ne hcb, hs.inodes c hc]

theorem Tame.setInode {f : Inode → Inode}
    (hf : (s.icache i).copy.Fits → (f (s.icache i)).copy.Fits) : Tame F (setInode i f) s := by
  intro disk₀ s' hs
  refine Sim.modify ⟨?_, hs.disk, hs.dinode, ?_, hs.table, hs.inodes⟩
  · change update s'.icache i (f (s'.icache i)) = update s.icache i (f (s.icache i))
    rw [hs.icache]
  · exact (forall_update_iff s.icache fun _ (ip : Inode) => ip.copy.Fits).2
      ⟨hf (hs.fits i), fun j _ => hs.fits j⟩

theorem Tame.setCopy {f : Dinode → Dinode}
    (hf : (s.icache i).copy.Fits → (f (s.icache i).copy).Fits) : Tame F (setCopy i f) s :=
  Tame.setInode hf

variable {k : ℕ} {m : Fs.Kernel N α}

theorem Tame.setAddr {a : ℕ} (hk : k ≤ NDIRECT) (ha : a < 4294967296) :
    Tame F (setAddr i k a) s := by
  refine Tame.setCopy fun h => ⟨h.type, h.major, h.minor, h.nlink, h.size, fun l hl => ?_,
    fun l hl => ?_⟩
  · change update (s.icache i).copy.addrs k a l < _
    by_cases hlk : l = k
    · rw [hlk, update_self]
      exact ha
    · rw [update_of_ne hlk]
      exact h.addrs l hl
  · change update (s.icache i).copy.addrs k a l = 0
    rw [update_of_ne (by omega)]
    exact h.rest l hl

/-! ## Blocks -/

theorem ballocFrom_tame (hmeta : ∀ c, c < F.nmeta → F.used s.disk c = true) {bs : List ℕ}
    (hbs : ∀ b₀ ∈ bs, b₀ % BPB = 0) : Tame F (ballocFrom F.toSuperblock bs) s := by
  induction bs with
  | nil => exact Tame.throw _
  | cons b₀ bs ih =>
    rw [ballocFrom]
    refine Tame.get ?_ fun s' _ hdisk _ => by rw [hdisk _ (not_inodeBlock_BBLOCK F b₀)]
    split
    · rename_i bi hfind
      obtain ⟨-, hlt, -, hdata⟩ := findFree_data hmeta (hbs b₀ (by simp)) hfind
      refine Tame.bind (Tame.setBlock (not_inodeBlock_BBLOCK F b₀) _) fun _ _ _ => ?_
      refine Tame.bind (Tame.setBlock (not_inodeBlock_of_data hdata hlt) _) fun _ _ _ => ?_
      exact Tame.pure _
    · exact ih fun b₁ hb₁ => hbs b₁ (by simp [hb₁])

theorem balloc_tame (hmeta : ∀ c, c < F.nmeta → F.used s.disk c = true) :
    Tame F (balloc F.toSuperblock) s := by
  refine ballocFrom_tame hmeta fun b₀ hb₀ => ?_
  obtain ⟨k, -, rfl⟩ := mem_map.1 hb₀
  exact Nat.mul_mod_left _ _

theorem bfree_tame (b : ℕ) : Tame F (bfree F.toSuperblock b) s := by
  refine Tame.get ?_ fun s' _ hdisk _ => by rw [hdisk _ (not_inodeBlock_BBLOCK F b)]
  dsimp only
  split
  · exact Tame.throw _
  · exact Tame.setBlock (not_inodeBlock_BBLOCK F b) _

theorem loadAddr_tame (h : Open F.toSuperblock s i []) (hk : k ≤ NDIRECT) :
    Tame F (loadAddr F.toSuperblock i k) s := by
  refine Tame.get ?_ fun s' hic _ _ => by rw [hic]
  split
  · refine Tame.bind (balloc_tame fun _ hc => h.exact.used_of_lt hc) fun a t hrun => ?_
    have hspec : wp (balloc F.toSuperblock) _ (fun _ => True) s :=
      balloc_spec (fun _ hc => h.exact.used_of_lt hc) fun _ => trivial
    obtain ⟨disk', -, ha⟩ := wp_ok hspec hrun
    have hlt := ha.lt
    have hsize := F.size_lt
    exact Tame.bind (Tame.setAddr hk (by omega)) fun _ _ _ => Tame.pure _
  · exact Tame.pure _

theorem not_inodeBlock_of_owned {extra : List ℕ} (h : Open F.toSuperblock s i extra)
    (hb : b ∈ (s.icache i).copy.owned s.disk) : ¬F.inodeBlock b := by
  have hmem : b ∈ extra ++ owned F.toSuperblock s.disk (view s i) := by
    refine mem_append_right _ (mem_owned h.inum ?_)
    rw [view_self]
    exact hb
  exact not_inodeBlock_of_data (h.exact.used_of_mem hmem).2 (h.exact.inside b hmem)

theorem loadEntry_tame (h : Open F.toSuperblock s i []) (j : ℕ)
    (hind : (s.icache i).copy.addrs NDIRECT ≠ 0) :
    Tame F (loadEntry F.toSuperblock ((s.icache i).copy.addrs NDIRECT) j) s := by
  have hdata := not_inodeBlock_of_owned h (indirect_mem_owned _ h.type hind)
  refine Tame.get ?_ fun s' _ hdisk _ => by rw [hdisk _ hdata]
  dsimp only
  split
  · refine Tame.bind (balloc_tame fun _ hc => h.exact.used_of_lt hc) fun a t hrun => ?_
    refine Tame.get ?_ fun s' _ hdisk _ => by rw [hdisk _ hdata]
    exact Tame.bind (Tame.setBlock hdata _) fun _ _ _ => Tame.pure _
  · exact Tame.pure _

theorem bmap_tame (h : Open F.toSuperblock s i []) (bn : ℕ) :
    Tame F (bmap F.toSuperblock i bn) s := by
  rw [bmap]
  split
  · rename_i hlt
    exact loadAddr_tame h hlt.le
  · split
    · refine Tame.bind (loadAddr_tame h le_rfl) fun a t hrun => ?_
      have hspec : wp (loadAddr F.toSuperblock i NDIRECT) _ (fun _ => True) s :=
        loadAddr_spec h le_rfl fun _ _ => trivial
      have ht := wp_ok hspec hrun
      rw [← ht.addr]
      exact loadEntry_tame ht.isOpen _ (ht.addr ▸ ht.ne)
    · exact Tame.throw _

theorem mapped_of_run (h : Open F.toSuperblock s i []) {bn a : ℕ}
    (hrun : (bmap F.toSuperblock i bn).run s = .ok (a, t)) : Mapped F.toSuperblock s i bn a t := by
  by_cases hbn : bn < MAXFILE
  · have hspec : wp (bmap F.toSuperblock i bn) _ (fun _ => True) s :=
      bmap_spec h hbn fun _ => trivial
    exact wp_ok hspec hrun
  · have hlow : ¬bn < NDIRECT := fun hlt => hbn (hlt.trans_le (Nat.le_add_right _ _))
    have hhigh : ¬bn - NDIRECT < NINDIRECT := by
      rw [MAXFILE] at hbn
      omega
    rw [bmap, if_neg hlow, if_neg hhigh] at hrun
    cases hrun

/-! ## Files -/

theorem readLoop_tame (fuel : ℕ) : ∀ {s : Fs.State N} (off n : ℕ), Open F.toSuperblock s i [] →
    Tame F (readLoop F.toSuperblock i fuel off n) s := by
  induction fuel with
  | zero => exact fun _ _ _ => Tame.pure _
  | succ fuel ih =>
    intro s off n h
    rw [readLoop]
    split
    · exact Tame.pure _
    · refine Tame.bind (bmap_tame h _) fun a t hrun => ?_
      have ht := mapped_of_run h hrun
      have hdata : ¬F.inodeBlock a := by
        refine not_inodeBlock_of_owned ht.isOpen ?_
        rw [← ht.addr]
        exact blockAt_mem_owned ht.isOpen.type (ht.addr ▸ ht.ne)
      refine Tame.get ?_ fun s' _ hdisk _ => by rw [hdisk a hdata]
      exact Tame.bind (ih _ _ ht.isOpen) fun _ _ _ => Tame.pure _

theorem readi_tame (h : Open F.toSuperblock s i []) (off n : UInt32) :
    Tame F (readi F.toSuperblock dev i off n) s := by
  refine Tame.get ?_ fun s' hic _ _ => by rw [hic]
  dsimp only
  split
  · split
    · exact Tame.pure _
    · split <;> exact Tame.pure _
  · split
    · exact Tame.pure _
    · exact Tame.bind (readLoop_tame _ _ _ h) fun _ _ _ => Tame.pure _

theorem writeLoop_tame (fuel : ℕ) : ∀ {s : Fs.State N} (off : ℕ) (src : List UInt8),
    Open F.toSuperblock s i [] → Tame F (writeLoop F.toSuperblock i fuel off src) s := by
  induction fuel with
  | zero => exact fun _ _ _ => Tame.pure _
  | succ fuel ih =>
    intro s off src h
    rw [writeLoop]
    split
    · exact Tame.pure _
    · refine Tame.bind (bmap_tame h _) fun a t hrun => ?_
      have ht := mapped_of_run h hrun
      obtain rfl := ht.addr
      have hdata : ¬F.inodeBlock ((t.icache i).copy.blockAt t.disk (off / BSIZE)) :=
        not_inodeBlock_of_owned ht.isOpen (blockAt_mem_owned ht.isOpen.type ht.ne)
      refine Tame.get ?_ fun s' _ hdisk _ => by rw [hdisk _ hdata]
      refine Tame.bind (Tame.setBlock hdata _) fun _ u hstore => ?_
      cases hstore
      exact ih _ _ (ht.isOpen.store ht.ne _)

theorem truncDirect_tame (hk : k < NDIRECT) : Tame F (truncDirect F.toSuperblock i k) s := by
  refine Tame.get ?_ fun s' hic _ _ => by rw [hic]
  dsimp only
  split
  · exact Tame.bind (bfree_tame _) fun _ _ _ => Tame.setAddr hk.le (by decide)
  · exact Tame.pure _

theorem truncEntry_tame {ind : ℕ} (hind : ¬F.inodeBlock ind) (j : ℕ) :
    Tame F (truncEntry F.toSuperblock ind j) s := by
  refine Tame.get ?_ fun s' _ hdisk _ => by rw [hdisk ind hind]
  dsimp only
  split
  · exact bfree_tame _
  · exact Tame.pure _

theorem Tame.forM {f : β → Fs.Kernel N PUnit} {xs : List β}
    (hf : ∀ x ∈ xs, ∀ t, Tame F (f x) t) : Tame F (forM xs f) s :=
  fun disk₀ _ hs => Sim.forM (fun x hx t' t ht => hf x hx t disk₀ t' ht) hs

/-! ## The inode cache and directories -/

theorem iget_tame (inum : ℕ) : Tame F (Fs.iget inum) s := by
  refine Tame.get ?_ fun s' hic _ _ => by rw [hic]
  split
  · exact Tame.bind (Tame.setInode id) fun _ _ _ => Tame.pure _
  · split
    · exact Tame.bind (Tame.setInode id) fun _ _ _ => Tame.pure _
    · exact Tame.throw _

theorem ilock_tame (hn : (s.icache i).inum < F.ninodes) : Tame F (Fs.ilock i) s := by
  intro disk₀ s' hs
  have hread : s'.dinode (s.icache i).inum = s.dinode (s.icache i).inum := by
    rw [hs.table, hs.dinode _ hn]
  refine Sim.get ?_
  dsimp only
  rw [hs.icache, hread]
  split
  · exact Sim.throw
  · split
    · have hnear : Near F disk₀
          (s'.setIp i { s'.icache i with copy := s'.dinode (s'.icache i).inum, valid := true })
          (s.setIp i { s.icache i with copy := s.dinode (s.icache i).inum, valid := true }) := by
        refine ⟨?_, hs.disk, hs.dinode, ?_, hs.table, hs.inodes⟩
        · rw [State.setIp, State.setIp, hs.icache, hread]
        · refine (forall_update_iff s.icache fun _ (ip : Inode) => ip.copy.Fits).2
            ⟨?_, fun j _ => hs.fits j⟩
          change (s.dinode (s.icache i).inum).Fits
          rw [hs.dinode _ hn]
          exact fits_ofBytes _
      refine Sim.bind (Sim.modify hnear) fun _ t' t _ ht => ?_
      split
      · exact Sim.throw
      · exact Sim.pure ht
    · exact Sim.pure hs

theorem eq_of_readi (h : Open F.toSuperblock s i []) {off n : UInt32} {x : ℤ × List UInt8}
    (hrun : (readi F.toSuperblock dev i off n).run s = .ok (x, t)) : t = s := by
  have hspec : wp (readi F.toSuperblock dev i off n) (fun _ u => u = s) (fun _ => True) s :=
    readi_same h
  exact wp_ok (Q := fun _ u => u = s) hspec hrun

theorem dirlookupFrom_tame (h : Open F.toSuperblock s i []) (name : List UInt8) (fuel : ℕ) :
    ∀ off, Tame F (dirlookupFrom F.toSuperblock dev i name fuel off) s := by
  induction fuel with
  | zero => exact fun _ => Tame.pure _
  | succ fuel ih =>
    intro off
    rw [dirlookupFrom]
    refine Tame.get ?_ fun s' hic _ _ => by rw [hic]
    split
    · refine Tame.bind (readi_tame h _ _) fun rd t hrun => ?_
      obtain ⟨n, de⟩ := rd
      obtain rfl := eq_of_readi h hrun
      dsimp only
      split
      · exact Tame.throw _
      · split
        · exact ih _
        · split
          · exact Tame.bind (iget_tame _) fun _ _ _ => Tame.pure _
          · exact ih _
    · exact Tame.pure _

theorem dirlookup_tame (h : Open F.toSuperblock s i []) (name : List UInt8) :
    Tame F (dirlookup F.toSuperblock dev i name) s := by
  refine Tame.get ?_ fun s' hic _ _ => by rw [hic]
  split
  · exact Tame.throw _
  · exact dirlookupFrom_tame h name _ _

theorem emptyDirent_tame (h : Open F.toSuperblock s i []) (fuel : ℕ) :
    ∀ off, Tame F (emptyDirent F.toSuperblock dev i fuel off) s := by
  induction fuel with
  | zero => exact fun _ => Tame.pure _
  | succ fuel ih =>
    intro off
    rw [emptyDirent]
    refine Tame.get ?_ fun s' hic _ _ => by rw [hic]
    split
    · refine Tame.bind (readi_tame h _ _) fun rd t hrun => ?_
      obtain ⟨n, de⟩ := rd
      obtain rfl := eq_of_readi h hrun
      dsimp only
      split
      · exact Tame.throw _
      · split
        · exact Tame.pure _
        · exact ih _
    · exact Tame.pure _

/-! ## Functions that store into an inode block -/

/-- The bare disk has the inodes of the table. -/
structure Rep (F : Format) (r : State N) (s : Fs.State N) : Prop where
  icache : r.icache = s.icache
  disk : ∀ b, ¬F.inodeBlock b → r.disk b = s.disk b
  dinode : ∀ n, n < F.ninodes → s.dinode n = slot F r.disk n
  fits : ∀ i, (s.icache i).copy.Fits

theorem run_lift_ok {a : α} (h : m.run (r.fs F) = .ok (a, t)) :
    (lift F m).run r = .ok (a, ⟨t.disk, t.icache⟩) := by
  simp only [lift, StateT.run] at h ⊢
  rw [h]

theorem run_lift_error {e : Panic} (h : m.run (r.fs F) = .error e) :
    (lift F m).run r = .error e := by
  simp only [lift, StateT.run] at h ⊢
  rw [h]

theorem Tame.lift (hm : Tame F m s) (h : Rep F r s) :
    Sim (Rep F) (lift F m) m r s := by
  have hsim := hm r.disk (r.fs F) ⟨h.icache, h.disk, h.dinode, h.fits, rfl, fun _ _ => rfl⟩
  rw [Sim] at hsim ⊢
  cases hm' : m.run (r.fs F) with
  | error e' =>
    rw [run_lift_error hm']
    rw [hm'] at hsim
    cases hrun : m.run s with
    | error e =>
      rw [hrun] at hsim
      exact hsim
    | ok x =>
      rw [hrun] at hsim
      exact hsim
  | ok x' =>
    obtain ⟨a', t'⟩ := x'
    rw [run_lift_ok hm']
    rw [hm'] at hsim
    cases hrun : m.run s with
    | error e =>
      rw [hrun] at hsim
      exact hsim
    | ok x =>
      rw [hrun] at hsim
      obtain ⟨ha, ht⟩ := hsim
      refine ⟨ha, ht.icache, ht.disk, fun n hn => ?_, ht.fits⟩
      rw [ht.dinode n hn]
      exact (slot_congr (ht.inodes _ (inodeBlock_IBLOCK hn))).symm

theorem Rep.setSlot (h : Rep F r s) {m : ℕ} (hm : m < F.ninodes) {d : Dinode} (hd : d.Fits) :
    Rep F { r with disk := Fs.setSlot F r.disk m d }
      { s with dinode := update s.dinode m d } := by
  refine ⟨h.icache, fun b hb => ?_, fun n hn => ?_, h.fits⟩
  · rw [← h.disk b hb]
    exact setSlot_of_ne F _ _ _ fun he => hb (he ▸ inodeBlock_IBLOCK hm)
  · change update s.dinode m d n = slot F (Fs.setSlot F r.disk m d) n
    by_cases he : n = m
    · rw [he, update_self, slot_setSlot_self F _ _ hd]
    · rw [update_of_ne he, slot_setSlot_of_ne F _ he, h.dinode n hn]

theorem iupdate_sim (h : Rep F r s) (hn : (s.icache i).inum < F.ninodes) :
    Sim (Rep F) (iupdate F i) (Fs.iupdate i) r s := by
  refine Sim.modify ?_
  have hrep := h.setSlot hn (h.fits i)
  rw [h.icache] at hrep ⊢
  exact hrep

theorem fits_zero {type : ℤ} (htype : IsShort type) : ({ Dinode.zero with type } : Dinode).Fits :=
  have hzero : IsShort 0 := by decide
  ⟨htype, hzero, hzero, hzero, Nat.zero_lt_succ _, fun _ _ => Nat.zero_lt_succ _, fun _ _ => rfl⟩

theorem ialloc_sim (h : Rep F r s) {type : ℤ} (htype : IsShort type) :
    Sim (Rep F) (ialloc F type) (Fs.ialloc F.toSuperblock type) r s := by
  refine Sim.get ?_
  have hfind : ((List.range F.ninodes).find? fun inum => 1 ≤ inum ∧ (slot F r.disk inum).type = 0)
      = (List.range F.ninodes).find? fun inum => 1 ≤ inum ∧ (s.dinode inum).type = 0 := by
    refine find?_congr fun inum hinum => ?_
    rw [h.dinode inum (mem_range.1 hinum)]
  rw [hfind]
  cases hsome : (List.range F.ninodes).find? fun inum => 1 ≤ inum ∧ (s.dinode inum).type = 0 with
  | none => exact Sim.throw
  | some inum =>
    have hn : inum < F.ninodes := mem_range.1 (mem_of_find?_eq_some hsome)
    have hrep : Rep F { r with disk := setSlot F r.disk inum { Dinode.zero with type } }
        { s with dinode := update s.dinode inum { Dinode.zero with type } } :=
      h.setSlot hn (fits_zero htype)
    exact Sim.bind (Sim.modify hrep) fun _ t' t _ ht => (iget_tame inum).lift ht

theorem run_truncIndirect {ind : ℕ} {u₁ u₂ u₃ : Fs.State N}
    (h₁ : (forM (List.range NINDIRECT) (truncEntry F.toSuperblock ind)).run s = .ok (⟨⟩, u₁))
    (h₂ : (bfree F.toSuperblock ind).run u₁ = .ok (⟨⟩, u₂))
    (h₃ : (setAddr i NDIRECT 0).run u₂ = .ok (⟨⟩, u₃)) :
    (do
      forM (List.range NINDIRECT) (truncEntry F.toSuperblock ind)
      bfree F.toSuperblock ind
      setAddr i NDIRECT 0 : Fs.Kernel N PUnit).run s = .ok (⟨⟩, u₃) := by
  rw [StateT.run_bind, h₁]
  change (bfree F.toSuperblock ind >>= fun _ => setAddr i NDIRECT 0).run u₁ = _
  rw [StateT.run_bind, h₂]
  exact h₃

theorem itrunc_sim (h : Rep F r s) (ho : Open F.toSuperblock s i []) :
    Sim (Rep F) (itrunc F i) (Fs.itrunc F.toSuperblock i) r s := by
  -- what is left to do when no block is
  have hend : ∀ {r₁ : State N} {s₁ : Fs.State N}, Rep F r₁ s₁ → (s₁.icache i).inum < F.ninodes →
      Sim (Rep F) (do lift F (setCopy i fun d => { d with size := 0 }); iupdate F i)
        (do setCopy i fun d => { d with size := 0 }; Fs.iupdate i) r₁ s₁ := by
    intro r₁ s₁ h₁ hn
    have hsize : Tame F (setCopy i fun d => { d with size := 0 }) s₁ :=
      Tame.setCopy fun hf => ⟨hf.type, hf.major, hf.minor, hf.nlink, Nat.zero_lt_succ _, hf.addrs, hf.rest⟩
    refine Sim.bind (hsize.lift h₁) fun _ r₂ s₂ hrun h₂ => iupdate_sim h₂ ?_
    cases hrun
    simpa using hn
  refine Sim.bind ((Tame.forM fun k hk _ => truncDirect_tame (mem_range.1 hk)).lift h)
    fun _ r₁ s₁ hrun h₁ => ?_
  have hspec : wp (forM (List.range NDIRECT) (truncDirect F.toSuperblock i)) _ (fun _ => True) s :=
    truncDirect_all ho.shrinking
  obtain ⟨ht, -, hsame⟩ := wp_ok hspec hrun
  refine Sim.get ?_
  dsimp only
  rw [h₁.icache]
  split
  · rename_i hne
    have hind : ¬F.inodeBlock ((s₁.icache i).copy.addrs NDIRECT) := by
      rw [hsame] at hne ⊢
      exact not_inodeBlock_of_owned ho (indirect_mem_owned _ ho.type hne)
    refine Sim.bind ((Tame.forM fun j _ _ => truncEntry_tame hind j).lift h₁) fun _ r₂ s₂ h₂ hr₂ => ?_
    refine Sim.bind ((bfree_tame _).lift hr₂) fun _ r₃ s₃ h₃ hr₃ => ?_
    refine Sim.bind ((Tame.setAddr le_rfl (by decide)).lift hr₃) fun _ r₄ s₄ h₄ hr₄ => hend hr₄ ?_
    have hspec₂ := truncIndirect_spec (E := fun _ => True)
      (Q := fun _ u => (u.icache i).inum < F.ninodes) ht hne fun u hu _ _ => hu.shrinking.inum
    exact wp_ok (Q := fun _ u => (u.icache i).inum < F.ninodes) hspec₂
      (run_truncIndirect h₂ h₃ h₄)
  · exact hend h₁ ht.shrinking.inum

theorem acquiresleep_tame (locked : Option (Fin N)) : Tame F (acquiresleep locked i) s := by
  rw [acquiresleep]
  split
  · exact Tame.throw _
  · exact Tame.pure _

theorem run_acquiresleep {locked : Option (Fin N)} {t : Fs.State N}
    (h : (acquiresleep locked i).run s = .ok (⟨⟩, t)) : s = t := by
  rw [acquiresleep] at h
  split at h <;> cases h
  rfl

theorem iput_sim {locked : Option (Fin N)} (h : Rep F r s) (hs : Sound F.toSuperblock s)
    (hr : 0 < (s.icache i).ref) :
    Sim (Rep F) (iput F i locked) (Fs.iput F.toSuperblock i locked) r s := by
  refine Sim.bind ((acquiresleep_tame locked).lift h) fun _ r₀ s₀ hrun h => ?_
  obtain rfl := run_acquiresleep hrun
  refine Sim.get ?_
  dsimp only
  rw [h.icache]
  split
  · rename_i hfree
    have ho := hs.isOpen hr hfree.1
    refine Sim.bind (itrunc_sim h ho) fun _ r₁ s₁ hrun h₁ => ?_
    have hspec : wp (Fs.itrunc F.toSuperblock i) _ (fun _ => True) s := itrunc_spec ho
    have ht := wp_ok hspec hrun
    have hn : (s₁.icache i).inum < F.ninodes := by
      rw [ht.inode]
      exact ho.inum
    have htype : Tame F (setCopy i fun d => { d with type := 0 }) s₁ :=
      Tame.setCopy fun hf =>
        ⟨(by decide : IsShort 0), hf.major, hf.minor, hf.nlink, hf.size, hf.addrs, hf.rest⟩
    refine Sim.bind (htype.lift h₁) fun _ r₂ s₂ hrun₂ h₂ => ?_
    refine Sim.bind (iupdate_sim h₂ ?_) fun _ r₃ s₃ _ h₃ => ?_
    · cases hrun₂
      simpa using hn
    · refine Sim.bind ((Tame.setInode id).lift h₃) fun _ r₄ s₄ _ h₄ => ?_
      exact (Tame.setInode id).lift h₄
  · exact (Tame.setInode id).lift h

theorem writei_sim (h : Rep F r s) (ho : Open F.toSuperblock s i []) {src : List UInt8}
    {off n : UInt32} (hsrc : src.length = n.toNat) :
    Sim (Rep F) (writei F dev i src off n) (Fs.writei F.toSuperblock dev i src off n) r s := by
  refine Sim.get ?_
  dsimp only
  rw [h.icache]
  split
  · split
    · exact Sim.pure h
    · cases dev.write (s.icache i).copy.major with
      | _ => exact Sim.pure h
  · split
    · exact Sim.pure h
    · split
      · exact Sim.pure h
      · rename_i hoff hmax
        refine Sim.bind ((writeLoop_tame _ _ _ ho).lift h) fun _ r₁ s₁ hrun h₁ => ?_
        have hadd : (off + n).toNat = off.toNat + n.toNat := by
          rw [not_or, add_lt_self_iff] at hoff
          rw [UInt32.toNat_add]
          exact Nat.mod_eq_of_lt (by omega)
        have hspec : wp (writeLoop F.toSuperblock i n.toNat off.toNat src) _ (fun _ => True) s :=
          writeLoop_spec _ _ _ s ho hsrc.le (by omega) fun _ => trivial
        have hw := wp_ok hspec hrun
        have hn : (s₁.icache i).inum < F.ninodes := hw.inum ▸ hw.inum_lt
        split
        · have hsize : Tame F (setCopy i fun d => { d with size := (off + n).toNat }) s₁ :=
            Tame.setCopy fun hf => ⟨hf.type, hf.major, hf.minor, hf.nlink, (off + n).toNat_lt,
              hf.addrs, hf.rest⟩
          refine Sim.bind (hsize.lift h₁) fun _ r₂ s₂ hrun₂ h₂ => ?_
          refine Sim.bind (iupdate_sim h₂ ?_) fun _ r₃ s₃ _ h₃ => Sim.pure h₃
          cases hrun₂
          simpa using hn
        · exact Sim.pure h₁

theorem dirlink_sim (h : Rep F r s) (hs : Sound F.toSuperblock s) (hr : 0 < (s.icache i).ref)
    (hv : (s.icache i).valid = true) (name : List UInt8) (inum : ℕ) :
    Sim (Rep F) (dirlink F dev i name inum) (Fs.dirlink F.toSuperblock dev i name inum) r s := by
  have ho := hs.isOpen hr hv
  refine Sim.bind ((dirlookup_tame ho name).lift h) fun found r₁ s₁ hrun h₁ => ?_
  have hspec : wp (dirlookup F.toSuperblock dev i name) (fun r t => Sound F.toSuperblock t ∧
      (r = none → t = s) ∧ ∀ p, r = some p → 0 < (t.icache p.1).ref) (fun _ => True) s := by
    rw [dirlookup, wp_bind, wp_get, wp_ite]
    exact ⟨fun _ => trivial, fun _ => dirlookupFrom_spec hs ho trivial trivial _ 0⟩
  obtain ⟨hs₁, hnone, hsome⟩ := wp_ok hspec hrun
  cases found with
  | some p => exact Sim.bind (iput_sim h₁ hs₁ (hsome p rfl)) fun _ r₂ s₂ _ h₂ => Sim.pure h₂
  | none =>
    obtain rfl := hnone rfl
    refine Sim.get ?_
    rw [h₁.icache]
    refine Sim.bind ((emptyDirent_tame ho _ 0).lift h₁) fun off r₂ s₂ hrun₂ h₂ => ?_
    have hspec₂ : wp (emptyDirent F.toSuperblock dev i ((s₁.icache i).copy.size + 1) 0)
        (fun _ t => t = s₁) (fun _ => True) s₁ := emptyDirent_spec ho trivial _ 0
    obtain rfl := wp_ok (Q := fun _ t => t = s₁) hspec₂ hrun₂
    have hlen : (encodeDirent inum name).length = (UInt32.ofNat DIRENT).toNat := by
      rw [encodeDirent, length_cons, length_cons, length_strncpy]
      rfl
    refine Sim.bind (writei_sim h₂ ho hlen) fun n r₃ s₃ _ h₃ => ?_
    split
    · exact Sim.throw
    · exact Sim.pure h₃

theorem setAttr_sim (h : Rep F r s) (hn : (s.icache i).inum < F.ninodes) {major minor nlink : ℤ}
    (hmajor : IsShort major) (hminor : IsShort minor) (hnlink : IsShort nlink) :
    Sim (Rep F) (setAttr F i major minor nlink) (Fs.setAttr i major minor nlink) r s := by
  have hattr : Tame F (setCopy i fun d => { d with major, minor, nlink }) s :=
    Tame.setCopy fun hf => ⟨hf.type, hmajor, hminor, hnlink, hf.size, hf.addrs, hf.rest⟩
  refine Sim.bind (hattr.lift h) fun _ r₁ s₁ hrun h₁ => iupdate_sim h₁ ?_
  cases hrun
  simpa using hn

/-! ## All calls -/

theorem Sim.discard {R : State N → Fs.State N → Prop} {m' : Kernel N α} (h : Sim R m' m r s) :
    Sim R (discard m') (discard m) r s :=
  h.bind fun _ _ _ _ ht => Lib.Sim.pure ht

theorem run_sim (h : Rep F r s) (hs : Sound F.toSuperblock s) {c : Call N}
    (hc : c.Allowed F.toSuperblock s) (htyped : Typed c) :
    Sim (Rep F) (run F dev c) (c.run F.toSuperblock dev) r s := by
  cases c with
  | ialloc type => exact Sim.discard (ialloc_sim h htyped)
  | iget inum => exact Sim.discard ((iget_tame inum).lift h)
  | idup i =>
    have hdup : Tame F (idup i) s := Tame.setInode id
    exact hdup.lift h
  | ilock i => exact (ilock_tame hc).lift h
  | readi i off n => exact Sim.discard ((readi_tame (hs.isOpen hc.1 hc.2) off n).lift h)
  | writei i src off n => exact Sim.discard (writei_sim h (hs.isOpen hc.1.1 hc.1.2) hc.2)
  | dirlink i name inum => exact Sim.discard (dirlink_sim h hs hc.1 hc.2 name inum)
  | setAttr i major minor nlink =>
    exact setAttr_sim h (hs.isOpen hc.1 hc.2).inum htyped.1 htyped.2.1 htyped.2.2
  | itrunc i => exact itrunc_sim h (hs.isOpen hc.1 hc.2)
  | iput i => exact iput_sim h hs hc

end Xv6.Fs.Raw
