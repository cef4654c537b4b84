import Xv6.Log.Commit

/-!
# Crash atomicity of the redo log

What a disk *means* is the contents its home blocks will have once recovery has
run.  `Represents r d g` says that the disk `d` means `g`: either the log is
empty and the home blocks hold `g` already, or a whole transaction is committed
in the log and `g` is what the home blocks hold after installing it.

* `represents_recoverCut` — a recovery cut off anywhere does not change the
  meaning of the disk, and `clean_recoverFully` says that one which completes
  leaves an empty log and the home blocks holding their meaning.
* `represents_commit` — a commit cut off anywhere leaves a disk that means the
  old contents until the header reaches the disk, and the new contents after.
* `commit_crash_atomic` — the two together, for any number of interrupted
  recoveries.
-/

namespace Xv6.Log

open Xv6.Lib Function List Option

/-! ## The header block -/

theorem word_putEntries_of_le {j : ℕ} (hj : j < BSIZE / 4) : ∀ (ws : List UInt32) (i : ℕ) (b : Block),
    j ≤ i → (putEntries i ws b).word j = b.word j := by
  intro ws
  induction ws with
  | nil => intro i b _; rfl
  | cons w ws ih =>
    intro i b hji
    rw [putEntries, ih (i + 1) _ (by omega), Block.word_setWord_of_ne b hj (by omega)]

theorem word_putEntries : ∀ (ws : List UInt32) (i : ℕ) (b : Block) (j : ℕ) (hj : j < ws.length),
    i + ws.length < BSIZE / 4 → (putEntries i ws b).word (i + 1 + j) = ws[j] := by
  intro ws
  induction ws with
  | nil => intro i b j hj; exact absurd hj (Nat.not_lt_zero _)
  | cons w ws ih =>
    intro i b j hj hlen
    rw [length_cons] at hlen hj
    rw [putEntries]
    cases j with
    | zero =>
      rw [word_putEntries_of_le (by omega) ws (i + 1) _ (by omega), Nat.add_zero,
        Block.word_setWord_self b (by omega)]
      rfl
    | succ j =>
      have h := ih (i + 1) (b.setWord (i + 1) w) j (by omega) (by omega)
      rw [show i + 1 + (j + 1) = i + 1 + 1 + j by omega, h]
      rfl

theorem headN_encodeHead (h : LogHeader) (b : Block) : headN (encodeHead h b) = h.n := by
  have hle : h.n ≤ 30 := h.n_le
  rw [headN, encodeHead, word_putEntries_of_le (by decide) _ _ _ (Nat.le_refl 0),
    Block.word_setWord_self b (by decide), UInt32.toNat_ofNat']
  omega

theorem readHead_encodeHead (h : LogHeader) (b : Block) : readHead (encodeHead h b) = some h := by
  have hn := headN_encodeHead h b
  have hle : h.block.length ≤ LOGSIZE := h.n_le
  have hL : LOGSIZE = 30 := rfl
  have hB : BSIZE / 4 = 128 := rfl
  rw [readHead, dif_pos (by rw [hn]; exact hle)]
  congr 1
  ext1
  refine ext_getElem (by rw [length_map, length_range, hn]; rfl) ?_
  intro j hj hj'
  rw [getElem_map, getElem_range, encodeHead]
  have h1 := word_putEntries h.block 0 (b.setWord 0 (UInt32.ofNat h.n)) j hj' (by omega)
  rwa [show 0 + 1 + j = j + 1 by omega] at h1

/-! ## The writes of each loop -/

/-- The writes of `write_log`'s loop: the cached contents, into the log slots. -/
def slotWrites (start : ℕ) (cache : Disk) : ℕ → List UInt32 → List (ℕ × Block)
  | _, [] => []
  | tail, b :: bs => (start + tail + 1, cache b.toNat) :: slotWrites start cache (tail + 1) bs

theorem length_slotWrites (start : ℕ) (cache : Disk) : ∀ (bs : List UInt32) (tail : ℕ),
    (slotWrites start cache tail bs).length = bs.length := by
  intro bs
  induction bs with
  | nil => intro tail; rfl
  | cons b bs ih => intro tail; rw [slotWrites, length_cons, ih, length_cons]

theorem map_fst_slotWrites (start : ℕ) (cache : Disk) : ∀ (bs : List UInt32) (tail : ℕ),
    (slotWrites start cache tail bs).map Prod.fst = List.range' (start + tail + 1) bs.length := by
  intro bs
  induction bs with
  | nil => intro tail; rfl
  | cons b bs ih =>
    intro tail
    rw [slotWrites, map_cons, ih, length_cons, List.range'_succ]
    rfl

theorem mem_slotWrites {start : ℕ} {cache : Disk} : ∀ {bs : List UInt32} {tail : ℕ} {w : ℕ × Block},
    w ∈ slotWrites start cache tail bs →
      ∃ i, ∃ h : i < bs.length, w = (start + tail + 1 + i, cache bs[i].toNat) := by
  intro bs
  induction bs with
  | nil => intro tail w hw; exact absurd hw (by simp [slotWrites])
  | cons b bs ih =>
    intro tail w hw
    rw [slotWrites, mem_cons] at hw
    rcases hw with rfl | hw
    · exact ⟨0, by simp, rfl⟩
    · obtain ⟨i, hi, rfl⟩ := ih hw
      refine ⟨i + 1, by simpa using hi, ?_⟩
      rw [show start + (tail + 1) + 1 + i = start + tail + 1 + (i + 1) by omega]
      rfl

/-- The writes of `install_trans`'s loop when slot `i` holds `c b` for the
`i`th block `b`: these contents, to the home blocks. -/
def homeWrites (c : Disk) (bs : List UInt32) : List (ℕ × Block) :=
  bs.map fun b => (b.toNat, c b.toNat)

@[simp] theorem length_homeWrites (c : Disk) (bs : List UInt32) :
    (homeWrites c bs).length = bs.length := by
  rw [homeWrites, length_map]

variable {c g f : Disk} {h : LogHeader}

theorem mem_map_fst_homeWrites {bs : List UInt32} {x : ℕ} :
    x ∈ (homeWrites c bs).map Prod.fst ↔ ∃ b ∈ bs, b.toNat = x := by
  simp [homeWrites]

theorem writeLogFrom_spec {r : Region} : ∀ (bs : List UInt32) (tail : ℕ) (m : Mem),
    tail + bs.length < r.size → (∀ b ∈ bs, r.Outside b.toNat) →
    (writeLogFrom r.start tail bs m).writes
        = m.writes ++ slotWrites r.start m.bread tail bs ∧
      (writeLogFrom r.start tail bs m).lh = m.lh ∧
      (∀ x, x ≤ r.start + tail → (writeLogFrom r.start tail bs m).bread x = m.bread x) ∧
      (∀ i (h : i < bs.length), (writeLogFrom r.start tail bs m).bread (r.start + tail + 1 + i)
        = m.bread bs[i].toNat) := by
  intro bs
  induction bs with
  | nil =>
    intro tail m _ _
    refine ⟨by simp [writeLogFrom, slotWrites], rfl, fun x _ => rfl, ?_⟩
    intro i h
    exact absurd h (Nat.not_lt_zero _)
  | cons b bs ih =>
    intro tail m hlen hout
    rw [length_cons] at hlen
    set m' := bwrite (r.start + tail + 1) (copyBuf (r.start + tail + 1) b.toNat m) with hm'
    obtain ⟨hw, hlh, hlow, hslot⟩ := ih (tail + 1) m' (by omega)
      (fun c hc => hout c (mem_cons_of_mem _ hc))
    -- the copy into a log slot leaves every block outside the log alone
    have hkeep : ∀ c ∈ bs, m'.bread c.toNat = m.bread c.toNat := by
      intro c hc
      have hc' := hout c (mem_cons_of_mem _ hc)
      refine update_of_ne ?_ _ _
      rcases hc' with h | h <;> omega
    have hself : m'.bread (r.start + tail + 1) = m.bread b.toNat := update_self ..
    have hcongr : ∀ (cs : List UInt32) (t : ℕ), (∀ c ∈ cs, c ∈ bs) →
        slotWrites r.start m'.bread t cs = slotWrites r.start m.bread t cs := by
      intro cs
      induction cs with
      | nil => intro t _; rfl
      | cons c cs ihc =>
        intro t hcs
        rw [slotWrites, slotWrites, hkeep c (hcs c (mem_cons_self ..)),
          ihc (t + 1) fun e he => hcs e (mem_cons_of_mem _ he)]
    refine ⟨?_, hlh, ?_, ?_⟩
    · rw [writeLogFrom, hw, hcongr bs _ fun c hc => hc, slotWrites]
      show (m.writes ++ [(r.start + tail + 1, m'.bread (r.start + tail + 1))]) ++ _ = _
      rw [hself, append_assoc]
      rfl
    · intro x hx
      rw [writeLogFrom, hlow x (by omega)]
      exact update_of_ne (by omega) _ _
    · intro i hi
      rw [writeLogFrom]
      cases i with
      | zero => rw [Nat.add_zero, hlow _ (by omega), hself]; rfl
      | succ i =>
        rw [length_cons] at hi
        have h := hslot i (by omega)
        rw [show r.start + tail + 1 + (i + 1) = r.start + (tail + 1) + 1 + i by omega, h,
          hkeep _ (getElem_mem _)]
        rfl

theorem installFrom_spec {r : Region} : ∀ (bs : List UInt32) (tail : ℕ) (m : Mem),
    tail + bs.length < r.size → (∀ b ∈ bs, r.Outside b.toNat) →
    (∀ i (h : i < bs.length), m.bread (r.start + tail + 1 + i) = c bs[i].toNat) →
    (installFrom r.start tail bs m).writes = m.writes ++ homeWrites c bs ∧
      (installFrom r.start tail bs m).lh = m.lh := by
  intro bs
  induction bs with
  | nil => intro tail m _ _ _; exact ⟨by simp [installFrom, homeWrites], rfl⟩
  | cons b bs ih =>
    intro tail m hlen hout hslot
    rw [length_cons] at hlen
    have hb := hout b (mem_cons_self ..)
    have h0 : m.bread (r.start + tail + 1) = c b.toNat := hslot 0 (by simp)
    have hrest : ∀ i (h : i < bs.length), (bwrite b.toNat
        (copyBuf b.toNat (r.start + tail + 1) m)).bread (r.start + (tail + 1) + 1 + i)
        = c bs[i].toNat := by
      intro i hi
      have h := hslot (i + 1) (by rw [length_cons]; omega)
      rw [show r.start + (tail + 1) + 1 + i = r.start + tail + 1 + (i + 1) by omega]
      refine (update_of_ne ?_ _ _).trans h
      rcases hb with hb | hb <;> omega
    obtain ⟨hw, hlh⟩ := ih (tail + 1) _ (by omega)
      (fun x hx => hout x (mem_cons_of_mem _ hx)) hrest
    refine ⟨?_, hlh⟩
    rw [installFrom, hw]
    show (m.writes ++ [(b.toNat, update m.bread b.toNat _ b.toNat)]) ++ _ = _
    rw [update_self, h0, append_assoc]
    rfl

theorem writes_writeHead (r : Region) (m : Mem) :
    (writeHead r m).writes = m.writes ++ [(r.start, encodeHead m.lh (m.bread r.start))] := by
  simp [writeHead, bwrite]

theorem commitWrites_eq {r : Region} {lh : LogHeader} (cache : Disk) (hpos : 0 < lh.n)
    (hn : lh.n < r.size) (hout : ∀ b ∈ lh.block, r.Outside b.toNat) :
    ∃ B, commitWrites r cache lh = slotWrites r.start cache 0 lh.block ++
      (r.start, encodeHead lh (cache r.start)) ::
        (homeWrites cache lh.block ++ [(r.start, encodeHead .empty B)]) := by
  set m : Mem := { bread := cache, lh := lh, writes := [] } with hm
  have hlen : 0 + lh.block.length < r.size := by rw [Nat.zero_add]; exact hn
  obtain ⟨hw, hlh, hlow, hslot⟩ := writeLogFrom_spec lh.block 0 m hlen hout
  have hslot' : ∀ i (h : i < lh.block.length),
      (writeHead r (writeLog r m)).bread (r.start + 0 + 1 + i) = cache lh.block[i].toNat := by
    intro i hi
    exact (update_of_ne (by omega) _ _).trans (hslot i hi)
  have hlh' : (writeHead r (writeLog r m)).lh = lh := hlh
  obtain ⟨hw2, -⟩ := installFrom_spec lh.block 0 (writeHead r (writeLog r m)) hlen hout hslot'
  have hw1 : (writeHead r (writeLog r m)).writes
      = slotWrites r.start cache 0 lh.block ++ [(r.start, encodeHead lh (cache r.start))] := by
    rw [writes_writeHead, show (writeLog r m).writes = slotWrites r.start cache 0 lh.block from hw,
      show (writeLog r m).lh = lh from hlh,
      show (writeLog r m).bread r.start = cache r.start from hlow _ (by omega)]
  refine ⟨(clearHead (installTrans r (writeHead r (writeLog r m)))).bread r.start, ?_⟩
  rw [commitWrites, ← hm, commit, if_pos hpos, writes_writeHead]
  show (installTrans r (writeHead r (writeLog r m))).writes ++ _ = _
  rw [installTrans, hlh', hw2, hw1, append_assoc, append_assoc]
  rfl

theorem recoverWrites_eq {r : Region} {d : Disk} (hhead : readHead (d r.start) = some h)
    (hn : h.n < r.size) (hout : ∀ b ∈ h.block, r.Outside b.toNat)
    (hslot : ∀ i (hi : i < h.block.length), d (r.start + 1 + i) = c h.block[i].toNat) :
    ∃ B, recoverWrites r d = some (homeWrites c h.block ++ [(r.start, encodeHead .empty B)]) := by
  set m : Mem := { bread := d, lh := h, writes := [] } with hm
  have hlen : 0 + h.block.length < r.size := by rw [Nat.zero_add]; exact hn
  obtain ⟨hw, -⟩ := installFrom_spec h.block 0 m hlen hout hslot
  refine ⟨(clearHead (installTrans r m)).bread r.start, ?_⟩
  rw [recoverWrites, recoverFromLog, hhead, map_some, map_some, writes_writeHead]
  congr 1
  show (installTrans r m).writes ++ _ = _
  rw [installTrans, show m.lh.block = h.block from rfl, hw]
  rfl

/-! ## What a disk means -/

/-- The log is empty and the home blocks hold `g`. -/
structure Clean (r : Region) (d g : Disk) : Prop where
  head : headN (d r.start) = 0
  home : ∀ b, r.Outside b → d b = g b

/-- `f` with the contents `c` in the blocks that the header lists. -/
def overlay (h : LogHeader) (c f : Disk) : Disk := fun b =>
  if b ∈ h.block.map UInt32.toNat then c b else f b

/-- A whole transaction, possibly of no blocks, is committed in the log: the
header lists the blocks, the slots hold their contents `c`, the blocks not
listed hold `f`. -/
structure Committed (r : Region) (d : Disk) (h : LogHeader) (c f : Disk) : Prop where
  head : readHead (d r.start) = some h
  room : h.n < r.size
  outside : ∀ b ∈ h.block, r.Outside b.toNat
  slot : ∀ i (hi : i < h.block.length), d (r.start + 1 + i) = c h.block[i].toNat
  home : ∀ b, r.Outside b → b ∉ h.block.map UInt32.toNat → d b = f b

/-- **The meaning of a disk.**  `g` is what the home blocks hold once the
transaction in the log has been installed. -/
def Represents (r : Region) (d g : Disk) : Prop :=
  ∃ h c f, Committed r d h c f ∧ ∀ b, r.Outside b → overlay h c f b = g b

theorem Region.start_not_outside (r : Region) : ¬ r.Outside r.start := by
  have h := r.size_pos
  rintro (h' | h') <;> omega

theorem Region.Outside.ne_start {r : Region} {b : ℕ} (h : r.Outside b) : b ≠ r.start := by
  rintro rfl
  exact r.start_not_outside h

theorem readHead_of_headN_zero {b : Block} (h : headN b = 0) : readHead b = some .empty := by
  rw [readHead, dif_pos (by rw [h]; exact Nat.zero_le _)]
  congr 1
  ext1
  simp [h, LogHeader.empty]

theorem Clean.represents {r : Region} {d : Disk} (hclean : Clean r d g) : Represents r d g := by
  refine ⟨.empty, d, g, ⟨readHead_of_headN_zero hclean.head, r.size_pos, ?_, ?_, ?_⟩, ?_⟩
  · intro b hb
    exact absurd hb not_mem_nil
  · intro i hi
    exact absurd hi (Nat.not_lt_zero _)
  · intro b hb _
    exact hclean.home b hb
  · intro b _
    simp [overlay, LogHeader.empty]

theorem Clean.update_head {r : Region} {d : Disk} (hhome : ∀ b, r.Outside b → d b = g b) (B : Block) :
    Clean r (update d r.start (encodeHead .empty B)) g := by
  refine ⟨by rw [update_self, headN_encodeHead]; rfl, ?_⟩
  intro b hb
  rw [update_of_ne hb.ne_start, hhome b hb]

theorem Committed.take_homeWrites {r : Region} {d : Disk} (hc : Committed r d h c f) (k : ℕ) :
    Committed r (applyWrites ((homeWrites c h.block).take k) d) h c f := by
  have hkeep : ∀ x, (∀ b ∈ h.block, b.toNat ≠ x) →
      applyWrites ((homeWrites c h.block).take k) d x = d x := by
    intro x hx
    refine applyWrites_of_notMem (notMem_take_fst ?_ k) d
    rw [mem_map_fst_homeWrites]
    rintro ⟨b, hb, hbx⟩
    exact hx b hb hbx
  refine ⟨?_, hc.room, hc.outside, ?_, ?_⟩
  · rw [hkeep r.start fun b hb => (hc.outside b hb).ne_start]
    exact hc.head
  · intro i hi
    rw [hkeep, hc.slot i hi]
    intro b hb heq
    have hroom : h.block.length < r.size := hc.room
    rcases hc.outside b hb with h' | h' <;> omega
  · intro b hb hnot
    rw [hkeep, hc.home b hb hnot]
    intro b' hb' heq
    exact hnot (mem_map.2 ⟨b', hb', heq⟩)

theorem Committed.home_homeWrites {r : Region} {d : Disk} (hc : Committed r d h c f) :
    ∀ b, r.Outside b → applyWrites (homeWrites c h.block) d b = overlay h c f b := by
  intro b hb
  by_cases hmem : b ∈ h.block.map UInt32.toNat
  · rw [overlay, if_pos hmem]
    refine applyWrites_of_forall ?_ d (Or.inl ?_)
    · intro w hw hwb
      obtain ⟨x, -, rfl⟩ := mem_map.1 hw
      exact congrArg c hwb
    · rw [mem_map_fst_homeWrites]
      exact mem_map.1 hmem
  · rw [overlay, if_neg hmem, applyWrites_of_notMem, hc.home b hb hmem]
    rw [mem_map_fst_homeWrites]
    exact fun hx => hmem (mem_map.2 hx)

theorem Committed.install_cut {r : Region} {d : Disk} (hc : Committed r d h c f)
    (hg : ∀ b, r.Outside b → overlay h c f b = g b) (B : Block) (k : ℕ) :
    Represents r (applyWrites
      ((homeWrites c h.block ++ [(r.start, encodeHead .empty B)]).take k) d) g := by
  by_cases hk : k ≤ h.block.length
  · rw [take_append_of_le_length (by rw [length_homeWrites]; exact hk)]
    exact ⟨h, c, f, hc.take_homeWrites k, hg⟩
  · rw [take_of_length_le (by simp; omega), applyWrites_append]
    refine (Clean.update_head ?_ B).represents
    intro b hb
    rw [hc.home_homeWrites b hb, hg b hb]

/-! ## Recovery -/

theorem clean_recoverFully {r : Region} {d : Disk} (hd : Represents r d g) :
    ∃ d', recoverFully r d = some d' ∧ Clean r d' g := by
  obtain ⟨h, c, f, hc, hg⟩ := hd
  obtain ⟨B, hw⟩ := recoverWrites_eq hc.head hc.room hc.outside hc.slot
  refine ⟨_, by rw [recoverFully, hw, map_some], ?_⟩
  rw [applyWrites_append]
  refine Clean.update_head ?_ B
  intro b hb
  rw [hc.home_homeWrites b hb, hg b hb]

theorem represents_recoverCut {r : Region} {d : Disk} (hd : Represents r d g) (k : ℕ) :
    ∃ d', recoverCut r d k = some d' ∧ Represents r d' g := by
  obtain ⟨h, c, f, hc, hg⟩ := hd
  obtain ⟨B, hw⟩ := recoverWrites_eq hc.head hc.room hc.outside hc.slot
  exact ⟨_, by rw [recoverCut, hw, map_some], hc.install_cut hg B k⟩

theorem clean_recoverRestarting {r : Region} : ∀ (ks : List ℕ) (d : Disk),
    Represents r d g → ∃ d', recoverRestarting r d ks = some d' ∧ Clean r d' g := by
  intro ks
  induction ks with
  | nil => intro d hd; exact clean_recoverFully hd
  | cons k ks ih =>
    intro d hd
    obtain ⟨d₁, hcut, hd₁⟩ := represents_recoverCut hd k
    obtain ⟨d', hd', hclean⟩ := ih d₁ hd₁
    refine ⟨d', ?_, hclean⟩
    rw [recoverRestarting, foldlM_cons, hcut]
    exact hd'

/-! ## Commit -/

/-- The `write_head` with `n > 0` is among the first `k` writes of a commit. -/
def HeadReached (r : Region) (cache : Disk) (lh : LogHeader) (k : ℕ) : Prop :=
  ∃ w ∈ (commitWrites r cache lh).take k, w.1 = r.start ∧ 0 < headN w.2

section

variable {r : Region} {d cache : Disk} {lh : LogHeader}

theorem commit_before_head (hclean : headN (d r.start) = 0) (hn : lh.n < r.size) (k : ℕ) :
    Clean r (applyWrites ((slotWrites r.start cache 0 lh.block).take k) d) d := by
  have hkeep : ∀ x, x ≤ r.start ∨ r.start + r.size ≤ x →
      applyWrites ((slotWrites r.start cache 0 lh.block).take k) d x = d x := by
    intro x hx
    refine applyWrites_of_notMem (notMem_take_fst ?_ k) d
    rw [map_fst_slotWrites, mem_range'_1]
    have hn' : lh.block.length < r.size := hn
    omega
  refine ⟨by rw [hkeep _ (Or.inl (Nat.le_refl _))]; exact hclean, ?_⟩
  intro b hb
  refine hkeep b ?_
  rcases hb with h | h
  · exact .inl h.le
  · exact .inr h

theorem commit_at_head (hn : lh.n < r.size) (hout : ∀ b ∈ lh.block, r.Outside b.toNat) (B : Block) :
    Committed r (update (applyWrites (slotWrites r.start cache 0 lh.block) d) r.start
      (encodeHead lh B)) lh cache d := by
  have hn' : lh.block.length < r.size := hn
  refine ⟨by rw [update_self, readHead_encodeHead], hn, hout, ?_, ?_⟩
  · intro i hi
    rw [update_of_ne (by omega)]
    refine applyWrites_of_forall ?_ d (Or.inl ?_)
    · intro w hw hwi
      obtain ⟨j, hj, rfl⟩ := mem_slotWrites hw
      have hij : j = i := by simp only at hwi; omega
      subst hij
      rfl
    · rw [map_fst_slotWrites, mem_range'_1]
      omega
  · intro b hb _
    rw [update_of_ne hb.ne_start, applyWrites_of_notMem]
    rw [map_fst_slotWrites, mem_range'_1]
    rcases hb with h | h <;> omega

theorem headReached_iff (hn : lh.n < r.size) (hout : ∀ b ∈ lh.block, r.Outside b.toNat) (k : ℕ) :
    HeadReached r cache lh k ↔ 0 < lh.n ∧ lh.n < k := by
  have hn' : lh.block.length < r.size := hn
  by_cases hpos : 0 < lh.n
  · obtain ⟨B, hB⟩ := commitWrites_eq cache hpos hn hout
    have hlen : (slotWrites r.start cache 0 lh.block).length = lh.n := length_slotWrites ..
    rw [HeadReached, hB]
    constructor
    · rintro ⟨w, hw, hws, -⟩
      refine ⟨hpos, ?_⟩
      by_contra hk
      rw [take_append_of_le_length (by omega)] at hw
      -- a cut inside `write_log` has not written the header block
      obtain ⟨j, hj, rfl⟩ := mem_slotWrites (mem_of_mem_take hw)
      simp only at hws
      omega
    · rintro ⟨-, hk⟩
      refine ⟨(r.start, encodeHead lh (cache r.start)), ?_, rfl, by rw [headN_encodeHead]; exact hpos⟩
      rw [take_append, mem_append]
      right
      rw [hlen]
      obtain ⟨j, hj⟩ : ∃ j, k - lh.n = j + 1 := ⟨k - lh.n - 1, by omega⟩
      rw [hj, take_succ_cons]
      exact mem_cons_self ..
  · have hnil : commitWrites r cache lh = [] := by rw [commitWrites, commit, if_neg hpos]
    simp [HeadReached, hnil, hpos]

theorem represents_commit (hclean : headN (d r.start) = 0) (hn : lh.n < r.size)
    (hout : ∀ b ∈ lh.block, r.Outside b.toNat) (k : ℕ) :
    Represents r (applyWrites ((commitWrites r cache lh).take k) d)
      (if 0 < lh.n ∧ lh.n < k then overlay lh cache d else d) := by
  by_cases hpos : 0 < lh.n
  · obtain ⟨B, hB⟩ := commitWrites_eq cache hpos hn hout
    have hlen : (slotWrites r.start cache 0 lh.block).length = lh.n := length_slotWrites ..
    rw [hB]
    by_cases hk : lh.n < k
    · rw [if_pos ⟨hpos, hk⟩]
      obtain ⟨j, rfl⟩ : ∃ j, k = lh.n + (j + 1) := ⟨k - lh.n - 1, by omega⟩
      rw [← hlen, take_length_add_append, take_succ_cons, applyWrites_append,
        applyWrites_cons]
      exact (commit_at_head hn hout _).install_cut (fun b _ => rfl) B j
    · rw [if_neg fun h => hk h.2, take_append_of_le_length (by omega)]
      exact (commit_before_head hclean hn k).represents
  · rw [if_neg fun h => hpos h.1, commitWrites, commit, if_neg hpos]
    exact Clean.represents ⟨by simpa using hclean, fun b _ => by simp⟩

variable (r d cache lh)

/-- **Crash atomicity.**  Cut a commit off after any number of its block
writes, then recover, cutting recovery off any number of times before one run
of it completes.  The header ends with `n = 0`, the blocks not logged are
unchanged, and the logged blocks all hold their new contents if the header with
`n > 0` reached the disk and all their old contents if it did not. -/
theorem commit_crash_atomic (hclean : headN (d r.start) = 0) (hn : lh.n ≤ r.size - 1)
    (hout : ∀ b ∈ lh.block, r.Outside b.toNat) (k : ℕ) (ks : List ℕ) :
    ∃ d', recoverRestarting r (applyWrites ((commitWrites r cache lh).take k) d) ks = some d' ∧
      headN (d' r.start) = 0 ∧
      (∀ b, r.Outside b → b ∉ lh.block.map UInt32.toNat → d' b = d b) ∧
      (HeadReached r cache lh k → ∀ b ∈ lh.block, d' b.toNat = cache b.toNat) ∧
      (¬ HeadReached r cache lh k → ∀ b ∈ lh.block, d' b.toNat = d b.toNat) := by
  have hsize := r.size_pos
  have hn' : lh.n < r.size := by omega
  obtain ⟨d', hd', hfin⟩ := clean_recoverRestarting ks _ (represents_commit hclean hn' hout k)
  refine ⟨d', hd', hfin.head, ?_, ?_, ?_⟩
  · intro b hb hnot
    rw [hfin.home b hb]
    split
    · rw [overlay, if_neg hnot]
    · rfl
  · intro hreach b hb
    rw [hfin.home _ (hout b hb), if_pos ((headReached_iff hn' hout k).1 hreach), overlay,
      if_pos (mem_map_of_mem hb)]
  · intro hreach b hb
    rw [hfin.home _ (hout b hb), if_neg fun h => hreach ((headReached_iff hn' hout k).2 h)]

end

/-- Blocks 45 and 60 of an empty file system are committed; the machine stops
after the header and one home block have been written, and recovery is cut off
twice.  Both blocks end with their new contents. -/
theorem commit_crash_atomic_two_blocks :
    ∃ d', recoverRestarting ⟨2, 30, by decide⟩
        (applyWrites ((commitWrites ⟨2, 30, by decide⟩ (fun _ _ => 1) ⟨[45, 60], by decide⟩).take 4)
          fun _ => Block.zeroes) [1, 0] = some d' ∧
      headN (d' 2) = 0 ∧ d' 45 = (fun _ => 1) ∧ d' 60 = (fun _ => 1) := by
  have hout : ∀ b ∈ (⟨[45, 60], by decide⟩ : LogHeader).block,
      (⟨2, 30, by decide⟩ : Region).Outside b.toNat := by simp [Region.Outside]
  obtain ⟨d', hd', hhead, -, hnew, -⟩ := commit_crash_atomic ⟨2, 30, by decide⟩
    (fun _ => Block.zeroes) (fun _ _ => 1) ⟨[45, 60], by decide⟩ (by decide) (by decide) hout 4 [1, 0]
  have hreach := hnew ((headReached_iff (by decide) hout 4).2 (by decide))
  have h45 := hreach 45 (by simp)
  have h60 := hreach 60 (by simp)
  exact ⟨d', hd', hhead, by simpa using h45, by simpa using h60⟩

end Xv6.Log
