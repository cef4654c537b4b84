import Xv6.Fs.Content

/-!
# What the calls of `fs.c` keep

`itrunc` gives all the blocks of a file back, `iput` frees an inode with it,
and `ialloc`, `iget`, `ilock` and `dirlink` work on the inode table.  Each of
them keeps the invariant `Sound`, and `bfree` never finds the block it is given
free.
-/

namespace Xv6.Fs

open Xv6.Lib Function List

variable {N : ℕ} {sb : Superblock} {disk disk' : ℕ → Block} {s t u : State N} {i j : Fin N}
  {tbl tbl' : ℕ → Dinode} {extra : List ℕ} {d : Dinode} {b k n m off : ℕ} {src : List UInt8}
  {E : Panic → Prop}

/-! ## `itrunc` -/

/-- **While a file is truncated**, it need not have the blocks below its size. -/
structure Shrinking (sb : Superblock) (s : State N) (i : Fin N) : Prop extends InUse sb s i where
  exact : Exact sb s.disk (view s i) []
  full : ∀ n, n < sb.ninodes → n ≠ (s.icache i).inum → (s.dinode n).type ≠ 0 →
    (s.dinode n).Full s.disk

theorem Open.shrinking (h : Open sb s i []) : Shrinking sb s i := by
  refine ⟨h.toInUse, h.exact, ?_⟩
  intro n hn hne ht
  have := h.full n hn (by rw [view_of_ne hne]; exact ht)
  rwa [view_of_ne hne] at this

theorem Shrinking.isOpen (h : Shrinking sb s i) (hsize : (s.icache i).copy.size = 0) :
    Open sb s i [] := by
  refine ⟨h.toInUse, h.exact, ?_⟩
  intro n hn ht
  by_cases hne : n = (s.icache i).inum
  · subst hne
    intro k hk
    rw [view_self] at hk
    omega
  · rw [view_of_ne hne] at ht ⊢
    exact h.full n hn hne ht

theorem recordAddr_self (s : State N) (i : Fin N) (disk' : ℕ → Block) (k b : ℕ) :
    (s.recordAddr i disk' k b).icache i =
      { s.icache i with copy := (s.icache i).copy.setAddr k b } := by
  simp [State.recordAddr]

theorem recordAddr_of_ne (s : State N) (disk' : ℕ → Block) (k b : ℕ) (h : j ≠ i) :
    (s.recordAddr i disk' k b).icache j = s.icache j := by
  simp [State.recordAddr, h]

theorem Shrinking.recordAddr (h : Shrinking sb s i) (b : ℕ)
    (hsame : ∀ c, sb.nmeta ≤ c → disk' c = s.disk c)
    (hexact : Exact sb disk'
      (update (view s i) (s.icache i).inum ((s.icache i).copy.setAddr k b)) []) :
    Shrinking sb (s.recordAddr i disk' k b) i := by
  have hself := recordAddr_self s i disk' k b
  refine ⟨h.toInUse.congr hself h.type (fun j hj => recordAddr_of_ne s disk' k b hj) rfl, ?_, ?_⟩
  · rw [view_recordAddr]
    exact hexact
  · intro n hn hne ht l hl
    rw [hself] at hne
    have hfull := h.full n hn hne ht l hl
    have hb : (s.dinode n).blockAt disk' l = (s.dinode n).blockAt s.disk l := by
      refine blockAt_congr fun ha => hsame _ (h.exact.used_of_mem ?_).2
      refine mem_append_right _ (mem_owned hn ?_)
      rw [view_of_ne hne]
      exact indirect_mem_owned _ ht ha
    exact fun h0 => hfull (hb.symm.trans h0)

/-- What `itrunc` has done so far to the inode. -/
structure Truncating (sb : Superblock) (s : State N) (i : Fin N) (t : State N) : Prop where
  shrinking : Shrinking sb t i
  copy : ∃ f, t.icache i = { s.icache i with copy := { (s.icache i).copy with addrs := f } }
  others : ∀ j, j ≠ i → t.icache j = s.icache j
  dinode : t.dinode = s.dinode

theorem owned_clear_direct (ht : d.type ≠ 0) (hk : k < NDIRECT) (hne : d.addrs k ≠ 0) :
    (d.addrs k :: (d.setAddr k 0).owned disk).Perm (d.owned disk) := by
  have hind : (d.setAddr k 0).addrs NDIRECT = d.addrs NDIRECT :=
    update_of_ne (Nat.ne_of_gt hk) _ _
  rw [Dinode.owned, if_neg (show (d.setAddr k 0).type ≠ 0 from ht), Dinode.owned, if_neg ht,
    Dinode.refs, hind, Dinode.refs, ← cons_append]
  exact ((entries_clear hk hne).symm).append_right _

theorem owned_clear_indirect (ht : d.type ≠ 0) (hne : d.addrs NDIRECT ≠ 0) :
    (d.addrs NDIRECT :: entries NINDIRECT (indirect disk (d.addrs NDIRECT)) ++
      (d.setAddr NDIRECT 0).owned disk).Perm (d.owned disk) := by
  have hdir : entries NDIRECT (d.setAddr NDIRECT 0).addrs = entries NDIRECT d.addrs :=
    entries_congr fun k hk => update_of_ne (Nat.ne_of_lt hk) _ _
  have hind : (d.setAddr NDIRECT 0).addrs NDIRECT = 0 := by simp [Dinode.setAddr]
  rw [Dinode.owned, if_neg (show (d.setAddr NDIRECT 0).type ≠ 0 from ht), Dinode.owned, if_neg ht,
    Dinode.refs, hdir, hind, if_pos rfl, append_nil, Dinode.refs, if_neg hne]
  exact perm_append_comm

theorem truncDirect_spec (h : Shrinking sb s i) (hk : k < NDIRECT) :
    wp (truncDirect sb i k) (fun _ t => Truncating sb s i t ∧
      ∀ l, (t.icache i).copy.addrs l = if l = k then 0 else (s.icache i).copy.addrs l) E s := by
  rw [truncDirect, wp_bind, wp_get, wp_ite]
  refine ⟨fun hne => ?_, fun h0 => ?_⟩
  · have hexact : Exact sb s.disk (update (view s i) (s.icache i).inum
        ((s.icache i).copy.setAddr k 0)) [(s.icache i).copy.addrs k] := by
      refine h.exact.update h.inum (fun _ _ => rfl) ?_ ?_
      · intro m _ hm
        rw [update_of_ne hm]
      · rw [update_self, view_self]
        exact owned_clear_direct h.type hk hne
    have hmem : (s.icache i).copy.addrs k ∈ [(s.icache i).copy.addrs k] ++ owned sb s.disk
        (update (view s i) (s.icache i).inum ((s.icache i).copy.setAddr k 0)) :=
      mem_append_left _ mem_cons_self
    rw [wp_bind]
    refine wp_post (bfree_spec (hexact.inside _ hmem) (hexact.used_of_mem hmem).1) ?_
    rintro - t ⟨disk', rfl, hf⟩
    rw [wp_setAddr]
    have hself := recordAddr_self s i disk' k 0
    refine ⟨⟨h.recordAddr 0 hf.same (hexact.free hf), ⟨_, hself⟩,
      fun j hj => recordAddr_of_ne s disk' k 0 hj, rfl⟩, ?_⟩
    intro l
    rw [hself]
    by_cases hl : l = k
    · simp [hl, Dinode.setAddr]
    · simp [hl, Dinode.setAddr]
  · rw [wp_pure]
    rw [ne_eq, not_not] at h0
    refine ⟨⟨h, ⟨_, rfl⟩, fun _ _ => rfl, rfl⟩, ?_⟩
    intro l
    split
    · rename_i hl
      rw [hl, h0]
    · rfl

theorem Truncating.trans (h : Truncating sb s i u) (h' : Truncating sb u i t) :
    Truncating sb s i t := by
  obtain ⟨f, hf⟩ := h.copy
  obtain ⟨g, hg⟩ := h'.copy
  exact ⟨h'.shrinking, ⟨g, by rw [hg, hf]⟩, fun j hj => (h'.others j hj).trans (h.others j hj),
    h'.dinode.trans h.dinode⟩

theorem truncDirect_all (h : Shrinking sb s i) :
    wp (forM (List.range NDIRECT) (truncDirect sb i)) (fun _ t => Truncating sb s i t ∧
      (∀ l, l < NDIRECT → (t.icache i).copy.addrs l = 0) ∧
      (t.icache i).copy.addrs NDIRECT = (s.icache i).copy.addrs NDIRECT) E s := by
  let I : List ℕ → State N → Prop := fun rest t =>
    (∀ k ∈ rest, k < NDIRECT) ∧ Truncating sb s i t ∧
      (∀ l, l < NDIRECT → l ∉ rest → (t.icache i).copy.addrs l = 0) ∧
      (t.icache i).copy.addrs NDIRECT = (s.icache i).copy.addrs NDIRECT
  have hstep : ∀ k rest t, I (k :: rest) t →
      wp (truncDirect sb i k) (fun _ u => I rest u) E t := by
    rintro k rest t ⟨hlt, ht, hzero, hind⟩
    have hk := hlt k mem_cons_self
    refine wp_post (truncDirect_spec ht.shrinking hk) ?_
    rintro - u ⟨hu, haddrs⟩
    refine ⟨fun l hl => hlt l (mem_cons_of_mem _ hl), ht.trans hu, ?_, ?_⟩
    · intro l hl hnot
      rw [haddrs]
      split
      · rfl
      · rename_i hlk
        exact hzero l hl (by simp [hlk, hnot])
    · rw [haddrs, if_neg (Nat.ne_of_gt hk), hind]
  have hinit : I (List.range NDIRECT) s :=
    ⟨fun k hk => mem_range.1 hk, ⟨h, ⟨_, rfl⟩, fun _ _ => rfl, rfl⟩,
      fun l hl hnot => absurd (mem_range.2 hl) hnot, rfl⟩
  refine wp_post (wp_forM hstep _ s hinit) ?_
  rintro - t ⟨-, ht, hzero, hind⟩
  exact ⟨ht, fun l hl => hzero l hl not_mem_nil, hind⟩

theorem truncEntry_all {ind : ℕ} (hdata : sb.nmeta ≤ ind)
    (h : Exact sb s.disk tbl (ind :: entries NINDIRECT (indirect s.disk ind))) :
    wp (forM (List.range NINDIRECT) (truncEntry sb ind)) (fun _ t => ∃ disk',
      t = { s with disk := disk' } ∧ (∀ c, sb.nmeta ≤ c → disk' c = s.disk c) ∧
      Exact sb disk' tbl [ind]) E s := by
  -- the extra blocks are those the loop has still to come to
  let I : List ℕ → State N → Prop := fun rest t => ∃ disk', t = { s with disk := disk' } ∧
    (∀ c, sb.nmeta ≤ c → disk' c = s.disk c) ∧
    Exact sb disk' tbl (ind :: (rest.map (indirect s.disk ind)).filter (· ≠ 0))
  have hstep : ∀ j rest t, I (j :: rest) t →
      wp (truncEntry sb ind j) (fun _ u => I rest u) E t := by
    rintro j rest t ⟨disk', rfl, hsame, hexact⟩
    rw [truncEntry, wp_bind, wp_get]
    change wp (if indirect disk' ind j ≠ 0 then _ else _) _ _ _
    have hword : indirect disk' ind j = indirect s.disk ind j := by
      rw [indirect, hsame ind hdata, indirect]
    rw [map_cons] at hexact
    rw [wp_ite]
    refine ⟨fun hne => ?_, fun h0 => ?_⟩
    · rw [hword] at hne
      rw [filter_cons_of_pos (by simpa using hne)] at hexact
      have hswap : Exact sb disk' tbl (indirect s.disk ind j :: ind ::
          (rest.map (indirect s.disk ind)).filter (· ≠ 0)) :=
        hexact.perm (fun _ _ => rfl) (List.Perm.swap ..)
      have hmem : indirect s.disk ind j ∈ (indirect s.disk ind j :: ind ::
          (rest.map (indirect s.disk ind)).filter (· ≠ 0)) ++ owned sb disk' tbl :=
        mem_append_left _ mem_cons_self
      change wp (bfree sb (indirect disk' ind j)) _ _ _
      rw [hword]
      refine wp_post (bfree_spec (hswap.inside _ hmem) (hswap.used_of_mem hmem).1) ?_
      rintro - u ⟨disk'', rfl, hf⟩
      exact ⟨disk'', rfl, fun c hc => (hf.same c hc).trans (hsame c hc), hswap.free hf⟩
    · rw [hword, ne_eq, not_not] at h0
      rw [filter_cons_of_neg (by simp [h0])] at hexact
      exact ⟨disk', rfl, hsame, hexact⟩
  refine wp_post (wp_forM hstep _ s ⟨s.disk, rfl, fun _ _ => rfl, h⟩) ?_
  rintro - t ⟨disk', rfl, hsame, hexact⟩
  exact ⟨disk', rfl, hsame, hexact⟩

/-- **What `itrunc` leaves behind.** -/
structure Truncated (sb : Superblock) (s : State N) (i : Fin N) (t : State N) : Prop where
  sound : Sound sb t
  inode : t.icache i = { s.icache i with copy := t.dinode (s.icache i).inum }
  others : ∀ j, j ≠ i → t.icache j = s.icache j
  type : (t.dinode (s.icache i).inum).type = (s.icache i).copy.type
  addrs : ∀ l, l ≤ NDIRECT → (t.dinode (s.icache i).inum).addrs l = 0

theorem Truncating.finish (h : Truncating sb s i t)
    (hzero : ∀ l, l ≤ NDIRECT → (t.icache i).copy.addrs l = 0) :
    wp (do setCopy i fun d => { d with size := 0 }; iupdate i)
      (fun _ u => Truncated sb s i u) E t := by
  obtain ⟨f, hf⟩ := h.copy
  have hinum : (t.icache i).inum = (s.icache i).inum := by rw [hf]
  rw [wp_bind, wp_setCopy, wp_iupdate]
  generalize hd : ({ (t.icache i).copy with size := 0 } : Dinode) = d
  have haddrs : d.addrs = (t.icache i).copy.addrs := by rw [← hd]
  have htype : d.type = (t.icache i).copy.type := by rw [← hd]
  have hsh := h.shrinking
  have hshrink : Shrinking sb (t.withCopy i d) i := by
    refine ⟨hsh.toInUse.withCopy (htype ▸ hsh.type), hsh.exact.withCopy hsh.inum haddrs htype, ?_⟩
    intro n hn hne ht
    rw [withCopy_self] at hne
    exact hsh.full n hn hne ht
  have hopen := hshrink.isOpen (by rw [withCopy_self, ← hd])
  have hdin : ((t.withCopy i d).updated i).dinode (s.icache i).inum = d := by
    rw [State.updated, view_withCopy, ← hinum]
    exact update_self ..
  refine ⟨hopen.updated, ?_, ?_, ?_, ?_⟩
  · rw [hdin]
    refine (withCopy_self t i d).trans ?_
    rw [hf]
  · exact fun j hj => (withCopy_of_ne t d hj).trans (h.others j hj)
  · rw [hdin, htype, hf]
  · rw [hdin, haddrs]
    exact hzero

theorem truncIndirect_spec {Q : PUnit → State N → Prop} (h : Truncating sb s i t)
    (hne : (t.icache i).copy.addrs NDIRECT ≠ 0)
    (hQ : ∀ u, Truncating sb s i u → (u.icache i).copy.addrs NDIRECT = 0 →
      (∀ l, l < NDIRECT → (u.icache i).copy.addrs l = (t.icache i).copy.addrs l) → Q ⟨⟩ u) :
    wp (do
      forM (List.range NINDIRECT) (truncEntry sb ((t.icache i).copy.addrs NDIRECT))
      bfree sb ((t.icache i).copy.addrs NDIRECT)
      setAddr i NDIRECT 0) Q E t := by
  have hsh := h.shrinking
  generalize hind : (t.icache i).copy.addrs NDIRECT = ind at hne
  have hexact : Exact sb t.disk (update (view t i) (t.icache i).inum
      ((t.icache i).copy.setAddr NDIRECT 0)) (ind :: entries NINDIRECT (indirect t.disk ind)) := by
    refine hsh.exact.update hsh.inum (fun _ _ => rfl) ?_ ?_
    · intro m _ hm
      rw [update_of_ne hm]
    · rw [update_self, view_self, ← hind]
      exact owned_clear_indirect hsh.type (hind ▸ hne)
  have hdata : sb.nmeta ≤ ind :=
    (hexact.used_of_mem (mem_append_left _ mem_cons_self)).2
  rw [wp_bind]
  refine wp_post (truncEntry_all hdata hexact) ?_
  rintro - u ⟨disk', rfl, hsame, hexact'⟩
  have hmem := mem_append_left (owned sb disk' (update (view t i) (t.icache i).inum
    ((t.icache i).copy.setAddr NDIRECT 0))) (mem_singleton_self ind)
  rw [wp_bind]
  refine wp_post (bfree_spec (hexact'.inside _ hmem) (hexact'.used_of_mem hmem).1) ?_
  rintro - u ⟨disk'', rfl, hf⟩
  change wp (setAddr i NDIRECT 0) Q E { t with disk := disk'' }
  rw [wp_setAddr]
  have hself := recordAddr_self t i disk'' NDIRECT 0
  have hrec := hsh.recordAddr 0 (fun c hc => (hf.same c hc).trans (hsame c hc)) (hexact'.free hf)
  refine hQ _ (h.trans ⟨hrec, ⟨_, hself⟩,
    fun j hj => recordAddr_of_ne t disk'' NDIRECT 0 hj, rfl⟩) ?_ ?_
  · rw [hself]
    simp [Dinode.setAddr]
  · intro l hl
    rw [hself]
    exact update_of_ne (Nat.ne_of_lt hl) _ _

theorem itrunc_spec (h : Open sb s i []) :
    wp (itrunc sb i) (fun _ t => Truncated sb s i t) E s := by
  rw [itrunc, wp_bind]
  refine wp_post (truncDirect_all h.shrinking) ?_
  rintro - t ⟨ht, hzero, -⟩
  rw [wp_bind, wp_get]
  dsimp only
  have hall : ∀ {u : State N}, (∀ l, l < NDIRECT → (u.icache i).copy.addrs l = 0) →
      (u.icache i).copy.addrs NDIRECT = 0 → ∀ l, l ≤ NDIRECT → (u.icache i).copy.addrs l = 0 := by
    intro u hlt h0 l hl
    rcases Nat.lt_or_eq_of_le hl with hl | rfl
    · exact hlt l hl
    · exact h0
  rw [wp_ite]
  refine ⟨fun hne => ?_, fun h0 => ?_⟩
  · have := truncIndirect_spec (E := E) (Q := fun _ u => wp (do
      setCopy i fun d => { d with size := 0 }
      iupdate i) (fun _ v => Truncated sb s i v) E u) ht hne ?_
    · simpa only [wp_bind] using this
    · intro u hu h0 hlow
      exact hu.finish (hall (fun l hl => (hlow l hl).trans (hzero l hl)) h0)
  · rw [ne_eq, not_not] at h0
    exact ht.finish (hall hzero h0)

/-! ## The inode table -/

/-- The state after assignments to the entry `i` of the inode cache. -/
def State.setIp (s : State N) (i : Fin N) (ip : Inode) : State N :=
  { s with icache := update s.icache i ip }

theorem wp_setInode {f : Inode → Inode} {Q : PUnit → State N → Prop} :
    wp (setInode i f) Q E s ↔ Q ⟨⟩ (s.setIp i (f (s.icache i))) := Iff.rfl

@[simp] theorem setIp_self (s : State N) (i : Fin N) (ip : Inode) : (s.setIp i ip).icache i = ip :=
  update_self ..

theorem setIp_of_ne (s : State N) (ip : Inode) (h : j ≠ i) :
    (s.setIp i ip).icache j = s.icache j :=
  update_of_ne h ..

theorem refs_eq_nil (h : ∀ l, l ≤ NDIRECT → d.addrs l = 0) : d.refs disk = [] := by
  rw [Dinode.refs, entries_eq_nil fun l hl => h l hl.le, if_pos (h NDIRECT le_rfl)]
  rfl

theorem unique_setIp {ip : Inode} (hinum : ip.inum = (s.icache i).inum)
    (href : 0 < ip.ref → 0 < (s.icache i).ref)
    (h : ∀ j k, 0 < (s.icache j).ref → 0 < (s.icache k).ref →
      (s.icache j).inum = (s.icache k).inum → j = k) (j k : Fin N)
    (hj : 0 < ((s.setIp i ip).icache j).ref) (hk : 0 < ((s.setIp i ip).icache k).ref)
    (he : ((s.setIp i ip).icache j).inum = ((s.setIp i ip).icache k).inum) : j = k := by
  have hold : ∀ l, 0 < ((s.setIp i ip).icache l).ref → 0 < (s.icache l).ref ∧
      ((s.setIp i ip).icache l).inum = (s.icache l).inum := by
    intro l hl
    by_cases hli : l = i
    · subst hli
      rw [setIp_self] at hl ⊢
      exact ⟨href hl, hinum⟩
    · rw [setIp_of_ne s ip hli] at hl ⊢
      exact ⟨hl, rfl⟩
  obtain ⟨hj', hje⟩ := hold j hj
  obtain ⟨hk', hke⟩ := hold k hk
  exact h j k hj' hk' (by rw [← hje, ← hke, he])

theorem Sound.setInode (h : Sound sb s) (ip : Inode) (hinum : ip.inum = (s.icache i).inum)
    (hcopy : ip.copy = (s.icache i).copy) (href : 0 < ip.ref → 0 < (s.icache i).ref)
    (hvalid : ip.valid = true → (s.icache i).valid = true) :
    Sound sb (s.setIp i ip) := by
  refine ⟨h.exact, h.full, ?_, ?_⟩
  · intro j
    rw [Agrees]
    by_cases hj : j = i
    · subst hj
      rw [setIp_self, hinum, hcopy]
      exact fun hr hv => h.agree j (href hr) (hvalid hv)
    · rw [setIp_of_ne s ip hj]
      exact h.agree j
  · exact unique_setIp hinum href h.unique

theorem Sound.recycle (h : Sound sb s) (hnew : ∀ j, 0 < (s.icache j).ref → (s.icache j).inum ≠ n) :
    Sound sb (s.setIp i { s.icache i with inum := n, ref := 1, valid := false }) := by
  refine ⟨h.exact, h.full, ?_, ?_⟩
  · intro j
    rw [Agrees]
    by_cases hj : j = i
    · subst hj
      rw [setIp_self]
      exact fun _ hv => absurd hv (by simp)
    · rw [setIp_of_ne s _ hj]
      exact h.agree j
  · intro j k hj hk he
    by_cases hji : j = i <;> by_cases hki : k = i
    · rw [hji, hki]
    · rw [hji, setIp_self, setIp_of_ne s _ hki] at he
      rw [setIp_of_ne s _ hki] at hk
      exact absurd he.symm (hnew k hk)
    · rw [hki, setIp_self, setIp_of_ne s _ hji] at he
      rw [setIp_of_ne s _ hji] at hj
      exact absurd he (hnew j hj)
    · rw [setIp_of_ne s _ hji] at hj he
      rw [setIp_of_ne s _ hki] at hk he
      exact h.unique j k hj hk he

theorem iget_spec (h : Sound sb s) (hE : E .igetNoInodes) :
    wp (iget n) (fun i t => Sound sb t ∧ 0 < (t.icache i).ref) E s := by
  rw [iget, wp_bind, wp_get]
  cases hc : (List.finRange N).find? fun i => 0 < (s.icache i).ref ∧ (s.icache i).inum = n with
  | some i =>
    have hi : 0 < (s.icache i).ref ∧ (s.icache i).inum = n := by simpa using find?_some hc
    rw [wp_bind, wp_setInode, wp_pure]
    refine ⟨h.setInode _ rfl rfl (fun _ => hi.1) id, ?_⟩
    simp
  | none =>
    have hnew : ∀ j, 0 < (s.icache j).ref → (s.icache j).inum ≠ n := by
      intro j hj he
      have := find?_eq_none.1 hc j (mem_finRange j)
      simp [hj, he] at this
    cases hu : (List.finRange N).find? fun i => (s.icache i).ref = 0 with
    | some i =>
      rw [wp_bind, wp_setInode, wp_pure]
      refine ⟨h.recycle hnew, ?_⟩
      simp
    | none => exact hE

theorem Sound.newInode (h : Sound sb s) (hn : n < sb.ninodes) (hfree : (s.dinode n).type = 0)
    (haddrs : ∀ l, l ≤ NDIRECT → d.addrs l = 0) (hsize : d.size = 0) :
    Sound sb { s with dinode := update s.dinode n d } := by
  have hrefs : d.owned s.disk = [] := by
    rw [Dinode.owned, refs_eq_nil haddrs, ite_self]
  refine ⟨?_, ?_, ?_, h.unique⟩
  · refine h.exact.update hn (fun _ _ => rfl) ?_ ?_
    · intro m _ hm
      dsimp only
      rw [update_of_ne hm]
    · dsimp only
      rw [update_self, hrefs, Dinode.owned, if_pos hfree]
  · intro m hm ht k hk
    dsimp only at ht hk ⊢
    by_cases hmn : m = n
    · rw [hmn, update_self, hsize] at hk
      exact absurd hk (Nat.not_lt_zero _)
    · rw [update_of_ne hmn] at ht hk ⊢
      exact h.full m hm ht k hk
  · intro i hr hv
    obtain ⟨hlt, hcopy, ht⟩ := h.agree i hr hv
    have hne : (s.icache i).inum ≠ n := by
      rintro rfl
      exact ht (hcopy ▸ hfree)
    exact ⟨hlt, hcopy.trans (update_of_ne hne _ _).symm, ht⟩

theorem ialloc_spec {type : ℤ} (h : Sound sb s) (hE : E .igetNoInodes)
    (hE' : E .iallocNoInodes) : wp (ialloc sb type) (fun _ t => Sound sb t) E s := by
  rw [ialloc, wp_bind, wp_get]
  cases hc : (List.range sb.ninodes).find? fun n => 1 ≤ n ∧ (s.dinode n).type = 0 with
  | none => exact hE'
  | some n =>
    have hn : n < sb.ninodes := mem_range.1 (mem_of_find?_eq_some hc)
    have hfree : (s.dinode n).type = 0 := by
      have := find?_some hc
      simp only [decide_eq_true_eq] at this
      exact this.2
    rw [wp_bind, wp_modify]
    exact wp_post (iget_spec (h.newInode hn hfree (fun _ _ => rfl) rfl) hE) fun _ _ ht => ht.1

theorem ilock_spec (h : Sound sb s) (hn : (s.icache i).inum < sb.ninodes) (hE : E .ilock)
    (hE' : E .noType) : wp (ilock i) (fun _ t => Sound sb t) E s := by
  rw [ilock, wp_bind, wp_get]
  dsimp only
  rw [wp_ite]
  refine ⟨fun _ => hE, fun hr => ?_⟩
  rw [wp_ite]
  refine ⟨fun hv => ?_, fun _ => h⟩
  rw [wp_bind, wp_setInode, wp_ite]
  refine ⟨fun _ => hE', fun ht => ?_⟩
  rw [wp_pure]
  generalize hip : ({ s.icache i with copy := s.dinode (s.icache i).inum, valid := true } : Inode)
    = ip
  refine ⟨h.exact, h.full, ?_, ?_⟩
  · intro j
    rw [Agrees]
    by_cases hj : j = i
    · subst hj
      rw [setIp_self, ← hip]
      exact fun _ _ => ⟨hn, rfl, ht⟩
    · rw [setIp_of_ne s ip hj]
      exact h.agree j
  · refine unique_setIp ?_ ?_ h.unique
    · rw [← hip]
    · rw [← hip]
      exact id

theorem Sound.freeInode (h : Sound sb s) (hr : 0 < (s.icache i).ref)
    (hn : (s.icache i).inum < sb.ninodes) (hrefs : (s.dinode (s.icache i).inum).refs s.disk = [])
    (ht : d.type = 0) :
    Sound sb ({ s with dinode := update s.dinode (s.icache i).inum d }.setIp i
      { s.icache i with copy := d, valid := false }) := by
  generalize hip : ({ s.icache i with copy := d, valid := false } : Inode) = ip
  refine ⟨?_, ?_, ?_, ?_⟩
  · refine h.exact.update hn (fun _ _ => rfl) ?_ ?_
    · intro m _ hm
      exact congrArg (Dinode.owned s.disk) (update_of_ne hm _ _)
    · change ([] ++ (update s.dinode (s.icache i).inum d _).owned s.disk).Perm _
      rw [update_self, Dinode.owned, if_pos ht, Dinode.owned, hrefs, ite_self]
  · intro n hlt htn
    change (update s.dinode (s.icache i).inum d n).type ≠ 0 at htn
    change (update s.dinode (s.icache i).inum d n).Full s.disk
    by_cases hni : n = (s.icache i).inum
    · rw [hni, update_self] at htn
      exact absurd ht htn
    · rw [update_of_ne hni] at htn ⊢
      exact h.full n hlt htn
  · intro j hrj hvj
    by_cases hj : j = i
    · subst hj
      rw [setIp_self, ← hip] at hvj
      exact absurd hvj (by simp)
    · rw [setIp_of_ne _ ip hj] at hrj hvj ⊢
      obtain ⟨hlt, hcopy, htj⟩ := h.agree j hrj hvj
      have hne : (s.icache j).inum ≠ (s.icache i).inum := fun he => hj (h.unique j i hrj hr he)
      exact ⟨hlt, hcopy.trans (update_of_ne hne _ _).symm, htj⟩
  · refine unique_setIp (s := s) ?_ ?_ h.unique
    · rw [← hip]
    · rw [← hip]
      exact id

theorem wp_acquiresleep_none {Q : PUnit → State N → Prop} :
    wp (acquiresleep none i) Q E s ↔ Q ⟨⟩ s := Iff.rfl

theorem iput_spec {locked : Option (Fin N)} (h : Sound sb s) (hr : 0 < (s.icache i).ref)
    (hE : locked = some i → E .deadlock) :
    wp (iput sb i locked) (fun _ t => Sound sb t) E s := by
  rw [iput, wp_bind, acquiresleep, wp_ite]
  refine ⟨hE, fun _ => ?_⟩
  rw [wp_pure, wp_bind, wp_get]
  dsimp only
  rw [wp_ite]
  refine ⟨fun hfree => ?_, fun _ => ?_⟩
  · obtain ⟨hv, -, -⟩ := hfree
    rw [wp_bind]
    refine wp_post (itrunc_spec (h.isOpen hr hv)) ?_
    intro _ t ht
    rw [wp_bind, wp_setCopy, wp_bind, wp_iupdate, wp_bind, wp_setInode]
    generalize hd : ({ (t.icache i).copy with type := 0 } : Dinode) = d
    have hinum : (t.icache i).inum = (s.icache i).inum := by rw [ht.inode]
    have href : 0 < (t.icache i).ref := by
      rw [ht.inode]
      exact hr
    have hstate : ((t.withCopy i d).updated i).setIp i
        { ((t.withCopy i d).updated i).icache i with valid := false } =
        ({ t with dinode := update t.dinode (t.icache i).inum d } : State N).setIp i
          { t.icache i with copy := d, valid := false } := by
      simp only [State.setIp, State.updated, view, State.withCopy, update_self,
        update_idem]
    have hnum : (t.icache i).inum < sb.ninodes := hinum ▸ (h.isOpen hr hv).inum
    have hfreed := ht.sound.freeInode (d := d) href hnum
      (by rw [hinum]; exact refs_eq_nil ht.addrs) (by rw [← hd])
    rw [hstate, wp_setInode]
    refine hfreed.setInode _ rfl rfl (fun _ => ?_) id
    rw [setIp_self]
    exact href
  · rw [wp_setInode]
    exact h.setInode _ rfl rfl (fun _ => hr) id

/-! ## Directories -/

variable {dev : Devsw}

theorem readi_same {off n : UInt32} (h : Open sb s i []) :
    wp (readi sb dev i off n) (fun _ t => t = s) E s := by
  by_cases ht : (s.icache i).copy.type = T_DEV
  · rw [readi, wp_bind, wp_get]
    dsimp only
    rw [if_pos ht, wp_ite]
    refine ⟨fun _ => rfl, fun _ => ?_⟩
    split <;> rfl
  · by_cases hbad : (s.icache i).copy.size < off.toNat ∨ 2 ^ 32 ≤ off.toNat + n.toNat
    · exact readi_refuses ht hbad rfl
    · exact wp_post (readi_spec h ht (by omega) (by omega)) fun _ _ hr => hr.1

theorem writei_sound {off n : UInt32} (hs : Sound sb s) (hr : 0 < (s.icache i).ref)
    (hv : (s.icache i).valid = true) (hsrc : src.length = n.toNat) (hE : E .outOfBlocks) :
    wp (writei sb dev i src off n) (fun _ t => Sound sb t) E s := by
  by_cases ht : (s.icache i).copy.type = T_DEV
  · rw [writei, wp_bind, wp_get]
    dsimp only
    rw [if_pos ht, wp_ite]
    refine ⟨fun _ => hs, fun _ => ?_⟩
    split <;> exact hs
  · by_cases hbad : (s.icache i).copy.size < off.toNat ∨ 2 ^ 32 ≤ off.toNat + n.toNat ∨
        MAXFILE * BSIZE < off.toNat + n.toNat
    · exact writei_refuses ht hbad hs
    · exact wp_post (writei_spec hs hr hv ht hsrc (by omega) (by omega) (by omega) fun _ => hE)
        fun _ _ hw => hw.2.sound

theorem dirlookupFrom_spec {name : List UInt8} (hs : Sound sb s) (h : Open sb s i [])
    (hE : E .igetNoInodes) (hE' : E .dirlookupRead) (fuel : ℕ) :
    ∀ off, wp (dirlookupFrom sb dev i name fuel off) (fun r t => Sound sb t ∧
      (r = none → t = s) ∧ ∀ p, r = some p → 0 < (t.icache p.1).ref) E s := by
  induction fuel with
  | zero => exact fun off => ⟨hs, fun _ => rfl, nofun⟩
  | succ fuel ih =>
    intro off
    rw [dirlookupFrom, wp_bind, wp_get, wp_ite]
    refine ⟨fun _ => ?_, fun _ => ⟨hs, fun _ => rfl, nofun⟩⟩
    rw [wp_bind]
    refine wp_post (readi_same h) ?_
    rintro ⟨r, de⟩ t rfl
    dsimp only
    rw [wp_ite]
    refine ⟨fun _ => hE', fun _ => ?_⟩
    rw [wp_ite]
    refine ⟨fun _ => ih _, fun _ => ?_⟩
    rw [wp_ite]
    refine ⟨fun _ => ?_, fun _ => ih _⟩
    rw [wp_bind]
    refine wp_post (iget_spec hs hE) ?_
    rintro j u ⟨hu, hj⟩
    rw [wp_pure]
    refine ⟨hu, nofun, ?_⟩
    rintro p hp
    cases hp
    exact hj

theorem emptyDirent_spec (h : Open sb s i []) (hE : E .dirlinkRead) (fuel : ℕ) :
    ∀ off, wp (emptyDirent sb dev i fuel off) (fun _ t => t = s) E s := by
  induction fuel with
  | zero => exact fun off => rfl
  | succ fuel ih =>
    intro off
    rw [emptyDirent, wp_bind, wp_get, wp_ite]
    refine ⟨fun _ => ?_, fun _ => rfl⟩
    rw [wp_bind]
    refine wp_post (readi_same h) ?_
    rintro ⟨r, de⟩ t rfl
    dsimp only
    rw [wp_ite]
    refine ⟨fun _ => hE, fun _ => ?_⟩
    rw [wp_ite]
    exact ⟨fun _ => rfl, fun _ => ih _⟩

theorem length_strncpy (n : ℕ) : ∀ name : List UInt8, (strncpy n name).length = n := by
  induction n with
  | zero => exact fun _ => rfl
  | succ n ih =>
    intro name
    rw [strncpy, length_cons, ih]

theorem dirlink_spec {name : List UInt8} {inum : ℕ} (hs : Sound sb s) (hr : 0 < (s.icache i).ref)
    (hv : (s.icache i).valid = true) (hE : ∀ e, e ≠ Panic.freeingFree → E e) :
    wp (dirlink sb dev i name inum) (fun _ t => Sound sb t) E s := by
  have hopen := hs.isOpen hr hv
  rw [dirlink, wp_bind, dirlookup, wp_bind, wp_get, wp_ite]
  refine ⟨fun _ => hE _ (by decide), fun _ => ?_⟩
  refine wp_post (dirlookupFrom_spec hs hopen (hE _ (by decide)) (hE _ (by decide)) _ 0) ?_
  rintro r t ⟨ht, hnone, hsome⟩
  cases r with
  | some p =>
    rw [wp_bind]
    exact wp_post (iput_spec ht (hsome p rfl) fun _ => hE _ (by decide)) fun _ _ hu => hu
  | none =>
    obtain rfl := hnone rfl
    rw [wp_bind, wp_get, wp_bind]
    refine wp_post (emptyDirent_spec hopen (hE _ (by decide)) _ 0) ?_
    rintro off u rfl
    rw [wp_bind]
    have hlen : (encodeDirent inum name).length = (UInt32.ofNat DIRENT).toNat := by
      rw [encodeDirent, length_cons, length_cons, length_strncpy]
      rfl
    refine wp_post (writei_sound hs hr hv hlen (hE _ (by decide))) ?_
    intro r v hv'
    rw [wp_ite]
    exact ⟨fun _ => hE _ (by decide), fun _ => hv'⟩

end Xv6.Fs
