import Xv6.Fs.Pieces

/-!
# Paths

`namex` walks down the directory tree, one piece of the path after the other.

* `namexFrom_eq` — the walk depends on the pieces of the path only.
* `walk_follows` — it gets to the inode that the pieces lead to, if there is one.
* `path_resolution` — `namei` and `nameiparent`.
-/

namespace Xv6.Fs

open Xv6.Lib List

variable {N : ℕ} {sb : Superblock} {dev : Devsw} {s t u : State N} {i j cwd : Fin N}
  {path path' name w : List UInt8} {ws : List (List UInt8)} {n m : ℕ} {E : Panic → Prop}

def ROOTINO : ℕ := 1

/-! ## The code -/

/-- The loop of `namex` at the inode `i`: the inode found, and what is in `name`. -/
def namexFrom (sb : Superblock) (dev : Devsw) (parent : Bool) (i : Fin N)
    (path name : List UInt8) : Kernel N (Option (Fin N) × List UInt8) :=
  match h : skipelem path name with
  | none =>
    if parent = true then do
      iput sb i
      pure (none, name)
    else pure (some i, name)
  | some (path', name') => do
      ilock i
      let s ← get
      if (s.icache i).copy.type ≠ T_DIR then
        iput sb i
        pure (none, name')
      else if parent = true ∧ path' = [] then pure (some i, name')
      else
        let next ← dirlookup sb dev i name'
        iput sb i
        match next with
        | none => pure (none, name')
        | some (j, _) => namexFrom sb dev parent j path' name'
termination_by path.length
decreasing_by
  obtain ⟨-, -, -, -, hlt, -⟩ := skipelem_some h
  exact hlt

/-- Where a path starts: at the root, or at the directory of the process. -/
def pathStart (cwd : Fin N) (path : List UInt8) : Kernel N (Fin N) :=
  if path.head? = some slash then iget ROOTINO
  else do
    idup cwd
    pure cwd

/-- `namex`, for a process in the directory `cwd`. -/
def namex (sb : Superblock) (dev : Devsw) (cwd : Fin N) (path : List UInt8) (parent : Bool)
    (name : List UInt8) : Kernel N (Option (Fin N) × List UInt8) := do
  let ip ← pathStart cwd path
  namexFrom sb dev parent ip path name

/-- `namei`, with what happens to be in its local array `name`. -/
def namei (sb : Superblock) (dev : Devsw) (cwd : Fin N) (path name : List UInt8) :
    Kernel N (Option (Fin N)) := do
  let r ← namex sb dev cwd path false name
  pure r.1

def nameiparent (sb : Superblock) (dev : Devsw) (cwd : Fin N) (path name : List UInt8) :
    Kernel N (Option (Fin N) × List UInt8) :=
  namex sb dev cwd path true name

/-! ## Piece by piece -/

/-- The loop of `namex` over the pieces of a path. -/
def walkPieces (sb : Superblock) (dev : Devsw) (parent : Bool) :
    List (List UInt8) → Fin N → List UInt8 → Kernel N (Option (Fin N) × List UInt8)
  | [], i, name =>
    if parent = true then do
      iput sb i
      pure (none, name)
    else pure (some i, name)
  | w :: ws, i, name => do
      ilock i
      let s ← get
      if (s.icache i).copy.type ≠ T_DIR then
        iput sb i
        pure (none, cut w name)
      else if parent = true ∧ ws = [] then pure (some i, cut w name)
      else
        let next ← dirlookup sb dev i (cut w name)
        iput sb i
        match next with
        | none => pure (none, cut w name)
        | some (j, _) => walkPieces sb dev parent ws j (cut w name)

theorem namexFrom_eq (parent : Bool) (i : Fin N) (path name : List UInt8) :
    namexFrom sb dev parent i path name = walkPieces sb dev parent (pieces path) i name := by
  induction hn : path.length using Nat.strong_induction_on generalizing i path name with
  | _ n ih =>
    rw [namexFrom]
    split
    · rename_i hs
      rw [skipelem_none.1 hs, walkPieces]
    · rename_i path' name' hs
      obtain ⟨w, hpieces, rfl, hnil, hlt, -⟩ := skipelem_some hs
      have hrest : ∀ j, namexFrom sb dev parent j path' (cut w name) =
          walkPieces sb dev parent (pieces path') j (cut w name) := fun j =>
        ih path'.length (hn ▸ hlt) j path' _ rfl
      rw [hpieces, walkPieces]
      simp only [hnil, hrest]

/-! ## References -/

/-- With `d k` more references to the inode in place `k`; the files are as they were. -/
structure Refs (sb : Superblock) (s : State N) (d : Fin N → ℕ) (u : State N) : Prop where
  sound : Sound sb u
  disk : u.disk = s.disk
  dinode : u.dinode = s.dinode
  ref : ∀ k, (u.icache k).ref = (s.icache k).ref + d k
  inum : ∀ k, 0 < (s.icache k).ref → (u.icache k).inum = (s.icache k).inum

theorem Refs.refl (h : Sound sb s) : Refs sb s 0 s :=
  ⟨h, rfl, rfl, fun _ => rfl, fun _ _ => rfl⟩

variable {d : Fin N → ℕ} {parent : Bool}

theorem Refs.got (h : Refs sb s d u) (hgot : Got u n j t) (ht : Sound sb t) :
    Refs sb s (d + Pi.single j 1) t := by
  refine ⟨ht, hgot.disk.trans h.disk, hgot.dinode.trans h.dinode, fun k => ?_, fun k hk => ?_⟩
  · by_cases hkj : k = j
    · subst hkj
      have href := h.ref k
      rw [Pi.add_apply, Pi.single_eq_same]
      obtain ⟨-, hslot⟩ | ⟨hzero, hone, -⟩ := hgot.slot
      · rw [hslot]
        dsimp only
        omega
      · omega
    · rw [hgot.others k hkj, h.ref k, Pi.add_apply, Pi.single_eq_of_ne hkj, Nat.add_zero]
  · rw [← h.inum k hk]
    refine (hgot.sameFiles.icache k ?_).2.1
    have := h.ref k
    omega

theorem Refs.ilock (h : Refs sb s d u) (hr : 0 < (u.icache i).ref)
    (hn : (u.icache i).inum < sb.ninodes) (ht : (s.dinode (u.icache i).inum).type ≠ 0) :
    wp (ilock i) (fun _ v => Refs sb s d v ∧ (v.icache i).inum = (u.icache i).inum ∧
      (v.icache i).valid = true) E u := by
  have hsound := ilock_spec (E := fun _ => True) h.sound hn trivial trivial
  rw [Fs.ilock, wp_bind, wp_get] at hsound ⊢
  dsimp only at hsound ⊢
  rw [if_neg (by omega)] at hsound ⊢
  by_cases hv : (u.icache i).valid = false
  · rw [if_pos hv, wp_bind, wp_setInode] at hsound ⊢
    rw [if_neg (by rw [h.dinode]; exact ht), wp_pure] at hsound ⊢
    refine ⟨⟨hsound, h.disk, h.dinode, fun k => ?_, fun k hk => ?_⟩, ?_, ?_⟩
    · by_cases hki : k = i
      · subst hki
        rw [setIp_self]
        exact h.ref k
      · rw [setIp_of_ne u _ hki]
        exact h.ref k
    · by_cases hki : k = i
      · subst hki
        rw [setIp_self]
        exact h.inum k hk
      · rw [setIp_of_ne u _ hki]
        exact h.inum k hk
    · rw [setIp_self]
    · rw [setIp_self]
  · rw [if_neg hv, wp_pure]
    exact ⟨h, rfl, by simpa using hv⟩

theorem Refs.iput (h : Refs sb s (d + Pi.single i 1) u)
    (hkeep : 1 < (u.icache i).ref ∨ (s.dinode (u.icache i).inum).nlink ≠ 0) :
    wp (iput sb i) (fun _ v => Refs sb s d v ∧ ∀ k, (v.icache k).inum = (u.icache k).inum) E u := by
  have href := h.ref i
  rw [Pi.add_apply, Pi.single_eq_same] at href
  have hstays : ¬((u.icache i).valid = true ∧ (u.icache i).copy.nlink = 0 ∧ (u.icache i).ref = 1) := by
    rintro ⟨hv, hlink, hone⟩
    obtain hmore | hlink' := hkeep
    · omega
    · refine hlink' ?_
      rw [← h.dinode, ← (h.sound.agree i (by omega) hv).2.1, hlink]
  have hsound : wp (Fs.iput sb i) (fun _ v => Sound sb v) (fun _ => True) u := iput_spec h.sound
    (show 0 < (u.icache i).ref by omega) fun _ => trivial
  rw [Fs.iput, wp_bind, wp_acquiresleep_none, wp_bind, wp_get] at hsound ⊢
  dsimp only at hsound ⊢
  rw [if_neg hstays, wp_setInode] at hsound ⊢
  have hinum : ∀ k, ((u.setIp i { u.icache i with ref := (u.icache i).ref - 1 }).icache k).inum =
      (u.icache k).inum := by
    intro k
    by_cases hki : k = i
    · subst hki
      rw [setIp_self]
    · rw [setIp_of_ne u _ hki]
  refine ⟨⟨hsound, h.disk, h.dinode, fun k => ?_, fun k hk => (hinum k).trans (h.inum k hk)⟩, hinum⟩
  by_cases hki : k = i
  · subst hki
    rw [setIp_self]
    dsimp only
    omega
  · rw [setIp_of_ne u _ hki, h.ref k, Pi.add_apply, Pi.single_eq_of_ne hki, Nat.add_zero]

/-! ## The tree -/

/-- A directory tree: the root is there, directories are maps, and their entries are for inodes that
are there.  An entry's inode has links or is in memory, as a removed directory is while a process has
it as its current one; its `..` is still to be there. -/
structure Tree (sb : Superblock) (s : State N) : Prop where
  root : ROOTINO < sb.ninodes ∧ (s.dinode ROOTINO).type ≠ 0 ∧ (s.dinode ROOTINO).nlink ≠ 0
  isMap : ∀ n, n < sb.ninodes → (s.dinode n).type = T_DIR → IsMap ((s.dinode n).content s.disk)
  entry : ∀ n, n < sb.ninodes → (s.dinode n).type = T_DIR → ∀ w m o,
    Maps ((s.dinode n).content s.disk) w m o →
      m < sb.ninodes ∧ (s.dinode m).type ≠ 0 ∧
        ((s.dinode m).nlink ≠ 0 ∨ ∃ k, 0 < (s.icache k).ref ∧ (s.icache k).inum = m)

/-- Inode `n` has an entry for the name. -/
def Entry (s : State N) (n : ℕ) (w : List UInt8) (m : ℕ) : Prop :=
  ∃ o, Maps ((s.dinode n).content s.disk) w m o

/-- From inode `n` the names lead to inode `m`, all the way through directories. -/
inductive Walk (s : State N) : ℕ → List (List UInt8) → ℕ → Prop
  | nil (n : ℕ) : Walk s n [] n
  | cons {n m k : ℕ} {w : List UInt8} {ws : List (List UInt8)} : (s.dinode n).type = T_DIR →
      Entry s n w m → Walk s m ws k → Walk s n (w :: ws) k

/-- Where `namex` gives up: an inode is no directory or has no entry for the next name.  With
`parent` the last name is not looked up, and there must be one. -/
def Stops (s : State N) (parent : Bool) (n : ℕ) (ws : List (List UInt8)) : Prop :=
  parent = true ∧ ws = [] ∨ ∃ vs v rest m, ws = vs ++ v :: rest ∧ Walk s n vs m ∧
    ((s.dinode m).type ≠ T_DIR ∨ (parent = true → rest ≠ []) ∧ ∀ k, ¬Entry s m v k)

/-- Where `namex` should get to: where all names lead, or all but the last. -/
def Arrives (s : State N) (parent : Bool) (n : ℕ) (ws : List (List UInt8)) (name : List UInt8)
    (k : ℕ) : Prop :=
  if parent = true then ∃ vs v, ws = vs ++ [v] ∧ Walk s n vs k ∧ (s.dinode k).type = T_DIR ∧
    nameOf name = v.take DIRSIZ
  else Walk s n ws k

/-- What `namex` should return. -/
def Outcome (sb : Superblock) (s : State N) (parent : Bool) (n : ℕ) (ws : List (List UInt8)) :
    Option (Fin N) × List UInt8 → State N → Prop
  | (some j, name), t => Refs sb s (Pi.single j 1) t ∧ Arrives s parent n ws name (t.icache j).inum
  | (none, _), t => Refs sb s 0 t ∧ Stops s parent n ws

theorem Outcome.step {r : Option (Fin N) × List UInt8} (h : Outcome sb s parent m ws r t)
    (hdir : (s.dinode n).type = T_DIR) (he : Entry s n w m) (hlast : parent = true → ws ≠ []) :
    Outcome sb s parent n (w :: ws) r t := by
  obtain ⟨_ | j, name⟩ := r
  · obtain ⟨hrefs, ⟨hp, hnil⟩ | ⟨vs, v, rest, k, rfl, hwalk, hstop⟩⟩ := h
    · exact absurd hnil (hlast hp)
    · exact ⟨hrefs, .inr ⟨w :: vs, v, rest, k, rfl, .cons hdir he hwalk, hstop⟩⟩
  · obtain ⟨hrefs, hwalk⟩ := h
    refine ⟨hrefs, ?_⟩
    cases parent with
    | true =>
      obtain ⟨vs, v, rfl, hvs, htype, hname⟩ := hwalk
      exact ⟨w :: vs, v, rfl, .cons hdir he hvs, htype, hname⟩
    | false => exact .cons hdir he hwalk

/-- At most one place in the inode cache is free. -/
def NearlyFull (s : State N) : Prop :=
  ∀ j k, (s.icache j).ref = 0 → (s.icache k).ref = 0 → j = k

theorem nearlyFull_of_cacheFull (h : Refs sb s (Pi.single i 1) u) (hfull : CacheFull u n) :
    NearlyFull s := by
  have hfree : ∀ k, (s.icache k).ref = 0 → k = i := by
    intro k hk
    by_contra hki
    have hpos := (hfull k).1
    rw [h.ref k, hk, Pi.single_eq_of_ne hki] at hpos
    exact absurd hpos (lt_irrefl _)
  exact fun j k hj hk => (hfree j hj).trans (hfree k hk).symm

theorem Refs.stop (h : Refs sb s (Pi.single i 1) u)
    (hkeep : 0 < (s.icache i).ref ∨ (s.dinode (u.icache i).inum).nlink ≠ 0) (name : List UInt8)
    (hstop : Stops s parent n ws) :
    wp (do Fs.iput sb i; pure (none, name)) (Outcome sb s parent n ws) E u := by
  have href := h.ref i
  rw [Pi.single_eq_same] at href
  have h' : Refs sb s (0 + Pi.single i 1) u := by rwa [zero_add]
  rw [wp_bind]
  refine wp_post (h'.iput (hkeep.imp_left fun _ => by omega)) ?_
  rintro _ x ⟨hx, -⟩
  exact ⟨hx, hstop⟩

theorem Refs.follow {x : State N} (h : Refs sb s (Pi.single i 1) u) (hsound : Sound sb x)
    (hgot : Got u m j x)
    (hkeep : 0 < (s.icache i).ref ∨ (s.dinode (u.icache i).inum).nlink ≠ 0) :
    wp (Fs.iput sb i) (fun _ y => Refs sb s (Pi.single j 1) y ∧ (y.icache j).inum = m) E x := by
  have href := h.ref i
  rw [Pi.single_eq_same] at href
  have hx : Refs sb s (Pi.single j 1 + Pi.single i 1) x := by
    rw [add_comm]
    exact h.got hgot hsound
  have hxinum : (x.icache i).inum = (u.icache i).inum :=
    (hgot.sameFiles.icache i (by omega)).2.1
  have hxref := hx.ref i
  rw [Pi.add_apply, Pi.single_eq_same] at hxref
  refine wp_post (hx.iput ?_) ?_
  · rw [hxinum]
    exact hkeep.imp_left fun _ => by omega
  · rintro _ y ⟨hy, hyinum⟩
    exact ⟨hy, (hyinum j).trans hgot.inum⟩

theorem Refs.kept (h : Refs sb s (Pi.single j 1) u)
    (hkeep : (s.dinode (u.icache j).inum).nlink ≠ 0 ∨
      ∃ k, 0 < (s.icache k).ref ∧ (s.icache k).inum = (u.icache j).inum) :
    0 < (s.icache j).ref ∨ (s.dinode (u.icache j).inum).nlink ≠ 0 := by
  obtain hlink | ⟨k, hk, hinum⟩ := hkeep
  · exact .inr hlink
  · have hkj := h.ref k
    have hj := h.ref j
    rw [Pi.single_eq_same] at hj
    obtain rfl := h.sound.unique k j (by omega) (by omega) ((h.inum k hk).trans hinum)
    exact .inl hk

theorem walk_follows (htree : Tree sb s) (parent : Bool) (ws : List (List UInt8)) :
    ∀ {i : Fin N} {u : State N} (name : List UInt8), (∀ w ∈ ws, 0 ∉ w) →
      Refs sb s (Pi.single i 1) u → (u.icache i).inum < sb.ninodes →
      (s.dinode (u.icache i).inum).type ≠ 0 →
      (0 < (s.icache i).ref ∨ (s.dinode (u.icache i).inum).nlink ≠ 0) →
      wp (walkPieces sb dev parent ws i name) (Outcome sb s parent (u.icache i).inum ws)
        (fun e => e = .igetNoInodes ∧ NearlyFull s) u := by
  induction ws with
  | nil =>
    intro i u name _ h hn ht hkeep
    rw [walkPieces, wp_ite]
    refine ⟨fun hp => h.stop hkeep name (.inl ⟨hp, rfl⟩), fun hp => ?_⟩
    rw [wp_pure]
    refine ⟨h, ?_⟩
    rw [Arrives, if_neg hp]
    exact .nil _
  | cons w ws ih =>
    intro i u name h0 h hn ht hkeep
    have hw : nameOf (cut w name) = w.take DIRSIZ := nameOf_cut (h0 w mem_cons_self) name
    have hw' : nameOf (cut w name) = nameOf w :=
      hw.trans (upTo_of_not_mem (h0 w mem_cons_self)).symm
    have href := h.ref i
    rw [Pi.single_eq_same] at href
    rw [walkPieces, wp_bind]
    refine wp_post (h.ilock (by omega) hn ht) ?_
    rintro _ v ⟨hv, hinum, hvalid⟩
    rw [← hinum] at hn ht hkeep ⊢
    have hvref := hv.ref i
    rw [Pi.single_eq_same] at hvref
    have hcopy : (v.icache i).copy = s.dinode (v.icache i).inum := by
      rw [← hv.dinode]
      exact (hv.sound.agree i (by omega) hvalid).2.1
    rw [wp_bind, wp_get, wp_ite, hcopy]
    refine ⟨fun hdir => ?_, fun hdir => ?_⟩
    · -- no directory
      exact hv.stop hkeep _ (.inr ⟨[], w, ws, _, rfl, .nil _, .inl hdir⟩)
    rw [ne_eq, not_not] at hdir
    rw [wp_ite]
    refine ⟨fun hlast => ?_, fun hmore => ?_⟩
    · -- the parent of the last name
      rw [wp_pure]
      refine ⟨hv, ?_⟩
      rw [Arrives, if_pos hlast.1]
      exact ⟨[], w, by rw [hlast.2]; rfl, .nil _, hdir, hw⟩
    have hlast : parent = true → ws ≠ [] := fun hp hnil => hmore ⟨hp, hnil⟩
    have hisDir : IsDir sb v i ((s.dinode (v.icache i).inum).content s.disk) :=
      ⟨hv.sound, by omega, hvalid, hcopy ▸ hdir, by rw [hcopy, hv.disk]⟩
    rw [wp_bind]
    refine wp_mono (dirlookup_finds dev hisDir (htree.isMap _ hn hdir).size (cut w name)) ?_ ?_
    · intro r x hr
      cases r with
      | none =>
        -- no entry
        obtain rfl := hr.1
        refine hv.stop hkeep _ (.inr ⟨[], w, ws, _, rfl, .nil _, .inr ⟨hlast, ?_⟩⟩)
        rintro k ⟨o, hm⟩
        exact hr.2 k o (Nat.zero_le _) (hm.of_name hw'.symm)
      | some q =>
        obtain ⟨hsound, -, m, hm, hgot⟩ := hr
        obtain ⟨hmlt, hmtype, hmlink⟩ := htree.entry _ hn hdir _ m q.2 hm
        have he : Entry s (v.icache i).inum w m := ⟨q.2, hm.of_name hw'⟩
        rw [wp_bind]
        refine wp_post (hv.follow hsound hgot hkeep) ?_
        rintro _ y ⟨hy, rfl⟩
        dsimp only
        refine wp_post (ih (cut w name) (fun v hv => h0 v (mem_cons_of_mem _ hv)) hy hmlt
          hmtype (hy.kept hmlink)) ?_
        exact fun r z hz => hz.step hdir he hlast
    · rintro e ⟨he, m, o, -, hfull⟩
      exact ⟨he, nearlyFull_of_cacheFull hv hfull⟩

/-! ## One way or the other -/

theorem Entry.unique (htree : Tree sb s) (hn : n < sb.ninodes) (hdir : (s.dinode n).type = T_DIR)
    {k : ℕ} (h : Entry s n w m) (h' : Entry s n w k) : m = k := by
  obtain ⟨o, hm⟩ := h
  obtain ⟨o', hm'⟩ := h'
  exact (htree.isMap n hn hdir).inum_unique hm hm'

theorem Walk.unique (htree : Tree sb s) {vs : List (List UInt8)} (h : Walk s n vs m) :
    ∀ {k : ℕ}, n < sb.ninodes → Walk s n vs k → m = k := by
  induction h with
  | nil n =>
    intro k _ h'
    cases h'
    rfl
  | cons hdir he _ ih =>
    intro k hn h'
    cases h' with
    | cons _ he' hrest =>
      obtain rfl := he.unique htree hn hdir he'
      obtain ⟨o, hm⟩ := he
      exact ih (htree.entry _ hn hdir _ _ o hm).1 hrest

theorem Walk.next {vs rest : List (List UInt8)} {v : List UInt8} :
    ∀ {n k : ℕ}, Walk s n (vs ++ v :: rest) k →
      ∃ m, Walk s n vs m ∧ (s.dinode m).type = T_DIR ∧ ∃ l, Entry s m v l := by
  induction vs with
  | nil =>
    intro n k h
    cases h with
    | cons hdir he _ => exact ⟨n, .nil n, hdir, _, he⟩
  | cons w vs ih =>
    intro n k h
    cases h with
    | cons hdir he hrest =>
      obtain ⟨m, hm, hdir', hl⟩ := ih hrest
      exact ⟨m, .cons hdir he hm, hdir', hl⟩

theorem Arrives.not_stops (htree : Tree sb s) (hn : n < sb.ninodes) {k : ℕ}
    (h : Arrives s parent n ws name k) : ¬Stops s parent n ws := by
  -- a stop within a walk
  have hwithin : ∀ {vs rest : List (List UInt8)} {v : List UInt8} {k m : ℕ},
      Walk s n (vs ++ v :: rest) k → Walk s n vs m →
        (s.dinode m).type = T_DIR ∧ ∃ l, Entry s m v l := by
    intro vs rest v k m hk hm
    obtain ⟨m', hm', hdir, hl⟩ := hk.next
    obtain rfl := hm'.unique htree hn hm
    exact ⟨hdir, hl⟩
  cases parent with
  | false =>
    rintro (⟨hp, -⟩ | ⟨vs, v, rest, m, rfl, hm, hstop⟩)
    · exact absurd hp Bool.false_ne_true
    · obtain ⟨hdir, l, hl⟩ := hwithin (show Walk s n (vs ++ v :: rest) k from h) hm
      obtain hnot | ⟨-, hnone⟩ := hstop
      · exact hnot hdir
      · exact hnone l hl
  | true =>
    obtain ⟨us, u, hws, hk, hkdir, -⟩ :
        ∃ us u, ws = us ++ [u] ∧ Walk s n us k ∧ (s.dinode k).type = T_DIR ∧ _ := h
    rintro (⟨-, rfl⟩ | ⟨vs, v, rest, m, hws', hm, hstop⟩)
    · exact absurd hws (by simp)
    · obtain rfl | hrest := eq_or_ne rest []
      · obtain ⟨rfl, -⟩ := append_inj' (hws.symm.trans hws') rfl
        obtain rfl := hk.unique htree hn hm
        obtain hnot | ⟨hmore, -⟩ := hstop
        · exact hnot hkdir
        · exact hmore rfl rfl
      · obtain ⟨rest', x, rfl⟩ := eq_nil_or_concat rest |>.resolve_left hrest
        have hends : us ++ [u] = (vs ++ v :: rest') ++ [x] := by
          rw [← hws, hws', append_assoc, cons_append, concat_eq_append]
        have hus : us = vs ++ v :: rest' := (append_inj' hends rfl).1
        obtain ⟨hdir, l, hl⟩ := hwithin (hus ▸ hk) hm
        obtain hnot | ⟨-, hnone⟩ := hstop
        · exact hnot hdir
        · exact hnone l hl

/-! ## The calls -/

/-- The inode a path starts from. -/
def startInum (s : State N) (cwd : Fin N) (path : List UInt8) : ℕ :=
  if path.head? = some slash then ROOTINO else (s.icache cwd).inum

/-- The process is in a directory, or some other inode. -/
structure InCwd (sb : Superblock) (s : State N) (cwd : Fin N) : Prop where
  ref : 0 < (s.icache cwd).ref
  inum : (s.icache cwd).inum < sb.ninodes
  type : (s.dinode (s.icache cwd).inum).type ≠ 0

theorem startInum_lt (htree : Tree sb s) (hcwd : InCwd sb s cwd) (path : List UInt8) :
    startInum s cwd path < sb.ninodes := by
  rw [startInum]
  split
  · exact htree.root.1
  · exact hcwd.inum

theorem pathStart_spec (htree : Tree sb s) (hs : Sound sb s) (hcwd : InCwd sb s cwd)
    (path : List UInt8) :
    wp (pathStart cwd path) (fun i u => Refs sb s (Pi.single i 1) u ∧
        (u.icache i).inum = startInum s cwd path ∧ (s.dinode (u.icache i).inum).type ≠ 0 ∧
        (0 < (s.icache i).ref ∨ (s.dinode (u.icache i).inum).nlink ≠ 0))
      (fun e => e = .igetNoInodes ∧ NearlyFull s) s := by
  rw [pathStart, startInum]
  by_cases hslash : path.head? = some slash
  · rw [if_pos hslash, if_pos hslash]
    refine wp_mono (wp_both (iget_got s ROOTINO) (iget_spec (E := fun _ => True) hs trivial)) ?_ ?_
    · rintro i u ⟨hgot, hsound, -⟩
      have hrefs : Refs sb s (Pi.single i 1) u := by
        rw [← zero_add (Pi.single i 1)]
        exact (Refs.refl hs).got hgot hsound
      rw [hgot.inum]
      exact ⟨hrefs, rfl, htree.root.2.1, .inr htree.root.2.2⟩
    · rintro e ⟨⟨he, hfull⟩, -⟩
      refine ⟨he, fun j k hj => ?_⟩
      have := (hfull j).1
      omega
  · rw [if_neg hslash, if_neg hslash, wp_bind, idup, wp_setInode, wp_pure, setIp_self]
    refine ⟨⟨hs.setInode _ rfl rfl (fun _ => hcwd.ref) id, rfl, rfl, fun k => ?_, fun k _ => ?_⟩,
      rfl, hcwd.type, .inl hcwd.ref⟩
    · by_cases hk : k = cwd
      · subst hk
        rw [setIp_self, Pi.single_eq_same]
      · rw [setIp_of_ne s _ hk, Pi.single_eq_of_ne hk, Nat.add_zero]
    · by_cases hk : k = cwd
      · subst hk
        rw [setIp_self]
      · rw [setIp_of_ne s _ hk]

theorem namex_spec (htree : Tree sb s) (hs : Sound sb s) (hcwd : InCwd sb s cwd) (dev : Devsw)
    (h0 : 0 ∉ path) (parent : Bool) (name : List UInt8) :
    wp (namex sb dev cwd path parent name)
      (Outcome sb s parent (startInum s cwd path) (pieces path))
      (fun e => e = .igetNoInodes ∧ NearlyFull s) s := by
  rw [namex, wp_bind]
  refine wp_post (pathStart_spec htree hs hcwd path) ?_
  rintro i u ⟨hrefs, hinum, htype, hkeep⟩
  rw [namexFrom_eq, ← hinum]
  refine walk_follows htree parent (pieces path) name (fun w hw => not_mem_pieces h0 hw) hrefs ?_
    htype hkeep
  rw [hinum]
  exact startInum_lt htree hcwd path

theorem namex_congr (hp : pieces path' = pieces path)
    (hstart : path'.head? = some slash ↔ path.head? = some slash) (parent : Bool) :
    namex sb dev cwd path' parent name = namex sb dev cwd path parent name := by
  simp only [namex, pathStart, namexFrom_eq, hp, hstart]

theorem head?_append_slash (p q : List UInt8) :
    (p ++ slash :: slash :: q).head? = (p ++ slash :: q).head? := by
  cases p with
  | _ => rfl

theorem head?_trailing (hne : path ≠ []) (q : List UInt8) : (path ++ q).head? = path.head? := by
  cases path with
  | nil => exact absurd rfl hne
  | cons a p => rfl

/-- **Path resolution follows the components.**  `skipelem` gives the pieces of the path; `namei`
gets to where they lead from the root or the current directory, and fails exactly when an inode on
the way is no directory or has no entry; `nameiparent` stops before the last piece and gives its name.
A slash twice is a slash, and slashes at the end of a path that is not empty do not count.  A call
panics only when the inode cache has not two places left. -/
theorem path_resolution (htree : Tree sb s) (hs : Sound sb s) (hcwd : InCwd sb s cwd) (dev : Devsw)
    (path name : List UInt8) (h0 : 0 ∉ path) :
    elems path name = (pieces path).map (List.take DIRSIZ) ∧
      ((∃ r t, (namei sb dev cwd path name).run s = .ok (r, t) ∧
          (r = none ↔ Stops s false (startInum s cwd path) (pieces path)) ∧
          ∀ j, r = some j → Refs sb s (Pi.single j 1) t ∧
            Walk s (startInum s cwd path) (pieces path) (t.icache j).inum) ∨
        (namei sb dev cwd path name).run s = .error .igetNoInodes ∧ NearlyFull s) ∧
      ((∃ r name' t, (nameiparent sb dev cwd path name).run s = .ok ((r, name'), t) ∧
          (r = none ↔ Stops s true (startInum s cwd path) (pieces path)) ∧
          ∀ j, r = some j → Refs sb s (Pi.single j 1) t ∧
            ∃ vs v, pieces path = vs ++ [v] ∧ Walk s (startInum s cwd path) vs (t.icache j).inum ∧
              (s.dinode (t.icache j).inum).type = T_DIR ∧ nameOf name' = v.take DIRSIZ) ∨
        (nameiparent sb dev cwd path name).run s = .error .igetNoInodes ∧ NearlyFull s) ∧
      (∀ p q, path = p ++ slash :: q →
        namei sb dev cwd (p ++ slash :: slash :: q) name = namei sb dev cwd path name ∧
          nameiparent sb dev cwd (p ++ slash :: slash :: q) name =
            nameiparent sb dev cwd path name) ∧
      (path ≠ [] → ∀ k,
        namei sb dev cwd (path ++ List.replicate k slash) name = namei sb dev cwd path name ∧
          nameiparent sb dev cwd (path ++ List.replicate k slash) name =
            nameiparent sb dev cwd path name) := by
  have hlt := startInum_lt htree hcwd path
  have hexact : ∀ {parent : Bool} {r : Option (Fin N)} {name' : List UInt8} {t : State N},
      Outcome sb s parent (startInum s cwd path) (pieces path) (r, name') t →
        (r = none ↔ Stops s parent (startInum s cwd path) (pieces path)) := by
    intro parent r name' t h
    cases r with
    | none => exact iff_of_true rfl h.2
    | some j => exact iff_of_false (Option.some_ne_none j) (h.2.not_stops htree hlt)
  refine ⟨elems_eq h0 name, ?_, ?_, ?_, ?_⟩
  · have hwp := namex_spec htree hs hcwd dev h0 false name
    have hnamei : wp (namei sb dev cwd path name) (fun r t => ∃ name',
        Outcome sb s false (startInum s cwd path) (pieces path) (r, name') t)
        (fun e => e = .igetNoInodes ∧ NearlyFull s) s := by
      rw [namei, wp_bind]
      exact wp_post hwp fun r t hr => ⟨r.2, hr⟩
    obtain ⟨r, t, hrun, name', hr⟩ | ⟨e, hrun, rfl, hfull⟩ := run_of_wp hnamei
    · refine .inl ⟨r, t, hrun, hexact hr, ?_⟩
      rintro j rfl
      exact hr
    · exact .inr ⟨hrun, hfull⟩
  · obtain ⟨⟨r, name'⟩, t, hrun, hr⟩ | ⟨e, hrun, rfl, hfull⟩ :=
      run_of_wp (namex_spec htree hs hcwd dev h0 true name)
    · refine .inl ⟨r, name', t, hrun, hexact hr, ?_⟩
      rintro j rfl
      exact hr
    · exact .inr ⟨hrun, hfull⟩
  · rintro p q rfl
    have hcongr : ∀ parent, namex sb dev cwd (p ++ slash :: slash :: q) parent name =
        namex sb dev cwd (p ++ slash :: q) parent name :=
      namex_congr (pieces_double p q) (by rw [head?_append_slash])
    exact ⟨by rw [namei, namei, hcongr], hcongr true⟩
  · intro hne k
    have hcongr : ∀ parent, namex sb dev cwd (path ++ List.replicate k slash) parent name =
        namex sb dev cwd path parent name :=
      namex_congr (pieces_trailing path k) (by rw [head?_trailing hne])
    exact ⟨by rw [namei, namei, hcongr], hcongr true⟩

/-- The root has the directory `bin`, inode 2, in which a process is, and `bin` the file `sh`. -/
def twoDirs : State 3 where
  disk b :=
    if b = 3 then fun k => if k = 0 then 0xff else 0
    else if b = 6 then fun k => (encodeDirent 2 [98, 105, 110]).getD k 0
    else if b = 7 then fun k => (encodeDirent 3 [115, 104]).getD k 0
    else .zeroes
  dinode n :=
    if n = 1 then dirOf 6
    else if n = 2 then dirOf 7
    else if n = 3 then { Dinode.zero with type := T_FILE, nlink := 1 }
    else .zero
  icache k := if k = 0 then ⟨2, 1, true, dirOf 7⟩ else ⟨0, 0, false, .zero⟩
where
  /-- A directory with one entry, in block `b`. -/
  dirOf (b : ℕ) : Dinode :=
    { Dinode.zero with type := T_DIR, nlink := 1, size := DIRENT, addrs := fun k => if k = 0 then b else 0 }

theorem twoDirs_exact : Exact smallSb twoDirs.disk twoDirs.dinode [] := by decide +kernel

theorem twoDirs_sound : Sound smallSb twoDirs := by
  have hslot : ∀ k, 0 < (twoDirs.icache k).ref → k = 0 := by decide
  have hsize : ∀ n, n < 4 → (twoDirs.dinode n).size ≤ DIRENT := by decide +kernel
  have hfirst : ∀ n, n < 4 → 0 < (twoDirs.dinode n).size →
      (twoDirs.dinode n).blockAt twoDirs.disk 0 ≠ 0 := by decide +kernel
  refine ⟨twoDirs_exact, fun n hn _ k hk => ?_, fun k hr _ => ?_, fun j k hj hk _ => ?_⟩
  · obtain rfl : k = 0 := by
      have := hsize n hn
      simp only [BSIZE, DIRENT, DIRSIZ] at hk this
      omega
    exact hfirst n hn (by omega)
  · rw [hslot k hr]
    exact ⟨show 2 < 4 by decide, rfl, show T_DIR ≠ 0 by decide⟩
  · rw [hslot j hj, hslot k hk]

theorem twoDirs_tree : Tree smallSb twoDirs := by
  have hdirs : ∀ n, n < 4 → (twoDirs.dinode n).type = T_DIR →
      ((twoDirs.dinode n).content twoDirs.disk).length = DIRENT ∧
        direntInum (direntAt ((twoDirs.dinode n).content twoDirs.disk) 0) = n + 1 := by
    decide +kernel
  have hlinks : ∀ n, n < 4 → n ≠ 0 → (twoDirs.dinode n).type ≠ 0 ∧ (twoDirs.dinode n).nlink ≠ 0 := by
    decide +kernel
  have hnext : ∀ n, n < 4 → (twoDirs.dinode n).type = T_DIR → n + 1 < 4 := by decide +kernel
  have hoff : ∀ {n m o w}, n < 4 → (twoDirs.dinode n).type = T_DIR →
      Maps ((twoDirs.dinode n).content twoDirs.disk) w m o → o = 0 := by
    intro n m o w hn ht hm
    have := hm.within
    rw [(hdirs n hn ht).1] at this
    omega
  refine ⟨by decide, fun n hn ht => ⟨?_, fun w m m' o o' hm hm' => ?_⟩, fun n hn ht w m o hm => ?_⟩
  · rw [(hdirs n hn ht).1]
    exact Nat.mod_self _
  · rw [hoff hn ht hm, hoff hn ht hm']
  · obtain rfl := hoff hn ht hm
    obtain rfl : n + 1 = m := (hdirs n hn ht).2.symm.trans hm.inum_eq
    have hlt := hnext n hn ht
    exact ⟨hlt, (hlinks _ hlt n.succ_ne_zero).1, .inl (hlinks _ hlt n.succ_ne_zero).2⟩

theorem twoDirs_cwd : InCwd smallSb twoDirs 0 := ⟨by decide, by decide, by decide⟩

/-- `/bin//sh/` is inode 3. -/
theorem path_resolution_found :
    elems [47, 98, 105, 110, 47, 47, 115, 104, 47] [] = [[98, 105, 110], [115, 104]] ∧
      ∃ j t, (namei smallSb noDevices 0 [47, 98, 105, 110, 47, 47, 115, 104, 47] []).run twoDirs =
        .ok (some j, t) ∧ (t.icache j).inum = 3 ∧ Refs smallSb twoDirs (Pi.single j 1) t ∧
        Walk twoDirs ROOTINO [[98, 105, 110], [115, 104]] 3 := by
  obtain ⟨helems, hnamei, -⟩ := path_resolution twoDirs_tree twoDirs_sound twoDirs_cwd noDevices
    [47, 98, 105, 110, 47, 47, 115, 104, 47] [] (by decide)
  have hinum : ((namei smallSb noDevices 0 [47, 98, 105, 110, 47, 47, 115, 104, 47] []).run
      twoDirs).toOption.map (fun r => r.1.map fun j => (r.2.icache j).inum) = some (some 3) := by
    rw [namei, namex]
    simp only [namexFrom_eq]
    decide +kernel
  obtain ⟨r, t, hrun, -, hfound⟩ | ⟨hrun, -⟩ := hnamei
  · rw [hrun] at hinum
    obtain ⟨j, rfl, hj⟩ := Option.map_eq_some_iff.1 (Option.some.inj hinum)
    obtain ⟨hrefs, hwalk⟩ := hfound j rfl
    rw [hj] at hwalk
    exact ⟨helems, j, t, hrun, hj, hrefs, hwalk⟩
  · rw [hrun] at hinum
    exact absurd hinum (by simp [Except.toOption])

/-- **A slash after the empty path** is not a trailing slash: the empty path is the current
directory, and `/` is the root. -/
theorem empty_path_slash : Tree smallSb twoDirs ∧ Sound smallSb twoDirs ∧ InCwd smallSb twoDirs 0 ∧
    ((namei smallSb noDevices 0 [] []).run twoDirs).toOption.map
        (fun r => r.1.map fun j => (r.2.icache j).inum) = some (some 2) ∧
    ((namei smallSb noDevices 0 ([] ++ [slash]) []).run twoDirs).toOption.map
        (fun r => r.1.map fun j => (r.2.icache j).inum) = some (some 1) := by
  refine ⟨twoDirs_tree, twoDirs_sound, twoDirs_cwd, ?_, ?_⟩
  · rw [namei, namex]
    simp only [namexFrom_eq]
    decide +kernel
  · rw [namei, namex]
    simp only [namexFrom_eq]
    decide +kernel

end Xv6.Fs
