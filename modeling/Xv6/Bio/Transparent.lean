import Xv6.Bio.Cache

/-!
# The buffer cache is transparent

The contents of a block live on the disk, in clean buffers and in dirty ones.
The invariant `Inv` says where the contents stored last are to be found: in
every buffer with data that caches the block, of which there is at most one
(`Inv.unique`), and on the disk unless that buffer is dirty or being modified
(`Inv.disk`).  A buffer of the second kind is never recycled (`Inv.recycle`).

Every function that changes a buffer changes one of them and stores or writes
that buffer's block alone, so its specification comes from `Inv.update`.
`commit` is a client like any other as far as the invariant goes; that it
changes nothing outside the log is `Committing.outside`.
-/

namespace Xv6.Bio

open Xv6.Lib Xv6.Log Function List

variable {N : ℕ} {C : Config} {d : Disk} {s t : State N} {i j : Fin N} {b : UInt32}
  {E : Stop → Prop}

@[simp] theorem setBuf_self (s : State N) (i : Fin N) (x : Buf) : (s.setBuf i x).buf i = x :=
  update_self ..

@[simp] theorem setBuf_hist (s : State N) (i : Fin N) (x : Buf) :
    (s.setBuf i x).hist = s.hist := rfl

@[simp] theorem setBuf_memdisk (s : State N) (i : Fin N) (x : Buf) :
    (s.setBuf i x).memdisk = s.memdisk := rfl

theorem setBuf_of_ne (s : State N) (x : Buf) (h : j ≠ i) : (s.setBuf i x).buf j = s.buf j :=
  update_of_ne h ..

/-! ## The invariant -/

/-- What holds of one buffer, `u` telling whether it is modified and not yet
passed to `log_write` or `bwrite`. -/
structure BufOk (d : Disk) (h : List Event) (x : Buf) (u : Bool) : Prop where
  /-- A buffer with data, or that someone refers to, caches a block of the disk. -/
  dev : x.valid = true ∨ 0 < x.refcnt → x.dev = ROOTDEV
  /-- Only buffers with data are dirty. -/
  dirty : x.dirty = true → x.valid = true
  /-- A locked buffer has data and its holder refers to it. -/
  locked : x.locked = true → x.valid = true ∧ 0 < x.refcnt
  /-- Only the holder of a buffer modifies it. -/
  unsaved : u = true → x.locked = true
  /-- The data is what was stored last. -/
  data : x.valid = true → x.data = latest d h x.blockno

/-- The buffer has contents of block `b` that may not be on the disk. -/
def Ahead (s : State N) (i : Fin N) (b : UInt32) : Prop :=
  (s.buf i).valid = true ∧ (s.buf i).blockno = b ∧ ((s.buf i).dirty = true ∨ s.unsaved i = true)

/-- **The invariant of the cache.** -/
structure Inv (d : Disk) (s : State N) : Prop where
  /-- Every buffer is on the list the searches go through. -/
  listed : ∀ i, i ∈ s.lru
  unique : ∀ i j, (s.buf i).dev = ROOTDEV → (s.buf j).dev = ROOTDEV →
    (s.buf i).blockno = (s.buf j).blockno → i = j
  /-- Every buffer is as it should be. -/
  ok : ∀ i, BufOk d s.hist (s.buf i) (s.unsaved i)
  /-- What was stored last is on the disk, or in a buffer that cannot be
  recycled. -/
  disk : ∀ b : UInt32, s.memdisk b.toNat = latest d s.hist b ∨ ∃ i, Ahead s i b
  /-- A block that waits for its installation is cached and dirty. -/
  pending : ∀ b, Pending s.hist b → ∃ i, (s.buf i).dirty = true ∧ (s.buf i).blockno = b

theorem inv_binit (N : ℕ) (d : Disk) : Inv d (binit N d) where
  listed i := by simp [binit]
  unique i j hi := absurd hi (by simp [binit, ROOTDEV])
  ok i := by constructor <;> simp [binit]
  disk b := .inl rfl
  pending b hb := hb.elim

theorem Inv.update (h : Inv d s) (hi : (s.buf i).dev = ROOTDEV) (hlru : ∀ j, j ∈ t.lru)
    (hbuf : ∀ j, j ≠ i → t.buf j = s.buf j) (hun : ∀ j, j ≠ i → t.unsaved j = s.unsaved j)
    (hdev : (t.buf i).dev = ROOTDEV) (hno : (t.buf i).blockno = (s.buf i).blockno)
    (hok : BufOk d t.hist (t.buf i) (t.unsaved i))
    (hlatest : ∀ b, b ≠ (s.buf i).blockno → latest d t.hist b = latest d s.hist b)
    (hdisk : ∀ b : UInt32, b ≠ (s.buf i).blockno → t.memdisk b.toNat = s.memdisk b.toNat)
    (hpend : ∀ b, b ≠ (s.buf i).blockno → Pending t.hist b → Pending s.hist b)
    (hself : t.memdisk (s.buf i).blockno.toNat = latest d t.hist (s.buf i).blockno ∨
      Ahead t i (s.buf i).blockno)
    (hself' : Pending t.hist (s.buf i).blockno → (t.buf i).dirty = true) : Inv d t := by
  have hne : ∀ j, j ≠ i → (s.buf j).dev = ROOTDEV → (s.buf j).blockno ≠ (s.buf i).blockno :=
    fun j hj hd he => hj (h.unique j i hd hi he)
  refine ⟨hlru, ?_, ?_, ?_, ?_⟩
  · intro j k hj hk he
    by_cases hji : j = i <;> by_cases hki : k = i
    · rw [hji, hki]
    · subst hji
      rw [hbuf k hki] at hk he
      exact absurd (he.symm.trans hno) (hne k hki hk)
    · subst hki
      rw [hbuf j hji] at hj he
      exact absurd (he.trans hno) (hne j hji hj)
    · rw [hbuf j hji] at hj he
      rw [hbuf k hki] at hk he
      exact h.unique j k hj hk he
  · intro j
    by_cases hji : j = i
    · exact hji ▸ hok
    · rw [hbuf j hji, hun j hji]
      have hj := h.ok j
      refine ⟨hj.dev, hj.dirty, hj.locked, hj.unsaved, ?_⟩
      intro hv
      rw [hlatest _ (hne j hji (hj.dev (.inl hv)))]
      exact hj.data hv
  · intro b
    by_cases hb : b = (s.buf i).blockno
    · subst hb
      exact hself.imp id fun ha => ⟨i, ha⟩
    · rw [hlatest b hb, hdisk b hb]
      refine (h.disk b).imp id ?_
      rintro ⟨j, hv, hjb, hu⟩
      have hji : j ≠ i := fun he => hb (by rw [← hjb, he])
      refine ⟨j, ?_⟩
      rw [Ahead, hbuf j hji, hun j hji]
      exact ⟨hv, hjb, hu⟩
  · intro b hp
    by_cases hb : b = (s.buf i).blockno
    · subst hb
      exact ⟨i, hself' hp, hno⟩
    · obtain ⟨j, hd, hjb⟩ := h.pending b (hpend b hb hp)
      have hji : j ≠ i := fun he => hb (by rw [← hjb, he])
      exact ⟨j, by rw [hbuf j hji]; exact ⟨hd, hjb⟩⟩

theorem Inv.disk_or_ahead (h : Inv d s) (hi : (s.buf i).dev = ROOTDEV) :
    s.memdisk (s.buf i).blockno.toNat = latest d s.hist (s.buf i).blockno ∨
      Ahead s i (s.buf i).blockno := by
  refine (h.disk (s.buf i).blockno).imp id ?_
  rintro ⟨j, hv, hj, hu⟩
  have hji : j = i := h.unique j i ((h.ok j).dev (.inl hv)) hi hj
  subst hji
  exact ⟨hv, hj, hu⟩

theorem Inv.dirty_of_pending (h : Inv d s) (hi : (s.buf i).dev = ROOTDEV)
    (hp : Pending s.hist (s.buf i).blockno) : (s.buf i).dirty = true := by
  obtain ⟨j, hd, hj⟩ := h.pending _ hp
  have hji : j = i := h.unique j i ((h.ok j).dev (.inl ((h.ok j).dirty hd))) hi hj
  exact hji ▸ hd

theorem Inv.touch (h : Inv d s) (hi : (s.buf i).dev = ROOTDEV) (hlru : ∀ j, j ∈ t.lru)
    (hbuf : ∀ j, j ≠ i → t.buf j = s.buf j) (hun : t.unsaved = s.unsaved)
    (hmem : t.memdisk = s.memdisk) (hhist : t.hist = s.hist)
    (hdev : (t.buf i).dev = ROOTDEV) (hno : (t.buf i).blockno = (s.buf i).blockno)
    (hvalid : (s.buf i).valid = true → (t.buf i).valid = true)
    (hdirty : (s.buf i).dirty = true → (t.buf i).dirty = true)
    (hok : BufOk d s.hist (t.buf i) (s.unsaved i)) : Inv d t := by
  refine h.update hi hlru hbuf (fun j _ => by rw [hun]) hdev hno ?_ (fun b _ => by rw [hhist])
    (fun b _ => by rw [hmem]) (fun b _ hp => hhist ▸ hp) ?_ ?_
  · rw [hhist, hun]
    exact hok
  · rw [hhist, hmem]
    refine (h.disk_or_ahead hi).imp id ?_
    rintro ⟨hv, -, hu⟩
    refine ⟨hvalid hv, hno, ?_⟩
    rw [hun]
    exact hu.imp hdirty id
  · intro hp
    rw [hhist] at hp
    exact hdirty (h.dirty_of_pending hi hp)

theorem Inv.recycle (h : Inv d s) (hnew : ∀ j, (s.buf j).dev = ROOTDEV → (s.buf j).blockno ≠ b)
    (href : (s.buf i).refcnt = 0) (hclean : (s.buf i).dirty = false) :
    Inv d (s.setBuf i
      { s.buf i with dev := ROOTDEV, blockno := b, valid := false, dirty := false, refcnt := 1 }) := by
  have hi := h.ok i
  have hunlocked : (s.buf i).locked = false := by
    cases hl : (s.buf i).locked with
    | false => rfl
    | true => exact absurd (hi.locked hl).2 (by omega)
  have hsaved : s.unsaved i = false := by
    cases hu : s.unsaved i with
    | false => rfl
    | true => exact absurd (hi.unsaved hu) (by simp [hunlocked])
  have hbuf : ∀ j, j ≠ i → (s.setBuf i { s.buf i with
      dev := ROOTDEV, blockno := b, valid := false, dirty := false, refcnt := 1 }).buf j = s.buf j :=
    fun j hj => update_of_ne hj _ _
  refine ⟨h.listed, ?_, ?_, ?_, ?_⟩
  · intro j k hj hk he
    by_cases hji : j = i <;> by_cases hki : k = i
    · rw [hji, hki]
    · subst hji
      rw [hbuf k hki] at hk he
      exact absurd he.symm (by simpa [State.setBuf] using hnew k hk)
    · subst hki
      rw [hbuf j hji] at hj he
      exact absurd he (by simpa [State.setBuf] using hnew j hj)
    · rw [hbuf j hji] at hj he
      rw [hbuf k hki] at hk he
      exact h.unique j k hj hk he
  · intro j
    by_cases hji : j = i
    · subst hji
      constructor <;> simp [State.setBuf, hunlocked, hsaved]
    · rw [hbuf j hji]
      exact h.ok j
  · intro c
    refine (h.disk c).imp id ?_
    rintro ⟨j, hv, hjb, hu⟩
    have hji : j ≠ i := by
      rintro rfl
      rcases hu with hu | hu
      · simp [hclean] at hu
      · simp [hsaved] at hu
    refine ⟨j, ?_⟩
    rw [Ahead, hbuf j hji]
    exact ⟨hv, hjb, hu⟩
  · intro c hc
    obtain ⟨j, hd, hjb⟩ := h.pending c hc
    have hji : j ≠ i := by
      rintro rfl
      simp [hclean] at hd
    exact ⟨j, by rw [hbuf j hji]; exact ⟨hd, hjb⟩⟩

/-! ## What the history remembers -/

@[simp] theorem latest_store (w : Who) (c : UInt32) (x : Block) (h : List Event) (b : UInt32) :
    latest d (.store w c x :: h) b = if c = b then x else latest d h b := by
  simp [latest, latestBy]

@[simp] theorem latest_logWrite (c : UInt32) (h : List Event) (b : UInt32) :
    latest d (.logWrite c :: h) b = latest d h b := rfl

@[simp] theorem latest_write (c : UInt32) (h : List Event) (b : UInt32) :
    latest d (.write c :: h) b = latest d h b := rfl

/-! ## `iderw` -/

variable {Q : PUnit → State N → Prop} {c : UInt32} {x : Block} {h : LogHeader} {e : UInt32 × ℕ}

theorem iderw_read (hl : (s.buf i).locked = true) (hv : (s.buf i).valid = false)
    (hd : (s.buf i).dirty = false) (hdev : (s.buf i).dev = ROOTDEV)
    (hrange : C.disksize ≤ (s.buf i).blockno.toNat → E .outOfRange) (hQ : Q ⟨⟩ (s.setBuf i
      { s.buf i with data := s.memdisk (s.buf i).blockno.toNat, valid := true })) :
    wp (iderw C i) Q E s := by
  rw [iderw, wp_bind, wp_get]
  dsimp only
  rw [if_neg (by simp [hl]), if_neg (by simp [hv]), if_neg (by simp [hdev, ROOTDEV]), wp_ite,
    if_neg (by simp [hd])]
  exact ⟨hrange, fun _ => hQ⟩

theorem iderw_write (hl : (s.buf i).locked = true)
    (hd : (s.buf i).dirty = true) (hdev : (s.buf i).dev = ROOTDEV)
    (hrange : C.disksize ≤ (s.buf i).blockno.toNat → E .outOfRange)
    (hQ : Q ⟨⟩ { s.setBuf i { s.buf i with dirty := false, valid := true } with
      memdisk := update s.memdisk (s.buf i).blockno.toNat (s.buf i).data
      hist := .write (s.buf i).blockno :: s.hist }) :
    wp (iderw C i) Q E s := by
  rw [iderw, wp_bind, wp_get]
  dsimp only
  rw [if_neg (by simp [hl]), if_neg (by simp [hd]), if_neg (by simp [hdev, ROOTDEV]), wp_ite,
    if_pos hd]
  exact ⟨hrange, fun _ => hQ⟩

/-! ## `bread` -/

/-- What the search of `bget` for block `b` leaves behind when it answers with
the buffer `i`. -/
structure Referred (s : State N) (b : UInt32) (i : Fin N) (t : State N) : Prop where
  hist : t.hist = s.hist
  lh : t.lh = s.lh
  unsaved : t.unsaved = s.unsaved
  blockno : (t.buf i).blockno = b
  ref : 0 < (t.buf i).refcnt
  locked : (t.buf i).locked = (s.buf i).locked
  /-- A held buffer is only answered with when it caches the block. -/
  hit : (s.buf i).locked = true → (s.buf i).blockno = b
  others : ∀ j, j ≠ i → t.buf j = s.buf j
  /-- A dirty buffer is not recycled. -/
  dirty : ∀ j, (s.buf j).dirty = true →
    t.buf j = { s.buf j with refcnt := (t.buf j).refcnt }

theorem cached_some (hc : s.cached ROOTDEV b = some i) :
    (s.buf i).dev = ROOTDEV ∧ (s.buf i).blockno = b := by
  have := find?_some hc
  simpa using this

theorem cached_none (h : Inv d s) (hc : s.cached ROOTDEV b = none) :
    ∀ j, (s.buf j).dev = ROOTDEV → (s.buf j).blockno ≠ b := by
  intro j hj hb
  have := find?_eq_none.1 hc j (h.listed j)
  simp [hj, hb] at this

theorem unused_some (hu : s.unused = some i) :
    (s.buf i).refcnt = 0 ∧ (s.buf i).dirty = false := by
  have := find?_some hu
  simpa using this

theorem bref_spec (h : Inv d s)
    (hE : s.cached ROOTDEV b = none → s.unused = none → E .noBuffers) :
    wp (bref ROOTDEV b) (fun i t => Inv d t ∧ Referred s b i t) E s := by
  rw [bref, wp_bind, wp_get]
  cases hc : s.cached ROOTDEV b with
  | some i =>
    obtain ⟨hdev, hno⟩ := cached_some hc
    rw [wp_bind, wp_modify, wp_pure]
    have hi := h.ok i
    refine ⟨?_, ⟨rfl, rfl, rfl, by simpa [State.setBuf] using hno, by simp [State.setBuf],
      by simp [State.setBuf], fun _ => hno, fun j hj => update_of_ne hj _ _, ?_⟩⟩
    · refine h.touch hdev h.listed (fun j hj => update_of_ne hj _ _) rfl rfl rfl
        ?_ ?_ ?_ ?_ ?_
      all_goals simp only [setBuf_self]
      · exact hdev
      · exact id
      · exact id
      · exact ⟨fun _ => hdev, hi.dirty, fun hl => ⟨(hi.locked hl).1, Nat.succ_pos _⟩,
          hi.unsaved, hi.data⟩
    · intro j _
      by_cases hj : j = i
      · subst hj
        simp [State.setBuf]
      · simp [State.setBuf, hj]
  | none =>
    cases hu : s.unused with
    | some i =>
      obtain ⟨href, hclean⟩ := unused_some hu
      rw [wp_bind, wp_modify, wp_pure]
      refine ⟨h.recycle (cached_none h hc) href hclean, ⟨rfl, rfl, rfl,
        by simp [State.setBuf], by simp [State.setBuf], by simp [State.setBuf], ?_,
        fun j hj => update_of_ne hj _ _, ?_⟩⟩
      · intro hl
        exact absurd ((h.ok i).locked hl).2 (by omega)
      intro j hd
      have hj : j ≠ i := by
        rintro rfl
        simp [hclean] at hd
      simp [State.setBuf, hj]
    | none => exact hE hc hu

/-- What getting the lock of the buffer `i` leaves behind. -/
structure Woken (s : State N) (i : Fin N) (t : State N) : Prop where
  hist : t.hist = s.hist
  lh : t.lh = s.lh
  unsaved : t.unsaved = s.unsaved
  blockno : (t.buf i).blockno = (s.buf i).blockno
  locked : (t.buf i).locked = true
  before : (s.buf i).locked = false
  others : ∀ j, j ≠ i → t.buf j = s.buf j

theorem wake_spec (h : Inv d s) (hr : 0 < (s.buf i).refcnt)
    (hsleep : (s.buf i).locked = true → E .sleeps)
    (hrange : C.disksize ≤ (s.buf i).blockno.toNat → E .outOfRange) :
    wp (wake C i) (fun _ t => Inv d t ∧ Woken s i t) E s := by
  have hi := h.ok i
  have hdev : (s.buf i).dev = ROOTDEV := hi.dev (.inr hr)
  rw [wake, acquiresleep, wp_bind, wp_bind, wp_get, wp_ite]
  refine ⟨hsleep, ?_⟩
  intro hl
  rw [wp_modify, fill, wp_bind, wp_get, wp_ite, setBuf_self]
  refine ⟨?_, ?_⟩
  · intro hv
    have hclean : (s.buf i).dirty = false := by
      cases hd : (s.buf i).dirty with
      | false => rfl
      | true => exact absurd (hi.dirty hd) (by simp_all)
    -- the disk has the latest contents, since no buffer is ahead of it
    have hdisk : s.memdisk (s.buf i).blockno.toNat = latest d s.hist (s.buf i).blockno := by
      refine (h.disk_or_ahead hdev).resolve_right ?_
      intro ha
      exact absurd ha.1 (by simp_all)
    refine iderw_read (by simp) (by simpa using hv) (by simpa using hclean) (by simpa using hdev)
      (by simpa using hrange) ?_
    refine ⟨?_, ⟨rfl, rfl, rfl, by simp, by simp, by simpa using hl, ?_⟩⟩
    · refine h.touch hdev h.listed ?_ rfl rfl rfl ?_ ?_ ?_ ?_ ?_
      · intro j hj
        rw [setBuf_of_ne _ _ hj, setBuf_of_ne _ _ hj]
      all_goals simp only [setBuf_self]
      · exact hdev
      · exact fun _ => trivial
      · exact id
      · exact ⟨fun _ => hdev, fun _ => rfl, fun _ => ⟨rfl, hr⟩, fun _ => rfl, fun _ => hdisk⟩
    · intro j hj
      rw [setBuf_of_ne _ _ hj, setBuf_of_ne _ _ hj]
  · intro hv
    rw [wp_pure]
    refine ⟨?_, ⟨rfl, rfl, rfl, by simp, by simp, by simpa using hl,
      fun j hj => update_of_ne hj _ _⟩⟩
    refine h.touch hdev h.listed (fun j hj => update_of_ne hj _ _) rfl rfl rfl
      ?_ ?_ ?_ ?_ ?_
    all_goals simp only [setBuf_self]
    · exact hdev
    · exact id
    · exact id
    · exact ⟨hi.dev, hi.dirty, fun _ => ⟨by simpa using hv, hr⟩, fun _ => rfl, hi.data⟩

/-- **What `bread` leaves behind.** -/
structure Bread (s : State N) (b : UInt32) (i : Fin N) (t : State N) : Prop where
  hist : t.hist = s.hist
  lh : t.lh = s.lh
  unsaved : t.unsaved = s.unsaved
  saved : t.unsaved i = false
  blockno : (t.buf i).blockno = b
  locked : (t.buf i).locked = true
  /-- The buffers that were held are others, and are as they were. -/
  held : ∀ j, (s.buf j).locked = true → j ≠ i ∧ t.buf j = s.buf j

theorem bread_eq (C : Config) (dev b : UInt32) :
    (bread C dev b : Kernel N (Fin N)) = (do
      let i ← bref dev b
      wake C i
      pure i) := by
  simp only [bread, bget, wake, bind_assoc, pure_bind]

theorem bread_spec (h : Inv d s)
    (hbuf : s.cached ROOTDEV b = none → s.unused = none → E .noBuffers)
    (hsleep : (∃ i, (s.buf i).locked = true ∧ (s.buf i).blockno = b) → E .sleeps)
    (hrange : C.disksize ≤ b.toNat → E .outOfRange) :
    wp (bread C ROOTDEV b) (fun i t => Inv d t ∧ Bread s b i t) E s := by
  rw [bread_eq, wp_bind]
  refine wp_post (bref_spec h hbuf) ?_
  rintro i u ⟨hu, hru⟩
  rw [wp_bind]
  refine wp_post (wake_spec (C := C) hu hru.ref ?_ ?_) ?_
  · intro hl
    have hls : (s.buf i).locked = true := hru.locked ▸ hl
    exact hsleep ⟨i, hls, hru.hit hls⟩
  · rw [hru.blockno]
    exact hrange
  rintro - t ⟨ht, hwt⟩
  have hunlocked : (s.buf i).locked = false := hru.locked ▸ hwt.before
  rw [wp_pure]
  refine ⟨ht, ⟨hwt.hist.trans hru.hist, hwt.lh.trans hru.lh, hwt.unsaved.trans hru.unsaved, ?_,
    hwt.blockno.trans hru.blockno, hwt.locked, ?_⟩⟩
  · rw [hwt.unsaved, hru.unsaved]
    cases hsv : s.unsaved i with
    | false => rfl
    | true => exact absurd ((h.ok i).unsaved hsv) (by simp [hunlocked])
  · intro j hj
    have hji : j ≠ i := by
      rintro rfl
      simp [hunlocked] at hj
    exact ⟨hji, (hwt.others j hji).trans (hru.others j hji)⟩

/-! ## What the holder of a buffer does with it -/

/-- A call for the buffer `i` leaves the others alone. -/
structure Works (s : State N) (i : Fin N) (t : State N) : Prop where
  blockno : (t.buf i).blockno = (s.buf i).blockno
  buf : ∀ j, j ≠ i → t.buf j = s.buf j
  unsaved : ∀ j, j ≠ i → t.unsaved j = s.unsaved j

theorem Inv.dev_of_locked (h : Inv d s) (hl : (s.buf i).locked = true) :
    (s.buf i).dev = ROOTDEV :=
  (h.ok i).dev (.inr ((h.ok i).locked hl).2)

theorem store_spec (w : Who) (x : Block) (h : Inv d s) (hl : (s.buf i).locked = true) :
    wp (store w i x) (fun _ t => Inv d t ∧ Works s i t ∧ t.lh = s.lh ∧
      (t.buf i).locked = true ∧ t.hist = .store w (s.buf i).blockno x :: s.hist) E s := by
  have hi := h.ok i
  have hdev := h.dev_of_locked hl
  have hv := (hi.locked hl).1
  rw [store, wp_modify]
  refine ⟨?_, ⟨by simp, fun j hj => setBuf_of_ne _ _ hj, fun j hj => update_of_ne hj _ _⟩,
    rfl, by simpa using hl, rfl⟩
  refine h.update hdev h.listed (fun j hj => setBuf_of_ne _ _ hj)
    (fun j hj => update_of_ne hj _ _) (by simpa using hdev) (by simp) ?_ ?_
    (fun _ _ => rfl) (fun _ _ hp => hp) (.inr ⟨by simpa using hv, by simp, by simp⟩) ?_
  · refine ⟨fun _ => by simpa using hdev, by simpa using hi.dirty, by simpa using hi.locked,
      fun _ => by simpa using hl, by simp⟩
  · intro b hb
    simp [Ne.symm hb]
  · intro hp
    simpa using h.dirty_of_pending hdev hp

theorem logWrite_spec (h : Inv d s) (hl : (s.buf i).locked = true)
    (hE : LOGSIZE ≤ s.lh.n ∨ C.log.size - 1 ≤ s.lh.n → E .tooBig) :
    wp (logWrite C i) (fun _ t => Inv d t ∧ Works s i t ∧ s.lh.n < C.log.size - 1 ∧
      (∃ hn, t.lh = absorb s.lh (s.buf i).blockno hn) ∧
      t.hist = .logWrite (s.buf i).blockno :: s.hist) E s := by
  have hi := h.ok i
  have hdev := h.dev_of_locked hl
  have hv := (hi.locked hl).1
  rw [logWrite, wp_bind, wp_get]
  split
  · rename_i hn
    exact hE hn
  · rename_i hn
    rw [wp_bind, wp_modify, saved, wp_modify]
    refine ⟨?_, ⟨by simp, fun j hj => setBuf_of_ne _ _ hj,
      fun j hj => update_of_ne hj _ _⟩, by omega, ⟨by omega, rfl⟩, rfl⟩
    refine h.update hdev h.listed (fun j hj => setBuf_of_ne _ _ hj)
      (fun j hj => update_of_ne hj _ _) (by simpa using hdev) (by simp) ?_
      (fun _ _ => rfl) (fun _ _ => rfl) ?_ (.inr ⟨by simpa using hv, by simp, by simp⟩)
      (fun _ => by simp)
    · refine ⟨fun _ => by simpa using hdev, fun _ => by simpa using hv, by simpa using hi.locked,
        by simp, by simpa using hi.data⟩
    · intro b hb hp
      exact hp.resolve_left (Ne.symm hb)

theorem bwrite_spec (h : Inv d s) (hE : (s.buf i).locked = false → E .bwrite)
    (hrange : C.disksize ≤ (s.buf i).blockno.toNat → E .outOfRange) :
    wp (bwrite C i) (fun _ t => Inv d t ∧ Works s i t ∧ t.lh = s.lh ∧
      (t.buf i).locked = true ∧ t.unsaved i = false ∧
      t.hist = .write (s.buf i).blockno :: s.hist) E s := by
  have hi := h.ok i
  rw [bwrite, wp_bind, wp_get, wp_ite]
  refine ⟨hE, ?_⟩
  intro hl
  rw [Bool.not_eq_false] at hl
  have hdev := h.dev_of_locked hl
  have hv := (hi.locked hl).1
  rw [wp_bind, wp_modify, wp_bind]
  refine iderw_write (by simpa using hl) (by simp) (by simpa using hdev) (by simpa using hrange) ?_
  rw [saved, wp_modify]
  simp only [setBuf_self]
  have hbuf : ∀ (x y : Buf) (j : Fin N), j ≠ i → ((s.setBuf i x).setBuf i y).buf j = s.buf j :=
    fun x y j hj => by rw [setBuf_of_ne _ _ hj, setBuf_of_ne _ _ hj]
  refine ⟨?_, ⟨by simp, fun j hj => hbuf _ _ j hj, fun j hj => update_of_ne hj _ _⟩,
    rfl, by simpa using hl, by simp, rfl⟩
  refine h.update hdev h.listed (fun j hj => hbuf _ _ j hj)
    (fun j hj => update_of_ne hj _ _) (by simpa using hdev) (by simp) ?_
    (fun _ _ => rfl) ?_ ?_ (.inl ?_) ?_
  · refine ⟨fun _ => by simpa using hdev, by simp, fun _ => ?_, by simp, fun _ => ?_⟩
    · simpa using (hi.locked hl).2
    · simpa using hi.data hv
  · intro b hb
    have hne : b.toNat ≠ (s.buf i).blockno.toNat := fun he => hb (UInt32.toNat_inj.1 he)
    exact update_of_ne hne _ _
  · intro b _ hp
    exact hp.2
  · simpa using hi.data hv
  · intro hp
    exact absurd rfl hp.1

theorem brelse_spec (h : Inv d s) (hu : s.unsaved i = false)
    (hE : (s.buf i).locked = false → E .brelse) :
    wp (brelse i) (fun _ t => Inv d t ∧ Works s i t ∧ t.lh = s.lh ∧ t.hist = s.hist) E s := by
  have hi := h.ok i
  rw [brelse, wp_bind, wp_get, wp_ite]
  refine ⟨hE, ?_⟩
  intro hl
  rw [Bool.not_eq_false] at hl
  have hdev := h.dev_of_locked hl
  rw [wp_modify]
  refine ⟨?_, ⟨by simp, fun j hj => setBuf_of_ne _ _ hj, fun _ _ => rfl⟩, rfl, rfl⟩
  refine h.touch hdev ?_ (fun j hj => setBuf_of_ne _ _ hj) rfl rfl rfl ?_ ?_ ?_ ?_ ?_
  · intro j
    dsimp only
    split
    · by_cases hj : j = i
      · exact hj ▸ mem_cons_self
      · exact mem_cons_of_mem _ ((mem_erase_of_ne hj).2 (h.listed j))
    · exact h.listed j
  all_goals simp only [setBuf_self]
  · exact hdev
  · exact id
  · exact id
  · exact ⟨fun _ => hdev, hi.dirty, by simp, by simp [hu], hi.data⟩

/-! ## `commit` -/

/-- What copying the contents of block `src` into block `dst` and writing that
leaves behind. -/
structure Copied (d : Disk) (s : State N) (dst src : UInt32) (t : State N) : Prop where
  inv : Inv d t
  lh : t.lh = s.lh
  hist : t.hist = .write dst :: .store .log dst (latest d s.hist src) :: s.hist

theorem copy_spec {dst src : Fin N} (h : Inv d s) (hdst : (s.buf dst).locked = true)
    (hsrc : (s.buf src).locked = true) (hne : src ≠ dst) (hu : s.unsaved src = false)
    (i j : Fin N) (hi : i = dst ∨ i = src) (hj : j = dst ∨ j = src) (hij : j ≠ i) :
    wp (do copyData dst src; bwrite C dst; brelse i; brelse j)
      (fun _ t => Copied d s (s.buf dst).blockno (s.buf src).blockno t) (fun _ => True) s := by
  rw [wp_bind, copyData, wp_bind, wp_get, (h.ok src).data ((h.ok src).locked hsrc).1]
  refine wp_post (store_spec .log _ h hdst) ?_
  rintro - u ⟨hinv, hw, hlh, hl, hhist⟩
  rw [wp_bind]
  refine wp_post (bwrite_spec hinv (fun _ => trivial) (fun _ => trivial)) ?_
  rintro - v ⟨hinv', hw', hlh', hl', hu', hhist'⟩
  have hsaved : ∀ k, k = dst ∨ k = src → v.unsaved k = false := by
    rintro k (rfl | rfl)
    · exact hu'
    · rw [hw'.unsaved k hne, hw.unsaved k hne, hu]
  rw [wp_bind]
  refine wp_post (brelse_spec hinv' (hsaved i hi) fun _ => trivial) ?_
  rintro - x ⟨hx, hwx, hlx, hhx⟩
  refine wp_post (brelse_spec hx ?_ fun _ => trivial) ?_
  · rw [hwx.unsaved j hij]
    exact hsaved j hj
  rintro - y ⟨hy, -, hly, hhy⟩
  refine ⟨hy, ?_, ?_⟩
  · rw [hly, hlx, hlh', hlh]
  · rw [hhy, hhx, hhist', hhist, hw.blockno]

theorem bread_two {x y : UInt32} (h : Inv d s) {f : Fin N → Fin N → Kernel N PUnit}
    (hf : ∀ i j t, Inv d t → i ≠ j → (t.buf i).locked = true → (t.buf j).locked = true →
      t.unsaved i = false → t.unsaved j = false → (t.buf i).blockno = x → (t.buf j).blockno = y →
      t.lh = s.lh → t.hist = s.hist → wp (f i j) Q (fun _ => True) t) :
    wp (do
      let i ← bread C ROOTDEV x
      let j ← bread C ROOTDEV y
      f i j) Q (fun _ => True) s := by
  rw [wp_bind]
  refine wp_post (bread_spec h (fun _ _ => trivial) (fun _ => trivial) fun _ => trivial) ?_
  rintro i u ⟨hu, hi⟩
  rw [wp_bind]
  refine wp_post (bread_spec hu (fun _ _ => trivial) (fun _ => trivial) fun _ => trivial) ?_
  rintro j t ⟨ht, hj⟩
  obtain ⟨hij, hbuf⟩ := hj.held i hi.locked
  refine hf i j t ht hij ?_ hj.locked ?_ hj.saved ?_ hj.blockno (hj.lh.trans hi.lh)
    (hj.hist.trans hi.hist)
  · rw [hbuf]
    exact hi.locked
  · rw [hj.unsaved]
    exact hi.saved
  · rw [hbuf]
    exact hi.blockno

theorem writeLogEntry_spec (h : Inv d s) (e : UInt32 × ℕ) :
    wp (writeLogEntry C e) (fun _ t => Copied d s (C.slot e.2) e.1 t) (fun _ => True) s := by
  rw [writeLogEntry]
  refine bread_two h ?_
  intro dst src t ht hne hdst hsrc _ hu hx hy hlh hhist
  refine wp_post (copy_spec ht hdst hsrc hne.symm hu src dst (.inr rfl) (.inl rfl) hne) ?_
  rintro - v ⟨hv, hlv, hhv⟩
  exact ⟨hv, hlv.trans hlh, by rw [hhv, hx, hy, hhist]⟩

theorem installEntry_spec (h : Inv d s) (e : UInt32 × ℕ) :
    wp (installEntry C e) (fun _ t => Copied d s e.1 (C.slot e.2) t) (fun _ => True) s := by
  rw [installEntry]
  refine bread_two h ?_
  intro src dst t ht hne hsrc hdst hu _ hx hy hlh hhist
  refine wp_post (copy_spec ht hdst hsrc hne hu src dst (.inr rfl) (.inl rfl) hne.symm) ?_
  rintro - v ⟨hv, hlv, hhv⟩
  exact ⟨hv, hlv.trans hlh, by rw [hhv, hx, hy, hhist]⟩

theorem writeHead_spec (h : Inv d s) :
    wp (writeHead C) (fun _ t => Inv d t ∧ t.lh = s.lh ∧
      ∃ x, t.hist = .write C.head :: .store .log C.head x :: s.hist) (fun _ => True) s := by
  rw [writeHead, wp_bind]
  refine wp_post (bread_spec h (fun _ _ => trivial) (fun _ => trivial) fun _ => trivial) ?_
  rintro i t ⟨ht, hi⟩
  rw [wp_bind, wp_get, wp_bind]
  refine wp_post (store_spec .log _ ht hi.locked) ?_
  rintro - u ⟨hu, hw, hlh, hl, hhist⟩
  rw [wp_bind]
  refine wp_post (bwrite_spec hu (fun _ => trivial) (fun _ => trivial)) ?_
  rintro - v ⟨hv, hw', hlh', -, hsaved, hhist'⟩
  refine wp_post (brelse_spec hv hsaved fun _ => trivial) ?_
  rintro - x ⟨hx, -, hlx, hhx⟩
  refine ⟨hx, ?_, ⟨encodeHead t.lh (t.buf i).data, ?_⟩⟩
  · rw [hlx, hlh', hlh, hi.lh]
  · rw [hhx, hhist', hhist, hw.blockno, hi.blockno, hi.hist]

/-- Only `commit` stored anything. -/
structure ByLog (d : Disk) (s t : State N) : Prop where
  suffix : s.hist <:+ t.hist
  client : ∀ b, latestClient d t.hist b = latestClient d s.hist b

theorem ByLog.refl (s : State N) : ByLog d s s := ⟨suffix_rfl, fun _ => rfl⟩

theorem ByLog.trans {u : State N} (h : ByLog d s t) (h' : ByLog d t u) : ByLog d s u :=
  ⟨h.suffix.trans h'.suffix, fun b => (h'.client b).trans (h.client b)⟩

theorem byLog_of_hist (h : t.hist = .write c :: .store .log c x :: s.hist) : ByLog d s t where
  suffix := h ▸ (suffix_cons _ _).trans (suffix_cons _ _)
  client b := by simp [h, latestClient, latestBy]

theorem latest_of_hist (h : t.hist = .write c :: .store .log c x :: s.hist) (b : UInt32) :
    latest d t.hist b = if c = b then x else latest d s.hist b := by
  rw [h, latest_write, latest_store]

/-- The blocks of the transaction lie outside the log, which has a slot for
each of them. -/
structure Apart (C : Config) (h : LogHeader) : Prop where
  outside : ∀ e ∈ h.block.zipIdx, C.log.Outside e.1.toNat
  fits : h.n ≤ C.log.size - 1

theorem zipIdx_snd_lt (he : e ∈ h.block.zipIdx) : e.2 < h.n := by
  have := snd_lt_of_mem_zipIdx he
  simpa [LogHeader.n] using this

theorem zipIdx_ext {e' : UInt32 × ℕ} (he : e ∈ h.block.zipIdx) (he' : e' ∈ h.block.zipIdx)
    (heq : e.2 = e'.2) : e = e' := by
  obtain ⟨c, k⟩ := e
  obtain ⟨c', k'⟩ := e'
  rw [mk_mem_zipIdx_iff_getElem?] at he he'
  obtain rfl : k = k' := heq
  rw [Option.some_inj.1 (he.symm.trans he')]

theorem Apart.slot_toNat (ha : Apart C h) (he : e ∈ h.block.zipIdx) :
    (C.slot e.2).toNat = C.log.start + e.2 + 1 := by
  have hlt := zipIdx_snd_lt he
  have := ha.fits
  have := C.log_le
  have := C.disksize_lt
  rw [Config.slot, UInt32.toNat_ofNat_of_lt']
  simp only [UInt32.size]
  omega

theorem Apart.slot_ne (ha : Apart C h) (he : e ∈ h.block.zipIdx) {b : UInt32}
    (hb : C.log.Outside b.toNat) : C.slot e.2 ≠ b := by
  rintro rfl
  rw [ha.slot_toNat he] at hb
  have := zipIdx_snd_lt he
  have := ha.fits
  rcases hb with hb | hb <;> omega

theorem head_ne {b : UInt32} (hb : C.log.Outside b.toNat) : C.head ≠ b := by
  rintro rfl
  have := C.log_le
  have := C.disksize_lt
  have := C.log.size_pos
  rw [Config.head, UInt32.toNat_ofNat_of_lt' (by simp only [UInt32.size]; omega)] at hb
  rcases hb with hb | hb <;> omega

/-- What a part of `commit` leaves behind. -/
structure Committing (C : Config) (d : Disk) (s t : State N) : Prop where
  inv : Inv d t
  byLog : ByLog d s t
  /-- Blocks outside the log do not change. -/
  outside : Apart C s.lh → ∀ b : UInt32, C.log.Outside b.toNat →
    latest d t.hist b = latest d s.hist b

theorem writeLog_spec (h : Inv d s) :
    wp (writeLog C) (fun _ t => Committing C d s t ∧ t.lh = s.lh ∧ (Apart C s.lh →
      ∀ e ∈ s.lh.block.zipIdx, latest d t.hist (C.slot e.2) = latest d s.hist e.1))
      (fun _ => True) s := by
  rw [writeLog, wp_bind, wp_get]
  -- the entries that are done are those not left to do
  let I : List (UInt32 × ℕ) → State N → Prop := fun rest t =>
    rest ⊆ s.lh.block.zipIdx ∧ Committing C d s t ∧ t.lh = s.lh ∧ (Apart C s.lh →
      ∀ e ∈ s.lh.block.zipIdx, e ∉ rest → latest d t.hist (C.slot e.2) = latest d s.hist e.1)
  have hstep : ∀ x xs t, I (x :: xs) t →
      wp (writeLogEntry C x) (fun _ u => I xs u) (fun _ => True) t := by
    rintro x xs t ⟨hsub, hc, hlh, hdone⟩
    refine wp_post (writeLogEntry_spec hc.inv x) ?_
    rintro - u ⟨hu, hlu, hhu⟩
    have hx : x ∈ s.lh.block.zipIdx := hsub mem_cons_self
    refine ⟨fun _ he => hsub (mem_cons_of_mem _ he), ⟨hu, hc.byLog.trans (byLog_of_hist hhu),
      ?_⟩, hlu.trans hlh, ?_⟩
    · intro ha b hb
      rw [latest_of_hist hhu, if_neg (ha.slot_ne hx hb)]
      exact hc.outside ha b hb
    · intro ha e he hnot
      rw [latest_of_hist hhu]
      by_cases hex : e = x
      · rw [hex, if_pos rfl]
        exact hc.outside ha _ (ha.outside x hx)
      · have hne : C.slot x.2 ≠ C.slot e.2 := by
          intro heq
          have := congrArg UInt32.toNat heq
          rw [ha.slot_toNat hx, ha.slot_toNat he] at this
          exact hex (zipIdx_ext he hx (by omega))
        rw [if_neg hne]
        exact hdone ha e he (by simp [hex, hnot])
  have hinit : I s.lh.block.zipIdx s :=
    ⟨fun _ he => he, ⟨h, .refl s, fun _ _ _ => rfl⟩, rfl, fun _ e he hn => absurd he hn⟩
  refine wp_post (wp_forM hstep _ s hinit) ?_
  rintro - t ⟨-, hc, hlh, hdone⟩
  exact ⟨hc, hlh, fun ha e he => hdone ha e he not_mem_nil⟩

theorem installTrans_spec (h : Inv d s)
    (hslots : Apart C s.lh → ∀ e ∈ s.lh.block.zipIdx,
      latest d s.hist (C.slot e.2) = latest d s.hist e.1) :
    wp (installTrans C) (fun _ t => Committing C d s t) (fun _ => True) s := by
  rw [installTrans, wp_bind, wp_get]
  let I : List (UInt32 × ℕ) → State N → Prop := fun rest t =>
    rest ⊆ s.lh.block.zipIdx ∧ Committing C d s t ∧ (Apart C s.lh →
      ∀ e ∈ s.lh.block.zipIdx, latest d t.hist (C.slot e.2) = latest d s.hist e.1)
  have hstep : ∀ x xs t, I (x :: xs) t →
      wp (installEntry C x) (fun _ u => I xs u) (fun _ => True) t := by
    rintro x xs t ⟨hsub, hc, hold⟩
    refine wp_post (installEntry_spec hc.inv x) ?_
    rintro - u ⟨hu, -, hhu⟩
    have hx : x ∈ s.lh.block.zipIdx := hsub mem_cons_self
    refine ⟨fun _ he => hsub (mem_cons_of_mem _ he), ⟨hu, hc.byLog.trans (byLog_of_hist hhu),
      ?_⟩, ?_⟩
    · intro ha b hb
      rw [latest_of_hist hhu]
      split
      · rename_i hxb
        rw [hold ha x hx, hxb]
      · exact hc.outside ha b hb
    · intro ha e he
      rw [latest_of_hist hhu, if_neg (ha.slot_ne he (ha.outside x hx)).symm]
      exact hold ha e he
  refine wp_post (wp_forM hstep _ s ⟨fun _ he => he, ⟨h, .refl s, fun _ _ _ => rfl⟩, hslots⟩) ?_
  rintro - t ⟨-, hc, -⟩
  exact hc

theorem writeHead_committing (h : Inv d s) :
    wp (writeHead C) (fun _ t => Committing C d s t ∧ t.lh = s.lh ∧
      ∀ b, C.head ≠ b → latest d t.hist b = latest d s.hist b) (fun _ => True) s := by
  refine wp_post (writeHead_spec h) ?_
  rintro - t ⟨ht, hlh, x, hhist⟩
  have hsame : ∀ b, C.head ≠ b → latest d t.hist b = latest d s.hist b := fun b hb => by
    rw [latest_of_hist hhist, if_neg hb]
  exact ⟨⟨ht, byLog_of_hist hhist, fun _ b hb => hsame b (head_ne hb)⟩, hlh, hsame⟩

theorem commit_spec (h : Inv d s) :
    wp (commit C) (fun _ t => Committing C d s t ∧ (t.lh = s.lh ∨ t.lh = .empty))
      (fun _ => True) s := by
  rw [commit, wp_bind, wp_get, wp_ite]
  refine ⟨fun _ => ?_, fun _ => ⟨⟨h, .refl s, fun _ _ _ => rfl⟩, .inl rfl⟩⟩
  rw [wp_bind]
  refine wp_post (writeLog_spec h) ?_
  rintro - t ⟨ht, hlh, hslots⟩
  rw [wp_bind]
  refine wp_post (writeHead_committing ht.inv) ?_
  rintro - u ⟨hu, hlh', hsame⟩
  rw [wp_bind]
  have hul : u.lh = s.lh := hlh'.trans hlh
  have hslots' : Apart C u.lh → ∀ e ∈ u.lh.block.zipIdx,
      latest d u.hist (C.slot e.2) = latest d u.hist e.1 := by
    rw [hul]
    intro ha e he
    have hne : C.head ≠ C.slot e.2 := by
      intro heq
      have := congrArg UInt32.toNat heq
      rw [ha.slot_toNat he, Config.head, UInt32.toNat_ofNat_of_lt'] at this
      · omega
      · have := C.log_le
        have := C.disksize_lt
        have := C.log.size_pos
        simp only [UInt32.size]
        omega
    have hout := ha.outside e he
    rw [hsame _ hne, hsame _ (head_ne hout), hslots ha e he, ht.outside ha _ hout]
  refine wp_post (installTrans_spec hu.inv hslots') ?_
  intro _ v hv
  rw [wp_bind, clearHead, wp_modify]
  have hcleared : Inv d { v with lh := .empty } :=
    ⟨hv.inv.listed, hv.inv.unique, hv.inv.ok, hv.inv.disk, hv.inv.pending⟩
  refine wp_post (writeHead_committing hcleared) ?_
  rintro - w ⟨hw, hlw, hsamew⟩
  refine ⟨⟨hw.inv, ?_, ?_⟩, .inr hlw⟩
  · exact ((ht.byLog.trans hu.byLog).trans hv.byLog).trans ⟨hw.byLog.suffix, hw.byLog.client⟩
  · intro ha b hb
    have hat : Apart C t.lh := hlh ▸ ha
    have hau : Apart C u.lh := hul ▸ ha
    calc latest d w.hist b = latest d v.hist b := hsamew b (head_ne hb)
      _ = latest d u.hist b := hv.outside hau b hb
      _ = latest d t.hist b := hu.outside hat b hb
      _ = latest d s.hist b := ht.outside ha b hb

/-! ## Every run -/

/-- What is known of the log besides. -/
structure LogInv (C : Config) (d : Disk) (s : State N) : Prop where
  /-- The log has a slot for every block of the transaction. -/
  fits : s.lh.n ≤ C.log.size - 1
  /-- The transaction holds blocks passed to `log_write`. -/
  logged : ∀ c ∈ s.lh.block, .logWrite c ∈ s.hist
  /-- What `commit` stores outside the log was there already. -/
  client : (∀ c, .logWrite c ∈ s.hist → C.log.Outside c.toNat) →
    ∀ b : UInt32, C.log.Outside b.toNat → latest d s.hist b = latestClient d s.hist b

theorem LogInv.congr (h : LogInv C d s) (hlh : t.lh = s.lh) (hhist : t.hist = s.hist) :
    LogInv C d t := by
  obtain ⟨hfits, hlogged, hclient⟩ := h
  exact ⟨hlh ▸ hfits, by rwa [hlh, hhist], by rwa [hhist]⟩

theorem LogInv.write (h : LogInv C d s) (hlh : t.lh = s.lh) (hhist : t.hist = .write c :: s.hist) :
    LogInv C d t := by
  refine ⟨hlh ▸ h.fits, ?_, ?_⟩
  · rw [hlh, hhist]
    exact fun c hc => mem_cons_of_mem _ (h.logged c hc)
  · rw [hhist]
    exact fun hout b hb => h.client (fun c hc => hout c (mem_cons_of_mem _ hc)) b hb

theorem LogInv.store (h : LogInv C d s) (hlh : t.lh = s.lh)
    (hhist : t.hist = .store .client c x :: s.hist) : LogInv C d t := by
  refine ⟨hlh ▸ h.fits, ?_, ?_⟩
  · rw [hlh, hhist]
    exact fun c hc => mem_cons_of_mem _ (h.logged c hc)
  · rw [hhist]
    intro hout b hb
    have hold := h.client (fun c hc => hout c (mem_cons_of_mem _ hc)) b hb
    simp only [latest_store, latestClient, latestBy, decide_true, true_and]
    split
    · rfl
    · exact hold

theorem LogInv.logWrite (h : LogInv C d s) (hn : s.lh.n < LOGSIZE) (hroom : s.lh.n < C.log.size - 1)
    (hlh : t.lh = absorb s.lh c hn) (hhist : t.hist = .logWrite c :: s.hist) : LogInv C d t := by
  refine ⟨?_, ?_, ?_⟩
  · rw [hlh, absorb]
    split
    · exact h.fits
    · simp only [LogHeader.n, length_append, length_singleton] at hroom ⊢
      omega
  · rw [hlh, hhist, absorb]
    intro e he
    split at he
    · exact mem_cons_of_mem _ (h.logged e he)
    · rcases mem_append.1 he with he | he
      · exact mem_cons_of_mem _ (h.logged e he)
      · rw [mem_singleton.1 he]
        exact mem_cons_self
  · rw [hhist]
    exact fun hout b hb => h.client (fun c hc => hout c (mem_cons_of_mem _ hc)) b hb

theorem LogInv.commit (h : LogInv C d s) (hc : Committing C d s t)
    (hlh : t.lh = s.lh ∨ t.lh = .empty) : LogInv C d t := by
  refine ⟨?_, ?_, ?_⟩
  · rcases hlh with hlh | hlh
    · exact hlh ▸ h.fits
    · rw [hlh]
      exact Nat.zero_le _
  · rcases hlh with hlh | hlh
    · rw [hlh]
      exact fun c hc' => hc.byLog.suffix.subset (h.logged c hc')
    · simp [hlh, LogHeader.empty]
  · intro hout b hb
    have hout' : ∀ c, .logWrite c ∈ s.hist → C.log.Outside c.toNat :=
      fun c hc' => hout c (hc.byLog.suffix.subset hc')
    have hapart : Apart C s.lh :=
      ⟨fun e he => hout' e.1 (h.logged e.1 (fst_mem_of_mem_zipIdx he)), h.fits⟩
    rw [hc.outside hapart b hb, hc.byLog.client b]
    exact h.client hout' b hb

theorem call_spec (h : Inv d s) (hl : LogInv C d s) (c : Call N) (ha : c.Allowed s) :
    wp (c.run C) (fun _ t => Inv d t ∧ LogInv C d t) (fun _ => True) s := by
  cases c with
  | bget b =>
    rw [Call.run, wp_bind]
    refine wp_post (bref_spec h fun _ _ => trivial) ?_
    rintro i t ⟨ht, hr⟩
    exact ⟨ht, hl.congr hr.lh hr.hist⟩
  | wake i =>
    refine wp_post (wake_spec h ha (fun _ => trivial) fun _ => trivial) ?_
    rintro - t ⟨ht, hw⟩
    exact ⟨ht, hl.congr hw.lh hw.hist⟩
  | store i x =>
    refine wp_post (store_spec .client x h ha) ?_
    rintro - t ⟨ht, -, hlh, -, hhist⟩
    exact ⟨ht, hl.store hlh hhist⟩
  | logWrite i =>
    refine wp_post (logWrite_spec h ha fun _ => trivial) ?_
    rintro - t ⟨ht, -, hroom, ⟨hn, hlh⟩, hhist⟩
    exact ⟨ht, hl.logWrite hn hroom hlh hhist⟩
  | bwrite i =>
    refine wp_post (bwrite_spec h (fun _ => trivial) fun _ => trivial) ?_
    rintro - t ⟨ht, -, hlh, -, -, hhist⟩
    exact ⟨ht, hl.write hlh hhist⟩
  | brelse i =>
    refine wp_post (brelse_spec h ha fun _ => trivial) ?_
    rintro - t ⟨ht, -, hlh, hhist⟩
    exact ⟨ht, hl.congr hlh hhist⟩
  | commit =>
    refine wp_post (commit_spec h) ?_
    rintro - t ⟨hc, hlh⟩
    exact ⟨hc.inv, hl.commit hc hlh⟩

theorem inv_of_reach (h : (system C N d).Reach (fun _ _ => True) s) :
    Inv d s ∧ LogInv C d s := by
  refine h.invariant (I := fun s => Inv d s ∧ LogInv C d s) ?_ ?_
  · rintro s rfl
    exact ⟨inv_binit N d, by simp [binit, LogHeader.empty, LogHeader.n],
      by simp [binit, LogHeader.empty], fun _ _ _ => rfl⟩
  · rintro s c t ⟨hs, hl⟩ - hstep
    simp only [system, step] at hstep
    split at hstep
    · rename_i ha
      split at hstep
      · rename_i r hr
        cases hstep
        have hpost := wp_ok (call_spec hs hl c ha) hr
        exact hpost
      · cases hstep
    · cases hstep

/-- A disk of 100 blocks with the log in blocks 2 to 31. -/
def smallDisk : Config where
  disksize := 100
  log := ⟨2, 30, by decide⟩
  log_le := by decide
  disksize_lt := by decide

end Xv6.Bio
