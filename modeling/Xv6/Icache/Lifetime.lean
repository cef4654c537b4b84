import Xv6.Icache.Machine

/-!
# Identity and lifetime of cached inodes

* `Inv` — what holds between any two steps, and `step_inv`: every step keeps it.
  The steps fall into a few groups: those that move a lock (`Inv.lockStep`), those
  by which the holder of a lock changes the entry and the disk
  (`Inv.entryStep`), those that add or drop a reference (`Inv.addRef`,
  `Inv.newEntry`, `Inv.drop`), and `ialloc` (`Inv.ialloc`).
* `icache_lifetime` — an inode has at most one entry in use, `ref` counts the
  references, entries in use keep their inode, an inode is freed by the one
  process that refers to it and has no links then, and `ialloc` gives out only
  inodes nobody refers to, but for a process that has just freed it.
-/

namespace Xv6.Icache

open Xv6.Lib Xv6.Fs Function Finset Option
open State (goto setDisk setLock setRefs)

variable {N : ℕ} {P : Type}

/-! ## Places -/

/-- The process is in `ilock` or `iput` and has the lock of the entry. -/
def Place.works (i : Fin N) : Place N → Bool
  | .loading j => i = j
  | .checking j => i = j
  | .truncating j => i = j
  | .clearing j => i = j
  | .invalidating j => i = j
  | .releasing j _ => i = j
  | _ => false

/-- The process is about to drop a reference to the entry. -/
def Place.drops (i : Fin N) : Place N → Bool
  | .dropping j _ => i = j
  | _ => false

/-- The process has decided to free the inode of the entry. -/
def Place.frees (i : Fin N) : Place N → Bool
  | .truncating j => i = j
  | .clearing j => i = j
  | _ => false

/-- The process has freed the inode of the entry and not dropped its reference
yet. -/
def Place.freed (i : Fin N) : Place N → Bool
  | .invalidating j => i = j
  | .releasing j f => i = j ∧ f = true
  | .dropping j f => i = j ∧ f = true
  | _ => false

theorem Place.works_of_frees {i : Fin N} {x : Place N} (h : x.frees i = true) :
    x.works i = true := by
  cases x <;> simp_all [Place.frees, Place.works]

theorem Place.freed_of_frees {i j : Fin N} {x : Place N} (h : x.frees i = true) :
    x.freed j = false := by
  cases x <;> simp_all [Place.frees, Place.freed]

/-! ## Invariant -/

/-- The inode is free, or `ialloc` has marked it and not got a reference yet. -/
def State.Unowned (s : State N P) (k : Key) : Prop :=
  (s.disk k).type = 0 ∨ ∃ q, s.place q = .allocated k

/-- What holds of process `p` at place `x`. -/
structure Proc (s : State N P) (p : P) (x : Place N) : Prop where
  /-- Who holds a lock has a reference. -/
  held : ∀ i, s.lock i = some p → 0 < s.refs p i
  works : ∀ i, x.works i = true → s.lock i = some p
  drops : ∀ i, x.drops i = true → 0 < s.refs p i ∧ s.lock i ≠ some p
  /-- After `ilock` the entry is valid. -/
  loaded : ∀ i, s.lock i = some p → x.works i = false → (s.entry i).valid = true
  /-- Who has decided to free an inode has the only reference. -/
  frees : ∀ i, x.frees i = true → (s.entry i).ref = 1 ∧ (s.entry i).valid = true ∧
    (s.disk (s.entry i).key).nlink = 0
  /-- Only who has just freed an inode has a reference to an unowned one. -/
  gone : ∀ i, 0 < s.refs p i → s.Unowned (s.entry i).key → (s.entry i).ref = 1 ∧
    x.freed i = true ∧
      ((s.disk (s.entry i).key).type = 0 → (s.entry i).valid = true → x = .invalidating i)
  /-- An inode that `ialloc` has marked has no links, and is marked by one process. -/
  fresh : ∀ k, x = .allocated k → (s.disk k).type ≠ 0 ∧ (s.disk k).nlink = 0 ∧
    ∀ q, s.place q = .allocated k → q = p

/-- What holds between two steps. -/
structure Inv [Fintype P] (s : State N P) : Prop where
  count : ∀ i, (s.entry i).ref = ∑ p, s.refs p i
  unique : ∀ i j, 0 < (s.entry i).ref → 0 < (s.entry j).ref →
    (s.entry i).key = (s.entry j).key → i = j
  typed : ∀ k, (s.disk k).type = 0 → (s.disk k).nlink = 0
  /-- The copy is what the disk has, unless its owner is about to invalidate it. -/
  agree : ∀ i, 0 < (s.entry i).ref → (s.entry i).valid = true →
    (∀ p, s.place p ≠ .invalidating i) → (s.entry i).copy = s.disk (s.entry i).key
  proc : ∀ p, Proc s p (s.place p)

section Facts

variable [Fintype P] {s t : State N P} {p q : P} {i j : Fin N} {x : Place N}

theorem Inv.refs_le (h : Inv s) : s.refs p i ≤ (s.entry i).ref := by
  rw [h.count i]
  exact single_le_sum (f := fun q => s.refs q i) (fun _ _ => Nat.zero_le _)
    (mem_univ p)

theorem Inv.ref_pos (h : Inv s) (hp : 0 < s.refs p i) : 0 < (s.entry i).ref :=
  hp.trans_le h.refs_le

theorem Inv.exists_refs (h : Inv s) (hi : 0 < (s.entry i).ref) : ∃ q, 0 < s.refs q i := by
  by_contra hno
  have hzero : ∑ q, s.refs q i = 0 := by
    refine sum_eq_zero fun q _ => ?_
    by_contra hq
    exact hno ⟨q, Nat.pos_of_ne_zero hq⟩
  rw [h.count i, hzero] at hi
  exact absurd hi (lt_irrefl 0)

theorem Inv.sole (h : Inv s) (hi : (s.entry i).ref = 1) (hp : 0 < s.refs p i)
    (hq : 0 < s.refs q i) : q = p := by
  classical
  by_contra hne
  have hle := add_le_sum (f := fun q => s.refs q i) (fun _ _ => Nat.zero_le _)
    (mem_univ p) (mem_univ q) (Ne.symm hne)
  rw [← h.count i, hi] at hle
  omega

theorem Inv.refs_of_frees (h : Inv s) (hp : (s.place p).frees i = true) : 0 < s.refs p i :=
  (h.proc p).held i ((h.proc p).works i (Place.works_of_frees hp))

theorem Inv.key_ne (h : Inv s) (hi : 0 < (s.entry i).ref) (hj : 0 < (s.entry j).ref)
    (hne : j ≠ i) : (s.entry j).key ≠ (s.entry i).key :=
  fun hkey => hne (h.unique j i hj hi hkey)

theorem Inv.eq_of_frees (h : Inv s) (hr : 0 < s.refs p i) (hq : (s.place q).frees i = true) :
    q = p := h.sole ((h.proc q).frees i hq).1 hr (h.refs_of_frees hq)

theorem Inv.owned (h : Inv s) (hr : 0 < s.refs p i) (hp : (s.place p).freed i = false) :
    ¬s.Unowned (s.entry i).key := by
  intro hun
  have hfreed := ((h.proc p).gone i hr hun).2.1
  simp [hp] at hfreed

theorem Inv.copy_eq (h : Inv s) (hl : s.lock i = some p) (hp : s.place p ≠ .invalidating i)
    (hv : (s.entry i).valid = true) : (s.entry i).copy = s.disk (s.entry i).key := by
  refine h.agree i (h.ref_pos ((h.proc p).held i hl)) hv fun q hq => hp ?_
  have hlq := (h.proc q).works i (by simp [hq, Place.works])
  rw [hl, some_inj] at hlq
  rw [hlq, hq]

theorem Inv.freeing (h : Inv s) (hp : (s.place p).frees i = true) :
    s.lock i = some p ∧ (s.entry i).valid = true ∧ (s.entry i).ref = 1 ∧
      (s.entry i).copy = s.disk (s.entry i).key ∧ (s.disk (s.entry i).key).nlink = 0 ∧
      (s.disk (s.entry i).key).type ≠ 0 := by
  have hl := (h.proc p).works i (Place.works_of_frees hp)
  obtain ⟨hone, hv, hn⟩ := (h.proc p).frees i hp
  refine ⟨hl, hv, hone, h.copy_eq hl ?_ hv, hn, fun ht => ?_⟩
  · intro hinv
    simp [hinv, Place.frees] at hp
  · exact h.owned ((h.proc p).held i hl) (Place.freed_of_frees hp) (.inl ht)

theorem init_inv {disk : Key → Dinode} (hdisk : ∀ k, (disk k).type = 0 → (disk k).nlink = 0) :
    Inv (boot N P disk) := by
  refine ⟨fun i => by simp [boot], fun i j hi => ?_, hdisk, fun i hi => ?_, fun p => ?_⟩
  · simp [boot] at hi
  · simp [boot] at hi
  · exact ⟨nofun, nofun, nofun, nofun, nofun, fun i hi => by simp [boot] at hi, nofun⟩

omit [Fintype P] in
theorem Proc.frame (h : Proc s q x) (hrefs : t.refs q = s.refs q)
    (hlock : ∀ j, t.lock j = some q ↔ s.lock j = some q)
    (hvalid : ∀ j, s.lock j = some q → (s.entry j).valid = true → (t.entry j).valid = true)
    (hfrees : ∀ j, x.frees j = true → (t.entry j).ref = (s.entry j).ref ∧
      (t.entry j).valid = (s.entry j).valid ∧
      (t.disk (t.entry j).key).nlink = (s.disk (s.entry j).key).nlink)
    (hgone : ∀ j, 0 < s.refs q j → t.Unowned (t.entry j).key → s.Unowned (s.entry j).key ∧
      (t.entry j).ref = (s.entry j).ref ∧
      ((t.disk (t.entry j).key).type = 0 → (t.entry j).valid = true →
        (s.disk (s.entry j).key).type = 0 ∧ (s.entry j).valid = true))
    (hfresh : ∀ k, x = .allocated k → t.disk k = s.disk k ∧
      ∀ r, t.place r = .allocated k → s.place r = .allocated k) : Proc t q x where
  held j hj := by
    rw [hrefs]
    exact h.held j ((hlock j).1 hj)
  works j hj := (hlock j).2 (h.works j hj)
  drops j hj := by
    rw [hrefs]
    exact ⟨(h.drops j hj).1, fun hl => (h.drops j hj).2 ((hlock j).1 hl)⟩
  loaded j hl hx := hvalid j ((hlock j).1 hl) (h.loaded j ((hlock j).1 hl) hx)
  frees j hj := by
    obtain ⟨h1, h2, h3⟩ := hfrees j hj
    rw [h1, h2, h3]
    exact h.frees j hj
  gone j hr hun := by
    rw [hrefs] at hr
    obtain ⟨h1, h2, h3⟩ := hgone j hr hun
    obtain ⟨g1, g2, g3⟩ := h.gone j hr h1
    exact ⟨h2.trans g1, g2, fun ht hv => g3 (h3 ht hv).1 (h3 ht hv).2⟩
  fresh k hk := by
    obtain ⟨h1, h2⟩ := hfresh k hk
    obtain ⟨g1, g2, g3⟩ := h.fresh k hk
    rw [h1]
    exact ⟨g1, g2, fun r hr => g3 r (h2 r hr)⟩

end Facts

/-! ## Steps -/

section Steps

variable [DecidableEq P] {s t : State N P} {p : P} {i : Fin N} {y : Place N}

variable {k : Key} {a : Act N P}

theorem unowned_goto (hs : ∀ k, s.place p ≠ .allocated k) (hy : ∀ k, y ≠ .allocated k)
    (hplace : t.place = update s.place p y) (hdisk : (t.disk k).type = (s.disk k).type) :
    t.Unowned k ↔ s.Unowned k := by
  refine or_congr (by rw [hdisk]) ⟨?_, ?_⟩
  · rintro ⟨q, hq⟩
    by_cases hqp : q = p
    · subst hqp
      rw [hplace, update_self] at hq
      exact absurd hq (hy k)
    · rw [hplace, update_of_ne hqp] at hq
      exact ⟨q, hq⟩
  · rintro ⟨q, hq⟩
    by_cases hqp : q = p
    · subst hqp
      exact absurd hq (hs k)
    · exact ⟨q, by rw [hplace, update_of_ne hqp, hq]⟩

theorem forall_proc (hplace : t.place = update s.place p y) (hp : Proc t p y)
    (hother : ∀ q, q ≠ p → Proc t q (s.place q)) : ∀ q, Proc t q (t.place q) := by
  rw [hplace]
  exact (forall_update_iff s.place fun q x => Proc t q x).2 ⟨hp, hother⟩

theorem Inv.lockStep [Fintype P] (h : Inv s) {lock : Fin N → Option P}
    (hother : ∀ q, q ≠ p → ∀ j, lock j = some q ↔ s.lock j = some q)
    (hheld : ∀ j, lock j = some p → 0 < s.refs p j)
    (hworks : ∀ j, y.works j = true → lock j = some p)
    (hdrops : ∀ j, y.drops j = true → 0 < s.refs p j ∧ lock j ≠ some p)
    (hloaded : ∀ j, lock j = some p → y.works j = false → (s.entry j).valid = true)
    (hfrees : ∀ j, y.frees j = true → (s.entry j).ref = 1 ∧ (s.entry j).valid = true ∧
      (s.disk (s.entry j).key).nlink = 0)
    (hfreed : ∀ j, (s.place p).freed j = true → y.freed j = true)
    (hstale : ∀ j, s.place p ≠ .invalidating j) (hs : ∀ k, s.place p ≠ .allocated k)
    (hy : ∀ k, y ≠ .allocated k) :
    Inv { s with lock := lock, place := update s.place p y } := by
  have hun : ∀ k, ({ s with lock := lock, place := update s.place p y } :
      State N P).Unowned k ↔ s.Unowned k := fun k => unowned_goto hs hy rfl rfl
  refine ⟨h.count, h.unique, h.typed, fun j hj hv hst => h.agree j hj hv fun q => ?_,
    forall_proc rfl ?_ fun q hq => (h.proc q).frame rfl (hother q hq) (fun _ _ hv => hv)
      (fun _ _ => ⟨rfl, rfl, rfl⟩) (fun j _ hj => ⟨(hun _).1 hj, rfl, fun ht hv => ⟨ht, hv⟩⟩)
      fun k _ => ⟨rfl, fun r hr => ?_⟩⟩
  · by_cases hqp : q = p
    · subst hqp
      exact hstale j
    · simpa [update_of_ne hqp] using hst q
  · refine ⟨hheld, hworks, hdrops, hloaded, hfrees, fun j hr hj => ?_,
      fun k hk => absurd hk (hy k)⟩
    obtain ⟨h1, h2, h3⟩ := (h.proc p).gone j hr ((hun _).1 hj)
    exact ⟨h1, hfreed j h2, fun ht hv => absurd (h3 ht hv) (hstale j)⟩
  · by_cases hrp : r = p
    · subst hrp
      exact absurd (by simpa using hr) (hy k)
    · simpa [update_of_ne hrp] using hr

/-- The holder of a lock changes the entry and the inode on the disk. -/
def State.rewrite (s : State N P) (p : P) (i : Fin N) (e : Entry) (d : Dinode) (y : Place N) :
    State N P :=
  { s with
    entry := update s.entry i e
    disk := update s.disk (s.entry i).key d
    place := update s.place p y }

/-- What such a step may do. -/
structure Rewrites (s : State N P) (p : P) (i : Fin N) (e : Entry) (d : Dinode) (y : Place N) :
    Prop where
  lock : s.lock i = some p
  key : e.key = (s.entry i).key
  ref : e.ref = (s.entry i).ref
  agree : e.valid = true → y ≠ .invalidating i → e.copy = d
  loaded : y.works i = false → e.valid = true
  typed : d.type = 0 → d.nlink = 0
  frees : y.frees i = true → e.ref = 1 ∧ e.valid = true ∧ d.nlink = 0
  gone : d.type = 0 → e.ref = 1 ∧ y.freed i = true ∧ (e.valid = true → y = .invalidating i)
  freed : (s.place p).freed i = true → d = s.disk (s.entry i).key ∧ y.freed i = true
  only : ∀ j, j ≠ i → (s.place p).works j = false ∧ (s.place p).freed j = false ∧
    y.works j = false
  drops : ∀ j, y.drops j = false
  before : ∀ k, s.place p ≠ .allocated k
  after : ∀ k, y ≠ .allocated k

section Rewrite

variable {e : Entry} {d : Dinode}

theorem rewrite_entry_self : (s.rewrite p i e d y).entry i = e := update_self _ _ _

theorem rewrite_entry {j : Fin N} (hj : j ≠ i) : (s.rewrite p i e d y).entry j = s.entry j :=
  update_of_ne hj _ _

theorem rewrite_disk_self : (s.rewrite p i e d y).disk (s.entry i).key = d :=
  update_self _ _ _

theorem rewrite_disk (hk : k ≠ (s.entry i).key) :
    (s.rewrite p i e d y).disk k = s.disk k := update_of_ne hk _ _

theorem Rewrites.ref_eq (w : Rewrites s p i e d y) (j : Fin N) :
    ((s.rewrite p i e d y).entry j).ref = (s.entry j).ref := by
  by_cases hj : j = i
  · rw [hj, rewrite_entry_self, w.ref]
  · rw [rewrite_entry hj]

theorem Rewrites.key_eq (w : Rewrites s p i e d y) (j : Fin N) :
    ((s.rewrite p i e d y).entry j).key = (s.entry j).key := by
  by_cases hj : j = i
  · rw [hj, rewrite_entry_self, w.key]
  · rw [rewrite_entry hj]

theorem Rewrites.allocated (w : Rewrites s p i e d y) {r : P}
    (hr : (s.rewrite p i e d y).place r = .allocated k) : s.place r = .allocated k := by
  dsimp only [State.rewrite] at hr
  by_cases hrp : r = p
  · subst hrp
    rw [update_self] at hr
    exact absurd hr (w.after k)
  · rwa [update_of_ne hrp] at hr

variable [Fintype P]

theorem Rewrites.disk_other (w : Rewrites s p i e d y) (h : Inv s) {j : Fin N} (hj : j ≠ i)
    (hpos : 0 < (s.entry j).ref) :
    (s.rewrite p i e d y).disk (s.entry j).key = s.disk (s.entry j).key :=
  rewrite_disk (h.key_ne (h.ref_pos ((h.proc p).held i w.lock)) hpos hj)

theorem Rewrites.unowned_other (w : Rewrites s p i e d y) (h : Inv s) {j : Fin N} (hj : j ≠ i)
    (hpos : 0 < (s.entry j).ref) (hun : (s.rewrite p i e d y).Unowned (s.entry j).key) :
    s.Unowned (s.entry j).key :=
  (unowned_goto w.before w.after rfl (congrArg Dinode.type (w.disk_other h hj hpos))).1 hun

theorem Rewrites.agrees (w : Rewrites s p i e d y) (h : Inv s) (j : Fin N)
    (hj : 0 < ((s.rewrite p i e d y).entry j).ref)
    (hv : ((s.rewrite p i e d y).entry j).valid = true)
    (hst : ∀ q, (s.rewrite p i e d y).place q ≠ .invalidating j) :
    ((s.rewrite p i e d y).entry j).copy
      = (s.rewrite p i e d y).disk ((s.rewrite p i e d y).entry j).key := by
  by_cases hji : j = i
  · subst hji
    rw [rewrite_entry_self] at hv ⊢
    rw [w.key, rewrite_disk_self]
    refine w.agree hv fun hy => hst p ?_
    exact (update_self _ _ _).trans hy
  · rw [rewrite_entry hji] at hj hv ⊢
    rw [w.disk_other h hji hj]
    refine h.agree j hj hv fun q hq => ?_
    by_cases hqp : q = p
    · subst hqp
      have hw := (w.only j hji).1
      rw [hq] at hw
      simp [Place.works] at hw
    · exact hst q ((update_of_ne hqp _ _).trans hq)

theorem Rewrites.proc_self (w : Rewrites s p i e d y) (h : Inv s) :
    Proc (s.rewrite p i e d y) p y := by
  have hrp := (h.proc p).held i w.lock
  refine ⟨(h.proc p).held, ?_, ?_, ?_, ?_, ?_, fun k hk => absurd hk (w.after k)⟩
  · intro j hj
    by_cases hji : j = i
    · rw [hji]
      exact w.lock
    · simp [(w.only j hji).2.2] at hj
  · intro j hj
    simp [w.drops j] at hj
  · intro j hl hw
    by_cases hji : j = i
    · subst hji
      rw [rewrite_entry_self]
      exact w.loaded hw
    · rw [rewrite_entry hji]
      exact (h.proc p).loaded j hl (w.only j hji).1
  · intro j hj
    by_cases hji : j = i
    · subst hji
      rw [rewrite_entry_self, w.key, rewrite_disk_self]
      exact w.frees hj
    · have hw := Place.works_of_frees hj
      simp [(w.only j hji).2.2] at hw
  · intro j hr hj
    by_cases hji : j = i
    · subst hji
      rw [rewrite_entry_self, w.key] at hj ⊢
      rw [rewrite_disk_self]
      rcases hj with hd | ⟨r, hr'⟩
      · rw [rewrite_disk_self] at hd
        obtain ⟨g1, g2, g3⟩ := w.gone hd
        exact ⟨g1, g2, fun _ => g3⟩
      · -- somebody in `ialloc` has marked the inode: `p` has freed it before
        obtain ⟨g1, g2, -⟩ := (h.proc p).gone j hrp (.inr ⟨r, w.allocated hr'⟩)
        exact ⟨w.ref.trans g1, (w.freed g2).2, fun hd => (w.gone hd).2.2⟩
    · rw [rewrite_entry hji] at hj ⊢
      have hfj := ((h.proc p).gone j hr (w.unowned_other h hji (h.ref_pos hr) hj)).2.1
      simp [(w.only j hji).2.1] at hfj

theorem Rewrites.proc_other (w : Rewrites s p i e d y) (h : Inv s) {q : P} (hq : q ≠ p) :
    Proc (s.rewrite p i e d y) q (s.place q) := by
  have hrp := (h.proc p).held i w.lock
  refine (h.proc q).frame rfl (fun _ => Iff.rfl) ?_ ?_ ?_ ?_
  · intro j hl hv
    have hji : j ≠ i := by
      rintro rfl
      rw [w.lock] at hl
      exact hq (some_inj.1 hl).symm
    rwa [rewrite_entry hji]
  · intro j hj
    have hji : j ≠ i := by
      rintro rfl
      exact hq (h.eq_of_frees hrp hj)
    rw [rewrite_entry hji, w.disk_other h hji (h.ref_pos (h.refs_of_frees hj))]
    exact ⟨rfl, rfl, rfl⟩
  · intro j hr hj
    by_cases hji : j = i
    · -- two processes refer to the entry, so its inode is not unowned
      subst hji
      rw [w.key_eq] at hj
      exfalso
      rcases hj with hd | ⟨r, hr'⟩
      · rw [rewrite_disk_self] at hd
        exact hq (h.sole (w.ref ▸ (w.gone hd).1) hrp hr)
      · exact hq (h.sole ((h.proc q).gone j hr (.inr ⟨r, w.allocated hr'⟩)).1 hrp hr)
    · rw [rewrite_entry hji] at hj ⊢
      rw [w.disk_other h hji (h.ref_pos hr)]
      exact ⟨w.unowned_other h hji (h.ref_pos hr) hj, rfl, fun ht hv => ⟨ht, hv⟩⟩
  · intro k hk
    refine ⟨?_, fun r hr => w.allocated hr⟩
    by_cases hki : k = (s.entry i).key
    · -- the inode marked is the one `p` has freed, and `p` does not write it again
      have hg := (h.proc p).gone i hrp (.inr ⟨q, hki ▸ hk⟩)
      rw [hki, rewrite_disk_self, (w.freed hg.2.1).1]
    · rw [rewrite_disk hki]

theorem Inv.rewrite (h : Inv s) (w : Rewrites s p i e d y) : Inv (s.rewrite p i e d y) := by
  refine ⟨fun j => (w.ref_eq j).trans (h.count j), fun j k => ?_, fun k => ?_, w.agrees h,
    forall_proc rfl (w.proc_self h) fun q hq => w.proc_other h hq⟩
  · rw [w.ref_eq, w.ref_eq, w.key_eq, w.key_eq]
    exact h.unique j k
  · by_cases hk : k = (s.entry i).key
    · rw [hk, rewrite_disk_self]
      exact w.typed
    · rw [rewrite_disk hk]
      exact h.typed k

end Rewrite

/-! ### References -/

section Refs

theorem sum_setRefs [Fintype P] (s : State N P) (p : P) (i j : Fin N) (n : ℕ) :
    ∑ q, (s.setRefs p i n).refs q j + s.refs p j
      = ∑ q, s.refs q j + if j = i then n else s.refs p j := by
  have hsum := sum_update_add (fun _ (r : Fin N → ℕ) => r j) s.refs p
    (update (s.refs p) i n)
  by_cases hj : j = i
  · subst hj
    simpa [setRefs] using hsum
  · simpa [setRefs, hj] using hsum

variable {n : ℕ} {f : Bool}

theorem setRefs_other {q : P} (hq : q ≠ p) : (s.setRefs p i n).refs q = s.refs q :=
  update_of_ne hq _ _

theorem setRefs_self : (s.setRefs p i n).refs p i = n := by
  simp [setRefs]

theorem setRefs_ne {j : Fin N} (hj : j ≠ i) : (s.setRefs p i n).refs p j = s.refs p j := by
  simp [setRefs, hj]

/-- One more reference to an entry, by `iget` or `idup`. -/
def State.refer (s : State N P) (p : P) (i : Fin N) (e : Entry) : State N P :=
  ((s.setEntry i e).setRefs p i (s.refs p i + 1)).goto p .idle

theorem refer_entry_self {e : Entry} : (s.refer p i e).entry i = e := update_self _ _ _

theorem refer_entry {e : Entry} {j : Fin N} (hj : j ≠ i) :
    (s.refer p i e).entry j = s.entry j := update_of_ne hj _ _

theorem refer_refs {e : Entry} {q : P} (hq : q ≠ p) : (s.refer p i e).refs q = s.refs q :=
  setRefs_other hq

theorem refer_place {e : Entry} : (s.refer p i e).place = update s.place p .idle := rfl

/-- What a reference may be taken to: an inode that is owned and that nobody frees,
whose entry it is then. -/
structure Refers (s : State N P) (p : P) (i : Fin N) (e : Entry) : Prop where
  place : s.place p = .idle ∨ s.place p = .allocated e.key
  ref : e.ref = (s.entry i).ref + 1
  type : (s.disk e.key).type ≠ 0
  mine : ∀ q, q ≠ p → s.place q ≠ .allocated e.key
  frees : ∀ q, (s.place q).frees i = false
  only : ∀ j, j ≠ i → 0 < (s.entry j).ref → (s.entry j).key ≠ e.key
  /-- The entry is that of the inode already, or is empty. -/
  keeps : 0 < (s.entry i).ref → e.key = (s.entry i).key ∧ e.valid = (s.entry i).valid ∧
    e.copy = (s.entry i).copy
  empty : (s.entry i).ref = 0 → e.valid = false

variable {e : Entry}

theorem Refers.not_unowned (w : Refers s p i e) : ¬(s.refer p i e).Unowned e.key := by
  rintro (ht | ⟨q, hq⟩)
  · exact w.type ht
  · by_cases hqp : q = p
    · subst hqp
      simp [State.refer, goto] at hq
    · simp only [State.refer, goto, update_of_ne hqp] at hq
      exact w.mine q hqp hq

theorem Refers.unowned (w : Refers s p i e) (hk : (s.refer p i e).Unowned k) :
    s.Unowned k := by
  rcases hk with ht | ⟨q, hq⟩
  · exact .inl ht
  · by_cases hqp : q = p
    · subst hqp
      simp [State.refer, goto] at hq
    · simp only [State.refer, goto, update_of_ne hqp] at hq
      exact .inr ⟨q, hq⟩

omit [DecidableEq P] in
theorem Refers.place_eq (w : Refers s p i e) (j : Fin N) :
    (s.place p).works j = false ∧ (s.place p).freed j = false ∧ s.place p ≠ .invalidating j := by
  rcases w.place with hp | hp <;> rw [hp] <;> exact ⟨rfl, rfl, nofun⟩

variable [Fintype P]

theorem Refers.proc_self (w : Refers s p i e) (h : Inv s) : Proc (s.refer p i e) p .idle := by
  have hle : ∀ j, s.refs p j ≤ (s.refer p i e).refs p j := by
    intro j
    by_cases hj : j = i
    · subst hj
      simp [State.refer, goto, setRefs]
    · simp [State.refer, goto, setRefs, hj, State.setEntry]
  refine ⟨fun j hl => ((h.proc p).held j hl).trans_le (hle j), nofun, nofun, ?_, nofun, ?_, nofun⟩
  · intro j hl _
    have hv := (h.proc p).loaded j hl (w.place_eq j).1
    by_cases hj : j = i
    · subst hj
      rw [refer_entry_self, (w.keeps (h.ref_pos ((h.proc p).held j hl))).2.1, hv]
    · rw [refer_entry hj, hv]
  · intro j hr hun
    exfalso
    by_cases hj : j = i
    · subst hj
      rw [refer_entry_self] at hun
      exact w.not_unowned hun
    · rw [refer_entry hj] at hun
      have hr' : 0 < s.refs p j := by
        simpa [State.refer, goto, setRefs, hj, State.setEntry] using hr
      have hfreed := ((h.proc p).gone j hr' (w.unowned hun)).2.1
      simp [(w.place_eq j).2.1] at hfreed

theorem Refers.proc_other (w : Refers s p i e) (h : Inv s) {q : P} (hq : q ≠ p) :
    Proc (s.refer p i e) q (s.place q) := by
  refine (h.proc q).frame (refer_refs hq) (fun _ => Iff.rfl) ?_ ?_ ?_ ?_
  · intro j hl hv
    by_cases hj : j = i
    · subst hj
      rw [refer_entry_self, (w.keeps (h.ref_pos ((h.proc q).held j hl))).2.1, hv]
    · rw [refer_entry hj, hv]
  · intro j hj
    have hji : j ≠ i := by
      rintro rfl
      simp [w.frees q] at hj
    rw [refer_entry hji]
    exact ⟨rfl, rfl, rfl⟩
  · intro j hr hun
    by_cases hj : j = i
    · subst hj
      rw [refer_entry_self] at hun
      exact absurd hun w.not_unowned
    · rw [refer_entry hj] at hun ⊢
      exact ⟨w.unowned hun, rfl, fun ht hv => ⟨ht, hv⟩⟩
  · intro k _
    refine ⟨rfl, fun r hr => ?_⟩
    by_cases hrp : r = p
    · subst hrp
      simp [State.refer, goto] at hr
    · simpa [refer_place, update_of_ne hrp] using hr

theorem Inv.refer (h : Inv s) (w : Refers s p i e) : Inv (s.refer p i e) := by
  refine ⟨fun j => ?_, fun j k hj hk hkey => ?_, h.typed, fun j hj hv hst => ?_,
    forall_proc rfl (w.proc_self h) fun q hq => w.proc_other h hq⟩
  · have hsum := sum_setRefs (s.setEntry i e) p i j (s.refs p i + 1)
    change ((s.refer p i e).entry j).ref = ∑ q, ((s.setEntry i e).setRefs p i _).refs q j
    have hc := h.count j
    simp only [State.setEntry] at hsum ⊢
    by_cases hj : j = i
    · subst hj
      rw [refer_entry_self, w.ref]
      simp only [if_pos] at hsum
      omega
    · rw [refer_entry hj]
      simp only [if_neg hj] at hsum
      omega
  · by_cases hji : j = i <;> by_cases hki : k = i
    · rw [hji, hki]
    · subst hji
      rw [refer_entry_self, refer_entry hki] at hkey
      rw [refer_entry hki] at hk
      exact absurd hkey.symm (w.only k hki hk)
    · subst hki
      rw [refer_entry_self, refer_entry hji] at hkey
      rw [refer_entry hji] at hj
      exact absurd hkey (w.only j hji hj)
    · rw [refer_entry hji, refer_entry hki] at hkey
      rw [refer_entry hji] at hj
      rw [refer_entry hki] at hk
      exact h.unique j k hj hk hkey
  · have hst' : ∀ q, s.place q ≠ .invalidating j := by
      intro q
      by_cases hqp : q = p
      · subst hqp
        exact (w.place_eq j).2.2
      · simpa [refer_place, update_of_ne hqp] using hst q
    by_cases hji : j = i
    · subst hji
      rw [refer_entry_self] at hv ⊢
      have hpos : 0 < (s.entry j).ref := by
        by_contra hzero
        simp [w.empty (by omega)] at hv
      obtain ⟨h1, h2, h3⟩ := w.keeps hpos
      rw [h1, h3]
      exact h.agree j hpos (h2 ▸ hv) hst'
    · rw [refer_entry hji] at hj hv ⊢
      exact h.agree j hj hv hst'

end Refs

section Drop

variable {f : Bool}

/-- One reference less, at the end of `iput`. -/
def State.unrefer (s : State N P) (p : P) (i : Fin N) : State N P :=
  ((s.setEntry i { s.entry i with ref := (s.entry i).ref - 1 }).setRefs p i
    (s.refs p i - 1)).goto p .idle

theorem unrefer_entry_self :
    (s.unrefer p i).entry i = { s.entry i with ref := (s.entry i).ref - 1 } :=
  update_self _ _ _

theorem unrefer_entry {j : Fin N} (hj : j ≠ i) : (s.unrefer p i).entry j = s.entry j :=
  update_of_ne hj _ _

theorem unrefer_same (j : Fin N) : ((s.unrefer p i).entry j).key = (s.entry j).key ∧
    ((s.unrefer p i).entry j).valid = (s.entry j).valid ∧
    ((s.unrefer p i).entry j).copy = (s.entry j).copy ∧
    ((s.unrefer p i).entry j).ref ≤ (s.entry j).ref := by
  by_cases hj : j = i
  · subst hj
    rw [unrefer_entry_self]
    exact ⟨rfl, rfl, rfl, Nat.sub_le _ _⟩
  · rw [unrefer_entry hj]
    exact ⟨rfl, rfl, rfl, le_rfl⟩

theorem unrefer_refs_le (q : P) (j : Fin N) : (s.unrefer p i).refs q j ≤ s.refs q j := by
  by_cases hq : q = p
  · subst hq
    by_cases hj : j = i
    · subst hj
      simp [State.unrefer, goto, setRefs]
    · simp [State.unrefer, goto, setRefs, hj, State.setEntry]
  · exact le_of_eq (congrFun (setRefs_other hq) j)

theorem unowned_unrefer (hp : s.place p = .dropping i f) :
    (s.unrefer p i).Unowned k ↔ s.Unowned k :=
  unowned_goto (y := .idle) (by simp [hp]) nofun rfl rfl

variable [Fintype P]

theorem Inv.ne_of_drop (h : Inv s) (hp : s.place p = .dropping i f) {q : P} {j : Fin N}
    (hr : 0 < (s.unrefer p i).refs q j) (hun : s.Unowned (s.entry j).key) : q ≠ p ∧ j ≠ i := by
  have hrs := hr.trans_le (unrefer_refs_le q j)
  have hg := (h.proc q).gone j hrs hun
  have hpos := ((h.proc p).drops i (by simp [hp, Place.drops])).1
  have hji : j ≠ i := by
    rintro rfl
    -- the reference dropped is the only one
    obtain rfl := h.sole hg.1 hpos hrs
    have hle : s.refs q j ≤ (s.entry j).ref := h.refs_le
    have hone : (s.unrefer q j).refs q j = s.refs q j - 1 := setRefs_self
    omega
  refine ⟨?_, hji⟩
  rintro rfl
  have hfreed := hg.2.1
  simp [hp, Place.freed, hji] at hfreed

theorem Inv.drop (h : Inv s) (hp : s.place p = .dropping i f) :
    Inv (s.unrefer p i) := by
  obtain ⟨hpos, hnl⟩ := (h.proc p).drops i (by simp [hp, Place.drops])
  refine ⟨fun j => ?_, fun j k hj hk => ?_, h.typed, fun j hj hv hst => ?_, forall_proc rfl ?_ ?_⟩
  · have hsum := sum_setRefs
      (s.setEntry i { s.entry i with ref := (s.entry i).ref - 1 }) p i j (s.refs p i - 1)
    change ((s.unrefer p i).entry j).ref = ∑ q, (setRefs _ p i _).refs q j
    have hc := h.count j
    simp only [State.setEntry] at hsum ⊢
    by_cases hj : j = i
    · subst hj
      rw [unrefer_entry_self]
      simp only [if_pos] at hsum ⊢
      omega
    · rw [unrefer_entry hj]
      simp only [if_neg hj] at hsum
      omega
  · rw [(unrefer_same j).1, (unrefer_same k).1]
    exact h.unique j k (hj.trans_le (unrefer_same j).2.2.2) (hk.trans_le (unrefer_same k).2.2.2)
  · rw [(unrefer_same j).2.1] at hv
    rw [(unrefer_same j).1, (unrefer_same j).2.2.1]
    refine h.agree j (hj.trans_le (unrefer_same j).2.2.2) hv fun q => ?_
    by_cases hqp : q = p
    · subst hqp
      simp [hp]
    · have hq := hst q
      rwa [show (s.unrefer p i).place q = s.place q from update_of_ne hqp _ _] at hq
  · refine ⟨fun j hl => ?_, nofun, nofun, fun j hl _ => ?_, nofun, fun j hr hun => ?_, nofun⟩
    · have hji : j ≠ i := fun hji => hnl (hji ▸ hl)
      change 0 < (setRefs _ p i _).refs p j
      rw [setRefs_ne hji]
      exact (h.proc p).held j hl
    · rw [(unrefer_same j).2.1]
      exact (h.proc p).loaded j hl (by simp [hp, Place.works])
    · rw [unowned_unrefer hp, (unrefer_same j).1] at hun
      exact absurd rfl (h.ne_of_drop hp hr hun).1
  · intro q hq
    have hrefs : (s.unrefer p i).refs q = s.refs q := setRefs_other hq
    refine (h.proc q).frame hrefs (fun _ => Iff.rfl) ?_ ?_ ?_ ?_
    · intro j _ hv
      rwa [(unrefer_same j).2.1]
    · intro j hj
      have hji : j ≠ i := by
        rintro rfl
        exact hq (h.eq_of_frees hpos hj)
      rw [unrefer_entry hji]
      exact ⟨rfl, rfl, rfl⟩
    · intro j hr hun
      rw [unowned_unrefer hp, (unrefer_same j).1] at hun
      have hji := (h.ne_of_drop hp (hrefs ▸ hr) hun).2
      rw [unrefer_entry hji]
      exact ⟨hun, rfl, fun ht hv => ⟨ht, hv⟩⟩
    · intro k _
      refine ⟨rfl, fun r hr => ?_⟩
      by_cases hrp : r = p
      · subst hrp
        simp [State.unrefer, goto] at hr
      · rwa [show (s.unrefer p i).place r = s.place r from update_of_ne hrp _ _] at hr

end Drop

variable [Fintype P]

theorem Inv.ialloc (h : Inv s) {type : ℤ} (hp : s.place p = .idle) (hfree : (s.disk k).type = 0)
    (htype : type ≠ 0) :
    Inv ((s.setDisk k (Icache.fresh type)).goto p (.allocated k)) := by
  have hdisk : ∀ k', k' ≠ k → update s.disk k (Icache.fresh type) k' = s.disk k' :=
    fun k' hk => update_of_ne hk _ _
  have hself : update s.disk k (Icache.fresh type) k = Icache.fresh type :=
    update_self _ _ _
  -- the inode was free and is marked now: the same inodes are unowned
  have hun : ∀ k', ((s.setDisk k (Icache.fresh type)).goto p (.allocated k)).Unowned k' →
      s.Unowned k' := by
    rintro k' (ht | ⟨q, hq⟩)
    · by_cases hk : k' = k
      · exact .inl (hk ▸ hfree)
      · exact .inl ((hdisk k' hk) ▸ ht)
    · by_cases hqp : q = p
      · subst hqp
        simp only [goto, update_self, Place.allocated.injEq] at hq
        exact .inl (hq ▸ hfree)
      · simp only [goto, update_of_ne hqp] at hq
        exact .inr ⟨q, hq⟩
  have htype' : ∀ k', (update s.disk k (Icache.fresh type) k').type = 0 →
      (s.disk k').type = 0 := by
    intro k' ht
    by_cases hk : k' = k
    · exact hk ▸ hfree
    · exact hdisk k' hk ▸ ht
  refine ⟨h.count, h.unique, fun k' ht => ?_, fun j hj hv hst => ?_, forall_proc rfl ?_ ?_⟩
  · by_cases hk : k' = k
    · subst hk
      exact congrArg Dinode.nlink hself
    · exact (congrArg Dinode.nlink (hdisk k' hk)).trans (h.typed k' (htype' k' ht))
  · have hst' : ∀ q, s.place q ≠ .invalidating j := by
      intro q
      by_cases hqp : q = p
      · subst hqp
        simp [hp]
      · simpa [goto, setDisk, update_of_ne hqp] using hst q
    have hk : (s.entry j).key ≠ k := by
      rintro rfl
      obtain ⟨q, hq⟩ := h.exists_refs hj
      exact hst' q (((h.proc q).gone j hq (.inl hfree)).2.2 hfree hv)
    exact (h.agree j hj hv hst').trans (hdisk _ hk).symm
  · refine ⟨(h.proc p).held, nofun, nofun, fun j hl _ => ?_, nofun, fun j hr hj => ?_, ?_⟩
    · exact (h.proc p).loaded j hl (by simp [hp, Place.works])
    · have hfreed := ((h.proc p).gone j hr (hun _ hj)).2.1
      simp [hp, Place.freed] at hfreed
    · intro k' hk'
      obtain rfl : k = k' := by simpa using hk'
      refine ⟨fun ht => htype ((congrArg Dinode.type hself).symm.trans ht),
        congrArg Dinode.nlink hself, fun q hq => ?_⟩
      by_contra hqp
      simp only [goto, setDisk, update_of_ne hqp] at hq
      exact ((h.proc q).fresh k hq).1 hfree
  · intro q hq
    refine (h.proc q).frame rfl (fun _ => Iff.rfl) (fun _ _ hv => hv) ?_ ?_ ?_
    · intro j hj
      refine ⟨rfl, rfl, congrArg Dinode.nlink (hdisk _ fun hk => ?_)⟩
      have hgone : (s.disk (s.entry j).key).type = 0 := (congrArg (s.disk · |>.type) hk).trans hfree
      have hfreed := ((h.proc q).gone j (h.refs_of_frees hj) (.inl hgone)).2.1
      simp [Place.freed_of_frees hj] at hfreed
    · intro j _ hj
      exact ⟨hun _ hj, rfl, fun ht hv => ⟨htype' _ ht, hv⟩⟩
    · intro k' hk'
      have hk : k' ≠ k := by
        rintro rfl
        exact ((h.proc q).fresh k' hk').1 hfree
      refine ⟨hdisk k' hk, fun r hr => ?_⟩
      by_cases hrp : r = p
      · subst hrp
        simp only [goto, update_self, Place.allocated.injEq] at hr
        exact absurd hr.symm hk
      · simpa [goto, setDisk, update_of_ne hrp] using hr

/-! ### All steps -/

omit [DecidableEq P] [Fintype P] in
theorem cached_some (hc : s.cached k = some i) :
    0 < (s.entry i).ref ∧ (s.entry i).key = k := by
  simpa [State.cached] using List.find?_some hc

omit [DecidableEq P] [Fintype P] in
theorem cached_none (hc : s.cached k = none) (j : Fin N) (hj : 0 < (s.entry j).ref) :
    (s.entry j).key ≠ k := by
  have hno := List.find?_eq_none.1 hc j (List.mem_finRange j)
  simp only [decide_eq_true_eq, not_and] at hno
  exact hno hj

theorem Inv.get (h : Inv s) (hp : s.place p = .idle ∨ s.place p = .allocated k)
    (htype : (s.disk k).type ≠ 0) (hmine : ∀ q, q ≠ p → s.place q ≠ .allocated k)
    (hfrees : ∀ q j, (s.entry j).key = k → (s.place q).frees j = false) (hget : s.get p k = some t) :
    Inv (t.goto p .idle) := by
  obtain ⟨⟨i, e⟩, hr, rfl⟩ := map_eq_some_iff.1 hget
  refine h.refer (p := p) (i := i) (e := e) ?_
  rw [State.iget] at hr
  cases hc : s.cached k with
  | some j =>
    simp only [hc, Option.some.injEq, Prod.mk.injEq] at hr
    obtain ⟨rfl, rfl⟩ := hr
    obtain ⟨hpos, rfl⟩ := cached_some hc
    exact ⟨hp, rfl, htype, hmine, fun q => hfrees q j rfl, fun m hm hposm => h.key_ne hpos hposm hm,
      fun _ => ⟨rfl, rfl, rfl⟩, fun hzero => absurd hzero hpos.ne'⟩
  | none =>
    simp only [hc] at hr
    obtain ⟨j, hj, heq⟩ := map_eq_some_iff.1 hr
    obtain ⟨rfl, rfl⟩ := Prod.mk.inj heq
    have hzero : (s.entry j).ref = 0 := by simpa [State.empty] using List.find?_some hj
    refine ⟨hp, by simp [hzero], htype, hmine, fun q => ?_, fun m _ hposm => cached_none hc m hposm,
      fun hpos => absurd hzero hpos.ne', fun _ => rfl⟩
    by_contra hq
    have hone := ((h.proc q).frees j (by simpa using hq)).1
    omega

theorem iget_inv (h : Inv s) (hst : step s (.iget p k) = some t) : Inv t := by
  simp only [step] at hst
  split at hst
  · rename_i hok
    obtain ⟨hp, hmay⟩ := hok
    have hidle : t.goto p .idle = t := by
      obtain ⟨r, -, rfl⟩ := map_eq_some_iff.1 hst
      simp [goto, setRefs, State.setEntry, ← hp]
    rw [← hidle]
    -- the inode is owned, and nobody is freeing it
    have hown : ¬s.Unowned k ∧ ∀ q j, (s.entry j).key = k → (s.place q).frees j = false := by
      rcases hmay with hlink | ⟨i, hr, hk⟩
      · refine ⟨?_, fun q j hj => ?_⟩
        · rintro (ht | ⟨q, hq⟩)
          · exact hlink.ne' (h.typed k ht)
          · exact hlink.ne' ((h.proc q).fresh k hq).2.1
        · by_contra hq
          have hz := ((h.proc q).frees j (by simpa using hq)).2.2
          rw [hj] at hz
          exact hlink.ne' hz
      · refine ⟨hk ▸ h.owned hr (by simp [hp, Place.freed]), fun q j hj => ?_⟩
        by_contra hq
        rw [Bool.not_eq_false] at hq
        obtain rfl : j = i := h.unique j i (h.ref_pos (h.refs_of_frees hq)) (h.ref_pos hr)
          (hj.trans hk.symm)
        obtain rfl := h.eq_of_frees hr hq
        simp [hp, Place.frees] at hq
    exact h.get (.inl hp) (fun ht => hown.1 (.inl ht)) (fun q _ hq => hown.1 (.inr ⟨q, hq⟩)) hown.2 hst
  · cases hst

theorem getNew_inv (h : Inv s) (hst : step s (.getNew p) = some t) : Inv t := by
  simp only [step] at hst
  split at hst
  · rename_i k hp
    obtain ⟨u, hu, rfl⟩ := map_eq_some_iff.1 hst
    obtain ⟨htype, hnlink, hone⟩ := (h.proc p).fresh k hp
    refine h.get (.inr hp) htype (fun q hq hqk => hq (hone q hqk)) (fun q j hj => ?_) hu
    by_contra hq
    rw [Bool.not_eq_false] at hq
    have hfreed := ((h.proc q).gone j (h.refs_of_frees hq) (.inr ⟨p, hj ▸ hp⟩)).2.1
    simp [Place.freed_of_frees hq] at hfreed
  · cases hst

theorem idup_inv (h : Inv s) (hp : s.place p = .idle) (hr : 0 < s.refs p i) :
    Inv ((s.setEntry i { s.entry i with ref := (s.entry i).ref + 1 }).setRefs p i
      (s.refs p i + 1)) := by
  have hpos := h.ref_pos hr
  have hown := h.owned hr (by simp [hp, Place.freed])
  have hrefer : (s.setEntry i { s.entry i with ref := (s.entry i).ref + 1 }).setRefs p i
      (s.refs p i + 1) = s.refer p i { s.entry i with ref := (s.entry i).ref + 1 } := by
    simp [State.refer, goto, setRefs, State.setEntry, ← hp]
  rw [hrefer]
  refine h.refer ⟨.inl hp, rfl, fun ht => hown (.inl ht), fun q _ hq => hown (.inr ⟨q, hq⟩),
    fun q => ?_, fun j hj hposj => h.key_ne hpos hposj hj, fun _ => ⟨rfl, rfl, rfl⟩,
    fun hzero => absurd hzero hpos.ne'⟩
  by_contra hq
  rw [Bool.not_eq_false] at hq
  obtain rfl := h.eq_of_frees hr hq
  simp [hp, Place.frees] at hq

theorem Inv.acquire (h : Inv s) (hp : s.place p = .idle) (hr : 0 < s.refs p i)
    (hl : s.lock i = none) (hy : y = .loading i ∨ y = .checking i) :
    Inv ((s.setLock i (some p)).goto p y) := by
  have hself : ∀ j, update s.lock i (some p) j = some p ↔ j = i ∨ s.lock j = some p := by
    intro j
    by_cases hj : j = i
    · simp [hj]
    · simp [hj]
  refine h.lockStep ?_ ?_ ?_ ?_ ?_ ?_ ?_ ?_ ?_ ?_
  · intro q hq j
    by_cases hj : j = i
    · subst hj
      simp [setLock, hl, Ne.symm hq]
    · simp [setLock, hj]
  · intro j hj
    rcases (hself j).1 hj with rfl | hj
    · exact hr
    · exact (h.proc p).held j hj
  · intro j hj
    refine (hself j).2 (.inl ?_)
    rcases hy with rfl | rfl <;> simpa [Place.works] using hj
  · intro j hj
    rcases hy with rfl | rfl <;> simp [Place.drops] at hj
  · intro j hj hw
    rcases (hself j).1 hj with rfl | hj
    · rcases hy with rfl | rfl <;> simp [Place.works] at hw
    · exact (h.proc p).loaded j hj (by simp [hp, Place.works])
  · intro j hj
    rcases hy with rfl | rfl <;> simp [Place.frees] at hj
  · intro j hj
    simp [hp, Place.freed] at hj
  · simp [hp]
  · simp [hp]
  · rcases hy with rfl | rfl <;> exact nofun

theorem Inv.unlock (h : Inv s) (hl : s.lock i = some p)
    (hy : (s.place p = .idle ∧ y = .idle) ∨ ∃ f, s.place p = .releasing i f ∧ y = .dropping i f) :
    Inv ((s.setLock i none).goto p y) := by
  have hself : ∀ j, update s.lock i none j = some p → j ≠ i ∧ s.lock j = some p := by
    intro j hj
    by_cases hji : j = i
    · subst hji
      simp at hj
    · exact ⟨hji, by simpa [hji] using hj⟩
  refine h.lockStep ?_ ?_ ?_ ?_ ?_ ?_ ?_ ?_ ?_ ?_
  · intro q hq j
    by_cases hj : j = i
    · subst hj
      simp [setLock, hl, Ne.symm hq]
    · simp [setLock, hj]
  · intro j hj
    exact (h.proc p).held j (hself j hj).2
  · intro j hj
    rcases hy with ⟨-, rfl⟩ | ⟨f, -, rfl⟩ <;> simp [Place.works] at hj
  · intro j hj
    rcases hy with ⟨-, rfl⟩ | ⟨f, -, rfl⟩
    · simp [Place.drops] at hj
    · obtain rfl : j = i := by simpa [Place.drops] using hj
      exact ⟨(h.proc p).held j hl, by simp [setLock]⟩
  · intro j hj _
    obtain ⟨hji, hlj⟩ := hself j hj
    refine (h.proc p).loaded j hlj ?_
    rcases hy with ⟨hp, -⟩ | ⟨f, hp, -⟩ <;> simp [hp, Place.works, hji]
  · intro j hj
    rcases hy with ⟨-, rfl⟩ | ⟨f, -, rfl⟩ <;> simp [Place.frees] at hj
  · intro j hj
    rcases hy with ⟨hp, rfl⟩ | ⟨f, hp, rfl⟩
    · simp [hp, Place.freed] at hj
    · simpa [hp, Place.freed] using hj
  · rcases hy with ⟨hp, -⟩ | ⟨f, hp, -⟩ <;> simp [hp]
  · rcases hy with ⟨hp, -⟩ | ⟨f, hp, -⟩ <;> simp [hp]
  · rcases hy with ⟨-, rfl⟩ | ⟨f, -, rfl⟩ <;> exact nofun

theorem check_inv (h : Inv s) (hst : step s (.check p) = some t) : Inv t := by
  simp only [step] at hst
  split at hst
  · rename_i i hp
    have hl := (h.proc p).works i (by simp [hp, Place.works])
    have hkeep : ∀ x, x.works i = true → (∀ j, x.works j = true → j = i) → (∀ j, x.drops j = false) →
        (∀ j, x.frees j = true → j = i ∧ (s.entry i).ref = 1 ∧ (s.entry i).valid = true ∧
          (s.disk (s.entry i).key).nlink = 0) → (∀ k, x ≠ .allocated k) → Inv (s.goto p x) := by
      intro x hw hw' hd hf hx
      refine h.lockStep (fun _ _ _ => Iff.rfl) (h.proc p).held ?_ ?_ ?_ ?_ ?_ (by simp [hp])
        (by simp [hp]) hx
      · intro j hj
        rw [hw' j hj]
        exact hl
      · intro j hj
        simp [hd j] at hj
      · intro j hlj hj
        refine (h.proc p).loaded j hlj ?_
        have hji : j ≠ i := fun hji => by simp [hji, hw] at hj
        simp [hp, Place.works, hji]
      · intro j hj
        obtain ⟨rfl, hrest⟩ := hf j hj
        exact hrest
      · intro j hj
        simp [hp, Place.freed] at hj
    split at hst
    · rename_i hc
      cases hst
      refine hkeep _ (by simp [Place.works]) (by simp [Place.works]) (by simp [Place.drops]) ?_
        (by simp)
      intro j hj
      refine ⟨by simpa [Place.frees] using hj, hc.2.2, hc.1, ?_⟩
      rw [← h.copy_eq hl (by simp [hp]) hc.1]
      exact hc.2.1
    · cases hst
      exact hkeep _ (by simp [Place.works]) (by simp [Place.works]) (by simp [Place.drops])
        (by simp [Place.frees]) (by simp)
  · cases hst

theorem load_inv (h : Inv s) (hst : step s (.load p) = some t) : Inv t := by
  simp only [step] at hst
  split at hst
  · rename_i i hp
    have hl := (h.proc p).works i (by simp [hp, Place.works])
    split at hst
    · rename_i hv
      cases hst
      refine h.lockStep (y := .idle) (fun _ _ _ => Iff.rfl) (h.proc p).held nofun nofun ?_ nofun ?_
        (by simp [hp]) (by simp [hp]) nofun
      · intro j hlj _
        by_cases hji : j = i
        · rw [hji]
          exact hv
        · exact (h.proc p).loaded j hlj (by simp [hp, Place.works, hji])
      · intro j hj
        simp [hp, Place.freed] at hj
    · split at hst
      · cases hst
      · rename_i htype
        cases hst
        have hw := h.rewrite (p := p) (i := i) (y := .idle) (d := s.disk (s.entry i).key)
          (e := { s.entry i with copy := s.disk (s.entry i).key, valid := true })
          ⟨hl, rfl, rfl, fun _ _ => rfl, fun _ => rfl, h.typed _, nofun,
            fun ht => absurd ht htype, by simp [hp, Place.freed],
            fun j hj => by simp [hp, Place.works, Place.freed, hj], fun _ => rfl, by simp [hp], nofun⟩
        simpa [State.rewrite, State.setEntry, goto] using hw
  · cases hst

theorem Inv.write (h : Inv s) {d : Dinode} (hl : s.lock i = some p)
    (hv : (s.entry i).valid = true)
    (hlive : d.type = 0 → d.nlink = 0 ∧ (s.entry i).ref = 1 ∧ y = .invalidating i)
    (hfrees : y.frees i = true → (s.entry i).ref = 1 ∧ d.nlink = 0)
    (hplace : ∀ j, (s.place p).freed j = false ∧ y.drops j = false)
    (honly : ∀ j, j ≠ i → (s.place p).works j = false ∧ y.works j = false)
    (hs : ∀ k, s.place p ≠ .allocated k) (hy : ∀ k, y ≠ .allocated k) :
    Inv ((s.write i d).goto p y) := by
  refine h.rewrite (e := { s.entry i with copy := d }) ⟨hl, rfl, rfl, fun _ _ => rfl, fun _ => hv,
    fun ht => (hlive ht).1, fun hf => ⟨(hfrees hf).1, hv, (hfrees hf).2⟩, fun ht => ?_,
    fun hf => ?_, fun j hj => ⟨(honly j hj).1, (hplace j).1, (honly j hj).2⟩, fun j => (hplace j).2,
    hs, hy⟩
  · obtain ⟨-, hone, rfl⟩ := hlive ht
    exact ⟨hone, by simp [Place.freed], fun _ => rfl⟩
  · simp [(hplace i).1] at hf

theorem update_inv (h : Inv s) {d : Dinode} (hp : s.place p = .idle) (hl : s.lock i = some p)
    (htype : d.type = (s.entry i).copy.type) : Inv (s.write i d) := by
  have hv := (h.proc p).loaded i hl (by simp [hp, Place.works])
  have hgoto : (s.write i d).goto p .idle = s.write i d := by
    simp [goto, State.write, setDisk, State.setEntry, ← hp]
  rw [← hgoto]
  refine h.write hl hv (fun ht => ?_) nofun (by simp [hp, Place.freed, Place.drops])
    (by simp [hp, Place.works]) (by simp [hp]) nofun
  -- the inode is owned, so its type is not 0
  exfalso
  refine h.owned ((h.proc p).held i hl) (by simp [hp, Place.freed]) (.inl ?_)
  rw [← h.copy_eq hl (by simp [hp]) hv, ← htype, ht]

theorem itrunc_inv (h : Inv s) (hp : s.place p = .truncating i) :
    Inv ((s.write i (truncated (s.entry i).copy)).goto p (.clearing i)) := by
  obtain ⟨hl, hv, hone, hcopy, hn, htype⟩ := h.freeing (p := p) (i := i) (by simp [hp, Place.frees])
  refine h.write hl hv (fun ht => ?_) (fun _ => ⟨hone, ?_⟩) ?_ ?_ (by simp [hp]) nofun
  · exact absurd ((congrArg Dinode.type hcopy).symm.trans ht) htype
  · exact (congrArg Dinode.nlink hcopy).trans hn
  · simp [hp, Place.freed, Place.drops]
  · intro j hj
    simp [hp, Place.works, hj]

theorem clear_inv (h : Inv s) (hp : s.place p = .clearing i) :
    Inv ((s.write i (cleared (s.entry i).copy)).goto p (.invalidating i)) := by
  obtain ⟨hl, hv, hone, hcopy, hn, htype⟩ := h.freeing (p := p) (i := i) (by simp [hp, Place.frees])
  refine h.write hl hv (fun _ => ⟨?_, hone, rfl⟩) nofun ?_ ?_ (by simp [hp]) nofun
  · exact (congrArg Dinode.nlink hcopy).trans hn
  · simp [hp, Place.freed, Place.drops]
  · intro j hj
    simp [hp, Place.works, hj]

theorem invalidate_inv (h : Inv s) (hp : s.place p = .invalidating i) :
    Inv ((s.setEntry i { s.entry i with valid := false }).goto p (.releasing i true)) := by
  have hl := (h.proc p).works i (by simp [hp, Place.works])
  have hw := h.rewrite (p := p) (i := i) (y := .releasing i true) (d := s.disk (s.entry i).key)
    (e := { s.entry i with valid := false })
    ⟨hl, rfl, rfl, nofun, by simp [Place.works], h.typed _, nofun, fun ht => ?_,
      fun _ => ⟨rfl, by simp [Place.freed]⟩, fun j hj => by simp [hp, Place.works, Place.freed, hj],
      fun _ => rfl, by simp [hp], nofun⟩
  · simpa [State.rewrite, State.setEntry, goto] using hw
  · exact ⟨((h.proc p).gone i ((h.proc p).held i hl) (.inl ht)).1, by simp [Place.freed], nofun⟩

theorem step_inv (h : Inv s) (hst : step s a = some t) : Inv t := by
  cases a with
  | iget p k => exact iget_inv h hst
  | load p => exact load_inv h hst
  | check p => exact check_inv h hst
  | getNew p => exact getNew_inv h hst
  | idup p i =>
    obtain ⟨hok, rfl⟩ := of_guard hst
    exact idup_inv h hok.1 hok.2
  | ilock p i =>
    obtain ⟨hok, rfl⟩ := of_guard hst
    exact h.acquire hok.1 hok.2.1 hok.2.2 (.inl rfl)
  | iput p i =>
    obtain ⟨hok, rfl⟩ := of_guard hst
    exact h.acquire hok.1 hok.2.1 hok.2.2 (.inr rfl)
  | update p i d =>
    obtain ⟨hok, rfl⟩ := of_guard hst
    exact update_inv h hok.1 hok.2.1 hok.2.2
  | iunlock p i =>
    obtain ⟨hok, rfl⟩ := of_guard hst
    have hu := h.unlock (y := .idle) hok.2 (.inl ⟨hok.1, rfl⟩)
    have hgoto : (s.setLock i none).goto p .idle = s.setLock i none := by
      simp [goto, setLock, ← hok.1]
    rwa [hgoto] at hu
  | itrunc p =>
    simp only [step] at hst
    split at hst
    · rename_i i hp
      cases hst
      exact itrunc_inv h hp
    · cases hst
  | clear p =>
    simp only [step] at hst
    split at hst
    · rename_i i hp
      cases hst
      exact clear_inv h hp
    · cases hst
  | invalidate p =>
    simp only [step] at hst
    split at hst
    · rename_i i hp
      cases hst
      exact invalidate_inv h hp
    · cases hst
  | release p =>
    simp only [step] at hst
    split at hst
    · rename_i i f hp
      cases hst
      exact h.unlock ((h.proc p).works i (by simp [hp, Place.works])) (.inr ⟨f, hp, rfl⟩)
    · cases hst
  | drop p =>
    simp only [step] at hst
    split at hst
    · rename_i i f hp
      cases hst
      exact h.drop hp
    · cases hst
  | ialloc p k type =>
    obtain ⟨hok, rfl⟩ := of_guard hst
    exact h.ialloc hok.1 hok.2.1 hok.2.2

theorem inv_of_reach {ok : State N P → Act N P → Prop} (h : (system N P).Reach ok s) : Inv s := by
  refine h.invariant (I := Inv) ?_ fun s a t hI _ hst => step_inv hI hst
  rintro s ⟨disk, hdisk, rfl⟩
  exact init_inv hdisk

/-! ## Results -/

/-- The first entry of the cache. -/
def slot : Fin NINODE := ⟨0, by decide⟩

omit [Fintype P] in
theorem get_key {j : Fin N} (hget : s.get p k = some t) (hj : 0 < (s.entry j).ref) :
    (t.entry j).key = (s.entry j).key := by
  obtain ⟨⟨i, e⟩, hr, rfl⟩ := map_eq_some_iff.1 hget
  change (update s.entry i e j).key = _
  by_cases hji : j = i
  · subst hji
    rw [update_self]
    rw [State.iget] at hr
    cases hc : s.cached k with
    | some m =>
      simp only [hc, Option.some.injEq, Prod.mk.injEq] at hr
      obtain ⟨rfl, rfl⟩ := hr
      rfl
    | none =>
      simp only [hc] at hr
      obtain ⟨m, hm, heq⟩ := map_eq_some_iff.1 hr
      obtain ⟨rfl, -⟩ := Prod.mk.inj heq
      have hzero : (s.entry m).ref = 0 := by simpa [State.empty] using List.find?_some hm
      omega
  · rw [update_of_ne hji]

omit [Fintype P] [DecidableEq P] in
theorem update_key {e : Entry} (he : e.key = (s.entry i).key) (j : Fin N) :
    (update s.entry i e j).key = (s.entry j).key := by
  by_cases hj : j = i
  · rw [hj, update_self, he]
  · rw [update_of_ne hj]

omit [Fintype P] in
theorem step_key (hst : step s a = some t) {j : Fin N} (hj : 0 < (s.entry j).ref) :
    (t.entry j).key = (s.entry j).key := by
  cases a with
  | iget p k =>
    simp only [step] at hst
    split at hst
    · exact get_key hst hj
    · cases hst
  | getNew p =>
    simp only [step] at hst
    split at hst
    · obtain ⟨u, hu, rfl⟩ := map_eq_some_iff.1 hst
      exact get_key (t := u) hu hj
    · cases hst
  | load p =>
    simp only [step] at hst
    split at hst
    · split at hst
      · cases hst
        rfl
      · split at hst
        · cases hst
        · cases hst
          exact update_key (by rfl) j
    · cases hst
  | check p =>
    simp only [step] at hst
    split at hst
    · split at hst <;> obtain rfl := some_inj.1 hst <;> rfl
    · cases hst
  | _ =>
    simp only [step] at hst
    split at hst
    · cases hst
      first | rfl | exact update_key (by rfl) j
    · cases hst

omit [Fintype P] in
theorem get_disk (hget : s.get p k = some t) : t.disk = s.disk := by
  obtain ⟨r, -, rfl⟩ := map_eq_some_iff.1 hget
  rfl

theorem step_type (h : Inv s) (hst : step s a = some t) (hs : (s.disk k).type ≠ 0)
    (ht : (t.disk k).type = 0) :
    ∃ p i, a = .clear p ∧ s.place p = .clearing i ∧ (s.entry i).key = k := by
  have hwrite : ∀ i (d : Dinode), (update s.disk (s.entry i).key d k).type = 0 →
      d.type = 0 ∧ (s.entry i).key = k := by
    intro i d hd
    by_cases hk : k = (s.entry i).key
    · subst hk
      exact ⟨by simpa using hd, rfl⟩
    · rw [update_of_ne hk] at hd
      exact absurd hd hs
  cases a with
  | iget p k' =>
    simp only [step] at hst
    split at hst
    · exact absurd (get_disk hst ▸ ht) hs
    · cases hst
  | getNew p =>
    simp only [step] at hst
    split at hst
    · obtain ⟨u, hu, rfl⟩ := map_eq_some_iff.1 hst
      exact absurd (get_disk hu ▸ ht) hs
    · cases hst
  | load p =>
    simp only [step] at hst
    split at hst
    · split at hst
      · cases hst
        exact absurd ht hs
      · split at hst
        · cases hst
        · cases hst
          exact absurd ht hs
    · cases hst
  | check p =>
    simp only [step] at hst
    split at hst
    · split at hst <;> obtain rfl := some_inj.1 hst <;> exact absurd ht hs
    · cases hst
  | update p i d =>
    simp only [step] at hst
    split at hst
    · rename_i hok
      obtain ⟨hp, hl, hd⟩ := hok
      cases hst
      obtain ⟨hd0, rfl⟩ := hwrite i d ht
      have hv := (h.proc p).loaded i hl (by simp [hp, Place.works])
      have hcopy := h.copy_eq hl (by simp [hp]) hv
      exact absurd (by rw [← hcopy, ← hd, hd0]) hs
    · cases hst
  | itrunc p =>
    simp only [step] at hst
    split at hst
    · rename_i i hp
      cases hst
      obtain ⟨hd0, rfl⟩ := hwrite i _ ht
      have hf := h.freeing (p := p) (i := i) (by simp [hp, Place.frees])
      exact absurd ((congrArg Dinode.type hf.2.2.2.1).symm.trans hd0) hs
    · cases hst
  | clear p =>
    simp only [step] at hst
    split at hst
    · rename_i i hp
      cases hst
      exact ⟨p, i, rfl, hp, (hwrite i _ ht).2⟩
    · cases hst
  | ialloc p k' type =>
    obtain ⟨hok, rfl⟩ := of_guard hst
    by_cases hk : k = k'
    · subst hk
      exact absurd hok.2.1 hs
    · rw [show ((s.setDisk k' (Icache.fresh type)).goto p (.allocated k')).disk k = s.disk k from
        update_of_ne hk _ _] at ht
      exact absurd ht hs
  | _ =>
    simp only [step] at hst
    split at hst
    · cases hst
      exact absurd ht hs
    · cases hst

theorem Inv.only_reference (h : Inv s) (hp : (s.place p).frees i = true) (q : P) :
    s.refs q i = if q = p then 1 else 0 := by
  have hone := ((h.proc p).frees i hp).1
  have hpos := h.refs_of_frees hp
  by_cases hq : q = p
  · subst hq
    rw [if_pos rfl]
    have hle : s.refs q i ≤ (s.entry i).ref := h.refs_le
    omega
  · rw [if_neg hq]
    by_contra hne
    exact hq (h.sole hone hpos (Nat.pos_of_ne_zero hne))

/-- **Identity and lifetime of cached inodes.**  In every state reached by any
interleaving: an inode has at most one entry in use; `ref` counts the references;
an entry in use stays with its inode; blocks are freed and the type is cleared only
of an inode without links, by the process that has the only reference; `ialloc`
takes an inode to which nobody has a reference, but for the one reference of a
process that has just freed it and is about to drop it; and the holder of a lock
sees what is on the disk. -/
theorem icache_lifetime (h : (system N P).Reach (fun _ _ => True) s) :
    (∀ i j, 0 < (s.entry i).ref → 0 < (s.entry j).ref → (s.entry i).key = (s.entry j).key → i = j) ∧
    (∀ i, (s.entry i).ref = ∑ p, s.refs p i) ∧
    (∀ a t i, step s a = some t → 0 < (s.entry i).ref → (t.entry i).key = (s.entry i).key) ∧
    (∀ p t, step s (.itrunc p) = some t → ∃ i, s.place p = .truncating i ∧
      (s.disk (s.entry i).key).nlink = 0 ∧ ∀ q, s.refs q i = if q = p then 1 else 0) ∧
    (∀ a t k, step s a = some t → (s.disk k).type ≠ 0 → (t.disk k).type = 0 →
      ∃ p i, a = .clear p ∧ s.place p = .clearing i ∧ (s.entry i).key = k ∧
        (s.disk k).nlink = 0 ∧ ∀ q, s.refs q i = if q = p then 1 else 0) ∧
    (∀ p k type t, step s (.ialloc p k type) = some t → ∀ q i, 0 < s.refs q i →
      (s.entry i).key = k → (s.entry i).ref = 1 ∧ (s.place q).freed i = true) ∧
    (∀ p i, s.lock i = some p → s.place p = .idle →
      (s.entry i).valid = true ∧ (s.entry i).copy = s.disk (s.entry i).key) := by
  have hI := inv_of_reach h
  refine ⟨hI.unique, hI.count, fun a t i hst hi => step_key hst hi, fun p t hst => ?_,
    fun a t k hst hs ht => ?_, fun p k type t hst q i hr hk => ?_, fun p i hl hp => ?_⟩
  · simp only [step] at hst
    split at hst
    · rename_i i hp
      have hf : (s.place p).frees i = true := by simp [hp, Place.frees]
      exact ⟨i, hp, (hI.freeing hf).2.2.2.2.1, hI.only_reference hf⟩
    · cases hst
  · obtain ⟨p, i, ha, hp, rfl⟩ := step_type hI hst hs ht
    have hf : (s.place p).frees i = true := by simp [hp, Place.frees]
    exact ⟨p, i, ha, hp, rfl, (hI.freeing hf).2.2.2.2.1, hI.only_reference hf⟩
  · simp only [step] at hst
    split at hst
    · rename_i hok
      obtain ⟨h1, h2, -⟩ := (hI.proc q).gone i hr (.inl (hk ▸ hok.2.1))
      exact ⟨h1, h2⟩
    · cases hst
  · have hv := (hI.proc p).loaded i hl (by simp [hp, Place.works])
    exact ⟨hv, hI.copy_eq hl (by simp [hp]) hv⟩

/-- Process 0 allocates an inode and frees it; before it drops its reference,
process 1 has allocated the same inode and locked it, and sees the new one. -/
theorem icache_lifetime_reused :
    ∃ s, (system NINODE (Fin 2)).Reach (fun _ _ => True) s ∧
      ∃ i, (s.place 0 = .dropping i true ∧ s.lock i = some 1 ∧ s.place 1 = .idle) ∧
        (s.entry i).copy = s.disk (s.entry i).key := by
  have hinit : (system NINODE (Fin 2)).Reach (fun _ _ => True)
      (boot NINODE (Fin 2) fun _ => .zero) := .init ⟨_, fun _ _ => rfl, rfl⟩
  obtain ⟨s, hs, hv⟩ := Lts.reach_of_exec_map
    [.ialloc 0 (1, 5) T_FILE, .getNew 0, .ilock 0 slot, .load 0, .iunlock 0 slot, .iput 0 slot,
      .check 0, .itrunc 0, .clear 0, .ialloc 1 (1, 5) T_DIR, .getNew 1, .invalidate 0, .release 0,
      .ilock 1 slot, .load 1]
    (fun s => (s.place 0, s.lock slot, s.place 1)) (.dropping slot true, some 1, .idle) hinit
    (by decide +kernel)
  obtain ⟨h0, h1, h2⟩ : s.place 0 = .dropping slot true ∧ s.lock slot = some 1 ∧
      s.place 1 = .idle := by simpa using hv
  exact ⟨s, hs, slot, ⟨h0, h1, h2⟩, ((icache_lifetime hs).2.2.2.2.2.2 1 slot h1 h2).2⟩

end Steps

end Xv6.Icache
