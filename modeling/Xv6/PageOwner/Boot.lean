import Xv6.Mem.Enough
import Xv6.PageOwner.Conserved

/-!
# From the start of the kernel on

* `main_safe` — `main` hands out all pages after the kernel, and `Inv` holds after it.
* `main_succeeds` — `main` gets as far as the first process, when the kernel leaves
  enough pages below four megabytes.
* `pages_one_owner` — the results.
-/

namespace Xv6.PageOwner

open Xv6.Lib Xv6.Mem Xv6.SharedMem Function Multiset

variable {P : Type} [DecidableEq P] [Fintype P] {L : Layout} {M R X : Multiset Page}
  {initproc : P} {s : State P}

/-! ## The pages `main` hands out -/

/-- The pages `kinit1` and `kinit2` hand to `kfree`. -/
def allPages (L : Layout) : List Page := pageRange L.kend ((P2V PHYSTOP).toNat - L.kend.toNat)

theorem allPages_managed (L : Layout) : Managed L (allPages L) := by
  have hend := BitVec.lt_def.1 L.kend_lt
  exact managed_pageRange (BitVec.le_refl _) (by omega)

theorem freeLoop_safe (hM : M.Nodup) (n : ℕ) : ∀ {v : Page} {k : Kmem},
    Held L M k (pageRange v n + X) → Safe (fun k' => Held L M k' X) (freeLoop L n v k) := by
  induction n with
  | zero =>
    intro v k h
    exact h.congr (by simp [pageRange])
  | succ n ih =>
    intro v k h
    have hv : Held L M k ({v} + (pageRange (v + 1) n + X)) := by
      refine h.congr ?_
      rw [pageRange_succ, ← cons_coe, ← singleton_add]
      abel
    exact (hv.kfree hM).bind fun k' hk' => ih hk'

theorem startothers_held (n : ℕ) : ∀ {k : Kmem} {X : Multiset Page}, Held L M k X →
    Held L M (startothers n k).2 ((startothers n k).1 + X) := by
  induction n with
  | zero =>
    intro k X h
    exact h.congr (by simp [startothers])
  | succ n ih =>
    intro k X h
    rw [startothers]
    cases hk : kalloc .kernel k with
    | none => exact ih h
    | some r =>
      obtain ⟨stack, k₁⟩ := r
      refine (ih (h.kalloc hk)).congr ?_
      change _ = ((stack :: (startothers n k₁).1 : List Page) : Multiset Page) + X
      rw [← cons_coe, ← singleton_add]
      abel

variable {k : Kmem} {pd : Pgdir} {a : Page}

theorem kvmalloc_safe (hM : M.Nodup) (h : Held L M k X) :
    Safe (fun r => Held L M r.2 (r.1.all + X)) (kvmalloc L k) := by
  refine (h.setupkvm hM).bind ?_
  rintro ⟨pd, k'⟩ hr
  cases pd with
  | none => exact nofun
  | some pd => exact hr

theorem inituvm_safe (h : Held L M k (pd.all + X)) :
    Safe (fun r => Held L M r.2.2.1
      (r.2.2.2.all + ((if r.2.1 = true then [] else [r.1] : List Page) + X))) (inituvm k pd) := by
  rw [inituvm]
  cases hk : kalloc .user k with
  | none => exact nofun
  | some r =>
    obtain ⟨mem, k₁⟩ := r
    have htaken : Held L M (k₁.memset mem 0) ({mem} + pd.all + X) := by
      rw [add_assoc]
      exact (h.kalloc hk).memset mem 0
    have hbase : (0 : Addr) = base 0 := rfl
    dsimp only
    rw [hbase]
    refine (htaken.mappages (by decide)).bind ?_
    rintro ⟨b, k₂, pd₂⟩ hr
    cases b with
    | true => exact Held.congr hr (by simp)
    | false =>
      refine Held.congr (show Held L M k₂ ({mem} + pd₂.all + X) from hr) ?_
      change _ = pd₂.all + ({mem} + X)
      abel

omit [DecidableEq P] [Fintype P] in
theorem userinit_safe (hM : M.Nodup) (h : Held L M k X) :
    Safe (fun r : Proc P × List Page × Kmem => r.1.sz = PGSIZE ∧
      Held L M r.2.2 (Proc.owned r.1 + (r.2.1 + X))) (userinit L k) := by
  rw [userinit]
  cases hk : kalloc .kernel k with
  | none => exact nofun
  | some r =>
    obtain ⟨kstack, k₁⟩ := r
    have htaken := h.kalloc hk
    refine (htaken.setupkvm hM).bind ?_
    rintro ⟨pd, k₂⟩ h₂
    cases pd with
    | none => exact nofun
    | some pd =>
      refine (inituvm_safe (X := {kstack} + X) (Held.congr h₂ rfl)).bind ?_
      rintro ⟨mem, b, k₃, pd₃⟩ h₃
      refine ⟨rfl, Held.congr h₃ ?_⟩
      change _ = {kstack} + pd₃.all + _
      abel

theorem held_start (hle : L.kend.toNat ≤ KINIT.toNat) :
    Held L (allPages L) Kmem.empty
      (pageRange L.kend (KINIT.toNat - L.kend.toNat)
        + (pageRange KINIT ((P2V PHYSTOP).toNat - KINIT.toNat) : Multiset Page)) := by
  have hend : (P2V PHYSTOP).toNat = 0x8E000 := rfl
  have hinit : KINIT.toNat = 0x80400 := rfl
  have hlen : (P2V PHYSTOP).toNat - L.kend.toNat
      = (KINIT.toNat - L.kend.toNat) + ((P2V PHYSTOP).toNat - KINIT.toNat) := by omega
  have hnext : L.kend + BitVec.ofNat 20 (KINIT.toNat - L.kend.toNat) = KINIT := by bv_omega
  refine ⟨⟨List.nodup_nil, nofun, nofun⟩, ?_⟩
  rw [allPages, hlen, pageRange_add, hnext, ← coe_add]
  exact zero_add _

theorem main_safe (L : Layout) (ncpu : ℕ) (initproc : P) :
    Safe (fun r => Inv L (allPages L) (r.2.1.all + r.2.2) r.1) (main L ncpu initproc) := by
  have hM := (allPages_managed L).nodup
  by_cases hle : L.kend.toNat ≤ KINIT.toNat
  · have hstart := held_start hle
    refine (freeLoop_safe hM _ hstart).bind fun k₁ h₁ => ?_
    refine (kvmalloc_safe hM h₁).bind ?_
    rintro ⟨kpgdir, k₂⟩ h₂
    have hothers := startothers_held (ncpu - 1) h₂
    have h₃ : Held L (allPages L) (startothers (ncpu - 1) k₂).2
        (pageRange KINIT ((P2V PHYSTOP).toNat - KINIT.toNat)
          + ((startothers (ncpu - 1) k₂).1 + kpgdir.all)) := by
      refine hothers.congr ?_
      change _ + (kpgdir.all + _) = _
      abel
    refine (freeLoop_safe hM _ h₃).bind fun k₄ h₄ => ?_
    refine (userinit_safe hM h₄).bind ?_
    rintro ⟨pr, lost, k₅⟩ ⟨hsz, h₅⟩
    refine ⟨?_, ?_, nofun⟩
    · refine Held.congr h₅ ?_
      change _ = procPages (update (fun _ => none) initproc (some pr)) + pipePages []
        + (kpgdir.all + ((startothers (ncpu - 1) k₂).1 ++ lost : List Page))
      have hnone : others (fun _ => (none : Option (Proc P))) initproc = 0 :=
        Finset.sum_eq_zero fun q _ => rfl
      rw [procPages_update, hnone, ← coe_add]
      change _ = Proc.owned pr + 0 + 0 + _
      abel
    · refine (forall_update_iff (fun _ => none) fun _ (x : Option (Proc P)) =>
        ∀ pr', x = some pr' → pages pr'.sz ≤ KERNBASE.toNat).2 ⟨?_, fun q _ => nofun⟩
      rintro pr' hpr'
      cases hpr'
      rw [show pr.sz = PGSIZE from hsz]
      decide
  · -- The kernel fills the first four megabytes, and there is nothing to hand out.
    have hempty : freerange L L.kend KINIT Kmem.empty = .ok Kmem.empty := by
      rw [freerange, Nat.sub_eq_zero_of_le (Nat.le_of_not_le hle), freeLoop]
    rw [main, hempty]
    exact nofun

/-! ## `main` gets to the first process -/

theorem freeLoop_succeeds (hM : M.Nodup) (n : ℕ) : ∀ {v : Page} {k : Kmem},
    Held L M k (pageRange v n + X) → L.kend ≤ v → v.toNat + n ≤ (P2V PHYSTOP).toNat →
      ∃ k', freeLoop L n v k = .ok k' ∧ Held L M k' X ∧
        k'.freelist.length = k.freelist.length + n := by
  have hstop : (P2V PHYSTOP).toNat = 0x8E000 := rfl
  induction n with
  | zero =>
    intro v k h _ _
    exact ⟨k, rfl, h.congr (zero_add X), rfl⟩
  | succ n ih =>
    intro v k h hkend hend
    have hv : Held L M k ({v} + (pageRange (v + 1) n + X)) := by
      refine h.congr ?_
      rw [pageRange_succ, ← cons_coe, ← singleton_add]
      abel
    have hfree := hv.kfree hM
    have hlow : KERNLINK.toNat < v.toNat := by
      have hlink := BitVec.lt_def.1 L.link_lt
      have hdata := BitVec.le_def.1 L.data_le
      have hle := BitVec.le_def.1 hkend
      omega
    have hlink : KERNLINK.toNat = 0x80100 := rfl
    have hok : ¬(v < L.kend ∨ PHYSTOP ≤ V2P v) := by
      rintro (hlt | hle)
      · exact BitVec.not_lt.2 hkend hlt
      · simp only [PHYSTOP, V2P, KERNBASE] at hle
        bv_omega
    have hnot : v ∉ k.freelist :=
      hv.notMem hM (mem_add.2 (.inl (mem_singleton_self v)))
    rw [freeLoop, kfree, if_neg hok, if_neg hnot]
    rw [kfree, if_neg hok, if_neg hnot] at hfree
    have hnext : (v + 1).toNat = v.toNat + 1 := by bv_omega
    obtain ⟨k', hloop, hheld, hlen⟩ := ih hfree (by rw [BitVec.le_def] at hkend ⊢; omega) (by omega)
    refine ⟨k', hloop, hheld, ?_⟩
    rw [hlen]
    change k.freelist.length + 1 + n = _
    omega

theorem inituvm_succeeds (h : 2 ≤ k.freelist.length) (hnone : pd.lookup 0 = none) :
    ∃ mem k' pd', inituvm k pd = .ok (mem, true, k', pd') ∧
      k.freelist.length ≤ k'.freelist.length + 2 ∧ ∀ b, b ≠ 0 → pd'.lookup b = pd.lookup b := by
  obtain ⟨mem, k₁, hk, hlen⟩ := kalloc_succeeds .user (by omega : 0 < k.freelist.length)
  obtain ⟨k₂, pd₂, hmap, hlen₂, -, hsame⟩ := mappages_succeeds (k := k₁.memset mem 0) (V2P mem)
    (PTE_W ||| PTE_U) (by rw [Kmem.freelist_memset]; omega) hnone
  rw [Kmem.freelist_memset] at hlen₂
  refine ⟨mem, k₂, pd₂, ?_, by omega, hsame⟩
  have hbase : (0 : Addr) = base 0 := rfl
  rw [inituvm, hk]
  dsimp only
  rw [hbase, hmap]
  rfl

/-- The first process has one page, and nothing is mapped behind it. -/
def OnePage (pr : Proc P) : Prop :=
  pr.sz = PGSIZE ∧ pr.zombie = false ∧ ∀ b : Page, 1 ≤ b.toNat → b < KERNBASE → pr.pgdir.lookup b = none

omit [DecidableEq P] [Fintype P] in
theorem userinit_succeeds (h : 517 ≤ k.freelist.length) :
    ∃ (pr : Proc P) (lost : List Page) (k' : Kmem), userinit L k = .ok (pr, lost, k') ∧ OnePage pr ∧
      k.freelist.length ≤ k'.freelist.length + 516 := by
  obtain ⟨kstack, k₁, hk, hlen⟩ := kalloc_succeeds .kernel (by omega : 0 < k.freelist.length)
  obtain ⟨pd, k₂, hsetup, hlen₂, hnone⟩ := setupkvm_succeeds (L := L)
    (by omega : 514 ≤ k₁.freelist.length)
  obtain ⟨mem, k₃, pd₃, hinit, hlen₃, hsame⟩ :=
    inituvm_succeeds (by omega : 2 ≤ k₂.freelist.length) (hnone 0 (by decide))
  refine ⟨⟨false, none, PGSIZE, pd₃, kstack⟩, [], k₃, ?_, ⟨rfl, rfl, fun b hb hlow => ?_⟩, by omega⟩
  · rw [userinit, hk]
    dsimp only
    rw [hsetup]
    change (inituvm k₂ pd).bind _ = _
    rw [hinit]
    rfl
  · have hne : b ≠ 0 := by
      rintro rfl
      exact absurd hb (by decide)
    exact (hsame b hne).trans (hnone b hlow)

omit [Fintype P] in
theorem main_succeeds (L : Layout) (ncpu : ℕ) (initproc : P)
    (h : L.kend.toNat + 514 ≤ KINIT.toNat) : ∃ pr k kpgdir kept,
      main L ncpu initproc = .ok (State.first initproc pr k, kpgdir, kept) ∧ OnePage pr ∧
        0xD000 ≤ k.freelist.length := by
  have hM := (allPages_managed L).nodup
  have hstop : (P2V PHYSTOP).toNat = 0x8E000 := rfl
  have hinit : KINIT.toNat = 0x80400 := rfl
  obtain ⟨k₁, hfree₁, h₁, hlen₁⟩ := freeLoop_succeeds hM _ (held_start (by omega : L.kend.toNat ≤ _))
    (BitVec.le_refl _) (by omega)
  obtain ⟨kpgdir, k₂, hsetup, -, -⟩ := setupkvm_succeeds (L := L)
    (by rw [hlen₁]; omega : 514 ≤ k₁.freelist.length)
  have hkvm : kvmalloc L k₁ = .ok (kpgdir, k₂) := by
    rw [kvmalloc, hsetup]
    rfl
  have h₂ := kvmalloc_safe hM h₁
  rw [hkvm] at h₂
  have h₃ : Held L (allPages L) (startothers (ncpu - 1) k₂).2
      (pageRange KINIT ((P2V PHYSTOP).toNat - KINIT.toNat)
        + ((startothers (ncpu - 1) k₂).1 + kpgdir.all)) := by
    refine (startothers_held (ncpu - 1) h₂).congr ?_
    change _ + (kpgdir.all + _) = _
    abel
  obtain ⟨k₄, hfree₄, -, hlen₄⟩ := freeLoop_succeeds hM _ h₃
    (by rw [BitVec.le_def]; omega) (by omega)
  obtain ⟨pr, lost, k₅, huser, hpr, hlen₅⟩ := userinit_succeeds (P := P) (L := L)
    (by rw [hlen₄]; omega : 517 ≤ k₄.freelist.length)
  refine ⟨pr, k₅, kpgdir, (startothers (ncpu - 1) k₂).1 ++ lost, ?_, hpr, by omega⟩
  rw [main, freerange, hfree₁]
  change (kvmalloc L k₁).bind _ = _
  rw [hkvm]
  change (freeLoop L _ KINIT (startothers (ncpu - 1) k₂).2).bind _ = _
  rw [hfree₄]
  change (userinit L k₄).bind _ = _
  rw [huser]
  rfl

/-! ## All runs -/

theorem inv_of_reach (hM : Managed L M) {s₀ : State P} (h₀ : Inv L M R s₀)
    (h : (system L initproc s₀).Reach (fun _ _ => True) s) : Inv L M R s := by
  refine h.invariant (I := Inv L M R) ?_ ?_
  · rintro _ rfl
    exact h₀
  · intro s a t hs _ hst
    exact step_inv hM hs hst

/-- **Physical pages have one owner.**  In every run of `fork`, `exec`, `sbrk`, `exit`,
`wait` and pipe calls after `main`, no page is ever freed twice, and the free pages,
the pages of the processes and of the pipes, each counted as often as it is there, are
the pages `kinit1` and `kinit2` have handed out less those that `main` has kept.  So no
page has two owners: in particular two processes share no page. -/
theorem pages_one_owner {ncpu : ℕ} {s₀ : State P} {kpgdir : Pgdir} {kept : List Page}
    (hmain : main L ncpu initproc = .ok (s₀, kpgdir, kept))
    (h : (system L initproc s₀).Reach (fun _ _ => True) s) :
    s.mem.fault ≠ some .doubleFree ∧
    s.owned + (kpgdir.all + kept) = allPages L ∧
    s.owned.Nodup ∧
    ∀ p q pr pr', p ≠ q → s.mem.proc p = some pr → s.mem.proc q = some pr' →
      Disjoint pr.pgdir.uframes pr'.pgdir.uframes := by
  have hM := (allPages_managed L).nodup
  have h₀ := main_safe L ncpu initproc
  rw [hmain] at h₀
  have hinv := inv_of_reach (allPages_managed L) h₀ h
  have htotal : s.owned + (kpgdir.all + kept) = allPages L := by
    rw [← hinv.held.total, State.owned]
    abel
  have hnd : s.owned.Nodup := by
    rw [← htotal, nodup_add] at hM
    exact hM.1
  refine ⟨hinv.fault, htotal, hnd, fun p q pr pr' hne hp hq => ?_⟩
  have hprocs : (procPages s.mem.proc).Nodup := by
    rw [State.owned, nodup_add, nodup_add] at hnd
    exact hnd.1.2.1
  rw [procPages_eq _ p, hp, nodup_add] at hprocs
  have hmem : slotPages (s.mem.proc q) ≤ others s.mem.proc p :=
    Finset.single_le_sum (f := fun q => slotPages (s.mem.proc q)) (fun _ _ => zero_le _)
      (Finset.mem_erase.2 ⟨hne.symm, Finset.mem_univ q⟩)
  rw [hq] at hmem
  rw [disjoint_left]
  intro v hv hv'
  have hp' : v ∈ slotPages (some pr) := mem_add.2 (.inr (mem_add.2 (.inr hv)))
  have hq' : v ∈ slotPages (some pr') := mem_add.2 (.inr (mem_add.2 (.inr hv')))
  exact disjoint_left.1 hprocs.2.2 hp' (mem_of_le hmem hq')

omit [DecidableEq P] [Fintype P] in
theorem growproc_page {pr : Proc P} (hpr : OnePage pr) (h : 2 ≤ k.freelist.length) :
    ∃ pr' k', growproc L 4096 pr k = .ok (0, pr', k') ∧ pr'.zombie = false ∧
      k.freelist.length ≤ k'.freelist.length + 2 := by
  obtain ⟨hsz, hlive, hnone⟩ := hpr
  have hone : pages PGSIZE = 1 := rfl
  have htwo : pages 8192 = 2 := rfl
  obtain ⟨k', pd', halloc, hlen, -⟩ := @allocuvm_succeeds L k pr.pgdir PGSIZE 8192 (by decide) (by decide)
    (by omega) fun b hb => hnone b (hone.symm.trans_le hb)
  have hnew : (BitVec.ofNat 32 PGSIZE + 4096).toNat = 8192 := rfl
  refine ⟨{ pr with pgdir := pd', sz := 8192 }, k', ?_, hlive, by omega⟩
  rw [growproc, if_pos (by decide), hsz, hnew, halloc]
  rfl

theorem first_run (L : Layout) (initproc : P) (h : L.kend.toNat + 514 ≤ KINIT.toNat) :
    ∃ s₀ kpgdir kept s, main L 2 initproc = .ok (s₀, kpgdir, kept) ∧
      (system L initproc s₀).Reach (fun _ _ => True) s ∧ s.pipes.length = 1 ∧
      (s.mem.proc initproc).map Proc.sz = some 12288 := by
  obtain ⟨pr, k, kpgdir, kept, hmain, hpr, hlen⟩ := main_succeeds L 2 initproc h
  obtain ⟨pr₁, k₁, hgrow, hlive₁, hlen₁⟩ := growproc_page (L := L) hpr (by omega : 2 ≤ k.freelist.length)
  obtain ⟨v, k₂, hk, hlen₂⟩ := kalloc_succeeds .kernel (by omega : 0 < k₁.freelist.length)
  obtain ⟨elf, pd, k', hn⟩ := Exec.newImage_program (L := L) (by omega : 519 ≤ k₂.freelist.length)
  have h₀ := main_safe L 2 initproc
  rw [hmain] at h₀
  have hlive {pr : Proc P} (hpr : pr.zombie = false) {m : SharedMem.State P}
      (hm : m.proc initproc = some pr) : m.live initproc = some pr := by
    rw [State.live, hm, Option.filter_some, hpr]
    rfl
  have hfirst : (State.first initproc pr k).mem.proc initproc = some pr := by simp [State.first]
  have hinit : (system L initproc (State.first initproc pr k)).Reach (fun _ _ => True)
      (State.first initproc pr k) := .init rfl
  have h₁ := hinit.step (a := .sbrk initproc 4096) (t := (State.first initproc pr k).setProc initproc pr₁ k₁)
    trivial (by
      simp only [system, PageOwner.step, hlive hpr.2.1 hfirst, stepSbrk, Option.map_some]
      rw [show (State.first initproc pr k).mem.kmem = k from rfl, hgrow]
      rfl)
  have h₂ := h₁.step (a := .pipe true true)
    (t := ((State.first initproc pr k).setProc initproc pr₁ k₁).setPipes [⟨⟨true, true⟩, v⟩] k₂) trivial (by
      simp only [system, PageOwner.step, stepPipe, sysPipe]
      rw [show ((State.first initproc pr k).setProc initproc pr₁ k₁).mem.kmem = k₁ from rfl, hk]
      rfl)
  generalize hs : ((State.first initproc pr k).setProc initproc pr₁ k₁).setPipes
    [⟨⟨true, true⟩, v⟩] k₂ = s at h₂
  have hproc : s.mem.proc initproc = some pr₁ := by
    rw [← hs]
    simp [State.setProc, State.setPipes]
  have hinv := inv_of_reach (allPages_managed L) h₀ h₂
  obtain ⟨esp, k₃, hzero⟩ := Exec.execMem_zero (p := ⟨pr₁.pgdir, pr₁.sz, [], 0, 0⟩)
    (k := s.mem.kmem) (allPages_managed L) (fun _ _ => rfl) [105] [[105], [45, 120]]
    (hinv.proc hproc) (by rw [← hs]; exact hn) (by decide) (by decide) (by decide)
  have h₃ := h₂.step (a := .exec initproc Exec.program [105] [[105], [45, 120]])
    (t := s.setProc initproc { pr₁ with pgdir := pd, sz := 12288 } k₃) trivial (by
      simp only [system, PageOwner.step, hlive hlive₁ hproc, stepExec]
      rw [if_neg (by rw [← hs]; simp [State.first, State.setProc, State.setPipes]),
        if_pos (by decide), Option.map_some, hzero])
  refine ⟨_, kpgdir, kept, _, hmain, h₃, ?_, ?_⟩
  · rw [← hs]
    rfl
  · simp [State.setProc]

/-- On the small machine. -/
theorem pages_one_owner_run : ∃ s₀ kpgdir kept s,
    main smallLayout 2 (0 : Fin 2) = .ok (s₀, kpgdir, kept) ∧
    (system smallLayout 0 s₀).Reach (fun _ _ => True) s ∧ s.pipes.length = 1 ∧
    (s.mem.proc 0).map Proc.sz = some 12288 ∧
    s.owned + (kpgdir.all + kept) = allPages smallLayout ∧ s.owned.Nodup := by
  obtain ⟨s₀, kpgdir, kept, s, hmain, h, hpipes, hsz⟩ := first_run smallLayout (0 : Fin 2) (by decide)
  obtain ⟨-, htotal, hnd, -⟩ := pages_one_owner hmain h
  exact ⟨s₀, kpgdir, kept, s, hmain, h, hpipes, hsz, htotal, hnd⟩

end Xv6.PageOwner
