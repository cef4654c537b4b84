import Xv6.Mem.Mappages

/-!
# Whole directories

`setupkvm` and `freevm` without panics, and with what they leave alone.  Together with
`allocuvm` and `deallocuvm` these are all the calls that make or take apart a directory.

* `freevm_sure` — the pages of the directory are free again.
* `setupkvm_sure` — the kernel part is mapped, not for users, and the user part is empty
  (`Fresh`); when memory runs out all pages are given back.
-/

namespace Xv6.Mem

open Xv6.Lib List

variable {L : Layout} {M X : Multiset Page} {k k' : Kmem} {pd pd' : Pgdir}

/-! ## Freeing -/

theorem kfreeAll_sure (hM : Managed L M) (vs : List Page) : ∀ {k : Kmem}, Held L M k (vs + X) →
    Sure (fun k' => Held L M k' X ∧ ∀ v ∈ X, k'.mem v = k.mem v) (kfreeAll L vs k) := by
  induction vs with
  | nil =>
    intro k h
    exact ⟨h.congr (zero_add X), fun _ _ => rfl⟩
  | cons v vs ih =>
    intro k h
    have htaken : Held L M k ({v} + ((vs : Multiset Page) + X)) := by
      refine h.congr ?_
      rw [← Multiset.cons_coe, ← Multiset.singleton_add, add_assoc]
    have hv := kfree_sure hM htaken
    rw [kfreeAll]
    cases hk : kfree L v k with
    | error f =>
      rw [hk] at hv
      exact hv
    | ok k₁ =>
      rw [hk] at hv
      obtain ⟨h₁, hmem⟩ := hv
      refine (ih h₁).mono fun k₂ h₂ => ⟨h₂.1, fun w hw => (h₂.2 w hw).trans (hmem w ?_)⟩
      exact htaken.other_ne hM (Multiset.mem_add.2 (.inr hw))

/-- **`freevm`** gives back all pages of the directory. -/
theorem freevm_sure (hM : Managed L M) (h : Held L M k (pd.all + X)) :
    Sure (fun k' => Held L M k' X ∧ ∀ v ∈ X, k'.mem v = k.mem v) (freevm L k pd) := by
  have hdealloc : Sure _ (deallocuvm L (KERNBASE.toNat * PGSIZE) 0 k pd) :=
    deallocuvm_sure hM (pages_le_kernbase le_rfl) h
  rw [freevm]
  cases hd : deallocuvm L (KERNBASE.toNat * PGSIZE) 0 k pd with
  | error f =>
    rw [hd] at hdealloc
    exact hdealloc
  | ok r =>
    obtain ⟨k₁, pd₁⟩ := r
    rw [hd] at hdealloc
    obtain ⟨h₁, hgone⟩ := hdealloc
    have hpages : pages (KERNBASE.toNat * PGSIZE) = KERNBASE.toNat := rfl
    have hempty : pd₁.uframes = 0 := uframes_eq_zero fun a ha =>
      hgone.gone a (Nat.zero_le _) (by rw [hpages]; exact BitVec.lt_def.1 ha)
    have hlist : Held L M k₁ (((pd₁.tables ++ [pd₁.page] : List Page) : Multiset Page) + X) := by
      refine Held.congr h₁ ?_
      rw [coe_tables, Pgdir.all, hempty, add_zero]
    refine (kfreeAll_sure hM _ hlist).mono fun k₂ h₂ => ⟨h₂.1, fun v hv => ?_⟩
    exact (h₂.2 v hv).trans (hgone.kept.other v hv)

/-! ## The kernel part -/

/-- What mapping pages `a` up to `last` of the kernel part has done. -/
structure KernelMapped (X : Multiset Page) (perm : Perm) (k : Kmem) (pd : Pgdir) (a last : ℕ)
    (ok : Bool) (k' : Kmem) (pd' : Pgdir) : Prop where
  lookup : ∀ b : Page, b.toNat < a ∨ last < b.toNat → pd'.lookup b = pd.lookup b
  perm : ∀ (b : Page) (e : Pte), pd'.lookup b = some e → pd.lookup b = some e ∨ e.perm = perm
  mem : ∀ v ∈ X, k'.mem v = k.mem v
  mapped : ok = true → ∀ b : Page, a ≤ b.toNat → b.toNat ≤ last → pd'.lookup b ≠ none

theorem mapLoop_sure (hM : Managed L M) (perm : Perm) {last : Page} (n : ℕ) (pa : Page) {a : Page}
    (hn : a.toNat + n = last.toNat) (ha : KERNBASE ≤ a)
    (hnone : ∀ b : Page, a.toNat ≤ b.toNat → b.toNat ≤ last.toNat → pd.lookup b = none)
    (h : Held L M k (pd.all + X)) :
    Sure (fun r => Held L M r.2.1 (r.2.2.all + X) ∧
        KernelMapped X perm k pd a.toNat last.toNat r.1 r.2.1 r.2.2)
      (mapLoop perm last (n + 1) a pa k pd) := by
  obtain ⟨ok, k', pd', m, hloop, hmaps, hspares, hend⟩ := mapLoop_maps perm n pa k hn
    fun b hb hb' => hnone b (BitVec.le_def.1 hb) (BitVec.le_def.1 hb')
  have hrun := hloop (n + 1) n.lt_succ_self
  have hg := (mapLoop_kernel _ ha (by rw [BitVec.le_def]; omega) hrun).1
  have hm : m ≤ n + 1 := by
    obtain ⟨-, rfl⟩ | ⟨-, hm, -⟩ := hend <;> omega
  rw [hrun]
  refine ⟨Held.grow (U := 0) (h.congr (by rw [zero_add])) hg, fun b hb => ?_, fun b e he => ?_,
    fun v hv => ?_, fun hok b hb hb' => ?_⟩
  · exact hmaps.outside b (by rw [BitVec.lt_def]; omega)
  · by_cases hin : a.toNat ≤ b.toNat ∧ b.toNat < a.toNat + m
    · rw [hmaps.inside b (BitVec.le_def.2 hin.1) hin.2] at he
      cases he
      exact .inr rfl
    · rw [hmaps.outside b (by rw [BitVec.lt_def]; omega)] at he
      exact .inl he
  · exact (hspares v (h.notMem hM.nodup (Multiset.mem_add.2 (.inr hv)))).1
  · obtain ⟨-, rfl⟩ | ⟨hno, -⟩ := hend
    · rw [hmaps.inside b (BitVec.le_def.2 hb) (by omega)]
      exact Option.some_ne_none _
    · cases hok.symm.trans hno

/-- A directory with nothing in the user part, and nothing for users in the kernel part. -/
structure Fresh (pd : Pgdir) : Prop where
  low : ∀ b < KERNBASE, pd.lookup b = none
  kernel : ∀ (b : Page) (e : Pte), pd.lookup b = some e → e.perm &&& PTE_U = 0

/-- What `setupkvm` leaves: a directory that maps the pages of `ms`, or nothing. -/
def SetUp (L : Layout) (M X : Multiset Page) (k : Kmem) (ms : List Kmap) (lo : ℕ) (pd : Pgdir) :
    Option Pgdir × Kmem → Prop
  | (none, k') => Held L M k' X ∧ ∀ v ∈ X, k'.mem v = k.mem v
  | (some pd', k') => Held L M k' (pd'.all + X) ∧ Fresh pd' ∧ (∀ v ∈ X, k'.mem v = k.mem v) ∧
      (∀ b : Page, b.toNat < lo → pd'.lookup b = pd.lookup b) ∧
      ∀ m ∈ ms, ∀ b : Page, m.virt.toNat ≤ b.toNat →
        b.toNat < m.virt.toNat + (m.physEnd - m.physStart).toNat → pd'.lookup b ≠ none

theorem giveUp_sure (hM : Managed L M) {ms : List Kmap} {lo : ℕ} {k₀ : Kmem} {pd₀ : Pgdir}
    (h : Held L M k (pd.all + X)) (hmem : ∀ v ∈ X, k.mem v = k₀.mem v) :
    Sure (SetUp L M X k₀ ms lo pd₀) (giveUp L k pd) := by
  have hfree := freevm_sure hM h
  rw [giveUp]
  cases hf : freevm L k pd with
  | error f =>
    rw [hf] at hfree
    exact hfree
  | ok k₁ =>
    rw [hf] at hfree
    exact ⟨hfree.1, fun v hv => (hfree.2 v hv).trans (hmem v hv)⟩

theorem mapKernel_sure (hM : Managed L M) {ms : List Kmap} :
    ∀ {k : Kmem} {pd : Pgdir} {lo : ℕ}, KERNBASE.toNat ≤ lo → Rising lo ms →
      (∀ m ∈ ms, m.perm &&& PTE_U = 0) → (∀ b : Page, lo ≤ b.toNat → pd.lookup b = none) →
      Fresh pd → Held L M k (pd.all + X) →
      Sure (SetUp L M X k ms lo pd) (mapKernel L ms k pd) := by
  induction ms with
  | nil =>
    intro k pd lo _ _ _ _ hfresh h
    exact ⟨h, hfresh, fun _ _ => rfl, fun _ _ => rfl, fun _ hm => absurd hm not_mem_nil⟩
  | cons m ms ih =>
    intro k pd lo hlo hms hperm hnone hfresh h
    obtain ⟨hle, hpos, hend, hrest⟩ := hms
    have hlast := toNat_pageOf_last hpos hend
    have hcount : (pageOf (base m.virt + base (m.physEnd - m.physStart) - 1) - m.virt).toNat =
        (m.physEnd - m.physStart).toNat - 1 := by
      rw [BitVec.toNat_sub, hlast]
      have hv := m.virt.isLt
      omega
    have hbase : KERNBASE ≤ m.virt := by
      rw [BitVec.le_def]
      omega
    have hmap := mapLoop_sure hM m.perm ((m.physEnd - m.physStart).toNat - 1) m.physStart
      (by rw [hlast]; omega) hbase (fun b hb _ => hnone b (by omega)) h
    rw [mapKernel, mappages, pageOf_base, hcount]
    revert hmap
    generalize mapLoop m.perm (pageOf (base m.virt + base (m.physEnd - m.physStart) - 1))
      ((m.physEnd - m.physStart).toNat - 1 + 1) m.virt m.physStart k pd = x
    rw [hlast]
    obtain f | ⟨b, k₁, pd₁⟩ := x
    · exact fun hmap => hmap
    cases b with
    | false =>
      rintro ⟨h₁, hr⟩
      exact giveUp_sure hM h₁ hr.mem
    | true =>
      rintro ⟨h₁, hr⟩
      have hfresh₁ : Fresh pd₁ := by
        refine ⟨fun b hb => ?_, fun b e he => ?_⟩
        · have hb' := BitVec.lt_def.1 hb
          rw [hr.lookup b (by omega)]
          exact hfresh.low b hb
        · rcases hr.perm b e he with he' | hp
          · exact hfresh.kernel b e he'
          · rw [hp]
            exact hperm m (mem_cons_self)
      refine (ih (by omega) hrest (fun x hx => hperm x (mem_cons_of_mem _ hx))
        (fun b hb => ?_) hfresh₁ h₁).mono ?_
      · rw [hr.lookup b (by omega)]
        exact hnone b (by omega)
      · rintro ⟨o, k₂⟩ h₂
        cases o with
        | none => exact ⟨h₂.1, fun v hv => (h₂.2 v hv).trans (hr.mem v hv)⟩
        | some pd₂ =>
          obtain ⟨hheld, hf, hmem, hsame, hall⟩ := h₂
          refine ⟨hheld, hf, fun v hv => (hmem v hv).trans (hr.mem v hv), fun b hb => ?_,
            fun x hx b hb hb' => ?_⟩
          · rw [hsame b (by omega), hr.lookup b (by omega)]
          · rcases mem_cons.1 hx with rfl | hx
            · rw [hsame b hb']
              exact hr.mapped rfl b hb (by omega)
            · exact hall x hx b hb hb'

/-- **`setupkvm`** makes a directory with the kernel part, or takes no page. -/
theorem setupkvm_sure (hM : Managed L M) (h : Held L M k X) :
    Sure (fun r => (∀ v ∈ X, r.2.mem v = k.mem v) ∧
        match r.1 with
        | none => Held L M r.2 X
        | some pd => Held L M r.2 (pd.all + X) ∧ Fresh pd ∧ pd.lookup 0xfffff ≠ none)
      (setupkvm L k) := by
  rw [setupkvm]
  cases hk : kalloc .kernel k with
  | none => exact ⟨fun _ _ => rfl, h⟩
  | some r =>
    obtain ⟨v, k₁⟩ := r
    have htaken : Held L M (k₁.memset v 0) ((Pgdir.empty v).all + X) := by
      refine ((h.kalloc hk).memset v 0).congr ?_
      rw [Pgdir.all, kpages_empty, uframes_empty, add_zero]
    have hempty : Fresh (Pgdir.empty v) := ⟨fun _ _ => rfl, by rintro _ _ ⟨⟩⟩
    have hperm : ∀ m ∈ kmap L, m.perm &&& PTE_U = 0 := by
      intro m hm
      simp only [kmap, mem_cons, not_mem_nil, or_false] at hm
      rcases hm with rfl | rfl | rfl | rfl <;> dsimp only <;> decide
    have hmem : ∀ w ∈ X, (k₁.memset v 0).mem w = k.mem w := by
      intro w hw
      have hne := (h.kalloc hk).other_ne hM hw
      change Function.update k₁.mem v _ w = _
      rw [Function.update_of_ne hne, kalloc_mem hk]
    refine (mapKernel_sure hM le_rfl (rising_kmap L) hperm (fun _ _ => rfl) hempty htaken).mono ?_
    rintro ⟨o, k₂⟩ h₂
    cases o with
    | none => exact ⟨fun w hw => (h₂.2 w hw).trans (hmem w hw), h₂.1⟩
    | some pd =>
      obtain ⟨hheld, hf, hsame, -, hall⟩ := h₂
      refine ⟨fun w hw => (hsame w hw).trans (hmem w hw), hheld, hf, ?_⟩
      refine hall ⟨DEVSPACE, DEVSPACE, 0, PTE_W⟩ ?_ 0xfffff (by decide) (by decide)
      simp [kmap]

end Xv6.Mem
