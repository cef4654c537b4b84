import Xv6.Mem.Directory

/-!
# When there are pages enough

* `setupkvm_succeeds` — 514 free pages are enough for a page directory.
* `allocuvm_succeeds` — two free pages are enough for each new page of user memory.
-/

namespace Xv6.Mem

open Function Multiset

variable {L : Layout} {k k' k₀ : Kmem} {pd pd' pd₀ : Pgdir} {a : Page} {U : Multiset Page}

/-! ## The kernel part -/

/-- The loop of `setupkvm` maps a table whose pages are not mapped yet. -/
theorem mapKernel_succeeds (hlen : 512 < k₀.freelist.length) {ms : List Kmap} :
    ∀ {k : Kmem} {pd : Pgdir} {lo : ℕ}, KERNBASE.toNat ≤ lo → Rising lo ms →
      (∀ b : Page, lo ≤ b.toNat → pd.lookup b = none) →
      Grown k₀ pd₀ k pd 0 ∧ (∀ i, i.val < 512 → pd.pde i = none) →
      ∃ pd' k', mapKernel L ms k pd = .ok (some pd', k') ∧
        (Grown k₀ pd₀ k' pd' 0 ∧ ∀ i, i.val < 512 → pd'.pde i = none) ∧
        ∀ b : Page, b.toNat < lo → pd'.lookup b = pd.lookup b := by
  induction ms with
  | nil =>
    intro k pd lo _ _ _ hg
    exact ⟨pd, k, rfl, hg, fun _ _ => rfl⟩
  | cons m ms ih =>
    intro k pd lo hlo hms hfree hg
    obtain ⟨hle, hpos, hend, hrest⟩ := hms
    generalize hsize : m.physEnd - m.physStart = size at hpos hend hrest
    have hlast := toNat_pageOf_last hpos hend
    have hcount : (pageOf (base m.virt + base size - 1) - m.virt).toNat = size.toNat - 1 := by
      rw [BitVec.toNat_sub, hlast]
      have hv := m.virt.isLt
      omega
    have hbase : KERNBASE ≤ m.virt := by
      rw [BitVec.le_def]
      omega
    have hn : m.virt.toNat + (size.toNat - 1) = (pageOf (base m.virt + base size - 1)).toNat := by
      omega
    obtain ⟨ok, k₁, pd₁, n, hloop, hmaps, -, hdone⟩ := mapLoop_maps m.perm (size.toNat - 1)
      m.physStart k hn fun b hb _ => hfree b (by rw [BitVec.le_def] at hb; omega)
    have hrun := hloop (size.toNat - 1 + 1) (Nat.lt_succ_self _)
    obtain ⟨hadd, hpde⟩ := mapLoop_kernel _ hbase (by rw [BitVec.le_def, hlast]; omega) hrun
    have hg₁ := hg.1.trans hadd
    rw [add_zero] at hg₁
    have hpde₁ : ∀ i, i.val < 512 → pd₁.pde i = none := fun i hi => (hpde i hi).trans (hg.2 i hi)
    obtain ⟨rfl, rfl⟩ | ⟨-, -, hempty⟩ := hdone
    · have hsame : ∀ b : Page, b.toNat < m.virt.toNat ∨ m.virt.toNat + size.toNat ≤ b.toNat →
          pd₁.lookup b = pd.lookup b :=
        fun b hb => hmaps.outside b (by rw [BitVec.lt_def]; omega)
      obtain ⟨pd₂, k₂, hmap₂, hg₂, hsame₂⟩ := @ih k₁ pd₁ _ (by omega) hrest
        (fun b hb => (hsame b (.inr hb)).trans (hfree b (by omega))) ⟨hg₁, hpde₁⟩
      refine ⟨pd₂, k₂, ?_, hg₂, fun b hb => ?_⟩
      · rw [mapKernel, mappages, pageOf_base, hsize, hcount, hrun]
        exact hmap₂
      · rw [hsame₂ b (by omega), hsame b (by omega)]
    · -- the free list cannot have run out
      have hall := hg₁.length_le hpde₁
      rw [hempty, List.length_nil] at hall
      omega

theorem kalloc_succeeds (u : Use) (h : 0 < k.freelist.length) :
    ∃ v k', kalloc u k = some (v, k') ∧ k'.freelist.length + 1 = k.freelist.length := by
  obtain ⟨v, rest, hfree⟩ := List.exists_cons_of_length_pos h
  rw [kalloc, hfree]
  exact ⟨v, _, rfl, rfl⟩

/-- **`setupkvm` succeeds** with pages for the directory and all page tables there can be, and maps
nothing in the user part. -/
theorem setupkvm_succeeds (h : 514 ≤ k.freelist.length) :
    ∃ pd k', setupkvm L k = .ok (some pd, k') ∧
      k.freelist.length ≤ k'.freelist.length + 513 ∧ ∀ b < KERNBASE, pd.lookup b = none := by
  obtain ⟨v, k₁, hk, hlen⟩ := kalloc_succeeds .kernel (by omega : 0 < k.freelist.length)
  have hfree : (k₁.memset v 0).freelist.length = k₁.freelist.length := rfl
  obtain ⟨pd, k₂, hmap, hg, hsame⟩ := mapKernel_succeeds
    (by omega : 512 < (k₁.memset v 0).freelist.length) le_rfl (rising_kmap L) (fun _ _ => rfl) ⟨.refl _ (.empty v), fun _ _ => rfl⟩
  have hall := hg.1.length_le hg.2
  refine ⟨pd, k₂, ?_, by omega, fun b hb => hsame b (BitVec.lt_def.1 hb)⟩
  rw [setupkvm, hk]
  exact hmap

/-! ## User memory -/

/-- A page that is not mapped yet is mapped, with one page for the table if it is missing. -/
theorem mappages_succeeds (pa : Page) (perm : Perm) (h : 0 < k.freelist.length)
    (hnone : pd.lookup a = none) :
    ∃ k' pd', mappages (base a) PGSIZE pa perm k pd = .ok (true, k', pd') ∧
      k.freelist.length ≤ k'.freelist.length + 1 ∧ pd'.lookup a = some ⟨pa, perm⟩ ∧
      ∀ b, b ≠ a → pd'.lookup b = pd.lookup b := by
  obtain ⟨t, k', pd', hwalk, hlen⟩ : ∃ t k' pd', walkpgdir true a k pd = some (t, k', pd') ∧
      k.freelist.length ≤ k'.freelist.length + 1 := by
    rw [walkpgdir]
    cases hpde : pd.pde (PDX a) with
    | some t => exact ⟨t, k, pd, rfl, Nat.le_succ _⟩
    | none =>
      obtain ⟨v, k₁, hk, hlen⟩ := kalloc_succeeds .kernel h
      rw [hk]
      exact ⟨_, _, _, rfl, hlen.ge⟩
  refine ⟨k', pd'.setPte a t (some ⟨pa, perm⟩), ?_, hlen, lookup_setPte_self,
    fun b hb => ?_⟩
  · rw [mappages_one hnone, hwalk]
  · rw [lookup_setPte_of_ne (walkpgdir_grown hwalk).2 hb, walkpgdir_lookup hwalk]

theorem allocLoop_succeeds {oldsz newsz : ℕ} (n : ℕ) : ∀ {a : ℕ} {k : Kmem} {pd : Pgdir},
    a + n ≤ KERNBASE.toNat → 2 * n ≤ k.freelist.length →
    (∀ b : Page, a ≤ b.toNat → b < KERNBASE → pd.lookup b = none) →
    ∃ k' pd', allocLoop L oldsz newsz n a k pd = .ok (true, k', pd') ∧
      k.freelist.length ≤ k'.freelist.length + 2 * n ∧
      (∀ b : Page, a ≤ b.toNat → b.toNat < a + n → pd'.lookup b ≠ none) ∧
      ∀ b : Page, b.toNat < a ∨ a + n ≤ b.toNat → pd'.lookup b = pd.lookup b := by
  have hK : KERNBASE.toNat = 524288 := rfl
  induction n with
  | zero => exact fun _ _ _ => ⟨_, _, rfl, le_rfl, fun _ _ _ => absurd ‹_› (by omega), fun _ _ => rfl⟩
  | succ n ih =>
    intro a k pd ha hlen hfree
    obtain ⟨mem, k₁, hk, hlen₁⟩ := kalloc_succeeds .user (by omega : 0 < k.freelist.length)
    have hpage : (BitVec.ofNat 20 a : Page).toNat = a := by
      rw [BitVec.toNat_ofNat]
      omega
    have hnone : pd.lookup (BitVec.ofNat 20 a) = none :=
      hfree _ hpage.ge (by rw [BitVec.lt_def, hpage]; omega)
    obtain ⟨k₂, pd₂, hmap, hlen₂, hself, hsame⟩ := mappages_succeeds (k := k₁.memset mem 0) (V2P mem)
      (PTE_W ||| PTE_U) (by rw [Kmem.freelist_memset]; omega) hnone
    rw [Kmem.freelist_memset] at hlen₂
    have hne {b : Page} (hb : b.toNat ≠ a) : b ≠ BitVec.ofNat 20 a := by
      rintro rfl
      omega
    obtain ⟨k₃, pd₃, hrest, hlen₃, hmapped, hsame₃⟩ := @ih (a + 1) k₂ pd₂ (by omega)
      (by omega) fun b hb hlow => (hsame b (hne (by omega))).trans (hfree b (by omega) hlow)
    refine ⟨k₃, pd₃, ?_, by omega, fun b hb hb' => ?_, fun b hb => ?_⟩
    · rw [allocLoop, hk]
      dsimp only
      rw [hmap]
      exact hrest
    · by_cases hba : b.toNat = a
      · obtain rfl : b = BitVec.ofNat 20 a := BitVec.eq_of_toNat_eq (hba.trans hpage.symm)
        rw [hsame₃ _ (by omega), hself]
        simp
      · exact hmapped b (by omega) (by omega)
    · rw [hsame₃ b (by omega), hsame b (hne (by omega))]

/-- **`allocuvm` succeeds** with two pages for each page of the new memory. -/
theorem allocuvm_succeeds {oldsz newsz : ℕ} (hle : oldsz ≤ newsz)
    (hnew : newsz < KERNBASE.toNat * PGSIZE)
    (hlen : 2 * (pages newsz - pages oldsz) ≤ k.freelist.length)
    (hfree : ∀ b : Page, pages oldsz ≤ b.toNat → b < KERNBASE → pd.lookup b = none) :
    ∃ k' pd', allocuvm L oldsz newsz k pd = .ok (newsz, k', pd') ∧
      k.freelist.length ≤ k'.freelist.length + 2 * (pages newsz - pages oldsz) ∧
      (∀ b : Page, pages oldsz ≤ b.toNat → b.toNat < pages newsz → pd'.lookup b ≠ none) ∧
      ∀ b : Page, pages newsz ≤ b.toNat → pd'.lookup b = pd.lookup b := by
  have hpages := pages_le_kernbase hnew.le
  have hmono : pages oldsz ≤ pages newsz := by
    simp only [pages, PGSIZE]
    omega
  obtain ⟨k', pd', hloop, hlen', hmapped, hsame⟩ := @allocLoop_succeeds L oldsz newsz
    (pages newsz - pages oldsz) _ _ _ (by omega : pages oldsz + _ ≤ KERNBASE.toNat) hlen hfree
  refine ⟨k', pd', ?_, hlen', fun b hb hb' => hmapped b hb (by omega), fun b hb => hsame b (by omega)⟩
  rw [allocuvm, if_neg (by omega), if_neg (by omega), hloop]
  rfl

end Xv6.Mem
