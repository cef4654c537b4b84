import Xv6.Mem.Space

/-!
# `mappages` over a range

What `mappages` does to the map of a page directory, for a range of any length, up to the
top of the address space.  The loop ends where the page is equal to the last one; the
pages are counted from the first one on, and as long as the range does not wrap the count
and the page number go up together.

* `walkpgdir_found` — there is a page table for the page, or no free page for one.
* `mapLoop_maps` — the loop, with any fuel that is enough for the pages of the range.
* `mappages_maps` — the result.
-/

namespace Xv6.Mem

open Function
open BitVec (eq_of_toNat_eq le_def lt_def)

/-! ## Page tables -/

section

open Multiset

variable {k k' : Kmem} {pd pd' : Pgdir} {U : Multiset Page}

/-- A directory with an empty user part is one page and at most 512 page tables. -/
theorem card_kpages_le (h : ∀ i, i.val < 512 → pd.pde i = none) : card pd.kpages ≤ 513 := by
  have hone : ∀ i ∈ (Finset.univ : Finset (Fin NPTENTRIES)),
      card ((pd.pde i).elim 0 fun t => ({P2V t.pa} : Multiset Page)) ≤
        if i.val < 512 then 0 else 1 := by
    intro i _
    split
    · simp [h i ‹_›]
    · cases pd.pde i <;> simp
  have hsum := Finset.sum_le_sum hone
  rw [Fin.sum_univ_eq_sum_range (fun i => if i < 512 then 0 else 1) NPTENTRIES,
    show ∑ i ∈ Finset.range NPTENTRIES, (if i < 512 then 0 else 1) = 512 by decide +kernel] at hsum
  rw [Pgdir.kpages, card_add, card_singleton, card_sum]
  omega

/-- However many pages of the kernel part are mapped, the page tables are not more than that. -/
theorem Grown.length_le (h : Grown k pd k' pd' U) (hpde : ∀ i, i.val < 512 → pd'.pde i = none) :
    k.freelist.length ≤ k'.freelist.length + 512 := by
  obtain ⟨T, hfree, hk, -⟩ := h.tables
  have hcard := congrArg card hfree
  have hle := card_kpages_le hpde
  rw [hk, Pgdir.kpages, card_add, card_add, card_singleton] at hle
  rw [card_add, coe_card, coe_card] at hcard
  omega

end

/-- `walkpgdir` with `alloc` finds the page table of a page or puts an empty one in, which
changes no entry.  It fails only when there is no free page. -/
theorem walkpgdir_found (a : Page) (k : Kmem) (pd : Pgdir) :
    (walkpgdir true a k pd = none ∧ k.freelist = []) ∨
      ∃ t k' pd', walkpgdir true a k pd = some (t, k', pd') ∧ pd'.pde (PDX a) = some t ∧
        k.Spares k' ∧ ∀ b, pd'.lookup b = pd.lookup b := by
  cases ht : pd.pde (PDX a) with
  | some t =>
    refine .inr ⟨t, k, pd, ?_, ht, fun _ hv => ⟨rfl, hv⟩, fun _ => rfl⟩
    simp only [walkpgdir, ht]
  | none =>
    cases hk : kalloc .kernel k with
    | none =>
      refine .inl ⟨by simp only [walkpgdir, ht, hk, if_true], ?_⟩
      unfold kalloc at hk
      split at hk
      · assumption
      · cases hk
    | some r =>
      have hwalk : walkpgdir true a k pd = some (⟨V2P r.1, fun _ => none⟩, r.2.memset r.1 0,
          { pd with pde := update pd.pde (PDX a) (some ⟨V2P r.1, fun _ => none⟩) }) := by
        simp only [walkpgdir, ht, hk, if_true]
      exact .inr ⟨_, _, _, hwalk, update_self .., walkpgdir_spares hwalk,
        walkpgdir_lookup hwalk⟩

/-- In `pd'` the `n` pages from `a` on are mapped to those from `pa` on, and the map is
otherwise that of `pd`. -/
structure Maps (pd pd' : Pgdir) (perm : Perm) (a pa : Page) (n : ℕ) : Prop where
  inside : ∀ b, a ≤ b → b.toNat < a.toNat + n → pd'.lookup b = some ⟨pa + (b - a), perm⟩
  outside : ∀ b, b < a ∨ a.toNat + n ≤ b.toNat → pd'.lookup b = pd.lookup b

section

variable {pd pd₁ pd' : Pgdir} {perm : Perm} {a pa : Page} {n : ℕ}

theorem Maps.none (pd : Pgdir) (perm : Perm) (a pa : Page) : Maps pd pd perm a pa 0 :=
  ⟨fun b hb hlt => absurd hlt (by rw [le_def] at hb; omega), fun _ _ => rfl⟩

/-- One page, and then those from the next one on. -/
theorem Maps.cons (hself : pd₁.lookup a = some ⟨pa, perm⟩)
    (hother : ∀ b, b ≠ a → pd₁.lookup b = pd.lookup b) (hnext : (a + 1).toNat = a.toNat + 1)
    (h : Maps pd₁ pd' perm (a + 1) (pa + 1) n) : Maps pd pd' perm a pa (n + 1) where
  inside := by
    intro b hb hlt
    by_cases hba : b = a
    · subst hba
      rw [h.outside b (.inl (by rw [lt_def]; omega)), hself, BitVec.sub_self, BitVec.add_zero]
    · have hle : a + 1 ≤ b := by
        rw [le_def] at hb ⊢
        have : a.toNat ≠ b.toNat := fun he => hba (eq_of_toNat_eq he.symm)
        omega
      rw [h.inside b hle (by omega)]
      congr 2
      ring
  outside := by
    intro b hb
    rw [lt_def] at hb
    have hba : b ≠ a := by
      rintro rfl
      omega
    rw [h.outside b (by rw [lt_def]; omega), hother b hba]

end

/-- One round: there is no page for a page table, or the page is mapped. -/
theorem mapLoop_one (perm : Perm) (last : Page) {a : Page} (pa : Page) (k : Kmem) {pd : Pgdir}
    (hnone : pd.lookup a = none) :
    (k.freelist = [] ∧ ∀ fuel, mapLoop perm last (fuel + 1) a pa k pd = .ok (false, k, pd)) ∨
      ∃ k₁ pd₁, pd₁.lookup a = some ⟨pa, perm⟩ ∧ (∀ b, b ≠ a → pd₁.lookup b = pd.lookup b) ∧
        k.Spares k₁ ∧ ∀ fuel, mapLoop perm last (fuel + 1) a pa k pd =
          if a = last then .ok (true, k₁, pd₁)
          else mapLoop perm last fuel (a + 1) (pa + 1) k₁ pd₁ := by
  rcases walkpgdir_found a k pd with ⟨hwalk, hfree⟩ | ⟨t, k₁, pd₁, hwalk, ht, hspares, hsame⟩
  · exact .inl ⟨hfree, fun fuel => by simp only [mapLoop, hwalk]⟩
  · -- the entry is not present, so there is no `panic("remap")`
    have hclear : t.pte (PTX a) = none := by
      have hlook := (hsame a).trans hnone
      rwa [Pgdir.lookup, ht] at hlook
    refine .inr ⟨k₁, pd₁.setPte a t (some ⟨pa, perm⟩), lookup_setPte_self, fun b hb => ?_,
      hspares, fun fuel => ?_⟩
    · rw [lookup_setPte_of_ne ht hb, hsame]
    · simp only [mapLoop, hwalk, hclear]

/-- The loop maps the pages in order, to the last one or until there is no page for a page
table. -/
theorem mapLoop_maps (perm : Perm) {last : Page} (n : ℕ) : ∀ {a : Page} (pa : Page) (k : Kmem)
    {pd : Pgdir}, a.toNat + n = last.toNat → (∀ b, a ≤ b → b ≤ last → pd.lookup b = none) →
    ∃ ok k' pd' m, (∀ fuel, n < fuel → mapLoop perm last fuel a pa k pd = .ok (ok, k', pd')) ∧
      Maps pd pd' perm a pa m ∧ k.Spares k' ∧
      (ok = true ∧ m = n + 1 ∨ ok = false ∧ m ≤ n ∧ k'.freelist = []) := by
  -- on the number of pages that follow
  induction n with
  | zero =>
    intro a pa k pd hlast hnone
    have ha : a = last := eq_of_toNat_eq hlast
    have hnone₀ := hnone a (BitVec.le_refl a) (ha ▸ BitVec.le_refl a)
    rcases mapLoop_one perm last pa k hnone₀ with
      ⟨hfree, hrun⟩ | ⟨k₁, pd₁, hself, hother, hspares, hrun⟩
    · refine ⟨false, k, pd, 0, fun fuel hfuel => ?_, .none pd perm a pa,
        fun _ hv => ⟨rfl, hv⟩, .inr ⟨rfl, le_rfl, hfree⟩⟩
      obtain ⟨j, rfl⟩ := Nat.exists_eq_add_of_lt hfuel
      rw [hrun]
    · refine ⟨true, k₁, pd₁, 1, fun fuel hfuel => ?_, ⟨fun b hb hlt => ?_, fun b hb => ?_⟩,
        hspares, .inl ⟨rfl, rfl⟩⟩
      · obtain ⟨j, rfl⟩ := Nat.exists_eq_add_of_lt hfuel
        rw [hrun, if_pos ha]
      · rw [le_def] at hb
        obtain rfl : b = a := eq_of_toNat_eq (by omega)
        rw [hself, BitVec.sub_self, BitVec.add_zero]
      · refine hother b ?_
        rintro rfl
        rw [lt_def] at hb
        omega
  | succ n ih =>
    intro a pa k pd hlast hnone
    have hlt := last.isLt
    have ha : a ≠ last := fun he => by rw [he] at hlast; omega
    have hnext : (a + 1).toNat = a.toNat + 1 := by bv_omega
    have hnone₀ := hnone a (BitVec.le_refl a) (by rw [le_def]; omega)
    rcases mapLoop_one perm last pa k hnone₀ with
      ⟨hfree, hrun⟩ | ⟨k₁, pd₁, hself, hother, hspares, hrun⟩
    · refine ⟨false, k, pd, 0, fun fuel hfuel => ?_, .none pd perm a pa,
        fun _ hv => ⟨rfl, hv⟩, .inr ⟨rfl, Nat.zero_le _, hfree⟩⟩
      obtain ⟨j, rfl⟩ := Nat.exists_eq_add_of_lt hfuel
      rw [hrun]
    · have hnone₁ : ∀ b, a + 1 ≤ b → b ≤ last → pd₁.lookup b = none := by
        intro b hb hbl
        rw [le_def, hnext] at hb
        have hba : b ≠ a := by
          rintro rfl
          omega
        rw [hother b hba]
        exact hnone b (by rw [le_def]; omega) hbl
      obtain ⟨ok, k', pd', m, hloop, hmaps, hspares', hend⟩ := ih (pa + 1) k₁ (by omega) hnone₁
      refine ⟨ok, k', pd', m + 1, fun fuel hfuel => ?_, .cons hself hother hnext hmaps,
        hspares.trans hspares', ?_⟩
      · obtain ⟨j, rfl⟩ := Nat.exists_eq_add_of_lt hfuel
        rw [hrun, if_neg ha]
        exact hloop _ (by omega)
      · rcases hend with ⟨hok, hm⟩ | ⟨hok, hm, hfree⟩
        · exact .inl ⟨hok, by omega⟩
        · exact .inr ⟨hok, by omega, hfree⟩

/-- Page `a` is one of those `mappages` is asked to map. -/
def InRange (va size : Addr) (a : Page) : Prop := pageOf va ≤ a ∧ a ≤ pageOf (va + size - 1)

/-- `mappages` over a range of which no page is present ends: with any fuel that is enough
for the pages of the range it gives the same result.  What is not in the range keeps its
entry.  If it succeeds every page of the range has got its entry, which is `pa` plus the
offset of the page with `perm`; if it fails there was no page for a page table, and the
pages of the range have got their entry or are not present. -/
theorem mappages_maps {va size : Addr} (pa : Page) (perm : Perm) (k : Kmem) {pd : Pgdir}
    (hsize : 1 ≤ size.toNat) (hwrap : va.toNat + size.toNat ≤ 2 ^ 32)
    (habsent : ∀ a, InRange va size a → pd.lookup a = none) :
    ∃ ok k' pd', mappages va size pa perm k pd = .ok (ok, k', pd') ∧
      (∀ fuel, (pageOf (va + size - 1)).toNat - (pageOf va).toNat < fuel →
        mapLoop perm (pageOf (va + size - 1)) fuel (pageOf va) pa k pd = .ok (ok, k', pd')) ∧
      (∀ a, ¬InRange va size a → pd'.lookup a = pd.lookup a) ∧
      (ok = true → ∀ a, InRange va size a →
        pd'.lookup a = some ⟨pa + (a - pageOf va), perm⟩) ∧
      (ok = false → k'.freelist = [] ∧ ∀ a, InRange va size a →
        pd'.lookup a = none ∨ pd'.lookup a = some ⟨pa + (a - pageOf va), perm⟩) := by
  have hle : (pageOf va).toNat ≤ (pageOf (va + size - 1)).toNat := by
    have hlast : (va + size - 1).toNat = va.toNat + size.toNat - 1 := by bv_omega
    have := (va + size - 1).isLt
    rw [pageOf, pageOf, PGSIZE, BitVec.toNat_ofNat, BitVec.toNat_ofNat, hlast]
    omega
  obtain ⟨ok, k', pd', m, hloop, hmaps, -, hend⟩ := mapLoop_maps perm
    ((pageOf (va + size - 1)).toNat - (pageOf va).toNat) pa k (by omega)
    fun b hb hbl => habsent b ⟨hb, hbl⟩
  have hcount : (pageOf (va + size - 1) - pageOf va).toNat =
      (pageOf (va + size - 1)).toNat - (pageOf va).toNat := by bv_omega
  refine ⟨ok, k', pd', hloop _ (by rw [hcount]; omega), hloop, fun a ha => ?_, fun hok a ha => ?_,
    fun hok => ⟨?_, fun a ha => ?_⟩⟩
  · refine hmaps.outside a ?_
    rw [InRange, le_def, le_def] at ha
    rw [lt_def]
    omega
  · obtain ⟨hlo, hhi⟩ := ha
    refine hmaps.inside a hlo ?_
    rw [le_def] at hhi
    rcases hend with ⟨-, hm⟩ | ⟨hno, -⟩
    · omega
    · cases hok.symm.trans hno
  · rcases hend with ⟨hyes, -⟩ | ⟨-, -, hfree⟩
    · cases hok.symm.trans hyes
    · exact hfree
  · -- the page has been reached or not
    by_cases hreached : a.toNat < (pageOf va).toNat + m
    · exact .inr (hmaps.inside a ha.1 hreached)
    · left
      rw [hmaps.outside a (.inr (not_lt.1 hreached)), habsent a ha]

/-- The devices: the last range of `kmap`, up to the top of the address space. -/
theorem mappages_maps_devspace : ∃ k' pd',
    mappages 0xFE000000 0x02000000 DEVSPACE PTE_W ⟨pageRange 0x80401 600, fun _ _ => 0, fun _ => none⟩
      (.empty 0x80400) = .ok (true, k', pd') ∧
    ∀ a, InRange 0xFE000000 0x02000000 a →
      pd'.lookup a = some ⟨DEVSPACE + (a - pageOf 0xFE000000), PTE_W⟩ := by
  have habsent : ∀ a, InRange 0xFE000000 0x02000000 a → (Pgdir.empty 0x80400).lookup a = none :=
    fun _ _ => rfl
  obtain ⟨ok, k', pd', hrun, hloop, -, hok, hfail⟩ := mappages_maps DEVSPACE PTE_W
    ⟨pageRange 0x80401 600, fun _ _ => 0, fun _ => none⟩ (by decide) (by decide) habsent
  cases ok with
  | true => exact ⟨k', pd', hrun, hok rfl⟩
  | false =>
    -- there are more pages than page tables
    obtain ⟨hg, hpde⟩ := mapLoop_kernel _ (by decide) (by decide) (hloop 0x2000 (by decide))
    have hlen := hg.length_le hpde
    rw [(hfail rfl).1, pageRange] at hlen
    simp at hlen

end Xv6.Mem
