import Xv6.Lib.Lts
import Xv6.Mem.Vm

/-!
# The pages of a page directory

Every page a directory keeps the allocator from handing out is counted: the
pages it is stored in (`Pgdir.kpages`) and the frames its user part maps
(`Pgdir.uframes`), each as often as it is mapped.  The functions of `vm.c` move
pages between the free list and these two, and nothing else.

* `mappages_page` and `mapLoop_kernel` — mapping takes table pages.
* `freevm_released` and `freevm_error` — freeing gives everything back, and
  fails only on pages `kfree` rejects unless a page is given back twice.
-/

namespace Xv6.Mem

open Xv6.Lib Multiset Option
open BitVec (eq_of_toNat_eq lt_def ofNat toNat_ofNat)

/-- The frames mapped by a page table. -/
def PageTable.frames (t : PageTable) : Multiset Page :=
  ∑ j, (t.pte j).elim 0 fun e => {P2V e.pa}

/-- The pages a directory is stored in. -/
def Pgdir.kpages (pd : Pgdir) : Multiset Page :=
  {pd.page} + ∑ i, (pd.pde i).elim 0 fun t => {P2V t.pa}

/-- The frames mapped by the user part of a directory. -/
def Pgdir.uframes (pd : Pgdir) : Multiset Page :=
  ∑ i : Fin NPTENTRIES, if i.val < 512 then (pd.pde i).elim 0 PageTable.frames else 0

theorem PDX_lt_iff (a : Page) : (PDX a).val < 512 ↔ a < KERNBASE := by
  simp only [PDX, KERNBASE, lt_def]
  simp
  omega

variable {pd pd' pd₀ : Pgdir} {a : Page} {t : PageTable} {U : Multiset Page} {L : Layout}
  {k k' k₀ : Kmem} {perm : Perm} {vs : List Page} {last : ℕ}

theorem mem_uframes_of_lookup {e : Pte} (ha : a < KERNBASE) (h : pd.lookup a = some e) :
    P2V e.pa ∈ pd.uframes := by
  rw [Pgdir.lookup, bind_eq_some_iff] at h
  rw [Pgdir.uframes, mem_sum]
  obtain ⟨t, ht, he⟩ := h
  refine ⟨PDX a, Finset.mem_univ _, ?_⟩
  rw [if_pos ((PDX_lt_iff a).2 ha), ht, elim_some, PageTable.frames, mem_sum]
  refine ⟨PTX a, Finset.mem_univ _, ?_⟩
  rw [he]
  exact mem_singleton_self _

/-- The page with the given indices in the directory and in the page table. -/
def pageAt (i j : Fin NPTENTRIES) : Page := ofNat 20 (i.val * 1024 + j.val)

theorem toNat_pageAt (i j : Fin NPTENTRIES) : (pageAt i j).toNat = i.val * 1024 + j.val := by
  have hi := i.isLt
  have hj := j.isLt
  simp only [NPTENTRIES] at hi hj
  rw [pageAt, toNat_ofNat]
  omega

theorem PDX_pageAt (i j : Fin NPTENTRIES) : PDX (pageAt i j) = i := by
  have hj := j.isLt
  simp only [NPTENTRIES] at hj
  apply Fin.ext
  simp only [PDX, toNat_pageAt]
  omega

theorem PTX_pageAt (i j : Fin NPTENTRIES) : PTX (pageAt i j) = j := by
  have hj := j.isLt
  simp only [NPTENTRIES] at hj
  apply Fin.ext
  simp only [PTX, toNat_pageAt]
  omega

theorem uframes_eq_sum (pd : Pgdir) : pd.uframes = ∑ i : Fin NPTENTRIES, if i.val < 512 then
    ∑ j, (pd.lookup (pageAt i j)).elim 0 fun e => {P2V e.pa} else 0 := by
  rw [Pgdir.uframes]
  refine Finset.sum_congr rfl fun i _ => ?_
  by_cases hi : i.val < 512
  · rw [if_pos hi, if_pos hi]
    simp only [Pgdir.lookup, PDX_pageAt, PTX_pageAt]
    cases pd.pde i with
    | none => exact Finset.sum_const_zero.symm
    | some t => rfl
  · rw [if_neg hi, if_neg hi]

theorem mem_uframes {v : Page} (h : v ∈ pd.uframes) :
    ∃ a < KERNBASE, ∃ e, pd.lookup a = some e ∧ P2V e.pa = v := by
  rw [uframes_eq_sum, mem_sum] at h
  obtain ⟨i, -, hi⟩ := h
  split at hi
  · rename_i hlt
    obtain ⟨j, -, hj⟩ := mem_sum.1 hi
    refine ⟨pageAt i j, (PDX_lt_iff _).1 (by rwa [PDX_pageAt]), ?_⟩
    cases he : pd.lookup (pageAt i j) with
    | none =>
      rw [he] at hj
      exact absurd hj (notMem_zero v)
    | some e =>
      rw [he] at hj
      exact ⟨e, rfl, (mem_singleton.1 hj).symm⟩
  · exact absurd hi (notMem_zero v)

theorem uframes_eq_zero (h : ∀ a < KERNBASE, pd.lookup a = none) : pd.uframes = 0 := by
  refine eq_zero_of_forall_notMem fun v hv => ?_
  obtain ⟨a, ha, e, he, -⟩ := mem_uframes hv
  rw [h a ha] at he
  cases he

theorem kpages_empty (v : Page) : (Pgdir.empty v).kpages = {v} := by
  simp [Pgdir.kpages, Pgdir.empty]

theorem uframes_empty (v : Page) : (Pgdir.empty v).uframes = 0 := by
  simp [Pgdir.uframes, Pgdir.empty]

/-! ## Storing entries -/

theorem frames_set (t : PageTable) (j : Fin NPTENTRIES) (e : Option Pte) :
    (t.set j e).frames + (t.pte j).elim 0 (fun e => {P2V e.pa})
      = t.frames + e.elim 0 fun e => {P2V e.pa} :=
  sum_update_add (fun _ (x : Option Pte) => x.elim 0 fun e => ({P2V e.pa} : Multiset Page)) t.pte j e

theorem kpages_setPte (ht : pd.pde (PDX a) = some t) (e : Option Pte) :
    (pd.setPte a t e).kpages = pd.kpages := by
  have hsum := sum_update_add
    (fun _ (x : Option PageTable) => x.elim 0 fun t => ({P2V t.pa} : Multiset Page)) pd.pde (PDX a)
    (some (t.set (PTX a) e))
  rw [ht] at hsum
  unfold Pgdir.kpages
  exact congrArg _ (add_right_cancel hsum)

theorem uframes_setPte_user (ht : pd.pde (PDX a) = some t) (ha : a < KERNBASE) (e : Option Pte) :
    (pd.setPte a t e).uframes + (t.pte (PTX a)).elim 0 (fun e => {P2V e.pa})
      = pd.uframes + e.elim 0 fun e => {P2V e.pa} := by
  have hsum : (pd.setPte a t e).uframes + t.frames = pd.uframes + (t.set (PTX a) e).frames := by
    have hupd := sum_update_add (fun (i : Fin NPTENTRIES) (x : Option PageTable) =>
      if i.val < 512 then x.elim 0 PageTable.frames else 0) pd.pde (PDX a) (some (t.set (PTX a) e))
    simp only [(PDX_lt_iff a).2 ha, if_true, ht, elim_some] at hupd
    rw [Pgdir.uframes, Pgdir.uframes]
    exact hupd
  have hset := frames_set t (PTX a) e
  apply add_right_cancel (b := t.frames)
  calc (pd.setPte a t e).uframes + (t.pte (PTX a)).elim 0 (fun e => {P2V e.pa}) + t.frames
      = ((pd.setPte a t e).uframes + t.frames) + (t.pte (PTX a)).elim 0 (fun e => {P2V e.pa}) := by
        abel
    _ = (pd.uframes + (t.set (PTX a) e).frames) + (t.pte (PTX a)).elim 0 (fun e => {P2V e.pa}) := by
        rw [hsum]
    _ = pd.uframes + ((t.set (PTX a) e).frames + (t.pte (PTX a)).elim 0 (fun e => {P2V e.pa})) := by
        abel
    _ = pd.uframes + e.elim 0 (fun e => {P2V e.pa}) + t.frames := by
        rw [hset]
        abel

theorem uframes_update_kernel {i : Fin NPTENTRIES} (hi : ¬ i.val < 512) (x : Option PageTable) :
    ({ pd with pde := Function.update pd.pde i x } : Pgdir).uframes = pd.uframes := by
  have hsum := sum_update_add (fun (i : Fin NPTENTRIES) (x : Option PageTable) =>
    if i.val < 512 then x.elim 0 PageTable.frames else 0) pd.pde i x
  simp only [hi, if_false, add_zero] at hsum
  exact hsum

/-! ## Mapping -/

/-- `k'` and `pd'` are `k` and `pd` after some page tables were added and the
user part came to map the frames of `U` as well. -/
structure Grown (k : Kmem) (pd : Pgdir) (k' : Kmem) (pd' : Pgdir) (U : Multiset Page) : Prop where
  /-- The new page tables come from the free list. -/
  tables : ∃ T : Multiset Page, (k.freelist : Multiset Page) = T + k'.freelist ∧
    pd'.kpages = pd.kpages + T ∧ ∀ v, k'.use v = if v ∈ T then some .kernel else k.use v
  frames : pd'.uframes = pd.uframes + U

theorem Grown.refl (k : Kmem) (pd : Pgdir) : Grown k pd k pd 0 :=
  ⟨⟨0, by simp, by simp, by simp⟩, by simp⟩

theorem Grown.trans {k₁ k₂ k₃ : Kmem} {pd₁ pd₂ pd₃ : Pgdir} {V : Multiset Page}
    (h₁ : Grown k₁ pd₁ k₂ pd₂ U) (h₂ : Grown k₂ pd₂ k₃ pd₃ V) : Grown k₁ pd₁ k₃ pd₃ (U + V) := by
  obtain ⟨T₁, hf₁, hk₁, hu₁⟩ := h₁.tables
  obtain ⟨T₂, hf₂, hk₂, hu₂⟩ := h₂.tables
  refine ⟨⟨T₁ + T₂, ?_, ?_, ?_⟩, ?_⟩
  · rw [hf₁, hf₂]
    abel
  · rw [hk₂, hk₁]
    abel
  · intro v
    rw [hu₂, hu₁]
    by_cases hv₁ : v ∈ T₁ <;> by_cases hv₂ : v ∈ T₂ <;> simp [hv₁, hv₂]
  · rw [h₂.frames, h₁.frames]
    abel

theorem Grown.ok (hk : k.Ok L) (h : Grown k pd k' pd' U) : k'.Ok L := by
  obtain ⟨T, hf, -, hu⟩ := h.tables
  have hnd : (T + k'.freelist).Nodup := by
    rw [← hf]
    exact coe_nodup.2 hk.nodup
  have hsub : ∀ v ∈ k'.freelist, v ∈ k.freelist := by
    intro v hv
    rw [← mem_coe, hf]
    exact mem_add.2 (Or.inr hv)
  rw [nodup_add] at hnd
  refine ⟨coe_nodup.1 hnd.2.1, ?_, fun v hv => hk.managed v (hsub v hv)⟩
  intro v hv
  have hT : v ∉ T := fun hT => disjoint_left.1 hnd.2.2 hT hv
  rw [hu, if_neg hT]
  exact hk.unused v (hsub v hv)

theorem Grown.use_of_some (hk : k.Ok L) (h : Grown k pd k' pd' U) {v : Page} {u : Use}
    (hv : k.use v = some u) :
    k'.use v = some u := by
  obtain ⟨T, hf, -, hu⟩ := h.tables
  have hT : v ∉ T := by
    intro hT
    refine hk.notMem_of_use hv ?_
    rw [← mem_coe, hf]
    exact mem_add.2 (Or.inl hT)
  rw [hu, if_neg hT, hv]

theorem walkpgdir_grown {alloc : Bool} (h : walkpgdir alloc a k pd = some (t, k', pd')) :
    Grown k pd k' pd' 0 ∧ pd'.pde (PDX a) = some t := by
  unfold walkpgdir at h
  split at h
  · rename_i t' ht
    cases h
    exact ⟨Grown.refl _ _, ht⟩
  · rename_i ht
    split at h
    · split at h
      · cases h
      · rename_i v k₁ hv
        obtain ⟨hfree, huse⟩ := kalloc_eq_some hv
        cases h
        have hk := sum_update_add
          (fun _ (x : Option PageTable) => x.elim 0 fun t => ({P2V t.pa} : Multiset Page)) pd.pde
          (PDX a) (some ⟨V2P v, fun _ => none⟩)
        have hu := sum_update_add (fun (i : Fin NPTENTRIES) (x : Option PageTable) =>
          if i.val < 512 then x.elim 0 PageTable.frames else 0) pd.pde (PDX a)
          (some ⟨V2P v, fun _ => none⟩)
        simp only [ht, elim_none, elim_some, P2V_V2P, add_zero] at hk
        have hz : (⟨V2P v, fun _ => none⟩ : PageTable).frames = 0 := Finset.sum_eq_zero fun _ _ => rfl
        simp only [ht, elim_none, elim_some, hz, ite_self, add_zero] at hu
        refine ⟨⟨⟨{v}, ?_, ?_, ?_⟩, ?_⟩, ?_⟩
        · simp [hfree]
        · unfold Pgdir.kpages
          rw [hk]
          abel
        · intro w
          by_cases hw : w = v
          · simp [huse, hw]
          · simp [huse, hw]
        · rw [add_zero]
          exact hu
        · simp
    · cases h

theorem walkpgdir_pde {alloc : Bool} (h : walkpgdir alloc a k pd = some (t, k', pd'))
    {i : Fin NPTENTRIES} (hi : i ≠ PDX a) : pd'.pde i = pd.pde i := by
  unfold walkpgdir at h
  split at h
  · cases h
    rfl
  · split at h
    · split at h
      · cases h
      · cases h
        exact Function.update_of_ne hi _ _
    · cases h

theorem Grown.setPte (h : Grown k pd k' pd' U) (ht : pd'.pde (PDX a) = some t)
    (hnone : t.pte (PTX a) = none) (ha : a < KERNBASE) (e : Pte) :
    Grown k pd k' (pd'.setPte a t (some e)) (U + {P2V e.pa}) := by
  obtain ⟨T, hf, hk, hu⟩ := h.tables
  refine ⟨⟨T, hf, ?_, hu⟩, ?_⟩
  · rw [kpages_setPte ht, hk]
  · have hset := uframes_setPte_user ht ha (some e)
    simp only [hnone, elim_none, elim_some, add_zero] at hset
    rw [hset, h.frames]
    abel

theorem Grown.setPte_kernel (h : Grown k pd k' pd' U) (ht : pd'.pde (PDX a) = some t)
    (ha : KERNBASE ≤ a) (e : Pte) : Grown k pd k' (pd'.setPte a t (some e)) U := by
  obtain ⟨T, hf, hk, hu⟩ := h.tables
  refine ⟨⟨T, hf, ?_, hu⟩, ?_⟩
  · rw [kpages_setPte ht, hk]
  · rw [← h.frames]
    refine uframes_update_kernel ?_ _
    rw [PDX_lt_iff]
    exact BitVec.not_lt.2 ha

theorem pageOf_base (p : Page) : pageOf (base p) = p := by
  apply eq_of_toNat_eq
  have hp := p.isLt
  simp only [pageOf, base, PGSIZE, toNat_ofNat]
  omega

theorem pageOf_base_last (p : Page) : pageOf (base p + (PGSIZE : Addr) - 1) = p := by
  apply eq_of_toNat_eq
  have hp := p.isLt
  simp only [pageOf, base, PGSIZE, toNat_ofNat, BitVec.toNat_sub, BitVec.toNat_add]
  simp
  omega

theorem mappages_page {pa : Page} {b : Bool} (ha : a < KERNBASE)
    (h : mappages (base a) PGSIZE pa perm k pd = .ok (b, k', pd')) :
    Grown k pd k' pd' (if b then {P2V pa} else 0) := by
  unfold mappages at h
  simp only [pageOf_base, pageOf_base_last, sub_self] at h
  rw [show (0 : Page).toNat + 1 = 0 + 1 from rfl, mapLoop] at h
  split at h
  · cases h
    exact Grown.refl _ _
  · rename_i t k₁ pd₁ hw
    obtain ⟨hg, ht⟩ := walkpgdir_grown hw
    split at h
    · cases h
    · rename_i hnone
      rw [if_pos rfl] at h
      cases h
      have hset := hg.setPte ht hnone ha ⟨pa, perm⟩
      rwa [zero_add] at hset

theorem mapLoop_kernel {last : Page} (n : ℕ) :
    ∀ {a pa : Page} {k k' : Kmem} {pd pd' : Pgdir} {b : Bool}, KERNBASE ≤ a → a ≤ last →
      mapLoop perm last n a pa k pd = .ok (b, k', pd') →
      Grown k pd k' pd' 0 ∧ ∀ i, i.val < 512 → pd'.pde i = pd.pde i := by
  induction n with
  | zero =>
    intro a pa k k' pd pd' b _ _ h
    cases h
    exact ⟨Grown.refl _ _, fun _ _ => rfl⟩
  | succ n ih =>
    intro a pa k k' pd pd' b hk hle h
    rw [mapLoop] at h
    split at h
    · cases h
      exact ⟨Grown.refl _ _, fun _ _ => rfl⟩
    · rename_i t k₁ pd₁ hw
      obtain ⟨hg, ht⟩ := walkpgdir_grown hw
      split at h
      · cases h
      · have hset := hg.setPte_kernel ht hk ⟨pa, perm⟩
        have hpde : ∀ i, i.val < 512 → (pd₁.setPte a t (some ⟨pa, perm⟩)).pde i = pd.pde i := by
          intro i hi
          have hne : i ≠ PDX a := by
            rintro rfl
            exact BitVec.not_lt.2 hk ((PDX_lt_iff a).1 hi)
          exact (Function.update_of_ne hne _ _).trans (walkpgdir_pde hw hne)
        split at h
        · cases h
          exact ⟨hset, hpde⟩
        · rename_i hne
          have hnext : KERNBASE ≤ a + 1 ∧ a + 1 ≤ last := by
            simp only [KERNBASE] at *
            bv_omega
          obtain ⟨hg', hpde'⟩ := ih hnext.1 hnext.2 h
          exact ⟨hset.trans hg', fun i hi => (hpde' i hi).trans (hpde i hi)⟩

theorem mappages_page_grown {pa : Page} {b : Bool}
    (h : mappages (base a) PGSIZE pa perm k pd = .ok (b, k', pd')) :
    ∃ U, Grown k pd k' pd' U := by
  by_cases ha : a < KERNBASE
  · exact ⟨_, mappages_page ha h⟩
  · unfold mappages at h
    simp only [pageOf_base, pageOf_base_last] at h
    exact ⟨0, (mapLoop_kernel _ (BitVec.not_lt.1 ha) (BitVec.le_refl a) h).1⟩

/-! ## Freeing -/

theorem kfreeAll_released :
    ∀ {k k' : Kmem}, kfreeAll L vs k = .ok k' → k.Released k' vs := by
  induction vs with
  | nil =>
    intro k k' h
    cases h
    exact Kmem.Released.refl k
  | cons v vs ih =>
    intro k k' h
    rw [kfreeAll] at h
    split at h
    · cases h
    · rename_i k₁ hv
      exact (kfree_released hv).trans (ih h)

theorem kfreeAll_error :
    ∀ {k : Kmem} {e : Fault}, (∀ v, L.kend ≤ v → vs.count v ≤ 1) → (∀ v ∈ vs, v ∉ k.freelist) →
      kfreeAll L vs k = .error e → e = .kfree := by
  induction vs with
  | nil =>
    intro k e _ _ h
    cases h
  | cons v vs ih =>
    intro k e hcount hfree h
    rw [kfreeAll] at h
    split at h
    · rename_i f hv
      cases h
      exact kfree_error (hfree v (by simp)) hv
    · rename_i k₁ hv
      refine ih (fun w hw => (List.count_le_count_cons).trans (hcount w hw)) ?_ h
      intro w hw
      have hperm : k₁.freelist.Perm (v :: k.freelist) :=
        coe_eq_coe.1 (kfree_released hv).free
      rw [hperm.mem_iff, List.mem_cons, not_or]
      refine ⟨?_, hfree w (by simp [hw])⟩
      rintro rfl
      have hone := hcount w (kfree_managed hv)
      rw [List.count_cons_self] at hone
      have hpos := List.count_pos_iff.2 hw
      omega

theorem coe_filterMap_finRange {n : ℕ} (f : Fin n → Option Page) :
    (((List.finRange n).filterMap f : List Page) : Multiset Page) = ∑ i, (f i).elim 0 fun v => {v} := by
  rw [Fin.sum_univ_def]
  induction List.finRange n with
  | nil => rfl
  | cons i is ih =>
    rw [List.map_cons, List.sum_cons, ← ih]
    cases hi : f i with
    | _ => simp [hi]

theorem coe_tables (pd : Pgdir) : ((pd.tables ++ [pd.page] : List Page) : Multiset Page) = pd.kpages := by
  have hsum : ∑ i, ((pd.pde i).map fun t => P2V t.pa).elim 0 (fun v => ({v} : Multiset Page))
      = ∑ i, (pd.pde i).elim 0 fun t => {P2V t.pa} := by
    refine Finset.sum_congr rfl ?_
    intro i _
    cases pd.pde i with
    | _ => rfl
  rw [← coe_add, Pgdir.tables, coe_filterMap_finRange, Pgdir.kpages, hsum, add_comm]
  rfl

/-- What the loop of `deallocuvm` has done when it is at page `a`: the pages of
`M` are given back, and no user page below `a` is mapped. -/
structure Emptied (L : Layout) (k₀ : Kmem) (pd₀ : Pgdir) (a : ℕ) (k : Kmem) (pd : Pgdir) : Prop where
  /-- The frames given back are those no longer mapped. -/
  released : ∃ M, k₀.Released k M ∧ pd₀.uframes = M + pd.uframes ∧ ∀ v ∈ M, L.kend ≤ v
  /-- The directory is stored where it was. -/
  kpages : pd.kpages = pd₀.kpages
  below : ∀ b : Page, b.toNat < a → pd.lookup b = none

theorem Emptied.skip {a a' : ℕ} (h : Emptied L k₀ pd₀ a k pd)
    (hnone : ∀ b : Page, a ≤ b.toNat → b.toNat < a' → pd.lookup b = none) :
    Emptied L k₀ pd₀ a' k pd := by
  refine ⟨h.released, h.kpages, ?_⟩
  intro b hb
  by_cases hlt : b.toNat < a
  · exact h.below b hlt
  · exact hnone b (by omega) hb

theorem lookup_setPte_self {e : Option Pte} :
    (pd.setPte a t e).lookup a = e := by
  simp [Pgdir.lookup, Pgdir.setPte, PageTable.set]

theorem lookup_setPte_of_ne {b : Page} {e : Option Pte} (ht : pd.pde (PDX a) = some t) (hab : b ≠ a) :
    (pd.setPte a t e).lookup b = pd.lookup b := by
  by_cases hd : PDX b = PDX a
  · have hx : PTX b ≠ PTX a := by
      intro hx
      apply hab
      apply eq_of_toNat_eq
      simp only [PDX, PTX, Fin.mk.injEq] at hd hx
      omega
    simp [Pgdir.lookup, Pgdir.setPte, PageTable.set, hd, ht, hx]
  · simp [Pgdir.lookup, Pgdir.setPte, hd]

theorem Emptied.clear {e : Pte} (h : Emptied L k₀ pd₀ a.toNat k pd) (ha : a < KERNBASE)
    (ht : pd.pde (PDX a) = some t) (he : t.pte (PTX a) = some e)
    (hk : kfree L (P2V e.pa) k = .ok k') :
    Emptied L k₀ pd₀ (a.toNat + 1) k' (pd.setPte a t none) := by
  obtain ⟨M, hrel, hframes, hman⟩ := h.released
  refine ⟨⟨M + {P2V e.pa}, hrel.trans (kfree_released hk), ?_, ?_⟩, ?_, ?_⟩
  · have hset := uframes_setPte_user ht ha none
    simp only [he, elim_some, elim_none, add_zero] at hset
    rw [hframes, ← hset]
    abel
  · intro v hv
    rcases mem_add.1 hv with hv | hv
    · exact hman v hv
    · rw [mem_singleton.1 hv]
      exact kfree_managed hk
  · rw [kpages_setPte ht, h.kpages]
  · intro b hb
    by_cases hba : b = a
    · rw [hba, lookup_setPte_self]
    · rw [lookup_setPte_of_ne ht hba]
      refine h.below b ?_
      have hne : b.toNat ≠ a.toNat := fun heq => hba (eq_of_toNat_eq heq)
      omega

/-- Nothing is mapped where there is no page table. -/
theorem lookup_of_no_table {b : Page} (h : pd.pde (PDX a) = none)
    (hb : a.toNat / 1024 = b.toNat / 1024) : pd.lookup b = none := by
  have hd : PDX b = PDX a := by
    apply Fin.ext
    simp only [PDX]
    omega
  rw [Pgdir.lookup, hd, h]
  rfl

/-- **The loop of `deallocuvm`.**  What stays when absent pages are skipped, and when a present
page is given back, holds at the end. -/
theorem deallocLoop_rule (L : Layout) {I : ℕ → Kmem → Pgdir → Prop} {E : Fault → Prop}
    (hlast : last ≤ KERNBASE.toNat)
    (hskip : ∀ {a a' : ℕ} {k : Kmem} {pd : Pgdir}, a ≤ a' → a' ≤ last →
      (∀ b : Page, a ≤ b.toNat → b.toNat < a' → pd.lookup b = none) → I a k pd → I a' k pd)
    (hfree : ∀ {a : Page} {k : Kmem} {pd : Pgdir} {t : PageTable} {e : Pte}, a < KERNBASE →
      pd.pde (PDX a) = some t → t.pte (PTX a) = some e → I a.toNat k pd →
      (e.pa = 0 → E .kfree) ∧ (∀ f, kfree L (P2V e.pa) k = .error f → E f) ∧
        ∀ k', kfree L (P2V e.pa) k = .ok k' → I (a.toNat + 1) k' (pd.setPte a t none)) (n : ℕ) :
    ∀ {a : ℕ} (k : Kmem) (pd : Pgdir), last ≤ a + n → I (min a last) k pd →
      match deallocLoop L last n a k pd with
      | .ok r => I last r.1 r.2
      | .error f => E f := by
  have hK : KERNBASE.toNat = 524288 := rfl
  induction n with
  | zero =>
    intro a k pd hn h
    rw [min_eq_right (by omega)] at h
    exact h
  | succ n ih =>
    intro a k pd hn h
    rw [deallocLoop]
    by_cases ha : a < last
    · have hmod : (ofNat 20 a).toNat = a := by
        rw [toNat_ofNat]
        omega
      rw [min_eq_left ha.le] at h
      rw [if_pos ha]
      cases ht : pd.pde (PDX (ofNat 20 a)) with
      | none =>
        have hnext : nextTable a = (a / 1024 + 1) * 1024 := rfl
        refine ih k pd (by omega) (hskip (by omega) (by omega) (fun b hb hb' => ?_) h)
        exact lookup_of_no_table ht (by rw [hmod]; omega)
      | some t =>
        dsimp only
        cases he : t.pte (PTX (ofNat 20 a)) with
        | none =>
          refine ih k pd (by omega) (hskip (by omega) (by omega) (fun b hb hb' => ?_) h)
          obtain rfl : b = ofNat 20 a := eq_of_toNat_eq (by omega)
          rw [Pgdir.lookup, ht]
          exact he
        | some e =>
          dsimp only
          have hKa : ofNat 20 a < KERNBASE := by
            rw [lt_def, hmod]
            omega
          obtain ⟨hnull, herror, hok⟩ := hfree hKa ht he (by rwa [hmod])
          split_ifs with h0
          · exact hnull h0
          · cases hk : kfree L (P2V e.pa) k with
            | error f => exact herror f hk
            | ok k₁ =>
              have h₁ := hok k₁ hk
              rw [hmod] at h₁
              exact ih k₁ _ (by omega) (by rwa [min_eq_left ha])
    · rw [if_neg ha]
      rwa [min_eq_right (by omega)] at h

theorem deallocLoop_emptied (hlast : last ≤ KERNBASE.toNat)
    (h : deallocLoop L last last 0 k pd = .ok (k', pd')) : Emptied L k pd last k' pd' := by
  have hrun := deallocLoop_rule L (I := Emptied L k pd) (E := fun _ => True) hlast
    (fun _ _ hnone hE => hE.skip hnone)
    (fun ha ht he hE => ⟨fun _ => trivial, fun _ _ => trivial, fun _ hk => hE.clear ha ht he hk⟩)
    last k pd (zero_add last).ge
    (by
      rw [Nat.zero_min]
      exact ⟨⟨0, Kmem.Released.refl k, by simp, by simp⟩, rfl, fun b hb => absurd hb (by omega)⟩)
  rwa [h] at hrun

/-- The loop faults only on pages `kfree` rejects when no frame is free or
mapped twice. -/
theorem deallocLoop_error (hlast : last ≤ KERNBASE.toNat) {f : Fault}
    (hcount : ∀ v, L.kend ≤ v → pd.uframes.count v ≤ 1) (hfree : ∀ v ∈ pd.uframes, v ∉ k.freelist)
    (h : deallocLoop L last last 0 k pd = .error f) : f = .kfree := by
  have hrun := deallocLoop_rule L (I := fun _ k pd => (∀ v, L.kend ≤ v → pd.uframes.count v ≤ 1) ∧
    ∀ v ∈ pd.uframes, v ∉ k.freelist) (E := (· = .kfree)) hlast (fun _ _ _ hI => hI) ?_ last
    k pd (zero_add last).ge ⟨hcount, hfree⟩
  · rwa [h] at hrun
  · rintro a k pd t e ha ht he ⟨hcount, hfree⟩
    have hset := uframes_setPte_user ht ha none
    simp only [he, elim_some, elim_none, add_zero] at hset
    simp only [← hset, count_add] at hcount hfree
    refine ⟨fun _ => rfl, fun f hk => kfree_error (hfree _ (by simp)) hk, fun k₁ hk₁ =>
      ⟨fun v hv => (Nat.le_add_right _ _).trans (hcount v hv), fun v hv => ?_⟩⟩
    have hperm : k₁.freelist.Perm (P2V e.pa :: k.freelist) :=
      coe_eq_coe.1 (kfree_released hk₁).free
    rw [hperm.mem_iff, List.mem_cons, not_or]
    refine ⟨?_, hfree v (mem_add.2 (Or.inl hv))⟩
    rintro rfl
    have hone := hcount _ (kfree_managed hk₁)
    have hpos := count_pos.2 hv
    rw [count_singleton_self] at hone
    omega

theorem deallocuvm_all (L : Layout) (k : Kmem) (pd : Pgdir) :
    deallocuvm L (KERNBASE.toNat * PGSIZE) 0 k pd
      = deallocLoop L KERNBASE.toNat KERNBASE.toNat 0 k pd := by
  have hpages : pages (KERNBASE.toNat * PGSIZE) = KERNBASE.toNat := rfl
  rw [deallocuvm, if_neg (by decide), hpages]
  rfl

theorem deallocuvm_all_emptied (h : deallocuvm L (KERNBASE.toNat * PGSIZE) 0 k pd = .ok (k', pd')) :
    k.Released k' pd.uframes ∧ pd'.kpages = pd.kpages ∧ ∀ v ∈ pd.uframes, L.kend ≤ v := by
  rw [deallocuvm_all] at h
  have hE := deallocLoop_emptied le_rfl h
  obtain ⟨M, hrel, hframes, hman⟩ := hE.released
  rw [uframes_eq_zero fun a ha => hE.below a (BitVec.lt_def.1 ha), add_zero] at hframes
  rw [hframes]
  exact ⟨hrel, hE.kpages, hman⟩

theorem freevm_released (h : freevm L k pd = .ok k') :
    k.Released k' (pd.uframes + pd.kpages) := by
  unfold freevm at h
  split at h
  · cases h
  · rename_i k₁ pd₁ hd
    obtain ⟨hrel, hkp, -⟩ := deallocuvm_all_emptied hd
    have hrest := kfreeAll_released h
    rw [coe_tables, hkp] at hrest
    exact hrel.trans hrest

theorem kfreeAll_ok :
    ∀ {k k' : Kmem}, k.Ok L → kfreeAll L vs k = .ok k' → k'.Ok L := by
  induction vs with
  | nil =>
    intro k k' hk h
    cases h
    exact hk
  | cons v vs ih =>
    intro k k' hk h
    rw [kfreeAll] at h
    split at h
    · cases h
    · rename_i k₁ hv
      exact ih (hk.kfree hv) h

theorem deallocLoop_ok (hlast : last ≤ KERNBASE.toNat) (hk : k.Ok L)
    (h : deallocLoop L last last 0 k pd = .ok (k', pd')) : k'.Ok L := by
  have hrun := deallocLoop_rule L (I := fun _ k _ => k.Ok L) (E := fun _ => True) hlast
    (fun _ _ _ hk => hk)
    (fun _ _ _ hk => ⟨fun _ => trivial, fun _ _ => trivial, fun _ hv => hk.kfree hv⟩) last
    k pd (zero_add last).ge hk
  rwa [h] at hrun

theorem freevm_ok (hk : k.Ok L) (h : freevm L k pd = .ok k') : k'.Ok L := by
  unfold freevm at h
  split at h
  · cases h
  · rename_i k₁ pd₁ hd
    rw [deallocuvm_all] at hd
    exact kfreeAll_ok (deallocLoop_ok le_rfl hk hd) h

theorem freevm_managed (h : freevm L k pd = .ok k') :
    ∀ v ∈ pd.uframes, L.kend ≤ v := by
  unfold freevm at h
  split at h
  · cases h
  · rename_i k₁ pd₁ hd
    exact (deallocuvm_all_emptied hd).2.2

theorem freevm_error {f : Fault} (hcount : ∀ v, L.kend ≤ v → (pd.uframes + pd.kpages).count v ≤ 1)
    (hfree : ∀ v ∈ pd.uframes + pd.kpages, v ∉ k.freelist) (h : freevm L k pd = .error f) :
    f = .kfree := by
  simp only [count_add] at hcount
  unfold freevm at h
  split at h
  · rename_i f' hd
    cases h
    rw [deallocuvm_all] at hd
    exact deallocLoop_error le_rfl (fun v hv => (Nat.le_add_right _ _).trans (hcount v hv))
      (fun v hv => hfree v (mem_add.2 (Or.inl hv))) hd
  · rename_i k₁ pd₁ hd
    obtain ⟨hrel, hkp, hman⟩ := deallocuvm_all_emptied hd
    have hcoe := coe_tables pd₁
    rw [hkp] at hcoe
    refine kfreeAll_error ?_ ?_ h
    · intro v hv
      rw [← coe_count, hcoe]
      exact (Nat.le_add_left _ _).trans (hcount v hv)
    · intro v hv
      have hv' : v ∈ pd.kpages := by
        rw [← hcoe]
        exact hv
      rw [← mem_coe, hrel.free, mem_add, not_or]
      refine ⟨?_, hfree v (mem_add.2 (Or.inr hv'))⟩
      intro hu
      have hone := hcount v (hman v hu)
      have hpos := count_pos.2 hu
      have hpos' := count_pos.2 hv'
      omega

end Xv6.Mem
