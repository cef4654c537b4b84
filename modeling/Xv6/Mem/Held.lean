import Xv6.Mem.Pages

/-!
# No page is lost

`Held L M k X` says that the free pages and the pages of `X` together are the pages
of `M`.  Every function of `vm.c` keeps this, with the pages it takes or
gives back moved between the free list and the directory they are in, and none of
them frees a page that is free (`Safe`).
-/

namespace Xv6.Mem

open Multiset

variable {L : Layout} {M X : Multiset Page} {k k' : Kmem} {pd pd' : Pgdir} {m : Page} {f : Fault}

/-- The result satisfies `Q`, or the call panicked; no page was freed twice. -/
def Safe {α : Type} (Q : α → Prop) : Except Fault α → Prop
  | .ok a => Q a
  | .error f => f ≠ .doubleFree

theorem Safe.bind {α β : Type} {P : α → Prop} {Q : β → Prop} {x : Except Fault α}
    {f : α → Except Fault β} (hx : Safe P x) (hf : ∀ a, P a → Safe Q (f a)) : Safe Q (x >>= f) := by
  cases x with
  | error e => exact hx
  | ok a => exact hf a hx

/-- The free pages and those of `X` are the pages of `M`. -/
structure Held (L : Layout) (M : Multiset Page) (k : Kmem) (X : Multiset Page) : Prop where
  ok : k.Ok L
  total : (k.freelist : Multiset Page) + X = M

/-- All pages of a directory. -/
def Pgdir.all (pd : Pgdir) : Multiset Page := pd.kpages + pd.uframes

theorem Held.congr {Y : Multiset Page} (h : Held L M k X) (hX : X = Y) : Held L M k Y := hX ▸ h

theorem Held.memset (h : Held L M k X) (v : Page) (c : UInt8) : Held L M (k.memset v c) X :=
  ⟨h.ok.memset v c, h.total⟩

theorem Held.memmove (h : Held L M k X) (v w : Page) : Held L M (k.memmove v w) X :=
  ⟨⟨h.ok.nodup, h.ok.unused, h.ok.managed⟩, h.total⟩

theorem Held.kalloc {u : Use} (h : Held L M k X) (hk : Mem.kalloc u k = some (m, k')) :
    Held L M k' ({m} + X) := by
  refine ⟨h.ok.kalloc hk, ?_⟩
  rw [← h.total, (kalloc_eq_some hk).1, ← cons_coe, ← singleton_add]
  abel

theorem Held.notMem (hM : M.Nodup) (h : Held L M k X) (hm : m ∈ X) : m ∉ k.freelist := by
  rw [← h.total, nodup_add] at hM
  exact fun hfree => disjoint_left.1 hM.2.2 (mem_coe.2 hfree) hm

theorem Held.kfree (hM : M.Nodup) (h : Held L M k ({m} + X)) :
    Safe (fun k' => Held L M k' X) (Mem.kfree L m k) := by
  cases hk : Mem.kfree L m k with
  | error f =>
    have hf := kfree_error (h.notMem hM (by simp)) hk
    simp [Safe, hf]
  | ok k' =>
    refine ⟨h.ok.kfree hk, ?_⟩
    rw [(kfree_released hk).free, ← h.total]
    abel

/-! ## Page directories -/

theorem Held.grow {U : Multiset Page} (h : Held L M k (U + pd.all + X))
    (hg : Grown k pd k' pd' U) : Held L M k' (pd'.all + X) := by
  refine ⟨hg.ok h.ok, ?_⟩
  obtain ⟨T, hf, hk, -⟩ := hg.tables
  rw [← h.total, Pgdir.all, Pgdir.all, hf, hk, hg.frames]
  abel

variable {a : Page} {oldsz newsz : ℕ}

theorem walkpgdir_lookup {alloc : Bool} {t : PageTable}
    (h : walkpgdir alloc a k pd = some (t, k', pd')) (b : Page) : pd'.lookup b = pd.lookup b := by
  unfold walkpgdir at h
  split at h
  · cases h
    rfl
  · rename_i ht
    split at h
    · split at h
      · cases h
      · cases h
        rw [Pgdir.lookup, Pgdir.lookup]
        dsimp only
        by_cases hb : PDX b = PDX a
        · rw [hb, Function.update_self, ht]
          rfl
        · rw [Function.update_of_ne hb]
    · cases h

theorem mapLoop_error {perm : Perm} {last : Page} (n : ℕ) :
    ∀ {a pa : Page} {k : Kmem} {pd : Pgdir}, mapLoop perm last n a pa k pd = .error f →
      f = .remap := by
  induction n with
  | zero =>
    intro a pa k pd h
    cases h
  | succ n ih =>
    intro a pa k pd h
    rw [mapLoop] at h
    split at h
    · cases h
    · split at h
      · cases h
        rfl
      · split at h
        · cases h
        · exact ih h

theorem mappages_error {va size : Addr} {pa : Page} {perm : Perm}
    (h : mappages va size pa perm k pd = .error f) : f = .remap :=
  mapLoop_error _ h

theorem Held.mappages {p : Perm} (ha : a < KERNBASE) (h : Held L M k ({m} + pd.all + X)) :
    Safe (fun r => if r.1 = true then Held L M r.2.1 (r.2.2.all + X)
        else Held L M r.2.1 ({m} + r.2.2.all + X))
      (Mem.mappages (base a) PGSIZE (V2P m) p k pd) := by
  cases hmap : Mem.mappages (base a) PGSIZE (V2P m) p k pd with
  | error f =>
    have hf := mappages_error hmap
    simp [Safe, hf]
  | ok r =>
    obtain ⟨b, k', pd'⟩ := r
    have hg := mappages_page ha hmap
    cases b with
    | true =>
      rw [if_pos rfl, P2V_V2P] at hg
      exact h.grow hg
    | false =>
      rw [if_neg (by simp)] at hg
      have hkept : Held L M k' (pd'.all + ({m} + X)) := by
        refine Held.grow (U := 0) ?_ hg
        convert h using 1
        abel
      change Held L M k' ({m} + pd'.all + X)
      convert hkept using 1
      abel

/-- A present page can be given back. -/
theorem Held.unmap {t : PageTable} {e : Pte} (ha : a < KERNBASE) (ht : pd.pde (PDX a) = some t)
    (he : t.pte (PTX a) = some e) (h : Held L M k (pd.all + X)) :
    Held L M k ({P2V e.pa} + ((pd.setPte a t none).all + X)) := by
  have hframes := uframes_setPte_user ht ha none
  rw [he, Option.elim_some, Option.elim_none, add_zero] at hframes
  refine h.congr ?_
  rw [Pgdir.all, Pgdir.all, kpages_setPte ht none, ← hframes]
  abel

/-- The loop of `deallocuvm` gives back what it unmaps. -/
theorem Held.deallocLoop (hM : M.Nodup) {last : ℕ} (hlast : last ≤ KERNBASE.toNat) {n a : ℕ}
    (hn : last ≤ a + n) (h : Held L M k (pd.all + X)) :
    Safe (fun r => Held L M r.1 (r.2.all + X)) (Mem.deallocLoop L last n a k pd) := by
  have hrun := deallocLoop_rule L (I := fun _ k pd => Held L M k (pd.all + X))
    (E := (· ≠ .doubleFree)) hlast (fun _ _ _ h => h) ?_ n k pd hn h
  · generalize Mem.deallocLoop L last n a k pd = x at hrun ⊢
    cases x <;> exact hrun
  · intro a k pd t e ha ht he h
    have hsafe := (h.unmap ha ht he).kfree hM
    refine ⟨fun _ => by simp, fun f hk => ?_, fun k' hk => ?_⟩
    · rwa [hk] at hsafe
    · rwa [hk] at hsafe

theorem Held.deallocuvm (hM : M.Nodup) (hold : pages oldsz ≤ KERNBASE.toNat)
    (h : Held L M k (pd.all + X)) :
    Safe (fun r => Held L M r.1 (r.2.all + X)) (Mem.deallocuvm L oldsz newsz k pd) := by
  rw [Mem.deallocuvm]
  split
  · exact h
  · exact Held.deallocLoop hM hold (by omega) h

theorem Held.freevm (hM : M.Nodup) (h : Held L M k (pd.all + X)) :
    Safe (fun k' => Held L M k' X) (Mem.freevm L k pd) := by
  cases hk : Mem.freevm L k pd with
  | error f =>
    have hf : f = .kfree := by
      refine freevm_error (fun v _ => ?_) (fun v hv => ?_) hk
      · have hnd := hM
        rw [← h.total, nodup_add, nodup_add] at hnd
        rw [add_comm]
        exact nodup_iff_count_le_one.1 hnd.2.1.1 v
      · refine h.notMem hM ?_
        rw [add_comm] at hv
        exact mem_add.2 (.inl hv)
    simp [Safe, hf]
  | ok k' =>
    refine ⟨freevm_ok h.ok hk, ?_⟩
    rw [(freevm_released hk).free, ← h.total, Pgdir.all]
    abel

/-! ## Building and copying -/

theorem toNat_pageOf_last {v n : Page} (hn : 0 < n.toNat) (hle : v.toNat + n.toNat ≤ 2 ^ 20) :
    (pageOf (base v + base n - 1)).toNat = v.toNat + n.toNat - 1 := by
  simp only [pageOf, base, PGSIZE, BitVec.toNat_ofNat, BitVec.toNat_sub, BitVec.toNat_add]
  simp
  omega

theorem kmap_above {m : Kmap} (hm : m ∈ kmap L) :
    KERNBASE ≤ pageOf (base m.virt) ∧
      pageOf (base m.virt) ≤ pageOf (base m.virt + base (m.physEnd - m.physStart) - 1) := by
  have h₁ := L.link_lt
  have h₂ := L.data_le
  have h₃ := L.kend_lt
  rw [pageOf_base]
  simp only [kmap, List.mem_cons, List.not_mem_nil, or_false] at hm
  simp only [KERNLINK, PHYSTOP, P2V, KERNBASE, BitVec.lt_def, BitVec.le_def, BitVec.toNat_add,
    BitVec.toNat_ofNat] at h₁ h₂ h₃
  rcases hm with rfl | rfl | rfl | rfl
  · decide
  · refine ⟨by dsimp only; decide, ?_⟩
    have hn : (V2P L.data - V2P KERNLINK).toNat = L.data.toNat - 0x80100 := by
      simp only [V2P, KERNBASE, KERNLINK]
      bv_omega
    have hv : KERNLINK.toNat = 0x80100 := rfl
    dsimp only
    rw [BitVec.le_def, toNat_pageOf_last (by omega) (by omega), hn]
    omega
  · have hn : (PHYSTOP - V2P L.data).toNat = 0x8E000 - L.data.toNat := by
      simp only [V2P, KERNBASE, PHYSTOP]
      bv_omega
    have hv : KERNBASE.toNat = 0x80000 := rfl
    dsimp only
    refine ⟨?_, ?_⟩
    · rw [BitVec.le_def]
      omega
    · rw [BitVec.le_def, toNat_pageOf_last (by omega) (by omega), hn]
      omega
  · decide

/-- The entries of a table like `kmap` follow each other from page `lo` on. -/
def Rising : ℕ → List Kmap → Prop
  | _, [] => True
  | lo, m :: ms =>
    lo ≤ m.virt.toNat ∧ 0 < (m.physEnd - m.physStart).toNat ∧
      m.virt.toNat + (m.physEnd - m.physStart).toNat ≤ 2 ^ 20 ∧
      Rising (m.virt.toNat + (m.physEnd - m.physStart).toNat) ms

theorem rising_kmap (L : Layout) : Rising KERNBASE.toNat (kmap L) := by
  have h₁ := BitVec.lt_def.1 L.link_lt
  have h₂ := BitVec.le_def.1 L.data_le
  have h₃ : L.kend.toNat < 0x8E000 := BitVec.lt_def.1 L.kend_lt
  have hlink : KERNLINK.toNat = 0x80100 := rfl
  have hlow : (EXTMEM - 0).toNat = 0x100 := rfl
  have htext : (V2P L.data - V2P KERNLINK).toNat = L.data.toNat - 0x80100 := by
    simp only [V2P, KERNBASE, KERNLINK]
    bv_omega
  have hdata : (PHYSTOP - V2P L.data).toNat = 0x8E000 - L.data.toNat := by
    simp only [V2P, KERNBASE, PHYSTOP]
    bv_omega
  have hbase : KERNBASE.toNat = 0x80000 := rfl
  have hdev : DEVSPACE.toNat = 0xFE000 := rfl
  have hdevs : (0 - DEVSPACE).toNat = 0x2000 := rfl
  simp only [kmap, Rising, hlow, htext, hdata, hdevs, hbase, hlink, hdev]
  refine ⟨?_, ?_, ?_, ?_, ?_, ?_, ?_, ?_, ?_, ?_, ?_, ?_, trivial⟩ <;> omega

/-- What an attempt to build a directory leaves: the directory, or all pages given back. -/
def Made (L : Layout) (M X : Multiset Page) (r : Option Pgdir × Kmem) : Prop :=
  Held L M r.2 (r.1.elim 0 Pgdir.all + X)

theorem Held.made (h : Held L M k X) : Made L M X (none, k) := h.congr (zero_add X).symm

theorem Held.giveUp (hM : M.Nodup) (h : Held L M k (pd.all + X)) :
    Safe (Made L M X) (Mem.giveUp L k pd) := by
  have hfree := h.freevm hM
  rw [Mem.giveUp]
  cases hk : Mem.freevm L k pd with
  | error f =>
    rw [hk] at hfree
    exact hfree
  | ok k' =>
    rw [hk] at hfree
    exact Held.made hfree

theorem Held.mapKernel (hM : M.Nodup) {ms : List Kmap} : ∀ {k : Kmem} {pd : Pgdir},
    (∀ m ∈ ms, m ∈ kmap L) → Held L M k (pd.all + X) → Safe (Made L M X) (Mem.mapKernel L ms k pd) := by
  induction ms with
  | nil => exact fun _ h => h
  | cons m ms ih =>
    intro k pd hms h
    obtain ⟨hk, hle⟩ := kmap_above (hms m (by simp))
    have hgrow {b : Bool} {k₁ : Kmem} {pd₁ : Pgdir}
        (hmap : Mem.mappages (base m.virt) (base (m.physEnd - m.physStart)) m.physStart m.perm k pd =
          .ok (b, k₁, pd₁)) : Held L M k₁ (pd₁.all + X) :=
      Held.grow (U := 0) (by rwa [zero_add]) (mapLoop_kernel _ hk hle hmap).1
    rw [Mem.mapKernel]
    split
    · rename_i f hf
      have hremap := mappages_error hf
      simp [Safe, hremap]
    · exact ih (fun m' hm' => hms m' (by simp [hm'])) (hgrow ‹_›)
    · exact (hgrow ‹_›).giveUp hM

theorem Held.setupkvm (hM : M.Nodup) (h : Held L M k X) : Safe (Made L M X) (Mem.setupkvm L k) := by
  rw [Mem.setupkvm]
  split
  · exact h.made
  · rename_i v k₁ hv
    refine Held.mapKernel hM (fun _ hm => hm) (((h.kalloc hv).memset v 0).congr ?_)
    rw [Pgdir.all, kpages_empty, uframes_empty, add_zero]

theorem Held.copyLoop (hM : M.Nodup) (n : ℕ) : ∀ {i : ℕ} {k : Kmem} {d : Pgdir},
    i + n ≤ KERNBASE.toNat → Held L M k (d.all + X) → Safe (Made L M X) (Mem.copyLoop L pd n i k d) := by
  have hK : KERNBASE.toNat = 524288 := rfl
  induction n with
  | zero => exact fun _ h => h
  | succ n ih =>
    intro i k d hi h
    rw [Mem.copyLoop]
    split
    · simp [Safe]
    split
    · simp [Safe]
    split
    · exact h.giveUp hM
    · rename_i e _ _ m k₁ hm
      have hi' : BitVec.ofNat 20 i < KERNBASE := by
        rw [BitVec.lt_def, BitVec.toNat_ofNat]
        omega
      have htaken : Held L M (k₁.memmove m (P2V e.pa)) ({m} + d.all + X) :=
        ((h.kalloc hm).memmove m (P2V e.pa)).congr (add_assoc _ _ _).symm
      have hmap := htaken.mappages (p := e.perm) hi'
      dsimp only
      split
      · rename_i f hf
        rw [hf] at hmap
        exact hmap
      · rename_i k₂ d₂ hok
        rw [hok] at hmap
        exact ih (by omega) hmap
      · rename_i k₂ d₂ hok
        rw [hok] at hmap
        have hfree := (Held.congr hmap (add_assoc _ _ _)).kfree hM
        split
        · rename_i f hf
          rw [hf] at hfree
          exact hfree
        · rename_i k₃ hk₃
          rw [hk₃] at hfree
          exact Held.giveUp hM hfree

theorem Held.copyuvm (pd : Pgdir) (hM : M.Nodup) {sz : ℕ} (hsz : pages sz ≤ KERNBASE.toNat)
    (h : Held L M k X) : Safe (Made L M X) (Mem.copyuvm L pd sz k) := by
  have hset := h.setupkvm hM
  rw [Mem.copyuvm]
  split
  · rename_i f hf
    rw [hf] at hset
    exact hset
  · rename_i k₁ hk₁
    rw [hk₁] at hset
    exact hset
  · rename_i d k₁ hk₁
    rw [hk₁] at hset
    exact Held.copyLoop hM _ (by omega) hset

/-! ## Growing -/

theorem pages_le_kernbase {sz : ℕ} (h : sz ≤ KERNBASE.toNat * PGSIZE) :
    pages sz ≤ KERNBASE.toNat := by
  have hK : KERNBASE.toNat = 524288 := rfl
  rw [hK] at h ⊢
  simp only [pages, PGSIZE] at h ⊢
  omega

theorem Held.allocLoop (hM : M.Nodup) (hnew : pages newsz ≤ KERNBASE.toNat) (n : ℕ) :
    ∀ {a : ℕ} {k : Kmem} {pd : Pgdir}, a + n ≤ KERNBASE.toNat → Held L M k (pd.all + X) →
      Safe (fun r => Held L M r.2.1 (r.2.2.all + X)) (Mem.allocLoop L oldsz newsz n a k pd) := by
  have hK : KERNBASE.toNat = 524288 := rfl
  induction n with
  | zero =>
    intro a k pd _ h
    exact h
  | succ n ih =>
    intro a k pd ha h
    rw [Mem.allocLoop]
    cases hk : Mem.kalloc .user k with
    | none => exact (h.deallocuvm hM hnew).bind fun r hr => hr
    | some r =>
      obtain ⟨mem, k₁⟩ := r
      have ha' : BitVec.ofNat 20 a < KERNBASE := by
        rw [BitVec.lt_def, BitVec.toNat_ofNat]
        omega
      have htaken : Held L M (k₁.memset mem 0) ({mem} + pd.all + X) := by
        rw [add_assoc]
        exact (h.kalloc hk).memset mem 0
      refine (htaken.mappages ha').bind ?_
      rintro ⟨b, k₂, pd₂⟩ hr
      cases b with
      | true => exact ih (by omega) hr
      | false =>
        have hback : Held L M k₂ (pd₂.all + ({mem} + X)) := by
          convert (show Held L M k₂ ({mem} + pd₂.all + X) from hr) using 1
          abel
        refine (hback.deallocuvm hM hnew).bind ?_
        rintro ⟨k₃, pd₃⟩ hr₃
        have hlast : Held L M k₃ ({mem} + (pd₃.all + X)) := by
          convert (show Held L M k₃ (pd₃.all + ({mem} + X)) from hr₃) using 1
          abel
        exact (hlast.kfree hM).bind fun k₄ hk₄ => hk₄

theorem Held.allocuvm (hM : M.Nodup) (hold : pages oldsz ≤ KERNBASE.toNat)
    (h : Held L M k (pd.all + X)) :
    Safe (fun r => pages r.1 ≤ KERNBASE.toNat ∧ Held L M r.2.1 (r.2.2.all + X))
      (Mem.allocuvm L oldsz newsz k pd) := by
  have hzero : pages 0 ≤ KERNBASE.toNat := Nat.zero_le _
  rw [Mem.allocuvm]
  split
  · exact ⟨hzero, h⟩
  · rename_i hlt
    have hnew : pages newsz ≤ KERNBASE.toNat := pages_le_kernbase (by omega)
    split
    · exact ⟨hold, h⟩
    · refine (Held.allocLoop hM hnew _ ?_ h).bind ?_
      · omega
      · rintro ⟨b, k', pd'⟩ hr
        refine ⟨?_, hr⟩
        dsimp only
        split
        · exact hnew
        · exact hzero

theorem clearpteu_all (ha : a < KERNBASE) (h : Mem.clearpteu a pd = .ok pd') :
    pd'.all = pd.all := by
  rw [Mem.clearpteu] at h
  split at h
  · cases h
  · rename_i t ht
    obtain rfl := Except.ok.inj h
    have hframes := uframes_setPte_user ht ha
      ((t.pte (PTX a)).map fun e => { e with perm := e.perm &&& ~~~PTE_U })
    have hsame : ((t.pte (PTX a)).map fun e => ({ e with perm := e.perm &&& ~~~PTE_U } : Pte)).elim 0
        (fun e => ({P2V e.pa} : Multiset Page)) = (t.pte (PTX a)).elim 0 fun e => {P2V e.pa} := by
      cases t.pte (PTX a) <;> rfl
    rw [hsame] at hframes
    rw [Pgdir.all, Pgdir.all, kpages_setPte ht, add_right_cancel hframes]

end Xv6.Mem
