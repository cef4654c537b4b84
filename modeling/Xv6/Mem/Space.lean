import Xv6.Lib.Hoare
import Xv6.Mem.Held

/-!
# User memory as a whole

`Held` says where the pages are; this file says what user memory looks like after
`allocuvm` and `deallocuvm`: which pages are mapped, and what is in them.  It needs that
the pages of `M` are pages `kfree` accepts, and then nothing panics (`Sure`).

* `Kept` — pages that a call leaves as they were, mapping and contents.
* `deallocuvm_sure`, `allocuvm_sure` — the two calls.
-/

namespace Xv6.Mem

open Xv6.Lib Function Multiset Option
open BitVec (eq_of_toNat_eq le_def lt_def ofNat)

variable {L : Layout} {M X : Multiset Page} {k k' k₁ : Kmem} {pd pd' pd₁ : Pgdir} {m : Page}

/-- The pages are those that `kfree` accepts, each once. -/
structure Managed (L : Layout) (M : Multiset Page) : Prop where
  nodup : M.Nodup
  low : ∀ v ∈ M, L.kend ≤ v
  high : ∀ v ∈ M, V2P v < PHYSTOP

/-- The pages of `S` are as they were, and so is what is in the pages of `X`. -/
structure Kept (X : Multiset Page) (k : Kmem) (pd : Pgdir) (k' : Kmem) (pd' : Pgdir)
    (S : Page → Prop) : Prop where
  lookup : ∀ a, S a → pd'.lookup a = pd.lookup a
  mem : ∀ a, S a → a < KERNBASE → ∀ e, pd.lookup a = some e → k'.mem (P2V e.pa) = k.mem (P2V e.pa)
  other : ∀ v ∈ X, k'.mem v = k.mem v
  tables : ∀ i, pd.pde i ≠ none → pd'.pde i ≠ none

theorem Kept.refl (X : Multiset Page) (k : Kmem) (pd : Pgdir) (S : Page → Prop) :
    Kept X k pd k pd S :=
  ⟨fun _ _ => rfl, fun _ _ _ _ _ => rfl, fun _ _ => rfl, fun _ h => h⟩

variable {S : Page → Prop} {Y : Multiset Page} {a : Page} {e : Pte} {oldsz newsz : ℕ}

theorem Kept.trans {R T : Page → Prop} (h : Kept X k pd k₁ pd₁ S) (h' : Kept X k₁ pd₁ k' pd' R)
    (hT : ∀ a, T a → S a ∧ R a) : Kept X k pd k' pd' T := by
  refine ⟨fun a ha => ?_, fun a ha hk e he => ?_, fun v hv => ?_, fun i hi => ?_⟩
  · rw [h'.lookup a (hT a ha).2, h.lookup a (hT a ha).1]
  · rw [h'.mem a (hT a ha).2 hk e ((h.lookup a (hT a ha).1).trans he),
      h.mem a (hT a ha).1 hk e he]
  · rw [h'.other v hv, h.other v hv]
  · exact h'.tables i (h.tables i hi)

theorem Kept.mono {T : Page → Prop} (h : Kept X k pd k' pd' S) (hT : ∀ a, T a → S a) :
    Kept X k pd k' pd' T :=
  ⟨fun a ha => h.lookup a (hT a ha), fun a ha => h.mem a (hT a ha), h.other, h.tables⟩

/-! ## Freeing -/

theorem Held.mem_all (h : Held L M k X) (hm : m ∈ X) : m ∈ M := by
  rw [← h.total]
  exact mem_add.2 (.inr hm)

theorem kfree_sure (hM : Managed L M) (h : Held L M k ({m} + X)) :
    Sure (fun k' => Held L M k' X ∧ ∀ v, v ≠ m → k'.mem v = k.mem v) (kfree L m k) := by
  have hm : m ∈ {m} + X := by simp
  have hsafe := h.kfree hM.nodup
  have hcond : ¬(m < L.kend ∨ PHYSTOP ≤ V2P m) := by
    have hlow := hM.low m (h.mem_all hm)
    have hhigh := hM.high m (h.mem_all hm)
    rw [le_def] at hlow
    rw [lt_def] at hhigh
    rw [lt_def, le_def]
    omega
  rw [kfree, if_neg hcond, if_neg (h.notMem hM.nodup hm)] at hsafe ⊢
  refine ⟨hsafe, fun v hv => ?_⟩
  change update k.mem m _ v = _
  rw [update_of_ne hv]

/-- A frame of the directory is neither free nor one of the other pages. -/
theorem Held.frame_ne (hM : Managed L M) (h : Held L M k ({m} + (pd.all + Y))) (ha : a < KERNBASE)
    (he : pd.lookup a = some e) : P2V e.pa ≠ m := by
  have hnd := hM.nodup
  rw [← h.total, nodup_add] at hnd
  rintro rfl
  have hdisj := (nodup_add.1 hnd.2.1).2.2
  refine disjoint_left.1 hdisj (mem_singleton_self _) ?_
  exact mem_add.2 (.inl (mem_add.2 (.inr (mem_uframes_of_lookup ha he))))

theorem Held.other_ne (hM : Managed L M) (h : Held L M k ({m} + Y)) {v : Page} (hv : v ∈ Y) :
    v ≠ m := by
  have hnd := hM.nodup
  rw [← h.total, nodup_add] at hnd
  rintro rfl
  exact disjoint_left.1 (nodup_add.1 hnd.2.1).2.2 (mem_singleton_self _) hv

/-- Different pages have different frames. -/
theorem frame_inj (hM : Managed L M) (h : Held L M k (pd.all + X)) {b : Page} (ha : a < KERNBASE)
    (hb : b < KERNBASE) {e' : Pte} (he : pd.lookup a = some e) (he' : pd.lookup b = some e')
    (hp : P2V e.pa = P2V e'.pa) : a = b := by
  by_contra hne
  rw [Pgdir.lookup] at he
  obtain ⟨t, ht, hte⟩ := bind_eq_some_iff.1 he
  have hframes := uframes_setPte_user ht ha none
  rw [hte, elim_some, elim_none, add_zero] at hframes
  have hmem : P2V e'.pa ∈ (pd.setPte a t none).uframes :=
    mem_uframes_of_lookup hb (by rw [lookup_setPte_of_ne ht (Ne.symm hne)]; exact he')
  have hnd := hM.nodup
  rw [← h.total, nodup_add, nodup_add, Pgdir.all, nodup_add,
    ← hframes, nodup_add] at hnd
  have hdisj := hnd.2.1.1.2.1.2.2
  rw [← hp] at hmem
  exact disjoint_left.1 hdisj hmem (mem_singleton_self _)

/-- A frame is none of the other pages. -/
theorem frame_notMem (hM : Managed L M) (h : Held L M k (pd.all + X)) (ha : a < KERNBASE)
    (he : pd.lookup a = some e) : P2V e.pa ∉ X := by
  have hnd := hM.nodup
  rw [← h.total, nodup_add, nodup_add] at hnd
  refine disjoint_left.1 hnd.2.1.2.2 ?_
  exact mem_add.2 (.inr (mem_uframes_of_lookup ha he))

theorem tables_setPte {t : PageTable} (e : Option Pte) (i : Fin NPTENTRIES) (hi : pd.pde i ≠ none) :
    (pd.setPte a t e).pde i ≠ none := by
  change update pd.pde (PDX a) _ i ≠ none
  by_cases h : i = PDX a
  · rw [h, update_self]
    exact nofun
  · rwa [update_of_ne h]

/-- What the loop of `deallocuvm` has done from page `a` on. -/
structure Unmapped (X : Multiset Page) (k : Kmem) (pd : Pgdir) (k' : Kmem) (pd' : Pgdir)
    (a last : ℕ) : Prop where
  kept : Kept X k pd k' pd' fun b => b.toNat < a ∨ last ≤ b.toNat
  gone : ∀ b : Page, a ≤ b.toNat → b.toNat < last → pd'.lookup b = none

theorem Unmapped.skip {a b c : ℕ} (h : Unmapped X k pd k' pd' a b) (hbc : b ≤ c)
    (hnone : ∀ p : Page, b ≤ p.toNat → p.toNat < c → pd'.lookup p = none) :
    Unmapped X k pd k' pd' a c := by
  refine ⟨h.kept.mono fun p hp => by omega, fun p hp hp' => ?_⟩
  by_cases hlt : p.toNat < b
  · exact h.gone p hp hlt
  · exact hnone p (by omega) hp'

theorem Unmapped.clear {b : ℕ} {t : PageTable} {e : Pte} (hM : Managed L M)
    (hu : Unmapped X k pd k₁ pd₁ b a.toNat) (hle : b ≤ a.toNat) (ht : pd₁.pde (PDX a) = some t)
    (h : Held L M k₁ ({P2V e.pa} + ((pd₁.setPte a t none).all + X)))
    (hmem : ∀ v, v ≠ P2V e.pa → k'.mem v = k₁.mem v) :
    Unmapped X k pd k' (pd₁.setPte a t none) b (a.toNat + 1) := by
  have hkept : Kept X k₁ pd₁ k' (pd₁.setPte a t none) (fun p => p ≠ a) := by
    refine ⟨fun p hp => lookup_setPte_of_ne ht hp, fun p hp hpk e' he' => ?_, fun v hv => ?_,
      tables_setPte none⟩
    · refine hmem _ (h.frame_ne hM hpk ?_)
      rwa [lookup_setPte_of_ne ht hp]
    · exact hmem v (h.other_ne hM (mem_add.2 (.inr hv)))
  refine ⟨hu.kept.trans hkept fun p hp => ⟨by omega, ?_⟩, fun p hp hp' => ?_⟩
  · rintro rfl
    omega
  · by_cases hpa : p = a
    · rw [hpa, lookup_setPte_self]
    · rw [lookup_setPte_of_ne ht hpa]
      refine hu.gone p hp ?_
      have hne : p.toNat ≠ a.toNat := fun heq => hpa (eq_of_toNat_eq heq)
      omega

theorem deallocLoop_sure (hM : Managed L M) {last : ℕ} (hlast : last ≤ KERNBASE.toNat) {n b : ℕ}
    (hn : last ≤ b + n) (hb : b ≤ last) (h : Held L M k (pd.all + X)) :
    Sure (fun r => Held L M r.1 (r.2.all + X) ∧ Unmapped X k pd r.1 r.2 b last)
      (deallocLoop L last n b k pd) := by
  have hrun := deallocLoop_rule L (I := fun c k' pd' => b ≤ c ∧ Held L M k' (pd'.all + X) ∧
    Unmapped X k pd k' pd' b c) (E := fun _ => False) hlast
    (fun hle _ hnone hI => ⟨hI.1.trans hle, hI.2.1, hI.2.2.skip hle hnone⟩) ?_ n k pd hn
    ⟨by omega, h, .refl X k pd _, fun p hp hp' => by omega⟩
  · generalize deallocLoop L last n b k pd = x at hrun ⊢
    cases x with
    | error f => exact hrun
    | ok r => exact hrun.2
  · rintro a k₁ pd₁ t e ha ht he ⟨hle, h₁, hu⟩
    have htaken := h₁.unmap ha ht he
    have hsure := kfree_sure hM htaken
    refine ⟨fun h0 => ?_, fun f hk => ?_, fun k₂ hk => ?_⟩
    · have hlow := hM.low _ (htaken.mem_all (mem_add.2 (.inl (mem_singleton_self (P2V e.pa)))))
      have h₁ := L.link_lt
      have h₂ := L.data_le
      rw [h0] at hlow
      simp only [P2V, KERNBASE, KERNLINK, lt_def, le_def] at hlow h₁ h₂
      simp at hlow h₁
      omega
    · rwa [hk] at hsure
    · rw [hk] at hsure
      exact ⟨by omega, hsure.1, hu.clear hM hle ht htaken hsure.2⟩

/-- **`deallocuvm`** unmaps the pages between the two sizes. -/
theorem deallocuvm_sure (hM : Managed L M) (hold : pages oldsz ≤ KERNBASE.toNat)
    (h : Held L M k (pd.all + X)) :
    Sure (fun r => Held L M r.1 (r.2.all + X) ∧
      Unmapped X k pd r.1 r.2 (pages newsz) (pages oldsz)) (deallocuvm L oldsz newsz k pd) := by
  have hmono : oldsz ≤ newsz → pages oldsz ≤ pages newsz := fun hle =>
    Nat.div_le_div_right (by omega)
  rw [deallocuvm]
  by_cases hle : oldsz ≤ newsz
  · rw [if_pos hle]
    exact ⟨h, .refl X k pd _, fun b hb hb' => by have := hmono hle; omega⟩
  · rw [if_neg hle]
    exact deallocLoop_sure hM hold (by omega) (Nat.div_le_div_right (by omega)) h

/-! ## Growing -/

/-- `walkpgdir` writes to free pages only. -/
theorem walkpgdir_mem {alloc : Bool} {t : PageTable}
    (h : walkpgdir alloc a k pd = some (t, k', pd')) :
    (∀ v, v ∉ k.freelist → k'.mem v = k.mem v) ∧ ∀ i, pd.pde i ≠ none → pd'.pde i ≠ none := by
  unfold walkpgdir at h
  split at h
  · cases h
    exact ⟨fun _ _ => rfl, fun _ hi => hi⟩
  · split at h
    · split at h
      · cases h
      · rename_i v k₁ hv
        cases h
        refine ⟨fun w hw => ?_, fun i hi => ?_⟩
        · have hfree := (kalloc_eq_some hv).1
          have hne : w ≠ v := by
            rintro rfl
            exact hw (by simp [hfree])
          change update k₁.mem v _ w = _
          rw [update_of_ne hne]
          rw [kalloc] at hv
          split at hv
          · cases hv
          · cases hv
            rfl
        · change update pd.pde (PDX a) _ i ≠ none
          by_cases hia : i = PDX a
          · rw [hia, update_self]
            exact nofun
          · rwa [update_of_ne hia]
    · cases h

theorem mappages_one {pa : Page} {perm : Perm} (h : pd.lookup a = none) :
    mappages (base a) PGSIZE pa perm k pd =
      match walkpgdir true a k pd with
      | none => .ok (false, k, pd)
      | some (t, k', pd') => .ok (true, k', pd'.setPte a t (some ⟨pa, perm⟩)) := by
  rw [mappages, pageOf_base, pageOf_base_last, sub_self]
  rw [show (0 : Page).toNat + 1 = 0 + 1 from rfl, mapLoop]
  cases hw : walkpgdir true a k pd with
  | none => rfl
  | some r =>
    obtain ⟨t, k', pd'⟩ := r
    dsimp only
    have hnone : t.pte (PTX a) = none := by
      have hlook := (walkpgdir_lookup hw a).trans h
      rwa [Pgdir.lookup, (walkpgdir_grown hw).2, bind_some] at hlook
    rw [hnone]
    dsimp only
    rw [if_pos rfl]

/-- **Mapping one page** that is not mapped. -/
theorem mappages_sure {perm : Perm} (ha : a < KERNBASE) (hnone : pd.lookup a = none)
    (h : Held L M k ({m} + pd.all + X)) :
    Sure (fun r => (∀ v, v ∉ k.freelist → r.2.1.mem v = k.mem v) ∧
        (∀ i, pd.pde i ≠ none → r.2.2.pde i ≠ none) ∧
        (∀ b, b ≠ a → r.2.2.lookup b = pd.lookup b) ∧
        if r.1 = true then Held L M r.2.1 (r.2.2.all + X) ∧ r.2.2.lookup a = some ⟨V2P m, perm⟩
        else Held L M r.2.1 ({m} + r.2.2.all + X) ∧ r.2.2.lookup a = none)
      (mappages (base a) PGSIZE (V2P m) perm k pd) := by
  have hsafe := h.mappages (p := perm) ha
  rw [mappages_one hnone] at hsafe ⊢
  cases hw : walkpgdir true a k pd with
  | none =>
    rw [hw] at hsafe
    exact ⟨fun _ _ => rfl, fun _ hi => hi, fun _ _ => rfl, hsafe, hnone⟩
  | some r =>
    obtain ⟨t, k', pd'⟩ := r
    rw [hw] at hsafe
    have ht := (walkpgdir_grown hw).2
    obtain ⟨hmem, htables⟩ := walkpgdir_mem hw
    refine ⟨hmem, fun i hi => tables_setPte _ i (htables i hi), fun b hb => ?_, hsafe,
      lookup_setPte_self⟩
    change (pd'.setPte a t _).lookup b = _
    rw [lookup_setPte_of_ne ht hb, walkpgdir_lookup hw]

/-- Pages `a` up to `last` are new, and zero. -/
structure Mapped (X : Multiset Page) (k : Kmem) (pd : Pgdir) (k' : Kmem) (pd' : Pgdir)
    (a last : ℕ) : Prop where
  kept : Kept X k pd k' pd' fun b => b.toNat < a ∨ last ≤ b.toNat
  fresh : ∀ b : Page, a ≤ b.toNat → b.toNat < last →
    ∃ e, pd'.lookup b = some e ∧ e.perm = PTE_W ||| PTE_U ∧ k'.mem (P2V e.pa) = fun _ => 0

theorem Kept.of_free (hM : Managed L M) (h : Held L M k (pd.all + X))
    (hlookup : ∀ a, S a → pd'.lookup a = pd.lookup a)
    (hmem : ∀ v, v ∉ k.freelist → k'.mem v = k.mem v)
    (htables : ∀ i, pd.pde i ≠ none → pd'.pde i ≠ none) : Kept X k pd k' pd' S := by
  refine ⟨hlookup, fun a _ hk e he => hmem _ (h.notMem hM.nodup ?_),
    fun v hv => hmem v (h.notMem hM.nodup (mem_add.2 (.inr hv))), htables⟩
  exact mem_add.2 (.inl (mem_add.2 (.inr (mem_uframes_of_lookup hk he))))

theorem Kept.drop (h : Kept (Y + X) k pd k' pd' S) :
    Kept X k pd k' pd' S :=
  ⟨h.lookup, h.mem, fun v hv => h.other v (mem_add.2 (.inr hv)), h.tables⟩

/-- A page that is in hand can be freed. -/
theorem Kept.free (hM : Managed L M) (h : Held L M k ({m} + (pd.all + X)))
    (hmem : ∀ v, v ≠ m → k'.mem v = k.mem v) : Kept X k pd k' pd S :=
  ⟨fun _ _ => rfl, fun _ _ hk _ he => hmem _ (h.frame_ne hM hk he),
    fun v hv => hmem v (h.other_ne hM (mem_add.2 (.inr hv))), fun _ hi => hi⟩

theorem kalloc_mem {u : Use} (h : kalloc u k = some (m, k')) : k'.mem = k.mem := by
  rw [kalloc] at h
  split at h
  · cases h
  · cases h
    rfl

/-- What the loop of `allocuvm` has done, when it went through and when it gave up. -/
def Attempt (X : Multiset Page) (oldsz newsz a : ℕ) (k : Kmem) (pd : Pgdir)
    (r : Bool × Kmem × Pgdir) : Prop :=
  if r.1 = true then Mapped X k pd r.2.1 r.2.2 a (pages newsz)
  else Unmapped X k pd r.2.1 r.2.2 (pages oldsz) (pages newsz)

theorem allocLoop_sure (hM : Managed L M) (hnew : pages newsz ≤ KERNBASE.toNat) (n : ℕ) :
    ∀ {a : ℕ} {k : Kmem} {pd : Pgdir}, pages oldsz ≤ a → a + n = pages newsz →
      (∀ b : Page, a ≤ b.toNat → b.toNat < pages newsz → pd.lookup b = none) →
      Held L M k (pd.all + X) →
      Sure (fun r => Held L M r.2.1 (r.2.2.all + X) ∧ Attempt X oldsz newsz a k pd r)
        (allocLoop L oldsz newsz n a k pd) := by
  have hK : KERNBASE.toNat = 524288 := rfl
  induction n with
  | zero =>
    intro a k pd _ ha _ h
    exact ⟨h, .refl X k pd _, fun b hb hb' => by omega⟩
  | succ n ih =>
    intro a k pd hold ha hnone h
    have hmod : (ofNat 20 a).toNat = a := by
      rw [BitVec.toNat_ofNat]
      omega
    have ha' : ofNat 20 a < KERNBASE := by
      rw [lt_def, hmod]
      omega
    rw [allocLoop]
    cases hk : kalloc .user k with
    | none => exact (deallocuvm_sure hM hnew h).bind fun r hr => hr
    | some r =>
      obtain ⟨mem, k₁⟩ := r
      have hfree := (kalloc_eq_some hk).1
      have htaken : Held L M (k₁.memset mem 0) ({mem} + pd.all + X) := by
        rw [add_assoc]
        exact (h.kalloc hk).memset mem 0
      have hout : mem ∉ k₁.freelist := (h.kalloc hk).notMem hM.nodup (by simp)
      -- what is not free is neither the page taken nor one taken for a page table
      have hsame : ∀ v, v ∉ k.freelist →
          v ∉ k₁.freelist ∧ (k₁.memset mem 0).mem v = k.mem v := by
        intro v hv
        rw [hfree, List.mem_cons, not_or] at hv
        refine ⟨hv.2, ?_⟩
        change update k₁.mem mem _ v = _
        rw [update_of_ne hv.1, kalloc_mem hk]
      refine (mappages_sure ha' (hnone _ (by omega) (by omega)) htaken).bind ?_
      rintro ⟨b, k₂, pd₂⟩ ⟨hmem, htables, hlookup, hr⟩
      have hmem₂ : ∀ v, v ∉ k.freelist → k₂.mem v = k.mem v := fun v hv =>
        (hmem v (hsame v hv).1).trans (hsame v hv).2
      have hkept : Kept X k pd k₂ pd₂ fun c => c ≠ ofNat 20 a :=
        .of_free hM h hlookup hmem₂ htables
      have hne : ∀ c : Page, c.toNat < a ∨ a < c.toNat → c ≠ ofNat 20 a := by
        rintro c hc rfl
        omega
      cases b with
      | true =>
        obtain ⟨h₂, hlook⟩ : Held L M k₂ (pd₂.all + X) ∧
            pd₂.lookup (ofNat 20 a) = some ⟨V2P mem, PTE_W ||| PTE_U⟩ := hr
        have hnone₂ : ∀ c : Page, a + 1 ≤ c.toNat → c.toNat < pages newsz →
            pd₂.lookup c = none := fun c hc hc' =>
          (hlookup c (hne c (by omega))).trans (hnone c (by omega) hc')
        have hzero : k₂.mem mem = fun _ => 0 := by
          rw [hmem mem hout]
          exact update_self ..
        refine (ih (by omega) (by omega) hnone₂ h₂).mono ?_
        rintro ⟨b, k₃, pd₃⟩ ⟨h₃, hrest⟩
        refine ⟨h₃, ?_⟩
        cases b with
        | true =>
          have hrest : Mapped X k₂ pd₂ k₃ pd₃ (a + 1) (pages newsz) := hrest
          refine ⟨hkept.trans hrest.kept fun c hc => ⟨hne c (by omega), by omega⟩,
            fun c hc hc' => ?_⟩
          by_cases hca : c.toNat = a
          · obtain rfl : c = ofNat 20 a := eq_of_toNat_eq (by omega)
            refine ⟨_, (hrest.kept.lookup _ (.inl (by omega))).trans hlook, rfl, ?_⟩
            rw [hrest.kept.mem _ (.inl (by omega)) ha' _ hlook, P2V_V2P]
            exact hzero
          · exact hrest.fresh c (by omega) hc'
        | false =>
          have hrest : Unmapped X k₂ pd₂ k₃ pd₃ (pages oldsz) (pages newsz) := hrest
          exact ⟨hkept.trans hrest.kept fun c hc => ⟨hne c (by omega), hc⟩, hrest.gone⟩
      | false =>
        obtain ⟨h₂, -⟩ : Held L M k₂ (({mem} : Multiset Page) + pd₂.all + X) ∧
            pd₂.lookup (ofNat 20 a) = none := hr
        have hback : Held L M k₂ (pd₂.all + ({mem} + X)) := by
          convert h₂ using 1
          abel
        refine (deallocuvm_sure hM hnew hback).bind ?_
        rintro ⟨k₃, pd₃⟩ ⟨h₃, hgone⟩
        have hlast : Held L M k₃ ({mem} + (pd₃.all + X)) := by
          convert (show Held L M k₃ (pd₃.all + ({mem} + X)) from h₃) using 1
          abel
        refine (kfree_sure hM hlast).bind ?_
        rintro k₄ ⟨h₄, hmem₄⟩
        have hdone : Kept X k pd k₃ pd₃ fun c => c.toNat < pages oldsz ∨ pages newsz ≤ c.toNat :=
          hkept.trans hgone.kept.drop fun c hc => ⟨hne c (by omega), hc⟩
        refine ⟨h₄, hdone.trans (R := fun _ => True) ?_ fun c hc => ⟨hc, trivial⟩, hgone.gone⟩
        exact Kept.free hM hlast hmem₄

/-- **`allocuvm`** from a size up to which memory is mapped: the size it returns is 0 when
it fails, and then everything is as it was. -/
theorem allocuvm_sure (hM : Managed L M) (hle : oldsz ≤ newsz)
    (hnone : ∀ b : Page, pages oldsz ≤ b.toNat → b < KERNBASE → pd.lookup b = none)
    (h : Held L M k (pd.all + X)) :
    Sure (fun r => Held L M r.2.1 (r.2.2.all + X) ∧
        (r.1 = 0 ∧ Kept X k pd r.2.1 r.2.2 (fun _ => True) ∨
          r.1 = newsz ∧ newsz < KERNBASE.toNat * PGSIZE ∧
            Mapped X k pd r.2.1 r.2.2 (pages oldsz) (pages newsz)))
      (allocuvm L oldsz newsz k pd) := by
  have hmono : pages oldsz ≤ pages newsz := Nat.div_le_div_right (by omega)
  rw [allocuvm]
  by_cases hbig : KERNBASE.toNat * PGSIZE ≤ newsz
  · rw [if_pos hbig]
    exact ⟨h, .inl ⟨rfl, .refl X k pd _⟩⟩
  · have hnew : pages newsz ≤ KERNBASE.toNat := pages_le_kernbase (by omega)
    have hnone' : ∀ b : Page, pages oldsz ≤ b.toNat → b.toNat < pages newsz → pd.lookup b = none :=
      fun b hb hb' => hnone b hb (BitVec.lt_def.2 (by omega))
    rw [if_neg hbig, if_neg (by omega)]
    refine (allocLoop_sure hM hnew _ le_rfl (by omega) hnone' h).bind ?_
    rintro ⟨b, k', pd'⟩ ⟨h', hr⟩
    cases b with
    | true => exact ⟨h', .inr ⟨rfl, by omega, hr⟩⟩
    | false =>
      have hr : Unmapped X k pd k' pd' (pages oldsz) (pages newsz) := hr
      refine ⟨h', .inl ⟨rfl, fun b _ => ?_, fun b _ hk e he => ?_, hr.kept.other, hr.kept.tables⟩⟩
      · by_cases hb : b.toNat < pages oldsz ∨ pages newsz ≤ b.toNat
        · exact hr.kept.lookup b hb
        · rw [hr.gone b (by omega) (by omega), hnone' b (by omega) (by omega)]
      · by_cases hb : b.toNat < pages oldsz ∨ pages newsz ≤ b.toNat
        · exact hr.kept.mem b hb hk e he
        · rw [hnone' b (by omega) (by omega)] at he
          cases he

/-! ## What is not free -/

/-- Pages that are not free are left alone. -/
def Kmem.Spares (k k' : Kmem) : Prop := ∀ v, v ∉ k.freelist → k'.mem v = k.mem v ∧ v ∉ k'.freelist

theorem Kmem.Spares.trans (h : k.Spares k₁) (h' : k₁.Spares k') : k.Spares k' := by
  intro v hv
  obtain ⟨hmem, hv₁⟩ := h v hv
  exact ⟨(h' v hv₁).1.trans hmem, (h' v hv₁).2⟩

theorem walkpgdir_spares {alloc : Bool} {t : PageTable}
    (h : walkpgdir alloc a k pd = some (t, k', pd')) : k.Spares k' := by
  intro v hv
  obtain ⟨T, hfree, -⟩ := (walkpgdir_grown h).1.tables
  refine ⟨(walkpgdir_mem h).1 v hv, fun hv' => hv ?_⟩
  rw [← Multiset.mem_coe, hfree]
  exact Multiset.mem_add.2 (.inr hv')

/-! ## Pages in a row -/

/-- `n` pages from `v` on. -/
def pageRange (v : Page) (n : ℕ) : List Page := (List.range n).map fun i => v + BitVec.ofNat 20 i

theorem pageRange_succ (v : Page) (n : ℕ) : pageRange v (n + 1) = v :: pageRange (v + 1) n := by
  simp only [pageRange, List.range_succ_eq_map, List.map_cons, List.map_map]
  congr 1
  · simp
  · refine List.map_congr_left fun i _ => ?_
    simp only [Function.comp_apply]
    bv_omega

theorem pageRange_add (v : Page) (a b : ℕ) :
    pageRange v (a + b) = pageRange v a ++ pageRange (v + BitVec.ofNat 20 a) b := by
  simp only [pageRange, List.range_add, List.map_append, List.map_map]
  congr 1
  refine List.map_congr_left fun i _ => ?_
  simp only [Function.comp_apply]
  bv_omega

theorem pageRange_nodup {v : Page} {n : ℕ} (hn : n ≤ 2 ^ 20) : (pageRange v n).Nodup := by
  refine List.Nodup.map_on (fun i hi j hj hij => ?_) List.nodup_range
  rw [List.mem_range] at hi hj
  bv_omega

/-- Pages behind the kernel. -/
theorem managed_pageRange {v : Page} {n : ℕ} (hlow : L.kend ≤ v)
    (hhigh : v.toNat + n ≤ (P2V PHYSTOP).toNat) : Managed L (pageRange v n) := by
  have hstop : (P2V PHYSTOP).toNat = 0x8E000 := rfl
  have hlink := BitVec.lt_def.1 L.link_lt
  have hdata := BitVec.le_def.1 L.data_le
  have hbase : KERNLINK.toNat = 0x80100 := rfl
  have hmem : ∀ w ∈ (pageRange v n : Multiset Page), v.toNat ≤ w.toNat ∧ w.toNat < 0x8E000 := by
    intro w hw
    obtain ⟨i, hi, rfl⟩ := List.mem_map.1 (mem_coe.1 hw)
    rw [List.mem_range] at hi
    rw [BitVec.toNat_add, BitVec.toNat_ofNat]
    omega
  rw [BitVec.le_def] at hlow
  refine ⟨coe_nodup.2 (pageRange_nodup (by omega)), fun w hw => ?_, fun w hw => ?_⟩
  · rw [BitVec.le_def]
    exact hlow.trans (hmem w hw).1
  · have hw' := hmem w hw
    simp only [V2P, KERNBASE, PHYSTOP, BitVec.lt_def]
    bv_omega

end Xv6.Mem
