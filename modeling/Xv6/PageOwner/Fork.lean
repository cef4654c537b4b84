import Xv6.Mem.Directory
import Xv6.PageOwner.Grow

/-!
# `copyuvm`

The address space that `fork` makes for the child: the same pages, with the same flags and the same
bytes, on other frames.  When memory runs out, at whatever point, everything is given back.

* `copyLoop_sure` — the loop, from page `i` on.
* `copyuvm_copies` — the call.
-/

namespace Xv6.PageOwner

open Xv6.Lib Xv6.Mem Xv6.SharedMem Function Multiset

variable {L : Layout} {M X Y : Multiset Page} {k k₀ : Kmem} {pd d d₀ : Pgdir}

/-- The child's directory after `i` pages: these pages are copied, no other user page is there, and
the kernel part is that of `d₀`. -/
structure Child (pd d₀ : Pgdir) (k₀ k : Kmem) (d : Pgdir) (i : ℕ) : Prop where
  copied : ∀ a : Page, a.toNat < i → ∃ e e', pd.lookup a = some e ∧ d.lookup a = some e' ∧
    e'.perm = e.perm ∧ k.mem (P2V e'.pa) = k₀.mem (P2V e.pa)
  above : ∀ a : Page, a < KERNBASE → i ≤ a.toNat → d.lookup a = none
  kernel : ∀ a : Page, KERNBASE ≤ a → d.lookup a = d₀.lookup a

/-- What the loop leaves. -/
def Forked (L : Layout) (M Y : Multiset Page) (pd d₀ : Pgdir) (k₀ : Kmem) (last : ℕ)
    (r : Option Pgdir × Kmem) : Prop :=
  (∀ v ∈ Y, r.2.mem v = k₀.mem v) ∧
    match r.1 with
    | none => Held L M r.2 Y
    | some d => Held L M r.2 (d.all + Y) ∧ Child pd d₀ k₀ r.2 d last

theorem giveUp_forked (hM : Managed L M) {last : ℕ} (h : Held L M k (d.all + Y))
    (hmem : ∀ v ∈ Y, k.mem v = k₀.mem v) :
    Sure (Forked L M Y pd d₀ k₀ last) (giveUp L k d) := by
  have hfree := freevm_sure hM h
  rw [giveUp]
  cases hf : freevm L k d with
  | error f =>
    rw [hf] at hfree
    exact hfree
  | ok k₁ =>
    rw [hf] at hfree
    exact ⟨fun v hv => (hfree.2 v hv).trans (hmem v hv), hfree.1⟩

theorem toNat_page {i : ℕ} (hi : i < KERNBASE.toNat) : (BitVec.ofNat 20 i).toNat = i := by
  have hK : KERNBASE.toNat = 524288 := rfl
  rw [BitVec.toNat_ofNat]
  omega

theorem Child.next {i : ℕ} {k₂ : Kmem} {d₂ : Pgdir} {e : Pte} {mem : Page} (hM : Managed L M)
    (hchild : Child pd d₀ k₀ k d i) (h : Held L M k (d.all + Y)) (hi : i < KERNBASE.toNat)
    (he : pd.lookup (BitVec.ofNat 20 i) = some e)
    (hlook : d₂.lookup (BitVec.ofNat 20 i) = some ⟨V2P mem, e.perm⟩)
    (hlookup : ∀ a, a ≠ BitVec.ofNat 20 i → d₂.lookup a = d.lookup a)
    (hkeep : ∀ v, v ∉ k.freelist → k₂.mem v = k.mem v)
    (hcontents : k₂.mem mem = k₀.mem (P2V e.pa)) : Child pd d₀ k₀ k₂ d₂ (i + 1) := by
  have hmod := toNat_page hi
  refine ⟨fun a ha => ?_, fun a ha hia => ?_, fun a ha => ?_⟩
  · by_cases hai : a.toNat = i
    · obtain rfl : a = BitVec.ofNat 20 i := BitVec.eq_of_toNat_eq (by omega)
      exact ⟨e, _, he, hlook, rfl, by rw [P2V_V2P]; exact hcontents⟩
    · obtain ⟨e₁, e₂, he₁, he₂, hperm, hbytes⟩ := hchild.copied a (by omega)
      have hak : a < KERNBASE := BitVec.lt_def.2 (by omega)
      refine ⟨e₁, e₂, he₁, ?_, hperm, ?_⟩
      · rw [hlookup a fun hc => hai (by rw [hc, hmod]), he₂]
      · refine (hkeep _ (h.notMem hM.nodup ?_)).trans hbytes
        exact mem_add.2 (.inl (mem_add.2
          (.inr (mem_uframes_of_lookup hak he₂))))
  · rw [hlookup a fun hc => by rw [hc, hmod] at hia; omega]
    exact hchild.above a ha (by omega)
  · rw [hlookup a, hchild.kernel a ha]
    rintro rfl
    exact absurd (BitVec.le_def.1 ha) (by omega)

theorem kfree_forked (hM : Managed L M) {last : ℕ} {mem : Page}
    (h : Held L M k ({mem} + (d.all + Y))) (hmem : ∀ v ∈ Y, k.mem v = k₀.mem v) :
    Sure (Forked L M Y pd d₀ k₀ last) (match kfree L mem k with
      | .error f => .error f
      | .ok k => giveUp L k d) := by
  have hback := kfree_sure hM h
  cases hf : kfree L mem k with
  | error f =>
    rw [hf] at hback
    exact hback.elim
  | ok k₁ =>
    rw [hf] at hback
    refine giveUp_forked hM hback.1 fun v hv => ?_
    rw [hback.2 v (h.other_ne hM (mem_add.2 (.inr hv))), hmem v hv]

theorem kalloc_memmove {k₁ : Kmem} {mem v : Page} (src : Page)
    (hk : kalloc .user k = some (mem, k₁)) (hv : v ∉ k.freelist) :
    v ∉ k₁.freelist ∧ (k₁.memmove mem src).mem v = k.mem v := by
  rw [(kalloc_eq_some hk).1, List.mem_cons, not_or] at hv
  refine ⟨hv.2, ?_⟩
  change update k₁.mem mem _ v = _
  rw [update_of_ne hv.1, kalloc_mem hk]

theorem copyLoop_sure (hM : Managed L M) (hY : pd.all ≤ Y) (n : ℕ) :
    ∀ {i : ℕ} {k : Kmem} {d : Pgdir}, i + n ≤ KERNBASE.toNat →
      (∀ a : Page, a.toNat < i + n → pd.lookup a ≠ none) → Held L M k (d.all + Y) →
      (∀ v ∈ Y, k.mem v = k₀.mem v) → Child pd d₀ k₀ k d i →
      Sure (Forked L M Y pd d₀ k₀ (i + n)) (copyLoop L pd n i k d) := by
  induction n with
  | zero =>
    intro i k d _ _ h hmem hchild
    exact ⟨hmem, h, hchild⟩
  | succ n ih =>
    intro i k d hi hpresent h hmem hchild
    have hmod := toNat_page (i := i) (by omega)
    have hik : BitVec.ofNat 20 i < KERNBASE := by
      rw [BitVec.lt_def, hmod]
      omega
    -- the page is present in the parent
    obtain ⟨e, he⟩ := Option.ne_none_iff_exists'.1 (hpresent (BitVec.ofNat 20 i) (by omega))
    obtain ⟨t, ht, hte⟩ := Option.bind_eq_some_iff.1 he
    have hframe : P2V e.pa ∈ Y := mem_of_le hY
      (mem_add.2 (.inr (mem_uframes_of_lookup hik he)))
    rw [copyLoop, ht]
    dsimp only
    rw [hte]
    dsimp only
    cases hk : kalloc .user k with
    | none => exact giveUp_forked hM h hmem
    | some r =>
      obtain ⟨mem, k₁⟩ := r
      dsimp only
      have htaken : Held L M (k₁.memmove mem (P2V e.pa)) ({mem} + d.all + Y) := by
        rw [add_assoc]
        have hheld := h.kalloc hk
        exact ⟨⟨hheld.ok.nodup, hheld.ok.unused, hheld.ok.managed⟩, hheld.total⟩
      have hmap : Sure _ (mappages (base (BitVec.ofNat 20 i)) PGSIZE (V2P mem) e.perm
          (k₁.memmove mem (P2V e.pa)) d) :=
        mappages_sure hik (hchild.above _ hik (by omega)) htaken
      cases hm : mappages (base (BitVec.ofNat 20 i)) PGSIZE (V2P mem) e.perm
          (k₁.memmove mem (P2V e.pa)) d with
      | error f =>
        rw [hm] at hmap
        exact hmap.elim
      | ok r =>
        obtain ⟨b, k₂, d₂⟩ := r
        rw [hm] at hmap
        obtain ⟨hmem₂, -, hlookup, hr⟩ := hmap
        have hkeep : ∀ v, v ∉ k.freelist → k₂.mem v = k.mem v := by
          intro v hv
          obtain ⟨hnot, hsame⟩ := kalloc_memmove (P2V e.pa) hk hv
          exact (hmem₂ v hnot).trans hsame
        have hY₂ : ∀ v ∈ Y, k₂.mem v = k₀.mem v := fun v hv =>
          (hkeep v (h.notMem hM.nodup (mem_add.2 (.inr hv)))).trans (hmem v hv)
        cases b with
        | true =>
          obtain ⟨h₂, hlook⟩ : Held L M k₂ (d₂.all + Y) ∧
              d₂.lookup (BitVec.ofNat 20 i) = some ⟨V2P mem, e.perm⟩ := hr
          have hout : mem ∉ k₁.freelist := (h.kalloc hk).notMem hM.nodup (by simp)
          have hcontents : k₂.mem mem = k₀.mem (P2V e.pa) := by
            rw [hmem₂ mem hout, ← hmem _ hframe, ← kalloc_mem hk]
            exact update_self ..
          have hnext := hchild.next hM h (by omega) he hlook hlookup hkeep hcontents
          have hstep := ih (by omega) (fun a ha => hpresent a (by omega)) h₂ hY₂ hnext
          rwa [show i + 1 + n = i + (n + 1) by omega] at hstep
        | false =>
          obtain ⟨h₂, -⟩ : Held L M k₂ (({mem} : Multiset Page) + d₂.all + Y) ∧
              d₂.lookup (BitVec.ofNat 20 i) = none := hr
          rw [add_assoc] at h₂
          exact kfree_forked hM h₂ hY₂

theorem frame_free_of_child (hM : Managed L M) (h : Held L M k₀ Y) (hd : Held L M k (d.all + Y))
    {a : Page} (ha : a < KERNBASE) {e : Pte} (he : d.lookup a = some e) :
    P2V e.pa ∈ k₀.freelist := by
  have hall : P2V e.pa ∈ d.all := mem_add.2 (.inr (mem_uframes_of_lookup ha he))
  have hmem : P2V e.pa ∈ (k₀.freelist : Multiset Page) + Y := by
    rw [h.total]
    exact hd.mem_all (mem_add.2 (.inl hall))
  obtain hfree | hY := mem_add.1 hmem
  · exact mem_coe.1 hfree
  · exact absurd hY (frame_notMem hM hd ha he)

/-- The child's address space: the parent's pages below the size, with their flags and bytes, on
other frames; no other user page; and the kernel part that `setupkvm` makes. -/
structure Copies (L : Layout) (sz : ℕ) (k : Kmem) (pd : Pgdir) (k' : Kmem) (d : Pgdir) : Prop where
  copied : ∀ a : Page, a.toNat < pages sz → ∃ e e', pd.lookup a = some e ∧ d.lookup a = some e' ∧
    e'.perm = e.perm ∧ k'.mem (P2V e'.pa) = k.mem (P2V e.pa) ∧ e'.pa ≠ e.pa
  fresh : ∀ a : Page, a < KERNBASE → ∀ e, d.lookup a = some e →
    a.toNat < pages sz ∧ P2V e.pa ∈ k.freelist
  distinct : ∀ a b : Page, a < KERNBASE → b < KERNBASE → ∀ e e', d.lookup a = some e →
    d.lookup b = some e' → e.pa = e'.pa → a = b
  kernel : ∃ d₀ k₁, setupkvm L k = .ok (some d₀, k₁) ∧
    ∀ a : Page, KERNBASE ≤ a → d.lookup a = d₀.lookup a

theorem Child.copies (hM : Managed L M) {k₁ : Kmem} {sz : ℕ} (h : Held L M k₀ (pd.all + X))
    (hd : Held L M k (d.all + (pd.all + X))) (hle : pages sz ≤ KERNBASE.toNat)
    (hset : setupkvm L k₀ = .ok (some d₀, k₁)) (hchild : Child pd d₀ k₀ k d (pages sz)) :
    Copies L sz k₀ pd k d := by
  refine ⟨fun a ha => ?_, fun a ha e he => ⟨?_, frame_free_of_child hM h hd ha he⟩,
    fun a b ha hb e e' he he' hp => frame_inj hM hd ha hb he he' (congrArg P2V hp),
    d₀, k₁, hset, hchild.kernel⟩
  · obtain ⟨e, e', he, he', hperm, hbytes⟩ := hchild.copied a ha
    have hk : a < KERNBASE := BitVec.lt_def.2 (by omega)
    refine ⟨e, e', he, he', hperm, hbytes, fun hp => frame_notMem hM hd hk he' ?_⟩
    rw [hp]
    exact mem_add.2 (.inl (mem_add.2 (.inr (mem_uframes_of_lookup hk he))))
  · by_contra hge
    rw [hchild.above a ha (by omega)] at he
    cases he

/-- **`fork` copies the address space**, or does nothing.  The pages of the parent, and all others
that were in use, are as they were; when memory runs out, the free pages are those that were free
before. -/
theorem copyuvm_copies (hM : Managed L M) (h : Held L M k (pd.all + X)) (sz : ℕ)
    (hsz : sz < KERNBASE.toNat * PGSIZE)
    (hpresent : ∀ a : Page, a.toNat < pages sz → pd.lookup a ≠ none) :
    ∃ r k', copyuvm L pd sz k = .ok (r, k') ∧ (∀ v ∈ pd.all + X, k'.mem v = k.mem v) ∧
      ((∃ d, r = some d ∧ Copies L sz k pd k' d) ∨
        r = none ∧ (k'.freelist : Multiset Page) = k.freelist) := by
  have hle : pages sz ≤ KERNBASE.toNat := pages_le_kernbase (by omega)
  have hset := setupkvm_sure hM h
  rw [copyuvm]
  cases hs : setupkvm L k with
  | error f =>
    rw [hs] at hset
    exact hset.elim
  | ok r =>
    obtain ⟨d₀, k₁⟩ := r
    rw [hs] at hset
    obtain ⟨hmem, hset⟩ := hset
    cases d₀ with
    | none =>
      have hset : Held L M k₁ (pd.all + X) := hset
      exact ⟨_, _, rfl, hmem, .inr ⟨rfl, add_right_cancel (hset.total.trans h.total.symm)⟩⟩
    | some d₀ =>
      obtain ⟨h₁, hfresh, -⟩ : Held L M k₁ (d₀.all + (pd.all + X)) ∧ Fresh d₀ ∧ _ := hset
      have hstart : Child pd d₀ k k₁ d₀ 0 :=
        ⟨fun a ha => absurd ha (Nat.not_lt_zero _), fun a ha _ => hfresh.low a ha,
          fun _ _ => rfl⟩
      have hloop := copyLoop_sure hM (le_add_right pd.all X) (pages sz)
        (by omega) (fun a ha => hpresent a (by omega)) h₁ hmem hstart
      dsimp only
      rw [Nat.zero_add] at hloop
      cases hrun : copyLoop L pd (pages sz) 0 k₁ d₀ with
      | error f =>
        rw [hrun] at hloop
        exact hloop.elim
      | ok r =>
        obtain ⟨d, k₂⟩ := r
        rw [hrun] at hloop
        obtain ⟨hmem₂, hloop⟩ := hloop
        refine ⟨_, _, rfl, hmem₂, ?_⟩
        cases d with
        | none =>
          have hloop : Held L M k₂ (pd.all + X) := hloop
          exact .inr ⟨rfl, add_right_cancel (hloop.total.trans h.total.symm)⟩
        | some d =>
          obtain ⟨h₂, hchild⟩ : Held L M k₂ (d.all + (pd.all + X)) ∧
              Child pd d₀ k k₂ d (pages sz) := hloop
          exact .inl ⟨d, rfl, hchild.copies hM h h₂ hle hs⟩

theorem copyuvm_succeeds : ∃ d k', copyuvm smallLayout onePage 4096 (freePages 600) = .ok (some d, k') := by
  have hlen : (freePages 600).freelist.length = 600 := by simp [freePages, pageRange]
  obtain ⟨d, k₁, hset, hlen₁, hnone⟩ := setupkvm_succeeds (L := smallLayout)
    (by omega : 514 ≤ (freePages 600).freelist.length)
  obtain ⟨mem, k₂, hk, hlen₂⟩ := kalloc_succeeds .user (by omega : 0 < k₁.freelist.length)
  obtain ⟨k₃, d₃, hmap, -⟩ := mappages_succeeds (k := k₂.memmove mem (P2V 0x402)) (V2P mem)
    (PTE_W ||| PTE_U) (show 0 < k₂.freelist.length by omega) (hnone 0#20 (by decide))
  have hpages : pages 4096 = 1 := rfl
  have hpde : onePage.pde (PDX 0#20) =
      some ⟨0x401, update (fun _ => none) (PTX 0) (some ⟨0x402, PTE_W ||| PTE_U⟩)⟩ := rfl
  have hpte : update (fun _ => none) (PTX 0) (some (⟨0x402, PTE_W ||| PTE_U⟩ : Pte)) (PTX 0#20) =
      some ⟨0x402, PTE_W ||| PTE_U⟩ := rfl
  refine ⟨d₃, k₃, ?_⟩
  rw [copyuvm, hset]
  dsimp only
  rw [hpages, copyLoop, hpde]
  dsimp only
  rw [hpte, hk]
  dsimp only
  rw [hmap]
  rfl

theorem copyuvm_copies_one : ∃ d k', copyuvm smallLayout onePage 4096 (freePages 600) = .ok (some d, k') ∧
    (∀ v ∈ onePage.all + 0, k'.mem v = (freePages 600).mem v) ∧
    Copies smallLayout 4096 (freePages 600) onePage k' d := by
  obtain ⟨d, k', hrun⟩ := copyuvm_succeeds
  obtain ⟨r, k₁, hrun', hmem, hres⟩ := copyuvm_copies (managed_onePage (n := 600) (by decide))
    (held_onePage (by decide)) 4096 (by decide) fun a ha hnone => by
      have hk : a < KERNBASE := BitVec.lt_def.2 (lt_trans ha (by decide))
      have hsome := (userPages_oneUserPage a hk).2 ha
      rw [show oneUserPage.pgdir.lookup a = none from hnone] at hsome
      cases hsome
  obtain ⟨rfl, rfl⟩ := Prod.mk.inj (Except.ok.inj (hrun'.symm.trans hrun))
  obtain ⟨d', hd, hcopies⟩ | ⟨hd, -⟩ := hres
  · cases hd
    exact ⟨_, _, hrun, hmem, hcopies⟩
  · cases hd

end Xv6.PageOwner
