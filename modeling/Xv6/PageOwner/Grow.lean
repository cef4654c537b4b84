import Xv6.Mem.Enough
import Xv6.Mem.User
import Xv6.PageOwner.Machine

/-!
# `sbrk`

`growproc` either moves the end of user memory by `n` or does nothing, exactly when
something is left: 0 is the error value of `allocuvm` and `deallocuvm`, and `sz + n` is
computed in 32 bits (`growproc_to_zero`).
-/

namespace Xv6.PageOwner

open Xv6.Lib Xv6.Mem Xv6.SharedMem Function Multiset

variable {P : Type} {L : Layout} {M X : Multiset Page} {k k' : Kmem} {n : BitVec 32} {pr pr' : Proc P}

/-- The user pages that are present are the first `n`. -/
def Upto (pd : Pgdir) (n : ℕ) : Prop :=
  ∀ a : Page, a < KERNBASE → ((pd.lookup a).isSome ↔ a.toNat < n)

/-- The mapped user pages are those below the size. -/
abbrev UserPages (pr : Proc P) : Prop := Upto pr.pgdir (pages pr.sz)

theorem Upto.none_above {pd : Pgdir} {a : Page} {n : ℕ} (h : Upto pd n) (ha : n ≤ a.toNat)
    (hk : a < KERNBASE) : pd.lookup a = none := by
  cases he : pd.lookup a with
  | none => rfl
  | some e =>
    have := (h a hk).1 (by rw [he]; rfl)
    omega

/-- User memory was moved to end `n` bytes further up. -/
structure Resized (X : Multiset Page) (n : BitVec 32) (pr : Proc P) (k : Kmem) (pr' : Proc P)
    (k' : Kmem) : Prop where
  size : (pr'.sz : ℤ) = pr.sz + n.toInt
  below : pr'.sz < KERNBASE.toNat * PGSIZE
  mapped : UserPages pr'
  kept : Kept X k pr.pgdir k' pr'.pgdir fun a =>
    a.toNat < min (pages pr.sz) (pages pr'.sz) ∨ KERNBASE ≤ a
  fresh : ∀ a : Page, pages pr.sz ≤ a.toNat → a.toNat < pages pr'.sz →
    ∃ e, pr'.pgdir.lookup a = some e ∧ e.perm = PTE_W ||| PTE_U ∧ k'.mem (P2V e.pa) = fun _ => 0

/-- What `growproc` may return. -/
structure AllOrNothing (L : Layout) (M X : Multiset Page) (n : BitVec 32) (pr : Proc P) (k : Kmem)
    (r : ℤ × Proc P × Kmem) : Prop where
  held : Held L M r.2.2 (r.2.1.pgdir.all + X)
  proc : r.2.1 = { pr with sz := r.2.1.sz, pgdir := r.2.1.pgdir }
  outcome : r.1 = 0 ∧ Resized X n pr k r.2.1 r.2.2 ∨
    r.1 = -1 ∧ r.2.1.sz = pr.sz ∧ Kept X k pr.pgdir r.2.2 r.2.1.pgdir fun _ => True

/-! ## The two directions -/

theorem Resized.of_mapped (hmapped : UserPages pr) (hle : pr.sz ≤ pr'.sz)
    (hsize : (pr'.sz : ℤ) = pr.sz + n.toInt) (hbelow : pr'.sz < KERNBASE.toNat * PGSIZE)
    (h : Mapped X k pr.pgdir k' pr'.pgdir (pages pr.sz) (pages pr'.sz)) :
    Resized X n pr k pr' k' := by
  have hmono : pages pr.sz ≤ pages pr'.sz := Nat.div_le_div_right (by omega)
  have hpages : pages pr'.sz ≤ KERNBASE.toNat := pages_le_kernbase (by omega)
  refine ⟨hsize, hbelow, fun a ha => ?_, h.kept.mono fun a ha => ?_, h.fresh⟩
  · by_cases hnew : pages pr.sz ≤ a.toNat ∧ a.toNat < pages pr'.sz
    · obtain ⟨e, he, -⟩ := h.fresh a hnew.1 hnew.2
      simp [he, hnew.2]
    · have hold : a.toNat < pages pr.sz ∨ pages pr'.sz ≤ a.toNat := by omega
      rw [h.kept.lookup a hold, hmapped a ha]
      omega
  · rw [BitVec.le_def] at ha
    omega

theorem Resized.of_unmapped (hmapped : UserPages pr) (hle : pr'.sz ≤ pr.sz)
    (hsize : (pr'.sz : ℤ) = pr.sz + n.toInt) (hbelow : pr.sz < KERNBASE.toNat * PGSIZE)
    (h : Unmapped X k pr.pgdir k' pr'.pgdir (pages pr'.sz) (pages pr.sz)) :
    Resized X n pr k pr' k' := by
  have hmono : pages pr'.sz ≤ pages pr.sz := Nat.div_le_div_right (by omega)
  have hpages : pages pr.sz ≤ KERNBASE.toNat := pages_le_kernbase (by omega)
  refine ⟨hsize, by omega, fun a ha => ?_, h.kept.mono fun a ha => ?_, fun a ha ha' => by omega⟩
  · by_cases hgone : pages pr'.sz ≤ a.toNat ∧ a.toNat < pages pr.sz
    · rw [h.gone a hgone.1 hgone.2]
      simp [hgone.1]
    · have hold : a.toNat < pages pr'.sz ∨ pages pr.sz ≤ a.toNat := by omega
      rw [h.kept.lookup a hold, hmapped a ha]
      omega
  · rw [BitVec.le_def] at ha
    omega

theorem growproc_up (hM : Managed L M) (hsz : pr.sz < KERNBASE.toNat * PGSIZE)
    (hmapped : UserPages pr) (h : Held L M k (pr.pgdir.all + X)) (hn : 0 < n.toInt) :
    Sure (AllOrNothing L M X n pr k) (growproc L n pr k) := by
  have hK : KERNBASE.toNat * PGSIZE = 2147483648 := rfl
  have hnew : (BitVec.ofNat 32 pr.sz + n).toNat = pr.sz + n.toNat := by
    rw [BitVec.toInt] at hn
    rw [BitVec.toNat_add, BitVec.toNat_ofNat]
    split at hn <;> omega
  have hint : n.toInt = n.toNat := by
    rw [BitVec.toInt] at hn ⊢
    split at hn <;> omega
  rw [growproc, if_pos hn, hnew]
  refine (allocuvm_sure hM (Nat.le_add_right _ _)
    (fun b hb hk => hmapped.none_above hb hk) h).bind ?_
  rintro ⟨sz, k', pd⟩ ⟨h', ⟨rfl, hkept⟩ | ⟨rfl, hbelow, hmap⟩⟩
  · exact ⟨h', rfl, .inr ⟨rfl, rfl, hkept⟩⟩
  · have hne : ¬pr.sz + n.toNat = 0 := by omega
    dsimp only
    rw [if_neg hne]
    refine ⟨h', rfl, .inl ⟨rfl, Resized.of_mapped hmapped (Nat.le_add_right _ _) ?_ hbelow hmap⟩⟩
    rw [hint]
    exact Nat.cast_add _ _

theorem growproc_down (hM : Managed L M) (hsz : pr.sz < KERNBASE.toNat * PGSIZE)
    (hmapped : UserPages pr) (h : Held L M k (pr.pgdir.all + X)) (hn : n.toInt < 0)
    (hpos : 0 < pr.sz + n.toInt) : Sure (AllOrNothing L M X n pr k) (growproc L n pr k) := by
  have hK : KERNBASE.toNat * PGSIZE = 2147483648 := rfl
  have hnew : ((BitVec.ofNat 32 pr.sz + n).toNat : ℤ) = pr.sz + n.toInt := by
    have := n.isLt
    rw [BitVec.toInt] at hn hpos ⊢
    rw [BitVec.toNat_add, BitVec.toNat_ofNat]
    split at hn <;> omega
  rw [growproc, if_neg (by omega), if_pos hn]
  generalize (BitVec.ofNat 32 pr.sz + n).toNat = newsz at hnew ⊢
  refine (deallocuvm_sure hM (pages_le_kernbase hsz.le) h).bind ?_
  rintro ⟨k', pd⟩ ⟨h', hun⟩
  have hdealloc : deallocSize pr.sz newsz = newsz := by
    rw [deallocSize, if_neg (by omega)]
  dsimp only
  rw [hdealloc, if_neg (by omega)]
  exact ⟨h', rfl, .inl ⟨rfl, Resized.of_unmapped hmapped (by dsimp only; omega) hnew hsz hun⟩⟩

theorem growproc_breaks (hM : Managed L M) (hpos : 0 < pr.sz)
    (hsz : pr.sz < KERNBASE.toNat * PGSIZE) (hmapped : UserPages pr)
    (h : Held L M k (pr.pgdir.all + X)) (hn : pr.sz + n.toInt ≤ 0) :
    ¬Sure (AllOrNothing L M X n pr k) (growproc L n pr k) := by
  have hK : KERNBASE.toNat * PGSIZE = 2147483648 := rfl
  have hlow := BitVec.le_toInt n
  rw [growproc, if_neg (by omega), if_pos (by omega)]
  generalize hnew : (BitVec.ofNat 32 pr.sz + n).toNat = newsz
  have hwrap : pr.sz + n.toInt = 0 ∧ newsz = 0 ∨ pr.sz + n.toInt < 0 ∧ pr.sz ≤ newsz := by
    have := n.isLt
    rw [BitVec.toNat_add, BitVec.toNat_ofNat] at hnew
    rw [BitVec.toInt] at hn hlow ⊢
    split at hn <;> omega
  rcases hwrap with ⟨-, rfl⟩ | ⟨hneg, hge⟩
  · have hun : Sure _ (deallocuvm L pr.sz 0 k pr.pgdir) :=
      deallocuvm_sure hM (pages_le_kernbase hsz.le) h
    cases hd : deallocuvm L pr.sz 0 k pr.pgdir with
    | error f => exact fun hsure => hsure
    | ok r =>
      rw [hd] at hun
      obtain ⟨-, hun⟩ := hun
      have hsize : deallocSize pr.sz 0 = 0 := if_neg (by omega)
      have hsome : (pr.pgdir.lookup 0).isSome = true := by
        refine (hmapped 0 (by decide)).2 ?_
        exact Nat.div_pos (by simp only [PGSIZE]; omega) (by decide)
      change ¬Sure _ (if _ then _ else _)
      rw [if_pos hsize]
      rintro ⟨-, -, ⟨h0, -⟩ | ⟨-, -, hkept⟩⟩
      · exact absurd (show (-1 : ℤ) = 0 from h0) (by decide)
      · have hgone := hun.gone 0 (Nat.zero_le _) ((hmapped 0 (by decide)).1 hsome)
        have hsame : r.2.lookup 0 = pr.pgdir.lookup 0 := hkept.lookup 0 trivial
        rw [← hsame, hgone] at hsome
        cases hsome
  · have hsize : deallocSize pr.sz newsz = pr.sz := if_pos hge
    rw [deallocuvm, if_pos hge]
    change ¬Sure _ (if _ then _ else _)
    rw [hsize, if_neg (by omega)]
    rintro ⟨-, -, ⟨-, hres⟩ | ⟨h1, -⟩⟩
    · have hmove : (pr.sz : ℤ) = pr.sz + n.toInt := hres.size
      omega
    · exact absurd (show (0 : ℤ) = -1 from h1) (by decide)

/-! ## The result -/

/-- **`sbrk` is all or nothing exactly when some memory is left.**  It then moves the end of user
memory by exactly `n`, with the new pages zero, or leaves size and mappings as they were. -/
theorem growproc_all_or_nothing (hM : Managed L M) (pr : Proc P) (n : BitVec 32)
    (hpos : 0 < pr.sz) (hsz : pr.sz < KERNBASE.toNat * PGSIZE) (hmapped : UserPages pr)
    (h : Held L M k (pr.pgdir.all + X)) :
    Sure (AllOrNothing L M X n pr k) (growproc L n pr k) ↔ 0 < pr.sz + n.toInt := by
  refine ⟨fun hsure => ?_, fun hleft => ?_⟩
  · by_contra hn
    exact growproc_breaks hM hpos hsz hmapped h (by omega) hsure
  rcases lt_trichotomy n.toInt 0 with hn | hn | hn
  · exact growproc_down hM hsz hmapped h hn hleft
  · rw [growproc, if_neg (by omega), if_neg (by omega)]
    refine ⟨h, rfl, .inl ⟨rfl, by simp [hn], hsz, hmapped, .refl _ _ _ _, fun a ha ha' => ?_⟩⟩
    exact absurd (ha.trans_lt ha') (lt_irrefl _)
  · exact growproc_up hM hsz hmapped h hn

/-- A process with one page of user memory. -/
def oneUserPage : Proc Unit := ⟨false, none, 4096, onePage, 0x80404⟩

/-- `n` pages are free. -/
def freePages (n : ℕ) : Kmem := ⟨pageRange 0x80403 n, fun _ _ => 0, fun _ => none⟩

theorem onePage_all : onePage.all = {0x80400, 0x80401, 0x80402} := by
  have hptes := Lib.sum_update_add
    (fun _ (x : Option Pte) => x.elim 0 fun e => ({P2V e.pa} : Multiset Page))
    (fun _ => none) (PTX 0) (some ⟨0x402, PTE_W ||| PTE_U⟩)
  have htables := Lib.sum_update_add
    (fun _ (x : Option PageTable) => x.elim 0 fun t => ({P2V t.pa} : Multiset Page))
    (fun _ => none) (PDX 0)
    (some ⟨0x401, update (fun _ => none) (PTX 0) (some ⟨0x402, PTE_W ||| PTE_U⟩)⟩)
  have hframes := Lib.sum_update_add (fun (i : Fin NPTENTRIES) (x : Option PageTable) =>
    if i.val < 512 then x.elim 0 PageTable.frames else 0) (fun _ => none) (PDX 0)
    (some ⟨0x401, update (fun _ => none) (PTX 0) (some ⟨0x402, PTE_W ||| PTE_U⟩)⟩)
  simp only [Option.elim_none, Option.elim_some, ite_self, Finset.sum_const_zero, add_zero,
    zero_add] at hptes htables hframes
  rw [if_pos (by decide), PageTable.frames, hptes] at hframes
  rw [Pgdir.all, Pgdir.kpages, Pgdir.uframes, onePage, htables, hframes]
  rfl

theorem userPages_oneUserPage : UserPages oneUserPage := by
  intro a ha
  have hpages : pages oneUserPage.sz = 1 := rfl
  rw [hpages, Nat.lt_one_iff]
  have hdiv : (PDX a).val = a.toNat / 1024 := rfl
  have hmod : (PTX a).val = a.toNat % 1024 := rfl
  change ((update (fun _ => none) (PDX 0) _ (PDX a)).bind _).isSome ↔ _
  by_cases hd : PDX a = PDX 0
  · have hd' : a.toNat / 1024 = 0 := hdiv.symm.trans (congrArg Fin.val hd)
    rw [hd, update_self, Option.bind_some]
    dsimp only
    by_cases ht : PTX a = PTX 0
    · have ht' : a.toNat % 1024 = 0 := hmod.symm.trans (congrArg Fin.val ht)
      rw [ht, update_self]
      exact iff_of_true rfl (by omega)
    · rw [update_of_ne ht]
      refine iff_of_false Bool.false_ne_true fun h0 => ht (Fin.ext ?_)
      rw [hmod, h0]
      rfl
  · rw [update_of_ne hd]
    refine iff_of_false Bool.false_ne_true fun h0 => hd (Fin.ext ?_)
    rw [hdiv, h0]
    rfl

theorem onePage_pages (n : ℕ) :
    (pageRange 0x80403 n : Multiset Page) + onePage.all = pageRange 0x80400 (n + 3) := by
  rw [onePage_all, pageRange_succ, pageRange_succ, pageRange_succ, add_comm]
  rfl

theorem managed_onePage {n : ℕ} (hn : n ≤ 0xD000) :
    Managed smallLayout (pageRange 0x80403 n + onePage.all) := by
  have hstop : (P2V PHYSTOP).toNat = 0x8E000 := rfl
  rw [onePage_pages]
  exact managed_pageRange (by decide) (show 0x80400 + (n + 3) ≤ _ by omega)

theorem held_onePage {n : ℕ} (hn : n ≤ 0xD000) :
    Held smallLayout (pageRange 0x80403 n + onePage.all) (freePages n) (onePage.all + 0) := by
  have hM := managed_onePage hn
  refine ⟨⟨coe_nodup.1 (nodup_add.1 hM.nodup).1, fun _ _ => rfl, fun v hv => ?_⟩, by rw [add_zero]; rfl⟩
  exact hM.low v (mem_add.2 (.inl (mem_coe.2 hv)))

theorem growproc_all_or_nothing_one :
    (growproc smallLayout 1 oneUserPage (freePages 1)).toOption.map (fun r => (r.1, r.2.1.sz)) =
        some (0, 4097) ∧
      Sure (AllOrNothing smallLayout (pageRange 0x80403 1 + onePage.all) 0 1 oneUserPage (freePages 1))
        (growproc smallLayout 1 oneUserPage (freePages 1)) ∧
      ¬Sure (AllOrNothing smallLayout (pageRange 0x80403 1 + onePage.all) 0 (-4096) oneUserPage (freePages 1))
        (growproc smallLayout (-4096) oneUserPage (freePages 1)) := by
  have h := fun n => growproc_all_or_nothing (managed_onePage (n := 1) (by decide)) oneUserPage n
    (by decide) (by decide) userPages_oneUserPage (held_onePage (by decide))
  exact ⟨by decide +kernel, (h 1).2 (by decide), fun hsure => absurd ((h (-4096)).1 hsure) (by decide)⟩

/-- **Down to nothing, and below.**  Giving back all of memory unmaps every page and then
fails; giving back more than there is succeeds and does nothing. -/
theorem growproc_to_zero :
    (growproc smallLayout (-4096) oneUserPage (freePages 1)).toOption.map
        (fun r => (r.1, r.2.1.sz, r.2.1.pgdir.lookup 0)) = some (-1, 4096, none) ∧
      (growproc smallLayout (-8192) oneUserPage (freePages 1)).toOption.map
        (fun r => (r.1, r.2.1.sz, r.2.1.pgdir.lookup 0)) = some (0, 4096, onePage.lookup 0) := by
  refine ⟨?_, ?_⟩ <;> decide +kernel

end Xv6.PageOwner
