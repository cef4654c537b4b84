import Xv6.Mem.Pages

/-!
# Copying to user memory

`uva2ka` and `copyout` of `vm.c`.  `uva2ka` looks at the entry that `walkpgdir` points to
without asking whether there is one.  When the page table is missing, the entry is read
through the null pointer; the model reports `wild` there and goes no further.

* `Copied` — what `copyout` does.
* `copyout_user_only` — it writes exactly when all the pages are user pages, and to
  user pages alone; it reads through the null pointer exactly when a page table is missing.
-/

namespace Xv6.Mem

open Function List

/-! ## The functions -/

/-- The offset of an address in its page. -/
def offOf (va : Addr) : Fin PGSIZE := ⟨va.toNat % PGSIZE, Nat.mod_lt _ (by decide)⟩

/-- `memmove` into a page from offset `o` on. -/
def Kmem.store (k : Kmem) (v : Page) (o : ℕ) (src : List UInt8) : Kmem :=
  { k with
    mem := update k.mem v fun j =>
      if o ≤ j.val ∧ j.val < o + src.length then src.getD (j.val - o) 0 else k.mem v j }

/-- What `uva2ka` comes to. -/
inductive Uva
  /-- The entry is read through the null pointer. -/
  | wild
  /-- The result is the null pointer. -/
  | null
  /-- The kernel address of the page. -/
  | page (v : Page)
  deriving DecidableEq

def uva2ka (pd : Pgdir) (a : Page) : Uva :=
  match pd.pde (PDX a) with
  | none => .wild
  | some t =>
    match t.pte (PTX a) with
    | none => .null
    | some e => if e.perm &&& PTE_U = 0 then .null else .page (P2V e.pa)

/-- What `copyout` returns: 0, -1, or nothing that can be told. -/
inductive Ret
  | ok
  | fail
  | wild
  deriving DecidableEq

/-- The loop of `copyout`.  Every round copies at least one byte, so as many rounds as
bytes are enough. -/
def copyoutLoop (pd : Pgdir) : ℕ → Addr → List UInt8 → Kmem → Ret × Kmem
  | 0, _, _, k => (.ok, k)
  | fuel + 1, va, src, k =>
    if src.length = 0 then (.ok, k)
    else
      match uva2ka pd (pageOf va) with
      | .wild => (.wild, k)
      | .null => (.fail, k)
      | .page v =>
        let n := min (PGSIZE - (offOf va).val) src.length
        copyoutLoop pd fuel (base (pageOf va + 1)) (src.drop n)
          (k.store v (offOf va).val (src.take n))

/-- `copyout` of the bytes `src` to `va`. -/
def copyout (pd : Pgdir) (va : Addr) (src : List UInt8) (k : Kmem) : Ret × Kmem :=
  copyoutLoop pd src.length va src k

/-! ## Addresses -/

variable {pd : Pgdir} {va : Addr} {src : List UInt8} {k : Kmem}

/-- The kernel page behind a user address, if it is present with `PTE_U`. -/
def userFrame (pd : Pgdir) (va : Addr) : Option Page :=
  ((pd.lookup (pageOf va)).filter fun e => e.perm &&& PTE_U ≠ 0).map fun e => P2V e.pa

/-- Address `i` after `va`, modulo the address space. -/
def after (va : Addr) (i : ℕ) : Addr := va + BitVec.ofNat 32 i

theorem toNat_after (va : Addr) (i : ℕ) : (after va i).toNat = (va.toNat + i) % 4294967296 := by
  rw [after, BitVec.toNat_add, BitVec.toNat_ofNat, Nat.add_mod_mod]

theorem toNat_pageOf (va : Addr) : (pageOf va).toNat = va.toNat / 4096 := by
  have hlt := va.isLt
  rw [pageOf, BitVec.toNat_ofNat]
  simp only [PGSIZE]
  omega

theorem val_offOf (va : Addr) : (offOf va).val = va.toNat % 4096 := rfl

theorem after_same {i : ℕ} (hi : i < 4096 - va.toNat % 4096) :
    pageOf (after va i) = pageOf va ∧ (offOf (after va i)).val = (offOf va).val + i := by
  have hlt := va.isLt
  refine ⟨BitVec.eq_of_toNat_eq ?_, ?_⟩
  · rw [toNat_pageOf, toNat_pageOf, toNat_after]
    omega
  · rw [val_offOf, val_offOf, toNat_after]
    omega

theorem after_next (va : Addr) (i : ℕ) :
    after (base (pageOf va + 1)) i = after va (4096 - va.toNat % 4096 + i) := by
  have hlt := va.isLt
  have hpage := toNat_pageOf va
  have hone : (1 : Page).toNat = 1 := rfl
  apply BitVec.eq_of_toNat_eq
  rw [toNat_after, toNat_after, base, BitVec.toNat_ofNat, BitVec.toNat_add, hpage, hone]
  simp only [PGSIZE]
  norm_num
  omega

theorem after_inj {i j : ℕ} (hi : i < 4294967296) (hj : j < 4294967296)
    (hpage : pageOf (after va i) = pageOf (after va j))
    (hoff : offOf (after va i) = offOf (after va j)) : i = j := by
  have hp := congrArg BitVec.toNat hpage
  have ho := congrArg Fin.val hoff
  rw [toNat_pageOf, toNat_pageOf, toNat_after, toNat_after] at hp
  rw [val_offOf, val_offOf, toNat_after, toNat_after] at ho
  have hlt := va.isLt
  omega

theorem userFrame_congr {va va' : Addr} (h : pageOf va = pageOf va') :
    userFrame pd va = userFrame pd va' := by
  rw [userFrame, userFrame, h]

theorem uva2ka_page {v : Page} : uva2ka pd (pageOf va) = .page v ↔ userFrame pd va = some v := by
  rw [uva2ka, userFrame, Pgdir.lookup]
  cases pd.pde (PDX (pageOf va)) with
  | none => simp
  | some t =>
    cases he : t.pte (PTX (pageOf va)) with
    | none => simp [he]
    | some e =>
      by_cases hu : e.perm &&& PTE_U = 0#12 <;> simp [he, hu]

theorem uva2ka_wild : uva2ka pd (pageOf va) = .wild ↔ pd.pde (PDX (pageOf va)) = none := by
  rw [uva2ka]
  cases pd.pde (PDX (pageOf va)) with
  | none => simp
  | some t =>
    cases he : t.pte (PTX (pageOf va)) with
    | none => simp [he]
    | some e =>
      by_cases hu : e.perm &&& PTE_U = 0#12 <;> simp [he, hu]

/-! ## What `copyout` does -/

/-- Up to the first page that is not a user page, there are page tables. -/
def Tables (pd : Pgdir) (va : Addr) (n : ℕ) : Prop :=
  ∀ i, i < n → (∀ j, j < i → (userFrame pd (after va j)).isSome) →
    pd.pde (PDX (pageOf (after va i))) ≠ none

/-- **What `copyout` does.** -/
structure Copied (pd : Pgdir) (va : Addr) (src : List UInt8) (k : Kmem) (r : Ret) (k' : Kmem) :
    Prop where
  tame : r ≠ .wild ↔ Tables pd va src.length
  ok_iff : r = .ok ↔ ∀ i, i < src.length → (userFrame pd (after va i)).isSome
  freelist : k'.freelist = k.freelist
  use : k'.use = k.use
  rest : ∀ v o, (∀ i, i < src.length →
    ¬(userFrame pd (after va i) = some v ∧ offOf (after va i) = o)) → k'.mem v o = k.mem v o
  /-- The bytes are there, unless two of the pages are one. -/
  bytes : r = .ok → (∀ i j, i < src.length → j < src.length →
      userFrame pd (after va i) = userFrame pd (after va j) →
      pageOf (after va i) = pageOf (after va j)) →
    ∀ i (h : i < src.length) v, userFrame pd (after va i) = some v →
      k'.mem v (offOf (after va i)) = src[i]

theorem mem_store {v w : Page} {o : ℕ} {j : Fin PGSIZE} (h : w ≠ v ∨ j.val < o ∨ o + src.length ≤ j.val) :
    (k.store v o src).mem w j = k.mem w j := by
  by_cases hw : w = v
  · subst hw
    have hout := h.resolve_left fun hne => hne rfl
    change update k.mem w _ w j = _
    rw [update_self, if_neg (by omega)]
  · change update k.mem v _ w j = _
    rw [update_of_ne hw]

theorem mem_store_of_lt {v : Page} {o i : ℕ} {j : Fin PGSIZE} (hi : i < src.length) (hj : j.val = o + i) :
    (k.store v o src).mem v j = src[i] := by
  change update k.mem v _ v j = _
  rw [update_self, if_pos (by omega), hj, Nat.add_sub_cancel_left,
    getD_eq_getElem _ _ hi]

theorem Copied.round {v : Page} {r : Ret} {k' : Kmem} (hlen : src.length < 4294967296)
    (hv : userFrame pd va = some v)
    (h : Copied pd (base (pageOf va + 1))
      (src.drop (min (PGSIZE - (offOf va).val) src.length))
      (k.store v (offOf va).val (src.take (min (PGSIZE - (offOf va).val) src.length))) r k') :
    Copied pd va src k r k' := by
  have hmod : va.toNat % 4096 < 4096 := Nat.mod_lt _ (by decide)
  have hsize : PGSIZE = 4096 := rfl
  rw [val_offOf, hsize] at h
  generalize hn : min (4096 - va.toNat % 4096) src.length = n at h
  -- the bytes of this round and those of the later ones
  have hhead : ∀ {i}, i < n → userFrame pd (after va i) = some v ∧
      (offOf (after va i)).val = va.toNat % 4096 + i := by
    intro i hi
    obtain ⟨hpage, hoff⟩ := after_same (show i < 4096 - va.toNat % 4096 by omega)
    exact ⟨(userFrame_congr hpage).trans hv, hoff⟩
  have htail : ∀ {i}, i < src.length - n →
      after (base (pageOf va + 1)) i = after va (n + i) := by
    intro i hi
    rw [after_next]
    congr 1
    omega
  have hsplit : ∀ (p : ℕ → Prop), (∀ i, i < src.length → p i) ↔
      (∀ i, i < n → p i) ∧ ∀ i, i < src.length - n → p (n + i) := by
    intro p
    constructor
    · exact fun hp => ⟨fun i hi => hp i (by omega), fun i hi => hp _ (by omega)⟩
    · rintro ⟨h₁, h₂⟩ i hi
      by_cases hin : i < n
      · exact h₁ i hin
      · have := h₂ (i - n) (by omega)
        rwa [Nat.add_sub_cancel' (by omega)] at this
  have hdrop : (src.drop n).length = src.length - n := length_drop
  have htake : (src.take n).length = n := by
    rw [length_take]
    omega
  refine ⟨h.tame.trans ⟨fun htable i hi hbefore => ?_, fun htable i hi hbefore => ?_⟩, ?_,
    h.freelist, h.use, fun w o hno => ?_, fun hok hinj i hi w hw => ?_⟩
  · by_cases hin : i < n
    · -- a user page has a page table
      intro hnone
      have hframe := (hhead hin).1
      rw [userFrame, Pgdir.lookup, hnone] at hframe
      cases hframe
    · have := htable (i - n) (by omega) fun j hj => by
        rw [htail (by omega)]
        exact hbefore _ (by omega)
      rwa [htail (by omega), Nat.add_sub_cancel' (by omega)] at this
  · rw [htail (by omega)]
    refine htable _ (by omega) fun j hj => ?_
    by_cases hin : j < n
    · rw [(hhead hin).1]
      rfl
    · have := hbefore (j - n) (by omega)
      rwa [htail (by omega), Nat.add_sub_cancel' (by omega)] at this
  · rw [h.ok_iff, hsplit]
    constructor
    · intro hall
      refine ⟨fun i hi => by rw [(hhead hi).1]; rfl, fun i hi => ?_⟩
      rw [← htail hi]
      exact hall i (by omega)
    · rintro ⟨-, hall⟩ i hi
      rw [htail (by omega)]
      exact hall i (by omega)
  · rw [h.rest w o fun i hi => by
      rw [htail (by omega)]
      exact hno _ (by omega)]
    refine mem_store ?_
    by_contra hin
    rw [not_or, not_or, not_not] at hin
    obtain ⟨hwv, hlow, hhigh⟩ := hin
    rw [htake] at hhigh
    refine hno (o.val - va.toNat % 4096) (by omega) ⟨?_, Fin.ext ?_⟩
    · rw [hwv]
      exact (hhead (by omega)).1
    · rw [(hhead (by omega)).2]
      omega
  · by_cases hin : i < n
    · rw [(hhead hin).1, Option.some.injEq] at hw
      subst hw
      rw [h.rest v _ ?_, mem_store_of_lt (i := i) (by omega) (hhead hin).2, getElem_take]
      rintro j hj ⟨hframe, hoff⟩
      rw [htail (by omega)] at hframe hoff
      have hpage := hinj (n + j) i (by omega) hi (by rw [hframe, (hhead hin).1])
      have := after_inj (by omega) (by omega) hpage hoff
      omega
    · have hw' : userFrame pd (after (base (pageOf va + 1)) (i - n)) = some w := by
        rw [htail (by omega), Nat.add_sub_cancel' (by omega)]
        exact hw
      have hbyte := h.bytes hok (fun a b ha hb => by
        rw [htail (by omega), htail (by omega)]
        exact hinj _ _ (by omega) (by omega)) (i - n) (by omega) w hw'
      rw [htail (by omega), Nat.add_sub_cancel' (by omega)] at hbyte
      rw [hbyte, getElem_drop]
      congr 1
      omega

theorem copyoutLoop_copied (fuel : ℕ) : ∀ (va : Addr) (src : List UInt8) (k : Kmem),
    src.length ≤ fuel → src.length < 4294967296 →
    Copied pd va src k (copyoutLoop pd fuel va src k).1 (copyoutLoop pd fuel va src k).2 := by
  have hnil : ∀ {va : Addr} {src : List UInt8} {k : Kmem}, src.length = 0 →
      Copied pd va src k .ok k := by
    intro va src k h0
    refine ⟨iff_of_true (by rintro ⟨⟩) fun i hi => ?_, ⟨fun _ i hi => ?_, fun _ => rfl⟩, rfl, rfl,
      fun _ _ _ => rfl, fun _ _ i hi => ?_⟩
    all_goals omega
  induction fuel with
  | zero =>
    intro va src k hfuel _
    exact hnil (Nat.le_zero.1 hfuel)
  | succ fuel ih =>
    intro va src k hfuel hlen
    rw [copyoutLoop]
    by_cases h0 : src.length = 0
    · rw [if_pos h0]
      exact hnil h0
    rw [if_neg h0]
    have hzero : after va 0 = va := by
      rw [after]
      exact BitVec.add_zero va
    have hstop : ∀ {r : Ret}, r ≠ .ok → (r ≠ .wild ↔ pd.pde (PDX (pageOf va)) ≠ none) →
        userFrame pd va = none → Copied pd va src k r k := by
      intro r hr htame hnone
      refine ⟨htame.trans ⟨fun htable i hi hbefore => ?_, fun htable => ?_⟩,
        ⟨fun hok => absurd hok hr, fun hall => ?_⟩, rfl, rfl, fun _ _ _ => rfl,
        fun hok => absurd hok hr⟩
      · -- the page at `va` is not a user page, and no page after it counts
        rcases Nat.eq_zero_or_pos i with rfl | hpos
        · rwa [hzero]
        · have := hbefore 0 hpos
          rw [hzero, hnone] at this
          cases this
      · have := htable 0 (by omega) fun j hj => absurd hj (Nat.not_lt_zero j)
        rwa [hzero] at this
      · have := hall 0 (by omega)
        rw [hzero, hnone] at this
        cases this
    cases huva : uva2ka pd (pageOf va) with
    | wild =>
      have hnone : userFrame pd va = none := by
        rw [userFrame, Pgdir.lookup, uva2ka_wild.1 huva]
        rfl
      exact hstop (by rintro ⟨⟩) (iff_of_false (fun h => h rfl) fun h => h (uva2ka_wild.1 huva))
        hnone
    | null =>
      have htable : pd.pde (PDX (pageOf va)) ≠ none := fun hnone => by
        rw [uva2ka_wild.2 hnone] at huva
        cases huva
      refine hstop (by rintro ⟨⟩) (iff_of_true (by rintro ⟨⟩) htable) ?_
      rw [Option.eq_none_iff_forall_ne_some]
      intro v hv
      rw [uva2ka_page.2 hv] at huva
      cases huva
    | page v =>
      have hmod : va.toNat % 4096 < 4096 := Nat.mod_lt _ (by decide)
      have hoff : (offOf va).val = va.toNat % 4096 := rfl
      have hsize : PGSIZE = 4096 := rfl
      have hdrop : (src.drop (min (PGSIZE - (offOf va).val) src.length)).length =
          src.length - min (PGSIZE - (offOf va).val) src.length := length_drop
      exact Copied.round hlen (uva2ka_page.1 huva) (ih _ _ _ (by omega) (by omega))

theorem copyout_copied (pd : Pgdir) (va : Addr) (k : Kmem) (hlen : src.length < 4294967296) :
    Copied pd va src k (copyout pd va src k).1 (copyout pd va src k).2 :=
  copyoutLoop_copied _ va src k le_rfl hlen

/-! ## The result -/

/-- **`copyout` goes through user mappings only**, exactly when it comes to no page without a
page table.  It returns 0 if and only if all pages are user pages, and then the bytes are
there; it changes nothing else. -/
theorem copyout_user_only (pd : Pgdir) (va : Addr) (src : List UInt8) (k : Kmem)
    (hlen : src.length < 4294967296) :
    ((copyout pd va src k).1 ≠ .wild ↔ Tables pd va src.length) ∧
      Copied pd va src k (copyout pd va src k).1 (copyout pd va src k).2 :=
  ⟨(copyout_copied pd va k hlen).tame, copyout_copied pd va k hlen⟩

/-- A directory with one user page. -/
def onePage : Pgdir :=
  ⟨0x80400, update (fun _ => none) (PDX 0)
    (some ⟨0x401, update (fun _ => none) (PTX 0) (some ⟨0x402, PTE_W ||| PTE_U⟩)⟩)⟩

/-- No page is free, and all pages are zero. -/
def noPages : Kmem := ⟨[], fun _ _ => 0, fun _ => none⟩

/-- A write into the page, and one that runs over its end. -/
theorem copyout_user_only_one :
    (copyout onePage 4 [7, 8] noPages).1 = .ok ∧ Tables onePage 4 2 ∧
      (copyout onePage 4094 [7, 8, 9] noPages).1 = .fail ∧ Tables onePage 4094 3 ∧
      Copied onePage 4094 [7, 8, 9] noPages .fail (copyout onePage 4094 [7, 8, 9] noPages).2 := by
  have hok : (copyout onePage 4 [7, 8] noPages).1 = .ok := by decide +kernel
  have hfail : (copyout onePage 4094 [7, 8, 9] noPages).1 = .fail := by decide +kernel
  have h := copyout_user_only onePage 4 [7, 8] noPages (by decide)
  have h' := copyout_user_only onePage 4094 [7, 8, 9] noPages (by decide)
  refine ⟨hok, h.1.1 ?_, hfail, h'.1.1 ?_, hfail ▸ h'.2⟩
  · rw [hok]
    rintro ⟨⟩
  · rw [hfail]
    rintro ⟨⟩

/-- **A missing page table is not noticed.**  With an argument of 64 MB, `exec` copies to
`sp` in a region of the kernel half for which there is no page table; `copyout` then reads
the entry through the null pointer. -/
theorem copyout_wild : ((0x3000 - (0x4000000 + 1)) &&& ~~~3 : Addr) = 0xFC002FFC ∧
    onePage.pde (PDX (pageOf 0xFC002FFC)) = none ∧
      (copyout onePage 0xFC002FFC [7] noPages).1 = .wild := by
  refine ⟨by decide, ?_, ?_⟩ <;> decide +kernel

end Xv6.Mem
