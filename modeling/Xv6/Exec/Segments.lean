import Xv6.Exec.Load

/-!
# The loop over the program headers

The headers are any bytes.  `Loaded` is what holds after some of them: user memory is mapped
up to the size so far and nothing above it, and every byte below is what the last segment
over it says, or zero (`expected`).

* `loadSegment_sure` — one segment; `loadProgram_sure` — all of them.
* `addStack_sure` — then the two pages for the stack (`Stack`).
-/

namespace Xv6.Exec

open Xv6.Lib Xv6.Mem Option
open BitVec (lt_def ofNat toNat_ofNat)

/-! ## What is to be in memory -/

/-- Header `j` of a file. -/
def header (c : List UInt8) (phoff : Addr) (j : ℕ) : Proghdr :=
  .ofBytes ((c.drop (phoff + ofNat 32 (sizeofProghdr * j)).toNat).take sizeofProghdr)

/-- Address `x` is in the file range of a segment. -/
def Proghdr.Covers (ph : Proghdr) (x : ℕ) : Prop :=
  ph.type = ELF_PROG_LOAD ∧ ph.vaddr.toNat ≤ x ∧ x < ph.vaddr.toNat + ph.filesz.toNat

instance (ph : Proghdr) (x : ℕ) : Decidable (ph.Covers x) := by
  unfold Proghdr.Covers
  infer_instance

/-- The byte at `x` after the first `m` headers. -/
def expected (c : List UInt8) (ph : ℕ → Proghdr) : ℕ → ℕ → UInt8
  | 0, _ => 0
  | m + 1, x =>
    if (ph m).Covers x then c.getD ((ph m).off.toNat + (x - (ph m).vaddr.toNat)) 0
    else expected c ph m x

theorem expected_zero {c : List UInt8} {ph : ℕ → Proghdr} {m x : ℕ}
    (h : ∀ j, j < m → ¬(ph j).Covers x) : expected c ph m x = 0 := by
  induction m with
  | zero => rfl
  | succ m ih =>
    rw [expected, if_neg (h m (Nat.lt_succ_self m))]
    exact ih fun j hj => h j (Nat.lt_succ_of_lt hj)

theorem expected_last {c : List UInt8} {ph : ℕ → Proghdr} {m j x : ℕ} (hj : j < m)
    (hat : (ph j).Covers x) (hlast : ∀ l, j < l → l < m → ¬(ph l).Covers x) :
    expected c ph m x = c.getD ((ph j).off.toNat + (x - (ph j).vaddr.toNat)) 0 := by
  induction m with
  | zero => omega
  | succ m ih =>
    rw [expected]
    by_cases hjm : j = m
    · rw [← hjm, if_pos hat]
    · rw [if_neg (hlast m (by omega) (Nat.lt_succ_self m))]
      exact ih (by omega) fun l hl hl' => hlast l hl (by omega)

/-- **The new image** of size `sz` after `m` headers. -/
structure Loaded (c : List UInt8) (ph : ℕ → Proghdr) (m sz : ℕ) (k : Kmem) (pd : Pgdir) : Prop where
  size : sz ≤ 2147483648
  mapped : ∀ b, b < pages sz → ∃ e, pd.lookup (ofNat 20 b) = some e ∧ e.perm = PTE_W ||| PTE_U
  free : ∀ b : Page, pages sz ≤ b.toNat → b < KERNBASE → pd.lookup b = none
  kernel : ∀ (b : Page) (e : Pte), KERNBASE ≤ b → pd.lookup b = some e → e.perm &&& PTE_U = 0
  device : pd.lookup 0xfffff ≠ none
  bytes : ∀ x, x < pages sz * PGSIZE → byteAt pd k x = some (expected c ph m x)
  /-- Segments are within the image, and their bytes within the file. -/
  within : ∀ j, j < m → (ph j).type = ELF_PROG_LOAD →
    (ph j).vaddr.toNat + (ph j).filesz.toNat ≤ sz ∧
      ((ph j).filesz.toNat = 0 ∨ (ph j).off.toNat + (ph j).filesz.toNat ≤ c.length)

variable {L : Layout} {M X : Multiset Page} {k k' : Kmem} {pd pd' : Pgdir} {read : Read}
  {c : List UInt8} {ph : ℕ → Proghdr} {m sz newsz : ℕ}

theorem pages_eq (sz : ℕ) : pages sz = (sz + 4095) / 4096 := by
  rw [pages, show PGSIZE = 4096 from rfl]
  omega

theorem Loaded.above (h : Loaded c ph m sz k pd) {x : ℕ} (hx : sz ≤ x) : expected c ph m x = 0 := by
  refine expected_zero fun j hj hat => ?_
  have hwithin := (h.within j hj hat.1).1
  have hlt := hat.2.2
  omega

theorem Loaded.grow (h : Loaded c ph m sz k pd) (hle : sz ≤ newsz)
    (hnew : newsz ≤ 2147483648)
    (hm : Mapped X k pd k' pd' (pages sz) (pages newsz)) : Loaded c ph m newsz k' pd' := by
  have hK : KERNBASE.toNat = 524288 := rfl
  have hsize : PGSIZE = 4096 := rfl
  have hold := pages_eq sz
  have hpages := pages_eq newsz
  have hmod : ∀ b, b < 524288 → (ofNat 20 b : Page).toNat = b := by
    intro b hb
    rw [toNat_ofNat]
    omega
  refine ⟨hnew, fun b hb => ?_, fun b hb hk => ?_, fun b e hk he => ?_, ?_,
    fun x hx => ?_, fun j hj ht => ?_⟩
  · by_cases hlt : b < pages sz
    · rw [hm.kept.lookup _ (.inl (by rw [hmod b (by omega)]; exact hlt))]
      exact h.mapped b hlt
    · have hb' := hmod b (by omega)
      obtain ⟨e, he, hperm, -⟩ := hm.fresh (ofNat 20 b) (by omega) (by omega)
      exact ⟨e, he, hperm⟩
  · rw [hm.kept.lookup b (.inr hb)]
    exact h.free b (by omega) hk
  · have hk' := BitVec.le_def.1 hk
    rw [hm.kept.lookup b (.inr (by omega))] at he
    exact h.kernel b e hk he
  · have hdev : (0xfffff : Page).toNat = 1048575 := rfl
    rw [hm.kept.lookup _ (.inr (by omega))]
    exact h.device
  · rw [hsize] at hx
    have hb := hmod (x / 4096) (by omega)
    have hbk : (ofNat 20 (x / 4096) : Page) < KERNBASE := by
      rw [lt_def, hb]
      omega
    have hbelow : x / 4096 < pages sz → x < pages sz * 4096 := by omega
    have habove : ¬x / 4096 < pages sz → sz ≤ x := by omega
    have hdiv : x / PGSIZE = x / 4096 := rfl
    by_cases hlt : x / 4096 < pages sz
    · have hold := h.bytes x (hbelow hlt)
      have hkept := hm.kept.lookup (ofNat 20 (x / 4096)) (.inl (by omega))
      obtain ⟨e, he, -⟩ := h.mapped _ hlt
      rw [byteAt, hdiv, he] at hold
      rw [byteAt, hdiv, hkept, he, ← hold, map_some, map_some,
        hm.kept.mem _ (.inl (by omega)) hbk e he]
    · obtain ⟨e, he, -, hzero⟩ := hm.fresh (ofNat 20 (x / 4096)) (by omega) (by omega)
      rw [byteAt, hdiv, he, map_some, hzero, h.above (habove hlt)]
  · obtain ⟨hend, hin⟩ := h.within j hj ht
    exact ⟨by omega, hin⟩

theorem allocuvm_loaded (hM : Managed L M) (h : Loaded c ph m sz k pd)
    (hheld : Held L M k (pd.all + X)) :
    Sure (fun r => Held L M r.2.1 (r.2.2.all + X) ∧ (∀ v ∈ X, r.2.1.mem v = k.mem v) ∧
        (r.1 = 0 ∨ Loaded c ph m r.1 r.2.1 r.2.2 ∧ r.1 = max sz newsz ∧ newsz < 2147483648))
      (allocuvm L sz newsz k pd) := by
  by_cases hle : sz ≤ newsz
  · refine (allocuvm_sure hM hle h.free hheld).mono ?_
    rintro ⟨n, k₁, pd₁⟩ ⟨h₁, ⟨hn, hkept⟩ | ⟨hn, hlt, hmapped⟩⟩
    · exact ⟨h₁, hkept.other, .inl hn⟩
    · obtain rfl : n = newsz := hn
      have hnew : n < 2147483648 := hlt
      exact ⟨h₁, hmapped.kept.other,
        .inr ⟨h.grow hle hnew.le hmapped, (Nat.max_eq_right hle).symm, hnew⟩⟩
  · rw [allocuvm]
    by_cases hbig : KERNBASE.toNat * PGSIZE ≤ newsz
    · rw [if_pos hbig]
      exact ⟨hheld, fun _ _ => rfl, .inl rfl⟩
    · have hnew : newsz < 2147483648 := Nat.lt_of_not_le hbig
      rw [if_neg hbig, if_pos (Nat.lt_of_not_le hle)]
      exact ⟨hheld, fun _ _ => rfl, .inr ⟨h, (Nat.max_eq_left (Nat.le_of_not_le hle)).symm, hnew⟩⟩

theorem Loaded.load (h : Loaded c ph m sz k pd) (ht : (ph m).type = ELF_PROG_LOAD)
    (hend : (ph m).vaddr.toNat + (ph m).filesz.toNat ≤ sz)
    (hload : SegmentLoaded pd k c (ph m).vaddr.toNat (ph m).off.toNat (ph m).filesz.toNat k') :
    Loaded c ph (m + 1) sz k' pd := by
  refine ⟨h.size, h.mapped, h.free, h.kernel, h.device, fun x hx => ?_, fun j hj hjt => ?_⟩
  · have hpages := pages_eq sz
    have hsize : PGSIZE = 4096 := rfl
    have hsz := h.size
    rw [hsize] at hx
    rw [hload.bytes x (by omega), expected]
    by_cases hin : (ph m).vaddr.toNat ≤ x ∧ x < (ph m).vaddr.toNat + (ph m).filesz.toNat
    · rw [if_pos hin, if_pos ⟨ht, hin⟩]
    · rw [if_neg hin, if_neg fun hat => hin hat.2]
      exact h.bytes x (by rw [hsize]; exact hx)
  · by_cases hjm : j = m
    · rw [hjm]
      exact ⟨hend, hload.inFile⟩
    · exact h.within j (by omega) hjt

theorem loadSegment_sure (hM : Managed L M) (hread : ∀ off n, read off n = .ok (readAt c off n))
    (h : Loaded c ph m sz k pd) (ht : (ph m).type = ELF_PROG_LOAD)
    (hheld : Held L M k (pd.all + X)) :
    Sure (fun r => Held L M r.2.1 (r.2.2.all + X) ∧ (∀ v ∈ X, r.2.1.mem v = k.mem v) ∧
        ∀ n, r.1 = some n → Loaded c ph (m + 1) n r.2.1 r.2.2)
      (loadSegment L read (ph m) sz k pd) := by
  have hbad : ∀ {k₁ : Kmem} {pd₁ : Pgdir}, Held L M k₁ (pd₁.all + X) →
      (∀ v ∈ X, k₁.mem v = k.mem v) →
      Sure (fun r : Option ℕ × Kmem × Pgdir => Held L M r.2.1 (r.2.2.all + X) ∧
        (∀ v ∈ X, r.2.1.mem v = k.mem v) ∧ ∀ n, r.1 = some n → Loaded c ph (m + 1) n r.2.1 r.2.2)
      (.ok (none, k₁, pd₁) : Except Crash _) := fun h₁ hmem => ⟨h₁, hmem, fun _ hn => nomatch hn⟩
  rw [loadSegment]
  by_cases hmemsz : (ph m).memsz < (ph m).filesz
  · rw [if_pos hmemsz]
    exact hbad hheld fun _ _ => rfl
  rw [if_neg hmemsz]
  by_cases hwrap : (ph m).vaddr + (ph m).memsz < (ph m).vaddr
  · rw [if_pos hwrap]
    exact hbad hheld fun _ _ => rfl
  rw [if_neg hwrap]
  have hadd : ((ph m).vaddr + (ph m).memsz).toNat = (ph m).vaddr.toNat + (ph m).memsz.toNat := by
    rw [lt_def, BitVec.toNat_add] at hwrap
    have h₁ := (ph m).vaddr.isLt
    have h₂ := (ph m).memsz.isLt
    rw [BitVec.toNat_add]
    omega
  rw [lt_def] at hmemsz
  refine (sure_lift (allocuvm_loaded hM h hheld)).bind ?_
  rintro ⟨n, k₁, pd₁⟩ ⟨h₁, hmem, hr⟩
  dsimp only at h₁ hmem hr ⊢
  by_cases hn : n = 0
  · rw [if_pos hn]
    exact hbad h₁ hmem
  rw [if_neg hn]
  by_cases halign : (ph m).vaddr.toNat % PGSIZE ≠ 0
  · rw [if_pos halign]
    exact hbad h₁ hmem
  rw [if_neg halign]
  obtain ⟨hloaded, hmax, -⟩ := hr.resolve_left hn
  rw [hadd] at hmax
  have hsize : PGSIZE = 4096 := rfl
  have hpages := pages_eq n
  have hsz := hloaded.size
  refine (loaduvm_sure hM hread (not_not.1 halign) (by omega) (fun b hb => ?_) h₁).bind ?_
  · rw [hsize] at hb
    obtain ⟨e, he, -⟩ := hloaded.mapped b (by omega)
    exact ⟨e, he⟩
  · rintro ⟨ok, k₂⟩ ⟨h₂, hmem₂, hseg⟩
    refine ⟨h₂, fun v hv => (hmem₂ v hv).trans (hmem v hv), fun n' hn' => ?_⟩
    cases ok with
    | false => exact nomatch hn'
    | true =>
      obtain rfl : n = n' := Option.some.inj hn'
      exact hloaded.load ht (by omega) (hseg rfl)

theorem loadProgram_sure (hM : Managed L M) (hread : ∀ off n, read off n = .ok (readAt c off n))
    (phoff : Addr) (n : ℕ) : ∀ {m sz : ℕ} {k : Kmem} {pd : Pgdir},
      Loaded c (header c phoff) m sz k pd → Held L M k (pd.all + X) →
      Sure (fun r => Held L M r.2.1 (r.2.2.all + X) ∧ (∀ v ∈ X, r.2.1.mem v = k.mem v) ∧
          ∀ sz', r.1 = some sz' → Loaded c (header c phoff) (m + n) sz' r.2.1 r.2.2)
        (loadProgram L read n (phoff + ofNat 32 (sizeofProghdr * m)) sz k pd) := by
  induction n with
  | zero =>
    intro m sz k pd h hheld
    refine ⟨hheld, fun _ _ => rfl, fun sz' hs => ?_⟩
    obtain rfl : sz = sz' := Option.some.inj hs
    exact h
  | succ n ih =>
    intro m sz k pd h hheld
    have hnext : phoff + ofNat 32 (sizeofProghdr * m) + ofNat 32 sizeofProghdr =
        phoff + ofNat 32 (sizeofProghdr * (m + 1)) := by
      rw [BitVec.add_assoc, ← BitVec.ofNat_add, Nat.mul_succ]
    rw [loadProgram, hread]
    generalize hx : readAt c (phoff + ofNat 32 (sizeofProghdr * m))
      (ofNat 32 sizeofProghdr) = x
    obtain ⟨r, bytes⟩ := x
    change Sure _ (if r ≠ sizeofProghdr then _ else _)
    by_cases hr : r ≠ sizeofProghdr
    · rw [if_pos hr]
      exact ⟨hheld, fun _ _ => rfl, fun _ hs => nomatch hs⟩
    rw [if_neg hr]
    have hall : (readAt c (phoff + ofNat 32 (sizeofProghdr * m))
        (ofNat 32 sizeofProghdr)).1 = (ofNat 32 sizeofProghdr : Addr).toNat := by
      rw [hx]
      exact not_not.1 hr
    have hbytes : Proghdr.ofBytes bytes = header c phoff m := by
      have hfull := (readAt_full hall).2.2
      rw [hx] at hfull
      exact congrArg Proghdr.ofBytes hfull
    rw [hbytes, hnext]
    by_cases ht : (header c phoff m).type ≠ ELF_PROG_LOAD
    · rw [if_pos ht]
      have hskip : Loaded c (header c phoff) (m + 1) sz k pd := by
        refine ⟨h.size, h.mapped, h.free, h.kernel, h.device, fun x hx => ?_, fun j hj hjt => ?_⟩
        · rw [expected, if_neg fun hat => ht hat.1]
          exact h.bytes x hx
        · have hjm : j ≠ m := by
            rintro rfl
            exact ht hjt
          exact h.within j (by omega) hjt
      refine (ih hskip hheld).mono fun r hr => ⟨hr.1, hr.2.1, fun sz' hs => ?_⟩
      rw [Nat.add_comm n 1, ← Nat.add_assoc]
      exact hr.2.2 sz' hs
    rw [if_neg ht]
    refine (loadSegment_sure hM hread h (not_not.1 ht) hheld).bind ?_
    rintro ⟨o, k₁, pd₁⟩ ⟨h₁, hmem, hload⟩
    cases o with
    | none => exact ⟨h₁, hmem, fun _ hs => nomatch hs⟩
    | some sz₁ =>
      refine (ih (hload sz₁ rfl) h₁).mono fun r hr =>
        ⟨hr.1, fun v hv => (hr.2.1 v hv).trans (hmem v hv), fun sz' hs => ?_⟩
      rw [Nat.add_comm n 1, ← Nat.add_assoc]
      exact hr.2.2 sz' hs

/-! ## The stack -/

theorem Loaded.round (h : Loaded c ph m sz k pd) : Loaded c ph m (pages sz * PGSIZE) k pd := by
  have hsize : PGSIZE = 4096 := rfl
  have hpages := pages_eq sz
  have hsz := h.size
  rw [hsize]
  have hsame : pages (pages sz * 4096) = pages sz := by
    rw [pages_eq (pages sz * 4096)]
    omega
  refine ⟨by omega, ?_, ?_, h.kernel, h.device, ?_, fun j hj ht => ?_⟩
  · rw [hsame]
    exact h.mapped
  · rw [hsame]
    exact h.free
  · rw [hsame]
    exact h.bytes
  · obtain ⟨hend, hin⟩ := h.within j hj ht
    exact ⟨by omega, hin⟩

theorem clearpteu_mapped {a : Page} {e : Pte} (he : pd.lookup a = some e) :
    ∃ pd', clearpteu a pd = .ok pd' ∧
      pd'.lookup a = some { e with perm := e.perm &&& ~~~PTE_U } ∧
      ∀ b, b ≠ a → pd'.lookup b = pd.lookup b := by
  obtain ⟨t, ht, hte⟩ := bind_eq_some_iff.1 he
  refine ⟨_, by rw [clearpteu, ht], ?_, fun b hb => lookup_setPte_of_ne ht hb⟩
  rw [lookup_setPte_self, hte]
  rfl

/-- The image with its stack, when the arguments are to be put there. -/
structure Staged (c : List UInt8) (ph : ℕ → Proghdr) (m sz : ℕ) (k : Kmem) (pd : Pgdir) :
    Prop where
  stack : ∃ e, pd.lookup (ofNat 20 (sz / 4096 - 1)) = some e ∧ Stack pd sz (P2V e.pa)
  bytes : ∀ x, x < sz - 8192 → byteAt pd k x = some (expected c ph m x)
  within : ∀ j, j < m → (ph j).type = ELF_PROG_LOAD →
    (ph j).vaddr.toNat + (ph j).filesz.toNat ≤ sz - 8192 ∧
      ((ph j).filesz.toNat = 0 ∨ (ph j).off.toNat + (ph j).filesz.toNat ≤ c.length)

theorem userFrame_of_perm {a : Addr} {e : Pte} (he : pd.lookup (pageOf a) = some e)
    (hp : e.perm = PTE_W ||| PTE_U) : userFrame pd a = some (P2V e.pa) := by
  rw [userFrame, he, filter_some, if_pos]
  · rfl
  · rw [hp]
    decide

theorem userFrame_of_no_perm {a : Addr}
    (h : ∀ e, pd.lookup (pageOf a) = some e → e.perm &&& PTE_U = 0) : userFrame pd a = none := by
  rw [userFrame]
  cases he : pd.lookup (pageOf a) with
  | none => rfl
  | some e =>
    rw [filter_some, if_neg]
    · rfl
    · simp [h e he]

theorem pde_of_lookup {a : Page} (h : pd.lookup a ≠ none) : pd.pde (PDX a) ≠ none := by
  intro hnone
  rw [Pgdir.lookup, hnone] at h
  exact h rfl

theorem Loaded.staged (h : Loaded c ph m sz k pd) (hlt : sz < 2147483648) (hal : sz % 4096 = 0)
    (hlow : 8192 ≤ sz) (hwithin : ∀ j, j < m → (ph j).type = ELF_PROG_LOAD →
      (ph j).vaddr.toNat + (ph j).filesz.toNat ≤ sz - 8192)
    {e : Pte} (hself : pd'.lookup (ofNat 20 (sz / 4096 - 2)) =
      some { e with perm := e.perm &&& ~~~PTE_U })
    (hsame : ∀ b, b ≠ ofNat 20 (sz / 4096 - 2) → pd'.lookup b = pd.lookup b) :
    Staged c ph m sz k pd' := by
  have hK : KERNBASE.toNat = 524288 := rfl
  have hpages := pages_eq sz
  have hmod : ∀ b, b < 524288 → (ofNat 20 b : Page).toNat = b := by
    intro b hb
    rw [toNat_ofNat]
    omega
  have hguard := hmod (sz / 4096 - 2) (by omega)
  have hne : ∀ b : Page, b.toNat ≠ sz / 4096 - 2 → b ≠ ofNat 20 (sz / 4096 - 2) := by
    rintro b hb rfl
    exact hb hguard
  have hpage : ∀ a : Addr, pageOf a = ofNat 20 (a.toNat / 4096) := fun _ => rfl
  obtain ⟨e₁, he₁, hp₁⟩ := h.mapped (sz / 4096 - 1) (by omega)
  have htop : pd'.lookup (ofNat 20 (sz / 4096 - 1)) = some e₁ := by
    rw [hsame _ (hne _ (by rw [hmod _ (by omega)]; omega))]
    exact he₁
  refine ⟨⟨e₁, htop, hal, hlow, hlt, fun a h₁ h₂ => ?_, fun a h₁ h₂ => ?_, fun a ha => ?_,
    fun a ha => ?_, ?_⟩, fun x hx => ?_, fun j hj ht => ⟨hwithin j hj ht, (h.within j hj ht).2⟩⟩
  · refine userFrame_of_perm ?_ hp₁
    have hdiv : a.toNat / 4096 = sz / 4096 - 1 := by omega
    rw [hpage, hdiv]
    exact htop
  · refine userFrame_of_no_perm fun e' he' => ?_
    have hdiv : a.toNat / 4096 = sz / 4096 - 2 := by omega
    rw [hpage, hdiv, hself] at he'
    cases he'
    change e.perm &&& ~~~PTE_U &&& PTE_U = 0
    rw [BitVec.and_assoc, BitVec.and_comm (~~~PTE_U), show PTE_U &&& ~~~PTE_U = 0 by decide]
    exact BitVec.and_zero
  · refine pde_of_lookup ?_
    rw [hpage]
    by_cases hdiv : a.toNat / 4096 = sz / 4096 - 2
    · rw [hdiv, hself]
      exact nofun
    · rw [hsame _ (hne _ (by rw [hmod _ (by omega)]; exact hdiv))]
      obtain ⟨e', he', -⟩ := h.mapped (a.toNat / 4096) (by omega)
      rw [he']
      exact nofun
  · have hlt := a.isLt
    have hb : (pageOf a).toNat = a.toNat / 4096 := toNat_pageOf a
    refine userFrame_of_no_perm fun e' he' => ?_
    rw [hsame _ (hne _ (by omega))] at he'
    refine h.kernel _ e' ?_ he'
    rw [BitVec.le_def]
    omega
  · refine pde_of_lookup (a := 0xfffff) ?_
    rw [hsame _ (hne _ (by change 1048575 ≠ _; omega))]
    exact h.device
  · have hold := h.bytes x (by rw [show PGSIZE = 4096 from rfl]; omega)
    have hx' : x / 4096 ≠ sz / 4096 - 2 := by omega
    have hb := hmod (x / 4096) (by omega)
    rw [← hold, byteAt, byteAt]
    change Option.map _ (pd'.lookup (ofNat 20 (x / 4096))) =
      Option.map _ (pd.lookup (ofNat 20 (x / 4096)))
    rw [hsame _ (hne _ (by omega))]

theorem addStack_sure (hM : Managed L M) (h : Loaded c ph m sz k pd)
    (hheld : Held L M k (pd.all + X)) :
    Sure (fun r => Held L M r.2.1 (r.2.2.all + X) ∧ (∀ v ∈ X, r.2.1.mem v = k.mem v) ∧
        ∀ n, r.1 = some n → Staged c ph m n r.2.1 r.2.2) (addStack L sz k pd) := by
  have hsize : PGSIZE = 4096 := rfl
  have hround := h.round
  have hwithin := hround.within
  unfold addStack
  refine (sure_lift (allocuvm_loaded hM hround hheld)).bind ?_
  rintro ⟨n, k₁, pd₁⟩ ⟨h₁, hmem, hr⟩
  dsimp only at h₁ hmem hr ⊢
  by_cases hn : n = 0
  · rw [if_pos hn]
    exact ⟨h₁, hmem, fun _ hs => nomatch hs⟩
  rw [if_neg hn]
  obtain ⟨hloaded, hmax, hnew⟩ := hr.resolve_left hn
  rw [hsize] at hmax hnew hwithin
  have hval : n = pages sz * 4096 + 8192 := by omega
  have hpages := pages_eq n
  obtain ⟨e, he, -⟩ := hloaded.mapped (n / 4096 - 2) (by omega)
  obtain ⟨pd₂, hclear, hself, hsame⟩ := clearpteu_mapped he
  have hdiv : (ofNat 20 (n / PGSIZE - 2) : Page) = ofNat 20 (n / 4096 - 2) := rfl
  rw [hdiv, hclear]
  have hlow : (ofNat 20 (n / 4096 - 2) : Page) < KERNBASE := by
    have hK : KERNBASE.toNat = 524288 := rfl
    rw [lt_def, toNat_ofNat, hK]
    exact (Nat.mod_le _ _).trans_lt (by omega)
  refine ⟨?_, hmem, fun n' hn' => ?_⟩
  · change Held L M k₁ (pd₂.all + X)
    rw [clearpteu_all hlow hclear]
    exact h₁
  · obtain rfl : n = n' := Option.some.inj hn'
    refine hloaded.staged (by omega) (by omega) (by omega) (fun j hj ht => ?_) hself hsame
    have hend := (hwithin j hj ht).1
    omega

end Xv6.Exec
