import Xv6.Exec.Segments
import Xv6.Mem.Enough
import Xv6.SharedMem.Machine

/-!
# `exec` is safe and atomic

* `setupArgs_tame` — arguments smaller than the image do no harm.
* `newImage_sure` — the image is built as the file says, or all pages are given back.
* `exec_all_or_nothing` — `exec` on any file.
-/

namespace Xv6.Exec

open Xv6.Lib Xv6.Mem List Option
open BitVec (ofNat)

variable {L : Layout} {M X : Multiset Page} {k k' k₁ : Kmem} {pd : Pgdir} {read : Read}
  {c : List UInt8} {ph : ℕ → Proghdr} {m sz : ℕ} {v : Page} {argv : List (List UInt8)}

/-! ## The arguments -/

/-- Only user pages of the directory were written to. -/
structure Untouched (pd : Pgdir) (k k' : Kmem) : Prop where
  freelist : k'.freelist = k.freelist
  use : k'.use = k.use
  mem : ∀ w, (∀ a, userFrame pd a ≠ some w) → k'.mem w = k.mem w

theorem Untouched.trans (h : Untouched pd k k₁) (h' : Untouched pd k₁ k') : Untouched pd k k' :=
  ⟨h'.freelist.trans h.freelist, h'.use.trans h.use, fun w hw => (h'.mem w hw).trans (h.mem w hw)⟩

theorem copyout_untouched {src : List UInt8} (va : Addr) (hlen : src.length < 4294967296) :
    Untouched pd k (copyout pd va src k).2 := by
  have hcopied := copyout_copied pd va k hlen
  refine ⟨hcopied.freelist, hcopied.use, fun w hw => funext fun o => ?_⟩
  exact hcopied.rest w o fun i _ hi => hw _ hi.1

theorem pushArgs_untouched (pd : Pgdir) (argv : List (List UInt8)) :
    ∀ (ptrs : List Addr) (sp : Addr) (k : Kmem),
    (∀ s ∈ argv, s.length + 1 < 4294967296) → ptrs.length ≤ MAXARG →
    Untouched pd k (pushArgs pd argv ptrs sp k).2.1 ∧
      (pushArgs pd argv ptrs sp k).2.2.2.length ≤ MAXARG := by
  induction argv with
  | nil => exact fun ptrs sp k _ hptrs => ⟨⟨rfl, rfl, fun _ _ => rfl⟩, hptrs⟩
  | cons s argv ih =>
    intro ptrs sp k hlens hptrs
    have hs := hlens s mem_cons_self
    have hcopy : Untouched pd k (copyout pd (pushed sp s) (s ++ [0]) k).2 :=
      copyout_untouched (pushed sp s) (by rw [length_append]; exact hs)
    rw [pushArgs]
    by_cases hmax : MAXARG ≤ ptrs.length
    · rw [if_pos hmax]
      exact ⟨⟨rfl, rfl, fun _ _ => rfl⟩, hptrs⟩
    rw [if_neg hmax]
    generalize copyout pd (pushed sp s) (s ++ [0]) k = x at hcopy
    obtain ⟨r, k₁⟩ := x
    cases r with
    | ok =>
      have hrest := ih (ptrs ++ [pushed sp s]) (pushed sp s) k₁
        (fun t ht => hlens t (mem_cons_of_mem _ ht))
        (by rw [length_append, length_singleton]; omega)
      exact ⟨hcopy.trans hrest.1, hrest.2⟩
    | _ => exact ⟨hcopy, hptrs⟩

theorem setupArgs_untouched (sp : Addr) (k : Kmem) (hlens : ∀ s ∈ argv, s.length + 1 < 4294967296) :
    Untouched pd k (setupArgs pd argv sp k).2.1 := by
  obtain ⟨hpush, hptrs⟩ := pushArgs_untouched pd argv [] sp k hlens (Nat.zero_le _)
  rw [setupArgs]
  generalize pushArgs pd argv [] sp k = x at hpush hptrs
  obtain ⟨r, k₁, sp₁, ptrs⟩ := x
  cases r with
  | ok =>
    have hmax : MAXARG = 32 := rfl
    refine hpush.trans (copyout_untouched _ ?_)
    rw [length_wordBytes, length_ustack]
    dsimp only at hptrs
    omega
  | _ => exact hpush

theorem pushArgs_append (pd : Pgdir) (a b : List (List UInt8)) :
    ∀ (ptrs : List Addr) (sp : Addr) (k : Kmem),
    pushArgs pd (a ++ b) ptrs sp k =
      match pushArgs pd a ptrs sp k with
      | (.ok, k, sp, ptrs) => pushArgs pd b ptrs sp k
      | r => r := by
  induction a with
  | nil => exact fun _ _ _ => rfl
  | cons s a ih =>
    intro ptrs sp k
    rw [cons_append, pushArgs, pushArgs]
    by_cases hmax : MAXARG ≤ ptrs.length
    · rw [if_pos hmax, if_pos hmax]
    rw [if_neg hmax, if_neg hmax]
    obtain ⟨r, k₁⟩ := copyout pd (pushed sp s) (s ++ [0]) k
    cases r with
    | ok => exact ih _ _ _
    | _ => rfl

theorem length_pushArgs (pd : Pgdir) (a : List (List UInt8)) :
    ∀ (ptrs : List Addr) (sp : Addr) (k : Kmem),
    (pushArgs pd a ptrs sp k).1 = .ok →
      (pushArgs pd a ptrs sp k).2.2.2.length = ptrs.length + a.length := by
  induction a with
  | nil => exact fun _ _ _ _ => rfl
  | cons s a ih =>
    intro ptrs sp k
    rw [pushArgs]
    by_cases hmax : MAXARG ≤ ptrs.length
    · rw [if_pos hmax]
      rintro ⟨⟩
    rw [if_neg hmax]
    obtain ⟨r, k₁⟩ := copyout pd (pushed sp s) (s ++ [0]) k
    cases r with
    | ok =>
      intro hok
      rw [ih _ _ _ hok, length_append, length_singleton, length_cons]
      omega
    | _ => rintro ⟨⟩

theorem pushArgs_full {s : List UInt8} {ptrs : List Addr} (sp : Addr) (h : MAXARG ≤ ptrs.length) :
    pushArgs pd (s :: argv) ptrs sp k = (.fail, k, sp, ptrs) := by
  rw [pushArgs, if_pos h]

theorem setupArgs_tame (h : Stack pd sz v) (hlens : ∀ s ∈ argv, s.length + 1 < 4294967296)
    (k : Kmem) :
    ((argv.map List.length).sum < sz → (setupArgs pd argv (ofNat 32 sz) k).1 ≠ .wild) ∧
      ((setupArgs pd argv (ofNat 32 sz) k).1 = .ok → argv.length ≤ MAXARG) := by
  by_cases hargc : argv.length ≤ MAXARG
  · exact ⟨(h.setupArgs argv k hargc hlens).2.2, fun _ => hargc⟩
  · -- the first `MAXARG` arguments, and one more
    have hfirst := h.setupArgs (argv.take MAXARG) k (by rw [length_take]; omega)
      fun s hs => hlens s (mem_of_mem_take hs)
    have hle : ((argv.take MAXARG).map List.length).sum ≤ (argv.map List.length).sum := by
      rw [map_take]
      exact List.Sublist.sum_le_sum (take_sublist _ _) fun _ _ => Nat.zero_le _
    have htame := fun hsum : (argv.map List.length).sum < sz => hfirst.2.2 (hle.trans_lt hsum)
    have hsplit := pushArgs_append pd (argv.take MAXARG) (argv.drop MAXARG) []
      (ofNat 32 sz) k
    have hlen := length_pushArgs pd (argv.take MAXARG) [] (ofNat 32 sz) k
    rw [take_append_drop] at hsplit
    rw [setupArgs] at htame
    rw [setupArgs, hsplit]
    generalize pushArgs pd (argv.take MAXARG) [] (ofNat 32 sz) k = x at htame hlen
    obtain ⟨r, k₁, sp₁, ptrs⟩ := x
    cases r with
    | ok =>
      obtain ⟨s, rest, hdrop⟩ : ∃ s rest, argv.drop MAXARG = s :: rest := by
        refine exists_cons_of_length_pos ?_
        rw [length_drop]
        omega
      have hptrs := hlen rfl
      rw [length_take] at hptrs
      dsimp only at hptrs ⊢
      rw [hdrop, pushArgs_full sp₁ (by rw [hptrs, length_nil]; omega)]
      exact ⟨by rintro - ⟨⟩, by rintro ⟨⟩⟩
    | fail => exact ⟨by rintro - ⟨⟩, by rintro ⟨⟩⟩
    | wild => exact ⟨htame, by rintro ⟨⟩⟩

/-! ## The image -/

theorem loaded_fresh (h : Fresh pd) (hdev : pd.lookup 0xfffff ≠ none) : Loaded c ph 0 0 k pd := by
  have hzero : pages 0 = 0 := rfl
  refine ⟨Nat.zero_le _, fun b hb => ?_, fun b _ hk => h.low b hk, fun b e _ he => h.kernel b e he,
    hdev, fun x hx => ?_, fun j hj => absurd hj (Nat.not_lt_zero j)⟩
  · rw [hzero] at hb
    exact absurd hb (Nat.not_lt_zero b)
  · rw [hzero, Nat.zero_mul] at hx
    exact absurd hx (Nat.not_lt_zero x)

/-- What `newImage` leaves. -/
def Imaged (L : Layout) (M X : Multiset Page) (c : List UInt8) (k : Kmem) :
    Option (Elfhdr × ℕ × Pgdir) × Kmem → Prop
  | (none, k') => Held L M k' X ∧ ∀ v ∈ X, k'.mem v = k.mem v
  | (some (elf, sz, pd), k') => Held L M k' (pd.all + X) ∧ (∀ v ∈ X, k'.mem v = k.mem v) ∧
      elf = .ofBytes (c.take sizeofElfhdr) ∧
      Staged c (header c elf.phoff) elf.phnum sz k' pd

theorem bad_sure (hM : Managed L M) (h : Held L M k₁ (pd.all + X))
    (hmem : ∀ v ∈ X, k₁.mem v = k.mem v) : Sure (Imaged L M X c k) (bad L k₁ pd) := by
  refine (sure_lift (freevm_sure hM h)).bind fun k₂ h₂ => ?_
  exact ⟨h₂.1, fun v hv => (h₂.2 v hv).trans (hmem v hv)⟩

theorem newImage_sure (hM : Managed L M) (hread : ∀ off n, read off n = .ok (readAt c off n))
    (h : Held L M k X) : Sure (Imaged L M X c k) (newImage L read k) := by
  rw [newImage, hread]
  generalize hx : readAt c 0 (ofNat 32 sizeofElfhdr) = x
  obtain ⟨r, bytes⟩ := x
  change Sure _ (if r ≠ sizeofElfhdr then _ else _)
  by_cases hr : r ≠ sizeofElfhdr
  · rw [if_pos hr]
    exact ⟨h, fun _ _ => rfl⟩
  rw [if_neg hr]
  have hall : (readAt c 0 (ofNat 32 sizeofElfhdr)).1 =
      (ofNat 32 sizeofElfhdr : Addr).toNat := by
    rw [hx]
    exact not_not.1 hr
  have hbytes : bytes = c.take sizeofElfhdr := by
    have hfull := (readAt_full hall).2.2
    rw [hx] at hfull
    exact hfull
  rw [hbytes]
  generalize helf : Elfhdr.ofBytes (c.take sizeofElfhdr) = elf
  by_cases hmagic : elf.magic ≠ ELF_MAGIC
  · rw [if_pos hmagic]
    exact ⟨h, fun _ _ => rfl⟩
  rw [if_neg hmagic]
  refine (sure_lift (setupkvm_sure hM h)).bind ?_
  rintro ⟨o, k₁⟩ ⟨hmem₁, hset⟩
  cases o with
  | none => exact ⟨hset, hmem₁⟩
  | some pd₁ =>
    obtain ⟨h₁, hfresh, hdev⟩ := hset
    have hstart : elf.phoff = elf.phoff + ofNat 32 (sizeofProghdr * 0) :=
      (BitVec.add_zero _).symm
    dsimp only
    rw [hstart]
    refine (loadProgram_sure hM hread _ _ (loaded_fresh hfresh hdev) h₁).bind ?_
    rintro ⟨o, k₂, pd₂⟩ ⟨h₂, hmem₂, hload⟩
    dsimp only at h₂ hmem₂ hload
    have hsame₂ : ∀ v ∈ X, k₂.mem v = k.mem v := fun v hv => (hmem₂ v hv).trans (hmem₁ v hv)
    cases o with
    | none => exact bad_sure hM h₂ hsame₂
    | some sz =>
      have hload' := hload sz rfl
      rw [Nat.zero_add] at hload'
      refine (addStack_sure hM hload' h₂).bind ?_
      rintro ⟨o, k₃, pd₃⟩ ⟨h₃, hmem₃, hstage⟩
      have hsame₃ : ∀ v ∈ X, k₃.mem v = k.mem v := fun v hv => (hmem₃ v hv).trans (hsame₂ v hv)
      cases o with
      | none => exact bad_sure hM h₃ hsame₃
      | some n =>
        exact ⟨h₃, hsame₃, helf.symm, hstage n rfl⟩

/-! ## The call -/

theorem Staged.userFrame (h : Staged c ph m sz k pd) {a : Addr} {w : Page}
    (hw : userFrame pd a = some w) : w ∈ pd.all := by
  obtain ⟨e, -, hstack⟩ := h.stack
  have hlow : pageOf a < KERNBASE := by
    have hlt : a.toNat < 2147483648 := by
      by_contra hge
      rw [hstack.kernel a (by omega)] at hw
      exact nomatch hw
    have hb : (pageOf a).toNat = a.toNat / 4096 := toNat_pageOf a
    have hK : KERNBASE.toNat = 524288 := rfl
    rw [BitVec.lt_def, hb, hK]
    omega
  rw [Mem.userFrame] at hw
  obtain ⟨e', he', rfl⟩ := map_eq_some_iff.1 hw
  have hlook := (filter_eq_some_iff.1 he').1
  exact Multiset.mem_add.2 (.inr (mem_uframes_of_lookup hlow hlook))

theorem Staged.args (hM : Managed L M) (h : Staged c ph m sz k pd) (hheld : Held L M k (pd.all + X))
    (hu : Untouched pd k k') : Held L M k' (pd.all + X) ∧ ∀ v ∈ X, k'.mem v = k.mem v := by
  refine ⟨⟨⟨?_, ?_, ?_⟩, ?_⟩, fun v hv => hu.mem v fun a ha => ?_⟩
  · rw [hu.freelist]
    exact hheld.ok.nodup
  · rw [hu.freelist, hu.use]
    exact hheld.ok.unused
  · rw [hu.freelist]
    exact hheld.ok.managed
  · rw [hu.freelist]
    exact hheld.total
  · have hnd := hM.nodup
    rw [← hheld.total, Multiset.nodup_add, Multiset.nodup_add] at hnd
    exact Multiset.disjoint_left.1 hnd.2.1.2.2 (h.userFrame ha) hv

theorem Staged.bytes_args (hM : Managed L M) (h : Staged c ph m sz k pd)
    (hheld : Held L M k (pd.all + X)) (hstack : ∀ e, pd.lookup (ofNat 20 (sz / 4096 - 1)) =
      some e → ∀ w ∈ pd.all, w ≠ P2V e.pa → k'.mem w = k.mem w) {x : ℕ} (hx : x < sz - 8192) :
    byteAt pd k' x = some (expected c ph m x) := by
  obtain ⟨e, he, hst⟩ := h.stack
  have hhigh := hst.high
  have hK : KERNBASE.toNat = 524288 := rfl
  have hpage : ∀ b, b < 524288 → (ofNat 20 b : Page).toNat = b ∧
      (ofNat 20 b : Page) < KERNBASE := by
    intro b hb
    rw [BitVec.lt_def, BitVec.toNat_ofNat, hK]
    omega
  have htop := hpage (sz / 4096 - 1) (by omega)
  have hown := hpage (x / 4096) (by omega)
  rw [← h.bytes x hx, byteAt, byteAt]
  change Option.map _ (pd.lookup (ofNat 20 (x / 4096))) =
    Option.map _ (pd.lookup (ofNat 20 (x / 4096)))
  cases hl : pd.lookup (ofNat 20 (x / 4096)) with
  | none => rw [map_none, map_none]
  | some e' =>
    have hne : P2V e'.pa ≠ P2V e.pa := by
      intro hp
      have hsame := frame_inj hM hheld hown.2 htop.2 hl he hp
      rw [← BitVec.toNat_inj, hown.1, htop.1] at hsame
      omega
    have hmem : P2V e'.pa ∈ pd.all :=
      Multiset.mem_add.2 (.inr (mem_uframes_of_lookup hown.2 hl))
    rw [map_some, map_some, hstack e he _ hmem hne]

/-- **What `exec` does** in memory. -/
def Done (L : Layout) (M X : Multiset Page) (c : List UInt8) (p : Proc) (k : Kmem)
    (r : ℤ × Proc × Kmem) : Prop :=
  (∀ v ∈ X, r.2.2.mem v = k.mem v) ∧
    (r.1 = -1 ∧ r.2.1 = p ∧ Held L M r.2.2 (p.pgdir.all + X) ∧
        (∀ v ∈ p.pgdir.all, r.2.2.mem v = k.mem v) ∨
      r.1 = 0 ∧ Held L M r.2.2 (r.2.1.pgdir.all + X) ∧ pages r.2.1.sz ≤ KERNBASE.toNat ∧
        ∃ elf, elf = Elfhdr.ofBytes (c.take sizeofElfhdr) ∧ r.2.1.eip = elf.entry ∧
          (∀ j, j < elf.phnum → (header c elf.phoff j).type = ELF_PROG_LOAD →
            (header c elf.phoff j).vaddr.toNat + (header c elf.phoff j).filesz.toNat ≤
                r.2.1.sz - 2 * PGSIZE ∧
              ((header c elf.phoff j).filesz.toNat = 0 ∨
                (header c elf.phoff j).off.toNat + (header c elf.phoff j).filesz.toNat ≤
                  c.length)) ∧
          ∀ x, x < r.2.1.sz - 2 * PGSIZE →
            byteAt r.2.1.pgdir r.2.2 x = some (expected c (header c elf.phoff) elf.phnum x))

theorem done_back {p : Proc} (h : Held L M k' (p.pgdir.all + X))
    (hmem : ∀ v ∈ p.pgdir.all + X, k'.mem v = k.mem v) : Done L M X c p k (-1, p, k') :=
  ⟨fun v hv => hmem v (Multiset.mem_add.2 (.inr hv)),
    .inl ⟨rfl, rfl, h, fun v hv => hmem v (Multiset.mem_add.2 (.inl hv))⟩⟩

theorem length_le_sum {s : List UInt8} (hs : s ∈ argv) : s.length ≤ (argv.map List.length).sum :=
  single_le_sum (fun _ _ => Nat.zero_le _) s.length (mem_map_of_mem hs)

theorem lift_ok {α : Type} (a : α) : lift (.ok a) = .ok a := rfl

theorem ok_bind {α β : Type} (a : α) (f : α → Except Crash β) : (Except.ok a >>= f) = f a := rfl

theorem newImage_size (hM : Managed L M) (hread : ∀ off n, read off n = .ok (readAt c off n))
    (h : Held L M k X) {elf : Elfhdr} (hn : newImage L read k = .ok (some (elf, sz, pd), k')) :
    8192 ≤ sz ∧ sz < 2147483648 := by
  have himage := newImage_sure hM hread h
  rw [hn] at himage
  obtain ⟨e, -, hst⟩ := himage.2.2.2.stack
  exact ⟨hst.low, hst.high⟩

theorem execMem_done (hM : Managed L M) (hread : ∀ off n, read off n = .ok (readAt c off n))
    (path : List UInt8) (argv : List (List UInt8)) {p : Proc} (h : Held L M k (p.pgdir.all + X))
    (hlens : ∀ elf sz pd k', newImage L read k = .ok (some (elf, sz, pd), k') →
      ∀ s ∈ argv, s.length + 1 < 4294967296) :
    match execMem L read path argv p k with
    | .ok r => Done L M X c p k r
    | .error e => e = .wild ∧ ∃ elf sz pd k', newImage L read k = .ok (some (elf, sz, pd), k') ∧
        sz ≤ (argv.map List.length).sum := by
  have himage := newImage_sure hM hread h
  rw [execMem]
  cases hn : newImage L read k with
  | error f =>
    rw [hn] at himage
    exact himage.elim
  | ok r =>
    rw [hn] at himage
    obtain ⟨o, k₁⟩ := r
    cases o with
    | none =>
      exact done_back himage.1 himage.2
    | some image =>
      obtain ⟨elf, sz, pd⟩ := image
      obtain ⟨h₁, hmem₁, helf, hstaged⟩ := himage
      obtain ⟨e, he, hst⟩ := hstaged.stack
      have hsz := hst.high
      have hlens := hlens elf sz pd k₁ hn
      obtain ⟨htame, hargc⟩ := setupArgs_tame hst hlens k₁
      have hu : Untouched pd k₁ (setupArgs pd argv (ofNat 32 sz) k₁).2.1 :=
        setupArgs_untouched (ofNat 32 sz) k₁ hlens
      have hargs := fun hc => (hst.setupArgs argv k₁ (hargc hc) hlens).2.1 hc
      obtain ⟨h₂, hmem₂⟩ := hstaged.args hM h₁ hu
      have hsame : ∀ v ∈ p.pgdir.all + X,
          (setupArgs pd argv (ofNat 32 sz) k₁).2.1.mem v = k.mem v := fun v hv =>
        (hmem₂ v hv).trans (hmem₁ v hv)
      rw [ok_bind]
      dsimp only
      generalize setupArgs pd argv (ofNat 32 sz) k₁ = y at htame hargs h₂ hmem₂ hsame
      obtain ⟨r, k₂, esp⟩ := y
      cases r with
      | wild => exact ⟨rfl, elf, sz, pd, k₁, rfl, not_lt.1 fun hlt => htame hlt rfl⟩
      | fail =>
        obtain ⟨k₃, hk₃, h₃⟩ := exists_ok_of_sure (freevm_sure hM h₂)
        dsimp only at hk₃ ⊢
        rw [hk₃]
        exact done_back h₃.1 fun v hv => (h₃.2 v hv).trans (hsame v hv)
      | ok =>
        have hswap : pd.all + (p.pgdir.all + X) = p.pgdir.all + (pd.all + X) :=
          add_left_comm _ _ _
        rw [hswap] at h₂
        obtain ⟨k₃, hk₃, h₃⟩ := exists_ok_of_sure (freevm_sure hM h₂)
        dsimp only at hk₃ ⊢
        rw [hk₃]
        obtain ⟨-, -, -, -, honly⟩ := hargs rfl
        have hpages : pages sz ≤ KERNBASE.toNat := pages_le_kernbase (show sz ≤ 524288 * 4096 by omega)
        refine ⟨fun v hv => ?_, .inr ⟨rfl, h₃.1, hpages, elf, helf, rfl, hstaged.within,
          fun x hx => ?_⟩⟩
        · exact (h₃.2 v (Multiset.mem_add.2 (.inr hv))).trans
            (hsame v (Multiset.mem_add.2 (.inr hv)))
        · refine hstaged.bytes_args hM h₁ (fun e' he' w hw hne => ?_) hx
          obtain rfl : e = e' := Option.some.inj (he.symm.trans he')
          exact (h₃.2 w (Multiset.mem_add.2 (.inl hw))).trans (honly w hne)

/-- The place in the file of the byte for address `x`. -/
def Proghdr.place (ph : Proghdr) (x : ℕ) : ℕ := ph.off.toNat + (x - ph.vaddr.toNat)

/-- **`exec` on any file.** The directory of the caller and the pages of `X`, which are all others
in use, make up with the free ones what the allocator manages. The file may have any contents, and
the call comes back in any case: with -1, and then the process, its pages and the free pages are
what they were; or with 0, and then the segments hold what the file has for them. -/
theorem exec_all_or_nothing {N : ℕ} (sb : Fs.Superblock) (dev : Fs.Devsw) (i : Fin N)
    (s : Fs.State N) (hM : Managed L M) (path : List UInt8) (argv : List (List UInt8)) (p : Proc)
    (h : Held L M k (p.pgdir.all + X)) (hfs : Fs.Sound sb s) (href : 0 < (s.icache i).ref)
    (hvalid : (s.icache i).valid = true) (hfile : (s.icache i).copy.type = Fs.T_FILE)
    (file : List UInt8) (hc : (s.icache i).copy.content s.disk = file)
    (hargv : ∀ elf sz pd k', newImage L (readi sb dev i s) k = .ok (some (elf, sz, pd), k') →
      (argv.map List.length).sum < sz) :
    (∀ off n, readi sb dev i s off n = .ok (readAt file off n)) ∧
    ∃ r p' k' s', exec L sb dev i path argv p k s = .ok (r, p', k', s') ∧ Fs.Sound sb s' ∧
      (∀ v ∈ X, k'.mem v = k.mem v) ∧
      (r = -1 ∧ p' = p ∧ (k'.freelist : Multiset Page) = k.freelist ∧
          (∀ v ∈ p.pgdir.all, k'.mem v = k.mem v) ∨
        r = 0 ∧ Held L M k' (p'.pgdir.all + X) ∧
          ∃ elf, elf = Elfhdr.ofBytes (file.take sizeofElfhdr) ∧ p'.eip = elf.entry ∧
            (∀ j, j < elf.phnum → ∀ x, (header file elf.phoff j).Covers x →
              (∀ l, j < l → l < elf.phnum → ¬(header file elf.phoff l).Covers x) →
              ∃ b, file[(header file elf.phoff j).place x]? = some b ∧
                byteAt p'.pgdir k' x = some b) ∧
            ∀ x, x < p'.sz - 2 * PGSIZE →
              (∀ j, j < elf.phnum → ¬(header file elf.phoff j).Covers x) →
              byteAt p'.pgdir k' x = some 0) := by
  have hread : ∀ off n, readi sb dev i s off n = .ok (readAt file off n) := by
    intro off n
    rw [← hc]
    exact readi_reads (hfs.isOpen href hvalid) (by rw [hfile]; decide) off n
  refine ⟨hread, ?_⟩
  have hmem := execMem_done hM hread path argv h fun elf sz pd k' hn s hs => by
    have hlt := hargv elf sz pd k' hn
    have hsz := newImage_size hM hread h hn
    have hle := length_le_sum hs
    omega
  have hspec : Lib.wp (Fs.iput sb i) (fun _ t => Fs.Sound sb t) (fun _ => False) s :=
    Fs.iput_spec hfs href (by simp)
  obtain ⟨_, s', hput, hsound⟩ := exists_ok_of_wp hspec
  cases he : execMem L (readi sb dev i s) path argv p k with
  | error f =>
    rw [he] at hmem
    obtain ⟨-, elf, sz, pd, k', hn, hle⟩ := hmem
    exact absurd (hargv elf sz pd k' hn) hle.not_gt
  | ok y =>
    rw [he] at hmem
    obtain ⟨r, p', k'⟩ := y
    have hexec : exec L sb dev i path argv p k s = .ok (r, p', k', s') := by
      rw [exec, he]
      dsimp only [bind, Except.bind]
      rw [hput]
    obtain ⟨hothers, hback | ⟨hr, hheld, -, elf, helf, heip, hwithin, hbytes⟩⟩ := hmem
    · obtain ⟨hr, hp, hheld, hown⟩ := hback
      have hfree := add_right_cancel (hheld.total.trans h.total.symm)
      exact ⟨r, p', k', s', hexec, hsound, hothers, .inl ⟨hr, hp, hfree, hown⟩⟩
    · refine ⟨r, p', k', s', hexec, hsound, hothers, .inr ⟨hr, hheld, elf, helf, heip, ?_, ?_⟩⟩
      · intro j hj x hx hlast
        obtain ⟨hend, hfull⟩ := hwithin j hj hx.1
        have hlow := hx.2.1
        have hhigh := hx.2.2
        have hin : (header file elf.phoff j).place x < file.length := by
          rw [Proghdr.place]
          omega
        refine ⟨_, getElem?_eq_getElem hin, ?_⟩
        rw [hbytes x (by omega), expected_last hj hx hlast]
        exact congrArg some (getD_eq_getElem _ _ hin)
      · intro x hx hnone
        rw [hbytes x hx, expected_zero hnone]

/-! ## A small program -/

theorem execMem_zero (hM : Managed L M) (hread : ∀ off n, read off n = .ok (readAt c off n))
    (path : List UInt8) (argv : List (List UInt8)) {p : Proc} (h : Held L M k (p.pgdir.all + X))
    {elf : Elfhdr} (hn : newImage L read k = .ok (some (elf, sz, pd), k')) (hargc : argv.length ≤ MAXARG)
    (hfit : used argv + 4 * (argv.length + 4) ≤ PGSIZE)
    (hlens : ∀ s ∈ argv, s.length + 1 < 4294967296) :
    ∃ esp k₁, execMem L read path argv p k = .ok (0, ⟨pd, sz, nameOf path, elf.entry, esp⟩, k₁) := by
  have himage := newImage_sure hM hread h
  rw [hn] at himage
  obtain ⟨h₁, -, -, hstaged⟩ := himage
  obtain ⟨e, -, hst⟩ := hstaged.stack
  have hok := (hst.setupArgs argv k' hargc hlens).1.2 hfit
  obtain ⟨h₂, -⟩ := hstaged.args hM h₁ (setupArgs_untouched (ofNat 32 sz) k' hlens)
  rw [execMem, hn, ok_bind]
  dsimp only
  generalize setupArgs pd argv (ofNat 32 sz) k' = y at hok h₂
  obtain ⟨r, k₂, esp⟩ := y
  obtain rfl : r = .ok := hok
  obtain ⟨k₃, hk₃, -⟩ := exists_ok_of_sure (freevm_sure hM (h₂.congr (add_left_comm _ _ _)))
  dsimp only at hk₃ ⊢
  rw [hk₃]
  exact ⟨_, _, rfl⟩

/-- An ELF header, one program header, and a segment of four bytes for address 0. -/
def program : List UInt8 :=
  [0x7f, 0x45, 0x4c, 0x46] ++ replicate 20 0 ++ [2, 0, 0, 0] ++ [52, 0, 0, 0] ++ replicate 12 0 ++
    [1, 0] ++ replicate 6 0 ++
  [1, 0, 0, 0] ++ [84, 0, 0, 0] ++ replicate 8 0 ++ [4, 0, 0, 0] ++ [4, 0, 0, 0] ++ replicate 8 0 ++
  [0x90, 0x90, 0xeb, 0xfe]

theorem program_header : readAt program 0 (ofNat 32 sizeofElfhdr) = (52, program.take 52) ∧
    Elfhdr.ofBytes (program.take 52) = ⟨ELF_MAGIC, 2, 52, 1⟩ := by
  rw [Elfhdr.ofBytes, Elfhdr.mk.injEq]
  decide +kernel

theorem program_segment :
    readAt program 52 (ofNat 32 sizeofProghdr) = (32, (program.drop 52).take 32) ∧
    Proghdr.ofBytes ((program.drop 52).take 32) = ⟨1, 84, 0, 4, 4⟩ ∧
    readAt program 84 (ofNat 32 4) = (4, [0x90, 0x90, 0xeb, 0xfe]) := by
  rw [Proghdr.ofBytes, Proghdr.mk.injEq]
  decide +kernel

theorem newImage_program (h : 519 ≤ k.freelist.length) :
    ∃ elf pd k', newImage L (fun off n => .ok (readAt program off n)) k =
      .ok (some (elf, 12288, pd), k') := by
  have hone : pages 4 = 1 := rfl
  have hfour : pages 4096 = 1 := rfl
  have hthree : pages 12288 = 3 := rfl
  obtain ⟨hread₀, helf⟩ := program_header
  obtain ⟨hread₁, hph, hread₂⟩ := program_segment
  obtain ⟨pd₁, k₁, hset, hlen₁, hnone₁⟩ := setupkvm_succeeds (L := L) (by omega : 514 ≤ k.freelist.length)
  -- the segment
  obtain ⟨k₂, pd₂, halloc, hlen₂, hmapped₂, hsame₂⟩ := @allocuvm_succeeds L k₁ pd₁ 0 4 (by decide)
    (by decide) (by omega) fun b _ hb => hnone₁ b hb
  obtain ⟨t, ht⟩ : ∃ t, pd₂.pde (PDX 0) = some t := by
    refine Option.ne_none_iff_exists'.1 fun hp => hmapped₂ 0 (Nat.zero_le _) (by decide) ?_
    rw [Pgdir.lookup, hp]
    rfl
  obtain ⟨k₃, hfree, hload⟩ : ∃ k₃ : Kmem, k₃.freelist = k₂.freelist ∧
      loaduvm (fun off n => .ok (readAt program off n)) pd₂ 0 84 4 k₂ = .ok (true, k₃) := by
    have hpages : pages (4 : Addr).toNat = 1 := rfl
    have hpage : pageOf 0 = 0 := rfl
    have hleft : (if (4 : Addr).toNat < PGSIZE then (4 : Addr).toNat else PGSIZE) = 4 := rfl
    rw [loaduvm, if_neg (by decide), hpages, hpage, loadLoop, ht]
    dsimp only
    rw [hleft, hread₂, ok_bind]
    dsimp only
    rw [if_neg (by decide), loadLoop]
    exact ⟨k₂.store _ 0 [0x90, 0x90, 0xeb, 0xfe], rfl, rfl⟩
  have hseg : loadSegment L (fun off n => .ok (readAt program off n)) ⟨1, 84, 0, 4, 4⟩ 0 k₁ pd₁ =
      .ok (some 4, k₃, pd₂) := by
    have hend : ((0 : Addr) + 4).toNat = 4 := rfl
    rw [loadSegment]
    dsimp only
    rw [if_neg (by decide), if_neg (by decide), hend, halloc, lift_ok, ok_bind]
    dsimp only
    rw [if_neg (by decide), if_neg (by decide), hload]
    rfl
  -- the stack
  obtain ⟨k₄, pd₄, hstack, -, hmapped₄, -⟩ := @allocuvm_succeeds L k₃ pd₂ 4096 12288 (by decide)
    (by decide) (by rw [hfree]; omega) fun b hb hb' =>
      (hsame₂ b (hone.trans_le (hfour.symm.trans_le hb))).trans (hnone₁ b hb')
  obtain ⟨u, hu⟩ : ∃ t, pd₄.pde (PDX 1) = some t := by
    refine Option.ne_none_iff_exists'.1 fun hp => hmapped₄ 1 (by decide) (by decide) ?_
    rw [Pgdir.lookup, hp]
    rfl
  obtain ⟨pd₅, hadd⟩ : ∃ pd₅, addStack L 4 k₃ pd₂ = .ok (some 12288, k₄, pd₅) := by
    have hround : pages 4 * PGSIZE = 4096 := rfl
    have hend : 4096 + 2 * PGSIZE = 12288 := rfl
    have hguard : ofNat 20 (12288 / PGSIZE - 2) = (1 : Page) := rfl
    unfold addStack
    rw [hround, hend, hstack, lift_ok, ok_bind]
    dsimp only
    refine ⟨pd₄.setPte 1 u ((u.pte (PTX 1)).map fun e => { e with perm := e.perm &&& ~~~PTE_U }), ?_⟩
    rw [if_neg (by decide), hguard, clearpteu, hu]
    rfl
  refine ⟨⟨ELF_MAGIC, 2, 52, 1⟩, pd₅, k₄, ?_⟩
  rw [newImage, hread₀, ok_bind]
  dsimp only
  rw [if_neg (by decide), helf]
  dsimp only
  rw [if_neg (by decide), hset]
  change (loadProgram L _ 1 52 0 k₁ pd₁ >>= _) = _
  rw [loadProgram, hread₁, ok_bind]
  dsimp only
  rw [if_neg (by decide), hph, if_neg (by decide), hseg, ok_bind]
  dsimp only
  rw [loadProgram, ok_bind]
  dsimp only
  rw [hadd]
  rfl

/-- The program, in block 6 of the disk. -/
def programFs : Fs.State 1 where
  disk b := if b = 3 then fun k => if k = 0 then 0x7f else 0
    else if b = 6 then fun k => program.getD k.val 0 else .zeroes
  dinode n := if n = 1 then
    { Fs.Dinode.zero with type := Fs.T_FILE, nlink := 1, size := 88, addrs := fun k => if k = 0 then 6 else 0 }
    else .zero
  icache _ := ⟨1, 1, true,
    { Fs.Dinode.zero with type := Fs.T_FILE, nlink := 1, size := 88, addrs := fun k => if k = 0 then 6 else 0 }⟩

theorem programFs_sound : Fs.Sound Fs.smallSb programFs where
  exact := by decide +kernel
  full n _ ht k hk := by
    by_cases hn : n = 1
    · subst hn
      have hsize : k * BSIZE < 88 := hk
      have hzero : k = 0 := by
        have hB : BSIZE = 512 := rfl
        rw [hB] at hsize
        omega
      rw [hzero]
      decide
    · simp [programFs, hn, Fs.Dinode.zero] at ht
  agree _ _ _ := ⟨show 1 < 4 by decide, rfl, show Fs.T_FILE ≠ 0 by decide⟩
  unique i j _ _ _ := Subsingleton.elim i j

/-- A process without user memory, and 600 free pages. -/
def idle : Proc := ⟨.empty 0x80400, 0, [], 0, 0⟩

def manyPages : Kmem := ⟨pageRange (0x80400 + 1) 600, fun _ _ => 0, fun _ => none⟩

theorem held_pageRange {n : ℕ} (hlow : L.kend ≤ v) (hhigh : v.toNat + (n + 1) ≤ (P2V PHYSTOP).toNat) :
    Held L (pageRange v (n + 1)) ⟨pageRange (v + 1) n, fun _ _ => 0, fun _ => none⟩
      ((Pgdir.empty v).all + 0) := by
  have hM := managed_pageRange hlow hhigh
  rw [pageRange_succ] at hM ⊢
  have hnd := (Multiset.coe_nodup.1 hM.nodup).of_cons
  refine ⟨⟨hnd, fun _ _ => rfl, fun v hv => hM.low v (Multiset.mem_coe.2 (mem_cons_of_mem _ hv))⟩, ?_⟩
  rw [add_zero, Pgdir.all, kpages_empty, uframes_empty, add_zero, add_comm, Multiset.singleton_add,
    Multiset.cons_coe]

theorem manyPages_held : Held SharedMem.smallLayout (pageRange 0x80400 (600 + 1)) manyPages
    (idle.pgdir.all + 0) := held_pageRange (by decide) (by decide)

/-- `exec("init", {"init", "-x"})` with a program and pages enough: the first instruction is at
address 0, and the process starts at address 2. -/
theorem exec_all_or_nothing_loads : ∃ p' k' s',
    exec SharedMem.smallLayout Fs.smallSb Fs.noDevices (0 : Fin 1) [47, 105, 110, 105, 116]
      [[105, 110, 105, 116], [45, 120]] idle manyPages programFs = .ok (0, p', k', s') ∧
    Fs.Sound Fs.smallSb s' ∧ p'.eip = 2 ∧ byteAt p'.pgdir k' 0 = some 0x90 ∧
    byteAt p'.pgdir k' 3 = some 0xfe ∧ byteAt p'.pgdir k' 4 = some 0 := by
  have hM : Managed SharedMem.smallLayout (pageRange 0x80400 (600 + 1)) :=
    managed_pageRange (by decide) (by decide)
  have hc : (programFs.icache 0).copy.content programFs.disk = program := by decide +kernel
  have hmany : 519 ≤ manyPages.freelist.length := by simp [manyPages, pageRange]
  obtain ⟨elf, pd, k', hn⟩ := newImage_program (L := SharedMem.smallLayout) hmany
  have hread : readi Fs.smallSb Fs.noDevices (0 : Fin 1) programFs =
      fun off n => .ok (readAt program off n) := by
    funext off n
    rw [← hc]
    exact readi_reads (programFs_sound.isOpen (by decide) rfl) (by decide) off n
  obtain ⟨esp, k₀, hzero⟩ := execMem_zero hM (fun _ _ => rfl)
    [47, 105, 110, 105, 116] [[105, 110, 105, 116], [45, 120]] manyPages_held hn (by decide)
    (by decide) (by decide)
  obtain ⟨-, r, p', k'', s', hrun, hsound, -, hres⟩ := exec_all_or_nothing Fs.smallSb Fs.noDevices 0
    programFs hM [47, 105, 110, 105, 116] [[105, 110, 105, 116], [45, 120]] idle manyPages_held
    programFs_sound (by decide) rfl rfl program hc fun elf' sz' pd' k₁ hn' => by
      rw [hread] at hn'
      have hsz := (newImage_size hM (fun _ _ => rfl) manyPages_held hn').1
      exact lt_of_lt_of_le (by decide) hsz
  obtain ⟨rfl, rfl⟩ : r = 0 ∧ p' = ⟨pd, 12288, nameOf [47, 105, 110, 105, 116], elf.entry, esp⟩ := by
    rw [exec, hread, hzero, ok_bind] at hrun
    dsimp only at hrun
    split at hrun <;> cases hrun
    exact ⟨rfl, rfl⟩
  obtain ⟨hm, -⟩ | ⟨-, -, elf', helf, heip, hbytes, hrest⟩ := hres
  · exact absurd hm (by decide)
  rw [show program.take sizeofElfhdr = program.take 52 from rfl, program_header.2] at helf
  subst helf
  have hdr : header program 52 0 = ⟨1, 84, 0, 4, 4⟩ := program_segment.2.1
  have hbyte (x : ℕ) (hx : (header program 52 0).Covers x) :=
    hbytes 0 Nat.one_pos x hx fun l hl hl' => absurd hl' (by dsimp only; omega)
  rw [hdr] at hbyte
  obtain ⟨b₀, hb₀, hbyte₀⟩ := hbyte 0 (by decide)
  obtain ⟨b₃, hb₃, hbyte₃⟩ := hbyte 3 (by decide)
  refine ⟨_, _, _, hrun, hsound, heip, hbyte₀.trans ?_, hbyte₃.trans ?_,
    hrest 4 (show 4 < 12288 - 2 * PGSIZE by decide) ?_⟩
  · exact hb₀.symm.trans (by decide)
  · exact hb₃.symm.trans (by decide)
  · intro j hj
    obtain rfl : j = 0 := Nat.lt_one_iff.1 hj
    rw [hdr]
    decide

end Xv6.Exec
