import Xv6.Exec.Atomic
import Xv6.PageOwner.Machine

/-!
# Every page has one owner

`Inv` says that the free pages, those of the processes and of the pipes and those that
stay with the kernel are all pages there are.  `step_inv`: no call changes that.
-/

namespace Xv6.PageOwner

open Xv6.Lib Xv6.Mem Xv6.SharedMem Function Finset Option

variable {P : Type} [DecidableEq P] [Fintype P] {L : Layout} {M R X : Multiset Page}
  {initproc p c : P} {s t : State P}

/-! ## Who has what -/

/-- The pages of a process: its kernel stack and its page directory. -/
def Proc.owned (pr : Proc P) : Multiset Page := {pr.kstack} + pr.pgdir.all

/-- The pages of a slot of the process table. -/
def slotPages (x : Option (Proc P)) : Multiset Page := x.elim 0 Proc.owned

/-- The pages of the processes. -/
def procPages (proc : P → Option (Proc P)) : Multiset Page := ∑ p, slotPages (proc p)

/-- The pages of the pipes. -/
def pipePages (pipes : List Pipe) : Multiset Page := (pipes.map Pipe.page : List Page)

/-- The pages that are free or in use by processes and pipes. -/
def State.owned (s : State P) : Multiset Page :=
  (s.mem.kmem.freelist : Multiset Page) + procPages s.mem.proc + pipePages s.pipes

/-- The processes other than `p`. -/
def others (proc : P → Option (Proc P)) (p : P) : Multiset Page :=
  ∑ q ∈ Finset.univ.erase p, slotPages (proc q)

theorem procPages_eq (proc : P → Option (Proc P)) (p : P) :
    procPages proc = slotPages (proc p) + others proc p :=
  (add_sum_erase _ (fun q => slotPages (proc q)) (mem_univ p)).symm

theorem procPages_update (proc : P → Option (Proc P)) (p : P) (x : Option (Proc P)) :
    procPages (update proc p x) = slotPages x + others proc p := by
  rw [procPages_eq _ p, update_self]
  congr 1
  refine sum_congr rfl fun q hq => ?_
  rw [update_of_ne (ne_of_mem_erase hq)]

theorem pipePages_append (a b : List Pipe) : pipePages (a ++ b) = pipePages a + pipePages b := by
  rw [pipePages, List.map_append, ← Multiset.coe_add]
  rfl

theorem pipePages_cons (x : Pipe) (b : List Pipe) : pipePages (x :: b) = {x.page} + pipePages b :=
  rfl

/-- **All pages are accounted for.** -/
structure Inv (L : Layout) (M R : Multiset Page) (s : State P) : Prop where
  held : Held L M s.mem.kmem (procPages s.mem.proc + pipePages s.pipes + R)
  size : ∀ p pr, s.mem.proc p = some pr → pages pr.sz ≤ KERNBASE.toNat
  fault : s.mem.fault ≠ some .doubleFree

omit [DecidableEq P] in
theorem Inv.stop (h : Inv L M R s) {f : Fault} (hf : f ≠ .doubleFree) : Inv L M R (s.stop f) :=
  ⟨h.held, h.size, fun hc => hf (some_inj.1 hc)⟩

/-- What the other processes, the pipes and the kernel have, seen from process `p`. -/
def State.rest (s : State P) (R : Multiset Page) (p : P) : Multiset Page :=
  others s.mem.proc p + pipePages s.pipes + R

variable {pr : Proc P} {k : Kmem}

theorem Inv.proc (h : Inv L M R s) (hpr : s.mem.proc p = some pr) :
    Held L M s.mem.kmem (pr.pgdir.all + ({pr.kstack} + s.rest R p)) := by
  refine h.held.congr ?_
  rw [procPages_eq _ p, hpr, slotPages, elim_some, Proc.owned, State.rest]
  abel

theorem Inv.setProc (h : Inv L M R s) (pr : Proc P)
    (hheld : Held L M k (pr.pgdir.all + ({pr.kstack} + s.rest R p)))
    (hsz : pages pr.sz ≤ KERNBASE.toNat) : Inv L M R (s.setProc p pr k) := by
  refine ⟨?_, ?_, h.fault⟩
  · refine hheld.congr ?_
    change _ = procPages (update s.mem.proc p (some pr)) + pipePages s.pipes + R
    rw [procPages_update, slotPages, elim_some, Proc.owned, State.rest]
    abel
  · refine (forall_update_iff s.mem.proc
      fun _ x => ∀ pr', x = some pr' → pages pr'.sz ≤ KERNBASE.toNat).2 ⟨?_, fun q _ => h.size q⟩
    rintro pr' hpr'
    cases hpr'
    exact hsz

omit [DecidableEq P] [Fintype P] in
theorem proc_of_live {m : SharedMem.State P} (h : m.live p = some pr) :
    m.proc p = some pr := (filter_eq_some_iff.1 h).1

/-! ## The calls -/

theorem Inv.exec (hM : Managed L M) (h : Inv L M R s) (hpr : s.mem.proc p = some pr)
    (file path : List UInt8) {argv : List (List UInt8)} (hargv : ∀ x ∈ argv, x.length + 1 < 4294967296) :
    Inv L M R (stepExec L s p pr file path argv) := by
  have hexec := Exec.execMem_done (c := file) (p := ⟨pr.pgdir, pr.sz, [], 0, 0⟩) hM (fun _ _ => rfl)
    path argv (h.proc hpr) fun _ _ _ _ _ => hargv
  rw [stepExec]
  split
  · rename_i f hf
    rw [hf] at hexec
    exact absurd hexec.1 (by simp)
  · exact h.stop (by simp)
  · rename_i r new k hk
    rw [hk] at hexec
    refine h.setProc { pr with pgdir := new.pgdir, sz := new.sz } ?_ ?_
    · obtain ⟨-, hback | hdone⟩ := hexec
      · obtain ⟨-, rfl, hheld, -⟩ := hback
        exact hheld
      · exact hdone.2.1
    · obtain ⟨-, hback | hdone⟩ := hexec
      · obtain ⟨-, rfl, -⟩ := hback
        exact h.size p pr hpr
      · exact hdone.2.2.1

omit [DecidableEq P] [Fintype P] in
theorem Held.growproc (hM : M.Nodup) (n : BitVec 32) (hsz : pages pr.sz ≤ KERNBASE.toNat)
    (h : Held L M k (pr.pgdir.all + X)) :
    Safe (fun r => pages r.2.1.sz ≤ KERNBASE.toNat ∧ r.2.1.kstack = pr.kstack ∧
      Held L M r.2.2 (r.2.1.pgdir.all + X)) (PageOwner.growproc L n pr k) := by
  rw [PageOwner.growproc]
  dsimp only
  split
  · refine (h.allocuvm hM hsz).bind ?_
    rintro ⟨sz, k', pd⟩ ⟨hsz', hheld⟩
    dsimp only at hsz' hheld ⊢
    split
    · exact ⟨hsz, rfl, hheld⟩
    · exact ⟨hsz', rfl, hheld⟩
  split
  · refine (h.deallocuvm hM hsz).bind ?_
    rintro ⟨k', pd⟩ hheld
    dsimp only at hheld ⊢
    split
    · exact ⟨hsz, rfl, hheld⟩
    · refine ⟨?_, rfl, hheld⟩
      dsimp only [deallocSize]
      split
      · exact hsz
      · rename_i hlt
        refine le_trans ?_ hsz
        simp only [pages, PGSIZE]
        omega
  · exact ⟨hsz, rfl, h⟩

theorem Inv.sbrk (hM : M.Nodup) (h : Inv L M R s) (hpr : s.mem.proc p = some pr) (n : BitVec 32) :
    Inv L M R (stepSbrk L s p pr n) := by
  have hgrow := Held.growproc hM n (h.size p pr hpr) (h.proc hpr)
  rw [stepSbrk]
  split
  · rename_i f hf
    rw [hf] at hgrow
    exact h.stop hgrow
  · rename_i r pr' k hk
    rw [hk] at hgrow
    obtain ⟨hsz, hstack, hheld⟩ := hgrow
    refine h.setProc _ ?_ hsz
    rw [show pr'.kstack = pr.kstack from hstack]
    exact hheld

theorem Held.pipeclose (hM : M.Nodup) {x : Pipe} (w : Bool) (h : Held L M k ({x.page} + X)) :
    Safe (fun r => Held L M r.2 (pipePages r.1.toList + X)) (PageOwner.pipeclose L w x k) := by
  rw [PageOwner.pipeclose]
  split
  · refine (h.kfree hM).bind fun k' hk' => ?_
    change Held L M k' (0 + X)
    rwa [zero_add]
  · exact h

theorem Held.sysPipe (hM : M.Nodup) (files fds : Bool) (h : Held L M k X) :
    Safe (fun r => Held L M r.2 (pipePages r.1.toList + X)) (PageOwner.sysPipe L files fds k) := by
  have hnone : ∀ {k : Kmem}, Held L M k X → Held L M k (pipePages (none : Option Pipe).toList + X) := by
    intro k hk
    change Held L M k (0 + X)
    rwa [zero_add]
  rw [PageOwner.sysPipe]
  split
  · exact hnone h
  split
  · exact hnone h
  · rename_i m k₁ hk
    have htaken := h.kalloc hk
    split
    · exact htaken
    · rw [closeBoth]
      refine (Held.pipeclose hM (x := ⟨⟨true, true⟩, m⟩) false htaken).bind ?_
      rintro ⟨x, k₂⟩ hx
      cases x with
      | none => exact hx
      | some x => exact Held.pipeclose hM true hx

omit [DecidableEq P] in
theorem Inv.pipe (hM : M.Nodup) (h : Inv L M R s) (files fds : Bool) :
    Inv L M R (stepPipe L s files fds) := by
  have hpipe := Held.sysPipe hM files fds h.held
  rw [stepPipe]
  split
  · rename_i f hf
    rw [hf] at hpipe
    exact h.stop hpipe
  · rename_i x k hk
    rw [hk] at hpipe
    refine ⟨?_, h.size, h.fault⟩
    refine Held.congr (show Held L M k (pipePages x.toList + _) from hpipe) ?_
    change _ = procPages s.mem.proc + pipePages (x.toList ++ s.pipes) + R
    rw [pipePages_append]
    abel

omit [DecidableEq P] in
theorem Inv.close (hM : M.Nodup) (h : Inv L M R s) {before after : List Pipe} {x : Pipe}
    (hpipes : s.pipes = before ++ x :: after) (w : Bool) :
    Inv L M R (stepClose L s before after x w) := by
  have hheld : Held L M s.mem.kmem
      ({x.page} + (procPages s.mem.proc + pipePages before + pipePages after + R)) := by
    refine h.held.congr ?_
    rw [hpipes, pipePages_append, pipePages_cons]
    abel
  have hclose := Held.pipeclose hM w hheld
  rw [stepClose]
  split
  · rename_i f hf
    rw [hf] at hclose
    exact h.stop hclose
  · rename_i y k hk
    rw [hk] at hclose
    refine ⟨?_, h.size, h.fault⟩
    refine Held.congr (show Held L M k (pipePages y.toList + _) from hclose) ?_
    change _ = procPages s.mem.proc + pipePages (before ++ y.toList ++ after) + R
    rw [pipePages_append, pipePages_append]
    abel

/-! ### `fork`, `exit` and `wait` -/

theorem Inv.fork (hM : M.Nodup) (h : Inv L M R s) (hpr : s.mem.proc p = some pr)
    (hc : s.mem.proc c = none) : Inv L M R { s with mem := SharedMem.fork L s.mem p c pr } := by
  obtain heq | ⟨f, heq, hf⟩ | ⟨k, heq, hheld⟩ | ⟨kstack, d, k, heq, hheld⟩ :=
    fork_held (p := p) (c := c) hM h.held (h.size p pr hpr)
  · rw [heq]
    exact h
  · rw [heq]
    exact h.stop hf
  · rw [heq]
    exact ⟨hheld, h.size, h.fault⟩
  · rw [heq]
    refine h.setProc (p := c) ⟨false, some p, pr.sz, d, kstack⟩ ?_ (h.size p pr hpr)
    refine hheld.congr ?_
    rw [procPages_eq _ c, hc, State.rest]
    simp only [slotPages, elim_none, zero_add]

theorem Inv.exit (h : Inv L M R s) : Inv L M R { s with mem := SharedMem.exit initproc s.mem p } := by
  rw [SharedMem.exit]
  split
  · exact h.stop (by simp)
  · refine ⟨?_, ?_, h.fault⟩
    · refine h.held.congr ?_
      congr 2
      refine sum_congr rfl fun q _ => ?_
      change slotPages (s.mem.proc q) = slotPages ((s.mem.proc q).map _)
      cases s.mem.proc q <;> rfl
    · intro q pr' hq
      obtain ⟨pr, hpr, rfl⟩ := map_eq_some_iff.1 hq
      exact h.size q pr hpr

theorem Inv.wait (hM : M.Nodup) (h : Inv L M R s) (hpr : s.mem.proc c = some pr) :
    Inv L M R { s with mem := SharedMem.wait L s.mem c pr } := by
  have hheld : Held L M s.mem.kmem ({pr.kstack} + (pr.pgdir.all + s.rest R c)) := by
    refine (h.proc hpr).congr ?_
    abel
  have hstack := hheld.kfree hM
  rw [SharedMem.wait]
  split
  · rename_i f hf
    rw [hf] at hstack
    exact h.stop hstack
  · rename_i k hk
    rw [hk] at hstack
    have hvm := Held.freevm hM hstack
    split
    · rename_i f hf
      rw [hf] at hvm
      exact h.stop hvm
    · rename_i k₁ hk₁
      rw [hk₁] at hvm
      refine ⟨?_, ?_, h.fault⟩
      · refine Held.congr (show Held L M k₁ _ from hvm) ?_
        change _ = procPages (update s.mem.proc c none) + pipePages s.pipes + R
        rw [procPages_update, slotPages, elim_none, zero_add, State.rest]
      · exact (forall_update_iff s.mem.proc
          fun _ x => ∀ pr', x = some pr' → pages pr'.sz ≤ KERNBASE.toNat).2
          ⟨nofun, fun q _ => h.size q⟩

theorem step_inv (hM : Managed L M) {a : Act P} (h : Inv L M R s)
    (hst : step L initproc s a = some t) : Inv L M R t := by
  unfold step at hst
  split at hst
  · cases hst
  cases a with
  | fork p c =>
    obtain ⟨m, hm, rfl⟩ := map_eq_some_iff.1 hst
    obtain ⟨-, hmove⟩ := moves_of_step hm
    cases hmove with
    | fork hpr hc => exact h.fork hM.nodup hpr hc
  | exit p =>
    obtain ⟨m, hm, rfl⟩ := map_eq_some_iff.1 hst
    obtain ⟨-, hmove⟩ := moves_of_step hm
    cases hmove with
    | exit => exact h.exit
  | wait p c =>
    obtain ⟨m, hm, rfl⟩ := map_eq_some_iff.1 hst
    obtain ⟨-, hmove⟩ := moves_of_step hm
    cases hmove with
    | wait hpr => exact h.wait hM.nodup hpr
  | exec p file path argv =>
    obtain ⟨hargv, hst⟩ := ite_none_right_eq_some.1 hst
    obtain ⟨pr, hpr, rfl⟩ := map_eq_some_iff.1 hst
    exact h.exec hM (proc_of_live hpr) file path hargv
  | sbrk p n =>
    obtain ⟨pr, hpr, rfl⟩ := map_eq_some_iff.1 hst
    exact h.sbrk hM.nodup (proc_of_live hpr) n
  | pipe files fds =>
    cases hst
    exact h.pipe hM.nodup files fds
  | close i w =>
    dsimp only at hst
    split at hst
    · cases hst
    · rename_i x after hdrop
      cases hst
      refine h.close hM.nodup ?_ w
      rw [← hdrop, List.take_append_drop]

end Xv6.PageOwner
