import Xv6.Log.Group

/-!
# Group commit

The log commits only when no operation is in progress, and what it commits then
is exactly what the operations since the previous commit logged.

The invariant `GroupInv` ties the counter `log.outstanding` to the processes in
an operation, the flag `log.committing` to the process running `commit()`, and
the header to the blocks logged since the last commit by the operations in
progress and by those that have ended.
-/

namespace Xv6.Log

open Xv6.Lib Function List

variable {P : Type} [DecidableEq P] [Fintype P]

/-! ## Counting the operations in progress -/

/-- The number of processes in an operation. -/
def nactive (pc : P → Pc) : ℤ := ∑ q, if (pc q).active then 1 else 0

theorem nactive_update (pc : P → Pc) (p : P) (v : Pc) :
    nactive (update pc p v) + (if (pc p).active then 1 else 0)
      = nactive pc + (if v.active then 1 else 0) :=
  sum_update_add (fun (_ : P) (x : Pc) => if x.active then (1 : ℤ) else 0) pc p v

omit [DecidableEq P] in
@[simp] theorem nactive_wakeup (pc : P → Pc) : nactive (wakeup pc) = nactive pc := by
  simp [nactive]

variable {p : P} {s : State P}

omit [DecidableEq P] in
theorem nactive_pos {pc : P → Pc} (hp : (pc p).active = true) : 0 < nactive pc := by
  refine Finset.sum_pos' ?_ ⟨p, Finset.mem_univ p, by simp [hp]⟩
  intro q _
  split <;> simp

omit [DecidableEq P] in
theorem nactive_eq_zero_iff {pc : P → Pc} : nactive pc = 0 ↔ ∀ q, (pc q).active = false := by
  constructor
  · intro h q
    by_contra hq
    have hpos : 0 < nactive pc := nactive_pos (p := q) (by simpa using hq)
    omega
  · intro h
    simp [nactive, h]

/-! ## The invariant -/

/-- How the fields of the log hang together with the processes and the
operations. -/
structure GroupInv (s : State P) : Prop where
  count : s.outstanding = nactive s.pc
  quiet : s.committing = true → ∀ q, (s.pc q).active = false
  committer : ∀ q, (s.pc q).commits = true → s.committing = true
  single : ∀ p q, (s.pc p).commits = true → (s.pc q).commits = true → p = q
  nodup : s.lh.Nodup
  logged : ∀ b, b ∈ s.lh ↔ (∃ q, (s.pc q).active = true ∧ b ∈ s.writes q) ∨
    ∃ o ∈ s.ended, o.died = s.ncommit ∧ b ∈ o.writes
  born : ∀ q, (s.pc q).active = true → s.born q = s.ncommit
  died : ∀ o ∈ s.ended, o.born = o.died ∧ o.died ≤ s.ncommit
  noPanic : s.panic ≠ some .committing

omit [DecidableEq P] in
theorem groupInv_initial : GroupInv (initial : State P) := by
  refine ⟨?_, ?_, ?_, ?_, ?_, ?_, ?_, ?_, ?_⟩ <;> simp [initial, nactive, Pc.active, Pc.commits]

theorem GroupInv.move (h : GroupInv s) {v : Pc} (hact : v.active = (s.pc p).active)
    (hcom : v.commits = (s.pc p).commits) :
    GroupInv { s with pc := update s.pc p v } := by
  have hact' : ∀ q, (update s.pc p v q).active = (s.pc q).active := by
    intro q
    by_cases hq : q = p
    · subst hq; rw [update_self, hact]
    · rw [update_of_ne hq]
  have hcom' : ∀ q, (update s.pc p v q).commits = (s.pc q).commits := by
    intro q
    by_cases hq : q = p
    · subst hq; rw [update_self, hcom]
    · rw [update_of_ne hq]
  refine ⟨?_, ?_, ?_, ?_, h.nodup, ?_, ?_, h.died, h.noPanic⟩
  · have hc := h.count
    simp only [nactive] at hc ⊢
    simp only [hact', hc]
  · intro hc q
    rw [hact']
    exact h.quiet hc q
  · intro q hq
    rw [hcom'] at hq
    exact h.committer q hq
  · intro q q' hq hq'
    rw [hcom'] at hq hq'
    exact h.single q q' hq hq'
  · intro b
    simp only [hact']
    exact h.logged b
  · intro q hq
    rw [hact'] at hq
    exact h.born q hq

theorem GroupInv.enter (h : GroupInv s) (hp : s.pc p = .test) (hc : s.committing = false) :
    GroupInv { s with
      outstanding := s.outstanding + 1
      pc := update s.pc p .inOp
      writes := update s.writes p []
      born := update s.born p s.ncommit } := by
  refine ⟨?_, ?_, ?_, ?_, h.nodup, ?_, ?_, h.died, h.noPanic⟩
  · have hn := nactive_update s.pc p .inOp
    simp only [hp, Pc.active] at hn
    simp only [h.count]
    simpa using hn.symm
  · intro hc'
    exact absurd (hc.symm.trans hc') (by simp)
  · intro q hq
    by_cases hqp : q = p
    · subst hqp; simp [Pc.commits] at hq
    · exact h.committer q (by simpa [hqp] using hq)
  · intro q q' hq hq'
    have hcom : (s.pc q).commits = true := by
      by_cases hqp : q = p
      · subst hqp; simp [Pc.commits] at hq
      · simpa [hqp] using hq
    exact absurd (h.committer q hcom) (by simp [hc])
  · intro b
    rw [h.logged b]
    constructor
    · rintro (⟨q, hq, hb⟩ | ho)
      · have hqp : q ≠ p := by rintro rfl; simp [hp, Pc.active] at hq
        exact .inl ⟨q, by simpa [hqp] using hq, by simpa [hqp] using hb⟩
      · exact .inr ho
    · rintro (⟨q, hq, hb⟩ | ho)
      · have hqp : q ≠ p := by rintro rfl; simp at hb
        exact .inl ⟨q, by simpa [hqp] using hq, by simpa [hqp] using hb⟩
      · exact .inr ho
  · intro q hq
    by_cases hqp : q = p
    · subst hqp; simp
    · simp only [update_of_ne hqp] at hq ⊢
      exact h.born q hq

theorem GroupInv.append (h : GroupInv s) {b : ℕ} (hp : s.pc p = .appending b) :
    GroupInv (Log.append s p b) := by
  have hm := h.move (p := p) (v := .inOp) (by simp [hp, Pc.active]) (by simp [hp, Pc.commits])
  refine ⟨hm.count, hm.quiet, hm.committer, hm.single, nodup_absorb h.nodup b, ?_, hm.born, h.died,
    h.noPanic⟩
  intro c
  show c ∈ absorb s.lh b ↔ _
  rw [mem_absorb, hm.logged c]
  constructor
  · rintro ((⟨q, hq, hc⟩ | ho) | rfl)
    · refine Or.inl ⟨q, hq, ?_⟩
      by_cases hqp : q = p
      · subst hqp; simpa [Log.append] using Or.inr hc
      · simpa [Log.append, hqp] using hc
    · exact .inr ho
    · exact .inl ⟨p, by simp [Log.append, Pc.active], by simp [Log.append]⟩
  · rintro (⟨q, hq, hc⟩ | ho)
    · by_cases hqp : q = p
      · subst hqp
        simp only [Log.append, update_self, mem_cons] at hc
        rcases hc with rfl | hc
        · exact .inr rfl
        · exact .inl (Or.inl ⟨q, hq, hc⟩)
      · exact .inl (Or.inl ⟨q, hq, by simpa [Log.append, hqp] using hc⟩)
    · exact .inl (Or.inr ho)

theorem GroupInv.end (h : GroupInv s) (hp : s.pc p = .inOp) {v : Pc} (hv : v.active = false) :
    s.outstanding - 1 = nactive (update s.pc p v) ∧
      (∀ b, b ∈ s.lh ↔
        (∃ q, (update s.pc p v q).active = true ∧ b ∈ s.writes q) ∨
        ∃ o ∈ (⟨s.writes p, s.born p, s.ncommit⟩ :: s.ended : List Op),
          o.died = s.ncommit ∧ b ∈ o.writes) ∧
      (∀ q, (update s.pc p v q).active = true → s.born q = s.ncommit) ∧
      (∀ o ∈ (⟨s.writes p, s.born p, s.ncommit⟩ :: s.ended : List Op),
        o.born = o.died ∧ o.died ≤ s.ncommit) := by
  have hact : (s.pc p).active = true := by simp [hp, Pc.active]
  refine ⟨?_, ?_, ?_, ?_⟩
  · have hn := nactive_update s.pc p v
    rw [if_pos hact, hv] at hn
    rw [h.count, ← show nactive (update s.pc p v) + 1 = nactive s.pc by simpa using hn]
    omega
  · intro b
    rw [h.logged b]
    constructor
    · rintro (⟨q, hq, hb⟩ | ⟨o, ho, hd, hb⟩)
      · by_cases hqp : q = p
        · subst hqp
          exact .inr ⟨_, mem_cons_self .., rfl, hb⟩
        · exact .inl ⟨q, by simpa [hqp] using hq, hb⟩
      · exact .inr ⟨o, mem_cons_of_mem _ ho, hd, hb⟩
    · rintro (⟨q, hq, hb⟩ | ⟨o, ho, hd, hb⟩)
      · have hqp : q ≠ p := by rintro rfl; simp [hv] at hq
        exact .inl ⟨q, by simpa [hqp] using hq, hb⟩
      · rcases mem_cons.1 ho with rfl | ho
        · exact .inl ⟨p, hact, hb⟩
        · exact .inr ⟨o, ho, hd, hb⟩
  · intro q hq
    have hqp : q ≠ p := by rintro rfl; simp [hv] at hq
    exact h.born q (by simpa [hqp] using hq)
  · intro o ho
    rcases mem_cons.1 ho with rfl | ho
    · exact ⟨h.born p hact, Nat.le_refl _⟩
    · exact h.died o ho

theorem GroupInv.endLast (h : GroupInv s) (hp : s.pc p = .inOp) (hc : s.committing = false)
    (hlast : s.outstanding = 1) :
    GroupInv { s with
      outstanding := 0
      committing := true
      pc := update s.pc p .commit
      ended := ⟨s.writes p, s.born p, s.ncommit⟩ :: s.ended } := by
  obtain ⟨hcount, hlog, hborn, hdied⟩ := h.end hp (v := .commit) rfl
  have hzero : nactive (update s.pc p .commit) = 0 := by omega
  have honly : ∀ q, (update s.pc p Pc.commit q).commits = true → q = p := by
    intro q hq
    by_contra hqp
    rw [update_of_ne hqp] at hq
    exact absurd (h.committer q hq) (by simp [hc])
  refine ⟨hzero.symm, fun _ => nactive_eq_zero_iff.1 hzero, fun _ _ => rfl, ?_, h.nodup, hlog, hborn,
    hdied, h.noPanic⟩
  intro q q' hq hq'
  rw [honly q hq, honly q' hq']

theorem GroupInv.endMore (h : GroupInv s) (hp : s.pc p = .inOp) (hc : s.committing = false) :
    GroupInv { s with
      outstanding := s.outstanding - 1
      pc := wakeup (update s.pc p .out)
      ended := ⟨s.writes p, s.born p, s.ncommit⟩ :: s.ended } := by
  obtain ⟨hcount, hlog, hborn, hdied⟩ := h.end hp (v := .out) rfl
  have hnone : ∀ q, (update s.pc p Pc.out q).commits = false := by
    intro q
    by_cases hqp : q = p
    · subst hqp; simp [Pc.commits]
    · rw [update_of_ne hqp]
      by_contra hq
      exact absurd (h.committer q (by simpa using hq)) (by simp [hc])
  refine ⟨by simpa using hcount, ?_, ?_, ?_, h.nodup, ?_, ?_, hdied, h.noPanic⟩
  · intro hc'
    exact absurd (hc.symm.trans hc') (by simp)
  · intro q hq
    simp [hnone] at hq
  · intro q q' hq
    simp [hnone] at hq
  · simpa using hlog
  · simpa using hborn

theorem GroupInv.clear (h : GroupInv s) (hp : s.pc p = .installed) :
    GroupInv (Log.clear s p) := by
  have hm := h.move (p := p) (v := .committed) (by simp [hp, Pc.active]) (by simp [hp, Pc.commits])
  have hquiet : ∀ q, (update s.pc p Pc.committed q).active = false :=
    hm.quiet (h.committer p (by simp [hp, Pc.commits]))
  refine ⟨hm.count, hm.quiet, hm.committer, hm.single, nodup_nil, ?_, ?_, ?_, h.noPanic⟩
  · intro b
    -- nothing is in progress, and no operation has ended since this commit
    constructor
    · intro hb
      exact absurd hb not_mem_nil
    · rintro (⟨q, hq, -⟩ | ⟨o, ho, hd, -⟩)
      · exact absurd hq (by simp [Log.clear, hquiet q])
      · have hle := (h.died o ho).2
        simp only [Log.clear] at hd
        omega
  · intro q hq
    exact absurd hq (by simp [Log.clear, hquiet q])
  · intro o ho
    have ho' := h.died o ho
    exact ⟨ho'.1, Nat.le_succ_of_le ho'.2⟩

theorem GroupInv.finish (h : GroupInv s) (hp : s.pc p = .committed) :
    GroupInv (Log.finish s p) := by
  have hpc : (s.pc p).commits = true := by simp [hp, Pc.commits]
  have hquiet := h.quiet (h.committer p hpc)
  have hact : ∀ q, (update s.pc p Pc.out q).active = false := by
    intro q
    by_cases hqp : q = p
    · subst hqp; simp [Pc.active]
    · rw [update_of_ne hqp, hquiet q]
  have hnone : ∀ q, (update s.pc p Pc.out q).commits = false := by
    intro q
    by_cases hqp : q = p
    · subst hqp; simp [Pc.commits]
    · rw [update_of_ne hqp]
      by_contra hq
      exact hqp (h.single q p (by simpa using hq) hpc)
  have hzero : nactive s.pc = 0 := nactive_eq_zero_iff.2 hquiet
  refine ⟨?_, ?_, ?_, ?_, h.nodup, ?_, ?_, h.died, h.noPanic⟩
  · show s.outstanding = nactive (wakeup _)
    rw [nactive_wakeup, h.count, hzero, nactive_eq_zero_iff.2 hact]
  · intro hc
    exact absurd hc (by simp [Log.finish])
  · intro q hq
    simp [Log.finish, hnone] at hq
  · intro q q' hq
    simp [Log.finish, hnone] at hq
  · intro b
    have hb := h.logged b
    simpa [Log.finish, hact, hquiet] using hb
  · intro q hq
    simp [Log.finish, hact] at hq

theorem GroupInv.step {size : ℕ} {t : State P} {a : Act P} (h : GroupInv s)
    (hst : step size s a = some t) : GroupInv t := by
  obtain ⟨-, hm⟩ := moves_of_step hst
  cases hm with
  | beginOp hp => exact h.move (by simp [hp, Pc.active]) (by simp [hp, Pc.commits])
  | sleep hp => exact h.move (by simp [hp, Pc.active]) (by simp [hp, Pc.commits])
  | enter hp hc _ => exact h.enter hp hc
  | tooBig _ _ => exact ⟨h.1, h.2, h.3, h.4, h.5, h.6, h.7, h.8, by simp⟩
  | outsideTrans _ _ => exact ⟨h.1, h.2, h.3, h.4, h.5, h.6, h.7, h.8, by simp⟩
  | check hp _ _ => exact h.move (by simp [hp, Pc.active]) (by simp [hp, Pc.commits])
  | append hp => exact h.append hp
  | @endPanic p hp hc =>
    -- a committing log has no operation in progress that could end
    exact absurd (h.quiet hc p) (by simp [hp, Pc.active])
  | endLast hp hc hlast => exact h.endLast hp hc hlast
  | endMore hp hc _ => exact h.endMore hp hc
  | commit hp => exact h.move (by simp [hp, Pc.active]) (by simp [hp, Pc.commits])
  | clear hp => exact h.clear hp
  | finish hp => exact h.finish hp
  | kill hp => exact h.move (by simp [hp, Pc.active]) (by simp [hp, Pc.commits])

theorem groupInv_of_reach {size : ℕ} {ok : State P → Act P → Prop} (h : (system P size).Reach ok s) :
    GroupInv s := by
  refine Lts.Reach.invariant ?_ ?_ h
  · rintro s rfl
    exact groupInv_initial
  · intro s a t hs _ hst
    exact hs.step hst

/-! ## Group commit never splits an operation -/

/-- **Group commit never splits an operation.**  In every state that any number
of processes can reach, whatever the order of their steps: while the log is
committing no operation is outstanding; the panic of `end_op` has not been
reached; and whenever a process is about to run `commit()`, no operation is in
progress, every operation began and ended between the same two commits, and the
header lists without duplicates exactly the blocks logged by the operations
since the previous commit. -/
theorem group_commit (size : ℕ) {s : State P} (h : (system P size).Reach (fun _ _ => True) s) :
    (s.committing = true → s.outstanding = 0) ∧
      s.panic ≠ some .committing ∧
      ∀ p, s.pc p = .commit →
        s.lh.Nodup ∧ (∀ q, (s.pc q).active = false) ∧ (∀ o ∈ s.ended, o.born = o.died) ∧
        ∀ b, b ∈ s.lh ↔
          ∃ o ∈ s.ended, o.born = s.ncommit ∧ o.died = s.ncommit ∧ b ∈ o.writes := by
  have hinv := groupInv_of_reach h
  refine ⟨?_, hinv.noPanic, ?_⟩
  · intro hc
    rw [hinv.count, nactive_eq_zero_iff.2 (hinv.quiet hc)]
  · intro p hp
    have hquiet := hinv.quiet (hinv.committer p (by simp [hp, Pc.commits]))
    refine ⟨hinv.nodup, hquiet, fun o ho => (hinv.died o ho).1, ?_⟩
    intro b
    rw [hinv.logged b]
    constructor
    · rintro (⟨q, hq, -⟩ | ⟨o, ho, hd, hb⟩)
      · exact absurd hq (by simp [hquiet q])
      · exact ⟨o, ho, (hinv.died o ho).1.trans hd, hd, hb⟩
    · rintro ⟨o, ho, -, hd, hb⟩
      exact .inr ⟨o, ho, hd, hb⟩

/-- Two operations overlap; block 7, which both log, is absorbed, and the second to end is about to
commit the blocks of both. -/
theorem group_commit_absorbs :
    ∃ s : State (Fin 2), (system (Fin 2) 30).Reach (fun _ _ => True) s ∧ s.pc 1 = .commit ∧
      s.lh = [7, 8] ∧ s.ended.map Op.writes = [[8, 7], [7]] ∧ s.outstanding = 0 ∧ s.lh.Nodup ∧
      ∀ b, b ∈ s.lh ↔ ∃ o ∈ s.ended, o.born = s.ncommit ∧ o.died = s.ncommit ∧ b ∈ o.writes := by
  have h₀ : (system (Fin 2) 30).Reach (fun _ _ => True) initial := .init rfl
  obtain ⟨s, hs, hv⟩ := Lts.reach_of_exec_map
    [.beginOp 0, .beginTest 0, .beginOp 1, .beginTest 1, .logWrite 0 7, .append 0, .logWrite 1 7,
      .append 1, .endOp 0, .logWrite 1 8, .append 1, .endOp 1]
    (fun s => (s.pc 1, s.lh, s.ended.map Op.writes, s.committing)) (.commit, [7, 8], [[8, 7], [7]], true) h₀
    (by decide)
  simp only [Prod.mk.injEq] at hv
  obtain ⟨hcount, -, hcommit⟩ := group_commit 30 hs
  obtain ⟨hnd, -, -, hmem⟩ := hcommit 1 hv.1
  exact ⟨s, hs, hv.1, hv.2.1, hv.2.2.1, hcount hv.2.2.2, hnd, hmem⟩

end Xv6.Log
