import Xv6.Log.Crash
import Xv6.Log.GroupCommit

/-!
# Space in the log

`begin_op` reserves `MAXOPBLOCKS` header entries for each operation out of
`LOGSIZE`, `log_write` panics at `log.size - 1`, and `mkfs` makes
`log.size = nlog = LOGSIZE`.  The header block takes one of these blocks, so
the log holds one block less than `begin_op` hands out.

* `log_stays_in_region` — when the log stays inside its disk region: exactly
  when every call that passes `log_write`'s check leaves room for all the calls
  that are past it.
* `log_write_room` — when `log_write` does not panic: exactly when fewer than
  `log.size - 1` blocks have been logged since the last commit.
* `three_operations_spill`, `three_operations_panic` — three operations of
  `MAXOPBLOCKS` blocks each, all admitted by `begin_op`, that break the one and
  the other.
-/

namespace Xv6.Log

open Xv6.Lib Finset Option

/-- `nlog` of `mkfs.c`, the number of log blocks. -/
def nlog : ℕ := LOGSIZE

/-- `sb.logstart` as `mkfs` writes it. -/
def logstart : ℕ := 2

/-- `sb.inodestart` as `mkfs` writes it: the block behind the log. -/
def inodestart : ℕ := 2 + nlog

/-- The log region of a file system made by `mkfs`. -/
def mkfsRegion : Region := ⟨logstart, nlog, by decide⟩

variable {P : Type} [DecidableEq P] [Fintype P]

/-! ## What the callers promise -/

/-- The process and the block of a call of `log_write`. -/
def Act.logged : Act P → Option (P × ℕ)
  | .logWrite p b => some (p, b)
  | _ => none

/-- Each operation logs at most `MAXOPBLOCKS` distinct blocks. -/
def Budget (s : State P) (a : Act P) : Prop :=
  ∀ x ∈ a.logged, (x.2 :: s.writes x.1).toFinset.card ≤ MAXOPBLOCKS

instance (s : State P) (a : Act P) : Decidable (Budget s a) :=
  inferInstanceAs (Decidable (∀ x ∈ a.logged, _))

/-- Calls of `log_write` do not overlap. -/
def Serial (s : State P) (a : Act P) : Prop :=
  a.logged.isSome = true → ∀ q, (s.pc q).pending = ∅

instance (s : State P) (a : Act P) : Decidable (Serial s a) :=
  inferInstanceAs (Decidable (_ → _))

/-! ## The blocks `write_log` writes -/

theorem writeLogFrom_blocks (start : ℕ) (bs : List UInt32) : ∀ (tail : ℕ) (m : Mem),
    (writeLogFrom start tail bs m).writes.map Prod.fst =
      m.writes.map Prod.fst ++ List.range' (start + tail + 1) bs.length := by
  induction bs with
  | nil => intro tail m; simp [writeLogFrom]
  | cons b bs ih =>
    intro tail m
    rw [writeLogFrom, ih, List.length_cons, List.range'_succ, ← Nat.add_assoc start tail 1]
    simp [bwrite, copyBuf]

/-! ## Staying inside the region -/

/-- The blocks that the header lists or that some process, past the check of
`log_write`, is about to append. -/
def claimed (s : State P) : Finset ℕ :=
  s.lh.toFinset ∪ Finset.univ.biUnion fun q => (s.pc q).pending

/-- A call of `log_write` finds room for its own block beside the blocks of the
header and of the calls that are past the check. -/
def RoomForAll (s : State P) (a : Act P) : Prop :=
  ∀ x ∈ a.logged, (insert x.2 (claimed s)).card ≤ nlog - 1

instance (s : State P) (a : Act P) : Decidable (RoomForAll s a) :=
  inferInstanceAs (Decidable (∀ x ∈ a.logged, _))

variable {s t : State P} {b : ℕ}

omit [DecidableEq P] in
theorem mem_claimed :
    b ∈ claimed s ↔ b ∈ s.lh ∨ ∃ q, b ∈ (s.pc q).pending := by
  simp [claimed]

theorem mem_claimed_move {p : P} {v : Pc} (hlh : ∀ b ∈ t.lh, b ∈ s.lh)
    (hpc : ∀ q, (t.pc q).pending = (Function.update s.pc p v q).pending) (hb : b ∈ claimed t) :
    b ∈ claimed s ∨ b ∈ v.pending := by
  rw [mem_claimed] at hb ⊢
  rcases hb with hb | ⟨q, hq⟩
  · exact .inl (Or.inl (hlh b hb))
  · rw [hpc] at hq
    by_cases hqp : q = p
    · subst hqp
      exact .inr (by simpa using hq)
    · exact .inl (Or.inr ⟨q, by simpa [hqp] using hq⟩)

theorem claimed_step {size : ℕ} {a : Act P} (hst : step size s a = some t) :
    ∀ b ∈ claimed t, b ∈ claimed s ∨ ∃ p, a.logged = some (p, b) := by
  obtain ⟨-, hm⟩ := moves_of_step hst
  intro b hb
  have hmove : ∀ {p : P} {v : Pc}, v.pending = ∅ → (∀ b ∈ t.lh, b ∈ s.lh) →
      (∀ q, (t.pc q).pending = (Function.update s.pc p v q).pending) → b ∈ claimed s := by
    intro p v hv hlh hpc
    rcases mem_claimed_move hlh hpc hb with h | h
    · exact h
    · simp [hv] at h
  cases hm with
  | beginOp _ => exact .inl (hmove rfl (fun _ h => h) fun _ => rfl)
  | sleep _ => exact .inl (hmove rfl (fun _ h => h) fun _ => rfl)
  | enter _ _ _ => exact .inl (hmove rfl (fun _ h => h) fun _ => rfl)
  | tooBig _ _ => exact .inl hb
  | outsideTrans _ _ => exact .inl hb
  | @check p c _ _ _ =>
    refine (mem_claimed_move (s := s) (p := p) (v := .appending c) ?_ ?_ hb).imp id ?_
    · exact fun _ h => h
    · exact fun _ => rfl
    · intro h
      exact ⟨p, by rw [mem_singleton.1 h]; rfl⟩
  | @append p c hp =>
    left
    have hc : c ∈ claimed s := mem_claimed.2 (Or.inr ⟨p, by simp [hp, Pc.pending]⟩)
    rw [mem_claimed] at hb
    rcases hb with hb | ⟨q, hq⟩
    · rcases mem_absorb.1 hb with hb | rfl
      · exact mem_claimed.2 (Or.inl hb)
      · exact hc
    · by_cases hqp : q = p
      · subst hqp; simp [append, Pc.pending] at hq
      · exact mem_claimed.2 (Or.inr ⟨q, by simpa [append, hqp] using hq⟩)
  | endPanic _ _ => exact .inl hb
  | endLast _ _ _ => exact .inl (hmove rfl (fun _ h => h) fun _ => rfl)
  | @endMore p _ _ _ =>
    exact .inl (hmove (p := p) (v := .out) rfl (fun _ h => h) fun _ => pending_wakeup ..)
  | commit _ => exact .inl (hmove rfl (fun _ h => h) fun _ => rfl)
  | @clear p _ =>
    exact .inl (hmove (p := p) (v := .committed) rfl (fun _ h => absurd h List.not_mem_nil)
      fun _ => rfl)
  | @finish p _ =>
    exact .inl (hmove (p := p) (v := .out) rfl (fun _ h => h) fun _ => pending_wakeup ..)
  | kill _ => exact .inl (hmove rfl (fun _ h => h) fun _ => rfl)

theorem card_claimed_le (h : (system P nlog).Reach RoomForAll s) :
    (claimed s).card ≤ nlog - 1 := by
  refine Lts.Reach.invariant (I := fun s => (claimed s).card ≤ nlog - 1) ?_ ?_ h
  · rintro s rfl
    have hnil : claimed (initial : State P) = ∅ := by
      ext b
      simp [mem_claimed, initial, Pc.pending]
    rw [hnil]
    exact Nat.zero_le _
  · intro s a t hs hok hst
    have hsub := claimed_step hst
    cases hl : a.logged with
    | none =>
      refine (card_le_card ?_).trans hs
      intro b hb
      rcases hsub b hb with h | ⟨p, hp⟩
      · exact h
      · simp [hl] at hp
    | some x =>
      refine (card_le_card ?_).trans (hok x hl)
      intro b hb
      rcases hsub b hb with h | ⟨p, hp⟩
      · exact mem_insert_of_mem h
      · rw [hl, Option.some.injEq] at hp
        rw [hp]
        exact mem_insert_self ..

omit [DecidableEq P] in
theorem length_lh_le_card_claimed (h : GroupInv s) :
    s.lh.length ≤ (claimed s).card := by
  rw [← List.toFinset_card_of_nodup h.nodup]
  exact card_le_card subset_union_left

theorem spills_of_claimed {ok : State P → Act P → Prop} (hok : ∀ s p, ok s (.append p)) :
    ∀ (n : ℕ) {s : State P}, (system P nlog).Reach ok s → s.panic = none →
      nlog ≤ (claimed s).card → nlog ≤ s.lh.length + n →
      ∃ t, (system P nlog).Reach ok t ∧ nlog ≤ t.lh.length := by
  intro n
  induction n with
  | zero => intro s hs _ _ hlen; exact ⟨s, hs, hlen⟩
  | succ n ih =>
    intro s hs hpanic hclaim hlen
    have hinv := groupInv_of_reach hs
    by_cases hfull : nlog ≤ s.lh.length
    · exact ⟨s, hs, hfull⟩
    -- some block is claimed and not yet listed: its process can append it
    obtain ⟨b, hb, hnot⟩ : ∃ b ∈ claimed s, b ∉ s.lh := by
      by_contra hno
      push Not at hno
      have hsub : claimed s ⊆ s.lh.toFinset := fun b hb => List.mem_toFinset.2 (hno b hb)
      have hcard := card_le_card hsub
      rw [List.toFinset_card_of_nodup hinv.nodup] at hcard
      omega
    obtain ⟨q, hq⟩ := (mem_claimed.1 hb).resolve_left hnot
    have hpc : s.pc q = .appending b := by
      cases hs' : s.pc q <;> simp_all [Pc.pending]
    have hstep : step nlog s (.append q) = some (append s q b) := by
      simp only [step, hpc]
      exact if_pos ⟨hpanic, Or.inr (not_le.1 hfull)⟩
    have hlh : (append s q b).lh = s.lh ++ [b] := by
      show absorb s.lh b = _
      rw [absorb_eq, if_neg hnot]
    have hsub : claimed s ⊆ claimed (append s q b) := by
      intro c hc
      rw [mem_claimed] at hc ⊢
      rcases hc with hc | ⟨q', hq'⟩
      · exact .inl (by simp [hlh, hc])
      · by_cases hqq : q' = q
        · subst hqq
          rw [hpc] at hq'
          exact .inl (by simp [hlh, mem_singleton.1 hq'])
        · exact .inr ⟨q', by simpa [append, hqq] using hq'⟩
    refine ih (.step hs (hok s q) hstep) hpanic (hclaim.trans (card_le_card hsub)) ?_
    rw [hlh, List.length_append, List.length_singleton]
    omega

/-- **When the log stays inside its disk region**, for `log.size = nlog` as
`mkfs` writes it.  In every run in which each call of `log_write` finds room for
its block beside those of the header and of the calls past the check, the header
lists at most `nlog - 1` blocks in every state, and `write_log`, run on that header,
writes only the blocks behind the header block and in front of the inode blocks.  Conversely, a
call that passes the check without that room can be followed by a run that
fills the header beyond the log. -/
theorem log_stays_in_region :
    (∀ s : State P, (system P nlog).Reach RoomForAll s →
      s.lh.length ≤ nlog - 1 ∧
        ∀ m : Mem, m.lh.block.map UInt32.toNat = s.lh → m.writes = [] →
          ∀ w ∈ (writeLog mkfsRegion m).writes,
            logstart + 1 ≤ w.1 ∧ w.1 ≤ logstart + nlog - 1 ∧ w.1 < inodestart) ∧
    ∀ (s t : State P) (p : P) (b : ℕ), (system P nlog).Reach Budget s →
      Budget s (.logWrite p b) → step nlog s (.logWrite p b) = some t → t.panic = none →
      ¬ RoomForAll s (.logWrite p b) →
      ∃ u, (system P nlog).Reach Budget u ∧ nlog - 1 < u.lh.length := by
  have hn : nlog = 30 := rfl
  refine ⟨?_, ?_⟩
  · intro s hs
    have hle : s.lh.length ≤ nlog - 1 :=
      (length_lh_le_card_claimed (groupInv_of_reach hs)).trans (card_claimed_le hs)
    refine ⟨hle, ?_⟩
    intro m hlh hnil w hw
    have hb := List.mem_map_of_mem (f := Prod.fst) hw
    rw [writeLog, writeLogFrom_blocks, hnil, List.map_nil, List.nil_append,
      ← List.length_map UInt32.toNat, hlh, List.mem_range'_1] at hb
    have hr : mkfsRegion.start = 2 := rfl
    have hl : logstart = 2 := rfl
    have hi : inodestart = 32 := rfl
    omega
  · intro s t p b hs hbud hst hpanic hroom
    have hreach : (system P nlog).Reach Budget t := .step hs hbud hst
    have hcard : nlog ≤ (insert b (claimed s)).card := by
      by_contra hlt
      refine hroom ?_
      rintro x hx
      obtain rfl : (p, b) = x := Option.some.inj hx
      show (insert b (claimed s)).card ≤ nlog - 1
      omega
    have hsub : insert b (claimed s) ⊆ claimed t := by
      obtain ⟨-, hm⟩ := moves_of_step hst
      cases hm with
      | tooBig _ _ => simp at hpanic
      | outsideTrans _ _ => simp at hpanic
      | check hp _ _ =>
        intro c hc
        rw [mem_claimed]
        rcases mem_insert.1 hc with rfl | hc
        · exact .inr ⟨p, by simp [Pc.pending]⟩
        · rcases mem_claimed.1 hc with hc | ⟨q, hq⟩
          · exact .inl hc
          · have hqp : q ≠ p := by rintro rfl; simp [hp, Pc.pending] at hq
            exact .inr ⟨q, by simpa [hqp] using hq⟩
    have hfree : ∀ (s : State P) (p : P), Budget s (.append p) := by
      intro s p x hx
      simp [Act.logged] at hx
    obtain ⟨u, hu, hlen⟩ := spills_of_claimed hfree nlog hreach hpanic
      (hcard.trans (card_le_card hsub)) (Nat.le_add_left _ _)
    exact ⟨u, hu, by omega⟩

/-! ## Three operations of ten blocks -/

/-- Process `p` calls `log_write` for each of the blocks, one call after the
other. -/
def logEach (p : P) (bs : List ℕ) : List (Act P) := bs.flatMap fun b => [.logWrite p b, .append p]

/-- Three processes begin an operation each; all three are admitted. -/
def beginThree : List (Act (Fin 3)) :=
  [.beginOp 0, .beginTest 0, .beginOp 1, .beginTest 1, .beginOp 2, .beginTest 2]

/-- The two last calls both pass the check before either appends. -/
def overlappingRun : List (Act (Fin 3)) :=
  beginThree ++ logEach 0 (List.range' 100 10) ++ logEach 1 (List.range' 110 9) ++
    logEach 2 (List.range' 120 9) ++ [.logWrite 1 119, .logWrite 2 129, .append 1, .append 2] ++
    [.endOp 0, .endOp 1, .endOp 2]

/-- The run up to the point where one call is past the check at the last free
entry but one. -/
def beforeOverlap : List (Act (Fin 3)) :=
  beginThree ++ logEach 0 (List.range' 100 10) ++ logEach 1 (List.range' 110 9) ++
    logEach 2 (List.range' 120 9) ++ [.logWrite 1 119]

/-- The thirtieth block is logged like the others. -/
def serialRun : List (Act (Fin 3)) :=
  beginThree ++ logEach 0 (List.range' 100 10) ++ logEach 1 (List.range' 110 10) ++
    logEach 2 (List.range' 120 9) ++ [.logWrite 2 129]

/-- **The header lists more blocks than the log holds.**  Three operations of
`MAXOPBLOCKS` blocks each are admitted together, and two of them pass the check
of `log_write` before either appends: the header then lists `nlog` blocks, and the
last of the operations to end is about to commit them. -/
theorem three_operations_spill :
    ∃ s : State (Fin 3), (system (Fin 3) nlog).Reach Budget s ∧ s.pc 2 = .commit ∧
      s.lh.length = nlog ∧ ¬ s.lh.length ≤ nlog - 1 := by
  have h₀ : (system (Fin 3) nlog).Reach Budget initial := .init rfl
  obtain ⟨s, hs, hv⟩ := Lts.reach_of_exec_map overlappingRun
    (fun s => (s.pc 2, s.lh.length)) (.commit, nlog) h₀ (by decide +kernel)
  simp only [Prod.mk.injEq] at hv
  refine ⟨s, hs, hv.1, hv.2, ?_⟩
  rw [hv.2]
  decide

/-- The header of one transaction of two blocks. -/
def twoBlocks : Mem := ⟨fun _ => Block.zeroes, ⟨[7, 100], by decide⟩, []⟩

/-- Two blocks stay in the region, and the last call of the run above is one that
passes the check without room. -/
theorem log_stays_in_region_example :
    (∃ s : State (Fin 3), (system (Fin 3) nlog).Reach RoomForAll s ∧ s.lh = [7, 100] ∧
      s.lh.length ≤ nlog - 1 ∧ (writeLog mkfsRegion twoBlocks).writes.length = 2 ∧
      ∀ w ∈ (writeLog mkfsRegion twoBlocks).writes, w.1 < inodestart) ∧
    ∃ s : State (Fin 3), (system (Fin 3) nlog).Reach Budget s ∧
      ¬ RoomForAll s (.logWrite 2 129) ∧
      ∃ u, (system (Fin 3) nlog).Reach Budget u ∧ nlog - 1 < u.lh.length := by
  have h₀ : (system (Fin 3) nlog).Reach RoomForAll initial := .init rfl
  have h₁ : (system (Fin 3) nlog).Reach Budget initial := .init rfl
  refine ⟨?_, ?_⟩
  · obtain ⟨s, hs, hv⟩ := Lts.reach_of_exec_map
      [.beginOp 0, .beginTest 0, .logWrite 0 7, .append 0, .beginOp 1, .beginTest 1,
        .logWrite 1 100, .logWrite 0 7, .append 0, .append 1] State.lh [7, 100] h₀ (by decide)
    obtain ⟨hle, hwrites⟩ := log_stays_in_region.1 s hs
    refine ⟨s, hs, hv, hle, rfl, fun w hw => (hwrites twoBlocks ?_ rfl w hw).2.2⟩
    rw [hv]
    rfl
  · obtain ⟨s, hs, hv⟩ := Lts.reach_of_exec_map beforeOverlap
      (fun s => (decide (Budget s (.logWrite 2 129)), decide (RoomForAll s (.logWrite 2 129)),
        (step nlog s (.logWrite 2 129)).map State.panic)) (true, false, some none) h₁
      (by decide +kernel)
    simp only [Prod.mk.injEq, decide_eq_true_eq, decide_eq_false_iff_not,
      map_eq_some_iff] at hv
    obtain ⟨hbud, hroom, t, ht, hpanic⟩ := hv
    exact ⟨s, hs, hroom, log_stays_in_region.2 s t 2 129 hs hbud ht hpanic hroom⟩

/-! ## Running out of space -/

/-- The blocks passed to `log_write` since the last commit. -/
def loggedSince (s : State P) : Finset ℕ :=
  (Finset.univ.filter fun q => (s.pc q).active = true).biUnion (fun q => (s.writes q).toFinset) ∪
    ((s.ended.filter fun o => o.died = s.ncommit).flatMap Op.writes).toFinset

/-- A call of `log_write` is made while fewer than `nlog - 1` distinct blocks
have been logged since the last commit. -/
def RoomLeft (s : State P) (a : Act P) : Prop :=
  a.logged.isSome = true → (loggedSince s).card < nlog - 1

instance (s : State P) (a : Act P) : Decidable (RoomLeft s a) :=
  inferInstanceAs (Decidable (_ → _))

omit [DecidableEq P] in
theorem card_loggedSince (h : GroupInv s) : (loggedSince s).card = s.lh.length := by
  have heq : loggedSince s = s.lh.toFinset := by
    ext b
    rw [List.mem_toFinset, h.logged b]
    simp [loggedSince, and_assoc]
  rw [heq, List.toFinset_card_of_nodup h.nodup]

theorem logWrite_panic_iff (h : GroupInv s) {p : P} (hp : s.pc p = .inOp) :
    (logWrite nlog s p b).panic = some .tooBig ↔
      s.panic = some .tooBig ∨ ¬ RoomLeft s (.logWrite p b) := by
  have hn : nlog = 30 := rfl
  have hl : LOGSIZE = 30 := rfl
  have hcard := card_loggedSince h
  have hout : ¬ s.outstanding < 1 := by
    have hpos := nactive_pos (p := p) (by simp [hp, Pc.active] : (s.pc p).active = true)
    have hcount := h.count
    omega
  have hroom : RoomLeft s (.logWrite p b) ↔ s.lh.length < nlog - 1 := by
    simp [RoomLeft, Act.logged, hcard]
  rw [logWrite, hroom]
  by_cases hbig : LOGSIZE ≤ s.lh.length ∨ (nlog : ℤ) - 1 ≤ s.lh.length
  · rw [if_pos hbig]
    simp only [true_iff]
    right
    omega
  · rw [if_neg hbig, if_neg hout]
    constructor
    · exact .inl
    · rintro (h | h)
      · exact h
      · omega

omit [Fintype P] in
theorem logged_of_tooBig {size : ℕ} {a : Act P} (hst : step size s a = some t)
    (ht : t.panic = some .tooBig) : ∃ p b, a = .logWrite p b := by
  obtain ⟨hnone, hm⟩ := moves_of_step hst
  cases hm with
  | @tooBig p b _ _ => exact ⟨p, b, rfl⟩
  | @outsideTrans p b _ _ => exact ⟨p, b, rfl⟩
  | @check p b _ _ _ => exact ⟨p, b, rfl⟩
  | endPanic _ _ => simp at ht
  | _ => exact absurd (hnone.symm.trans ht) (by simp)

/-- **When `log_write` does not run out of space**, for `log.size = nlog` as
`mkfs` writes it.  In every run in which each call of `log_write` is made while
fewer than `nlog - 1` distinct blocks have been logged since the last commit,
the panic "too big a transaction" is not reached; and every call made in
another state panics. -/
theorem log_write_room :
    (∀ s : State P, (system P nlog).Reach RoomLeft s → s.panic ≠ some .tooBig) ∧
    ∀ (s t : State P) (p : P) (b : ℕ), (system P nlog).Reach (fun _ _ => True) s →
      step nlog s (.logWrite p b) = some t → ¬ RoomLeft s (.logWrite p b) →
      t.panic = some .tooBig := by
  refine ⟨?_, ?_⟩
  · intro s hs
    refine (Lts.Reach.invariant (I := fun s => GroupInv s ∧ s.panic ≠ some .tooBig) ?_ ?_ hs).2
    · rintro s rfl
      exact ⟨groupInv_initial, by simp [initial]⟩
    · rintro s a t ⟨hinv, hpanic⟩ hok hst
      refine ⟨hinv.step hst, ?_⟩
      intro htoo
      obtain ⟨p, b, rfl⟩ := logged_of_tooBig hst htoo
      obtain ⟨hg, ht⟩ := ite_none_right_eq_some.1 hst
      cases ht
      rcases (logWrite_panic_iff hinv hg.2).1 htoo with h | h
      · exact hpanic h
      · exact h hok
  · intro s t p b hs hst hroom
    obtain ⟨hg, ht⟩ := ite_none_right_eq_some.1 hst
    cases ht
    exact (logWrite_panic_iff (groupInv_of_reach hs) hg.2).2 (Or.inr hroom)

/-- One block is logged without a panic, and the thirtieth distinct one panics. -/
theorem log_write_room_example :
    (∃ s : State (Fin 3), (system (Fin 3) nlog).Reach RoomLeft s ∧ s.lh = [7] ∧
      s.panic ≠ some .tooBig) ∧
    ∃ s t : State (Fin 3), (system (Fin 3) nlog).Reach (fun _ _ => True) s ∧
      step nlog s (.logWrite 2 129) = some t ∧ t.panic = some .tooBig := by
  have h₀ : (system (Fin 3) nlog).Reach RoomLeft initial := .init rfl
  have h₁ : (system (Fin 3) nlog).Reach (fun _ _ => True) initial := .init rfl
  refine ⟨?_, ?_⟩
  · obtain ⟨s, hs, hv⟩ := Lts.reach_of_exec_map
      [.beginOp 0, .beginTest 0, .logWrite 0 7, .append 0] State.lh [7] h₀ (by decide)
    exact ⟨s, hs, hv, log_write_room.1 s hs⟩
  · obtain ⟨s, hs, hv⟩ := Lts.reach_of_exec_map serialRun.dropLast
      (fun s => (decide (RoomLeft s (.logWrite 2 129)),
        (step nlog s (.logWrite 2 129)).isSome)) (false, true) h₁ (by decide +kernel)
    simp only [Prod.mk.injEq, decide_eq_false_iff_not, isSome_iff_exists] at hv
    obtain ⟨hroom, t, ht⟩ := hv
    exact ⟨s, t, hs, ht, log_write_room.2 s t 2 129 hs ht hroom⟩

/-- **An admitted operation can run out of log space.**  Three operations of
`MAXOPBLOCKS` blocks each are admitted together; the call for the last of the
thirty blocks panics, although no two calls overlap. -/
theorem three_operations_panic :
    ∃ s : State (Fin 3),
      (system (Fin 3) nlog).Reach (fun s a => Budget s a ∧ Serial s a) s ∧
        s.panic = some .tooBig := by
  have h₀ : (system (Fin 3) nlog).Reach (fun s a => Budget s a ∧ Serial s a) initial := .init rfl
  exact Lts.reach_of_exec_map serialRun (fun s => s.panic) (some .tooBig) h₀ (by decide +kernel)

end Xv6.Log
