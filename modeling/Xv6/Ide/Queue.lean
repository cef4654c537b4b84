import Xv6.Ide.Machine

/-!
# The request queue

Requests are served once each and in order.  The invariant says what each process knows of
its buffer at each stage (`ProcOk`) and what the disk is doing (`DiskOk`); the queue in
memory is the list of the requests that have not completed, except between taking the
head off and marking it.
-/

namespace Xv6.Ide

open Xv6.Lib Function

variable {P B D : Type} {s t : State P B D} {p q : P} {b c : B} {st : Stage}

/-! ## The invariant -/

/-- Nothing has been done to the buffer since the call. -/
structure Fresh (s : State P B D) (p : P) (b : B) : Prop where
  buf : s.buf b = s.req p
  count : s.count b = 0
  unsynced : (s.buf b).synced = false

/-- The transfer has completed, once. -/
structure Completed (s : State P B D) (p : P) (b : B) : Prop where
  synced : (s.buf b).synced = true
  place : (s.buf b).place = (s.req p).place
  disk : s.disk (s.buf b).place = (s.buf b).data
  data : (s.req p).dirty = true → (s.buf b).data = (s.req p).data
  count : s.count b = 1

/-- What holds of the buffer of a process at a stage of `iderw`. -/
def StageOk (s : State P B D) (p : P) (b : B) : Stage → Prop
  | .enter | .append => b ∉ s.reqs ∧ Fresh s p b
  | .start | .asleep => b ∈ s.reqs
  | .wait | .awake => b ∈ s.reqs ∨ Completed s p b
  | .leave => b ∉ s.reqs ∧ Completed s p b

/-- A process may be at this stage while its request is served. -/
def Stage.waits : Stage → Bool
  | .start | .wait | .asleep | .awake => true
  | _ => false

/-- A request that has not completed has its process waiting. -/
def Waiting (s : State P B D) (b : B) : Prop :=
  ∃ p st, s.pc p = some (st, b) ∧ st.waits = true ∧ Fresh s p b

/-- The requests that are linked in the queue. -/
def linked (handler : Handler B) (reqs : List B) : List B :=
  match handler with
  | .finish _ => reqs.tail
  | _ => reqs

/-- The command is the one for buffer `b`. -/
structure CmdFor (s : State P B D) (c : Cmd D) (b : B) : Prop where
  write : c.write = (s.buf b).dirty
  place : c.place = (s.buf b).place
  data : c.write = true → c.data = (s.buf b).data
  done : c.done = true → s.disk c.place = c.data

/-- A process at this point of `iderw` has `idelock`. -/
def inLock : Option (Stage × B) → Bool
  | some (st, _) => st.holds
  | none => false

/-- The handler is dealing with the command. -/
def Handler.busy : Handler B → Bool
  | .enter | .pop | .finish _ => true
  | _ => false

/-- What the disk is doing. -/
structure DiskOk (s : State P B D) : Prop where
  /-- A command is for the first request. -/
  active : ∀ c, s.cmd = some c → ∃ b rest, s.reqs = b :: rest ∧ CmdFor s c b
  /-- The disk is idle only when there is no request, or somebody is about to start it. -/
  idle : s.cmd = none → s.reqs = [] ∨ s.handler = .next ∨ ∃ p b, s.pc p = some (.start, b) ∧ s.reqs = [b]
  irq : s.irq = true → ∃ c, s.cmd = some c ∧ c.done = true
  busy : s.handler.busy = true → s.irq = false ∧ ∃ c, s.cmd = some c ∧ c.done = true
  finish : ∀ b, s.handler = .finish b → s.reqs.head? = some b
  next : s.handler = .next → s.cmd = none

/-- **The invariant.** -/
structure Inv (s : State P B D) : Prop where
  procs : ∀ p st b, s.pc p = some (st, b) → s.lock b = some p ∧ StageOk s p b st
  waiting : ∀ b ∈ s.reqs, Waiting s b
  nodup : s.reqs.Nodup
  chain : Chain s.qnext s.idequeue (linked s.handler s.reqs)
  apart : ∀ b c, s.lock b ≠ none → s.lock c ≠ none → b ≠ c → (s.buf b).place ≠ (s.buf c).place
  holder : ∀ p, s.idelock = some (.proc p) ↔ inLock (s.pc p) = true
  intr : s.idelock = some .intr ↔ s.handler.holds = true
  disk : DiskOk s
  /-- The one that is about to start the disk came last, and alone it finds the disk idle. -/
  start : ∀ p b, s.pc p = some (.start, b) →
    s.reqs.getLast? = some b ∧ (s.reqs = [b] → s.cmd = none)
  appended : s.appended = s.completed ++ s.reqs
  started : s.started = s.completed ++ s.cmd.elim [] fun _ => s.reqs.take 1

theorem inv_of_initial (h : Initial s) : Inv s := by
  have hpc : ∀ p r, s.pc p ≠ some r := fun p r hr => by
    rw [h.pc p] at hr
    cases hr
  refine ⟨fun p st b hp => absurd hp (hpc p _), fun b hb => ?_, ?_, ?_, fun b c hb => absurd (h.lock b) hb,
    fun p => ?_, ?_, ⟨fun c hc => ?_, fun _ => .inl h.reqs, fun hi => ?_, fun hb => ?_, fun b hb => ?_,
    fun hn => ?_⟩, fun p b hp => absurd hp (hpc p _), ?_, ?_⟩
  · rw [h.reqs] at hb
    cases hb
  · rw [h.reqs]
    exact List.nodup_nil
  · rw [h.handler, h.reqs]
    exact h.idequeue
  · rw [h.idelock, h.pc p]
    exact iff_of_false nofun nofun
  · rw [h.idelock, h.handler]
    exact iff_of_false nofun nofun
  · rw [h.cmd] at hc
    cases hc
  · rw [h.irq] at hi
    cases hi
  · rw [h.handler] at hb
    cases hb
  · rw [h.handler] at hb
    cases hb
  · rw [h.handler] at hn
    cases hn
  · rw [h.appended, h.completed, h.reqs]
    rfl
  · rw [h.started, h.completed, h.cmd]
    rfl

/-! ## Who waits for what -/

variable {st' : Stage} {x : Cmd D} {handler : Handler B} {pc : P → Option (Stage × B)}
  {v : Option (Stage × B)} {l : Option (Holder P)}

theorem Inv.same_proc (h : Inv s) (hp : s.pc p = some (st, b)) (hq : s.pc q = some (st', b)) :
    p = q := by
  have hp' := (h.procs p st b hp).1
  have hq' := (h.procs q st' b hq).1
  rw [hp'] at hq'
  exact Option.some.inj hq'

theorem Inv.fresh (h : Inv s) (hp : s.pc p = some (st, b)) (hb : b ∈ s.reqs) : Fresh s p b := by
  obtain ⟨q, st', hq, -, hf⟩ := h.waiting b hb
  obtain rfl := h.same_proc hp hq
  exact hf

theorem Inv.ne_of_outside (h : Inv s) (hlock : s.lock b = some p) (hout : s.pc p = none)
    (hq : s.pc q = some (st, c)) : c ≠ b := by
  rintro rfl
  have hq' := (h.procs q st c hq).1
  rw [hlock] at hq'
  cases hq'
  rw [hout] at hq
  cases hq

theorem Inv.ne_of_unlocked (h : Inv s) (hlock : s.lock b = none) (hq : s.pc q = some (st, c)) :
    c ≠ b := by
  rintro rfl
  have hq' := (h.procs q st c hq).1
  rw [hlock] at hq'
  cases hq'

theorem Inv.mem_reqs_ne (h : Inv s) (hc : c ∈ s.reqs) (hb : ∀ q st, s.pc q ≠ some (st, b)) :
    c ≠ b := by
  rintro rfl
  obtain ⟨q, st, hq, -⟩ := h.waiting c hc
  exact hb q st hq

theorem Fresh.congr (h : Fresh s p b) (hbuf : t.buf b = s.buf b) (hreq : t.req p = s.req p)
    (hcount : t.count b = s.count b) : Fresh t p b :=
  ⟨by rw [hbuf, hreq, h.buf], by rw [hcount, h.count], by rw [hbuf, h.unsynced]⟩

theorem Completed.congr (h : Completed s p b) (hbuf : t.buf b = s.buf b) (hreq : t.req p = s.req p)
    (hcount : t.count b = s.count b) (hdisk : t.disk (s.buf b).place = s.disk (s.buf b).place) :
    Completed t p b :=
  ⟨by rw [hbuf, h.synced], by rw [hbuf, hreq, h.place], by rw [hbuf, hdisk, h.disk],
    by rw [hbuf, hreq]; exact h.data, by rw [hcount, h.count]⟩

theorem StageOk.congr (h : StageOk s p b st) (hreqs : b ∈ t.reqs ↔ b ∈ s.reqs)
    (hbuf : t.buf b = s.buf b) (hreq : t.req p = s.req p) (hcount : t.count b = s.count b)
    (hdisk : b ∉ s.reqs → t.disk (s.buf b).place = s.disk (s.buf b).place) : StageOk t p b st := by
  have hdone : Completed s p b → b ∈ s.reqs ∨ Completed t p b := by
    intro hd
    by_cases hb : b ∈ s.reqs
    · exact .inl hb
    · exact .inr (hd.congr hbuf hreq hcount (hdisk hb))
  cases st with
  | enter => exact ⟨fun hb => h.1 (hreqs.1 hb), h.2.congr hbuf hreq hcount⟩
  | append => exact ⟨fun hb => h.1 (hreqs.1 hb), h.2.congr hbuf hreq hcount⟩
  | start => exact hreqs.2 h
  | asleep => exact hreqs.2 h
  | wait => exact (h.elim .inl hdone).imp_left hreqs.2
  | awake => exact (h.elim .inl hdone).imp_left hreqs.2
  | leave => exact ⟨fun hb => h.1 (hreqs.1 hb), h.2.congr hbuf hreq hcount (hdisk h.1)⟩

theorem CmdFor.congr (h : CmdFor s x b) (hbuf : t.buf b = s.buf b) (hdisk : t.disk = s.disk) :
    CmdFor t x b :=
  ⟨by rw [hbuf, h.write], by rw [hbuf, h.place], by rw [hbuf]; exact h.data, by rw [hdisk]; exact h.done⟩

theorem DiskOk.active_congr (h : DiskOk s) (hcmd : t.cmd = s.cmd) (hreqs : t.reqs = s.reqs)
    (hbuf : t.buf = s.buf) (hdisk : t.disk = s.disk) (x : Cmd D) (hx : t.cmd = some x) :
    ∃ b rest, t.reqs = b :: rest ∧ CmdFor t x b := by
  obtain ⟨b, rest, hr, hfor⟩ := h.active x (hcmd.symm.trans hx)
  exact ⟨b, rest, hreqs.trans hr, hfor.congr (congrFun hbuf b) hdisk⟩

/-! ## Steps outside `iderw` -/

theorem Inv.outside (h : Inv s) (b : B) (hb : ∀ q st, s.pc q ≠ some (st, b)) (buf : B → Buf D)
    (lock : B → Option P) (hbuf : ∀ c, c ≠ b → buf c = s.buf c) (hlock : ∀ c, c ≠ b → lock c = s.lock c)
    (hapart : ∀ c d, lock c ≠ none → lock d ≠ none → c ≠ d → (buf c).place ≠ (buf d).place) :
    Inv { s with buf := buf, lock := lock } := by
  have hreqs : ∀ c ∈ s.reqs, c ≠ b := fun c hc => h.mem_reqs_ne hc hb
  refine ⟨fun q st c hq => ?_, fun c hc => ?_, h.nodup, h.chain, hapart, h.holder, h.intr,
    ⟨fun x hx => ?_, h.disk.idle, h.disk.irq, h.disk.busy, h.disk.finish, h.disk.next⟩, h.start,
    h.appended, h.started⟩
  · have hne : c ≠ b := by
      rintro rfl
      exact hb q st hq
    obtain ⟨hl, hok⟩ := h.procs q st c hq
    exact ⟨(hlock c hne).trans hl, hok.congr Iff.rfl (hbuf c hne) rfl rfl fun _ => rfl⟩
  · obtain ⟨q, st, hq, hw, hf⟩ := h.waiting c hc
    exact ⟨q, st, hq, hw, hf.congr (hbuf c (hreqs c hc)) rfl rfl⟩
  · obtain ⟨c, rest, hc, hfor⟩ := h.disk.active x hx
    have hne : c ≠ b := hreqs c (by rw [hc]; exact List.mem_cons_self)
    exact ⟨c, rest, hc, hfor.congr (hbuf c hne) rfl⟩

theorem inLock_of_pc (hp : s.pc p = some (st, b)) (hst : st.holds = true) :
    inLock (s.pc p) = true := by
  rw [hp]
  exact hst

theorem Inv.one_holder (h : Inv s) (hp : inLock (s.pc p) = true) (hq : inLock (s.pc q) = true) :
    p = q := by
  have hpq := ((h.holder p).2 hp).symm.trans ((h.holder q).2 hq)
  exact Holder.proc.inj (Option.some.inj hpq)

theorem Inv.handler_not_holding (h : Inv s) (hlock : s.idelock = none) :
    s.handler.holds = false := by
  rw [Bool.eq_false_iff]
  intro hh
  rw [h.intr.2 hh] at hlock
  cases hlock

theorem Inv.handler_out (h : Inv s) (hp : inLock (s.pc p) = true) : s.handler.holds = false := by
  rw [Bool.eq_false_iff]
  intro hh
  have hp' := (h.holder p).2 hp
  rw [h.intr.2 hh] at hp'
  cases hp'

theorem linked_of_not_holding {reqs : List B} (h : handler.holds = false) :
    linked handler reqs = reqs := by
  cases handler with
  | finish b => cases h
  | _ => rfl

theorem none_iff_intr (hh : handler.holds = false) :
    (none : Option (Holder P)) = some .intr ↔ handler.holds = true :=
  iff_of_false nofun (by rw [hh]; exact nofun)

theorem proc_iff_intr (hh : handler.holds = false) :
    some (Holder.proc p) = some .intr ↔ handler.holds = true :=
  iff_of_false nofun (by rw [hh]; exact nofun)

section

variable [DecidableEq B]

theorem Inv.lock (h : Inv s) {x : Buf D} (hfree : s.lock b = none)
    (hplace : ∀ c, s.lock c ≠ none → (s.buf c).place ≠ x.place) :
    Inv { s with lock := update s.lock b (some p), buf := update s.buf b x } := by
  refine h.outside b (fun q st hq => h.ne_of_unlocked hfree hq rfl) _ _
    (fun c hc => update_of_ne hc _ _) (fun c hc => update_of_ne hc _ _) ?_
  intro c d hc hd hne
  by_cases hcb : c = b
  · have hdb : d ≠ b := fun hdb => hne (hcb.trans hdb.symm)
    rw [update_of_ne hdb] at hd
    rw [hcb, update_self, update_of_ne hdb]
    exact (hplace d hd).symm
  · rw [update_of_ne hcb] at hc
    by_cases hdb : d = b
    · rw [hdb, update_self, update_of_ne hcb]
      exact hplace c hc
    · rw [update_of_ne hdb] at hd
      rw [update_of_ne hcb, update_of_ne hdb]
      exact h.apart c d hc hd hne

theorem Inv.edit (h : Inv s) (hlock : s.lock b = some p) (hout : s.pc p = none)
    (valid dirty : Bool) (data : D) :
    Inv { s with buf := update s.buf b { s.buf b with valid, dirty, data } } := by
  have hplace : ∀ c, (update s.buf b { s.buf b with valid, dirty, data } c).place =
      (s.buf c).place := by
    intro c
    by_cases hc : c = b
    · rw [hc, update_self]
      rfl
    · rw [update_of_ne hc]
  refine h.outside b (fun q st hq => h.ne_of_outside hlock hout hq rfl) _ s.lock
    (fun c hc => update_of_ne hc _ _) (fun _ _ => rfl) ?_
  intro c d hc hd hne
  rw [hplace, hplace]
  exact h.apart c d hc hd hne

theorem Inv.unlock (h : Inv s) (hlock : s.lock b = some p) (hout : s.pc p = none) :
    Inv { s with lock := update s.lock b none } := by
  have hheld : ∀ c, update s.lock b none c ≠ none → s.lock c ≠ none := by
    intro c hc
    by_cases hcb : c = b
    · rw [hcb, update_self] at hc
      exact absurd rfl hc
    · rwa [update_of_ne hcb] at hc
  refine h.outside b (fun q st hq => h.ne_of_outside hlock hout hq rfl) s.buf _
    (fun _ _ => rfl) (fun c hc => update_of_ne hc _ _) ?_
  exact fun c d hc hd hne => h.apart c d (hheld c hc) (hheld d hd) hne

end

/-! ## The disk and the handler -/

theorem Inv.started_cmd (h : Inv s) {rest : List B} (hreqs : s.reqs = b :: rest)
    (hcmd : s.cmd = none) (handler : Handler B)
    (hprocs : ∀ q st c, pc q = some (st, c) → s.lock c = some q ∧ StageOk s q c st)
    (hwaiting : ∀ c ∈ s.reqs, ∃ q st, pc q = some (st, c) ∧ st.waits = true ∧ Fresh s q c)
    (hnostart : ∀ q c, pc q ≠ some (.start, c))
    (hchain : Chain s.qnext s.idequeue (linked handler s.reqs))
    (hholder : ∀ q, s.idelock = some (.proc q) ↔ inLock (pc q) = true)
    (hintr : s.idelock = some .intr ↔ handler.holds = true) (hbusy : handler.busy = false)
    (hnext : handler ≠ .next) :
    Inv { s with
      pc := pc
      handler := handler
      cmd := some ⟨(s.buf b).dirty, (s.buf b).place, (s.buf b).data, false⟩
      started := s.started ++ [b] } := by
  have hirq : s.irq = false := by
    rw [Bool.eq_false_iff]
    intro hi
    obtain ⟨c, hc, -⟩ := h.disk.irq hi
    rw [hcmd] at hc
    cases hc
  refine ⟨fun q st c hq => ⟨(hprocs q st c hq).1,
      (hprocs q st c hq).2.congr Iff.rfl rfl rfl rfl fun _ => rfl⟩, fun c hc => ?_, h.nodup, hchain,
    h.apart, hholder, hintr, ⟨fun x hx => ?_, nofun, fun hi => ?_, fun hb => ?_, fun c hc => ?_,
    fun hn => absurd hn hnext⟩, fun q c hq => absurd hq (hnostart q c), h.appended, ?_⟩
  · obtain ⟨q, st, hq, hw, hf⟩ := hwaiting c hc
    exact ⟨q, st, hq, hw, hf.congr rfl rfl rfl⟩
  · cases hx
    exact ⟨b, rest, hreqs, rfl, rfl, fun _ => rfl, nofun⟩
  · exact absurd (hirq.symm.trans hi) nofun
  · exact absurd (hbusy.symm.trans hb) nofun
  · have hc' : handler = .finish c := hc
    rw [hc'] at hbusy
    cases hbusy
  · have hs := h.started
    rw [hcmd] at hs
    change s.started ++ [b] = s.completed ++ s.reqs.take 1
    rw [hs, hreqs]
    change s.completed ++ [] ++ [b] = s.completed ++ [b]
    rw [List.append_nil]

theorem Inv.place_ne (h : Inv s) (hb : b ∈ s.reqs) (hq : s.pc q = some (st, c)) (hc : c ∉ s.reqs) :
    (s.buf c).place ≠ (s.buf b).place := by
  obtain ⟨p, st', hp, -⟩ := h.waiting b hb
  refine h.apart c b ?_ ?_ fun he => hc (he ▸ hb)
  · rw [(h.procs q st c hq).1]
    exact nofun
  · rw [(h.procs p st' b hp).1]
    exact nofun

theorem Inv.executed (h : Inv s) (hx : s.cmd = some x) (hnot : x.done = false) {data : D}
    (disk : ℕ × ℕ → D) (hdata : x.write = true → data = x.data) (hplace : disk x.place = data)
    (hrest : ∀ k, k ≠ x.place → disk k = s.disk k) :
    Inv { s with disk := disk, cmd := some { x with done := true, data := data }, irq := true } := by
  obtain ⟨b, rest, hreqs, hfor⟩ := h.disk.active x hx
  have hb : b ∈ s.reqs := by
    rw [hreqs]
    exact List.mem_cons_self
  have hbusy : s.handler.busy = false := by
    rw [Bool.eq_false_iff]
    intro hbusy
    obtain ⟨-, y, hy, hdone⟩ := h.disk.busy hbusy
    rw [hx] at hy
    rw [← Option.some.inj hy, hnot] at hdone
    cases hdone
  refine ⟨fun q st c hq => ?_, fun c hc => ?_, h.nodup, h.chain, h.apart, h.holder, h.intr,
    ⟨fun y hy => ?_, nofun, fun _ => ⟨_, rfl, rfl⟩, fun hb => absurd (hbusy.symm.trans hb) nofun,
    h.disk.finish, fun hn => ?_⟩, fun q c hq => ⟨(h.start q c hq).1, fun hr => ?_⟩, h.appended, ?_⟩
  · obtain ⟨hl, hok⟩ := h.procs q st c hq
    refine ⟨hl, hok.congr Iff.rfl rfl rfl rfl fun hc => hrest _ ?_⟩
    rw [hfor.place]
    exact h.place_ne hb hq hc
  · obtain ⟨q, st, hq, hw, hf⟩ := h.waiting c hc
    exact ⟨q, st, hq, hw, hf.congr rfl rfl rfl⟩
  · cases hy
    exact ⟨b, rest, hreqs, hfor.write, hfor.place, fun hw => (hdata hw).trans (hfor.data hw),
      fun _ => hplace⟩
  · have hnone := h.disk.next hn
    rw [hx] at hnone
    cases hnone
  · have hnone := (h.start q c hq).2 hr
    rw [hx] at hnone
    cases hnone
  · have hs := h.started
    rw [hx] at hs
    exact hs

theorem Inv.handler_move (h : Inv s) (irq : Bool)
    (hlinked : linked handler s.reqs = linked s.handler s.reqs)
    (hholder : ∀ q, l = some (.proc q) ↔ inLock (s.pc q) = true)
    (hintr : l = some .intr ↔ handler.holds = true) (hidle : s.handler = .next → s.reqs = [])
    (hirq : irq = true → s.irq = true)
    (hbusy : handler.busy = true → irq = false ∧ ∃ c, s.cmd = some c ∧ c.done = true)
    (hfinish : ∀ b, handler ≠ .finish b) (hnext : handler ≠ .next) :
    Inv { s with handler := handler, idelock := l, irq := irq } := by
  refine ⟨fun q st c hq => ?_, fun c hc => ?_, h.nodup, ?_, h.apart, hholder, hintr,
    ⟨h.disk.active_congr rfl rfl rfl rfl, fun hcmd => ?_, fun hi => h.disk.irq (hirq hi), hbusy,
    fun b hb => absurd hb (hfinish b), fun hn => absurd hn hnext⟩, h.start, h.appended, h.started⟩
  · obtain ⟨hl, hok⟩ := h.procs q st c hq
    exact ⟨hl, hok.congr Iff.rfl rfl rfl rfl fun _ => rfl⟩
  · obtain ⟨q, st, hq, hw, hf⟩ := h.waiting c hc
    exact ⟨q, st, hq, hw, hf.congr rfl rfl rfl⟩
  · change Chain _ _ (linked handler s.reqs)
    rw [hlinked]
    exact h.chain
  · obtain hr | hn | hq := h.disk.idle hcmd
    · exact .inl hr
    · exact .inl (hidle hn)
    · exact .inr (.inr hq)

theorem Inv.procs_out (h : Inv s) (hh : s.handler.holds = true) (q : P) : inLock (s.pc q) = false := by
  rw [Bool.eq_false_iff]
  intro hq
  have hq' := (h.holder q).2 hq
  rw [h.intr.2 hh] at hq'
  cases hq'

theorem Inv.none_holder (h : Inv s) (hh : s.handler.holds = true) (q : P) :
    none = some (Holder.proc q) ↔ inLock (s.pc q) = true := by
  rw [h.procs_out hh q]
  exact iff_of_false nofun nofun

theorem Inv.intr_holder (h : Inv s) (hlock : s.idelock = none) (q : P) :
    some Holder.intr = some (Holder.proc q) ↔ inLock (s.pc q) = true := by
  rw [← h.holder q, hlock]
  exact iff_of_false nofun nofun

theorem Inv.pop (h : Inv s) (hh : s.handler = .pop) (hhead : s.idequeue = some b) :
    Inv { s with handler := .finish b, idequeue := s.qnext b } := by
  have hchain := h.chain
  rw [hh] at hchain
  obtain ⟨rest, hreqs⟩ : ∃ rest, s.reqs = b :: rest := by
    exact List.head?_eq_some_iff.1 (hchain.head.symm.trans hhead)
  have hbusy := h.disk.busy (by rw [hh]; rfl)
  refine ⟨fun q st c hq => ?_, fun c hc => ?_, h.nodup, ?_, h.apart, h.holder, ?_,
    ⟨h.disk.active_congr rfl rfl rfl rfl, fun hcmd => ?_, h.disk.irq, fun _ => hbusy,
    fun c hc => ?_, nofun⟩, h.start, h.appended, h.started⟩
  · obtain ⟨hl, hok⟩ := h.procs q st c hq
    exact ⟨hl, hok.congr Iff.rfl rfl rfl rfl fun _ => rfl⟩
  · obtain ⟨q, st, hq, hw, hf⟩ := h.waiting c hc
    exact ⟨q, st, hq, hw, hf.congr rfl rfl rfl⟩
  · change Chain s.qnext (s.qnext b) s.reqs.tail
    rw [hreqs]
    rw [show linked Handler.pop s.reqs = s.reqs from rfl, hreqs] at hchain
    exact hchain.2
  · rw [h.intr, hh]
    exact Iff.rfl
  · obtain ⟨-, x, hx, -⟩ := hbusy
    rw [hx] at hcmd
    cases hcmd
  · obtain rfl := Handler.finish.inj hc
    rw [hreqs]
    rfl

theorem inv_execute (h : Inv s) (hst : execute s = some t) : Inv t := by
  rw [execute] at hst
  cases hx : s.cmd with
  | none =>
    rw [hx] at hst
    cases hst
  | some x =>
    rw [hx] at hst
    dsimp only at hst
    split at hst
    · cases hst
    · rename_i hnot
      have hnot : x.done = false := Bool.eq_false_iff.2 hnot
      split at hst
      · cases hst
        exact h.executed hx hnot _ (fun _ => rfl) (update_self ..)
          fun k hk => update_of_ne hk _ _
      · rename_i hwrite
        cases hst
        exact h.executed hx hnot s.disk (fun hw => absurd hw hwrite) rfl fun _ _ => rfl

section

variable [DecidableEq B]

theorem pc_wakeup {r : Stage × B} (h : (wakeup s b).pc q = some r) :
    s.pc q = some (.asleep, b) ∧ r = (.awake, b) ∨ s.pc q = some r ∧ r ≠ (.asleep, b) := by
  change (if s.pc q = some (.asleep, b) then some (Stage.awake, b) else s.pc q) = some r at h
  split at h
  · rename_i hq
    exact .inl ⟨hq, (Option.some.inj h).symm⟩
  · rename_i hq
    refine .inr ⟨h, ?_⟩
    rintro rfl
    exact hq h

theorem Inv.completes (h : Inv s) {rest : List B} (hreqs : s.reqs = b :: rest) (hx : s.cmd = some x)
    (hdone : x.done = true) (hp : s.pc p = some (st, b)) :
    Completed (s.marked b) p b := by
  obtain ⟨c, rest', hr, hfor⟩ := h.disk.active x hx
  rw [hreqs] at hr
  obtain ⟨rfl, -⟩ := List.cons.inj hr
  have hfresh := h.fresh hp (by rw [hreqs]; exact List.mem_cons_self)
  have hbuf : (s.marked b).buf b = { s.buf b with
      valid := true, dirty := false, data := transferred (s.buf b) s.cmd } := update_self ..
  have hreq : (s.marked b).req p = s.req p := rfl
  have hdisk := hfor.done hdone
  rw [hfor.place] at hdisk
  refine ⟨?_, ?_, ?_, fun hdirty => ?_, ?_⟩
  · rw [hbuf]
    rfl
  · rw [hbuf, hreq, ← hfresh.buf]
    rfl
  · rw [hbuf]
    change s.disk (s.buf b).place = transferred (s.buf b) s.cmd
    rw [hdisk, transferred, hx]
    split
    · rename_i hd
      exact hfor.data (hfor.write.trans hd)
    · rfl
  · rw [hreq, ← hfresh.buf] at hdirty ⊢
    rw [hbuf]
    exact if_pos hdirty
  · change update s.count b _ b = 1
    rw [update_self, hfresh.count]

theorem Inv.mark (h : Inv s) (hh : s.handler = .finish b) : Inv (s.marked b) := by
  obtain ⟨hirq, x, hx, hdone⟩ := h.disk.busy (by rw [hh]; rfl)
  obtain ⟨rest, hreqs⟩ := List.head?_eq_some_iff.1 (h.disk.finish b hh)
  have hout := h.procs_out (by rw [hh]; rfl)
  have hnd := h.nodup
  rw [hreqs] at hnd
  have hrest : (s.marked b).reqs = rest := by
    change s.reqs.tail = rest
    rw [hreqs]
    rfl
  have hbuf : ∀ c, c ≠ b → (s.marked b).buf c = s.buf c := fun c hc => update_of_ne hc _ _
  have hcount : ∀ c, c ≠ b → (s.marked b).count c = s.count c := fun c hc =>
    update_of_ne hc _ _
  have hplace : ∀ c, ((s.marked b).buf c).place = (s.buf c).place := by
    intro c
    by_cases hc : c = b
    · rw [hc]
      change (update s.buf b _ b).place = _
      rw [update_self]
      rfl
    · rw [hbuf c hc]
  have hmem : ∀ c, c ≠ b → (c ∈ (s.marked b).reqs ↔ c ∈ s.reqs) := by
    intro c hc
    rw [hrest, hreqs, List.mem_cons]
    exact ⟨.inr, fun hor => hor.resolve_left hc⟩
  refine ⟨fun q st c hq => ?_, fun c hc => ?_, ?_, ?_, ?_, fun q => ?_, ?_,
    ⟨nofun, fun _ => .inr (.inl rfl), fun hi => absurd (hirq.symm.trans hi) nofun, nofun, nofun,
    fun _ => rfl⟩, fun q c hq => ?_, ?_, ?_⟩
  · obtain ⟨hat, hr⟩ | ⟨hat, hr⟩ := pc_wakeup hq
    · obtain ⟨rfl, rfl⟩ := Prod.mk.inj hr
      exact ⟨(h.procs q .asleep c hat).1, .inr (h.completes hreqs hx hdone hat)⟩
    · obtain ⟨hl, hok⟩ := h.procs q st c hat
      refine ⟨hl, ?_⟩
      by_cases hcb : c = b
      · subst hcb
        have hc : c ∈ s.reqs := by
          rw [hreqs]
          exact List.mem_cons_self
        -- the process waits, does not sleep, and does not have the lock
        have hnot : st.holds = false := by
          have hq' := hout q
          rwa [hat] at hq'
        cases st with
        | awake => exact .inr (h.completes hreqs hx hdone hat)
        | asleep => exact absurd rfl hr
        | enter => exact absurd hc hok.1
        | _ => cases hnot
      · exact hok.congr (hmem c hcb) (hbuf c hcb) rfl (hcount c hcb) fun _ => rfl
  · rw [hrest] at hc
    have hcb : c ≠ b := fun he => (List.nodup_cons.1 hnd).1 (he ▸ hc)
    obtain ⟨q, st, hq, hw, hf⟩ := h.waiting c (by rw [hreqs]; exact List.mem_cons_of_mem _ hc)
    refine ⟨q, st, ?_, hw, hf.congr (hbuf c hcb) rfl (hcount c hcb)⟩
    change (if s.pc q = some (.asleep, b) then some (Stage.awake, b) else s.pc q) = _
    rw [if_neg, hq]
    rw [hq]
    intro he
    exact hcb (Prod.mk.inj (Option.some.inj he)).2
  · rw [hrest]
    exact (List.nodup_cons.1 hnd).2
  · have hchain := h.chain
    rw [hh] at hchain
    exact hchain
  · intro c d hc hd hne
    rw [hplace, hplace]
    exact h.apart c d hc hd hne
  · change s.idelock = _ ↔ inLock (if s.pc q = some (.asleep, b) then some (Stage.awake, b) else s.pc q) = true
    rw [h.holder q]
    split
    · rename_i hq
      rw [hq]
      exact iff_of_false nofun nofun
    · exact Iff.rfl
  · change s.idelock = _ ↔ _
    rw [h.intr, hh]
    exact Iff.rfl
  · obtain ⟨-, hr⟩ | ⟨hat, -⟩ := pc_wakeup hq
    · cases hr
    · have hq' := hout q
      rw [hat] at hq'
      cases hq'
  · rw [hrest]
    change s.appended = s.completed ++ [b] ++ rest
    rw [h.appended, hreqs, List.append_assoc]
    rfl
  · change s.started = s.completed ++ [b] ++ []
    rw [h.started, hx, hreqs, List.append_nil]
    rfl

theorem inv_ideintr (h : Inv s) (hst : ideintr s = some t) : t.panic = true ∨ Inv t := by
  cases hh : s.handler with
  | idle =>
    rw [ideintr, hh] at hst
    cases hst
  | enter =>
    rw [ideintr, hh] at hst
    obtain ⟨hlock, rfl⟩ := of_guard hst
    have hbusy := h.disk.busy (by rw [hh]; rfl)
    exact .inr (h.handler_move s.irq (by rw [hh]; rfl) (h.intr_holder hlock)
      (iff_of_true rfl rfl) (by rw [hh]; exact nofun) id (fun _ => hbusy) nofun nofun)
  | pop =>
    rw [ideintr, hh] at hst
    dsimp only at hst
    have hintr := h.intr
    rw [hh] at hintr
    split at hst
    · rename_i hnone
      cases hst
      exact .inr (h.handler_move (l := s.idelock) s.irq (by rw [hh]; rfl) h.holder hintr
        (by rw [hh]; exact nofun) id nofun nofun nofun)
    · rename_i b hhead
      cases hst
      exact .inr (h.pop hh hhead)
  | finish b =>
    rw [ideintr, hh] at hst
    cases hst
    exact .inr (h.mark hh)
  | next =>
    rw [ideintr, hh] at hst
    dsimp only at hst
    have hintr := h.intr
    rw [hh] at hintr
    have hchain := h.chain
    rw [hh] at hchain
    have hhead := Chain.head hchain
    split at hst
    · rename_i hnone
      cases hst
      have hempty : s.reqs = [] := by
        rw [hnone] at hhead
        exact List.head?_eq_none_iff.1 hhead.symm
      exact .inr (h.handler_move (l := s.idelock) s.irq (by rw [hh]; rfl) h.holder hintr
        (fun _ => hempty) id nofun nofun nofun)
    · rename_i b hsome
      split at hst
      · cases hst
        rw [idestart]
        split
        · exact .inl rfl
        · obtain ⟨rest, hreqs⟩ : ∃ rest, s.reqs = b :: rest := by
            rw [hsome] at hhead
            exact List.head?_eq_some_iff.1 hhead.symm
          have hout := h.procs_out (by rw [hh]; rfl)
          refine .inr (h.started_cmd hreqs (h.disk.next hh) _ h.procs h.waiting ?_ hchain h.holder hintr
            rfl nofun)
          intro q c hq
          have hq' := hout q
          rw [hq] at hq'
          cases hq'
      · cases hst
  | leave =>
    rw [ideintr, hh] at hst
    cases hst
    exact .inr (h.handler_move s.irq (by rw [hh]; rfl) (h.none_holder (by rw [hh]; rfl))
      (iff_of_false nofun nofun) (by rw [hh]; exact nofun) id nofun nofun nofun)

end

/-! ## Steps of `iderw` -/

theorem Inv.start_head (h : Inv s) (hp : s.pc p = some (.start, b)) :
    s.idequeue = some b ↔ s.reqs = [b] := by
  have hin := inLock_of_pc hp rfl
  have hhead := h.chain.head
  rw [linked_of_not_holding (h.handler_out hin)] at hhead
  have hlast := (h.start p b hp).1
  rw [hhead]
  constructor
  · intro hb
    cases hr : s.reqs with
    | nil =>
      rw [hr] at hb
      cases hb
    | cons c rest =>
      rw [hr] at hb hlast
      cases hb
      cases rest with
      | nil => rfl
      | cons d rest =>
        have hnd := h.nodup
        rw [hr] at hnd
        rw [List.getLast?_cons_cons] at hlast
        exact absurd (List.mem_of_getLast? hlast) (List.nodup_cons.1 hnd).1
  · intro hr
    rw [hr]
    rfl

theorem Inv.start_behind (h : Inv s) (hp : s.pc p = some (.start, b)) (hhead : s.idequeue ≠ some b) :
    s.cmd ≠ none := by
  intro hcmd
  have hin := inLock_of_pc hp rfl
  have hlast := (h.start p b hp).1
  obtain hr | hn | ⟨q, c, hq, hr⟩ := h.disk.idle hcmd
  · rw [hr] at hlast
    cases hlast
  · have hout := h.handler_out hin
    rw [hn] at hout
    cases hout
  · rw [hr] at hlast
    cases hlast
    exact hhead ((h.start_head hp).2 hr)

variable [DecidableEq P]

theorem pc_cases {r : Stage × B} (h : update pc p v q = some r) :
    q = p ∧ v = some r ∨ q ≠ p ∧ pc q = some r := by
  by_cases hq : q = p
  · subst hq
    rw [update_self] at h
    exact .inl ⟨rfl, h⟩
  · rw [update_of_ne hq] at h
    exact .inr ⟨hq, h⟩

theorem holder_keep (h : ∀ q, l = some (.proc q) ↔ inLock (pc q) = true)
    (hv : inLock v = inLock (pc p)) (q : P) :
    l = some (.proc q) ↔ inLock (update pc p v q) = true := by
  rw [h q]
  by_cases hq : q = p
  · rw [hq, update_self, hv]
  · rw [update_of_ne hq]

theorem holder_take (h : ∀ q, none = some (Holder.proc q) ↔ inLock (pc q) = true)
    (hv : inLock v = true) (q : P) :
    some (Holder.proc p) = some (.proc q) ↔ inLock (update pc p v q) = true := by
  by_cases hq : q = p
  · rw [hq, update_self]
    exact iff_of_true rfl hv
  · rw [update_of_ne hq, ← h q]
    simp [Ne.symm hq]

theorem holder_drop (h : ∀ q, l = some (.proc q) ↔ inLock (pc q) = true) (hp : inLock (pc p) = true)
    (hv : inLock v = false) (q : P) :
    none = some (Holder.proc q) ↔ inLock (update pc p v q) = true := by
  by_cases hq : q = p
  · rw [hq, update_self, hv]
    exact iff_of_false nofun nofun
  · rw [update_of_ne hq, ← h q, (h p).2 hp]
    simp [Ne.symm hq]

theorem Inv.move (h : Inv s) (hp : s.pc p = some (st, b))
    (hv : ∀ st' c, v = some (st', c) → c = b ∧ StageOk s p b st' ∧ st' ≠ .start)
    (hwait : b ∈ s.reqs → ∃ st', v = some (st', b) ∧ st'.waits = true)
    (hidle : st = .start → s.cmd ≠ none)
    (hholder : ∀ q, l = some (.proc q) ↔ inLock (update s.pc p v q) = true)
    (hintr : l = some .intr ↔ s.handler.holds = true) :
    Inv { s with pc := update s.pc p v, idelock := l } := by
  have hstart : ∀ q c, update s.pc p v q = some (.start, c) →
      s.pc q = some (.start, c) ∧ q ≠ p := by
    intro q c hq
    obtain ⟨-, hq⟩ | ⟨hqp, hq⟩ := pc_cases hq
    · exact absurd rfl (hv _ _ hq).2.2
    · exact ⟨hq, hqp⟩
  refine ⟨fun q st' c hq => ?_, fun c hc => ?_, h.nodup, h.chain, h.apart, hholder, hintr,
    ⟨h.disk.active_congr rfl rfl rfl rfl, fun hcmd => ?_, h.disk.irq, h.disk.busy, h.disk.finish,
      h.disk.next⟩, fun q c hq => h.start q c (hstart q c hq).1, h.appended, h.started⟩
  · obtain ⟨rfl, hat⟩ | ⟨-, hq⟩ := pc_cases hq
    · obtain ⟨rfl, hok, -⟩ := hv st' c hat
      exact ⟨(h.procs q st c hp).1, hok.congr Iff.rfl rfl rfl rfl fun _ => rfl⟩
    · obtain ⟨hl, hok⟩ := h.procs q st' c hq
      exact ⟨hl, hok.congr Iff.rfl rfl rfl rfl fun _ => rfl⟩
  · obtain ⟨q, st', hq, hw, hf⟩ := h.waiting c hc
    by_cases hqp : q = p
    · subst hqp
      rw [hp] at hq
      cases hq
      obtain ⟨st'', hst, hw'⟩ := hwait hc
      exact ⟨q, st'', (update_self q v s.pc).trans hst, hw', hf.congr rfl rfl rfl⟩
    · exact ⟨q, st', (update_of_ne hqp v s.pc).trans hq, hw, hf.congr rfl rfl rfl⟩
  · obtain hr | hn | ⟨q, c, hq, hr⟩ := h.disk.idle hcmd
    · exact .inl hr
    · exact .inr (.inl hn)
    · refine .inr (.inr ⟨q, c, ?_, hr⟩)
      have hqp : q ≠ p := by
        rintro rfl
        rw [hp] at hq
        exact hidle (Prod.mk.inj (Option.some.inj hq)).1 hcmd
      exact (update_of_ne hqp v s.pc).trans hq

theorem Inv.take (h : Inv s) (hp : s.pc p = some (st, b)) (hlock : s.idelock = none)
    (hok : StageOk s p b st') (hst : st ≠ .start) (hst' : st' ≠ .start) (hholds : st'.holds = true)
    (hwait : b ∈ s.reqs → st'.waits = true) :
    Inv { s with pc := update s.pc p (some (st', b)), idelock := some (.proc p) } := by
  have hholder := h.holder
  rw [hlock] at hholder
  refine h.move hp ?_ (fun hb => ⟨st', rfl, hwait hb⟩) (fun he => absurd he hst)
    (holder_take hholder hholds) (proc_iff_intr (h.handler_not_holding hlock))
  intro st'' c hv
  cases hv
  exact ⟨rfl, hok, hst'⟩

theorem Inv.drop (h : Inv s) (hp : s.pc p = some (st, b)) (hholds : st.holds = true)
    (hst : st ≠ .start) (hv : ∀ st' c, v = some (st', c) → c = b ∧ StageOk s p b st' ∧ st' ≠ .start)
    (hwait : b ∈ s.reqs → ∃ st', v = some (st', b) ∧ st'.waits = true) (hout : inLock v = false) :
    Inv { s with pc := update s.pc p v, idelock := none } := by
  have hin := inLock_of_pc hp hholds
  exact h.move hp hv hwait (fun he => absurd he hst) (holder_drop h.holder hin hout)
    (none_iff_intr (h.handler_out hin))

theorem Inv.stay (h : Inv s) (hp : s.pc p = some (st, b)) (hok : StageOk s p b st')
    (hidle : st = .start → s.cmd ≠ none) (hst' : st' ≠ .start) (hholds : st'.holds = st.holds)
    (hwait : b ∈ s.reqs → st'.waits = true) :
    Inv { s with pc := update s.pc p (some (st', b)) } := by
  have hsame : inLock (some (st', b)) = inLock (s.pc p) := by rw [hp]; exact hholds
  refine h.move (l := s.idelock) hp ?_ (fun hb => ⟨st', rfl, hwait hb⟩) hidle
    (holder_keep h.holder hsame) h.intr
  intro st'' c hv
  cases hv
  exact ⟨rfl, hok, hst'⟩

variable [DecidableEq B]

theorem Inv.call (h : Inv s) (hp : s.pc p = none) (hlock : s.lock b = some p)
    (hsync : (s.buf b).synced = false) :
    Inv { s with
      pc := update s.pc p (some (.enter, b))
      req := update s.req p (s.buf b)
      count := update s.count b 0 } := by
  have hout : ∀ q st, s.pc q ≠ some (st, b) := fun q st hq => h.ne_of_outside hlock hp hq rfl
  have hnew : b ∉ s.reqs := fun hb => h.mem_reqs_ne hb hout rfl
  have hne : ∀ {q st c}, s.pc q = some (st, c) → q ≠ p ∧ c ≠ b := by
    intro q st c hq
    refine ⟨?_, h.ne_of_outside hlock hp hq⟩
    rintro rfl
    rw [hp] at hq
    cases hq
  have hkeep : ∀ {q st c}, s.pc q = some (st, c) →
      update s.pc p (some (.enter, b)) q = some (st, c) := fun hq =>
    (update_of_ne (hne hq).1 _ _).trans hq
  have hstart : ∀ q c, update s.pc p (some (.enter, b)) q = some (.start, c) →
      s.pc q = some (.start, c) := by
    intro q c hq
    obtain ⟨-, hq⟩ | ⟨-, hq⟩ := pc_cases hq
    · cases hq
    · exact hq
  have hsame : inLock (some (Stage.enter, b)) = inLock (s.pc p) := by
    rw [hp]
    rfl
  refine ⟨fun q st c hq => ?_, fun c hc => ?_, h.nodup, h.chain, h.apart, holder_keep h.holder hsame,
    h.intr, ⟨h.disk.active_congr rfl rfl rfl rfl, fun hcmd => ?_, h.disk.irq, h.disk.busy,
    h.disk.finish, h.disk.next⟩, fun q c hq => h.start q c (hstart q c hq), h.appended, h.started⟩
  · obtain ⟨rfl, hat⟩ | ⟨hqp, hq⟩ := pc_cases hq
    · cases hat
      refine ⟨hlock, hnew, ?_, update_self .., hsync⟩
      exact (update_self q (s.buf b) s.req).symm
    · obtain ⟨hl, hok⟩ := h.procs q st c hq
      exact ⟨hl, hok.congr Iff.rfl rfl (update_of_ne hqp _ _)
        (update_of_ne (hne hq).2 _ _) fun _ => rfl⟩
  · obtain ⟨q, st, hq, hw, hf⟩ := h.waiting c hc
    exact ⟨q, st, hkeep hq, hw, hf.congr rfl (update_of_ne (hne hq).1 _ _)
      (update_of_ne (hne hq).2 _ _)⟩
  · obtain hr | hn | ⟨q, c, hq, hr⟩ := h.disk.idle hcmd
    · exact .inl hr
    · exact .inr (.inl hn)
    · exact .inr (.inr ⟨q, c, hkeep hq, hr⟩)

theorem Inv.append [Fintype B] (h : Inv s) (hp : s.pc p = some (.append, b)) :
    Inv { s with
      pc := update s.pc p (some (.start, b))
      idequeue := (appendNode (Fintype.card B) b s.idequeue s.qnext).1
      qnext := (appendNode (Fintype.card B) b s.idequeue s.qnext).2
      reqs := s.reqs ++ [b]
      appended := s.appended ++ [b] } := by
  obtain ⟨hlock, hnew, hfresh⟩ := h.procs p .append b hp
  have hin := inLock_of_pc hp rfl
  have hhandler := h.handler_out hin
  have hsame : inLock (some (Stage.start, b)) = inLock (s.pc p) := hin.symm
  have hother : ∀ {q st c}, s.pc q = some (st, c) → q ≠ p → c ≠ b := by
    rintro q st c hq hne rfl
    exact hne (h.same_proc hq hp)
  have hnostart : ∀ q c, s.pc q ≠ some (.start, c) := by
    intro q c hq
    obtain rfl := h.one_holder hin (inLock_of_pc hq rfl)
    rw [hp] at hq
    cases hq
  have hidle : s.cmd = none → s.reqs = [] := by
    intro hcmd
    obtain hr | hn | ⟨q, c, hq, -⟩ := h.disk.idle hcmd
    · exact hr
    · rw [hn] at hhandler
      cases hhandler
    · exact absurd hq (hnostart q c)
  have hchain := h.chain
  rw [linked_of_not_holding hhandler] at hchain
  refine ⟨fun q st c hq => ?_, fun c hc => ?_, ?_, ?_, h.apart, holder_keep h.holder hsame, h.intr,
    ⟨fun x hx => ?_, fun hcmd => ?_, h.disk.irq, h.disk.busy, fun c hc => ?_, h.disk.next⟩,
    fun q c hq => ?_, ?_, ?_⟩
  · obtain ⟨rfl, hat⟩ | ⟨hqp, hq⟩ := pc_cases hq
    · cases hat
      exact ⟨hlock, List.mem_append_right _ (List.mem_singleton_self _)⟩
    · obtain ⟨hl, hok⟩ := h.procs q st c hq
      have hcb := hother hq hqp
      have hmem : c ∈ s.reqs ++ [b] ↔ c ∈ s.reqs := by simp [hcb]
      exact ⟨hl, hok.congr hmem rfl rfl rfl fun _ => rfl⟩
  · obtain hc | hc := List.mem_append.1 hc
    · obtain ⟨q, st, hq, hw, hf⟩ := h.waiting c hc
      have hqp : q ≠ p := by
        rintro rfl
        rw [hp] at hq
        cases hq
        cases hw
      exact ⟨q, st, (update_of_ne hqp _ _).trans hq, hw, hf.congr rfl rfl rfl⟩
    · rw [List.mem_singleton.1 hc]
      exact ⟨p, .start, update_self .., rfl, hfresh.congr rfl rfl rfl⟩
  · exact List.nodup_append.2 ⟨h.nodup, List.nodup_singleton b, fun x hx y hy hxy => by
      rw [List.mem_singleton.1 hy] at hxy
      exact hnew (hxy ▸ hx)⟩
  · change Chain _ _ (linked s.handler (s.reqs ++ [b]))
    rw [linked_of_not_holding hhandler]
    exact hchain.appendNode h.nodup hnew
  · obtain ⟨c, rest, hr, hfor⟩ := h.disk.active x hx
    exact ⟨c, rest ++ [b], by rw [hr]; rfl, hfor.congr rfl rfl⟩
  · refine .inr (.inr ⟨p, b, update_self .., ?_⟩)
    rw [hidle hcmd]
    rfl
  · have hc' : s.handler = .finish c := hc
    rw [hc'] at hhandler
    cases hhandler
  · obtain ⟨rfl, hat⟩ | ⟨-, hq⟩ := pc_cases hq
    · cases hat
      refine ⟨List.getLast?_concat, fun hone => ?_⟩
      have hnil : s.reqs = [] := by simpa using hone
      cases hcmd : s.cmd with
      | none => rfl
      | some x =>
        obtain ⟨c, rest, hr, -⟩ := h.disk.active x hcmd
        rw [hr] at hnil
        cases hnil
    · exact absurd hq (hnostart q c)
  · rw [h.appended, List.append_assoc]
  · cases hcmd : s.cmd with
    | none =>
      have hs := h.started
      rw [hcmd] at hs
      exact hs
    | some x =>
      obtain ⟨c, rest, hr, -⟩ := h.disk.active x hcmd
      have hs := h.started
      rw [hcmd, hr] at hs
      rw [hr]
      exact hs

omit [DecidableEq B] in
theorem Inv.start_disk (h : Inv s) (hp : s.pc p = some (.start, b)) (hhead : s.idequeue = some b) :
    Inv { s with
      pc := update s.pc p (some (.wait, b))
      cmd := some ⟨(s.buf b).dirty, (s.buf b).place, (s.buf b).data, false⟩
      started := s.started ++ [b] } := by
  have hreqs := (h.start_head hp).1 hhead
  have hin := inLock_of_pc hp rfl
  have hhandler := h.handler_out hin
  obtain ⟨hlock, hmem⟩ := h.procs p .start b hp
  have hbusy : s.handler.busy = false := by
    rw [Bool.eq_false_iff]
    intro hb
    obtain ⟨-, c, hc, -⟩ := h.disk.busy hb
    rw [(h.start p b hp).2 hreqs] at hc
    cases hc
  have hnext : s.handler ≠ .next := by
    intro hn
    rw [hn] at hhandler
    cases hhandler
  refine h.started_cmd hreqs ((h.start p b hp).2 hreqs) s.handler ?_ ?_ ?_ h.chain
    (holder_keep h.holder hin.symm) h.intr hbusy hnext
  · intro q st c hq
    obtain ⟨rfl, hat⟩ | ⟨-, hq⟩ := pc_cases hq
    · cases hat
      exact ⟨hlock, .inl hmem⟩
    · exact h.procs q st c hq
  · intro c hc
    obtain ⟨q, st, hq, hw, hf⟩ := h.waiting c hc
    by_cases hqp : q = p
    · subst hqp
      rw [hp] at hq
      cases hq
      exact ⟨q, .wait, update_self .., rfl, hf⟩
    · exact ⟨q, st, (update_of_ne hqp _ _).trans hq, hw, hf⟩
  · intro q c hq
    obtain ⟨-, hat⟩ | ⟨hqp, hq⟩ := pc_cases hq
    · cases hat
    · exact hqp (h.one_holder hin (inLock_of_pc hq rfl)).symm

/-! ## One step -/

variable [Fintype B]

theorem inv_iderw (h : Inv s) (hp : s.pc p = some (st, b)) (hst : iderw s p b st = some t) :
    t.panic = true ∨ Inv t := by
  have hok := (h.procs p st b hp).2
  cases st with
  | enter =>
    obtain ⟨hlock, rfl⟩ := of_guard hst
    exact .inr (h.take hp hlock hok nofun nofun rfl fun hb => absurd hb hok.1)
  | append =>
    cases hst
    exact .inr (h.append hp)
  | start =>
    rw [iderw] at hst
    split at hst
    · rename_i hhead
      split at hst
      · cases hst
        rw [idestart]
        split
        · exact .inl rfl
        · exact .inr (h.start_disk hp hhead)
      · cases hst
    · rename_i hhead
      cases hst
      exact .inr (h.stay hp (.inl hok) (fun _ => h.start_behind hp hhead) nofun rfl fun _ => rfl)
  | wait =>
    rw [iderw] at hst
    split at hst
    · rename_i hsync
      cases hst
      have hnot : b ∉ s.reqs := by
        intro hb
        have hf := (h.fresh hp hb).unsynced
        rw [hsync] at hf
        cases hf
      exact .inr (h.stay hp ⟨hnot, hok.resolve_left hnot⟩ nofun nofun rfl
        fun hb => absurd hb hnot)
    · rename_i hsync
      cases hst
      have hmem : b ∈ s.reqs := by
        refine hok.resolve_right fun hd => hsync hd.synced
      refine .inr (h.drop hp rfl nofun ?_ (fun _ => ⟨.asleep, rfl, rfl⟩) rfl)
      intro st' c hv
      cases hv
      exact ⟨rfl, hmem, nofun⟩
  | asleep => cases hst
  | awake =>
    obtain ⟨hlock, rfl⟩ := of_guard hst
    exact .inr (h.take hp hlock hok nofun nofun rfl fun _ => rfl)
  | leave =>
    cases hst
    exact .inr (h.drop hp rfl nofun nofun (fun hb => absurd hb hok.1) rfl)

theorem inv_step {a : Act P B D} (h : Inv s) (hst : step s a = some t) : t.panic = true ∨ Inv t := by
  unfold step at hst
  split at hst
  · cases hst
  cases a with
  | lock p b x =>
    obtain ⟨hfree, rfl⟩ := of_guard hst
    exact .inr (h.lock hfree.1 hfree.2)
  | edit p b valid dirty data =>
    obtain ⟨hown, rfl⟩ := of_guard hst
    exact .inr (h.edit hown.1 hown.2 valid dirty data)
  | unlock p b =>
    obtain ⟨hown, rfl⟩ := of_guard hst
    exact .inr (h.unlock hown.1 hown.2)
  | call p b =>
    dsimp only at hst
    split at hst
    · rename_i hp
      split at hst
      · cases hst
        exact .inl rfl
      · rename_i hgood
        cases hst
        simp only [iderwPanics, Bool.or_eq_true, decide_eq_true_eq, not_or, not_not] at hgood
        exact .inr (h.call hp hgood.1.1 (Bool.eq_false_iff.2 hgood.1.2))
    · cases hst
  | next p =>
    obtain ⟨r, hr, hrun⟩ := Option.bind_eq_some_iff.1 hst
    exact inv_iderw h hr hrun
  | kill p =>
    dsimp only at hst
    split at hst
    · rename_i b hp
      cases hst
      exact .inr (h.stay hp (.inl (h.procs p .asleep b hp).2) nofun nofun rfl fun _ => rfl)
    · cases hst
  | disk => exact .inr (inv_execute h hst)
  | interrupt =>
    dsimp only at hst
    split at hst
    · rename_i hh
      obtain ⟨hirq, rfl⟩ := of_guard hst
      have hintr := h.intr
      rw [hh] at hintr
      exact .inr (h.handler_move (l := s.idelock) _ (by rw [hh]; rfl) h.holder hintr
        (by rw [hh]; exact nofun) nofun (fun _ => ⟨rfl, h.disk.irq hirq⟩) nofun nofun)
    · cases hst
  | handle => exact inv_ideintr h hst

theorem inv_of_reach (h : (system P B D).Reach (fun _ _ => True) s) : s.panic = true ∨ Inv s := by
  refine h.invariant (I := fun s => s.panic = true ∨ Inv s) (fun s hs => .inr (inv_of_initial hs)) ?_
  rintro s a t (hpanic | hinv) - hst
  · change step s a = some t at hst
    unfold step at hst
    rw [if_pos hpanic] at hst
    cases hst
  · exact inv_step hinv hst

/-! ## The result -/

theorem returns_from_leave (hp : s.pc p = some (st, b)) (hst : step s (.next p) = some t)
    (hret : t.pc p = none) : st = .leave := by
  have hnot : ∀ st', update s.pc p (some (st', b)) p ≠ none := by
    intro st'
    rw [update_self]
    exact nofun
  unfold step at hst
  split at hst
  · cases hst
  obtain ⟨r, hr, hrun⟩ := Option.bind_eq_some_iff.1 hst
  rw [hp] at hr
  cases hr
  dsimp only at hrun
  cases st with
  | leave => rfl
  | asleep => cases hrun
  | append =>
    cases hrun
    exact absurd hret (hnot _)
  | enter =>
    rw [iderw] at hrun
    split at hrun
    · cases hrun
      exact absurd hret (hnot _)
    · cases hrun
  | awake =>
    rw [iderw] at hrun
    split at hrun
    · cases hrun
      exact absurd hret (hnot _)
    · cases hrun
  | wait =>
    rw [iderw] at hrun
    split at hrun
    · cases hrun
      exact absurd hret (hnot _)
    · cases hrun
      exact absurd hret (hnot _)
  | start =>
    rw [iderw] at hrun
    split at hrun
    · split at hrun
      · cases hrun
        rw [idestart] at hret
        split at hret
        · exact absurd hret (hnot _)
        · exact absurd hret (hnot _)
      · cases hrun
    · cases hrun
      exact absurd hret (hnot _)

/-- **The request queue serves each request once and in order.**  While nobody has
`idelock`, the disk has a command exactly if the queue is not empty, and it is the one for
the buffer at the head; the queue is the list of requests that have not completed, each
once; requests are started, and completed, in the order they were appended; and `iderw`
returns only when the transfer of its buffer has completed, once. -/
theorem ide_queue_serves (s : State P B D) (h : (system P B D).Reach (fun _ _ => True) s)
    (hrun : s.panic = false) :
    s.reqs.Nodup ∧
      (s.idelock = none → Chain s.qnext s.idequeue s.reqs ∧
        (s.cmd.isSome = true ↔ s.idequeue.isSome = true) ∧
        ∀ c, s.cmd = some c → ∃ b, s.idequeue = some b ∧ CmdFor s c b) ∧
      s.appended = s.completed ++ s.reqs ∧ s.completed <+: s.started ∧ s.started <+: s.appended ∧
      ∀ p b st t, s.pc p = some (st, b) → step s (.next p) = some t → t.pc p = none →
        Completed s p b := by
  have hinv : Inv s := (inv_of_reach h).resolve_left (by rw [hrun]; exact nofun)
  refine ⟨hinv.nodup, fun hlock => ?_, hinv.appended, ?_, ?_, fun p b st t hp hst hret => ?_⟩
  · have hout := hinv.handler_not_holding hlock
    have hchain := hinv.chain
    rw [linked_of_not_holding hout] at hchain
    have hhead := hchain.head
    have hfirst : ∀ c, s.cmd = some c → ∃ b, s.idequeue = some b ∧ CmdFor s c b := by
      intro c hc
      obtain ⟨b, rest, hreqs, hfor⟩ := hinv.disk.active c hc
      rw [hreqs] at hhead
      exact ⟨b, hhead, hfor⟩
    refine ⟨hchain, ⟨fun hc => ?_, fun hq => ?_⟩, hfirst⟩
    · obtain ⟨c, hc⟩ := Option.isSome_iff_exists.1 hc
      obtain ⟨b, hb, -⟩ := hfirst c hc
      rw [hb]
      rfl
    · cases hc : s.cmd with
      | some c => rfl
      | none =>
        obtain hr | hn | ⟨p, b, hp, -⟩ := hinv.disk.idle hc
        · rw [hhead, hr] at hq
          cases hq
        · rw [hn] at hout
          cases hout
        · have hp' := (hinv.holder p).2 (by rw [hp]; rfl)
          rw [hlock] at hp'
          cases hp'
  · rw [hinv.started]
    exact List.prefix_append _ _
  · rw [hinv.started, hinv.appended]
    refine (List.prefix_append_right_inj _).2 ?_
    cases s.cmd with
    | none => exact List.nil_prefix
    | some c => exact List.take_prefix _ _
  · obtain rfl := returns_from_leave hp hst hret
    exact (hinv.procs p .leave b hp).2.2

/-- Two processes and two buffers. -/
def quiet : State (Fin 2) (Fin 2) ℕ where
  buf := fun _ => ⟨0, 0, false, false, 0⟩
  lock := fun _ => none
  idelock := none
  idequeue := none
  qnext := fun _ => none
  pc := fun _ => none
  handler := .idle
  irq := false
  cmd := none
  disk := fun _ => 0
  havedisk1 := true
  panic := false
  req := fun _ => ⟨0, 0, false, false, 0⟩
  count := fun _ => 0
  reqs := []
  appended := []
  started := []
  completed := []

/-- One process writes block 1, the other then asks for block 2. -/
def twoRequests : List (Act (Fin 2) (Fin 2) ℕ) :=
  [.lock 0 0 ⟨0, 1, true, true, 7⟩, .lock 1 1 ⟨0, 2, false, false, 0⟩, .call 0 0, .call 1 1,
    .next 0, .next 0, .next 0, .next 0, .next 1, .next 1, .next 1, .next 1, .disk, .interrupt,
    .handle, .handle, .handle, .handle, .handle, .next 0, .next 0]

theorem ide_queue_serves_two : ∃ s t : State (Fin 2) (Fin 2) ℕ,
    (system (Fin 2) (Fin 2) ℕ).Reach (fun _ _ => True) s ∧ s.panic = false ∧
    s.pc 0 = some (.leave, 0) ∧ s.disk (0, 1) = 7 ∧ step s (.next 0) = some t ∧ t.pc 0 = none ∧
    Completed s 0 0 := by
  have hinit : (system (Fin 2) (Fin 2) ℕ).Reach (fun _ _ => True) quiet :=
    .init ⟨fun _ => rfl, rfl, rfl, fun _ => rfl, rfl, rfl, rfl, rfl, rfl, rfl, rfl⟩
  obtain ⟨s, hs, hv⟩ := Lts.reach_of_exec_map twoRequests
    (fun s => (s.panic, s.pc 0, s.disk (0, 1))) (false, some (.leave, 0), 7) hinit
    (by decide +kernel)
  obtain ⟨hpanic, hpc, hdisk⟩ : s.panic = false ∧ s.pc 0 = some (.leave, 0) ∧ s.disk (0, 1) = 7 := by
    simpa only [Prod.mk.injEq] using hv
  have hret : step s (.next 0) = some { s.goto 0 none with idelock := none } := by
    have hbind : step s (.next 0) = (s.pc 0).bind fun r => iderw s 0 r.2 r.1 :=
      if_neg (by rw [hpanic]; exact nofun)
    rw [hbind, hpc]
    rfl
  have hout : update s.pc 0 none 0 = none := update_self ..
  exact ⟨s, _, hs, hpanic, hpc, hdisk, hret, hout,
    (ide_queue_serves s hs hpanic).2.2.2.2.2 0 0 .leave _ hpc hret hout⟩

end Xv6.Ide
