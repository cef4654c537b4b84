import Xv6.Ftable.Count

/-!
# The totals stay right

* `Fits`, `Files`, `Procs` — the accounts of the processes agree with `ftable`, the
  pipes and the process table.
* `op_keeps` — a legal operation gives the answer the protocol promises and keeps
  the agreement.
* `file_refs_exact` — what follows for every run.
-/

namespace Xv6.Ftable

open Xv6.Lib Function Finset Option
open Local (closed off)
open State (isOpen makePipe setFile setPipe)

variable {n m : ℕ} {s t : State n m} {G : Fin n → Local n m} {p q : Fin n} {f : FileId}
  {g : Local n m}

/-! ## The invariant -/

/-- What a process has fits the files. -/
structure Fits (s : State n m) (g : Local n m) : Prop where
  share_nonneg : ∀ f, 0 ≤ g.res (.share f)
  /-- A file without a type has one reference, that of the process that allocated
  it. -/
  blank : ∀ f, g.blank f ≠ 0 → g.blank f = 1 ∧ g.res (.share f) = 1 ∧ (s.file f).ref = 1
  /-- The fields a process has read are still there. -/
  seen : ∀ f x, g.seen = some (f, x) → 1 ≤ g.res (.share f) ∧ g.blank f = 0 ∧
    (s.file f).type = x.type ∧ (s.file f).pipe = x.pipe
  /-- A process is inside a pipe through a file. -/
  inside : ∀ pg, g.inside = some pg →
    ∃ f x, g.seen = some (f, x) ∧ x.type = .FD_PIPE ∧ x.pipe = some pg

/-- The accounts agree with the files and the pipes. -/
structure Files (s : State n m) (G : Fin n → Local n m) : Prop where
  count : ∀ k, total s k = ∑ p, (G p).res k
  fits : ∀ p, Fits s (G p)
  pipe : ∀ f, (s.file f).type = .FD_PIPE → (s.file f).pipe ≠ none
  pages : ∀ pg, s.made pg = s.freed pg + (if (s.pipe pg).isSome then 1 else 0)
  inside : ∀ p, s.inside p = (G p).inside
  fault : s.fault = false

/-- The accounts agree with the process table. -/
structure Procs (s : State n m) (G : Fin n → Local n m) : Prop where
  live : ∀ p, (G p).live = true ↔ s.state p = .RUNNING
  off : ∀ p, (G p).live = false → G p = .off
  table : ∀ p, s.state p ≠ .EMBRYO → s.ofile p = (G p).table
  child : ∀ p q T, (G p).child = some (q, T) → s.state q = .EMBRYO ∧ s.ofile q = T
  parent : ∀ p p' q T T', (G p).child = some (q, T) → (G p').child = some (q, T') → p = p'
  embryo : ∀ q, s.state q = .EMBRYO → ∃ p T, (G p).child = some (q, T)

/-- The invariant. -/
structure Inv (s : State n m) (G : Fin n → Local n m) : Prop where
  files : Files s G
  procs : Procs s G

/-! ### What it says -/

theorem Local.res_nonneg_of_fits (h : Fits s g) (k : Key m) : 0 ≤ g.res k := by
  cases k with
  | share f => exact h.share_nonneg f
  | _ => exact Int.natCast_nonneg _

theorem Files.res_le_total (h : Files s G) (p : Fin n) (k : Key m) : (G p).res k ≤ total s k := by
  rw [h.count k]
  exact single_le_sum (f := fun p => (G p).res k)
    (fun q _ => Local.res_nonneg_of_fits (h.fits q) k) (mem_univ p)

theorem Files.total_nonneg (h : Files s G) (k : Key m) : 0 ≤ total s k := by
  rw [h.count k]
  exact sum_nonneg fun q _ => Local.res_nonneg_of_fits (h.fits q) k

theorem Files.res_eq_zero (h : Files s G) {k : Key m} (hp : total s k ≤ (G p).res k) (hq : q ≠ p) :
    (G q).res k = 0 := by
  have hsum := add_sum_erase Finset.univ (fun p => (G p).res k) (mem_univ p)
  have hle := single_le_sum (f := fun p => (G p).res k)
    (fun q _ => Local.res_nonneg_of_fits (h.fits q) k)
    (mem_erase.2 ⟨hq, mem_univ q⟩)
  have hq0 := Local.res_nonneg_of_fits (h.fits q) k
  rw [← h.count k] at hsum
  omega

theorem Files.exists_res_pos (h : Files s G) {k : Key m} (hk : 0 < total s k) :
    ∃ q, 0 < (G q).res k := by
  by_contra hno
  push Not at hno
  have hsum := h.count k
  have hle := sum_nonpos fun q (_ : q ∈ Finset.univ) => hno q
  omega

theorem Files.type_of_ref_zero (h : Files s G) (hf : (s.file f).ref = 0) :
    (s.file f).type = .FD_NONE := by
  have hnn := h.total_nonneg (.blank f)
  by_contra htype
  simp [total, hf, File.typed, htype] at hnn

theorem Files.type_ne_none (h : Files s G) (hp : 1 ≤ (G p).res (.share f))
    (hb : (G p).blank f = 0) : (s.file f).type ≠ .FD_NONE := by
  intro htype
  have hle := h.res_le_total p (.share f)
  have href : 0 < (s.file f).ref := by
    simp only [total] at hle
    omega
  obtain ⟨q, hq⟩ := h.exists_res_pos (k := .blank f) (by simp [total, href, File.typed, htype])
  have hqb : (G q).blank f ≠ 0 := by
    simp only [Local.res] at hq
    omega
  obtain ⟨-, hq1, href1⟩ := (h.fits q).blank f hqb
  by_cases hqp : q = p
  · rw [hqp] at hqb
    exact hqb hb
  · have hzero := h.res_eq_zero (k := .share f) (p := p) (by simp only [total]; omega) hqp
    omega

theorem Files.blank_unique (h : Files s G) (hq : (G q).blank f ≠ 0)
    (hp : 1 ≤ (G p).res (.share f)) : q = p := by
  obtain ⟨-, hq1, href⟩ := (h.fits q).blank f hq
  by_contra hne
  have hzero := h.res_eq_zero (k := .share f) (p := q) (by simp only [total]; omega) (Ne.symm hne)
  omega

theorem Files.type_of_blank (h : Files s G) (hp : (G p).blank f ≠ 0) :
    (s.file f).type = .FD_NONE := by
  have hle := h.res_le_total p (.blank f)
  by_contra htype
  simp only [total, Local.res, File.typed, htype, if_false] at hle
  split_ifs at hle <;> omega

theorem ends_nonneg (file : FileId → File m) (pg : Fin m) (w : Bool) : 0 ≤ ends file pg w :=
  sum_nonneg fun _ _ => by split <;> simp

variable {pg : Fin m} {w : Bool} {g' : Local n m} {fd : Fd} {x : File m} {T : Fd → Option FileId}

theorem one_le_ends {file : FileId → File m} (hf : (file f).hasEnd pg w) :
    1 ≤ ends file pg w := by
  have hone := single_le_sum (f := fun f => if (file f).hasEnd pg w then (1 : ℤ) else 0)
    (fun _ _ => by split <;> simp) (mem_univ f)
  rwa [if_pos hf] at hone

theorem Files.isOpen_of_hasEnd (h : Files s G) (hf : (s.file f).hasEnd pg w) :
    s.isOpen pg w = true := by
  have hnn := h.total_nonneg (.ends pg w)
  have hone := one_le_ends hf
  by_contra hopen
  simp only [total, hopen, if_false] at hnn
  omega

theorem State.pipe_of_isOpen (h : s.isOpen pg w = true) :
    (s.pipe pg).isSome = true ∧ s.pipe pg ≠ some ⟨false, false⟩ := by
  cases hx : s.pipe pg with
  | none => simp [isOpen, hx] at h
  | some x =>
    refine ⟨rfl, fun hff => ?_⟩
    cases hff
    simp [isOpen, hx, Pipe.isOpen] at h

theorem Files.isOpen_of_inside (h : Files s G) (hp : (G p).inside = some pg) :
    ∃ f w, (s.file f).hasEnd pg w := by
  obtain ⟨f, x, hseen, htype, hpg⟩ := (h.fits p).inside pg hp
  obtain ⟨-, -, ht, hpipe⟩ := (h.fits p).seen f x hseen
  exact ⟨f, (s.file f).writable, ht.trans htype, hpipe.trans hpg, rfl⟩

/-! ## What an operation leaves alone -/

/-- The two states have the same files and pipes, and the same history. -/
structure State.SameFiles (s t : State n m) : Prop where
  file : t.file = s.file
  pipe : t.pipe = s.pipe
  inside : t.inside = s.inside
  opened : t.opened = s.opened
  released : t.released = s.released
  made : t.made = s.made
  freed : t.freed = s.freed
  fault : t.fault = s.fault

theorem Fits.mono (h : Fits s g) (hblank : ∀ f, g.blank f ≠ 0 → (t.file f).ref = (s.file f).ref)
    (hseen : ∀ f x, g.seen = some (f, x) →
      (t.file f).type = (s.file f).type ∧ (t.file f).pipe = (s.file f).pipe) : Fits t g where
  share_nonneg := h.share_nonneg
  blank f hf := by
    rw [hblank f hf]
    exact h.blank f hf
  seen f x hx := by
    rw [(hseen f x hx).1, (hseen f x hx).2]
    exact h.seen f x hx
  inside := h.inside

theorem Fits.of_file_eq (h : Fits s g) (hfile : t.file = s.file) : Fits t g :=
  h.mono (fun f _ => by rw [hfile]) fun f _ _ => by rw [hfile]; exact ⟨rfl, rfl⟩

theorem total_congr (hfile : t.file = s.file) (hpipe : t.pipe = s.pipe)
    (hopened : t.opened = s.opened) (hreleased : t.released = s.released) (k : Key m) :
    total t k = total s k := by
  cases k with
  | share f => simp only [total, hfile]
  | blank f => simp only [total, hfile]
  | duty f => simp only [total, hfile, hopened, hreleased]
  | ends pg w =>
    have hopen : t.isOpen pg w = s.isOpen pg w := by rw [isOpen, isOpen, hpipe]
    simp only [total, hopen, hfile]
  | dead pg => simp only [total, hpipe]

theorem Files.of_same (h : Files s G) (hst : s.SameFiles t) : Files t G where
  count k := by
    rw [← h.count k]
    exact total_congr hst.file hst.pipe hst.opened hst.released k
  fits p := (h.fits p).of_file_eq hst.file
  pipe := by
    rw [hst.file]
    exact h.pipe
  pages := by
    rw [hst.made, hst.freed, hst.pipe]
    exact h.pages
  inside := by
    rw [hst.inside]
    exact h.inside
  fault := hst.fault.trans h.fault

theorem Files.count_update (h : Files s G)
    (hk : ∀ k, total t k + (G p).res k = total s k + g'.res k) (k : Key m) :
    total t k = ∑ q, (update G p g' q).res k := by
  have hsum := sum_update_add (fun (_ : Fin n) (g : Local n m) => g.res k) G p g'
  have hcount := h.count k
  have hchange := hk k
  omega

theorem Files.account (h : Files s G) (g' : Local n m) (hres : ∀ k, g'.res k = (G p).res k)
    (hfits : Fits s g') (hin : g'.inside = (G p).inside) : Files s (update G p g') where
  count := h.count_update fun k => by rw [hres k]
  fits := (forall_update_iff G fun _ g => Fits s g).2 ⟨hfits, fun q _ => h.fits q⟩
  pipe := h.pipe
  pages := h.pages
  inside := (forall_update_iff G fun q g => s.inside q = g.inside).2
    ⟨by rw [hin, h.inside], fun q _ => h.inside q⟩
  fault := h.fault

theorem Procs.keep (h : Procs s G) (hstate : t.state = s.state)
    (hofile : ∀ q, q ≠ p → t.ofile q = s.ofile q) (htable : t.ofile p = g'.table)
    (hlive : (G p).live = true) (hlive' : g'.live = true) (hchild : g'.child = (G p).child) :
    Procs t (update G p g') := by
  have hp : s.state p = .RUNNING := (h.live p).1 hlive
  have hchild' : ∀ q, (update G p g' q).child = (G q).child := by
    intro q
    by_cases hq : q = p
    · rw [hq, update_self, hchild]
    · rw [update_of_ne hq]
  refine ⟨?_, ?_, ?_, ?_, ?_, ?_⟩
  · rw [hstate]
    refine (forall_update_iff G fun q g => g.live = true ↔ s.state q = .RUNNING).2
      ⟨?_, fun q _ => h.live q⟩
    simp [hlive', hp]
  · refine (forall_update_iff G fun _ g => g.live = false → g = .off).2
      ⟨?_, fun q _ => h.off q⟩
    simp [hlive']
  · rw [hstate]
    refine (forall_update_iff G
      fun q g => s.state q ≠ .EMBRYO → t.ofile q = g.table).2 ⟨fun _ => htable, fun q hq hs => ?_⟩
    rw [hofile q hq]
    exact h.table q hs
  · intro q c T hq
    rw [hchild'] at hq
    obtain ⟨hc, hT⟩ := h.child q c T hq
    have hne : c ≠ p := by
      rintro rfl
      rw [hp] at hc
      cases hc
    rw [hstate, hofile c hne]
    exact ⟨hc, hT⟩
  · intro q q' c T T' hq hq'
    rw [hchild'] at hq hq'
    exact h.parent q q' c T T' hq hq'
  · intro c hc
    rw [hstate] at hc
    obtain ⟨q, T, hq⟩ := h.embryo c hc
    exact ⟨q, T, by rw [hchild', hq]⟩

theorem Procs.same (h : Procs s G) (hstate : t.state = s.state) (hofile : t.ofile = s.ofile)
    (htable : g'.table = (G p).table) (hlive : (G p).live = true) (hlive' : g'.live = true)
    (hchild : g'.child = (G p).child) :
    Procs t (update G p g') := by
  refine h.keep hstate (fun q _ => by rw [hofile]) ?_ hlive hlive' hchild
  have hp : s.state p ≠ .EMBRYO := by simp [(h.live p).1 hlive]
  rw [hofile, htable, h.table p hp]

/-! ## Operations -/

/-- A legal operation of process `p` has the answer the protocol promises and keeps
the invariant. -/
def Keeps (p : Fin n) (o : Op n m) : Prop :=
  ∀ {s G r t}, Inv s G → legal (G p) o → sem p o s = some (r, t) →
    answers (G p) o r ∧ Inv t (update G p (next (G p) o r))

theorem Inv.idle (h : Inv s G) (hlive : (G p).live = true) (hst : s.SameFiles t)
    (hstate : t.state = s.state) (hofile : t.ofile = s.ofile) :
    Inv t (update G p (G p)) := by
  refine ⟨?_, h.procs.same hstate hofile rfl hlive hlive rfl⟩
  rw [update_eq_self]
  exact h.files.of_same hst

theorem keeps_luck : Keeps p (.luck : Op n m) := by
  intro s G r t h hl hr
  cases hr
  exact ⟨trivial, h.idle hl.1 ⟨rfl, rfl, rfl, rfl, rfl, rfl, rfl, rfl⟩ rfl rfl⟩

theorem keeps_getfd (fd : Fd) : Keeps p (.getfd fd : Op n m) := by
  intro s G r t h hl hr
  cases hr
  refine ⟨?_, h.idle hl.1 ⟨rfl, rfl, rfl, rfl, rfl, rfl, rfl, rfl⟩ rfl rfl⟩
  have hp : s.state p ≠ .EMBRYO := by simp [(h.procs.live p).1 hl.1]
  exact congrFun (h.procs.table p hp) fd

theorem Local.res_store (hfd : g.table fd = none) (k : Key m) :
    (g.store fd f).res k = g.res k := by
  cases k with
  | share f' =>
    have hslots := slots_update g.table fd (some f) f'
    rw [hfd] at hslots
    simp only [Local.res, Local.store, Pi.sub_apply, Pi.single_apply, eq_comm (a := f')] at hslots ⊢
    simp only [some_inj, reduceCtorEq, if_false] at hslots
    omega
  | _ => rfl

theorem Local.res_take (k : Key m) : (g.take fd).res k = g.res k := by
  cases k with
  | share f' =>
    have hslots := slots_update g.table fd none f'
    simp only [Local.res, Local.take]
    cases hfd : g.table fd with
    | none =>
      rw [hfd] at hslots
      simp only [reduceCtorEq, if_false] at hslots ⊢
      omega
    | some f =>
      rw [hfd] at hslots
      simp only [some_inj, reduceCtorEq, if_false, Pi.add_apply, Pi.single_apply,
        eq_comm (a := f')] at hslots ⊢
      omega
  | _ => rfl

theorem Fits.congr (h : Fits s g) (hres : ∀ k, g'.res k = g.res k) (hseen : g'.seen = g.seen)
    (hin : g'.inside = g.inside) : Fits s g' := by
  have hblank : ∀ f, g'.blank f = g.blank f := fun f => Int.natCast_inj.1 (hres (.blank f))
  refine ⟨fun f => ?_, fun f => ?_, fun f x => ?_, fun pg => ?_⟩
  · rw [hres]
    exact h.share_nonneg f
  · rw [hres, hblank]
    exact h.blank f
  · rw [hres, hblank, hseen]
    exact h.seen f x
  · rw [hseen, hin]
    exact h.inside pg

theorem keeps_fdalloc (f : FileId) : Keeps p (.fdalloc f : Op n m) := by
  intro s G r t h hl hr
  have hp : s.state p ≠ .EMBRYO := by simp [(h.procs.live p).1 hl.1]
  simp only [sem] at hr
  split at hr
  · cases hr
    exact ⟨trivial, h.idle hl.1 ⟨rfl, rfl, rfl, rfl, rfl, rfl, rfl, rfl⟩ rfl rfl⟩
  · rename_i fd hfind
    cases hr
    have hfd : (G p).table fd = none := by
      have hnone := List.find?_some hfind
      rw [h.procs.table p hp] at hnone
      simpa using hnone
    refine ⟨hfd, ?_, ?_⟩
    · have hacc := h.files.account (p := p) ((G p).store fd f) (Local.res_store hfd)
        ((h.files.fits p).congr (Local.res_store hfd) rfl rfl) rfl
      exact hacc.of_same ⟨rfl, rfl, rfl, rfl, rfl, rfl, rfl, rfl⟩
    · refine h.procs.keep rfl (fun q hq => update_of_ne hq ..) ?_ hl.1 hl.1 rfl
      exact (update_self ..).trans (by rw [h.procs.table p hp]; rfl)

theorem keeps_clearfd (fd : Fd) : Keeps p (.clearfd fd : Op n m) := by
  intro s G r t h hl hr
  have hp : s.state p ≠ .EMBRYO := by simp [(h.procs.live p).1 hl.1]
  cases hr
  refine ⟨trivial, ?_, ?_⟩
  · have hacc := h.files.account (p := p) ((G p).take fd) Local.res_take
      ((h.files.fits p).congr Local.res_take rfl rfl) rfl
    exact hacc.of_same ⟨rfl, rfl, rfl, rfl, rfl, rfl, rfl, rfl⟩
  · refine h.procs.keep rfl (fun q hq => update_of_ne hq ..) ?_ hl.1 hl.1 rfl
    exact (update_self ..).trans (by rw [h.procs.table p hp]; rfl)

/-! ### Files -/

/-- What an entry of `ftable` adds to the totals. -/
def File.weight (x : File m) (f : FileId) : Key m → ℤ
  | .share f' => if f' = f then x.ref else 0
  | .blank f' => if f' = f then (if 0 < x.ref then 1 else 0) - x.typed else 0
  | .duty f' => if f' = f then - x.typed else 0
  | .ends pg w => - if x.hasEnd pg w then 1 else 0
  | .dead _ => 0

theorem total_setFile (s : State n m) (f : FileId) (x : File m) (k : Key m) :
    total (s.setFile f x) k + (s.file f).weight f k = total s k + x.weight f k := by
  cases k with
  | share f' =>
    simp only [total, File.weight, setFile, update_apply]
    by_cases hf : f' = f
    · subst hf
      simp only [if_true]
      omega
    · simp [hf]
  | blank f' =>
    simp only [total, File.weight, setFile, update_apply]
    by_cases hf : f' = f
    · subst hf
      simp only [if_true]
      omega
    · simp [hf]
  | duty f' =>
    simp only [total, File.weight, setFile, update_apply]
    by_cases hf : f' = f
    · subst hf
      simp only [if_true]
      omega
    · simp [hf]
  | ends pg w =>
    have hsum := sum_update_add
      (fun (_ : FileId) (x : File m) => if x.hasEnd pg w then (1 : ℤ) else 0) s.file f x
    change (if s.isOpen pg w = true then (1 : ℤ) else 0) - ends (update s.file f x) pg w
        + - (if (s.file f).hasEnd pg w then (1 : ℤ) else 0)
      = (if s.isOpen pg w = true then (1 : ℤ) else 0) - ends s.file pg w
        + - (if x.hasEnd pg w then (1 : ℤ) else 0)
    simp only [ends]
    linarith
  | dead pg => rfl

/-- The two states have the same pipes and process tables. -/
structure State.SameTables (s t : State n m) : Prop where
  pipe : t.pipe = s.pipe
  inside : t.inside = s.inside
  made : t.made = s.made
  freed : t.freed = s.freed
  fault : t.fault = s.fault
  state : t.state = s.state
  ofile : t.ofile = s.ofile

theorem Inv.setFile (h : Inv s G) (hlive : (G p).live = true) (x : File m) (g' : Local n m)
    (hfile : t.file = (s.setFile f x).file) (hst : s.SameTables t)
    (hk : ∀ k, total t k + (G p).res k = total s k + g'.res k)
    (hself : Fits (s.setFile f x) g') (hother : ∀ q, q ≠ p → Fits (s.setFile f x) (G q))
    (hpipe : x.type = .FD_PIPE → x.pipe ≠ none) (hlive' : g'.live = true)
    (htable : g'.table = (G p).table) (hchild : g'.child = (G p).child)
    (hin : g'.inside = (G p).inside) : Inv t (update G p g') := by
  refine ⟨⟨h.files.count_update hk, ?_, ?_, ?_, ?_, hst.fault.trans h.files.fault⟩,
    h.procs.same hst.state hst.ofile htable hlive hlive' hchild⟩
  · exact (forall_update_iff G fun _ g => Fits t g).2
      ⟨hself.of_file_eq hfile, fun q hq => (hother q hq).of_file_eq hfile⟩
  · rw [hfile]
    exact (forall_update_iff s.file fun _ x => x.type = .FD_PIPE → x.pipe ≠ none).2
      ⟨hpipe, fun f' _ => h.files.pipe f'⟩
  · rw [hst.made, hst.freed, hst.pipe]
    exact h.files.pages
  · rw [hst.inside]
    exact (forall_update_iff G fun q g => s.inside q = g.inside).2
      ⟨by rw [hin, h.files.inside], fun q _ => h.files.inside q⟩

theorem count_setFile (hk : ∀ k, x.weight f k + g.res k = (s.file f).weight f k + g'.res k)
    (k : Key m) :
    total (s.setFile f x) k + g.res k = total s k + g'.res k := by
  have htotal := total_setFile s f x k
  have hchange := hk k
  omega

theorem Fits.setFile (h : Fits s g) (x : File m) (hblank : g.blank f = 0)
    (hseen : ∀ y, g.seen = some (f, y) → x.type = (s.file f).type ∧ x.pipe = (s.file f).pipe) :
    Fits (s.setFile f x) g := by
  refine h.mono (fun f' hf' => ?_) fun f' y hy => ?_
  · have hne : f' ≠ f := by
      rintro rfl
      exact hf' hblank
    simp [State.setFile, hne]
  · by_cases hf : f' = f
    · subst hf
      simpa [State.setFile] using hseen y hy
    · simp [State.setFile, hf]

theorem Fits.setFile_of_share (h : Fits s g) (x : File m) (hshare : g.res (.share f) = 0) :
    Fits (s.setFile f x) g := by
  refine h.setFile x ?_ fun y hy => ?_
  · by_contra hb
    have hone := (h.blank f hb).2.1
    omega
  · have hone := (h.seen f y hy).1
    omega

theorem Fits.change (h : Fits s g) (x : File m) (g' : Local n m)
    (hshare : ∀ f', f' ≠ f → g'.res (.share f') = g.res (.share f'))
    (hblank : ∀ f', f' ≠ f → g'.blank f' = g.blank f')
    (hin : g'.inside = none ∨ g'.inside = g.inside ∧ g'.seen = g.seen)
    (hseen : ∀ z, g'.seen = some z → g.seen = some z) (hself : 0 ≤ g'.res (.share f))
    (hnew : g'.blank f ≠ 0 → g'.blank f = 1 ∧ g'.res (.share f) = 1 ∧ x.ref = 1)
    (hknown : ∀ y, g'.seen = some (f, y) →
      1 ≤ g'.res (.share f) ∧ g'.blank f = 0 ∧ x.type = y.type ∧ x.pipe = y.pipe) :
    Fits (s.setFile f x) g' := by
  have hfile : ∀ f', f' ≠ f → (s.setFile f x).file f' = s.file f' :=
    fun f' hf => update_of_ne hf ..
  have hfile' : (s.setFile f x).file f = x := update_self ..
  refine ⟨fun f' => ?_, fun f' hb => ?_, fun f' y hy => ?_, fun pg hpg => ?_⟩
  · by_cases hf : f' = f
    · rw [hf]
      exact hself
    · rw [hshare f' hf]
      exact h.share_nonneg f'
  · by_cases hf : f' = f
    · subst hf
      rw [hfile']
      exact hnew hb
    · rw [hblank f' hf] at hb ⊢
      rw [hshare f' hf, hfile f' hf]
      exact h.blank f' hb
  · by_cases hf : f' = f
    · subst hf
      rw [hfile']
      exact hknown y hy
    · rw [hshare f' hf, hblank f' hf, hfile f' hf]
      exact h.seen f' y (hseen _ hy)
  · rcases hin with hnone | ⟨hsame, hseen'⟩
    · rw [hnone] at hpg
      cases hpg
    · rw [hsame] at hpg
      rw [hseen']
      exact h.inside pg hpg

theorem Local.res_got (g : Local n m) (f f' : FileId) :
    (g.got f).res (.share f') = g.res (.share f') + if f' = f then 1 else 0 := by
  simp only [Local.res, Local.got, Pi.add_apply, Pi.single_apply]
  ring

theorem Local.res_dup (g : Local n m) (f f' : FileId) :
    (g.dup f).res (.share f') = g.res (.share f') + if f' = f then 1 else 0 := by
  simp only [Local.res, Local.dup, Pi.add_apply, Pi.single_apply]
  ring

theorem keeps_filealloc : Keeps p (.filealloc : Op n m) := by
  intro s G r t h hl hr
  simp only [sem] at hr
  split at hr
  · cases hr
    exact ⟨trivial, h.idle hl.1 ⟨rfl, rfl, rfl, rfl, rfl, rfl, rfl, rfl⟩ rfl rfl⟩
  rename_i f hfind
  cases hr
  have href : (s.file f).ref = 0 := by simpa using List.find?_some hfind
  have htype := h.files.type_of_ref_zero href
  have hshare : ∀ q, (G q).res (.share f) = 0 := by
    intro q
    have hle := h.files.res_le_total q (.share f)
    have hnn := (h.files.fits q).share_nonneg f
    simp only [total, href] at hle
    omega
  have hblank : ∀ q, (G q).blank f = 0 := by
    intro q
    by_contra hb
    have hone := ((h.files.fits q).blank f hb).2.1
    rw [hshare q] at hone
    omega
  have hself : ((G p).got f).res (.share f) = 1 := by
    rw [Local.res_got, hshare p, if_pos rfl, zero_add]
  refine ⟨⟨hshare p, hblank p⟩, ?_⟩
  refine h.setFile (f := f) hl.1 { s.file f with ref := 1 } ((G p).got f) rfl
    ⟨rfl, rfl, rfl, rfl, rfl, rfl, rfl⟩ (count_setFile fun k => ?_) ?_
    (fun q _ => (h.files.fits q).setFile_of_share _ (hshare q)) (h.files.pipe f) hl.1 rfl rfl rfl
  · cases k with
    | share f' =>
      rw [Local.res_got]
      simp only [File.weight, href]
      split_ifs <;> simp
      ring
    | blank f' =>
      by_cases hf : f' = f
      · subst hf
        simp [File.weight, File.typed, href, htype, Local.res, Local.got, hblank p]
      · simp [File.weight, Local.res, Local.got, hf]
    | _ => rfl
  · refine (h.files.fits p).change _ _ (fun f' hf => ?_) (fun f' hf => ?_) (.inr ⟨rfl, rfl⟩)
      (fun _ hz => hz) ?_ (fun _ => ?_) fun y hy => ?_
    · rw [Local.res_got, if_neg hf, add_zero]
    · exact update_of_ne hf ..
    · rw [hself]
      exact zero_le_one
    · exact ⟨update_self .., hself, rfl⟩
    · have hone := ((h.files.fits p).seen f y hy).1
      rw [hshare p] at hone
      omega

theorem keeps_filedup (f : FileId) : Keeps p (.filedup f : Op n m) := by
  intro s G r t h hl hr
  obtain ⟨hlive, hp, hb⟩ := hl
  have href := h.files.res_le_total p (.share f)
  simp only [total] at href
  simp only [sem] at hr
  rw [if_neg (by omega)] at hr
  cases hr
  refine ⟨rfl, ?_⟩
  refine h.setFile (f := f) hlive { s.file f with ref := (s.file f).ref + 1 } ((G p).dup f)
    rfl ⟨rfl, rfl, rfl, rfl, rfl, rfl, rfl⟩ (count_setFile fun k => ?_) ?_ (fun q hq => ?_)
    (h.files.pipe f) hlive rfl rfl rfl
  · cases k with
    | share f' =>
      rw [Local.res_dup]
      simp only [File.weight]
      split_ifs <;> simp
      ring
    | blank f' =>
      have hpos : 0 < (s.file f).ref := by omega
      simp only [File.weight, File.typed, Local.res, Local.dup, hpos, Nat.succ_pos, if_true]
    | _ => rfl
  · have hdup : ((G p).dup f).res (.share f) = (G p).res (.share f) + 1 := by
      rw [Local.res_dup, if_pos rfl]
    refine (h.files.fits p).change _ _ (fun f' hf => ?_) (fun _ _ => rfl) (.inr ⟨rfl, rfl⟩)
      (fun _ hz => hz) (by omega) (fun hb' => absurd hb hb') fun y hy => ?_
    · rw [Local.res_dup, if_neg hf, add_zero]
    · obtain ⟨-, -, htype, hpipe⟩ := (h.files.fits p).seen f y hy
      exact ⟨by omega, hb, htype, hpipe⟩
  · refine (h.files.fits q).setFile _ ?_ fun y hy => ⟨rfl, rfl⟩
    by_contra hb'
    exact hq (h.files.blank_unique hb' hp)

theorem Local.res_drop (g : Local n m) (f f' : FileId) :
    (g.drop f).res (.share f') = g.res (.share f') - if f' = f then 1 else 0 := by
  simp only [Local.res, Local.drop, Pi.sub_apply, Pi.single_apply]
  ring

theorem Local.res_closed (g : Local n m) (f f' : FileId) (ff : File m) :
    (g.closed f ff).res (.share f') = g.res (.share f') - if f' = f then 1 else 0 := by
  simp only [Local.res, closed, Pi.sub_apply, Pi.single_apply]
  ring

theorem Local.res_closed_ends (g : Local n m) (f : FileId) (ff : File m) (pg : Fin m) (w : Bool) :
    (g.closed f ff).res (.ends pg w)
      = g.res (.ends pg w) + if ff.hasEnd pg w then 1 else 0 := by
  cases htype : ff.type <;> cases hpipe : ff.pipe <;>
    simp [Local.res, closed, File.hasEnd, htype, hpipe, bump, Pi.single_apply, eq_comm]

theorem Inv.fileclose_shared (h : Inv s G) (hlive : (G p).live = true)
    (hp : 1 ≤ (G p).res (.share f)) (hin : (G p).inside = none) (href : 1 < (s.file f).ref) :
    (G p).blank f = 0 ∧ Inv (s.setFile f { s.file f with ref := (s.file f).ref - 1 })
      (update G p ((G p).drop f)) := by
  have hblank : ∀ q, (G q).blank f = 0 := by
    intro q
    by_contra hb
    have hone := ((h.files.fits q).blank f hb).2.2
    omega
  refine ⟨hblank p, h.setFile (f := f) hlive _ ((G p).drop f) rfl
    ⟨rfl, rfl, rfl, rfl, rfl, rfl, rfl⟩ (count_setFile fun k => ?_) ?_ (fun q _ => ?_)
    (h.files.pipe f) hlive rfl rfl rfl⟩
  · cases k with
    | share f' =>
      rw [Local.res_drop]
      simp only [File.weight]
      split_ifs
      · push_cast [Nat.cast_sub (show 1 ≤ (s.file f).ref by omega)]
        ring
      · ring
    | blank f' =>
      have hpos : 0 < (s.file f).ref := by omega
      have hpos' : 0 < (s.file f).ref - 1 := by omega
      simp only [File.weight, File.typed, Local.res, Local.drop, hpos, hpos', if_true]
    | _ => rfl
  · refine (h.files.fits p).change _ _ (fun f' hf => ?_) (fun _ _ => rfl) (.inl hin)
      (by rintro _ ⟨⟩) ?_ (fun hb' => absurd (hblank p) hb') (by rintro _ ⟨⟩)
    · rw [Local.res_drop, if_neg hf, sub_zero]
    · rw [Local.res_drop, if_pos rfl]
      omega
  · exact (h.files.fits q).setFile _ (hblank q) fun y hy => ⟨rfl, rfl⟩

theorem Inv.fileclose_last (h : Inv s G) (hlive : (G p).live = true)
    (hp : 1 ≤ (G p).res (.share f)) (hin : (G p).inside = none) (href : (s.file f).ref = 1) :
    ((G p).blank f = 1 ↔ (s.file f).type = .FD_NONE) ∧
      Inv (s.setFile f { s.file f with ref := 0, type := .FD_NONE })
        (update G p ((G p).closed f (s.file f))) := by
  have hnew : (G p).blank f = 1 ↔ (s.file f).type = .FD_NONE := by
    refine ⟨fun hb => h.files.type_of_blank (p := p) (by omega), fun htype => ?_⟩
    by_contra hb
    have hzero : (G p).blank f = 0 := by
      by_contra hb'
      exact hb ((h.files.fits p).blank f hb').1
    exact h.files.type_ne_none hp hzero htype
  have hother : ∀ q, q ≠ p → (G q).res (.share f) = 0 := fun q hq =>
    h.files.res_eq_zero (k := .share f) (by simp only [total, href]; omega) hq
  have hle := h.files.res_le_total p (.share f)
  simp only [total, href] at hle
  refine ⟨hnew, h.setFile (f := f) hlive _ ((G p).closed f (s.file f)) rfl
    ⟨rfl, rfl, rfl, rfl, rfl, rfl, rfl⟩ (count_setFile fun k => ?_) ?_
    (fun q hq => (h.files.fits q).setFile_of_share _ (hother q hq)) (by rintro ⟨⟩) hlive rfl rfl rfl⟩
  · cases k with
    | share f' =>
      rw [Local.res_closed]
      simp only [File.weight, href]
      split_ifs
      · push_cast
        ring
      · ring
    | blank f' =>
      by_cases hf : f' = f
      · subst hf
        have hle : (G p).blank f' = 0 ∨ (G p).blank f' = 1 := by
          by_cases hb : (G p).blank f' = 0
          · exact .inl hb
          · exact .inr ((h.files.fits p).blank f' hb).1
        by_cases htype : (s.file f').type = .FD_NONE
        · simp [File.weight, File.typed, Local.res, closed, href, htype, hnew.2 htype]
        · have hb : (G p).blank f' = 0 := hle.resolve_right fun hb => htype (hnew.1 hb)
          simp [File.weight, File.typed, Local.res, closed, href, htype, hb]
      · simp [File.weight, Local.res, closed, hf]
    | duty f' =>
      by_cases htype : (s.file f).type = .FD_NONE
      · simp [File.weight, File.typed, Local.res, closed, htype]
      · simp only [File.weight, File.typed, Local.res, closed, bump, htype, if_false,
          if_true, Pi.add_apply, Pi.single_apply]
        split_ifs <;> simp
    | ends pg w =>
      have hnone : ¬({ s.file f with ref := 0, type := .FD_NONE } : File m).hasEnd pg w := by
        rintro ⟨⟨⟩, _⟩
      rw [Local.res_closed_ends, File.weight, File.weight, if_neg hnone]
      ring
    | dead pg => rfl
  · refine (h.files.fits p).change _ _ (fun f' hf => ?_) (fun f' hf => ?_) (.inl hin)
      (by rintro _ ⟨⟩) ?_ (fun hb' => absurd (update_self ..) hb')
      (by rintro _ ⟨⟩)
    · rw [Local.res_closed, if_neg hf, sub_zero]
    · exact update_of_ne hf ..
    · rw [Local.res_closed, if_pos rfl]
      omega

theorem keeps_fileclose (f : FileId) : Keeps p (.fileclose f : Op n m) := by
  intro s G r t h hl hr
  obtain ⟨hlive, hp, hin⟩ := hl
  have href := h.files.res_le_total p (.share f)
  simp only [total] at href
  simp only [sem] at hr
  rw [if_neg (by omega)] at hr
  split at hr
  · cases hr
    exact h.fileclose_shared hlive hp hin (by omega)
  · cases hr
    obtain ⟨hnew, hinv⟩ := h.fileclose_last hlive hp hin (by omega)
    exact ⟨⟨h.files.pipe f, hnew⟩, hinv⟩

theorem keeps_getfile (f : FileId) : Keeps p (.getfile f : Op n m) := by
  intro s G r t h hl hr
  obtain ⟨hlive, hp, hb, hin⟩ := hl
  cases hr
  refine ⟨⟨h.files.type_ne_none hp hb, h.files.pipe f⟩, ?_,
    h.procs.same rfl rfl rfl hlive hlive rfl⟩
  refine h.files.account (p := p) { G p with seen := some (f, s.file f) } (fun k => ?_) ?_ rfl
  · cases k <;> rfl
  · refine ⟨(h.files.fits p).share_nonneg, (h.files.fits p).blank, fun f' x hx => ?_, fun pg hpg => ?_⟩
    · cases hx
      exact ⟨hp, hb, rfl, rfl⟩
    · exact nomatch hin.symm.trans hpg

theorem total_openFile (s : State n m) (f : FileId) (x : File m) (k : Key m) :
    total (s.openFile f x) k = total (s.setFile f x) k + match k with
      | .duty f' => if f' = f then 1 else 0
      | _ => 0 := by
  cases k with
  | duty f' =>
    simp only [total, State.openFile, setFile, update_apply]
    split_ifs with hf
    · subst hf
      push_cast
      ring
    · ring
  | _ => exact (add_zero _).symm

theorem Local.res_typed_ends {g : Local n m}
    (hx : (x.type = .FD_PIPE ∧ ∃ pg, x.pipe = some pg ∧ 1 ≤ g.ends (pg, x.writable)) ∨
      x.type = .FD_INODE) :
    (g.typed f x.type x.writable x.pipe).res (.ends pg w)
      = g.res (.ends pg w) - if x.hasEnd pg w then 1 else 0 := by
  obtain ⟨htype, pg', hpipe, hle⟩ | htype := hx
  · simp only [Local.res, Local.typed, htype, hpipe, Pi.sub_apply, Pi.single_apply, File.hasEnd,
      true_and, some_inj, Prod.mk.injEq]
    by_cases heq : pg = pg' ∧ w = x.writable
    · obtain ⟨rfl, rfl⟩ := heq
      simp [Nat.cast_sub hle]
    · have hne : ¬(pg' = pg ∧ x.writable = w) := fun hc => heq ⟨hc.1.symm, hc.2.symm⟩
      simp [heq, hne]
  · simp [Local.res, Local.typed, htype, File.hasEnd]

theorem count_openFile (hb : g.blank f = 1) (hnone : (s.file f).type = .FD_NONE)
    (href : (s.file f).ref = 1) (href' : x.ref = 1)
    (hx : (x.type = .FD_PIPE ∧ ∃ pg, x.pipe = some pg ∧ 1 ≤ g.ends (pg, x.writable)) ∨
      x.type = .FD_INODE) (k : Key m) :
    total (s.openFile f x) k + g.res k
      = total s k + (g.typed f x.type x.writable x.pipe).res k := by
  have htyped : x.type ≠ .FD_NONE := by
    intro hc
    rw [hc] at hx
    obtain ⟨hc, -⟩ | hc := hx <;> cases hc
  have hset := total_setFile s f x k
  rw [total_openFile]
  cases k with
  | share f' =>
    have hres : (g.typed f x.type x.writable x.pipe).res (.share f') = g.res (.share f') := rfl
    simp only [File.weight, href, href'] at hset
    rw [hres]
    dsimp only
    omega
  | blank f' =>
    by_cases hf : f' = f
    · subst hf
      simp only [File.weight, File.typed, href, href', hnone, htyped, if_true, if_false] at hset
      simp only [Local.res, Local.typed, update_self, hb]
      omega
    · simp only [File.weight, hf, if_false] at hset
      simp only [Local.res, Local.typed, update_of_ne hf]
      omega
  | duty f' =>
    have hres : (g.typed f x.type x.writable x.pipe).res (.duty f') = g.res (.duty f') := rfl
    simp only [File.weight, File.typed, hnone, htyped, if_true, if_false] at hset
    rw [hres]
    dsimp only
    split_ifs at hset ⊢ <;> omega
  | ends pg w =>
    have hend : ¬(s.file f).hasEnd pg w := fun hc => by simp [hc.1] at hnone
    rw [Local.res_typed_ends hx]
    simp only [File.weight, if_neg hend] at hset
    dsimp only
    omega
  | dead pg =>
    have hres : (g.typed f x.type x.writable x.pipe).res (.dead pg) = g.res (.dead pg) := rfl
    simp only [File.weight] at hset
    rw [hres]
    dsimp only
    omega

theorem keeps_setfile (f : FileId) (type : FileType) (readable writable : Bool)
    (pipe : Option (Fin m)) (ip : ℕ) :
    Keeps p (.setfile f type readable writable pipe ip : Op n m) := by
  intro s G r t h hl hr
  obtain ⟨hlive, hb, htype⟩ := hl
  cases hr
  have hb0 : (G p).blank f ≠ 0 := by omega
  obtain ⟨-, hshare, href⟩ := (h.files.fits p).blank f hb0
  have hnone := h.files.type_of_blank hb0
  refine ⟨trivial, ?_⟩
  refine h.setFile (f := f) hlive { s.file f with type, readable, writable, pipe, ip }
    ((G p).typed f type writable pipe) rfl ⟨rfl, rfl, rfl, rfl, rfl, rfl, rfl⟩
    (count_openFile hb hnone href href htype) ?_ (fun q hq => ?_) ?_ hlive rfl rfl rfl
  · refine (h.files.fits p).change _ _ (fun _ _ => rfl) (fun f' hf => update_of_ne hf ..)
      (.inr ⟨rfl, rfl⟩) (fun _ hz => hz) ((h.files.fits p).share_nonneg f)
      (fun hb' => absurd (update_self ..) hb') fun y hy => ?_
    exact absurd ((h.files.fits p).seen f y hy).2.1 hb0
  · refine (h.files.fits q).setFile_of_share _ ?_
    exact h.files.res_eq_zero (k := .share f) (by simp only [total, href]; omega) hq
  · intro hpipe
    obtain ⟨-, pg, hpg, -⟩ | hc := htype
    · exact fun hc => nomatch hpg.symm.trans hc
    · exact nomatch hpipe.symm.trans hc

/-! ### Pipes -/

theorem Inv.pipes (h : Inv s G) (hlive : (G p).live = true) (g' : Local n m)
    (hfile : t.file = s.file) (hstate : t.state = s.state) (hofile : t.ofile = s.ofile)
    (hk : ∀ k, total t k + (G p).res k = total s k + g'.res k) (hfits : Fits s g')
    (hpages : ∀ pg, t.made pg = t.freed pg + (if (t.pipe pg).isSome then 1 else 0))
    (hin : t.inside = update s.inside p g'.inside) (hfault : t.fault = false)
    (hlive' : g'.live = true) (htable : g'.table = (G p).table)
    (hchild : g'.child = (G p).child) : Inv t (update G p g') := by
  refine ⟨⟨h.files.count_update hk, ?_, ?_, hpages, ?_, hfault⟩,
    h.procs.same hstate hofile htable hlive hlive' hchild⟩
  · exact (forall_update_iff G fun _ g => Fits t g).2
      ⟨hfits.of_file_eq hfile, fun q _ => (h.files.fits q).of_file_eq hfile⟩
  · rw [hfile]
    exact h.files.pipe
  · intro q
    by_cases hq : q = p
    · rw [hq, hin, update_self, update_self]
    · rw [hin, update_of_ne hq, update_of_ne hq]
      exact h.files.inside q

theorem Files.inside_eq (h : Files s G) : s.inside = update s.inside p (G p).inside := by
  rw [← h.inside p, update_eq_self]

theorem State.isOpen_setPipe (s : State n m) (pg pg' : Fin m) (x : Option Pipe) (w : Bool) :
    (s.setPipe pg x).isOpen pg' w
      = if pg' = pg then x.any fun x => x.isOpen w else s.isOpen pg' w := by
  simp only [isOpen, setPipe, update_apply]
  split <;> rfl

theorem total_ends {file : FileId → File m} {b : Bool} (hopen : t.isOpen pg w = b)
    (hfile : t.file = file) :
    total t (.ends pg w) = (if b = true then 1 else 0) - ends file pg w := by
  rw [total, hfile, hopen]

theorem Local.res_piped (g : Local n m) (pg pg' : Fin m) (w : Bool) :
    (g.piped pg).res (.ends pg' w) = g.res (.ends pg' w) + if pg' = pg then 1 else 0 := by
  simp only [Local.res, Local.piped, bump, Pi.add_apply, Pi.single_apply, Prod.mk.injEq]
  cases w <;> simp

theorem keeps_makepipe : Keeps p (.makepipe : Op n m) := by
  intro s G r t h hl hr
  simp only [sem] at hr
  split at hr
  · cases hr
    exact ⟨trivial, h.idle hl.1 ⟨rfl, rfl, rfl, rfl, rfl, rfl, rfl, rfl⟩ rfl rfl⟩
  split at hr
  · cases hr
    exact ⟨trivial, h.idle hl.1 ⟨rfl, rfl, rfl, rfl, rfl, rfl, rfl, rfl⟩ rfl rfl⟩
  rename_i pg hfind
  cases hr
  have hfree : s.pipe pg = none := by simpa using List.find?_some hfind
  refine ⟨trivial, h.pipes hl.1 ((G p).piped pg) rfl rfl rfl (fun k => ?_) ?_ (fun pg' => ?_)
    h.files.inside_eq h.files.fault hl.1 rfl rfl⟩
  · cases k with
    | share f' => rfl
    | blank f' => rfl
    | duty f' => rfl
    | ends pg' w =>
      have hopen : (s.ask.makePipe pg).isOpen pg' w
          = if pg' = pg then true else s.isOpen pg' w := by
        refine (s.ask.isOpen_setPipe pg pg' (some ⟨true, true⟩) w).trans ?_
        cases w <;> rfl
      have hclosed : s.isOpen pg w = false := by rw [isOpen, hfree, any_none]
      rw [Local.res_piped, total_ends hopen (show _ = s.file from rfl), total]
      by_cases hpg : pg' = pg
      · subst hpg
        simp only [if_true, hclosed, Bool.false_eq_true, if_false]
        omega
      · simp only [hpg, if_false]
        omega
    | dead pg' =>
      have hres : ((G p).piped pg).res (.dead pg') = (G p).res (.dead pg') := rfl
      rw [hres]
      by_cases hpg : pg' = pg
      · subst hpg
        simp [total, makePipe, setPipe, State.ask, hfree]
      · simp [total, makePipe, setPipe, State.ask, hpg]
  · exact ⟨(h.files.fits p).share_nonneg, (h.files.fits p).blank, (h.files.fits p).seen,
      (h.files.fits p).inside⟩
  · have hpages := h.files.pages pg'
    by_cases hpg : pg' = pg
    · subst hpg
      simp [makePipe, setPipe, State.ask, hpages, hfree]
    · simp [makePipe, setPipe, State.ask, hpg, hpages]

theorem Files.isOpen_of_ends (h : Files s G) (hp : 1 ≤ (G p).ends (pg, w)) :
    s.isOpen pg w = true := by
  have hle := h.res_le_total p (.ends pg w)
  have hnn := ends_nonneg s.file pg w
  by_contra hopen
  simp only [total, Local.res, hopen, if_false] at hle
  omega

theorem Pipe.isOpen_close (x : Pipe) (w w' : Bool) :
    (x.close w).isOpen w' = if w' = w then false else x.isOpen w' := by
  cases w <;> cases w' <;> rfl

theorem keeps_pipeclose (f : FileId) (pg : Fin m) (w : Bool) :
    Keeps p (.pipeclose f pg w : Op n m) := by
  intro s G r t h hl hr
  obtain ⟨hlive, hduty, hends⟩ := hl
  have hopen := h.files.isOpen_of_ends hends
  have hx : ∃ x, s.pipe pg = some x := isSome_iff_exists.1 (State.pipe_of_isOpen hopen).1
  obtain ⟨x, hx⟩ := hx
  simp only [sem, hx] at hr
  cases hr
  refine ⟨trivial, h.pipes hlive ((G p).endClosed f pg w (decide (x.close w = ⟨false, false⟩)))
    rfl rfl rfl (fun k => ?_) ?_ (fun pg' => ?_) h.files.inside_eq h.files.fault hlive rfl rfl⟩
  · cases k with
    | share f' => rfl
    | blank f' => rfl
    | duty f' =>
      simp only [total, State.release, setPipe, Local.res, Local.endClosed, Pi.sub_apply,
        Pi.single_apply, update_apply]
      split_ifs with hf
      · subst hf
        push_cast [Nat.cast_sub hduty]
        ring
      · simp
    | ends pg' w' =>
      have hold : s.isOpen pg w' = x.isOpen w' := by rw [isOpen, hx, any_some]
      have hnew := s.isOpen_setPipe pg pg' (some (x.close w)) w'
      rw [any_some, Pipe.isOpen_close, ← hold] at hnew
      have htotal := total_ends (t := (s.setPipe pg (some (x.close w))).release f) hnew
        (show _ = s.file from rfl)
      rw [htotal, total]
      simp only [Local.res, Local.endClosed, Pi.sub_apply, Pi.single_apply, Prod.mk.injEq]
      by_cases hpg : pg' = pg
      · subst hpg
        by_cases hw : w' = w
        · subst hw
          simp [hopen, Nat.cast_sub hends]
          ring
        · simp [hw]
      · simp [hpg]
    | dead pg' =>
      have hopened : x ≠ ⟨false, false⟩ := fun hc =>
        (State.pipe_of_isOpen hopen).2 (hx.trans (by rw [hc]))
      simp only [total, State.release, setPipe, Local.res, Local.endClosed,
        update_apply, decide_eq_true_eq]
      by_cases hpg : pg' = pg
      · subst hpg
        by_cases hlast : x.close w = ⟨false, false⟩
        · simp [hlast, hx, hopened, bump, add_comm]
        · simp [hlast, hx, hopened]
      · split_ifs <;> simp_all [bump]
  · exact ⟨(h.files.fits p).share_nonneg, (h.files.fits p).blank, (h.files.fits p).seen,
      (h.files.fits p).inside⟩
  · have hpages := h.files.pages pg'
    by_cases hpg : pg' = pg
    · subst hpg
      simp [State.release, setPipe, hpages, hx]
    · simp [State.release, setPipe, hpg, hpages]

theorem keeps_kfree (pg : Fin m) : Keeps p (.kfree pg : Op n m) := by
  intro s G r t h hl hr
  obtain ⟨hlive, hdead⟩ := hl
  have hle := h.files.res_le_total p (.dead pg)
  have hpipe : s.pipe pg = some ⟨false, false⟩ := by
    by_contra hc
    simp only [total, hc, if_false, Local.res] at hle
    change 1 ≤ (G p).dead pg at hdead
    omega
  cases hr
  refine ⟨trivial, h.pipes hlive { G p with dead := (G p).dead - Pi.single pg 1 } rfl rfl rfl
    (fun k => ?_) ?_ (fun pg' => ?_) h.files.inside_eq ?_ hlive rfl rfl⟩
  · cases k with
    | share f' => rfl
    | blank f' => rfl
    | duty f' => rfl
    | ends pg' w =>
      have hclosed : s.isOpen pg w = false := by
        cases w <;> simp [isOpen, hpipe, Pipe.isOpen]
      have hnew : ((s.access pg).freePipe pg).isOpen pg' w = s.isOpen pg' w := by
        refine ((s.access pg).isOpen_setPipe pg pg' none w).trans ?_
        split_ifs with hpg
        · rw [hpg, hclosed, any_none]
        · rfl
      rw [total_ends hnew (show _ = s.file from rfl)]
      rfl
    | dead pg' =>
      simp only [total, State.freePipe, State.access, setPipe, Local.res, Pi.sub_apply,
        Pi.single_apply, update_apply]
      by_cases hpg : pg' = pg
      · subst hpg
        change 1 ≤ (G p).dead pg' at hdead
        simp [hpipe, Nat.cast_sub hdead]
      · simp [hpg]
  · exact ⟨(h.files.fits p).share_nonneg, (h.files.fits p).blank, (h.files.fits p).seen,
      (h.files.fits p).inside⟩
  · have hpages := h.files.pages pg'
    by_cases hpg : pg' = pg
    · subst hpg
      simp [State.freePipe, State.access, setPipe, hpages, hpipe]
    · simp [State.freePipe, State.access, setPipe, hpg, hpages]
  · change (s.fault || (s.pipe pg).isNone) = false
    rw [h.files.fault, hpipe]
    rfl

theorem keeps_iput (f : FileId) (ip : ℕ) : Keeps p (.iput f ip : Op n m) := by
  intro s G r t h hl hr
  obtain ⟨hlive, hduty⟩ := hl
  cases hr
  refine ⟨trivial, h.pipes hlive { G p with duty := (G p).duty - Pi.single f 1 } rfl rfl rfl
    (fun k => ?_) ?_ h.files.pages h.files.inside_eq h.files.fault hlive rfl rfl⟩
  · cases k with
    | duty f' =>
      simp only [total, State.release, Local.res, Pi.sub_apply, Pi.single_apply,
        update_apply]
      split_ifs with hf
      · subst hf
        change 1 ≤ (G p).duty f' at hduty
        push_cast [Nat.cast_sub hduty]
        ring
      · simp
    | _ => rfl
  · exact ⟨(h.files.fits p).share_nonneg, (h.files.fits p).blank, (h.files.fits p).seen,
      (h.files.fits p).inside⟩

theorem Files.access_fault (h : Files s G) (hf : (s.file f).hasEnd pg w) :
    (s.access pg).fault = false := by
  have hsome := (State.pipe_of_isOpen (h.isOpen_of_hasEnd hf)).1
  change (s.fault || (s.pipe pg).isNone) = false
  rw [h.fault, isNone_eq_false_iff.2 hsome]
  rfl

theorem keeps_enter (f : FileId) (pg : Fin m) : Keeps p (.enter f pg : Op n m) := by
  intro s G r t h hl hr
  obtain ⟨hlive, x, hseen, htype, hpg⟩ := hl
  cases hr
  obtain ⟨-, -, ht, hpipe⟩ := (h.files.fits p).seen f x hseen
  refine ⟨trivial, h.pipes hlive { G p with inside := some pg } rfl rfl rfl (fun k => ?_) ?_
    h.files.pages rfl ?_ hlive rfl rfl⟩
  · cases k <;> rfl
  · refine ⟨(h.files.fits p).share_nonneg, (h.files.fits p).blank, (h.files.fits p).seen,
      fun pg' hpg' => ?_⟩
    cases hpg'
    exact ⟨f, x, hseen, htype, hpg⟩
  · exact h.files.access_fault (f := f) ⟨ht.trans htype, hpipe.trans hpg, rfl⟩

theorem keeps_touch (pg : Fin m) : Keeps p (.touch pg : Op n m) := by
  intro s G r t h hl hr
  obtain ⟨hlive, hin⟩ := hl
  cases hr
  obtain ⟨f, w, hf⟩ := h.files.isOpen_of_inside hin
  exact ⟨trivial, h.pipes hlive (G p) rfl rfl rfl (fun k => rfl) (h.files.fits p) h.files.pages
    h.files.inside_eq (h.files.access_fault hf) hlive rfl rfl⟩

theorem keeps_leave : Keeps p (.leave : Op n m) := by
  intro s G r t h hl hr
  cases hr
  refine ⟨trivial, h.pipes hl.1 { G p with inside := none } rfl rfl rfl (fun k => ?_) ?_
    h.files.pages rfl h.files.fault hl.1 rfl rfl⟩
  · cases k <;> rfl
  · exact ⟨(h.files.fits p).share_nonneg, (h.files.fits p).blank, (h.files.fits p).seen, nofun⟩

/-! ### Processes -/

theorem Procs.live_of_child (h : Procs s G) {c : Fin n} (hq : (G q).child = some (c, T)) :
    (G q).live = true := by
  by_contra hlive
  rw [h.off q (by simpa using hlive)] at hq
  cases hq

theorem Procs.off_of_state (h : Procs s G) (hq : s.state q ≠ .RUNNING) : G q = .off :=
  h.off q (by simpa using mt (h.live q).1 hq)

theorem slots_none (f : FileId) : slots (fun _ => none) f = 0 := by simp [slots]

theorem Files.child (h : Files s G) (c : Option (Fin n × (Fd → Option FileId)))
    (hc : ∀ f, childSlots c f = childSlots (G p).child f) :
    Files s (update G p { G p with child := c }) := by
  have hres : ∀ k, ({ G p with child := c } : Local n m).res k = (G p).res k := by
    intro k
    cases k with
    | share f => simp only [Local.res, hc f]
    | _ => rfl
  exact h.account _ hres ((h.fits p).congr hres rfl rfl) rfl

theorem Procs.children (h : Procs s G) {G' : Fin n → Local n m} (np : Fin n)
    (hlive : (G p).live = true) (hsame : ∀ q, q ≠ np → t.state q = s.state q ∧ t.ofile q = s.ofile q)
    (hG : ∀ q, q ≠ p → q ≠ np → G' q = G q) (hnp : s.state np ≠ .RUNNING)
    (hself : (G' p).live = true ∧ (G' p).table = (G p).table)
    (hold : ∀ c T, (G p).child = some (c, T) → c = np)
    (hnew : ∀ c T, (G' p).child = some (c, T) → c = np ∧ t.state np = .EMBRYO ∧ t.ofile np = T)
    (hother : ∀ q, q ≠ p → ∀ T, (G q).child ≠ some (np, T))
    (hlive' : (G' np).live = true ↔ t.state np = .RUNNING)
    (hoff : (G' np).live = false → G' np = .off)
    (htable : t.state np ≠ .EMBRYO → t.ofile np = (G' np).table) (hchild : (G' np).child = none)
    (hembryo : t.state np = .EMBRYO → ∃ T, (G' p).child = some (np, T)) : Procs t G' := by
  have hp : s.state p = .RUNNING := (h.live p).1 hlive
  have hne : p ≠ np := by
    rintro rfl
    exact hnp hp
  have hcases : ∀ q, q = p ∨ q = np ∨ (q ≠ p ∧ q ≠ np ∧ G' q = G q) := by
    intro q
    by_cases hqp : q = p
    · exact .inl hqp
    · by_cases hqn : q = np
      · exact .inr (.inl hqn)
      · exact .inr (.inr ⟨hqp, hqn, hG q hqp hqn⟩)
  refine ⟨fun q => ?_, fun q hq => ?_, fun q hq => ?_, fun q c T hq => ?_,
    fun q q' c T T' hq hq' => ?_, fun c hc => ?_⟩
  · obtain rfl | rfl | ⟨-, hqn, hGq⟩ := hcases q
    · rw [(hsame q hne).1, hp]
      simp [hself.1]
    · exact hlive'
    · rw [hGq, (hsame q hqn).1]
      exact h.live q
  · obtain rfl | rfl | ⟨-, -, hGq⟩ := hcases q
    · exact nomatch hself.1.symm.trans hq
    · exact hoff hq
    · rw [hGq] at hq ⊢
      exact h.off q hq
  · obtain rfl | rfl | ⟨-, hqn, hGq⟩ := hcases q
    · rw [(hsame q hne).2, hself.2]
      exact h.table q (by simp [hp])
    · exact htable hq
    · rw [(hsame q hqn).1] at hq
      rw [hGq, (hsame q hqn).2]
      exact h.table q hq
  · obtain rfl | rfl | ⟨hqp, -, hGq⟩ := hcases q
    · obtain ⟨rfl, hs, hT⟩ := hnew c T hq
      exact ⟨hs, hT⟩
    · exact nomatch hchild.symm.trans hq
    · rw [hGq] at hq
      have hcn : c ≠ np := by
        rintro rfl
        exact hother q hqp T hq
      rw [(hsame c hcn).1, (hsame c hcn).2]
      exact h.child q c T hq
  · obtain rfl | rfl | ⟨hqp, -, hGq⟩ := hcases q <;>
      obtain heq | rfl | ⟨hqp', -, hGq'⟩ := hcases q'
    · exact heq.symm
    · exact nomatch hchild.symm.trans hq'
    · obtain ⟨rfl, -⟩ := hnew c T hq
      exact absurd (hGq' ▸ hq') (hother q' hqp' T')
    · exact nomatch hchild.symm.trans hq
    · rfl
    · exact nomatch hchild.symm.trans hq
    · subst heq
      obtain ⟨rfl, -⟩ := hnew c T' hq'
      exact absurd (hGq ▸ hq) (hother q hqp T)
    · exact nomatch hchild.symm.trans hq'
    · exact h.parent q q' c T T' (hGq ▸ hq) (hGq' ▸ hq')
  · by_cases hcn : c = np
    · subst hcn
      obtain ⟨T, hT⟩ := hembryo hc
      exact ⟨p, T, hT⟩
    · rw [(hsame c hcn).1] at hc
      obtain ⟨q, T, hq⟩ := h.embryo c hc
      obtain rfl | rfl | ⟨-, -, hGq⟩ := hcases q
      · exact absurd (hold c T hq) hcn
      · exact absurd ((h.live q).1 (h.live_of_child hq)) hnp
      · exact ⟨q, T, hGq ▸ hq⟩

theorem Procs.setChild (h : Procs s G) (np : Fin n) (g' : Local n m) (hlive : (G p).live = true)
    (hsame : ∀ q, q ≠ np → t.state q = s.state q ∧ t.ofile q = s.ofile q)
    (hnp : s.state np ≠ .RUNNING) (hnp' : t.state np ≠ .RUNNING) (hlive' : g'.live = true)
    (htable : g'.table = (G p).table) (hold : ∀ c T, (G p).child = some (c, T) → c = np)
    (hnew : ∀ c T, g'.child = some (c, T) → c = np ∧ t.state np = .EMBRYO ∧ t.ofile np = T)
    (hother : ∀ q, q ≠ p → ∀ T, (G q).child ≠ some (np, T))
    (hnone : t.state np ≠ .EMBRYO → t.ofile np = fun _ => none)
    (hembryo : t.state np = .EMBRYO → ∃ T, g'.child = some (np, T)) :
    Procs t (update G p g') := by
  have hoff : G np = .off := h.off_of_state hnp
  have hne : np ≠ p := by
    rintro rfl
    rw [hoff] at hlive
    cases hlive
  have hG : update G p g' np = .off := by rw [update_of_ne hne, hoff]
  have hself : update G p g' p = g' := update_self ..
  refine h.children np hlive hsame (fun q hq _ => update_of_ne hq ..) hnp ?_ hold ?_ hother
    ?_ (fun _ => hG) (fun hc => ?_) ?_ ?_
  · rw [hself]
    exact ⟨hlive', htable⟩
  · rw [hself]
    exact hnew
  · rw [hG]
    exact iff_of_false nofun hnp'
  · rw [hG]
    exact hnone hc
  · rw [hG]
    rfl
  · rw [hself]
    exact hembryo

theorem keeps_allocproc : Keeps p (.allocproc : Op n m) := by
  intro s G r t h hl hr
  obtain ⟨hlive, hchild⟩ := hl
  change (G p).child = none at hchild
  simp only [sem] at hr
  split at hr
  · cases hr
    exact ⟨trivial, h.idle hlive ⟨rfl, rfl, rfl, rfl, rfl, rfl, rfl, rfl⟩ rfl rfl⟩
  rename_i np hfind
  cases hr
  have hnp : s.state np = .UNUSED := by simpa using List.find?_some hfind
  have hstate : (s.setState np .EMBRYO).state np = .EMBRYO := update_self ..
  refine ⟨trivial, ?_, ?_⟩
  · refine (h.files.child (p := p) (some (np, fun _ => none)) fun f => ?_).of_same
      ⟨rfl, rfl, rfl, rfl, rfl, rfl, rfl, rfl⟩
    rw [hchild]
    exact slots_none f
  · refine h.procs.setChild np { G p with child := some (np, fun _ => none) } hlive
      (fun q hq => ⟨update_of_ne hq .., rfl⟩) (by simp [hnp]) (by simp [hstate]) hlive rfl
      (fun c T hc => nomatch hchild.symm.trans hc) (fun c T hc => ?_) (fun q _ T hq => ?_)
      (fun hc => absurd hstate hc) fun _ => ⟨_, rfl⟩
    · cases hc
      refine ⟨rfl, hstate, (h.procs.table np (by simp [hnp])).trans ?_⟩
      rw [h.procs.off_of_state (by simp [hnp])]
      rfl
    · exact nomatch hnp.symm.trans (h.procs.child q np T hq).1

theorem keeps_unalloc (np : Fin n) : Keeps p (.unalloc np : Op n m) := by
  intro s G r t h hl hr
  obtain ⟨hlive, hchild⟩ := hl
  change (G p).child = some (np, fun _ => none) at hchild
  cases hr
  obtain ⟨hnp, hofile⟩ := h.procs.child p np _ hchild
  have hstate : (s.setState np .UNUSED).state np = .UNUSED := update_self ..
  refine ⟨trivial, ?_, ?_⟩
  · refine (h.files.child (p := p) none fun f => ?_).of_same
      ⟨rfl, rfl, rfl, rfl, rfl, rfl, rfl, rfl⟩
    rw [hchild]
    exact (slots_none f).symm
  · refine h.procs.setChild np { G p with child := none } hlive
      (fun q hq => ⟨update_of_ne hq .., rfl⟩) (by simp [hnp]) (by simp [hstate]) hlive rfl
      (fun c T hc => ?_) nofun (fun q hq T hc => hq (h.procs.parent q p np T _ hc hchild))
      (fun _ => hofile) fun hc => nomatch hstate.symm.trans hc
    exact (Prod.mk.inj (some_inj.1 (hc.symm.trans hchild))).1

theorem Local.res_give {q : Fin n} (hchild : g.child = some (q, T)) (hfd : T fd = none) (k : Key m) :
    (g.give q fd f).res k = g.res k := by
  cases k with
  | share f' =>
    have hslots := slots_update T fd (some f) f'
    simp only [hfd, some_inj, reduceCtorEq, if_false] at hslots
    simp only [Local.res, Local.give, hchild, childSlots, hslots, Pi.sub_apply, Pi.single_apply,
      eq_comm (a := f')]
    ring
  | _ => rfl

theorem keeps_setchild (np : Fin n) (fd : Fd) (f : FileId) :
    Keeps p (.setchild np fd f : Op n m) := by
  intro s G r t h hl hr
  obtain ⟨hlive, T, hchild, hfd⟩ := hl
  cases hr
  obtain ⟨hnp, hofile⟩ := h.procs.child p np T hchild
  have hgive : ((G p).give np fd f).child = some (np, update T fd (some f)) := by
    simp only [Local.give, hchild]
  refine ⟨trivial, ?_, ?_⟩
  · have hacc := h.files.account (p := p) ((G p).give np fd f) (Local.res_give hchild hfd)
      ((h.files.fits p).congr (Local.res_give hchild hfd) rfl rfl) rfl
    exact hacc.of_same ⟨rfl, rfl, rfl, rfl, rfl, rfl, rfl, rfl⟩
  · refine h.procs.setChild np ((G p).give np fd f) hlive
      (fun q hq => ⟨rfl, update_of_ne hq ..⟩) (by simp [hnp]) (by simp [State.setFd, hnp])
      hlive rfl (fun c T' hc => ?_) (fun c T' hc => ?_)
      (fun q hq T' hc => hq (h.procs.parent q p np T' _ hc hchild)) (fun hc => absurd hnp hc)
      fun _ => ⟨_, hgive⟩
    · exact (Prod.mk.inj (some_inj.1 (hc.symm.trans hchild))).1
    · cases hgive.symm.trans hc
      refine ⟨rfl, hnp, (update_self ..).trans ?_⟩
      rw [hofile]

theorem Procs.stop (h : Procs s G) {x : ProcState} (hq : s.state q ≠ .EMBRYO)
    (hx : x ≠ .RUNNING) (hx' : x ≠ .EMBRYO) (hchild : (G q).child = none)
    (htable : (G q).table = fun _ => none) :
    Procs (s.setState q x) (update G q .off) := by
  have hstate : ∀ c, c ≠ q → (s.setState q x).state c = s.state c :=
    fun c hc => update_of_ne hc ..
  have hstate' : (s.setState q x).state q = x := update_self ..
  have hchild' : ∀ c, (update G q .off c).child = (G c).child := by
    intro c
    by_cases hc : c = q
    · rw [hc, update_self, hchild]
      rfl
    · rw [update_of_ne hc]
  refine ⟨?_, ?_, ?_, fun c d T hc => ?_, fun c c' d T T' hc hc' => ?_, fun d hd => ?_⟩
  · refine (forall_update_iff G
      fun c g => g.live = true ↔ (s.setState q x).state c = .RUNNING).2 ⟨?_, fun c hc => ?_⟩
    · rw [hstate']
      exact iff_of_false nofun hx
    · rw [hstate c hc]
      exact h.live c
  · exact (forall_update_iff G fun _ g => g.live = false → g = .off).2
      ⟨fun _ => rfl, fun c _ => h.off c⟩
  · refine (forall_update_iff G fun c g =>
      (s.setState q x).state c ≠ .EMBRYO → s.ofile c = g.table).2 ⟨fun _ => ?_, fun c hc hs => ?_⟩
    · rw [h.table q hq, htable]
      rfl
    · rw [hstate c hc] at hs
      exact h.table c hs
  · rw [hchild'] at hc
    obtain ⟨hd, hT⟩ := h.child c d T hc
    have hdq : d ≠ q := by
      rintro rfl
      exact hq hd
    rw [hstate d hdq]
    exact ⟨hd, hT⟩
  · rw [hchild'] at hc hc'
    exact h.parent c c' d T T' hc hc'
  · have hdq : d ≠ q := by
      rintro rfl
      exact hx' (hstate'.symm.trans hd)
    rw [hstate d hdq] at hd
    obtain ⟨c, T, hc⟩ := h.embryo d hd
    exact ⟨c, T, by rw [hchild', hc]⟩

/-- A process that has just been made: its descriptors and nothing else. -/
def Local.fresh (T : Fd → Option FileId) : Local n m := { off with live := true, table := T }

theorem Local.fresh_rest (T : Fd → Option FileId) : Rest (Local.fresh T : Local n m) :=
  ⟨rfl, rfl, rfl, rfl, rfl, rfl, rfl⟩

theorem Local.res_fresh_none (k : Key m) :
    (Local.fresh (fun _ => none) : Local n m).res k = 0 := by
  cases k with
  | share f =>
    change slots (fun _ => none) f + 0 + 0 = 0
    rw [slots_none, add_zero, add_zero]
  | _ => rfl

theorem Local.res_off (k : Key m) : (off : Local n m).res k = 0 := by
  rw [← Local.res_fresh_none (n := n) k]
  cases k <;> rfl

theorem Fits.fresh (s : State n m) (T : Fd → Option FileId) : Fits s (Local.fresh T) := by
  refine ⟨fun f => ?_, fun f hf => absurd rfl hf, nofun, nofun⟩
  change 0 ≤ slots T f + 0 + 0
  rw [add_zero, add_zero]
  exact slots_nonneg T f

theorem Fits.off (s : State n m) : Fits s off := by
  refine ⟨fun f => ?_, fun f hf => absurd rfl hf, nofun, nofun⟩
  rw [Local.res_off]

theorem keeps_zombie : Keeps p (.zombie : Op n m) := by
  intro s G r t h hl hr
  obtain ⟨hlive, hrest, hempty⟩ := hl
  cases hr
  have htable : (G p).table = fun _ => none := funext hempty
  have hres : ∀ k, (off : Local n m).res k = (G p).res k := by
    intro k
    cases k with
    | share f =>
      simp only [Local.res, htable, hrest.child, hrest.owed]
      rfl
    | blank f => simp only [Local.res, hrest.blank, off]
    | duty f => simp only [Local.res, hrest.duty, off]
    | ends pg w => simp only [Local.res, hrest.ends, off]
    | dead pg => simp only [Local.res, hrest.dead, off]
  refine ⟨trivial, ?_, ?_⟩
  · exact (h.files.account .off hres (Fits.off s) hrest.inside.symm).of_same
      ⟨rfl, rfl, rfl, rfl, rfl, rfl, rfl, rfl⟩
  · exact h.procs.stop (by simp [(h.procs.live p).1 hlive]) (by decide) (by decide) hrest.child htable

theorem keeps_reap (q : Fin n) : Keeps p (.reap q : Op n m) := by
  intro s G r t h hl hr
  obtain ⟨hq, ⟨⟩⟩ := of_guard hr
  have hoff : G q = .off := h.procs.off_of_state (by simp [hq])
  have hstop := h.procs.stop (q := q) (x := .UNUSED) (by simp [hq]) nofun nofun
    (by rw [hoff]; rfl) (by rw [hoff]; rfl)
  rw [← hoff, update_eq_self] at hstop
  change answers (G p) (.reap q) ⟨⟩ ∧ Inv _ (update G p (G p))
  rw [update_eq_self]
  exact ⟨trivial, h.files.of_same ⟨rfl, rfl, rfl, rfl, rfl, rfl, rfl, rfl⟩, hstop⟩

theorem Inv.run (h : Inv s G) {np : Fin n} (hlive : (G p).live = true)
    (hchild : (G p).child = some (np, T)) (hrest : Rest (G p).parted) :
    np ≠ p ∧ G np = .off ∧ Inv (s.setState np .RUNNING)
      (update (update G p (G p).parted) np (.fresh T)) := by
  obtain ⟨hnp, hofile⟩ := h.procs.child p np T hchild
  have hoff : G np = .off := h.procs.off_of_state (by simp [hnp])
  have hne : np ≠ p := by
    rintro rfl
    rw [hoff] at hlive
    cases hlive
  have hstate : (s.setState np .RUNNING).state np = .RUNNING := update_self ..
  refine ⟨hne, hoff, ?_⟩
  generalize hg1 : (G p).parted = g1
  have hres1 : ∀ k, (G p).res k = g1.res k + (Local.fresh T : Local n m).res k := by
    intro k
    subst hg1
    cases k with
    | share f =>
      have howed : (G p).owed = 0 := hrest.owed
      simp only [Local.res, Local.parted, Local.fresh, off, hchild, childSlots, howed,
        Pi.zero_apply]
      ring
    | _ => exact (add_zero _).symm
  have hnp' : update G p g1 np = .off := by rw [update_of_ne hne, hoff]
  have hp' : update (update G p g1) np (.fresh T) p = g1 := by
    rw [update_of_ne hne.symm, update_self]
  refine ⟨⟨fun k => ?_, ?_, h.files.pipe, h.files.pages, ?_, h.files.fault⟩, ?_⟩
  · have hsum1 := sum_update_add (fun (_ : Fin n) (g : Local n m) => g.res k) G p g1
    have hsum2 := sum_update_add (fun (_ : Fin n) (g : Local n m) => g.res k)
      (update G p g1) np (.fresh T)
    have hcount := h.files.count k
    rw [hnp', Local.res_off] at hsum2
    rw [hres1 k] at hsum1
    change total s k = _
    omega
  · have hfits : Fits s g1 := by
      subst hg1
      refine ⟨fun f => ?_, fun f hf => absurd (congrFun hrest.blank f) hf, by rintro _ _ ⟨⟩, fun pg hpg => ?_⟩
      · have howed : (G p).owed = 0 := hrest.owed
        have hnn := slots_nonneg (G p).table f
        simp only [Local.res, Local.parted, howed, childSlots_none, Pi.zero_apply]
        omega
      · cases hrest.inside.symm.trans hpg
    refine (forall_update_iff _ fun _ g => Fits (s.setState np .RUNNING) g).2
      ⟨Fits.fresh _ T, fun q _ => ?_⟩
    by_cases hq : q = p
    · rw [hq, update_self]
      exact hfits.of_file_eq rfl
    · rw [update_of_ne hq]
      exact (h.files.fits q).of_file_eq rfl
  · refine (forall_update_iff _ fun q (g : Local n m) => s.inside q = g.inside).2
      ⟨?_, fun q _ => ?_⟩
    · rw [h.files.inside np, hoff]
      rfl
    · rw [h.files.inside q]
      by_cases hq : q = p
      · rw [hq, update_self, ← hg1]
        rfl
      · rw [update_of_ne hq]
  · refine h.procs.children (p := p) np hlive
      (fun q hq => ⟨update_of_ne hq .., rfl⟩) (fun q hqp hqn => ?_) (by simp [hnp]) ?_
      (fun c T' hc => (Prod.mk.inj (some_inj.1 (hc.symm.trans hchild))).1) ?_
      (fun q hq T' hc => hq (h.procs.parent q p np T' _ hc hchild)) ?_ ?_ ?_ ?_ ?_
    · rw [update_of_ne hqn, update_of_ne hqp]
    · rw [hp', ← hg1]
      exact ⟨hlive, rfl⟩
    · rw [hp', ← hg1]
      rintro _ _ ⟨⟩
    · rw [update_self, hstate]
      exact iff_of_true rfl rfl
    · rw [update_self]
      rintro ⟨⟩
    · rw [update_self]
      exact fun _ => hofile
    · rw [update_self]
      rfl
    · intro hc
      cases hstate.symm.trans hc

/-! ## All runs -/

theorem op_keeps (p : Fin n) (o : Op n m) (ho : ∀ q, o ≠ .run q) : Keeps p o := by
  cases o with
  | luck => exact keeps_luck
  | filealloc => exact keeps_filealloc
  | filedup f => exact keeps_filedup f
  | fileclose f => exact keeps_fileclose f
  | setfile f type readable writable pipe ip =>
    exact keeps_setfile f type readable writable pipe ip
  | getfile f => exact keeps_getfile f
  | fdalloc f => exact keeps_fdalloc f
  | getfd fd => exact keeps_getfd fd
  | clearfd fd => exact keeps_clearfd fd
  | makepipe => exact keeps_makepipe
  | pipeclose f pg w => exact keeps_pipeclose f pg w
  | kfree pg => exact keeps_kfree pg
  | iput f ip => exact keeps_iput f ip
  | enter f pg => exact keeps_enter f pg
  | touch pg => exact keeps_touch pg
  | leave => exact keeps_leave
  | allocproc => exact keeps_allocproc
  | unalloc np => exact keeps_unalloc np
  | setchild np fd f => exact keeps_setchild np fd f
  | run np => exact absurd rfl (ho np)
  | zombie => exact keeps_zombie
  | reap q => exact keeps_reap q

theorem idle_of_off {c : K n m ℤ}
    (h : Obeys protocol (fun _ g => Rest g) NoPanic c (off : Local n m)) : c.idle = true := by
  cases c with
  | ret a => rfl
  | panic e => exact h.elim
  | op o k => exact nomatch h.1.1

theorem inv_boot (running : Fin n → Bool) (luck : ℕ → ℕ) :
    Inv (boot n m running luck).shared
      (fun p => if running p = true then .fresh fun _ => none else .off) := by
  have hcases : ∀ (p : Fin n) (Q : Local n m → Prop), Q (.fresh fun _ => none) → Q .off →
      Q (if running p = true then .fresh fun _ => none else .off) := by
    intro p Q hfresh hoff
    split_ifs
    · exact hfresh
    · exact hoff
  have hchild : ∀ p : Fin n,
      (if running p = true then Local.fresh fun _ => none else .off : Local n m).child = none :=
    fun p => hcases p (fun g => g.child = none) rfl rfl
  refine ⟨⟨fun k => ?_, fun p => hcases p _ (Fits.fresh _ _) (Fits.off _), nofun, fun _ => rfl,
    fun p => hcases p (fun g => none = g.inside) rfl rfl, rfl⟩,
    ⟨fun p => ?_, fun p => ?_, fun p _ => ?_, fun p q T hp => ?_, fun p p' q T T' hp => ?_,
      fun q hq => ?_⟩⟩
  · have hzero : ∀ p ∈ (Finset.univ : Finset (Fin n)),
        (if running p = true then Local.fresh fun _ => none else .off : Local n m).res k = 0 :=
      fun p _ => hcases p (fun g => g.res k = 0) (Local.res_fresh_none k) (Local.res_off k)
    rw [sum_eq_zero hzero]
    cases k with
    | share f => rfl
    | blank f => rfl
    | duty f => rfl
    | ends pg w => simp [total, boot, isOpen, ends, File.hasEnd]
    | dead pg => rfl
  · simp only [boot]
    split_ifs <;> simp [Local.fresh, off]
  · split_ifs <;> simp [Local.fresh]
  · exact hcases p (fun g => (fun _ => none) = g.table) rfl rfl
  · exact nomatch (hchild p).symm.trans hp
  · exact nomatch (hchild p).symm.trans hp
  · simp only [boot] at hq
    split_ifs at hq

theorem accounts_of_reach {s : Threads (Fin n) (State n m) (Op n m) Res Panic ℤ}
    (h : (system n m).Reach (fun _ _ => True) s) :
    ∃ G, Accounts protocol Rest NoPanic Inv s G := by
  refine exists_accounts_of_step protocol Rest NoPanic Inv ?_ ?_ ?_ h
  · rintro _ ⟨running, luck, rfl⟩
    refine ⟨_, inv_boot running luck, fun p => ⟨rfl, ?_⟩⟩
    split_ifs
    · exact Local.fresh_rest _
    · exact ⟨rfl, rfl, rfl, rfl, rfl, rfl, rfl⟩
  · intro s G p o k r t hG _ hc hl hr
    by_cases ho : ∃ q, o = .run q
    · obtain ⟨np, rfl⟩ := ho
      obtain ⟨hlive, ⟨T, hchild⟩, hrest⟩ := hl
      cases hr
      obtain ⟨hne, hoff, hinv⟩ := hG.inv.run hlive hchild hrest
      refine ⟨trivial, _, hinv, ?_, fun q hq => ?_⟩
      · rw [update_of_ne hne.symm, update_self]
        rfl
      · by_cases hqn : q = np
        · subst hqn
          refine .inr ⟨idle_of_off (hoff ▸ hG.obeys q), ?_⟩
          rw [update_self]
          exact Local.fresh_rest T
        · exact .inl (by rw [update_of_ne hqn, update_of_ne hq])
    · push Not at ho
      obtain ⟨hans, hinv⟩ := op_keeps p o ho hG.inv hl hr
      exact ⟨hans, _, hinv, update_self .., fun q hq => .inl (update_of_ne hq ..)⟩
  · intro σ G p c hinv hrest hmay
    exact call_obeys c ((hinv.procs.live p).2 (by simpa [kernel] using hmay)) hrest

/-- The number of (process, descriptor) slots that refer to a file. -/
def descriptors (s : State n m) (f : FileId) : ℕ :=
  (Finset.univ.filter fun x : Fin n × Fd => s.ofile x.1 x.2 = some f).card

theorem descriptors_eq_sum (s : State n m) (f : FileId) :
    (descriptors s f : ℤ) = ∑ p, slots (s.ofile p) f := by
  rw [descriptors, card_filter, Fintype.sum_prod_type]
  push_cast
  rfl

section Results

variable {r : Threads (Fin n) (State n m) (Op n m) Res Panic ℤ}

theorem ofile_of_idle (hG : Accounts protocol Rest NoPanic Inv r G)
    (hidle : ∀ p, (r.code p).idle = true) (p : Fin n) : r.shared.ofile p = (G p).table := by
  refine hG.inv.procs.table p fun hp => ?_
  obtain ⟨q, T, hq⟩ := hG.inv.procs.embryo p hp
  exact nomatch (rest_of_idle (hG.obeys q) (hidle q)).child.symm.trans hq

theorem total_of_idle (hG : Accounts protocol Rest NoPanic Inv r G)
    (hidle : ∀ p, (r.code p).idle = true) (k : Key m) : total r.shared k = match k with
      | .share f => (descriptors r.shared f : ℤ)
      | _ => 0 := by
  have hrest : ∀ p, Rest (G p) := fun p => rest_of_idle (hG.obeys p) (hidle p)
  rw [hG.inv.files.count k]
  cases k with
  | share f =>
    dsimp only
    rw [descriptors_eq_sum]
    refine sum_congr rfl fun p _ => ?_
    rw [ofile_of_idle hG hidle p, Local.res, (hrest p).child, (hrest p).owed, childSlots_none,
      add_zero, Pi.zero_apply, add_zero]
  | blank f => exact sum_eq_zero fun p _ => by simp [Local.res, (hrest p).blank]
  | duty f => exact sum_eq_zero fun p _ => by simp [Local.res, (hrest p).duty]
  | ends pg w => exact sum_eq_zero fun p _ => by simp [Local.res, (hrest p).ends]
  | dead pg => exact sum_eq_zero fun p _ => by simp [Local.res, (hrest p).dead]

theorem exists_descriptor (hG : Accounts protocol Rest NoPanic Inv r G)
    (hidle : ∀ p, (r.code p).idle = true) (hpg : (r.shared.pipe pg).isSome = true) :
    ∃ f w, (r.shared.file f).hasEnd pg w ∧ 0 < descriptors r.shared f := by
  obtain ⟨x, hx⟩ := isSome_iff_exists.1 hpg
  have hdead := total_of_idle hG hidle (.dead pg)
  simp only [total, hx, some_inj] at hdead
  -- One of the ends is open, and only a file can have it.
  have hopen : ∃ w, r.shared.isOpen pg w = true := by
    by_contra hno
    push Not at hno
    have hw := hno true
    have hr := hno false
    simp only [isOpen, hx, any_some, Pipe.isOpen] at hw hr
    rw [if_pos (by cases x; simp_all)] at hdead
    cases hdead
  obtain ⟨w, hw⟩ := hopen
  have hends := total_of_idle hG hidle (.ends pg w)
  simp only [total, hw, if_true] at hends
  have hf : ∃ f, (r.shared.file f).hasEnd pg w := by
    by_contra hno
    push Not at hno
    simp [ends, hno] at hends
  obtain ⟨f, hf⟩ := hf
  refine ⟨f, w, hf, ?_⟩
  have hshare := total_of_idle hG hidle (.share f)
  have href : (r.shared.file f).ref ≠ 0 := by
    intro hzero
    exact nomatch (hG.inv.files.type_of_ref_zero hzero).symm.trans hf.1
  simp only [total] at hshare
  omega

/-- **File reference counts are exact.**  In every state of every run:

* no process has panicked, and `UNUSED` and `ZOMBIE` processes have no descriptors;
* `pipeclose` or `iput` has been called for a file at most once for each time it was
  given a type, and not for the present one; no page was used that was no pipe;
* a page has been made a pipe as often as it was freed, once more if it is one now;
  a process about to free a page frees a pipe that no file is an end of any more and
  that no process is in `piperead` or `pipewrite` on.

When no call is in progress, `ref` is the number of descriptors, `pipeclose` or
`iput` has been called for all files without descriptors, and every pipe has a
descriptor. -/
theorem file_refs_exact (h : (system n m).Reach (fun _ _ => True) r) :
    (∀ p, (r.code p).panicked = false) ∧
    (∀ p, r.shared.state p = .UNUSED ∨ r.shared.state p = .ZOMBIE →
      ∀ fd, r.shared.ofile p fd = none) ∧
    (∀ f, r.shared.released f + (if (r.shared.file f).type = .FD_NONE then 0 else 1)
      ≤ r.shared.opened f) ∧
    r.shared.fault = false ∧
    (∀ pg, r.shared.made pg = r.shared.freed pg + (if (r.shared.pipe pg).isSome then 1 else 0)) ∧
    (∀ p pg, (r.code p).next? = some (.kfree pg) →
      (r.shared.pipe pg).isSome ∧ (∀ f w, ¬(r.shared.file f).hasEnd pg w) ∧
        ∀ q, r.shared.inside q ≠ some pg) ∧
    ((∀ p, (r.code p).idle = true) →
      (∀ f, (r.shared.file f).ref = descriptors r.shared f) ∧
      (∀ f, r.shared.opened f
        = r.shared.released f + (if descriptors r.shared f = 0 then 0 else 1)) ∧
      ∀ pg, (r.shared.pipe pg).isSome ↔
        ∃ f w, (r.shared.file f).hasEnd pg w ∧ 0 < descriptors r.shared f) := by
  obtain ⟨G, hG⟩ := accounts_of_reach h
  refine ⟨fun p => ?_, fun p hp fd => ?_, fun f => ?_, hG.inv.files.fault, hG.inv.files.pages,
    fun p pg hp => ?_, fun hidle => ?_⟩
  · have hob := hG.obeys p
    cases hc : r.code p with
    | ret a => rfl
    | panic e =>
      rw [hc] at hob
      exact hob.elim
    | op o k => rfl
  · have hoff : G p = .off := hG.inv.procs.off_of_state (by rcases hp with hp | hp <;> simp [hp])
    rw [hG.inv.procs.table p (by rcases hp with hp | hp <;> simp [hp]), hoff]
    rfl
  · have hnn := hG.inv.files.total_nonneg (.duty f)
    simp only [total, File.typed] at hnn
    split_ifs at hnn ⊢ <;> omega
  · have hob := hG.obeys p
    cases hc : r.code p with
    | ret a => simp [hc, Code.next?] at hp
    | panic e => simp [hc, Code.next?] at hp
    | op o k =>
      rw [hc] at hob hp
      cases hp
      have hle := hG.inv.files.res_le_total p (.dead pg)
      have hone : 1 ≤ (G p).dead pg := hob.1.2
      have hpipe : r.shared.pipe pg = some ⟨false, false⟩ := by
        by_contra hno
        simp only [total, hno, if_false, Local.res] at hle
        omega
      have hnoend : ∀ f w, ¬(r.shared.file f).hasEnd pg w := fun f w hf =>
        (State.pipe_of_isOpen (hG.inv.files.isOpen_of_hasEnd hf)).2 hpipe
      refine ⟨by rw [hpipe]; rfl, hnoend, fun q hq => ?_⟩
      rw [hG.inv.files.inside q] at hq
      obtain ⟨f, w, hf⟩ := hG.inv.files.isOpen_of_inside hq
      exact hnoend f w hf
  · have href : ∀ f, (r.shared.file f).ref = descriptors r.shared f := by
      intro f
      have hshare := total_of_idle hG hidle (.share f)
      simp only [total] at hshare
      omega
    refine ⟨href, fun f => ?_, fun pg => ⟨exists_descriptor hG hidle, ?_⟩⟩
    · have hduty := total_of_idle hG hidle (.duty f)
      have hblank := total_of_idle hG hidle (.blank f)
      have hf := href f
      simp only [total] at hduty hblank
      split_ifs at hblank ⊢ <;> omega
    · rintro ⟨f, w, hf, -⟩
      exact (State.pipe_of_isOpen (hG.inv.files.isOpen_of_hasEnd hf)).1

/-- A run. -/
def pipeAndFork : List (Sched (Fin 2) (Call 2)) :=
  .call 0 .pipe :: List.replicate 7 (.run 0) ++ .call 0 .fork :: List.replicate 24 (.run 0)

/-- After `pipe` and `fork` the read end has two descriptors. -/
theorem file_refs_exact_forked :
    ∃ r, (system 2 1).Reach (fun _ _ => True) r ∧ (r.shared.file 0).ref = 2 ∧
      (r.shared.file 0).ref = descriptors r.shared 0 ∧ (r.shared.pipe 0).isSome := by
  have hinit : (system 2 1).Reach (fun _ _ => True) (boot 2 1 (fun p => p = 0) fun _ => 1) :=
    .init ⟨_, _, rfl⟩
  obtain ⟨r, hr, hv⟩ := Lts.reach_of_exec_map pipeAndFork
    (fun r => ((r.shared.file 0).ref, (r.code 0).idle, (r.code 1).idle, (r.shared.pipe 0).isSome))
    (2, true, true, true) hinit (by decide +kernel)
  obtain ⟨href, h0, h1, hpipe⟩ : (r.shared.file 0).ref = 2 ∧ (r.code 0).idle = true ∧
      (r.code 1).idle = true ∧ (r.shared.pipe 0).isSome = true := by simpa using hv
  have hidle : ∀ p, (r.code p).idle = true := Fin.forall_fin_two.2 ⟨h0, h1⟩
  exact ⟨r, hr, href, ((file_refs_exact hr).2.2.2.2.2.2 hidle).1 0, hpipe⟩

end Results

end Xv6.Ftable
