import Xv6.Mem.Held
import Xv6.SharedMem.Machine

/-!
# Shared frames and the page allocator

Whether a page on the free list can be mapped, and whether a page can be freed
twice, in runs of `open`, `close`, `fork`, `exit` and `wait`.

`close` frees the frame of a page whose count returns to 0 and leaves it in the
page tables; `wait` frees every frame the child maps, shared or not.  So both
happen: `close_leaves_mapping`.  They do not happen when callers never close the
last reference and a page dies with the only process that opened it:
`frames_stay_apart`.

* `FrameInv` — every page has one owner: a process, the kernel for a process, or
  the shared memory.
* `ShareInv` — a process maps a shared frame at most as often as it has opened it.
-/

namespace Xv6.SharedMem

open Xv6.Lib Xv6.Mem Function Multiset Option

variable {P : Type} [DecidableEq P]

/-- The address `open` maps to is that of an unmapped user page. -/
def UnmappedVa (s : State P) : Act P → Prop
  | .next p va =>
    match s.pc p with
    | .openMap _ _ => va < KERNBASE ∧ ∀ pr ∈ s.proc p, pr.pgdir.lookup va = none
    | _ => True
  | _ => True

instance (s : State P) (a : Act P) : Decidable (UnmappedVa s a) := by
  unfold UnmappedVa
  split
  · split <;> infer_instance
  · infer_instance

/-- The process is in `open` for the page `id`. -/
def Pc.opening (pc : Pc) (id : Id) : Prop := pc.opens = true ∧ pc.id? = some id

instance (pc : Pc) (id : Id) : Decidable (pc.opening id) := inferInstanceAs (Decidable (_ ∧ _))

/-- The child opened each of its pages once, and nobody else has opened the page or is about to. -/
def MayReap (s : State P) (c : P) : Prop := ∀ id, 0 < s.opens c id → s.reaped id = true ∨
  s.opens c id = 1 ∧ ∀ q, q ≠ c → s.opens q id = 0 ∧ ¬(s.pc q).opening id

instance [Fintype P] (s : State P) (c : P) : Decidable (MayReap s c) :=
  inferInstanceAs (Decidable (∀ _, _))

/-- What callers see to:

* no `close` brings the count to 0;
* `open` is not called for a page when a process that had opened it has been reaped;
* a process is reaped only if it `MayReap`. -/
def Careful [Fintype P] (s : State P) : Act P → Prop
  | .openCall _ id => s.reaped id = false
  | .next p _ =>
    match s.pc p with
    | .closeTest id => (s.pages id).refCount ≠ 0
    | _ => True
  | .wait _ c => MayReap s c
  | _ => True

instance [Fintype P] (s : State P) (a : Act P) : Decidable (Careful s a) := by
  unfold Careful
  split
  · infer_instance
  · split <;> infer_instance
  · infer_instance
  · infer_instance

/-! ## Who has which page -/

/-- The frames mapped in the user part of a process. -/
def State.uframes (s : State P) (p : P) : Multiset Page :=
  (s.proc p).elim 0 fun pr => pr.pgdir.uframes

/-- The owners of the pages mapped in the user part of processes. -/
structure Owners (P : Type) where
  /-- The pages of its own that a process maps. -/
  own : P → Multiset Page
  /-- The shared frames that a process maps, each as often as it maps it. -/
  sh : P → Multiset Page
  shared : Multiset Page
  /-- What a shared frame was allocated for. -/
  label : Page → Id

/-- The page is null, or a shared frame that was allocated for the id. -/
def Owners.Has (g : Owners P) (id : Id) (v : Page) : Prop := v = 0 ∨ v ∈ g.shared ∧ g.label v = id

/-- `open` has mapped the page, and not counted itself in. -/
def Pc.mapped : Pc → Id → ℕ
  | .openRead id _, id' | .openWrite id _ _, id' => if id' = id then 1 else 0
  | _, _ => 0

/-- The page that `open` has from `kalloc`. -/
def Pc.new? : Pc → Option (Id × Page)
  | .openMap id new | .openRead id new | .openWrite id new _ => new.map fun v => (id, v)
  | .openFrame id v => some (id, v)
  | _ => none

/-- How often a process can map a frame of the page `id`. -/
def State.bound (s : State P) (q : P) (id : Id) : ℕ :=
  if s.reaped id then 0 else s.opens q id + (s.pc q).mapped id

/-- All pages in use. -/
def kept [Fintype P] (s : State P) (g : Owners P) : Multiset Page :=
  s.kpages + ∑ p, g.own p + g.shared

/-- **Every page has one owner.** -/
structure FrameInv [Fintype P] (L : Layout) (M : Multiset Page) (s : State P) (g : Owners P) :
    Prop where
  /-- The free pages and those in use are all pages there are. -/
  held : Held L M s.kmem (kept s g)
  /-- The memory of a process ends below `KERNBASE`. -/
  size : ∀ p pr, s.proc p = some pr → Mem.pages pr.sz ≤ KERNBASE.toNat
  /-- What a process maps is its own or shared. -/
  split : ∀ p, s.uframes p = g.own p + g.sh p
  fault : s.fault ≠ some .doubleFree

/-- **Shared frames follow the calls.** -/
structure ShareInv (s : State P) (g : Owners P) : Prop where
  /-- Zombies and unused slots are in no call. -/
  live : ∀ p, s.pc p ≠ .user → (s.live p).isSome
  kept : ∀ p id, s.pc p ≠ .closeFree id
  /-- A process maps a shared frame as often as it has opened the page, at most; nobody
  maps it when an opener has been reaped. -/
  counted : ∀ v ∈ g.shared, ∀ q, (g.sh q).count v ≤ s.bound q (g.label v)
  mapped : ∀ q, ∀ v ∈ g.sh q, v = 0 ∨ v ∈ g.shared
  nonzero : 0 ∉ g.shared
  /-- `frame` was allocated for the id. -/
  frame : ∀ id, s.reaped id = false → g.Has id (s.pages id).frame
  /-- So was what `open` has allocated. -/
  new : ∀ p id w, (s.pc p).new? = some (id, w) → g.Has id w
  /-- Nobody opens a page of a process that was reaped. -/
  opening : ∀ p id, (s.pc p).opening id → s.reaped id = false

/-- Both, for some owners. -/
def Inv [Fintype P] (L : Layout) (M : Multiset Page) (s : State P) : Prop :=
  ∃ g, FrameInv L M s g ∧ ShareInv s g

section Steps

variable [Fintype P] {L : Layout} {M : Multiset Page} {g g' : Owners P} {s t : State P} {p c : P}
  {pr : Proc P} {id : Id} {v : Page} {k : Kmem} {pd : Pgdir}

theorem Pc.opening_of_new {pc : Pc} (h : pc.new? = some (id, v)) : pc.opening id := by
  cases pc <;> simp [Pc.new?, Pc.opening, Pc.opens, Pc.id?] at h ⊢ <;> simp [h]

theorem Pc.opening_of_mapped {pc : Pc} (h : pc.mapped id ≠ 0) : pc.opening id := by
  cases pc with
  | openRead id' new | openWrite id' new n =>
    by_cases hid : id = id'
    · exact ⟨rfl, by rw [hid]; rfl⟩
    · exact absurd (if_neg hid) h
  | _ => exact absurd rfl h

omit [DecidableEq P] in
theorem FrameInv.notMem (hM : M.Nodup) (h : FrameInv L M s g) (hv : v ∈ kept s g) :
    v ∉ s.kmem.freelist := h.held.notMem hM hv

omit [DecidableEq P] in
theorem FrameInv.notMem_of_mapped (hM : M.Nodup) (h : FrameInv L M s g) (hS : ShareInv s g)
    (hv : v ∈ s.uframes p) : v ∉ s.kmem.freelist := by
  rw [h.split, mem_add] at hv
  obtain hv | hv := hv
  · refine h.notMem hM (mem_add.2 (.inl (mem_add.2 (.inr ?_))))
    exact mem_sum.2 ⟨p, Finset.mem_univ p, hv⟩
  · obtain rfl | hv := hS.mapped p v hv
    · exact fun hfree => L.kend_ne_zero (h.held.ok.managed _ hfree) rfl
    · exact h.notMem hM (mem_add.2 (.inr hv))

/-! ### Initially -/

omit [DecidableEq P] in
theorem mem_kpages : v ∈ s.kpages ↔ ∃ q pr, s.proc q = some pr ∧ v ∈ pr.kpages := by
  rw [State.kpages, mem_sum]
  constructor
  · rintro ⟨q, -, hq⟩
    cases hpr : s.proc q with
    | none => simp [hpr] at hq
    | some pr =>
      rw [hpr] at hq
      exact ⟨q, pr, hpr, hq⟩
  · rintro ⟨q, pr, hpr, hq⟩
    exact ⟨q, Finset.mem_univ q, by rw [hpr]; exact hq⟩

omit [DecidableEq P] [Fintype P] in
theorem count_uframes (s : State P) (p : P) (v : Page) : (s.uframes p).count v = s.maps p v := by
  rw [State.uframes, State.maps]
  cases s.proc p with
  | none => exact count_zero v
  | some pr => rfl

omit [DecidableEq P] in
theorem Initial.nodup (h : Initial L s) :
    ((s.kmem.freelist : Multiset Page) + (s.kpages + ∑ p, s.uframes p)).Nodup := by
  have hkernel : ∀ v ∈ s.kpages, s.kmem.use v = some .kernel := by
    intro v hv
    obtain ⟨q, pr, hpr, hmem⟩ := mem_kpages.1 hv
    exact h.kernel q pr v hpr hmem
  have huser : ∀ v ∈ ∑ p, s.uframes p, s.kmem.use v = some .user := by
    intro v hv
    obtain ⟨q, -, hq⟩ := mem_sum.1 hv
    exact h.user q v (by rw [← count_uframes]; exact count_pos.2 hq)
  rw [nodup_add, nodup_add]
  refine ⟨coe_nodup.2 h.kmem.nodup, ⟨h.kpages, ?_, ?_⟩, ?_⟩
  · refine nodup_iff_count_le_one.2 fun v => ?_
    rw [count_sum']
    simpa only [count_uframes] using h.once v
  · rw [disjoint_left]
    intro v hv hv'
    have hu := hkernel v hv
    rw [huser v hv'] at hu
    cases hu
  · rw [disjoint_left]
    intro v hv hv'
    have hu := h.kmem.unused v (mem_coe.1 hv)
    obtain hv' | hv' := mem_add.1 hv'
    · rw [hkernel v hv'] at hu
      cases hu
    · rw [huser v hv'] at hu
      cases hu

omit [DecidableEq P] in
theorem inv_initial (h : Initial L s) : ∃ M : Multiset Page, M.Nodup ∧ Inv L M s := by
  refine ⟨_, h.nodup, ⟨s.uframes, fun _ => 0, 0, fun _ => 0⟩, ⟨⟨h.kmem, ?_⟩, h.size, ?_, ?_⟩,
    fun p hp => absurd (h.pc p) hp, ?_, ?_, ?_, ?_, ?_, ?_, ?_⟩
  · rw [kept, add_zero]
  · exact fun p => (add_zero _).symm
  · simp [h.fault]
  · simp [h.pc]
  · simp
  · simp
  · simp
  · intro id _
    rw [h.pages]
    exact .inl rfl
  · simp [h.pc, Pc.new?]
  · exact fun p id _ => h.reaped id

/-! ### Steps that leave the pages alone -/

omit [DecidableEq P] in
theorem FrameInv.stop (h : FrameInv L M s g) {f : Fault} (hf : f ≠ .doubleFree) :
    FrameInv L M (s.stop f) g :=
  ⟨h.held, h.size, h.split, by simpa [State.stop] using hf⟩

omit [DecidableEq P] [Fintype P] in
theorem ShareInv.stop (h : ShareInv s g) (f : Fault) : ShareInv (s.stop f) g :=
  ⟨h.live, h.kept, h.counted, h.mapped, h.nonzero, h.frame, h.new, h.opening⟩

omit [DecidableEq P] in
theorem FrameInv.same (h : FrameInv L M s g) (hk : t.kmem = s.kmem) (hp : t.proc = s.proc)
    (hf : t.fault = s.fault) : FrameInv L M t g := by
  refine ⟨?_, hp ▸ h.size, fun p => ?_, hf ▸ h.fault⟩
  · rw [kept, State.kpages, hp, hk]
    exact h.held
  · rw [State.uframes, hp]
    exact h.split p

omit [DecidableEq P] [Fintype P] in
theorem live_iff {q : P} :
    (s.live q).isSome ↔ ∃ pr, s.proc q = some pr ∧ pr.zombie = false := by
  rw [State.live]
  cases s.proc q with
  | none => simp
  | some pr => simp [Option.filter_some]

omit [DecidableEq P] [Fintype P] in
theorem live_congr {q : P} (h : t.proc q = s.proc q) : t.live q = s.live q := by
  rw [State.live, State.live, h]

omit [DecidableEq P] [Fintype P] in
theorem ShareInv.same (h : ShareInv s g) (hpc : t.pc = s.pc) (hreaped : t.reaped = s.reaped)
    (hopens : t.opens = s.opens) (hpages : t.pages = s.pages)
    (hlive : ∀ q, s.pc q ≠ .user → (s.live q).isSome → (t.live q).isSome) (hsh : g'.sh = g.sh)
    (hshared : g'.shared = g.shared) (hlabel : g'.label = g.label) : ShareInv t g' := by
  have hhas : ∀ id v, g.Has id v → g'.Has id v := by
    intro id v hv
    rwa [Owners.Has, hshared, hlabel]
  refine ⟨fun q hq => ?_, ?_, ?_, ?_, ?_, fun id hid => ?_, fun q id w hw => ?_, ?_⟩
  · rw [hpc] at hq
    exact hlive q hq (h.live q hq)
  · rw [hpc]
    exact h.kept
  · rw [hshared, hsh, hlabel]
    intro v hv q
    rw [State.bound, hreaped, hopens, hpc]
    exact h.counted v hv q
  · rw [hsh, hshared]
    exact h.mapped
  · rw [hshared]
    exact h.nonzero
  · rw [hpages]
    exact hhas id _ (h.frame id (hreaped ▸ hid))
  · exact hhas id w (h.new q id w (hpc ▸ hw))
  · rw [hpc, hreaped]
    exact h.opening

omit [Fintype P] in
theorem ShareInv.move (pc : Pc) (h : ShareInv s g) (hpc : t.pc = update s.pc p pc)
    (hreaped : t.reaped = s.reaped) (hlive : ∀ q, (s.live q).isSome → (t.live q).isSome)
    (hp : (s.live p).isSome) (hkept : ∀ id, pc ≠ .closeFree id)
    (hhas : ∀ id w, g.Has id w → g'.Has id w)
    (hcounted : ∀ v ∈ g'.shared, ∀ q, (g'.sh q).count v ≤ t.bound q (g'.label v))
    (hmapped : ∀ q, ∀ v ∈ g'.sh q, v = 0 ∨ v ∈ g'.shared) (hnonzero : 0 ∉ g'.shared)
    (hframe : ∀ id, (t.pages id).frame = (s.pages id).frame ∨
      (s.pc p).new? = some (id, (t.pages id).frame))
    (hnew : ∀ id w, pc.new? = some (id, w) → (s.pc p).new? = some (id, w) ∨ g'.Has id w)
    (hopen : ∀ id, pc.opening id → s.reaped id = false) : ShareInv t g' := by
  refine ⟨fun q hq => ?_, fun q id => ?_, hcounted, hmapped, hnonzero, fun id hid => ?_,
    fun q id w hw => ?_, fun q id hid => ?_⟩
  · refine hlive q ?_
    by_cases hqp : q = p
    · exact hqp ▸ hp
    · rw [hpc, update_of_ne hqp] at hq
      exact h.live q hq
  · by_cases hqp : q = p
    · rw [hpc, hqp, update_self]
      exact hkept id
    · rw [hpc, update_of_ne hqp]
      exact h.kept q id
  · rw [hreaped] at hid
    obtain he | he := hframe id
    · rw [he]
      exact hhas id _ (h.frame id hid)
    · exact hhas id _ (h.new p id _ he)
  · by_cases hqp : q = p
    · rw [hpc, hqp, update_self] at hw
      exact (hnew id w hw).elim (fun hs => hhas id w (h.new p id w hs)) fun ht => ht
    · rw [hpc, update_of_ne hqp] at hw
      exact hhas id w (h.new q id w hw)
  · rw [hreaped]
    by_cases hqp : q = p
    · rw [hpc, hqp, update_self] at hid
      exact hopen id hid
    · rw [hpc, update_of_ne hqp] at hid
      exact h.opening q id hid

omit [Fintype P] in
theorem bound_le (pc : Pc) (hpc : t.pc = update s.pc p pc) (hreaped : t.reaped = s.reaped)
    (hothers : ∀ q, q ≠ p → t.opens q = s.opens q)
    (hcount : ∀ id, s.opens p id + (s.pc p).mapped id ≤ t.opens p id + pc.mapped id) (q : P)
    (id : Id) : s.bound q id ≤ t.bound q id := by
  rw [State.bound, State.bound, hreaped]
  split
  · exact le_rfl
  · by_cases hqp : q = p
    · rw [hpc, hqp, update_self]
      exact hcount id
    · rw [hpc, update_of_ne hqp, hothers q hqp]

omit [Fintype P] in
theorem ShareInv.goto (pc : Pc) (h : ShareInv s g) (hpc : t.pc = update s.pc p pc)
    (hreaped : t.reaped = s.reaped) (hproc : t.proc = s.proc) (hp : (s.live p).isSome)
    (hothers : ∀ q, q ≠ p → t.opens q = s.opens q) (hkept : ∀ id, pc ≠ .closeFree id)
    (hcount : ∀ id, s.opens p id + (s.pc p).mapped id ≤ t.opens p id + pc.mapped id)
    (hframe : ∀ id, (t.pages id).frame = (s.pages id).frame ∨
      (s.pc p).new? = some (id, (t.pages id).frame))
    (hnew : ∀ id w, pc.new? = some (id, w) → (s.pc p).new? = some (id, w))
    (hopen : ∀ id, pc.opening id → s.reaped id = false) : ShareInv t g :=
  h.move pc hpc hreaped (fun q hq => by rwa [live_congr (congrFun hproc q)]) hp hkept
    (fun _ _ hw => hw)
    (fun v hv q => (h.counted v hv q).trans (bound_le pc hpc hreaped hothers hcount q _))
    h.mapped h.nonzero hframe (fun id w hw => .inl (hnew id w hw)) hopen

omit [Fintype P] in
theorem ShareInv.pc (pc : Pc) (h : ShareInv s g) (hpc : t.pc = update s.pc p pc)
    (hreaped : t.reaped = s.reaped) (hproc : t.proc = s.proc) (hopens : t.opens = s.opens)
    (hframe : ∀ id, (t.pages id).frame = (s.pages id).frame) (hp : (s.live p).isSome)
    (hkept : ∀ id, pc ≠ .closeFree id) (hcount : ∀ id, (s.pc p).mapped id ≤ pc.mapped id)
    (hnew : ∀ id w, pc.new? = some (id, w) → (s.pc p).new? = some (id, w))
    (hopen : ∀ id, pc.opening id → s.reaped id = false) : ShareInv t g :=
  h.goto pc hpc hreaped hproc hp (fun q _ => congrFun hopens q) hkept
    (fun id => by rw [hopens]; exact Nat.add_le_add_left (hcount id) _)
    (fun id => .inl (hframe id)) hnew hopen

/-! ### Taking and mapping a frame -/

omit [DecidableEq P] in
theorem FrameInv.fresh (hM : M.Nodup) (h : FrameInv L M s g) (hS : ShareInv s g)
    (hv : v ∈ s.kmem.freelist) : v ≠ 0 ∧ v ∉ g.shared ∧ ∀ q, v ∉ g.sh q := by
  have hv₀ := L.kend_ne_zero (h.held.ok.managed v hv)
  have hnot : v ∉ g.shared := fun hmem => h.notMem hM (mem_add.2 (.inr hmem)) hv
  exact ⟨hv₀, hnot, fun q hq => (hS.mapped q v hq).elim hv₀ hnot⟩

theorem FrameInv.openAlloc (hM : M.Nodup) (h : FrameInv L M s g) (hS : ShareInv s g)
    (hp : (s.live p).isSome) (hpc : s.pc p = .openAlloc id) :
    Inv L M (SharedMem.openAlloc s p pr id) := by
  have hopen : s.reaped id = false := hS.opening p id (by rw [hpc]; exact ⟨rfl, rfl⟩)
  have hcount : ∀ id' w, s.opens p id' + (s.pc p).mapped id' ≤
      s.opens p id' + (Pc.openMap id w).mapped id' := by simp [hpc, Pc.mapped]
  unfold SharedMem.openAlloc
  split
  · rename_i v k hk
    obtain ⟨hv₀, hnot, hsh⟩ := h.fresh hM hS (v := v) (by simp [(kalloc_eq_some hk).1])
    have hheld := (h.held.kalloc hk).memset v 0
    refine ⟨{ g with shared := {v} + g.shared, label := update g.label v id },
      ⟨hheld.congr ?_, h.size, h.split, h.fault⟩, ?_⟩
    · change {v} + (s.kpages + ∑ p, g.own p + g.shared) = s.kpages + ∑ p, g.own p + ({v} + g.shared)
      abel
    · refine hS.move (.openMap id (some v)) rfl rfl (fun _ hq => hq) hp (by simp) ?_ ?_ ?_ ?_
        (fun _ => .inl rfl) ?_ ?_
      · rintro id' w (rfl | ⟨hw, hid⟩)
        · exact .inl rfl
        · have hne : w ≠ v := ne_of_mem_of_not_mem hw hnot
          exact .inr ⟨mem_add.2 (.inr hw), (update_of_ne hne _ _).trans hid⟩
      · intro w hw q
        obtain hw | hw := mem_add.1 hw
        · rw [mem_singleton.1 hw, count_eq_zero_of_notMem (hsh q)]
          exact Nat.zero_le _
        · have hne : w ≠ v := ne_of_mem_of_not_mem hw hnot
          dsimp only
          rw [update_of_ne hne]
          refine (hS.counted w hw q).trans ?_
          refine bound_le (p := p) (.openMap id (some v)) ?_ ?_ ?_ ?_ q _
          exacts [rfl, rfl, fun _ _ => rfl, fun id' => hcount id' _]
      · exact fun q w hw => (hS.mapped q w hw).imp_right fun hw => mem_add.2 (.inr hw)
      · intro hmem
        obtain hmem | hmem := mem_add.1 hmem
        · exact hv₀ (mem_singleton.1 hmem).symm
        · exact hS.nonzero hmem
      · intro id' w hw
        simp only [Pc.new?, Option.map_some, Option.some.injEq, Prod.mk.injEq] at hw
        obtain ⟨rfl, rfl⟩ := hw
        exact .inr (.inr ⟨mem_add.2 (.inl (mem_singleton_self _)), update_self ..⟩)
      · rintro _ ⟨-, ⟨⟩⟩
        exact hopen
  · split
    · exact ⟨g, h.stop (by simp), hS.stop _⟩
    · refine ⟨g, ⟨h.held.memset _ 0, h.size, h.split, h.fault⟩, ?_⟩
      refine hS.move (.openMap id (some 0)) rfl rfl (fun _ hq => hq) hp (by simp)
        (fun _ _ hw => hw) (fun w hw q => ?_) hS.mapped hS.nonzero (fun _ => .inl rfl) ?_ ?_
      · refine (hS.counted w hw q).trans ?_
        refine bound_le (p := p) (.openMap id (some 0)) ?_ ?_ ?_ ?_ q _
        exacts [rfl, rfl, fun _ _ => rfl, fun id' => hcount id' _]
      · intro id' w hw
        simp only [Pc.new?, Option.map_some, Option.some.injEq, Prod.mk.injEq] at hw
        exact .inr (.inl hw.2.symm)
      · rintro _ ⟨-, ⟨⟩⟩
        exact hopen

omit [DecidableEq P] [Fintype P] in
theorem ShareInv.has (h : ShareInv s g) {new : Option Page} (hpc : s.pc p = .openMap id new) :
    g.Has id (new.getD (s.pages id).frame) := by
  cases new with
  | none => exact h.frame id (h.opening p id (by rw [hpc]; exact ⟨rfl, rfl⟩))
  | some w => exact h.new p id w (by rw [hpc]; rfl)

theorem kpages_update (s : State P) (p : P) (x : Option (Proc P)) :
    ({ s with proc := update s.proc p x } : State P).kpages + (s.proc p).elim 0 Proc.kpages
      = s.kpages + x.elim 0 Proc.kpages :=
  sum_update_add (fun _ (y : Option (Proc P)) => y.elim 0 Proc.kpages) s.proc p x

omit [Fintype P] in
theorem uframes_update (s : State P) (p : P) (x : Option (Proc P)) (q : P) :
    ({ s with proc := update s.proc p x } : State P).uframes q =
      if q = p then x.elim 0 fun pr => pr.pgdir.uframes else s.uframes q := by
  by_cases hqp : q = p
  · subst hqp
    simp [State.uframes]
  · simp [State.uframes, hqp]

omit [Fintype P] in
theorem ShareInv.openMap (h : ShareInv s g) {new : Option Page} {b : Bool}
    (hpr : s.proc p = some pr) (hp : (s.live p).isSome) (hpc : s.pc p = .openMap id new) :
    ShareInv { s.goto p (.openRead id new) with
        kmem := k
        proc := update s.proc p (some { pr with pgdir := pd }) }
      { g with sh := update g.sh p (g.sh p + if b then {new.getD (s.pages id).frame} else 0) } := by
  have hopen : s.reaped id = false := h.opening p id (by rw [hpc]; exact ⟨rfl, rfl⟩)
  have hhas := h.has hpc
  refine h.move (.openRead id new) rfl rfl ?_ hp (by simp) (fun _ _ hw => hw) ?_ ?_ h.nonzero
    (fun _ => .inl rfl) (fun id' w hw => .inl (by rw [hpc]; exact hw)) ?_
  · intro q hq
    by_cases hqp : q = p
    · subst hqp
      obtain ⟨pr', hpr', hz⟩ := live_iff.1 hq
      rw [hpr, Option.some.injEq] at hpr'
      exact live_iff.2 ⟨_, update_self .., hpr' ▸ hz⟩
    · rwa [live_congr (update_of_ne hqp _ _)]
  · intro w hw q
    have hold := h.counted w hw q
    have hw₀ : w ≠ 0 := fun hz => h.nonzero (hz ▸ hw)
    rw [State.bound] at hold ⊢
    by_cases hqp : q = p
    · subst hqp
      simp only [State.goto, update_self, count_add]
      by_cases hwf : w = new.getD (s.pages id).frame
      · -- the frame that is mapped is one of this id
        have hid : g.label w = id := by
          rw [hwf] at hw₀ ⊢
          exact (hhas.resolve_left hw₀).2
        rw [hid, hopen, hpc] at hold
        simp only [hid, hopen, Pc.mapped, if_false, Bool.false_eq_true] at hold ⊢
        have hone : (if b then {new.getD (s.pages id).frame} else 0 : Multiset Page).count w ≤ 1 := by
          cases b <;> simp [hwf]
        simp
        omega
      · have hzero : (if b then {new.getD (s.pages id).frame} else 0 : Multiset Page).count w = 0 := by
          cases b <;> simp [hwf]
        rw [hzero]
        refine hold.trans ?_
        split
        · exact le_rfl
        · simp [hpc, Pc.mapped]
    · simpa [State.goto, hqp] using hold
  · intro q w hw
    by_cases hqp : q = p
    · subst hqp
      simp only [update_self, mem_add] at hw
      obtain hw | hw := hw
      · exact h.mapped q w hw
      · cases b with
        | false => simp at hw
        | true =>
          obtain rfl := mem_singleton.1 hw
          exact hhas.imp_right And.left
    · simp only [update_of_ne hqp] at hw
      exact h.mapped q w hw
  · rintro _ ⟨-, ⟨⟩⟩
    exact hopen

theorem FrameInv.openMap (h : FrameInv L M s g) {new : Option Page} {F : Multiset Page}
    (hpr : s.proc p = some pr) (hg : Grown s.kmem pr.pgdir k pd F) :
    FrameInv L M { s.goto p (.openRead id new) with
        kmem := k
        proc := update s.proc p (some { pr with pgdir := pd }) }
      { g with sh := update g.sh p (g.sh p + F) } := by
  obtain ⟨T, hfree, hkp, -⟩ := hg.tables
  have hkpages := kpages_update s p (some { pr with pgdir := pd })
  rw [hpr, elim_some, elim_some, Proc.kpages, Proc.kpages, hkp] at hkpages
  refine ⟨⟨hg.ok h.held.ok, ?_⟩, ?_, fun q => ?_, h.fault⟩
  · rw [← h.held.total, hfree]
    have hkp' : ({ s with proc := update s.proc p (some { pr with pgdir := pd }) } :
        State P).kpages = s.kpages + T := by
      apply add_right_cancel (b := {pr.kstack} + pr.pgdir.kpages)
      rw [hkpages]
      abel
    change (k.freelist : Multiset Page) + (State.kpages { s with proc := _ } + _ + _) = _
    rw [hkp', kept]
    abel
  · intro q pr' hq
    by_cases hqp : q = p
    · subst hqp
      simp only [update_self, Option.some.injEq] at hq
      exact hq ▸ h.size q pr hpr
    · exact h.size q pr' ((update_of_ne hqp _ _).symm.trans hq)
  · change State.uframes { s with proc := _ } q = _
    rw [uframes_update]
    by_cases hqp : q = p
    · subst hqp
      have hsplit := h.split q
      rw [State.uframes, hpr, elim_some] at hsplit
      dsimp only
      rw [if_pos rfl, elim_some, update_self, hg.frames, hsplit, add_assoc]
    · dsimp only
      rw [if_neg hqp, update_of_ne hqp]
      exact h.split q

/-! ### `fork`, `exit` and `wait` -/

theorem FrameInv.fork (hM : M.Nodup) (h : FrameInv L M s g) (hS : ShareInv s g)
    (hpr : s.proc p = some pr) (hc : s.proc c = none) : Inv L M (SharedMem.fork L s p c pr) := by
  obtain heq | ⟨f, heq, hf⟩ | ⟨k, heq, hheld⟩ | ⟨kstack, d, k, heq, hheld⟩ :=
    fork_held (p := p) (c := c) hM h.held (h.size p pr hpr)
  · rw [heq]
    exact ⟨g, h, hS⟩
  · rw [heq]
    exact ⟨g, h.stop hf, hS.stop f⟩
  · rw [heq]
    exact ⟨g, ⟨hheld, h.size, h.split, h.fault⟩,
      hS.same rfl rfl rfl rfl (fun _ _ hq => hq) rfl rfl rfl⟩
  · have hnone : g.own c = 0 ∧ g.sh c = 0 := by
      have hsplit := h.split c
      rw [State.uframes, hc, elim_none] at hsplit
      exact add_eq_zero.1 hsplit.symm
    rw [heq]
    refine ⟨{ g with own := update g.own c d.uframes },
      ⟨hheld.congr ?_, ?_, fun q => ?_, h.fault⟩, hS.same rfl rfl rfl rfl ?_ rfl rfl rfl⟩
    · have hkp := kpages_update s c (some ⟨false, some p, pr.sz, d, kstack⟩)
      have hown := sum_update_add (fun _ (U : Multiset Page) => U) g.own c d.uframes
      rw [hnone.1, add_zero] at hown
      rw [hc, elim_none, elim_some, add_zero, Proc.kpages] at hkp
      change _ = State.kpages { s with proc := _ } + ∑ q, update g.own c d.uframes q + g.shared
      rw [hkp, hown, kept, Pgdir.all]
      abel
    · intro q pr' hq
      by_cases hqc : q = c
      · subst hqc
        simp only [update_self, Option.some.injEq] at hq
        exact hq ▸ h.size p pr hpr
      · exact h.size q pr' ((update_of_ne hqc _ _).symm.trans hq)
    · change State.uframes { s with proc := _ } q = _
      rw [uframes_update]
      by_cases hqc : q = c
      · subst hqc
        dsimp only
        rw [if_pos rfl, elim_some, update_self, hnone.2, add_zero]
      · dsimp only
        rw [if_neg hqc, update_of_ne hqc]
        exact h.split q
    · intro q _ hq
      have hqc : q ≠ c := by
        rintro rfl
        obtain ⟨pr', hpr', -⟩ := live_iff.1 hq
        rw [hc] at hpr'
        cases hpr'
      rwa [live_congr (update_of_ne hqc _ _)]

theorem FrameInv.exit {initproc : P} (h : FrameInv L M s g) (hS : ShareInv s g)
    (hpc : s.pc p = .user) : Inv L M (SharedMem.exit initproc s p) := by
  unfold SharedMem.exit
  split
  · exact ⟨g, h.stop (by simp), hS.stop _⟩
  · refine ⟨g, ⟨h.held.congr ?_, ?_, fun q => ?_, h.fault⟩,
      hS.same rfl rfl rfl rfl ?_ rfl rfl rfl⟩
    · rw [kept, kept]
      congr 2
      refine Finset.sum_congr rfl fun q _ => ?_
      dsimp only
      cases s.proc q <;> rfl
    · intro q pr' hq
      obtain ⟨pr, hpr, rfl⟩ := map_eq_some_iff.1 hq
      exact h.size q pr hpr
    · rw [← h.split, State.uframes, State.uframes]
      dsimp only
      cases s.proc q <;> rfl
    · intro q hq hlive
      have hqp : q ≠ p := by
        rintro rfl
        exact hq hpc
      obtain ⟨pr, hpr, hz⟩ := live_iff.1 hlive
      exact live_iff.2 ⟨_, by dsimp only; rw [hpr]; rfl, by simp [hz, hqp]⟩

omit [DecidableEq P] [Fintype P] in
theorem ShareInv.user_of_zombie (h : ShareInv s g) (hpr : s.proc c = some pr)
    (hz : pr.zombie = true) : s.pc c = .user := by
  by_contra hne
  obtain ⟨pr', hpr', hz'⟩ := live_iff.1 (h.live c hne)
  rw [hpr, Option.some.injEq] at hpr'
  rw [hpr', hz'] at hz
  cases hz

omit [DecidableEq P] [Fintype P] in
theorem MayReap.bound_eq_zero (h : MayReap s c) {q : P} (hr : s.reaped id = false)
    (ho : 0 < s.opens c id) (hqc : q ≠ c) : s.bound q id = 0 := by
  obtain hr' | ⟨-, hothers⟩ := h id ho
  · rw [hr] at hr'
    cases hr'
  · obtain ⟨hzero, hnot⟩ := hothers q hqc
    have hmapped : (s.pc q).mapped id = 0 := by
      by_contra hm
      exact hnot (Pc.opening_of_mapped hm)
    simp [State.bound, hzero, hmapped]

omit [DecidableEq P] [Fintype P] in
theorem ShareInv.alone (h : ShareInv s g) (hpr : s.proc c = some pr) (hz : pr.zombie = true)
    (hok : MayReap s c) (hv : v ∈ g.shared) (hpos : v ∈ g.sh c) :
    s.reaped (g.label v) = false ∧ s.opens c (g.label v) = 1 ∧ (g.sh c).count v = 1 := by
  have hc := h.counted v hv c
  have hcount := count_pos.2 hpos
  have hreaped : s.reaped (g.label v) = false := by
    by_contra hr
    rw [State.bound, if_pos (by simpa using hr)] at hc
    omega
  rw [State.bound, if_neg (by simp [hreaped]), h.user_of_zombie hpr hz,
    show Pc.user.mapped (g.label v) = 0 from rfl, add_zero] at hc
  obtain hr | ⟨hone, -⟩ := hok (g.label v) (by omega)
  · rw [hreaped] at hr
    cases hr
  · exact ⟨hreaped, hone, by omega⟩

omit [DecidableEq P] [Fintype P] in
theorem ShareInv.count_le (h : ShareInv s g) (hpr : s.proc c = some pr) (hz : pr.zombie = true)
    (hok : MayReap s c) (hv : v ≠ 0) : (g.sh c).count v ≤ g.shared.count v := by
  by_cases hmem : v ∈ g.sh c
  · have hsh := (h.mapped c v hmem).resolve_left hv
    rw [(h.alone hpr hz hok hsh hmem).2.2]
    exact count_pos.2 hsh
  · rw [count_eq_zero_of_notMem hmem]
    exact Nat.zero_le _

omit [Fintype P] in
theorem wait_cases (L : Layout) (s : State P) (c : P) (pr : Proc P) :
    (∃ f, SharedMem.wait L s c pr = s.stop f ∧ (kfree L pr.kstack s.kmem = .error f ∨
      ∃ k, kfree L pr.kstack s.kmem = .ok k ∧ freevm L k pr.pgdir = .error f)) ∨
    ∃ k, SharedMem.wait L s c pr = { s with
        kmem := k
        proc := update s.proc c none
        reaped := fun id => s.reaped id || decide (0 < s.opens c id) } ∧
      s.kmem.Released k (pr.kpages + pr.pgdir.uframes) ∧ (∀ v ∈ pr.pgdir.uframes, L.kend ≤ v) ∧
      (s.kmem.Ok L → k.Ok L) := by
  unfold SharedMem.wait
  split
  · rename_i f hf
    exact .inl ⟨f, rfl, .inl hf⟩
  · rename_i k₁ hk₁
    split
    · rename_i f hf
      exact .inl ⟨f, rfl, .inr ⟨k₁, hk₁, hf⟩⟩
    · rename_i k₂ hk₂
      have hrel := (kfree_released hk₁).trans (freevm_released hk₂)
      rw [← add_assoc, add_right_comm] at hrel
      exact .inr ⟨k₂, rfl, hrel, freevm_managed hk₂, fun hk => freevm_ok (hk.kfree hk₁) hk₂⟩

/-- The ghosts after `c` has been reaped. -/
def Owners.reap (g : Owners P) (c : P) : Owners P :=
  { g with own := update g.own c 0, sh := update g.sh c 0, shared := g.shared - g.sh c }

theorem kept_eq (hpr : s.proc c = some pr) : kept s g = pr.kpages + g.own c +
    (State.kpages { s with proc := update s.proc c none } + ∑ q, update g.own c 0 q + g.shared) := by
  have hkp := kpages_update s c none
  have hown := sum_update_add (fun _ (U : Multiset Page) => U) g.own c 0
  rw [hpr, elim_some, elim_none, add_zero] at hkp
  rw [add_zero] at hown
  rw [kept, ← hkp, ← hown]
  abel

theorem FrameInv.freevm_error (hM : M.Nodup) (h : FrameInv L M s g) (hS : ShareInv s g)
    (hpr : s.proc c = some pr) (hcount : ∀ v, v ≠ 0 → (g.sh c).count v ≤ g.shared.count v)
    {f : Fault} (hk : kfree L pr.kstack s.kmem = .ok k) (hf : freevm L k pr.pgdir = .error f) :
    f = .kfree := by
  have hsplit := h.split c
  rw [State.uframes, hpr, elim_some] at hsplit
  have hone : ∀ v, (kept s g).count v ≤ 1 := by
    have hnd := hM
    rw [← h.held.total, nodup_add] at hnd
    exact nodup_iff_count_le_one.1 hnd.2.1
  simp only [kept_eq hpr, Proc.kpages, count_add] at hone
  refine Mem.freevm_error ?_ ?_ hf
  · intro v hv
    have hv₁ := hone v
    have hv₂ := hcount v (L.kend_ne_zero hv)
    rw [hsplit, count_add, count_add]
    omega
  · intro v hv
    rw [← mem_coe, (kfree_released hk).free, mem_add, mem_singleton, not_or]
    refine ⟨?_, ?_⟩
    · rintro rfl
      have hv₁ := hone pr.kstack
      have hv₂ := hcount _ (L.kend_ne_zero (kfree_managed hk))
      have hpos := count_pos.2 hv
      rw [count_singleton_self] at hv₁
      rw [hsplit, count_add, count_add] at hpos
      omega
    · obtain hv | hv := mem_add.1 hv
      · refine h.notMem_of_mapped hM hS (p := c) ?_
        rwa [State.uframes, hpr]
      · refine h.notMem hM ?_
        rw [kept_eq hpr, Proc.kpages]
        exact mem_add.2 (.inl (mem_add.2 (.inl (mem_add.2 (.inr hv)))))

theorem FrameInv.reap (h : FrameInv L M s g) (hpr : s.proc c = some pr)
    (hcount : ∀ v, v ≠ 0 → (g.sh c).count v ≤ g.shared.count v) (hk : k.Ok L)
    (hrel : s.kmem.Released k (pr.kpages + pr.pgdir.uframes))
    (hman : ∀ v ∈ pr.pgdir.uframes, L.kend ≤ v) (reaped : Id → Bool) :
    FrameInv L M { s with kmem := k, proc := update s.proc c none, reaped := reaped }
      (g.reap c) := by
  have hsplit := h.split c
  rw [State.uframes, hpr, elim_some] at hsplit
  have hle : g.sh c ≤ g.shared := by
    rw [le_iff_count]
    intro v
    by_cases hv : v = 0
    · have hnot : v ∉ g.sh c := by
        intro hmem
        refine L.kend_ne_zero (hman v ?_) hv
        rw [hsplit]
        exact mem_add.2 (.inr hmem)
      rw [count_eq_zero_of_notMem hnot]
      exact Nat.zero_le _
    · exact hcount v hv
  refine ⟨⟨hk, ?_⟩, ?_, fun q => ?_, h.fault⟩
  · rw [← h.held.total, hrel.free, kept_eq hpr, hsplit]
    change _ + (State.kpages { s with proc := _ } + ∑ q, update g.own c 0 q + (g.shared - g.sh c)) = _
    have hshared := add_tsub_cancel_of_le hle
    generalize g.shared - g.sh c = rest at hshared ⊢
    rw [← hshared]
    abel
  · intro q pr' hq
    by_cases hqc : q = c
    · subst hqc
      simp at hq
    · exact h.size q pr' ((update_of_ne hqc _ _).symm.trans hq)
  · change State.uframes { s with proc := _ } q = update g.own c 0 q + update g.sh c 0 q
    rw [uframes_update]
    by_cases hqc : q = c
    · rw [if_pos hqc, hqc, update_self, update_self]
      rfl
    · rw [if_neg hqc, update_of_ne hqc, update_of_ne hqc]
      exact h.split q

omit [Fintype P] in
theorem ShareInv.reap (h : ShareInv s g) (hpr : s.proc c = some pr) (hz : pr.zombie = true)
    (hok : MayReap s c) : ShareInv { s with
        kmem := k
        proc := update s.proc c none
        reaped := fun id => s.reaped id || decide (0 < s.opens c id) } (g.reap c) := by
  have hsub : ∀ {v}, v ∈ g.shared - g.sh c → v ∈ g.shared := fun hv => mem_of_le (tsub_le_self) hv
  have hin : ∀ {v}, v ∈ g.shared → v ∉ g.sh c → v ∈ g.shared - g.sh c := by
    intro v hv hnot
    rw [mem_sub, count_eq_zero_of_notMem hnot]
    exact count_pos.2 hv
  -- frames of an id that stays open are not freed
  have hkeep : ∀ id w, s.opens c id = 0 → g.Has id w → (g.reap c).Has id w := by
    rintro id w ho (rfl | ⟨hw, rfl⟩)
    · exact .inl rfl
    · refine .inr ⟨?_, rfl⟩
      refine hin hw fun hmem => ?_
      have := (h.alone hpr hz hok hw hmem).2.1
      omega
  -- nobody is about to open a page of the child
  have hstays : ∀ q id, (s.pc q).opening id → s.reaped id = false ∧ s.opens c id = 0 := by
    intro q id hid
    have hr := h.opening q id hid
    refine ⟨hr, ?_⟩
    by_contra ho
    obtain hr' | ⟨-, hothers⟩ := hok id (Nat.pos_of_ne_zero ho)
    · rw [hr] at hr'
      cases hr'
    · refine (hothers q ?_).2 hid
      rintro rfl
      rw [h.user_of_zombie hpr hz] at hid
      cases hid.1
  have hreaped : ∀ id, (s.reaped id || decide (0 < s.opens c id)) = false →
      s.reaped id = false ∧ s.opens c id = 0 := by
    intro id hid
    simpa using hid
  refine ⟨fun q hq => ?_, h.kept, fun w hw q => ?_, fun q w hw => ?_, fun hzero =>
    h.nonzero (hsub hzero), fun id hid => ?_, fun q id w hw => ?_, fun q id hid => ?_⟩
  · have hqc : q ≠ c := by
      rintro rfl
      exact hq (h.user_of_zombie hpr hz)
    rw [live_congr (update_of_ne hqc _ _)]
    exact h.live q hq
  · have hle := h.counted w (hsub hw) q
    change (update g.sh c 0 q).count w ≤ _
    by_cases hqc : q = c
    · rw [hqc, update_self, count_zero]
      exact Nat.zero_le _
    · rw [update_of_ne hqc]
      refine hle.trans ?_
      change s.bound q (g.label w) ≤ if (s.reaped (g.label w) || _) = true then 0 else _
      rw [State.bound]
      by_cases hr : s.reaped (g.label w) = true
      · simp [hr]
      · by_cases ho : 0 < s.opens c (g.label w)
        · have hzero := hok.bound_eq_zero (by simpa using hr) ho hqc
          rw [State.bound, if_neg hr] at hzero
          rw [if_neg hr, hzero]
          exact Nat.zero_le _
        · simp [hr, ho, Owners.reap]
  · change w ∈ update g.sh c 0 q at hw
    by_cases hqc : q = c
    · rw [hqc, update_self] at hw
      cases hw
    · rw [update_of_ne hqc] at hw
      refine (h.mapped q w hw).imp_right fun hsh => ?_
      have hnot : w ∉ g.sh c := by
        intro hmem
        obtain ⟨hr, ho, -⟩ := h.alone hpr hz hok hsh hmem
        have hle := h.counted w hsh q
        rw [hok.bound_eq_zero hr (by omega) hqc] at hle
        have := count_pos.2 hw
        omega
      exact hin hsh hnot
  · obtain ⟨hr, ho⟩ := hreaped id hid
    exact hkeep id _ ho (h.frame id hr)
  · exact hkeep id w (hstays q id (Pc.opening_of_new hw)).2 (h.new q id w hw)
  · obtain ⟨hr, ho⟩ := hstays q id hid
    simp [hr, ho]

theorem FrameInv.wait (hM : M.Nodup) (h : FrameInv L M s g) (hS : ShareInv s g)
    (hpr : s.proc c = some pr) (hz : pr.zombie = true) (hok : MayReap s c) :
    Inv L M (SharedMem.wait L s c pr) := by
  have hcount : ∀ v, v ≠ 0 → (g.sh c).count v ≤ g.shared.count v :=
    fun v hv => hS.count_le hpr hz hok hv
  obtain ⟨f, hwait, hf | ⟨k₁, hk₁, hf⟩⟩ | ⟨k, hwait, hrel, hman, hk⟩ := wait_cases L s c pr
  · have hstack : pr.kstack ∉ s.kmem.freelist := by
      refine h.notMem hM ?_
      rw [kept_eq hpr, Proc.kpages]
      exact mem_add.2 (.inl (mem_add.2 (.inl (mem_add.2 (.inl (mem_singleton_self _))))))
    rw [hwait, kfree_error hstack hf]
    exact ⟨g, h.stop (by decide), hS.stop _⟩
  · rw [hwait, h.freevm_error hM hS hpr hcount hk₁ hf]
    exact ⟨g, h.stop (by decide), hS.stop _⟩
  · rw [hwait]
    exact ⟨g.reap c, h.reap hpr hcount (hk h.held.ok) hrel hman _, hS.reap hpr hz hok⟩

/-! ### All steps -/

omit [Fintype P] in
theorem guard_of_step {initproc : P} {a : Act P} (hst : SharedMem.step L initproc s a = some t) :
    match a with
    | .openCall p _ | .closeCall p _ | .next p _ | .fork p _ => (s.live p).isSome
    | .exit p => (s.live p).isSome ∧ s.pc p = .user
    | .wait _ c => ∀ pr, s.proc c = some pr → pr.zombie = true := by
  unfold SharedMem.step at hst
  split at hst
  · cases hst
  · cases a with
    | openCall p id | closeCall p id => exact (ite_none_right_eq_some.1 hst).1.1
    | next p va =>
      obtain ⟨pr, hpr, -⟩ := bind_eq_some_iff.1 hst
      exact isSome_of_eq_some hpr
    | fork p c =>
      obtain ⟨-, ht⟩ := ite_none_right_eq_some.1 hst
      obtain ⟨pr, hpr, -⟩ := map_eq_some_iff.1 ht
      exact isSome_of_eq_some hpr
    | exit p => exact (ite_none_right_eq_some.1 hst).1
    | wait p c =>
      intro pr hpr
      obtain ⟨-, ht⟩ := ite_none_right_eq_some.1 hst
      rw [hpr] at ht
      exact (ite_none_right_eq_some.1 ht).1.1

omit [DecidableEq P] [Fintype P] in
theorem ShareInv.opening_of_pc (h : ShareInv s g) {pc : Pc} (hpc : s.pc p = pc) (hopens : pc.opens = true)
    (hid : pc.id? = some id) : s.reaped id = false :=
  h.opening p id (by rw [hpc]; exact ⟨hopens, hid⟩)

theorem inv_next {va : Page} (hM : M.Nodup) (hF : FrameInv L M s g) (h : ShareInv s g)
    (hva : UnmappedVa s (.next p va)) (hok : Careful s (.next p va)) (hpr : s.proc p = some pr)
    (hp : (s.live p).isSome) (hn : SharedMem.next L s p pr va = some t) : Inv L M t := by
  unfold UnmappedVa at hva
  unfold Careful at hok
  unfold SharedMem.next at hn
  cases hpc : s.pc p with
  | user => simp [hpc] at hn
  | openTest id =>
    simp only [hpc, Option.some.injEq] at hn
    subst hn
    have hopen := h.opening_of_pc hpc rfl rfl
    split <;> refine ⟨g, hF.same rfl rfl rfl, h.pc _ rfl rfl rfl rfl (fun _ => rfl) hp (by simp)
      (by simp [hpc, Pc.mapped]) (by simp [Pc.new?]) ?_⟩ <;>
    · rintro _ ⟨-, ⟨⟩⟩
      exact hopen
  | openAlloc id =>
    simp only [hpc, Option.some.injEq] at hn
    subst hn
    exact hF.openAlloc hM h hp hpc
  | openMap id new =>
    simp only [hpc, Option.some.injEq] at hn hva
    subst hn
    unfold SharedMem.openMap
    split
    · rename_i f hf
      have hremap := mappages_error hf
      exact ⟨g, hF.stop (by simp [hremap]), h.stop f⟩
    · rename_i b k pd hmap
      have hg := mappages_page hva.1 hmap
      rw [P2V_V2P] at hg
      exact ⟨_, hF.openMap hpr hg, h.openMap hpr hp hpc⟩
  | openRead id new =>
    simp only [hpc, Option.some.injEq] at hn
    subst hn
    refine ⟨g, hF.same rfl rfl rfl, h.pc _ rfl rfl rfl rfl (fun _ => rfl) hp (by simp)
      (by simp [hpc, Pc.mapped]) (by simp [hpc, Pc.new?]) ?_⟩
    rintro _ ⟨-, ⟨⟩⟩
    exact h.opening_of_pc hpc rfl rfl
  | openWrite id new n =>
    simp only [hpc, Option.some.injEq] at hn
    subst hn
    have hopen := h.opening_of_pc hpc rfl rfl
    -- what was mapped is counted now
    have hcount : ∀ id', s.opens p id' + (s.pc p).mapped id' ≤
        update (s.opens p) id (s.opens p id + 1) id' := by
      intro id'
      by_cases hid : id' = id
      · subst hid
        simp [hpc, Pc.mapped]
      · simp [hpc, Pc.mapped, hid]
    have hframe : ∀ id', (update s.pages id { s.pages id with refCount := incr n } id').frame =
        (s.pages id').frame := by
      intro id'
      by_cases hid : id' = id
      · subst hid
        rw [update_self]
      · rw [update_of_ne hid]
    cases new with
    | none =>
      refine ⟨g, hF.same rfl rfl rfl, h.goto (.openDone id) rfl rfl rfl hp
        (fun q hq => update_of_ne hq _ _) (by simp) (fun id' => ?_) (fun id' => .inl (hframe id'))
        (by simp [Pc.new?]) ?_⟩
      · simpa [SharedMem.openWrite, Pc.mapped] using hcount id'
      · rintro _ ⟨-, ⟨⟩⟩
        exact hopen
    | some w =>
      refine ⟨g, hF.same rfl rfl rfl, h.goto (.openFrame id w) rfl rfl rfl hp
        (fun q hq => update_of_ne hq _ _) (by simp) (fun id' => ?_) (fun id' => .inl (hframe id'))
        (by simp [hpc, Pc.new?]) ?_⟩
      · simpa [SharedMem.openWrite, Pc.mapped] using hcount id'
      · rintro _ ⟨-, ⟨⟩⟩
        exact hopen
  | openFrame id w =>
    simp only [hpc, Option.some.injEq] at hn
    subst hn
    refine ⟨g, hF.same rfl rfl rfl, h.goto (.openDone id) rfl rfl rfl hp (fun _ _ => rfl) (by simp)
      (by simp [hpc, Pc.mapped, State.goto]) (fun id' => ?_) (by simp [Pc.new?]) ?_⟩
    · by_cases hid : id' = id
      · subst hid
        simp [hpc, Pc.new?]
      · simp [hid]
    · rintro _ ⟨-, ⟨⟩⟩
      exact h.opening_of_pc hpc rfl rfl
  | openDone id =>
    simp only [hpc, Option.some.injEq] at hn
    subst hn
    exact ⟨g, hF.same rfl rfl rfl, h.pc _ rfl rfl rfl rfl (fun _ => rfl) hp (by simp)
      (by simp [hpc, Pc.mapped]) (by simp [Pc.new?]) fun _ hid => absurd hid.1 (by simp [Pc.opens])⟩
  | closeRead id =>
    simp only [hpc, Option.some.injEq] at hn
    subst hn
    exact ⟨g, hF.same rfl rfl rfl, h.pc _ rfl rfl rfl rfl (fun _ => rfl) hp (by simp)
      (by simp [hpc, Pc.mapped]) (by simp [Pc.new?]) fun _ hid => absurd hid.1 (by simp [Pc.opens])⟩
  | closeWrite id n =>
    simp only [hpc, Option.some.injEq] at hn
    subst hn
    refine ⟨g, hF.same rfl rfl rfl, h.pc _ rfl rfl rfl rfl (fun id' => ?_) hp (by simp)
      (by simp [hpc, Pc.mapped]) (by simp [Pc.new?]) fun _ hid => absurd hid.1 (by simp [Pc.opens])⟩
    by_cases hid : id' = id
    · subst hid
      simp [SharedMem.closeWrite]
    · simp [SharedMem.closeWrite, hid]
  | closeTest id =>
    simp only [hpc, Option.some.injEq] at hn hok
    subst hn
    rw [if_neg hok]
    exact ⟨g, hF.same rfl rfl rfl, h.pc _ rfl rfl rfl rfl (fun _ => rfl) hp (by simp)
      (by simp [hpc, Pc.mapped]) (by simp [Pc.new?]) fun _ hid => absurd hid.1 (by simp [Pc.opens])⟩
  | closeFree id => exact absurd hpc (h.kept p id)

theorem inv_step {initproc : P} {a : Act P} (hM : M.Nodup) (h : Inv L M s) (hva : UnmappedVa s a)
    (hok : Careful s a) (hst : SharedMem.step L initproc s a = some t) : Inv L M t := by
  obtain ⟨g, hF, hS⟩ := h
  have hguard := guard_of_step hst
  obtain ⟨-, hm⟩ := moves_of_step hst
  cases hm with
  | openCall hp _ =>
    refine ⟨g, hF.same rfl rfl rfl, hS.pc _ rfl rfl rfl rfl (fun _ => rfl) hguard (by simp)
      (by simp [hp, Pc.mapped]) (by simp [Pc.new?]) ?_⟩
    rintro _ ⟨-, ⟨⟩⟩
    exact hok
  | closeCall hp =>
    exact ⟨g, hF.same rfl rfl rfl, hS.pc _ rfl rfl rfl rfl (fun _ => rfl) hguard (by simp)
      (by simp [hp, Pc.mapped]) (by simp [Pc.new?]) fun _ hid => absurd hid.1 (by simp [Pc.opens])⟩
  | fork hpr hc => exact hF.fork hM hS hpr hc
  | exit => exact hF.exit hS hguard.2
  | wait hpr => exact hF.wait hM hS hpr (hguard _ hpr) hok
  | next hpr hn => exact inv_next hM hF hS hva hok hpr hguard hn

/-! ## Free pages and mapped pages -/

omit [Fintype P] in
theorem last_close_frees {initproc : P} {va va' : Page} {u : State P}
    (hpc : s.pc p = .closeTest id) (hzero : (s.pages id).refCount = 0)
    (hst : SharedMem.step L initproc s (.next p va) = some t)
    (hst' : SharedMem.step L initproc t (.next p va') = some u) :
    u.fault ≠ none ∨ (s.pages id).frame ∈ u.kmem.freelist ∧ ∀ q v, u.maps q v = s.maps q v := by
  obtain ⟨-, hm⟩ := moves_of_step hst
  obtain ⟨-, hm'⟩ := moves_of_step hst'
  cases hm with
  | next hpr hn =>
    simp only [SharedMem.next, hpc, if_pos hzero, Option.some.injEq] at hn
    subst hn
    cases hm' with
    | next hpr' hn' =>
      have hfree : (s.goto p (.closeFree id)).pc p = .closeFree id := update_self ..
      simp only [SharedMem.next, hfree, Option.some.injEq, SharedMem.closeFree] at hn'
      subst hn'
      split
      · exact .inl (by simp [State.stop])
      · rename_i k hk
        refine .inr ⟨?_, fun _ _ => rfl⟩
        rw [← mem_coe]
        exact (kfree_released hk).free ▸ mem_add.2 (.inl (mem_singleton_self _))

omit [Fintype P] in
theorem wait_frees {initproc : P} {q : P} (hst : SharedMem.step L initproc s (.wait p c) = some t)
    (hc : 0 < s.maps c v) (hqc : q ≠ c) :
    t.fault ≠ none ∨ v ∈ t.kmem.freelist ∧ t.maps q v = s.maps q v := by
  obtain ⟨-, hm⟩ := moves_of_step hst
  cases hm with
  | @wait _ _ pr hpr =>
    obtain ⟨f, hwait, -⟩ | ⟨k, hwait, hrel, -⟩ := wait_cases L s c pr
    · rw [hwait]
      exact .inl (by simp [State.stop])
    · rw [hwait]
      refine .inr ⟨?_, ?_⟩
      swap
      · rw [State.maps, State.maps]
        dsimp only
        rw [update_of_ne hqc]
      have hmem : v ∈ pr.pgdir.uframes := by
        rw [State.maps, hpr] at hc
        exact count_pos.1 hc
      rw [← mem_coe, hrel.free]
      exact mem_add.2 (.inl (mem_add.2 (.inr hmem)))

end Steps

/-- **When the allocator and the page tables agree.**  In every run of the five
calls in which the address `open` maps to is unmapped and callers are `Careful`, in
every state reached: no page on the free list is mapped in the user part of a
process, living or zombie, and no page has been freed twice.  What they avoid is what goes wrong:
a `close` that brings the count to 0 frees the frame under those who map it, and so does `wait`
for a child that maps a frame which somebody else maps, unless the machine stops there. -/
theorem frames_stay_apart [Fintype P] {L : Layout} {initproc : P} {s : State P}
    (h : (system L initproc).Reach (fun s a => UnmappedVa s a ∧ Careful s a) s) :
    ((∀ q pr a e, s.proc q = some pr → a < KERNBASE → pr.pgdir.lookup a = some e →
      P2V e.pa ∉ s.kmem.freelist) ∧ s.fault ≠ some .doubleFree) ∧
    (∀ p id va va' t u, s.pc p = .closeTest id → (s.pages id).refCount = 0 →
      step L initproc s (.next p va) = some t → step L initproc t (.next p va') = some u →
      u.fault ≠ none ∨ (s.pages id).frame ∈ u.kmem.freelist ∧ ∀ q v, u.maps q v = s.maps q v) ∧
    ∀ p c q v t, step L initproc s (.wait p c) = some t → 0 < s.maps c v → q ≠ c →
      t.fault ≠ none ∨ v ∈ t.kmem.freelist ∧ t.maps q v = s.maps q v := by
  obtain ⟨M, hM, g, hF, hS⟩ : ∃ M : Multiset Page, M.Nodup ∧ Inv L M s := by
    refine Lts.Reach.invariant (I := fun s => ∃ M : Multiset Page, M.Nodup ∧ Inv L M s) ?_ ?_ h
    · exact fun s hs => inv_initial hs
    · rintro s a t ⟨M, hM, hinv⟩ ⟨hva, hok⟩ hst
      exact ⟨M, hM, inv_step hM hinv hva hok hst⟩
  refine ⟨⟨?_, hF.fault⟩, ?_, ?_⟩
  · intro q pr a e hq ha he
    refine hF.notMem_of_mapped hM hS (p := q) ?_
    rw [State.uframes, hq]
    exact mem_uframes_of_lookup ha he
  · exact fun p id va va' t u hpc hzero hst hst' => last_close_frees hpc hzero hst hst'
  · exact fun p c q v t hst hc hqc => wait_frees hst hc hqc

/-- Process 0 opens shared page 0 twice and closes it once; process 1 opens page 1, exits and is
reaped. -/
theorem frames_stay_apart_open :
    ∃ s, (system smallLayout (0 : Fin 2)).Reach (fun s a => UnmappedVa s a ∧ Careful s a) s ∧
      s.reaped 1 = true ∧ (s.proc 1).isNone ∧ s.kmem.freelist.length = 4 ∧
      ∃ pr e, s.proc 0 = some pr ∧ pr.pgdir.lookup 2 = some e ∧ P2V e.pa = 0x80400 ∧
        (0x80400 : Page) ∉ s.kmem.freelist ∧ s.fault ≠ some .doubleFree := by
  have h₀ : (system smallLayout (0 : Fin 2)).Reach (fun s a => UnmappedVa s a ∧ Careful s a)
      twoProcs := .init initial_twoProcs
  obtain ⟨s, hs, hv⟩ := Lts.reach_of_exec_map
    (.openCall 0 0 :: List.replicate 7 (.next 0 1) ++ .openCall 1 1 :: List.replicate 7 (.next 1 1) ++
      .openCall 0 0 :: List.replicate 5 (.next 0 2) ++ .closeCall 0 0 :: List.replicate 3 (.next 0 0) ++
      [.exit 1, .wait 0 1])
    (fun s => (s.reaped 1, (s.proc 1).isNone, s.kmem.freelist.length,
      (s.proc 0).bind fun pr => (pr.pgdir.lookup 2).map fun e => P2V e.pa))
    (true, true, 4, some 0x80400) h₀ (by decide +kernel)
  simp only [Prod.mk.injEq, bind_eq_some_iff, map_eq_some_iff] at hv
  obtain ⟨hreaped, hgone, hlength, pr, hpr, e, he, hframe⟩ := hv
  obtain ⟨⟨hfree, hfault⟩, -⟩ := frames_stay_apart hs
  exact ⟨s, hs, hreaped, hgone, hlength, pr, e, hpr, he, hframe,
    hframe ▸ hfree 0 pr 2 e hpr (by decide) he, hfault⟩

/-- **The allocator and the page tables disagree.**  A process opens a shared page
and closes it: the frame is on the free list, and still mapped in the page table
of the running process.  When a child does the same and exits, its parent's `wait`
frees the frame a second time. -/
theorem close_leaves_mapping :
    (∃ s, (system smallLayout (0 : Fin 2)).Reach UnmappedVa s ∧
      ∃ pr e, s.proc 0 = some pr ∧ pr.zombie = false ∧ pr.pgdir.lookup 1 = some e ∧
        P2V e.pa ∈ s.kmem.freelist) ∧
    ∃ s, (system smallLayout (0 : Fin 2)).Reach UnmappedVa s ∧ s.fault = some .doubleFree := by
  have h₀ : (system smallLayout (0 : Fin 2)).Reach UnmappedVa twoProcs := .init initial_twoProcs
  refine ⟨?_, ?_⟩
  · obtain ⟨s, hs, hv⟩ := Lts.reach_of_exec_map
      (.openCall 0 0 :: List.replicate 7 (.next 0 1) ++ .closeCall 0 0 :: List.replicate 4 (.next 0 1))
      (fun s => (s.proc 0).bind fun pr => (pr.pgdir.lookup 1).map fun e =>
        (pr.zombie, decide (P2V e.pa ∈ s.kmem.freelist))) (some (false, true)) h₀ (by decide +kernel)
    simp only [bind_eq_some_iff, map_eq_some_iff, Prod.mk.injEq,
      decide_eq_true_eq] at hv
    obtain ⟨pr, hpr, e, he, hz, hfree⟩ := hv
    exact ⟨s, hs, pr, e, hpr, hz, he, hfree⟩
  · exact Lts.reach_of_exec_map
      (.openCall 1 0 :: List.replicate 7 (.next 1 1) ++
        .closeCall 1 0 :: List.replicate 4 (.next 1 1) ++ [.exit 1, .wait 0 1])
      (fun s => s.fault) (some .doubleFree) h₀ (by decide +kernel)

end Xv6.SharedMem
