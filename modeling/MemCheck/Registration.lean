import Mathlib.Data.List.Perm.Basic
import MemCheck.GuestCalls

/-!
# The Registration Protocol

The Linux allocator and the shadow memory are two states, updated at different moments. An
allocation wrapper first acquires a block and then registers it; a free wrapper first
unregisters its block and then gives it back. Between its two steps any other thread, or
an interrupt, may take any number of steps.

A wrapper call in progress is a `Job`. Any job may take its next step at any time, which
covers every interleaving of any number of threads. The allocator hands out blocks apart
from everything that has not been given back: the blocks the guest holds and those of the
jobs.

The protocol is free of races because a block is registered only while it has not been
given back: the registered blocks are always among the outstanding ones (`Protocol.apart`,
`Protocol.registered`), so a newly acquired block always finds room.

## Main results

* `Protocol.step`: one step of any job;
* `registration_race_free`: every interleaving.
-/

namespace MemCheck

/-! ### Jobs -/

/-- The free wrappers. `__free_pages` is given the order, `__pagevec_free` works through a
vector of single pages. -/
inductive FreeWrapper where
  | kfree
  | kmemCacheFree
  | doFreePages (order : Word32)
  | pagevecFree
  deriving DecidableEq, Repr

/-- The notification for one block. -/
def FreeWrapper.notify (b : Block) : FreeWrapper → Op
  | kfree => .freeMemory 0 b.address
  | kmemCacheFree => .freeMemory 0 b.address
  | doFreePages order => .freeSizeMemory 0 b.address (pagesSize order)
  | pagevecFree => .freeAnySizeMemory 0 b.address pageSize

/-- The wrapper is the matching one for the block, with the matching size. -/
def FreeWrapper.IsFor (b : Block) : FreeWrapper → Prop
  | kfree => b.family = .kfree
  | kmemCacheFree => b.family = .kmemCacheFree
  | doFreePages order => b.family = .freePages ∧ b.size = pagesSize order
  | pagevecFree => b.family = .freePages ∧ b.size = pageSize

/-- A wrapper call in progress: an allocation that has acquired its block, or a free with
the blocks left to do; `notified` says that the first of these is unregistered and only has
to be given back. -/
inductive Job where
  | allocating (c : AllocCall) (p : Addr32)
  | freeing (w : FreeWrapper) (todo : List Block) (notified : Bool)
  deriving DecidableEq, Repr

/-- The block an allocation wrapper delivers at `p`. -/
def AllocCall.block (c : AllocCall) (p : Addr32) : Block := ⟨p, c.size, c.family⟩

/-- The blocks of a job that have not been given back. -/
def Job.blocks : Job → List Block
  | allocating c p => [c.block p]
  | freeing _ todo _ => todo

/-- The blocks of a job that are registered. -/
def Job.registered : Job → List Block
  | allocating _ _ => []
  | freeing _ todo notified => if notified then todo.tail else todo

/-- The shadow memory, the blocks held by the guest, the wrapper calls in progress, and
the blocks whose `MemCheck_Alloc` has run and whose `MemCheck_Free` has not. -/
structure Registrar where
  shadow : ShadowMemory
  held : List Block
  jobs : List Job
  registered : List Block

/-- Nothing is allocated. -/
def Registrar.init : Registrar := ⟨ShadowMemory.empty, [], [], []⟩

/-- The steps of the wrappers. Steps of a job name its place in the list of jobs. -/
inductive RegistrarAct where
  | acquire (c : AllocCall) (r : Addr32)
  | notifyAlloc (i : ℕ)
  | startFree (w : FreeWrapper) (blocks : List Block)
  | notifyFree (i : ℕ)
  | giveBack (i : ℕ)
  deriving DecidableEq, Repr

/-- The block a step takes from the allocator. -/
def RegistrarAct.acquired : RegistrarAct → List Block
  | acquire c r => [c.block (c.result r)]
  | _ => []

namespace Registrar

/-- The blocks held and what `f` picks from the jobs. -/
def gather (g : Registrar) (f : Job → List Block) : List Block := g.held ++ g.jobs.flatMap f

/-- The blocks that have not been given back. -/
def outstanding (g : Registrar) : List Block := g.gather Job.blocks

/-- The shadow operation of a step, if it is a notification. -/
def notify (g : Registrar) : RegistrarAct → Option Op
  | .notifyAlloc i =>
      match g.jobs[i]? with
      | some (.allocating c p) => c.notify p
      | _ => none
  | .notifyFree i =>
      match g.jobs[i]? with
      | some (.freeing w (b :: _) false) => some (w.notify b)
      | _ => none
  | _ => none

/-- The shadow call of a step. -/
def shadowCall (B : ShadowMemory.Balancer) (g : Registrar) (a : RegistrarAct) : Option Call :=
  (g.notify a).map fun op => op.perform B g.shadow

/-- The shadow memory after a step. -/
def shadowAfter (B : ShadowMemory.Balancer) (g : Registrar) (a : RegistrarAct) :
    ShadowMemory :=
  match g.shadowCall B a with
  | some call => call.shadow
  | none => g.shadow

/-- One step of a wrapper. `__pagevec_free` works through its vector from the end. -/
def step (B : ShadowMemory.Balancer) (g : Registrar) (a : RegistrarAct) : Registrar :=
  match a with
  | .acquire c r => { g with jobs := .allocating c (c.result r) :: g.jobs }
  | .notifyAlloc i =>
      match g.jobs[i]? with
      | some (.allocating c p) =>
          ⟨g.shadowAfter B a, c.block p :: g.held, g.jobs.eraseIdx i,
            c.block p :: g.registered⟩
      | _ => g
  | .startFree w blocks =>
      { g with
        held := g.held.diff blocks
        jobs := .freeing w blocks.reverse false :: g.jobs }
  | .notifyFree i =>
      match g.jobs[i]? with
      | some (.freeing w (b :: rest) false) =>
          ⟨g.shadowAfter B a, g.held, g.jobs.set i (.freeing w (b :: rest) true),
            g.registered.erase b⟩
      | _ => g
  | .giveBack i =>
      match g.jobs[i]? with
      | some (.freeing w (_ :: rest) true) =>
          { g with jobs :=
              if rest = [] then g.jobs.eraseIdx i
              else g.jobs.set i (.freeing w rest false) }
      | _ => g

/-- One step, which rebalances in its own way. -/
def next (g : Registrar) (a : ShadowMemory.Balancer × RegistrarAct) : Registrar :=
  g.step a.1 a.2

/-- What the allocator promises and a correct guest does: a block handed out is not `NULL`
and not empty, ends below `2 ^ 32` and overlaps nothing outstanding; blocks are freed that
the guest holds, with the matching wrapper and size, one at a time except by
`__pagevec_free`. The other steps are taken by jobs that have them to take. -/
def Allowed (g : Registrar) : RegistrarAct → Prop
  | .acquire c r =>
      c.result r ≠ 0 ∧ c.size ≠ 0 ∧ (c.result r).toNat + c.size.toNat < 2 ^ 32 ∧
        ∀ b ∈ g.outstanding, ∀ q, b.entry.1.Covers q →
          ¬ (⟨c.result r, c.size⟩ : MemoryAlloc).Covers q
  | .notifyAlloc i => ∃ c p, g.jobs[i]? = some (.allocating c p)
  | .startFree w blocks =>
      blocks ≠ [] ∧ blocks.Subperm g.held ∧ (∀ b ∈ blocks, w.IsFor b) ∧
        (w ≠ .pagevecFree → blocks.length = 1)
  | .notifyFree i => ∃ w b rest, g.jobs[i]? = some (.freeing w (b :: rest) false)
  | .giveBack i => ∃ w b rest, g.jobs[i]? = some (.freeing w (b :: rest) true)

end Registrar

/-! ### Lists of blocks -/

/-- Blocks as the allocator hands them out: not at `NULL`, not empty, below `2 ^ 32`, and
no two of them overlapping. -/
structure Layout (L : List Block) : Prop where
  address : ∀ b ∈ L, b.address ≠ 0
  size : ∀ b ∈ L, b.size ≠ 0
  fits : ∀ b ∈ L, b.address.toNat + b.size.toNat < 2 ^ 32
  apart : L.Pairwise fun b c => ¬ b.entry.1.extent.Meets c.entry.1.extent

variable {L M : List Block} {b : Block}

theorem Layout.perm (h : Layout L) (hp : L.Perm M) : Layout M :=
  ⟨fun b hb => h.address b (hp.mem_iff.mpr hb), fun b hb => h.size b (hp.mem_iff.mpr hb),
    fun b hb => h.fits b (hp.mem_iff.mpr hb),
    (hp.pairwise_iff fun hbc hm => hbc hm.symm).mp h.apart⟩

theorem Layout.of_append (h : Layout (L ++ M)) : Layout M :=
  ⟨fun c hc => h.address c (List.mem_append_right L hc),
    fun c hc => h.size c (List.mem_append_right L hc),
    fun c hc => h.fits c (List.mem_append_right L hc), (List.pairwise_append.mp h.apart).2.1⟩

/-! ### The invariant -/

namespace Registrar

variable {g : Registrar} {f : Job → List Block} {i : ℕ} {j : Job}

/-- What `gather` picks without the job at `i`. -/
def gatherExcept (g : Registrar) (f : Job → List Block) (i : ℕ) : List Block :=
  g.held ++ (g.jobs.eraseIdx i).flatMap f

/-- Singling out one job. -/
theorem gather_perm (hi : g.jobs[i]? = some j) :
    (g.gather f).Perm (f j ++ g.gatherExcept f i) := by
  obtain ⟨hlt, rfl⟩ := List.getElem?_eq_some_iff.mp hi
  have hjobs := (List.getElem_cons_eraseIdx_perm hlt).symm.flatMap_right f
  rw [List.flatMap_cons] at hjobs
  exact (hjobs.append_left g.held).trans (List.perm_append_comm_assoc _ _ _)

theorem outstanding_perm (hi : g.jobs[i]? = some j) :
    g.outstanding.Perm (j.blocks ++ g.gatherExcept Job.blocks i) :=
  gather_perm hi

/-- Replacing one job. -/
theorem gather_set_perm (hi : g.jobs[i]? = some j) (j' : Job) :
    (g.held ++ (g.jobs.set i j').flatMap f).Perm (f j' ++ g.gatherExcept f i) := by
  obtain ⟨hlt, -⟩ := List.getElem?_eq_some_iff.mp hi
  have hget : (g.jobs.set i j')[i]? = some j' := List.getElem?_set_self hlt
  have hperm := gather_perm (g := { g with jobs := g.jobs.set i j' }) (f := f) hget
  simp only [gather, gatherExcept, List.eraseIdx_set_eq] at hperm
  exact hperm

/-- Blocks that pass from the guest to a new job. -/
theorem held_perm {blocks : List Block} (h : blocks.Subperm g.held) (L : List Block) :
    (g.held ++ L).Perm (g.held.diff blocks ++ (blocks.reverse ++ L)) := by
  have hdiff : (blocks ++ g.held.diff blocks).Perm g.held :=
    List.subperm_append_diff_self_of_count_le fun b _ => h.count_le b
  have hrev := ((List.reverse_perm blocks).append_right (g.held.diff blocks)).trans hdiff
  refine (hrev.symm.append_right L).trans ?_
  rw [List.append_assoc]
  exact List.perm_append_comm_assoc _ _ _

/-- **Blocks are conserved**: what is outstanding after a step, with what it gave back, is
what was outstanding before, with what it acquired. -/
theorem outstanding_step (B : ShadowMemory.Balancer) {a : RegistrarAct} (ha : g.Allowed a) :
    ∃ gone, (gone ++ (g.step B a).outstanding).Perm (a.acquired ++ g.outstanding) := by
  cases a with
  | acquire c r => exact ⟨[], List.perm_middle⟩
  | notifyAlloc i =>
      obtain ⟨c, p, hi⟩ := ha
      refine ⟨[], ?_⟩
      simp only [step, hi]
      exact (outstanding_perm hi).symm
  | startFree w blocks => exact ⟨[], (held_perm ha.2.1 _).symm⟩
  | notifyFree i =>
      obtain ⟨w, b, rest, hi⟩ := ha
      refine ⟨[], ?_⟩
      simp only [step, hi]
      exact (gather_set_perm hi _).trans (outstanding_perm hi).symm
  | giveBack i =>
      obtain ⟨w, b, rest, hi⟩ := ha
      refine ⟨[b], ?_⟩
      simp only [step, hi]
      refine List.Perm.trans (List.Perm.cons b ?_) (outstanding_perm hi).symm
      by_cases hrest : rest = []
      · subst hrest
        rw [if_pos rfl]
        exact List.Perm.refl _
      · rw [if_neg hrest]
        exact gather_set_perm hi _

end Registrar

theorem Job.registered_subset (j : Job) : j.registered ⊆ j.blocks := by
  cases j with
  | allocating c p => exact List.nil_subset _
  | freeing w todo notified =>
      cases notified with
      | false => exact List.Subset.refl _
      | true => exact (List.tail_sublist todo).subset

/-- The shadow memory records the registered blocks beside the entries in `F`, and the
registered blocks are those held and those the jobs have not unregistered. -/
structure Protocol (F : Set Entry) (g : Registrar) : Prop where
  layout : Layout g.outstanding
  matched : ∀ w todo n, Job.freeing w todo n ∈ g.jobs → ∀ b ∈ todo, w.IsFor b
  registered : g.registered.Perm (g.gather Job.registered)
  outside : ∀ b ∈ g.registered, ∀ e ∈ F, ¬ e.1.extent.Meets b.entry.1.extent
  records : g.shadow.Records (F ∪ blockEntries g.registered)

/-- A block about to be registered meets no entry in `F`. -/
def Registrar.Clear (F : Set Entry) (g : Registrar) : RegistrarAct → Prop
  | .notifyAlloc i => ∀ c p, g.jobs[i]? = some (.allocating c p) →
      ∀ e ∈ F, ¬ e.1.extent.Meets (c.block p).entry.1.extent
  | _ => True

/-- The notification of a matching wrapper is one of the three ways of releasing the
block's entry. -/
theorem FreeWrapper.notify_of_isFor {w : FreeWrapper} {b : Block} (h : w.IsFor b) :
    ∃ kind : ReleaseKind, w.notify b = kind.op b.entry := by
  cases w with
  | kfree => exact ⟨.free, rfl⟩
  | kmemCacheFree => exact ⟨.free, rfl⟩
  | doFreePages order => exact ⟨.freeSize, by rw [notify, ← h.2]; rfl⟩
  | pagevecFree => exact ⟨.freeAnySize, by rw [notify, ← h.2]; rfl⟩

namespace Protocol

variable {F : Set Entry} {g : Registrar} {i : ℕ} {j : Job} {b : Block}

/-- A job's block meets no registered block of the others. -/
theorem not_meets_except (h : Protocol F g) (hi : g.jobs[i]? = some j) (hb : b ∈ j.blocks)
    {c : Block} (hc : c ∈ g.gatherExcept Job.registered i) :
    ¬ c.entry.1.extent.Meets b.entry.1.extent := by
  have hsub : c ∈ g.gatherExcept Job.blocks i := by
    rcases List.mem_append.mp hc with hc | hc
    · exact List.mem_append_left _ hc
    · obtain ⟨k, hk, hck⟩ := List.mem_flatMap.mp hc
      exact List.mem_append_right _ (List.mem_flatMap.mpr ⟨k, hk, k.registered_subset hck⟩)
  have hapart := (h.layout.perm (Registrar.outstanding_perm hi)).apart
  exact fun hm => (List.pairwise_append.mp hapart).2.2 b hb c hsub hm.symm

variable (B : ShadowMemory.Balancer)

/-- What a step acquires fits in with the blocks outstanding. -/
theorem layout_acquired (h : Protocol F g) {a : RegistrarAct} (ha : g.Allowed a) :
    Layout (a.acquired ++ g.outstanding) := by
  cases a with
  | acquire c r =>
      obtain ⟨hp, hsize, hfit, hover⟩ := ha
      refine ⟨List.forall_mem_cons.mpr ⟨hp, h.layout.address⟩,
        List.forall_mem_cons.mpr ⟨hsize, h.layout.size⟩,
        List.forall_mem_cons.mpr ⟨hfit, h.layout.fits⟩,
        List.pairwise_cons.mpr ⟨fun b hb hm => ?_, h.layout.apart⟩⟩
      -- neither block is empty, so meeting is sharing a byte
      obtain ⟨q, hq, hq'⟩ := Extent.meets_iff_exists.mp hm
      exact hover b hb q (MemoryAlloc.covers_of_contains (h.layout.size b hb) hq')
        (MemoryAlloc.covers_of_contains hsize hq)
  | _ => exact h.layout

theorem layout_step (h : Protocol F g) {a : RegistrarAct} (ha : g.Allowed a) :
    Layout (g.step B a).outstanding := by
  obtain ⟨gone, hperm⟩ := Registrar.outstanding_step B ha
  exact ((h.layout_acquired ha).perm hperm.symm).of_append

/-- An allocation wrapper acquires its block: one more block is outstanding. -/
theorem step_acquire (h : Protocol F g) {c : AllocCall} {r : Addr32}
    (ha : g.Allowed (.acquire c r)) : Protocol F (g.step B (.acquire c r)) := by
  refine ⟨h.layout_step B ha, fun w todo n hmem => ?_, h.registered, h.outside, h.records⟩
  exact h.matched w todo n ((List.mem_cons.mp hmem).resolve_left (by simp))

theorem mem_outstanding (hi : g.jobs[i]? = some j) (hb : b ∈ j.blocks) : b ∈ g.outstanding :=
  (Registrar.outstanding_perm hi).mem_iff.mpr (List.mem_append_left _ hb)

theorem shadowCall_notifyAlloc (h : Protocol F g) {c : AllocCall} {p : Addr32}
    (hi : g.jobs[i]? = some (.allocating c p)) :
    g.shadowCall B (.notifyAlloc i) =
      some ((c.block p).entry.allocOp.perform B g.shadow) := by
  have hp : p ≠ 0 := h.layout.address _ (mem_outstanding hi List.mem_cons_self)
  simp only [Registrar.shadowCall, Registrar.notify, hi, c.notify_of_ne_null hp,
    Option.map_some]
  rfl

/-- An allocation wrapper registers its block. -/
theorem step_notifyAlloc (h : Protocol F g) {c : AllocCall} {p : Addr32}
    (hi : g.jobs[i]? = some (.allocating c p)) (hclear : g.Clear F (.notifyAlloc i)) :
    (∀ call, g.shadowCall B (.notifyAlloc i) = some call → call.ret = 0) ∧
      Protocol F (g.step B (.notifyAlloc i)) := by
  have hlay := h.layout_step B (a := .notifyAlloc i) ⟨c, p, hi⟩
  have hreg := h.registered.trans (Registrar.gather_perm (f := Job.registered) hi)
  have hcall := h.shadowCall_notifyAlloc B hi
  -- nothing recorded meets the block: it is outstanding and not registered
  have hroom : Room (F ∪ blockEntries g.registered) (c.block p).entry.1 := by
    refine ⟨h.layout.fits _ (mem_outstanding hi List.mem_cons_self), ?_⟩
    rintro e (he | ⟨d, hd, rfl⟩)
    · exact hclear c p hi e he
    · exact h.not_meets_except hi List.mem_cons_self (hreg.mem_iff.mp hd)
  obtain ⟨hret, hrec⟩ := h.records.newMemoryAlloc B hroom
  have hstep : g.step B (.notifyAlloc i) =
      ⟨((c.block p).entry.allocOp.perform B g.shadow).shadow, c.block p :: g.held,
        g.jobs.eraseIdx i, c.block p :: g.registered⟩ := by
    simp only [Registrar.step, hi, Registrar.shadowAfter, hcall]
  rw [hcall, hstep]
  refine ⟨fun call heq => Option.some.inj heq ▸ hret, hstep ▸ hlay, ?_, hreg.cons _, ?_, ?_⟩
  · exact fun w todo n hmem => h.matched w todo n (List.mem_of_mem_eraseIdx hmem)
  · exact List.forall_mem_cons.mpr ⟨hclear c p hi, h.outside⟩
  · rw [blockEntries_cons, Set.union_insert]
    exact hrec

/-- A free wrapper starts: its blocks pass from the guest to the job. -/
theorem step_startFree (h : Protocol F g) {w : FreeWrapper} {blocks : List Block}
    (ha : g.Allowed (.startFree w blocks)) : Protocol F (g.step B (.startFree w blocks)) := by
  refine ⟨h.layout_step B ha, fun v todo n hmem => ?_,
    h.registered.trans (Registrar.held_perm ha.2.1 _), h.outside, h.records⟩
  rcases List.mem_cons.mp hmem with heq | hmem
  · cases heq
    exact fun b hb => ha.2.2.1 b (List.mem_reverse.mp hb)
  · exact h.matched v todo n hmem

/-- A free wrapper unregisters the first of its blocks. -/
theorem step_notifyFree (h : Protocol F g) {w : FreeWrapper} {rest : List Block}
    (hi : g.jobs[i]? = some (.freeing w (b :: rest) false)) :
    (∀ call, g.shadowCall B (.notifyFree i) = some call → call.ret = 0) ∧
      Protocol F (g.step B (.notifyFree i)) := by
  have hmem := List.mem_of_getElem? hi
  have hlay' := h.layout_step B (a := .notifyFree i) ⟨w, b, rest, hi⟩
  have hout := Registrar.outstanding_perm hi
  have hreg := h.registered.trans (Registrar.gather_perm (f := Job.registered) hi)
  have hreg' := Registrar.gather_set_perm (f := Job.registered) hi
    (.freeing w (b :: rest) true)
  have herase : (g.registered.erase b).Perm (rest ++ g.gatherExcept Job.registered i) := by
    have hp := hreg.erase b
    simp only [Job.registered, Bool.false_eq_true, if_false, List.cons_append,
      List.erase_cons_head] at hp
    exact hp
  have hb : b ∈ g.registered := hreg.mem_iff.mpr List.mem_cons_self
  have hb' : b ∈ g.outstanding := mem_outstanding hi List.mem_cons_self
  obtain ⟨kind, hkind⟩ :=
    FreeWrapper.notify_of_isFor (h.matched _ _ _ hmem b List.mem_cons_self)
  have hcall : g.shadowCall B (.notifyFree i) =
      some ((kind.op b.entry).perform B g.shadow) := by
    simp only [Registrar.shadowCall, Registrar.notify, hi, Option.map_some, hkind]
  obtain ⟨hret, hrec⟩ := h.records.release B (Or.inr ⟨b, hb, rfl⟩)
    (h.layout.address b hb') kind
  have hset : (F ∪ blockEntries g.registered) \ {b.entry} =
      F ∪ blockEntries (g.registered.erase b) := by
    refine sdiff_blockEntries (List.perm_cons_erase hb) (h.outside b hb) fun c hc => ?_
    rcases List.mem_append.mp (herase.mem_iff.mp hc) with hc | hc
    · have hapart := (h.layout.perm hout).apart
      exact fun hm => (List.pairwise_cons.mp hapart).1 c (List.mem_append_left _ hc) hm.symm
    · exact h.not_meets_except hi List.mem_cons_self hc
  have hstep : g.step B (.notifyFree i) =
      ⟨((kind.op b.entry).perform B g.shadow).shadow, g.held,
        g.jobs.set i (.freeing w (b :: rest) true), g.registered.erase b⟩ := by
    simp only [Registrar.step, hi, Registrar.shadowAfter, hcall]
  rw [hcall, hstep]
  refine ⟨fun call heq => Option.some.inj heq ▸ hret, hstep ▸ hlay', ?_,
    herase.trans hreg'.symm, ?_, hset ▸ hrec⟩
  · intro v todo n hv
    rcases List.mem_or_eq_of_mem_set hv with hv | heq
    · exact h.matched v todo n hv
    · cases heq
      exact h.matched _ _ _ hmem
  · exact fun c hc => h.outside c (List.mem_of_mem_erase hc)

/-- A free wrapper gives the first of its blocks back. -/
theorem step_giveBack (h : Protocol F g) {w : FreeWrapper} {rest : List Block}
    (hi : g.jobs[i]? = some (.freeing w (b :: rest) true)) :
    Protocol F (g.step B (.giveBack i)) := by
  have hmem := List.mem_of_getElem? hi
  have hlay := h.layout_step B (a := .giveBack i) ⟨w, b, rest, hi⟩
  have hreg := h.registered.trans (Registrar.gather_perm (f := Job.registered) hi)
  simp only [Registrar.step, hi] at hlay ⊢
  by_cases hrest : rest = []
  · subst hrest
    rw [if_pos rfl] at hlay ⊢
    exact ⟨hlay, fun v todo n hv => h.matched v todo n (List.mem_of_mem_eraseIdx hv), hreg,
      h.outside, h.records⟩
  · rw [if_neg hrest] at hlay ⊢
    have hreg' := Registrar.gather_set_perm (f := Job.registered) hi (.freeing w rest false)
    refine ⟨hlay, ?_, hreg.trans hreg'.symm, h.outside, h.records⟩
    intro v todo n hv
    rcases List.mem_or_eq_of_mem_set hv with hv | heq
    · exact h.matched v todo n hv
    · cases heq
      exact fun c hc => h.matched _ _ _ hmem c (List.mem_cons_of_mem b hc)

/-- **One step of any wrapper** succeeds in the shadow memory and keeps the protocol. -/
theorem step (h : Protocol F g) {a : RegistrarAct} (ha : g.Allowed a) (hclear : g.Clear F a) :
    (∀ call, g.shadowCall B a = some call → call.ret = 0) ∧ Protocol F (g.step B a) := by
  cases a with
  | acquire c r => exact ⟨fun call hcall => (by cases hcall), h.step_acquire B ha⟩
  | notifyAlloc i =>
      obtain ⟨c, p, hi⟩ := ha
      exact h.step_notifyAlloc B hi hclear
  | startFree w blocks => exact ⟨fun call hcall => (by cases hcall), h.step_startFree B ha⟩
  | notifyFree i =>
      obtain ⟨w, b, rest, hi⟩ := ha
      exact h.step_notifyFree B hi
  | giveBack i =>
      obtain ⟨w, b, rest, hi⟩ := ha
      exact ⟨fun call hcall => (by cases hcall), h.step_giveBack B hi⟩

end Protocol

/-! ### Every interleaving -/

theorem Protocol.init : Protocol ∅ Registrar.init := by
  refine ⟨⟨?_, ?_, ?_, List.Pairwise.nil⟩, ?_, List.Perm.nil, ?_,
    ShadowMemory.wellFormed_empty, fun f => ?_⟩
  case refine_6 => simp [Registrar.init, blockEntries, ShadowMemory.entries, ShadowMemory.empty]
  all_goals simp [Registrar.init, Registrar.outstanding, Registrar.gather]

/-- **The registration protocol has no race.** In every interleaving of the wrappers' steps
every shadow call succeeds, and after every step the recorded entries are exactly the
blocks that have been registered and not unregistered. -/
theorem registration_race_free {acts : List (ShadowMemory.Balancer × RegistrarAct)}
    (hrun : Run.Along Registrar.next (fun g a => g.Allowed a.2) Registrar.init acts) :
    (∀ pre a post, acts = pre ++ a :: post → ∀ call,
      (Run.final Registrar.next Registrar.init pre).shadowCall a.1 a.2 = some call →
        call.ret = 0) ∧
    ∀ pre post, acts = pre ++ post → ∀ f,
      f ∈ (Run.final Registrar.next Registrar.init pre).shadow.entries ↔
        ∃ b ∈ (Run.final Registrar.next Registrar.init pre).registered, f = b.entry := by
  have hclear : ∀ (g : Registrar) a, g.Clear ∅ a := by
    intro g a
    cases a with
    | notifyAlloc i => exact fun c p _ e he => absurd he (Set.notMem_empty e)
    | _ => trivial
  have hstep : ∀ g (a : ShadowMemory.Balancer × RegistrarAct), Protocol ∅ g →
      g.Allowed a.2 → Protocol ∅ (g.next a) :=
    fun g a h ha => (h.step a.1 ha (hclear g a.2)).2
  refine ⟨fun pre a post heq => ?_, fun pre post heq f => ?_⟩
  · subst heq
    obtain ⟨hinv, ha⟩ := hrun.at hstep Protocol.init
    exact (hinv.step a.1 ha (hclear _ a.2)).1
  · subst heq
    have hinv := (Run.along_append.mp hrun).1.final hstep Protocol.init
    rw [hinv.records.mem_iff f, Set.empty_union]
    rfl

/-- While one thread frees a page through `__pagevec_free` another allocates; the page is
then handed out again. -/
theorem registration_race_free_recycled :
    ((Run.final Registrar.next Registrar.init
      ([.acquire (.allocPagesNode 0) 0xc1000000, .notifyAlloc 0,
        .startFree .pagevecFree [⟨0xc1000000, 4096, .freePages⟩],
        .acquire (.kmalloc 64) 0xc2000000, .notifyFree 1, .notifyAlloc 0, .giveBack 0,
        .acquire (.kmalloc 32) 0xc1000000].map (Prod.mk .id))).shadowCall
          SearchTree.Balancer.id (.notifyAlloc 0)).map Call.ret = some 0 := by
  have hrun : Run.Along Registrar.next (fun g a => g.Allowed a.2) Registrar.init
      ([.acquire (.allocPagesNode 0) 0xc1000000, .notifyAlloc 0,
        .startFree .pagevecFree [⟨0xc1000000, 4096, .freePages⟩],
        .acquire (.kmalloc 64) 0xc2000000, .notifyFree 1, .notifyAlloc 0, .giveBack 0,
        .acquire (.kmalloc 32) 0xc1000000].map (Prod.mk SearchTree.Balancer.id) ++
          [(.id, .notifyAlloc 0)]) := by
    refine ⟨⟨by decide, by decide, by decide, fun b hb => absurd hb List.not_mem_nil⟩,
      ⟨_, _, rfl⟩,
      ⟨by decide, List.Subperm.refl _, fun b hb => ?_, fun h => absurd rfl h⟩,
      ⟨by decide, by decide, by decide, fun b hb q h1 h2 => ?_⟩, ⟨_, _, _, rfl⟩, ⟨_, _, rfl⟩,
      ⟨_, _, _, rfl⟩, ⟨by decide, by decide, by decide, fun b hb q h1 h2 => ?_⟩,
      ⟨_, _, rfl⟩, trivial⟩
    · rw [List.mem_singleton.mp hb]
      exact ⟨rfl, rfl⟩
    · -- the page being freed is still outstanding
      have hb' : b ∈ [⟨0xc1000000, 4096, .freePages⟩] := hb
      rw [List.mem_singleton.mp hb'] at h1
      exact absurd (h2.1.trans_lt h1.2) (by decide)
    · have hb' : b ∈ [⟨0xc2000000, 64, .kfree⟩] := hb
      rw [List.mem_singleton.mp hb'] at h1
      exact absurd (h1.1.trans_lt h2.2) (by decide)
  have hret := (registration_race_free hrun).1 _ _ [] rfl _ rfl
  exact congrArg some hret

end MemCheck
