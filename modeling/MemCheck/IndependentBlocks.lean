import MemCheck.Placement

/-!
# Independent Blocks Do Not Interfere

A family of blocks, disjoint from each other and from everything recorded, is allocated
and released: one `NewMemoryAlloc` and one later release per block, by any of the three
free operations, interleaved in any order. Whatever the order, every call succeeds and the
map is at each moment the original one plus the blocks that are allocated and not yet
released. All it takes is that each block is put where lookups of it are sent, which is so in
every map whose entries end below `2 ^ 32`.

A schedule is a list of actions. Its projection to one block is the two actions of that
block in order (`Schedule`), which is all that is asked of an interleaving.

## Main results

* `Schedule.step`: one action of a schedule;
* `independent_blocks`: any schedule.
-/

namespace MemCheck

/-- An action on the block with index `i`. -/
inductive BlockAct (ι : Type) where
  | alloc (i : ι)
  | release (i : ι) (kind : ReleaseKind)
  deriving DecidableEq, Repr

namespace BlockAct

variable {ι : Type}

/-- The block an action is about. -/
def block : BlockAct ι → ι
  | alloc i => i
  | release i _ => i

/-- The call an action makes. -/
def op (blocks : ι → Entry) : BlockAct ι → Op
  | alloc i => (blocks i).allocOp
  | release i kind => kind.op (blocks i)

/-- A block is put at a slot that separates the entries below it from the others. -/
def Placed (blocks : ι → Entry) (s : ShadowMemory) : BlockAct ι → Prop
  | alloc i => s.Separates (blocks i).1
  | release _ _ => True

instance (blocks : ι → Entry) (s : ShadowMemory) :
    (a : BlockAct ι) → Decidable (a.Placed blocks s)
  | alloc i => inferInstanceAs (Decidable (s.Separates (blocks i).1))
  | release _ _ => isTrue trivial

end BlockAct

section Schedules

variable {ι : Type} [DecidableEq ι]

/-- Every block is allocated once and released once, later. -/
def Schedule (sched : List (BlockAct ι)) : Prop :=
  ∀ i, ∃ kind, sched.filter (fun a => a.block = i) = [.alloc i, .release i kind]

/-- Block `i` is allocated and not yet released. -/
def Live (acts : List (BlockAct ι)) (i : ι) : Prop :=
  .alloc i ∈ acts ∧ ∀ kind, .release i kind ∉ acts

variable {sched acts post : List (BlockAct ι)} {a : BlockAct ι} {i : ι}

/-- Where an action stands among the two actions of its block. -/
theorem Schedule.split (h : Schedule (acts ++ a :: post)) :
    (acts.filter (fun b => b.block = a.block) = [] ∧ a = .alloc a.block) ∨
      (acts.filter (fun b => b.block = a.block) = [.alloc a.block] ∧
        ∃ kind, a = .release a.block kind) := by
  obtain ⟨kind, hk⟩ := h a.block
  rw [List.filter_append,
    List.filter_cons_of_pos (p := fun b : BlockAct ι => decide (b.block = a.block))
      (decide_eq_true rfl)] at hk
  rcases List.append_eq_cons_iff.mp hk with ⟨hnil, hcons⟩ | ⟨rest, hrest, hcons⟩
  · exact Or.inl ⟨hnil, (List.cons.inj hcons).1⟩
  · rcases List.append_eq_cons_iff.mp hcons.symm with ⟨rfl, hlast⟩ | ⟨rest', -, hlast⟩
    · exact Or.inr ⟨hrest, kind, (List.cons.inj hlast).1⟩
    · simp at hlast

/-- Nothing happened to a block before its allocation. -/
theorem Schedule.before_alloc (h : Schedule (acts ++ .alloc i :: post)) :
    ∀ a ∈ acts, a.block ≠ i := by
  rcases h.split with ⟨hnil, -⟩ | ⟨-, kind, hk⟩
  · intro a ha hai
    exact absurd (decide_eq_true hai) (List.filter_eq_nil_iff.mp hnil a ha)
  · cases hk

/-- Before its release a block was allocated and not released. -/
theorem Schedule.before_release {kind : ReleaseKind}
    (h : Schedule (acts ++ .release i kind :: post)) : Live acts i := by
  rcases h.split with ⟨-, hk⟩ | ⟨hone, -⟩
  · cases hk
  · have hmem : ∀ a : BlockAct ι, a.block = i → (a ∈ acts ↔ a = .alloc i) := by
      intro a hai
      have hiff : a ∈ acts.filter (fun b => b.block = i) ↔ a ∈ acts :=
        ⟨fun ha => (List.mem_filter.mp ha).1, fun ha =>
          List.mem_filter.mpr ⟨ha, decide_eq_true hai⟩⟩
      exact hiff.symm.trans (hone ▸ List.mem_singleton)
    refine ⟨(hmem _ rfl).mpr rfl, fun k hr => ?_⟩
    cases (hmem _ rfl).mp hr

theorem live_append_alloc (hnew : ∀ a ∈ acts, a.block ≠ i) (j : ι) :
    Live (acts ++ [.alloc i]) j ↔ Live acts j ∨ j = i := by
  constructor
  · rintro ⟨h1, h2⟩
    by_cases hji : j = i
    · exact Or.inr hji
    · left
      refine ⟨?_, fun kind hk => h2 kind (List.mem_append_left _ hk)⟩
      simpa [hji] using h1
  · rintro (⟨h1, h2⟩ | rfl)
    · refine ⟨List.mem_append_left _ h1, fun kind hk => ?_⟩
      simp only [List.mem_append, List.mem_singleton, reduceCtorEq, or_false] at hk
      exact h2 kind hk
    · refine ⟨List.mem_append_right _ (List.mem_singleton.mpr rfl), fun kind hk => ?_⟩
      simp only [List.mem_append, List.mem_singleton, reduceCtorEq, or_false] at hk
      exact hnew _ hk rfl

omit [DecidableEq ι] in
theorem live_append_release (kind : ReleaseKind) (j : ι) :
    Live (acts ++ [.release i kind]) j ↔ Live acts j ∧ j ≠ i := by
  constructor
  · rintro ⟨h1, h2⟩
    simp only [List.mem_append, List.mem_singleton, reduceCtorEq, or_false] at h1
    refine ⟨⟨h1, fun k hk => h2 k (List.mem_append_left _ hk)⟩, ?_⟩
    rintro rfl
    exact h2 kind (List.mem_append_right _ (List.mem_singleton.mpr rfl))
  · rintro ⟨⟨h1, h2⟩, hne⟩
    refine ⟨List.mem_append_left _ h1, fun k hk => ?_⟩
    rcases List.mem_append.mp hk with hk | hk
    · exact h2 k hk
    · simp only [List.mem_singleton, BlockAct.release.injEq] at hk
      exact hne hk.1

/-- At the end of a schedule every block has been released. -/
theorem Schedule.not_live (h : Schedule sched) (i : ι) : ¬ Live sched i := by
  intro hlive
  obtain ⟨kind, hk⟩ := h i
  have hr : .release i kind ∈ sched.filter (fun a => a.block = i) := by
    rw [hk]
    simp
  exact hlive.2 kind (List.mem_filter.mp hr).1

end Schedules

/-! ### One action -/

/-- The blocks that are live after `acts`. -/
def liveBlocks {ι : Type} (blocks : ι → Entry) (acts : List (BlockAct ι)) : Set Entry :=
  {f | ∃ i, Live acts i ∧ f = blocks i}

/-- The effect of an action, which rebalances in its own way. -/
def blockStep {ι : Type} (blocks : ι → Entry) (s : ShadowMemory)
    (a : ShadowMemory.Balancer × BlockAct ι) : ShadowMemory :=
  ((a.2.op blocks).perform a.1 s).shadow

section Step

variable {ι : Type} [DecidableEq ι] {base : List Entry} {s : ShadowMemory}
  {blocks : ι → Entry} {acts post : List (BlockAct ι)} {a : BlockAct ι}
  (hp : ∀ i, (blocks i).1.address ≠ 0)
  (hfits : ∀ i, (blocks i).1.address.toNat + (blocks i).1.size.toNat < 2 ^ 32)
  (hdisj : ∀ i j, i ≠ j → ¬ (blocks i).1.extent.Meets (blocks j).1.extent)
  (hfree : ∀ i, ∀ e ∈ base, ¬ e.1.extent.Meets (blocks i).1.extent)

omit [DecidableEq ι] in
theorem liveBlocks_nil : liveBlocks blocks [] = ∅ :=
  Set.eq_empty_of_forall_notMem fun _ ⟨_, hlive, _⟩ => absurd hlive.1 List.not_mem_nil

theorem liveBlocks_alloc {i : ι} (hnew : ∀ a ∈ acts, a.block ≠ i) :
    liveBlocks blocks (acts ++ [.alloc i]) = insert (blocks i) (liveBlocks blocks acts) := by
  refine Set.ext fun f => ?_
  simp only [liveBlocks, Set.mem_ofPred_eq, Set.mem_insert_iff, live_append_alloc hnew,
    or_and_right, exists_or, exists_eq_left]
  exact or_comm

omit [DecidableEq ι] in
include hdisj in
theorem liveBlocks_release {i : ι} (kind : ReleaseKind) :
    liveBlocks blocks (acts ++ [.release i kind]) = liveBlocks blocks acts \ {blocks i} := by
  refine Set.ext fun f => ?_
  simp only [liveBlocks, Set.mem_ofPred_eq, Set.mem_sdiff, Set.mem_singleton_iff,
    live_append_release]
  constructor
  · rintro ⟨j, ⟨hj, hji⟩, rfl⟩
    exact ⟨⟨j, hj, rfl⟩, fun heq => hdisj j i hji (heq ▸ Extent.meets_self _)⟩
  · rintro ⟨⟨j, hj, rfl⟩, hne⟩
    refine ⟨j, ⟨hj, ?_⟩, rfl⟩
    rintro rfl
    exact hne rfl

include hp hfits hdisj hfree in
/-- **One action of a schedule** succeeds and keeps the map in step with the live blocks. -/
theorem Schedule.step (B : ShadowMemory.Balancer) (hsched : Schedule (acts ++ a :: post))
    (h : s.Holds base (liveBlocks blocks acts)) (hplaced : a.Placed blocks s) :
    ((a.op blocks).perform B s).ret = 0 ∧
      ((a.op blocks).perform B s).shadow.Holds base (liveBlocks blocks (acts ++ [a])) := by
  cases a with
  | alloc i =>
      have hnew := hsched.before_alloc
      rw [liveBlocks_alloc hnew]
      refine h.newMemoryAlloc B hplaced ?_ (Or.inl (hfits i))
      rintro f ⟨j, hlive, rfl⟩
      exact hdisj j i (hnew _ hlive.1)
  | release i kind =>
      rw [liveBlocks_release hdisj]
      refine h.release B ⟨i, hsched.before_release, rfl⟩ (fun hin => ?_) (hfits i) (hp i) kind
      exact hfree i _ hin (Extent.meets_self _)

include hfits hdisj hfree in
/-- In a well-formed map every action of a schedule is placed. -/
theorem Schedule.placed (hsched : Schedule (acts ++ a :: post))
    (h : s.Holds base (liveBlocks blocks acts)) (hwf : s.WellFormed) : a.Placed blocks s := by
  cases a with
  | alloc i =>
      refine hwf.separates (hfits i) fun e he => ?_
      rcases (h.mem_iff e).mp he with he | ⟨j, hlive, rfl⟩
      · exact hfree i e he
      · exact hdisj j i (hsched.before_alloc _ hlive.1)
  | release i kind => trivial

include hfits in
/-- Every action of a schedule keeps the map well-formed. -/
theorem Schedule.wellFormed_step (B : ShadowMemory.Balancer)
    (hsched : Schedule (acts ++ a :: post)) (h : s.Holds base (liveBlocks blocks acts))
    (hwf : s.WellFormed) : ((a.op blocks).perform B s).shadow.WellFormed := by
  cases a with
  | alloc i => exact hwf.perform_alloc B (hfits i)
  | release i kind =>
      have he := (h.mem_iff (blocks i)).mpr (Or.inr ⟨i, hsched.before_release, rfl⟩)
      exact hwf.perform_release B he kind

end Step

/-! ### Whole schedules -/

/-- **Independent blocks do not interfere.** In any map, and however each call rebalances,
if every block of a schedule of independent blocks is put at a slot that separates, then every
call of the schedule succeeds, the map is after each of them the original one plus the live
blocks, and at the end it is the original one. In a reached map whose entries all end below
`2 ^ 32` every block is put at such a slot. -/
theorem independent_blocks {ι : Type} [DecidableEq ι] {s : ShadowMemory}
    {blocks : ι → Entry} {sched : List (ShadowMemory.Balancer × BlockAct ι)}
    (hp : ∀ i, (blocks i).1.address ≠ 0)
    (hfits : ∀ i, (blocks i).1.address.toNat + (blocks i).1.size.toNat < 2 ^ 32)
    (hdisj : ∀ i j, i ≠ j → ¬ (blocks i).1.extent.Meets (blocks j).1.extent)
    (hfree : ∀ i, ∀ e ∈ s.entries, ¬ e.1.extent.Meets (blocks i).1.extent)
    (hsched : Schedule (sched.map Prod.snd)) :
    (s.Reachable → (∀ f ∈ s.entries, f.1.address.toNat + f.1.size.toNat < 2 ^ 32) →
      Run.Along (blockStep blocks) (fun s a => a.2.Placed blocks s) s sched) ∧
    (Run.Along (blockStep blocks) (fun s a => a.2.Placed blocks s) s sched →
      (∀ pre a post, sched = pre ++ a :: post →
        ((a.2.op blocks).perform a.1 (Run.final (blockStep blocks) s pre)).ret = 0 ∧
        ∀ f, f ∈ ((a.2.op blocks).perform a.1
            (Run.final (blockStep blocks) s pre)).shadow.entries ↔
          f ∈ s.entries ∨ ∃ i, Live ((pre ++ [a]).map Prod.snd) i ∧ f = blocks i) ∧
      (Run.final (blockStep blocks) s sched).entries = s.entries) := by
  have hcut : ∀ pre a post, sched = pre ++ a :: post →
      Schedule (pre.map Prod.snd ++ a.2 :: post.map Prod.snd) := by
    rintro pre a post rfl
    simpa using hsched
  have hinit : s.Holds s.entries (liveBlocks blocks (([] : List (ShadowMemory.Balancer ×
      BlockAct ι)).map Prod.snd)) := by
    rw [List.map_nil, liveBlocks_nil]
    exact ShadowMemory.Holds.self s
  refine ⟨fun hreach hentries => Run.along_of_at fun pre a post heq => ?_, fun hplaced => ?_⟩
  · have hany : Run.Along (blockStep blocks) (fun _ _ => True) s sched :=
      Run.along_of_forall fun _ _ => trivial
    have hall := hany.history
      (I := fun acts t => t.Holds s.entries (liveBlocks blocks (acts.map Prod.snd)) ∧
        t.WellFormed) ⟨hinit, hreach.wellFormed_of_fits hentries⟩ ?_ pre (a :: post) heq
    · exact Schedule.placed hfits hdisj hfree (hcut pre a post heq) hall.1 hall.2
    · rintro pre a post t heq ⟨hholds, hwf⟩ -
      have hp' := Schedule.placed hfits hdisj hfree (hcut pre a post heq) hholds hwf
      rw [List.map_append]
      exact ⟨(Schedule.step hp hfits hdisj hfree a.1 (hcut pre a post heq) hholds hp').2,
        Schedule.wellFormed_step hfits a.1 (hcut pre a post heq) hholds hwf⟩
  · have hrun := hplaced.history
      (I := fun acts t => t.Holds s.entries (liveBlocks blocks (acts.map Prod.snd)))
      hinit fun pre a post t heq hholds hp' => by
        rw [List.map_append]
        exact (Schedule.step hp hfits hdisj hfree a.1 (hcut pre a post heq) hholds hp').2
    refine ⟨fun pre a post heq => ?_, ?_⟩
    · have hsplit := heq ▸ hplaced
      obtain ⟨hret, hholds⟩ := Schedule.step hp hfits hdisj hfree a.1 (hcut pre a post heq)
        (hrun pre (a :: post) heq) (Run.along_append.mp hsplit).2.1
      rw [List.map_append]
      exact ⟨hret, hholds.mem_iff⟩
    · have hend := hrun sched [] (List.append_nil sched).symm
      have hnone : liveBlocks blocks (sched.map Prod.snd) = ∅ :=
        Set.eq_empty_of_forall_notMem fun _ ⟨i, hlive, _⟩ => hsched.not_live i hlive
      rw [hnone] at hend
      exact hend.entries_eq

/-- Beside the last page of the address space: a page and a block of size zero at its end,
interleaved. -/
theorem independent_blocks_adjacent :
    (Run.final (blockStep fun b : Bool =>
        if b then (⟨0xc1000000, 0x1000⟩, ⟨0⟩) else (⟨0xc1001000, 0⟩, ⟨0⟩))
      ShadowMemory.lastPage
      [(.id, .alloc true), (.id, .alloc false), (.id, .release true .freeSize),
        (.id, .release false .freeAnySize)]).entries = ShadowMemory.lastPage.entries := by
  have hsched : Schedule [BlockAct.alloc true, .alloc false, .release true .freeSize,
      .release false .freeAnySize] := by
    intro b
    cases b with
    | true => exact ⟨.freeSize, rfl⟩
    | false => exact ⟨.freeAnySize, rfl⟩
  exact ((@independent_blocks Bool _ ShadowMemory.lastPage
    (fun b => if b then (⟨0xc1000000, 0x1000⟩, ⟨0⟩) else (⟨0xc1001000, 0⟩, ⟨0⟩))
    [(.id, .alloc true), (.id, .alloc false), (.id, .release true .freeSize),
      (.id, .release false .freeAnySize)]
    (by decide) (by decide) (by decide) (by decide) hsched).2 (by decide)).2

/-- Beside a block that ends exactly at `2 ^ 32`, allocating and releasing an independent
page fails at the release. -/
theorem independent_block_fails_beside_wrapped :
    (ShadowMemory.run ShadowMemory.empty
        (ShadowMemory.plain [.newMemoryAlloc 0 0xfffff000 0x1000])).Reachable ∧
      (∀ e ∈ (ShadowMemory.run ShadowMemory.empty
          (ShadowMemory.plain [.newMemoryAlloc 0 0xfffff000 0x1000])).entries,
        ¬ e.1.extent.Meets (⟨0x2000, 0x1000⟩ : MemoryAlloc).extent) ∧
      Schedule [BlockAct.alloc (), .release () .free] ∧
      (((BlockAct.release () .free).op fun _ => (⟨0x2000, 0x1000⟩, ⟨0⟩)).perform
        SearchTree.Balancer.id
        (Run.final (blockStep fun _ => (⟨0x2000, 0x1000⟩, ⟨0⟩))
          (ShadowMemory.run ShadowMemory.empty
            (ShadowMemory.plain [.newMemoryAlloc 0 0xfffff000 0x1000]))
          [(.id, .alloc ())])).ret = 1 :=
  ⟨⟨_, rfl⟩, by decide, fun _ => ⟨.free, rfl⟩, by decide⟩

end MemCheck
