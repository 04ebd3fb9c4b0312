import MemCheck.MemoryAccess
import MemCheck.Placement

/-!
# The Patched Kernel's Allocation Calls

The guest kernel is patched (`GuestKernelPatch.diff`) so that its allocation functions call
`MemCheck_Alloc`, `MemCheck_Free`, `MemCheck_FreeSize` and `MemCheck_FreeAnySize`, which the
interceptor turns into operations on the shadow memory. Every wrapper decides by itself
whether to notify the checker, and with which pointer and size. Only `kmem_cache_alloc`
looks at the pointer first: the other wrappers record a failed request as a block at
address zero.

The Linux allocator underneath is a parameter of every call: the address it returned. What
it promises (`GuestHeap.Contract`) is that a request is answered with `NULL`, with
`ZERO_SIZE_PTR` if it is for no bytes, or with a range that overlaps no live block.

## Main results

* `GuestHeap.Tracked.step`: one call of the guest;
* `calls_succeed_and_restore`: whole runs.
-/

namespace MemCheck

/-- `PAGE_SIZE`. -/
def pageSize : Word32 := 4096

/-- `ULONG_MAX`. -/
def ulongMax : Word32 := 0xffffffff

/-- `MAX_ORDER`. -/
def maxOrder : Word32 := 11

/-- `ZERO_SIZE_PTR`. -/
def zeroSizePtr : Addr32 := 16

/-- `(1 << order) * PAGE_SIZE`. -/
def pagesSize (order : Word32) : Word32 := (1 <<< order) * pageSize

/-! ### The wrappers -/

/-- A call of an allocation wrapper. A cache is given by its object size. -/
inductive AllocCall where
  | kmalloc (size : Word32)
  | kcalloc (n size : Word32)
  | kmemCacheAlloc (objsize : Word32)
  | kmallocTrackCaller (size : Word32)
  | allocPagesNode (order : Word32)
  deriving DecidableEq, Repr

/-- Which function frees a block. -/
inductive Family where
  | kfree
  | kmemCacheFree
  | freePages
  deriving DecidableEq, Repr

namespace AllocCall

/-- The size the wrapper passes to `MemCheck_Alloc`. -/
def size : AllocCall → Word32
  | kmalloc size => size
  | kcalloc n size => n * size
  | kmemCacheAlloc objsize => objsize
  | kmallocTrackCaller size => size
  | allocPagesNode order => pagesSize order

/-- The pointer the wrapped function delivers when the allocator below it answers `r`; for
pages it is `page_address`. `mykcalloc` checks for overflow and `myalloc_pages_node` for the
order before they ask. -/
def result (r : Addr32) : AllocCall → Addr32
  | kcalloc n size => if n ≠ 0 ∧ ulongMax / n < size then 0 else r
  | allocPagesNode order => if maxOrder ≤ order then 0 else r
  | _ => r

/-- The notification the wrapper sends for the pointer `p`. -/
def notify (p : Addr32) : AllocCall → Option Op
  | kmalloc size => some (.newMemoryAlloc 0 p size)
  | kcalloc n size => some (.newMemoryAlloc 0 p (n * size))
  | kmemCacheAlloc objsize => if p ≠ 0 then some (.newMemoryAlloc 0 p objsize) else none
  | kmallocTrackCaller size => some (.newMemoryAlloc 0 p size)
  | allocPagesNode order => some (.newMemoryAlloc 0 p (pagesSize order))

/-- The matching free function. -/
def family : AllocCall → Family
  | kmalloc _ => .kfree
  | kcalloc _ _ => .kfree
  | kmemCacheAlloc _ => .kmemCacheFree
  | kmallocTrackCaller _ => .kfree
  | allocPagesNode _ => .freePages

/-- The wrapper tests its pointer for `NULL`. -/
def testsNull : AllocCall → Bool
  | kmemCacheAlloc _ => true
  | _ => false

end AllocCall

/-- A call of a free wrapper. `lastReference` is the result of `put_page_testzero`. -/
inductive FreeCall where
  | kfree (x : Addr32)
  | kmemCacheFree (x : Addr32)
  | doFreePages (address order : Word32) (lastReference : Bool)
  | freePages (address order : Word32) (lastReference : Bool)
  deriving DecidableEq, Repr

/-- A block the guest has obtained. -/
structure Block where
  address : Addr32
  size : Word32
  family : Family
  deriving DecidableEq, Repr

/-- The entry that records a block. -/
def Block.entry (b : Block) : Entry := (⟨b.address, b.size⟩, ⟨0⟩)

namespace FreeCall

/-- The pointer passed. -/
def address : FreeCall → Addr32
  | kfree x => x
  | kmemCacheFree x => x
  | doFreePages address _ _ => address
  | freePages address _ _ => address

/-- The notification the wrapper sends. `__free_pages` sends it for the last reference, and
`free_pages` calls `__free_pages` unless its address is zero. -/
def notify : FreeCall → Option Op
  | kfree x => some (.freeMemory 0 x)
  | kmemCacheFree x => some (.freeMemory 0 x)
  | doFreePages address order lastReference =>
      if lastReference then some (.freeSizeMemory 0 address (pagesSize order)) else none
  | freePages address order lastReference =>
      if address ≠ 0 then
        if lastReference then some (.freeSizeMemory 0 address (pagesSize order)) else none
      else none

/-- The call gives its block back to the allocator. -/
def gives : FreeCall → Bool
  | kfree _ => true
  | kmemCacheFree _ => true
  | doFreePages _ _ lastReference => lastReference
  | freePages _ _ lastReference => lastReference

/-- The block is the one the call frees, and the function is the matching one. -/
def isFor (b : Block) : FreeCall → Bool
  | kfree x => b.family = .kfree ∧ b.address = x
  | kmemCacheFree x => b.family = .kmemCacheFree ∧ b.address = x
  | doFreePages address order _ =>
      b.family = .freePages ∧ b.address = address ∧ b.size = pagesSize order
  | freePages address order _ =>
      b.family = .freePages ∧ b.address = address ∧ b.size = pagesSize order

end FreeCall

/-! ### Runs -/

/-- The shadow memory and the blocks the guest holds. -/
structure GuestHeap where
  shadow : ShadowMemory
  live : List Block

/-- A call of the guest, with the allocator's answer. -/
inductive GuestCall where
  | alloc (c : AllocCall) (r : Addr32)
  | free (c : FreeCall)
  deriving DecidableEq, Repr

/-- The notification of a guest call. -/
def GuestCall.notify : GuestCall → Option Op
  | alloc c r => c.notify (c.result r)
  | free c => c.notify

/-- The call obtains no block that reaches the end of the address space. -/
def GuestCall.EndsBelow : GuestCall → Prop
  | alloc c r => c.result r ≠ 0 → (c.result r).toNat + c.size.toNat ≠ 2 ^ 32
  | free _ => True

namespace GuestHeap

/-- The blocks held after a guest call. -/
def liveAfter (g : GuestHeap) : GuestCall → List Block
  | .alloc c r =>
      if c.result r = 0 then g.live else ⟨c.result r, c.size, c.family⟩ :: g.live
  | .free c => if c.gives then g.live.eraseP (c.isFor ·) else g.live

/-- The shadow call a guest call makes, if any. -/
def shadowCall (B : ShadowMemory.Balancer) (g : GuestHeap) (a : GuestCall) : Option Call :=
  a.notify.map fun op => op.perform B g.shadow

/-- The effect of a guest call, which rebalances in its own way. -/
def step (g : GuestHeap) (a : ShadowMemory.Balancer × GuestCall) : GuestHeap :=
  ⟨match g.shadowCall a.1 a.2 with
    | some call => call.shadow
    | none => g.shadow, g.liveAfter a.2⟩

/-- The blocks a new one must not overlap: those held, and those recorded at the start. -/
def inUse (s : ShadowMemory) (g : GuestHeap) : List MemoryAlloc :=
  g.live.map (fun b => b.entry.1) ++ s.entries.map Prod.fst

/-- What the allocator promises of its answers and a correct guest of its frees. -/
def Contract (s : ShadowMemory) (g : GuestHeap) : GuestCall → Prop
  | .alloc c r =>
      c.result r = 0 ∨ (c.size = 0 ∧ c.result r = zeroSizePtr) ∨
        (c.size ≠ 0 ∧ (c.result r).toNat + c.size.toNat ≤ 2 ^ 32 ∧
          ∀ k ∈ inUse s g, ∀ q, k.Covers q →
            ¬ (⟨c.result r, c.size⟩ : MemoryAlloc).Covers q)
  | .free c => c.address = 0 ∨ ∃ b ∈ g.live, c.isFor b = true

/-- A failed request is made through the wrapper that tests for `NULL`, and a zero-sized
block shares its address with no block in use. -/
def Careful (s : ShadowMemory) (g : GuestHeap) : GuestCall → Prop
  | .alloc c r =>
      (c.result r = 0 → c.testsNull = true) ∧
        (c.result r ≠ 0 → ∀ k ∈ inUse s g, k.size = 0 ∨ c.size = 0 →
          ¬ k.extent.Meets (⟨c.result r, c.size⟩ : MemoryAlloc).extent)
  | .free _ => True

/-- What the map asks of the blocks beside entries that end at `2 ^ 32`: a new block is put
at a slot that separates, one that reaches the end of the address space is obtained only
while no shorter one is held, and it is never freed. -/
def Placed (g : GuestHeap) : GuestCall → Prop
  | .alloc c r => c.result r ≠ 0 →
      g.shadow.Separates ⟨c.result r, c.size⟩ ∧
        ((⟨c.result r, c.size⟩ : MemoryAlloc).Fits ∨ ∀ b ∈ g.live, ¬ b.entry.1.Fits)
  | .free c => c.gives = true → ∀ b ∈ g.live, c.isFor b = true → b.entry.1.Fits

end GuestHeap

/-! ### Lists of blocks -/

/-- The entries that record the blocks. -/
def blockEntries (L : List Block) : Set Entry := {f | ∃ b ∈ L, f = b.entry}

section BlockEntries

variable {L M : List Block} {b : Block} {F : Set Entry}

theorem blockEntries_nil : blockEntries [] = ∅ :=
  Set.eq_empty_of_forall_notMem fun _ ⟨_, hb, _⟩ => absurd hb List.not_mem_nil

theorem blockEntries_cons (b : Block) (L : List Block) :
    blockEntries (b :: L) = insert b.entry (blockEntries L) := by
  refine Set.ext fun f => ?_
  simp only [blockEntries, Set.mem_ofPred_eq, Set.mem_insert_iff, List.mem_cons,
    or_and_right, exists_or, exists_eq_left]

theorem blockEntries_perm (h : L.Perm M) : blockEntries L = blockEntries M :=
  Set.ext fun _ => exists_congr fun _ => and_congr_left' h.mem_iff

/-- Beside entries and blocks that it does not meet, a block taken away takes away its
entry only. -/
theorem sdiff_blockEntries (hperm : L.Perm (b :: M))
    (hF : ∀ e ∈ F, ¬ e.1.extent.Meets b.entry.1.extent)
    (hM : ∀ c ∈ M, ¬ c.entry.1.extent.Meets b.entry.1.extent) :
    (F ∪ blockEntries L) \ {b.entry} = F ∪ blockEntries M := by
  have hother : b.entry ∉ F ∪ blockEntries M := by
    rintro (hmem | ⟨c, hc, heq⟩)
    · exact hF _ hmem (Extent.meets_self _)
    · exact hM c hc (heq ▸ Extent.meets_self _)
  rw [blockEntries_perm hperm, blockEntries_cons, Set.union_insert,
    Set.insert_sdiff_of_mem _ (Set.mem_singleton _)]
  exact Set.sdiff_singleton_eq_self hother

end BlockEntries

/-! ### One call -/

namespace GuestHeap

/-- The shadow memory holds the blocks of the guest beside the initial entries, and all are
apart. -/
structure Tracked (s : ShadowMemory) (g : GuestHeap) : Prop where
  holds : g.shadow.Holds s.entries (blockEntries g.live)
  apart : g.live.Pairwise fun b c => ¬ b.entry.1.extent.Meets c.entry.1.extent
  outside : ∀ b ∈ g.live, ∀ e ∈ s.entries, ¬ e.1.extent.Meets b.entry.1.extent
  address : ∀ b ∈ g.live, b.address ≠ 0

variable {s : ShadowMemory} {g : GuestHeap}

theorem Tracked.init (s : ShadowMemory) : Tracked s ⟨s, []⟩ := by
  refine ⟨?_, List.Pairwise.nil, fun b hb => absurd hb List.not_mem_nil,
    fun b hb => absurd hb List.not_mem_nil⟩
  rw [blockEntries_nil]
  exact ShadowMemory.Holds.self s

theorem Tracked.not_mem (h : Tracked s g) {b : Block} (hb : b ∈ g.live) :
    b.entry ∉ s.entries :=
  fun hin => h.outside b hb b.entry hin (Extent.meets_self _)

/-- Taking a block away from those held takes away its entry only. -/
theorem Tracked.blockEntries_erase (h : Tracked s g) {l l' : List Block} {b : Block}
    (hlive : g.live = l ++ b :: l') :
    blockEntries g.live \ {b.entry} = blockEntries (l ++ l') := by
  have hperm : g.live.Perm (b :: (l ++ l')) := hlive ▸ List.perm_middle
  have hapart := (hperm.pairwise_iff fun hbc hm => hbc hm.symm).mp h.apart
  have hset := sdiff_blockEntries (F := ∅) hperm (fun e he => absurd he (Set.notMem_empty e))
    fun c hc hm => (List.pairwise_cons.mp hapart).1 c hc hm.symm
  rwa [Set.empty_union, Set.empty_union] at hset

/-- Removing a block keeps the rest apart. -/
theorem Tracked.erase (h : Tracked s g) {l l' : List Block} {b : Block} {s' : ShadowMemory}
    (hlive : g.live = l ++ b :: l')
    (hs' : s'.Holds s.entries (blockEntries g.live \ {b.entry})) :
    Tracked s ⟨s', l ++ l'⟩ := by
  have hsub : (l ++ l').Sublist g.live := by
    rw [hlive]
    exact List.Sublist.append_left (List.sublist_cons_self b l') l
  refine ⟨h.blockEntries_erase hlive ▸ hs', h.apart.sublist hsub, fun c hc => ?_,
    fun c hc => ?_⟩
  · exact h.outside c (hsub.mem hc)
  · exact h.address c (hsub.mem hc)

end GuestHeap

/-- A free of a matching block that gives it back is one of the three ways of releasing
its entry. -/
theorem FreeCall.notify_of_isFor {c : FreeCall} {b : Block} (h : c.isFor b = true)
    (hb : b.address ≠ 0) (hg : c.gives = true) :
    ∃ kind : ReleaseKind, c.notify = some (kind.op b.entry) := by
  cases c with
  | kfree x =>
      simp only [isFor, decide_eq_true_eq] at h
      exact ⟨.free, by rw [notify, ← h.2]; rfl⟩
  | kmemCacheFree x =>
      simp only [isFor, decide_eq_true_eq] at h
      exact ⟨.free, by rw [notify, ← h.2]; rfl⟩
  | doFreePages address order lastReference =>
      simp only [isFor, decide_eq_true_eq] at h
      have hlast : lastReference = true := hg
      refine ⟨.freeSize, ?_⟩
      rw [notify, if_pos hlast, ← h.2.1, ← h.2.2]
      rfl
  | freePages address order lastReference =>
      simp only [isFor, decide_eq_true_eq] at h
      have hlast : lastReference = true := hg
      refine ⟨.freeSize, ?_⟩
      rw [notify, ← h.2.1, if_pos hb, if_pos hlast, ← h.2.2]
      rfl

/-- A free that keeps its block notifies nobody. -/
theorem FreeCall.notify_of_not_gives {c : FreeCall} (hg : c.gives = false) :
    c.notify = none := by
  cases c with
  | kfree x => cases hg
  | kmemCacheFree x => cases hg
  | doFreePages address order lastReference =>
      simp only [gives] at hg
      simp [notify, hg]
  | freePages address order lastReference =>
      simp only [gives] at hg
      simp [notify, hg]

/-- Freeing address zero succeeds without effect. -/
theorem FreeCall.perform_of_null {c : FreeCall} (h : c.address = 0)
    (B : ShadowMemory.Balancer) (s : ShadowMemory) {op : Op} (hop : c.notify = some op) :
    op.perform B s = ⟨0, s, [], []⟩ := by
  cases c with
  | kfree x =>
      simp only [address] at h
      subst h
      rw [← Option.some.inj hop]
      rfl
  | kmemCacheFree x =>
      simp only [address] at h
      subst h
      rw [← Option.some.inj hop]
      rfl
  | doFreePages address order lastReference =>
      simp only [FreeCall.address] at h
      subst h
      simp only [notify, Option.ite_none_right_eq_some] at hop
      rw [← Option.some.inj hop.2]
      rfl
  | freePages address order lastReference =>
      simp only [FreeCall.address] at h
      subst h
      simp [notify] at hop

/-- A wrapper that delivers a pointer records the block at it. -/
theorem AllocCall.notify_of_ne_null (c : AllocCall) {p : Addr32} (hp : p ≠ 0) :
    c.notify p = some (Block.entry ⟨p, c.size, c.family⟩).allocOp := by
  cases c with
  | kmemCacheAlloc objsize =>
      rw [notify, if_pos hp]
      rfl
  | _ => rfl

namespace GuestHeap

variable {s : ShadowMemory} {g : GuestHeap} (B : ShadowMemory.Balancer)

/-- A careful answer of the allocator is apart from everything in use. -/
theorem not_meets_of_careful {c : AllocCall} {r : Addr32}
    (hc : Contract s g (.alloc c r)) (hcare : Careful s g (.alloc c r))
    (hp : c.result r ≠ 0) {k : MemoryAlloc} (hk : k ∈ inUse s g) :
    ¬ k.extent.Meets (⟨c.result r, c.size⟩ : MemoryAlloc).extent := by
  have hzero := hcare.2 hp k hk
  rcases hc with hnull | ⟨hsize, -⟩ | ⟨hsize, -, hover⟩
  · exact absurd hnull hp
  · exact hzero (Or.inr hsize)
  · intro hm
    by_cases hk0 : k.size = 0
    · exact hzero (Or.inl hk0) hm
    · -- neither is empty, so meeting is sharing a byte
      obtain ⟨q, hq, hq'⟩ := Extent.meets_iff_exists.mp hm
      exact hover k hk q (MemoryAlloc.covers_of_contains hk0 hq)
        (MemoryAlloc.covers_of_contains hsize hq')

theorem inUse_of_entry {e : Entry} (he : e ∈ s.entries) : e.1 ∈ inUse s g :=
  List.mem_append_right _ (List.mem_map_of_mem he)

theorem inUse_of_live {b : Block} (hb : b ∈ g.live) : b.entry.1 ∈ inUse s g :=
  List.mem_append_left _ (List.mem_map_of_mem hb)

/-- A failed request of a careful guest is not notified. -/
theorem notify_of_null {c : AllocCall} {r : Addr32} (hcare : Careful s g (.alloc c r))
    (hp : c.result r = 0) : (GuestCall.alloc c r).notify = none := by
  have htest := hcare.1 hp
  cases c with
  | kmemCacheAlloc objsize => simp [GuestCall.notify, AllocCall.notify, hp]
  | _ => cases htest

/-- What a free of a correct guest is: one of the three ways of releasing a block it holds,
which it then gives up, or a call that changes nothing and returns `0`. -/
theorem free_cases (h : Tracked s g) {c : FreeCall} (hc : Contract s g (.free c)) :
    (∃ b l l' kind, g.live = l ++ b :: l' ∧ c.gives = true ∧ c.isFor b = true ∧
      c.notify = some (ReleaseKind.op b.entry kind) ∧ g.liveAfter (.free c) = l ++ l') ∨
    (g.liveAfter (.free c) = g.live ∧
      ∀ op, c.notify = some op → ∀ B, op.perform B g.shadow = ⟨0, g.shadow, [], []⟩) := by
  by_cases hg : c.gives = true
  · by_cases hlive : ∃ b ∈ g.live, c.isFor b = true
    · obtain ⟨b', hb', hfor'⟩ := hlive
      obtain ⟨b, l, l', -, hfor, hsplit, herase⟩ :=
        List.exists_of_eraseP (p := fun b => c.isFor b) hb' hfor'
      have hb : b ∈ g.live := hsplit ▸ List.mem_append_right l List.mem_cons_self
      obtain ⟨kind, hnotify⟩ := FreeCall.notify_of_isFor hfor (h.address b hb) hg
      refine Or.inl ⟨b, l, l', kind, hsplit, hg, hfor, hnotify, ?_⟩
      rw [liveAfter, if_pos hg, herase]
    · -- the address is zero: nothing is freed
      have hnull : c.address = 0 := hc.resolve_right hlive
      refine Or.inr ⟨?_, fun op hop B => FreeCall.perform_of_null hnull B g.shadow hop⟩
      rw [liveAfter, if_pos hg]
      exact List.eraseP_of_forall_not fun b hb hfor => hlive ⟨b, hb, hfor⟩
  · refine Or.inr ⟨by rw [liveAfter, if_neg hg], fun op hop => ?_⟩
    rw [FreeCall.notify_of_not_gives (Bool.not_eq_true _ ▸ hg)] at hop
    cases hop

theorem shadowCall_eq_some {a : GuestCall} {op : Op} (h : a.notify = some op) :
    g.shadowCall B a = some (op.perform B g.shadow) := by
  rw [shadowCall, h]
  rfl

theorem Tracked.step_alloc (h : Tracked s g) {c : AllocCall} {r : Addr32}
    (hc : Contract s g (.alloc c r)) (hcare : Careful s g (.alloc c r))
    (hplaced : Placed g (.alloc c r)) :
    (∀ call, g.shadowCall B (.alloc c r) = some call → call.ret = 0) ∧
      Tracked s (g.step (B, .alloc c r)) := by
  by_cases hp : c.result r = 0
  · -- only `kmem_cache_alloc` may have failed, and it keeps silent
    have hnone : g.shadowCall B (.alloc c r) = none := by
      rw [shadowCall, notify_of_null hcare hp]
      rfl
    simp only [GuestHeap.step, hnone, liveAfter, if_pos hp]
    exact ⟨fun call hcall => (by cases hcall), h⟩
  · have hapart := fun {k} => not_meets_of_careful hc hcare hp (k := k)
    have hcall := shadowCall_eq_some (g := g) B (a := .alloc c r) (c.notify_of_ne_null hp)
    obtain ⟨hsep, hfits⟩ := hplaced hp
    obtain ⟨hret, hholds⟩ := h.holds.newMemoryAlloc B
      (e := Block.entry ⟨c.result r, c.size, c.family⟩) hsep
      (fun f ⟨b, hb, hf⟩ => hf ▸ hapart (inUse_of_live hb))
      (hfits.imp_right fun hall f ⟨b, hb, hf⟩ => hf ▸ hall b hb)
    simp only [GuestHeap.step, hcall, liveAfter, if_neg hp, Option.some.injEq]
    refine ⟨fun call heq => heq ▸ hret, ?_, ?_, ?_, ?_⟩
    · rw [blockEntries_cons]
      exact hholds
    · exact List.pairwise_cons.mpr ⟨fun b hb hm => hapart (inUse_of_live hb) hm.symm, h.apart⟩
    · exact List.forall_mem_cons.mpr
        ⟨fun e he => hapart (inUse_of_entry he), h.outside⟩
    · exact List.forall_mem_cons.mpr ⟨hp, h.address⟩

theorem Tracked.step_free (h : Tracked s g) {c : FreeCall} (hc : Contract s g (.free c))
    (hplaced : Placed g (.free c)) :
    (∀ call, g.shadowCall B (.free c) = some call → call.ret = 0) ∧
      Tracked s (g.step (B, .free c)) := by
  obtain ⟨b, l, l', kind, hlive, hg, hfor, hnotify, hafter⟩ | ⟨hafter, hnull⟩ :=
    free_cases h hc
  · have hb : b ∈ g.live := hlive ▸ List.mem_append_right l List.mem_cons_self
    have hcall := shadowCall_eq_some (g := g) B (a := .free c) hnotify
    obtain ⟨hret, hholds⟩ := h.holds.release B ⟨b, hb, rfl⟩ (h.not_mem hb)
      (hplaced hg b hb hfor) (h.address b hb) kind
    simp only [GuestHeap.step, hcall, hafter, Option.some.injEq]
    exact ⟨fun call heq => heq ▸ hret, h.erase hlive hholds⟩
  · simp only [GuestHeap.step, hafter, shadowCall, GuestCall.notify]
    cases hop : c.notify with
    | none => exact ⟨fun call hcall => (by cases hcall), h⟩
    | some op =>
        simp only [Option.map_some, hnull op hop B, Option.some.injEq]
        exact ⟨fun call heq => heq ▸ rfl, h⟩

/-- **One call of the guest** succeeds in the shadow memory and keeps it in step with the
blocks held. -/
theorem Tracked.step (h : Tracked s g) {a : ShadowMemory.Balancer × GuestCall}
    (hc : Contract s g a.2) (hcare : Careful s g a.2) (hplaced : Placed g a.2) :
    (∀ call, g.shadowCall a.1 a.2 = some call → call.ret = 0) ∧ Tracked s (g.step a) := by
  obtain ⟨B, a⟩ := a
  cases a with
  | alloc c r => exact h.step_alloc B hc hcare hplaced
  | free c => exact h.step_free B hc hplaced

/-! ### Well-formed maps -/

theorem fits_of_endsBelow {c : AllocCall} {r : Addr32} (hc : Contract s g (.alloc c r))
    (hend : (GuestCall.alloc c r).EndsBelow) (hp : c.result r ≠ 0) :
    (⟨c.result r, c.size⟩ : MemoryAlloc).Fits := by
  have hlt := (c.result r).toNat_lt
  rw [MemoryAlloc.Fits]
  rcases hc with hnull | ⟨hsize, -⟩ | ⟨-, hle, -⟩
  · exact absurd hnull hp
  · simpa [hsize] using hlt
  · exact lt_of_le_of_ne hle (hend hp)

/-- On a well-formed map the slot of a careful guest's block separates, and every block held
can be freed. -/
theorem Tracked.placed (h : Tracked s g) (hwf : g.shadow.WellFormed) {a : GuestCall}
    (hc : Contract s g a) (hcare : Careful s g a) (hend : a.EndsBelow) : Placed g a := by
  cases a with
  | alloc c r =>
      intro hp
      have hfits := fits_of_endsBelow hc hend hp
      refine ⟨hwf.separates hfits fun e he => ?_, Or.inl hfits⟩
      rcases (h.holds.mem_iff e).mp he with he | ⟨b, hb, rfl⟩
      · exact not_meets_of_careful hc hcare hp (inUse_of_entry he)
      · exact not_meets_of_careful hc hcare hp (inUse_of_live hb)
  | free c =>
      intro _ b hb _
      exact hwf.fits b.entry ((h.holds.mem_iff _).mpr (Or.inr ⟨b, hb, rfl⟩))

/-- Calls of a careful guest whose blocks end below `2 ^ 32` keep the map well-formed. -/
theorem Tracked.wellFormed_step (h : Tracked s g) (hwf : g.shadow.WellFormed)
    {a : GuestCall} (hc : Contract s g a) (hcare : Careful s g a) (hend : a.EndsBelow) :
    (g.step (B, a)).shadow.WellFormed := by
  have hsound : ∀ op, a.notify = some op → (op.perform B g.shadow).shadow.WellFormed := by
    intro op hop
    cases a with
    | alloc c r =>
        by_cases hp : c.result r = 0
        · rw [notify_of_null hcare hp] at hop
          cases hop
        · obtain rfl := Option.some.inj ((c.notify_of_ne_null hp).symm.trans hop)
          exact hwf.perform_alloc B (fits_of_endsBelow hc hend hp)
    | free c =>
        obtain ⟨b, l, l', kind, hlive, -, -, hnotify, -⟩ | ⟨-, hnull⟩ := free_cases h hc
        · obtain rfl := Option.some.inj (hnotify.symm.trans hop)
          have hb : b ∈ g.live := hlive ▸ List.mem_append_right l List.mem_cons_self
          have he := (h.holds.mem_iff b.entry).mpr (Or.inr ⟨b, hb, rfl⟩)
          exact hwf.perform_release B he kind
        · rw [hnull op hop B]
          exact hwf
  simp only [GuestHeap.step, shadowCall]
  cases hop : a.notify with
  | none => exact hwf
  | some op => exact hsound op hop

end GuestHeap

/-! ### Whole runs -/

/-- **No false reports on a careful guest.** In every run of guest calls that keep the
contract, are careful and are placed, from any map and however each call rebalances, every
shadow call succeeds, and when the guest holds no block the map is the initial one. All calls
are placed if the map was reached, its entries end below `2 ^ 32` and so do the blocks. -/
theorem calls_succeed_and_restore {s : ShadowMemory}
    {acts : List (ShadowMemory.Balancer × GuestCall)}
    (hrun : Run.Along GuestHeap.step
      (fun g a => GuestHeap.Contract s g a.2 ∧ GuestHeap.Careful s g a.2) ⟨s, []⟩ acts) :
    (s.Reachable → (∀ f ∈ s.entries, f.1.address.toNat + f.1.size.toNat < 2 ^ 32) →
      (∀ a ∈ acts, a.2.EndsBelow) →
      Run.Along GuestHeap.step (fun g a => GuestHeap.Placed g a.2) ⟨s, []⟩ acts) ∧
    (Run.Along GuestHeap.step (fun g a => GuestHeap.Placed g a.2) ⟨s, []⟩ acts →
      (∀ pre a post, acts = pre ++ a :: post → ∀ call,
        (Run.final GuestHeap.step ⟨s, []⟩ pre).shadowCall a.1 a.2 = some call →
          call.ret = 0) ∧
      ∀ pre post, acts = pre ++ post →
        (Run.final GuestHeap.step ⟨s, []⟩ pre).live = [] →
          (Run.final GuestHeap.step ⟨s, []⟩ pre).shadow.entries = s.entries) := by
  refine ⟨fun hreach hentries hends => ?_, fun hplaced => ?_⟩
  · exact (hrun.and (Run.along_of_forall hends)).imp
      (I := fun g => GuestHeap.Tracked s g ∧ g.shadow.WellFormed)
      (fun g a hg ha => by
        have hp := hg.1.placed hg.2 ha.1.1 ha.1.2 ha.2
        exact ⟨(hg.1.step ha.1.1 ha.1.2 hp).2, hg.1.wellFormed_step a.1 hg.2 ha.1.1 ha.1.2 ha.2⟩)
      ⟨GuestHeap.Tracked.init s, hreach.wellFormed_of_fits hentries⟩
      (fun g a hg ha => hg.1.placed hg.2 ha.1.1 ha.1.2 ha.2)
  · have hall := hrun.and hplaced
    have hstep := fun g (a : ShadowMemory.Balancer × GuestCall)
      (h : GuestHeap.Tracked s g)
      (ha : (GuestHeap.Contract s g a.2 ∧ GuestHeap.Careful s g a.2) ∧
        GuestHeap.Placed g a.2) => (h.step ha.1.1 ha.1.2 ha.2).2
    refine ⟨fun pre a post heq => ?_, fun pre post heq hlive => ?_⟩
    · subst heq
      obtain ⟨htracked, ⟨hc, hcare⟩, hp⟩ := hall.at hstep (GuestHeap.Tracked.init s)
      exact (htracked.step hc hcare hp).1
    · subst heq
      have htracked := (Run.along_append.mp hall).1.final hstep (GuestHeap.Tracked.init s)
      have hholds := htracked.holds
      rw [hlive, blockEntries_nil] at hholds
      exact hholds.entries_eq

/-- A failed `kmem_cache_alloc`, a block and two pages, all freed again, beside the last page
of the address space. -/
theorem calls_succeed_and_restore_mixed :
    (Run.final GuestHeap.step ⟨ShadowMemory.lastPage, []⟩
      [(.id, .alloc (.kmemCacheAlloc 32) 0), (.id, .alloc (.kmalloc 64) 0xc1000000),
        (.id, .alloc (.allocPagesNode 1) 0xc2000000), (.id, .free (.kfree 0xc1000000)),
        (.id, .free (.doFreePages 0xc2000000 1 true))]).shadow.entries =
      ShadowMemory.lastPage.entries := by
  have hbytes : ∀ {k k' : MemoryAlloc}, ¬ k.extent.Meets k'.extent → ∀ q, k.Covers q →
      ¬ k'.Covers q :=
    fun hm q hq hq' => hm (Extent.meets_iff_exists.mpr ⟨q, hq.contains, hq'.contains⟩)
  have hrun : Run.Along GuestHeap.step
      (fun g a => GuestHeap.Contract ShadowMemory.lastPage g a.2 ∧
        GuestHeap.Careful ShadowMemory.lastPage g a.2) ⟨ShadowMemory.lastPage, []⟩
      [(.id, .alloc (.kmemCacheAlloc 32) 0), (.id, .alloc (.kmalloc 64) 0xc1000000),
        (.id, .alloc (.allocPagesNode 1) 0xc2000000), (.id, .free (.kfree 0xc1000000)),
        (.id, .free (.doFreePages 0xc2000000 1 true))] := by
    refine ⟨⟨Or.inl rfl, fun _ => rfl, fun h => absurd rfl h⟩,
      ⟨Or.inr (Or.inr ⟨by decide, by decide, fun k hk => hbytes ?_⟩), by decide, by decide⟩,
      ⟨Or.inr (Or.inr ⟨by decide, by decide, fun k hk => hbytes ?_⟩), by decide, by decide⟩,
      ⟨Or.inr ⟨⟨0xc1000000, 64, .kfree⟩, by decide, by decide⟩, trivial⟩,
      ⟨Or.inr ⟨⟨0xc2000000, 0x2000, .freePages⟩, by decide, by decide⟩, trivial⟩, trivial⟩
    · revert k
      decide
    · revert k
      decide
  exact ((calls_succeed_and_restore hrun).2 ⟨fun h => absurd rfl h,
    fun _ => ⟨by decide, Or.inl (by decide)⟩, fun _ => ⟨by decide, Or.inl (by decide)⟩,
    fun _ => by decide, fun _ => by decide, trivial⟩).2 _ [] (List.append_nil _).symm (by decide)

/-- Two failed calls of `kmalloc`: the second one is reported as a collision. -/
theorem failed_kmalloc_reported :
    Run.Along GuestHeap.step (fun g a => GuestHeap.Contract ShadowMemory.empty g a.2)
        ⟨ShadowMemory.empty, []⟩
        [(.id, .alloc (.kmalloc 32) 0), (.id, .alloc (.kmalloc 64) 0)] ∧
      ((Run.final GuestHeap.step ⟨ShadowMemory.empty, []⟩
        [(.id, .alloc (.kmalloc 32) 0)]).shadowCall SearchTree.Balancer.id
          (.alloc (.kmalloc 64) 0)).map Call.ret = some 1 := by
  refine ⟨⟨Or.inl rfl, Or.inl rfl, trivial⟩, by decide⟩

end MemCheck
