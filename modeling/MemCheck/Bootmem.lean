import MemCheck.Placement

/-!
# Boot Memory

The boot allocator of the patched kernel (`GuestKernelPatch.diff`, `mm/bootmem.c` and
`mm/MemCheck.c`) speaks two kinds of addresses. The reservations and the free functions are
given *physical* addresses, the allocations deliver *linear* ones, and the checker knows
linear addresses only. Each entry point converts, or not, before it notifies the checker:
`reserve_bootmem`, `reserve_bootmem_node` and `free_bootmem_node` pass `__va` of their
argument, `free_bootmem` passes its argument as it is.

## Main results

* `not_restores`: a free under another address than the recorded one releases nothing;
* `separates_of_restores`: a block that is released in every shape of the tree was put where
  lookups of its address are sent;
* `bootmem_restores_iff`: a block is released under the address it was recorded with exactly
  by `free_bootmem_node`.
-/

namespace MemCheck

/-- `__va`: the linear address of a physical one. -/
def va (x : Addr32) : Addr32 := x + 0xc0000000

theorem va_ne_self (x : Addr32) : va x ≠ x := by
  intro h
  have h0 : (0xc0000000 : UInt32) = 0 := by
    rw [va] at h
    grind
  exact absurd h0 (by decide)

/-! ### The entry points -/

/-- A call that records boot memory. A reservation is given a physical address and is
refused when `can_reserve_bootmem_core` refuses it; an allocation delivers the pointer `p`. -/
inductive BootmemCall where
  | reserveBootmem (addr size : Word32) (canReserve : Bool)
  | reserveBootmemNode (physaddr size : Word32) (canReserve : Bool)
  | allocBootmemNopanic (size : Word32) (p : Addr32)
  | allocBootmemNode (size : Word32) (p : Addr32)
  | allocBootmemSection (size : Word32) (p : Addr32)
  | allocBootmemLow (size : Word32) (p : Addr32)
  | allocBootmemLowNode (size : Word32) (p : Addr32)
  deriving DecidableEq, Repr

namespace BootmemCall

/-- The notification `MemCheck_Alloc` the call sends. -/
def notify : BootmemCall → Option Op
  | reserveBootmem addr size canReserve =>
      if canReserve then some (.newMemoryAlloc 0 (va addr) size) else none
  | reserveBootmemNode physaddr size canReserve =>
      if canReserve then some (.newMemoryAlloc 0 (va physaddr) size) else none
  | allocBootmemNopanic size p => some (.newMemoryAlloc 0 p size)
  | allocBootmemNode size p => some (.newMemoryAlloc 0 p size)
  | allocBootmemSection size p => some (.newMemoryAlloc 0 p size)
  | allocBootmemLow size p => some (.newMemoryAlloc 0 p size)
  | allocBootmemLowNode size p => some (.newMemoryAlloc 0 p size)

/-- The call records the block of `n` bytes at the physical address `a`: a reservation of it
that is granted, or an allocation that delivers its linear address. -/
def Records (a n : Word32) : BootmemCall → Prop
  | reserveBootmem addr size canReserve => addr = a ∧ size = n ∧ canReserve = true
  | reserveBootmemNode physaddr size canReserve =>
      physaddr = a ∧ size = n ∧ canReserve = true
  | allocBootmemNopanic size p => p = va a ∧ size = n
  | allocBootmemNode size p => p = va a ∧ size = n
  | allocBootmemSection size p => p = va a ∧ size = n
  | allocBootmemLow size p => p = va a ∧ size = n
  | allocBootmemLowNode size p => p = va a ∧ size = n

/-- Every entry point records a block under its linear address. -/
theorem Records.notify {a n : Word32} {c : BootmemCall} (h : c.Records a n) :
    c.notify = some (.newMemoryAlloc 0 (va a) n) := by
  cases c with
  | reserveBootmem addr size canReserve =>
      obtain ⟨rfl, rfl, rfl⟩ := h
      rfl
  | reserveBootmemNode physaddr size canReserve =>
      obtain ⟨rfl, rfl, rfl⟩ := h
      rfl
  | allocBootmemNopanic size p =>
      obtain ⟨rfl, rfl⟩ := h
      rfl
  | allocBootmemNode size p =>
      obtain ⟨rfl, rfl⟩ := h
      rfl
  | allocBootmemSection size p =>
      obtain ⟨rfl, rfl⟩ := h
      rfl
  | allocBootmemLow size p =>
      obtain ⟨rfl, rfl⟩ := h
      rfl
  | allocBootmemLowNode size p =>
      obtain ⟨rfl, rfl⟩ := h
      rfl

end BootmemCall

/-- The functions that free boot memory. -/
inductive BootmemFree where
  | freeBootmem
  | freeBootmemNode
  deriving DecidableEq, Repr

/-- The pointer a free of the physical address `addr` passes to the checker. -/
def BootmemFree.pointer (addr : Addr32) : BootmemFree → Addr32
  | freeBootmem => addr
  | freeBootmemNode => va addr

/-- The notification `MemCheck_FreeSize` a free sends. -/
def BootmemFree.notify (addr size : Word32) (f : BootmemFree) : Op :=
  .freeSizeMemory 0 (f.pointer addr) size

/-- Recording a block by the call `c` and freeing it by `f`: both notifications return `0`
and the map is restored, when the first rebalances by `B` and the second by `B'`. -/
def Restores (B B' : ShadowMemory.Balancer) (s : ShadowMemory) (c : BootmemCall)
    (f : BootmemFree) (a n : Word32) : Prop :=
  ∃ op, c.notify = some op ∧ (op.perform B s).ret = 0 ∧
    ((f.notify a n).perform B' (op.perform B s).shadow).ret = 0 ∧
    ((f.notify a n).perform B' (op.perform B s).shadow).shadow.entries = s.entries

/-! ### Release -/

section Release

open ShadowMemory

variable {B B' : Balancer} {s : ShadowMemory} {c : BootmemCall} {f : BootmemFree}
  {a n : Word32}

/-- A sized free that returns `0` keeps every entry, unless it begins at a pointer other than
zero, on any map. -/
theorem mem_of_freeSizeMemory_ret {p : Addr32} {e : Entry} {type : ℤ}
    (hret : (s.freeSizeMemory B type p n).ret = 0) (he : e ∈ s.entries)
    (hp : p ≠ 0 → e.1.address ≠ p) : e ∈ (s.freeSizeMemory B type p n).shadow.entries := by
  simp only [freeSizeMemory] at hret ⊢
  split_ifs at hret ⊢ with hzero
  · exact he
  cases hfind : s.find p 0 with
  | none => exact he
  | some pos =>
      simp only [hfind] at hret ⊢
      split_ifs at hret ⊢ with hb hsize hlt
      · exact absurd hret Int.one_ne_zero
      · exact he
      · -- the entry removed begins at the pointer
        exact mem_erase_of_ne B hfind he fun heq => hp hzero (heq ▸ hb)
      · exact he

/-- An allocation that returns `0` was accepted. -/
theorem existing_of_newMemoryAlloc_ret {p : Addr32} {type : ℤ}
    (hret : (s.newMemoryAlloc B type p n).ret = 0) :
    (s.insert B type p n).existing = none ∧
      (s.newMemoryAlloc B type p n).shadow = ⟨(s.insert B type p n).tree⟩ := by
  simp only [newMemoryAlloc] at hret ⊢
  cases hins : (s.insert B type p n).existing with
  | none => exact ⟨rfl, rfl⟩
  | some old =>
      simp only [hins] at hret
      exact absurd hret Int.one_ne_zero

/-- **A free under another address than the recorded one**, or under the address zero, does
not restore the map, whatever else is recorded. -/
theorem not_restores (hc : c.Records a n) (hnew : (⟨va a, n⟩, ⟨0⟩) ∉ s.entries)
    (hp : f.pointer a ≠ 0 → va a ≠ f.pointer a) : ¬ Restores B B' s c f a n := by
  rintro ⟨op, hop, hret, hfree, hentries⟩
  obtain rfl := Option.some.inj (hc.notify.symm.trans hop)
  obtain ⟨hins, hshadow⟩ := existing_of_newMemoryAlloc_ret hret
  have hrecorded : (⟨va a, n⟩, ⟨0⟩) ∈ (s.newMemoryAlloc B 0 (va a) n).shadow.entries := by
    rw [hshadow]
    exact (mem_insert_of_none B 0 hins).mpr (Or.inl rfl)
  have hkept := mem_of_freeSizeMemory_ret hfree hrecorded hp
  exact hnew (hentries ▸ hkept)

/-- `free_bootmem_node` releases every block put where lookups of its address are sent, if
that address is not zero. -/
theorem restores_freeBootmemNode (hc : c.Records a n) (hva : va a ≠ 0)
    (hfit : MemoryAlloc.Fits ⟨va a, n⟩) (hsep : s.Separates ⟨va a, n⟩)
    (hnew : (⟨va a, n⟩, ⟨0⟩) ∉ s.entries) : Restores B B' s c .freeBootmemNode a n := by
  have halloc := (Holds.self s).newMemoryAlloc B (e := (⟨va a, n⟩, ⟨0⟩)) hsep
    (fun g hg => absurd hg (Set.notMem_empty g)) (Or.inl hfit)
  have hrelease := halloc.2.release B' (Set.mem_insert _ _) hnew hfit hva .freeSize
  refine ⟨_, hc.notify, halloc.1, hrelease.1, ?_⟩
  rw [Set.insert_sdiff_of_mem _ (Set.mem_singleton _), Set.empty_sdiff] at hrelease
  exact hrelease.2.entries_eq

/-- A sized free that returns `0` found an entry of its address and size. -/
theorem find_of_freeSizeMemory_ret {p : Addr32} {type : ℤ} (hp : p ≠ 0)
    (hret : (s.freeSizeMemory B type p n).ret = 0) :
    ∃ pos, s.find p 0 = some pos ∧ pos.first = ⟨p, n⟩ := by
  simp only [freeSizeMemory, if_neg hp] at hret
  cases hfind : s.find p 0 with
  | none =>
      simp only [hfind] at hret
      exact absurd hret Int.one_ne_zero
  | some pos =>
      simp only [hfind] at hret
      split_ifs at hret with hb hsize
      · exact absurd hret Int.one_ne_zero
      · exact absurd hret Int.one_ne_zero
      · exact ⟨pos, rfl, by rw [← hb, ← not_not.mp hsize]⟩
      · exact absurd hret Int.one_ne_zero

/-- An entry of a sequence in which no other one has its key. -/
theorem index_eq_length {X Y : List Entry} {e f : Entry} {i : ℕ}
    (hget : (X ++ e :: Y)[i]? = some f) (hkey : f.1 = e.1)
    (hother : ∀ g ∈ X ++ Y, g.1 ≠ e.1) : i = X.length := by
  rcases lt_trichotomy i X.length with hlt | heq | hgt
  · rw [List.getElem?_append_left hlt] at hget
    exact absurd hkey (hother f (List.mem_append_left Y (List.mem_of_getElem? hget)))
  · exact heq
  · obtain ⟨j, rfl⟩ := Nat.exists_eq_add_of_lt hgt
    rw [List.getElem?_append_right (by omega), show X.length + j + 1 - X.length = j + 1 by omega,
      List.getElem?_cons_succ] at hget
    exact absurd hkey (hother f (List.mem_append_right X (List.mem_of_getElem? hget)))

/-- **Where a block must stand** to be released whatever shape the tree is given: the
allocation put it behind the entries below its address and in front of the others. -/
theorem separates_of_restores (hc : c.Records a n) (hva : va a ≠ 0)
    (hnew : ∀ e ∈ s.entries, e.1 ≠ ⟨va a, n⟩)
    (h : ∀ B, Restores B B' s c .freeBootmemNode a n) : s.Separates ⟨va a, n⟩ := by
  have hshapes : ∀ t : MemoryMap, t.toList =
      s.entries.take (SearchTree.slot MemoryAlloc.comp ⟨va a, n⟩ s.memoryMap) ++
        (⟨va a, n⟩, ⟨0⟩) ::
          s.entries.drop (SearchTree.slot MemoryAlloc.comp ⟨va a, n⟩ s.memoryMap) →
      ∃ j, SearchTree.lowerBound MemoryAlloc.comp ⟨va a, 0⟩ t = some j ∧ j.index =
        (s.entries.take (SearchTree.slot MemoryAlloc.comp ⟨va a, n⟩ s.memoryMap)).length := by
    intro t ht
    obtain ⟨op, hop, hret, hfree, -⟩ := h (.shape t)
    obtain rfl := Option.some.inj (hc.notify.symm.trans hop)
    obtain ⟨hins, hshadow⟩ := existing_of_newMemoryAlloc_ret hret
    have htree : (s.insert (.shape t) 0 (va a) n).tree = t :=
      SearchTree.insert_shape _ _ hins ht
    have hshadow' : (Op.perform (.shape t) s (.newMemoryAlloc 0 (va a) n)).shadow = ⟨t⟩ :=
      hshadow.trans (congrArg ShadowMemory.mk htree)
    rw [hshadow'] at hfree
    obtain ⟨pos, hfind, hfirst⟩ := find_of_freeSizeMemory_ret hva hfree
    obtain ⟨hbound, -⟩ := SearchTree.lowerBound_of_find _ _ hfind
    have hget := (SearchTree.lowerBound_eq_some _ _ hbound).1
    rw [ht] at hget
    refine ⟨pos, hbound, index_eq_length hget hfirst ?_⟩
    rw [List.take_append_drop]
    exact hnew
  have hsplit := SearchTree.splits_of_every_shape _ _ hshapes
  exact MemoryAlloc.splits_of_address (y := ⟨va a, 0⟩) rfl
    ⟨hsplit.below, fun y hy => hsplit.rest y (List.mem_cons_of_mem _ hy)⟩

end Release

/-- **Which boot memory is released under the address it was recorded with.** For every map,
for every block whose linear range ends below `2 ^ 32` and meets no recorded extent, and for
every entry point that records it: recording and freeing the block restores the map with every
call returning `0`, however the tree is rebalanced, if and only if the block is freed by
`free_bootmem_node`, its linear address is not zero, and the slot it is inserted at separates
the entries below its address from the others. The first two are necessary for each
rebalancing alone, and the last is true of every map whose entries end below `2 ^ 32`. -/
theorem bootmem_restores_iff {s : ShadowMemory} {c : BootmemCall} (f : BootmemFree)
    {a n : Word32} (hc : c.Records a n) (hend : (va a).toNat + n.toNat < 2 ^ 32)
    (hfree : ∀ e ∈ s.entries, ¬ e.1.extent.Meets (⟨va a, n⟩ : MemoryAlloc).extent) :
    ((∀ B B', Restores B B' s c f a n) ↔
        f = .freeBootmemNode ∧ va a ≠ 0 ∧ s.Separates ⟨va a, n⟩) ∧
      (∀ B B', Restores B B' s c f a n → f = .freeBootmemNode ∧ va a ≠ 0) ∧
      (s.WellFormed → s.Separates ⟨va a, n⟩) := by
  have hnew : ∀ e ∈ s.entries, e.1 ≠ ⟨va a, n⟩ := fun e he heq =>
    hfree e he (heq ▸ Extent.meets_self _)
  have hnot : (⟨va a, n⟩, ⟨0⟩) ∉ s.entries := fun hin => hnew _ hin rfl
  have honly : ∀ B B', Restores B B' s c f a n → f = .freeBootmemNode ∧ va a ≠ 0 := by
    intro B B' hrestores
    cases f with
    | freeBootmem =>
        exact absurd hrestores (not_restores hc hnot fun _ => va_ne_self a)
    | freeBootmemNode =>
        refine ⟨rfl, fun hzero => ?_⟩
        exact absurd hrestores (not_restores hc hnot fun hne => absurd hzero hne)
  refine ⟨⟨fun h => ?_, ?_⟩, honly, fun h => h.separates hend hfree⟩
  · obtain ⟨rfl, hva⟩ := honly .id .id (h .id .id)
    exact ⟨rfl, hva, separates_of_restores hc hva hnew fun B => h B .id⟩
  · rintro ⟨rfl, hva, hsep⟩ B B'
    exact restores_freeBootmemNode hc hva hend hsep hnot

/-- The first megabyte's last page, reserved and freed by its node, beside a page that ends
at `2 ^ 32`. -/
theorem bootmem_restores_iff_node :
    ShadowMemory.lastPage.Separates ⟨va 0x000ff000, 0x1000⟩ ∧
      ∀ B B', Restores B B' ShadowMemory.lastPage
        (.reserveBootmem 0x000ff000 0x1000 true) .freeBootmemNode 0x000ff000 0x1000 :=
  ⟨by decide, (bootmem_restores_iff .freeBootmemNode (c := .reserveBootmem 0x000ff000 0x1000 true)
    ⟨rfl, rfl, rfl⟩ (by decide) (by decide)).1.mpr ⟨rfl, by decide, by decide⟩⟩

/-- The same page freed by `free_bootmem`: the free fails, and the page stays recorded. -/
theorem free_bootmem_leaves_page :
    ¬ Restores SearchTree.Balancer.id SearchTree.Balancer.id ShadowMemory.empty
        (.reserveBootmem 0x000ff000 0x1000 true) .freeBootmem 0x000ff000 0x1000 ∧
      (Op.perform SearchTree.Balancer.id
        (Op.perform SearchTree.Balancer.id ShadowMemory.empty
          (.newMemoryAlloc 0 0xc00ff000 0x1000)).shadow
        (BootmemFree.freeBootmem.notify 0x000ff000 0x1000)).ret = 1 ∧
      (Op.perform SearchTree.Balancer.id
        (Op.perform SearchTree.Balancer.id ShadowMemory.empty
          (.newMemoryAlloc 0 0xc00ff000 0x1000)).shadow
        (BootmemFree.freeBootmem.notify 0x000ff000 0x1000)).shadow.entries =
          [(⟨0xc00ff000, 0x1000⟩, ⟨0⟩)] := by
  refine ⟨not_restores ⟨rfl, rfl, rfl⟩ List.not_mem_nil fun _ => va_ne_self _, ?_, ?_⟩
  · decide
  · decide

end MemCheck
