import MemCheck.Lib.IntervalTree
import MemCheck.ShadowMemory

/-!
# What the Shadow Memory's Operations Do to a Well-Formed Map

The comparator `MemoryAlloc.comp` is not a strict weak order on arbitrary intervals, so
the container is only meaningful while an invariant holds. The invariant is
`WellFormed`: in iteration order the recorded extents follow each other without
overlapping, and every entry ends below `2 ^ 32`. A block of size zero has the extent of
one byte, which is how the comparator treats it.

On a well-formed map the comparator of an entry that ends below `2 ^ 32` *is* the order of
extents (`MemoryAlloc.comp_iff`), so the map is a search tree of disjoint extents, and the
three things the operations do to it are exact:

* `WellFormed.find_eq_none_iff`: a lookup fails exactly when nothing meets the query;
* `WellFormed.mem_erase`: erasing a found entry removes that entry and no other;
* `WellFormed.insert_of_free` / `WellFormed.insert_of_meets`: an insertion succeeds
  exactly in free space, and then adds one entry.
-/

namespace MemCheck

/-- The block ends below the top of the address space: `a + m < 2 ^ 32`. -/
def MemoryAlloc.Fits (x : MemoryAlloc) : Prop :=
  x.address.toNat + x.size.toNat < 2 ^ 32

instance (x : MemoryAlloc) : Decidable x.Fits := inferInstanceAs (Decidable (_ < _))

/-- The extent `[a, a + max m 1)` of a block. -/
def MemoryAlloc.extent (x : MemoryAlloc) : Extent where
  start := x.address.toNat
  stop := x.address.toNat + max x.size.toNat 1
  start_lt_stop := by omega

@[simp] theorem MemoryAlloc.extent_start (x : MemoryAlloc) :
    x.extent.start = x.address.toNat := rfl

@[simp] theorem MemoryAlloc.extent_stop (x : MemoryAlloc) :
    x.extent.stop = x.address.toNat + max x.size.toNat 1 := rfl

/-- A block of size zero fits wherever it is. -/
theorem MemoryAlloc.fits_zero (p : Addr32) : MemoryAlloc.Fits ⟨p, 0⟩ := by
  have := p.toNat_lt
  simpa [MemoryAlloc.Fits] using this

/-- The extent of a point query is the one byte it asks for. -/
theorem MemoryAlloc.meets_zero {x : MemoryAlloc} {p : Addr32} :
    x.extent.Meets (⟨p, 0⟩ : MemoryAlloc).extent ↔ x.extent.Contains p.toNat := by
  simp only [Extent.Meets, Extent.Contains, extent_start, extent_stop, UInt32.toNat_zero]
  omega

/-- **The comparator is the order of extents**, for a left argument that fits. -/
theorem MemoryAlloc.comp_iff {x y : MemoryAlloc} (hx : x.Fits) :
    x.comp y = true ↔ x.extent.Before y.extent := by
  have hadd : (x.address + x.size).toNat = x.address.toNat + x.size.toNat := by
    rw [UInt32.toNat_add, Nat.mod_eq_of_lt hx]
  by_cases h : x.size = 0
  · have h0 : x.size.toNat = 0 := by rw [h]; rfl
    rw [comp, if_neg (not_not.mpr h), decide_eq_true_iff, UInt32.lt_iff_toNat_lt, hadd,
      Extent.Before, extent_start, extent_stop]
    omega
  · have h0 : x.size.toNat ≠ 0 := fun hc => h (UInt32.toNat_inj.mp hc)
    rw [comp, if_pos h, decide_eq_true_iff, UInt32.le_iff_toNat_le, hadd, Extent.Before,
      extent_start, extent_stop]
    omega

theorem MemoryAlloc.comp_eq_false_iff {x y : MemoryAlloc} (hx : x.Fits) :
    x.comp y = false ↔ ¬ x.extent.Before y.extent := by
  rw [← comp_iff hx, Bool.not_eq_true]

/-- An entry of the map. -/
abbrev Entry := MemoryAlloc × MemoryAllocContents

/-- The extent of an entry is that of its key. -/
def Entry.extent (e : Entry) : Extent := e.1.extent

namespace ShadowMemory

/-- The recorded entries, in iteration order. -/
def entries (s : ShadowMemory) : List Entry := s.memoryMap.toList

/-- The **representation invariant**: extents in address order, and every entry ends
below `2 ^ 32`. -/
structure WellFormed (s : ShadowMemory) : Prop where
  laid : Extent.Laid Entry.extent s.entries
  fits : ∀ e ∈ s.entries, e.1.Fits

theorem wellFormed_empty : empty.WellFormed :=
  ⟨List.Pairwise.nil, fun _ he => absurd he List.not_mem_nil⟩

variable {s : ShadowMemory}

/-- Two well-formed maps with the same entries have the same entry sequence. -/
theorem WellFormed.entries_eq {s' : ShadowMemory} (h : s.WellFormed) (h' : s'.WellFormed)
    (hmem : ∀ e, e ∈ s.entries ↔ e ∈ s'.entries) : s.entries = s'.entries :=
  h.laid.eq_of_mem_iff h'.laid hmem

/-- Entries whose extents meet are equal. -/
theorem WellFormed.eq_of_meets {e f : Entry} (h : s.WellFormed) (he : e ∈ s.entries)
    (hf : f ∈ s.entries) (hef : e.1.extent.Meets f.1.extent) : e = f :=
  h.laid.eq_of_meets he hf hef

/-- Entries that contain a common address are equal. -/
theorem WellFormed.eq_of_contains {e f : Entry} {q : ℕ} (h : s.WellFormed)
    (he : e ∈ s.entries) (hf : f ∈ s.entries) (heq : e.1.extent.Contains q)
    (hfq : f.1.extent.Contains q) : e = f :=
  h.eq_of_meets he hf (Extent.meets_iff_exists.mpr ⟨q, heq, hfq⟩)

/-! ### Lookup, erasure and insertion -/

/-- The comparator of the map orders the extents of its keys. -/
theorem ordersExtents_comp :
    SearchTree.OrdersExtents MemoryAlloc.comp MemoryAlloc.extent MemoryAlloc.Fits :=
  fun hx => MemoryAlloc.comp_iff hx

theorem WellFormed.spaced (h : s.WellFormed) :
    s.memoryMap.Spaced MemoryAlloc.extent MemoryAlloc.Fits :=
  ⟨h.laid, h.fits⟩

section Find

variable {p n : Word32}
  {pos : SearchTree.Iterator MemoryAlloc MemoryAllocContents}

/-- A found entry is recorded and meets the query. -/
theorem WellFormed.find_eq_some (h : s.WellFormed) (hk : MemoryAlloc.Fits ⟨p, n⟩)
    (hf : s.find p n = some pos) :
    s.entries[pos.index]? = some pos.deref ∧
      pos.first.extent.Meets (⟨p, n⟩ : MemoryAlloc).extent :=
  h.spaced.find_eq_some ordersExtents_comp hk hf

/-- **Lookup is exact**: it fails exactly when no recorded extent meets the query. -/
theorem WellFormed.find_eq_none_iff (h : s.WellFormed) (hk : MemoryAlloc.Fits ⟨p, n⟩) :
    s.find p n = none ↔
      ∀ e ∈ s.entries, ¬ e.1.extent.Meets (⟨p, n⟩ : MemoryAlloc).extent :=
  h.spaced.find_eq_none_iff ordersExtents_comp hk

/-- A point query that succeeds stands on an entry containing the point. -/
theorem WellFormed.findPoint_eq_some (h : s.WellFormed) (hf : s.find p 0 = some pos) :
    s.entries[pos.index]? = some pos.deref ∧ pos.first.extent.Contains p.toNat := by
  obtain ⟨hget, hmeets⟩ := h.find_eq_some (MemoryAlloc.fits_zero p) hf
  exact ⟨hget, MemoryAlloc.meets_zero.mp hmeets⟩

theorem WellFormed.findPoint_eq_none_iff (h : s.WellFormed) :
    s.find p 0 = none ↔ ∀ e ∈ s.entries, ¬ e.1.extent.Contains p.toNat := by
  rw [h.find_eq_none_iff (MemoryAlloc.fits_zero p)]
  exact forall₂_congr fun e _ => not_congr MemoryAlloc.meets_zero

/-- A point query inside a recorded extent finds that entry. -/
theorem WellFormed.findPoint_of_contains (h : s.WellFormed) {e : Entry}
    (he : e ∈ s.entries) (hc : e.1.extent.Contains p.toNat) :
    ∃ pos, s.find p 0 = some pos ∧ s.entries[pos.index]? = some e ∧ pos.first = e.1 := by
  cases hf : s.find p 0 with
  | none => exact absurd hc (h.findPoint_eq_none_iff.mp hf e he)
  | some pos =>
      obtain ⟨hget, hcont⟩ := h.findPoint_eq_some hf
      have heq : pos.deref = e :=
        h.eq_of_contains (List.mem_of_getElem? hget) he hcont hc
      exact ⟨pos, rfl, heq ▸ hget, congrArg Prod.fst heq⟩

end Find

variable (B : Balancer)

theorem entries_erase (pos : SearchTree.Iterator MemoryAlloc MemoryAllocContents) :
    (s.erase B pos).entries = s.entries.eraseIdx pos.index :=
  SearchTree.toList_erase B s.memoryMap pos

/-- Erasing what a lookup found keeps every other entry, on any map. -/
theorem mem_erase_of_ne {p n : Word32}
    {pos : SearchTree.Iterator MemoryAlloc MemoryAllocContents} {e : Entry}
    (hf : s.find p n = some pos) (he : e ∈ s.entries) (hne : e ≠ pos.deref) :
    e ∈ (s.erase B pos).entries := by
  obtain ⟨hget, -, -⟩ := SearchTree.find_eq_some _ _ hf
  obtain ⟨i, hi⟩ := List.mem_iff_getElem?.mp he
  rw [entries_erase, List.mem_eraseIdx_iff_getElem?]
  refine ⟨i, fun heq => hne ?_, hi⟩
  subst heq
  exact Option.some.inj (hi.symm.trans hget)

section Erase

variable {pos : SearchTree.Iterator MemoryAlloc MemoryAllocContents} {e : Entry}

theorem WellFormed.mem_erase (h : s.WellFormed) (he : s.entries[pos.index]? = some e)
    {f : Entry} : f ∈ (s.erase B pos).entries ↔ f ∈ s.entries ∧ f ≠ e := by
  rw [entries_erase]
  exact h.laid.mem_eraseIdx he

theorem WellFormed.erase (h : s.WellFormed)
    (pos : SearchTree.Iterator MemoryAlloc MemoryAllocContents) :
    (s.erase B pos).WellFormed := by
  constructor
  · rw [entries_erase]
    exact h.laid.eraseIdx _
  · intro f hf
    rw [entries_erase] at hf
    exact h.fits f (List.mem_of_mem_eraseIdx hf)

end Erase

section Insert

variable {p n : Word32} (type : ℤ)

/-- **Insertion into free space** succeeds and adds exactly the new entry. -/
theorem WellFormed.insert_of_free (h : s.WellFormed) (hk : MemoryAlloc.Fits ⟨p, n⟩)
    (hfree : ∀ e ∈ s.entries, ¬ e.1.extent.Meets (⟨p, n⟩ : MemoryAlloc).extent) :
    (s.insert B type p n).existing = none ∧
      (⟨(s.insert B type p n).tree⟩ : ShadowMemory).WellFormed ∧
      ∀ e, e ∈ (⟨(s.insert B type p n).tree⟩ : ShadowMemory).entries ↔
        e = (⟨p, n⟩, ⟨type⟩) ∨ e ∈ s.entries := by
  obtain ⟨hnone, hspaced, hmem⟩ :=
    h.spaced.insert_of_free ordersExtents_comp hk B ⟨type⟩ hfree
  exact ⟨hnone, ⟨hspaced.laid, hspaced.fits⟩, hmem⟩

/-- **Insertion over a recorded extent** is refused, names an entry it meets, and leaves
the map alone. -/
theorem WellFormed.insert_of_meets (h : s.WellFormed) (hk : MemoryAlloc.Fits ⟨p, n⟩)
    {e : Entry} (he : e ∈ s.entries)
    (hm : e.1.extent.Meets (⟨p, n⟩ : MemoryAlloc).extent) :
    ∃ old, (s.insert B type p n).existing = some old ∧
      (s.insert B type p n).tree = s.memoryMap ∧ old.deref ∈ s.entries ∧
      old.first.extent.Meets (⟨p, n⟩ : MemoryAlloc).extent :=
  h.spaced.insert_of_meets ordersExtents_comp hk B ⟨type⟩ he hm

end Insert

end ShadowMemory

end MemCheck
