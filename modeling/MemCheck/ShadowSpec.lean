import MemCheck.ShadowInvariant

/-!
# Specifications of the Four Operations

Each operation of the shadow memory, on a well-formed map, in terms of the entries it
leaves. A call that succeeds on a recorded entry *replaces* it (`Call.Replaces`): by
nothing, by the tail a truncation keeps, or by the head and the tail a split keeps. A call
that fails returns the map it was given, with the one exception the source announces: a
sized free that is too short truncates the entry and still returns `1`.

## Main results

* `newMemoryAlloc_of_free` / `newMemoryAlloc_of_meets`
* `freeMemory_of_begins`, `freeMemory_of_inside`, `freeMemory_of_not_contained`
* `freeSizeMemory_of_eq`, `freeSizeMemory_of_lt`, `freeSizeMemory_of_gt`,
  `freeSizeMemory_of_inside`, `freeSizeMemory_of_not_contained`
* `freeAnySizeMemory_of_contains`, `freeAnySizeMemory_of_not_contained`
-/

namespace MemCheck

/-- The call left a well-formed map in which the entry `e` of `s` gives way to the entries
`new`, and no re-insertion it made was refused. -/
structure Call.Replaces (c : Call) (s : ShadowMemory) (e : Entry) (new : List Entry) :
    Prop where
  wellFormed : c.shadow.WellFormed
  mem_iff : ∀ f, f ∈ c.shadow.entries ↔ (f ∈ s.entries ∧ f ≠ e) ∨ f ∈ new
  reinserted : ∀ b ∈ c.reinserted, b = true

namespace ShadowMemory

variable {s : ShadowMemory} (B : Balancer) (type : ℤ) {p n : Word32} {e : Entry}

/-! ### Allocation -/

/-- **A request for free space is recorded**, and nothing else changes. -/
theorem WellFormed.newMemoryAlloc_of_free (h : s.WellFormed)
    (hk : MemoryAlloc.Fits ⟨p, n⟩)
    (hfree : ∀ e ∈ s.entries, ¬ e.1.extent.Meets (⟨p, n⟩ : MemoryAlloc).extent) :
    ∃ s', s.newMemoryAlloc B type p n = ⟨0, s', [], []⟩ ∧ s'.WellFormed ∧
      ∀ f, f ∈ s'.entries ↔ f = (⟨p, n⟩, ⟨type⟩) ∨ f ∈ s.entries := by
  obtain ⟨hnone, hwf, hmem⟩ := h.insert_of_free B type hk hfree
  refine ⟨_, ?_, hwf, hmem⟩
  simp only [newMemoryAlloc, hnone]

/-- **A request that meets a recorded extent is refused**: the map is unchanged and the
entry reported as existing does meet the request. -/
theorem WellFormed.newMemoryAlloc_of_meets (h : s.WellFormed)
    (hk : MemoryAlloc.Fits ⟨p, n⟩) (he : e ∈ s.entries)
    (hm : e.1.extent.Meets (⟨p, n⟩ : MemoryAlloc).extent) :
    ∃ old ∈ s.entries, old.1.extent.Meets (⟨p, n⟩ : MemoryAlloc).extent ∧
      s.newMemoryAlloc B type p n =
        ⟨1, s, [.allocationAlreadyExists p n old.1.address old.1.size], []⟩ := by
  obtain ⟨old, hold, htree, hmem, hmeets⟩ := h.insert_of_meets B type hk he hm
  refine ⟨old.deref, hmem, hmeets, ?_⟩
  simp only [newMemoryAlloc, hold, htree]
  rfl

/-- Removing the entry that was added restores the map. -/
theorem WellFormed.entries_of_replaces (h : s.WellFormed) {s' : ShadowMemory} {c : Call}
    (hmem : ∀ f, f ∈ s'.entries ↔ f = e ∨ f ∈ s.entries) (hfresh : e ∉ s.entries)
    (hrep : c.Replaces s' e []) : c.shadow.entries = s.entries := by
  refine hrep.wellFormed.entries_eq h fun f => ?_
  rw [hrep.mem_iff f, or_iff_left List.not_mem_nil, hmem f]
  constructor
  · rintro ⟨hf, hne⟩
    exact hf.resolve_left hne
  · intro hf
    exact ⟨Or.inr hf, fun heq => hfresh (heq ▸ hf)⟩

/-! ### Carving an entry -/

section Carve

variable {pos : SearchTree.Iterator MemoryAlloc MemoryAllocContents}

/-- Once an entry is erased, nothing recorded meets any part of its extent. -/
theorem WellFormed.not_meets_erased (h : s.WellFormed)
    (he : s.entries[pos.index]? = some e) {k : MemoryAlloc}
    (hk : k.extent.Within e.1.extent) :
    ∀ f ∈ (s.erase B pos).entries, ¬ f.1.extent.Meets k.extent := by
  intro f hf hm
  obtain ⟨hfs, hne⟩ := (h.mem_erase B he).mp hf
  exact hne (h.eq_of_meets hfs (List.mem_of_getElem? he) (hm.of_within hk))

/-- Re-inserting a part of an erased entry succeeds. -/
theorem WellFormed.insert_erased (h : s.WellFormed)
    (he : s.entries[pos.index]? = some e) (hfit : MemoryAlloc.Fits ⟨p, n⟩)
    (hk : (⟨p, n⟩ : MemoryAlloc).extent.Within e.1.extent) :
    ((s.erase B pos).insert B type p n).existing = none ∧
      (⟨((s.erase B pos).insert B type p n).tree⟩ : ShadowMemory).WellFormed ∧
      ∀ f, f ∈ (⟨((s.erase B pos).insert B type p n).tree⟩ : ShadowMemory).entries ↔
        f = (⟨p, n⟩, ⟨type⟩) ∨ (f ∈ s.entries ∧ f ≠ e) := by
  obtain ⟨hnone, hwf, hmem⟩ := (h.erase B pos).insert_of_free B type hfit
    (h.not_meets_erased B he hk)
  refine ⟨hnone, hwf, fun f => ?_⟩
  rw [hmem f, h.mem_erase B he]

variable {ret : ℤ} {output : List Message}

/-- A call that only erases an entry. -/
theorem WellFormed.replaces_nil (h : s.WellFormed) (he : s.entries[pos.index]? = some e) :
    (⟨ret, s.erase B pos, output, []⟩ : Call).Replaces s e [] := by
  refine ⟨h.erase B pos, fun f => ?_, fun b hb => absurd hb List.not_mem_nil⟩
  rw [h.mem_erase B he]
  simp

/-- A call that erases an entry and re-inserts one part of it. -/
theorem WellFormed.replaces_part (h : s.WellFormed) (he : s.entries[pos.index]? = some e)
    (hfit : MemoryAlloc.Fits ⟨p, n⟩)
    (hk : (⟨p, n⟩ : MemoryAlloc).extent.Within e.1.extent) :
    (⟨ret, ⟨((s.erase B pos).insert B type p n).tree⟩, output,
      [((s.erase B pos).insert B type p n).second]⟩ : Call).Replaces s e
        [(⟨p, n⟩, ⟨type⟩)] := by
  obtain ⟨hnone, hwf, hmem⟩ := h.insert_erased B type he hfit hk
  refine ⟨hwf, fun f => ?_, fun b hb => ?_⟩
  · rw [hmem f, List.mem_singleton]
    exact or_comm
  · rw [List.mem_singleton.mp hb, SearchTree.Inserted.second, hnone]
    rfl

/-- A call that erases an entry and re-inserts two parts of it, one behind the other. -/
theorem WellFormed.replaces_parts (h : s.WellFormed) (he : s.entries[pos.index]? = some e)
    {p' n' : Word32} (hfit : MemoryAlloc.Fits ⟨p, n⟩)
    (hk : (⟨p, n⟩ : MemoryAlloc).extent.Within e.1.extent)
    (hfit' : MemoryAlloc.Fits ⟨p', n'⟩)
    (hk' : (⟨p', n'⟩ : MemoryAlloc).extent.Within e.1.extent)
    (hbefore : (⟨p, n⟩ : MemoryAlloc).extent.Before (⟨p', n'⟩ : MemoryAlloc).extent) :
    let first := (s.erase B pos).insert B type p n
    let last := (⟨first.tree⟩ : ShadowMemory).insert B type p' n'
    (⟨ret, ⟨last.tree⟩, output, [first.second, last.second]⟩ : Call).Replaces s e
      [(⟨p, n⟩, ⟨type⟩), (⟨p', n'⟩, ⟨type⟩)] := by
  intro first last
  obtain ⟨hnone, hwf, hmem⟩ := h.insert_erased B type he hfit hk
  -- the last part finds room: the first ends before it, the rest never met the entry
  have hfree : ∀ f ∈ (⟨first.tree⟩ : ShadowMemory).entries,
      ¬ f.1.extent.Meets (⟨p', n'⟩ : MemoryAlloc).extent := by
    intro f hf
    rcases (hmem f).mp hf with rfl | hf
    · exact hbefore.not_meets
    · exact h.not_meets_erased B he hk' f ((h.mem_erase B he).mpr hf)
  obtain ⟨hnone', hwf', hmem'⟩ := hwf.insert_of_free B type hfit' hfree
  refine ⟨hwf', fun f => ?_, fun b hb => ?_⟩
  · rw [hmem' f, hmem f, List.mem_pair]
    tauto
  · rcases List.mem_pair.mp hb with rfl | rfl
    · rw [SearchTree.Inserted.second, hnone]
      rfl
    · rw [SearchTree.Inserted.second, hnone']
      rfl

end Carve

/-! ### Free without a size -/

theorem contains_of_begins (hb : e.1.address = p) : e.1.extent.Contains p.toNat := by
  subst hb
  exact ⟨le_rfl, e.1.extent.start_lt_stop⟩

/-- Freeing a pointer at which an entry begins removes exactly that entry. -/
theorem WellFormed.freeMemory_of_begins (h : s.WellFormed) (hp : p ≠ 0)
    (he : e ∈ s.entries) (hb : e.1.address = p) :
    (s.freeMemory B type p).ret = 0 ∧ (s.freeMemory B type p).output = [] ∧
      (s.freeMemory B type p).Replaces s e [] := by
  obtain ⟨pos, hfind, hget, hfst⟩ := h.findPoint_of_contains he (contains_of_begins hb)
  have hcall : s.freeMemory B type p = ⟨0, s.erase B pos, [], []⟩ := by
    simp only [freeMemory, if_neg hp, hfind, hfst, if_pos hb]
  rw [hcall]
  exact ⟨rfl, rfl, h.replaces_nil B hget⟩

/-- Freeing a pointer strictly inside an entry fails and changes nothing. -/
theorem WellFormed.freeMemory_of_inside (h : s.WellFormed) (hp : p ≠ 0)
    (he : e ∈ s.entries) (hc : e.1.extent.Contains p.toNat) (hb : e.1.address ≠ p) :
    s.freeMemory B type p =
      ⟨1, s, [.freeMiddleOfAllocation e.1.address e.1.size p], []⟩ := by
  obtain ⟨pos, hfind, -, hfst⟩ := h.findPoint_of_contains he hc
  simp only [freeMemory, if_neg hp, hfind, hfst, if_neg hb]

/-- Freeing a pointer that no entry contains fails and changes nothing. -/
theorem WellFormed.freeMemory_of_not_contained (h : s.WellFormed) (hp : p ≠ 0)
    (hn : ∀ e ∈ s.entries, ¬ e.1.extent.Contains p.toNat) :
    s.freeMemory B type p = ⟨1, s, [.noAllocatedMemory p], []⟩ := by
  simp only [freeMemory, if_neg hp, h.findPoint_eq_none_iff.mpr hn]

/-! ### Free with a size -/

/-- A sized free of exactly a recorded entry removes it. -/
theorem WellFormed.freeSizeMemory_of_eq (h : s.WellFormed) (hp : p ≠ 0)
    (he : e ∈ s.entries) (hb : e.1 = ⟨p, n⟩) :
    (s.freeSizeMemory B type p n).ret = 0 ∧ (s.freeSizeMemory B type p n).output = [] ∧
      (s.freeSizeMemory B type p n).Replaces s e [] := by
  have hb1 : e.1.address = p := by rw [hb]
  have hb2 : e.1.size = n := by rw [hb]
  obtain ⟨pos, hfind, hget, hfst⟩ := h.findPoint_of_contains he (contains_of_begins hb1)
  have hcall : s.freeSizeMemory B type p n = ⟨0, s.erase B pos, [], []⟩ := by
    simp only [freeSizeMemory, if_neg hp, hfind, hfst, if_pos hb1,
      if_neg (not_not.mpr hb2)]
  rw [hcall]
  exact ⟨rfl, rfl, h.replaces_nil B hget⟩

/-- What a truncation keeps lies within the entry it truncates. -/
theorem WellFormed.tail_within (h : s.WellFormed) (he : e ∈ s.entries)
    (hb : e.1.address = p) (hlt : n < e.1.size) :
    MemoryAlloc.Fits ⟨p + n, e.1.size - n⟩ ∧
      (⟨p + n, e.1.size - n⟩ : MemoryAlloc).extent.Within e.1.extent := by
  have hfit := h.fits e he
  rw [MemoryAlloc.Fits, hb] at hfit
  have hlt' := UInt32.lt_iff_toNat_lt.mp hlt
  have hsub : (e.1.size - n).toNat = e.1.size.toNat - n.toNat :=
    UInt32.toNat_sub_of_le _ _ (UInt32.le_of_lt hlt)
  have hadd : (p + n).toNat = p.toNat + n.toNat := by
    rw [UInt32.toNat_add, Nat.mod_eq_of_lt (by omega)]
  constructor
  · rw [MemoryAlloc.Fits, hadd, hsub]
    omega
  · simp only [Extent.Within, MemoryAlloc.extent_start, MemoryAlloc.extent_stop, hadd, hsub,
      hb]
    omega

/-- A sized free that is too short truncates the entry and returns `1`. -/
theorem WellFormed.freeSizeMemory_of_lt (h : s.WellFormed) (hp : p ≠ 0)
    (he : e ∈ s.entries) (hb : e.1.address = p) (hlt : n < e.1.size) :
    (s.freeSizeMemory B type p n).ret = 1 ∧
      (s.freeSizeMemory B type p n).output =
        [.freeSizeNotEqual p e.1.size n, .truncatingAllocation] ∧
      (s.freeSizeMemory B type p n).Replaces s e [(⟨p + n, e.1.size - n⟩, ⟨type⟩)] := by
  obtain ⟨pos, hfind, hget, hfst⟩ := h.findPoint_of_contains he (contains_of_begins hb)
  have hne : e.1.size ≠ n := fun hc => (UInt32.lt_irrefl n) (hc ▸ hlt)
  obtain ⟨hfit, hwithin⟩ := h.tail_within he hb hlt
  have hcall : s.freeSizeMemory B type p n =
      ⟨1, ⟨((s.erase B pos).insert B type (p + n) (e.1.size - n)).tree⟩,
        [.freeSizeNotEqual p e.1.size n, .truncatingAllocation],
        [((s.erase B pos).insert B type (p + n) (e.1.size - n)).second]⟩ := by
    simp only [freeSizeMemory, if_neg hp, hfind, hfst, if_pos hb, ne_eq, hne,
      not_false_eq_true, if_true, if_pos hlt]
    rw [hb]
  rw [hcall]
  exact ⟨rfl, rfl, h.replaces_part B type hget hfit hwithin⟩

/-- A sized free that is too long fails and changes nothing. -/
theorem WellFormed.freeSizeMemory_of_gt (h : s.WellFormed) (hp : p ≠ 0)
    (he : e ∈ s.entries) (hb : e.1.address = p) (hgt : e.1.size < n) :
    s.freeSizeMemory B type p n = ⟨1, s, [.freeSizeNotEqual p e.1.size n], []⟩ := by
  obtain ⟨pos, hfind, -, hfst⟩ := h.findPoint_of_contains he (contains_of_begins hb)
  have hne : e.1.size ≠ n := fun hc => (UInt32.lt_irrefl n) (hc ▸ hgt)
  simp only [freeSizeMemory, if_neg hp, hfind, hfst, if_pos hb, ne_eq, hne,
    not_false_eq_true, if_true, if_neg (UInt32.lt_asymm hgt)]

/-- A sized free strictly inside an entry fails and changes nothing. -/
theorem WellFormed.freeSizeMemory_of_inside (h : s.WellFormed) (hp : p ≠ 0)
    (he : e ∈ s.entries) (hc : e.1.extent.Contains p.toNat) (hb : e.1.address ≠ p) :
    s.freeSizeMemory B type p n =
      ⟨1, s, [.freeSizeMiddleOfAllocation e.1.address e.1.size p n], []⟩ := by
  obtain ⟨pos, hfind, -, hfst⟩ := h.findPoint_of_contains he hc
  simp only [freeSizeMemory, if_neg hp, hfind, hfst, if_neg hb]

/-- A sized free of a pointer that no entry contains fails and changes nothing. -/
theorem WellFormed.freeSizeMemory_of_not_contained (h : s.WellFormed) (hp : p ≠ 0)
    (hn : ∀ e ∈ s.entries, ¬ e.1.extent.Contains p.toNat) :
    s.freeSizeMemory B type p n = ⟨1, s, [.noAllocatedMemory p], []⟩ := by
  simp only [freeSizeMemory, if_neg hp, h.findPoint_eq_none_iff.mpr hn]

/-! ### Free of any part -/

theorem freeAnySizeMemory_null : s.freeAnySizeMemory B type 0 n = ⟨0, s, [], []⟩ := rfl

/-- What is left of the entry `e` when `n` bytes from `p` on are cut out of it: a head
when the cut starts inside, a tail when it ends before the end. -/
def remnants (e : Entry) (p n : Word32) : List Entry :=
  (if e.1.address = p then [] else [(⟨e.1.address, p - e.1.address⟩, ⟨type⟩)]) ++
    (if p.toNat + n.toNat < e.1.address.toNat + e.1.size.toNat then
      [(⟨p + n, e.1.address + e.1.size - (p + n)⟩, ⟨type⟩)] else [])

/-- Cutting a whole entry leaves nothing. -/
theorem remnants_self (e : Entry) : remnants type e e.1.address e.1.size = [] := by
  rw [remnants, if_pos rfl, if_neg (lt_irrefl _)]
  rfl

/-- A cut strictly behind the start leaves a head that ends at the cut. -/
theorem exists_head (hlt : e.1.address.toNat < p.toNat) :
    ∃ r ∈ remnants type e p n, r.1.address.toNat = e.1.address.toNat ∧
      r.1.address.toNat + r.1.size.toNat = p.toNat := by
  have hne : e.1.address ≠ p := fun hc => hlt.ne (congrArg UInt32.toNat hc)
  refine ⟨(⟨e.1.address, p - e.1.address⟩, ⟨type⟩), ?_, rfl, ?_⟩
  · rw [remnants, if_neg hne]
    exact List.mem_append_left _ (List.mem_singleton.mpr rfl)
  · simp only [UInt32.toNat_sub_of_le _ _ (UInt32.le_iff_toNat_le.mpr hlt.le)]
    omega

section Remnants

variable (hfit : e.1.Fits) (hlo : e.1.address.toNat ≤ p.toNat)
  (hhi : p.toNat + n.toNat ≤ e.1.address.toNat + e.1.size.toNat)

include hfit hhi in
theorem toNat_tail :
    (p + n).toNat = p.toNat + n.toNat ∧
      (e.1.address + e.1.size - (p + n)).toNat =
        e.1.address.toNat + e.1.size.toNat - (p.toNat + n.toNat) := by
  rw [MemoryAlloc.Fits] at hfit
  have hadd : (p + n).toNat = p.toNat + n.toNat := by
    rw [UInt32.toNat_add, Nat.mod_eq_of_lt (by omega)]
  have hend : (e.1.address + e.1.size).toNat = e.1.address.toNat + e.1.size.toNat := by
    rw [UInt32.toNat_add, Nat.mod_eq_of_lt hfit]
  refine ⟨hadd, ?_⟩
  rw [UInt32.toNat_sub_of_le _ _ (UInt32.le_iff_toNat_le.mpr (by omega)), hend, hadd]

include hfit hhi in
/-- A cut that ends before the end leaves a tail that starts where the cut ends. -/
theorem exists_tail
    (hlt : p.toNat + n.toNat < e.1.address.toNat + e.1.size.toNat) :
    ∃ r ∈ remnants type e p n, r.1.address.toNat = p.toNat + n.toNat ∧
      r.1.address.toNat + r.1.size.toNat = e.1.address.toNat + e.1.size.toNat := by
  obtain ⟨hadd, hsub⟩ := toNat_tail hfit hhi
  refine ⟨(⟨p + n, e.1.address + e.1.size - (p + n)⟩, ⟨type⟩), ?_, hadd, ?_⟩
  · rw [remnants, if_pos hlt]
    exact List.mem_append_right _ (List.mem_singleton.mpr rfl)
  · simp only [hadd, hsub]
    omega

include hfit hlo hhi in
/-- What a cut leaves is nonempty and is the head or the tail. -/
theorem of_mem_remnants {r : Entry} (hr : r ∈ remnants type e p n) :
    0 < r.1.size.toNat ∧
      (r.1.address.toNat = e.1.address.toNat ∧
          r.1.address.toNat + r.1.size.toNat = p.toNat ∨
        r.1.address.toNat = p.toNat + n.toNat ∧
          r.1.address.toNat + r.1.size.toNat =
            e.1.address.toNat + e.1.size.toNat) := by
  rw [remnants, List.mem_append] at hr
  rcases hr with hr | hr
  · by_cases hb : e.1.address = p
    · rw [if_pos hb] at hr
      exact absurd hr List.not_mem_nil
    rw [if_neg hb, List.mem_singleton] at hr
    have hne : e.1.address.toNat ≠ p.toNat := fun hc => hb (UInt32.toNat_inj.mp hc)
    have hsub : (p - e.1.address).toNat = p.toNat - e.1.address.toNat :=
      UInt32.toNat_sub_of_le _ _ (UInt32.le_iff_toNat_le.mpr hlo)
    subst hr
    simp only [hsub]
    exact ⟨by omega, Or.inl ⟨trivial, by omega⟩⟩
  · obtain ⟨hadd, hsub⟩ := toNat_tail hfit hhi
    split_ifs at hr with hlt
    · rw [List.mem_singleton] at hr
      subst hr
      simp only [hadd, hsub]
      exact ⟨by omega, Or.inr ⟨trivial, by omega⟩⟩
    · exact absurd hr List.not_mem_nil

include hfit hlo hhi in
/-- What a cut leaves lies within the entry. -/
theorem within_of_mem_remnants {r : Entry} (hr : r ∈ remnants type e p n) :
    r.1.extent.Within e.1.extent := by
  obtain ⟨hpos, hends⟩ := of_mem_remnants type hfit hlo hhi hr
  simp only [Extent.Within, MemoryAlloc.extent_start, MemoryAlloc.extent_stop]
  omega

include hfit hhi in
/-- A nonempty block of the entry, beside the cut, lies in the head or in the tail. -/
theorem exists_remnant_around {l : MemoryAlloc} (hl : 0 < l.size.toNat)
    (hlo' : e.1.address.toNat ≤ l.address.toNat)
    (hhi' : l.address.toNat + l.size.toNat ≤ e.1.address.toNat + e.1.size.toNat)
    (hbeside : p.toNat + n.toNat ≤ l.address.toNat ∨
      l.address.toNat + l.size.toNat ≤ p.toNat) :
    ∃ r ∈ remnants type e p n, r.1.address.toNat ≤ l.address.toNat ∧
      l.address.toNat + l.size.toNat ≤ r.1.address.toNat + r.1.size.toNat := by
  rcases hbeside with hbehind | hbefore
  · obtain ⟨r, hr, hstart, hstop⟩ := exists_tail type hfit hhi (by omega)
    exact ⟨r, hr, by omega, by omega⟩
  · have hlt : e.1.address.toNat < p.toNat := by omega
    obtain ⟨r, hr, hstart, hstop⟩ := exists_head type (n := n) hlt
    exact ⟨r, hr, by omega, by omega⟩

end Remnants

/-- The cut at the start of an entry: the source truncates it, or erases it when the cut
reaches its end. -/
theorem WellFormed.freeAnySizeMemory_of_begins (h : s.WellFormed) (hp : p ≠ 0)
    (he : e ∈ s.entries) (hb : e.1.address = p) :
    (s.freeAnySizeMemory B type p n).ret = 0 ∧
      (s.freeAnySizeMemory B type p n).output = [] ∧
      (s.freeAnySizeMemory B type p n).Replaces s e (remnants type e p n) := by
  obtain ⟨pos, hfind, hget, hfst⟩ := h.findPoint_of_contains he (contains_of_begins hb)
  by_cases hlt : n < e.1.size
  · have hne : e.1.size ≠ n := fun hc => (UInt32.lt_irrefl n) (hc ▸ hlt)
    obtain ⟨hfit, hwithin⟩ := h.tail_within he hb hlt
    have hrem : remnants type e p n = [(⟨p + n, e.1.size - n⟩, ⟨type⟩)] := by
      have hlt' := UInt32.lt_iff_toNat_lt.mp hlt
      have hsize : e.1.address + e.1.size - (p + n) = e.1.size - n := by
        rw [hb]
        grind
      rw [remnants, if_pos hb, hsize, hb, if_pos (by omega)]
      rfl
    have hcall : s.freeAnySizeMemory B type p n =
        ⟨0, ⟨((s.erase B pos).insert B type (p + n) (e.1.size - n)).tree⟩, [],
          [((s.erase B pos).insert B type (p + n) (e.1.size - n)).second]⟩ := by
      simp only [freeAnySizeMemory, if_neg hp, hfind, hfst, if_pos hb,
        if_pos (And.intro hne hlt)]
      rw [hb]
    rw [hcall, hrem]
    exact ⟨rfl, rfl, h.replaces_part B type hget hfit hwithin⟩
  · have hrem : remnants type e p n = [] := by
      have hle := UInt32.le_iff_toNat_le.mp (UInt32.not_lt.mp hlt)
      rw [remnants, if_pos hb, hb, if_neg (by omega)]
      rfl
    have hcall : s.freeAnySizeMemory B type p n = ⟨0, s.erase B pos, [], []⟩ := by
      simp only [freeAnySizeMemory, if_neg hp, hfind, hfst, if_pos hb,
        if_neg (fun hc : e.1.size ≠ n ∧ n < e.1.size => hlt hc.2)]
    rw [hcall, hrem]
    exact ⟨rfl, rfl, h.replaces_nil B hget⟩

section Split

variable (h : s.WellFormed) (he : e ∈ s.entries) (hc : e.1.extent.Contains p.toNat)
  (hb : e.1.address ≠ p)

include hc hb in
/-- A pointer strictly inside an entry: the entry has a head in front of it. -/
theorem inside_bounds : e.1.address.toNat < p.toNat ∧
    p.toNat < e.1.address.toNat + e.1.size.toNat := by
  obtain ⟨h1, h2⟩ := hc
  have hne : e.1.address.toNat ≠ p.toNat := fun heq => hb (UInt32.toNat_inj.mp heq)
  simp only [MemoryAlloc.extent_start, MemoryAlloc.extent_stop] at h1 h2
  omega

include h he hc hb in
/-- The head a split keeps lies within the entry and ends at the cut. -/
theorem WellFormed.head_within :
    MemoryAlloc.Fits ⟨e.1.address, p - e.1.address⟩ ∧
      (⟨e.1.address, p - e.1.address⟩ : MemoryAlloc).extent.Within e.1.extent ∧
      (⟨e.1.address, p - e.1.address⟩ : MemoryAlloc).extent.stop = p.toNat := by
  obtain ⟨h1, h2⟩ := inside_bounds hc hb
  have hfit := h.fits e he
  rw [MemoryAlloc.Fits] at hfit
  have hsub : (p - e.1.address).toNat = p.toNat - e.1.address.toNat :=
    UInt32.toNat_sub_of_le _ _ (UInt32.le_iff_toNat_le.mpr (by omega))
  refine ⟨?_, ?_, ?_⟩
  · simp only [MemoryAlloc.Fits, hsub]
    omega
  · simp only [Extent.Within, MemoryAlloc.extent_start, MemoryAlloc.extent_stop, hsub]
    omega
  · simp only [MemoryAlloc.extent_stop, hsub]
    omega

include h he hc hb in
/-- The tail a split keeps lies within the entry, behind the head. -/
theorem WellFormed.splitTail_within
    (hlt : p.toNat + n.toNat < e.1.address.toNat + e.1.size.toNat) :
    MemoryAlloc.Fits ⟨p + n, e.1.address + e.1.size - (p + n)⟩ ∧
      (⟨p + n, e.1.address + e.1.size - (p + n)⟩ : MemoryAlloc).extent.Within
        e.1.extent ∧
      p.toNat ≤ (⟨p + n, e.1.address + e.1.size - (p + n)⟩ : MemoryAlloc).extent.start := by
  obtain ⟨h1, h2⟩ := inside_bounds hc hb
  have hfit := h.fits e he
  obtain ⟨hadd, hsub⟩ := toNat_tail hfit hlt.le
  rw [MemoryAlloc.Fits] at hfit
  refine ⟨?_, ?_, ?_⟩
  · rw [MemoryAlloc.Fits, hsub, hadd]
    omega
  · simp only [Extent.Within, MemoryAlloc.extent_start, MemoryAlloc.extent_stop, hsub, hadd]
    omega
  · rw [MemoryAlloc.extent_start, hadd]
    omega

include h he hc hb in
/-- The cut strictly inside an entry, ending within it: the source splits the entry. -/
theorem WellFormed.freeAnySizeMemory_of_inside (hp : p ≠ 0)
    (hend : p.toNat + n.toNat ≤ e.1.address.toNat + e.1.size.toNat) :
    (s.freeAnySizeMemory B type p n).ret = 0 ∧
      (s.freeAnySizeMemory B type p n).output = [] ∧
      (s.freeAnySizeMemory B type p n).Replaces s e (remnants type e p n) := by
  obtain ⟨pos, hfind, hget, hfst⟩ := h.findPoint_of_contains he hc
  obtain ⟨hfit, hwithin, hstop⟩ := h.head_within he hc hb
  have hfitE := h.fits e he
  rw [MemoryAlloc.Fits] at hfitE
  have hiff : p + n ≠ e.1.address + e.1.size ↔
      p.toNat + n.toNat < e.1.address.toNat + e.1.size.toNat := by
    rw [ne_eq, ← UInt32.toNat_inj, UInt32.toNat_add, UInt32.toNat_add,
      Nat.mod_eq_of_lt (by omega), Nat.mod_eq_of_lt hfitE]
    omega
  by_cases hlt : p.toNat + n.toNat < e.1.address.toNat + e.1.size.toNat
  · obtain ⟨hfit', hwithin', hstart⟩ := h.splitTail_within he hc hb hlt
    have hbefore := hstop.trans_le hstart
    simp only [freeAnySizeMemory, if_neg hp, hfind, hfst, if_neg hb, if_pos (hiff.mpr hlt)]
    rw [remnants, if_neg hb, if_pos hlt]
    exact ⟨trivial, trivial,
      h.replaces_parts B type hget hfit hwithin hfit' hwithin' hbefore⟩
  · simp only [freeAnySizeMemory, if_neg hp, hfind, hfst, if_neg hb,
      if_neg (hiff.not.mpr hlt)]
    rw [remnants, if_neg hb, if_neg hlt, List.append_nil]
    exact ⟨trivial, trivial, h.replaces_part B type hget hfit hwithin⟩

end Split

/-- **Cutting any part out of an entry**: the entry gives way to what is left of it,
provided a cut that starts inside does not run past the end. -/
theorem WellFormed.freeAnySizeMemory_of_contains (h : s.WellFormed) (hp : p ≠ 0)
    (he : e ∈ s.entries) (hc : e.1.extent.Contains p.toNat)
    (hend : e.1.address ≠ p →
      p.toNat + n.toNat ≤ e.1.address.toNat + e.1.size.toNat) :
    (s.freeAnySizeMemory B type p n).ret = 0 ∧
      (s.freeAnySizeMemory B type p n).output = [] ∧
      (s.freeAnySizeMemory B type p n).Replaces s e (remnants type e p n) := by
  by_cases hb : e.1.address = p
  · exact h.freeAnySizeMemory_of_begins B type hp he hb
  · exact h.freeAnySizeMemory_of_inside B type he hc hb hp (hend hb)

/-- Cutting where nothing is recorded fails and changes nothing. -/
theorem WellFormed.freeAnySizeMemory_of_not_contained (h : s.WellFormed) (hp : p ≠ 0)
    (hn : ∀ e ∈ s.entries, ¬ e.1.extent.Contains p.toNat) :
    s.freeAnySizeMemory B type p n = ⟨1, s, [.noAllocatedMemory p], []⟩ := by
  simp only [freeAnySizeMemory, if_neg hp, h.findPoint_eq_none_iff.mpr hn]

end ShadowMemory

end MemCheck
