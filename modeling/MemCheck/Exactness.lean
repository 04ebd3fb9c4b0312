import MemCheck.MemoryAccess

/-!
# Exactness of the Operations

What the four operations of the shadow memory return and leave behind, call by call, on
every map whose extents are disjoint and end below `2 ^ 32` (`WellFormed`: a map iterates
in the order of its comparator, so disjoint extents stand in address order).

An allocation detects every overlap and nothing else; a free and a sized free are exact and
their failures change only what they announce. Two operations leave this regime, both
through 32-bit arithmetic:

* an allocation that ends at `2 ^ 32` is recorded under a key whose end is `0`, which no
  lookup finds again (`newMemoryAlloc_kept_iff`);
* a free of any part that starts inside an entry and runs past its end re-inserts a tail of
  negative length (`freeAnySizeMemory_carves_iff`).

## Main results

* `newMemoryAlloc_exact`, `freeMemory_exact`, `freeSizeMemory_exact`
* `newMemoryAlloc_kept_iff`, `freeAnySizeMemory_carves_iff`
-/

namespace MemCheck

namespace ShadowMemory

variable {s : ShadowMemory} {p n : Word32} {e : Entry}

/-! ### Allocation -/

/-- **An allocation detects every overlap and nothing else.** It returns `0` exactly when
the request meets no recorded extent, and then adds exactly its entry; otherwise it returns
`1`, leaves the map alone, and the entry it reports does overlap the request. -/
theorem newMemoryAlloc_exact (B : Balancer) (type : ℤ) (h : s.WellFormed)
    (hk : p.toNat + n.toNat < 2 ^ 32) :
    ((s.newMemoryAlloc B type p n).ret = 0 ↔
        ∀ e ∈ s.entries, ¬ e.1.extent.Meets (⟨p, n⟩ : MemoryAlloc).extent) ∧
      ((s.newMemoryAlloc B type p n).ret = 0 →
        (⟨p, n⟩, ⟨type⟩) ∉ s.entries ∧
          ∀ f, f ∈ (s.newMemoryAlloc B type p n).shadow.entries ↔
            f = (⟨p, n⟩, ⟨type⟩) ∨ f ∈ s.entries) ∧
      ((s.newMemoryAlloc B type p n).ret ≠ 0 →
        (s.newMemoryAlloc B type p n).ret = 1 ∧ (s.newMemoryAlloc B type p n).shadow = s ∧
          ∃ old ∈ s.entries, old.1.extent.Meets (⟨p, n⟩ : MemoryAlloc).extent ∧
            (s.newMemoryAlloc B type p n).output =
              [.allocationAlreadyExists p n old.1.address old.1.size]) := by
  by_cases hm : ∃ e ∈ s.entries, e.1.extent.Meets (⟨p, n⟩ : MemoryAlloc).extent
  · obtain ⟨e, he, hm⟩ := hm
    obtain ⟨old, hold, hmeets, hcall⟩ := h.newMemoryAlloc_of_meets B type hk he hm
    rw [hcall]
    refine ⟨⟨nofun, fun hfree => absurd hm (hfree e he)⟩, nofun, fun _ => ?_⟩
    exact ⟨rfl, rfl, old, hold, hmeets, rfl⟩
  · have hfree : ∀ e ∈ s.entries, ¬ e.1.extent.Meets (⟨p, n⟩ : MemoryAlloc).extent :=
      fun e he hc => hm ⟨e, he, hc⟩
    obtain ⟨s', hcall, -, hmem⟩ := h.newMemoryAlloc_of_free B type hk hfree
    rw [hcall]
    refine ⟨⟨fun _ => hfree, fun _ => rfl⟩, fun _ => ⟨fun hin => ?_, hmem⟩,
      fun hne => absurd rfl hne⟩
    exact hfree _ hin (Extent.meets_self _)

/-- A map with a block of `0x100` bytes and a block of size zero. -/
def twoBlocks : ShadowMemory :=
  run empty (plain [.newMemoryAlloc 0 0x1000 0x100, .newMemoryAlloc 0 0x2000 0])

theorem wellFormed_twoBlocks : twoBlocks.WellFormed := wellFormed_of_whole (by decide)

/-- A request that swallows the block of size zero is refused. -/
theorem newMemoryAlloc_exact_swallow :
    (twoBlocks.newMemoryAlloc SearchTree.Balancer.id 0 0x1f00 0x200).ret = 1 := by
  have hexact := newMemoryAlloc_exact SearchTree.Balancer.id 0 wellFormed_twoBlocks
    (show (0x1f00 : Word32).toNat + (0x200 : Word32).toNat < 2 ^ 32 by decide)
  refine (hexact.2.2 fun hret => ?_).1
  exact hexact.1.mp hret (⟨0x2000, 0⟩, ⟨0⟩) (by decide) (by decide)

/-! ### Free without a size -/

/-- Nothing begins at the pointer: the free fails and changes nothing. -/
theorem WellFormed.freeMemory_of_not_begins (h : s.WellFormed) (B : Balancer) (type : ℤ)
    (hp : p ≠ 0) (hb : ∀ e ∈ s.entries, e.1.address ≠ p) :
    (s.freeMemory B type p).ret = 1 ∧ (s.freeMemory B type p).shadow = s := by
  by_cases hc : ∃ e ∈ s.entries, e.1.extent.Contains p.toNat
  · obtain ⟨e, he, hc⟩ := hc
    rw [h.freeMemory_of_inside B type hp he hc (hb e he)]
    exact ⟨rfl, rfl⟩
  · rw [h.freeMemory_of_not_contained B type hp fun e he hce => hc ⟨e, he, hce⟩]
    exact ⟨rfl, rfl⟩

/-- Entries that begin at the same address are equal. -/
theorem WellFormed.eq_of_begins (h : s.WellFormed) {f : Entry} (he : e ∈ s.entries)
    (hf : f ∈ s.entries) (hb : f.1.address = e.1.address) : f = e :=
  h.eq_of_contains hf he (contains_of_begins hb) (contains_of_begins rfl)

/-- **A free catches every invalid, interior and double free without damage.** It returns
`0` exactly when an entry begins at the pointer, and then removes that entry, so that
freeing the pointer again returns `1`. Otherwise it returns `1` and the map is the one it
was given, so that every later call does what it would have done. -/
theorem freeMemory_exact (B : Balancer) (type : ℤ) (h : s.WellFormed) (hp : p ≠ 0) :
    ((s.freeMemory B type p).ret = 0 ↔ ∃ e ∈ s.entries, e.1.address = p) ∧
      (∀ e ∈ s.entries, e.1.address = p →
        (∀ f, f ∈ (s.freeMemory B type p).shadow.entries ↔ f ∈ s.entries ∧ f ≠ e) ∧
          ∀ B', ((s.freeMemory B type p).shadow.freeMemory B' type p).ret = 1) ∧
      ((s.freeMemory B type p).ret ≠ 0 →
        (s.freeMemory B type p).ret = 1 ∧ (s.freeMemory B type p).shadow = s ∧
          ∀ (steps : List (Balancer × Op)) (B' : Balancer) (op : Op),
            op.perform B' (run (s.freeMemory B type p).shadow steps) =
              op.perform B' (run s steps)) := by
  by_cases hb : ∃ e ∈ s.entries, e.1.address = p
  · obtain ⟨e, he, hb⟩ := hb
    obtain ⟨hret, -, hrep⟩ := h.freeMemory_of_begins B type hp he hb
    have hmem : ∀ f, f ∈ (s.freeMemory B type p).shadow.entries ↔
        f ∈ s.entries ∧ f ≠ e := by
      intro f
      rw [hrep.mem_iff f, or_iff_left List.not_mem_nil]
    refine ⟨⟨fun _ => ⟨e, he, hb⟩, fun _ => hret⟩, fun e' he' hb' => ?_,
      fun hne => absurd hret hne⟩
    obtain rfl : e' = e := h.eq_of_begins he he' (hb'.trans hb.symm)
    refine ⟨hmem, fun B' => (hrep.wellFormed.freeMemory_of_not_begins B' type hp ?_).1⟩
    intro f hf hfb
    obtain ⟨hfs, hne⟩ := (hmem f).mp hf
    exact hne (h.eq_of_begins he hfs (hfb.trans hb.symm))
  · obtain ⟨hret, hshadow⟩ := h.freeMemory_of_not_begins B type hp
      fun e he hbe => hb ⟨e, he, hbe⟩
    refine ⟨⟨fun h0 => ?_, fun hex => absurd hex hb⟩, fun e he hbe => absurd ⟨e, he, hbe⟩ hb,
      fun _ => ⟨hret, hshadow, fun steps B' op => by rw [hshadow]⟩⟩
    exact absurd (hret.symm.trans h0) Int.one_ne_zero

/-- A double free of the block, and a free inside it. -/
theorem freeMemory_exact_double :
    ((twoBlocks.freeMemory SearchTree.Balancer.id 0 0x1000).shadow.freeMemory
        SearchTree.Balancer.id 0 0x1000).ret = 1 ∧
      (twoBlocks.freeMemory SearchTree.Balancer.id 0 0x1004).ret ≠ 0 := by
  have hfirst := freeMemory_exact SearchTree.Balancer.id 0 wellFormed_twoBlocks
    (show (0x1000 : Addr32) ≠ 0 by decide)
  have hinside := freeMemory_exact SearchTree.Balancer.id 0 wellFormed_twoBlocks
    (show (0x1004 : Addr32) ≠ 0 by decide)
  refine ⟨(hfirst.2.1 (⟨0x1000, 0x100⟩, ⟨0⟩) (by decide) rfl).2 _, fun hret => ?_⟩
  exact absurd (hinside.1.mp hret) (by decide)

/-! ### Free with a size -/

/-- No entry that begins at the pointer is as long as the free: it fails and changes
nothing. -/
theorem WellFormed.freeSizeMemory_of_not_fitting (h : s.WellFormed) (B : Balancer)
    (type : ℤ) (hp : p ≠ 0) (hb : ¬ ∃ e ∈ s.entries, e.1.address = p ∧ n ≤ e.1.size) :
    (s.freeSizeMemory B type p n).ret = 1 ∧ (s.freeSizeMemory B type p n).shadow = s := by
  by_cases hc : ∃ e ∈ s.entries, e.1.extent.Contains p.toNat
  · obtain ⟨e, he, hc⟩ := hc
    by_cases hbe : e.1.address = p
    · have hgt : e.1.size < n := UInt32.not_le.mp fun hle => hb ⟨e, he, hbe, hle⟩
      rw [h.freeSizeMemory_of_gt B type hp he hbe hgt]
      exact ⟨rfl, rfl⟩
    · rw [h.freeSizeMemory_of_inside B type hp he hc hbe]
      exact ⟨rfl, rfl⟩
  · rw [h.freeSizeMemory_of_not_contained B type hp fun e he hce => hc ⟨e, he, hce⟩]
    exact ⟨rfl, rfl⟩

/-- **A sized free is exact.** It returns `0` exactly for a recorded entry, which it
removes; a free shorter than the entry it begins returns `1` and leaves the rest of that
entry; in every other case it returns `1` and the map is the one it was given. -/
theorem freeSizeMemory_exact (B : Balancer) (type : ℤ) (h : s.WellFormed) (hp : p ≠ 0) :
    ((s.freeSizeMemory B type p n).ret = 0 ↔ ∃ e ∈ s.entries, e.1 = ⟨p, n⟩) ∧
      (∀ e ∈ s.entries, e.1 = ⟨p, n⟩ →
        ∀ f, f ∈ (s.freeSizeMemory B type p n).shadow.entries ↔ f ∈ s.entries ∧ f ≠ e) ∧
      (∀ e ∈ s.entries, e.1.address = p → n < e.1.size →
        (s.freeSizeMemory B type p n).ret = 1 ∧
          ∀ f, f ∈ (s.freeSizeMemory B type p n).shadow.entries ↔
            (f ∈ s.entries ∧ f ≠ e) ∨ f = (⟨p + n, e.1.size - n⟩, ⟨type⟩)) ∧
      ((¬ ∃ e ∈ s.entries, e.1.address = p ∧ n ≤ e.1.size) →
        (s.freeSizeMemory B type p n).ret = 1 ∧
          (s.freeSizeMemory B type p n).shadow = s) := by
  refine ⟨⟨fun hret => ?_, ?_⟩, fun e he hb f => ?_, fun e he hb hlt => ?_,
    h.freeSizeMemory_of_not_fitting B type hp⟩
  · -- a return of `0` rules out both the mismatch and the truncation
    by_contra hno
    have hone : (s.freeSizeMemory B type p n).ret = 1 := by
      by_cases hb : ∃ e ∈ s.entries, e.1.address = p ∧ n ≤ e.1.size
      · obtain ⟨e, he, hb, hle⟩ := hb
        have hne : n ≠ e.1.size := fun hc => hno ⟨e, he, by rw [← hb, hc]⟩
        have hlt : n < e.1.size := UInt32.lt_of_le_of_ne hle hne
        exact (h.freeSizeMemory_of_lt B type hp he hb hlt).1
      · exact (h.freeSizeMemory_of_not_fitting B type hp hb).1
    exact absurd (hone.symm.trans hret) Int.one_ne_zero
  · rintro ⟨e, he, hb⟩
    exact (h.freeSizeMemory_of_eq B type hp he hb).1
  · rw [(h.freeSizeMemory_of_eq B type hp he hb).2.2.mem_iff f,
      or_iff_left List.not_mem_nil]
  · obtain ⟨hret, -, hrep⟩ := h.freeSizeMemory_of_lt B type hp he hb hlt
    refine ⟨hret, fun f => ?_⟩
    rw [hrep.mem_iff f, List.mem_singleton]

/-- A sized free of sixteen bytes of the block truncates it. -/
theorem freeSizeMemory_exact_short :
    (twoBlocks.freeSizeMemory SearchTree.Balancer.id 0 0x1000 0x10).ret = 1 ∧
      (⟨0x1010, 0xf0⟩, ⟨0⟩) ∈
        (twoBlocks.freeSizeMemory SearchTree.Balancer.id 0 0x1000 0x10).shadow.entries := by
  have hshort := (freeSizeMemory_exact SearchTree.Balancer.id 0 wellFormed_twoBlocks
    (show (0x1000 : Addr32) ≠ 0 by decide)).2.2.1 (⟨0x1000, 0x100⟩, ⟨0⟩) (by decide) rfl
      (show (0x10 : Word32) < 0x100 by decide)
  exact ⟨hshort.1, (hshort.2 _).mpr (Or.inr rfl)⟩

/-! ### Allocations up to the top of the address space -/

/-- The entry that the lookup of all free operations, `find(MemoryAlloc(q, 0))`, stands
on. -/
def lookup (s : ShadowMemory) (q : Addr32) : Option Entry :=
  (s.find q 0).map SearchTree.Iterator.deref

/-- The lookup finds exactly the entry that contains the address. -/
theorem WellFormed.lookup_eq_some_iff (h : s.WellFormed) {q : Addr32} :
    s.lookup q = some e ↔ e ∈ s.entries ∧ e.1.extent.Contains q.toNat := by
  rw [lookup, Option.map_eq_some_iff]
  constructor
  · rintro ⟨pos, hfind, rfl⟩
    obtain ⟨hget, hcont⟩ := h.findPoint_eq_some hfind
    exact ⟨List.mem_of_getElem? hget, hcont⟩
  · rintro ⟨he, hc⟩
    obtain ⟨pos, hfind, hget, -⟩ := h.findPoint_of_contains he hc
    obtain ⟨hderef, -⟩ := h.findPoint_eq_some hfind
    exact ⟨pos, hfind, Option.some.inj (hderef.symm.trans hget)⟩

/-- An allocation that is not lost: every byte of it is found, allocating it again fails,
freeing it then succeeds and restores the map, and in between the other addresses look up
what they looked up before. -/
structure Kept (B : Balancer) (type : ℤ) (s : ShadowMemory) (p n : Word32) : Prop where
  found : ∀ q : Addr32, (⟨p, n⟩ : MemoryAlloc).Covers q.toNat →
    (s.newMemoryAlloc B type p n).shadow.lookup q = some (⟨p, n⟩, ⟨type⟩)
  again : ((s.newMemoryAlloc B type p n).shadow.newMemoryAlloc B type p n).ret = 1
  freed : (((s.newMemoryAlloc B type p n).shadow.newMemoryAlloc B type p n).shadow.freeMemory
    B type p).ret = 0
  restored : (((s.newMemoryAlloc B type p n).shadow.newMemoryAlloc B type p
    n).shadow.freeMemory B type p).shadow.entries = s.entries
  others : ∀ q : Addr32, ¬ (⟨p, n⟩ : MemoryAlloc).Covers q.toNat →
    (s.newMemoryAlloc B type p n).shadow.lookup q = s.lookup q

/-- An allocation in free space below the top of the address space is kept. -/
theorem WellFormed.kept_of_fits (h : s.WellFormed) (B : Balancer) (type : ℤ) (hp : p ≠ 0)
    (hn : n ≠ 0) (hk : MemoryAlloc.Fits ⟨p, n⟩)
    (hfree : ∀ e ∈ s.entries, ¬ e.1.extent.Meets (⟨p, n⟩ : MemoryAlloc).extent) :
    Kept B type s p n := by
  obtain ⟨s', hcall, hwf, hmem⟩ := h.newMemoryAlloc_of_free B type hk hfree
  have hnew : (⟨p, n⟩, ⟨type⟩) ∈ s'.entries := (hmem _).mpr (Or.inl rfl)
  have hfresh : (⟨p, n⟩, ⟨type⟩) ∉ s.entries := fun hin => hfree _ hin (Extent.meets_self _)
  obtain ⟨old, -, -, hagain⟩ := hwf.newMemoryAlloc_of_meets B type hk hnew
    (Extent.meets_self _)
  obtain ⟨hret, -, hrep⟩ := hwf.freeMemory_of_begins B type hp hnew rfl
  constructor
  · intro q hq
    rw [hcall]
    exact hwf.lookup_eq_some_iff.mpr ⟨hnew, hq.contains⟩
  · rw [hcall, hagain]
  · rw [hcall, hagain]
    exact hret
  · rw [hcall, hagain]
    exact h.entries_of_replaces hmem hfresh hrep
  · intro q hq
    rw [hcall]
    refine Option.ext fun f => ?_
    rw [hwf.lookup_eq_some_iff, h.lookup_eq_some_iff, hmem f]
    constructor
    · rintro ⟨rfl | hf, hc⟩
      · exact absurd (MemoryAlloc.covers_of_contains hn hc) hq
      · exact ⟨hf, hc⟩
    · rintro ⟨hf, hc⟩
      exact ⟨Or.inr hf, hc⟩

/-- An insertion of a nonempty key, by the comparator's own end `p + n` modulo `2 ^ 32`: it
is accepted if every entry ends before the key's address or starts behind that end. -/
theorem WellFormed.insert_of_beside (h : s.WellFormed) (B : Balancer) (type : ℤ)
    (hn : n ≠ 0)
    (hbeside : ∀ f ∈ s.entries,
      f.1.extent.stop ≤ p.toNat ∨ (p + n).toNat ≤ f.1.address.toNat) :
    (s.insert B type p n).existing = none := by
  have habove : ∀ x : MemoryAlloc,
      MemoryAlloc.comp ⟨p, n⟩ x = true ↔ (p + n).toNat ≤ x.address.toNat := by
    intro x
    rw [MemoryAlloc.comp, if_pos hn, decide_eq_true_iff, UInt32.le_iff_toNat_le]
  refine (SearchTree.insert_of_all_comparable MemoryAlloc.comp ⟨p, n⟩ B ⟨type⟩ ?_ ?_).1
  · refine List.Pairwise.imp (fun {x y} hxy hx => ?_) h.laid
    rw [habove] at hx ⊢
    exact hx.trans ((Nat.le_of_lt x.1.extent.start_lt_stop).trans hxy)
  · intro f hf
    rw [MemoryAlloc.comp_iff (h.fits f hf), habove]
    exact hbeside f hf

/-- An allocation up to `2 ^ 32` is accepted whatever is recorded: the end of its key is
`0`. -/
theorem WellFormed.newMemoryAlloc_of_top (h : s.WellFormed) (B : Balancer) (type : ℤ)
    (hn : n ≠ 0) (htop : p.toNat + n.toNat = 2 ^ 32) :
    (s.newMemoryAlloc B type p n).ret = 0 := by
  have hend : (p + n).toNat = 0 := by rw [UInt32.toNat_add, htop, Nat.mod_self]
  have hnone : (s.insert B type p n).existing = none :=
    h.insert_of_beside B type hn fun f _ => Or.inr (hend.trans_le (Nat.zero_le _))
  simp only [newMemoryAlloc, hnone]

/-- **Which allocations are kept.** In free space every allocation up to `2 ^ 32` returns
`0`; it is kept exactly when it ends below `2 ^ 32`. -/
theorem newMemoryAlloc_kept_iff (B : Balancer) (type : ℤ) (h : s.WellFormed) (hp : p ≠ 0)
    (hn : n ≠ 0) (htop : p.toNat + n.toNat ≤ 2 ^ 32)
    (hfree : ∀ e ∈ s.entries, ¬ e.1.extent.Meets (⟨p, n⟩ : MemoryAlloc).extent) :
    (s.newMemoryAlloc B type p n).ret = 0 ∧
      (Kept B type s p n ↔ p.toNat + n.toNat < 2 ^ 32) := by
  constructor
  · by_cases hk : p.toNat + n.toNat < 2 ^ 32
    · obtain ⟨s', hcall, -⟩ := h.newMemoryAlloc_of_free B type hk hfree
      rw [hcall]
    · exact h.newMemoryAlloc_of_top B type hn (le_antisymm htop (not_lt.mp hk))
  · constructor
    · intro hkept
      have hn0 : n.toNat ≠ 0 := fun hc => hn (UInt32.toNat_inj.mp hc)
      have hcov : (⟨p, n⟩ : MemoryAlloc).Covers p.toNat := ⟨le_rfl, by simp only; omega⟩
      -- a lookup never stands on an entry that ends at `2 ^ 32`
      obtain ⟨pos, hfind, hderef⟩ := Option.map_eq_some_iff.mp (hkept.found p hcov)
      have hfirst : pos.first = ⟨p, n⟩ := congrArg Prod.fst hderef
      have hfits := fits_of_findPoint hfind
      rwa [hfirst] at hfits
    · intro hk
      exact h.kept_of_fits B type hp hn hk hfree

/-- A block behind the two recorded ones. -/
theorem newMemoryAlloc_kept_iff_behind :
    Kept SearchTree.Balancer.id 0 twoBlocks 0xffffe000 0x1000 :=
  (newMemoryAlloc_kept_iff SearchTree.Balancer.id 0 wellFormed_twoBlocks
    (show (0xffffe000 : Addr32) ≠ 0 by decide) (show (0x1000 : Word32) ≠ 0 by decide)
    (by decide) (by decide)).2.mpr (by decide)

/-- The last page of the address space: the allocation returns `0`, no byte of it is found,
allocating it again returns `0` and freeing it returns `1`. -/
theorem top_page_lost :
    (empty.newMemoryAlloc SearchTree.Balancer.id 0 0xfffff000 0x1000).ret = 0 ∧
      (empty.newMemoryAlloc SearchTree.Balancer.id 0 0xfffff000 0x1000).shadow.entries =
        [(⟨0xfffff000, 0x1000⟩, ⟨0⟩)] ∧
      (empty.newMemoryAlloc SearchTree.Balancer.id 0 0xfffff000 0x1000).shadow.lookup
        0xfffff000 = none ∧
      ((empty.newMemoryAlloc SearchTree.Balancer.id 0 0xfffff000
        0x1000).shadow.newMemoryAlloc SearchTree.Balancer.id 0 0xfffff000 0x1000).ret = 0 ∧
      ((empty.newMemoryAlloc SearchTree.Balancer.id 0 0xfffff000 0x1000).shadow.freeMemory
        SearchTree.Balancer.id 0 0xfffff000).ret = 1 ∧
      ¬ Kept SearchTree.Balancer.id 0 empty 0xfffff000 0x1000 := by
  refine ⟨by decide, by decide, by decide, by decide, by decide, fun hkept => ?_⟩
  exact absurd hkept.again (by decide)

/-! ### Free of any part -/

/-- The call cut `[p, p + n)` out of the entry `e` of `s`: it returned `0`, at most two
entries took the place of `e` and cover exactly its other bytes, every other entry stayed,
and the map is well formed again. -/
structure Carves (c : Call) (s : ShadowMemory) (e : Entry) (p n : Word32) : Prop where
  ret : c.ret = 0
  wellFormed : c.shadow.WellFormed
  parts : ∃ new : List Entry, new.length ≤ 2 ∧
    (∀ f, f ∈ c.shadow.entries ↔ (f ∈ s.entries ∧ f ≠ e) ∨ f ∈ new) ∧
    ∀ q, (∃ r ∈ new, r.1.Covers q) ↔ e.1.Covers q ∧ ¬ (⟨p, n⟩ : MemoryAlloc).Covers q

theorem length_remnants (type : ℤ) (e : Entry) (p n : Word32) :
    (remnants type e p n).length ≤ 2 := by
  rw [remnants, List.length_append]
  split_ifs <;> simp

/-- What a cut leaves covers exactly the bytes that were not cut. A cut at the start may
run past the end. -/
theorem exists_remnant_covers_iff (type : ℤ) (hfit : e.1.Fits)
    (hlo : e.1.address.toNat ≤ p.toNat)
    (hend : e.1.address ≠ p → p.toNat + n.toNat ≤ e.1.address.toNat + e.1.size.toNat)
    (q : ℕ) :
    (∃ r ∈ remnants type e p n, r.1.Covers q) ↔
      e.1.Covers q ∧ ¬ (⟨p, n⟩ : MemoryAlloc).Covers q := by
  by_cases hhi : p.toNat + n.toNat ≤ e.1.address.toNat + e.1.size.toNat
  · constructor
    · rintro ⟨r, hr, hq⟩
      exact covers_of_mem_remnants hfit hlo hhi hr hq
    · rintro ⟨⟨h1, h2⟩, hcut⟩
      simp only [MemoryAlloc.Covers, not_and, not_lt] at hcut
      by_cases hbefore : q < p.toNat
      · obtain ⟨r, hr, hstart, hstop⟩ := exists_head type (e := e) (p := p) (n := n)
          (h1.trans_lt hbefore)
        exact ⟨r, hr, hstart.trans_le h1, hbefore.trans_eq hstop.symm⟩
      · have hbehind := hcut (not_lt.mp hbefore)
        obtain ⟨r, hr, hstart, hstop⟩ := exists_tail type hfit hhi (hbehind.trans_lt h2)
        exact ⟨r, hr, hstart.trans_le hbehind, h2.trans_eq hstop.symm⟩
  · -- the cut starts at the start and swallows the entry
    have hb : e.1.address = p := not_not.mp fun hne => hhi (hend hne)
    have hrem : remnants type e p n = [] := by
      rw [remnants, if_pos hb, if_neg (by omega)]
      rfl
    rw [hrem]
    simp only [List.not_mem_nil, false_and, exists_false, false_iff, not_and, not_not]
    rintro ⟨h1, h2⟩
    exact ⟨hb ▸ h1, by simp only; omega⟩

section Overrun

variable (h : s.WellFormed) (he : e ∈ s.entries) (hc : e.1.extent.Contains p.toNat)
  (hb : e.1.address ≠ p) (hn : p.toNat + n.toNat < 2 ^ 32)
  (hover : e.1.address.toNat + e.1.size.toNat < p.toNat + n.toNat)

include h he hn hover in
/-- The tail of a cut that runs past the end has a negative length: taken modulo `2 ^ 32`
it is not zero, and the tail ends where the entry ended, having passed the top of the
address space. -/
theorem WellFormed.overrun_tail :
    e.1.address + e.1.size - (p + n) ≠ 0 ∧
      (p + n).toNat = p.toNat + n.toNat ∧
      (p + n + (e.1.address + e.1.size - (p + n))).toNat =
        e.1.address.toNat + e.1.size.toNat ∧
      ¬ MemoryAlloc.Fits ⟨p + n, e.1.address + e.1.size - (p + n)⟩ := by
  have hfit := h.fits e he
  rw [MemoryAlloc.Fits] at hfit
  have hadd : (p + n).toNat = p.toNat + n.toNat := by
    rw [UInt32.toNat_add, Nat.mod_eq_of_lt hn]
  have hend : (e.1.address + e.1.size).toNat = e.1.address.toNat + e.1.size.toNat := by
    rw [UInt32.toNat_add, Nat.mod_eq_of_lt hfit]
  have hback : p + n + (e.1.address + e.1.size - (p + n)) = e.1.address + e.1.size := by
    grind
  refine ⟨fun h0 => ?_, hadd, by rw [hback, hend], fun hf => ?_⟩
  · rw [h0, UInt32.add_zero] at hback
    have := congrArg UInt32.toNat hback
    omega
  · -- a tail that fits would end above the entry's end
    simp only [MemoryAlloc.Fits] at hf
    have hsum := congrArg UInt32.toNat hback
    rw [UInt32.toNat_add, Nat.mod_eq_of_lt hf, hend] at hsum
    omega

include h he hc hb hn hover in
/-- **A cut that starts inside an entry and runs past its end** leaves an entry that ends
above `2 ^ 32`. -/
theorem WellFormed.wrapped_of_overrun (B : Balancer) (type : ℤ) (hp : p ≠ 0) :
    (s.freeAnySizeMemory B type p n).shadow.Wrapped := by
  obtain ⟨pos, hfind, hget, hfst⟩ := h.findPoint_of_contains he hc
  obtain ⟨hfit, hwithin, hstop⟩ := h.head_within he hc hb
  obtain ⟨hpos, hadd, hend, hwrap⟩ := h.overrun_tail he hn hover
  obtain ⟨-, hwf, hmem⟩ := h.insert_erased B type hget hfit hwithin
  have hne : p + n ≠ e.1.address + e.1.size := fun heq => hpos (by rw [heq, UInt32.sub_self])
  simp only [freeAnySizeMemory, if_neg hp, hfind, hfst, if_neg hb, if_pos hne]
  have hnone := hwf.insert_of_beside B type (p := p + n) hpos fun f hf => ?_
  · exact ⟨_, (mem_insert_of_none B type hnone).mpr (Or.inl rfl), hwrap⟩
  -- the tail's own end is the end of `e`: what was behind `e` is behind it
  rw [hadd, hend]
  obtain ⟨h1, h2⟩ := inside_bounds hc hb
  rcases (hmem f).mp hf with rfl | ⟨hfs, hfe⟩
  · left
    rw [hstop]
    omega
  · rcases Extent.not_meets_iff.mp fun hm => hfe (h.eq_of_meets hfs he hm) with hbef | hbef
    · left
      rw [Extent.Before, MemoryAlloc.extent_start] at hbef
      omega
    · right
      rw [Extent.Before, MemoryAlloc.extent_start, MemoryAlloc.extent_stop] at hbef
      omega

end Overrun

/-- **Which frees of any part are exact.** Where nothing is recorded the call returns `1`
and changes nothing; otherwise it cuts exactly the requested bytes out of the entry that
contains the pointer, if and only if a cut that starts strictly inside an entry does not
run past the end of that entry. -/
theorem freeAnySizeMemory_carves_iff (B : Balancer) (type : ℤ) (h : s.WellFormed)
    (hp : p ≠ 0) (hn : p.toNat + n.toNat < 2 ^ 32) :
    (((∀ e ∈ s.entries, ¬ e.1.extent.Contains p.toNat) →
        (s.freeAnySizeMemory B type p n).ret = 1 ∧
          (s.freeAnySizeMemory B type p n).shadow = s) ∧
      ∀ e ∈ s.entries, e.1.extent.Contains p.toNat →
        Carves (s.freeAnySizeMemory B type p n) s e p n) ↔
      ∀ e ∈ s.entries, e.1.address.toNat < p.toNat →
        p.toNat < e.1.address.toNat + e.1.size.toNat →
        p.toNat + n.toNat ≤ e.1.address.toNat + e.1.size.toNat := by
  constructor
  · rintro ⟨-, hcarves⟩ e he h1 h2
    by_contra hover
    have hc : e.1.extent.Contains p.toNat :=
      ⟨h1.le, by rw [MemoryAlloc.extent_stop]; omega⟩
    have hb : e.1.address ≠ p := fun hb => h1.ne (congrArg UInt32.toNat hb)
    obtain ⟨f, hf, hw⟩ := h.wrapped_of_overrun he hc hb hn (not_le.mp hover) B type hp
    exact hw ((hcarves e he hc).wellFormed.fits f hf)
  · intro hend
    constructor
    · intro hno
      rw [h.freeAnySizeMemory_of_not_contained B type hp hno]
      exact ⟨rfl, rfl⟩
    · intro e he hc
      have hend' : e.1.address ≠ p →
          p.toNat + n.toNat ≤ e.1.address.toNat + e.1.size.toNat := by
        intro hb
        obtain ⟨h1, h2⟩ := inside_bounds hc hb
        exact hend e he h1 h2
      obtain ⟨hret, -, hrep⟩ := h.freeAnySizeMemory_of_contains B type hp he hc hend'
      exact ⟨hret, hrep.wellFormed, remnants type e p n, length_remnants type e p n,
        hrep.mem_iff, exists_remnant_covers_iff type (h.fits e he) hc.1 hend'⟩

/-- Sixteen bytes from the middle of the block. -/
theorem freeAnySizeMemory_carves_iff_middle :
    Carves (twoBlocks.freeAnySizeMemory SearchTree.Balancer.id 0 0x1010 0x10) twoBlocks
      (⟨0x1000, 0x100⟩, ⟨0⟩) 0x1010 0x10 :=
  ((freeAnySizeMemory_carves_iff SearchTree.Balancer.id 0 wellFormed_twoBlocks
    (show (0x1010 : Addr32) ≠ 0 by decide)
    (show (0x1010 : Addr32).toNat + (0x10 : Word32).toNat < 2 ^ 32 by decide)).mpr
      (by decide)).2 _ (by decide) (by decide)

/-- A cut of `0x100` bytes from the middle of the block of `0x100` bytes: the second half is
freed, and an entry of almost `2 ^ 32` bytes is recorded behind the block. -/
theorem overrun_records_huge_tail :
    (twoBlocks.freeAnySizeMemory SearchTree.Balancer.id 0 0x1080 0x100).ret = 0 ∧
      (twoBlocks.freeAnySizeMemory SearchTree.Balancer.id 0 0x1080 0x100).shadow.entries =
        [(⟨0x1000, 0x80⟩, ⟨0⟩), (⟨0x1180, 0xffffff80⟩, ⟨0⟩), (⟨0x2000, 0⟩, ⟨0⟩)] ∧
      ¬ Carves (twoBlocks.freeAnySizeMemory SearchTree.Balancer.id 0 0x1080 0x100) twoBlocks
        (⟨0x1000, 0x100⟩, ⟨0⟩) 0x1080 0x100 := by
  refine ⟨by decide, by decide, fun hcarves => ?_⟩
  exact absurd (hcarves.wellFormed.fits (⟨0x1180, 0xffffff80⟩, ⟨0⟩) (by decide)) (by decide)

end ShadowMemory

end MemCheck
