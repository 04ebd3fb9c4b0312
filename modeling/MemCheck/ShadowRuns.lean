import MemCheck.Lib.Run
import MemCheck.ShadowSpec

/-!
# Runs of the Shadow Memory

The four operations are run one after the other from the empty map. A step is a call
together with the rebalancing that takes place in it, so the shape of the tree is free to
change from call to call in any way. Two facts about such runs carry everything that follows.

* The representation invariant survives every *admissible* operation: an allocation that
  ends below `2 ^ 32`, any free, any sized free, and a free of any part that does not run
  past the end of an entry it starts inside (`Op.perform_wellFormed`).
* Without any restriction a reached map is well formed **or** holds an entry that ends at
  or above `2 ^ 32`. Such an entry is out of reach of every lookup and is never erased
  again (`Op.perform_wrapped`), so a reached map all of whose entries fit is well formed
  (`Reachable.wellFormed_of_fits`).
-/

namespace MemCheck

namespace ShadowMemory

/-- The map after one call, with the rebalancing of that call. -/
def step (s : ShadowMemory) (a : Balancer × Op) : ShadowMemory := (a.2.perform a.1 s).shadow

/-- The map after a sequence of calls. -/
def run (s : ShadowMemory) (steps : List (Balancer × Op)) : ShadowMemory :=
  Run.final step s steps

/-- Calls in which the shape of the tree is left alone. -/
def plain (ops : List Op) : List (Balancer × Op) := ops.map (Prod.mk .id)

/-- What a consistent map guarantees: disjoint extents that end below `2 ^ 32`, on whose
keys the comparator is a strict total order. -/
structure Consistent (s : ShadowMemory) : Prop where
  disjoint : s.entries.Pairwise fun e f => ¬ e.1.extent.Meets f.1.extent
  fits : ∀ e ∈ s.entries, e.1.address.toNat + e.1.size.toNat < 2 ^ 32
  order : IsStrictTotalOrder {k : MemoryAlloc // k ∈ s.entries.map Prod.fst}
    fun x y => MemoryAlloc.comp x y = true

theorem WellFormed.fits_key {s : ShadowMemory} (h : s.WellFormed) {k : MemoryAlloc}
    (hk : k ∈ s.entries.map Prod.fst) : k.Fits := by
  obtain ⟨e, he, rfl⟩ := List.mem_map.mp hk
  exact h.fits e he

/-- Two different recorded keys are comparable. -/
theorem WellFormed.comp_trichotomy {s : ShadowMemory} (h : s.WellFormed)
    {k l : MemoryAlloc} (hk : k ∈ s.entries.map Prod.fst)
    (hl : l ∈ s.entries.map Prod.fst) :
    k.comp l = true ∨ k = l ∨ l.comp k = true := by
  obtain ⟨e, he, rfl⟩ := List.mem_map.mp hk
  obtain ⟨f, hf, rfl⟩ := List.mem_map.mp hl
  by_cases hm : e.1.extent.Meets f.1.extent
  · exact Or.inr (Or.inl (congrArg Prod.fst (h.eq_of_meets he hf hm)))
  · rw [MemoryAlloc.comp_iff (h.fits e he), MemoryAlloc.comp_iff (h.fits f hf)]
    rcases Extent.not_meets_iff.mp hm with hb | hb
    · exact Or.inl hb
    · exact Or.inr (Or.inr hb)

theorem WellFormed.consistent {s : ShadowMemory} (h : s.WellFormed) : s.Consistent where
  disjoint := List.Pairwise.imp (fun hb => hb.not_meets) h.laid
  fits := h.fits
  order :=
    { irrefl := fun x hx =>
        Extent.Before.irrefl _ ((MemoryAlloc.comp_iff (h.fits_key x.2)).mp hx)
      trans := fun x y z hxy hyz => by
        rw [MemoryAlloc.comp_iff (h.fits_key x.2)] at hxy ⊢
        rw [MemoryAlloc.comp_iff (h.fits_key y.2)] at hyz
        exact hxy.trans hyz
      trichotomous := fun x y hxy hyx => by
        rcases h.comp_trichotomy x.2 y.2 with h1 | h1 | h1
        · exact absurd h1 hxy
        · exact Subtype.ext h1
        · exact absurd h1 hyx }

end ShadowMemory

/-! ### Admissible operations -/

/-- An allocation ends below `2 ^ 32`, and a free of any part that starts strictly inside
an entry does not run past its end. -/
def Op.Admissible (s : ShadowMemory) : Op → Prop
  | newMemoryAlloc _ p n => p.toNat + n.toNat < 2 ^ 32
  | freeMemory _ _ => True
  | freeSizeMemory _ _ _ => True
  | freeAnySizeMemory _ p n => ∀ e ∈ s.entries, e.1.address.toNat < p.toNat →
      p.toNat < e.1.address.toNat + e.1.size.toNat →
      p.toNat + n.toNat ≤ e.1.address.toNat + e.1.size.toNat

instance (s : ShadowMemory) : (op : Op) → Decidable (op.Admissible s)
  | .newMemoryAlloc _ _ _ => inferInstanceAs (Decidable (_ < _))
  | .freeMemory _ _ => isTrue trivial
  | .freeSizeMemory _ _ _ => isTrue trivial
  | .freeAnySizeMemory _ _ _ => inferInstanceAs (Decidable (∀ e ∈ s.entries, _ → _ → _ ≤ _))

/-- The call left a well-formed map and none of its re-insertions was refused. -/
structure Call.Sound (c : Call) : Prop where
  wellFormed : c.shadow.WellFormed
  reinserted : ∀ b ∈ c.reinserted, b = true

theorem Call.Replaces.sound {c : Call} {s : ShadowMemory} {e : Entry} {new : List Entry}
    (h : c.Replaces s e new) : c.Sound :=
  ⟨h.wellFormed, h.reinserted⟩

namespace ShadowMemory

variable {s : ShadowMemory} (B : Balancer) (type : ℤ) {p n : Word32}

/-- A call that re-inserts nothing and returns the map it was given. -/
theorem WellFormed.sound_self (h : s.WellFormed) (ret : ℤ) (output : List Message) :
    (⟨ret, s, output, []⟩ : Call).Sound :=
  ⟨h, fun _ hb => absurd hb List.not_mem_nil⟩

theorem WellFormed.sound_newMemoryAlloc (h : s.WellFormed)
    (hk : MemoryAlloc.Fits ⟨p, n⟩) : (s.newMemoryAlloc B type p n).Sound := by
  by_cases hm : ∃ e ∈ s.entries, e.1.extent.Meets (⟨p, n⟩ : MemoryAlloc).extent
  · obtain ⟨e, he, hm⟩ := hm
    obtain ⟨old, -, -, hcall⟩ := h.newMemoryAlloc_of_meets B type hk he hm
    rw [hcall]
    exact h.sound_self _ _
  · obtain ⟨s', hcall, hwf, -⟩ := h.newMemoryAlloc_of_free B type hk
      fun e he hc => hm ⟨e, he, hc⟩
    rw [hcall]
    exact hwf.sound_self _ _

theorem WellFormed.sound_freeMemory (h : s.WellFormed) : (s.freeMemory B type p).Sound := by
  by_cases hp : p = 0
  · subst hp
    exact h.sound_self _ _
  by_cases hc : ∃ e ∈ s.entries, e.1.extent.Contains p.toNat
  · obtain ⟨e, he, hc⟩ := hc
    by_cases hb : e.1.address = p
    · exact (h.freeMemory_of_begins B type hp he hb).2.2.sound
    · rw [h.freeMemory_of_inside B type hp he hc hb]
      exact h.sound_self _ _
  · rw [h.freeMemory_of_not_contained B type hp fun e he hce => hc ⟨e, he, hce⟩]
    exact h.sound_self _ _

theorem WellFormed.sound_freeSizeMemory (h : s.WellFormed) :
    (s.freeSizeMemory B type p n).Sound := by
  by_cases hp : p = 0
  · subst hp
    exact h.sound_self _ _
  by_cases hc : ∃ e ∈ s.entries, e.1.extent.Contains p.toNat
  · obtain ⟨e, he, hc⟩ := hc
    by_cases hb : e.1.address = p
    · by_cases heq : n = e.1.size
      · have hkey : e.1 = ⟨p, n⟩ := by rw [← hb, heq]
        exact (h.freeSizeMemory_of_eq B type hp he hkey).2.2.sound
      rcases UInt32.lt_or_lt_of_ne heq with hlt | hgt
      · exact (h.freeSizeMemory_of_lt B type hp he hb hlt).2.2.sound
      · rw [h.freeSizeMemory_of_gt B type hp he hb hgt]
        exact h.sound_self _ _
    · rw [h.freeSizeMemory_of_inside B type hp he hc hb]
      exact h.sound_self _ _
  · rw [h.freeSizeMemory_of_not_contained B type hp fun e he hce => hc ⟨e, he, hce⟩]
    exact h.sound_self _ _

theorem WellFormed.sound_freeAnySizeMemory (h : s.WellFormed)
    (ha : (Op.freeAnySizeMemory type p n).Admissible s) :
    (s.freeAnySizeMemory B type p n).Sound := by
  by_cases hp : p = 0
  · subst hp
    exact h.sound_self _ _
  by_cases hc : ∃ e ∈ s.entries, e.1.extent.Contains p.toNat
  · obtain ⟨e, he, hc⟩ := hc
    refine (h.freeAnySizeMemory_of_contains B type hp he hc fun hb => ?_).2.2.sound
    obtain ⟨h1, h2⟩ := inside_bounds hc hb
    exact ha e he h1 h2
  · rw [h.freeAnySizeMemory_of_not_contained B type hp fun e he hce => hc ⟨e, he, hce⟩]
    exact h.sound_self _ _

end ShadowMemory

/-- **One step**: an admissible operation keeps the invariant, and none of its
re-insertions is refused. -/
theorem Op.perform_wellFormed {s : ShadowMemory} (B : ShadowMemory.Balancer)
    (h : s.WellFormed) {op : Op} (ha : op.Admissible s) : (op.perform B s).Sound := by
  cases op with
  | newMemoryAlloc type p n => exact h.sound_newMemoryAlloc B type ha
  | freeMemory type p => exact h.sound_freeMemory B type
  | freeSizeMemory type p n => exact h.sound_freeSizeMemory B type
  | freeAnySizeMemory type p n => exact h.sound_freeAnySizeMemory B type ha

/-- **Whole runs**: after every call of an admissible run from the empty map the recorded
extents are disjoint and end below `2 ^ 32`, the comparator is a strict total order on the
recorded keys, and every re-insertion the call made succeeded. -/
theorem ShadowMemory.consistent_of_run {steps : List (Balancer × Op)}
    (h : Run.Along step (fun s a => a.2.Admissible s) empty steps) :
    ∀ pre a post, steps = pre ++ a :: post →
      (a.2.perform a.1 (run empty pre)).shadow.Consistent ∧
        ∀ b ∈ (a.2.perform a.1 (run empty pre)).reinserted, b = true := by
  intro pre a post heq
  rw [heq] at h
  obtain ⟨hwf, ha⟩ := h.at
    (fun s a (hs : s.WellFormed) ha => (Op.perform_wellFormed a.1 hs ha).wellFormed)
    wellFormed_empty
  have hsound := Op.perform_wellFormed a.1 hwf ha
  exact ⟨hsound.wellFormed.consistent, hsound.reinserted⟩

/-- A run through a split, a truncation and a zero-sized block. -/
theorem ShadowMemory.consistent_of_run_split :
    Run.Along step (fun s a => a.2.Admissible s) empty
        (plain [.newMemoryAlloc 0 0x1000 0x100, .freeAnySizeMemory 0 0x1010 0x10,
          .freeSizeMemory 0 0x1000 0x8, .newMemoryAlloc 0 0x2000 0]) ∧
      (Op.perform SearchTree.Balancer.id
        (run empty (plain [.newMemoryAlloc 0 0x1000 0x100]))
        (.freeAnySizeMemory 0 0x1010 0x10)).shadow.Consistent := by
  have h : Run.Along step (fun s a => a.2.Admissible s) empty
      (plain [.newMemoryAlloc 0 0x1000 0x100, .freeAnySizeMemory 0 0x1010 0x10,
        .freeSizeMemory 0 0x1000 0x8, .newMemoryAlloc 0 0x2000 0]) := by decide
  exact ⟨h, (consistent_of_run h [_] _ [_, _] rfl).1⟩

/-! ### Wrapped entries -/

namespace ShadowMemory

variable {s : ShadowMemory} (B : Balancer) (type : ℤ) {p n : Word32} {e : Entry}

/-- The map holds an entry that ends at or above `2 ^ 32`. -/
def Wrapped (s : ShadowMemory) : Prop := ∃ e ∈ s.entries, ¬ e.1.Fits

/-- A lookup of a point never stands on a wrapped entry: the entry's own end, taken modulo
`2 ^ 32`, lies below its start. -/
theorem fits_of_findPoint {pos : SearchTree.Iterator MemoryAlloc MemoryAllocContents}
    (hf : s.find p 0 = some pos) : pos.first.Fits := by
  obtain ⟨-, h1, h2⟩ := SearchTree.find_eq_some _ _ hf
  by_contra hw
  rw [MemoryAlloc.Fits] at hw
  have ha := pos.first.address.toNat_lt
  have hm := pos.first.size.toNat_lt
  have hne : pos.first.size ≠ 0 := by
    intro h0
    rw [h0, UInt32.toNat_zero] at hw
    omega
  rw [MemoryAlloc.comp_eq_false_iff (MemoryAlloc.fits_zero p), Extent.Before,
    MemoryAlloc.extent_stop, MemoryAlloc.extent_start, UInt32.toNat_zero] at h2
  rw [MemoryAlloc.comp, if_pos hne, decide_eq_false_iff_not, UInt32.le_iff_toNat_le,
    UInt32.toNat_add] at h1
  omega

/-- Erasing what a lookup found keeps every wrapped entry. -/
theorem mem_erase_of_wrapped {pos : SearchTree.Iterator MemoryAlloc MemoryAllocContents}
    (hf : s.find p 0 = some pos) (he : e ∈ s.entries) (hw : ¬ e.1.Fits) :
    e ∈ (s.erase B pos).entries := by
  refine mem_erase_of_ne B hf he fun heq => hw ?_
  rw [heq]
  exact fits_of_findPoint hf

/-- A refused insertion leaves the tree alone. -/
theorem tree_of_existing {old : SearchTree.Iterator MemoryAlloc MemoryAllocContents}
    (h : (s.insert B type p n).existing = some old) :
    (⟨(s.insert B type p n).tree⟩ : ShadowMemory) = s :=
  congrArg ShadowMemory.mk (SearchTree.insert_eq_existing _ _ B h).1

/-- An accepted insertion adds its entry and keeps the others, on any map. -/
theorem mem_insert_of_none (h : (s.insert B type p n).existing = none) :
    e ∈ (⟨(s.insert B type p n).tree⟩ : ShadowMemory).entries ↔
      e = (⟨p, n⟩, ⟨type⟩) ∨ e ∈ s.entries := by
  have hlist := SearchTree.toList_insert _ _ B h
  rw [entries, entries, insert, hlist, List.mem_append, List.mem_cons,
    ← or_assoc, or_comm (a := e ∈ _), or_assoc, ← List.mem_append, List.take_append_drop]

/-- An insertion keeps every entry, on any map. -/
theorem mem_insert_of_mem (he : e ∈ s.entries) :
    e ∈ (⟨(s.insert B type p n).tree⟩ : ShadowMemory).entries := by
  cases h : (s.insert B type p n).existing with
  | none => exact (mem_insert_of_none B type h).mpr (Or.inr he)
  | some old =>
      rw [tree_of_existing B type h]
      exact he

/-- An insertion into a well-formed map leaves a well-formed map or a wrapped entry. -/
theorem WellFormed.insert_dichotomy (h : s.WellFormed) :
    (⟨(s.insert B type p n).tree⟩ : ShadowMemory).WellFormed ∨
      (⟨(s.insert B type p n).tree⟩ : ShadowMemory).Wrapped := by
  cases hex : (s.insert B type p n).existing with
  | some old =>
      rw [tree_of_existing B type hex]
      exact Or.inl h
  | none =>
      by_cases hk : MemoryAlloc.Fits ⟨p, n⟩
      · left
        by_contra hc
        refine hc (h.insert_of_free B type hk fun e he hm => ?_).2.1
        obtain ⟨old, hold, -⟩ := h.insert_of_meets B type hk he hm
        exact absurd (hold.symm.trans hex) (Option.some_ne_none old)
      · exact Or.inr ⟨_, (mem_insert_of_none B type hex).mpr (Or.inl rfl), hk⟩

end ShadowMemory

/-- **A wrapped entry is never lost**, whatever is called. -/
theorem Op.perform_wrapped (B : ShadowMemory.Balancer) {s : ShadowMemory} {e : Entry}
    (he : e ∈ s.entries) (hw : ¬ e.1.Fits) (op : Op) :
    e ∈ (op.perform B s).shadow.entries := by
  cases op with
  | newMemoryAlloc type p n =>
      have hmem := ShadowMemory.mem_insert_of_mem B type (p := p) (n := n) he
      simp only [perform, ShadowMemory.newMemoryAlloc]
      split <;> exact hmem
  | freeMemory type p =>
      simp only [perform, ShadowMemory.freeMemory]
      split_ifs
      · exact he
      split
      · exact he
      · rename_i pos hf
        split_ifs
        · exact ShadowMemory.mem_erase_of_wrapped B hf he hw
        · exact he
  | freeSizeMemory type p n =>
      simp only [perform, ShadowMemory.freeSizeMemory]
      split_ifs
      · exact he
      split
      · exact he
      · rename_i pos hf
        have herase := ShadowMemory.mem_erase_of_wrapped B hf he hw
        split_ifs
        · exact ShadowMemory.mem_insert_of_mem B type herase
        · exact he
        · exact herase
        · exact he
  | freeAnySizeMemory type p n =>
      simp only [perform, ShadowMemory.freeAnySizeMemory]
      split_ifs
      · exact he
      split
      · exact he
      · rename_i pos hf
        have herase := ShadowMemory.mem_erase_of_wrapped B hf he hw
        split_ifs
        · exact ShadowMemory.mem_insert_of_mem B type herase
        · exact herase
        · exact ShadowMemory.mem_insert_of_mem B type
            (ShadowMemory.mem_insert_of_mem B type herase)
        · exact ShadowMemory.mem_insert_of_mem B type herase

/-- One unrestricted step from a well-formed map. -/
theorem Op.perform_dichotomy (B : ShadowMemory.Balancer) {s : ShadowMemory}
    (h : s.WellFormed) (op : Op) :
    (op.perform B s).shadow.WellFormed ∨ (op.perform B s).shadow.Wrapped := by
  cases op with
  | newMemoryAlloc type p n =>
      have hins := h.insert_dichotomy B type (p := p) (n := n)
      simp only [perform, ShadowMemory.newMemoryAlloc]
      split <;> exact hins
  | freeMemory type p => exact Or.inl (h.sound_freeMemory B type).wellFormed
  | freeSizeMemory type p n => exact Or.inl (h.sound_freeSizeMemory B type).wellFormed
  | freeAnySizeMemory type p n =>
      simp only [perform, ShadowMemory.freeAnySizeMemory]
      split_ifs
      · exact Or.inl h
      split
      · exact Or.inl h
      · rename_i pos hf
        split_ifs with hb hlt htail
        · exact (h.erase B pos).insert_dichotomy B type
        · exact Or.inl (h.erase B pos)
        · -- the head fits; only the tail can wrap
          obtain ⟨hget, hc⟩ := h.findPoint_eq_some hf
          obtain ⟨hfit, hwithin, -⟩ := h.head_within (List.mem_of_getElem? hget) hc hb
          exact (h.insert_erased B type hget hfit hwithin).2.1.insert_dichotomy B type
        · exact (h.erase B pos).insert_dichotomy B type

namespace ShadowMemory

/-- The maps some sequence of calls leads to from the empty one. -/
def Reachable (s : ShadowMemory) : Prop := ∃ steps, s = run empty steps

/-- A reached map is well formed or holds a wrapped entry. -/
theorem Reachable.wellFormed_or_wrapped {s : ShadowMemory} (h : Reachable s) :
    s.WellFormed ∨ s.Wrapped := by
  obtain ⟨steps, rfl⟩ := h
  have hstep : ∀ s a, s.WellFormed ∨ s.Wrapped →
      (step s a).WellFormed ∨ (step s a).Wrapped := by
    rintro s ⟨B, op⟩ (hwf | ⟨e, he, hw⟩)
    · exact Op.perform_dichotomy B hwf op
    · exact Or.inr ⟨e, Op.perform_wrapped B he hw op, hw⟩
  exact Run.inv_final hstep (Or.inl wellFormed_empty)

/-- **A reached map whose entries all end below `2 ^ 32` is well formed**, whatever calls
led to it. -/
theorem Reachable.wellFormed_of_fits {s : ShadowMemory} (h : Reachable s)
    (hfits : ∀ e ∈ s.entries, e.1.address.toNat + e.1.size.toNat < 2 ^ 32) :
    s.WellFormed := by
  rcases h.wellFormed_or_wrapped with hwf | ⟨e, he, hw⟩
  · exact hwf
  · exact absurd (hfits e he) hw

end ShadowMemory

end MemCheck
