import MemCheck.Registry

/-!
# Where an Entry Is Put

The map knows no addresses, only what its comparator answers. An entry that ends at or above
`2 ^ 32` gives wrong answers: from its wrapped end on it counts as below every address,
although it is above them all. Beside such an entry a map can still serve its other entries,
and whether it does is a matter of where they stand. A lookup is sent to an entry in every
shape of the tree when the entries in front of it, and no others, are below the address looked
up. An insertion descends in the shape the tree has; it puts the new entry where lookups are
sent exactly if the slot it reaches *separates* the entries below the new one from the others
(`Separates`). A call is *placed* when all its insertions reach such slots (`Op.Placed`).

On a well-formed map every call that finds room is placed (`WellFormed.placed`). The results
here need no well-formed map: they are about calls that are placed, beside entries of any kind.

## Main results

* `freeAnySizeMemory_of_splits`: cutting a part out of an entry leaves the rest in its place;
* `Holds.newMemoryAlloc`, `Holds.release`: blocks held beside entries of any kind.
-/

namespace MemCheck

open SearchTree (Splits)

/-- What the comparator answers depends on the address of its right argument only. -/
theorem MemoryAlloc.comp_of_address {y z : MemoryAlloc} (h : y.address = z.address)
    (x : MemoryAlloc) : x.comp y = x.comp z := by
  rw [comp, comp, h]

theorem MemoryAlloc.splits_of_address {y z : MemoryAlloc} {X Y : List Entry}
    (h : y.address = z.address) (hs : Splits comp y X Y) : Splits comp z X Y := by
  refine ⟨fun x hx => ?_, fun x hx => ?_⟩
  · rw [← comp_of_address h]
    exact hs.below x hx
  · rw [← comp_of_address h]
    exact hs.rest x hx

namespace ShadowMemory

/-- The entries left of the slot at which `k` would be inserted are exactly those that the
comparator puts below `k`. -/
def Separates (s : ShadowMemory) (k : MemoryAlloc) : Prop :=
  Splits MemoryAlloc.comp k
    (s.entries.take (SearchTree.slot MemoryAlloc.comp k s.memoryMap))
    (s.entries.drop (SearchTree.slot MemoryAlloc.comp k s.memoryMap))

instance (X Y : List Entry) (k : MemoryAlloc) : Decidable (Splits MemoryAlloc.comp k X Y) :=
  decidable_of_iff ((∀ x ∈ X, MemoryAlloc.comp x.1 k = true) ∧
      ∀ y ∈ Y, MemoryAlloc.comp y.1 k = false)
    ⟨fun h => ⟨h.1, h.2⟩, fun h => ⟨h.below, h.rest⟩⟩

instance (s : ShadowMemory) (k : MemoryAlloc) : Decidable (s.Separates k) :=
  inferInstanceAs (Decidable (Splits _ _ _ _))

/-- A page of the kernel and the last page of the address space, whose key counts as below
the other although its address is above. -/
def lastPage : ShadowMemory :=
  run empty (plain [.newMemoryAlloc 0 0xc0000000 0x1000, .newMemoryAlloc 0 0xfffff000 0x1000])

/-- Above the kernel's page every slot beside the last page separates, below it none does. -/
example : lastPage.Separates ⟨0xc1000000, 64⟩ ∧ ¬ lastPage.Separates ⟨0x1000, 64⟩ := by
  decide

/-- In free space of a well-formed map every slot separates. -/
theorem WellFormed.separates {s : ShadowMemory} (h : s.WellFormed) {k : MemoryAlloc}
    (hk : k.Fits) (hfree : ∀ e ∈ s.entries, ¬ e.1.extent.Meets k.extent) : s.Separates k :=
  h.spaced.splits_slot ordersExtents_comp hk hfree

end ShadowMemory

/-- Every insertion the call makes, of a new entry or of a part it keeps of an old one, is at
a slot that separates. -/
def Op.Placed (B : ShadowMemory.Balancer) (s : ShadowMemory) : Op → Prop
  | newMemoryAlloc _ p n => s.Separates ⟨p, n⟩
  | freeMemory _ _ => True
  | freeSizeMemory _ p n => ∀ pos ∈ s.find p 0, pos.first.address = p →
      n < pos.first.size → (s.erase B pos).Separates ⟨p + n, pos.first.size - n⟩
  | freeAnySizeMemory type p n => ∀ pos ∈ s.find p 0,
      (pos.first.address = p → n < pos.first.size →
        (s.erase B pos).Separates ⟨p + n, pos.first.size - n⟩) ∧
      (pos.first.address ≠ p →
        (s.erase B pos).Separates ⟨pos.first.address, p - pos.first.address⟩ ∧
        (p + n ≠ pos.first.address + pos.first.size →
          (⟨((s.erase B pos).insert B type pos.first.address
            (p - pos.first.address)).tree⟩ : ShadowMemory).Separates
              ⟨p + n, pos.first.address + pos.first.size - (p + n)⟩))

instance (B : ShadowMemory.Balancer) (s : ShadowMemory) : (op : Op) → Decidable (op.Placed B s)
  | .newMemoryAlloc _ p n => inferInstanceAs (Decidable (s.Separates ⟨p, n⟩))
  | .freeMemory _ _ => isTrue trivial
  | .freeSizeMemory _ p _ => inferInstanceAs (Decidable (∀ pos ∈ s.find p 0, _ → _ → _))
  | .freeAnySizeMemory _ p _ =>
      inferInstanceAs (Decidable (∀ pos ∈ s.find p 0, (_ → _ → _) ∧ (_ → _ ∧ (_ → _))))

namespace ShadowMemory

variable {s : ShadowMemory} (B : Balancer) (type : ℤ) {p n : Word32} {e f : Entry}
  {X Y : List Entry}

/-! ### Calls on any map -/

/-- A lookup is sent to the entry behind those below the address. -/
theorem find_of_splits (hs : s.entries = X ++ e :: Y)
    (hsplit : Splits MemoryAlloc.comp ⟨p, 0⟩ X (e :: Y)) (hle : e.1.address ≤ p) :
    s.find p 0 = some ⟨X.length, e.1, e.2⟩ := by
  refine hsplit.find hs ?_
  rw [MemoryAlloc.comp, if_neg (by simp), decide_eq_false_iff_not, UInt32.not_lt]
  simpa using hle

theorem entries_erase_of_append {k : MemoryAlloc} {v : MemoryAllocContents}
    (hs : s.entries = X ++ e :: Y) :
    (s.erase B ⟨X.length, k, v⟩).entries = X ++ Y := by
  rw [entries_erase, hs, List.eraseIdx_append_of_length_le le_rfl, Nat.sub_self,
    List.eraseIdx_cons_zero]

/-- An insertion at a slot that separates puts the entry behind those below it. -/
theorem insert_of_splits (hs : s.entries = X ++ Y)
    (hsplit : Splits MemoryAlloc.comp ⟨p, n⟩ X Y) (hsep : s.Separates ⟨p, n⟩) :
    (s.insert B type p n).existing = none ∧
      (⟨(s.insert B type p n).tree⟩ : ShadowMemory).entries =
        X ++ (⟨p, n⟩, ⟨type⟩) :: Y :=
  hsplit.insert hs hsep B ⟨type⟩

/-- A placed allocation. -/
theorem newMemoryAlloc_of_splits (hs : s.entries = X ++ Y)
    (hsplit : Splits MemoryAlloc.comp ⟨p, n⟩ X Y) (hsep : s.Separates ⟨p, n⟩) :
    (s.newMemoryAlloc B type p n).ret = 0 ∧
      (s.newMemoryAlloc B type p n).shadow.entries = X ++ (⟨p, n⟩, ⟨type⟩) :: Y := by
  obtain ⟨hnone, hentries⟩ := insert_of_splits B type hs hsplit hsep
  simp only [newMemoryAlloc, hnone]
  exact ⟨trivial, hentries⟩

/-- A whole entry is released in each of the three ways, wherever lookups are sent to it. -/
theorem release_of_splits (hs : s.entries = X ++ e :: Y)
    (hsplit : Splits MemoryAlloc.comp ⟨e.1.address, 0⟩ X (e :: Y)) (hp : e.1.address ≠ 0)
    (kind : ReleaseKind) :
    ((kind.op e).perform B s).ret = 0 ∧
      ((kind.op e).perform B s).shadow.entries = X ++ Y := by
  have hfind := find_of_splits hs hsplit (UInt32.le_refl _)
  have hcall : (kind.op e).perform B s = ⟨0, s.erase B ⟨X.length, e.1, e.2⟩, [], []⟩ := by
    cases kind with
    | free =>
        simp only [ReleaseKind.op, Op.perform, freeMemory, if_neg hp, hfind, if_true]
    | freeSize =>
        simp only [ReleaseKind.op, Op.perform, freeSizeMemory, if_neg hp, hfind, if_true,
          ne_eq, not_true_eq_false, if_false]
    | freeAnySize =>
        simp only [ReleaseKind.op, Op.perform, freeAnySizeMemory, if_neg hp, hfind, if_true,
          ne_eq, not_true_eq_false, false_and, if_false]
  rw [hcall]
  exact ⟨rfl, entries_erase_of_append B hs⟩

section Cut

variable (hs : s.entries = X ++ f :: Y)
  (hsplit : ∀ q : Addr32, f.1.extent.Contains q.toNat →
    Splits MemoryAlloc.comp ⟨q, 0⟩ X (f :: Y))
  (hplaced : (Op.freeAnySizeMemory type p n).Placed B s)

/-- A key that starts inside the entry belongs where the entry stands. -/
theorem splits_of_contains {X Y : List Entry} {k : MemoryAlloc}
    (hsplit : ∀ q : Addr32, f.1.extent.Contains q.toNat →
      Splits MemoryAlloc.comp ⟨q, 0⟩ X (f :: Y))
    (hk : f.1.extent.Contains k.address.toNat) : Splits MemoryAlloc.comp k X Y :=
  MemoryAlloc.splits_of_address (y := ⟨k.address, 0⟩) rfl
    ⟨(hsplit _ hk).below, fun y hy => (hsplit _ hk).rest y (List.mem_cons_of_mem f hy)⟩

/-- A key at the end of a cut belongs behind the head that the cut leaves. -/
theorem splits_tail {X Y : List Entry} {k : MemoryAlloc}
    (hsplit : ∀ q : Addr32, f.1.extent.Contains q.toNat →
      Splits MemoryAlloc.comp ⟨q, 0⟩ X (f :: Y))
    (hlo : f.1.address.toNat < p.toNat) (hadd : (p + n).toNat = p.toNat + n.toNat)
    (hk : k.address = p + n) (hkey : f.1.extent.Contains k.address.toNat) :
    Splits MemoryAlloc.comp k (X ++ [(⟨f.1.address, p - f.1.address⟩, ⟨type⟩)]) Y := by
  have hpart := splits_of_contains hsplit hkey
  refine ⟨List.forall_mem_append.mpr ⟨hpart.below, ?_⟩, hpart.rest⟩
  have hsub : (p - f.1.address).toNat = p.toNat - f.1.address.toNat :=
    UInt32.toNat_sub_of_le _ _ (UInt32.le_iff_toNat_le.mpr hlo.le)
  have hfits : MemoryAlloc.Fits ⟨f.1.address, p - f.1.address⟩ := by
    have hlt := p.toNat_lt
    simp only [MemoryAlloc.Fits, hsub]
    omega
  intro x hx
  rw [List.mem_singleton.mp hx, MemoryAlloc.comp_iff hfits]
  simp only [Extent.Before, MemoryAlloc.extent_stop, MemoryAlloc.extent_start, hk, hsub, hadd]
  omega

include hs hsplit hplaced in
/-- The cut at the start of an entry. -/
theorem freeAnySizeMemory_of_splits_begins (hp : p ≠ 0) (hb : f.1.address = p)
    (hfit : f.1.Fits) :
    (s.freeAnySizeMemory B type p n).ret = 0 ∧
      (s.freeAnySizeMemory B type p n).shadow.entries = X ++ (remnants type f p n ++ Y) := by
  subst hb
  have hfind := find_of_splits hs (hsplit _ (contains_of_begins rfl)) (UInt32.le_refl _)
  have herase := entries_erase_of_append B (k := f.1) (v := f.2) hs
  by_cases hlt : n < f.1.size
  · have hlt' := UInt32.lt_iff_toNat_lt.mp hlt
    have hne : f.1.size ≠ n := fun hc => (UInt32.lt_irrefl n) (hc ▸ hlt)
    have hadd : (f.1.address + n).toNat = f.1.address.toNat + n.toNat := by
      rw [MemoryAlloc.Fits] at hfit
      rw [UInt32.toNat_add, Nat.mod_eq_of_lt (by omega)]
    have hkey : f.1.extent.Contains (f.1.address + n).toNat := by
      simp only [Extent.Contains, MemoryAlloc.extent_start, MemoryAlloc.extent_stop, hadd]
      omega
    obtain ⟨-, hins⟩ := insert_of_splits B type herase
      (splits_of_contains (k := ⟨f.1.address + n, f.1.size - n⟩) hsplit hkey)
      ((hplaced _ hfind).1 rfl hlt)
    have hrem : remnants type f f.1.address n =
        [(⟨f.1.address + n, f.1.size - n⟩, ⟨type⟩)] := by
      have hsize : f.1.address + f.1.size - (f.1.address + n) = f.1.size - n := by grind
      rw [remnants, if_pos rfl, hsize, if_pos (by omega)]
      rfl
    simp only [freeAnySizeMemory, if_neg hp, hfind, if_true, if_pos (And.intro hne hlt), hrem]
    exact ⟨trivial, hins⟩
  · have hle := UInt32.le_iff_toNat_le.mp (UInt32.not_lt.mp hlt)
    have hrem : remnants type f f.1.address n = [] := by
      rw [remnants, if_pos rfl, if_neg (by omega)]
      rfl
    simp only [freeAnySizeMemory, if_neg hp, hfind, if_true, hlt, and_false, if_false, hrem]
    exact ⟨trivial, herase⟩

include hs hsplit hplaced in
/-- The cut strictly inside an entry. -/
theorem freeAnySizeMemory_of_splits_inside (hp : p ≠ 0) (hb : f.1.address ≠ p)
    (hc : f.1.extent.Contains p.toNat) (hfit : f.1.Fits)
    (hhi : p.toNat + n.toNat ≤ f.1.address.toNat + f.1.size.toNat) :
    (s.freeAnySizeMemory B type p n).ret = 0 ∧
      (s.freeAnySizeMemory B type p n).shadow.entries = X ++ (remnants type f p n ++ Y) := by
  obtain ⟨hlo, -⟩ := inside_bounds hc hb
  have hfind := find_of_splits hs (hsplit p hc) (UInt32.le_iff_toNat_le.mpr hlo.le)
  have herase := entries_erase_of_append B (k := f.1) (v := f.2) hs
  obtain ⟨hhead, htail⟩ := (hplaced _ hfind).2 hb
  obtain ⟨-, hins⟩ := insert_of_splits B type herase
    (splits_of_contains (k := ⟨f.1.address, p - f.1.address⟩) hsplit
      (contains_of_begins rfl)) hhead
  obtain ⟨hadd, -⟩ := toNat_tail hfit hhi
  have hiff : p + n ≠ f.1.address + f.1.size ↔
      p.toNat + n.toNat < f.1.address.toNat + f.1.size.toNat := by
    rw [ne_eq, ← UInt32.toNat_inj, hadd, UInt32.toNat_add, Nat.mod_eq_of_lt hfit]
    omega
  by_cases hlt : p.toNat + n.toNat < f.1.address.toNat + f.1.size.toNat
  · have hkey : f.1.extent.Contains (p + n).toNat := by
      simp only [Extent.Contains, MemoryAlloc.extent_start, MemoryAlloc.extent_stop, hadd]
      omega
    have hsplit' := splits_tail type hsplit hlo hadd
      (k := ⟨p + n, f.1.address + f.1.size - (p + n)⟩) rfl hkey
    have hs' : (⟨((s.erase B ⟨X.length, f.1, f.2⟩).insert B type f.1.address
        (p - f.1.address)).tree⟩ : ShadowMemory).entries =
          (X ++ [(⟨f.1.address, p - f.1.address⟩, ⟨type⟩)]) ++ Y := by
      rw [hins, List.append_assoc]
      rfl
    obtain ⟨-, hins'⟩ := insert_of_splits B type hs' hsplit' (htail (hiff.mpr hlt))
    simp only [freeAnySizeMemory, if_neg hp, hfind, if_neg hb, if_pos (hiff.mpr hlt),
      remnants, if_pos hlt]
    exact ⟨trivial, hins'.trans (by simp)⟩
  · simp only [freeAnySizeMemory, if_neg hp, hfind, if_neg hb, if_neg (hiff.not.mpr hlt),
      remnants, if_neg hlt, List.append_nil]
    exact ⟨trivial, hins⟩

include hs hsplit hplaced in
/-- **A placed cut** leaves what is left of the entry in its place, beside entries of any
kind. -/
theorem freeAnySizeMemory_of_splits (hp : p ≠ 0) (hc : f.1.extent.Contains p.toNat)
    (hfit : f.1.Fits) (hhi : p.toNat + n.toNat ≤ f.1.address.toNat + f.1.size.toNat) :
    (s.freeAnySizeMemory B type p n).ret = 0 ∧
      (s.freeAnySizeMemory B type p n).shadow.entries = X ++ (remnants type f p n ++ Y) := by
  by_cases hb : f.1.address = p
  · exact freeAnySizeMemory_of_splits_begins B type hs hsplit hplaced hp hb hfit
  · exact freeAnySizeMemory_of_splits_inside B type hs hsplit hplaced hp hb hc hfit hhi

end Cut

/-! ### Well-formed maps -/

/-- Lookups of an address are sent to the entry that contains it, among entries in address
order that end below `2 ^ 32`. -/
theorem splits_of_laid (hlaid : Extent.Laid Entry.extent (X ++ f :: Y))
    (hfits : ∀ g ∈ X ++ f :: Y, g.1.Fits) {q : Addr32}
    (hq : f.1.extent.Contains q.toNat) : Splits MemoryAlloc.comp ⟨q, 0⟩ X (f :: Y) := by
  obtain ⟨-, hfY, hXf⟩ := List.pairwise_append.mp hlaid
  have hbefore : ∀ g ∈ X ++ f :: Y,
      (g.1.comp ⟨q, 0⟩ = true ↔ g.1.extent.stop ≤ q.toNat) := fun g hg =>
    MemoryAlloc.comp_iff (y := ⟨q, 0⟩) (hfits g hg)
  refine ⟨fun x hx => ?_, List.forall_mem_cons.mpr ⟨?_, fun y hy => ?_⟩⟩
  · rw [hbefore x (List.mem_append_left _ hx)]
    exact le_trans (hXf x hx f List.mem_cons_self) hq.1
  · rw [← Bool.not_eq_true, hbefore f (by simp), not_le]
    exact hq.2
  · have hfy := (List.pairwise_cons.mp hfY).1 y hy
    rw [← Bool.not_eq_true, hbefore y (by simp [hy]), not_le]
    exact lt_of_lt_of_le hq.2 (le_trans hfy y.1.extent.start_lt_stop.le)

/-- **On a well-formed map every admissible call is placed**, if an allocation finds room. -/
theorem WellFormed.placed (h : s.WellFormed) {op : Op} (ha : op.Admissible s)
    (hroom : ∀ type p n, op = .newMemoryAlloc type p n →
      ∀ e ∈ s.entries, ¬ e.1.extent.Meets (⟨p, n⟩ : MemoryAlloc).extent) : op.Placed B s := by
  -- the tail of an entry found at its start
  have htail : ∀ {p n : Word32} pos, s.find p 0 = some pos → pos.first.address = p →
      n < pos.first.size → (s.erase B pos).Separates ⟨p + n, pos.first.size - n⟩ := by
    intro p n pos hfind hb hlt
    obtain ⟨hget, -⟩ := h.findPoint_eq_some hfind
    obtain ⟨hfit, hwithin⟩ := h.tail_within (List.mem_of_getElem? hget) hb hlt
    exact (h.erase B pos).separates hfit (h.not_meets_erased B hget hwithin)
  cases op with
  | newMemoryAlloc type p n => exact h.separates ha (hroom type p n rfl)
  | freeMemory type p => trivial
  | freeSizeMemory type p n => exact htail
  | freeAnySizeMemory type p n =>
      intro pos hfind
      refine ⟨htail pos hfind, fun hb => ?_⟩
      obtain ⟨hget, hc⟩ := h.findPoint_eq_some hfind
      have he := List.mem_of_getElem? hget
      have hc' : pos.deref.1.extent.Contains p.toNat := hc
      obtain ⟨hfit, hwithin, hstop⟩ := h.head_within he hc' hb
      refine ⟨(h.erase B pos).separates hfit (h.not_meets_erased B hget hwithin),
        fun hne => ?_⟩
      obtain ⟨h1, h2⟩ := inside_bounds hc' hb
      have hend := ha pos.deref he h1 h2
      have hfitE : pos.first.address.toNat + pos.first.size.toNat < 2 ^ 32 := h.fits _ he
      have hlt : p.toNat + n.toNat <
          pos.deref.1.address.toNat + pos.deref.1.size.toNat := by
        refine lt_of_le_of_ne hend fun heq => hne ?_
        have heq' : p.toNat + n.toNat =
            pos.first.address.toNat + pos.first.size.toNat := heq
        rw [← UInt32.toNat_inj, UInt32.toNat_add, UInt32.toNat_add, heq']
      obtain ⟨hfit', hwithin', hstart⟩ := h.splitTail_within he hc' hb hlt
      obtain ⟨-, hwf, hmem⟩ := h.insert_erased B type hget hfit hwithin
      refine hwf.separates hfit' fun g hg => ?_
      rcases (hmem g).mp hg with rfl | hg
      · exact Extent.Before.not_meets (hstop.trans_le hstart)
      · exact h.not_meets_erased B hget hwithin' g ((h.mem_erase B hget).mpr hg)

/-- Releasing a whole entry is admissible. -/
theorem WellFormed.admissible_release (h : s.WellFormed) (he : e ∈ s.entries)
    (kind : ReleaseKind) : (kind.op e).Admissible s := by
  cases kind with
  | free => trivial
  | freeSize => trivial
  | freeAnySize =>
      intro f hf h1 h2
      have hc : f.1.extent.Contains e.1.address.toNat :=
        ⟨h1.le, by rw [MemoryAlloc.extent_stop]; omega⟩
      obtain rfl := h.eq_of_contains hf he hc (contains_of_begins rfl)
      exact absurd h1 (lt_irrefl _)

theorem WellFormed.perform_alloc (h : s.WellFormed) (hfit : e.1.Fits) :
    (e.allocOp.perform B s).shadow.WellFormed := by
  have hadm : e.allocOp.Admissible s := hfit
  exact (Op.perform_wellFormed B h hadm).wellFormed

theorem WellFormed.perform_release (h : s.WellFormed) (he : e ∈ s.entries)
    (kind : ReleaseKind) : ((kind.op e).perform B s).shadow.WellFormed :=
  (Op.perform_wellFormed B h (h.admissible_release he kind)).wellFormed

/-! ### Blocks held beside other entries -/

/-- Lookups of the entry's address are sent to it, whatever the shape of the tree. -/
def Found (s : ShadowMemory) (e : Entry) : Prop :=
  ∃ X Y, s.entries = X ++ e :: Y ∧
    Splits MemoryAlloc.comp ⟨e.1.address, 0⟩ X (e :: Y)

section Found

variable {s' : ShadowMemory}

/-- Whether an entry that fits is below the address of another. -/
theorem comp_point_iff {k : MemoryAlloc} (hk : k.Fits) (f : Entry) :
    k.comp ⟨f.1.address, 0⟩ = true ↔ k.extent.Before f.1.extent :=
  MemoryAlloc.comp_iff (y := ⟨f.1.address, 0⟩) hk

/-- Where an element of a sequence put together from two stands. -/
theorem cons_eq_append {U V : List Entry} (h : U ++ f :: V = X ++ Y) :
    (∃ Z, X = U ++ f :: Z ∧ V = Z ++ Y) ∨ ∃ Z, U = X ++ Z ∧ Y = Z ++ f :: V := by
  rcases List.append_eq_append_iff.mp h with ⟨Z, hX, hZ⟩ | ⟨Z, hU, hY⟩
  · cases Z with
    | nil =>
        rw [List.append_nil] at hX
        exact Or.inr ⟨[], by simp [hX], hZ.symm⟩
    | cons z Z =>
        obtain ⟨rfl, hV⟩ := List.cons.inj hZ
        exact Or.inl ⟨Z, hX, hV⟩
  · exact Or.inr ⟨Z, hU, hY⟩

/-- An entry stays found beside one put where it belongs, which it does not meet. -/
theorem Found.insert {k : Entry} (h : s.Found f) (hf : f.1.Fits) (hk : k.1.Fits)
    (hs : s.entries = X ++ Y) (hs' : s'.entries = X ++ k :: Y)
    (hsplit : Splits MemoryAlloc.comp k.1 X Y)
    (hapart : ¬ f.1.extent.Meets k.1.extent) : s'.Found f := by
  obtain ⟨U, V, hUV, hbelow, hrest⟩ := h
  rcases cons_eq_append (hUV.symm.trans hs) with ⟨Z, rfl, rfl⟩ | ⟨Z, rfl, rfl⟩
  · refine ⟨U, Z ++ k :: Y, by simp [hs'], hbelow, fun x hx => ?_⟩
    by_cases hxk : x = k
    · -- the new entry is behind it, so not below its address
      have hbefore := (MemoryAlloc.comp_iff hf).mp (hsplit.below f (by simp))
      rw [hxk, ← Bool.not_eq_true, comp_point_iff hk]
      exact hbefore.asymm
    · exact hrest x (by simpa [hxk] using hx)
  · refine ⟨X ++ k :: Z, V, by simp [hs'], fun x hx => ?_, hrest⟩
    by_cases hxk : x = k
    · have hnot := (MemoryAlloc.comp_eq_false_iff hf).mp (hsplit.rest f (by simp))
      rw [hxk, comp_point_iff hk]
      exact (Extent.not_meets_iff.mp hapart).resolve_left hnot
    · exact hbelow x (by simpa [hxk] using hx)

/-- An entry stays found when another one is erased. -/
theorem Found.erase (h : s.Found f) (hne : f ≠ e) (hs : s.entries = X ++ e :: Y)
    (hs' : s'.entries = X ++ Y) : s'.Found f := by
  obtain ⟨U, V, hUV, hbelow, hrest⟩ := h
  rcases cons_eq_append (hUV.symm.trans hs) with ⟨Z, rfl, rfl⟩ | ⟨Z, rfl, hZ⟩
  · refine ⟨U, Z ++ Y, by simp [hs'], hbelow, fun x hx => hrest x ?_⟩
    simp only [List.mem_cons, List.mem_append] at hx ⊢
    tauto
  · cases Z with
    | nil => exact absurd (List.cons.inj hZ).1.symm hne
    | cons z Z =>
        obtain ⟨rfl, rfl⟩ := List.cons.inj hZ
        refine ⟨X ++ Z, V, by simp [hs'], fun x hx => hbelow x ?_, hrest⟩
        simp only [List.mem_cons, List.mem_append] at hx ⊢
        tauto

end Found

/-- The map holds the blocks of `S` beside the entries `base`, which stand in the order they
had, and every block of `S` that ends below `2 ^ 32` is found. -/
structure Holds (s : ShadowMemory) (base : List Entry) (S : Set Entry) : Prop where
  split : ∃ l : List Entry, s.entries.Perm (base ++ l) ∧ l.Nodup ∧ ∀ f, f ∈ l ↔ f ∈ S
  base : base.Sublist s.entries
  found : ∀ f ∈ S, f.1.Fits → s.Found f

namespace Holds

variable {base : List Entry} {S : Set Entry}

theorem self (s : ShadowMemory) : s.Holds s.entries ∅ :=
  ⟨⟨[], by simp⟩, List.Sublist.refl _, fun _ hf => absurd hf (Set.notMem_empty _)⟩

theorem mem_iff (h : s.Holds base S) (f : Entry) : f ∈ s.entries ↔ f ∈ base ∨ f ∈ S := by
  obtain ⟨l, hperm, -, hl⟩ := h.split
  rw [hperm.mem_iff, List.mem_append, hl]

/-- With no block held the map is the one before. -/
theorem entries_eq (h : s.Holds base ∅) : s.entries = base := by
  obtain ⟨l, hperm, -, hl⟩ := h.split
  have hnil : l = [] := List.eq_nil_iff_forall_not_mem.mpr fun f hf =>
    Set.notMem_empty f ((hl f).mp hf)
  rw [hnil, List.append_nil] at hperm
  exact (h.base.eq_of_length hperm.length_eq.symm).symm

variable {s' : ShadowMemory}

/-- A block put where it belongs. -/
theorem insert (h : s.Holds base S) (hs : s.entries = X ++ Y) (hs' : s'.entries = X ++ e :: Y)
    (hsplit : Splits MemoryAlloc.comp e.1 X Y)
    (hapart : ∀ f ∈ S, ¬ f.1.extent.Meets e.1.extent)
    (hfits : e.1.Fits ∨ ∀ f ∈ S, ¬ f.1.Fits) : s'.Holds base (Insert.insert e S) := by
  obtain ⟨l, hperm, hnodup, hl⟩ := h.split
  refine ⟨⟨e :: l, ?_, List.nodup_cons.mpr ⟨fun hin => ?_, hnodup⟩, fun f => ?_⟩, ?_, ?_⟩
  · rw [hs']
    rw [hs] at hperm
    exact List.perm_middle.trans ((hperm.cons e).trans List.perm_middle.symm)
  · exact hapart e ((hl e).mp hin) (Extent.meets_self _)
  · rw [List.mem_cons, hl]
    rfl
  · rw [hs']
    refine h.base.trans ?_
    rw [hs]
    exact List.Sublist.append_left (List.sublist_cons_self e Y) X
  · rintro f (rfl | hf) hfit
    · have hself : f.1.comp ⟨f.1.address, 0⟩ = false := by
        rw [← Bool.not_eq_true, comp_point_iff hfit]
        exact Extent.Before.irrefl _
      have hpoint := MemoryAlloc.splits_of_address (y := f.1) (z := ⟨f.1.address, 0⟩) rfl hsplit
      exact ⟨X, Y, hs', hpoint.below, List.forall_mem_cons.mpr ⟨hself, hpoint.rest⟩⟩
    · rcases hfits with hk | hnone
      · exact (h.found f hf hfit).insert hfit hk hs hs' hsplit (hapart f hf)
      · exact absurd hfit (hnone f hf)

/-- A block taken away. -/
theorem erase (h : s.Holds base S) (he : e ∈ S) (hbase : e ∉ base)
    (hs : s.entries = X ++ e :: Y) (hX : e ∉ X) (hs' : s'.entries = X ++ Y) :
    s'.Holds base (S \ {e}) := by
  obtain ⟨l, hperm, hnodup, hl⟩ := h.split
  have hmem : e ∈ l := (hl e).mpr he
  refine ⟨⟨l.erase e, ?_, hnodup.erase e, fun f => ?_⟩, ?_, ?_⟩
  · rw [hs']
    rw [hs] at hperm
    have hcons := (List.perm_middle.symm.trans hperm).trans
      (((List.perm_cons_erase hmem).append_left base).trans List.perm_middle)
    exact hcons.cons_inv
  · rw [hnodup.mem_erase_iff, hl, Set.mem_sdiff, Set.mem_singleton_iff, and_comm]
  · have hsub := h.base.erase e
    rw [List.erase_of_not_mem hbase, hs, List.erase_append_right _ hX,
      List.erase_cons_head] at hsub
    rw [hs']
    exact hsub
  · rintro f ⟨hf, hne⟩ hfit
    exact (h.found f hf hfit).erase hne hs hs'

/-- **A placed allocation** succeeds and adds its block. One that ends at or above `2 ^ 32`
does no harm while no other block is held. -/
theorem newMemoryAlloc (h : s.Holds base S) (hsep : s.Separates e.1)
    (hapart : ∀ f ∈ S, ¬ f.1.extent.Meets e.1.extent)
    (hfits : e.1.Fits ∨ ∀ f ∈ S, ¬ f.1.Fits) :
    (e.allocOp.perform B s).ret = 0 ∧
      (e.allocOp.perform B s).shadow.Holds base (Insert.insert e S) := by
  have hs := (List.take_append_drop (SearchTree.slot MemoryAlloc.comp e.1 s.memoryMap)
    s.entries).symm
  obtain ⟨hret, hentries⟩ := newMemoryAlloc_of_splits B e.2.type hs hsep hsep
  exact ⟨hret, h.insert hs hentries hsep hapart hfits⟩

/-- **Release of a held block** that ends below `2 ^ 32`, in each of the three ways. -/
theorem release (h : s.Holds base S) (he : e ∈ S) (hbase : e ∉ base) (hfit : e.1.Fits)
    (hp : e.1.address ≠ 0) (kind : ReleaseKind) :
    ((kind.op e).perform B s).ret = 0 ∧
      ((kind.op e).perform B s).shadow.Holds base (S \ {e}) := by
  obtain ⟨X, Y, hs, hsplit⟩ := h.found e he hfit
  obtain ⟨hret, hentries⟩ := release_of_splits B hs hsplit hp kind
  refine ⟨hret, h.erase he hbase hs (fun hX => ?_) hentries⟩
  have hself := hsplit.rest e List.mem_cons_self
  exact absurd (hsplit.below e hX) (by simp [hself])

end Holds

end ShadowMemory

end MemCheck
