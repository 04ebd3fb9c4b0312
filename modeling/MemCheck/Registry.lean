import Mathlib.Data.Set.Insert
import MemCheck.ShadowRuns

/-!
# The Shadow Memory as a Set of Blocks

What the shadow memory is for: to know which blocks are in use. Abstractly that is a set
of blocks with disjoint extents, to which an allocation adds a block and from which a
release takes it away. `Records s S` says that the map `s` represents the set `S`; the
operations of the source simulate those of the set, as long as a new block finds room and
a released block is in the set.

* `Records.newMemoryAlloc`: allocation is insertion;
* `Records.release`: each of the three ways of freeing a recorded block is its removal;
* `Records.cut`: freeing a part of a block leaves the rest of it;
* `Records.newMemoryAlloc_ret`: an allocation fails exactly when it finds no room.
-/

namespace MemCheck

/-- A block that fits in the address space and meets no block of the set. -/
structure Room (S : Set Entry) (k : MemoryAlloc) : Prop where
  fits : k.address.toNat + k.size.toNat < 2 ^ 32
  free : ∀ e ∈ S, ¬ e.1.extent.Meets k.extent

/-- The three ways of releasing a block. -/
inductive ReleaseKind where
  | free
  | freeSize
  | freeAnySize
  deriving DecidableEq, Repr

/-- The call that releases a block. -/
def ReleaseKind.op (e : Entry) : ReleaseKind → Op
  | free => .freeMemory e.2.type e.1.address
  | freeSize => .freeSizeMemory e.2.type e.1.address e.1.size
  | freeAnySize => .freeAnySizeMemory e.2.type e.1.address e.1.size

/-- The call that allocates a block. -/
def Entry.allocOp (e : Entry) : Op := .newMemoryAlloc e.2.type e.1.address e.1.size

namespace ShadowMemory

/-- The map `s` represents the set of blocks `S`. -/
structure Records (s : ShadowMemory) (S : Set Entry) : Prop where
  wellFormed : s.WellFormed
  mem_iff : ∀ f, f ∈ s.entries ↔ f ∈ S

namespace Records

variable {s : ShadowMemory} {S : Set Entry} {e f : Entry}

/-- Blocks of the set that share an address are the same block. -/
theorem eq_of_meets (h : s.Records S) (he : e ∈ S) (hf : f ∈ S)
    (hm : e.1.extent.Meets f.1.extent) : e = f :=
  h.wellFormed.eq_of_meets ((h.mem_iff e).mpr he) ((h.mem_iff f).mpr hf) hm

variable (B : Balancer)

/-- **Allocation is insertion.** -/
theorem newMemoryAlloc (h : s.Records S) (hroom : Room S e.1) :
    (e.allocOp.perform B s).ret = 0 ∧
      (e.allocOp.perform B s).shadow.Records (Insert.insert e S) := by
  obtain ⟨s', hcall, hwf, hmem⟩ := h.wellFormed.newMemoryAlloc_of_free B e.2.type hroom.fits
    fun f hf => hroom.free f ((h.mem_iff f).mp hf)
  have hperform : e.allocOp.perform B s = ⟨0, s', [], []⟩ := hcall
  rw [hperform]
  refine ⟨rfl, hwf, fun f => ?_⟩
  rw [hmem f, h.mem_iff f]
  rfl

/-- An allocation succeeds exactly when it finds room. -/
theorem newMemoryAlloc_ret (h : s.Records S)
    (hfits : e.1.address.toNat + e.1.size.toNat < 2 ^ 32) :
    (e.allocOp.perform B s).ret = 0 ↔ Room S e.1 := by
  constructor
  · intro hret
    refine ⟨hfits, fun f hf hm => ?_⟩
    obtain ⟨old, -, -, hcall⟩ := h.wellFormed.newMemoryAlloc_of_meets B e.2.type hfits
      ((h.mem_iff f).mpr hf) hm
    have hperform : (e.allocOp.perform B s).ret = 1 := congrArg Call.ret hcall
    rw [hperform] at hret
    exact absurd hret (by decide)
  · intro hroom
    exact (h.newMemoryAlloc B hroom).1

/-- **Release is removal**, in each of the three ways. -/
theorem release (h : s.Records S) (he : e ∈ S) (hp : e.1.address ≠ 0)
    (kind : ReleaseKind) :
    ((kind.op e).perform B s).ret = 0 ∧
      ((kind.op e).perform B s).shadow.Records (S \ {e}) := by
  have hmem := (h.mem_iff e).mpr he
  have hspec : ((kind.op e).perform B s).ret = 0 ∧
      ((kind.op e).perform B s).Replaces s e [] := by
    cases kind with
    | free =>
        obtain ⟨hret, -, hrep⟩ := h.wellFormed.freeMemory_of_begins B e.2.type hp hmem rfl
        exact ⟨hret, hrep⟩
    | freeSize =>
        obtain ⟨hret, -, hrep⟩ := h.wellFormed.freeSizeMemory_of_eq B e.2.type hp hmem rfl
        exact ⟨hret, hrep⟩
    | freeAnySize =>
        obtain ⟨hret, -, hrep⟩ := h.wellFormed.freeAnySizeMemory_of_contains B e.2.type hp
          (n := e.1.size) hmem (contains_of_begins rfl) (fun hne => absurd rfl hne)
        rw [remnants_self] at hrep
        exact ⟨hret, hrep⟩
  obtain ⟨hret, hrep⟩ := hspec
  refine ⟨hret, hrep.wellFormed, fun f => ?_⟩
  rw [hrep.mem_iff f, h.mem_iff f]
  simp only [List.not_mem_nil, or_false, Set.mem_sdiff, Set.mem_singleton_iff, ne_eq]

/-- **Cutting a part out of a block** replaces it by what is left of it. -/
theorem cut (h : s.Records S) (hf : f ∈ S) {p n : Word32} (hp : p ≠ 0)
    (hc : f.1.extent.Contains p.toNat)
    (hend : p.toNat + n.toNat ≤ f.1.address.toNat + f.1.size.toNat) (type : ℤ) :
    ((Op.freeAnySizeMemory type p n).perform B s).ret = 0 ∧
      ((Op.freeAnySizeMemory type p n).perform B s).shadow.Records
        (S \ {f} ∪ {r | r ∈ remnants type f p n}) := by
  obtain ⟨hret, -, hrep⟩ := h.wellFormed.freeAnySizeMemory_of_contains B type hp
    ((h.mem_iff f).mpr hf) hc fun _ => hend
  refine ⟨hret, hrep.wellFormed, fun g => (hrep.mem_iff g).trans ?_⟩
  rw [h.mem_iff g]
  rfl

end Records

end ShadowMemory

end MemCheck
