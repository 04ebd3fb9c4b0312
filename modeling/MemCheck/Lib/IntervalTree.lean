import Mathlib.Data.List.Induction
import MemCheck.Lib.Extents
import MemCheck.Lib.SearchTree

/-!
# Search Trees of Disjoint Extents

A container whose keys are intervals, ordered by which ends before the other starts, holds
disjoint intervals; a query is an interval too, and finds an entry that it meets. A
comparator that computes with machine integers decides this order only for the keys whose
end it computes correctly, so the keys of a tree are required to be such keys (`Fits`).

## Main results

* `Spaced.find_eq_some`, `Spaced.find_eq_none_iff`: a lookup finds what meets the query;
* `Spaced.insert_of_free`, `Spaced.insert_of_meets`: an insertion is accepted exactly in free
  space;
* `OrdersExtents.shapeFree`: over disjoint extents every order of insertion builds a search
  tree, and what a search gives does not depend on its shape.
-/

namespace SearchTree

variable {κ ν : Type}

/-- For a key that fits, the comparator decides whether its extent lies before another. -/
def OrdersExtents (comp : κ → κ → Bool) (extent : κ → Extent) (Fits : κ → Prop) : Prop :=
  ∀ {x y : κ}, Fits x → (comp x y = true ↔ (extent x).Before (extent y))

/-- The extents of the entries follow each other, and every key fits. -/
structure Spaced (extent : κ → Extent) (Fits : κ → Prop) (t : SearchTree κ ν) : Prop where
  laid : Extent.Laid (fun e : κ × ν => extent e.1) t.toList
  fits : ∀ e ∈ t.toList, Fits e.1

theorem spaced_nil (extent : κ → Extent) (Fits : κ → Prop) :
    (nil : SearchTree κ ν).Spaced extent Fits :=
  ⟨List.Pairwise.nil, fun _ he => absurd he List.not_mem_nil⟩

namespace Spaced

variable {comp : κ → κ → Bool} {extent : κ → Extent} {Fits : κ → Prop}
  {t : SearchTree κ ν} {k : κ} {e : κ × ν}

theorem below_mono (h : t.Spaced extent Fits) (hc : OrdersExtents comp extent Fits) :
    t.toList.Pairwise fun x y => comp y.1 k = true → comp x.1 k = true := by
  refine List.Pairwise.imp_of_mem (fun {x y} hx hy hxy hyk => ?_) h.laid
  rw [hc (h.fits y hy)] at hyk
  rw [hc (h.fits x hx)]
  exact hxy.trans hyk

theorem above_mono (h : t.Spaced extent Fits) (hc : OrdersExtents comp extent Fits)
    (hk : Fits k) :
    t.toList.Pairwise fun x y => comp k x.1 = true → comp k y.1 = true := by
  refine List.Pairwise.imp (fun {x y} hxy hkx => ?_) h.laid
  rw [hc hk] at hkx ⊢
  exact hkx.trans hxy

/-- Being below or above a key is the same as not meeting it. -/
theorem comparable_iff (h : t.Spaced extent Fits) (hc : OrdersExtents comp extent Fits)
    (hk : Fits k) (he : e ∈ t.toList) :
    (comp e.1 k = true ∨ comp k e.1 = true) ↔ ¬ (extent e.1).Meets (extent k) := by
  rw [hc (h.fits e he), hc hk, Extent.not_meets_iff]

/-- An entry that is neither below nor above a key meets it. -/
theorem meets_of_not_comp (h : t.Spaced extent Fits) (hc : OrdersExtents comp extent Fits)
    (hk : Fits k) (he : e ∈ t.toList) (h1 : comp e.1 k = false) (h2 : comp k e.1 = false) :
    (extent e.1).Meets (extent k) := by
  by_contra hm
  rcases (h.comparable_iff hc hk he).mpr hm with h3 | h3
  · exact absurd (h1.symm.trans h3) Bool.false_ne_true
  · exact absurd (h2.symm.trans h3) Bool.false_ne_true

/-! ### Lookup -/

/-- A found entry is recorded and meets the query. -/
theorem find_eq_some (h : t.Spaced extent Fits) (hc : OrdersExtents comp extent Fits)
    (hk : Fits k) {pos : Iterator κ ν} (hf : t.find comp k = some pos) :
    t.toList[pos.index]? = some pos.deref ∧ (extent pos.first).Meets (extent k) := by
  obtain ⟨hget, h1, h2⟩ := SearchTree.find_eq_some comp k hf
  exact ⟨hget, h.meets_of_not_comp hc hk (List.mem_of_getElem? hget) h1 h2⟩

/-- **Lookup is exact**: it fails exactly when no entry meets the query. -/
theorem find_eq_none_iff (h : t.Spaced extent Fits) (hc : OrdersExtents comp extent Fits)
    (hk : Fits k) :
    t.find comp k = none ↔ ∀ e ∈ t.toList, ¬ (extent e.1).Meets (extent k) := by
  rw [SearchTree.find_eq_none_iff comp k (h.below_mono hc) (h.above_mono hc hk)]
  exact forall₂_congr fun e he => h.comparable_iff hc hk he

/-! ### Insertion -/

/-- **Insertion into free space** succeeds and adds exactly the new entry. -/
theorem insert_of_free (h : t.Spaced extent Fits) (hc : OrdersExtents comp extent Fits)
    (hk : Fits k) (B : Balancer κ ν) (v : ν)
    (hfree : ∀ e ∈ t.toList, ¬ (extent e.1).Meets (extent k)) :
    (t.insert B comp k v).existing = none ∧
      (t.insert B comp k v).tree.Spaced extent Fits ∧
      ∀ e, e ∈ (t.insert B comp k v).tree.toList ↔ e = (k, v) ∨ e ∈ t.toList := by
  obtain ⟨hnone, A, C, hsplit, htree, hA, hC⟩ :=
    insert_of_all_comparable comp k B v (h.above_mono hc hk)
      fun e he => (h.comparable_iff hc hk he).mpr (hfree e he)
  have hmem : ∀ e, e ∈ (t.insert B comp k v).tree.toList ↔ e = (k, v) ∨ e ∈ t.toList := by
    intro e
    rw [htree, hsplit, List.mem_append, List.mem_append, List.mem_cons]
    tauto
  refine ⟨hnone, ⟨?_, ?_⟩, hmem⟩
  · rw [htree]
    refine Extent.Laid.insert (hsplit ▸ h.laid) ?_ ?_
    · intro a ha
      exact (hc (h.fits a (hsplit ▸ List.mem_append_left C ha))).mp (hA a ha)
    · intro c hcC
      exact (hc hk).mp (hC c hcC)
  · intro e he
    rcases (hmem e).mp he with rfl | he
    · exact hk
    · exact h.fits e he

/-- The slot of a key in free space is where the sequence splits. -/
theorem splits_slot (h : t.Spaced extent Fits) (hc : OrdersExtents comp extent Fits)
    (hk : Fits k) (hfree : ∀ e ∈ t.toList, ¬ (extent e.1).Meets (extent k)) :
    Splits comp k (t.toList.take (slot comp k t)) (t.toList.drop (slot comp k t)) := by
  have habove := h.above_mono hc hk
  constructor
  · intro e he
    obtain ⟨i, hi, rfl⟩ := List.getElem_of_mem he
    rw [List.length_take] at hi
    rw [List.getElem_take]
    have hmem : t.toList[i] ∈ t.toList := List.getElem_mem _
    refine ((h.comparable_iff hc hk hmem).mpr (hfree _ hmem)).resolve_right fun hab => ?_
    have hle := (comp_getElem_iff comp k habove (by omega)).mp hab
    omega
  · intro e he
    obtain ⟨i, hi, rfl⟩ := List.getElem_of_mem he
    rw [List.length_drop] at hi
    rw [List.getElem_drop, Bool.eq_false_iff]
    intro hbelow
    have hab := (comp_getElem_iff comp k habove (by omega)).mpr (Nat.le_add_right _ i)
    exact ((hc hk).mp hab).asymm ((hc (h.fits _ (List.getElem_mem _))).mp hbelow)

/-- **Insertion over an entry** is refused, names an entry it meets, and leaves the tree
alone. -/
theorem insert_of_meets (h : t.Spaced extent Fits) (hc : OrdersExtents comp extent Fits)
    (hk : Fits k) (B : Balancer κ ν) (v : ν) (he : e ∈ t.toList)
    (hm : (extent e.1).Meets (extent k)) :
    ∃ old, (t.insert B comp k v).existing = some old ∧
      (t.insert B comp k v).tree = t ∧ old.deref ∈ t.toList ∧
      (extent old.first).Meets (extent k) := by
  have hcomp := (h.comparable_iff hc hk he).not.mpr (not_not.mpr hm)
  rw [not_or, Bool.not_eq_true, Bool.not_eq_true] at hcomp
  obtain ⟨old, hold⟩ := insert_of_not_comparable comp k B v (h.below_mono hc)
    (h.above_mono hc hk) he hcomp.1 hcomp.2
  obtain ⟨htree, hget, h1, h2⟩ := insert_eq_existing comp k B hold
  have hmem : old.deref ∈ t.toList := List.mem_of_getElem? hget
  exact ⟨old, hold, htree, hmem, h.meets_of_not_comp hc hk hmem h1 h2⟩

end Spaced

/-! ### Search trees of any shape -/

/-- A search tree: in the in-order sequence no key is below an earlier one. -/
def IsSearchTree (comp : κ → κ → Bool) (t : SearchTree κ ν) : Prop :=
  t.toList.Pairwise fun x y => comp y.1 x.1 = false

/-- The extents of the entries are pairwise disjoint. -/
def DisjointExtents (extent : κ → Extent) (L : List (κ × ν)) : Prop :=
  L.Pairwise fun x y => ¬ (extent x.1).Meets (extent y.1)

/-- The tree after the insertion of entries, in their order. -/
def insertAll (B : Balancer κ ν) (comp : κ → κ → Bool) (L : List (κ × ν)) :
    SearchTree κ ν :=
  L.foldl (fun t e => (t.insert B comp e.1 e.2).tree) nil

/-- What a search for the key `k` gives, in terms of the entries: those below, those meeting
and those above the query are three consecutive segments, a lookup finds an entry that meets
the query exactly if there is one, and an insertion is refused exactly then. -/
structure SearchExact (comp : κ → κ → Bool) (extent : κ → Extent) (t : SearchTree κ ν)
    (k : κ) : Prop where
  segments : ∃ below meeting above, t.toList = below ++ meeting ++ above ∧
    (∀ e ∈ below, (extent e.1).Before (extent k)) ∧
    (∀ e ∈ meeting, (extent e.1).Meets (extent k)) ∧
    ∀ e ∈ above, (extent k).Before (extent e.1)
  found : ∀ pos, t.find comp k = some pos →
    pos.deref ∈ t.toList ∧ (extent pos.first).Meets (extent k)
  find_iff : (t.find comp k).isSome ↔ ∃ e ∈ t.toList, (extent e.1).Meets (extent k)
  refused_iff : ∀ (B : Balancer κ ν) (v : ν), (t.insert B comp k v).second = false ↔
    ∃ e ∈ t.toList, (extent e.1).Meets (extent k)

/-- Over disjoint extents whose keys fit, every order of insertion builds a search tree, and a
search in any search tree, for any key that fits, gives what the entries determine. -/
structure ShapeFree (ν : Type) (comp : κ → κ → Bool) (extent : κ → Extent)
    (Fits : κ → Prop) : Prop where
  built : ∀ (B : Balancer κ ν) (family : List (κ × ν)), DisjointExtents extent family →
    (∀ e ∈ family, Fits e.1) → (insertAll B comp family).IsSearchTree comp ∧
      ∀ e, e ∈ (insertAll B comp family).toList ↔ e ∈ family
  searched : ∀ (t : SearchTree κ ν) (k : κ), DisjointExtents extent t.toList →
    (∀ e ∈ t.toList, Fits e.1) → t.IsSearchTree comp → Fits k → SearchExact comp extent t k

section Shape

variable {comp : κ → κ → Bool} {extent : κ → Extent} {Fits : κ → Prop}
  {t : SearchTree κ ν} {k : κ}

/-- A search tree over disjoint extents has them in order. -/
theorem IsSearchTree.spaced (h : t.IsSearchTree comp)
    (hc : OrdersExtents comp extent Fits) (hdisjoint : DisjointExtents extent t.toList)
    (hfits : ∀ e ∈ t.toList, Fits e.1) : t.Spaced extent Fits := by
  refine ⟨List.Pairwise.imp_of_mem (fun {x y} _ hy hxy => ?_) (h.and hdisjoint), hfits⟩
  rcases Extent.not_meets_iff.mp hxy.2 with hbefore | hbehind
  · exact hbefore
  · exact absurd ((hc (hfits y hy)).mpr hbehind) (Bool.eq_false_iff.mp hxy.1)

theorem Spaced.isSearchTree (h : t.Spaced extent Fits)
    (hc : OrdersExtents comp extent Fits) : t.IsSearchTree comp := by
  refine List.Pairwise.imp_of_mem (fun {x y} _ hy hxy => ?_) h.laid
  rw [Bool.eq_false_iff]
  intro hyx
  exact hxy.asymm ((hc (h.fits y hy)).mp hyx)

/-- Disjoint entries inserted one after the other are all accepted. -/
theorem spaced_insertAll (hc : OrdersExtents comp extent Fits) (B : Balancer κ ν)
    {L : List (κ × ν)} (hdisjoint : DisjointExtents extent L) (hfits : ∀ e ∈ L, Fits e.1) :
    (insertAll B comp L).Spaced extent Fits ∧
      ∀ e, e ∈ (insertAll B comp L).toList ↔ e ∈ L := by
  induction L using List.reverseRecOn with
  | nil => exact ⟨spaced_nil extent Fits, fun e => Iff.rfl⟩
  | append_singleton L x ih =>
      obtain ⟨hL, -, hx⟩ := List.pairwise_append.mp hdisjoint
      obtain ⟨hspaced, hmem⟩ := ih hL fun e he => hfits e (List.mem_append_left _ he)
      obtain ⟨-, hins, hmem'⟩ := hspaced.insert_of_free hc
        (hfits x (List.mem_append_right L List.mem_cons_self)) B x.2
        fun e he => hx e ((hmem e).mp he) x List.mem_cons_self
      rw [insertAll, List.foldl_append, List.foldl_cons, List.foldl_nil]
      refine ⟨hins, fun e => (hmem' e).trans ?_⟩
      rw [hmem e, List.mem_append, List.mem_singleton, or_comm]

/-- A search gives what the entries determine. -/
theorem Spaced.searchExact (h : t.Spaced extent Fits) (hc : OrdersExtents comp extent Fits)
    (hk : Fits k) : SearchExact comp extent t k := by
  refine ⟨h.laid.segments (extent k), fun pos hpos => ?_, ?_, fun B v => ?_⟩
  · obtain ⟨hget, hmeets⟩ := h.find_eq_some hc hk hpos
    exact ⟨List.mem_of_getElem? hget, hmeets⟩
  · rw [Option.isSome_iff_ne_none, ne_eq, h.find_eq_none_iff hc hk]
    push Not
    rfl
  · rw [Inserted.second, Option.isNone_eq_false_iff]
    constructor
    · intro hsome
      obtain ⟨old, hold⟩ := Option.isSome_iff_exists.mp hsome
      by_contra hfree
      push Not at hfree
      have hnone := (h.insert_of_free hc hk B v hfree).1
      exact absurd (hold.symm.trans hnone) (Option.some_ne_none old)
    · rintro ⟨e, he, hm⟩
      obtain ⟨old, hold, -⟩ := h.insert_of_meets hc hk B v he hm
      exact Option.isSome_iff_exists.mpr ⟨old, hold⟩

/-- **Interval search is independent of the shape** of the tree, under every comparator that
orders the extents. -/
theorem OrdersExtents.shapeFree (ν : Type) (hc : OrdersExtents comp extent Fits) :
    ShapeFree ν comp extent Fits := by
  constructor
  · intro B family hdisjoint hfits
    obtain ⟨hspaced, hmem⟩ := spaced_insertAll @hc B hdisjoint hfits
    exact ⟨hspaced.isSearchTree hc, hmem⟩
  · intro t k hdisjoint hfits htree hk
    exact (htree.spaced hc hdisjoint hfits).searchExact hc hk

end Shape

end SearchTree
