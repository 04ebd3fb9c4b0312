import MemCheck.SymbolTable

/-!
# Interval Search Is Independent of the Tree's Shape

`MemoryAlloc::operator()` and `Symbol::operator()` compare intervals by which ends before the
other starts. Two intervals that overlap are equivalent to the container, and this relation
is not transitive, so what the standard promises of `std::map` and `std::set` does not apply.
On a family of disjoint extents that end below `2 ^ 32` it need not: the comparison with a
query is monotone along the family (`SearchTree.Spaced`), and a search in any tree over it,
whatever its shape and the order in which it was built, gives what the family alone
determines.

The shadow memory and the symbol table hold such trees: `WellFormed.spaced` for every
well-formed map, and `spaced_insertSymbols` for what `Load` builds.

## Main results

* `interval_search_exact`: lookup and insertion in every search tree, for both comparators.
-/

namespace MemCheck

open SearchTree

/-- The extent of a symbol, one byte for an empty one. -/
def Symbol.extent (x : Symbol) : Extent := x.span.extent

/-- The symbol ends below the top of the address space. -/
def Symbol.Fits (x : Symbol) : Prop := x.address.toNat + x.size.toNat < 2 ^ 32

/-- **Interval search is independent of the tree's shape**, for the map of `MemoryAlloc` keys
and the set of `Symbol` keys: over every finite family of disjoint extents that end below
`2 ^ 32`, every order of insertion builds a search tree, and in every search tree and for
every query that ends below `2 ^ 32` the entries below, overlapping and above the query are
consecutive, the lookup returns an entry exactly if one overlaps the query, and then one that
does, and the insertion is refused exactly if one does. -/
theorem interval_search_exact (ν : Type) :
    ShapeFree ν MemoryAlloc.comp MemoryAlloc.extent MemoryAlloc.Fits ∧
      ShapeFree ν Symbol.comp Symbol.extent Symbol.Fits := by
  have hsymbol : OrdersExtents Symbol.comp Symbol.extent Symbol.Fits := ordersExtents_symbol
  exact ⟨OrdersExtents.shapeFree ν @ShadowMemory.ordersExtents_comp,
    OrdersExtents.shapeFree ν @hsymbol⟩

/-- A page and an empty block in front of it, in a tree that leans to the left: a query of one
byte finds the empty block. -/
theorem interval_search_exact_leaning :
    ((node (node nil (⟨0x1000, 0⟩ : MemoryAlloc) () nil) ⟨0x2000, 0x1000⟩ () nil).find
      MemoryAlloc.comp ⟨0x1000, 1⟩).isSome := by
  refine (((interval_search_exact Unit).1.searched _ _ ?_ ?_ ?_ ?_).find_iff).mpr
    ⟨(⟨0x1000, 0⟩, ()), List.mem_cons_self, by decide⟩
  · exact List.Pairwise.cons (by decide) (List.pairwise_singleton _ _)
  · decide
  · exact List.Pairwise.cons (by decide) (List.pairwise_singleton _ _)
  · decide

end MemCheck
