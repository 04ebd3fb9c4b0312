import Mathlib.Data.List.Basic
import Mathlib.Data.List.Nodup
import Mathlib.Data.List.Sort

/-!
# Search Trees under an Arbitrary Comparator

A `std::map` or `std::set` is a binary search tree whose every decision is a call of a
user-supplied comparator. The container's guarantees are stated for strict weak orders;
this module states what its descents do for *any* Boolean comparator, and which
condition on the stored sequence and the query makes them exact. The condition is not an
axiom about the comparator: it is the monotonicity of the two tests `comp x q` and
`comp q x` along the in-order sequence, for the one query at hand.

The three descents follow the reference implementation of the container:

* `lowerBound` keeps the last node that is not below the query and goes left there;
* `find` rejects the lower bound when the query is below it;
* `insert` walks down by `comp k x`, and refuses exactly when the predecessor of the
  slot it reaches is not below the new key.

Rebalancing is a parameter: a `Balancer` is any reshaping that keeps the in-order
sequence, which is all a rotation is required to do. Every result below holds for every
balancer, hence for every tree shape.

## Main results

* `lowerBound_eq`: under a monotone query the descent finds the first entry that is not
  below it.
* `find_eq_none_iff` / `find_eq_some`: `find` succeeds exactly on the entries that
  are neither below nor above the query.
* `insert_of_all_comparable` / `insert_of_not_comparable`: insertion either places the
  key between the entries below and above it, or leaves the tree alone.
* `toList_erase`: erasing an iterator removes the one entry it stands on.
* `Splits.find`, `Splits.insert`, `splits_of_every_shape`: what holds in every shape of a
  sequence at once.
-/

/-- A binary tree whose nodes carry a key and a mapped value. -/
inductive SearchTree (κ ν : Type) where
  | nil : SearchTree κ ν
  | node (left : SearchTree κ ν) (key : κ) (value : ν) (right : SearchTree κ ν) :
      SearchTree κ ν
  deriving Repr, DecidableEq

namespace SearchTree

variable {κ ν : Type}

/-- An iterator that is not `end()`: the in-order position of its node, and the pair it
dereferences to. -/
structure Iterator (κ ν : Type) where
  index : ℕ
  first : κ
  second : ν
  deriving Repr, DecidableEq

/-- The pair an iterator dereferences to. -/
def Iterator.deref (i : Iterator κ ν) : κ × ν := (i.first, i.second)

/-- The same node seen from a tree in which `n` nodes precede the subtree. -/
def Iterator.shift (n : ℕ) (i : Iterator κ ν) : Iterator κ ν :=
  { i with index := i.index + n }

/-- The in-order sequence of entries, which is what iteration over the container sees. -/
def toList : SearchTree κ ν → List (κ × ν)
  | nil => []
  | node l k v r => l.toList ++ (k, v) :: r.toList

/-- The number of nodes. -/
def size : SearchTree κ ν → ℕ
  | nil => 0
  | node l _ _ r => l.size + 1 + r.size

@[simp] theorem toList_nil : (nil : SearchTree κ ν).toList = [] := rfl

@[simp] theorem toList_node (l r : SearchTree κ ν) (k : κ) (v : ν) :
    (node l k v r).toList = l.toList ++ (k, v) :: r.toList := rfl

@[simp] theorem length_toList (t : SearchTree κ ν) : t.toList.length = t.size := by
  induction t with
  | nil => rfl
  | node l k v r ihl ihr =>
      simp only [toList_node, List.length_append, List.length_cons, size, ihl, ihr]
      omega

/-! ### The descents -/

section Descents

variable (comp : κ → κ → Bool) (q : κ)

/-- The lower-bound descent: a node that is not below the query is remembered and the
search goes left, a node below it sends the search right. -/
def lowerBound : SearchTree κ ν → Option (Iterator κ ν)
  | nil => none
  | node l k v r =>
      if comp k q then
        (lowerBound r).map (Iterator.shift (l.size + 1))
      else
        some ((lowerBound l).getD ⟨l.size, k, v⟩)

/-- `find`: the lower bound, unless the query is below it. -/
def find (t : SearchTree κ ν) : Option (Iterator κ ν) :=
  match lowerBound comp q t with
  | none => none
  | some j => if comp q j.first then none else some j

/-- The in-order predecessor of the slot that the unique-insert descent reaches: the last
node at which it went right. `none` stands for `begin()`. -/
def insertPred : SearchTree κ ν → Option (Iterator κ ν)
  | nil => none
  | node l k v r =>
      if comp q k then
        insertPred l
      else
        some (((insertPred r).map (Iterator.shift (l.size + 1))).getD ⟨l.size, k, v⟩)

/-- The tree with a fresh leaf in the slot that the unique-insert descent reaches. -/
def insertLeaf (w : ν) : SearchTree κ ν → SearchTree κ ν
  | nil => node nil q w nil
  | node l k v r =>
      if comp q k then
        node (insertLeaf w l) k v r
      else
        node l k v (insertLeaf w r)

/-- The in-order position of the slot that the unique-insert descent reaches. -/
def slot : SearchTree κ ν → ℕ
  | nil => 0
  | node l k _ r => if comp q k then slot l else l.size + 1 + slot r

end Descents

/-- Remove the least node: its pair, and the rest of the tree. -/
def popMin : SearchTree κ ν → κ → ν → SearchTree κ ν → (κ × ν) × SearchTree κ ν
  | nil, k, v, r => ((k, v), r)
  | node l k' v' r', k, v, r => ((popMin l k' v' r').1, node (popMin l k' v' r').2 k v r)

/-- The subtree left when a node with these two children is unlinked: the only child
moves up, and with two children the successor takes the node's place. -/
def join : SearchTree κ ν → SearchTree κ ν → SearchTree κ ν
  | nil, r => r
  | l, nil => l
  | l, node a k v b => node l (popMin a k v b).1.1 (popMin a k v b).1.2 (popMin a k v b).2

/-- Unlink the node at an in-order position. -/
def eraseAt : SearchTree κ ν → ℕ → SearchTree κ ν
  | nil, _ => nil
  | node l k v r, i =>
      if i < l.size then
        node (eraseAt l i) k v r
      else if i = l.size then
        join l r
      else
        node l k v (eraseAt r (i - (l.size + 1)))

/-! ### Rebalancing, insertion and erasure -/

/-- A rebalancing step: any change of shape that keeps the in-order sequence. -/
structure Balancer (κ ν : Type) where
  rebalance : SearchTree κ ν → SearchTree κ ν
  toList_rebalance : ∀ t, (rebalance t).toList = t.toList

/-- The balancer that leaves the shape alone. -/
def Balancer.id : Balancer κ ν where
  rebalance t := t
  toList_rebalance _ := rfl

/-- The outcome of a unique insertion: the container afterwards, and the entry that
prevented the insertion when there is one. -/
structure Inserted (κ ν : Type) where
  tree : SearchTree κ ν
  existing : Option (Iterator κ ν)

/-- The Boolean half of the pair that `insert` returns. -/
def Inserted.second (i : Inserted κ ν) : Bool := i.existing.isNone

/-- Unique insertion. -/
def insert (B : Balancer κ ν) (comp : κ → κ → Bool) (k : κ) (v : ν)
    (t : SearchTree κ ν) : Inserted κ ν :=
  match insertPred comp k t with
  | none => ⟨B.rebalance (insertLeaf comp k v t), none⟩
  | some j =>
      if comp j.first k then
        ⟨B.rebalance (insertLeaf comp k v t), none⟩
      else
        ⟨t, some j⟩

/-- Erasure of the node an iterator stands on. -/
def erase (B : Balancer κ ν) (t : SearchTree κ ν) (pos : Iterator κ ν) : SearchTree κ ν :=
  B.rebalance (t.eraseAt pos.index)

/-! ### In-order sequences of the structural operations -/

theorem toList_popMin (l : SearchTree κ ν) (k : κ) (v : ν) (r : SearchTree κ ν) :
    (popMin l k v r).1 :: (popMin l k v r).2.toList = l.toList ++ (k, v) :: r.toList := by
  induction l generalizing k v r with
  | nil => rfl
  | node l' k' v' r' ihl ihr =>
      rw [popMin, toList_node, ← List.cons_append, ihl, toList_node]

theorem toList_join (l r : SearchTree κ ν) : (join l r).toList = l.toList ++ r.toList := by
  cases l with
  | nil => rfl
  | node l' k' v' r' =>
      cases r with
      | nil => simp [join]
      | node a k v b =>
          rw [join, toList_node, Prod.mk.eta, toList_popMin, toList_node a b]
          intro h
          cases h

theorem toList_eraseAt (t : SearchTree κ ν) (i : ℕ) :
    (t.eraseAt i).toList = t.toList.eraseIdx i := by
  induction t generalizing i with
  | nil => simp [eraseAt]
  | node l k v r ihl ihr =>
      rw [eraseAt]
      split_ifs with hlt heq
      · rw [toList_node, toList_node, ihl, List.eraseIdx_append_of_lt_length (by simpa)]
      · rw [toList_join, toList_node, List.eraseIdx_append_of_length_le (by simp [heq]),
          length_toList, heq, Nat.sub_self, List.eraseIdx_cons_zero]
      · obtain ⟨j, rfl⟩ : ∃ j, i = l.size + 1 + j := ⟨i - (l.size + 1), by omega⟩
        rw [toList_node, toList_node, ihr, Nat.add_sub_cancel_left,
          List.eraseIdx_append_of_length_le (by simp; omega), length_toList]
        have hj : l.size + 1 + j - l.size = j + 1 := by omega
        rw [hj, List.eraseIdx_cons_succ]

@[simp] theorem toList_erase (B : Balancer κ ν) (t : SearchTree κ ν) (pos : Iterator κ ν) :
    (t.erase B pos).toList = t.toList.eraseIdx pos.index := by
  rw [erase, B.toList_rebalance, toList_eraseAt]

section Descents

variable (comp : κ → κ → Bool) (q : κ)

theorem slot_le_size (t : SearchTree κ ν) : slot comp q t ≤ t.size := by
  induction t with
  | nil => exact le_rfl
  | node l k v r ihl ihr =>
      rw [slot, size]
      split_ifs <;> omega

theorem toList_insertLeaf (w : ν) (t : SearchTree κ ν) :
    (insertLeaf comp q w t).toList =
      t.toList.take (slot comp q t) ++ (q, w) :: t.toList.drop (slot comp q t) := by
  induction t with
  | nil => rfl
  | node l k v r ihl ihr =>
      have hl : slot comp q l ≤ l.toList.length := by
        rw [length_toList]; exact slot_le_size comp q l
      rw [insertLeaf, slot]
      split_ifs with h
      · rw [toList_node, ihl, toList_node, List.take_append_of_le_length hl,
          List.drop_append_of_le_length hl, List.append_assoc, List.cons_append]
      · have hn : l.size + 1 + slot comp q r = l.toList.length + (slot comp q r + 1) := by
          rw [length_toList]; omega
        rw [toList_node, ihr, toList_node, hn, List.take_length_add_append,
          List.drop_length_add_append, List.take_succ_cons, List.drop_succ_cons,
          List.append_assoc, List.cons_append]

/-- The iterator at an in-order position of a sequence. -/
def iterAt (L : List (κ × ν)) (i : ℕ) : Option (Iterator κ ν) :=
  L[i]?.map fun e => ⟨i, e.1, e.2⟩

theorem iterAt_eq_some_iff {L : List (κ × ν)} {i : ℕ} {j : Iterator κ ν} :
    iterAt L i = some j ↔ j.index = i ∧ L[i]? = some j.deref := by
  rw [iterAt, Option.map_eq_some_iff]
  constructor
  · rintro ⟨e, he, rfl⟩
    exact ⟨rfl, he⟩
  · rintro ⟨rfl, he⟩
    exact ⟨_, he, rfl⟩

theorem iterAt_append_left {L R : List (κ × ν)} {i : ℕ} (h : i < L.length) :
    iterAt (L ++ R) i = iterAt L i := by
  rw [iterAt, iterAt, List.getElem?_append_left h]

theorem iterAt_node_mid (l r : SearchTree κ ν) (k : κ) (v : ν) :
    iterAt (node l k v r).toList l.size = some ⟨l.size, k, v⟩ := by
  rw [iterAt, toList_node, List.getElem?_append_right (by simp)]
  simp

theorem iterAt_node_right (l r : SearchTree κ ν) (k : κ) (v : ν) (i : ℕ) :
    iterAt (node l k v r).toList (l.size + 1 + i) =
      (iterAt r.toList i).map (Iterator.shift (l.size + 1)) := by
  have hi : l.size + 1 + i - l.size = i + 1 := by omega
  rw [iterAt, iterAt, toList_node, List.getElem?_append_right (by simp; omega),
    length_toList, hi, List.getElem?_cons_succ]
  cases r.toList[i]? with
  | none => rfl
  | some e => simp [Iterator.shift, Nat.add_comm]

/-- The lower-bound descent finds the first entry that is not below the query, provided
the entries below it come first. -/
theorem lowerBound_eq (t : SearchTree κ ν)
    (hb : t.toList.Pairwise fun x y => comp y.1 q = true → comp x.1 q = true) :
    lowerBound comp q t = iterAt t.toList (t.toList.findIdx fun e => !comp e.1 q) := by
  induction t with
  | nil => rfl
  | node l k v r ihl ihr =>
      rw [toList_node, List.pairwise_append, List.pairwise_cons] at hb
      obtain ⟨hl, ⟨-, hr⟩, hlr⟩ := hb
      rw [lowerBound]
      split_ifs with h
      · -- the node is below the query, hence so is its whole left subtree
        have hleft : ¬ (l.toList.findIdx fun e => !comp e.1 q) < l.toList.length := by
          rw [List.findIdx_lt_length]
          rintro ⟨x, hx, hxq⟩
          have := hlr x hx (k, v) List.mem_cons_self h
          simp [this] at hxq
        have hidx : (node l k v r).toList.findIdx (fun e => !comp e.1 q) =
            l.size + 1 + r.toList.findIdx fun e => !comp e.1 q := by
          rw [toList_node, List.findIdx_append, if_neg hleft, List.findIdx_cons]
          simp [h]
          omega
        rw [ihr hr, hidx, iterAt_node_right]
      · rw [ihl hl]
        by_cases hlt : (l.toList.findIdx fun e => !comp e.1 q) < l.toList.length
        · rw [toList_node, List.findIdx_append, if_pos hlt, iterAt_append_left hlt, iterAt,
            List.getElem?_eq_getElem hlt]
          rfl
        · have hidx : (node l k v r).toList.findIdx (fun e => !comp e.1 q) = l.size := by
            rw [toList_node, List.findIdx_append, if_neg hlt, List.findIdx_cons]
            simp [h]
          rw [hidx, iterAt_node_mid, iterAt, List.getElem?_eq_none (not_lt.mp hlt)]
          rfl

/-- Whatever the tree and the comparator, a lower bound is an entry that is not below
the query. -/
theorem lowerBound_eq_some {t : SearchTree κ ν} {j : Iterator κ ν}
    (h : lowerBound comp q t = some j) :
    t.toList[j.index]? = some j.deref ∧ comp j.first q = false := by
  induction t generalizing j with
  | nil => cases h
  | node l k v r ihl ihr =>
      rw [lowerBound] at h
      split_ifs at h with hk
      · obtain ⟨i, hi, rfl⟩ := Option.map_eq_some_iff.mp h
        obtain ⟨hget, hlt⟩ := ihr hi
        refine ⟨?_, hlt⟩
        have hat : iterAt (node l k v r).toList (l.size + 1 + i.index) =
            some (i.shift (l.size + 1)) := by
          rw [iterAt_node_right, iterAt_eq_some_iff.mpr ⟨rfl, hget⟩, Option.map_some]
        obtain ⟨hidx, hval⟩ := iterAt_eq_some_iff.mp hat
        rw [hidx]
        exact hval
      · cases hl : lowerBound comp q l with
        | none =>
            rw [hl, Option.getD_none, Option.some.injEq] at h
            subst h
            exact ⟨(iterAt_eq_some_iff.mp (iterAt_node_mid l r k v)).2, by simpa using hk⟩
        | some i =>
            rw [hl, Option.getD_some, Option.some.injEq] at h
            subst h
            obtain ⟨hget, hlt⟩ := ihl hl
            refine ⟨?_, hlt⟩
            obtain ⟨hbound, -⟩ := List.getElem?_eq_some_iff.mp hget
            rw [toList_node, List.getElem?_append_left hbound]
            exact hget

/-! ### Lookup -/

/-- What `find` returns is the lower bound, and the query is not below it. -/
theorem lowerBound_of_find {t : SearchTree κ ν} {j : Iterator κ ν}
    (h : find comp q t = some j) :
    lowerBound comp q t = some j ∧ comp q j.first = false := by
  rw [find] at h
  cases hl : lowerBound comp q t with
  | none => simp [hl] at h
  | some i =>
      simp only [hl, Option.ite_none_left_eq_some, Option.some.injEq] at h
      obtain ⟨hq, rfl⟩ := h
      exact ⟨rfl, by simpa using hq⟩

/-- Whatever the tree and the comparator, `find` returns a stored entry that is neither
below nor above the query. -/
theorem find_eq_some {t : SearchTree κ ν} {j : Iterator κ ν}
    (h : find comp q t = some j) :
    t.toList[j.index]? = some j.deref ∧ comp j.first q = false ∧
      comp q j.first = false := by
  obtain ⟨hl, hq⟩ := lowerBound_of_find comp q h
  obtain ⟨hget, hlt⟩ := lowerBound_eq_some comp q hl
  exact ⟨hget, hlt, hq⟩

/-- **Lookup is exact for a monotone query**: when the entries below the query come
first and those above it come last, `find` fails exactly if every entry is one or the
other. -/
theorem find_eq_none_iff {t : SearchTree κ ν}
    (hb : t.toList.Pairwise fun x y => comp y.1 q = true → comp x.1 q = true)
    (ha : t.toList.Pairwise fun x y => comp q x.1 = true → comp q y.1 = true) :
    find comp q t = none ↔
      ∀ e ∈ t.toList, comp e.1 q = true ∨ comp q e.1 = true := by
  rw [find, lowerBound_eq comp q t hb]
  generalize hi : (t.toList.findIdx fun e => !comp e.1 q) = i
  by_cases hlt : i < t.toList.length
  · have hget : t.toList[i]? = some t.toList[i] := List.getElem?_eq_getElem hlt
    have hnot : comp t.toList[i].1 q = false := by
      subst hi
      simpa using List.findIdx_getElem (w := hlt)
    have hbelow : ∀ j (hj : j < t.toList.length), j < i → comp t.toList[j].1 q = true := by
      intro j hj hji
      subst hi
      simpa using List.not_of_lt_findIdx hji
    rw [iterAt, hget, Option.map_some]
    constructor
    · intro h e he
      have hab : comp q t.toList[i].1 = true := by
        by_contra hc
        simp [hc] at h
      obtain ⟨j, hj, rfl⟩ := List.getElem_of_mem he
      rcases lt_trichotomy j i with hji | rfl | hij
      · exact Or.inl (hbelow j hj hji)
      · exact Or.inr hab
      · exact Or.inr (List.pairwise_iff_getElem.mp ha i j hlt hj hij hab)
    · intro h
      rcases h t.toList[i] (List.getElem_mem hlt) with h1 | h1
      · rw [hnot] at h1
        cases h1
      · simp [h1]
  · rw [iterAt, List.getElem?_eq_none (not_lt.mp hlt)]
    have hall := List.findIdx_eq_length.mp
      (le_antisymm List.findIdx_le_length (hi.symm ▸ not_lt.mp hlt))
    simp only [Option.map_none, true_iff]
    intro e he
    exact Or.inl (by simpa using hall e he)

/-! ### Insertion -/

/-- The predecessor of the slot is the entry one position before it. -/
theorem insertPred_eq (t : SearchTree κ ν) :
    insertPred comp q t =
      if slot comp q t = 0 then none else iterAt t.toList (slot comp q t - 1) := by
  induction t with
  | nil => rfl
  | node l k v r ihl ihr =>
      have hl := slot_le_size comp q l
      rw [insertPred, slot]
      split_ifs with hk h0 h1
      · rw [ihl, if_pos h0]
      · rw [ihl, if_neg h0, toList_node, iterAt_append_left]
        rw [length_toList]
        omega
      · omega
      · rw [ihr]
        by_cases hr : slot comp q r = 0
        · rw [if_pos hr, hr, Nat.add_zero, Nat.add_sub_cancel, iterAt_node_mid]
          rfl
        · have hidx : l.size + 1 + slot comp q r - 1 = l.size + 1 + (slot comp q r - 1) := by
            omega
          have hsr := slot_le_size comp q r
          have hlt : slot comp q r - 1 < r.toList.length := by
            rw [length_toList]
            omega
          rw [if_neg hr, hidx, iterAt_node_right, iterAt, List.getElem?_eq_getElem hlt]
          rfl

/-- The descent went right at the predecessor, so the predecessor is not above the key. -/
theorem insertPred_not_above {t : SearchTree κ ν} {j : Iterator κ ν}
    (h : insertPred comp q t = some j) : comp q j.first = false := by
  induction t generalizing j with
  | nil => cases h
  | node l k v r ihl ihr =>
      rw [insertPred] at h
      split_ifs at h with hk
      · exact ihl h
      · cases hr : insertPred comp q r with
        | none =>
            rw [hr, Option.map_none, Option.getD_none, Option.some.injEq] at h
            subst h
            simpa using hk
        | some i =>
            rw [hr, Option.map_some, Option.getD_some, Option.some.injEq] at h
            subst h
            exact ihr (j := i) hr

/-- When the entries above the new key come last, the slot is in front of them. -/
theorem slot_eq (t : SearchTree κ ν)
    (ha : t.toList.Pairwise fun x y => comp q x.1 = true → comp q y.1 = true) :
    slot comp q t = t.toList.findIdx fun e => comp q e.1 := by
  induction t with
  | nil => rfl
  | node l k v r ihl ihr =>
      rw [toList_node, List.pairwise_append, List.pairwise_cons] at ha
      obtain ⟨hl, ⟨-, hr⟩, hlr⟩ := ha
      rw [slot, toList_node, List.findIdx_append]
      split_ifs with hk hlt hlt
      · exact ihl hl
      · rw [ihl hl, List.findIdx_cons, hk, cond_true, Nat.zero_add]
        exact le_antisymm List.findIdx_le_length (not_lt.mp hlt)
      · -- an entry above the key in the left subtree would put the node above it too
        obtain ⟨x, hx, hxq⟩ := List.findIdx_lt_length.mp hlt
        exact absurd (hlr x hx (k, v) List.mem_cons_self hxq) hk
      · rw [ihr hr, List.findIdx_cons, length_toList]
        simp [hk]
        omega

/-- Under the same condition, the entries above the new key are those from the slot on. -/
theorem comp_getElem_iff {t : SearchTree κ ν}
    (ha : t.toList.Pairwise fun x y => comp q x.1 = true → comp q y.1 = true)
    {i : ℕ} (hi : i < t.toList.length) :
    comp q t.toList[i].1 = true ↔ slot comp q t ≤ i := by
  rw [slot_eq comp q t ha]
  constructor
  · intro h
    by_contra hc
    exact absurd h (by simpa using List.not_of_lt_findIdx (not_le.mp hc))
  · intro h
    have hlt : (t.toList.findIdx fun e => comp q e.1) < t.toList.length := by omega
    have hat := List.findIdx_getElem (w := hlt)
    rcases Nat.eq_or_lt_of_le h with heq | hgt
    · simpa only [heq] using hat
    · exact List.pairwise_iff_getElem.mp ha _ _ hlt hi hgt hat

/-- Whatever the tree and the comparator, the entry that prevents an insertion is stored
and is neither below nor above the new key, and the container is unchanged. -/
theorem insert_eq_existing (B : Balancer κ ν) {t : SearchTree κ ν} {w : ν}
    {j : Iterator κ ν} (h : (insert B comp q w t).existing = some j) :
    (insert B comp q w t).tree = t ∧ t.toList[j.index]? = some j.deref ∧
      comp j.first q = false ∧ comp q j.first = false := by
  simp only [insert] at h ⊢
  cases hp : insertPred comp q t with
  | none => simp [hp] at h
  | some i =>
      simp only [hp] at h ⊢
      split_ifs at h with hi
      simp only [Option.some.injEq] at h
      subst h
      have habove := insertPred_not_above comp q hp
      rw [insertPred_eq] at hp
      split_ifs at hp with h0
      obtain ⟨hidx, hget⟩ := iterAt_eq_some_iff.mp hp
      rw [hidx, if_neg hi]
      exact ⟨rfl, hget, by simpa using hi, habove⟩

/-- Whatever the tree and the comparator, a successful insertion puts the new entry
somewhere into the sequence. -/
theorem toList_insert (B : Balancer κ ν) {t : SearchTree κ ν} {w : ν}
    (h : (insert B comp q w t).existing = none) :
    (insert B comp q w t).tree.toList =
      t.toList.take (slot comp q t) ++ (q, w) :: t.toList.drop (slot comp q t) := by
  simp only [insert] at h ⊢
  cases hp : insertPred comp q t with
  | none => simp only [B.toList_rebalance, toList_insertLeaf]
  | some i =>
      simp only [hp] at h ⊢
      split_ifs at h with hi
      rw [if_pos hi]
      simp only [B.toList_rebalance, toList_insertLeaf]

/-- **Insertion of a comparable key**: when every entry is below or above the new key,
the insertion succeeds and separates the former from the latter. -/
theorem insert_of_all_comparable (B : Balancer κ ν) {t : SearchTree κ ν} (w : ν)
    (ha : t.toList.Pairwise fun x y => comp q x.1 = true → comp q y.1 = true)
    (hall : ∀ e ∈ t.toList, comp e.1 q = true ∨ comp q e.1 = true) :
    (insert B comp q w t).existing = none ∧
      ∃ A C, t.toList = A ++ C ∧ (insert B comp q w t).tree.toList = A ++ (q, w) :: C ∧
        (∀ e ∈ A, comp e.1 q = true) ∧ ∀ e ∈ C, comp q e.1 = true := by
  have hbelow : ∀ i (hi : i < t.toList.length), i < slot comp q t →
      comp t.toList[i].1 q = true := by
    intro i hi hlt
    refine (hall _ (List.getElem_mem hi)).resolve_right fun h => ?_
    have := (comp_getElem_iff comp q ha hi).mp h
    omega
  have hex : (insert B comp q w t).existing = none := by
    simp only [insert]
    cases hp : insertPred comp q t with
    | none => rfl
    | some j =>
        rw [insertPred_eq] at hp
        split_ifs at hp with h0
        obtain ⟨-, hget⟩ := iterAt_eq_some_iff.mp hp
        obtain ⟨hlt, hval⟩ := List.getElem?_eq_some_iff.mp hget
        have hj : comp j.first q = true := by
          have := hbelow _ hlt (by omega)
          rwa [hval] at this
        simp [hj]
  refine ⟨hex, t.toList.take (slot comp q t), t.toList.drop (slot comp q t),
    (List.take_append_drop _ _).symm, toList_insert comp q B hex, ?_, ?_⟩
  · intro e he
    obtain ⟨i, hi, rfl⟩ := List.getElem_of_mem he
    rw [List.length_take] at hi
    rw [List.getElem_take]
    exact hbelow i (by omega) (by omega)
  · intro e he
    obtain ⟨i, hi, rfl⟩ := List.getElem_of_mem he
    rw [List.getElem_drop, comp_getElem_iff comp q ha]
    exact Nat.le_add_right _ _

/-- **Insertion of a key that meets an entry**: when some entry is neither below nor
above the new key, the insertion is refused. -/
theorem insert_of_not_comparable (B : Balancer κ ν) {t : SearchTree κ ν} (w : ν)
    (hb : t.toList.Pairwise fun x y => comp y.1 q = true → comp x.1 q = true)
    (ha : t.toList.Pairwise fun x y => comp q x.1 = true → comp q y.1 = true)
    {e : κ × ν} (he : e ∈ t.toList) (he1 : comp e.1 q = false) (he2 : comp q e.1 = false) :
    ∃ j, (insert B comp q w t).existing = some j := by
  obtain ⟨i, hi, rfl⟩ := List.getElem_of_mem he
  have hlt : i < slot comp q t := by
    by_contra hc
    rw [(comp_getElem_iff comp q ha hi).mpr (not_lt.mp hc)] at he2
    cases he2
  have hsz := slot_le_size comp q t
  rw [← length_toList] at hsz
  have hplt : slot comp q t - 1 < t.toList.length := by omega
  have hpred : insertPred comp q t = some ⟨slot comp q t - 1,
      t.toList[slot comp q t - 1].1, t.toList[slot comp q t - 1].2⟩ := by
    rw [insertPred_eq, if_neg (by omega), iterAt, List.getElem?_eq_getElem hplt,
      Option.map_some]
  have hnot : comp t.toList[slot comp q t - 1].1 q = false := by
    by_contra hc
    rw [Bool.not_eq_false] at hc
    rcases Nat.eq_or_lt_of_le (show i ≤ slot comp q t - 1 by omega) with heq | hgt
    · simp only [← heq] at hc
      rw [hc] at he1
      cases he1
    · have := List.pairwise_iff_getElem.mp hb _ _ hi hplt hgt hc
      rw [this] at he1
      cases he1
  refine ⟨⟨slot comp q t - 1, t.toList[slot comp q t - 1].1,
    t.toList[slot comp q t - 1].2⟩, ?_⟩
  simp only [insert, hpred, hnot]
  rfl

/-! ### Every shape of a sequence -/

/-- The entries of `X` are below the query and those of `Y` are not. -/
structure Splits (X Y : List (κ × ν)) : Prop where
  below : ∀ x ∈ X, comp x.1 q = true
  rest : ∀ y ∈ Y, comp y.1 q = false

section Splits

variable {comp q} {X Y X' Y' : List (κ × ν)} {x : κ × ν} {t : SearchTree κ ν}

theorem Splits.takeWhile (h : Splits comp q X Y) :
    (X ++ Y).takeWhile (fun x => comp x.1 q) = X := by
  have hY : Y.takeWhile (fun x => comp x.1 q) = [] := by
    cases Y with
    | nil => rfl
    | cons y Y => exact List.takeWhile_cons_of_neg (by simp [h.rest y List.mem_cons_self])
  rw [List.takeWhile_append_of_pos h.below, hY, List.append_nil]

/-- A sequence splits in one way only. -/
theorem Splits.eq (h : Splits comp q X Y) (h' : Splits comp q X' Y')
    (heq : X ++ Y = X' ++ Y') : X = X' ∧ Y = Y' := by
  have hX : X = X' := by rw [← h.takeWhile, heq, h'.takeWhile]
  subst hX
  exact ⟨rfl, List.append_cancel_left heq⟩

/-- Where the sequence splits, the lower bound stands, in whatever shape. -/
theorem Splits.lowerBound (h : Splits comp q X Y) (ht : t.toList = X ++ Y) :
    lowerBound comp q t = iterAt t.toList X.length := by
  have hmono : t.toList.Pairwise fun x y => comp y.1 q = true → comp x.1 q = true := by
    rw [ht, List.pairwise_append]
    refine ⟨?_, ?_, fun x hx y _ _ => h.below x hx⟩
    · exact List.pairwise_of_forall_mem_list fun x hx y _ _ => h.below x hx
    · refine List.pairwise_of_forall_mem_list fun x _ y hy hc => ?_
      rw [h.rest y hy] at hc
      cases hc
  have hidx : t.toList.findIdx (fun e => !comp e.1 q) = X.length := by
    have hX : ¬ X.findIdx (fun e => !comp e.1 q) < X.length := by
      rw [List.findIdx_lt_length]
      rintro ⟨x, hx, hxq⟩
      simp [h.below x hx] at hxq
    have hY : Y.findIdx (fun e => !comp e.1 q) = 0 := by
      cases Y with
      | nil => rfl
      | cons y Y => simp [List.findIdx_cons, h.rest y List.mem_cons_self]
    rw [ht, List.findIdx_append, if_neg hX, hY, Nat.zero_add]
  rw [lowerBound_eq comp q t hmono, hidx]

/-- **Lookup in every shape**: the first entry that is not below the query is found, unless
the query is below it. -/
theorem Splits.find (h : Splits comp q X (x :: Y)) (ht : t.toList = X ++ x :: Y)
    (hx : comp q x.1 = false) : find comp q t = some ⟨X.length, x.1, x.2⟩ := by
  have hat : iterAt t.toList X.length = some ⟨X.length, x.1, x.2⟩ := by
    rw [iterAt, ht, List.getElem?_append_right le_rfl, Nat.sub_self]
    rfl
  simp only [SearchTree.find, h.lowerBound ht, hat, hx]
  rfl

/-- **Insertion at the split**: when the slot is where the sequence splits, the key is
accepted and stands there. -/
theorem Splits.insert (h : Splits comp q X Y) (ht : t.toList = X ++ Y)
    (hslot : Splits comp q (t.toList.take (slot comp q t)) (t.toList.drop (slot comp q t)))
    (B : Balancer κ ν) (w : ν) :
    (insert B comp q w t).existing = none ∧
      (insert B comp q w t).tree.toList = X ++ (q, w) :: Y := by
  have hex : (SearchTree.insert B comp q w t).existing = none := by
    simp only [SearchTree.insert]
    cases hp : insertPred comp q t with
    | none => rfl
    | some j =>
        rw [insertPred_eq] at hp
        split_ifs at hp with h0
        obtain ⟨-, hget⟩ := iterAt_eq_some_iff.mp hp
        have hmem : j.deref ∈ t.toList.take (slot comp q t) := by
          refine List.mem_of_getElem? (i := slot comp q t - 1) ?_
          rw [List.getElem?_take_of_lt (by omega)]
          exact hget
        have hbelow : comp j.first q = true := hslot.below _ hmem
        simp [hbelow]
  refine ⟨hex, ?_⟩
  obtain ⟨hX, hY⟩ := hslot.eq h ((List.take_append_drop _ _).trans ht)
  rw [toList_insert comp q B hex, hX, hY]

end Splits

/-- The tree in which every node is the right child of the one before it. -/
def ofList : List (κ × ν) → SearchTree κ ν
  | [] => nil
  | x :: L => node nil x.1 x.2 (ofList L)

@[simp] theorem toList_ofList (L : List (κ × ν)) : (ofList L).toList = L := by
  induction L with
  | nil => rfl
  | cons x L ih => rw [ofList, toList_node, ih, toList_nil, List.nil_append]

/-- The balancer that gives the shape of `t` to every tree with the sequence of `t`. -/
def Balancer.shape [DecidableEq κ] [DecidableEq ν] (t : SearchTree κ ν) : Balancer κ ν where
  rebalance t' := if t'.toList = t.toList then t else t'
  toList_rebalance t' := by
    split_ifs with h
    · exact h.symm
    · rfl

/-- An accepted insertion can leave the tree in any shape of its sequence. -/
theorem insert_shape [DecidableEq κ] [DecidableEq ν] {t t' : SearchTree κ ν} {w : ν}
    (h : (insert (.shape t') comp q w t).existing = none)
    (ht : t'.toList =
      t.toList.take (slot comp q t) ++ (q, w) :: t.toList.drop (slot comp q t)) :
    (insert (.shape t') comp q w t).tree = t' := by
  have hleaf : (insertLeaf comp q w t).toList = t'.toList :=
    (toList_insertLeaf comp q w t).trans ht.symm
  have hshape : (Balancer.shape t').rebalance (insertLeaf comp q w t) = t' := if_pos hleaf
  simp only [insert] at h ⊢
  cases hp : insertPred comp q t with
  | none => exact hshape
  | some i =>
      simp only [hp] at h ⊢
      split_ifs at h with hi
      rw [if_pos hi]
      exact hshape

/-- A node below the query sends the lower bound behind it, any other one to itself or in
front of it. -/
theorem lowerBound_node_index {l r : SearchTree κ ν} {k : κ} {v : ν} {j : Iterator κ ν}
    (h : lowerBound comp q (node l k v r) = some j) :
    comp k q = true ↔ l.size < j.index := by
  rw [lowerBound] at h
  split_ifs at h with hk
  · obtain ⟨i, -, rfl⟩ := Option.map_eq_some_iff.mp h
    refine ⟨fun _ => ?_, fun _ => hk⟩
    simp only [Iterator.shift]
    omega
  · refine ⟨fun hc => absurd hc hk, fun hlt => ?_⟩
    cases hl : lowerBound comp q l with
    | none =>
        rw [hl, Option.getD_none, Option.some.injEq] at h
        subst h
        exact absurd hlt (Nat.lt_irrefl _)
    | some i =>
        rw [hl, Option.getD_some, Option.some.injEq] at h
        subst h
        obtain ⟨hbound, -⟩ := List.getElem?_eq_some_iff.mp (lowerBound_eq_some comp q hl).1
        rw [length_toList] at hbound
        omega

/-- **The split is necessary**: when in every shape of a sequence the lower bound is the
same entry, the sequence splits in front of it. -/
theorem splits_of_every_shape {X Y : List (κ × ν)} {x : κ × ν}
    (h : ∀ t : SearchTree κ ν, t.toList = X ++ x :: Y →
      ∃ j, lowerBound comp q t = some j ∧ j.index = X.length) :
    Splits comp q X (x :: Y) := by
  -- the tree with the entry in question at its root
  have hroot : ∀ L y R, X ++ x :: Y = L ++ y :: R →
      (comp y.1 q = true ↔ L.length < X.length) := by
    intro L y R heq
    obtain ⟨j, hj, hidx⟩ := h (node (ofList L) y.1 y.2 (ofList R)) (by simp [heq])
    rw [lowerBound_node_index comp q hj, hidx, ← length_toList, toList_ofList]
  constructor
  · intro y hy
    obtain ⟨L, R, rfl⟩ := List.append_of_mem hy
    refine (hroot L y (R ++ x :: Y) (by simp)).mpr ?_
    rw [List.length_append, List.length_cons]
    omega
  · intro y hy
    obtain ⟨L, R, hLR⟩ := List.append_of_mem hy
    rw [← Bool.not_eq_true, hroot (X ++ L) y R (by rw [hLR, List.append_assoc]),
      List.length_append]
    omega

end Descents

end SearchTree
