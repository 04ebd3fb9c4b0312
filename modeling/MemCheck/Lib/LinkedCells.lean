import Mathlib.Data.List.Nodup
import Mathlib.Data.List.Perm.Subperm
import Mathlib.Data.Nat.Notation
import Mathlib.Data.Set.Defs
import Mathlib.Logic.Function.Iterate

/-!
# Intrusive Linked Lists

An intrusive list has no nodes of its own: its pointers lie in cells of the records that are
linked. A cell holds a pointer or null, and a pointer leads to the cell behind it. Code walks
such a list with a pointer to a cell, so that what it finds can be taken out in place.

A path lists the pointers met from a cell on, and what the last cell holds: null, or for a
circular list the pointer back to where it began. The operations on cells are stated as what
they do to paths, with the cells that are not on the path left alone.

## Main results

* `Path.find_eq`: a walk finds the first pointer that is looked for;
* `Path.unlink`: writing what lies behind a pointer over it takes it out of the list;
* `Path.push`: a pointer put in front;
* `Path.rotate`: a circular list may be walked from any of its cells;
* `Lists.find_remove`, `Lists.find_around`, `Lists.push`: the same for a family of lists;
* `iterate_eraseP_eq_filter`: taking out the first pointer again and again.
-/

namespace LinkedCells

variable {C P : Type}

/-- From the cell `c` on, the pointers `xs` are met; the last cell holds `e`. -/
def Path (read : C → Option P) (cell : P → C) : C → List P → Option P → Prop
  | c, [], e => read c = e
  | c, x :: xs, e => read c = some x ∧ Path read cell (cell x) xs e

/-- The same from a pointer that has been read. -/
def Leads (read : C → Option P) (cell : P → C) : Option P → List P → Option P → Prop
  | p, [], e => p = e
  | p, x :: xs, e => p = some x ∧ Leads read cell (read (cell x)) xs e

/-- The cell a path ends in. -/
def lastCell (cell : P → C) : C → List P → C
  | c, [] => c
  | _, x :: xs => lastCell cell (cell x) xs

/-- The cells of a path. -/
def cells (cell : P → C) (c : C) (xs : List P) : List C := c :: xs.map cell

/-- Walk from `c` up to the first pointer that `p` holds of; the cell it lies in and the
pointer. There is none if the walk meets null, or takes too long. -/
def find (read : C → Option P) (cell : P → C) (p : P → Bool) : ℕ → C → Option (C × P)
  | 0, _ => none
  | k + 1, c => (read c).bind fun x => if p x then some (c, x) else find read cell p k (cell x)

section Paths

variable {read read' : C → Option P} {cell : P → C} {c : C} {x y : P} {xs ys zs : List P}
  {e e' : Option P}

theorem mem_cells : c ∈ cells cell c xs := List.mem_cons_self

theorem lastCell_mem_cells : lastCell cell c xs ∈ cells cell c xs := by
  induction xs generalizing c with
  | nil => exact List.mem_singleton_self c
  | cons x xs ih => exact List.mem_cons_of_mem _ ih

theorem lastCell_append : lastCell cell c (xs ++ y :: ys) = lastCell cell (cell y) ys := by
  induction xs generalizing c with
  | nil => rfl
  | cons x xs ih => exact ih

theorem cells_append :
    cells cell c (xs ++ y :: ys) = cells cell c xs ++ cells cell (cell y) ys := by
  rw [cells, cells, cells, List.map_append, List.map_cons, List.cons_append]

theorem lastCell_mem_cells_append :
    lastCell cell c xs ∈ cells cell c (xs ++ y :: ys) := by
  rw [cells_append]
  exact List.mem_append_left _ lastCell_mem_cells

/-- A path goes through a pointer. -/
theorem path_append :
    Path read cell c (xs ++ y :: ys) e ↔
      Path read cell c xs (some y) ∧ Path read cell (cell y) ys e := by
  induction xs generalizing c with
  | nil => exact Iff.rfl
  | cons x xs ih => rw [List.cons_append, Path, Path, ih, and_assoc]

theorem path_iff_leads : Path read cell c xs e ↔ Leads read cell (read c) xs e := by
  induction xs generalizing c with
  | nil => exact Iff.rfl
  | cons x xs ih => rw [Path, Leads, ih]

/-- Where a pointer leads depends on the cells behind it only. -/
theorem Leads.congr {p : Option P} (h : Leads read cell p xs e)
    (heq : ∀ x ∈ xs, read' (cell x) = read (cell x)) : Leads read' cell p xs e := by
  induction xs generalizing p with
  | nil => exact h
  | cons x xs ih =>
      obtain ⟨hx, hxs⟩ := List.forall_mem_cons.mp heq
      refine ⟨h.1, ?_⟩
      rw [hx]
      exact ih h.2 hxs

/-- What lies behind a pointer comes later in the list. -/
theorem Leads.mem_tail {p : Option P} (h : Leads read cell p xs none) (hx : x ∈ xs)
    (hy : read (cell x) = some y) : y ∈ xs.tail := by
  induction xs generalizing p with
  | nil => exact absurd hx List.not_mem_nil
  | cons z zs ih =>
      rcases List.mem_cons.mp hx with rfl | hx
      · cases zs with
        | nil => cases hy.symm.trans h.2
        | cons w ws =>
            obtain rfl := Option.some.inj (hy.symm.trans h.2.1)
            exact List.mem_cons_self
      · exact List.mem_of_mem_tail (ih h.2 hx)

/-- The cells of a circular list hold pointers. -/
theorem Path.read_ne_none (h : Path read cell c xs (some y)) {d : C}
    (hd : d ∈ cells cell c xs) : read d ≠ none := by
  induction xs generalizing c with
  | nil =>
      obtain rfl := List.mem_singleton.mp hd
      exact Option.ne_none_iff_exists'.mpr ⟨y, h⟩
  | cons x xs ih =>
      rcases List.mem_cons.mp hd with rfl | hd
      · exact Option.ne_none_iff_exists'.mpr ⟨x, h.1⟩
      · exact ih h.2 hd

/-- What the last cell holds. -/
theorem Path.read_lastCell (h : Path read cell c xs e) : read (lastCell cell c xs) = e := by
  induction xs generalizing c with
  | nil => exact h
  | cons x xs ih => exact ih h.2

/-- A path depends on its own cells only. -/
theorem Path.congr (h : Path read cell c xs e) (heq : ∀ d ∈ cells cell c xs, read' d = read d) :
    Path read' cell c xs e := by
  induction xs generalizing c with
  | nil => exact (heq c mem_cells).trans h
  | cons x xs ih =>
      refine ⟨(heq c mem_cells).trans h.1, ih h.2 fun d hd => heq d ?_⟩
      exact List.mem_cons_of_mem _ hd

/-- **A walk finds** the first pointer that is looked for. -/
theorem Path.find_eq {p : P → Bool} (h : Path read cell c xs (some y))
    (hxs : ∀ x ∈ xs, p x = false) (hy : p y = true) {k : ℕ} (hk : xs.length < k) :
    find read cell p k c = some (lastCell cell c xs, y) := by
  induction xs generalizing c k with
  | nil =>
      obtain ⟨k, rfl⟩ := Nat.exists_eq_add_of_lt hk
      have hread : read c = some y := h
      simp only [find, hread, Option.bind_some, hy, if_true, lastCell]
  | cons x xs ih =>
      obtain ⟨k, rfl⟩ : ∃ j, k = j + 1 := ⟨k - 1, by omega⟩
      have hx : p x = false := hxs x List.mem_cons_self
      have hrest := ih h.2 (fun z hz => hxs z (List.mem_cons_of_mem _ hz))
        (Nat.lt_of_succ_lt_succ hk)
      simp only [find, h.1, Option.bind_some, hx, Bool.false_eq_true, if_false, hrest, lastCell]

/-- A walk that meets nothing it looks for. -/
theorem Path.find_eq_none {p : P → Bool} (h : Path read cell c xs none)
    (hxs : ∀ x ∈ xs, p x = false) (k : ℕ) : find read cell p k c = none := by
  induction k generalizing c xs with
  | zero => rfl
  | succ k ih =>
      cases xs with
      | nil =>
          have hread : read c = none := h
          simp only [find, hread, Option.bind_none]
      | cons x xs =>
          have hx : p x = false := hxs x List.mem_cons_self
          have hrest := ih h.2 fun z hz => hxs z (List.mem_cons_of_mem _ hz)
          simp only [find, h.1, Option.bind_some, hx, Bool.false_eq_true, if_false, hrest]

section Writes

variable [DecidableEq C]

/-- Writing a cell that is not on the path. -/
theorem Path.update_of_notMem (h : Path read cell c xs e) {d : C} {v : Option P}
    (hd : d ∉ cells cell c xs) : Path (Function.update read d v) cell c xs e :=
  h.congr fun _ hd' => Function.update_of_ne (ne_of_mem_of_not_mem hd' hd) _ _

/-- Writing the last cell. -/
theorem Path.update_lastCell (h : Path read cell c xs e) (hnd : (cells cell c xs).Nodup) :
    Path (Function.update read (lastCell cell c xs) e') cell c xs e' := by
  induction xs generalizing c with
  | nil => exact Function.update_self _ _ _
  | cons x xs ih =>
      obtain ⟨hc, hnd⟩ := List.nodup_cons.mp hnd
      have hne : c ≠ lastCell cell (cell x) xs := fun heq =>
        hc (heq ▸ lastCell_mem_cells)
      exact ⟨(Function.update_of_ne hne _ _).trans h.1, ih h.2 hnd⟩

/-- **Taking a pointer out:** what lies behind it is written over it. -/
theorem Path.unlink (h : Path read cell c (xs ++ y :: ys) e)
    (hnd : (cells cell c (xs ++ y :: ys)).Nodup) :
    Path (Function.update read (lastCell cell c xs) (read (cell y))) cell c (xs ++ ys) e := by
  obtain ⟨hxs, hys⟩ := path_append.mp h
  rw [cells_append] at hnd
  obtain ⟨hnd₁, hnd₂, hdisj⟩ := List.nodup_append.mp hnd
  cases ys with
  | nil =>
      have hread : read (cell y) = e := hys
      rw [List.append_nil, hread]
      exact hxs.update_lastCell hnd₁
  | cons z zs =>
      rw [hys.1]
      refine path_append.mpr ⟨hxs.update_lastCell hnd₁, hys.2.update_of_notMem fun hmem => ?_⟩
      exact hdisj _ lastCell_mem_cells _ (List.mem_cons_of_mem _ hmem) rfl

/-- **A pointer put in front.** -/
theorem Path.push (h : Path read cell c xs e) (hnd : (cells cell c xs).Nodup)
    (hx : cell x ∉ cells cell c xs) :
    Path (Function.update (Function.update read (cell x) (read c)) c (some x)) cell c
      (x :: xs) e := by
  obtain ⟨hc, -⟩ := List.nodup_cons.mp hnd
  have hne : cell x ≠ c := fun heq => hx (heq ▸ mem_cells)
  refine ⟨Function.update_self _ _ _, ?_⟩
  cases xs with
  | nil =>
      have hread : read c = e := h
      rw [Path, Function.update_of_ne hne, Function.update_self, hread]
  | cons y ys =>
      refine ⟨?_, ?_⟩
      · rw [Function.update_of_ne hne, Function.update_self, h.1]
      · refine Path.update_of_notMem (h.2.update_of_notMem fun hmem => ?_) hc
        exact hx (List.mem_cons_of_mem _ hmem)

end Writes

/-- **A circular list** may be walked from any of its cells. -/
theorem Path.rotate {o : P} (h : Path read cell (cell o) (xs ++ y :: ys) (some o)) :
    Path read cell (cell y) (ys ++ o :: xs) (some y) := by
  obtain ⟨hxs, hys⟩ := path_append.mp h
  exact path_append.mpr ⟨hys, hxs⟩

end Paths

/-! ### Families of lists -/

section Lists

variable {I : Type}

/-- Lists that share their cells, such as the chains of a hash table. The list `i` begins in
the cell `head i` and ends with `ending i`; no pointer is in two lists, or twice in one. -/
structure Lists (read : C → Option P) (cell : P → C) (head : I → C) (ending : I → Option P)
    (dom : Set I) (lists : I → List P) : Prop where
  path : ∀ i ∈ dom, Path read cell (head i) (lists i) (ending i)
  nodup : ∀ i, (lists i).Nodup
  unique : ∀ i j x, x ∈ lists i → x ∈ lists j → i = j
  mem_dom : ∀ i x, x ∈ lists i → i ∈ dom
  apart : ∀ i j x, x ∈ lists i → cell x ≠ head j

namespace Lists

variable {read read' : C → Option P} {cell : P → C} {head : I → C} {ending : I → Option P}
  {dom : Set I} {lists : I → List P} {i j : I} {x y : P} {c : C}

/-- Empty lists. -/
theorem nil (h : ∀ i ∈ dom, read (head i) = ending i) :
    Lists read cell head ending dom fun _ => [] :=
  ⟨h, fun _ => List.nodup_nil, fun _ _ _ hx => absurd hx List.not_mem_nil,
    fun _ _ hx => absurd hx List.not_mem_nil, fun _ _ _ hx => absurd hx List.not_mem_nil⟩

/-- The cells of a list are distinct. -/
theorem nodup_cells (h : Lists read cell head ending dom lists)
    (hcell : Function.Injective cell) (i : I) : (cells cell (head i) (lists i)).Nodup := by
  refine List.nodup_cons.mpr ⟨fun hmem => ?_, List.Nodup.map hcell (h.nodup i)⟩
  obtain ⟨x, hx, heq⟩ := List.mem_map.mp hmem
  exact h.apart i i x hx heq

/-- The cells of two lists are distinct. -/
theorem disjoint_cells (h : Lists read cell head ending dom lists)
    (hcell : Function.Injective cell) (hhead : Function.Injective head) (hij : i ≠ j)
    (hc : c ∈ cells cell (head i) (lists i)) : c ∉ cells cell (head j) (lists j) := by
  intro hc'
  rcases List.mem_cons.mp hc with rfl | hc
  · rcases List.mem_cons.mp hc' with heq | hc'
    · exact hij (hhead heq)
    · obtain ⟨x, hx, heq⟩ := List.mem_map.mp hc'
      exact h.apart j i x hx heq
  · obtain ⟨x, hx, rfl⟩ := List.mem_map.mp hc
    rcases List.mem_cons.mp hc' with heq | hc'
    · exact h.apart i j x hx heq
    · obtain ⟨y, hy, heq⟩ := List.mem_map.mp hc'
      exact hij (h.unique i j x hx (hcell heq ▸ hy))

/-- Writing cells that belong to no list. -/
theorem congr (h : Lists read cell head ending dom lists)
    (heq : ∀ i ∈ dom, ∀ c ∈ cells cell (head i) (lists i), read' c = read c) :
    Lists read' cell head ending dom lists :=
  ⟨fun i hi => (h.path i hi).congr (heq i hi), h.nodup, h.unique, h.mem_dom, h.apart⟩

/-- Writing a cell that belongs to no list. -/
theorem update_of_notMem [DecidableEq C] (h : Lists read cell head ending dom lists)
    (hc : ∀ i ∈ dom, c ∉ cells cell (head i) (lists i)) (v : Option P) :
    Lists (Function.update read c v) cell head ending dom lists :=
  h.congr fun i hi _ hd => Function.update_of_ne (ne_of_mem_of_not_mem hd (hc i hi)) _ _

variable [DecidableEq I]

/-- One list is replaced by another, with the cells of the others left alone. -/
theorem replace (h : Lists read cell head ending dom lists) {xs : List P} (hi : i ∈ dom)
    (hpath : Path read' cell (head i) xs (ending i)) (hnd : xs.Nodup)
    (hnew : ∀ x ∈ xs, x ∈ lists i ∨ (∀ j, x ∉ lists j) ∧ ∀ j, cell x ≠ head j)
    (hother : ∀ j ∈ dom, j ≠ i → ∀ c ∈ cells cell (head j) (lists j), read' c = read c) :
    Lists read' cell head ending dom (Function.update lists i xs) := by
  have hmem : ∀ j x, x ∈ Function.update lists i xs j →
      (j = i ∧ x ∈ xs) ∨ (j ≠ i ∧ x ∈ lists j) := by
    intro j x hx
    by_cases hj : j = i
    · subst hj
      rw [Function.update_self] at hx
      exact .inl ⟨rfl, hx⟩
    · rw [Function.update_of_ne hj] at hx
      exact .inr ⟨hj, hx⟩
  -- a pointer of the new list is in no other one
  have hcross : ∀ j x, x ∈ xs → j ≠ i → x ∉ lists j := by
    intro j x hx hj hxj
    rcases hnew x hx with hx | hx
    · exact hj (h.unique j i x hxj hx)
    · exact hx.1 j hxj
  refine ⟨fun j hj => ?_, fun j => ?_, fun j k x hx hx' => ?_, fun j x hx => ?_,
    fun j k x hx => ?_⟩
  · by_cases hji : j = i
    · subst hji
      rw [Function.update_self]
      exact hpath
    · rw [Function.update_of_ne hji]
      exact (h.path j hj).congr (hother j hj hji)
  · by_cases hji : j = i
    · subst hji
      rw [Function.update_self]
      exact hnd
    · rw [Function.update_of_ne hji]
      exact h.nodup j
  · rcases hmem j x hx with ⟨hj, hxs⟩ | ⟨hj, hxj⟩
    · rcases hmem k x hx' with ⟨hk, -⟩ | ⟨hk, hxk⟩
      · exact hj.trans hk.symm
      · exact absurd hxk (hcross k x hxs hk)
    · rcases hmem k x hx' with ⟨-, hxs⟩ | ⟨-, hxk⟩
      · exact absurd hxj (hcross j x hxs hj)
      · exact h.unique j k x hxj hxk
  · rcases hmem j x hx with ⟨rfl, -⟩ | ⟨-, hx⟩
    · exact hi
    · exact h.mem_dom j x hx
  · rcases hmem j x hx with ⟨-, hxs⟩ | ⟨-, hxj⟩
    · rcases hnew x hxs with hxi | hxnew
      · exact h.apart i k x hxi
      · exact hxnew.2 k
    · exact h.apart j k x hxj

variable [DecidableEq C]

section Removing

variable {xs ys : List P}

/-- Writing what lies behind a pointer over it takes it out of its list. -/
theorem unlink (h : Lists read cell head ending dom lists) (hcell : Function.Injective cell)
    (hhead : Function.Injective head) (hi : i ∈ dom) (heq : lists i = xs ++ y :: ys) :
    Lists (Function.update read (lastCell cell (head i) xs) (read (cell y))) cell head ending
      dom (Function.update lists i (xs ++ ys)) := by
  have hnd := h.nodup_cells hcell i
  have hpath := h.path i hi
  rw [heq] at hnd hpath
  have hsub : (xs ++ ys).Sublist (lists i) := by
    rw [heq]
    exact (List.Sublist.refl xs).append (List.sublist_cons_self y ys)
  refine h.replace hi (hpath.unlink hnd) ((h.nodup i).sublist hsub)
    (fun x hx => .inl (hsub.subset hx)) fun j hj hji c hc => ?_
  have hlast : lastCell cell (head i) xs ∈ cells cell (head i) (lists i) := by
    rw [heq]
    exact lastCell_mem_cells_append
  have hne : c ≠ lastCell cell (head i) xs := fun heq =>
    h.disjoint_cells hcell hhead hji hc (heq ▸ hlast)
  exact Function.update_of_ne hne _ _

/-- **A walk from the head** finds the first pointer looked for, and it can be taken out. -/
theorem find_remove (h : Lists read cell head ending dom lists)
    (hcell : Function.Injective cell) (hhead : Function.Injective head) (hi : i ∈ dom)
    {p : P → Bool} (hx : x ∈ lists i) (hp : p x = true) {k : ℕ} (hk : (lists i).length < k) :
    ∃ c y, find read cell p k (head i) = some (c, y) ∧ p y = true ∧
      c ∈ cells cell (head i) (lists i) ∧ read c = some y ∧
      Lists (Function.update read c (read (cell y))) cell head ending dom
        (Function.update lists i ((lists i).eraseP p)) := by
  obtain ⟨y, xs, ys, hxs, hy, heq, herase⟩ := List.exists_of_eraseP hx hp
  have hpath := h.path i hi
  rw [heq] at hpath
  have hlen : xs.length < k := by
    rw [heq, List.length_append] at hk
    omega
  have hnot : ∀ x ∈ xs, p x = false := fun x hx => eq_false_of_ne_true (hxs x hx)
  refine ⟨_, y, (path_append.mp hpath).1.find_eq hnot hy hlen, hy, ?_,
    (path_append.mp hpath).1.read_lastCell, ?_⟩
  · rw [heq]
    exact lastCell_mem_cells_append
  · rw [herase]
    exact h.unlink hcell hhead hi heq

/-- **A walk around a circular list** from a pointer of it finds that pointer, and it can be
taken out. -/
theorem find_around [DecidableEq P] (h : Lists read cell head ending dom lists)
    (hcell : Function.Injective cell) (hhead : Function.Injective head) (hi : i ∈ dom) {o : P}
    (ho : ending i = some o) (hocell : cell o = head i) (hx : x ∈ lists i) {k : ℕ}
    (hk : (lists i).length < k) :
    ∃ c, find read cell (fun y => y == x) k (cell x) = some (c, x) ∧
      c ∈ cells cell (head i) (lists i) ∧
      Lists (Function.update read c (read (cell x))) cell head ending dom
        (Function.update lists i ((lists i).erase x)) := by
  obtain ⟨xs, ys, hxs, heq, herase⟩ := List.exists_erase_eq hx
  have hpath := h.path i hi
  rw [heq, ho, ← hocell] at hpath
  have hnd := h.nodup i
  rw [heq] at hnd
  have hxys : x ∉ ys := (List.nodup_cons.mp (List.nodup_append.mp hnd).2.1).1
  have hox : o ≠ x := by
    rintro rfl
    exact h.apart i i o hx hocell
  have hnot : ∀ z ∈ ys ++ o :: xs, (z == x) = false := by
    intro z hz
    refine beq_eq_false_iff_ne.mpr ?_
    rcases List.mem_append.mp hz with hz | hz
    · exact ne_of_mem_of_not_mem hz hxys
    · rcases List.mem_cons.mp hz with rfl | hz
      · exact hox
      · exact ne_of_mem_of_not_mem hz hxs
  have hlen : (ys ++ o :: xs).length < k := by
    rw [heq, List.length_append, List.length_cons] at hk
    rw [List.length_append, List.length_cons]
    omega
  refine ⟨_, hpath.rotate.find_eq hnot (beq_self_eq_true x) hlen, ?_⟩
  rw [lastCell_append, hocell, herase]
  refine ⟨?_, h.unlink hcell hhead hi heq⟩
  rw [heq]
  exact lastCell_mem_cells_append

end Removing

/-- **A new pointer put in front** of a list. -/
theorem push (h : Lists read cell head ending dom lists) (hcell : Function.Injective cell)
    (hhead : Function.Injective head) (hi : i ∈ dom) (hx : ∀ j, x ∉ lists j)
    (hxhead : ∀ j, cell x ≠ head j) :
    Lists (Function.update (Function.update read (cell x) (read (head i))) (head i) (some x))
      cell head ending dom (Function.update lists i (x :: lists i)) := by
  have hnot : ∀ j, cell x ∉ cells cell (head j) (lists j) := by
    intro j hmem
    rcases List.mem_cons.mp hmem with heq | hmem
    · exact hxhead j heq
    · obtain ⟨y, hy, heq⟩ := List.mem_map.mp hmem
      exact hx j (hcell heq ▸ hy)
  refine h.replace hi ((h.path i hi).push (h.nodup_cells hcell i) (hnot i))
    (List.nodup_cons.mpr ⟨hx i, h.nodup i⟩) (fun y hy => ?_) fun j _ hji c hc => ?_
  · rcases List.mem_cons.mp hy with rfl | hy
    · exact .inr ⟨hx, hxhead⟩
    · exact .inl hy
  · have hc₁ : c ≠ head i := fun heq =>
      h.disjoint_cells hcell hhead hji hc (heq ▸ mem_cells)
    have hc₂ : c ≠ cell x := ne_of_mem_of_not_mem hc (hnot j)
    rw [Function.update_of_ne hc₁, Function.update_of_ne hc₂]

end Lists

end Lists

/-! ### Removing again and again -/

section Erasing

variable {p : P → Bool} {x : P}

theorem iterate_eraseP_cons (hx : p x = false) (k : ℕ) (xs : List P) :
    (List.eraseP p)^[k] (x :: xs) = x :: (List.eraseP p)^[k] xs := by
  induction k generalizing xs with
  | zero => rfl
  | succ k ih =>
      have hne : ¬ p x = true := ne_true_of_eq_false hx
      rw [Function.iterate_succ_apply, List.eraseP_cons_of_neg hne, ih,
        Function.iterate_succ_apply]

/-- Taking out the first pointer often enough takes out all of them. -/
theorem iterate_eraseP_eq_filter {k : ℕ} {xs : List P} (hk : xs.countP p ≤ k) :
    (List.eraseP p)^[k] xs = xs.filter fun x => !p x := by
  induction xs generalizing k with
  | nil => exact Function.iterate_fixed List.eraseP_nil k
  | cons x xs ih =>
      cases hx : p x with
      | true =>
          rw [List.countP_cons_of_pos hx] at hk
          obtain ⟨k, rfl⟩ : ∃ j, k = j + 1 := ⟨k - 1, by omega⟩
          rw [Function.iterate_succ_apply, List.eraseP_cons_of_pos hx, ih (by omega),
            List.filter_cons_of_neg (by rw [hx]; decide)]
      | false =>
          rw [List.countP_cons_of_neg (ne_true_of_eq_false hx)] at hk
          rw [iterate_eraseP_cons hx, ih hk, List.filter_cons_of_pos (by rw [hx]; rfl)]

/-- If a list of distinct pointers has those looked for among `ys`, there are no more of them
than `ys` is long. -/
theorem countP_le_of_nodup {xs ys : List P} (hnd : xs.Nodup)
    (h : ∀ x ∈ xs, p x = true → x ∈ ys) : xs.countP p ≤ ys.length := by
  rw [List.countP_eq_length_filter]
  refine (List.subperm_of_subset (hnd.filter p) fun x hx => ?_).length_le
  obtain ⟨hx, hpx⟩ := List.mem_filter.mp hx
  exact h x hx hpx

end Erasing

end LinkedCells
