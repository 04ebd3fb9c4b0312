import Mathlib.Data.List.Induction
import Mathlib.Logic.Function.Basic

/-!
# Maps Written in Sequence

A map that is only assigned to, `m[k] = v`, holds under each key the value last written
there. This module says so once for the two representations such a map can have: a function
updated pointwise, and an association list kept in the order of its keys, as a container
that is iterated in key order needs.

## Main results

* `foldl_update`: the function after a sequence of writes;
* `lastWrite_range_eq_some`: writes numbered from zero;
* `forall_lastWrite_iff`: what leaving out rows can change;
* `mem_table_iff`, `sorted_table`: the ordered list after a sequence of writes.
-/

namespace Writes

section LastWrite

variable {κ ν : Type} [DecidableEq κ]

/-- The value last written under a key. -/
def lastWrite (k : κ) (ws : List (κ × ν)) : Option ν :=
  (ws.findRev? fun w => w.1 = k).map Prod.snd

theorem lastWrite_nil (k : κ) : lastWrite k ([] : List (κ × ν)) = none := rfl

theorem lastWrite_concat (k : κ) (ws : List (κ × ν)) (w : κ × ν) :
    lastWrite k (ws ++ [w]) = if w.1 = k then some w.2 else lastWrite k ws := by
  simp only [lastWrite, List.findRev?_eq_find?_reverse, List.reverse_append,
    List.reverse_singleton, List.singleton_append, List.find?_cons]
  by_cases h : w.1 = k <;> simp [h]

/-- Repeating the last write changes nothing. -/
theorem lastWrite_repeat (k : κ) (ws : List (κ × ν)) (w : κ × ν) :
    lastWrite k (ws ++ [w] ++ [w]) = lastWrite k (ws ++ [w]) := by
  rw [lastWrite_concat, lastWrite_concat]
  split_ifs <;> rfl

/-- A key was written exactly if it has a last write. -/
theorem exists_lastWrite_iff {k : κ} {ws : List (κ × ν)} :
    (∃ v, lastWrite k ws = some v) ↔ ∃ w ∈ ws, w.1 = k := by
  rw [← Option.isSome_iff_exists, lastWrite, Option.isSome_map,
    List.findRev?_eq_find?_reverse, List.find?_isSome]
  simp only [List.mem_reverse, decide_eq_true_eq]

/-- What a key holds was written there. -/
theorem mem_of_lastWrite {k : κ} {v : ν} {ws : List (κ × ν)} (h : lastWrite k ws = some v) :
    (k, v) ∈ ws := by
  obtain ⟨w, hw, rfl⟩ := Option.map_eq_some_iff.mp h
  rw [List.findRev?_eq_find?_reverse] at hw
  have hkey := List.find?_some hw
  obtain rfl := of_decide_eq_true hkey
  exact List.mem_reverse.mp (List.mem_of_find?_eq_some hw)

/-- Writes numbered from zero: a key holds the value of the last number written under it. -/
theorem lastWrite_range_eq_some {key : ℕ → κ} {val : ℕ → ν} {n : ℕ} {k : κ} {v : ν} :
    lastWrite k ((List.range n).map fun i => (key i, val i)) = some v ↔
      ∃ i < n, key i = k ∧ val i = v ∧ ∀ j, i < j → j < n → key j ≠ k := by
  induction n with
  | zero => simp [lastWrite_nil]
  | succ n ih =>
      rw [List.range_succ, List.map_append, List.map_singleton, lastWrite_concat]
      by_cases hn : key n = k
      · rw [if_pos hn, Option.some.injEq]
        constructor
        · intro hv
          exact ⟨n, Nat.lt_succ_self n, hn, hv, fun j h1 h2 => by omega⟩
        · rintro ⟨i, hi, hkey, hv, hlast⟩
          rcases Nat.lt_succ_iff_lt_or_eq.mp hi with hlt | rfl
          · exact absurd hn (hlast n hlt (Nat.lt_succ_self n))
          · exact hv
      · rw [if_neg hn, ih]
        constructor
        · rintro ⟨i, hi, hkey, hv, hlast⟩
          refine ⟨i, Nat.lt_succ_of_lt hi, hkey, hv, fun j h1 h2 => ?_⟩
          rcases Nat.lt_succ_iff_lt_or_eq.mp h2 with hlt | rfl
          · exact hlast j h1 hlt
          · exact hn
        · rintro ⟨i, hi, hkey, hv, hlast⟩
          rcases Nat.lt_succ_iff_lt_or_eq.mp hi with hlt | rfl
          · exact ⟨i, hlt, hkey, hv, fun j h1 h2 => hlast j h1 (Nat.lt_succ_of_lt h2)⟩
          · exact absurd hkey hn

section Rows

variable {α : Type} {f : α → Option (κ × ν)} {rows : List α} {k : κ} {v : ν}

/-- Writes made row by row: a key holds what the last row that writes it says. -/
theorem lastWrite_filterMap_eq_some : lastWrite k (rows.filterMap f) = some v ↔
    ∃ r post, r :: post <:+ rows ∧ f r = some (k, v) ∧
      ∀ r' ∈ post, ∀ w, f r' = some w → w.1 ≠ k := by
  have hlater : ∀ r', (!(f r').any fun w => decide (w.1 = k)) = true ↔
      ∀ w, f r' = some w → w.1 ≠ k := by
    intro r'
    cases f r' <;> simp
  rw [lastWrite, List.findRev?_eq_find?_reverse, ← List.filterMap_reverse, List.find?_filterMap,
    Option.map_eq_some_iff]
  constructor
  · rintro ⟨w, hw, rfl⟩
    obtain ⟨r, hr, hf⟩ := Option.bind_eq_some_iff.mp hw
    obtain ⟨hkey, post, pre, hsplit, hpost⟩ := List.find?_eq_some_iff_append.mp hr
    rw [hf, Option.any_some, decide_eq_true_eq] at hkey
    refine ⟨r, post.reverse, ⟨pre.reverse, ?_⟩, by rw [hf, ← hkey], fun r' hr' =>
      (hlater r').mp (hpost r' (List.mem_reverse.mp hr'))⟩
    rw [← List.reverse_reverse rows, hsplit]
    simp
  · rintro ⟨r, post, ⟨pre, rfl⟩, hf, hpost⟩
    refine ⟨(k, v), Option.bind_eq_some_iff.mpr ⟨r, ?_, hf⟩, rfl⟩
    refine List.find?_eq_some_iff_append.mpr ⟨by simp [hf], post.reverse, pre.reverse, by simp,
      fun r' hr' => (hlater r').mpr (hpost r' (List.mem_reverse.mp hr'))⟩

/-- **Leaving out rows.** A property that what the rows kept write has is one that all of the
map has, exactly if it holds for every row left out or a later row writes the same key. -/
theorem forall_lastWrite_iff {keep : α → Bool} {P : κ → ν → Prop}
    (hP : ∀ k v, lastWrite k ((rows.filter keep).filterMap f) = some v → P k v) :
    (∀ k v, lastWrite k (rows.filterMap f) = some v → P k v) ↔
      ∀ r post k v, r :: post <:+ rows → keep r = false → f r = some (k, v) →
        (∃ r' ∈ post, ∃ w, f r' = some w ∧ w.1 = k) ∨ P k v := by
  constructor
  · intro h r post k v hsuffix hkeep hf
    by_cases hlater : ∃ r' ∈ post, ∃ w, f r' = some w ∧ w.1 = k
    · exact Or.inl hlater
    · push Not at hlater
      exact Or.inr (h k v (lastWrite_filterMap_eq_some.mpr ⟨r, post, hsuffix, hf, hlater⟩))
  · intro h k v hlast
    obtain ⟨r, post, ⟨pre, rfl⟩, hf, hpost⟩ := lastWrite_filterMap_eq_some.mp hlast
    cases hkeep : keep r with
    | false =>
        rcases h r post k v ⟨pre, rfl⟩ hkeep hf with ⟨r', hr', w, hf', hk⟩ | hp
        · exact absurd hk (hpost r' hr' w hf')
        · exact hp
    | true =>
        refine hP k v (lastWrite_filterMap_eq_some.mpr ⟨r, post.filter keep,
          ⟨pre.filter keep, ?_⟩, hf, fun r' hr' => hpost r' (List.mem_filter.mp hr').1⟩)
        rw [List.filter_append, List.filter_cons_of_pos hkeep]

end Rows

/-- The function after a sequence of writes. -/
theorem foldl_update (ws : List (κ × ν)) (k : κ) :
    ws.foldl (fun (m : κ → Option ν) w => Function.update m w.1 (some w.2)) (fun _ => none) k =
      lastWrite k ws := by
  induction ws using List.reverseRecOn with
  | nil => rfl
  | append_singleton ws w ih =>
      rw [List.foldl_append, List.foldl_cons, List.foldl_nil, lastWrite_concat]
      by_cases h : w.1 = k
      · subst h
        rw [Function.update_self, if_pos rfl]
      · rw [Function.update_of_ne (Ne.symm h), if_neg h, ih]

end LastWrite

section Table

variable {κ ν : Type} [LT κ] [DecidableLT κ] [DecidableEq κ]

/-- Assign to a key of an ordered list. -/
def assign (k : κ) (v : ν) : List (κ × ν) → List (κ × ν)
  | [] => [(k, v)]
  | w :: ws =>
      if k < w.1 then (k, v) :: w :: ws
      else if k = w.1 then (k, v) :: ws
      else w :: assign k v ws

/-- The ordered list after a sequence of writes. -/
def table (ws : List (κ × ν)) : List (κ × ν) :=
  ws.foldl (fun t w => assign w.1 w.2 t) []

theorem table_concat (ws : List (κ × ν)) (w : κ × ν) :
    table (ws ++ [w]) = assign w.1 w.2 (table ws) := by
  rw [table, List.foldl_append, List.foldl_cons, List.foldl_nil]
  rfl

/-- The keys increase. -/
def Sorted (t : List (κ × ν)) : Prop := t.Pairwise fun x y => x.1 < y.1

variable [LE κ] [Std.LawfulOrderLT κ] [Std.IsLinearOrder κ] {k : κ} {v : ν}
  {t : List (κ × ν)}

/-- An assignment replaces what the key held and keeps every other key. -/
theorem mem_assign (h : Sorted t) {w : κ × ν} :
    w ∈ assign k v t ↔ w = (k, v) ∨ (w ∈ t ∧ w.1 ≠ k) := by
  induction t with
  | nil => simp [assign]
  | cons x xs ih =>
      obtain ⟨hx, hxs⟩ := List.pairwise_cons.mp h
      rw [assign]
      split_ifs with hlt heq
      · -- every key of the list is above `k`
        have hne : ∀ w ∈ x :: xs, w.1 ≠ k := by
          rintro w hw rfl
          rcases List.mem_cons.mp hw with rfl | hw
          · exact Std.lt_irrefl hlt
          · exact Std.lt_irrefl (Std.lt_trans hlt (hx w hw))
        rw [List.mem_cons]
        exact or_congr_right ⟨fun hw => ⟨hw, hne w hw⟩, And.left⟩
      · subst heq
        have hne : ∀ w ∈ xs, w.1 ≠ x.1 := fun w hw hc => Std.lt_irrefl (hc ▸ hx w hw)
        rw [List.mem_cons, List.mem_cons]
        constructor
        · rintro (hw | hw)
          · exact Or.inl hw
          · exact Or.inr ⟨Or.inr hw, hne w hw⟩
        · rintro (hw | ⟨rfl | hw, hwk⟩)
          · exact Or.inl hw
          · exact absurd rfl hwk
          · exact Or.inr hw
      · rw [List.mem_cons, List.mem_cons, ih hxs]
        constructor
        · rintro (rfl | hw | ⟨hw, hwk⟩)
          · exact Or.inr ⟨Or.inl rfl, Ne.symm heq⟩
          · exact Or.inl hw
          · exact Or.inr ⟨Or.inr hw, hwk⟩
        · rintro (hw | ⟨hw | hw, hwk⟩)
          · exact Or.inr (Or.inl hw)
          · exact Or.inl hw
          · exact Or.inr (Or.inr ⟨hw, hwk⟩)

/-- An assignment keeps the keys increasing. -/
theorem sorted_assign (h : Sorted t) : Sorted (assign k v t) := by
  induction t with
  | nil => exact List.pairwise_singleton _ _
  | cons x xs ih =>
      obtain ⟨hx, hxs⟩ := List.pairwise_cons.mp h
      rw [assign]
      split_ifs with hlt heq
      · refine List.pairwise_cons.mpr ⟨fun y hy => ?_, h⟩
        rcases List.mem_cons.mp hy with rfl | hy
        · exact hlt
        · exact Std.lt_trans hlt (hx y hy)
      · exact List.pairwise_cons.mpr ⟨fun y hy => heq ▸ hx y hy, hxs⟩
      · refine List.pairwise_cons.mpr ⟨fun y hy => ?_, ih hxs⟩
        rcases (mem_assign hxs).mp hy with rfl | ⟨hy, -⟩
        · -- `k` is neither below nor at the first key
          exact (Std.lt_trichotomy k x.1).resolve_left hlt |>.resolve_left heq
        · exact hx y hy

theorem sorted_table (ws : List (κ × ν)) : Sorted (table ws) := by
  induction ws using List.reverseRecOn with
  | nil => exact List.Pairwise.nil
  | append_singleton ws w ih =>
      rw [table_concat]
      exact sorted_assign ih

/-- The ordered list holds the last writes. -/
theorem mem_table_iff {ws : List (κ × ν)} : (k, v) ∈ table ws ↔ lastWrite k ws = some v := by
  induction ws using List.reverseRecOn with
  | nil => simp [table, lastWrite_nil]
  | append_singleton ws w ih =>
      rw [table_concat, mem_assign (sorted_table ws), lastWrite_concat, ih, Prod.mk.injEq]
      by_cases h : w.1 = k
      · rw [if_pos h, Option.some.injEq]
        constructor
        · rintro (⟨-, hv⟩ | ⟨-, hne⟩)
          · exact hv.symm
          · exact absurd h.symm hne
        · exact fun hv => Or.inl ⟨h.symm, hv.symm⟩
      · rw [if_neg h]
        constructor
        · rintro (⟨hk, -⟩ | ⟨hlast, -⟩)
          · exact absurd hk.symm h
          · exact hlast
        · exact fun hlast => Or.inr ⟨hlast, Ne.symm h⟩

/-- The keys of the ordered list are those written. -/
theorem exists_mem_table_iff_mem {ws : List (κ × ν)} :
    (∃ w ∈ table ws, w.1 = k) ↔ ∃ w ∈ ws, w.1 = k := by
  refine Iff.trans ?_ exists_lastWrite_iff
  constructor
  · rintro ⟨⟨k, v⟩, hw, rfl⟩
    exact ⟨v, mem_table_iff.mp hw⟩
  · rintro ⟨v, hv⟩
    exact ⟨(k, v), mem_table_iff.mpr hv, rfl⟩

theorem table_eq_nil_iff {ws : List (κ × ν)} : table ws = [] ↔ ws = [] := by
  constructor
  · intro h
    refine List.eq_nil_iff_forall_not_mem.mpr fun w hw => ?_
    obtain ⟨w', hw', -⟩ := exists_mem_table_iff_mem.mpr ⟨w, hw, rfl⟩
    rw [h] at hw'
    exact absurd hw' List.not_mem_nil
  · rintro rfl
    rfl

end Table

end Writes
