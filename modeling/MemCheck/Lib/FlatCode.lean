import Mathlib.Data.List.Basic
import Mathlib.Order.Nat

/-!
# Flat Code with Labels

A list of operations of which some set a label, some may jump to one, and some are never
passed: control does not go on behind them. `Flow` says where control can go from a
position; nothing is assumed of when a jump is taken.

Code grows by segments. A segment sets labels of its own, which nothing before it jumps
to. Code is *sealed* below a label number when some operation in it is never passed and
nothing up to there jumps behind it: control that starts at the beginning then never runs
past the end (`Sealed.exists_bound`), and further segments do not change that
(`Sealed.append`).
-/

namespace FlatCode

/-- What control flow has to know of an operation. -/
structure Shape (α : Type) where
  label : α → Option ℕ
  target : α → Option ℕ
  stops : α → Bool

variable {α : Type} (S : Shape α)

/-- The labels the code sets. -/
def labels (ops : List α) : List ℕ := ops.filterMap S.label

/-- The labels the code jumps to. -/
def targets (ops : List α) : List ℕ := ops.filterMap S.target

/-- Where a label is set. -/
def position (ops : List α) (l : ℕ) : ℕ := ops.findIdx fun o => S.label o == some l

/-- Control can pass from one position to another. -/
inductive Flow (ops : List α) : ℕ → ℕ → Prop where
  | next {i : ℕ} {o : α} : ops[i]? = some o → S.stops o = false → Flow ops i (i + 1)
  | jump {i l : ℕ} {o : α} : ops[i]? = some o → S.target o = some l →
      Flow ops i (position S ops l)

/-- Every label jumped to is set. -/
def Resolved (ops : List α) : Prop := ∀ l ∈ targets S ops, l ∈ labels S ops

/-- An operation is never passed, and up to it nothing jumps behind it. -/
def Sealed (n : ℕ) (ops : List α) : Prop :=
  ∃ A t C m, ops = A ++ t :: C ∧ m ≤ n ∧ S.stops t = true ∧ S.target t = none ∧
    S.label t = none ∧ (∀ l ∈ targets S A, l < m) ∧ ∀ l ∈ labels S C, m ≤ l

variable {S} {ops seg : List α} {i j l m n : ℕ} {o : α}

theorem mem_labels : l ∈ labels S ops ↔ ∃ o ∈ ops, S.label o = some l := List.mem_filterMap

theorem mem_targets : l ∈ targets S ops ↔ ∃ o ∈ ops, S.target o = some l :=
  List.mem_filterMap

theorem labels_append (ops seg : List α) :
    labels S (ops ++ seg) = labels S ops ++ labels S seg :=
  List.filterMap_append

theorem targets_append (ops seg : List α) :
    targets S (ops ++ seg) = targets S ops ++ targets S seg :=
  List.filterMap_append

/-- What stands where a label is set. -/
theorem getElem?_position (h : l ∈ labels S ops) :
    ∃ o, ops[position S ops l]? = some o ∧ S.label o = some l := by
  obtain ⟨o, ho, hl⟩ := mem_labels.mp h
  have hlt : position S ops l < ops.length :=
    List.findIdx_lt_length_of_exists ⟨o, ho, by simp [hl]⟩
  refine ⟨ops[position S ops l], List.getElem?_eq_getElem hlt, ?_⟩
  have hfound := List.findIdx_getElem (w := hlt)
  exact beq_iff_eq.mp hfound

theorem Resolved.append (h : Resolved S ops) (hseg : Resolved S seg) :
    Resolved S (ops ++ seg) := by
  intro l hl
  rw [targets_append, List.mem_append] at hl
  rw [labels_append, List.mem_append]
  exact hl.imp (h l) (hseg l)

/-- A segment with labels of its own keeps sealed code sealed. -/
theorem Sealed.append (h : Sealed S m ops) (hmn : m ≤ n) (hseg : ∀ l ∈ labels S seg, m ≤ l) :
    Sealed S n (ops ++ seg) := by
  obtain ⟨A, t, C, k, rfl, hk, hstop, htarget, hlabel, hA, hC⟩ := h
  refine ⟨A, t, C ++ seg, k, by simp, hk.trans hmn, hstop, htarget, hlabel, hA, ?_⟩
  intro l hl
  rw [labels_append, List.mem_append] at hl
  rcases hl with hl | hl
  · exact hC l hl
  · exact hk.trans (hseg l hl)

/-- **Sealed code is never run past its end.** -/
theorem Sealed.exists_bound (h : Sealed S n ops) (hres : Resolved S ops) :
    ∃ a < ops.length, ∀ i j, i ≤ a → Flow S ops i j → j ≤ a := by
  obtain ⟨A, t, C, m, rfl, -, hstop, htarget, hlabel, hA, hC⟩ := h
  have hget : (A ++ t :: C)[A.length]? = some t := by simp
  refine ⟨A.length, by simp, fun i j hi hflow => ?_⟩
  cases hflow with
  | next hio hpass =>
      rcases hi.lt_or_eq with hlt | rfl
      · exact hlt
      · rw [Option.some.inj (hget.symm.trans hio), hpass] at hstop
        exact absurd hstop (by decide)
  | @jump l o hio hto =>
      rcases hi.lt_or_eq with hlt | rfl
      · -- the label is set before `t`: those behind it are fresh
        have hoA : o ∈ A := List.mem_of_getElem? ((List.getElem?_append_left hlt) ▸ hio)
        have hlm := hA l (mem_targets.mpr ⟨o, hoA, hto⟩)
        obtain ⟨d, hd, hdl⟩ := mem_labels.mp
          (hres l (mem_targets.mpr ⟨o, List.mem_of_getElem? hio, hto⟩))
        have hdA : d ∈ A := by
          rcases List.mem_append.mp hd with hd | hd
          · exact hd
          rcases List.mem_cons.mp hd with rfl | hd
          · rw [hlabel] at hdl
            cases hdl
          · exact absurd (hC l (mem_labels.mpr ⟨d, hd, hdl⟩)) (not_le.mpr hlm)
        have hfind : A.findIdx (fun o => S.label o == some l) < A.length :=
          List.findIdx_lt_length_of_exists ⟨d, hdA, by simp [hdl]⟩
        rw [position, List.findIdx_append, if_pos hfind]
        exact hfind.le
      · rw [Option.some.inj (hget.symm.trans hio), hto] at htarget
        cases htarget

end FlatCode
