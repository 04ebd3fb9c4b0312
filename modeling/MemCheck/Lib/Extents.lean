import Mathlib.Data.List.Basic
import Mathlib.Data.List.Nodup
import Mathlib.Data.List.Sort
import Mathlib.Order.Basic

/-!
# Families of Disjoint Extents

A nonempty half-open interval of addresses is an `Extent`; the nonemptiness is a field,
so that an empty one cannot be written down. Two extents either meet or one lies before
the other, and `Before` is a strict order. A list is `Laid` out when its elements'
extents follow each other in address order; such a list is determined by its elements,
and any two of its elements whose extents meet are the same.

Nothing here depends on what the elements are: `span : α → Extent` is a parameter of the
family results.
-/

/-- A nonempty half-open interval of addresses. -/
structure Extent where
  start : ℕ
  stop : ℕ
  start_lt_stop : start < stop

namespace Extent

/-- The addresses of an extent. -/
def Contains (e : Extent) (q : ℕ) : Prop := e.start ≤ q ∧ q < e.stop

/-- `e` ends at or below the start of `f`. -/
def Before (e f : Extent) : Prop := e.stop ≤ f.start

/-- Two extents share an address. -/
def Meets (e f : Extent) : Prop := e.start < f.stop ∧ f.start < e.stop

/-- `e` is a part of `f`. -/
def Within (e f : Extent) : Prop := f.start ≤ e.start ∧ e.stop ≤ f.stop

instance (e : Extent) (q : ℕ) : Decidable (e.Contains q) :=
  inferInstanceAs (Decidable (_ ∧ _))

instance (e f : Extent) : Decidable (e.Before f) :=
  inferInstanceAs (Decidable (_ ≤ _))

instance (e f : Extent) : Decidable (e.Meets f) :=
  inferInstanceAs (Decidable (_ ∧ _))

/-- Meeting is sharing an address. -/
theorem meets_iff_exists {e f : Extent} :
    e.Meets f ↔ ∃ q, e.Contains q ∧ f.Contains q := by
  have he := e.start_lt_stop
  have hf := f.start_lt_stop
  constructor
  · rintro ⟨h1, h2⟩
    exact ⟨max e.start f.start, ⟨by omega, by omega⟩, ⟨by omega, by omega⟩⟩
  · rintro ⟨q, ⟨h1, h2⟩, h3, h4⟩
    exact ⟨by omega, by omega⟩

theorem Meets.symm {e f : Extent} (h : e.Meets f) : f.Meets e := ⟨h.2, h.1⟩

/-- What meets a part meets the whole. -/
theorem Meets.of_within {e f g : Extent} (h : e.Meets f) (hfg : f.Within g) : e.Meets g :=
  ⟨h.1.trans_le hfg.2, hfg.1.trans_lt h.2⟩

theorem Within.trans {e f g : Extent} (h1 : e.Within f) (h2 : f.Within g) : e.Within g :=
  ⟨h2.1.trans h1.1, h1.2.trans h2.2⟩

theorem meets_self (e : Extent) : e.Meets e := ⟨e.start_lt_stop, e.start_lt_stop⟩

/-- Either two extents meet or one lies before the other. -/
theorem not_meets_iff {e f : Extent} : ¬ e.Meets f ↔ e.Before f ∨ f.Before e := by
  simp only [Meets, Before]
  omega

theorem Before.trans {e f g : Extent} (h1 : e.Before f) (h2 : f.Before g) : e.Before g := by
  have hf := f.start_lt_stop
  simp only [Before] at *
  omega

theorem Before.not_meets {e f : Extent} (h : e.Before f) : ¬ e.Meets f :=
  not_meets_iff.mpr (Or.inl h)

theorem Before.asymm {e f : Extent} (h : e.Before f) : ¬ f.Before e := by
  have he := e.start_lt_stop
  have hf := f.start_lt_stop
  simp only [Before] at *
  omega

theorem Before.irrefl (e : Extent) : ¬ e.Before e := fun h => h.asymm h

/-! ### Families in address order -/

section Family

variable {α : Type} (span : α → Extent)

/-- The elements' extents follow each other in address order. -/
def Laid (L : List α) : Prop := L.Pairwise fun x y => (span x).Before (span y)

variable {span} {L L' : List α} {x y : α}

theorem Laid.nodup (h : Laid span L) : L.Nodup := by
  refine List.Pairwise.imp (fun {a b} hab heq => ?_) h
  subst heq
  exact Before.irrefl _ hab

/-- Two elements whose extents meet are the same element. -/
theorem Laid.eq_of_meets (h : Laid span L) (hx : x ∈ L) (hy : y ∈ L)
    (hxy : (span x).Meets (span y)) : x = y := by
  obtain ⟨i, hi, rfl⟩ := List.getElem_of_mem hx
  obtain ⟨j, hj, rfl⟩ := List.getElem_of_mem hy
  rcases lt_trichotomy i j with hij | rfl | hji
  · exact absurd hxy (List.pairwise_iff_getElem.mp h i j hi hj hij).not_meets
  · rfl
  · exact absurd hxy.symm (List.pairwise_iff_getElem.mp h j i hj hi hji).not_meets

/-- A laid-out list is determined by its elements. -/
theorem Laid.eq_of_mem_iff (h : Laid span L) (h' : Laid span L')
    (hmem : ∀ x, x ∈ L ↔ x ∈ L') : L = L' := by
  have hp : L.Perm L' := (List.perm_ext_iff_of_nodup h.nodup h'.nodup).mpr hmem
  exact hp.eq_of_pairwise (fun a b _ _ hab hba => absurd hba hab.asymm) h h'

theorem Laid.eraseIdx (h : Laid span L) (i : ℕ) : Laid span (L.eraseIdx i) :=
  List.Pairwise.sublist (List.eraseIdx_sublist L i) h

/-- Erasing a position removes exactly the element that stood there. -/
theorem Laid.mem_eraseIdx (h : Laid span L) {i : ℕ} (hi : L[i]? = some x) :
    y ∈ L.eraseIdx i ↔ y ∈ L ∧ y ≠ x := by
  rw [List.mem_eraseIdx_iff_getElem?]
  constructor
  · rintro ⟨j, hj, hy⟩
    refine ⟨List.mem_of_getElem? hy, fun heq => hj ?_⟩
    subst heq
    obtain ⟨hjl, hjy⟩ := List.getElem?_eq_some_iff.mp hy
    obtain ⟨hil, hiy⟩ := List.getElem?_eq_some_iff.mp hi
    exact (List.Nodup.getElem_inj_iff h.nodup).mp (hjy.trans hiy.symm)
  · rintro ⟨hy, hne⟩
    obtain ⟨j, hj⟩ := List.mem_iff_getElem?.mp hy
    refine ⟨j, fun heq => hne ?_, hj⟩
    subst heq
    exact Option.some.inj (hj.symm.trans hi)

/-- **Three segments**: the elements before an extent, those that meet it and those behind it
follow each other. -/
theorem Laid.segments (h : Laid span L) (q : Extent) :
    ∃ below meeting above, L = below ++ meeting ++ above ∧
      (∀ x ∈ below, (span x).Before q) ∧ (∀ x ∈ meeting, (span x).Meets q) ∧
      ∀ x ∈ above, q.Before (span x) := by
  induction L with
  | nil => exact ⟨[], [], [], rfl, nofun, nofun, nofun⟩
  | cons x L ih =>
      obtain ⟨hx, hL⟩ := List.pairwise_cons.mp h
      obtain ⟨below, meeting, above, rfl, hb, hm, ha⟩ := ih hL
      by_cases hxq : (span x).Before q
      · exact ⟨x :: below, meeting, above, rfl, List.forall_mem_cons.mpr ⟨hxq, hb⟩, hm, ha⟩
      -- nothing behind `x` is before `q`
      have hbelow : below = [] := by
        rw [List.eq_nil_iff_forall_not_mem]
        intro y hy
        exact hxq ((hx y (by simp [hy])).trans (hb y hy))
      subst hbelow
      by_cases hmq : (span x).Meets q
      · exact ⟨[], x :: meeting, above, rfl, nofun, List.forall_mem_cons.mpr ⟨hmq, hm⟩, ha⟩
      have hqx : q.Before (span x) := (not_meets_iff.mp hmq).resolve_left hxq
      have hmeeting : meeting = [] := by
        rw [List.eq_nil_iff_forall_not_mem]
        intro y hy
        exact (hqx.trans (hx y (by simp [hy]))).not_meets (hm y hy).symm
      subst hmeeting
      exact ⟨[], [], x :: above, rfl, nofun, nofun, List.forall_mem_cons.mpr ⟨hqx, ha⟩⟩

/-- Placing an element between those before it and those after it. -/
theorem Laid.insert {A C : List α} (h : Laid span (A ++ C))
    (hA : ∀ a ∈ A, (span a).Before (span x)) (hC : ∀ c ∈ C, (span x).Before (span c)) :
    Laid span (A ++ x :: C) := by
  obtain ⟨h1, h2, h3⟩ := List.pairwise_append.mp h
  refine List.pairwise_append.mpr ⟨h1, List.pairwise_cons.mpr ⟨hC, h2⟩, ?_⟩
  intro a ha b hb
  rcases List.mem_cons.mp hb with rfl | hb
  · exact hA a ha
  · exact h3 a ha b hb

/-- Placing elements within the extent of one in its stead. -/
theorem Laid.replace {A C R : List α} (h : Laid span (A ++ x :: C)) (hR : Laid span R)
    (hx : ∀ r ∈ R, (span r).Within (span x)) : Laid span (A ++ (R ++ C)) := by
  obtain ⟨hA, hxC, hAx⟩ := List.pairwise_append.mp h
  obtain ⟨hxC, hC⟩ := List.pairwise_cons.mp hxC
  refine List.pairwise_append.mpr ⟨hA, List.pairwise_append.mpr ⟨hR, hC, ?_⟩, ?_⟩
  · intro r hr c hc
    exact le_trans (hx r hr).2 (hxC c hc)
  · intro a ha b hb
    rcases List.mem_append.mp hb with hr | hc
    · exact le_trans (hAx a ha x List.mem_cons_self) (hx b hr).1
    · exact hAx a ha b (List.mem_cons_of_mem x hc)

end Family

end Extent
