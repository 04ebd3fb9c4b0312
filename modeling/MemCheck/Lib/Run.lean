import Mathlib.Data.List.Basic
import Mathlib.Data.List.Induction

/-!
# Runs of a Guarded Step Function

A system is a step function on states together with a guard that says which actions are
admissible in a state. A run is a list of actions; it is *along* the guard when every
action is admissible where it is taken. Interleavings of several parties are runs whose
actions name the party.

The two rules everything rests on are `Along.final` (an invariant that admissible steps
preserve holds at the end of a run) and `Along.at` (it holds, together with the guard,
before every action of the run). `Along.history` is the first for an invariant that speaks of
the actions taken so far, and `Along.imp` lets an invariant replace one guard by another.
-/

namespace Run

variable {σ α : Type} (step : σ → α → σ) (ok : σ → α → Prop)

/-- The state a run ends in. -/
def final (s : σ) (as : List α) : σ := as.foldl step s

/-- Every action of the run is admissible in the state it is taken in. -/
def Along : σ → List α → Prop
  | _, [] => True
  | s, a :: as => ok s a ∧ Along (step s a) as

instance decidableAlong [∀ s a, Decidable (ok s a)] :
    (s : σ) → (as : List α) → Decidable (Along step ok s as)
  | _, [] => isTrue trivial
  | s, a :: as =>
      have := decidableAlong (step s a) as
      inferInstanceAs (Decidable (ok s a ∧ Along step ok (step s a) as))

@[simp] theorem final_nil (s : σ) : final step s [] = s := rfl

@[simp] theorem final_cons (s : σ) (a : α) (as : List α) :
    final step s (a :: as) = final step (step s a) as := rfl

theorem final_append (s : σ) (as bs : List α) :
    final step s (as ++ bs) = final step (final step s as) bs :=
  List.foldl_append

variable {step ok} {s : σ} {as bs : List α} {a : α}

theorem along_append :
    Along step ok s (as ++ bs) ↔ Along step ok s as ∧ Along step ok (final step s as) bs := by
  induction as generalizing s with
  | nil => exact (true_and _).symm.to_iff
  | cons a as ih =>
      rw [List.cons_append, Along, Along, ih, final_cons, and_assoc]

/-- Two guards along one run. -/
theorem Along.and {ok' : σ → α → Prop} (h : Along step ok s as) (h' : Along step ok' s as) :
    Along step (fun s a => ok s a ∧ ok' s a) s as := by
  induction as generalizing s with
  | nil => trivial
  | cons a as ih => exact ⟨⟨h.1, h'.1⟩, ih h.2 h'.2⟩

/-- A guard that does not look at the state. -/
theorem along_of_forall {ok : α → Prop} (h : ∀ a ∈ as, ok a) :
    Along step (fun _ a => ok a) s as := by
  induction as generalizing s with
  | nil => trivial
  | cons a as ih =>
      obtain ⟨ha, has⟩ := List.forall_mem_cons.mp h
      exact ⟨ha, ih has⟩

section Invariant

variable {I : σ → Prop}

/-- A guard that an invariant makes follow from another. -/
theorem Along.imp {ok' : σ → α → Prop} (h : Along step ok s as)
    (hstep : ∀ s a, I s → ok s a → I (step s a)) (h0 : I s)
    (himp : ∀ s a, I s → ok s a → ok' s a) : Along step ok' s as := by
  induction as generalizing s with
  | nil => trivial
  | cons a as ih => exact ⟨himp s a h0 h.1, ih h.2 (hstep s a h0 h.1)⟩

/-- **The invariant rule.** -/
theorem Along.final (h : Along step ok s as)
    (hstep : ∀ s a, I s → ok s a → I (step s a)) (h0 : I s) :
    I (final step s as) := by
  induction as generalizing s with
  | nil => exact h0
  | cons a as ih => exact ih h.2 (hstep s a h0 h.1)

/-- The invariant rule for a step that needs no guard. -/
theorem inv_final (hstep : ∀ s a, I s → I (step s a)) (h0 : I s) :
    I (final step s as) := by
  induction as generalizing s with
  | nil => exact h0
  | cons a as ih => exact ih (hstep s a h0)

/-- Before every action of a run the invariant and the guard hold. -/
theorem Along.at (h : Along step ok s (as ++ a :: bs))
    (hstep : ∀ s a, I s → ok s a → I (step s a)) (h0 : I s) :
    I (Run.final step s as) ∧ ok (Run.final step s as) a := by
  obtain ⟨h1, h2⟩ := along_append.mp h
  exact ⟨h1.final hstep h0, h2.1⟩

end Invariant

section History

variable {I : List α → σ → Prop}

/-- The invariant rule for an invariant that knows the actions taken so far. -/
theorem Along.history (h : Along step ok s as) (h0 : I [] s)
    (hstep : ∀ pre a post t, as = pre ++ a :: post → I pre t → ok t a →
      I (pre ++ [a]) (step t a)) (pre post : List α) (heq : as = pre ++ post) :
    I pre (Run.final step s pre) := by
  induction pre using List.reverseRecOn generalizing post with
  | nil => exact h0
  | append_singleton pre a ih =>
      rw [List.append_assoc] at heq
      rw [heq] at h
      rw [final_append]
      exact hstep pre a post _ heq (ih _ heq) (along_append.mp h).2.1

/-- A guard holds along a run if it holds before each of its actions. -/
theorem along_of_at (h : ∀ pre a post, as = pre ++ a :: post → ok (final step s pre) a) :
    Along step ok s as := by
  induction as generalizing s with
  | nil => trivial
  | cons a as ih =>
      exact ⟨h [] a as rfl, ih fun pre b post heq => h (a :: pre) b post (by rw [heq]; rfl)⟩

end History

end Run
