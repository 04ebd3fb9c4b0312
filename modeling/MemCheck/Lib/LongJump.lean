import Mathlib.Order.Defs.Unbundled

/-!
# Programs That Leave by a Long Jump

A program of `EStateM ε σ α` works on a state, and may leave from anywhere with an exit that
keeps the state as it is then. `Triple P x Q E` says what holds when `x` is started in a state of
`P`: if it returns, `Q` of the result and the state; if it leaves, `E` of the exit and the state.

## Main results

* `Triple.bind`, `Triple.conseq`: the rules for composed programs;
* `Within.bind`: a program stays within a preorder on states if its parts do.
-/

namespace LongJump

variable {ε σ α β : Type}

theorem bind_of_ok {x : EStateM ε σ α} {f : α → EStateM ε σ β} {s s' : σ} {a : α}
    (h : x s = .ok a s') : (x >>= f) s = f a s' := by
  have hbind : (x >>= f) s = match x s with
    | .ok a s' => f a s'
    | .error e s' => .error e s' := rfl
  rw [hbind, h]

theorem bind_of_error {x : EStateM ε σ α} {f : α → EStateM ε σ β} {s s' : σ} {e : ε}
    (h : x s = .error e s') : (x >>= f) s = .error e s' := by
  have hbind : (x >>= f) s = match x s with
    | .ok a s' => f a s'
    | .error e s' => .error e s' := rfl
  rw [hbind, h]

/-- What holds when a program returns, and when it leaves. -/
def Triple (P : σ → Prop) (x : EStateM ε σ α) (Q : α → σ → Prop) (E : ε → σ → Prop) : Prop :=
  ∀ s, P s → match x s with
    | .ok a s' => Q a s'
    | .error e s' => E e s'

variable {P P' : σ → Prop} {Q Q' : α → σ → Prop} {E E' : ε → σ → Prop} {x : EStateM ε σ α}

theorem Triple.pure {a : α} (h : ∀ s, P s → Q a s) : Triple P (Pure.pure a) Q E := h

theorem Triple.throw {e : ε} (h : ∀ s, P s → E e s) : Triple P (MonadExcept.throw e) Q E := h

theorem Triple.modify {f : σ → σ} {Q : Unit → σ → Prop} (h : ∀ s, P s → Q () (f s)) :
    Triple P (modify f : EStateM ε σ Unit) Q E := h

/-- One program after another: either may leave. -/
theorem Triple.bind {R : β → σ → Prop} {f : α → EStateM ε σ β} (hx : Triple P x Q E)
    (hf : ∀ a, Triple (Q a) (f a) R E) : Triple P (x >>= f) R E := by
  intro s hs
  have h := hx s hs
  cases hxs : x s with
  | ok a s' =>
      rw [hxs] at h
      rw [bind_of_ok hxs]
      exact hf a s' h
  | error e s' =>
      rw [hxs] at h
      rw [bind_of_error hxs]
      exact h

theorem Triple.conseq (h : Triple P x Q E) (hP : ∀ s, P' s → P s) (hQ : ∀ a s, Q a s → Q' a s)
    (hE : ∀ e s, E e s → E' e s) : Triple P' x Q' E' := by
  intro s hs
  have h := h s (hP s hs)
  cases hxs : x s with
  | ok a s' =>
      rw [hxs] at h
      exact hQ a s' h
  | error e s' =>
      rw [hxs] at h
      exact hE e s' h

theorem Triple.strengthen_pre (h : Triple P x Q E) (hP : ∀ s, P' s → P s) : Triple P' x Q E :=
  h.conseq hP (fun _ _ h => h) fun _ _ h => h

theorem Triple.weaken_exit (h : Triple P x Q E) (hE : ∀ e s, E e s → E' e s) : Triple P x Q E' :=
  h.conseq (fun _ h => h) (fun _ _ h => h) hE

/-- Two things that are shown of a program. -/
theorem Triple.and (h : Triple P x Q E) (h' : Triple P x Q' E') :
    Triple P x (fun a s => Q a s ∧ Q' a s) (fun e s => E e s ∧ E' e s) := by
  intro s hs
  have h := h s hs
  have h' := h' s hs
  cases hxs : x s with
  | ok a s' =>
      rw [hxs] at h h'
      exact ⟨h, h'⟩
  | error e s' =>
      rw [hxs] at h h'
      exact ⟨h, h'⟩

/-- A program that goes by the state. -/
theorem Triple.get_bind {R : β → σ → Prop} {f : σ → EStateM ε σ β}
    (h : ∀ s, P s → Triple (· = s) (f s) R E) : Triple P (MonadState.get >>= f) R E :=
  fun s hs => h s hs s rfl

theorem Triple.ite {p : Prop} [Decidable p] {y : EStateM ε σ α} (hx : p → Triple P x Q E)
    (hy : ¬ p → Triple P y Q E) : Triple P (if p then x else y) Q E := by
  by_cases h : p
  · rw [if_pos h]
    exact hx h
  · rw [if_neg h]
    exact hy h

theorem Triple.of_ok {s s' : σ} {a : α} (h : Triple P x Q E) (hs : P s) (hx : x s = .ok a s') :
    Q a s' := by
  have h := h s hs
  rw [hx] at h
  exact h

/-- A program that never leaves. -/
theorem Triple.exists_ok {s : σ} (h : Triple P x Q (fun _ _ => False)) (hs : P s) :
    ∃ a s', x s = .ok a s' ∧ Q a s' := by
  have h := h s hs
  cases hxs : x s with
  | ok a s' =>
      rw [hxs] at h
      exact ⟨a, s', rfl, h⟩
  | error e s' =>
      rw [hxs] at h
      exact h.elim

/-- A loop over a list keeps what each round keeps. -/
theorem Triple.forM {f : β → EStateM ε σ PUnit} (h : ∀ b, Triple P (f b) (fun _ => P) E)
    (bs : List β) : Triple P (bs.forM f) (fun _ => P) E := by
  induction bs with
  | nil => exact .pure fun _ hs => hs
  | cons b bs ih => exact (h b).bind fun _ => ih

/-! ### Programs within a relation -/

/-- However a program ends, the state it was started in and the state it ends in are related, and
if it leaves it does so by an exit of `F`. -/
def Within (R : σ → σ → Prop) (F : ε → Prop) (x : EStateM ε σ α) : Prop :=
  ∀ s, Triple (· = s) x (fun _ => R s) (fun e s' => F e ∧ R s s')

namespace Within

variable {R : σ → σ → Prop} {F : ε → Prop}

theorem pure [Std.Refl R] (a : α) : Within R F (Pure.pure a : EStateM ε σ α) :=
  fun s => Triple.pure fun _ hs => hs ▸ refl_of R s

theorem modifyGet {f : σ → α × σ} (h : ∀ s, R s (f s).2) :
    Within R F (MonadStateOf.modifyGet f : EStateM ε σ α) := by
  rintro s s' rfl
  exact h s'

/-- One program after another. -/
theorem bind [IsTrans σ R] {f : α → EStateM ε σ β} (hx : Within R F x)
    (hf : ∀ a, Within R F (f a)) : Within R F (x >>= f) :=
  fun s => (hx s).bind fun a s' hs => ((hf a s').conseq (fun _ h => h)
    (fun _ _ h => trans_of R hs h) fun _ _ h => ⟨h.1, trans_of R hs h.2⟩) s' rfl

/-- A program that goes by the state. -/
theorem get_bind {f : σ → EStateM ε σ β} (hf : ∀ s, Within R F (f s)) :
    Within R F (MonadState.get >>= f) := by
  rintro s s' rfl
  exact hf s' s' s' rfl

theorem ite {p : Prop} [Decidable p] {y : EStateM ε σ α} (hx : p → Within R F x)
    (hy : ¬ p → Within R F y) : Within R F (if p then x else y) := by
  by_cases h : p
  · rw [if_pos h]
    exact hx h
  · rw [if_neg h]
    exact hy h

end Within

end LongJump
