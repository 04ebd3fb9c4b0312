import Mathlib.Data.Finset.Basic
import Mathlib.Data.Finset.Lattice.Lemmas

/-!
# Backward Passes over Straight-Line Code

A pass that goes over straight-line code from back to front keeps the set of resources that
the operations behind it need. An operation none of whose results are needed is replaced by a
simpler one. What an operation reads and writes, and what it can be replaced by, is given by
tables.

When the code is run an operation may turn out to be *idle*: it then reads and writes nothing.
The pass cannot know, and takes what an idle operation writes for overwritten. What is needed
in a run is therefore more than what the pass takes to be live. Nor need everything be lost
that a replaced operation would have written: some of it may be known without it. The pass is
right for a run if nothing that is lost is needed there.

## Main results

* `pass_append`: a pass over two pieces of code;
* `pass_segment`: a pass over a segment with one operation the tables know;
* `deadWrites_of_active`: in a run without idle operations nothing that is lost is needed;
* `exists_of_not_deadWrites`: otherwise something is.
-/

namespace BackwardPass

/-- What the operations read, write, and can be replaced by. -/
structure Tables (Op F : Type) where
  reads : Op → Finset F
  writes : Op → Finset F
  simpler : Op → Option Op

variable {Op F : Type} [DecidableEq F]

namespace Tables

/-- The operation as the pass leaves it, if `live` is needed behind it. -/
def rewrite (T : Tables Op F) (live : Finset F) (o : Op) : Op :=
  if Disjoint live (T.writes o) then (T.simpler o).getD o else o

/-- What is needed before the operation, if `live` is needed behind it. -/
def before (T : Tables Op F) (live : Finset F) (o : Op) : Finset F :=
  (live \ T.writes o) ∪ T.reads o

/-- The tables do not know the operation. -/
structure Neutral (T : Tables Op F) (o : Op) : Prop where
  reads : T.reads o = ∅
  writes : T.writes o = ∅
  simpler : T.simpler o = none

end Tables

/-- The pass: the code it leaves, and what is needed before it. -/
def pass (T : Tables Op F) (ops : List Op) (live : Finset F) : List Op × Finset F :=
  ops.foldr (fun o r => (T.rewrite r.2 o :: r.1, T.before r.2 o)) ([], live)

section Pass

variable {T : Tables Op F} {live : Finset F}

theorem pass_cons (o : Op) (ops : List Op) (live : Finset F) :
    pass T (o :: ops) live =
      (T.rewrite (pass T ops live).2 o :: (pass T ops live).1,
        T.before (pass T ops live).2 o) := rfl

/-- The front is passed over with what the back needs. -/
theorem pass_append (a b : List Op) (live : Finset F) :
    pass T (a ++ b) live =
      ((pass T a (pass T b live).2).1 ++ (pass T b live).1, (pass T a (pass T b live).2).2) := by
  induction a with
  | nil => rfl
  | cons o a ih => rw [List.cons_append, pass_cons, ih, pass_cons, List.cons_append]

/-- An operation that there is nothing simpler for is left alone. -/
theorem rewrite_of_simpler {o : Op} (h : T.simpler o = none) : T.rewrite live o = o := by
  rw [Tables.rewrite, h, Option.getD_none, ite_self]

/-- Operations that the tables do not know are left alone. -/
theorem pass_neutral {ops : List Op} (h : ∀ o ∈ ops, T.Neutral o) :
    pass T ops live = (ops, live) := by
  induction ops with
  | nil => rfl
  | cons o ops ih =>
      obtain ⟨ho, hops⟩ := List.forall_mem_cons.mp h
      rw [pass_cons, ih hops, rewrite_of_simpler ho.simpler, Tables.before, ho.writes, ho.reads,
        Finset.sdiff_empty, Finset.union_empty]

/-- **A segment** with one operation that the tables know. -/
theorem pass_segment {pre post : List Op} (hpre : ∀ o ∈ pre, T.Neutral o)
    (hpost : ∀ o ∈ post, T.Neutral o) (o : Op) (live : Finset F) :
    pass T (pre ++ o :: post) live = (pre ++ T.rewrite live o :: post, T.before live o) := by
  rw [pass_append, pass_cons, pass_neutral hpost, pass_neutral hpre]

end Pass

/-! ### Runs -/

/-- What the tables say of an operation of a run, what is lost of its results if it is
replaced, and whether it is idle in the run. -/
structure Row (F : Type) where
  reads : Finset F
  writes : Finset F
  lost : Finset F
  lost_subset : lost ⊆ writes
  simplifies : Bool
  idle : Bool
  deriving DecidableEq

/-- The row of an operation. -/
def Tables.row (T : Tables Op F) (o : Op) {lost : Finset F} (h : lost ⊆ T.writes o)
    (idle : Bool) : Row F :=
  ⟨T.reads o, T.writes o, lost, h, (T.simpler o).isSome, idle⟩

namespace Row

/-- What the pass takes to be live before the operation. -/
def live (r : Row F) (out : Finset F) : Finset F := (out \ r.writes) ∪ r.reads

/-- What is needed before the operation in the run. -/
def needed (r : Row F) (out : Finset F) : Finset F := if r.idle then out else r.live out

/-- If the pass replaces the operation, nothing that is lost with it is needed in the run. -/
def DeadWrite (r : Row F) (live needed : Finset F) : Prop :=
  r.idle = false → r.simplifies = true → Disjoint live r.writes → Disjoint needed r.lost

instance (r : Row F) (live needed : Finset F) : Decidable (r.DeadWrite live needed) :=
  inferInstanceAs (Decidable (_ → _ → _ → _))

end Row

/-- What the pass takes to be live before the operations of a run. -/
def liveIn (rows : List (Row F)) (out : Finset F) : Finset F := rows.foldr Row.live out

/-- What is needed before the operations of a run. -/
def neededIn (rows : List (Row F)) (out : Finset F) : Finset F := rows.foldr Row.needed out

/-- **Nothing that is lost in the pass is needed** in the run. -/
def DeadWrites (out : Finset F) : List (Row F) → Prop
  | [] => True
  | r :: rows => r.DeadWrite (liveIn rows out) (neededIn rows out) ∧ DeadWrites out rows

instance decidableDeadWrites (out : Finset F) :
    (rows : List (Row F)) → Decidable (DeadWrites out rows)
  | [] => isTrue trivial
  | r :: rows =>
      have := decidableDeadWrites out rows
      inferInstanceAs
        (Decidable (r.DeadWrite (liveIn rows out) (neededIn rows out) ∧ DeadWrites out rows))

section Runs

variable {out : Finset F} {rows : List (Row F)} {r : Row F} {f : F}

namespace Row

theorem needed_of_idle (h : r.idle = true) : r.needed out = out := by
  rw [needed, if_pos h]

/-- What an operation overwrites is not needed before it. -/
theorem notMem_needed (hidle : r.idle = false) (hwrites : f ∈ r.writes) (hreads : f ∉ r.reads) :
    f ∉ r.needed out := by
  rw [needed, hidle, if_neg Bool.false_ne_true, live, Finset.mem_union, Finset.mem_sdiff]
  rintro (⟨-, h⟩ | h)
  · exact h hwrites
  · exact hreads h

/-- What is needed before an operation that does not read it is needed behind it. -/
theorem mem_of_mem_needed (h : f ∈ r.needed out) (hreads : f ∉ r.reads) : f ∈ out := by
  rw [needed] at h
  split_ifs at h
  · exact h
  · rw [live, Finset.mem_union, Finset.mem_sdiff] at h
    exact (h.resolve_right hreads).1

end Row

/-- If nothing is idle the pass knows what is needed. -/
theorem neededIn_of_active (h : ∀ r ∈ rows, r.idle = false) :
    neededIn rows out = liveIn rows out := by
  induction rows with
  | nil => rfl
  | cons r rows ih =>
      obtain ⟨hr, hrows⟩ := List.forall_mem_cons.mp h
      rw [neededIn, liveIn, List.foldr_cons, List.foldr_cons, ← neededIn, ← liveIn, ih hrows,
        Row.needed, hr, if_neg Bool.false_ne_true]

/-- **In a run without idle operations nothing that is lost is needed.** -/
theorem deadWrites_of_active (h : ∀ r ∈ rows, r.idle = false) : DeadWrites out rows := by
  induction rows with
  | nil => trivial
  | cons r rows ih =>
      obtain ⟨-, hrows⟩ := List.forall_mem_cons.mp h
      refine ⟨fun _ _ hdead => ?_, ih hrows⟩
      rw [neededIn_of_active hrows]
      exact hdead.mono_right r.lost_subset

/-- **Otherwise something that is lost is needed.** -/
theorem exists_of_not_deadWrites (h : ¬ DeadWrites out rows) :
    ∃ pre r post f, rows = pre ++ r :: post ∧ r.idle = false ∧ r.simplifies = true ∧
      Disjoint (liveIn post out) r.writes ∧ f ∈ neededIn post out ∧ f ∈ r.lost := by
  induction rows with
  | nil => exact absurd trivial h
  | cons r rows ih =>
      by_cases hrows : DeadWrites out rows
      · have hr : ¬ r.DeadWrite (liveIn rows out) (neededIn rows out) := fun hr => h ⟨hr, hrows⟩
        simp only [Row.DeadWrite, Classical.not_imp, Finset.not_disjoint_iff] at hr
        obtain ⟨hidle, hsimple, hdead, f, hneeded, hlost⟩ := hr
        exact ⟨[], r, rows, f, rfl, hidle, hsimple, hdead, hneeded, hlost⟩
      · obtain ⟨pre, r', post, f, rfl, hr'⟩ := ih hrows
        exact ⟨r :: pre, r', post, f, rfl, hr'⟩

end Runs

end BackwardPass
