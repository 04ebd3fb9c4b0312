import Mathlib.Logic.Relation
import MemCheck.CacheLinking

/-!
# Unchaining Blocks on Interrupts

While translated code is running, blocks that have been chained to one another never return to
`cpu_exec`. `cpu_interrupt` therefore calls `tb_reset_jump_recursive` for the block that is being
executed: its jumps are unchained, and so are those of the blocks they led to, and so on. The
chains may form cycles; each call unchains a jump before it goes on, so that the recursion is
no deeper than there are chained jumps.

## Main results

* `unchains_exactly_what_is_reached`: exactly the jumps of the blocks that could be reached are
  unchained.
-/

namespace MemCheck

open LinkedCells (Path Leads Lists)

/-! ### One jump -/

/-- The head of the list that a pointer leads through. -/
theorem listHead_eq {s : CodeCache} {t : TbPtr} {p : Option JmpPtr} {xs : List JmpPtr} {k : ℕ}
    (hp : Leads s.jmpCells id p xs (some (.jmpFirst t)))
    (hxs : ∀ x ∈ xs, ∃ tb n, x = .jmpNext tb n) (hk : xs.length < k) :
    s.listHead k p = some t := by
  induction xs generalizing k p with
  | nil =>
      obtain ⟨k, rfl⟩ : ∃ j, k = j + 1 := ⟨k - 1, by omega⟩
      have hp : p = some (.jmpFirst t) := hp
      rw [hp, CodeCache.listHead]
  | cons x xs ih =>
      obtain ⟨k, rfl⟩ : ∃ j, k = j + 1 := ⟨k - 1, by omega⟩
      obtain ⟨⟨tb, n, rfl⟩, hxs'⟩ := List.forall_mem_cons.mp hxs
      obtain ⟨rfl, hp⟩ := hp
      rw [CodeCache.listHead]
      exact ih hp hxs' (Nat.lt_of_succ_lt_succ hk)

/-- The layout with a jump unchained. -/
def CacheLayout.unchain (L : CacheLayout) (tb : TbPtr) (n : Slot) : CacheLayout :=
  { L with jumps := fun t => (L.jumps t).erase (.jmpNext tb n) }

namespace Shape

variable {s : CodeCache} {L : CacheLayout} {t tb : TbPtr} {n : Slot}

/-- The block a chained jump leads to. -/
theorem listHead (h : Shape s L) (ht : .jmpNext tb n ∈ L.jumps t) :
    s.listHead s.walkBound (s.jmpCells (.jmpNext tb n)) = some t := by
  obtain ⟨ys, zs, heq⟩ := List.append_of_mem ht
  have hpath := h.jmp.lists.path t (h.jmp.lists.mem_dom t _ ht)
  rw [heq] at hpath
  have hlen := h.jmp.length_lt h.known_lt t
  rw [heq, List.length_append, List.length_cons] at hlen
  refine listHead_eq (LinkedCells.path_iff_leads.mp (LinkedCells.path_append.mp hpath).2)
    (fun x hx => h.jmp.eq_jmpNext (t := t) ?_) (by rw [CodeCache.walkBound]; omega)
  rw [heq]
  exact List.mem_append_right _ (List.mem_cons_of_mem _ hx)

/-- A jump that is chained is unchained and reset. -/
theorem unchain (h : Shape s L) (ht : .jmpNext tb n ∈ L.jumps t) :
    ∃ s', s.unchain tb n = some (s', some t) ∧ Shape s' (L.unchain tb n) ∧
      s' = { s with jmpCells := s'.jmpCells, tbNext := s'.tbNext } := by
  obtain ⟨y, hy⟩ := Option.ne_none_iff_exists'.mp (h.jmp.ne_none ht)
  have hhead := h.listHead ht
  rw [hy] at hhead
  obtain ⟨c, z, hfind, hz, hc, -, hlists⟩ := h.jmp.lists.find_remove Function.injective_id
    jmpFirst_injective (h.jmp.lists.mem_dom t _ ht) (p := fun x => x == .jmpNext tb n) ht
    (beq_self_eq_true _) (h.jmp.length_lt h.known_lt t)
  obtain rfl : z = .jmpNext tb n := eq_of_beq hz
  rw [← List.erase_eq_eraseP'] at hlists
  have hrun : s.unchain tb n = some (((s.writeJmp c (s.jmpCells (.jmpNext tb n))).writeJmp
      (.jmpNext tb n) none).tbResetJump tb n, some t) := by
    have hfind' : LinkedCells.find s.jmpCells id (fun x => x == JmpPtr.jmpNext tb n) s.walkBound
        (.jmpFirst t) = some (c, .jmpNext tb n) := hfind
    rw [CodeCache.unchain, hy]
    simp only [Option.bind_eq_bind, hhead, Option.bind_some, hfind']
  have hne : ∀ t' a m, .jmpNext a m ∈ (L.jumps t').erase (.jmpNext tb n) → (a, m) ≠ (tb, n) := by
    rintro t' a m hmem ⟨⟩
    exact (h.jmp.lists.nodup t').not_mem_erase hmem
  refine ⟨_, hrun, ⟨h.known_lt, h.live_known, ⟨h.hash.lists, h.hash.mem⟩,
    ⟨h.page.lists, h.page.mem, h.page.spaced⟩, h.jmp.cleared ht hc hlists, fun t' x hx => ?_,
    h.first, fun t' a m hx => ?_, fun a ha m hm hoff => ?_, h.cached⟩, rfl⟩
  · exact h.jumps_live t' x (List.mem_of_mem_erase hx)
  · refine (Function.update_of_ne (hne t' a m hx) _ _).trans ?_
    exact h.target t' a m (List.mem_of_mem_erase hx)
  · by_cases heq : (a, m) = (tb, n)
    · obtain ⟨rfl, rfl⟩ := Prod.mk.inj heq
      exact Function.update_self _ _ _
    · refine (Function.update_of_ne heq _ _).trans (h.reset a ha m (fun t' ht' => ?_) hoff)
      have hne' : JmpPtr.jmpNext a m ≠ .jmpNext tb n := by
        rintro ⟨⟩
        exact heq rfl
      exact hm t' ((List.mem_erase_of_ne hne').mpr ht')

/-- A jump that is not chained is left alone. -/
theorem unchain_none (h : Shape s L) (htb : tb ∈ L.known) (hnot : ∀ t, .jmpNext tb n ∉ L.jumps t) :
    s.unchain tb n = some (s, none) := by
  rw [CodeCache.unchain, h.jmp.unchained tb htb n hnot]

end Shape

/-! ### The recursion -/

namespace CacheLayout

/-- A jump of `a` is chained to `t`. -/
def Chained (L : CacheLayout) (a t : TbPtr) : Prop := ∃ n, .jmpNext a n ∈ L.jumps t

/-- Without returning to `cpu_exec`, execution can get from `a` to `t`. -/
def Reaches (L : CacheLayout) : TbPtr → TbPtr → Prop := Relation.ReflTransGen L.Chained

theorem Reaches.mono {L L' : CacheLayout} (h : ∀ t x, x ∈ L'.jumps t → x ∈ L.jumps t)
    {a t : TbPtr} (hr : L'.Reaches a t) : L.Reaches a t :=
  Relation.ReflTransGen.mono (fun _ b ⟨n, hn⟩ => ⟨n, h b _ hn⟩) _ _ hr

/-- No jump of the block is chained. -/
def Free (L : CacheLayout) (a : TbPtr) : Prop := ∀ n t, .jmpNext a n ∉ L.jumps t

/-- All chained jumps are among `xs`. -/
def Within (L : CacheLayout) (xs : List PagePtr) : Prop :=
  ∀ t a n, .jmpNext a n ∈ L.jumps t → (a, n) ∈ xs

end CacheLayout

/-- Only jumps of blocks in `R` have been unchained, and the blocks they led to are free. -/
structure Trimmed (L L' : CacheLayout) (R : TbPtr → Prop) : Prop where
  eq : L' = { L with jumps := L'.jumps }
  sub : ∀ t x, x ∈ L'.jumps t → x ∈ L.jumps t
  removed : ∀ t a n, .jmpNext a n ∈ L.jumps t → .jmpNext a n ∉ L'.jumps t → R a ∧ L'.Free t

namespace Trimmed

variable {L L₁ L₂ : CacheLayout} {R R' : TbPtr → Prop} {a t : TbPtr} {xs : List PagePtr}

theorem refl (L : CacheLayout) : Trimmed L L R :=
  ⟨rfl, fun _ _ => id, fun _ _ _ h h' => absurd h h'⟩

theorem free (h : Trimmed L L₁ R) (hfree : L.Free a) : L₁.Free a :=
  fun n t hmem => hfree n t (h.sub t _ hmem)

theorem within (h : Trimmed L L₁ R) (hxs : L.Within xs) : L₁.Within xs :=
  fun t a n hmem => hxs t a n (h.sub t _ hmem)

theorem trans (h : Trimmed L L₁ R) (h' : Trimmed L₁ L₂ R') (hR : ∀ a, R' a → R a) :
    Trimmed L L₂ R := by
  refine ⟨?_, fun t x hx => h.sub t x (h'.sub t x hx), fun t a n hL hL₂ => ?_⟩
  · rw [h'.eq, h.eq]
  · by_cases hL₁ : .jmpNext a n ∈ L₁.jumps t
    · obtain ⟨hr, hfree⟩ := h'.removed t a n hL₁ hL₂
      exact ⟨hR a hr, hfree⟩
    · obtain ⟨hr, hfree⟩ := h.removed t a n hL hL₁
      exact ⟨hr, h'.free hfree⟩

/-- Every block that could be reached from a free one is free. -/
theorem free_of_reaches (h : Trimmed L L₁ R) (hfree : L₁.Free a) (hr : L.Reaches a t) :
    L₁.Free t := by
  induction hr with
  | refl => exact hfree
  | tail _ hstep ih =>
      obtain ⟨n, hn⟩ := hstep
      exact (h.removed _ _ n hn (ih n _)).2

end Trimmed

section Recursion

variable {s : CodeCache} {L : CacheLayout} {tb : TbPtr}

/-- What a call for a block does. -/
def Resets (reset : CodeCache → TbPtr → Option CodeCache) (s : CodeCache) (L : CacheLayout)
    (tb : TbPtr) : Prop :=
  ∃ s' L', reset s tb = some s' ∧ Shape s' L' ∧ Trimmed L L' (L.Reaches tb) ∧ L'.Free tb ∧
    s' = { s with jmpCells := s'.jmpCells, tbNext := s'.tbNext }

/-- One jump and what can be reached through it. -/
theorem Shape.tbResetJumpRecursive2 (h : Shape s L) (htb : tb ∈ L.known) (n : Slot)
    {reset : CodeCache → TbPtr → Option CodeCache}
    (hreset : ∀ s' L' t, L' = L.unchain tb n → Shape s' L' → .jmpNext tb n ∈ L.jumps t →
      Resets reset s' L' t) :
    ∃ s' L', s.tbResetJumpRecursive2 reset tb n = some s' ∧ Shape s' L' ∧
      Trimmed L L' (L.Reaches tb) ∧ (∀ t, .jmpNext tb n ∉ L'.jumps t) ∧
      s' = { s with jmpCells := s'.jmpCells, tbNext := s'.tbNext } := by
  by_cases hex : ∃ t, .jmpNext tb n ∈ L.jumps t
  · obtain ⟨t, ht⟩ := hex
    obtain ⟨s₁, hs₁, hshape₁, heq₁⟩ := h.unchain ht
    obtain ⟨s₂, L₂, hs₂, hshape₂, htrim, hfree, heq₂⟩ := hreset s₁ _ t rfl hshape₁ ht
    have hsub : ∀ t' x, x ∈ (L.unchain tb n).jumps t' → x ∈ L.jumps t' := fun t' x hx =>
      List.mem_of_mem_erase hx
    have hnot : ∀ t', .jmpNext tb n ∉ L₂.jumps t' := fun t' hmem =>
      (h.jmp.lists.nodup t').not_mem_erase (htrim.sub t' _ hmem)
    refine ⟨s₂, L₂, ?_, hshape₂, ⟨htrim.eq, fun t' x hx => hsub t' x (htrim.sub t' x hx),
      fun t' a m hL hL₂ => ?_⟩, hnot, ?_⟩
    · rw [CodeCache.tbResetJumpRecursive2, hs₁]
      exact hs₂
    · by_cases hne : JmpPtr.jmpNext a m = .jmpNext tb n
      · -- the jump itself: what it led to has been freed
        obtain ⟨rfl, rfl⟩ := JmpPtr.jmpNext.inj hne
        obtain rfl := h.jmp.lists.unique t t' _ ht hL
        exact ⟨.refl, hfree⟩
      · obtain ⟨hr, hfree'⟩ :=
          htrim.removed t' a m ((List.mem_erase_of_ne hne).mpr hL) hL₂
        exact ⟨.head ⟨n, ht⟩ (hr.mono hsub), hfree'⟩
    · rw [heq₂, heq₁]
  · have hnot := not_exists.mp hex
    refine ⟨s, L, ?_, h, .refl L, hnot, rfl⟩
    rw [CodeCache.tbResetJumpRecursive2, h.unchain_none htb hnot]
    rfl

/-- Both jumps of a block. -/
theorem Shape.resets_step (h : Shape s L) (htb : tb ∈ L.known) {xs : List PagePtr}
    (hxs : L.Within xs) {reset : CodeCache → TbPtr → Option CodeCache}
    (hreset : ∀ s' L' t n, Shape s' L' → t ∈ L'.known → (tb, n) ∈ xs →
      L'.Within (xs.erase (tb, n)) → Resets reset s' L' t) :
    Resets (fun s tb => do
      let s ← s.tbResetJumpRecursive2 reset tb .zero
      s.tbResetJumpRecursive2 reset tb .one) s L tb := by
  -- what is left to unchain once one jump is
  have hslot : ∀ s L, Shape s L → L.Within xs → ∀ n, ∀ s' L' t, L' = L.unchain tb n →
      Shape s' L' → .jmpNext tb n ∈ L.jumps t → Resets reset s' L' t := by
    intro s L h hxs n s' L' t hL' hshape ht
    subst hL'
    refine hreset s' _ t n hshape (h.jmp.lists.mem_dom t _ ht) (hxs t tb n ht) ?_
    intro t' a m hmem
    have hne : (a, m) ≠ (tb, n) := by
      rintro ⟨⟩
      exact (h.jmp.lists.nodup t').not_mem_erase hmem
    exact (List.mem_erase_of_ne hne).mpr (hxs t' a m (List.mem_of_mem_erase hmem))
  obtain ⟨s₁, L₁, hs₁, hshape₁, htrim₁, hnot₁, heq₁⟩ :=
    h.tbResetJumpRecursive2 htb .zero (hslot s L h hxs .zero)
  have htb₁ : tb ∈ L₁.known := by
    rw [htrim₁.eq]
    exact htb
  obtain ⟨s₂, L₂, hs₂, hshape₂, htrim₂, hnot₂, heq₂⟩ :=
    hshape₁.tbResetJumpRecursive2 htb₁ .one (hslot s₁ L₁ hshape₁ (htrim₁.within hxs) .one)
  refine ⟨s₂, L₂, ?_, hshape₂, htrim₁.trans htrim₂ fun a hr => hr.mono htrim₁.sub,
    fun n t hmem => ?_, ?_⟩
  · simp only [hs₁, Option.bind_eq_bind, Option.bind_some, hs₂]
  · cases n with
    | zero => exact hnot₁ t (htrim₂.sub t _ hmem)
    | one => exact hnot₂ t hmem
  · rw [heq₂, heq₁]

/-- The recursion is no deeper than there are chained jumps. -/
theorem Shape.resets (h : Shape s L) (htb : tb ∈ L.known) {xs : List PagePtr} {k : ℕ}
    (hxs : L.Within xs) (hk : xs.length ≤ k) :
    Resets (CodeCache.tbResetJumpRecursive (k + 1)) s L tb := by
  induction k generalizing s L tb xs with
  | zero =>
      refine h.resets_step htb hxs fun s' L' t n _ _ hmem _ => ?_
      rw [List.eq_nil_of_length_eq_zero (Nat.le_zero.mp hk)] at hmem
      exact absurd hmem List.not_mem_nil
  | succ k ih =>
      refine h.resets_step htb hxs fun s' L' t n hshape ht hmem hxs' => ih hshape ht hxs' ?_
      rw [List.length_erase_of_mem hmem]
      omega

theorem Shape.resets_depthBound (h : Shape s L) (htb : tb ∈ L.known) :
    Resets (CodeCache.tbResetJumpRecursive s.depthBound) s L tb := by
  have hxs : L.Within (slots s.nbTbs) := fun t a n hmem =>
    mem_slots (h.known_lt a (h.jmp.source t a n hmem))
  exact h.resets htb hxs (k := 2 * s.nbTbs) (by rw [length_slots]; omega)

end Recursion

/-! ### The state -/

/-- The block that a jump has been chained to. -/
def CodeCache.chainedTo (s : CodeCache) (tb : TbPtr) (n : Slot) : Option TbPtr :=
  s.listHead s.walkBound (s.jmpCells (.jmpNext tb n))

/-- Execution gets from `a` to `b` without returning to `cpu_exec`. -/
def CodeCache.RunsInto (s : CodeCache) : TbPtr → TbPtr → Prop :=
  Relation.ReflTransGen fun a b => ∃ n, s.chainedTo a n = some b

section State

variable {s : CodeCache} {L : CacheLayout} {t tb : TbPtr} {n : Slot}

/-- The lists say which block a jump is chained to. -/
theorem Shape.chainedTo_eq_some (h : Shape s L) (htb : tb ∈ L.known) :
    s.chainedTo tb n = some t ↔ .jmpNext tb n ∈ L.jumps t := by
  refine ⟨fun heq => ?_, h.listHead⟩
  have hne : s.jmpCells (.jmpNext tb n) ≠ none := by
    intro hnone
    rw [CodeCache.chainedTo, hnone, CodeCache.walkBound, CodeCache.listHead] at heq
    cases heq
  obtain ⟨t', ht'⟩ := h.jmp.exists_of_ne_none htb hne
  obtain rfl := Option.some.inj (heq.symm.trans (h.listHead ht'))
  exact ht'

theorem Shape.runsInto_iff (h : Shape s L) (htb : tb ∈ L.known) :
    s.RunsInto tb t ↔ L.Reaches tb t := by
  constructor
  · intro hr
    -- what is reached is known
    have hboth : L.Reaches tb t ∧ t ∈ L.known := by
      induction hr with
      | refl => exact ⟨.refl, htb⟩
      | tail _ hstep ih =>
          obtain ⟨n, hn⟩ := hstep
          have hmem := (h.chainedTo_eq_some ih.2).mp hn
          exact ⟨ih.1.tail ⟨n, hmem⟩, h.jmp.lists.mem_dom _ _ hmem⟩
    exact hboth.1
  · intro hr
    induction hr with
    | refl => exact .refl
    | tail _ hstep ih =>
        obtain ⟨n, hn⟩ := hstep
        exact ih.tail ⟨n, h.listHead hn⟩

/-- **On an interrupt** exactly the jumps of the blocks that execution could get to are
unchained. -/
theorem unchains_exactly_what_is_reached (h : Shape s L) (htb : tb ∈ L.known) :
    ∃ s' L', CodeCache.tbResetJumpRecursive s.depthBound s tb = some s' ∧ Shape s' L' ∧
      L' = { L with jumps := L'.jumps } ∧
      s' = { s with jmpCells := s'.jmpCells, tbNext := s'.tbNext } ∧
      ∀ a ∈ L.known, ∀ n, (s.RunsInto tb a → s'.chainedTo a n = none) ∧
        (¬ s.RunsInto tb a → s'.chainedTo a n = s.chainedTo a n) := by
  obtain ⟨s', L', hs', hshape, htrim, hfree, heq⟩ := h.resets_depthBound htb
  refine ⟨s', L', hs', hshape, htrim.eq, heq, fun a ha n => ?_⟩
  have ha' : a ∈ L'.known := by
    rw [htrim.eq]
    exact ha
  refine ⟨fun hr => ?_, fun hr => Option.ext fun t => ?_⟩
  · refine Option.eq_none_iff_forall_ne_some.mpr fun t ht => ?_
    exact htrim.free_of_reaches hfree ((h.runsInto_iff htb).mp hr) n t
      ((hshape.chainedTo_eq_some ha').mp ht)
  · rw [hshape.chainedTo_eq_some ha', h.chainedTo_eq_some ha]
    refine ⟨htrim.sub t _, fun hmem => ?_⟩
    by_contra hnot
    exact hr ((h.runsInto_iff htb).mpr (htrim.removed t a n hmem hnot).1)

end State

/-- The first of two blocks chained to the second, and the second to itself. -/
def CodeCache.loop : CodeCache := (CodeCache.pair.tbAddJump 0 .zero 1).tbAddJump 1 .one 1

def CacheLayout.loop : CacheLayout := (CacheLayout.pair.chain 0 .zero 1).chain 1 .one 1

theorem shape_loop : Shape CodeCache.loop CacheLayout.loop := by
  have hone : (1 : TbPtr) ∈ CacheLayout.pair.live := .inl rfl
  have hzero : (0 : TbPtr) ∈ CacheLayout.pair.known := .inr (.inl rfl)
  have hfirst : Shape (CodeCache.pair.tbAddJump 0 .zero 1) (CacheLayout.pair.chain 0 .zero 1) :=
    shape_pair.tbAddJump hzero hone
  exact hfirst.tbAddJump (.inl rfl) hone

/-- The recursion ends although the chains form a cycle. -/
theorem unchains_exactly_what_is_reached_loop :
    CodeCache.loop.chainedTo 1 .one = some 1 ∧
      ∃ s' L', CodeCache.tbResetJumpRecursive CodeCache.loop.depthBound CodeCache.loop 0 =
          some s' ∧ Shape s' L' ∧ L' = { CacheLayout.loop with jumps := L'.jumps } ∧
        s' = { CodeCache.loop with jmpCells := s'.jmpCells, tbNext := s'.tbNext } ∧
        ∀ a ∈ CacheLayout.loop.known, ∀ n,
          (CodeCache.loop.RunsInto 0 a → s'.chainedTo a n = none) ∧
          (¬ CodeCache.loop.RunsInto 0 a → s'.chainedTo a n = CodeCache.loop.chainedTo a n) :=
  ⟨by decide, unchains_exactly_what_is_reached shape_loop (.inr (.inl rfl))⟩

end MemCheck
