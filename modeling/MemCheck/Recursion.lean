import Mathlib.Data.List.Induction
import MemCheck.Activations

/-!
# What the Recursion Flag Detects

`DoAddress` returns `1` at the entry of a function whose `m_Active` is set (the source's
`RECURSIVE`). The flag is a single boolean: every entry sets it and every return clears it,
however many activations are pending. So it says whether the function's last *passage* was an
entry (`HookTracks.active_iff`), which is a pending activation, but not the only one there can
be: once an inner activation has returned, the outer ones go undetected.

## Main results

* `HookTracks.active_step`: what one visit does to the flags;
* `recursion_detected_iff`: an entry is classified correctly exactly when no activation of the
  function is pending or the function's last passage was an entry.
-/

namespace MemCheck

/-- A hooked function is entered or returned from. -/
structure Passage where
  function : FunctionRef
  enters : Bool
  deriving DecidableEq, Repr

/-- The last passage of a function. -/
def lastPassage (f : FunctionRef) (ps : List Passage) : Option Passage :=
  ps.reverse.find? fun p => p.function = f

theorem lastPassage_append_of_eq {f : FunctionRef} {ps : List Passage} {p : Passage}
    (h : p.function = f) : lastPassage f (ps ++ [p]) = some p := by
  simp [lastPassage, h]

theorem lastPassage_append_of_ne {f : FunctionRef} {ps : List Passage} {p : Passage}
    (h : p.function ≠ f) : lastPassage f (ps ++ [p]) = lastPassage f ps := by
  simp [lastPassage, h]

section Passages

variable {τ σ : Type} [DecidableEq τ] (B : ShadowMemory.Balancer) (M : Machine σ)

/-- The passage a visit makes. -/
def Guest.passage (g : Guest τ) : Visit τ σ → Option Passage
  | .call _ f _ => some ⟨f, true⟩
  | .ret t _ => (g.pending.find? fun a => a.thread = t).map fun a => ⟨a.function, false⟩
  | .other _ _ => none

/-- The passages of a run, in order. -/
def Guest.passages (g : Guest τ) : List (Visit τ σ) → List Passage
  | [] => []
  | v :: visits => (g.passage v).toList ++ (g.step B M v).passages visits

theorem Guest.passages_append {g : Guest τ} (as bs : List (Visit τ σ)) :
    g.passages B M (as ++ bs) =
      g.passages B M as ++ (Run.final (Guest.step B M) g as).passages B M bs := by
  induction as generalizing g with
  | nil => rfl
  | cons a as ih =>
      rw [List.cons_append, passages, passages, ih, List.append_assoc, Run.final_cons]

theorem Guest.passages_concat {g : Guest τ} (as : List (Visit τ σ)) (v : Visit τ σ) :
    g.passages B M (as ++ [v]) = g.passages B M as ++
      ((Run.final (Guest.step B M) g as).passage v).toList := by
  rw [passages_append, passages, passages, List.append_nil]

end Passages

/-! ### One visit -/

section Step

variable {τ σ : Type} [DecidableEq τ] {B : ShadowMemory.Balancer} {M : Machine σ}
  {fs : List FunctionRef} {site : Addr32 → FunctionRef} {g : Guest τ}

theorem FunctionInterceptor.setActive_active (i : FunctionInterceptor)
    (f f' : FunctionRef) (active : Bool) :
    ((i.setActive f active).functions f').active =
      if f = f' then active else (i.functions f').active := by
  by_cases h : f = f'
  · subst h
    simp [setActive]
  · simp [setActive, h, Ne.symm h]

/-- The value returned for an entry is the flag. -/
theorem Kernel.enterFunction_ret_eq_one_iff {k : Kernel} {aoi : AddressOfInterest}
    {cpuState : σ} : (k.enterFunction B M aoi cpuState).ret = 1 ↔
      (k.object aoi.function).active = true := by
  simp only [Kernel.enterFunction]
  split_ifs with hk <;> simp [hk]

/-- **One visit** sets the flag of the function it enters, clears that of the function it
returns from, and touches no other. -/
theorem HookTracks.active_step {v : Visit τ σ} (h : HookTracks fs site g)
    (ha : g.Allowed M fs site v) (f : FunctionRef) :
    ((g.step B M v).kernel.object f).active =
      match g.passage v with
      | none => (g.kernel.object f).active
      | some p => if p.function = f then p.enters else (g.kernel.object f).active := by
  cases v with
  | call t f' cpuState =>
      obtain ⟨n, hentry⟩ := h.entry f' ha.1
      rw [Guest.step, Kernel.doAddress_of_function hentry rfl]
      exact FunctionInterceptor.setActive_active _ _ _ _
  | ret t cpuState =>
      obtain ⟨a, rest, hperm, hfind, herase⟩ := exists_activation ha
      simp only [Guest.step, Guest.passage, hfind, Option.map_some]
      rw [Kernel.doAddress_of_return (h.hook_of_pending hperm) rfl]
      exact FunctionInterceptor.setActive_active _ _ _ _
  | other pc cpuState =>
      rw [Guest.step, h.doAddress_other ha.1 ha.2]
      rfl

/-- The activations of a function after a visit that is no return from it. -/
theorem pending_step {v : Visit τ σ} {f : FunctionRef}
    (hv : ∀ p, g.passage v = some p → p.function = f → p.enters = true)
    (hf : ∃ a ∈ g.pending, a.function = f) :
    ∃ a ∈ (g.step B M v).pending, a.function = f := by
  obtain ⟨a, ha, haf⟩ := hf
  cases v with
  | call t f' cpuState => exact ⟨a, List.mem_cons_of_mem _ ha, haf⟩
  | other pc cpuState => exact ⟨a, ha, haf⟩
  | ret t cpuState =>
      by_cases ht : ∃ b ∈ g.pending, b.thread = t
      · obtain ⟨b, rest, hperm, hfind, herase⟩ := exists_activation ht
        simp only [Guest.step, hfind, herase]
        rcases List.mem_cons.mp (hperm.mem_iff.mp ha) with rfl | hrest
        · -- the activation that returns is not one of `f`
          have hpassage : g.passage (.ret t cpuState : Visit τ σ) = some ⟨a.function, false⟩ := by
            rw [Guest.passage, hfind]
            rfl
          exact absurd (hv _ hpassage haf) Bool.false_ne_true
        · exact ⟨a, hrest, haf⟩
      · have hfind : g.pending.find? (fun b => b.thread = t) = none := by
          rw [List.find?_eq_none]
          intro b hb hbt
          exact ht ⟨b, hb, of_decide_eq_true hbt⟩
        simp only [Guest.step, hfind]
        exact ⟨a, ha, haf⟩

end Step

/-! ### Whole runs -/

section Runs

variable {τ σ : Type} [DecidableEq τ] {B : ShadowMemory.Balancer} {M : Machine σ}
  {fs : List FunctionRef} {site : Addr32 → FunctionRef} {g : Guest τ}

/-- **The flag** is set exactly after an entry. -/
theorem HookTracks.active_iff {visits : List (Visit τ σ)} (h : HookTracks fs site g)
    (hrun : Run.Along (Guest.step B M) (Guest.Allowed M fs site) g visits) {f : FunctionRef}
    (hidle : (g.kernel.object f).active = false) :
    ((Run.final (Guest.step B M) g visits).kernel.object f).active = true ↔
      lastPassage f (g.passages B M visits) = some ⟨f, true⟩ := by
  induction visits using List.reverseRecOn with
  | nil => simp [Guest.passages, lastPassage, hidle]
  | append_singleton visits v ih =>
      obtain ⟨hpre, ha, -⟩ := Run.along_append.mp hrun
      rw [Run.final_append, Run.final_cons, Run.final_nil, (h.final hpre).active_step ha f,
        Guest.passages_concat]
      cases hp : (Run.final (Guest.step B M) g visits).passage v with
      | none => simpa using ih hpre
      | some p =>
          by_cases hf : p.function = f
          · rw [Option.toList_some, lastPassage_append_of_eq hf]
            subst hf
            cases p with
            | mk f' enters => simp
          · rw [Option.toList_some, lastPassage_append_of_ne hf]
            simpa only [if_neg hf] using ih hpre

/-- A function whose last passage was an entry has a pending activation. -/
theorem exists_pending_of_lastPassage {visits : List (Visit τ σ)} {f : FunctionRef}
    (hlast : lastPassage f (g.passages B M visits) = some ⟨f, true⟩) :
    ∃ a ∈ (Run.final (Guest.step B M) g visits).pending, a.function = f := by
  induction visits using List.reverseRecOn with
  | nil => simp [Guest.passages, lastPassage] at hlast
  | append_singleton visits v ih =>
      rw [Guest.passages_concat] at hlast
      rw [Run.final_append, Run.final_cons, Run.final_nil]
      cases hp : (Run.final (Guest.step B M) g visits).passage v with
      | none =>
          rw [hp, Option.toList_none, List.append_nil] at hlast
          exact pending_step (fun p hp' => absurd (hp.symm.trans hp') (by simp)) (ih hlast)
      | some p =>
          rw [hp, Option.toList_some] at hlast
          by_cases hf : p.function = f
          · rw [lastPassage_append_of_eq hf, Option.some.injEq] at hlast
            subst hlast
            -- only a call is an entry
            cases v with
            | call t f' cpuState =>
                obtain rfl : f' = f := congrArg Passage.function (Option.some.inj hp)
                exact ⟨_, List.mem_cons_self, rfl⟩
            | ret t cpuState =>
                obtain ⟨a, -, ha⟩ := Option.map_eq_some_iff.mp hp
                exact absurd (congrArg Passage.enters ha) Bool.false_ne_true
            | other pc cpuState => cases hp
          · rw [lastPassage_append_of_ne hf] at hlast
            refine pending_step (fun p' hp' hf' => ?_) (ih hlast)
            rw [hp, Option.some.injEq] at hp'
            exact absurd (hp' ▸ hf') hf

end Runs

/-- **What recursion detection detects.** At every call of a hooked function `f` in every run
of calls, returns and other visits of any number of threads: `DoAddress` returns `1` exactly
if an activation of `f` is pending, if and only if no activation of `f` is pending or the last
passage of `f` was an entry, that is, no activation of `f` has returned since `f` was last
called. -/
theorem recursion_detected_iff {τ σ : Type} [DecidableEq τ] (B : ShadowMemory.Balancer)
    (M : Machine σ) {functions : FunctionRef → FunctionObject} {fs : List FunctionRef}
    {site : Addr32 → FunctionRef} {c : Checker} (hidle : ∀ f ∈ fs, (functions f).active = false)
    {g₀ : Guest τ} (hg₀ : g₀ = ⟨⟨.register functions fs, c⟩, []⟩)
    {pre post : List (Visit τ σ)} {t : τ} {f : FunctionRef} {cpuState : σ}
    (hrun : Run.Along (Guest.step B M)
      (Guest.Allowed M (FunctionInterceptor.register functions fs).hooked site) g₀
      (pre ++ .call t f cpuState :: post))
    {g : Guest τ} (hg : g = Run.final (Guest.step B M) g₀ pre) :
    (((g.kernel.doAddress B M (g.kernel.object f).address cpuState).ret = 1 ↔
        ∃ a ∈ g.pending, a.function = f) ↔
      (∀ a ∈ g.pending, a.function ≠ f) ∨
        lastPassage f (g₀.passages B M pre) = some ⟨f, true⟩) := by
  obtain ⟨hpre, ⟨hf, -⟩, -⟩ := Run.along_append.mp hrun
  subst hg₀ hg
  have hstart : HookTracks (FunctionInterceptor.register functions fs).hooked site
      (⟨⟨.register functions fs, c⟩, []⟩ : Guest τ) := hookTracks_register
  have hstartIdle : ((FunctionInterceptor.register functions fs).functions f).active = false := by
    rw [functions_register_init]
    exact hidle f (mem_hooked_register.mp hf).1
  have hactive := hstart.active_iff hpre hstartIdle
  obtain ⟨n, hentry⟩ := (hstart.final hpre).entry f hf
  rw [Kernel.doAddress_of_function hentry rfl, Kernel.enterFunction_ret_eq_one_iff, hactive]
  constructor
  · intro hiff
    by_cases hex : ∃ a ∈ (Run.final (Guest.step B M)
        (⟨⟨.register functions fs, c⟩, []⟩ : Guest τ) pre).pending, a.function = f
    · exact Or.inr (hiff.mpr hex)
    · exact Or.inl fun a ha haf => hex ⟨a, ha, haf⟩
  · rintro (hno | hlast)
    · refine ⟨exists_pending_of_lastPassage, ?_⟩
      rintro ⟨a, ha, haf⟩
      exact absurd haf (hno a ha)
    · exact ⟨exists_pending_of_lastPassage, fun _ => hlast⟩

/-- The sample kernel before any call. -/
def idleGuest : Guest Unit :=
  ⟨⟨.register sampleFunctions [0, 1], Checker.init 0xc0400000⟩, []⟩

/-- The heap function is called from `0xc0200000` and calls itself. -/
def nestedCalls : List (Visit Unit CPUX86State) :=
  [.call () 0 (cpuAt 0xc0100000 0xc0200005), .call () 0 (cpuAt 0xc0100000 0xc0100025)]

theorem nestedCalls_allowed :
    Run.Along (Guest.step SearchTree.Balancer.id machineQEMU) (Guest.Allowed machineQEMU
      (FunctionInterceptor.register sampleFunctions [0, 1]).hooked fun _ => 0) idleGuest
      (nestedCalls ++ [.ret () (cpuAt 0xc0100025 0),
        .call () 0 (cpuAt 0xc0100000 0xc0100045)]) :=
  ⟨⟨by decide, rfl, by decide, by decide⟩, ⟨by decide, rfl, by decide, by decide⟩,
    ⟨_, List.mem_cons_self, rfl⟩, ⟨by decide, rfl, by decide, by decide⟩, trivial⟩

/-- The inner of the two calls is detected. -/
theorem recursion_detected_iff_direct :
    ((Run.final (Guest.step SearchTree.Balancer.id machineQEMU) idleGuest
        [.call () 0 (cpuAt 0xc0100000 0xc0200005)]).kernel.doAddress SearchTree.Balancer.id
          machineQEMU 0xc0100000 (cpuAt 0xc0100000 0xc0100025)).ret = 1 := by
  have hidle : ∀ f ∈ [0, 1], (sampleFunctions f).active = false := by simp [sampleFunctions]
  have hrun : Run.Along (Guest.step SearchTree.Balancer.id machineQEMU)
      (Guest.Allowed machineQEMU
        (FunctionInterceptor.register sampleFunctions [0, 1]).hooked fun _ => 0) idleGuest
      ([.call () 0 (cpuAt 0xc0100000 0xc0200005)] ++
        .call () 0 (cpuAt 0xc0100000 0xc0100025) :: [.ret () (cpuAt 0xc0100025 0),
          .call () 0 (cpuAt 0xc0100000 0xc0100045)]) := nestedCalls_allowed
  have hiff := recursion_detected_iff SearchTree.Balancer.id machineQEMU hidle rfl hrun rfl
  exact (hiff.mpr (Or.inr rfl)).mpr ⟨_, List.mem_cons_self, rfl⟩

/-- The inner call returns, and the function calls itself again: the outer call is pending,
and `DoAddress` returns `0`. -/
theorem recursion_missed_after_return :
    Run.Along (Guest.step SearchTree.Balancer.id machineQEMU) (Guest.Allowed machineQEMU
        (FunctionInterceptor.register sampleFunctions [0, 1]).hooked fun _ => 0) idleGuest
        (nestedCalls ++ [.ret () (cpuAt 0xc0100025 0),
          .call () 0 (cpuAt 0xc0100000 0xc0100045)]) ∧
      (Run.final (Guest.step SearchTree.Balancer.id machineQEMU) idleGuest
        (nestedCalls ++ [.ret () (cpuAt 0xc0100025 0)])).pending =
          [⟨(), 0, 0xc0200005⟩] ∧
      ((Run.final (Guest.step SearchTree.Balancer.id machineQEMU) idleGuest
        (nestedCalls ++ [.ret () (cpuAt 0xc0100025 0)])).kernel.doAddress
          SearchTree.Balancer.id machineQEMU 0xc0100000
          (cpuAt 0xc0100000 0xc0100045)).ret = 0 :=
  ⟨nestedCalls_allowed, rfl, rfl⟩

end MemCheck
