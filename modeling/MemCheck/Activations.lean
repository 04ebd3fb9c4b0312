import MemCheck.Interceptor
import MemCheck.Lib.Writes

/-!
# Hooks and Gate Track the Pending Activations

Several kernel threads call hooked functions, arbitrarily interleaved. An *activation* is a
call that has not returned; the pending activations of all threads are kept in one list,
the most recent first. A call runs `DoAddress` at the entry of the function, a return runs
it at the return address of the thread's most recent activation, and every other program
counter visited is neither a hooked entry nor the return address of a pending activation.

Under the assumptions of `Guest.Allowed` the interceptor's table is a function of the pending
activations (`HookTracks`): the hook at `R` counts the activations that return to `R`. So is
the access gate (`Tracks`): it is closed exactly while an activation of a heap function is
pending, with the depth one less than their number.

Nothing in the source ties a visit of a hooked return address to the thread or the frame
that is returning: the last section says what every such visit does.

## Main results

* `HookTracks.step`, `Tracks.step`: one step;
* `hooks_track_activations`: whole runs;
* `Kernel.hook_doAddress`: one visit, and the ledger of the hook at one address;
* `hook_ended_by_visits_only`: that hook under arbitrary visits.
-/

namespace MemCheck

open Writes

/-! ### The gate as a counter -/

/-- The gate is closed by `n` nested disablings. -/
structure Gate (c : Checker) (n : ℕ) : Prop where
  disable : c.memoryAccessDisable = decide (0 < n)
  depth : c.memoryAccessDepth.toNat = n - 1

theorem Gate.memoryAccessDisable {c : Checker} {n : ℕ} (h : Gate c n) (hn : n < 2 ^ 32) :
    Gate (memoryAccessDisable c) (n + 1) := by
  by_cases hpos : 0 < n
  · have hdis : c.memoryAccessDisable = true := h.disable.trans (decide_eq_true hpos)
    rw [MemCheck.memoryAccessDisable, if_pos hdis]
    refine ⟨by simp [hdis], ?_⟩
    have hone : (1 : UInt32).toNat = 1 := rfl
    simp only [UInt32.toNat_add, h.depth, hone]
    omega
  · have hdis : c.memoryAccessDisable = false := h.disable.trans (decide_eq_false hpos)
    rw [MemCheck.memoryAccessDisable, if_neg (by simp [hdis])]
    refine ⟨by simp, ?_⟩
    have := h.depth
    simp only
    omega

theorem Gate.memoryAccessEnable {c : Checker} {n : ℕ} (h : Gate c (n + 1)) :
    Gate (memoryAccessEnable c) n := by
  have hdepth : c.memoryAccessDepth.toNat = n := h.depth
  by_cases hpos : n = 0
  · have hzero : c.memoryAccessDepth = 0 := UInt32.toNat_inj.mp (hdepth.trans hpos)
    rw [MemCheck.memoryAccessEnable, if_neg (not_not.mpr hzero)]
    exact ⟨by simp [hpos], by simp [hzero, hpos]⟩
  · have hne : c.memoryAccessDepth ≠ 0 := by
      intro hzero
      rw [hzero, UInt32.toNat_zero] at hdepth
      exact hpos hdepth.symm
    rw [MemCheck.memoryAccessEnable, if_pos hne]
    refine ⟨?_, ?_⟩
    · simp only [h.disable, decide_eq_decide]
      omega
    · have hone : (1 : UInt32) ≤ c.memoryAccessDepth := by
        rw [UInt32.le_iff_toNat_le, hdepth]
        exact Nat.one_le_iff_ne_zero.mpr hpos
      simp only [UInt32.toNat_sub_of_le _ _ hone, hdepth]
      rfl

/-- Only a heap function closes the gate. -/
theorem Gate.enter {σ : Type} {B : ShadowMemory.Balancer} {M : Machine σ}
    {kind : FunctionClass} {c : Checker} {n : ℕ} (h : Gate c n) (hn : n < 2 ^ 32)
    (cpuState : σ) :
    Gate (kind.enter B M c cpuState).1
      (if kind = .linuxKernelHeapFunction then n + 1 else n) := by
  cases kind with
  | linuxKernelHeapFunction => exact h.memoryAccessDisable hn
  | linuxKernelEnableMemoryAccess => exact h
  | memCheckAlloc => exact ⟨h.disable, h.depth⟩
  | memCheckFree => exact ⟨h.disable, h.depth⟩
  | memCheckFreeSize => exact ⟨h.disable, h.depth⟩
  | memCheckFreeAnySize => exact ⟨h.disable, h.depth⟩

/-- Only a heap function, among those in use, opens the gate. -/
theorem Gate.leave {kind : FunctionClass} {c : Checker} {n : ℕ}
    (h : Gate c (if kind = .linuxKernelHeapFunction then n + 1 else n))
    (hkind : kind ≠ .linuxKernelEnableMemoryAccess) : Gate (kind.leave c) n := by
  cases kind with
  | linuxKernelHeapFunction => exact h.memoryAccessEnable
  | linuxKernelEnableMemoryAccess => exact absurd rfl hkind
  | memCheckAlloc => exact h
  | memCheckFree => exact h
  | memCheckFreeSize => exact h
  | memCheckFreeAnySize => exact h

/-! ### Activations -/

/-- A pending call: who made it, of which hooked function, and where it returns. -/
structure Activation (τ : Type) where
  thread : τ
  function : FunctionRef
  returnAddress : Addr32
  deriving DecidableEq, Repr

/-- The interceptor together with the pending activations, most recent first. -/
structure Guest (τ : Type) where
  kernel : Kernel
  pending : List (Activation τ)

/-- One visit of the program counter: a call of a hooked function, a return from one, or
anything else. -/
inductive Visit (τ σ : Type) where
  | call (t : τ) (f : FunctionRef) (cpuState : σ)
  | ret (t : τ) (cpuState : σ)
  | other (pc : Addr32) (cpuState : σ)

section Steps

variable {τ σ : Type} [DecidableEq τ] (B : ShadowMemory.Balancer) (M : Machine σ)

/-- The effect of a visit. A return ends the thread's most recent activation. -/
def Guest.step (g : Guest τ) : Visit τ σ → Guest τ
  | .call t f cpuState =>
      ⟨(g.kernel.doAddress B M (g.kernel.object f).address cpuState).kernel,
        ⟨t, f, M.getReturnAddress cpuState⟩ :: g.pending⟩
  | .ret t cpuState =>
      match g.pending.find? (fun a => a.thread = t) with
      | none => g
      | some a =>
          ⟨(g.kernel.doAddress B M a.returnAddress cpuState).kernel,
            g.pending.eraseP (fun a => a.thread = t)⟩
  | .other pc cpuState => ⟨(g.kernel.doAddress B M pc cpuState).kernel, g.pending⟩

/-- The visits considered, for the hooked functions `fs` and the function `site R` whose
call sites return to `R`: a return address belongs to call sites of a single hooked function
and is no hooked entry, returns match pending calls, fewer than `2 ^ 32` activations are
pending, and other visits are at no hooked entry and no pending return address. -/
def Guest.Allowed (fs : List FunctionRef) (site : Addr32 → FunctionRef) (g : Guest τ) :
    Visit τ σ → Prop
  | .call _ f cpuState =>
      f ∈ fs ∧ site (M.getReturnAddress cpuState) = f ∧
        (∀ f' ∈ fs, (g.kernel.object f').address ≠ M.getReturnAddress cpuState) ∧
        g.pending.length + 1 < 2 ^ 32
  | .ret t _ => ∃ a ∈ g.pending, a.thread = t
  | .other pc _ =>
      (∀ f ∈ fs, (g.kernel.object f).address ≠ pc) ∧
        ∀ a ∈ g.pending, a.returnAddress ≠ pc

end Steps

section Tracks

variable {τ σ : Type}

/-- The number of pending activations that return to `R`. -/
def returningTo (pending : List (Activation τ)) (R : Addr32) : ℕ :=
  pending.countP fun a => a.returnAddress = R

/-- The number of pending activations of heap functions. -/
def heapPending (k : Kernel) (pending : List (Activation τ)) : ℕ :=
  pending.countP fun a => (k.object a.function).kind = .linuxKernelHeapFunction

/-- The hook at `R` that `n` activations of `f` make. -/
def hookOf (R : Addr32) (f : FunctionRef) (n : ℕ) : Option AddressOfInterest :=
  if n = 0 then none else some ⟨.returnAddress, R, UInt32.ofNat n, f⟩

/-- The table is that of the pending activations. -/
structure HookTracks (fs : List FunctionRef) (site : Addr32 → FunctionRef) (g : Guest τ) :
    Prop where
  entry : ∀ f ∈ fs, ∃ n, g.kernel.interceptor.addressOfInterestMap
    (g.kernel.object f).address = some ⟨.function, (g.kernel.object f).address, n, f⟩
  hook : ∀ R, (∀ f ∈ fs, (g.kernel.object f).address ≠ R) →
    g.kernel.interceptor.addressOfInterestMap R = hookOf R (site R) (returningTo g.pending R)
  pending : ∀ a ∈ g.pending, a.function ∈ fs ∧ site a.returnAddress = a.function ∧
    ∀ f ∈ fs, (g.kernel.object f).address ≠ a.returnAddress
  bound : g.pending.length < 2 ^ 32

/-- The table and the gate are those of the pending activations. -/
structure Tracks (fs : List FunctionRef) (site : Addr32 → FunctionRef) (g : Guest τ) : Prop
    extends HookTracks fs site g where
  kind : ∀ f ∈ fs, (g.kernel.object f).kind ≠ .linuxKernelEnableMemoryAccess
  gate : Gate g.kernel.memCheck (heapPending g.kernel g.pending)

variable {a : Activation τ} {pending rest : List (Activation τ)} {R : Addr32}

theorem returningTo_cons_of_eq (h : a.returnAddress = R) :
    returningTo (a :: pending) R = returningTo pending R + 1 := by
  simp [returningTo, h]

theorem returningTo_cons_of_ne (h : R ≠ a.returnAddress) :
    returningTo (a :: pending) R = returningTo pending R := by
  simp [returningTo, h.symm]

theorem heapPending_cons (k : Kernel) (a : Activation τ) (pending : List (Activation τ)) :
    heapPending k (a :: pending) =
      if (k.object a.function).kind = .linuxKernelHeapFunction
        then heapPending k pending + 1 else heapPending k pending := by
  simp only [heapPending, List.countP_cons, decide_eq_true_eq]
  split_ifs <;> rfl

theorem returningTo_perm (h : pending.Perm rest) : returningTo pending R = returningTo rest R :=
  h.countP_eq _

theorem heapPending_perm (k : Kernel) (h : pending.Perm rest) :
    heapPending k pending = heapPending k rest :=
  h.countP_eq _

end Tracks

/-! ### What a visit does -/

section Visits

variable {σ : Type} {B : ShadowMemory.Balancer} {M : Machine σ} {k : Kernel} {pc : Addr32}
  {aoi : AddressOfInterest} {cpuState : σ}

theorem Kernel.doAddress_of_none (h : k.interceptor.addressOfInterestMap pc = none) :
    k.doAddress B M pc cpuState = ⟨0, k, []⟩ := by
  simp only [doAddress, h]

theorem Kernel.doAddress_of_return (h : k.interceptor.addressOfInterestMap pc = some aoi)
    (ht : aoi.type = .returnAddress) :
    k.doAddress B M pc cpuState = k.leaveFunction M pc aoi cpuState := by
  simp only [doAddress, h, ht]

theorem Kernel.doAddress_of_function (h : k.interceptor.addressOfInterestMap pc = some aoi)
    (ht : aoi.type = .function) :
    k.doAddress B M pc cpuState = k.enterFunction B M aoi cpuState := by
  simp only [doAddress, h, ht]

/-- No visit moves a function object or changes its class. -/
theorem Kernel.doAddress_object (f : FunctionRef) :
    ((k.doAddress B M pc cpuState).kernel.object f).kind = (k.object f).kind ∧
      ((k.doAddress B M pc cpuState).kernel.object f).address = (k.object f).address := by
  cases hpc : k.interceptor.addressOfInterestMap pc with
  | none =>
      rw [doAddress_of_none hpc]
      exact ⟨rfl, rfl⟩
  | some aoi =>
      cases ht : aoi.type with
      | returnAddress =>
          rw [doAddress_of_return hpc ht]
          simp [leaveFunction, object]
      | function =>
          rw [doAddress_of_function hpc ht]
          simp [enterFunction, object]

end Visits

/-! ### One step -/

/-- Entering `g` adds one reference to the hook at the return address, and makes it the
hook of `g` if there was none. -/
theorem hookOf_enter (R : Addr32) (f g : FunctionRef) (n : ℕ) :
    some (match hookOf R f n with
      | some hook => { hook with refCnt := hook.refCnt + 1 }
      | none => AddressOfInterest.newReturnAddress R g) =
        hookOf R (if n = 0 then g else f) (n + 1) := by
  by_cases hn : n = 0
  · subst hn
    rfl
  · simp only [hookOf, if_neg hn, if_neg (Nat.succ_ne_zero n), UInt32.ofNat_add]
    rfl

/-- Leaving removes one activation from the hook. -/
theorem hookOf_leave (R : Addr32) (f : FunctionRef) {n : ℕ} (hn : n < 2 ^ 32) :
    (if UInt32.ofNat (n + 1) - 1 = 0 then none
      else some ⟨.returnAddress, R, UInt32.ofNat (n + 1) - 1, f⟩) = hookOf R f n := by
  have hsub : UInt32.ofNat (n + 1) - 1 = UInt32.ofNat n := by
    rw [UInt32.ofNat_add]
    exact UInt32.add_sub_cancel _ _
  have hzero : UInt32.ofNat n = 0 ↔ n = 0 := by
    rw [← UInt32.toNat_inj, UInt32.toNat_ofNat_of_lt' hn, UInt32.toNat_zero]
  rw [hsub, hookOf]
  simp only [hzero]

section Step

variable {τ σ : Type} [DecidableEq τ] {B : ShadowMemory.Balancer} {M : Machine σ}
  {fs : List FunctionRef} {site : Addr32 → FunctionRef} {g : Guest τ}

omit [DecidableEq τ] in
/-- Pending activations are counted alike for two stores that agree on the classes. -/
theorem heapPending_congr {k k' : Kernel}
    (h : ∀ f, (k'.object f).kind = (k.object f).kind) (pending : List (Activation τ)) :
    heapPending k' pending = heapPending k pending := by
  simp only [heapPending, h]

omit [DecidableEq τ] in
/-- What a step has to show of the table when it replaces the kernel by `k'`: its effect
outside the entries. -/
theorem HookTracks.of_kernel {k' : Kernel} {pending : List (Activation τ)}
    (h : HookTracks fs site g)
    (haddr : ∀ f, (k'.object f).address = (g.kernel.object f).address)
    (hentry : ∀ f ∈ fs, k'.interceptor.addressOfInterestMap (g.kernel.object f).address =
      g.kernel.interceptor.addressOfInterestMap (g.kernel.object f).address)
    (hhook : ∀ R, (∀ f ∈ fs, (g.kernel.object f).address ≠ R) →
      k'.interceptor.addressOfInterestMap R = hookOf R (site R) (returningTo pending R))
    (hpending : ∀ a ∈ pending, a.function ∈ fs ∧ site a.returnAddress = a.function ∧
      ∀ f ∈ fs, (g.kernel.object f).address ≠ a.returnAddress)
    (hbound : pending.length < 2 ^ 32) : HookTracks fs site ⟨k', pending⟩ := by
  refine ⟨?_, ?_, ?_, hbound⟩
  · intro f hf
    simp only [haddr, hentry f hf]
    exact h.entry f hf
  · simpa only [haddr] using hhook
  · simpa only [haddr] using hpending

omit [DecidableEq τ] in
/-- What is left to show once the table follows a step: its effect on the gate. -/
theorem Tracks.of_hookTracks {k' : Kernel} {pending : List (Activation τ)}
    (h : Tracks fs site g) (hkind : ∀ f, (k'.object f).kind = (g.kernel.object f).kind)
    (hhooks : HookTracks fs site ⟨k', pending⟩)
    (hgate : Gate k'.memCheck (heapPending g.kernel pending)) :
    Tracks fs site ⟨k', pending⟩ := by
  refine ⟨hhooks, ?_, ?_⟩
  · simpa only [hkind] using h.kind
  · simpa only [heapPending_congr hkind] using hgate

omit [DecidableEq τ] in
/-- No hook stands where nothing returns to. -/
theorem HookTracks.doAddress_other {pc : Addr32} {cpuState : σ} (h : HookTracks fs site g)
    (hfs : ∀ f ∈ fs, (g.kernel.object f).address ≠ pc)
    (hpc : ∀ a ∈ g.pending, a.returnAddress ≠ pc) :
    g.kernel.doAddress B M pc cpuState = ⟨0, g.kernel, []⟩ := by
  have hzero : returningTo g.pending pc = 0 :=
    List.countP_eq_zero.mpr fun a hmem => by simpa using hpc a hmem
  refine Kernel.doAddress_of_none ?_
  rw [h.hook pc hfs, hzero]
  rfl

omit [DecidableEq τ] in
/-- Visiting an entry. -/
theorem HookTracks.doAddress_entry {f : FunctionRef} {cpuState : σ}
    (h : HookTracks fs site g) (hf : f ∈ fs)
    (hsite : site (M.getReturnAddress cpuState) = f)
    (hR : ∀ f' ∈ fs, (g.kernel.object f').address ≠ M.getReturnAddress cpuState) :
    (g.kernel.doAddress B M (g.kernel.object f).address
        cpuState).kernel.interceptor.addressOfInterestMap =
      Function.update g.kernel.interceptor.addressOfInterestMap (M.getReturnAddress cpuState)
        (hookOf (M.getReturnAddress cpuState) f
          (returningTo g.pending (M.getReturnAddress cpuState) + 1)) ∧
    (g.kernel.doAddress B M (g.kernel.object f).address cpuState).kernel.memCheck =
      ((g.kernel.object f).kind.enter B M g.kernel.memCheck cpuState).1 := by
  obtain ⟨n, hentry⟩ := h.entry f hf
  have hhook := h.hook _ hR
  rw [hsite] at hhook
  have henter := hookOf_enter (M.getReturnAddress cpuState) f f
    (returningTo g.pending (M.getReturnAddress cpuState))
  rw [ite_self] at henter
  rw [Kernel.doAddress_of_function hentry rfl, ← henter, ← hhook]
  exact ⟨rfl, rfl⟩

omit [DecidableEq τ] in
/-- The hook of a pending activation. -/
theorem HookTracks.hook_of_pending {a : Activation τ} {rest : List (Activation τ)}
    (h : HookTracks fs site g) (hperm : g.pending.Perm (a :: rest)) :
    g.kernel.interceptor.addressOfInterestMap a.returnAddress =
      some ⟨.returnAddress, a.returnAddress,
        UInt32.ofNat (returningTo rest a.returnAddress + 1), a.function⟩ := by
  obtain ⟨-, hsite, hR⟩ := h.pending a (hperm.mem_iff.mpr List.mem_cons_self)
  rw [h.hook _ hR, hsite, returningTo_perm hperm, returningTo_cons_of_eq rfl, hookOf,
    if_neg (Nat.succ_ne_zero _)]

omit [DecidableEq τ] in
/-- Visiting the return address of a pending activation. -/
theorem HookTracks.doAddress_returnAddress {a : Activation τ} {rest : List (Activation τ)}
    {cpuState : σ} (h : HookTracks fs site g) (hperm : g.pending.Perm (a :: rest)) :
    (g.kernel.doAddress B M a.returnAddress
        cpuState).kernel.interceptor.addressOfInterestMap =
      Function.update g.kernel.interceptor.addressOfInterestMap a.returnAddress
        (hookOf a.returnAddress a.function (returningTo rest a.returnAddress)) ∧
    (g.kernel.doAddress B M a.returnAddress cpuState).kernel.memCheck =
      (g.kernel.object a.function).kind.leave g.kernel.memCheck := by
  have hlen : rest.length + 1 = g.pending.length := hperm.length_eq.symm
  have hbound := h.bound
  have hlt : returningTo rest a.returnAddress < 2 ^ 32 :=
    List.countP_le_length.trans_lt (by omega)
  rw [Kernel.doAddress_of_return (h.hook_of_pending hperm) rfl, ← hookOf_leave _ _ hlt]
  exact ⟨rfl, rfl⟩

/-- The most recent activation of a thread, and the list without it. -/
theorem exists_activation {pending : List (Activation τ)} {t : τ}
    (h : ∃ a ∈ pending, a.thread = t) :
    ∃ a rest, pending.Perm (a :: rest) ∧
      pending.find? (fun a => a.thread = t) = some a ∧
      pending.eraseP (fun a => a.thread = t) = rest := by
  have hsome : (pending.find? fun a => a.thread = t).isSome := by
    rw [List.find?_isSome]
    simpa using h
  obtain ⟨a, hfind⟩ := Option.isSome_iff_exists.mp hsome
  obtain ⟨ha, l, l', rfl, hl⟩ := List.find?_eq_some_iff_append.mp hfind
  refine ⟨a, l ++ l', List.perm_middle, hfind, ?_⟩
  rw [List.eraseP_append_right _ (fun b hb => by simpa using hl b hb),
    List.eraseP_cons_of_pos (p := fun a : Activation τ => decide (a.thread = t)) ha]

/-- A call hooks its return address once more. -/
theorem HookTracks.call {t : τ} {f : FunctionRef} {cpuState : σ} (h : HookTracks fs site g)
    (ha : g.Allowed M fs site (.call t f cpuState)) :
    HookTracks fs site (g.step B M (.call t f cpuState)) := by
  obtain ⟨hf, hsite, hR, hbound⟩ := ha
  obtain ⟨hmap, -⟩ := h.doAddress_entry (B := B) hf hsite hR
  refine h.of_kernel (fun f' => (Kernel.doAddress_object f').2) (fun f' hf' => ?_)
    (fun R hRf => ?_) ?_ hbound
  · rw [hmap, Function.update_of_ne (hR f' hf')]
  · rw [hmap]
    by_cases hRR : R = M.getReturnAddress cpuState
    · subst hRR
      rw [Function.update_self, hsite, returningTo_cons_of_eq rfl]
    · rw [Function.update_of_ne hRR, h.hook R hRf, returningTo_cons_of_ne hRR]
  · intro a hmem
    rcases List.mem_cons.mp hmem with rfl | hmem
    · exact ⟨hf, hsite, hR⟩
    · exact h.pending a hmem

/-- A return drops one reference of the hook at its return address. -/
theorem HookTracks.ret {t : τ} {cpuState : σ} (h : HookTracks fs site g)
    (ha : g.Allowed M fs site (.ret t cpuState)) :
    HookTracks fs site (g.step B M (.ret t cpuState)) := by
  obtain ⟨a, rest, hperm, hfind, herase⟩ := exists_activation ha
  obtain ⟨hf, hsite, hR⟩ := h.pending a (hperm.mem_iff.mpr List.mem_cons_self)
  obtain ⟨hmap, -⟩ := h.doAddress_returnAddress (B := B) (M := M) hperm
  have hlen : rest.length + 1 = g.pending.length := hperm.length_eq.symm
  have hbound := h.bound
  simp only [Guest.step, hfind, herase]
  refine h.of_kernel (fun f' => (Kernel.doAddress_object f').2) (fun f' hf' => ?_)
    (fun R hRf => ?_) (fun b hb => ?_) (by omega)
  · rw [hmap, Function.update_of_ne (hR f' hf')]
  · rw [hmap]
    by_cases hRR : R = a.returnAddress
    · subst hRR
      rw [Function.update_self, hsite]
    · rw [Function.update_of_ne hRR, h.hook R hRf, returningTo_perm hperm,
        returningTo_cons_of_ne hRR]
  · exact h.pending b (hperm.mem_iff.mpr (List.mem_cons_of_mem a hb))

/-- **One step** keeps the table in step with the activations. -/
theorem HookTracks.step {v : Visit τ σ} (h : HookTracks fs site g)
    (ha : g.Allowed M fs site v) : HookTracks fs site (g.step B M v) := by
  cases v with
  | call t f cpuState => exact h.call ha
  | ret t cpuState => exact h.ret ha
  | other pc cpuState =>
      rw [Guest.step, h.doAddress_other ha.1 ha.2]
      exact h

/-- **Whole runs** keep the table in step with the activations. -/
theorem HookTracks.final {visits : List (Visit τ σ)} (h : HookTracks fs site g)
    (hrun : Run.Along (Guest.step B M) (Guest.Allowed M fs site) g visits) :
    HookTracks fs site (Run.final (Guest.step B M) g visits) :=
  hrun.final (fun _ _ (h : HookTracks fs site _) ha => h.step ha) h

theorem Tracks.other {pc : Addr32} {cpuState : σ} (h : Tracks fs site g)
    (ha : g.Allowed M fs site (.other pc cpuState)) :
    Tracks fs site (g.step B M (.other pc cpuState)) := by
  rw [Guest.step, h.toHookTracks.doAddress_other ha.1 ha.2]
  exact h

/-- A call closes the gate for a heap function. -/
theorem Tracks.call {t : τ} {f : FunctionRef} {cpuState : σ} (h : Tracks fs site g)
    (ha : g.Allowed M fs site (.call t f cpuState)) :
    Tracks fs site (g.step B M (.call t f cpuState)) := by
  have hhooks := h.toHookTracks.call (B := B) ha
  obtain ⟨hf, hsite, hR, hbound⟩ := ha
  obtain ⟨-, hcheck⟩ := h.toHookTracks.doAddress_entry (B := B) hf hsite hR
  refine h.of_hookTracks (fun f' => (Kernel.doAddress_object f').1) hhooks ?_
  have hlt : heapPending g.kernel g.pending < 2 ^ 32 :=
    List.countP_le_length.trans_lt h.bound
  rw [hcheck, heapPending_cons]
  exact h.gate.enter hlt cpuState

/-- A return opens the gate for the last heap function. -/
theorem Tracks.ret {t : τ} {cpuState : σ} (h : Tracks fs site g)
    (ha : g.Allowed M fs site (.ret t cpuState)) :
    Tracks fs site (g.step B M (.ret t cpuState)) := by
  have hhooks := h.toHookTracks.ret (B := B) ha
  obtain ⟨a, rest, hperm, hfind, herase⟩ := exists_activation ha
  obtain ⟨hf, -⟩ := h.pending a (hperm.mem_iff.mpr List.mem_cons_self)
  obtain ⟨-, hcheck⟩ := h.toHookTracks.doAddress_returnAddress (B := B) (M := M) hperm
  simp only [Guest.step, hfind, herase] at hhooks ⊢
  refine h.of_hookTracks (fun f' => (Kernel.doAddress_object f').1) hhooks ?_
  have hgate := h.gate
  rw [heapPending_perm _ hperm, heapPending_cons] at hgate
  rw [hcheck]
  exact hgate.leave (h.kind _ hf)

/-- **One step** keeps the table and the gate in step with the activations. -/
theorem Tracks.step {v : Visit τ σ} (h : Tracks fs site g) (ha : g.Allowed M fs site v) :
    Tracks fs site (g.step B M v) := by
  cases v with
  | call t f cpuState => exact h.call ha
  | ret t cpuState => exact h.ret ha
  | other pc cpuState => exact h.other ha

end Step

/-! ### Whole runs -/

section Register

variable {i : FunctionInterceptor} {fs : List FunctionRef} {R : Addr32}

theorem functions_register (fs : List FunctionRef) :
    (fs.foldl FunctionInterceptor.newFunction i).functions = i.functions := by
  induction fs generalizing i with
  | nil => rfl
  | cons f fs ih => exact ih

theorem functionList_register (fs : List FunctionRef) :
    (fs.foldl FunctionInterceptor.newFunction i).functionList = i.functionList ++ fs := by
  induction fs generalizing i with
  | nil => exact (List.append_nil _).symm
  | cons f fs ih => exact ih.trans (List.append_assoc _ _ _)

variable {functions : FunctionRef → FunctionObject}

theorem functions_register_init :
    (FunctionInterceptor.register functions fs).functions = functions :=
  functions_register fs

/-- The table of registered functions holds the last registration at each address. -/
theorem map_register (functions : FunctionRef → FunctionObject) (fs : List FunctionRef)
    (R : Addr32) :
    (FunctionInterceptor.register functions fs).addressOfInterestMap R =
      lastWrite R (fs.map fun f =>
        ((functions f).address, ⟨.function, (functions f).address, 1, f⟩)) := by
  induction fs using List.reverseRecOn with
  | nil => rfl
  | append_singleton fs f ih =>
      have hfun : (fs.foldl FunctionInterceptor.newFunction ⟨fun _ => none, [], functions⟩
          ).functions = functions := functions_register fs
      rw [FunctionInterceptor.register, List.foldl_append, List.foldl_cons, List.foldl_nil,
        List.map_append, List.map_singleton, lastWrite_concat,
        FunctionInterceptor.newFunction, FunctionInterceptor.newFunctionAddress, hfun]
      by_cases hR : (functions f).address = R
      · subst hR
        rw [if_pos rfl]
        exact Function.update_self _ _ _
      · rw [if_neg hR, ← ih]
        exact Function.update_of_ne (Ne.symm hR) _ _

/-- No entry stands at an address of no registered function. -/
theorem register_other (h : ∀ f ∈ fs, (functions f).address ≠ R) :
    (FunctionInterceptor.register functions fs).addressOfInterestMap R = none := by
  rw [map_register, Option.eq_none_iff_forall_ne_some]
  intro aoi haoi
  obtain ⟨f, hf, heq⟩ := List.mem_map.mp (mem_of_lastWrite haoi)
  exact h f hf (congrArg Prod.fst heq)

/-- At the address of a registered function the last one registered there is hooked. -/
theorem register_entry {f : FunctionRef} (hf : f ∈ fs) :
    ∃ f' ∈ fs, (functions f').address = (functions f).address ∧
      (FunctionInterceptor.register functions fs).addressOfInterestMap
        (functions f).address = some ⟨.function, (functions f).address, 1, f'⟩ := by
  have hwritten : ∃ aoi, (FunctionInterceptor.register functions fs).addressOfInterestMap
      (functions f).address = some aoi := by
    rw [map_register, exists_lastWrite_iff]
    exact ⟨_, List.mem_map_of_mem hf, rfl⟩
  obtain ⟨aoi, haoi⟩ := hwritten
  have hmem := mem_of_lastWrite ((map_register functions fs _).symm.trans haoi)
  obtain ⟨f', hf', heq⟩ := List.mem_map.mp hmem
  obtain ⟨haddr, rfl⟩ := Prod.mk.inj heq
  exact ⟨f', hf', haddr, haddr ▸ haoi⟩

/-- The hooked functions are the registered ones whose own entry is in the table. -/
theorem mem_hooked_register {f : FunctionRef} :
    f ∈ (FunctionInterceptor.register functions fs).hooked ↔
      f ∈ fs ∧ (FunctionInterceptor.register functions fs).addressOfInterestMap
        (functions f).address = some ⟨.function, (functions f).address, 1, f⟩ := by
  rw [FunctionInterceptor.hooked, List.mem_filter, FunctionInterceptor.newFunctionAddress,
    functions_register_init, decide_eq_true_iff, FunctionInterceptor.register,
    functionList_register]
  rfl

end Register

section Runs

variable {τ σ : Type} [DecidableEq τ] {functions : FunctionRef → FunctionObject}
  {fs : List FunctionRef} {site : Addr32 → FunctionRef} {c : Checker}

omit [DecidableEq τ] in
/-- Nothing is pending after the functions are registered. -/
theorem hookTracks_register :
    HookTracks (FunctionInterceptor.register functions fs).hooked site
      (⟨⟨.register functions fs, c⟩, []⟩ : Guest τ) := by
  refine ⟨fun f hf => ⟨1, ?_⟩, fun R hR => ?_, fun a ha => absurd ha List.not_mem_nil,
    by simp⟩
  · simp only [Kernel.object, functions_register_init]
    exact (mem_hooked_register.mp hf).2
  · simp only [Kernel.object, functions_register_init] at hR
    refine register_other fun f hf hfR => ?_
    -- the function hooked at the address of a registered one is hooked
    obtain ⟨f', hf', haddr, hmap⟩ := register_entry hf
    refine hR f' (mem_hooked_register.mpr ⟨hf', ?_⟩) (haddr.trans hfR)
    rw [haddr]
    exact hmap

omit [DecidableEq τ] in
theorem tracks_register
    (hkind : ∀ f ∈ fs, (functions f).kind ≠ .linuxKernelEnableMemoryAccess)
    (hopen : c.memoryAccessDisable = false) (hdepth : c.memoryAccessDepth = 0) :
    Tracks (FunctionInterceptor.register functions fs).hooked site
      (⟨⟨.register functions fs, c⟩, []⟩ : Guest τ) := by
  refine ⟨hookTracks_register, ?_, ⟨hopen, by simp [hdepth, heapPending]⟩⟩
  intro f hf
  simp only [Kernel.object, functions_register_init]
  exact hkind f (mem_hooked_register.mp hf).1

omit [DecidableEq τ] in
theorem returningTo_pos {pending : List (Activation τ)} {R : Addr32} :
    0 < returningTo pending R ↔ ∃ a ∈ pending, a.returnAddress = R := by
  simp [returningTo, List.countP_pos_iff]

omit [DecidableEq τ] in
/-- The return hooks of a tracking table. -/
theorem Tracks.hook_iff {g : Guest τ} (h : Tracks fs site g) {R : Addr32}
    {aoi : AddressOfInterest} :
    g.kernel.interceptor.addressOfInterestMap R = some aoi ∧ aoi.type = .returnAddress ↔
      0 < returningTo g.pending R ∧
        aoi = ⟨.returnAddress, R, UInt32.ofNat (returningTo g.pending R), site R⟩ := by
  by_cases hR : ∃ f ∈ fs, (g.kernel.object f).address = R
  · obtain ⟨f, hf, rfl⟩ := hR
    obtain ⟨n, hentry⟩ := h.entry f hf
    constructor
    · rintro ⟨hmap, ht⟩
      rw [hentry, Option.some.injEq] at hmap
      subst hmap
      cases ht
    · rintro ⟨hpos, -⟩
      obtain ⟨a, ha, haR⟩ := returningTo_pos.mp hpos
      exact absurd haR.symm ((h.pending a ha).2.2 f hf)
  · have hhook := h.hook R fun f hf heq => hR ⟨f, hf, heq⟩
    rw [hhook, hookOf]
    by_cases hn : returningTo g.pending R = 0
    · simp [hn]
    · rw [if_neg hn, Option.some.injEq]
      constructor
      · rintro ⟨rfl, -⟩
        exact ⟨Nat.pos_of_ne_zero hn, rfl⟩
      · rintro ⟨-, rfl⟩
        exact ⟨rfl, rfl⟩

/-- **Hooks and gate track the pending activations exactly.** After every run of calls,
returns and other visits of any number of threads, the table holds a return hook at `R`
exactly when an activation returning to `R` is pending, its reference count is the number
of these activations and its function is theirs, and checking is off exactly while an
activation of a heap function is pending. -/
theorem hooks_track_activations (B : ShadowMemory.Balancer) (M : Machine σ)
    (hkind : ∀ f ∈ fs, (functions f).kind ≠ .linuxKernelEnableMemoryAccess)
    (hopen : c.memoryAccessDisable = false) (hdepth : c.memoryAccessDepth = 0)
    {visits : List (Visit τ σ)} {g : Guest τ}
    (hrun : Run.Along (Guest.step B M)
      (Guest.Allowed M (FunctionInterceptor.register functions fs).hooked site)
      ⟨⟨.register functions fs, c⟩, []⟩ visits)
    (hg : g = Run.final (Guest.step B M) ⟨⟨.register functions fs, c⟩, []⟩ visits) :
    (∀ R, (∃ aoi, g.kernel.interceptor.addressOfInterestMap R = some aoi ∧
          aoi.type = .returnAddress) ↔ ∃ a ∈ g.pending, a.returnAddress = R) ∧
      (∀ R aoi, g.kernel.interceptor.addressOfInterestMap R = some aoi →
        aoi.type = .returnAddress →
          aoi.refCnt.toNat = g.pending.countP (fun a => a.returnAddress = R) ∧
          ∀ a ∈ g.pending, a.returnAddress = R → aoi.function = a.function) ∧
      (g.kernel.memCheck.memoryAccessDisable = true ↔
        ∃ a ∈ g.pending,
          (g.kernel.object a.function).kind = .linuxKernelHeapFunction) := by
  have htracks : Tracks (FunctionInterceptor.register functions fs).hooked site g :=
    hg ▸ hrun.final
      (fun _ _ (h : Tracks (FunctionInterceptor.register functions fs).hooked site _) ha =>
        h.step ha)
      (tracks_register hkind hopen hdepth)
  refine ⟨fun R => ?_, fun R aoi hmap ht => ?_, ?_⟩
  · rw [← returningTo_pos]
    constructor
    · rintro ⟨aoi, hhook⟩
      exact (htracks.hook_iff.mp hhook).1
    · intro hpos
      exact ⟨_, htracks.hook_iff.mpr ⟨hpos, rfl⟩⟩
  · obtain ⟨-, rfl⟩ := htracks.hook_iff.mp ⟨hmap, ht⟩
    have hlt : returningTo g.pending R < 2 ^ 32 :=
      List.countP_le_length.trans_lt htracks.bound
    refine ⟨UInt32.toNat_ofNat_of_lt' hlt, ?_⟩
    rintro a ha rfl
    exact (htracks.pending a ha).2.1
  · rw [htracks.gate.disable, decide_eq_true_iff, heapPending, List.countP_pos_iff]
    simp only [decide_eq_true_eq]

end Runs

/-- A heap function and an allocation hook, as a small registered kernel. -/
def sampleFunctions : FunctionRef → FunctionObject
  | 0 => ⟨.linuxKernelHeapFunction, 0xc0100000, "__kmalloc", false, 0, false⟩
  | _ => ⟨.memCheckAlloc, 0xc0101000, "MemCheck_Alloc", false, 2, false⟩

/-- A processor at `pc` whose stack holds the return address `R`. -/
def cpuAt (pc R : Addr32) : CPUX86State := ⟨pc, 0xc1000000, 0, 64, 0xc0500000, fun _ => R⟩

/-- Two threads inside the same heap function, called from one place; the first returns. -/
theorem hooks_track_activations_two_threads :
    (Run.final (Guest.step SearchTree.Balancer.id machineQEMU)
        (⟨⟨.register sampleFunctions [0, 1], Checker.init 0xc0400000⟩, []⟩ : Guest Bool)
        [.call true 0 (cpuAt 0xc0100000 0xc0200005),
          .call false 0 (cpuAt 0xc0100000 0xc0200005),
          .ret true (cpuAt 0xc0200005 0)]).kernel.memCheck.memoryAccessDisable = true := by
  have hrun : Run.Along (Guest.step SearchTree.Balancer.id machineQEMU)
      (Guest.Allowed machineQEMU
        (FunctionInterceptor.register sampleFunctions [0, 1]).hooked fun _ => 0)
      (⟨⟨.register sampleFunctions [0, 1], Checker.init 0xc0400000⟩, []⟩ : Guest Bool)
      [.call true 0 (cpuAt 0xc0100000 0xc0200005),
        .call false 0 (cpuAt 0xc0100000 0xc0200005),
        .ret true (cpuAt 0xc0200005 0)] := by
    refine ⟨⟨by decide, rfl, by decide, by decide⟩, ⟨by decide, rfl, by decide, by decide⟩,
      ⟨_, List.mem_cons_of_mem _ List.mem_cons_self, rfl⟩, trivial⟩
  exact (hooks_track_activations SearchTree.Balancer.id machineQEMU (by decide) rfl rfl hrun
    rfl).2.2.mpr (by decide)

/-! ### Visits of a return address -/

/-- A hook as a ledger: whose it is, and how many references are left. With none left there
is no hook. -/
structure HookState where
  function : FunctionRef
  refs : ℕ
  deriving DecidableEq, Repr

section Hooks

variable {σ : Type} (B : ShadowMemory.Balancer) (M : Machine σ)

/-- The kernel after visits of the program counter, whoever makes them. -/
def Kernel.visits (k : Kernel) (vs : List (Addr32 × σ)) : Kernel :=
  Run.final (fun k v => (k.doAddress B M v.1 v.2).kernel) k vs

/-- The function whose hooked entry stands at the address. -/
def Kernel.entryFunction (k : Kernel) (pc : Addr32) : Option FunctionRef :=
  (k.interceptor.addressOfInterestMap pc).bind fun aoi =>
    if aoi.type = .function then some aoi.function else none

/-- The ledger of the hook at `R` after a visit, for the hooked entries given. A visit of `R`
takes a reference; entering a function that returns to `R` adds one, and the hook becomes
that function's if there was none. -/
def HookState.visit (entries : Addr32 → Option FunctionRef) (R : Addr32) (h : HookState)
    (v : Addr32 × σ) : HookState :=
  if v.1 = R then { h with refs := h.refs - 1 }
  else
    match entries v.1 with
    | some f =>
        if M.getReturnAddress v.2 = R then
          ⟨if h.refs = 0 then f else h.function, h.refs + 1⟩
        else h
    | none => h

/-- The ledger after visits. -/
def HookState.visits (entries : Addr32 → Option FunctionRef) (R : Addr32) (h : HookState)
    (vs : List (Addr32 × σ)) : HookState :=
  Run.final (HookState.visit M entries R) h vs

/-- The visits that enter a hooked function with return address `R`. -/
def entriesReturningTo (entries : Addr32 → Option FunctionRef) (R : Addr32)
    (vs : List (Addr32 × σ)) : ℕ :=
  vs.countP fun v => (entries v.1).isSome && decide (M.getReturnAddress v.2 = R)

/-- The visits of `R`. -/
def visitsOf (R : Addr32) (vs : List (Addr32 × σ)) : ℕ := vs.countP fun v => v.1 = R

variable {B M} {k : Kernel} {pc R : Addr32} {aoi hook : AddressOfInterest} {cpuState : σ}

theorem Kernel.map_leaveFunction :
    (k.leaveFunction M pc aoi cpuState).kernel.interceptor.addressOfInterestMap =
      Function.update k.interceptor.addressOfInterestMap pc
        (if aoi.refCnt - 1 = 0 then none else some { aoi with refCnt := aoi.refCnt - 1 }) :=
  rfl

/-- Entering a function touches the table at the return address only. -/
theorem Kernel.map_enterFunction_of_ne (h : R ≠ M.getReturnAddress cpuState) :
    (k.enterFunction B M aoi cpuState).kernel.interceptor.addressOfInterestMap R =
      k.interceptor.addressOfInterestMap R :=
  Function.update_of_ne h _ _

/-- At the return address it counts the entry there once more, or makes a new hook. -/
theorem Kernel.map_enterFunction_self :
    (k.enterFunction B M aoi cpuState).kernel.interceptor.addressOfInterestMap
        (M.getReturnAddress cpuState) =
      some (match k.interceptor.addressOfInterestMap (M.getReturnAddress cpuState) with
        | some hook => { hook with refCnt := hook.refCnt + 1 }
        | none => .newReturnAddress (M.getReturnAddress cpuState) aoi.function) :=
  Function.update_self _ _ _

/-- No visit adds, removes or changes a hooked entry. -/
theorem Kernel.entryFunction_doAddress (k : Kernel) (pc : Addr32) (cpuState : σ) :
    (k.doAddress B M pc cpuState).kernel.entryFunction = k.entryFunction := by
  refine funext fun pc' => ?_
  cases hpc : k.interceptor.addressOfInterestMap pc with
  | none => rw [doAddress_of_none hpc]
  | some aoi =>
      cases ht : aoi.type with
      | returnAddress =>
          rw [doAddress_of_return hpc ht, entryFunction, map_leaveFunction, entryFunction]
          by_cases heq : pc' = pc
          · subst heq
            rw [Function.update_self, hpc]
            split_ifs <;> simp [ht]
          · rw [Function.update_of_ne heq]
      | function =>
          rw [doAddress_of_function hpc ht, entryFunction, entryFunction]
          by_cases heq : pc' = M.getReturnAddress cpuState
          · subst heq
            rw [map_enterFunction_self]
            cases k.interceptor.addressOfInterestMap (M.getReturnAddress cpuState) <;> rfl
          · rw [map_enterFunction_of_ne heq]

theorem Kernel.entryFunction_of_type (h : k.interceptor.addressOfInterestMap pc = some aoi) :
    k.entryFunction pc = if aoi.type = .function then some aoi.function else none := by
  rw [entryFunction, h, Option.bind_some]

variable {h : HookState} {entries : Addr32 → Option FunctionRef} {v : Addr32 × σ}

@[simp] theorem HookState.visit_self (hv : v.1 = R) :
    h.visit M entries R v = { h with refs := h.refs - 1 } :=
  if_pos hv

theorem HookState.visit_of_no_entry (hv : v.1 ≠ R) (he : entries v.1 = none) :
    h.visit M entries R v = h := by
  simp only [visit, if_neg hv, he]

theorem HookState.visit_of_entry (hv : v.1 ≠ R) {f : FunctionRef}
    (he : entries v.1 = some f) :
    h.visit M entries R v =
      if M.getReturnAddress v.2 = R then ⟨if h.refs = 0 then f else h.function, h.refs + 1⟩
      else h := by
  simp only [visit, if_neg hv, he]

/-- **One visit** does to the hook at `R` what it does to the ledger. -/
theorem Kernel.hook_doAddress (hR : k.entryFunction R = none)
    (hhook : k.interceptor.addressOfInterestMap R = hookOf R h.function h.refs)
    (hbound : h.refs < 2 ^ 32) (v : Addr32 × σ) :
    (k.doAddress B M v.1 v.2).kernel.interceptor.addressOfInterestMap R =
      hookOf R (h.visit M k.entryFunction R v).function
        (h.visit M k.entryFunction R v).refs := by
  cases hv : k.interceptor.addressOfInterestMap v.1 with
  | none =>
      rw [doAddress_of_none hv]
      by_cases heq : v.1 = R
      · -- no hook: there is no reference to take
        have hzero : h.refs = 0 := by
          by_contra hne
          rw [heq, hhook, hookOf, if_neg hne] at hv
          cases hv
        rw [HookState.visit_self heq, hhook, hzero]
      · have hnone : k.entryFunction v.1 = none := by simp [entryFunction, hv]
        rw [HookState.visit_of_no_entry heq hnone, hhook]
  | some aoi =>
      cases ht : aoi.type with
      | returnAddress =>
          rw [doAddress_of_return hv ht, map_leaveFunction]
          by_cases heq : v.1 = R
          · subst heq
            obtain ⟨n, hn⟩ : ∃ n, h.refs = n + 1 := by
              refine Nat.exists_eq_succ_of_ne_zero fun hzero => ?_
              rw [hhook, hookOf, if_pos hzero] at hv
              cases hv
            rw [hhook, hookOf, hn, if_neg (Nat.succ_ne_zero n), Option.some.injEq] at hv
            subst hv
            rw [Function.update_self, HookState.visit_self rfl, hookOf_leave _ _ (by omega)]
            simp only [hn, Nat.add_sub_cancel]
          · have hnone : k.entryFunction v.1 = none := by
              rw [entryFunction_of_type hv, ht]
              rfl
            rw [Function.update_of_ne (Ne.symm heq), HookState.visit_of_no_entry heq hnone,
              hhook]
      | function =>
          have hsome : k.entryFunction v.1 = some aoi.function := by
            rw [entryFunction_of_type hv, if_pos ht]
          have heq : v.1 ≠ R := by
            rintro rfl
            rw [hR] at hsome
            cases hsome
          rw [doAddress_of_function hv ht, HookState.visit_of_entry heq hsome]
          by_cases hret : M.getReturnAddress v.2 = R
          · subst hret
            rw [map_enterFunction_self, hhook, if_pos rfl, hookOf_enter]
          · rw [map_enterFunction_of_ne (Ne.symm hret), if_neg hret, hhook]

/-- **Any visits** do to the hook at `R` what they do to the ledger. -/
theorem Kernel.hook_visits {vs : List (Addr32 × σ)} (hR : k.entryFunction R = none)
    (hhook : k.interceptor.addressOfInterestMap R = hookOf R h.function h.refs)
    (hbound : Run.Along (HookState.visit M k.entryFunction R) (fun h _ => h.refs < 2 ^ 32)
      h vs) :
    (k.visits B M vs).entryFunction = k.entryFunction ∧
      (k.visits B M vs).interceptor.addressOfInterestMap R =
        hookOf R (h.visits M k.entryFunction R vs).function
          (h.visits M k.entryFunction R vs).refs := by
  induction vs generalizing k h with
  | nil => exact ⟨rfl, hhook⟩
  | cons v vs ih =>
      have hentries := k.entryFunction_doAddress (B := B) (M := M) v.1 v.2
      have hstep := hook_doAddress (B := B) (M := M) hR hhook hbound.1 v
      rw [← hentries] at hR hbound hstep
      have hrest := ih hR hstep hbound.2
      rw [hentries] at hrest
      exact hrest

section Ledger

variable {vs : List (Addr32 × σ)}

theorem visitsOf_cons (R : Addr32) (v : Addr32 × σ) (vs : List (Addr32 × σ)) :
    visitsOf R (v :: vs) = visitsOf R vs + if v.1 = R then 1 else 0 := by
  simp [visitsOf, List.countP_cons]

theorem entriesReturningTo_cons (v : Addr32 × σ) (vs : List (Addr32 × σ)) :
    entriesReturningTo M entries R (v :: vs) = entriesReturningTo M entries R vs +
      if (entries v.1).isSome && decide (M.getReturnAddress v.2 = R) then 1 else 0 :=
  List.countP_cons

/-- What one visit does to the number of references, by the two counts. -/
theorem HookState.refs_visit (hR : entries R = none) (v : Addr32 × σ) :
    (h.visit M entries R v).refs =
      h.refs + entriesReturningTo M entries R [v] - visitsOf R [v] := by
  rw [entriesReturningTo_cons, visitsOf_cons]
  by_cases hv : v.1 = R
  · simp [hv, hR, entriesReturningTo, visitsOf]
  · cases he : entries v.1 with
    | none => simp [visit_of_no_entry hv he, hv, entriesReturningTo, visitsOf]
    | some f =>
        rw [visit_of_entry hv he]
        by_cases hret : M.getReturnAddress v.2 = R
        · simp [hret, hv, entriesReturningTo, visitsOf]
        · simp [hret, hv, entriesReturningTo, visitsOf]

/-- **How long a hook lasts.** No visit of `R` takes more than one reference, and as long as
the visits of `R` do not outnumber the references at the start, each takes one. -/
theorem HookState.refs_visits (hR : entries R = none) (h : HookState)
    (vs : List (Addr32 × σ)) :
    h.refs + entriesReturningTo M entries R vs ≤
        (h.visits M entries R vs).refs + visitsOf R vs ∧
      (h.visits M entries R vs).refs ≤ h.refs + entriesReturningTo M entries R vs ∧
      (visitsOf R vs ≤ h.refs → (h.visits M entries R vs).refs + visitsOf R vs =
        h.refs + entriesReturningTo M entries R vs) := by
  induction vs generalizing h with
  | nil => exact ⟨le_rfl, le_rfl, fun _ => rfl⟩
  | cons v vs ih =>
      have hstep := refs_visit (M := M) (h := h) hR v
      obtain ⟨h1, h2, h3⟩ := ih (h.visit M entries R v)
      have hone : visitsOf R [v] ≤ 1 := List.countP_le_length
      have hvs : visitsOf R (v :: vs) = visitsOf R [v] + visitsOf R vs :=
        @List.countP_append _ _ [v] vs
      have hes : entriesReturningTo M entries R (v :: vs) =
          entriesReturningTo M entries R [v] + entriesReturningTo M entries R vs :=
        @List.countP_append _ _ [v] vs
      have hfinal : h.visits M entries R (v :: vs) =
          (h.visit M entries R v).visits M entries R vs := rfl
      rw [hfinal, hvs, hes]
      omega

/-- A hook changes hands only when there is none and a function is entered that returns
to `R`. -/
theorem HookState.function_visit (M entries R) (h : HookState) (v : Addr32 × σ) :
    (h.visit M entries R v).function = h.function ∨
      h.refs = 0 ∧ M.getReturnAddress v.2 = R ∧
        entries v.1 = some (h.visit M entries R v).function := by
  by_cases hv : v.1 = R
  · left
    rw [visit_self hv]
  · cases he : entries v.1 with
    | none => exact Or.inl (congrArg HookState.function (visit_of_no_entry hv he))
    | some f =>
        rw [visit_of_entry hv he]
        by_cases hret : M.getReturnAddress v.2 = R
        · by_cases hzero : h.refs = 0
          · right
            simp [hret, hzero]
          · left
            simp [hret, hzero]
        · left
          rw [if_neg hret]

/-- While references of the start are left, the hook is whose it was. -/
theorem HookState.function_visits (hR : entries R = none) (h : HookState)
    (hvs : visitsOf R vs < h.refs) : (h.visits M entries R vs).function = h.function := by
  induction vs generalizing h with
  | nil => rfl
  | cons v vs ih =>
      have hstep := refs_visit (M := M) (h := h) hR v
      rw [visitsOf_cons] at hvs hstep
      have hnil : visitsOf R ([] : List (Addr32 × σ)) = 0 := rfl
      have hrest := ih (h.visit M entries R v) (by omega)
      rcases function_visit M entries R h v with hsame | ⟨hzero, -⟩
      · exact hrest.trans hsame
      · omega

/-- When `f` is the only function entered with return address `R`, a hook of `f` stays one
of `f`. -/
theorem HookState.function_visits_of_single {f : FunctionRef} (h : HookState)
    (hvs : ∀ v ∈ vs, M.getReturnAddress v.2 = R → ∀ g, entries v.1 = some g → g = f)
    (hf : h.function = f) : (h.visits M entries R vs).function = f := by
  induction vs generalizing h with
  | nil => exact hf
  | cons v vs ih =>
      refine ih (h.visit M entries R v) (fun w hw => hvs w (List.mem_cons_of_mem v hw)) ?_
      rcases function_visit M entries R h v with
        hsame | ⟨-, hret, hentry⟩
      · exact hsame.trans hf
      · exact hvs v List.mem_cons_self hret _ hentry

end Ledger

/-- A visit of a hooked return address. -/
theorem Kernel.doAddress_hooked (h : k.interceptor.addressOfInterestMap R = some hook)
    (ht : hook.type = .returnAddress) (cpuState : σ) :
    (k.doAddress B M R cpuState).kernel.memCheck =
        (k.object hook.function).kind.leave k.memCheck ∧
      (k.doAddress B M R cpuState).kernel.object hook.function =
        { k.object hook.function with active := false } ∧
      (∀ f ≠ hook.function, (k.doAddress B M R cpuState).kernel.object f = k.object f) ∧
      ∀ pc ≠ R, (k.doAddress B M R cpuState).kernel.interceptor.addressOfInterestMap pc =
        k.interceptor.addressOfInterestMap pc := by
  rw [doAddress_of_return h ht]
  refine ⟨rfl, ?_, fun f hf => ?_, fun pc hpc => ?_⟩
  · simp [leaveFunction, object, FunctionInterceptor.setActive]
  · simp [leaveFunction, object, FunctionInterceptor.setActive, hf]
  · rw [map_leaveFunction, Function.update_of_ne hpc]

end Hooks

/-- **A hook is ended by visits of its address, and by these only.** The hook at `R` is
after any visits what the ledger says: a visit of `R`, by whatever thread and on whatever
path, takes one reference, an entry of a hooked function with return address `R` adds one,
and nothing else counts. So of `n` references and those added as many are left as the
visits of `R` have not taken. A visit of `R` with no reference left changes nothing, as does
one of any address without an entry; with a reference left it runs the `Leave` of the hook's
function, clears that function's `m_Active`, and changes no other function and no other
hook. The hook's function is the one it had, as long as references of the start are left or
no other function is entered with return address `R`. -/
theorem hook_ended_by_visits_only {σ : Type} (B : ShadowMemory.Balancer) (M : Machine σ)
    {k k' : Kernel} {R : Addr32} {h h' : HookState} {vs : List (Addr32 × σ)}
    (hR : k.entryFunction R = none)
    (hhook : k.interceptor.addressOfInterestMap R = hookOf R h.function h.refs)
    (hbound : Run.Along (HookState.visit M k.entryFunction R) (fun h _ => h.refs < 2 ^ 32)
      h vs)
    (hk' : k' = k.visits B M vs) (hh' : h' = h.visits M k.entryFunction R vs) :
    k'.interceptor.addressOfInterestMap R = hookOf R h'.function h'.refs ∧
      (visitsOf R vs ≤ h.refs →
        h'.refs + visitsOf R vs = h.refs + entriesReturningTo M k.entryFunction R vs) ∧
      h.refs + entriesReturningTo M k.entryFunction R vs ≤ h'.refs + visitsOf R vs ∧
      (visitsOf R vs < h.refs → h'.function = h.function) ∧
      ((∀ v ∈ vs, M.getReturnAddress v.2 = R → ∀ g, k.entryFunction v.1 = some g →
          g = h.function) → h'.function = h.function) ∧
      (∀ pc cpuState, k'.interceptor.addressOfInterestMap pc = none →
        (k'.doAddress B M pc cpuState).kernel = k') ∧
      (h'.refs = 0 → ∀ cpuState, (k'.doAddress B M R cpuState).kernel = k') ∧
      (h'.refs ≠ 0 → ∀ cpuState,
        (k'.doAddress B M R cpuState).kernel.memCheck =
            (k'.object h'.function).kind.leave k'.memCheck ∧
          (k'.doAddress B M R cpuState).kernel.object h'.function =
            { k'.object h'.function with active := false } ∧
          (∀ f ≠ h'.function,
            (k'.doAddress B M R cpuState).kernel.object f = k'.object f) ∧
          ∀ pc ≠ R,
            (k'.doAddress B M R cpuState).kernel.interceptor.addressOfInterestMap pc =
              k'.interceptor.addressOfInterestMap pc) := by
  have hmap : k'.interceptor.addressOfInterestMap R = hookOf R h'.function h'.refs :=
    hk' ▸ hh' ▸ (Kernel.hook_visits hR hhook hbound).2
  obtain ⟨hlow, -, hexact⟩ := HookState.refs_visits (M := M) hR h vs
  rw [← hh'] at hlow hexact
  have hnone : ∀ pc cpuState, k'.interceptor.addressOfInterestMap pc = none →
      (k'.doAddress B M pc cpuState).kernel = k' := by
    intro pc cpuState hpc
    rw [Kernel.doAddress_of_none hpc]
  refine ⟨hmap, hexact, hlow, fun hlt => hh' ▸ HookState.function_visits hR h hlt,
    fun hone => hh' ▸ HookState.function_visits_of_single h hone rfl, hnone, ?_, ?_⟩
  · intro hzero cpuState
    exact hnone R cpuState (by rw [hmap, hookOf, if_pos hzero])
  · intro hpos
    rw [hookOf, if_neg hpos] at hmap
    exact Kernel.doAddress_hooked hmap rfl

/-- The sample kernel after its heap function was entered from `0xc0200000`, with the return
address `0xc0200005`. -/
def enteredGuest : Guest Bool :=
  Guest.step SearchTree.Balancer.id machineQEMU
    ⟨⟨.register sampleFunctions [0, 1], Checker.init 0xc0400000⟩, []⟩
    (.call true 0 (cpuAt 0xc0100000 0xc0200005))

/-- Two visits of the return address of one call: the first ends the activation, the second
finds no hook. -/
theorem hook_ended_by_visits_only_twice :
    (enteredGuest.kernel.visits SearchTree.Balancer.id machineQEMU
        [(0xc0300000, cpuAt 0xc0300000 0), (0xc0200005, cpuAt 0xc0200005 0)]
          ).interceptor.addressOfInterestMap 0xc0200005 = none ∧
    ((enteredGuest.kernel.visits SearchTree.Balancer.id machineQEMU
        [(0xc0300000, cpuAt 0xc0300000 0), (0xc0200005, cpuAt 0xc0200005 0)]).doAddress
          SearchTree.Balancer.id machineQEMU 0xc0200005 (cpuAt 0xc0200005 0)).kernel =
      enteredGuest.kernel.visits SearchTree.Balancer.id machineQEMU
        [(0xc0300000, cpuAt 0xc0300000 0), (0xc0200005, cpuAt 0xc0200005 0)] := by
  have hhook : enteredGuest.kernel.interceptor.addressOfInterestMap 0xc0200005 =
      hookOf 0xc0200005 0 1 := by decide
  have hbound : Run.Along
      (HookState.visit machineQEMU enteredGuest.kernel.entryFunction 0xc0200005)
      (fun h _ => h.refs < 2 ^ 32) ⟨0, 1⟩
      [(0xc0300000, cpuAt 0xc0300000 0), (0xc0200005, cpuAt 0xc0200005 0)] := by decide
  obtain ⟨hkept, -, -, -, -, -, hgone, -⟩ := hook_ended_by_visits_only
    SearchTree.Balancer.id machineQEMU (by decide) hhook hbound rfl rfl
  exact ⟨hkept, hgone (by decide) _⟩

/-- While the call is pending, a visit of the return address that returns from nothing
removes the hook, clears `m_Active` and opens the gate. -/
theorem stray_visit_ends_activation :
    enteredGuest.kernel.interceptor.addressOfInterestMap 0xc0200005 =
        some ⟨.returnAddress, 0xc0200005, 1, 0⟩ ∧
      (enteredGuest.kernel.object 0).active = true ∧
      enteredGuest.kernel.memCheck.memoryAccessDisable = true ∧
      (enteredGuest.step SearchTree.Balancer.id machineQEMU
        (.other 0xc0200005 (cpuAt 0xc0200005 0))).pending = [⟨true, 0, 0xc0200005⟩] ∧
      (enteredGuest.step SearchTree.Balancer.id machineQEMU (.other 0xc0200005
        (cpuAt 0xc0200005 0))).kernel.interceptor.addressOfInterestMap 0xc0200005 = none ∧
      ((enteredGuest.step SearchTree.Balancer.id machineQEMU (.other 0xc0200005
        (cpuAt 0xc0200005 0))).kernel.object 0).active = false ∧
      (enteredGuest.step SearchTree.Balancer.id machineQEMU (.other 0xc0200005
        (cpuAt 0xc0200005 0))).kernel.memCheck.memoryAccessDisable = false := by
  refine ⟨by decide, by decide, by decide, by decide, by decide, by decide, by decide⟩

end MemCheck
