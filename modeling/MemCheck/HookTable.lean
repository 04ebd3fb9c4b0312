import MemCheck.Activations

/-!
# The Table of Hooks under Arbitrary Visits

Function hooks and return hooks live in one map, `m_AddressOfInterestMap`, and the guest
chooses both keys: the program counter visited and the return address found on its stack. A
return address may be a hooked entry, a return may match no call, and a call may never
return. Whatever the guest does, `DoAddress` neither removes nor overwrites a function hook,
since it erases and creates `RETURNADDRESS` entries only; entering a function whose return
address is a hooked entry merely counts that entry once more.

## Main results

* `Guarded.doAddress`: what one visit keeps;
* `hooks_survive`: every registered function stays hooked, and every other entry is a return
  hook that is referenced at least once.
-/

namespace MemCheck

/-- The table after `steps` visits: the registered functions `fs` have their entries, and
every other entry is a return hook under its own address, with a count between one and the
number of visits. -/
structure Guarded (functions : FunctionRef → FunctionObject) (fs : List FunctionRef)
    (steps : ℕ) (i : FunctionInterceptor) : Prop where
  entry : ∀ f ∈ fs, ∃ n, i.addressOfInterestMap (functions f).address =
    some ⟨.function, (functions f).address, n, f⟩
  other : ∀ pc aoi, (∀ f ∈ fs, (functions f).address ≠ pc) →
    i.addressOfInterestMap pc = some aoi →
      aoi.type = .returnAddress ∧ aoi.address = pc ∧ 1 ≤ aoi.refCnt.toNat ∧
        aoi.refCnt.toNat ≤ steps

section Guarded

variable {σ : Type} {B : ShadowMemory.Balancer} {M : Machine σ}
  {functions : FunctionRef → FunctionObject} {fs : List FunctionRef} {steps : ℕ}
  {i : FunctionInterceptor} {k : Kernel} {pc : Addr32} {aoi : AddressOfInterest}

theorem Guarded.succ (h : Guarded functions fs steps i) :
    Guarded functions fs (steps + 1) i := by
  refine ⟨h.entry, fun pc aoi hpc hmap => ?_⟩
  obtain ⟨ht, haddr, hpos, hle⟩ := h.other pc aoi hpc hmap
  exact ⟨ht, haddr, hpos, by omega⟩

/-- A return hook stands at no registered address. -/
theorem Guarded.ne_of_returnAddress (h : Guarded functions fs steps i)
    (hmap : i.addressOfInterestMap pc = some aoi) (ht : aoi.type = .returnAddress) :
    ∀ f ∈ fs, (functions f).address ≠ pc := by
  rintro f hf rfl
  obtain ⟨n, hentry⟩ := h.entry f hf
  rw [hentry, Option.some.injEq] at hmap
  subst hmap
  cases ht

/-- A return hook is referenced at least once. -/
theorem Guarded.refCnt_pos (h : Guarded functions fs steps i)
    (hmap : i.addressOfInterestMap pc = some aoi) (ht : aoi.type = .returnAddress) :
    1 ≤ aoi.refCnt.toNat :=
  (h.other pc aoi (h.ne_of_returnAddress hmap ht) hmap).2.2.1

/-- The decrement of a referenced hook does not wrap. -/
theorem toNat_refCnt_sub_one (hpos : 1 ≤ aoi.refCnt.toNat) :
    (aoi.refCnt - 1).toNat + 1 = aoi.refCnt.toNat := by
  have hsub : (aoi.refCnt - 1).toNat = aoi.refCnt.toNat - 1 :=
    UInt32.toNat_sub_of_le _ _ (UInt32.le_iff_toNat_le.mpr hpos)
  omega

/-- Leaving a function changes the return hook it leaves through, and nothing else. -/
theorem Guarded.leaveFunction (h : Guarded functions fs steps k.interceptor)
    (hmap : k.interceptor.addressOfInterestMap pc = some aoi)
    (ht : aoi.type = .returnAddress) (cpuState : σ) :
    Guarded functions fs steps (k.leaveFunction M pc aoi cpuState).kernel.interceptor := by
  have hne := h.ne_of_returnAddress hmap ht
  obtain ⟨-, haddr, hpos, hle⟩ := h.other pc aoi hne hmap
  have hsub := toNat_refCnt_sub_one hpos
  constructor
  · intro f hf
    rw [Kernel.map_leaveFunction, Function.update_of_ne (hne f hf)]
    exact h.entry f hf
  · intro pc' aoi' hpc' hmap'
    rw [Kernel.map_leaveFunction] at hmap'
    by_cases heq : pc' = pc
    · subst heq
      rw [Function.update_self] at hmap'
      split_ifs at hmap' with hzero
      -- the hook stays: the decremented count is not zero
      have hzero' : (aoi.refCnt - 1).toNat ≠ 0 := fun hc => hzero (UInt32.toNat_inj.mp hc)
      obtain rfl := Option.some.inj hmap'
      exact ⟨ht, haddr, by simp only; omega, by simp only; omega⟩
    · rw [Function.update_of_ne heq] at hmap'
      exact h.other pc' aoi' hpc' hmap'

/-- Entering a function counts the entry at its return address once more, or makes a return
hook there. -/
theorem Guarded.enterFunction (h : Guarded functions fs steps k.interceptor)
    (hsteps : steps + 1 < 2 ^ 32) (cpuState : σ) :
    Guarded functions fs (steps + 1)
      (k.enterFunction B M aoi cpuState).kernel.interceptor := by
  constructor
  · intro f hf
    obtain ⟨n, hentry⟩ := h.entry f hf
    by_cases heq : (functions f).address = M.getReturnAddress cpuState
    · rw [heq] at hentry ⊢
      refine ⟨n + 1, ?_⟩
      rw [Kernel.map_enterFunction_self, hentry]
    · exact ⟨n, (Kernel.map_enterFunction_of_ne heq).trans hentry⟩
  · intro pc' aoi' hpc' hmap'
    by_cases heq : pc' = M.getReturnAddress cpuState
    · subst heq
      rw [Kernel.map_enterFunction_self, Option.some.injEq] at hmap'
      cases hR : k.interceptor.addressOfInterestMap (M.getReturnAddress cpuState) with
      | none =>
          rw [hR] at hmap'
          subst hmap'
          exact ⟨rfl, rfl, le_rfl, Nat.le_add_left 1 steps⟩
      | some hook =>
          obtain ⟨ht, haddr, hpos, hle⟩ := h.other _ hook hpc' hR
          rw [hR] at hmap'
          have hadd : (hook.refCnt + 1).toNat = hook.refCnt.toNat + 1 := by
            rw [UInt32.toNat_add, UInt32.toNat_one, Nat.mod_eq_of_lt (by omega)]
          subst hmap'
          exact ⟨ht, haddr, by simp only; omega, by simp only; omega⟩
    · rw [Kernel.map_enterFunction_of_ne heq] at hmap'
      exact h.succ.other pc' aoi' hpc' hmap'

/-- **One visit**, of whatever address with whatever return address. -/
theorem Guarded.doAddress (h : Guarded functions fs steps k.interceptor)
    (hsteps : steps + 1 < 2 ^ 32) (pc : Addr32) (cpuState : σ) :
    Guarded functions fs (steps + 1) (k.doAddress B M pc cpuState).kernel.interceptor := by
  cases hpc : k.interceptor.addressOfInterestMap pc with
  | none =>
      rw [Kernel.doAddress_of_none hpc]
      exact h.succ
  | some aoi =>
      cases ht : aoi.type with
      | returnAddress =>
          rw [Kernel.doAddress_of_return hpc ht]
          exact (h.leaveFunction hpc ht cpuState).succ
      | function =>
          rw [Kernel.doAddress_of_function hpc ht]
          exact h.enterFunction hsteps cpuState

/-- **Whole runs** of fewer than `2 ^ 32` visits. -/
theorem Guarded.visits {vs : List (Addr32 × σ)}
    (h : Guarded functions fs steps k.interceptor) (hlen : steps + vs.length < 2 ^ 32) :
    Guarded functions fs (steps + vs.length) (k.visits B M vs).interceptor := by
  induction vs generalizing k steps with
  | nil => exact h
  | cons v vs ih =>
      rw [List.length_cons] at hlen ⊢
      have hstep := h.doAddress (B := B) (M := M) (by omega) v.1 v.2
      have hrest := ih hstep (by omega)
      rw [show steps + (vs.length + 1) = steps + 1 + vs.length by omega]
      exact hrest

/-- The table of functions registered at distinct addresses. -/
theorem guarded_register (hdistinct : (fs.map fun f => (functions f).address).Nodup) :
    Guarded functions fs 0 (FunctionInterceptor.register functions fs) := by
  constructor
  · intro f hf
    obtain ⟨f', hf', haddr, hmap⟩ := register_entry hf
    obtain rfl : f' = f := List.inj_on_of_nodup_map hdistinct hf' hf haddr
    exact ⟨1, hmap⟩
  · intro pc aoi hpc hmap
    have hnone : (FunctionInterceptor.register functions fs).addressOfInterestMap pc = none :=
      register_other hpc
    exact absurd (hmap.symm.trans hnone) (Option.some_ne_none aoi)

end Guarded

/-- **Function hooks survive any guest behaviour.** Register functions at distinct addresses
and visit arbitrary addresses with arbitrary return addresses, fewer than `2 ^ 32` times:
each registered address maps to a `FUNCTION` entry of the same function, every other entry
is a `RETURNADDRESS` entry under its own `m_Address` with `m_RefCnt` at least one, and the
decrement that the next visit of a return hook makes does not go below zero. -/
theorem hooks_survive {σ : Type} (B : ShadowMemory.Balancer) (M : Machine σ)
    (functions : FunctionRef → FunctionObject) (fs : List FunctionRef) (c : Checker)
    {vs : List (Addr32 × σ)} (hdistinct : (fs.map fun f => (functions f).address).Nodup)
    (hlen : vs.length < 2 ^ 32) {i : FunctionInterceptor}
    (hi : i = (Kernel.visits B M ⟨.register functions fs, c⟩ vs).interceptor) :
    (∀ f ∈ fs, ∃ aoi, i.addressOfInterestMap (functions f).address = some aoi ∧
        aoi.type = .function ∧ aoi.function = f) ∧
      (∀ pc aoi, (∀ f ∈ fs, (functions f).address ≠ pc) →
        i.addressOfInterestMap pc = some aoi →
          aoi.type = .returnAddress ∧ aoi.address = pc ∧ 1 ≤ aoi.refCnt.toNat) ∧
      ∀ pc aoi, i.addressOfInterestMap pc = some aoi → aoi.type = .returnAddress →
        (aoi.refCnt - 1).toNat + 1 = aoi.refCnt.toNat := by
  have hguarded : Guarded functions fs (0 + vs.length) i :=
    hi ▸ Guarded.visits (k := ⟨.register functions fs, c⟩) (guarded_register hdistinct)
      (by omega)
  refine ⟨fun f hf => ?_, fun pc aoi hpc hmap => ?_, fun pc aoi hmap ht => ?_⟩
  · obtain ⟨n, hentry⟩ := hguarded.entry f hf
    exact ⟨_, hentry, rfl, rfl⟩
  · obtain ⟨ht, haddr, hpos, -⟩ := hguarded.other pc aoi hpc hmap
    exact ⟨ht, haddr, hpos⟩
  · exact toNat_refCnt_sub_one (hguarded.refCnt_pos hmap ht)

/-- A call whose return address is the hooked entry of the other function, and a visit of
that entry: both functions stay hooked. -/
theorem hooks_survive_aliased :
    ∃ aoi, (Kernel.visits SearchTree.Balancer.id machineQEMU
        ⟨.register sampleFunctions [0, 1], Checker.init 0xc0400000⟩
        [(0xc0100000, cpuAt 0xc0100000 0xc0101000),
          (0xc0101000, cpuAt 0xc0101000 0xc0200005)]).interceptor.addressOfInterestMap
            0xc0101000 = some aoi ∧ aoi.type = .function ∧ aoi.function = 1 :=
  (hooks_survive SearchTree.Balancer.id machineQEMU sampleFunctions [0, 1]
    (Checker.init 0xc0400000) (by decide) (by decide) rfl).1 1 (by decide)

end MemCheck
