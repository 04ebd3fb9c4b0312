import MemCheck.ShadowRuns

/-!
# The Access Gate and the Access Check

The class `MemCheck` (`MemCheck.h`, `MemCheck.cpp`): the window of addresses it watches,
the gate that switches checking off while the kernel's own allocators run, and
`MemoryAccess`, which the emulator calls on every load and store.

The check is one lookup of the accessed interval. The lookup succeeds as soon as *some*
byte of the access is recorded, so an access that lies partly inside a block passes
(`report_iff_not_meets`); the check is exact for every access that is recorded as a whole
or not at all.
-/

namespace MemCheck

/-- What the check prints. The trace is the task name and the call stack. -/
inductive Report where
  | outOfBound (address length : Word32)
  | dumpTrace
  deriving DecidableEq, Repr

/-- The class `MemCheck`: the fields its methods read and write. -/
structure Checker where
  memoryAccessStart : Addr32
  memoryAccessStop : Addr32
  shadowMemory : ShadowMemory
  memoryAccessDepth : Word32
  memoryAccessDisable : Bool
  deriving DecidableEq, Repr

/-- `MemCheck::MemoryAccessEnable`. -/
def memoryAccessEnable (c : Checker) : Checker :=
  if c.memoryAccessDepth ≠ 0 then
    { c with memoryAccessDepth := c.memoryAccessDepth - 1 }
  else
    { c with memoryAccessDisable := false }

/-- `MemCheck::MemoryAccessDisable`. -/
def memoryAccessDisable (c : Checker) : Checker :=
  if c.memoryAccessDisable then
    { c with memoryAccessDepth := c.memoryAccessDepth + 1 }
  else
    { c with memoryAccessDisable := true }

/-- `MemCheck::MemoryAccess`. -/
def memoryAccess (c : Checker) (address length : Word32) : List Report :=
  if c.memoryAccessDisable then
    []
  else if address < c.memoryAccessStart ∨ c.memoryAccessStop ≤ address then
    []
  else
    match c.shadowMemory.find address length with
    | none => [.outOfBound address length, .dumpTrace]
    | some _ => []

/-- The object after its constructor and `MemCheckLinuxKernel::Init`, which takes the start
of the window from the symbol `__bss_stop`. -/
def Checker.init (bssStop : Addr32) : Checker :=
  memoryAccessEnable
    { memoryAccessStart := bssStop, memoryAccessStop := 0xdfff0000,
      shadowMemory := ShadowMemory.empty, memoryAccessDepth := 0,
      memoryAccessDisable := false }

/-! ### Coverage -/

/-- The byte `q` lies in the block `[a, a + size)`. A block of size zero covers nothing. -/
def MemoryAlloc.Covers (k : MemoryAlloc) (q : ℕ) : Prop :=
  k.address.toNat ≤ q ∧ q < k.address.toNat + k.size.toNat

instance (k : MemoryAlloc) (q : ℕ) : Decidable (k.Covers q) :=
  inferInstanceAs (Decidable (_ ∧ _))

/-- Some recorded allocation covers the byte. -/
def ShadowMemory.Covered (s : ShadowMemory) (q : ℕ) : Prop := ∃ e ∈ s.entries, e.1.Covers q

instance (s : ShadowMemory) (q : ℕ) : Decidable (s.Covered q) :=
  inferInstanceAs (Decidable (∃ e ∈ s.entries, e.1.Covers q))

theorem MemoryAlloc.Covers.contains {k : MemoryAlloc} {q : ℕ} (h : k.Covers q) :
    k.extent.Contains q := by
  obtain ⟨h1, h2⟩ := h
  exact ⟨h1, by rw [MemoryAlloc.extent_stop]; omega⟩

/-- A block that is not empty covers its extent. -/
theorem MemoryAlloc.covers_of_contains {k : MemoryAlloc} {q : ℕ} (hk : k.size ≠ 0)
    (h : k.extent.Contains q) : k.Covers q := by
  have h0 : k.size.toNat ≠ 0 := fun hc => hk (UInt32.toNat_inj.mp hc)
  obtain ⟨h1, h2⟩ := h
  rw [MemoryAlloc.extent_stop] at h2
  exact ⟨h1, by omega⟩

/-- The bytes of what a cut leaves are bytes of the entry that were not cut. -/
theorem ShadowMemory.covers_of_mem_remnants {type : ℤ} {e r : Entry} {p n : Word32}
    (hfit : e.1.Fits) (hlo : e.1.address.toNat ≤ p.toNat)
    (hhi : p.toNat + n.toNat ≤ e.1.address.toNat + e.1.size.toNat)
    (hr : r ∈ remnants type e p n) {q : ℕ} (hq : r.1.Covers q) :
    e.1.Covers q ∧ ¬ (⟨p, n⟩ : MemoryAlloc).Covers q := by
  obtain ⟨-, hends⟩ := of_mem_remnants type hfit hlo hhi hr
  simp only [MemoryAlloc.Covers] at hq ⊢
  omega

/-- An allocation, a free or a sized free; allocations end below `2 ^ 32`. -/
def Op.Whole (_ : ShadowMemory) : Op → Prop
  | newMemoryAlloc _ p n => p.toNat + n.toNat < 2 ^ 32
  | freeMemory _ _ => True
  | freeSizeMemory _ _ _ => True
  | freeAnySizeMemory _ _ _ => False

instance (s : ShadowMemory) : (op : Op) → Decidable (op.Whole s)
  | .newMemoryAlloc _ _ _ => inferInstanceAs (Decidable (_ < _))
  | .freeMemory _ _ => isTrue trivial
  | .freeSizeMemory _ _ _ => isTrue trivial
  | .freeAnySizeMemory _ _ _ => isFalse id

theorem Op.Whole.admissible {s : ShadowMemory} {op : Op} (h : op.Whole s) :
    op.Admissible s := by
  cases op with
  | newMemoryAlloc type p n => exact h
  | freeMemory type p => exact h
  | freeSizeMemory type p n => exact h
  | freeAnySizeMemory type p n => exact h.elim

theorem ShadowMemory.wellFormed_of_whole {steps : List (Balancer × Op)}
    (h : Run.Along step (fun s a => a.2.Whole s) empty steps) :
    (run empty steps).WellFormed :=
  h.final (fun _ a (hs : WellFormed _) ha =>
    (Op.perform_wellFormed a.1 hs ha.admissible).wellFormed) wellFormed_empty

/-! ### Exactness of the check -/

variable {c : Checker} {address length : Word32}

/-- The check as one lookup: inside the window and with the gate open, a report is printed
exactly when no recorded extent meets the access. -/
theorem report_iff_not_meets (hwf : c.shadowMemory.WellFormed)
    (hopen : c.memoryAccessDisable = false) (hstart : c.memoryAccessStart ≤ address)
    (hstop : address < c.memoryAccessStop) (hfit : MemoryAlloc.Fits ⟨address, length⟩) :
    .outOfBound address length ∈ memoryAccess c address length ↔
      ∀ e ∈ c.shadowMemory.entries,
        ¬ e.1.extent.Meets (⟨address, length⟩ : MemoryAlloc).extent := by
  have hin : ¬ (address < c.memoryAccessStart ∨ c.memoryAccessStop ≤ address) := by
    rintro (h | h)
    · exact UInt32.not_lt.mpr hstart h
    · exact UInt32.not_le.mpr hstop h
  rw [← hwf.find_eq_none_iff hfit, memoryAccess, if_neg (by simp [hopen]), if_neg hin]
  cases hfind : c.shadowMemory.find address length with
  | none => simp
  | some pos => simp

/-- **When the access check is exact.** With the gate open and inside the window, a report
is printed exactly for the accesses with an uncovered byte, if and only if the access
meets no recorded extent or all of its bytes are covered. -/
theorem report_exact_iff {steps : List (ShadowMemory.Balancer × Op)}
    (hsteps : Run.Along ShadowMemory.step (fun s a => a.2.Whole s) ShadowMemory.empty steps)
    (hshadow : c.shadowMemory = ShadowMemory.run ShadowMemory.empty steps)
    (hopen : c.memoryAccessDisable = false) (hinit : c.memoryAccessStop = 0xdfff0000)
    (hstart : c.memoryAccessStart ≤ address) (hstop : address < c.memoryAccessStop)
    (hlength : length ∈ [1, 2, 4, 8]) :
    ((.outOfBound address length ∈ memoryAccess c address length ↔
        ∃ q, address.toNat ≤ q ∧ q < address.toNat + length.toNat ∧
          ¬ c.shadowMemory.Covered q) ↔
      (∀ e ∈ c.shadowMemory.entries,
          ¬ e.1.extent.Meets (⟨address, length⟩ : MemoryAlloc).extent) ∨
        ∀ q, address.toNat ≤ q → q < address.toNat + length.toNat →
          c.shadowMemory.Covered q) := by
  have hwf : c.shadowMemory.WellFormed := hshadow ▸ ShadowMemory.wellFormed_of_whole hsteps
  have hlen : 1 ≤ length.toNat ∧ length.toNat ≤ 8 := by
    simp only [List.mem_cons, List.not_mem_nil, or_false] at hlength
    rcases hlength with rfl | rfl | rfl | rfl <;> decide
  have hfit : MemoryAlloc.Fits ⟨address, length⟩ := by
    rw [hinit, UInt32.lt_iff_toNat_lt] at hstop
    have hval : (0xdfff0000 : UInt32).toNat = 0xdfff0000 := rfl
    simp only [MemoryAlloc.Fits]
    omega
  rw [report_iff_not_meets hwf hopen hstart hstop hfit]
  by_cases hmeets : ∀ e ∈ c.shadowMemory.entries,
      ¬ e.1.extent.Meets (⟨address, length⟩ : MemoryAlloc).extent
  · -- nothing recorded meets the access, so its first byte is uncovered
    refine iff_of_true (iff_of_true hmeets ⟨address.toNat, le_rfl, by omega, ?_⟩)
      (Or.inl hmeets)
    rintro ⟨e, he, hcov⟩
    refine hmeets e he (Extent.meets_iff_exists.mpr ⟨_, hcov.contains, le_rfl, ?_⟩)
    simp only [MemoryAlloc.extent_stop]
    omega
  · -- some block meets it: nothing is printed, which is right if every byte is covered
    simp only [iff_false_left hmeets, or_iff_right hmeets, not_exists, not_and, not_not]

/-- The checker of a guest that has obtained one block of eight bytes. -/
def oneBlock : Checker :=
  { Checker.init 0xc0400000 with
    shadowMemory := ShadowMemory.run ShadowMemory.empty
      (ShadowMemory.plain [.newMemoryAlloc 0 0xc1000000 8]) }

/-- An access inside that block: the check is exact there. -/
theorem report_exact_iff_inside :
    (.outOfBound 0xc1000004 4 ∈ memoryAccess oneBlock 0xc1000004 4 ↔
      ∃ q, (0xc1000004 : Addr32).toNat ≤ q ∧
        q < (0xc1000004 : Addr32).toNat + (4 : Word32).toNat ∧
        ¬ oneBlock.shadowMemory.Covered q) := by
  have hsteps : Run.Along ShadowMemory.step (fun s a => a.2.Whole s) ShadowMemory.empty
      (ShadowMemory.plain [.newMemoryAlloc 0 0xc1000000 8]) := by decide
  refine (report_exact_iff hsteps rfl rfl rfl (by decide) (by decide)
    (by decide)).mpr (Or.inr fun q h1 h2 => ?_)
  exact ⟨(⟨0xc1000000, 8⟩, ⟨0⟩), by decide, le_trans (by decide) h1, h2.trans_le (by decide)⟩

/-- An access of four bytes that leaves the block after two of them is not reported. -/
theorem straddling_access_unreported :
    Run.Along ShadowMemory.step (fun s a => a.2.Whole s) ShadowMemory.empty
        (ShadowMemory.plain [.newMemoryAlloc 0 0xc1000000 8]) ∧
      oneBlock.memoryAccessDisable = false ∧ oneBlock.memoryAccessStop = 0xdfff0000 ∧
      oneBlock.memoryAccessStart ≤ 0xc1000006 ∧ 0xc1000006 < oneBlock.memoryAccessStop ∧
      ¬ (.outOfBound 0xc1000006 4 ∈ memoryAccess oneBlock 0xc1000006 4 ↔
        ∃ q, (0xc1000006 : Addr32).toNat ≤ q ∧
          q < (0xc1000006 : Addr32).toNat + (4 : Word32).toNat ∧
          ¬ oneBlock.shadowMemory.Covered q) := by
  refine ⟨by decide, rfl, rfl, by decide, by decide, fun h => ?_⟩
  exact absurd (h.mpr ⟨0xc1000008, by decide, by decide, by decide⟩) (by decide)

end MemCheck
