import MemCheck.PageWalk

/-!
# What the Page Tables Say

A walk that ends with a page allows the access it was made for: the entry of `tlb_table` that is
made from it has the right, so that the access is found the next time it is tried.
-/

namespace MemCheck

open LongJump (Triple)

/-! ### Entries of tables -/

/-- Only the bits that note accesses and writes may differ. -/
def Touched (e e' : UInt64) : Prop :=
  e' &&& ~~~ (pgAccessedMask ||| pgDirtyMask) = e &&& ~~~ (pgAccessedMask ||| pgDirtyMask)

section Touched

variable {e e' k : UInt64}

theorem or_and_distrib64 (a b m : UInt64) : (a ||| b) &&& m = (a &&& m) ||| (b &&& m) := by
  refine UInt64.toBitVec_inj.mp ?_
  rw [UInt64.toBitVec_and, UInt64.toBitVec_or, UInt64.toBitVec_or, UInt64.toBitVec_and,
    UInt64.toBitVec_and, BitVec.and_or_distrib_right]

theorem or_and_ne_zero (a : UInt64) {b : UInt64} (hb : b ≠ 0) : (a ||| b) &&& b ≠ 0 := by
  rw [or_and_distrib64, UInt64.and_self]
  intro hzero
  refine hb (UInt64.toBitVec_inj.mp ?_)
  have hor := congrArg UInt64.toBitVec hzero
  rw [UInt64.toBitVec_or] at hor
  exact (BitVec.or_eq_zero_iff.mp hor).2

/-- The other bits are the same. -/
theorem Touched.and (h : Touched e e') (hk : ~~~ (pgAccessedMask ||| pgDirtyMask) &&& k = k) :
    e' &&& k = e &&& k := by
  rw [← hk, ← UInt64.and_assoc, ← UInt64.and_assoc, h]

theorem Touched.refl (e : UInt64) : Touched e e := rfl

theorem Touched.or {x : UInt64} (hx : x &&& ~~~ (pgAccessedMask ||| pgDirtyMask) = 0) :
    Touched e (e ||| x) := by
  rw [Touched, or_and_distrib64, hx, UInt64.or_zero]

theorem Touched.trans {e'' : UInt64} (h : Touched e e') (h' : Touched e' e'') : Touched e e'' :=
  Eq.trans h' h

theorem toUInt64_and_pgNxMask (x : Word32) : x.toUInt64 &&& pgNxMask = 0 := by
  have hnx : pgNxMask.toNat = 2 ^ 63 := rfl
  refine UInt64.toNat_inj.mp ?_
  rw [UInt64.toNat_and, UInt32.toNat_toUInt64, hnx, Nat.and_two_pow,
    Nat.testBit_lt_two_pow (x.toNat_lt.trans_le (by decide))]
  rfl

end Touched

/-! ### Rights -/

/-- The right to make an access. -/
def Prot.allows (p : Prot) : Access → Bool
  | .read => p.read
  | .write => p.write
  | .fetch => p.exec

/-- If the walk ends with a page, the page may be accessed. -/
def Walk.Grants (r : MmuRegs) (mmu : MmuIdx) (access : Access) : Walk → Prop
  | .fault _ => True
  | .page pte ptep _ => (r.protFor pte ptep mmu).allows access = true

section Rights

variable {hw : Board} {r : MmuRegs} {addr : Addr32} {access : Access} {mmu : MmuIdx}

/-- An access that is not refused is granted, once the page is noted as written. -/
theorem MmuRegs.grants_of_not_refuses {pte ptep rights : UInt64} {pageSize : Word32}
    (h : ¬ r.refuses rights mmu access = true)
    (hrw : ptep &&& pgRwMask = rights &&& pgRwMask)
    (hdirty : access = .write → pte &&& pgDirtyMask ≠ 0)
    (hexec : access = .fetch → ptep &&& pgNxMask = 0) :
    (Walk.page pte ptep pageSize).Grants r mmu access := by
  cases access with
  | read => rfl
  | fetch => exact beq_iff_eq.mpr (hexec rfl)
  | write =>
      have hd : (pte &&& pgDirtyMask != 0) = true := bne_iff_ne.mpr (hdirty rfl)
      cases mmu with
      | user =>
          simp only [MmuRegs.refuses, Access.isWrite, Bool.true_and, Bool.or_eq_true, not_or] at h
          simp only [Walk.Grants, Prot.allows, MmuRegs.protFor, hd, Bool.true_and, hrw]
          exact Bool.not_eq_true' _ ▸ Bool.eq_false_iff.mpr h.2
      | kernel =>
          simp only [MmuRegs.refuses, Access.isWrite, Bool.and_true] at h
          simp only [Walk.Grants, Prot.allows, MmuRegs.protFor, hd, Bool.true_and, hrw]
          revert h
          rw [bne, bne]
          cases (r.cr0 &&& cr0WpMask == 0) <;> cases (rights &&& pgRwMask == 0) <;> decide

/-- The program never leaves early. -/
abbrev Returns {α : Type} (x : Emu α) : Prop :=
  Triple (fun _ => True) x (fun _ _ => True) (fun _ _ => False)

theorem returns_ldlPhys : Returns (ldlPhys hw addr) :=
  Triple.ite (fun _ _ _ => trivial) fun _ _ _ => trivial

theorem returns_ldqPhys : Returns (ldqPhys hw addr) :=
  Triple.ite (fun _ _ _ => trivial) fun _ _ _ => trivial

theorem returns_stlPhysNotdirty {val : Word32} : Returns (stlPhysNotdirty hw addr val) :=
  Triple.ite (fun _ _ _ => trivial) fun _ _ _ => trivial

theorem triple_touchTable {entry : UInt64} :
    Triple (fun _ => True) (touchTable hw addr entry) (fun e _ => Touched entry e)
      (fun _ _ => False) :=
  .ite (fun _ => returns_stlPhysNotdirty.bind fun _ => .pure fun _ _ => .or (by decide))
    fun _ => .pure fun _ _ => .refl entry

/-- A page that is written is noted as such. -/
theorem triple_touchPage {entry : UInt64} :
    Triple (fun _ => True) (touchPage hw addr entry access)
      (fun e _ => Touched entry e ∧ (access = .write → e &&& pgDirtyMask ≠ 0))
      (fun _ _ => False) := by
  have haccessed : Touched entry (entry ||| pgAccessedMask) := .or (by decide)
  refine .ite (fun _ => returns_stlPhysNotdirty.bind fun _ => .pure fun _ _ => ?_)
    fun hnot => .pure fun _ _ => ⟨.refl entry, ?_⟩
  · split_ifs with hdirty
    · exact ⟨haccessed.trans (.or (by decide)), fun _ => or_and_ne_zero _ (by decide)⟩
    · refine ⟨haccessed, ?_⟩
      rintro rfl
      rw [Access.isWrite, Bool.true_and, beq_iff_eq] at hdirty
      rwa [or_and_distrib64, show pgAccessedMask &&& pgDirtyMask = 0 by decide, UInt64.or_zero]
  · rintro rfl hclean
    exact hnot (.inr (by rw [Access.isWrite, hclean]; rfl))

/-- **A walk through two levels** grants what it is made for. -/
theorem triple_walkLegacy :
    Triple (fun _ => True) (walkLegacy hw r addr access mmu) (fun w _ => w.Grants r mmu access)
      (fun _ _ => False) := by
  refine returns_ldlPhys.bind fun pde => .ite (fun _ => .pure fun _ _ => trivial) fun _ =>
    .ite (fun _ => .ite (fun _ => .pure fun _ _ => trivial) fun hallowed => ?_) fun _ => ?_
  · refine (triple_touchPage).bind fun e => .pure fun _ ⟨htouched, hdirty⟩ => ?_
    refine MmuRegs.grants_of_not_refuses hallowed ?_ (fun hwrite => ?_) fun _ => ?_
    · rw [UInt64.and_assoc]
      exact htouched.and (by decide)
    · rw [UInt64.and_assoc]
      exact hdirty hwrite
    · rw [UInt64.and_assoc, show (0xffc00fff : UInt64) &&& pgNxMask = 0 by decide,
        UInt64.and_zero]
  · refine triple_touchTable.bind fun pde' =>
      (Triple.strengthen_pre returns_ldlPhys fun _ _ => trivial).bind fun pte =>
        .ite (fun _ => .pure fun _ _ => trivial) fun _ =>
        .ite (fun _ => .pure fun _ _ => trivial) fun hallowed =>
          triple_touchPage.bind fun e => .pure fun _ ⟨_, hdirty⟩ => ?_
    refine MmuRegs.grants_of_not_refuses hallowed rfl hdirty fun _ => ?_
    rw [UInt64.and_assoc, UInt64.and_comm _ pgNxMask, ← UInt64.and_assoc,
      toUInt64_and_pgNxMask, UInt64.zero_and]

/-- **A walk through three levels** grants what it is made for. -/
theorem triple_walkPae :
    Triple (fun _ => True) (walkPae hw r addr access mmu) (fun w _ => w.Grants r mmu access)
      (fun _ _ => False) := by
  refine returns_ldqPhys.bind fun pdpe => .ite (fun _ => .pure fun _ _ => trivial) fun _ =>
    returns_ldqPhys.bind fun pde => .ite (fun _ => .pure fun _ _ => trivial) fun _ =>
    .ite (fun _ => .pure fun _ _ => trivial) fun _ => .ite (fun _ => ?_) fun _ => ?_
  · refine .ite (fun _ => .pure fun _ _ => trivial) fun hallowed =>
      triple_touchPage.bind fun e => .pure fun _ ⟨_, hdirty⟩ => ?_
    rw [not_or] at hallowed
    refine MmuRegs.grants_of_not_refuses hallowed.2 rfl (fun hwrite => ?_) fun hfetch => ?_
    · rw [UInt64.and_assoc]
      exact hdirty hwrite
    · exact not_not.mp fun hnx => hallowed.1 ⟨hnx, hfetch⟩
  · refine triple_touchTable.bind fun pde' =>
      (Triple.strengthen_pre returns_ldqPhys fun _ _ => trivial).bind fun pte =>
        .ite (fun _ => .pure fun _ _ => trivial) fun _ =>
        .ite (fun _ => .pure fun _ _ => trivial) fun _ =>
        .ite (fun _ => .pure fun _ _ => trivial) fun hallowed =>
          triple_touchPage.bind fun e => .pure fun _ ⟨_, hdirty⟩ => ?_
    rw [not_or] at hallowed
    refine MmuRegs.grants_of_not_refuses hallowed.2 rfl (fun hwrite => ?_) fun hfetch => ?_
    · rw [UInt64.and_assoc]
      exact hdirty hwrite
    · exact not_not.mp fun hnx => hallowed.1 ⟨hnx, hfetch⟩

end Rights

end MemCheck
