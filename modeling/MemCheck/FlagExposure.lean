import MemCheck.FlagLiveness

/-!
# Writes That the Pass Must Not Leave Out

The pass over the flags sees nothing of an instruction but its row in the tables. This module
shows that the condition under which `FlagLiveness` proves the pass right is the weakest one on
the rows and the counts of zero: if something that is lost with a write is needed in some run,
there is a run with the same rows and the same counts of zero that ends with another result.

That run is made of *probes*, one for each row: instructions on registers whose second operand
is an immediate. `EAX` takes the results nobody looks at. Before the write that is left out,
`ECX` and `EDX` hold zero and all ones; the probe takes one or the other, so that the flags it
should have written differ from what the state still holds. If they are read before the end,
the result goes to `EBX`.

## Main results

* `exists_kinds`: every row is one of ten;
* `exists_exposed`: what is lost and needed can be made visible;
* `optimize_flags_preserves_iff`: the condition on the rows is exact.
-/

namespace MemCheck

open BackwardPass

/-! ### Probes -/

/-- What a row can be. -/
inductive RowKind where
  /-- All flags are written, and this can be left out. -/
  | update
  /-- So they are by a logic operation, whose carry and overflow are known without. -/
  | logic
  /-- All flags are written. -/
  | compare
  /-- The carry is read and all flags are written. -/
  | carry
  /-- Overflow and carry are written, and this can be left out. -/
  | rotate
  /-- The carry is read, and overflow and carry are written. -/
  | rotateCarry
  | idleShift
  | idleShiftMem
  | idleRotate
  | idleRotateCarry
  deriving DecidableEq, Repr

namespace RowKind

/-- A row that loses all it writes. -/
def lossyRow (reads writes : Finset Flag) (simplifies idle : Bool) : Row Flag :=
  ⟨reads, writes, writes, Finset.Subset.refl _, simplifies, idle⟩

/-- The row. -/
def row : RowKind → Row Flag
  | update => lossyRow ∅ ccOSZAPC true false
  | logic => ccRow .update1Cc false
  | compare => lossyRow ∅ ccOSZAPC false false
  | carry => lossyRow {.c} ccOSZAPC false false
  | rotate => lossyRow ∅ {.o, .c} true false
  | rotateCarry => lossyRow {.c} {.o, .c} false false
  | idleShift => lossyRow ∅ ccOSZAPC true true
  | idleShiftMem => lossyRow ∅ ccOSZAPC false true
  | idleRotate => lossyRow ∅ {.o, .c} true true
  | idleRotateCarry => lossyRow {.c} {.o, .c} false true

/-- An instruction with the row. -/
def insn (d : Fin 8) : RowKind → CcInsn
  | update => .arith .addl .long (some d)
  | logic => .arith .orl .long (some d)
  | compare => .arith .cmpl .long (some d)
  | carry => .arith .adcl .long (some d)
  | rotate => .shift .rol .long (some d) none
  | rotateCarry => .shift .rcl .long (some d) none
  | idleShift => .shift .shl .long (some d) none
  | idleShiftMem => .shift .shl .long none none
  | idleRotate => .shift .rol .long (some d) none
  | idleRotateCarry => .shift .rcl .long (some d) none

/-- The second operand; for an addition it is the given one. -/
def operand (im : TargetUlong) : RowKind → TargetUlong
  | update => im
  | rotate => 1
  | rotateCarry => 1
  | _ => 0

end RowKind

/-- A row's instruction, the register it works on, and the second operand. -/
structure Probe where
  kind : RowKind
  dest : Fin 8
  im : TargetUlong

/-- The instruction. -/
def Probe.insn (p : Probe) : BlockInsn := ⟨[.movlT1Im (p.kind.operand p.im)], p.kind.insn p.dest⟩

namespace RowKind

/-- Every row writes overflow and carry. -/
theorem oc_subset_writes (k : RowKind) : {.o, .c} ⊆ k.row.writes := by
  cases k <;> decide

/-- No row reads anything but the carry. -/
theorem reads_subset (k : RowKind) : k.row.reads ⊆ {.c} := by
  cases k <;> decide

/-- A row writes overflow and carry only, or all flags. -/
theorem writes_eq (k : RowKind) : k.row.writes = {.o, .c} ∨ k.row.writes = ccOSZAPC := by
  cases k <;> decide

end RowKind

/-- A probe that nobody looks at. -/
def RowKind.quiet (k : RowKind) : Probe := ⟨k, rEAX, 0⟩

section Rows

variable {mi : MemIndex} {ccOp : KnownCcOp} {s : Cpu}

/-- A shift or rotate has one of the rows. -/
theorem exists_kind_shift (k : Shift) (ot : Ot) (mem : Option MemIndex) (idle : Bool) :
    ∃ kind : RowKind, ccRow (.shiftCc k ot mem) idle = kind.row := by
  have hrotate : ∀ r : Row Flag, r = RowKind.lossyRow ∅ {.o, .c} true idle →
      ∃ kind : RowKind, r = kind.row := by
    rintro r rfl
    cases idle with
    | false => exact ⟨.rotate, rfl⟩
    | true => exact ⟨.idleRotate, rfl⟩
  have hcarry : ∀ r : Row Flag, r = RowKind.lossyRow {.c} {.o, .c} false idle →
      ∃ kind : RowKind, r = kind.row := by
    rintro r rfl
    cases idle with
    | false => exact ⟨.rotateCarry, rfl⟩
    | true => exact ⟨.idleRotateCarry, rfl⟩
  have hshift : ∀ r : Row Flag, r = RowKind.lossyRow ∅ ccOSZAPC mem.isNone idle →
      ∃ kind : RowKind, r = kind.row := by
    rintro r rfl
    cases mem with
    | none =>
        cases idle with
        | false => exact ⟨.update, rfl⟩
        | true => exact ⟨.idleShift, rfl⟩
    | some mi =>
        cases idle with
        | false => exact ⟨.compare, rfl⟩
        | true => exact ⟨.idleShiftMem, rfl⟩
  cases k with
  | rol => exact hrotate _ rfl
  | ror => exact hrotate _ rfl
  | rcl => exact hcarry _ rfl
  | rcr => exact hcarry _ rfl
  | shl => exact hshift _ (by cases mem <;> rfl)
  | shr => exact hshift _ (by cases mem <;> rfl)
  | sar => exact hshift _ (by cases mem <;> rfl)

/-- Every instruction has one of the rows. -/
theorem exists_kind (mi : MemIndex) (ccOp : KnownCcOp) (i : BlockInsn) (s : Cpu) :
    ∃ kind : RowKind, i.row mi ccOp s = kind.row := by
  obtain ⟨loads, insn⟩ := i
  cases insn with
  | arith op ot d =>
      cases op with
      | addl => exact ⟨.update, rfl⟩
      | subl => exact ⟨.update, rfl⟩
      | orl => exact ⟨.logic, rfl⟩
      | andl => exact ⟨.logic, rfl⟩
      | xorl => exact ⟨.logic, rfl⟩
      | cmpl => exact ⟨.compare, rfl⟩
      | adcl => exact ⟨.carry, rfl⟩
      | sbbl => exact ⟨.carry, rfl⟩
  | inc ot d up => exact ⟨.carry, rfl⟩
  | shift op ot d r => exact exists_kind_shift _ _ _ _

/-- **Every row is one of ten.** -/
theorem exists_kinds (mi : MemIndex) (ccOp : KnownCcOp) (is : List BlockInsn) (s : Cpu) :
    ∃ kinds : List RowKind, flagRows mi ccOp is s = kinds.map RowKind.row := by
  induction is generalizing ccOp s with
  | nil => exact ⟨[], rfl⟩
  | cons i is ih =>
      obtain ⟨kind, hkind⟩ := exists_kind mi ccOp i s
      obtain ⟨kinds, hkinds⟩ := ih (i.gen mi ccOp).2 (execOps (i.gen mi ccOp).1 s)
      exact ⟨kind :: kinds, by rw [flagRows, hkind, hkinds, List.map_cons]⟩

theorem t1_pre_probe (p : Probe) (s : Cpu) :
    (execOps (p.insn.pre mi ccOp) s).core.t1 = p.kind.operand p.im := by
  obtain ⟨kind, d, im⟩ := p
  cases kind <;> cases ccOp <;> rfl

/-- A probe has its row in every state. -/
theorem row_probe (p : Probe) (s : Cpu) : p.insn.row mi ccOp s = p.kind.row := by
  have hzero : ∀ k : Shift, (k.count .long 0 == 0) = true := by rintro ⟨⟩ <;> decide
  have hone : ∀ k : Shift, (k.count .long 1 == 0) = false := by rintro ⟨⟩ <;> decide
  rw [BlockInsn.row, t1_pre_probe]
  obtain ⟨kind, d, im⟩ := p
  cases kind with
  | update => rfl
  | logic => rfl
  | compare => rfl
  | carry => rfl
  | rotate => exact congrArg (Row.mk _ _ _ _ _) (hone .rol)
  | rotateCarry => exact congrArg (Row.mk _ _ _ _ _) (hone .rcl)
  | idleShift => exact congrArg (Row.mk _ _ _ _ _) (hzero .shl)
  | idleShiftMem => exact congrArg (Row.mk _ _ _ _ _) (hzero .shl)
  | idleRotate => exact congrArg (Row.mk _ _ _ _ _) (hzero .rol)
  | idleRotateCarry => exact congrArg (Row.mk _ _ _ _ _) (hzero .rcl)

theorem flagRows_probes (ps : List Probe) (s : Cpu) :
    flagRows mi ccOp (ps.map Probe.insn) s = (ps.map Probe.kind).map RowKind.row := by
  induction ps generalizing ccOp s with
  | nil => rfl
  | cons p ps ih => rw [List.map_cons, flagRows, row_probe, ih, List.map_cons, List.map_cons]

end Rows

/-! ### What a probe does -/

/-- `compute_all` and `compute_c` agree on the carry. -/
theorem computeC_and_ccC (l : LazyFlags) : l.computeC &&& ccC = l.computeAll &&& ccC := by
  have hzero : (0 : TargetUlong) &&& ccC = 0#32 := by decide
  have hp : ∀ x, parityTable x &&& ccC = 0#32 := parityTable_and (by decide)
  have hshift : ∀ x : TargetUlong, x <<< 11 &&& ccC = 0#32 := by
    intro x
    rw [ccC]
    exact (BitVec.and_one_eq_setWidth_ofBool_getLsbD (x := x <<< 11)).trans (by simp)
  have hz : ∀ ot x, zf ot x &&& ccC = 0#32 := zf_and (by decide)
  have hs : ∀ ot x, sf ot x &&& ccC = 0#32 := sf_and (by decide)
  have ha : ∀ x y z, af x y z &&& ccC = 0#32 := fun x y z => and_mask_and (by decide) _
  have ho : ∀ ot x, overflow ot x &&& ccC = 0#32 := fun ot x => and_mask_and (by decide) _
  obtain ⟨op, src, dst⟩ := l
  cases op <;>
    simp only [LazyFlags.computeC, LazyFlags.computeAll, LazyFlags.arith,
      BitVec.and_or_distrib_right, hzero, hp, hz, hs, ha, ho, hshift, BitVec.or_zero,
      BitVec.and_assoc, BitVec.and_self]

/-- What an instruction does after the pass. -/
def BlockInsn.passed (mi : MemIndex) (ccOp : KnownCcOp) (live : Finset Flag) (i : BlockInsn)
    (s : Cpu) : Cpu :=
  execOps (pass opcTables (i.gen mi ccOp).1 live).1 s

section Passed

variable {mi : MemIndex} {ccOp : KnownCcOp} {live : Finset Flag} {i : BlockInsn} {s : Cpu}

theorem passed_eq : i.passed mi ccOp live s =
    execOps i.insn.post ((opcTables.rewrite live (i.insn.flagOp mi)).exec
      (execOps (i.pre mi ccOp) s)) := by
  rw [BlockInsn.passed, pass_gen, execOps_append, execOps_cons]

/-- Every instruction writes the carry. -/
theorem carry_mem_writes (insn : CcInsn) : Flag.c ∈ opcTables.writes (insn.flagOp mi) := by
  have hall := mem_ccOSZAPC .c
  have hoc : Flag.c ∈ ({.o, .c} : Finset Flag) :=
    Finset.mem_insert_of_mem (Finset.mem_singleton_self _)
  cases insn with
  | arith op ot d => cases op <;> exact hall
  | inc ot d up => exact hall
  | shift op ot d r => cases op <;> first | exact hall | exact hoc

/-- If all flags are live the pass leaves an instruction alone. -/
theorem passed_all : i.passed mi ccOp ccOSZAPC s = execOps (i.gen mi ccOp).1 s := by
  have hlive : ¬ Disjoint ccOSZAPC (opcTables.writes (i.insn.flagOp mi)) :=
    Finset.not_disjoint_iff.mpr ⟨.c, mem_ccOSZAPC .c, carry_mem_writes i.insn⟩
  rw [BlockInsn.passed, pass_gen, Tables.rewrite, if_neg hlive, gen_eq]

theorem regs_exec_shiftCc {k : Shift} {ot : Ot} {mem : Option MemIndex} :
    ((CcMicroOp.shiftCc k ot mem).exec s).core.regs = s.core.regs := by
  rw [CcMicroOp.exec]
  split_ifs
  · cases mem <;> rfl
  · rfl

theorem core_exec_rewrite_shift_reg {k : Shift} {ot : Ot} :
    ((opcTables.rewrite live (.shiftCc k ot none)).exec s).core = s.core := by
  obtain hkept | ⟨k', -, hrewrite, -⟩ := rewrite_shiftCc k ot none live
  · rw [hkept, core_exec_shiftCc_reg]
  · rw [hrewrite, core_exec_shift_reg]

theorem regs_exec_movRegT0 (r : Fin 8) (s : Cpu) :
    ((CcMicroOp.movRegT0 .long r).exec s).core.regs r = s.t0 := by
  simp only [CcMicroOp.exec, writeReg, Function.update_self]

/-- What a shift or rotate of a register by an immediate does. -/
theorem passed_shift {op : ShiftOp} {d : Fin 8} {im : TargetUlong} :
    BlockInsn.passed mi ccOp live ⟨[.movlT1Im im], .shift op .long (some d) none⟩ s =
      (CcMicroOp.movRegT0 .long d).exec
        ((opcTables.rewrite live (.shiftCc op.micro .long none)).exec
          ⟨{ s.core with t1 := im }, s.core.regs d, effective ccOp s.flags⟩) := by
  rw [passed_eq]
  cases ccOp <;> rfl

/-- A shift or rotate of a register changes no other. -/
theorem regs_passed_shift {op : ShiftOp} {d r : Fin 8} {im : TargetUlong} (hr : r ≠ d) :
    (BlockInsn.passed mi ccOp live ⟨[.movlT1Im im], .shift op .long (some d) none⟩ s).core.regs r =
      s.core.regs r := by
  rw [passed_shift]
  change Function.update _ d _ r = _
  rw [Function.update_of_ne hr, core_exec_rewrite_shift_reg]

/-- The updates of the flags touch nothing else, kept or left out. -/
theorem core_exec_rewrite_update {o : CcMicroOp} (ho : o = .update2Cc ∨ o = .update1Cc) :
    ((opcTables.rewrite live o).exec s).core = s.core := by
  rw [Tables.rewrite]
  obtain rfl | rfl := ho
  · split_ifs <;> rfl
  · split_ifs <;> rfl

/-- A probe changes no other register. -/
theorem regs_probe (p : Probe) (s : Cpu) {r : Fin 8} (hr : r ≠ p.dest) :
    (p.insn.passed mi ccOp live s).core.regs r = s.core.regs r := by
  obtain ⟨kind, d, im⟩ := p
  replace hr : r ≠ d := hr
  cases kind with
  | update =>
      rw [passed_eq]
      change ((opcTables.rewrite live .update2Cc).exec _).core.regs r = _
      rw [core_exec_rewrite_update (Or.inl rfl)]
      exact Function.update_of_ne hr _ _
  | logic =>
      rw [passed_eq]
      change ((opcTables.rewrite live .update1Cc).exec _).core.regs r = _
      rw [core_exec_rewrite_update (Or.inr rfl)]
      exact Function.update_of_ne hr _ _
  | compare =>
      rw [passed_eq, rewrite_of_simpler rfl]
      rfl
  | carry =>
      rw [passed_eq, rewrite_of_simpler rfl]
      cases ccOp <;> exact Function.update_of_ne hr _ _
  | idleShiftMem =>
      rw [passed_eq, rewrite_of_simpler rfl]
      change ((CcMicroOp.shiftCc .shl .long (some mi)).exec _).core.regs r = _
      rw [regs_exec_shiftCc]
      cases ccOp <;> rfl
  | rotate => exact regs_passed_shift hr
  | rotateCarry => exact regs_passed_shift hr
  | idleShift => exact regs_passed_shift hr
  | idleRotate => exact regs_passed_shift hr
  | idleRotateCarry => exact regs_passed_shift hr

theorem regs_quiet (kind : RowKind) (s : Cpu) {r : Fin 8} (hr : r ≠ rEAX) :
    (kind.quiet.insn.passed mi ccOp live s).core.regs r = s.core.regs r :=
  regs_probe kind.quiet s hr

/-- An idle instruction leaves the flags. -/
theorem flags_passed_idle (hidle : (i.row mi ccOp s).idle = true) :
    effective (i.gen mi ccOp).2 (i.passed mi ccOp live s).flags = effective ccOp s.flags := by
  rw [passed_eq]
  have hpre := flags_pre mi ccOp i s
  obtain ⟨loads, insn⟩ := i
  cases insn with
  | arith op ot d => exact absurd hidle Bool.false_ne_true
  | inc ot d up => exact absurd hidle Bool.false_ne_true
  | shift op ot d r =>
      change (execOps (genMovReg ot d) ((opcTables.rewrite live (.shiftCc op.micro ot _)).exec
        _)).flags = _
      rw [flags_genMovReg, flags_exec_rewrite_shift_idle (beq_iff_eq.mp hidle)]
      exact hpre

/-- A rotate leaves the flags other than overflow and carry. -/
theorem others_exec_rewrite_rotate {k : Shift} {ot : Ot} {mem : Option MemIndex}
    (hwrites : opcTables.writes (.shiftCc k ot mem) = {.o, .c}) :
    ((opcTables.rewrite live (.shiftCc k ot mem)).exec s).flags.computeAll &&& ~~~ccOC =
      s.flags.computeAll &&& ~~~ccOC := by
  obtain hkept | ⟨k', -, hrewrite, -⟩ := rewrite_shiftCc k ot mem live
  · rw [hkept]
    by_cases hc : k.count ot s.core.t1 = 0
    · rw [exec_shiftCc_idle hc]
    · rw [flags_exec_shiftCc hc]
      obtain ⟨-, o, c, heq⟩ | ⟨hall, -⟩ := op_flags k ot mem s.t0 s.core.t1 s.flags.computeAll
      · rw [heq, apply_oc_others]
      · exact absurd (hwrites.symm.trans hall) (by decide)
  · rw [hrewrite, flags_exec_shift]

theorem others_passed_rotate {op : ShiftOp} {d : Fin 8} {im : TargetUlong}
    (hwrites : opcTables.writes (.shiftCc op.micro .long none) = {.o, .c}) :
    (BlockInsn.passed mi ccOp live ⟨[.movlT1Im im], .shift op .long (some d) none⟩
        s).flags.computeAll &&& ~~~ccOC =
      (effective ccOp s.flags).computeAll &&& ~~~ccOC := by
  rw [passed_shift]
  exact others_exec_rewrite_rotate hwrites

/-- An addition with carry shows the carry. -/
theorem regs_passed_carry (hzero : s.core.regs rEBX = 0#32) :
    ((Probe.insn ⟨.carry, rEBX, 0⟩).passed mi ccOp live s).core.regs rEBX =
      (effective ccOp s.flags).computeC := by
  have hreg : ((Probe.insn ⟨.carry, rEBX, 0⟩).passed mi ccOp live s).core.regs rEBX =
      Function.update s.core.regs rEBX
        (s.core.regs rEBX + 0#32 + (effective ccOp s.flags).computeC) rEBX := by
    rw [passed_eq, rewrite_of_simpler rfl]
    cases ccOp <;> rfl
  rw [hreg, Function.update_self, hzero, BitVec.add_zero, BitVec.zero_add]

theorem op_rcl_zero (eflags : TargetUlong) :
    (Shift.rcl.op .long 0#32 1#32 eflags).t0 = eflags &&& ccC := by
  have hcount : rclCount .long 1#32 = 1 := by decide
  rw [Shift.op, opRcl, hcount]
  simp

/-- A rotate through the carry shows the carry. -/
theorem regs_passed_rotateCarry (hzero : s.core.regs rEBX = 0#32) :
    ((Probe.insn ⟨.rotateCarry, rEBX, 0⟩).passed mi ccOp live s).core.regs rEBX =
      (effective ccOp s.flags).computeAll &&& ccC := by
  have hcount : Shift.rcl.count .long 1#32 ≠ 0 := by decide
  have hreg : ((Probe.insn ⟨.rotateCarry, rEBX, 0⟩).passed mi ccOp live s).core.regs rEBX =
      ((CcMicroOp.shiftCc .rcl .long none).exec
        ⟨{ s.core with t1 := 1#32 }, s.core.regs rEBX, effective ccOp s.flags⟩).t0 := by
    refine (congrArg (fun u : Cpu => u.core.regs rEBX) passed_shift).trans ?_
    rw [rewrite_of_simpler rfl]
    exact regs_exec_movRegT0 rEBX _
  rw [hreg, t0_exec_shiftCc, if_pos hcount, hzero, op_rcl_zero]

/-- An operation that reads the carry shows it. -/
theorem regs_passed_reads {kind : RowKind} {f : Flag} (hidle : kind.row.idle = false)
    (hread : f ∈ kind.row.reads) (hzero : s.core.regs rEBX = 0#32) :
    ((Probe.insn ⟨kind, rEBX, 0⟩).passed mi ccOp live s).core.regs rEBX &&& ccC =
      (effective ccOp s.flags).computeAll &&& ccC := by
  cases kind with
  | carry => rw [regs_passed_carry hzero, computeC_and_ccC]
  | rotateCarry => rw [regs_passed_rotateCarry hzero, BitVec.and_assoc, BitVec.and_self]
  | idleRotateCarry => exact absurd hidle.symm Bool.false_ne_true
  | update => exact absurd hread (Finset.notMem_empty f)
  | logic => exact absurd hread (Finset.notMem_empty f)
  | compare => exact absurd hread (Finset.notMem_empty f)
  | rotate => exact absurd hread (Finset.notMem_empty f)
  | idleShift => exact absurd hread (Finset.notMem_empty f)
  | idleShiftMem => exact absurd hread (Finset.notMem_empty f)
  | idleRotate => exact absurd hread (Finset.notMem_empty f)

/-- A quiet probe that is idle leaves the flags. -/
theorem flags_quiet_idle {kind : RowKind} (hidle : kind.row.idle = true) :
    effective (kind.quiet.insn.gen mi ccOp).2 (kind.quiet.insn.passed mi ccOp live s).flags =
      effective ccOp s.flags := by
  refine flags_passed_idle ?_
  rw [row_probe]
  exact hidle

/-- A quiet probe that is idle or a rotate leaves the flags other than overflow and carry. -/
theorem others_quiet {kind : RowKind}
    (h : kind.row.idle = true ∨ kind.row.writes = {.o, .c}) :
    (effective (kind.quiet.insn.gen mi ccOp).2
        (kind.quiet.insn.passed mi ccOp live s).flags).computeAll &&& ~~~ccOC =
      (effective ccOp s.flags).computeAll &&& ~~~ccOC := by
  rcases h with hidle | hwrites
  · rw [flags_quiet_idle hidle]
  · cases kind with
    | rotate => exact others_passed_rotate rfl
    | rotateCarry => exact others_passed_rotate rfl
    | idleRotate => exact others_passed_rotate rfl
    | idleRotateCarry => exact others_passed_rotate rfl
    | update => exact absurd hwrites (by decide)
    | logic => exact absurd hwrites (by decide)
    | compare => exact absurd hwrites (by decide)
    | carry => exact absurd hwrites (by decide)
    | idleShift => exact absurd hwrites (by decide)
    | idleShiftMem => exact absurd hwrites (by decide)

end Passed

/-! ### Differences that stay -/

/-- The rest of a block ends with another result after the pass. -/
def Differs (mi : MemIndex) (ccOp : KnownCcOp) (ps : List Probe) (s t : Cpu) : Prop :=
  ¬ SameResult (execOps (genRest mi ccOp (ps.map Probe.insn)) s)
    (execOps (pass opcTables (genRest mi ccOp (ps.map Probe.insn)) ccOSZAPC).1 t)

section Differences

variable {mi : MemIndex} {ccOp : KnownCcOp} {p : Probe} {ps : List Probe} {s t : Cpu}

/-- Before a probe the pass takes to be live what the rows behind it say. -/
theorem differs_cons : Differs mi ccOp (p :: ps) s t ↔
    Differs mi (p.insn.gen mi ccOp).2 ps (p.insn.passed mi ccOp ccOSZAPC s)
      (p.insn.passed mi ccOp (liveIn ((ps.map Probe.kind).map RowKind.row) ccOSZAPC) t) := by
  rw [Differs, Differs, List.map_cons, genRest, pass_append, execOps_append, execOps_append,
    passed_all, pass_genRest mi _ _ s, flagRows_probes]
  rfl

/-- At the end. -/
theorem differs_nil : Differs mi ccOp [] s t ↔
    ¬ SameResult { s with flags := effective ccOp s.flags }
      { t with flags := effective ccOp t.flags } := by
  rw [Differs, List.map_nil, genRest, pass_neutral fun o => neutral_genSetCcOp,
    execOps_genSetCcOp, execOps_genSetCcOp]

/-- A register that nobody writes keeps its difference. -/
theorem differs_of_regs (kinds : List RowKind) (h : s.core.regs rEBX ≠ t.core.regs rEBX) :
    Differs mi ccOp (kinds.map RowKind.quiet) s t := by
  induction kinds generalizing ccOp s t with
  | nil => exact differs_nil.mpr fun hsame => h (congrFun hsame.regs rEBX)
  | cons kind kinds ih =>
      refine differs_cons.mpr (ih ?_)
      rw [regs_quiet kind s (by decide), regs_quiet kind t (by decide)]
      exact h

theorem map_kind_quiet (kinds : List RowKind) :
    (kinds.map RowKind.quiet).map Probe.kind = kinds := by
  rw [List.map_map]
  exact List.map_id kinds

/-- A probe in front of others. -/
theorem exists_differs_cons {kind : RowKind} {kinds : List RowKind} (hp : p.kind = kind)
    (h : ∃ ps : List Probe, ps.map Probe.kind = kinds ∧
      Differs mi (p.insn.gen mi ccOp).2 ps (p.insn.passed mi ccOp ccOSZAPC s)
        (p.insn.passed mi ccOp (liveIn (kinds.map RowKind.row) ccOSZAPC) t)) :
    ∃ ps : List Probe, ps.map Probe.kind = kind :: kinds ∧ Differs mi ccOp ps s t := by
  obtain ⟨ps, rfl, hdiffers⟩ := h
  exact ⟨p :: ps, by rw [List.map_cons, hp], differs_cons.mpr hdiffers⟩

/-- **A difference in the carry** that is needed can be made visible. -/
theorem exists_differs_of_carry (kinds : List RowKind) {f : Flag}
    (hf : f ∈ ({.o, .c} : Finset Flag))
    (hneeded : f ∈ neededIn (kinds.map RowKind.row) ccOSZAPC)
    (hs : s.core.regs rEBX = 0#32) (ht : t.core.regs rEBX = 0#32)
    (h : (effective ccOp s.flags).computeAll &&& ccC ≠
      (effective ccOp t.flags).computeAll &&& ccC) :
    ∃ ps : List Probe, ps.map Probe.kind = kinds ∧ Differs mi ccOp ps s t := by
  induction kinds generalizing ccOp s t with
  | nil => exact ⟨[], rfl, differs_nil.mpr fun hsame => h (congrArg (· &&& ccC) hsame.flags)⟩
  | cons kind kinds ih =>
      cases hidle : kind.row.idle with
      | true =>
          refine exists_differs_cons (p := kind.quiet) rfl
            (ih ((Row.needed_of_idle hidle).subset hneeded) ?_ ?_ ?_)
          · rw [regs_quiet kind s (by decide), hs]
          · rw [regs_quiet kind t (by decide), ht]
          · rw [flags_quiet_idle hidle, flags_quiet_idle hidle]
            exact h
      | false =>
          -- what is overwritten is not needed, so the carry is read
          have hread : f ∈ kind.row.reads := by
            by_contra hread
            exact Row.notMem_needed hidle (kind.oc_subset_writes hf) hread hneeded
          refine exists_differs_cons (p := ⟨kind, rEBX, 0⟩) rfl
            ⟨_, map_kind_quiet kinds, differs_of_regs kinds fun heq => h ?_⟩
          rw [← regs_passed_reads hidle hread hs, heq, regs_passed_reads hidle hread ht]

/-- **A difference in the other flags** that is needed stays to the end. -/
theorem exists_differs_of_others (kinds : List RowKind) {f : Flag}
    (hf : f ∉ ({.o, .c} : Finset Flag))
    (hneeded : f ∈ neededIn (kinds.map RowKind.row) ccOSZAPC)
    (h : (effective ccOp s.flags).computeAll &&& ~~~ccOC ≠
      (effective ccOp t.flags).computeAll &&& ~~~ccOC) :
    ∃ ps : List Probe, ps.map Probe.kind = kinds ∧ Differs mi ccOp ps s t := by
  induction kinds generalizing ccOp s t with
  | nil => exact ⟨[], rfl, differs_nil.mpr fun hsame => h (congrArg (· &&& ~~~ccOC) hsame.flags)⟩
  | cons kind kinds ih =>
      have hread : f ∉ kind.row.reads :=
        fun hread => hf (Finset.mem_insert_of_mem (kind.reads_subset hread))
      have hkeeps : kind.row.idle = true ∨ kind.row.writes = {.o, .c} := by
        cases hidle : kind.row.idle with
        | true => exact Or.inl rfl
        | false =>
            refine Or.inr (kind.writes_eq.resolve_right fun hall => ?_)
            refine Row.notMem_needed hidle ?_ hread hneeded
            rw [hall]
            exact mem_ccOSZAPC f
      refine exists_differs_cons (p := kind.quiet) rfl
        (ih (Row.mem_of_mem_needed hneeded hread) ?_)
      rw [others_quiet hkeeps, others_quiet hkeeps]
      exact h

end Differences

/-! ### A write left out -/

/-- The registers before the write that is left out. -/
structure Ready (s : Cpu) : Prop where
  zero : s.core.regs rECX = 0#32
  ones : s.core.regs rEDX = BitVec.allOnes 32
  shown : s.core.regs rEBX = 0#32

section LeftOut

variable {mi : MemIndex} {ccOp : KnownCcOp} {live : Finset Flag} {s t : Cpu} {d : Fin 8}
  {im : TargetUlong}

/-- A quiet probe does not touch them. -/
theorem Ready.quiet (h : Ready s) (kind : RowKind) :
    Ready (kind.quiet.insn.passed mi ccOp live s) where
  zero := (regs_quiet kind s (by decide)).trans h.zero
  ones := (regs_quiet kind s (by decide)).trans h.ones
  shown := (regs_quiet kind s (by decide)).trans h.shown

/-- An addition before the pass. -/
theorem flags_update (s : Cpu) :
    effective (some (.add .long))
        ((Probe.insn ⟨.update, d, im⟩).passed mi ccOp ccOSZAPC s).flags =
      ⟨.add .long, im, s.core.regs d + im⟩ := by
  rw [passed_all]
  rfl

/-- An addition whose flags are left out: its `CC_OP` is with the old operands. -/
theorem flags_update_leftOut (hlive : Disjoint live ccOSZAPC) (s : Cpu) :
    effective (some (.add .long)) ((Probe.insn ⟨.update, d, im⟩).passed mi ccOp live s).flags =
      ⟨.add .long, s.flags.src, s.flags.dst⟩ := by
  have hnop : opcTables.rewrite live .update2Cc = .nop := if_pos hlive
  rw [passed_eq]
  change effective _ ((opcTables.rewrite live .update2Cc).exec _).flags = _
  rw [hnop]
  rfl

/-- A logic operation before the pass. -/
theorem flags_logic (mi : MemIndex) (ccOp : KnownCcOp) (d : Fin 8) (im : TargetUlong)
    (s : Cpu) :
    ∃ src, effective (some (.logic .long))
        ((Probe.insn ⟨.logic, d, im⟩).passed mi ccOp ccOSZAPC s).flags =
      ⟨.logic .long, src, s.core.regs d ||| 0#32⟩ := by
  rw [passed_all]
  exact ⟨_, rfl⟩

/-- A logic operation whose flags are left out. -/
theorem flags_logic_leftOut (hlive : Disjoint live ccOSZAPC) (s : Cpu) :
    effective (some (.logic .long)) ((Probe.insn ⟨.logic, d, im⟩).passed mi ccOp live s).flags =
      ⟨.logic .long, s.flags.src, s.flags.dst⟩ := by
  have hnop : opcTables.rewrite live .update1Cc = .nop := if_pos hlive
  rw [passed_eq]
  change effective _ ((opcTables.rewrite live .update1Cc).exec _).flags = _
  rw [hnop]
  rfl

/-- A rotate before the pass: the carry is the bit that was moved around. -/
theorem carry_rotate (s : Cpu) :
    (effective none ((Probe.insn ⟨.rotate, d, im⟩).passed mi ccOp ccOSZAPC s).flags).computeAll &&&
        ccC = (opRol .long (s.core.regs d) 1#32).t0 &&& ccC := by
  have hcount : Shift.rol.count .long 1#32 ≠ 0 := by decide
  have hkept : opcTables.rewrite ccOSZAPC (.shiftCc .rol .long none) = .shiftCc .rol .long none :=
    if_neg (by decide)
  have hoc : ccO &&& ccC = 0#32 := by decide
  have hflags : ((Probe.insn ⟨.rotate, d, im⟩).passed mi ccOp ccOSZAPC s).flags =
      ((CcMicroOp.shiftCc .rol .long none).exec
        ⟨{ s.core with t1 := 1#32 }, s.core.regs d, effective ccOp s.flags⟩).flags := by
    refine (congrArg Cpu.flags passed_shift).trans ?_
    change ((opcTables.rewrite ccOSZAPC (.shiftCc .rol .long none)).exec _).flags = _
    rw [hkept]
    rfl
  rw [hflags, flags_exec_shiftCc hcount]
  refine (apply_oc_and (by decide) _ _ _).trans ?_
  rw [BitVec.and_or_distrib_right, BitVec.and_assoc, hoc, BitVec.and_zero, BitVec.zero_or,
    BitVec.and_assoc, BitVec.and_self]
  rfl

/-- A rotate whose flags are left out. -/
theorem flags_rotate_leftOut (hlive : Disjoint live {.o, .c}) (s : Cpu) :
    effective none ((Probe.insn ⟨.rotate, d, im⟩).passed mi ccOp live s).flags =
      effective ccOp s.flags := by
  have hsimple : opcTables.rewrite live (.shiftCc .rol .long none) = .shift .rol .long none :=
    if_pos hlive
  refine (congrArg Cpu.flags passed_shift).trans ?_
  change ((opcTables.rewrite live (.shiftCc .rol .long none)).exec _).flags = _
  rw [hsimple, flags_exec_shift]

/-- One of two different values differs from a third. -/
theorem exists_dest_ne {v : Fin 8 → TargetUlong} (h : v rECX ≠ v rEDX)
    (w : TargetUlong) : ∃ d, rEBX ≠ d ∧ v d ≠ w := by
  by_cases hw : v rECX = w
  · exact ⟨rEDX, by decide, fun hw' => h (hw.trans hw'.symm)⟩
  · exact ⟨rECX, by decide, hw⟩

variable {kinds : List RowKind} {f : Flag}

/-- The carry of an addition: with all ones there is one, unless it is to zero. -/
theorem exists_differs_update_carry
    (hlive : Disjoint (liveIn (kinds.map RowKind.row) ccOSZAPC) ccOSZAPC)
    (hneeded : f ∈ neededIn (kinds.map RowKind.row) ccOSZAPC)
    (hf : f ∈ ({.o, .c} : Finset Flag)) (hs : Ready s) (ht : Ready t) :
    ∃ ps : List Probe, ps.map Probe.kind = .update :: kinds ∧ Differs mi ccOp ps s t := by
  obtain ⟨d, hd, hne⟩ := exists_dest_ne (v := fun d => LazyFlags.computeAll
    ⟨.add .long, BitVec.allOnes 32, s.core.regs d + BitVec.allOnes 32⟩ &&& ccC)
    (by rw [hs.zero, hs.ones]; decide)
    (LazyFlags.computeAll ⟨.add .long, t.flags.src, t.flags.dst⟩ &&& ccC)
  let p : Probe := ⟨.update, d, BitVec.allOnes 32⟩
  refine exists_differs_cons (p := p) rfl (exists_differs_of_carry kinds hf hneeded
    ((regs_probe p s hd).trans hs.shown) ((regs_probe p t hd).trans ht.shown) ?_)
  change (effective (some (.add .long)) _).computeAll &&& _ ≠
    (effective (some (.add .long)) _).computeAll &&& _
  rw [flags_update, flags_update_leftOut hlive]
  exact hne

/-- The other flags of an addition: zero is added, to zero or to all ones. -/
theorem exists_differs_update_others
    (hlive : Disjoint (liveIn (kinds.map RowKind.row) ccOSZAPC) ccOSZAPC)
    (hneeded : f ∈ neededIn (kinds.map RowKind.row) ccOSZAPC)
    (hf : f ∉ ({.o, .c} : Finset Flag)) (hs : Ready s) :
    ∃ ps : List Probe, ps.map Probe.kind = .update :: kinds ∧ Differs mi ccOp ps s t := by
  obtain ⟨d, -, hne⟩ := exists_dest_ne (v := fun d => LazyFlags.computeAll
    ⟨.add .long, 0#32, s.core.regs d + 0#32⟩ &&& ~~~ccOC)
    (by rw [hs.zero, hs.ones]; decide)
    (LazyFlags.computeAll ⟨.add .long, t.flags.src, t.flags.dst⟩ &&& ~~~ccOC)
  refine exists_differs_cons (p := ⟨.update, d, 0⟩) rfl
    (exists_differs_of_others kinds hf hneeded ?_)
  change (effective (some (.add .long)) _).computeAll &&& _ ≠
    (effective (some (.add .long)) _).computeAll &&& _
  rw [flags_update, flags_update_leftOut hlive]
  exact hne

/-- The flags of a logic operation, of zero or of all ones. -/
theorem exists_differs_logic
    (hlive : Disjoint (liveIn (kinds.map RowKind.row) ccOSZAPC) ccOSZAPC)
    (hneeded : f ∈ neededIn (kinds.map RowKind.row) ccOSZAPC)
    (hf : f ∉ ({.o, .c} : Finset Flag)) (hs : Ready s) :
    ∃ ps : List Probe, ps.map Probe.kind = .logic :: kinds ∧ Differs mi ccOp ps s t := by
  obtain ⟨d, -, hne⟩ := exists_dest_ne (v := fun d => LazyFlags.computeAll
    ⟨.logic .long, 0#32, s.core.regs d ||| 0#32⟩ &&& ~~~ccOC)
    (by rw [hs.zero, hs.ones]; decide)
    (LazyFlags.computeAll ⟨.logic .long, t.flags.src, t.flags.dst⟩ &&& ~~~ccOC)
  refine exists_differs_cons (p := ⟨.logic, d, 0⟩) rfl
    (exists_differs_of_others kinds hf hneeded ?_)
  change (effective (some (.logic .long)) _).computeAll &&& _ ≠
    (effective (some (.logic .long)) _).computeAll &&& _
  obtain ⟨src, hflags⟩ := flags_logic mi ccOp d 0 s
  rw [hflags, flags_logic_leftOut hlive]
  exact hne

/-- The carry of a rotate, of zero or of all ones. -/
theorem exists_differs_rotate
    (hlive : Disjoint (liveIn (kinds.map RowKind.row) ccOSZAPC) {.o, .c})
    (hneeded : f ∈ neededIn (kinds.map RowKind.row) ccOSZAPC)
    (hf : f ∈ ({.o, .c} : Finset Flag)) (hs : Ready s) (ht : Ready t) :
    ∃ ps : List Probe, ps.map Probe.kind = .rotate :: kinds ∧ Differs mi ccOp ps s t := by
  obtain ⟨d, hd, hne⟩ := exists_dest_ne
    (v := fun d => (opRol .long (s.core.regs d) 1#32).t0 &&& ccC)
    (by rw [hs.zero, hs.ones]; decide) ((effective ccOp t.flags).computeAll &&& ccC)
  let p : Probe := ⟨.rotate, d, 0⟩
  refine exists_differs_cons (p := p) rfl (exists_differs_of_carry kinds hf hneeded
    ((regs_probe p s hd).trans hs.shown) ((regs_probe p t hd).trans ht.shown) ?_)
  change (effective none _).computeAll &&& _ ≠ (effective none _).computeAll &&& _
  rw [carry_rotate, flags_rotate_leftOut hlive]
  exact hne

/-- **What is lost and needed can be made visible.** -/
theorem exists_differs_leftOut {kind : RowKind} (hidle : kind.row.idle = false)
    (hsimple : kind.row.simplifies = true)
    (hlive : Disjoint (liveIn (kinds.map RowKind.row) ccOSZAPC) kind.row.writes)
    (hneeded : f ∈ neededIn (kinds.map RowKind.row) ccOSZAPC) (hlost : f ∈ kind.row.lost)
    (hs : Ready s) (ht : Ready t) :
    ∃ ps : List Probe, ps.map Probe.kind = kind :: kinds ∧ Differs mi ccOp ps s t := by
  cases kind with
  | update =>
      by_cases hf : f ∈ ({.o, .c} : Finset Flag)
      · exact exists_differs_update_carry hlive hneeded hf hs ht
      · exact exists_differs_update_others hlive hneeded hf hs
  | logic =>
      refine exists_differs_logic hlive hneeded (fun hf => ?_) hs
      exact Finset.disjoint_left.mp (by decide : Disjoint {.o, .c} RowKind.logic.row.lost) hf hlost
  | rotate => exact exists_differs_rotate hlive hneeded hlost hs ht
  | compare => exact absurd hsimple Bool.false_ne_true
  | carry => exact absurd hsimple Bool.false_ne_true
  | rotateCarry => exact absurd hsimple Bool.false_ne_true
  | idleShift => exact absurd hidle.symm Bool.false_ne_true
  | idleShiftMem => exact absurd hidle.symm Bool.false_ne_true
  | idleRotate => exact absurd hidle.symm Bool.false_ne_true
  | idleRotateCarry => exact absurd hidle.symm Bool.false_ne_true

/-- Quiet probes in front do not matter. -/
theorem exists_differs_append (pre : List RowKind) (hs : Ready s) (ht : Ready t)
    (h : ∀ ccOp s t, Ready s → Ready t →
      ∃ ps : List Probe, ps.map Probe.kind = kinds ∧ Differs mi ccOp ps s t) :
    ∃ ps : List Probe, ps.map Probe.kind = pre ++ kinds ∧ Differs mi ccOp ps s t := by
  induction pre generalizing ccOp s t with
  | nil => exact h ccOp s t hs ht
  | cons kind pre ih =>
      exact exists_differs_cons (p := kind.quiet) rfl (ih (hs.quiet kind) (ht.quiet kind))

/-- The state in which the probes are run. -/
def probeState : Cpu :=
  ⟨⟨fun r => if r = rEDX then BitVec.allOnes 32 else 0#32, fun _ => 0, 0, 0⟩, 0, ⟨.eflags, 0, 0⟩⟩

/-- **If something that is lost is needed**, probes with the same rows end with another
result. -/
theorem exists_exposed (h : ¬ DeadWrites ccOSZAPC (kinds.map RowKind.row)) :
    ∃ ps : List Probe, ps.map Probe.kind = kinds ∧ Differs mi none ps probeState probeState := by
  obtain ⟨pre, r, post, f, hsplit, hidle, hsimple, hlive, hneeded, hlost⟩ :=
    exists_of_not_deadWrites h
  obtain ⟨pre, rest, rfl, rfl, hrest⟩ := List.map_eq_append_iff.mp hsplit
  obtain ⟨kind, post, rfl, rfl, rfl⟩ := List.map_eq_cons_iff.mp hrest
  have hready : Ready probeState := ⟨rfl, rfl, rfl⟩
  exact exists_differs_append pre hready hready fun ccOp s t hs ht =>
    exists_differs_leftOut hidle hsimple hlive hneeded hlost hs ht

end LeftOut

/-! ### The condition on the rows is exact -/

/-- **The pass over the flags.** Of all runs with the same rows and the same counts of zero, the
pass preserves the result exactly if nothing that it loses is needed in them. -/
theorem optimize_flags_preserves_iff (mi : MemIndex) (is : List BlockInsn) (s : Cpu) :
    (∀ (is' : List BlockInsn) (s' : Cpu), flagRows mi none is' s' = flagRows mi none is s →
      SameResult (execOps (genBlock mi is') s')
        (execOps (optimizeFlags (genBlock mi is')) s')) ↔
      DeadWrites ccOSZAPC (flagRows mi none is s) := by
  constructor
  · intro h
    by_contra hdead
    obtain ⟨kinds, hkinds⟩ := exists_kinds mi none is s
    rw [hkinds] at hdead
    obtain ⟨ps, rfl, hdiffers⟩ := exists_exposed hdead
    refine hdiffers (h (ps.map Probe.insn) probeState ?_)
    rw [flagRows_probes, hkinds]
  · intro hdead is' s' hrows
    refine sameResult_of_deadWrites ?_
    rw [hrows]
    exact hdead

/-- `or eax, 0; shl ecx, 0; adc edx, 0`: the flags of the first are left out, and of them the
last needs the carry only, which is not lost. -/
example (s : Cpu) : DeadWrites ccOSZAPC (flagRows .kernel none
    ([⟨.logic, rEAX, 0⟩, ⟨.idleShift, rECX, 0⟩, ⟨.carry, rEDX, 0⟩].map Probe.insn) s) := by
  rw [flagRows_probes]
  decide

/-- `add eax, ebx` and then `shl ecx, cl`. -/
def addShift : List BlockInsn :=
  [⟨[.movT1Reg .long rEBX], .arith .addl .long (some rEAX)⟩,
    ⟨[], .shift .shl .long (some rECX) (some rECX)⟩]

/-- `EAX` and `EBX` are one, and `ECX` is zero. -/
def addShiftState : Cpu :=
  ⟨⟨fun r => if r = rEAX ∨ r = rEBX then 1 else 0, fun _ => 0, 0, 0⟩, 0, ⟨.eflags, 0, 0⟩⟩

/-- The flags of the addition are left out, and the shift by zero does not write any: the sum
two is left with the flags of zero. -/
theorem not_sameResult_addShift :
    ¬ SameResult (execOps (genBlock .kernel addShift) addShiftState)
      (execOps (optimizeFlags (genBlock .kernel addShift)) addShiftState) := by
  have hbefore : (execOps (genBlock .kernel addShift) addShiftState).flags.computeAll = 0 := by
    decide
  have hafter : (execOps (optimizeFlags (genBlock .kernel addShift))
      addShiftState).flags.computeAll = ccP ||| ccZ := by
    decide
  intro h
  have heq := h.flags
  rw [hbefore, hafter] at heq
  exact absurd heq (by decide)

end MemCheck
