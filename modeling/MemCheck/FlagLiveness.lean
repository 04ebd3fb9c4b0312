import MemCheck.Lib.BackwardPass
import MemCheck.MicroOps

/-!
# The Pass over the Flags

Before a block is compiled, `optimize_flags` (`target-i386/translate.c`) goes over its
micro-operations from back to front and replaces those whose flags nothing needs. What an
operation reads and writes, and what it can be replaced by, is in three tables, filled by
constructors.

The tables say that a shift writes all flags and a rotate writes overflow and carry. With a
count of zero they write nothing, so the flags of an instruction before are still needed; but
the pass has already given them up. This module says what the pass preserves: registers,
memory and flags, as long as no write that was left out is still needed behind a shift or
rotate with a count of zero. Not all of a write is lost: the translator still knows that the
operation was a logic one, and so that there is no carry.

The code is what `gen_op`, `gen_inc` and `gen_shift` emit for instructions whose operands have
been loaded, and ends with the `set_cc_op` of `gen_eob`. Between instructions the translator
knows `CC_OP` or not; what it knows need not be in the state yet.

## Main results

* `gen_eq`: every instruction has one operation that the tables know;
* `Related.step`: one instruction, before and after the pass;
* `sameResult_of_deadWrites`: a block, before and after the pass;
* `sameResult_of_active`: without a count of zero the pass is right.
-/

namespace MemCheck

open BackwardPass

/-! ### The tables -/

/-- The arithmetic flags. -/
inductive Flag where
  | c
  | p
  | a
  | z
  | s
  | o
  deriving DecidableEq, Repr

/-- `CC_OSZAPC`. -/
def ccOSZAPC : Finset Flag := {.o, .s, .z, .a, .p, .c}

theorem mem_ccOSZAPC (f : Flag) : f ∈ ccOSZAPC := by
  cases f <;> decide

/-- `opc_read_flags`. -/
def opcReadFlags : CcMicroOp → Finset Flag
  | .updateIncCc => {.c}
  | .adcCc _ _ => {.c}
  | .sbbCc _ _ => {.c}
  | .shiftCc .rcl _ _ => {.c}
  | .shiftCc .rcr _ _ => {.c}
  | _ => ∅

/-- `opc_write_flags`. -/
def opcWriteFlags : CcMicroOp → Finset Flag
  | .update2Cc => ccOSZAPC
  | .update1Cc => ccOSZAPC
  | .updateIncCc => ccOSZAPC
  | .cmplT0T1Cc => ccOSZAPC
  | .adcCc _ _ => ccOSZAPC
  | .sbbCc _ _ => ccOSZAPC
  | .shiftCc .rol _ _ => {.o, .c}
  | .shiftCc .ror _ _ => {.o, .c}
  | .shiftCc .rcl _ _ => {.o, .c}
  | .shiftCc .rcr _ _ => {.o, .c}
  | .shiftCc .shl _ _ => ccOSZAPC
  | .shiftCc .shr _ _ => ccOSZAPC
  | .shiftCc .sar _ _ => ccOSZAPC
  | _ => ∅

/-- `opc_simpler`. The entry of `update_inc_cc` is disabled in the source. -/
def opcSimpler : CcMicroOp → Option CcMicroOp
  | .update2Cc => some .nop
  | .update1Cc => some .nop
  | .shiftCc .shl ot none => some (.shift .shl ot none)
  | .shiftCc .shr ot none => some (.shift .shr ot none)
  | .shiftCc .sar ot none => some (.shift .sar ot none)
  | .shiftCc .rol ot mem => some (.shift .rol ot mem)
  | .shiftCc .ror ot mem => some (.shift .ror ot mem)
  | _ => none

/-- The three tables. -/
def opcTables : Tables CcMicroOp Flag := ⟨opcReadFlags, opcWriteFlags, opcSimpler⟩

/-- What is lost if an operation is replaced. The carry, the auxiliary carry and the overflow
of a logic operation are zero whatever the operands, so `update1_cc` loses the others only. -/
def lostFlags : CcMicroOp → Finset Flag
  | .update1Cc => {.s, .z, .p}
  | o => opcWriteFlags o

theorem lostFlags_subset (o : CcMicroOp) : lostFlags o ⊆ opcTables.writes o := by
  cases o with
  | update1Cc => decide
  | _ => exact Finset.Subset.refl _

/-- The row of an operation. -/
def ccRow (o : CcMicroOp) (idle : Bool) : Row Flag := opcTables.row o (lostFlags_subset o) idle

/-- `optimize_flags`: at the end of the block all flags are live. -/
def optimizeFlags (ops : List CcMicroOp) : List CcMicroOp := (pass opcTables ops ccOSZAPC).1

/-! ### The code of a block -/

/-- `OP_ADDL` to `OP_CMPL`. -/
inductive AluOp where
  | addl
  | orl
  | adcl
  | sbbl
  | andl
  | subl
  | xorl
  | cmpl
  deriving DecidableEq, Repr

/-- `OP_ROL` to `OP_SAR`. -/
inductive ShiftOp where
  | rol
  | ror
  | rcl
  | rcr
  | shl
  | shr
  | shl1
  | sar
  deriving DecidableEq, Repr

/-- The column of `gen_op_shift_T0_T1_cc`. -/
def ShiftOp.micro : ShiftOp → Shift
  | rol => .rol
  | ror => .ror
  | rcl => .rcl
  | rcr => .rcr
  | shl => .shl
  | shr => .shr
  | shl1 => .shl
  | sar => .sar

/-- A destination: a register, or the memory at `A0` (`OR_TMP0`). -/
abbrev Dest := Option (Fin 8)

/-- What the translator knows of `CC_OP`; `none` is `CC_OP_DYNAMIC`. -/
abbrev KnownCcOp := Option CcOp

/-- Load the destination into `T0`. -/
def genLoadT0 (mi : MemIndex) (ot : Ot) : Dest → CcMicroOp
  | some r => .movT0Reg ot r
  | none => .ldT0A0 ot mi

/-- Write `T0` to the destination. -/
def genStoreT0 (mi : MemIndex) (ot : Ot) : Dest → CcMicroOp
  | some r => .movRegT0 ot r
  | none => .stT0A0 ot mi

/-- `if (s->cc_op != CC_OP_DYNAMIC) gen_op_set_cc_op(s->cc_op)`. -/
def genSetCcOp : KnownCcOp → List CcMicroOp
  | some ccOp => [.setCcOp ccOp]
  | none => []

/-- The suffix of an operation of `ops_template_mem.h`. -/
def memSuffix (mi : MemIndex) : Dest → Option MemIndex
  | some _ => none
  | none => some mi

/-- An operation of `ops_template_mem.h` leaves a register to be written. -/
def genMovReg (ot : Ot) : Dest → List CcMicroOp
  | some r => [.movRegT0 ot r]
  | none => []

/-- `gen_op`. -/
def genOp (mi : MemIndex) (ccOp : KnownCcOp) (op : AluOp) (ot : Ot) (d : Dest) :
    List CcMicroOp × KnownCcOp :=
  match op with
  | .adcl =>
      (genLoadT0 mi ot d :: genSetCcOp ccOp ++ .adcCc ot (memSuffix mi d) :: genMovReg ot d, none)
  | .sbbl =>
      (genLoadT0 mi ot d :: genSetCcOp ccOp ++ .sbbCc ot (memSuffix mi d) :: genMovReg ot d, none)
  | .addl => ([genLoadT0 mi ot d, .addlT0T1, genStoreT0 mi ot d, .update2Cc], some (.add ot))
  | .subl => ([genLoadT0 mi ot d, .sublT0T1, genStoreT0 mi ot d, .update2Cc], some (.sub ot))
  | .andl => ([genLoadT0 mi ot d, .logic .and, genStoreT0 mi ot d, .update1Cc], some (.logic ot))
  | .orl => ([genLoadT0 mi ot d, .logic .or, genStoreT0 mi ot d, .update1Cc], some (.logic ot))
  | .xorl => ([genLoadT0 mi ot d, .logic .xor, genStoreT0 mi ot d, .update1Cc], some (.logic ot))
  | .cmpl => ([genLoadT0 mi ot d, .cmplT0T1Cc], some (.sub ot))

/-- `gen_inc`, to increment or else to decrement. -/
def genInc (mi : MemIndex) (ccOp : KnownCcOp) (ot : Ot) (d : Dest) (up : Bool) :
    List CcMicroOp × KnownCcOp :=
  (genLoadT0 mi ot d :: genSetCcOp ccOp ++
      [if up then .inclT0 else .declT0, genStoreT0 mi ot d, .updateIncCc],
    some (if up then .inc ot else .dec ot))

/-- `gen_shift`, by the count in a register or else in `T1` (`OR_TMP1`). -/
def genShift (mi : MemIndex) (ccOp : KnownCcOp) (op : ShiftOp) (ot : Ot) (d : Dest)
    (s : Option (Fin 8)) : List CcMicroOp × KnownCcOp :=
  (genLoadT0 mi ot d :: (s.map fun r => .load (.movT1Reg ot r)).toList ++ genSetCcOp ccOp ++
      .shiftCc op.micro ot (memSuffix mi d) :: genMovReg ot d,
    none)

/-- The instructions that `disas_insn` translates with these functions. -/
inductive CcInsn where
  | arith (op : AluOp) (ot : Ot) (d : Dest)
  | inc (ot : Ot) (d : Dest) (up : Bool)
  | shift (op : ShiftOp) (ot : Ot) (d : Dest) (s : Option (Fin 8))

/-- An instruction of a block, with how its other operands are loaded. -/
structure BlockInsn where
  loads : List OperandLoad
  insn : CcInsn

/-- The code of an instruction, and what the translator then knows of `CC_OP`. -/
def CcInsn.gen (mi : MemIndex) (ccOp : KnownCcOp) : CcInsn → List CcMicroOp × KnownCcOp
  | .arith op ot d => genOp mi ccOp op ot d
  | .inc ot d up => genInc mi ccOp ot d up
  | .shift op ot d s => genShift mi ccOp op ot d s

/-- The code of an instruction with its operands. -/
def BlockInsn.gen (mi : MemIndex) (ccOp : KnownCcOp) (i : BlockInsn) :
    List CcMicroOp × KnownCcOp :=
  (i.loads.map .load ++ (i.insn.gen mi ccOp).1, (i.insn.gen mi ccOp).2)

/-- The code from an instruction on, up to the `set_cc_op` of `gen_eob`. -/
def genRest (mi : MemIndex) : KnownCcOp → List BlockInsn → List CcMicroOp
  | ccOp, [] => genSetCcOp ccOp
  | ccOp, i :: is => (i.gen mi ccOp).1 ++ genRest mi (i.gen mi ccOp).2 is

/-- The code of a block. At its start the translator does not know `CC_OP`. -/
def genBlock (mi : MemIndex) (is : List BlockInsn) : List CcMicroOp := genRest mi none is

/-! ### The operation of an instruction that the tables know -/

namespace CcInsn

/-- The operations before it. -/
def pre (mi : MemIndex) (ccOp : KnownCcOp) : CcInsn → List CcMicroOp
  | .arith .adcl ot d => genLoadT0 mi ot d :: genSetCcOp ccOp
  | .arith .sbbl ot d => genLoadT0 mi ot d :: genSetCcOp ccOp
  | .arith .addl ot d => [genLoadT0 mi ot d, .addlT0T1, genStoreT0 mi ot d]
  | .arith .subl ot d => [genLoadT0 mi ot d, .sublT0T1, genStoreT0 mi ot d]
  | .arith .andl ot d => [genLoadT0 mi ot d, .logic .and, genStoreT0 mi ot d]
  | .arith .orl ot d => [genLoadT0 mi ot d, .logic .or, genStoreT0 mi ot d]
  | .arith .xorl ot d => [genLoadT0 mi ot d, .logic .xor, genStoreT0 mi ot d]
  | .arith .cmpl ot d => [genLoadT0 mi ot d]
  | .inc ot d up =>
      genLoadT0 mi ot d :: genSetCcOp ccOp ++
        [if up then .inclT0 else .declT0, genStoreT0 mi ot d]
  | .shift _ ot d s =>
      genLoadT0 mi ot d :: (s.map fun r => .load (.movT1Reg ot r)).toList ++ genSetCcOp ccOp

/-- The operation that computes or keeps the flags. -/
def flagOp (mi : MemIndex) : CcInsn → CcMicroOp
  | .arith .adcl ot d => .adcCc ot (memSuffix mi d)
  | .arith .sbbl ot d => .sbbCc ot (memSuffix mi d)
  | .arith .addl _ _ => .update2Cc
  | .arith .subl _ _ => .update2Cc
  | .arith .andl _ _ => .update1Cc
  | .arith .orl _ _ => .update1Cc
  | .arith .xorl _ _ => .update1Cc
  | .arith .cmpl _ _ => .cmplT0T1Cc
  | .inc _ _ _ => .updateIncCc
  | .shift op ot d _ => .shiftCc op.micro ot (memSuffix mi d)

/-- The operations behind it. -/
def post : CcInsn → List CcMicroOp
  | .arith .adcl ot d => genMovReg ot d
  | .arith .sbbl ot d => genMovReg ot d
  | .shift _ ot d _ => genMovReg ot d
  | _ => []

end CcInsn

/-- The operations before it, with those that load the operands. -/
def BlockInsn.pre (mi : MemIndex) (ccOp : KnownCcOp) (i : BlockInsn) : List CcMicroOp :=
  i.loads.map .load ++ i.insn.pre mi ccOp

section Segments

variable {mi : MemIndex} {ccOp : KnownCcOp} {i : BlockInsn}

/-- **Every instruction has one operation that the tables know.** -/
theorem gen_eq (mi : MemIndex) (ccOp : KnownCcOp) (i : BlockInsn) :
    (i.gen mi ccOp).1 = i.pre mi ccOp ++ i.insn.flagOp mi :: i.insn.post := by
  obtain ⟨loads, insn⟩ := i
  rw [BlockInsn.gen, BlockInsn.pre, List.append_assoc]
  refine congrArg (loads.map CcMicroOp.load ++ ·) ?_
  cases insn with
  | arith op ot d => cases op <;> rfl
  | inc ot d up => cases ccOp <;> rfl
  | shift op ot d s => rfl

theorem neutral_genLoadT0 (mi : MemIndex) (ot : Ot) (d : Dest) :
    opcTables.Neutral (genLoadT0 mi ot d) := by
  cases d <;> exact ⟨rfl, rfl, rfl⟩

theorem neutral_genStoreT0 (mi : MemIndex) (ot : Ot) (d : Dest) :
    opcTables.Neutral (genStoreT0 mi ot d) := by
  cases d <;> exact ⟨rfl, rfl, rfl⟩

theorem neutral_genSetCcOp {o : CcMicroOp} (ho : o ∈ genSetCcOp ccOp) : opcTables.Neutral o := by
  cases ccOp with
  | none => exact absurd ho List.not_mem_nil
  | some op =>
      obtain rfl := List.mem_singleton.mp ho
      exact ⟨rfl, rfl, rfl⟩

theorem neutral_genMovReg {ot : Ot} {d : Dest} {o : CcMicroOp} (ho : o ∈ genMovReg ot d) :
    opcTables.Neutral o := by
  cases d with
  | none => exact absurd ho List.not_mem_nil
  | some r =>
      obtain rfl := List.mem_singleton.mp ho
      exact ⟨rfl, rfl, rfl⟩

theorem neutral_insn_pre (insn : CcInsn) : ∀ o ∈ insn.pre mi ccOp, opcTables.Neutral o := by
  have hset : ∀ o ∈ genSetCcOp ccOp, opcTables.Neutral o := fun o => neutral_genSetCcOp
  have hthree : ∀ {o ot d}, opcTables.Neutral o →
      ∀ o' ∈ [genLoadT0 mi ot d, o, genStoreT0 mi ot d], opcTables.Neutral o' := by
    intro o ot d ho
    simp only [List.forall_mem_cons]
    exact ⟨neutral_genLoadT0 mi ot d, ho, neutral_genStoreT0 mi ot d, List.forall_mem_nil _⟩
  cases insn with
  | arith op ot d =>
      have hload := neutral_genLoadT0 mi ot d
      cases op with
      | adcl => exact List.forall_mem_cons.mpr ⟨hload, hset⟩
      | sbbl => exact List.forall_mem_cons.mpr ⟨hload, hset⟩
      | addl => exact hthree ⟨rfl, rfl, rfl⟩
      | subl => exact hthree ⟨rfl, rfl, rfl⟩
      | andl => exact hthree ⟨rfl, rfl, rfl⟩
      | orl => exact hthree ⟨rfl, rfl, rfl⟩
      | xorl => exact hthree ⟨rfl, rfl, rfl⟩
      | cmpl => exact List.forall_mem_singleton.mpr hload
  | inc ot d up =>
      refine List.forall_mem_append.mpr
        ⟨List.forall_mem_cons.mpr ⟨neutral_genLoadT0 mi ot d, hset⟩, ?_⟩
      simp only [List.forall_mem_cons]
      refine ⟨?_, neutral_genStoreT0 mi ot d, List.forall_mem_nil _⟩
      cases up <;> exact ⟨rfl, rfl, rfl⟩
  | shift op ot d s =>
      refine List.forall_mem_append.mpr
        ⟨List.forall_mem_cons.mpr ⟨neutral_genLoadT0 mi ot d, ?_⟩, hset⟩
      cases s with
      | none => exact List.forall_mem_nil _
      | some r => exact List.forall_mem_singleton.mpr ⟨rfl, rfl, rfl⟩

/-- The tables do not know the operations before it. -/
theorem neutral_pre : ∀ o ∈ i.pre mi ccOp, opcTables.Neutral o := by
  refine List.forall_mem_append.mpr ⟨fun o ho => ?_, neutral_insn_pre i.insn⟩
  obtain ⟨l, -, rfl⟩ := List.mem_map.mp ho
  exact ⟨rfl, rfl, rfl⟩

/-- Nor those behind it. -/
theorem neutral_post (insn : CcInsn) : ∀ o ∈ insn.post, opcTables.Neutral o := by
  cases insn with
  | arith op ot d =>
      cases op with
      | adcl => exact fun o => neutral_genMovReg
      | sbbl => exact fun o => neutral_genMovReg
      | addl => exact List.forall_mem_nil _
      | subl => exact List.forall_mem_nil _
      | andl => exact List.forall_mem_nil _
      | orl => exact List.forall_mem_nil _
      | xorl => exact List.forall_mem_nil _
      | cmpl => exact List.forall_mem_nil _
  | inc ot d up => exact List.forall_mem_nil _
  | shift op ot d s => exact fun o => neutral_genMovReg

/-- What the pass makes of an instruction. -/
theorem pass_gen (live : Finset Flag) :
    pass opcTables (i.gen mi ccOp).1 live =
      (i.pre mi ccOp ++ opcTables.rewrite live (i.insn.flagOp mi) :: i.insn.post,
        opcTables.before live (i.insn.flagOp mi)) := by
  rw [gen_eq, pass_segment neutral_pre (neutral_post i.insn)]

end Segments

/-! ### What an instruction does before its flags -/

/-- The lazy flags, with what the translator knows of `CC_OP`. -/
def effective (ccOp : KnownCcOp) (l : LazyFlags) : LazyFlags := { l with op := ccOp.getD l.op }

/-- `CC_OP` is set before the operation that the tables know. -/
def CcInsn.setsCcOp : CcInsn → Bool
  | .arith .adcl _ _ => true
  | .arith .sbbl _ _ => true
  | .arith _ _ _ => false
  | .inc _ _ _ => true
  | .shift _ _ _ _ => true

section Pre

variable {i : BlockInsn} {s t : Cpu}

theorem execOps_loads (loads : List OperandLoad) (s : Cpu) :
    execOps (loads.map .load) s =
      { s with core := loads.foldl (fun c l => l.exec c) s.core } := by
  induction loads generalizing s with
  | nil => rfl
  | cons l loads ih =>
      rw [List.map_cons, execOps_cons, ih]
      rfl

/-- Up to its flags an instruction does the same in states that differ in `T0` and the flags
only. -/
theorem core_pre (mi : MemIndex) (ccOp : KnownCcOp) (i : BlockInsn) (h : s.core = t.core) :
    (execOps (i.pre mi ccOp) s).core = (execOps (i.pre mi ccOp) t).core ∧
      (execOps (i.pre mi ccOp) s).t0 = (execOps (i.pre mi ccOp) t).t0 := by
  obtain ⟨c, x, l⟩ := s
  obtain ⟨c', y, m⟩ := t
  obtain rfl : c = c' := h
  obtain ⟨loads, insn⟩ := i
  simp only [BlockInsn.pre, execOps_append, execOps_loads]
  generalize loads.foldl (fun c l => l.exec c) c = c'
  cases insn with
  | arith op ot d => cases op <;> cases d <;> cases ccOp <;> exact ⟨rfl, rfl⟩
  | inc ot d up => cases up <;> cases d <;> cases ccOp <;> exact ⟨rfl, rfl⟩
  | shift op ot d s => cases s <;> cases d <;> cases ccOp <;> exact ⟨rfl, rfl⟩

/-- Up to its flags an instruction leaves the flags alone, or puts what the translator knows
into the state. -/
theorem flags_pre (mi : MemIndex) (ccOp : KnownCcOp) (i : BlockInsn) (s : Cpu) :
    (execOps (i.pre mi ccOp) s).flags =
      if i.insn.setsCcOp then effective ccOp s.flags else s.flags := by
  obtain ⟨loads, insn⟩ := i
  simp only [BlockInsn.pre, execOps_append, execOps_loads]
  cases insn with
  | arith op ot d => cases op <;> cases d <;> cases ccOp <;> rfl
  | inc ot d up => cases up <;> cases d <;> cases ccOp <;> rfl
  | shift op ot d s => cases s <;> cases d <;> cases ccOp <;> rfl

/-- A shift or rotate in memory loads its operand from there. -/
theorem t0_pre_shift {op : ShiftOp} {ot : Ot} {r : Option (Fin 8)}
    (hi : i.insn = .shift op ot none r) (mi : MemIndex) (ccOp : KnownCcOp) (s : Cpu) :
    (execOps (i.pre mi ccOp) s).t0 = loadMem ot (execOps (i.pre mi ccOp) s).core.mem
      (execOps (i.pre mi ccOp) s).core.a0 := by
  obtain ⟨loads, insn⟩ := i
  obtain rfl : insn = .shift op ot none r := hi
  simp only [BlockInsn.pre, execOps_append, execOps_loads]
  cases r <;> cases ccOp <;> rfl

end Pre

/-! ### States before and after the pass -/

/-- **The flags agree**, as far as they are needed. What is not overflow or carry is needed
together. -/
structure FlagsAgree (needed : Finset Flag) (l m : LazyFlags) : Prop where
  others : Flag.s ∈ needed → l.computeAll &&& ~~~ccOC = m.computeAll &&& ~~~ccOC
  oc : Flag.c ∈ needed → l.computeAll &&& ccOC = m.computeAll &&& ccOC
  carry : Flag.c ∈ needed → l.computeC = m.computeC

/-- **Two states agree**, one of the code as it was and one of the code after the pass: in all
but `T0` and the flags that are not needed. -/
structure Related (ccOp : KnownCcOp) (needed : Finset Flag) (s t : Cpu) : Prop where
  core : s.core = t.core
  flags : FlagsAgree needed (effective ccOp s.flags) (effective ccOp t.flags)

section Agree

variable {needed : Finset Flag} {l m : LazyFlags} {x y : TargetUlong}

theorem FlagsAgree.of_eq (hall : l.computeAll = m.computeAll) (hc : l.computeC = m.computeC) :
    FlagsAgree needed l m :=
  ⟨fun _ => by rw [hall], fun _ => by rw [hall], fun _ => hc⟩

/-- What all flags are written by is not needed. -/
theorem FlagsAgree.of_dead (h : Disjoint needed ccOSZAPC) : FlagsAgree needed l m := by
  have hs : Flag.s ∉ needed := Finset.disjoint_right.mp h (mem_ccOSZAPC .s)
  have hc : Flag.c ∉ needed := Finset.disjoint_right.mp h (mem_ccOSZAPC .c)
  exact ⟨fun h => absurd h hs, fun h => absurd h hc, fun h => absurd h hc⟩

/-- Words that agree within a mask and outside it are equal. -/
theorem eq_of_and_eq {mask : TargetUlong} (hin : x &&& mask = y &&& mask)
    (hout : x &&& ~~~mask = y &&& ~~~mask) : x = y := by
  have hsplit : ∀ z : TargetUlong, z = (z &&& mask) ||| (z &&& ~~~mask) := by
    intro z
    rw [← BitVec.and_or_distrib_left, BitVec.or_not_self, BitVec.and_allOnes]
  rw [hsplit x, hin, hout, ← hsplit y]

/-- If all flags are needed they are the same. -/
theorem FlagsAgree.computeAll_eq (h : FlagsAgree ccOSZAPC l m) : l.computeAll = m.computeAll :=
  eq_of_and_eq (h.oc (mem_ccOSZAPC .c)) (h.others (mem_ccOSZAPC .s))

/-- Writing overflow and carry leaves the other flags. -/
theorem apply_oc_others (o c : TargetUlong) (l : LazyFlags) :
    ((FlagWrite.oc o c).apply l).computeAll &&& ~~~ccOC = l.computeAll &&& ~~~ccOC := by
  have ho : ccO &&& ~~~ccOC = 0#32 := by decide
  have hc : ccC &&& ~~~ccOC = 0#32 := by decide
  rw [FlagWrite.apply, LazyFlags.computeAll, BitVec.and_or_distrib_right,
    BitVec.and_or_distrib_right, BitVec.and_assoc, BitVec.and_self, BitVec.and_assoc, ho,
    BitVec.and_assoc, hc, BitVec.and_zero, BitVec.and_zero, BitVec.or_zero, BitVec.or_zero]

/-- What it writes does not depend on what the flags were. -/
theorem apply_oc_and {mask : TargetUlong} (hmask : ~~~ccOC &&& mask = 0#32) (o c : TargetUlong)
    (l : LazyFlags) : ((FlagWrite.oc o c).apply l).computeAll &&& mask =
      ((o &&& ccO) ||| (c &&& ccC)) &&& mask := by
  rw [FlagWrite.apply, LazyFlags.computeAll, BitVec.or_assoc, BitVec.and_or_distrib_right,
    BitVec.and_assoc, hmask, BitVec.and_zero, BitVec.zero_or]

/-- Both write overflow and carry. -/
theorem FlagsAgree.apply_oc (h : Flag.s ∈ needed →
      l.computeAll &&& ~~~ccOC = m.computeAll &&& ~~~ccOC) (o c : TargetUlong) :
    FlagsAgree needed ((FlagWrite.oc o c).apply l) ((FlagWrite.oc o c).apply m) where
  others hs := by rw [apply_oc_others, apply_oc_others, h hs]
  oc _ := by rw [apply_oc_and (by decide), apply_oc_and (by decide)]
  carry _ := by
    change ((FlagWrite.oc o c).apply l).computeAll &&& ccC =
      ((FlagWrite.oc o c).apply m).computeAll &&& ccC
    rw [apply_oc_and (by decide), apply_oc_and (by decide)]

/-- Only the code as it was writes overflow and carry, which are not needed. -/
theorem FlagsAgree.apply_oc_left (h : Flag.s ∈ needed →
      l.computeAll &&& ~~~ccOC = m.computeAll &&& ~~~ccOC)
    (hdead : Disjoint needed {.o, .c}) (o c : TargetUlong) :
    FlagsAgree needed ((FlagWrite.oc o c).apply l) m := by
  have hc : Flag.c ∉ needed := Finset.disjoint_right.mp hdead (by decide)
  refine ⟨fun hs => ?_, fun h => absurd h hc, fun h => absurd h hc⟩
  rw [apply_oc_others, h hs]

end Agree

/-! ### Rows -/

/-- An instruction that reads and writes no flags: a shift or rotate with a count of zero. -/
def CcInsn.idle (insn : CcInsn) (t1 : TargetUlong) : Bool :=
  match insn with
  | .shift op ot _ _ => op.micro.count ot t1 == 0
  | _ => false

/-- The row of an instruction in a state. -/
def BlockInsn.row (mi : MemIndex) (ccOp : KnownCcOp) (i : BlockInsn) (s : Cpu) : Row Flag :=
  ccRow (i.insn.flagOp mi) (i.insn.idle (execOps (i.pre mi ccOp) s).core.t1)

/-- The rows of the instructions, along the run of the code as it was. -/
def flagRows (mi : MemIndex) : KnownCcOp → List BlockInsn → Cpu → List (Row Flag)
  | _, [], _ => []
  | ccOp, i :: is, s =>
      i.row mi ccOp s :: flagRows mi (i.gen mi ccOp).2 is (execOps (i.gen mi ccOp).1 s)

/-- What the pass takes to be live is in the rows. -/
theorem pass_genRest (mi : MemIndex) (ccOp : KnownCcOp) (is : List BlockInsn) (s : Cpu) :
    (pass opcTables (genRest mi ccOp is) ccOSZAPC).2 =
      liveIn (flagRows mi ccOp is s) ccOSZAPC := by
  induction is generalizing ccOp s with
  | nil =>
      rw [genRest, pass_neutral fun o => neutral_genSetCcOp]
      rfl
  | cons i is ih =>
      rw [genRest, pass_append, pass_gen, ih _ (execOps (i.gen mi ccOp).1 s)]
      rfl

/-! ### Shifts and rotates -/

section Shifts

variable {k : Shift} {k' : SimpleShift} {ot : Ot} {mem : Option MemIndex} {mi : MemIndex}
  {d : Dest} {needed live : Finset Flag} {s t : Cpu} {l m : LazyFlags}

/-- What a shift or rotate writes is what the table says. -/
theorem op_flags (k : Shift) (ot : Ot) (mem : Option MemIndex) (t0 t1 eflags : TargetUlong) :
    (opcTables.writes (.shiftCc k ot mem) = {.o, .c} ∧
        ∃ o c, (k.op ot t0 t1 eflags).flags = .oc o c) ∨
      (opcTables.writes (.shiftCc k ot mem) = ccOSZAPC ∧
        ∃ l, (k.op ot t0 t1 eflags).flags = .all l) := by
  cases k with
  | rol => exact Or.inl ⟨rfl, _, _, rfl⟩
  | ror => exact Or.inl ⟨rfl, _, _, rfl⟩
  | rcl => exact Or.inl ⟨rfl, _, _, rfl⟩
  | rcr => exact Or.inl ⟨rfl, _, _, rfl⟩
  | shl => exact Or.inr ⟨rfl, _, rfl⟩
  | shr => exact Or.inr ⟨rfl, _, rfl⟩
  | sar => exact Or.inr ⟨rfl, _, rfl⟩

/-- A rotate through the carry finds the same carry. -/
theorem op_eq (hread : opcTables.reads (.shiftCc k ot mem) = {.c} →
      l.computeAll &&& ccOC = m.computeAll &&& ccOC) (t0 t1 : TargetUlong) :
    k.op ot t0 t1 l.computeAll = k.op ot t0 t1 m.computeAll := by
  have hcarry : opcTables.reads (.shiftCc k ot mem) = {.c} →
      l.computeAll &&& ccC = m.computeAll &&& ccC := by
    intro hc
    have hmask : ccOC &&& ccC = ccC := by decide
    rw [← hmask, ← BitVec.and_assoc, hread hc, BitVec.and_assoc]
  cases k with
  | rcl => rw [Shift.op, Shift.op, opRcl, opRcl, hcarry rfl]
  | rcr => rw [Shift.op, Shift.op, opRcr, opRcr, hcarry rfl]
  | rol => rfl
  | ror => rfl
  | shl => rfl
  | shr => rfl
  | sar => rfl

/-- What the pass makes of a shift or rotate. -/
theorem rewrite_shiftCc (k : Shift) (ot : Ot) (mem : Option MemIndex) (live : Finset Flag) :
    opcTables.rewrite live (.shiftCc k ot mem) = .shiftCc k ot mem ∨
      ∃ k', k.simple = some k' ∧ opcTables.rewrite live (.shiftCc k ot mem) = .shift k' ot mem ∧
        (opcTables.simpler (.shiftCc k ot mem)).isSome = true ∧
        Disjoint live (opcTables.writes (.shiftCc k ot mem)) := by
  rw [Tables.rewrite]
  split_ifs with hdead
  · cases k with
    | rol => exact Or.inr ⟨_, rfl, rfl, rfl, hdead⟩
    | ror => exact Or.inr ⟨_, rfl, rfl, rfl, hdead⟩
    | rcl => exact Or.inl rfl
    | rcr => exact Or.inl rfl
    | shl =>
        cases mem with
        | none => exact Or.inr ⟨_, rfl, rfl, rfl, hdead⟩
        | some mi => exact Or.inl rfl
    | shr =>
        cases mem with
        | none => exact Or.inr ⟨_, rfl, rfl, rfl, hdead⟩
        | some mi => exact Or.inl rfl
    | sar =>
        cases mem with
        | none => exact Or.inr ⟨_, rfl, rfl, rfl, hdead⟩
        | some mi => exact Or.inl rfl
  · exact Or.inl rfl

theorem exec_shiftCc_idle (hc : k.count ot s.core.t1 = 0) :
    (CcMicroOp.shiftCc k ot mem).exec s = s := by
  rw [CcMicroOp.exec, if_neg (not_not.mpr hc)]

theorem flags_exec_shiftCc (hc : k.count ot s.core.t1 ≠ 0) :
    ((CcMicroOp.shiftCc k ot mem).exec s).flags =
      (k.op ot s.t0 s.core.t1 s.flags.computeAll).flags.apply s.flags := by
  rw [CcMicroOp.exec, if_pos hc]

/-- The same shift or rotate, with the same outcome. -/
theorem exec_shiftCc_congr (hcore : s.core = t.core) (ht0 : s.t0 = t.t0)
    (hop : k.count ot s.core.t1 ≠ 0 → k.op ot s.t0 s.core.t1 s.flags.computeAll =
      k.op ot s.t0 s.core.t1 t.flags.computeAll) (mem : Option MemIndex) :
    ((CcMicroOp.shiftCc k ot mem).exec s).core = ((CcMicroOp.shiftCc k ot mem).exec t).core ∧
      ((CcMicroOp.shiftCc k ot mem).exec s).t0 = ((CcMicroOp.shiftCc k ot mem).exec t).t0 := by
  obtain ⟨c, x, l⟩ := s
  obtain ⟨c', y, m⟩ := t
  obtain rfl : c = c' := hcore
  obtain rfl : x = y := ht0
  by_cases hc : k.count ot c.t1 = 0
  · rw [exec_shiftCc_idle (s := ⟨c, x, l⟩) hc, exec_shiftCc_idle (s := ⟨c, x, m⟩) hc]
    exact ⟨rfl, rfl⟩
  · replace hop : k.op ot x c.t1 l.computeAll = k.op ot x c.t1 m.computeAll := hop hc
    simp only [CcMicroOp.exec, if_pos hc, hop]
    cases mem <;> exact ⟨rfl, rfl⟩

theorem flags_genMovReg (ot : Ot) (d : Dest) (s : Cpu) :
    (execOps (genMovReg ot d) s).flags = s.flags := by
  cases d <;> rfl

theorem core_genMovReg (hcore : s.core = t.core)
    (ht0 : s.t0 &&& ot.dataMask = t.t0 &&& ot.dataMask) :
    (execOps (genMovReg ot d) s).core = (execOps (genMovReg ot d) t).core := by
  cases d with
  | none => exact hcore
  | some r =>
      change { s.core with regs := writeReg ot r s.t0 s.core.regs } =
        { t.core with regs := writeReg ot r t.t0 t.core.regs }
      rw [hcore, writeReg_congr ht0]

/-- The same shift or rotate without flags. -/
theorem exec_shift_core (hk : k.simple = some k') (hcore : s.core = t.core) (ht0 : s.t0 = t.t0)
    (hload : d = none → s.t0 = loadMem ot s.core.mem s.core.a0) :
    ((CcMicroOp.shiftCc k ot (memSuffix mi d)).exec s).core =
      ((CcMicroOp.shift k' ot (memSuffix mi d)).exec t).core := by
  cases d with
  | none => exact core_exec_shift hk hcore ht0 (hload rfl)
  | some r =>
      rw [memSuffix, core_exec_shiftCc_reg, core_exec_shift_reg, hcore]

/-- The code behind the pass does what the code before does to registers and memory. -/
theorem core_exec_rewrite_shift (hcore : s.core = t.core) (ht0 : s.t0 = t.t0)
    (hload : d = none → s.t0 = loadMem ot s.core.mem s.core.a0)
    (hop : k.count ot s.core.t1 ≠ 0 → k.op ot s.t0 s.core.t1 s.flags.computeAll =
      k.op ot s.t0 s.core.t1 t.flags.computeAll) (live : Finset Flag) :
    (execOps (.shiftCc k ot (memSuffix mi d) :: genMovReg ot d) s).core =
      (execOps (opcTables.rewrite live (.shiftCc k ot (memSuffix mi d)) :: genMovReg ot d)
        t).core := by
  rw [execOps_cons, execOps_cons]
  obtain hkept | ⟨k', hk, hrewrite, -⟩ := rewrite_shiftCc k ot (memSuffix mi d) live
  · obtain ⟨hc, hx⟩ := exec_shiftCc_congr hcore ht0 hop (memSuffix mi d)
    rw [hkept]
    exact core_genMovReg hc (by rw [hx])
  · rw [hrewrite]
    exact core_genMovReg (exec_shift_core hk hcore ht0 hload)
      (and_dataMask_exec_shift hk hcore ht0)

/-- Behind a shift or rotate with a count of zero the flags are as they were. -/
theorem flags_exec_rewrite_shift_idle (hc : k.count ot s.core.t1 = 0) (live : Finset Flag) :
    ((opcTables.rewrite live (.shiftCc k ot mem)).exec s).flags = s.flags := by
  obtain hkept | ⟨k', -, hrewrite, -⟩ := rewrite_shiftCc k ot mem live
  · rw [hkept, exec_shiftCc_idle hc]
  · rw [hrewrite, flags_exec_shift]

/-- Behind another one they agree as far as they are needed. -/
theorem flags_exec_rewrite_shift (hcore : s.core = t.core) (ht0 : s.t0 = t.t0)
    (hc : k.count ot s.core.t1 ≠ 0)
    (hflags : FlagsAgree ((ccRow (.shiftCc k ot mem) false).live needed)
      s.flags t.flags)
    (hdead : (ccRow (.shiftCc k ot mem) false).DeadWrite live needed)
    (hop : k.op ot s.t0 s.core.t1 s.flags.computeAll =
      k.op ot s.t0 s.core.t1 t.flags.computeAll) :
    FlagsAgree needed ((CcMicroOp.shiftCc k ot mem).exec s).flags
      ((opcTables.rewrite live (.shiftCc k ot mem)).exec t).flags := by
  have hc' : k.count ot t.core.t1 ≠ 0 := hcore ▸ hc
  rw [flags_exec_shiftCc hc]
  obtain ⟨hwrites, o, c, heq⟩ | ⟨hwrites, l, heq⟩ :=
    op_flags k ot mem s.t0 s.core.t1 s.flags.computeAll
  · have hothers : Flag.s ∈ needed →
        s.flags.computeAll &&& ~~~ccOC = t.flags.computeAll &&& ~~~ccOC := by
      intro hs
      refine hflags.others (Finset.mem_union_left _ (Finset.mem_sdiff.mpr ⟨hs, ?_⟩))
      change Flag.s ∉ opcTables.writes _
      rw [hwrites]
      decide
    obtain hkept | ⟨k', -, hrewrite, hsimple, hlive⟩ := rewrite_shiftCc k ot mem live
    · rw [hkept, flags_exec_shiftCc hc', ← hcore, ← ht0, ← hop, heq]
      exact FlagsAgree.apply_oc hothers o c
    · rw [hrewrite, flags_exec_shift, heq]
      exact FlagsAgree.apply_oc_left hothers (hwrites ▸ hdead rfl hsimple hlive) o c
  · obtain hkept | ⟨k', -, hrewrite, hsimple, hlive⟩ := rewrite_shiftCc k ot mem live
    · rw [hkept, flags_exec_shiftCc hc', ← hcore, ← ht0, ← hop, heq]
      exact FlagsAgree.of_eq rfl rfl
    · exact FlagsAgree.of_dead (hwrites ▸ hdead rfl hsimple hlive)

end Shifts

/-! ### One instruction -/

section Steps

variable {mi : MemIndex} {ccOp : KnownCcOp} {i : BlockInsn} {needed live : Finset Flag}
  {s t : Cpu} {c : Core} {x : TargetUlong} {l m : LazyFlags}

theorem Related.of_eq (h : s = t) : Related ccOp needed s t := by
  subst h
  exact ⟨rfl, FlagsAgree.of_eq rfl rfl⟩

/-- An operation whose row says that it reads the carry finds the same one. -/
theorem FlagsAgree.computeC_eq {o : CcMicroOp} (hreads : opcTables.reads o = {.c})
    (h : FlagsAgree ((ccRow o false).live needed) l m) : l.computeC = m.computeC := by
  refine h.carry (Finset.mem_union_right _ ?_)
  change Flag.c ∈ opcTables.reads o
  rw [hreads]
  exact Finset.mem_singleton_self _

/-- `update2_cc`, kept or left out. -/
theorem Related.update2Cc (op : CcOp)
    (hdead : (ccRow .update2Cc false).DeadWrite live needed) :
    Related (some op) needed (CcMicroOp.update2Cc.exec ⟨c, x, l⟩)
      ((opcTables.rewrite live .update2Cc).exec ⟨c, x, m⟩) := by
  rw [Tables.rewrite]
  split_ifs with hlive
  · exact ⟨rfl, FlagsAgree.of_dead (hdead rfl rfl hlive)⟩
  · exact ⟨rfl, FlagsAgree.of_eq rfl rfl⟩

/-- A logic operation has no carry and no overflow. -/
theorem computeAll_logic_oc (ot : Ot) (src dst : TargetUlong) :
    LazyFlags.computeAll ⟨.logic ot, src, dst⟩ &&& ccOC = 0#32 := by
  simp only [LazyFlags.computeAll, BitVec.and_or_distrib_right,
    parityTable_and (show ccP &&& ccOC = 0#32 by decide),
    zf_and (show ccZ &&& ccOC = 0#32 by decide),
    sf_and (show (0x80 : TargetUlong) &&& ccOC = 0#32 by decide), BitVec.or_zero]

/-- `update1_cc`, kept or left out. It keeps `CC_SRC`, which the flags of a logic operation do
not depend on; and its carry and overflow do not depend on `CC_DST` either. -/
theorem Related.update1Cc (ot : Ot)
    (hdead : (ccRow .update1Cc false).DeadWrite live needed) :
    Related (some (.logic ot)) needed (CcMicroOp.update1Cc.exec ⟨c, x, l⟩)
      ((opcTables.rewrite live .update1Cc).exec ⟨c, x, m⟩) := by
  rw [Tables.rewrite]
  split_ifs with hlive
  · have hs : Flag.s ∉ needed := Finset.disjoint_right.mp (hdead rfl rfl hlive) (by decide)
    refine ⟨rfl, fun h => absurd h hs, fun _ => ?_, fun _ => rfl⟩
    exact (computeAll_logic_oc ot _ _).trans (computeAll_logic_oc ot _ _).symm
  · exact ⟨rfl, FlagsAgree.of_eq rfl rfl⟩

/-- `update_inc_cc`, which keeps the carry. -/
theorem Related.updateIncCc (op : CcOp)
    (h : FlagsAgree ((ccRow .updateIncCc false).live needed) l m) :
    Related (some op) needed (CcMicroOp.updateIncCc.exec ⟨c, x, l⟩)
      ((opcTables.rewrite live .updateIncCc).exec ⟨c, x, m⟩) := by
  have hc := h.computeC_eq rfl
  rw [rewrite_of_simpler rfl]
  refine ⟨rfl, ?_⟩
  simp only [CcMicroOp.exec, effective, hc]
  exact FlagsAgree.of_eq rfl rfl

/-- `adc`. -/
theorem exec_adcCc_congr {ot : Ot} {mem : Option MemIndex}
    (h : FlagsAgree ((ccRow (.adcCc ot mem) false).live needed) l m) :
    (CcMicroOp.adcCc ot mem).exec ⟨c, x, l⟩ = (CcMicroOp.adcCc ot mem).exec ⟨c, x, m⟩ := by
  have hc := h.computeC_eq rfl
  simp only [CcMicroOp.exec, hc]
  cases mem <;> rfl

/-- `sbb`. -/
theorem exec_sbbCc_congr {ot : Ot} {mem : Option MemIndex}
    (h : FlagsAgree ((ccRow (.sbbCc ot mem) false).live needed) l m) :
    (CcMicroOp.sbbCc ot mem).exec ⟨c, x, l⟩ = (CcMicroOp.sbbCc ot mem).exec ⟨c, x, m⟩ := by
  have hc := h.computeC_eq rfl
  simp only [CcMicroOp.exec, hc]
  cases mem <;> rfl

/-- A shift or rotate. -/
theorem Related.shift {k : Shift} {ot : Ot} {d : Dest} (hcore : s.core = t.core)
    (ht0 : s.t0 = t.t0) (hload : d = none → s.t0 = loadMem ot s.core.mem s.core.a0)
    (h : FlagsAgree ((ccRow (.shiftCc k ot (memSuffix mi d))
      (k.count ot s.core.t1 == 0)).needed needed) s.flags t.flags)
    (hdead : (ccRow (.shiftCc k ot (memSuffix mi d))
      (k.count ot s.core.t1 == 0)).DeadWrite live needed) :
    Related none needed (execOps (.shiftCc k ot (memSuffix mi d) :: genMovReg ot d) s)
      (execOps (opcTables.rewrite live (.shiftCc k ot (memSuffix mi d)) :: genMovReg ot d) t) := by
  by_cases hc : k.count ot s.core.t1 = 0
  · rw [beq_iff_eq.mpr hc] at h
    refine ⟨core_exec_rewrite_shift hcore ht0 hload (fun hne => absurd hc hne) live, ?_⟩
    rw [execOps_cons, execOps_cons, flags_genMovReg, flags_genMovReg, exec_shiftCc_idle hc,
      flags_exec_rewrite_shift_idle (hcore ▸ hc) live]
    exact h
  · rw [beq_eq_false_iff_ne.mpr hc] at h hdead
    have hop := op_eq (fun hreads => h.oc (Finset.mem_union_right _
      (hreads.symm.subset (Finset.mem_singleton_self _)))) s.t0 s.core.t1
    refine ⟨core_exec_rewrite_shift hcore ht0 hload (fun _ => hop) live, ?_⟩
    rw [execOps_cons, execOps_cons, flags_genMovReg, flags_genMovReg]
    exact flags_exec_rewrite_shift hcore ht0 hc h hdead hop

/-- The operation of an instruction that the tables know, and those behind it. -/
theorem Related.flagOp {insn : CcInsn} (hcore : s.core = t.core) (ht0 : s.t0 = t.t0)
    (hload : ∀ op ot r, insn = .shift op ot none r → s.t0 = loadMem ot s.core.mem s.core.a0)
    (h : insn.setsCcOp = true → FlagsAgree ((ccRow (insn.flagOp mi)
      (insn.idle s.core.t1)).needed needed) s.flags t.flags)
    (hdead : (ccRow (insn.flagOp mi) (insn.idle s.core.t1)).DeadWrite live needed) :
    Related (insn.gen mi ccOp).2 needed (execOps (insn.flagOp mi :: insn.post) s)
      (execOps (opcTables.rewrite live (insn.flagOp mi) :: insn.post) t) := by
  obtain ⟨c, x, l⟩ := s
  obtain ⟨c', y, m⟩ := t
  obtain rfl : c = c' := hcore
  obtain rfl : x = y := ht0
  cases insn with
  | arith op ot d =>
      cases op with
      | addl => exact Related.update2Cc (.add ot) hdead
      | subl => exact Related.update2Cc (.sub ot) hdead
      | orl => exact Related.update1Cc ot hdead
      | andl => exact Related.update1Cc ot hdead
      | xorl => exact Related.update1Cc ot hdead
      | cmpl =>
          rw [rewrite_of_simpler rfl]
          exact ⟨rfl, FlagsAgree.of_eq rfl rfl⟩
      | adcl =>
          rw [rewrite_of_simpler rfl, execOps_cons, execOps_cons]
          exact Related.of_eq (congrArg _ (exec_adcCc_congr (h rfl)))
      | sbbl =>
          rw [rewrite_of_simpler rfl, execOps_cons, execOps_cons]
          exact Related.of_eq (congrArg _ (exec_sbbCc_congr (h rfl)))
  | inc ot d up => exact Related.updateIncCc _ (h rfl)
  | shift op ot d r =>
      refine Related.shift rfl rfl (fun hd => ?_) (h rfl) hdead
      subst hd
      exact hload op ot r rfl

/-- **One instruction**, before and after the pass. -/
theorem Related.step (h : Related ccOp ((i.row mi ccOp s).needed needed) s t)
    (hdead : (i.row mi ccOp s).DeadWrite live needed) :
    Related (i.gen mi ccOp).2 needed (execOps (i.gen mi ccOp).1 s)
      (execOps (pass opcTables (i.gen mi ccOp).1 live).1 t) := by
  obtain ⟨hcore, ht0⟩ := core_pre mi ccOp i h.core
  rw [pass_gen, gen_eq, execOps_append, execOps_append]
  refine Related.flagOp hcore ht0 (fun op ot r hi => t0_pre_shift hi mi ccOp s) (fun hset => ?_)
    hdead
  rw [flags_pre, flags_pre, if_pos hset, if_pos hset]
  exact h.flags

end Steps

/-! ### A block -/

/-- **The same result**: registers, memory and flags. -/
structure SameResult (s t : Cpu) : Prop where
  regs : s.core.regs = t.core.regs
  mem : s.core.mem = t.core.mem
  flags : s.flags.computeAll = t.flags.computeAll

section Blocks

variable {mi : MemIndex} {ccOp : KnownCcOp} {is : List BlockInsn} {s t : Cpu}

/-- At the end what the translator knows is put into the state. -/
theorem execOps_genSetCcOp (ccOp : KnownCcOp) (s : Cpu) :
    execOps (genSetCcOp ccOp) s = { s with flags := effective ccOp s.flags } := by
  cases ccOp <;> rfl

/-- The rest of a block, before and after the pass. -/
theorem Related.genRest
    (h : Related ccOp (neededIn (flagRows mi ccOp is s) ccOSZAPC) s t)
    (hdead : DeadWrites ccOSZAPC (flagRows mi ccOp is s)) :
    SameResult (execOps (genRest mi ccOp is) s)
      (execOps (pass opcTables (genRest mi ccOp is) ccOSZAPC).1 t) := by
  induction is generalizing ccOp s t with
  | nil =>
      rw [MemCheck.genRest, pass_neutral fun o => neutral_genSetCcOp, execOps_genSetCcOp,
        execOps_genSetCcOp]
      exact ⟨congrArg Core.regs h.core, congrArg Core.mem h.core, h.flags.computeAll_eq⟩
  | cons i is ih =>
      rw [MemCheck.genRest, pass_append, execOps_append, execOps_append]
      refine ih (Related.step h ?_) hdead.2
      rw [pass_genRest mi _ is (execOps (i.gen mi ccOp).1 s)]
      exact hdead.1

/-- **A block, before and after the pass**: if every write that the pass leaves out is dead in
the run, the result is the same. -/
theorem sameResult_of_deadWrites (hdead : DeadWrites ccOSZAPC (flagRows mi none is s)) :
    SameResult (execOps (genBlock mi is) s) (execOps (optimizeFlags (genBlock mi is)) s) :=
  Related.genRest (Related.of_eq rfl) hdead

/-- Without a count of zero the pass is right. -/
theorem sameResult_of_active (h : ∀ r ∈ flagRows mi none is s, r.idle = false) :
    SameResult (execOps (genBlock mi is) s) (execOps (optimizeFlags (genBlock mi is)) s) :=
  sameResult_of_deadWrites (deadWrites_of_active h)

end Blocks

end MemCheck
