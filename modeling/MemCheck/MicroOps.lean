import Mathlib.Data.Int.Notation
import Mathlib.Data.Nat.Notation
import Mathlib.Logic.Function.Basic
import Mathlib.Tactic.SplitIfs

/-!
# Micro-Operations on Lazy Flags

The emulator computes the arithmetic flags lazily. An operation leaves its operands in `CC_SRC`
and `CC_DST`, and `CC_OP` says which operation it was; `compute_all` and `compute_c` work out
the flags when something asks for them (`cc_table` in `op.c`).

This module translates the micro-operations of the arithmetic, logic, shift and rotate
instructions (`op.c`, `ops_template.h`, `ops_template_mem.h`, `opreg_template.h`). The
operations of `ops_template_mem.h` exist once for registers and once for each kind of memory
access; the latter also store their result at `A0`. The state is split into what the pass over
the flags can change, `T0` and the lazy flags, and the rest. Memory is total: accesses that
fault leave the block.

## Main results

* `storeMem_loadMem`: storing what was loaded changes nothing;
* `writeReg_congr`: a register takes the low bits of `T0` only;
* `and_dataMask_exec_shift`, `core_exec_shift`: a shift or rotate without flags does what the
  one with flags does.
-/

namespace MemCheck

/-! ### Words and sizes -/

/-- `target_ulong`. -/
abbrev TargetUlong := BitVec 32

/-- `OT_BYTE`, `OT_WORD` and `OT_LONG`. -/
inductive Ot where
  | byte
  | word
  | long
  deriving DecidableEq, Repr

namespace Ot

/-- `DATA_BITS`. -/
def dataBits : Ot → ℕ
  | byte => 8
  | word => 16
  | long => 32

/-- `DATA_MASK`. -/
def dataMask : Ot → TargetUlong
  | byte => 0xff
  | word => 0xffff
  | long => 0xffffffff

/-- `SIGN_MASK`. -/
def signMask (ot : Ot) : TargetUlong := (1 : TargetUlong) <<< (ot.dataBits - 1)

/-- `SHIFT_MASK`. -/
def shiftMask (ot : Ot) : TargetUlong := BitVec.ofNat 32 (ot.dataBits - 1)

/-- The cast to `DATA_STYPE`. -/
def stype (ot : Ot) (x : TargetUlong) : TargetUlong := (x.setWidth ot.dataBits).signExtend 32

end Ot

/-- `SHIFT1_MASK`. -/
def shift1Mask : TargetUlong := 0x1f

/-- `lshift`: to the left, or arithmetically to the right. -/
def lshift (x : TargetUlong) (n : ℤ) : TargetUlong :=
  if 0 ≤ n then x <<< n.toNat else x.sshiftRight (-n).toNat

/-- A comparison as an `int`. -/
def intOf (b : Bool) : TargetUlong := if b then 1 else 0

/-! ### Flags -/

/-- `CC_C`. -/
def ccC : TargetUlong := 0x001

/-- `CC_P`. -/
def ccP : TargetUlong := 0x004

/-- `CC_Z`. -/
def ccZ : TargetUlong := 0x040

/-- `CC_O`. -/
def ccO : TargetUlong := 0x800

/-- `CC_O | CC_C`. -/
def ccOC : TargetUlong := ccO ||| ccC

/-- The values of `CC_OP`, other than `CC_OP_DYNAMIC`. -/
inductive CcOp where
  | eflags
  | mul (ot : Ot)
  | add (ot : Ot)
  | adc (ot : Ot)
  | sub (ot : Ot)
  | sbb (ot : Ot)
  | logic (ot : Ot)
  | inc (ot : Ot)
  | dec (ot : Ot)
  | shl (ot : Ot)
  | sar (ot : Ot)
  deriving DecidableEq, Repr

/-- The lazy flags: `CC_OP`, `CC_SRC` and `CC_DST`. -/
structure LazyFlags where
  op : CcOp
  src : TargetUlong
  dst : TargetUlong
  deriving DecidableEq, Repr

/-- `parity_table`. -/
def parityTable (x : TargetUlong) : TargetUlong :=
  if (List.range 8).foldl (fun b i => b ^^ x.getLsbD i) false then 0 else ccP

/-- `af` of the functions `compute_all`. -/
def af (dst src1 src2 : TargetUlong) : TargetUlong := (dst ^^^ src1 ^^^ src2) &&& 0x10

/-- `zf` of the functions `compute_all`. -/
def zf (ot : Ot) (dst : TargetUlong) : TargetUlong := intOf (dst &&& ot.dataMask == 0) <<< 6

/-- `sf` of the functions `compute_all`. -/
def sf (ot : Ot) (dst : TargetUlong) : TargetUlong := lshift dst (8 - ot.dataBits) &&& 0x80

/-- `of` of the functions `compute_all`, for a word whose sign bit it is. -/
def overflow (ot : Ot) (x : TargetUlong) : TargetUlong := lshift x (12 - ot.dataBits) &&& ccO

section Masks

variable {m : TargetUlong}

/-- A word cut out by a mask has nothing in common with another mask. -/
theorem and_mask_and {mask : TargetUlong} (h : mask &&& m = 0#32) (x : TargetUlong) :
    (x &&& mask) &&& m = 0#32 := by
  rw [BitVec.and_assoc, h, BitVec.and_zero]

theorem parityTable_and (h : ccP &&& m = 0#32) (x : TargetUlong) :
    parityTable x &&& m = 0#32 := by
  rw [parityTable]
  split_ifs
  · exact BitVec.zero_and
  · exact h

theorem zf_and (h : ccZ &&& m = 0#32) (ot : Ot) (x : TargetUlong) : zf ot x &&& m = 0#32 := by
  rw [zf]
  cases x &&& ot.dataMask == 0 with
  | false => exact BitVec.zero_and
  | true => exact h

theorem sf_and (h : (0x80 : TargetUlong) &&& m = 0#32) (ot : Ot) (x : TargetUlong) :
    sf ot x &&& m = 0#32 :=
  and_mask_and h _

end Masks

namespace LazyFlags

/-- `cc_table[CC_OP].compute_c()`. -/
def computeC (l : LazyFlags) : TargetUlong :=
  match l.op with
  | .eflags => l.src &&& ccC
  | .mul _ => intOf (l.src != 0)
  | .add ot => intOf ((l.dst &&& ot.dataMask).ult (l.src &&& ot.dataMask))
  | .adc ot => intOf ((l.dst &&& ot.dataMask).ule (l.src &&& ot.dataMask))
  | .sub ot => intOf (((l.dst + l.src) &&& ot.dataMask).ult (l.src &&& ot.dataMask))
  | .sbb ot => intOf (((l.dst + l.src + 1) &&& ot.dataMask).ule (l.src &&& ot.dataMask))
  | .logic _ => 0
  | .inc _ => l.src
  | .dec _ => l.src
  | .shl ot => (l.src >>> (ot.dataBits - 1)) &&& ccC
  | .sar _ => l.src &&& 1

/-- The flags of an addition or subtraction of `src1` and `src2`, `sign` being the word whose
sign bit is the overflow. -/
def arith (ot : Ot) (cf dst src1 src2 sign : TargetUlong) : TargetUlong :=
  cf ||| parityTable dst ||| af dst src1 src2 ||| zf ot dst ||| sf ot dst ||| overflow ot sign

/-- `cc_table[CC_OP].compute_all()`. -/
def computeAll (l : LazyFlags) : TargetUlong :=
  match l.op with
  | .eflags => l.src
  | .mul ot =>
      l.computeC ||| parityTable l.dst ||| zf ot l.dst ||| sf ot l.dst ||| (l.computeC <<< 11)
  | .add ot =>
      let src2 := l.dst - l.src
      arith ot l.computeC l.dst l.src src2 ((l.src ^^^ src2 ^^^ -1) &&& (l.src ^^^ l.dst))
  | .adc ot =>
      let src2 := l.dst - l.src - 1
      arith ot l.computeC l.dst l.src src2 ((l.src ^^^ src2 ^^^ -1) &&& (l.src ^^^ l.dst))
  | .sub ot =>
      let src1 := l.dst + l.src
      arith ot l.computeC l.dst src1 l.src ((src1 ^^^ l.src) &&& (src1 ^^^ l.dst))
  | .sbb ot =>
      let src1 := l.dst + l.src + 1
      arith ot l.computeC l.dst src1 l.src ((src1 ^^^ l.src) &&& (src1 ^^^ l.dst))
  | .logic ot => parityTable l.dst ||| zf ot l.dst ||| sf ot l.dst
  | .inc ot =>
      l.src ||| parityTable l.dst ||| af l.dst (l.dst - 1) 1 ||| zf ot l.dst ||| sf ot l.dst |||
        (intOf (l.dst &&& ot.dataMask == ot.signMask) <<< 11)
  | .dec ot =>
      l.src ||| parityTable l.dst ||| af l.dst (l.dst + 1) 1 ||| zf ot l.dst ||| sf ot l.dst |||
        (intOf (l.dst &&& ot.dataMask == ot.signMask - 1) <<< 11)
  | .shl ot =>
      l.computeC ||| parityTable l.dst ||| zf ot l.dst ||| sf ot l.dst |||
        overflow ot (l.src ^^^ l.dst)
  | .sar ot =>
      l.computeC ||| parityTable l.dst ||| zf ot l.dst ||| sf ot l.dst |||
        overflow ot (l.src ^^^ l.dst)

end LazyFlags

/-! ### Registers and memory -/

/-- The general registers, `EAX` to `EDI`. -/
abbrev Regs := Fin 8 → TargetUlong

/-- `R_EAX`. -/
def rEAX : Fin 8 := 0

/-- `R_ECX`. -/
def rECX : Fin 8 := 1

/-- `R_EDX`. -/
def rEDX : Fin 8 := 2

/-- `R_EBX`. -/
def rEBX : Fin 8 := 3

/-- The guest's memory. -/
abbrev Mem := TargetUlong → BitVec 8

/-- A byte below the bytes of a word. -/
def withByte (b : BitVec 8) (w : TargetUlong) : TargetUlong := b.setWidth 32 ||| (w <<< 8)

/-- `ldub`, `lduw` and `ldl`. -/
def loadMem (ot : Ot) (m : Mem) (a : TargetUlong) : TargetUlong :=
  match ot with
  | .byte => withByte (m a) 0
  | .word => withByte (m a) (withByte (m (a + 1)) 0)
  | .long => withByte (m a) (withByte (m (a + 1)) (withByte (m (a + 2)) (withByte (m (a + 3)) 0)))

/-- The byte of a word at a bit position. -/
def byteAt (v : TargetUlong) (i : ℕ) : BitVec 8 := v.extractLsb' i 8

/-- `stb`, `stw` and `stl`. -/
def storeMem (ot : Ot) (m : Mem) (a v : TargetUlong) : Mem :=
  match ot with
  | .byte => Function.update m a (byteAt v 0)
  | .word => Function.update (Function.update m a (byteAt v 0)) (a + 1) (byteAt v 8)
  | .long =>
      Function.update (Function.update (Function.update (Function.update m a (byteAt v 0))
        (a + 1) (byteAt v 8)) (a + 2) (byteAt v 16)) (a + 3) (byteAt v 24)

/-- The register an operand of one byte is in: `AH` to `BH` are in `EAX` to `EBX`. -/
def byteReg (r : Fin 8) : Fin 8 := if r < 4 then r else r - 4

/-- `gen_op_mov_TN_reg[ot][n][r]`: the value read. -/
def readReg (ot : Ot) (r : Fin 8) (regs : Regs) : TargetUlong :=
  match ot with
  | .byte => if r < 4 then regs r else regs (byteReg r) >>> 8
  | _ => regs r

/-- `gen_op_mov_reg_T0[ot][r]`: the registers afterwards. -/
def writeReg (ot : Ot) (r : Fin 8) (t0 : TargetUlong) (regs : Regs) : Regs :=
  match ot with
  | .byte =>
      if r < 4 then Function.update regs r ((regs r &&& ~~~(0xff : TargetUlong)) ||| (t0 &&& 0xff))
      else Function.update regs (byteReg r)
        ((regs (byteReg r) &&& ~~~(0xff00 : TargetUlong)) ||| ((t0 &&& 0xff) <<< 8))
  | .word => Function.update regs r ((regs r &&& ~~~(0xffff : TargetUlong)) ||| (t0 &&& 0xffff))
  | .long => Function.update regs r t0

/-- A register takes the low bits of `T0` only. -/
theorem writeReg_congr {ot : Ot} {r : Fin 8} {x y : TargetUlong} {regs : Regs}
    (h : x &&& ot.dataMask = y &&& ot.dataMask) : writeReg ot r x regs = writeReg ot r y regs := by
  cases ot with
  | byte =>
      replace h : x &&& 0xff = y &&& 0xff := h
      rw [writeReg, writeReg, h]
  | word =>
      replace h : x &&& 0xffff = y &&& 0xffff := h
      rw [writeReg, writeReg, h]
  | long =>
      have hall : ∀ z : TargetUlong, z &&& Ot.long.dataMask = z := fun z => BitVec.and_allOnes
      rw [hall, hall] at h
      rw [h]

theorem byteAt_withByte_zero (b : BitVec 8) (w : TargetUlong) : byteAt (withByte b w) 0 = b := by
  ext j hj
  have hlt : j < 32 := by omega
  simp [byteAt, withByte, hj, hlt]

theorem byteAt_withByte {i : ℕ} (hi : i ≤ 16) (b : BitVec 8) (w : TargetUlong) :
    byteAt (withByte b w) (i + 8) = byteAt w i := by
  ext j hj
  have hb : b.getLsbD (i + 8 + j) = false := BitVec.getLsbD_of_ge b _ (by omega)
  have hlt : i + 8 + j < 32 := by omega
  have hge : ¬ i + 8 + j < 8 := by omega
  have hsub : i + 8 + j - 8 = i + j := by omega
  simp only [byteAt, withByte, BitVec.getElem_extractLsb', BitVec.getLsbD_or,
    BitVec.getLsbD_setWidth, BitVec.getLsbD_shiftLeft, hb, hsub, hlt, hge, Bool.and_false,
    Bool.false_or, decide_true, decide_false, Bool.not_false, Bool.true_and]

/-- The bytes a mask covers are not changed by it. -/
theorem byteAt_and {mask : TargetUlong} {i : ℕ} (h : byteAt mask i = BitVec.allOnes 8)
    (v : TargetUlong) : byteAt (v &&& mask) i = byteAt v i := by
  rw [byteAt] at h
  rw [byteAt, BitVec.extractLsb'_and, h, BitVec.and_allOnes, byteAt]

/-- **Storing what was loaded changes nothing.** -/
theorem storeMem_loadMem (ot : Ot) (m : Mem) (a : TargetUlong) :
    storeMem ot m a (loadMem ot m a &&& ot.dataMask) = m := by
  have h8 := byteAt_withByte (Nat.zero_le 16)
  cases ot with
  | byte =>
      rw [storeMem, byteAt_and (by decide), loadMem, byteAt_withByte_zero, Function.update_eq_self]
  | word =>
      rw [storeMem, byteAt_and (by decide), byteAt_and (by decide), loadMem, byteAt_withByte_zero,
        h8, byteAt_withByte_zero, Function.update_eq_self, Function.update_eq_self]
  | long =>
      have h16 := byteAt_withByte (show 8 ≤ 16 by decide)
      have h24 := byteAt_withByte (show 16 ≤ 16 by decide)
      rw [storeMem, byteAt_and (by decide), byteAt_and (by decide), byteAt_and (by decide),
        byteAt_and (by decide), loadMem, byteAt_withByte_zero, h8, byteAt_withByte_zero, h16, h8,
        byteAt_withByte_zero, h24, h16, h8, byteAt_withByte_zero]
      simp only [Function.update_eq_self]

/-! ### Shifts and rotates -/

/-- The shifts and rotates that there are operations for. -/
inductive Shift where
  | rol
  | ror
  | rcl
  | rcr
  | shl
  | shr
  | sar
  deriving DecidableEq, Repr

/-- What an operation leaves in the flags: all of them lazily, or the others as they were, with
the overflow and the carry in their bits of the two words. -/
inductive FlagWrite where
  | all (flags : LazyFlags)
  | oc (o c : TargetUlong)
  deriving DecidableEq, Repr

/-- `T0` and the flags after an operation that does not leave everything as it was. -/
structure Outcome where
  t0 : TargetUlong
  flags : FlagWrite
  deriving DecidableEq, Repr

/-- The bit position of the overflow of a rotate. -/
def rotateOverflow (ot : Ot) (x : TargetUlong) : TargetUlong := lshift x (11 - (ot.dataBits - 1))

/-- The count of `rcl` and `rcr`, through `rclw_table` and `rclb_table`. -/
def rclCount (ot : Ot) (t1 : TargetUlong) : ℕ :=
  match ot with
  | .byte => (t1 &&& shift1Mask).toNat % 9
  | .word => (t1 &&& shift1Mask).toNat % 17
  | .long => (t1 &&& shift1Mask).toNat

namespace Shift

/-- The count that decides whether the operation does anything. -/
def count (k : Shift) (ot : Ot) (t1 : TargetUlong) : ℕ :=
  match k with
  | rcl => rclCount ot t1
  | rcr => rclCount ot t1
  | _ => (t1 &&& shift1Mask).toNat

end Shift

/-- `op_rol_T0_T1_cc`, for a count that is not zero. -/
def opRol (ot : Ot) (t0 t1 : TargetUlong) : Outcome :=
  let count := (t1 &&& ot.shiftMask).toNat
  let t := t0 &&& ot.dataMask
  let res := (t <<< count) ||| (t >>> (ot.dataBits - count))
  ⟨res, .oc (rotateOverflow ot (t0 ^^^ res)) res⟩

/-- `op_ror_T0_T1_cc`, for a count that is not zero. -/
def opRor (ot : Ot) (t0 t1 : TargetUlong) : Outcome :=
  let count := (t1 &&& ot.shiftMask).toNat
  let t := t0 &&& ot.dataMask
  let res := (t >>> count) ||| (t <<< (ot.dataBits - count))
  ⟨res, .oc (rotateOverflow ot (t0 ^^^ res)) (res >>> (ot.dataBits - 1))⟩

/-- `op_rcl_T0_T1_cc`, for a count that is not zero and the given flags. -/
def opRcl (ot : Ot) (t0 t1 eflags : TargetUlong) : Outcome :=
  let count := rclCount ot t1
  let src := t0 &&& ot.dataMask
  let res := (src <<< count) ||| ((eflags &&& ccC) <<< (count - 1))
  let res := if 1 < count then res ||| (src >>> (ot.dataBits + 1 - count)) else res
  ⟨res, .oc (rotateOverflow ot (src ^^^ res)) (src >>> (ot.dataBits - count))⟩

/-- `op_rcr_T0_T1_cc`, for a count that is not zero and the given flags. -/
def opRcr (ot : Ot) (t0 t1 eflags : TargetUlong) : Outcome :=
  let count := rclCount ot t1
  let src := t0 &&& ot.dataMask
  let res := (src >>> count) ||| ((eflags &&& ccC) <<< (ot.dataBits - count))
  let res := if 1 < count then res ||| (src <<< (ot.dataBits + 1 - count)) else res
  ⟨res, .oc (rotateOverflow ot (src ^^^ res)) (src >>> (count - 1))⟩

/-- `op_shl_T0_T1_cc`, for a count that is not zero. -/
def opShl (ot : Ot) (t0 t1 : TargetUlong) : Outcome :=
  let count := (t1 &&& shift1Mask).toNat
  let src := (t0 &&& ot.dataMask) <<< (count - 1)
  let res := t0 <<< count
  ⟨res, .all ⟨.shl ot, src, res⟩⟩

/-- `op_shr_T0_T1_cc`, for a count that is not zero. -/
def opShr (ot : Ot) (t0 t1 : TargetUlong) : Outcome :=
  let count := (t1 &&& shift1Mask).toNat
  let t := t0 &&& ot.dataMask
  let src := t >>> (count - 1)
  let res := t >>> count
  ⟨res, .all ⟨.sar ot, src, res⟩⟩

/-- `op_sar_T0_T1_cc`, for a count that is not zero. -/
def opSar (ot : Ot) (t0 t1 : TargetUlong) : Outcome :=
  let count := (t1 &&& shift1Mask).toNat
  let src := ot.stype t0
  let res := src.sshiftRight count
  ⟨res, .all ⟨.sar ot, src.sshiftRight (count - 1), res⟩⟩

namespace Shift

/-- The operation, for a count that is not zero. -/
def op (k : Shift) (ot : Ot) (t0 t1 eflags : TargetUlong) : Outcome :=
  match k with
  | rol => opRol ot t0 t1
  | ror => opRor ot t0 t1
  | rcl => opRcl ot t0 t1 eflags
  | rcr => opRcr ot t0 t1 eflags
  | shl => opShl ot t0 t1
  | shr => opShr ot t0 t1
  | sar => opSar ot t0 t1

end Shift

/-- The shifts and rotates that there are operations without flags for. -/
inductive SimpleShift where
  | rol
  | ror
  | shl
  | shr
  | sar
  deriving DecidableEq, Repr

namespace SimpleShift

/-- `op_rol_T0_T1` and the others without `_cc`: `T0` afterwards, if it is assigned. -/
def op (k : SimpleShift) (ot : Ot) (t0 t1 : TargetUlong) : Option TargetUlong :=
  match k with
  | rol =>
      let count := (t1 &&& ot.shiftMask).toNat
      let t := t0 &&& ot.dataMask
      if count ≠ 0 then some ((t <<< count) ||| (t >>> (ot.dataBits - count))) else none
  | ror =>
      let count := (t1 &&& ot.shiftMask).toNat
      let t := t0 &&& ot.dataMask
      if count ≠ 0 then some ((t >>> count) ||| (t <<< (ot.dataBits - count))) else none
  | shl => some (t0 <<< (t1 &&& shift1Mask).toNat)
  | shr => some ((t0 &&& ot.dataMask) >>> (t1 &&& shift1Mask).toNat)
  | sar => some ((ot.stype t0).sshiftRight (t1 &&& shift1Mask).toNat)

end SimpleShift

/-! ### The operations -/

/-- The kinds of memory accesses, the suffixes `_raw`, `_kernel` and `_user`. -/
inductive MemIndex where
  | raw
  | kernel
  | user
  deriving DecidableEq, Repr

/-- What neither the pass over the flags nor a simpler operation can change: the registers,
memory, `T1` and `A0`. -/
structure Core where
  regs : Regs
  mem : Mem
  t1 : TargetUlong
  a0 : TargetUlong

/-- The state of the processor. -/
structure Cpu where
  core : Core
  t0 : TargetUlong
  flags : LazyFlags

/-- How the operands of an instruction other than its first get into `T1` and `A0`. -/
inductive OperandLoad where
  | movT1Reg (ot : Ot) (r : Fin 8)
  | movlT1Im (im : TargetUlong)
  | ldT1A0 (ot : Ot) (mem : MemIndex)
  /-- The operations of `gen_lea_modrm`, which compute an address from the registers. -/
  | lea (address : Regs → TargetUlong)

/-- What loading an operand does. -/
def OperandLoad.exec : OperandLoad → Core → Core
  | movT1Reg ot r, c => { c with t1 := readReg ot r c.regs }
  | movlT1Im im, c => { c with t1 := im }
  | ldT1A0 ot _, c => { c with t1 := loadMem ot c.mem c.a0 }
  | lea address, c => { c with a0 := address c.regs }

/-- `op_orl_T0_T1`, `op_andl_T0_T1` and `op_xorl_T0_T1`. -/
inductive LogicOp where
  | or
  | and
  | xor
  deriving DecidableEq, Repr

/-- What a logic operation leaves in `T0`. -/
def LogicOp.exec : LogicOp → TargetUlong → TargetUlong → TargetUlong
  | or, t0, t1 => t0 ||| t1
  | and, t0, t1 => t0 &&& t1
  | xor, t0, t1 => t0 ^^^ t1

/-- The micro-operations. Those with a `MemIndex` or none are those of
`ops_template_mem.h`. -/
inductive CcMicroOp where
  | nop
  | load (operand : OperandLoad)
  | movT0Reg (ot : Ot) (r : Fin 8)
  | movRegT0 (ot : Ot) (r : Fin 8)
  | ldT0A0 (ot : Ot) (mem : MemIndex)
  | stT0A0 (ot : Ot) (mem : MemIndex)
  | setCcOp (ccOp : CcOp)
  | addlT0T1
  | sublT0T1
  | logic (op : LogicOp)
  | inclT0
  | declT0
  | update2Cc
  | update1Cc
  | updateIncCc
  | cmplT0T1Cc
  | adcCc (ot : Ot) (mem : Option MemIndex)
  | sbbCc (ot : Ot) (mem : Option MemIndex)
  | shiftCc (k : Shift) (ot : Ot) (mem : Option MemIndex)
  | shift (k : SimpleShift) (ot : Ot) (mem : Option MemIndex)

namespace Cpu

/-- Assign to `T0` and, in an operation on memory, store it at `A0`. -/
def assignT0 (s : Cpu) (ot : Ot) (mem : Option MemIndex) (t0 : TargetUlong) : Cpu :=
  match mem with
  | none => { s with t0 := t0 }
  | some _ =>
      { s with core := { s.core with mem := storeMem ot s.core.mem s.core.a0 t0 }, t0 := t0 }

end Cpu

/-- The lazy flags after an operation. -/
def FlagWrite.apply (w : FlagWrite) (l : LazyFlags) : LazyFlags :=
  match w with
  | all flags => flags
  | oc o c =>
      { l with op := .eflags, src := (l.computeAll &&& ~~~ccOC) ||| (o &&& ccO) ||| (c &&& ccC) }

/-- What an operation does. -/
def CcMicroOp.exec : CcMicroOp → Cpu → Cpu
  | nop, s => s
  | load operand, s => { s with core := operand.exec s.core }
  | movT0Reg ot r, s => { s with t0 := readReg ot r s.core.regs }
  | movRegT0 ot r, s =>
      { s with core := { s.core with regs := writeReg ot r s.t0 s.core.regs } }
  | ldT0A0 ot _, s => { s with t0 := loadMem ot s.core.mem s.core.a0 }
  | stT0A0 ot _, s =>
      { s with core := { s.core with mem := storeMem ot s.core.mem s.core.a0 s.t0 } }
  | setCcOp ccOp, s => { s with flags := { s.flags with op := ccOp } }
  | addlT0T1, s => { s with t0 := s.t0 + s.core.t1 }
  | sublT0T1, s => { s with t0 := s.t0 - s.core.t1 }
  | logic op, s => { s with t0 := op.exec s.t0 s.core.t1 }
  | inclT0, s => { s with t0 := s.t0 + 1 }
  | declT0, s => { s with t0 := s.t0 - 1 }
  | update2Cc, s => { s with flags := { s.flags with src := s.core.t1, dst := s.t0 } }
  | update1Cc, s => { s with flags := { s.flags with dst := s.t0 } }
  | updateIncCc, s => { s with flags := { s.flags with src := s.flags.computeC, dst := s.t0 } }
  | cmplT0T1Cc, s =>
      { s with flags := { s.flags with src := s.core.t1, dst := s.t0 - s.core.t1 } }
  | adcCc ot mem, s =>
      let cf := s.flags.computeC
      let t0 := s.t0 + s.core.t1 + cf
      -- `CC_OP_ADDB + SHIFT + cf * 4`
      { s.assignT0 ot mem t0 with
        flags := ⟨if cf = 0 then .add ot else .adc ot, s.core.t1, t0⟩ }
  | sbbCc ot mem, s =>
      let cf := s.flags.computeC
      let t0 := s.t0 - s.core.t1 - cf
      { s.assignT0 ot mem t0 with
        flags := ⟨if cf = 0 then .sub ot else .sbb ot, s.core.t1, t0⟩ }
  | shiftCc k ot mem, s =>
      if k.count ot s.core.t1 ≠ 0 then
        let r := k.op ot s.t0 s.core.t1 s.flags.computeAll
        { s.assignT0 ot mem r.t0 with flags := r.flags.apply s.flags }
      else
        s
  | shift k ot mem, s =>
      match k.op ot s.t0 s.core.t1 with
      | some t0 => s.assignT0 ot mem t0
      | none => s

/-- Execute micro-operations in order. -/
def execOps (ops : List CcMicroOp) (s : Cpu) : Cpu := ops.foldl (fun s o => o.exec s) s

theorem execOps_append (a b : List CcMicroOp) (s : Cpu) :
    execOps (a ++ b) s = execOps b (execOps a s) :=
  List.foldl_append

theorem execOps_cons (o : CcMicroOp) (ops : List CcMicroOp) (s : Cpu) :
    execOps (o :: ops) s = execOps ops (o.exec s) := rfl

/-! ### Operations without flags -/

/-- The shift or rotate without flags. -/
def Shift.simple : Shift → Option SimpleShift
  | rol => some .rol
  | ror => some .ror
  | rcl => none
  | rcr => none
  | shl => some .shl
  | shr => some .shr
  | sar => some .sar

section Simple

variable {ot : Ot} {k : Shift} {k' : SimpleShift} {mem : Option MemIndex} {mi : MemIndex}
  {s : Cpu} {x t1 : TargetUlong}

theorem storeMem_and (ot : Ot) (m : Mem) (a v : TargetUlong) :
    storeMem ot m a (v &&& ot.dataMask) = storeMem ot m a v := by
  cases ot with
  | byte => rw [storeMem, storeMem, byteAt_and (by decide)]
  | word => rw [storeMem, storeMem, byteAt_and (by decide), byteAt_and (by decide)]
  | long =>
      rw [storeMem, storeMem, byteAt_and (by decide), byteAt_and (by decide),
        byteAt_and (by decide), byteAt_and (by decide)]

/-- The bits of `DATA_MASK`. -/
theorem getLsbD_dataMask (ot : Ot) (i : ℕ) : ot.dataMask.getLsbD i = decide (i < ot.dataBits) := by
  have hbits : ot.dataBits ≤ 32 := by cases ot <;> decide
  have hmask : ot.dataMask = (BitVec.allOnes ot.dataBits).setWidth 32 := by cases ot <;> decide
  rw [hmask, BitVec.getLsbD_setWidth, BitVec.getLsbD_allOnes, Bool.and_eq_right_iff_imp]
  intro h
  exact decide_eq_true (Nat.lt_of_lt_of_le (of_decide_eq_true h) hbits)

/-- Two words have the same low bits. -/
theorem and_dataMask_eq_iff {x y : TargetUlong} :
    x &&& ot.dataMask = y &&& ot.dataMask ↔ ∀ i < ot.dataBits, x.getLsbD i = y.getLsbD i := by
  constructor
  · intro h i hi
    have hbit := congrArg (BitVec.getLsbD · i) h
    simpa [BitVec.getLsbD_and, getLsbD_dataMask, hi] using hbit
  · intro h
    refine BitVec.eq_of_getLsbD_eq fun i _ => ?_
    rw [BitVec.getLsbD_and, BitVec.getLsbD_and, getLsbD_dataMask]
    by_cases hi : i < ot.dataBits
    · rw [h i hi]
    · simp [hi]

/-- The cast to `DATA_STYPE` keeps the low bits. -/
theorem stype_and (ot : Ot) (x : TargetUlong) : ot.stype x &&& ot.dataMask = x &&& ot.dataMask := by
  have hbits : ot.dataBits ≤ 32 := by cases ot <;> decide
  rw [and_dataMask_eq_iff]
  intro i hi
  rw [Ot.stype, BitVec.getLsbD_signExtend, if_pos hi, BitVec.getLsbD_setWidth, decide_eq_true hi,
    decide_eq_true (Nat.lt_of_lt_of_le hi hbits), Bool.true_and, Bool.true_and]

/-- A rotate by nothing keeps the low bits. -/
theorem rotate_zero (ot : Ot) (x : TargetUlong) :
    (((x &&& ot.dataMask) <<< 0) ||| ((x &&& ot.dataMask) >>> (ot.dataBits - 0))) &&&
        ot.dataMask = x &&& ot.dataMask ∧
      (((x &&& ot.dataMask) >>> 0) ||| ((x &&& ot.dataMask) <<< (ot.dataBits - 0))) &&&
        ot.dataMask = x &&& ot.dataMask := by
  constructor <;> (rw [and_dataMask_eq_iff]; intro i hi)
  · have hout : ¬ ot.dataBits + i < ot.dataBits := by omega
    simp [BitVec.getLsbD_ushiftRight, getLsbD_dataMask, hi, hout]
  · simp [BitVec.getLsbD_shiftLeft, getLsbD_dataMask, hi]

/-- A count of zero is one of zero within the operand's size. -/
theorem shiftMask_eq_zero (ot : Ot) (h : (t1 &&& shift1Mask).toNat = 0) :
    (t1 &&& ot.shiftMask).toNat = 0 := by
  have hmask : ot.shiftMask = shift1Mask &&& ot.shiftMask := by cases ot <;> decide
  have hzero : t1 &&& shift1Mask = 0#32 := BitVec.eq_of_toNat_eq h
  rw [hmask, ← BitVec.and_assoc, hzero, BitVec.zero_and]
  rfl

/-- **An operation without flags leaves the same low bits** in `T0`. -/
theorem simple_of_count_ne_zero (hk : k.simple = some k') (t0 eflags : TargetUlong)
    (hc : k.count ot t1 ≠ 0) :
    (k.op ot t0 t1 eflags).t0 &&& ot.dataMask =
      ((k'.op ot t0 t1).getD t0) &&& ot.dataMask := by
  obtain ⟨hrol, hror⟩ := rotate_zero ot t0
  cases k with
  | rol =>
      cases hk
      simp only [Shift.op, opRol, SimpleShift.op]
      by_cases hd : (t1 &&& ot.shiftMask).toNat = 0
      · rw [hd, if_neg (not_not.mpr rfl), Option.getD_none]
        exact hrol
      · rw [if_pos hd, Option.getD_some]
  | ror =>
      cases hk
      simp only [Shift.op, opRor, SimpleShift.op]
      by_cases hd : (t1 &&& ot.shiftMask).toNat = 0
      · rw [hd, if_neg (not_not.mpr rfl), Option.getD_none]
        exact hror
      · rw [if_pos hd, Option.getD_some]
  | rcl => cases hk
  | rcr => cases hk
  | shl =>
      cases hk
      rfl
  | shr =>
      cases hk
      rfl
  | sar =>
      cases hk
      rfl

/-- With a count of zero it leaves the low bits as they were. -/
theorem simple_of_count_eq_zero (hk : k.simple = some k') (t0 : TargetUlong)
    (hc : k.count ot t1 = 0) :
    ((k'.op ot t0 t1).getD t0) &&& ot.dataMask = t0 &&& ot.dataMask := by
  cases k with
  | rol =>
      cases hk
      rw [SimpleShift.op, shiftMask_eq_zero ot hc, if_neg (not_not.mpr rfl), Option.getD_none]
  | ror =>
      cases hk
      rw [SimpleShift.op, shiftMask_eq_zero ot hc, if_neg (not_not.mpr rfl), Option.getD_none]
  | rcl => cases hk
  | rcr => cases hk
  | shl =>
      cases hk
      replace hc : (t1 &&& shift1Mask).toNat = 0 := hc
      rw [SimpleShift.op, hc, Option.getD_some, BitVec.shiftLeft_zero]
  | shr =>
      cases hk
      replace hc : (t1 &&& shift1Mask).toNat = 0 := hc
      rw [SimpleShift.op, hc, Option.getD_some, BitVec.ushiftRight_zero, BitVec.and_assoc,
        BitVec.and_self]
  | sar =>
      cases hk
      replace hc : (t1 &&& shift1Mask).toNat = 0 := hc
      rw [SimpleShift.op, hc, Option.getD_some, BitVec.sshiftRight_zero, stype_and]

theorem t0_exec_shift :
    ((CcMicroOp.shift k' ot mem).exec s).t0 = (k'.op ot s.t0 s.core.t1).getD s.t0 := by
  simp only [CcMicroOp.exec]
  cases k'.op ot s.t0 s.core.t1 with
  | none => rfl
  | some t0 => cases mem <;> rfl

theorem t0_exec_shiftCc : ((CcMicroOp.shiftCc k ot mem).exec s).t0 =
    if k.count ot s.core.t1 ≠ 0 then (k.op ot s.t0 s.core.t1 s.flags.computeAll).t0
    else s.t0 := by
  rw [CcMicroOp.exec]
  split_ifs
  · cases mem <;> rfl
  · rfl

/-- The same low bits in `T0`, with and without flags. -/
theorem and_dataMask_exec_shift {s' : Cpu} (hk : k.simple = some k') (hcore : s.core = s'.core)
    (ht0 : s.t0 = s'.t0) :
    ((CcMicroOp.shiftCc k ot mem).exec s).t0 &&& ot.dataMask =
      ((CcMicroOp.shift k' ot mem).exec s').t0 &&& ot.dataMask := by
  rw [t0_exec_shiftCc, t0_exec_shift, ← hcore, ← ht0]
  split_ifs with hc
  · exact simple_of_count_ne_zero hk _ _ hc
  · exact (simple_of_count_eq_zero hk _ (not_not.mp hc)).symm

/-- Storing the operand that was loaded changes nothing. -/
theorem core_store_load (hload : s.t0 = loadMem ot s.core.mem s.core.a0) :
    { s.core with mem := storeMem ot s.core.mem s.core.a0 (s.t0 &&& ot.dataMask) } = s.core := by
  rw [hload, storeMem_loadMem]

/-- An operation on memory leaves the low bits of `T0` there, if it loaded them from there. -/
theorem core_exec_shiftCc_mem (hload : s.t0 = loadMem ot s.core.mem s.core.a0) :
    ((CcMicroOp.shiftCc k ot (some mi)).exec s).core =
      { s.core with
        mem := storeMem ot s.core.mem s.core.a0
          (((CcMicroOp.shiftCc k ot (some mi)).exec s).t0 &&& ot.dataMask) } := by
  rw [t0_exec_shiftCc, CcMicroOp.exec]
  split_ifs
  · rw [storeMem_and]
    rfl
  · exact (core_store_load hload).symm

theorem core_exec_shift_mem (hload : s.t0 = loadMem ot s.core.mem s.core.a0) :
    ((CcMicroOp.shift k' ot (some mi)).exec s).core =
      { s.core with
        mem := storeMem ot s.core.mem s.core.a0
          (((CcMicroOp.shift k' ot (some mi)).exec s).t0 &&& ot.dataMask) } := by
  rw [t0_exec_shift]
  simp only [CcMicroOp.exec]
  cases k'.op ot s.t0 s.core.t1 with
  | none => exact (core_store_load hload).symm
  | some t0 =>
      rw [Option.getD_some, storeMem_and]
      rfl

/-- **With and without flags an operation on memory does the same** to it. -/
theorem core_exec_shift {s' : Cpu} (hk : k.simple = some k') (hcore : s.core = s'.core)
    (ht0 : s.t0 = s'.t0) (hload : s.t0 = loadMem ot s.core.mem s.core.a0) :
    ((CcMicroOp.shiftCc k ot (some mi)).exec s).core =
      ((CcMicroOp.shift k' ot (some mi)).exec s').core := by
  have hload' : s'.t0 = loadMem ot s'.core.mem s'.core.a0 := by rw [← ht0, ← hcore, hload]
  rw [core_exec_shiftCc_mem hload, core_exec_shift_mem hload',
    and_dataMask_exec_shift hk hcore ht0, hcore]

/-- On a register neither changes anything but `T0` and the flags. -/
theorem core_exec_shiftCc_reg : ((CcMicroOp.shiftCc k ot none).exec s).core = s.core := by
  rw [CcMicroOp.exec]
  split_ifs <;> rfl

theorem core_exec_shift_reg : ((CcMicroOp.shift k' ot none).exec s).core = s.core := by
  simp only [CcMicroOp.exec]
  cases k'.op ot s.t0 s.core.t1 <;> rfl

/-- A simple operation does not touch the flags. -/
theorem flags_exec_shift : ((CcMicroOp.shift k' ot mem).exec s).flags = s.flags := by
  simp only [CcMicroOp.exec]
  cases k'.op ot s.t0 s.core.t1 with
  | none => rfl
  | some t0 => cases mem <;> rfl

end Simple

end MemCheck
