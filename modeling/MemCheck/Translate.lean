import Mathlib.Data.List.Chain
import MemCheck.Lib.FlatCode
import MemCheck.ShadowMemory

/-!
# The Translator

The emulator translates guest code block by block into micro-operations
(`target-i386/translate.c`). For the interceptor to see every kernel instruction, the
translator is patched twice: `jmp_opt` is zero, so that no block jumps directly to another,
and a block ends as soon as the next instruction lies at or above `0xc0000000`.

This module translates the loop of `gen_intermediate_code_internal` and the functions that
emit jumps and ends of blocks. The decoder `disas_insn` is a parameter: which of these
functions it calls for an instruction, between which other micro-operations, is left open,
so the results hold for every instruction stream. Where the code of an instruction begins
is marked by `MicroOp.insnStart`, which stands for no code.

## Main results

* `genIntermediateCodeInternal_wellBuilt`: what holds of every block.
-/

namespace MemCheck

/-! ### Micro-operations -/

/-- The conditions of conditional jumps. -/
inductive Cond where
  | jnzT0
  | jccSub (index : ℕ)
  | jnzEcx (aflag : ℕ)
  | jzEcx (aflag : ℕ)
  | loop (aflag b : ℕ)
  | stringJnzSub (nz : Bool) (ot : ℕ)
  deriving DecidableEq, Repr

/-- A micro-operation. Those that neither jump nor end a block are `plain`, apart from the
few the emitting functions name. -/
inductive MicroOp where
  | insnStart (pc : Addr32)
  | plain (index : ℕ)
  | setCcOp (ccOp : ℕ)
  | resetInhibitIrq
  | movlEipIm (eip : Addr32)
  | movlT00
  | movlT0Im (im : Word32)
  | jumpCond (cond : Cond) (label : ℕ)
  | jmpLabel (label : ℕ)
  | setLabel (label : ℕ)
  | gotoTb (tbNum : ℕ)
  | exitTb
  | raiseException (trapno : ℕ)
  | raiseInterrupt (intno : ℕ) (nextEipAddend : Word32)
  | debug
  | singleStep
  | hlt
  deriving DecidableEq, Repr

namespace MicroOp

/-- The label set. -/
def label : MicroOp → Option ℕ
  | setLabel l => some l
  | _ => none

/-- The label jumped to. -/
def target : MicroOp → Option ℕ
  | jumpCond _ l => some l
  | jmpLabel l => some l
  | _ => none

/-- Control returns to `cpu_exec`, by `ret` or by `longjmp`. -/
def leaves : MicroOp → Bool
  | exitTb => true
  | raiseException _ => true
  | raiseInterrupt _ _ => true
  | debug => true
  | singleStep => true
  | hlt => true
  | _ => false

/-- Control does not go on behind the operation. -/
def stops : MicroOp → Bool
  | jmpLabel _ => true
  | o => o.leaves

/-- The address of the instruction that begins here. -/
def start : MicroOp → Option Addr32
  | insnStart pc => some pc
  | _ => none

/-- An operation that takes room in `gen_opc_buf`. -/
def counts : MicroOp → Bool
  | insnStart _ => false
  | setLabel _ => false
  | _ => true

end MicroOp

/-- Micro-operations as flat code. -/
def microCode : FlatCode.Shape MicroOp := ⟨MicroOp.label, MicroOp.target, MicroOp.stops⟩

/-! ### The translation context -/

/-- `TARGET_PAGE_SIZE`. -/
def targetPageSize : Word32 := 4096

/-- `TARGET_PAGE_MASK`. -/
def targetPageMask : Word32 := ~~~ (targetPageSize - 1)

/-- `OPC_MAX_SIZE`. -/
def opcMaxSize : ℕ := 480

/-- `CC_OP_DYNAMIC`. -/
def ccOpDynamic : ℕ := 0

/-- The start of the kernel's address space. -/
def kernelBase : Addr32 := 0xc0000000

/-- The fields of a `TranslationBlock` that are known before it is translated, and where
it is stored. -/
structure TbInfo where
  pc : Addr32
  csBase : Addr32
  flags : UInt64
  cflags : UInt16
  address : Word32
  deriving DecidableEq, Repr

namespace TbInfo

/-- `flags & HF_INHIBIT_IRQ_MASK`. -/
def inhibitIrq (tb : TbInfo) : Bool := tb.flags &&& 0x8 != 0

/-- `(flags >> TF_SHIFT) & 1`. -/
def tf (tb : TbInfo) : Bool := (tb.flags >>> 8) &&& 1 != 0

/-- `cflags & CF_SINGLE_INSN`. -/
def singleInsn (tb : TbInfo) : Bool := tb.cflags &&& 0x8 != 0

end TbInfo

/-- `DisasContext`, with the buffers the micro-operations go to. -/
structure DisasContext where
  tb : TbInfo
  pc : Addr32
  isJmp : Bool
  tf : Bool
  singlestepEnabled : Bool
  jmpOpt : Bool
  ccOp : ℕ
  nbGenLabels : ℕ
  genOpcBuf : List MicroOp
  deriving DecidableEq, Repr

namespace DisasContext

/-- Emit micro-operations. -/
def emit (s : DisasContext) (ops : List MicroOp) : DisasContext :=
  { s with genOpcBuf := s.genOpcBuf ++ ops }

/-- `gen_new_label`. -/
def genNewLabel (s : DisasContext) : ℕ × DisasContext :=
  (s.nbGenLabels, { s with nbGenLabels := s.nbGenLabels + 1 })

/-- `if (s->cc_op != CC_OP_DYNAMIC) gen_op_set_cc_op(s->cc_op);` -/
def ccOps (s : DisasContext) : List MicroOp :=
  if s.ccOp ≠ ccOpDynamic then [.setCcOp s.ccOp] else []

/-- `gen_update_cc_op`. -/
def genUpdateCcOp (s : DisasContext) : DisasContext :=
  { s.emit s.ccOps with ccOp := ccOpDynamic }

/-- `gen_jmp_im`. -/
def genJmpIm (s : DisasContext) (eip : Addr32) : DisasContext := s.emit [.movlEipIm eip]

/-- What `gen_eob` emits. -/
def eobOps (s : DisasContext) : List MicroOp :=
  s.ccOps ++ (if s.tb.inhibitIrq then [.resetInhibitIrq] else []) ++
    (if s.singlestepEnabled then [.debug]
      else if s.tf then [.singleStep]
      else [.movlT00, .exitTb])

/-- `gen_eob`. -/
def genEob (s : DisasContext) : DisasContext := { s.emit s.eobOps with isJmp := true }

/-- `gen_goto_tb`. -/
def genGotoTb (s : DisasContext) (tbNum : ℕ) (eip : Addr32) : DisasContext :=
  let pc := s.tb.csBase + eip
  if pc &&& targetPageMask = s.tb.pc &&& targetPageMask ∨
      pc &&& targetPageMask = (s.pc - 1) &&& targetPageMask then
    s.emit [.gotoTb tbNum, .movlEipIm eip,
      .movlT0Im (s.tb.address + UInt32.ofNat tbNum), .exitTb]
  else (s.genJmpIm eip).genEob

/-- `gen_jmp_tb`. -/
def genJmpTb (s : DisasContext) (eip : Addr32) (tbNum : ℕ) : DisasContext :=
  if s.jmpOpt then { s.genUpdateCcOp.genGotoTb tbNum eip with isJmp := true }
  else (s.genJmpIm eip).genEob

/-- `gen_jmp`. -/
def genJmp (s : DisasContext) (eip : Addr32) : DisasContext := s.genJmpTb eip 0

/-- `gen_jcc`. `inv` swaps the two targets; `setcc` computes the condition into `T0`, and
`func` is the faster test used with `jmp_opt`, if there is one. -/
def genJcc (s : DisasContext) (inv : Bool) (setcc : ℕ) (func : Option ℕ)
    (val nextEip : Addr32) : DisasContext :=
  let taken := if inv then nextEip else val
  let other := if inv then val else nextEip
  let s := s.genUpdateCcOp
  if s.jmpOpt then
    let (l1, s) := s.genNewLabel
    let s := match func with
      | some index => s.emit [.jumpCond (.jccSub index) l1]
      | none => s.emit [.plain setcc, .jumpCond .jnzT0 l1]
    let s := s.genGotoTb 0 other
    { (s.emit [.setLabel l1]).genGotoTb 1 taken with isJmp := true }
  else
    let (l1, s) := s.genNewLabel
    let (l2, s) := s.genNewLabel
    (s.emit [.plain setcc, .jumpCond .jnzT0 l1, .movlEipIm other, .jmpLabel l2,
      .setLabel l1, .movlEipIm taken, .setLabel l2]).genEob

/-- `loopnz`, `loopz`, `loop` and `jecxz`: `body` decrements `ECX` and fetches the flags
where the instruction does. -/
def genLoop (s : DisasContext) (body : List ℕ) (cond : Cond) (tval nextEip : Addr32) :
    DisasContext :=
  let (l1, s) := s.genNewLabel
  let (l2, s) := s.genNewLabel
  (s.emit (body.map .plain ++ [.jumpCond cond l1, .movlEipIm nextEip, .jmpLabel l2,
    .setLabel l1, .movlEipIm tval, .setLabel l2])).genEob

/-- `gen_jz_ecx_string`. -/
def genJzEcxString (s : DisasContext) (aflag : ℕ) (nextEip : Addr32) : ℕ × DisasContext :=
  let (l1, s) := s.genNewLabel
  let (l2, s) := s.genNewLabel
  let s := s.emit [.jumpCond (.jnzEcx aflag) l1, .setLabel l2]
  (l2, (s.genJmpTb nextEip 1).emit [.setLabel l1])

/-- What `GEN_REPZ2` emits that `GEN_REPZ` does not: the flags and the test. -/
def subOps (sub : Option (ℕ × Cond)) (l : ℕ) : List MicroOp :=
  match sub with
  | some (ccOp, cond) => [.setCcOp ccOp, .jumpCond cond l]
  | none => []

/-- The functions `GEN_REPZ` and `GEN_REPZ2` define: `body` is the string operation and the
decrement of `ECX`. -/
def genRepz (s : DisasContext) (aflag : ℕ) (body : List ℕ) (sub : Option (ℕ × Cond))
    (curEip nextEip : Addr32) : DisasContext :=
  let (l2, s) := s.genUpdateCcOp.genJzEcxString aflag nextEip
  let s := s.emit (body.map .plain ++ subOps sub l2)
  let s := if s.jmpOpt then s else s.emit [.jumpCond (.jzEcx aflag) l2]
  s.genJmp curEip

/-- The loads of a segment register: `gen_movl_seg_T0` may demand the end of the block, and
a load of `SS` turns the trace trap off. -/
def genMovlSeg (s : DisasContext) (body : List ℕ) (aborts clearsTf : Bool)
    (nextEip : Addr32) : DisasContext :=
  let s := { s.emit (body.map .plain) with
    isJmp := s.isJmp || aborts
    tf := s.tf && !clearsTf }
  if s.isJmp then (s.genJmpIm nextEip).genEob else s

/-- Set the instruction pointer, leave the block by `op`, and stop the translation. -/
def genLeave (s : DisasContext) (eip : Addr32) (op : MicroOp) : DisasContext :=
  { s.emit (s.ccOps ++ [.movlEipIm eip, op]) with isJmp := true }

/-- `gen_exception`. -/
def genException (s : DisasContext) (trapno : ℕ) (curEip : Addr32) : DisasContext :=
  s.genLeave curEip (.raiseException trapno)

/-- `gen_interrupt`. -/
def genInterrupt (s : DisasContext) (intno : ℕ) (curEip nextEip : Addr32) : DisasContext :=
  s.genLeave curEip (.raiseInterrupt intno (nextEip - curEip))

/-- `gen_debug`. -/
def genDebug (s : DisasContext) (curEip : Addr32) : DisasContext := s.genLeave curEip .debug

end DisasContext

/-! ### The loop -/

/-- What `disas_insn` does for an instruction: a micro-operation, an assignment to
`s->cc_op`, or a call of one of the functions above. -/
inductive Emit where
  | op (index : ℕ)
  | ccOp (ccOp : ℕ)
  | flushCcOp
  | updateCcOp
  | jmpIm (eip : Addr32)
  | jmp (eip : Addr32)
  | jcc (inv : Bool) (setcc : ℕ) (func : Option ℕ) (val nextEip : Addr32)
  | loop (body : List ℕ) (cond : Cond) (tval nextEip : Addr32)
  | repz (aflag : ℕ) (body : List ℕ) (sub : Option (ℕ × Cond)) (curEip nextEip : Addr32)
  | movlSeg (body : List ℕ) (aborts clearsTf : Bool) (nextEip : Addr32)
  | eob
  | exception (trapno : ℕ) (curEip : Addr32)
  | interrupt (intno : ℕ) (curEip nextEip : Addr32)
  | debug (curEip : Addr32)
  | hlt (nextEip : Addr32)
  deriving DecidableEq, Repr

/-- The effect on the translation context. -/
def Emit.apply (s : DisasContext) : Emit → DisasContext
  | op index => s.emit [.plain index]
  | ccOp c => { s with ccOp := c }
  | flushCcOp => s.emit s.ccOps
  | updateCcOp => s.genUpdateCcOp
  | jmpIm eip => s.genJmpIm eip
  | jmp eip => s.genJmp eip
  | jcc inv setcc func val nextEip => s.genJcc inv setcc func val nextEip
  | loop body cond tval nextEip => s.genLoop body cond tval nextEip
  | repz aflag body sub curEip nextEip => s.genRepz aflag body sub curEip nextEip
  | movlSeg body aborts clearsTf nextEip => s.genMovlSeg body aborts clearsTf nextEip
  | eob => s.genEob
  | exception trapno curEip => s.genException trapno curEip
  | interrupt intno curEip nextEip => s.genInterrupt intno curEip nextEip
  | debug curEip => s.genDebug curEip
  | hlt nextEip => s.genLeave nextEip .hlt

/-- A decoded instruction. It has at least one byte and does not go round the address
space. -/
structure Insn where
  emits : List Emit
  size : Word32
  size_pos : 0 < size.toNat
  size_le : size.toNat ≤ 2 ^ 32 - 4096

/-- What the translator reads of the processor: the breakpoints, whether a debugger
single-steps, and the code, as the decoder sees it in a context. -/
structure CodeView where
  breakpoints : List Addr32
  singlestepEnabled : Bool
  decode : DisasContext → Addr32 → Insn

namespace DisasContext

/-- `disas_insn`. -/
def disasInsn (s : DisasContext) (view : CodeView) (pcStart : Addr32) : DisasContext :=
  let insn := view.decode s pcStart
  insn.emits.foldl Emit.apply
    { s.emit [.insnStart pcStart] with pc := pcStart + insn.size }

/-- The part of the loop's body before the tests. -/
def translateInsn (s : DisasContext) (view : CodeView) (pcPtr : Addr32) : DisasContext :=
  (if pcPtr ∈ view.breakpoints then s.genDebug (pcPtr - s.tb.csBase) else s).disasInsn view
    pcPtr

/-- The address behind the instruction at `pcPtr`, as `disas_insn` returns it. -/
def nextPc (s : DisasContext) (view : CodeView) (pcPtr : Addr32) : Addr32 :=
  pcPtr + (view.decode (if pcPtr ∈ view.breakpoints then
    s.genDebug (pcPtr - s.tb.csBase) else s) pcPtr).size

/-- `gen_opc_ptr >= gen_opc_end`. -/
def full (s : DisasContext) : Bool := opcMaxSize ≤ (s.genOpcBuf.filter MicroOp.counts).length

/-- The loop of `gen_intermediate_code_internal`, for a number of rounds. -/
def translateLoop (view : CodeView) : ℕ → DisasContext → Addr32 → DisasContext × Addr32
  | 0, s, pcPtr => (s, pcPtr)
  | rounds + 1, s, pcPtr =>
      let next := s.nextPc view pcPtr
      let s := s.translateInsn view pcPtr
      let stopped := ((s.genJmpIm (next - s.tb.csBase)).genEob, next)
      if s.isJmp then (s, next)
      else if s.tf || s.singlestepEnabled || s.tb.inhibitIrq || s.tb.singleInsn then stopped
      else if s.full || targetPageSize - 32 ≤ next - s.tb.pc then stopped
      else if kernelBase ≤ next then stopped
      else translateLoop view rounds s next

end DisasContext

/-- A translated block. `size` is the number of bytes translated. -/
structure TranslationBlock where
  info : TbInfo
  size : Word32
  ops : List MicroOp

/-- `gen_intermediate_code_internal`. Every round translates at least one byte, so that
the loop ends within `TARGET_PAGE_SIZE - 32` rounds. -/
def genIntermediateCodeInternal (view : CodeView) (tb : TbInfo) : TranslationBlock :=
  let s : DisasContext :=
    { tb := tb, pc := tb.pc, isJmp := false, tf := tb.tf
      singlestepEnabled := view.singlestepEnabled, jmpOpt := false, ccOp := ccOpDynamic
      nbGenLabels := 0, genOpcBuf := [] }
  let (s, pcPtr) := s.translateLoop view (targetPageSize - 32).toNat tb.pc
  ⟨tb, pcPtr - tb.pc, s.genOpcBuf⟩

/-- The addresses of the instructions of a block, in order. -/
def TranslationBlock.insns (tb : TranslationBlock) : List Addr32 :=
  tb.ops.filterMap MicroOp.start

/-! ### What the emitting functions emit -/

/-- How operations may follow each other: an exit follows the clearing of `T0`, and a
kernel instruction follows nothing that lets control go on to it. -/
def Follows (o : MicroOp) : MicroOp → Prop
  | .exitTb => o = .movlT00
  | .insnStart pc => kernelBase ≤ pc → o.leaves = true
  | _ => True

/-- Neither an exit, nor a direct jump, nor the start of an instruction. -/
def MicroOp.simple : MicroOp → Bool
  | exitTb => false
  | gotoTb _ => false
  | insnStart _ => false
  | _ => true

/-- No control flow at all, apart from leaving the block by an exception. -/
def MicroOp.straight : MicroOp → Bool
  | jumpCond _ _ => false
  | jmpLabel _ => false
  | setLabel _ => false
  | o => o.simple

/-- Code within an instruction: no direct jump to another block, and exits only with `T0`
cleared. -/
structure Clean (seg : List MicroOp) : Prop where
  chain : seg.IsChain Follows
  head : ∀ o ∈ seg.head?, o ≠ .exitTb
  inner : ∀ o ∈ seg, o.simple = true ∨ o = .exitTb

theorem follows_of_simple {o o' : MicroOp} (h : o'.simple = true) : Follows o o' := by
  cases o' with
  | exitTb => cases h
  | insnStart pc => cases h
  | _ => trivial

theorem MicroOp.of_straight {o : MicroOp} (h : o.straight = true) :
    o.simple = true ∧ o.label = none ∧ o.target = none := by
  cases o with
  | jumpCond c l => cases h
  | jmpLabel l => cases h
  | setLabel l => cases h
  | _ => exact ⟨h, rfl, rfl⟩

theorem labels_of_straight {os : List MicroOp} (h : ∀ o ∈ os, o.straight = true) :
    FlatCode.labels microCode os = [] :=
  List.filterMap_eq_nil_iff.mpr fun o ho => (MicroOp.of_straight (h o ho)).2.1

theorem targets_of_straight {os : List MicroOp} (h : ∀ o ∈ os, o.straight = true) :
    FlatCode.targets microCode os = [] :=
  List.filterMap_eq_nil_iff.mpr fun o ho => (MicroOp.of_straight (h o ho)).2.2

theorem clean_of_simple {seg : List MicroOp} (h : ∀ o ∈ seg, o.simple = true) :
    Clean seg := by
  refine ⟨?_, fun o ho => ?_, fun o ho => Or.inl (h o ho)⟩
  · induction seg with
    | nil => exact List.IsChain.nil
    | cons o seg ih =>
        refine List.isChain_cons.mpr ⟨fun o' ho' => ?_, ih fun o ho => h o (.tail _ ho)⟩
        exact follows_of_simple (h o' (.tail _ (List.mem_of_mem_head? ho')))
  · rintro rfl
    exact absurd (h _ (List.mem_of_mem_head? ho)) (by decide)

theorem clean_of_straight {os : List MicroOp} (h : ∀ o ∈ os, o.straight = true) : Clean os :=
  clean_of_simple fun o ho => (MicroOp.of_straight (h o ho)).1

theorem Clean.append {a b : List MicroOp} (ha : Clean a) (hb : Clean b) : Clean (a ++ b) := by
  refine ⟨List.isChain_append.mpr ⟨ha.chain, hb.chain, fun o _ o' ho' => ?_⟩, ?_, ?_⟩
  · rcases hb.inner o' (List.mem_of_mem_head? ho') with hs | rfl
    · exact follows_of_simple hs
    · exact absurd rfl (hb.head _ ho')
  · intro o ho
    cases a with
    | nil => exact hb.head o ho
    | cons x a => exact ha.head o ho
  · intro o ho
    rcases List.mem_append.mp ho with ho | ho
    · exact ha.inner o ho
    · exact hb.inner o ho

theorem Clean.start_eq_nil {seg : List MicroOp} (h : Clean seg) :
    seg.filterMap MicroOp.start = [] := by
  refine List.filterMap_eq_nil_iff.mpr fun o ho => ?_
  rcases h.inner o ho with hs | rfl
  · cases o with
    | insnStart pc => cases hs
    | _ => rfl
  · rfl

theorem Clean.gotoTb_notMem {seg : List MicroOp} (h : Clean seg) (n : ℕ) :
    MicroOp.gotoTb n ∉ seg := by
  intro hn
  rcases h.inner _ hn with hs | heq
  · cases hs
  · cases heq

/-- Code whose last operation leaves the block. -/
def Ends (seg : List MicroOp) : Prop := ∃ a o, seg = a ++ [o] ∧ o.leaves = true

theorem Ends.append (a : List MicroOp) {b : List MicroOp} (h : Ends b) : Ends (a ++ b) := by
  obtain ⟨c, o, rfl, ho⟩ := h
  exact ⟨a ++ c, o, by simp, ho⟩

namespace DisasContext

variable {s s' s'' : DisasContext} {seg seg' : List MicroOp}

theorem ccOps_straight (s : DisasContext) : ∀ o ∈ s.ccOps, o.straight = true := by
  intro o ho
  rw [ccOps] at ho
  split_ifs at ho
  · rw [List.mem_singleton.mp ho]
    rfl
  · exact absurd ho List.not_mem_nil

theorem eobOps_clean (s : DisasContext) : Clean s.eobOps := by
  have hirq : Clean (if s.tb.inhibitIrq then [MicroOp.resetInhibitIrq] else []) := by
    split_ifs
    · exact clean_of_simple (by decide)
    · exact clean_of_simple (by decide)
  refine ((clean_of_straight s.ccOps_straight).append hirq).append ?_
  split_ifs
  · exact clean_of_simple (by decide)
  · exact clean_of_simple (by decide)
  · exact ⟨by simp [Follows], by simp, by decide⟩

theorem eobOps_ends (s : DisasContext) : Ends s.eobOps := by
  refine Ends.append _ ?_
  split_ifs
  · exact ⟨[], .debug, rfl, rfl⟩
  · exact ⟨[], .singleStep, rfl, rfl⟩
  · exact ⟨[.movlT00], .exitTb, rfl, rfl⟩

theorem eobOps_labels (s : DisasContext) : FlatCode.labels microCode s.eobOps = [] := by
  rw [eobOps, FlatCode.labels_append, FlatCode.labels_append,
    labels_of_straight s.ccOps_straight]
  split_ifs <;> rfl

theorem eobOps_targets (s : DisasContext) : FlatCode.targets microCode s.eobOps = [] := by
  rw [eobOps, FlatCode.targets_append, FlatCode.targets_append,
    targets_of_straight s.ccOps_straight]
  split_ifs <;> rfl

/-- `s'` is `s` after emitting `seg`, which jumps only to its own, new, labels, and which
leaves the block at its end if it stops the translation. -/
structure Grows (s s' : DisasContext) (seg : List MicroOp) : Prop where
  buf : s'.genOpcBuf = s.genOpcBuf ++ seg
  nbLe : s.nbGenLabels ≤ s'.nbGenLabels
  fresh : ∀ l ∈ FlatCode.labels microCode seg, s.nbGenLabels ≤ l
  below : ∀ l ∈ FlatCode.targets microCode seg, l < s'.nbGenLabels
  resolved : FlatCode.Resolved microCode seg
  ends : s'.isJmp = true → s.isJmp = true ∨ Ends seg
  jmpOpt : s'.jmpOpt = s.jmpOpt
  tb : s'.tb = s.tb

/-- The code emitted is clean. -/
structure Emits (s s' : DisasContext) (seg : List MicroOp) : Prop extends
    Grows s s' seg where
  clean : Clean seg

/-- Code without control flow of its own. -/
theorem emits_straight {os : List MicroOp} (hbuf : s'.genOpcBuf = s.genOpcBuf ++ os)
    (hs : ∀ o ∈ os, o.straight = true) (hnb : s'.nbGenLabels = s.nbGenLabels)
    (hends : s'.isJmp = true → s.isJmp = true ∨ Ends os) (hopt : s'.jmpOpt = s.jmpOpt)
    (htb : s'.tb = s.tb) : Emits s s' os := by
  refine ⟨⟨hbuf, hnb.ge, ?_, ?_, ?_, hends, hopt, htb⟩, clean_of_straight hs⟩
  · rw [labels_of_straight hs]
    exact fun l hl => absurd hl List.not_mem_nil
  · rw [targets_of_straight hs]
    exact fun l hl => absurd hl List.not_mem_nil
  · rw [FlatCode.Resolved, targets_of_straight hs]
    exact fun l hl => absurd hl List.not_mem_nil

/-- Code that ends the block as `gen_eob` does. -/
theorem emits_eob {os : List MicroOp} (e : DisasContext)
    (hbuf : s'.genOpcBuf = s.genOpcBuf ++ (os ++ e.eobOps)) (hclean : Clean os)
    (hnb : s.nbGenLabels ≤ s'.nbGenLabels)
    (hfresh : ∀ l ∈ FlatCode.labels microCode os, s.nbGenLabels ≤ l)
    (hbelow : ∀ l ∈ FlatCode.targets microCode os, l < s'.nbGenLabels)
    (hres : FlatCode.Resolved microCode os) (hopt : s'.jmpOpt = s.jmpOpt)
    (htb : s'.tb = s.tb) : Emits s s' (os ++ e.eobOps) := by
  refine ⟨⟨hbuf, hnb, ?_, ?_, ?_, fun _ => Or.inr (e.eobOps_ends.append os), hopt, htb⟩,
    hclean.append e.eobOps_clean⟩
  · rw [FlatCode.labels_append, e.eobOps_labels, List.append_nil]
    exact hfresh
  · rw [FlatCode.targets_append, e.eobOps_targets, List.append_nil]
    exact hbelow
  · rw [FlatCode.Resolved, FlatCode.targets_append, FlatCode.labels_append,
      e.eobOps_labels, e.eobOps_targets, List.append_nil, List.append_nil]
    exact hres

/-- Straight code before the end of the block. -/
theorem emits_straight_eob (os : List MicroOp) (e : DisasContext)
    (hbuf : s'.genOpcBuf = s.genOpcBuf ++ (os ++ e.eobOps))
    (hs : ∀ o ∈ os, o.straight = true) (hnb : s'.nbGenLabels = s.nbGenLabels)
    (hopt : s'.jmpOpt = s.jmpOpt) (htb : s'.tb = s.tb) : Emits s s' (os ++ e.eobOps) := by
  have hos : Emits s (s.emit os) os := emits_straight rfl hs rfl Or.inl rfl rfl
  exact emits_eob e hbuf hos.clean hnb.ge hos.fresh (hnb ▸ hos.below) hos.resolved hopt htb

theorem plain_straight (body : List ℕ) : ∀ o ∈ body.map MicroOp.plain, o.straight = true := by
  intro o ho
  obtain ⟨i, -, rfl⟩ := List.mem_map.mp ho
  rfl

/-- A jump without `jmp_opt` ends the block. -/
theorem genJmpTb_eq (h : s.jmpOpt = false) (eip : Addr32) (tbNum : ℕ) :
    s.genJmpTb eip tbNum = (s.genJmpIm eip).genEob := by
  rw [genJmpTb, h, if_neg Bool.false_ne_true]

theorem genLeave_emits (s : DisasContext) (eip : Addr32) {o : MicroOp}
    (hs : o.straight = true) (hl : o.leaves = true) :
    Emits s (s.genLeave eip o) (s.ccOps ++ [.movlEipIm eip, o]) := by
  refine emits_straight rfl (fun o' ho' => ?_) rfl (fun _ => Or.inr ?_) rfl rfl
  · simp only [List.mem_append, List.mem_cons, List.not_mem_nil, or_false] at ho'
    rcases ho' with ho' | rfl | rfl
    · exact s.ccOps_straight o' ho'
    · rfl
    · exact hs
  · exact ⟨s.ccOps ++ [.movlEipIm eip], o, by simp, hl⟩

theorem genMovlSeg_emits (s : DisasContext) (body : List ℕ) (aborts clearsTf : Bool)
    (nextEip : Addr32) : ∃ seg, Emits s (s.genMovlSeg body aborts clearsTf nextEip) seg := by
  by_cases hj : s.isJmp || aborts
  · rw [genMovlSeg, if_pos hj]
    refine ⟨_, emits_straight_eob (body.map MicroOp.plain ++ [.movlEipIm nextEip])
      { s with tf := s.tf && !clearsTf } ?_ (fun o ho => ?_) rfl rfl rfl⟩
    · simp [genEob, emit, genJmpIm, eobOps, ccOps]
    · rcases List.mem_append.mp ho with ho | ho
      · exact plain_straight body o ho
      · rw [List.mem_singleton.mp ho]
        rfl
  · rw [genMovlSeg, if_neg hj]
    exact ⟨_, emits_straight rfl (plain_straight body) rfl (fun h => absurd h hj) rfl rfl⟩

/-- A branch: behind straight code a conditional jump over one assignment of the
instruction pointer to another one. -/
theorem emits_branch (os : List MicroOp) (hs : ∀ o ∈ os, o.straight = true) (cond : Cond)
    (other taken : Addr32) (e : DisasContext)
    (hbuf : s'.genOpcBuf = s.genOpcBuf ++ ((os ++ [.jumpCond cond s.nbGenLabels,
      .movlEipIm other, .jmpLabel (s.nbGenLabels + 1), .setLabel s.nbGenLabels,
      .movlEipIm taken, .setLabel (s.nbGenLabels + 1)]) ++ e.eobOps))
    (hnb : s'.nbGenLabels = s.nbGenLabels + 2) (hopt : s'.jmpOpt = s.jmpOpt)
    (htb : s'.tb = s.tb) : ∃ seg, Emits s s' seg := by
  refine ⟨_, emits_eob e hbuf ((clean_of_straight hs).append (clean_of_simple ?_)) ?_ ?_ ?_ ?_
    hopt htb⟩
  · simp [MicroOp.simple]
  · omega
  · intro l hl
    rw [FlatCode.labels_append, labels_of_straight hs] at hl
    simp [FlatCode.labels, microCode, MicroOp.label] at hl
    omega
  · intro l hl
    rw [FlatCode.targets_append, targets_of_straight hs] at hl
    simp [FlatCode.targets, microCode, MicroOp.target] at hl
    omega
  · rw [FlatCode.Resolved, FlatCode.targets_append, FlatCode.labels_append,
      labels_of_straight hs, targets_of_straight hs]
    simp [FlatCode.labels, FlatCode.targets, microCode, MicroOp.label, MicroOp.target]

theorem genJcc_emits (h : s.jmpOpt = false) (inv : Bool) (setcc : ℕ) (func : Option ℕ)
    (val nextEip : Addr32) :
    ∃ seg, Emits s (s.genJcc inv setcc func val nextEip) seg := by
  have hopt : ¬ (s.genUpdateCcOp.jmpOpt = true) := by
    simp [genUpdateCcOp, emit, h]
  rw [genJcc, if_neg hopt]
  refine emits_branch (s.ccOps ++ [.plain setcc]) (fun o ho => ?_) .jnzT0
    (if inv then val else nextEip) (if inv then nextEip else val)
    { s with ccOp := ccOpDynamic } ?_ rfl rfl rfl
  · rcases List.mem_append.mp ho with ho | ho
    · exact s.ccOps_straight o ho
    · rw [List.mem_singleton.mp ho]
      rfl
  · simp [genEob, emit, genUpdateCcOp, genNewLabel, eobOps, ccOps]

theorem genLoop_emits (s : DisasContext) (body : List ℕ) (cond : Cond)
    (tval nextEip : Addr32) : ∃ seg, Emits s (s.genLoop body cond tval nextEip) seg := by
  refine emits_branch (body.map MicroOp.plain) (plain_straight body) cond nextEip tval s
    ?_ rfl rfl rfl
  simp only [genLoop, genEob, emit, genNewLabel, List.append_assoc]
  rfl

theorem subOps_simple (sub : Option (ℕ × Cond)) (l : ℕ) :
    ∀ o ∈ subOps sub l, o.simple = true := by
  cases sub <;> simp [subOps, MicroOp.simple]

theorem subOps_labels (sub : Option (ℕ × Cond)) (l : ℕ) :
    FlatCode.labels microCode (subOps sub l) = [] := by
  cases sub <;> rfl

theorem subOps_targets (sub : Option (ℕ × Cond)) (l : ℕ) :
    ∀ k ∈ FlatCode.targets microCode (subOps sub l), k = l := by
  cases sub <;> simp [subOps, FlatCode.targets, microCode, MicroOp.target]

section Repz

variable (aflag : ℕ) (body : List ℕ) (sub : Option (ℕ × Cond)) (curEip nextEip : Addr32)

/-- The code of a string loop, with the labels `l` and `l + 1`, up to the jump back to the
instruction. Both jumps leave the block, the one out of the loop with the code of `e`. -/
def repzOps (e : DisasContext) (l : ℕ) : List MicroOp :=
  [.jumpCond (.jnzEcx aflag) l, .setLabel (l + 1), .movlEipIm nextEip] ++ (e.eobOps ++
    ([.setLabel l] ++ (body.map .plain ++ (subOps sub (l + 1) ++
      [.jumpCond (.jzEcx aflag) (l + 1), .movlEipIm curEip]))))

theorem repzOps_clean (e : DisasContext) (l : ℕ) :
    Clean (repzOps aflag body sub curEip nextEip e l) := by
  refine Clean.append (clean_of_simple ?_) (e.eobOps_clean.append
    (Clean.append (clean_of_simple ?_) ((clean_of_straight (plain_straight body)).append
      ((clean_of_simple (subOps_simple _ _)).append (clean_of_simple ?_)))))
  all_goals simp [MicroOp.simple]

theorem repzOps_labels (e : DisasContext) (l : ℕ) :
    FlatCode.labels microCode (repzOps aflag body sub curEip nextEip e l) = [l + 1, l] := by
  simp only [repzOps, FlatCode.labels_append, e.eobOps_labels,
    labels_of_straight (plain_straight body), subOps_labels]
  rfl

theorem repzOps_targets (e : DisasContext) (l : ℕ) :
    ∀ k ∈ FlatCode.targets microCode (repzOps aflag body sub curEip nextEip e l),
      k = l ∨ k = l + 1 := by
  intro k hk
  simp only [repzOps, FlatCode.targets_append, e.eobOps_targets,
    targets_of_straight (plain_straight body), List.mem_append] at hk
  rcases hk with hk | hk | hk | hk | hk | hk
  · exact Or.inl (List.mem_singleton.mp hk)
  · cases hk
  · cases hk
  · cases hk
  · exact Or.inr (subOps_targets _ _ k hk)
  · exact Or.inr (List.mem_singleton.mp hk)

/-- `GEN_REPZ` without `jmp_opt`: the flags are brought up to date first. -/
theorem genRepz_eq (h : s.jmpOpt = false) :
    s.genRepz aflag body sub curEip nextEip =
      { s with
        ccOp := ccOpDynamic
        genOpcBuf := s.genOpcBuf ++ ((s.ccOps ++ repzOps aflag body sub curEip nextEip
          { s with ccOp := ccOpDynamic } s.nbGenLabels) ++
            eobOps { s with ccOp := ccOpDynamic })
        nbGenLabels := s.nbGenLabels + 2
        isJmp := true } := by
  simp [genRepz, genJzEcxString, genJmp, genJmpTb, genUpdateCcOp, genNewLabel, genJmpIm,
    genEob, emit, h, repzOps, eobOps, ccOps]

theorem genRepz_emits (h : s.jmpOpt = false) :
    ∃ seg, Emits s (s.genRepz aflag body sub curEip nextEip) seg := by
  rw [genRepz_eq aflag body sub curEip nextEip h]
  refine ⟨_, emits_eob { s with ccOp := ccOpDynamic } rfl
    ((clean_of_straight s.ccOps_straight).append (repzOps_clean _ _ _ _ _ _ _))
    (Nat.le_add_right _ 2) (fun l hl => ?_) (fun l hl => ?_) (fun l hl => ?_) rfl rfl⟩
  · rw [FlatCode.labels_append, labels_of_straight s.ccOps_straight, repzOps_labels] at hl
    simp only [List.nil_append, List.mem_cons, List.not_mem_nil, or_false] at hl
    omega
  · rw [FlatCode.targets_append, targets_of_straight s.ccOps_straight] at hl
    have hl' := repzOps_targets _ _ _ _ _ _ _ l hl
    simp only
    omega
  · rw [FlatCode.targets_append, targets_of_straight s.ccOps_straight] at hl
    have hl' := repzOps_targets _ _ _ _ _ _ _ l hl
    rw [FlatCode.labels_append, labels_of_straight s.ccOps_straight, repzOps_labels]
    simp only [List.nil_append, List.mem_cons, List.not_mem_nil, or_false]
    omega

end Repz

/-- **Every emitting function** emits clean code, as `jmp_opt` is zero. -/
theorem apply_emits (h : s.jmpOpt = false) (e : Emit) : ∃ seg, Emits s (e.apply s) seg := by
  cases e with
  | op index =>
      refine ⟨_, emits_straight rfl (fun o ho => ?_) rfl Or.inl rfl rfl⟩
      rw [List.mem_singleton.mp ho]
      rfl
  | ccOp c =>
      exact ⟨[], emits_straight (List.append_nil _).symm (fun o ho => absurd ho List.not_mem_nil)
        rfl Or.inl rfl rfl⟩
  | flushCcOp => exact ⟨_, emits_straight rfl s.ccOps_straight rfl Or.inl rfl rfl⟩
  | updateCcOp => exact ⟨_, emits_straight rfl s.ccOps_straight rfl Or.inl rfl rfl⟩
  | jmpIm eip =>
      refine ⟨_, emits_straight rfl (fun o ho => ?_) rfl Or.inl rfl rfl⟩
      rw [List.mem_singleton.mp ho]
      rfl
  | jmp eip =>
      rw [Emit.apply, genJmp, genJmpTb_eq h]
      refine ⟨_, emits_straight_eob [.movlEipIm eip] s (List.append_assoc _ _ _)
        (fun o ho => ?_) rfl rfl rfl⟩
      rw [List.mem_singleton.mp ho]
      rfl
  | jcc inv setcc func val nextEip => exact genJcc_emits h inv setcc func val nextEip
  | loop body cond tval nextEip => exact genLoop_emits s body cond tval nextEip
  | repz aflag body sub curEip nextEip => exact genRepz_emits aflag body sub curEip nextEip h
  | movlSeg body aborts clearsTf nextEip =>
      exact genMovlSeg_emits s body aborts clearsTf nextEip
  | eob =>
      exact ⟨_, emits_straight_eob [] s rfl (fun o ho => absurd ho List.not_mem_nil)
        rfl rfl rfl⟩
  | exception trapno curEip => exact ⟨_, genLeave_emits s curEip rfl rfl⟩
  | interrupt intno curEip nextEip => exact ⟨_, genLeave_emits s curEip rfl rfl⟩
  | debug curEip => exact ⟨_, genLeave_emits s curEip rfl rfl⟩
  | hlt nextEip => exact ⟨_, genLeave_emits s nextEip rfl rfl⟩

/-! ### Blocks -/

/-- The jumps of the code so far are resolved, and a stopped translation is sealed. -/
structure Progress (s : DisasContext) : Prop where
  jmpOpt : s.jmpOpt = false
  resolved : FlatCode.Resolved microCode s.genOpcBuf
  below : ∀ l ∈ FlatCode.targets microCode s.genOpcBuf, l < s.nbGenLabels
  closed : s.isJmp = true → FlatCode.Sealed microCode s.nbGenLabels s.genOpcBuf

theorem Progress.grows (h : Progress s) (hg : Grows s s' seg) : Progress s' := by
  have hbelow : ∀ l ∈ FlatCode.targets microCode s.genOpcBuf, l < s'.nbGenLabels :=
    fun l hl => (h.below l hl).trans_le hg.nbLe
  refine ⟨hg.jmpOpt.trans h.jmpOpt, hg.buf ▸ h.resolved.append hg.resolved, ?_, fun hj => ?_⟩
  · intro l hl
    rw [hg.buf, FlatCode.targets_append, List.mem_append] at hl
    exact hl.elim (hbelow l) (hg.below l)
  · rw [hg.buf]
    rcases hg.ends hj with hold | ⟨a, o, rfl, ho⟩
    · exact (h.closed hold).append hg.nbLe hg.fresh
    · -- the new code ends by leaving the block, and nothing follows
      have hflow : o.stops = true ∧ o.target = none ∧ o.label = none := by
        cases o <;> first | exact ⟨rfl, rfl, rfl⟩ | cases ho
      refine ⟨s.genOpcBuf ++ a, o, [], s'.nbGenLabels, by simp, le_rfl, hflow.1, hflow.2.1,
        hflow.2.2, fun l hl => ?_, fun l hl => absurd hl List.not_mem_nil⟩
      rw [FlatCode.targets_append, List.mem_append] at hl
      refine hl.elim (hbelow l) fun hl => hg.below l ?_
      rw [FlatCode.targets_append]
      exact List.mem_append_left _ hl

/-- The code so far of the block at `start`. -/
structure Drafted (start : Addr32) (s : DisasContext) : Prop extends Progress s where
  tb : s.tb.pc = start
  chain : s.genOpcBuf.IsChain Follows
  noGoto : ∀ n, MicroOp.gotoTb n ∉ s.genOpcBuf
  head : ∀ o ∈ s.genOpcBuf.head?, o ≠ .exitTb ∧ ∀ pc, o = .insnStart pc → pc = start
  others : ∀ pc ∈ (s.genOpcBuf.filterMap MicroOp.start).tail, pc < kernelBase

theorem Emits.start_eq (he : Emits s s' seg) :
    s'.genOpcBuf.filterMap MicroOp.start = s.genOpcBuf.filterMap MicroOp.start := by
  rw [he.buf, List.filterMap_append, he.clean.start_eq_nil, List.append_nil]

theorem Drafted.emits {start : Addr32} (h : Drafted start s) (he : Emits s s' seg) :
    Drafted start s' := by
  refine ⟨h.toProgress.grows he.toGrows, he.tb ▸ h.tb, ?_, fun n hn => ?_, fun o ho => ?_,
    he.start_eq ▸ h.others⟩
  · rw [he.buf]
    refine List.isChain_append.mpr ⟨h.chain, he.clean.chain, fun o _ o' ho' => ?_⟩
    rcases he.clean.inner o' (List.mem_of_mem_head? ho') with hs | rfl
    · exact follows_of_simple hs
    · exact absurd rfl (he.clean.head _ ho')
  · rw [he.buf, List.mem_append] at hn
    exact hn.elim (h.noGoto n) (he.clean.gotoTb_notMem n)
  · rw [he.buf] at ho
    cases hbuf : s.genOpcBuf with
    | nil =>
        rw [hbuf] at ho
        refine ⟨he.clean.head o ho, fun pc hpc => ?_⟩
        subst hpc
        rcases he.clean.inner _ (List.mem_of_mem_head? ho) with hs | hs
        · cases hs
        · cases hs
    | cons x l =>
        rw [hbuf] at ho
        exact h.head o (hbuf ▸ ho)

/-- The code of at least one instruction. -/
structure Coded (start : Addr32) (s : DisasContext) : Prop extends Drafted start s where
  first : (s.genOpcBuf.filterMap MicroOp.start).head? = some start

/-- What stands before the code of the instruction at `pc`: nothing, or the code of other
instructions, or a debug exception. -/
structure Ready (start pc : Addr32) (s : DisasContext) : Prop extends Drafted start s where
  first : (s.genOpcBuf.filterMap MicroOp.start).head?.getD pc = start
  second : s.genOpcBuf.filterMap MicroOp.start ≠ [] → pc < kernelBase
  last : kernelBase ≤ pc → ∀ o ∈ s.genOpcBuf.getLast?, o.leaves = true

theorem Coded.emits {start : Addr32} (h : Coded start s) (he : Emits s s' seg) :
    Coded start s' :=
  ⟨h.toDrafted.emits he, he.start_eq ▸ h.first⟩

section InsnStart

variable {start pc : Addr32}

theorem starts_insnStart (s : DisasContext) (pc : Addr32) :
    (s.emit [.insnStart pc]).genOpcBuf.filterMap MicroOp.start =
      s.genOpcBuf.filterMap MicroOp.start ++ [pc] := by
  rw [emit, List.filterMap_append]
  rfl

theorem Ready.insnStart_head (h : Ready start pc s) :
    ∀ o ∈ (s.emit [.insnStart pc]).genOpcBuf.head?,
      o ≠ .exitTb ∧ ∀ q, o = .insnStart q → q = start := by
  intro o ho
  by_cases hnil : s.genOpcBuf = []
  · have hfirst := h.first
    rw [hnil] at hfirst
    obtain rfl : MicroOp.insnStart pc = o := by simpa [emit, hnil] using ho
    exact ⟨by simp, fun q hq => (MicroOp.insnStart.inj hq) ▸ hfirst⟩
  · rw [emit, List.head?_append_of_ne_nil _ hnil] at ho
    exact h.head o ho

theorem Ready.insnStart_others (h : Ready start pc s) :
    ∀ q ∈ ((s.emit [.insnStart pc]).genOpcBuf.filterMap MicroOp.start).tail,
      q < kernelBase := by
  intro q hq
  rw [starts_insnStart] at hq
  by_cases hnil : s.genOpcBuf.filterMap MicroOp.start = []
  · rw [hnil] at hq
    exact absurd hq List.not_mem_nil
  · rw [List.tail_append_of_ne_nil hnil, List.mem_append, List.mem_singleton] at hq
    rcases hq with hq | rfl
    · exact h.others q hq
    · exact h.second hnil

theorem Ready.insnStart_first (h : Ready start pc s) :
    ((s.emit [.insnStart pc]).genOpcBuf.filterMap MicroOp.start).head? = some start := by
  have hfirst := h.first
  rw [starts_insnStart]
  cases hl : s.genOpcBuf.filterMap MicroOp.start with
  | nil =>
      rw [hl] at hfirst
      exact congrArg some hfirst
  | cons q l =>
      rw [hl] at hfirst
      exact congrArg some hfirst

/-- The code of the next instruction begins. -/
theorem Ready.insnStart (h : Ready start pc s) (p : Addr32) :
    Coded start { s.emit [.insnStart pc] with pc := p } := by
  have hg : Grows s { s.emit [.insnStart pc] with pc := p } [.insnStart pc] := by
    refine ⟨rfl, le_rfl, ?_, ?_, ?_, Or.inl, rfl, rfl⟩
    all_goals exact fun l hl => absurd hl List.not_mem_nil
  refine ⟨⟨h.toProgress.grows hg, h.tb, ?_, fun n hn => ?_, h.insnStart_head,
    h.insnStart_others⟩, h.insnStart_first⟩
  · refine List.isChain_append.mpr ⟨h.chain, List.isChain_singleton _, fun o ho o' ho' => ?_⟩
    obtain rfl : MicroOp.insnStart pc = o' := by simpa using ho'
    exact fun hk => h.last hk o ho
  · rcases List.mem_append.mp hn with hn | hn
    · exact h.noGoto n hn
    · exact absurd (List.mem_singleton.mp hn) (by simp)

end InsnStart

/-- An instruction is translated. -/
theorem Ready.disasInsn {start pc : Addr32} (h : Ready start pc s) (view : CodeView) :
    Coded start (s.disasInsn view pc) := by
  have hfold : ∀ (emits : List Emit) (s : DisasContext), Coded start s →
      Coded start (emits.foldl Emit.apply s) := by
    intro emits
    induction emits with
    | nil => exact fun s hs => hs
    | cons e emits ih =>
        intro s hs
        obtain ⟨seg, he⟩ := apply_emits hs.jmpOpt e
        exact ih _ (hs.emits he)
  exact hfold _ _ (h.insnStart _)

/-- A breakpoint puts a debug exception before the instruction. -/
theorem Ready.genDebug {start pc : Addr32} (h : Ready start pc s) (eip : Addr32) :
    Ready start pc (s.genDebug eip) := by
  have he : Emits s (s.genDebug eip) (s.ccOps ++ [.movlEipIm eip, .debug]) :=
    genLeave_emits s eip rfl rfl
  refine ⟨h.toDrafted.emits he, he.start_eq ▸ h.first, he.start_eq ▸ h.second,
    fun _ o ho => ?_⟩
  rw [he.buf] at ho
  obtain rfl : MicroOp.debug = o := by simpa using ho
  rfl

/-- The state of the loop before a round that begins at `pc`. -/
structure AtRound (start pc : Addr32) (s : DisasContext) : Prop where
  ready : Ready start pc s
  near : (pc - start).toNat < (targetPageSize - 32).toNat

theorem AtRound.translateInsn {start pc : Addr32} (h : AtRound start pc s)
    (view : CodeView) : Coded start (s.translateInsn view pc) := by
  rw [DisasContext.translateInsn]
  split_ifs
  · exact (h.ready.genDebug _).disasInsn view
  · exact h.ready.disasInsn view

/-- A round that does not end the block. -/
theorem AtRound.next {start pc : Addr32} (h : AtRound start pc s) (view : CodeView)
    (hnear : ¬ targetPageSize - 32 ≤ s.nextPc view pc - start)
    (hkernel : ¬ kernelBase ≤ s.nextPc view pc) :
    AtRound start (s.nextPc view pc) (s.translateInsn view pc) ∧
      (pc - start).toNat < (s.nextPc view pc - start).toNat := by
  have hcoded := h.translateInsn view
  have hfirst := hcoded.first
  refine ⟨⟨⟨hcoded.toDrafted, ?_, fun _ => UInt32.not_le.mp hkernel, fun hk =>
    absurd hk hkernel⟩, UInt32.lt_iff_toNat_lt.mp (UInt32.not_le.mp hnear)⟩, ?_⟩
  · rw [hfirst]
    rfl
  · -- the instruction has at least one byte and does not go round the address space
    rw [nextPc]
    have hpos := (view.decode (if pc ∈ view.breakpoints then
      s.genDebug (pc - s.tb.csBase) else s) pc).size_pos
    have hle := (view.decode (if pc ∈ view.breakpoints then
      s.genDebug (pc - s.tb.csBase) else s) pc).size_le
    generalize (view.decode (if pc ∈ view.breakpoints then
      s.genDebug (pc - s.tb.csBase) else s) pc).size = size at hpos hle ⊢
    have hlt : (pc - start).toNat < 4064 := h.near
    have hadd : pc + size - start = (pc - start) + size := by grind
    rw [hadd, UInt32.toNat_add, Nat.mod_eq_of_lt (by omega)]
    omega

theorem stop_coded {start : Addr32} (h : Coded start s) (eip : Addr32) :
    Coded start (s.genJmpIm eip).genEob := by
  refine h.emits (emits_straight_eob [.movlEipIm eip] s (List.append_assoc _ _ _)
    (fun o ho => ?_) rfl rfl rfl)
  rw [List.mem_singleton.mp ho]
  rfl

/-- **The loop ends the block** within the rounds it has left. -/
theorem AtRound.translateLoop {start pc : Addr32} {rounds : ℕ} (h : AtRound start pc s)
    (view : CodeView)
    (hr : (targetPageSize - 32).toNat ≤ (pc - start).toNat + rounds) :
    Coded start (translateLoop view rounds s pc).1 ∧
      (DisasContext.translateLoop view rounds s pc).1.isJmp = true := by
  induction rounds generalizing s pc with
  | zero => exact absurd h.near (not_lt.mpr hr)
  | succ rounds ih =>
      have hcoded := h.translateInsn view
      rw [DisasContext.translateLoop]
      split_ifs with hjmp hstep hnear hkernel
      · exact ⟨hcoded, hjmp⟩
      · exact ⟨stop_coded hcoded _, rfl⟩
      · exact ⟨stop_coded hcoded _, rfl⟩
      · exact ⟨stop_coded hcoded _, rfl⟩
      · rw [hcoded.tb, Bool.or_eq_true, decide_eq_true_eq, not_or] at hnear
        obtain ⟨hnext, hlt⟩ := h.next view hnear.2 hkernel
        exact ih hnext (by omega)

end DisasContext

/-- What holds of a translated block: operations follow each other as they may, no block
is jumped to, only the first instruction may lie in the kernel, and control never runs
past the end. -/
structure TranslationBlock.WellBuilt (tb : TranslationBlock) : Prop where
  chain : tb.ops.IsChain Follows
  noGoto : ∀ n, MicroOp.gotoTb n ∉ tb.ops
  head : ∀ o ∈ tb.ops.head?, o ≠ .exitTb ∧ ∀ pc, o = .insnStart pc → pc = tb.info.pc
  first : tb.insns.head? = some tb.info.pc
  others : ∀ pc ∈ tb.insns.tail, pc < kernelBase
  resolved : FlatCode.Resolved microCode tb.ops
  closed : ∃ n, FlatCode.Sealed microCode n tb.ops

/-- **Every block is well built.** -/
theorem genIntermediateCodeInternal_wellBuilt (view : CodeView) (tb : TbInfo) :
    (genIntermediateCodeInternal view tb).WellBuilt := by
  let s : DisasContext :=
    { tb := tb, pc := tb.pc, isJmp := false, tf := tb.tf
      singlestepEnabled := view.singlestepEnabled, jmpOpt := false, ccOp := ccOpDynamic
      nbGenLabels := 0, genOpcBuf := [] }
  have hs : DisasContext.AtRound tb.pc tb.pc s := by
    refine ⟨⟨⟨⟨rfl, ?_, ?_, fun hj => ?_⟩, rfl, List.IsChain.nil, ?_, ?_, ?_⟩, rfl, ?_, ?_⟩, ?_⟩
    · exact fun l hl => absurd hl List.not_mem_nil
    · exact fun l hl => absurd hl List.not_mem_nil
    · cases hj
    · exact fun n hn => absurd hn List.not_mem_nil
    · exact fun o ho => (by cases ho)
    · exact fun pc hpc => absurd hpc List.not_mem_nil
    · exact fun hne => absurd rfl hne
    · exact fun _ o ho => (by cases ho)
    · rw [UInt32.sub_self]
      decide
  obtain ⟨hcoded, hjmp⟩ := hs.translateLoop view (Nat.le_add_left _ _)
  exact ⟨hcoded.chain, hcoded.noGoto, hcoded.head, hcoded.first, hcoded.others,
    hcoded.resolved, _, hcoded.closed hjmp⟩

end MemCheck
