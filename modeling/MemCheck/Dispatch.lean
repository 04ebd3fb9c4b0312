import MemCheck.Activations
import MemCheck.Lib.Run
import MemCheck.Translate

/-!
# The Dispatch Loop

`cpu_exec` (`cpu-exec.c`) runs translated blocks. Each round of its loop services
interrupts, looks up or translates the block at the program counter, calls
`MemCheckLinuxKernelQEMU_DoAddress`, links the previous block to this one if `T0` says so,
and executes it. Exceptions leave the loop by `longjmp` from anywhere.

The emulator is modelled at the level of single micro-operations, with a trace of the
calls of `DoAddress` and of the instructions begun. What the plain micro-operations, the
devices and the code outside the loop do to the processor is an input of each step. With
flat code segments the address of a block is the instruction pointer.

That every kernel instruction is seen rests on how the translator lays out blocks
(`TranslationBlock.WellBuilt`): control reaches a kernel instruction only at the beginning
of its block, right after the call of `DoAddress`, and an exit only with `T0` cleared.

## Main results

* `Watched.step`: one step of the emulator;
* `no_kernel_instruction_escapes`: whole runs.
-/

namespace MemCheck

/-! ### The emulator -/

/-- What the loop reads of the processor: the state the interceptor is given, the register
`T0`, the flags a translation depends on, and the base of the code segment. -/
structure ExecCpu where
  env : CPUX86State
  t0 : Word32
  flags : UInt64
  csBase : Addr32

/-- What is observed: calls of `MemCheckLinuxKernelQEMU_DoAddress`, calls of `tb_add_jump`,
and instructions begun. -/
inductive ExecEvent where
  | doAddress (env : CPUX86State)
  | tbAddJump (address n : Word32)
  | exec (pc : Addr32)

/-- Where control is: outside the loop, at its beginning, at a micro-operation of a block,
or past the end of one. -/
inductive Place where
  | outside
  | dispatch
  | inBlock (tb : TranslationBlock) (i : ℕ)
  | lost

/-- The state of the emulator. `tbs` holds the blocks found through `tb_phys_hash`, and
`links` the direct jumps that have been patched. -/
structure Emulator where
  cpu : ExecCpu
  place : Place
  tbs : List TranslationBlock
  tbJmpCache : Word32 → Option TranslationBlock
  links : List ((Word32 × Word32) × TranslationBlock)
  kernel : Kernel
  kqemuEnabled : ℕ
  trace : List ExecEvent

/-- The emulator before its first block. -/
def Emulator.init (cpu : ExecCpu) (kernel : Kernel) (kqemuEnabled : ℕ) : Emulator :=
  ⟨cpu, .outside, [], fun _ => none, [], kernel, kqemuEnabled, []⟩

/-- `tb_jmp_cache_hash_func`. -/
def tbJmpCacheHashFunc (pc : Addr32) : Word32 :=
  let tmp := pc ^^^ (pc >>> 6)
  ((tmp >>> 6) &&& 0xfc0) ||| (tmp &&& 0x3f)

/-- What a lookup depends on besides the tables: which blocks lie on the physical pages
now mapped, whether the buffers are full, where a new block is stored, and the code. -/
structure Lookup where
  samePages : TranslationBlock → Bool
  allocFails : Bool
  address : Word32
  view : CodeView

/-- The block was translated for this address, segment base and set of flags. -/
def TranslationBlock.isFor (tb : TranslationBlock) (pc csBase : Addr32) (flags : UInt64) :
    Bool :=
  tb.info.pc = pc ∧ tb.info.csBase = csBase ∧ tb.info.flags = flags

namespace Emulator

/-- `tb_flush`. -/
def tbFlush (m : Emulator) : Emulator :=
  { m with tbs := [], tbJmpCache := fun _ => none, links := [] }

/-- `tb_find_slow`; a flush makes `tb_find_fast` clear `T0`. -/
def tbFindSlow (m : Emulator) (k : Lookup) (pc csBase : Addr32) (flags : UInt64) :
    TranslationBlock × Emulator :=
  match m.tbs.find? fun tb => tb.isFor pc csBase flags && k.samePages tb with
  | some tb =>
      (tb, { m with
        tbJmpCache := Function.update m.tbJmpCache (tbJmpCacheHashFunc pc) (some tb) })
  | none =>
      let m := if k.allocFails then { m.tbFlush with cpu := { m.cpu with t0 := 0 } } else m
      let tb := genIntermediateCodeInternal k.view ⟨pc, csBase, flags, 0, k.address⟩
      (tb, { m with
        tbs := tb :: m.tbs
        tbJmpCache := Function.update m.tbJmpCache (tbJmpCacheHashFunc pc) (some tb) })

/-- `tb_find_fast`. -/
def tbFindFast (m : Emulator) (k : Lookup) : TranslationBlock × Emulator :=
  let pc := m.cpu.csBase + m.cpu.env.eip
  match m.tbJmpCache (tbJmpCacheHashFunc pc) with
  | some tb =>
      if tb.isFor pc m.cpu.csBase m.cpu.flags then (tb, m)
      else m.tbFindSlow k pc m.cpu.csBase m.cpu.flags
  | none => m.tbFindSlow k pc m.cpu.csBase m.cpu.flags

/-- `MemCheckLinuxKernelQEMU_DoAddress(env)`. -/
def doAddress (B : ShadowMemory.Balancer) (m : Emulator) : Emulator :=
  { m with
    kernel := (m.kernel.doKernelAddress B machineQEMU m.cpu.env).kernel
    trace := m.trace ++ [.doAddress m.cpu.env] }

/-- A block that spans two pages: `tb->page_addr[1] != -1`. -/
def spansPages (tb : TranslationBlock) : Bool :=
  tb.info.pc &&& targetPageMask ≠ (tb.info.pc + tb.size - 1) &&& targetPageMask

/-- `tb_add_jump`, where the loop calls it. -/
def chain (m : Emulator) (tb : TranslationBlock) : Emulator :=
  if m.cpu.t0 ≠ 0 ∧ m.kqemuEnabled ≠ 2 ∧ spansPages tb = false then
    { m with
      links := m.links ++ [((m.cpu.t0 &&& ~~~ 3, m.cpu.t0 &&& 3), tb)]
      trace := m.trace ++ [.tbAddJump (m.cpu.t0 &&& ~~~ 3) (m.cpu.t0 &&& 3)] }
  else m

/-- Control goes on in a block. -/
def goOn (m : Emulator) (tb : TranslationBlock) (i : ℕ) : Emulator :=
  { m with place := .inBlock tb i }

/-- Execute the micro-operation at `i`. A plain one leaves the processor in the state
`cpu`, or raises an exception; `taken` decides conditional jumps; behind `exit_tb`,
`raises` stands for the switch to the accelerator. -/
def execOp (m : Emulator) (tb : TranslationBlock) (i : ℕ) (cpu : ExecCpu)
    (taken raises : Bool) : Emulator :=
  match tb.ops[i]? with
  | none => { m with place := .lost }
  | some op =>
      match op with
      | .insnStart pc => { m with trace := m.trace ++ [ExecEvent.exec pc] }.goOn tb (i + 1)
      | .plain _ =>
          if raises then { m with place := .outside }
          else { m with cpu := cpu }.goOn tb (i + 1)
      | .setCcOp _ => m.goOn tb (i + 1)
      | .resetInhibitIrq =>
          { m with cpu := { m.cpu with flags := m.cpu.flags &&& ~~~ 0x8 } }.goOn tb (i + 1)
      | .movlEipIm eip =>
          { m with cpu := { m.cpu with env := { m.cpu.env with eip := eip } } }.goOn tb (i + 1)
      | .movlT00 => { m with cpu := { m.cpu with t0 := 0 } }.goOn tb (i + 1)
      | .movlT0Im im => { m with cpu := { m.cpu with t0 := im } }.goOn tb (i + 1)
      | .jumpCond _ l =>
          m.goOn tb (if taken then FlatCode.position microCode tb.ops l else i + 1)
      | .jmpLabel l => m.goOn tb (FlatCode.position microCode tb.ops l)
      | .setLabel _ => m.goOn tb (i + 1)
      | .gotoTb n =>
          match m.links.lookup (tb.info.address, UInt32.ofNat n) with
          | some next => m.goOn next 0
          | none => m.goOn tb (i + 1)
      | .exitTb => { m with place := if raises then .outside else .dispatch }
      | .raiseException _ => { m with place := .outside }
      | .raiseInterrupt _ _ => { m with place := .outside }
      | .debug => { m with place := .outside }
      | .singleStep => { m with place := .outside }
      | .hlt => { m with place := .outside }

end Emulator

/-- What a round of the loop finds: an interrupt it services, with the processor state
afterwards, the flag `CPU_INTERRUPT_EXITTB`, a reason to leave the loop, and what the
lookup depends on. -/
structure Iteration where
  interrupt : Option ExecCpu
  exitTb : Bool
  leave : Bool
  lookup : Lookup

/-- The steps of the emulator. The loop is entered with a processor state that exceptions,
the accelerator or the caller have left; blocks may be invalidated at any time, and
self-modifying code may have a block of one instruction translated. -/
inductive EmulatorAct where
  | enter (cpu : ExecCpu)
  | iterate (it : Iteration)
  | op (cpu : ExecCpu) (taken raises : Bool)
  | invalidate (keep : TranslationBlock → Bool)
  | genSingleInsn (view : CodeView) (pc csBase : Addr32) (flags : UInt64) (address : Word32)

namespace Emulator

/-- A round up to the lookup. `do_interrupt` and its like are followed by
`BREAK_CHAIN`, which clears `T0`. -/
def serviced (m : Emulator) (it : Iteration) : Emulator :=
  let cpu := match it.interrupt with
    | some cpu => { cpu with t0 := 0 }
    | none => m.cpu
  { m with cpu := if it.exitTb then { cpu with t0 := 0 } else cpu }

/-- A round of the loop up to the first micro-operation of the block. -/
def iterate (B : ShadowMemory.Balancer) (m : Emulator) (it : Iteration) : Emulator :=
  if it.leave then { m with place := .outside }
  else
    let found := (m.serviced it).tbFindFast it.lookup
    ((found.2.doAddress B).chain found.1).goOn found.1 0

/-- One step. -/
def step (B : ShadowMemory.Balancer) (m : Emulator) : EmulatorAct → Emulator
  | .enter cpu => { m with cpu := { cpu with t0 := 0 }, place := .dispatch }
  | .iterate it => m.iterate B it
  | .op cpu taken raises =>
      match m.place with
      | .inBlock tb i => m.execOp tb i cpu taken raises
      | _ => m
  | .invalidate keep =>
      { m with
        tbs := m.tbs.filter keep
        tbJmpCache := fun h => (m.tbJmpCache h).filter keep }
  | .genSingleInsn view pc csBase flags address =>
      { m with
        tbs := genIntermediateCodeInternal view ⟨pc, csBase, flags, 8, address⟩ :: m.tbs }

/-- Steps are taken where they belong, and code segments stay flat. -/
def Allowed (m : Emulator) : EmulatorAct → Prop
  | .enter cpu => m.place = .outside ∧ cpu.csBase = 0
  | .iterate it => m.place = .dispatch ∧ ∀ cpu ∈ it.interrupt, cpu.csBase = 0
  | .op cpu _ _ => (∃ tb i, m.place = .inBlock tb i) ∧ cpu.csBase = 0
  | .invalidate _ => True
  | .genSingleInsn _ _ _ _ _ => True

end Emulator

/-! ### The invariant -/

/-- Every kernel instruction begun was announced by the call of `DoAddress` right before. -/
def Announced (trace : List ExecEvent) : Prop :=
  ∀ pre pc post, trace = pre ++ .exec pc :: post → kernelBase ≤ pc →
    ∃ pre' env, pre = pre' ++ [.doAddress env] ∧ env.eip = pc

/-- How control got to the micro-operation at `i`: from the dispatch loop, or from the
operation before, which cleared `T0` if it was to, or by a jump to a label. -/
inductive Came (trace : List ExecEvent) (t0 : Word32) (tb : TranslationBlock) : ℕ → Prop where
  | dispatched {pre : List ExecEvent} {env : CPUX86State} :
      trace = pre ++ [.doAddress env] → env.eip = tb.info.pc → Came trace t0 tb 0
  | passed {j : ℕ} {o : MicroOp} : tb.ops[j]? = some o → o.stops = false →
      (o = .movlT00 → t0 = 0) → Came trace t0 tb (j + 1)
  | jumped {i l : ℕ} : tb.ops[i]? = some (.setLabel l) → Came trace t0 tb i

/-- Control is at the micro-operation at `i` of a well-built block, which it does not run
past the end of. -/
structure Inside (trace : List ExecEvent) (t0 : Word32) (tb : TranslationBlock) (i : ℕ) :
    Prop where
  wellBuilt : tb.WellBuilt
  came : Came trace t0 tb i
  bound : ∃ a < tb.ops.length, i ≤ a ∧ ∀ i j, i ≤ a → FlatCode.Flow microCode tb.ops i j →
    j ≤ a

/-- All blocks are well built. -/
structure Tables (m : Emulator) : Prop where
  tbs : ∀ tb ∈ m.tbs, tb.WellBuilt
  cache : ∀ h, ∀ tb ∈ m.tbJmpCache h, tb.WellBuilt

/-- No block has been linked to another, and every kernel instruction was announced. -/
structure Safe (m : Emulator) : Prop extends Tables m where
  csBase : m.cpu.csBase = 0
  noJump : ∀ address n, .tbAddJump address n ∉ m.trace
  announced : Announced m.trace

/-- The loop begins with `T0` cleared, and blocks are executed as they are built. -/
structure Watched (m : Emulator) : Prop extends Safe m where
  cleared : m.place = .dispatch → m.cpu.t0 = 0
  inside : ∀ tb i, m.place = .inBlock tb i → Inside m.trace m.cpu.t0 tb i
  notLost : m.place ≠ .lost

/-! ### Inside a block -/

namespace Inside

variable {trace trace' : List ExecEvent} {t0 t0' : Word32} {tb : TranslationBlock} {i : ℕ}
  {o : MicroOp}

/-- At the beginning of a block, right after the call of `DoAddress`. -/
theorem ofDispatch (h : tb.WellBuilt) {pre : List ExecEvent} {env : CPUX86State}
    (heip : env.eip = tb.info.pc) : Inside (pre ++ [.doAddress env]) t0 tb 0 := by
  obtain ⟨n, hsealed⟩ := h.closed
  obtain ⟨a, ha, hflow⟩ := hsealed.exists_bound h.resolved
  exact ⟨h, .dispatched rfl heip, a, ha, Nat.zero_le a, hflow⟩

/-- Going on to the next operation. -/
theorem next (h : Inside trace t0 tb i) (hi : tb.ops[i]? = some o) (hstop : o.stops = false)
    (ht0 : o = .movlT00 → t0' = 0) : Inside trace' t0' tb (i + 1) := by
  obtain ⟨a, ha, hia, hflow⟩ := h.bound
  exact ⟨h.wellBuilt, .passed hi hstop ht0, a, ha, hflow i _ hia (.next hi hstop), hflow⟩

/-- Jumping to a label. -/
theorem jump (h : Inside trace t0 tb i) (hi : tb.ops[i]? = some o) {l : ℕ}
    (ht : o.target = some l) :
    Inside trace' t0' tb (FlatCode.position microCode tb.ops l) := by
  obtain ⟨a, ha, hia, hflow⟩ := h.bound
  have hl : l ∈ FlatCode.labels microCode tb.ops :=
    h.wellBuilt.resolved l (FlatCode.mem_targets.mpr ⟨o, List.mem_of_getElem? hi, ht⟩)
  obtain ⟨o', ho', hlabel⟩ := FlatCode.getElem?_position hl
  obtain ⟨k, rfl⟩ : ∃ k, o' = .setLabel k := by
    cases o' with
    | setLabel k => exact ⟨k, rfl⟩
    | _ => cases hlabel
  exact ⟨h.wellBuilt, .jumped ho', a, ha, hflow i _ hia (.jump hi ht), hflow⟩

/-- What stands before an operation that control has passed. -/
theorem follows {tb : TranslationBlock} (h : tb.WellBuilt) {j : ℕ} {o' : MicroOp}
    (hj : tb.ops[j]? = some o) (hi : tb.ops[j + 1]? = some o') : Follows o o' := by
  obtain ⟨hlt, rfl⟩ := List.getElem?_eq_some_iff.mp hi
  obtain ⟨hlt', rfl⟩ := List.getElem?_eq_some_iff.mp hj
  exact List.isChain_iff_getElem.mp h.chain j hlt

/-- An exit is reached with `T0` cleared. -/
theorem cleared (h : Inside trace t0 tb i) (hi : tb.ops[i]? = some .exitTb) : t0 = 0 := by
  cases h.came with
  | dispatched _ _ =>
      exact absurd rfl (h.wellBuilt.head _ (List.head?_eq_getElem? ▸ hi)).1
  | passed hj _ ht0 => exact ht0 (follows h.wellBuilt hj hi)
  | jumped hl => cases hl.symm.trans hi

/-- A kernel instruction is reached only from the dispatch loop. -/
theorem announced (h : Inside trace t0 tb i) {pc : Addr32}
    (hi : tb.ops[i]? = some (.insnStart pc)) (hk : kernelBase ≤ pc) :
    ∃ pre env, trace = pre ++ [.doAddress env] ∧ env.eip = pc := by
  cases h.came with
  | dispatched htrace heip =>
      have hpc := (h.wellBuilt.head _ (List.head?_eq_getElem? ▸ hi)).2 pc rfl
      exact ⟨_, _, htrace, heip.trans hpc.symm⟩
  | @passed j o hj hstop _ =>
      -- what stands before it never lets control go on
      have hleaves : o.leaves = true := follows h.wellBuilt hj hi hk
      cases o with
      | jmpLabel l => cases hleaves
      | _ => cases hleaves.symm.trans hstop
  | jumped hl => cases hl.symm.trans hi

end Inside

/-! ### The trace -/

namespace Announced

variable {trace : List ExecEvent}

/-- One more event, which is announced if it begins a kernel instruction. -/
theorem append (h : Announced trace) {e : ExecEvent}
    (he : ∀ pc, e = .exec pc → kernelBase ≤ pc →
      ∃ pre env, trace = pre ++ [.doAddress env] ∧ env.eip = pc) :
    Announced (trace ++ [e]) := by
  intro pre pc post heq hk
  rcases List.eq_nil_or_concat post with rfl | ⟨post', e', rfl⟩
  · -- the instruction is the new event
    obtain ⟨rfl, hlast⟩ := List.append_inj' heq rfl
    exact he pc (List.cons.inj hlast).1 hk
  · rw [List.concat_eq_append, ← List.cons_append, ← List.append_assoc] at heq
    exact h pre pc post' (List.append_inj' heq rfl).1 hk

theorem doAddress (h : Announced trace) (env : CPUX86State) :
    Announced (trace ++ [.doAddress env]) :=
  h.append fun _ he => by cases he

end Announced

/-! ### Looking up blocks -/

/-- What a lookup gives: a well-built block for the current address, and an unchanged
machine but for the tables and for `T0`, which it may clear. -/
structure Found (m : Emulator) (found : TranslationBlock × Emulator) : Prop where
  tables : Tables found.2
  wellBuilt : found.1.WellBuilt
  pc : found.1.info.pc = m.cpu.csBase + m.cpu.env.eip
  env : found.2.cpu.env = m.cpu.env
  csBase : found.2.cpu.csBase = m.cpu.csBase
  cleared : m.cpu.t0 = 0 → found.2.cpu.t0 = 0
  trace : found.2.trace = m.trace

theorem TranslationBlock.pc_of_isFor {tb : TranslationBlock} {pc csBase : Addr32}
    {flags : UInt64} (h : tb.isFor pc csBase flags = true) : tb.info.pc = pc := by
  have := of_decide_eq_true h
  exact this.1

namespace Tables

variable {m : Emulator}

/-- Entering a well-built block in the hash table of the loop. -/
theorem cache_update (h : Tables m) {tb : TranslationBlock} (htb : tb.WellBuilt)
    (pc : Word32) :
    ∀ a, ∀ tb' ∈ Function.update m.tbJmpCache pc (some tb) a, tb'.WellBuilt := by
  intro a tb' htb'
  by_cases ha : a = pc
  · subst ha
    rw [Function.update_self] at htb'
    obtain rfl := Option.some.inj htb'
    exact htb
  · rw [Function.update_of_ne ha] at htb'
    exact h.cache a tb' htb'

theorem tbFlush (m : Emulator) : Tables m.tbFlush :=
  ⟨fun _ h => absurd h List.not_mem_nil, fun _ _ h => by cases h⟩

/-- Entering a well-built block in both tables. -/
theorem add (h : Tables m) {tb : TranslationBlock} (htb : tb.WellBuilt) (pc : Word32) :
    Tables { m with
      tbs := tb :: m.tbs
      tbJmpCache := Function.update m.tbJmpCache pc (some tb) } := by
  refine ⟨fun tb' h' => ?_, h.cache_update htb pc⟩
  rcases List.mem_cons.mp h' with rfl | h'
  · exact htb
  · exact h.tbs tb' h'

theorem tbFindSlow (h : Tables m) (k : Lookup) :
    Found m (m.tbFindSlow k (m.cpu.csBase + m.cpu.env.eip) m.cpu.csBase m.cpu.flags) := by
  rw [Emulator.tbFindSlow]
  split
  · rename_i tb hfind
    have htb := h.tbs tb (List.mem_of_find?_eq_some hfind)
    have hp := List.find?_some hfind
    have hfor := (Bool.and_eq_true_iff.mp hp).1
    exact ⟨⟨h.tbs, h.cache_update htb _⟩, htb, tb.pc_of_isFor hfor, rfl, rfl, id, rfl⟩
  · have htb := genIntermediateCodeInternal_wellBuilt k.view
      ⟨m.cpu.csBase + m.cpu.env.eip, m.cpu.csBase, m.cpu.flags, 0, k.address⟩
    cases k.allocFails with
    | false => exact ⟨h.add htb _, htb, rfl, rfl, rfl, id, rfl⟩
    | true =>
        have hflush : Tables { m.tbFlush with cpu := { m.cpu with t0 := 0 } } :=
          ⟨(tbFlush m).tbs, (tbFlush m).cache⟩
        exact ⟨hflush.add htb _, htb, rfl, rfl, rfl, fun _ => rfl, rfl⟩

theorem tbFindFast (h : Tables m) (k : Lookup) : Found m (m.tbFindFast k) := by
  rw [Emulator.tbFindFast]
  cases hcache : m.tbJmpCache (tbJmpCacheHashFunc (m.cpu.csBase + m.cpu.env.eip)) with
  | none => exact h.tbFindSlow k
  | some tb =>
      dsimp only
      split_ifs with hfor
      · exact ⟨h, h.cache _ tb hcache, tb.pc_of_isFor hfor, rfl, rfl, id, rfl⟩
      · exact h.tbFindSlow k

end Tables

/-! ### Steps of the emulator -/

theorem Emulator.serviced_t0 (m : Emulator) (it : Iteration) (ht0 : m.cpu.t0 = 0) :
    (m.serviced it).cpu.t0 = 0 := by
  rw [Emulator.serviced]
  cases it.interrupt with
  | none => cases it.exitTb with
    | false => exact ht0
    | true => rfl
  | some cpu => cases it.exitTb <;> rfl

/-- No block is linked to another while `T0` is cleared. -/
theorem Emulator.chain_of_t0 {m : Emulator} (tb : TranslationBlock) (ht0 : m.cpu.t0 = 0) :
    m.chain tb = m :=
  if_neg fun hc => hc.1 ht0

namespace Safe

variable {m : Emulator} {tb : TranslationBlock} {i : ℕ}

/-- Where control is does not matter. -/
theorem moveTo (h : Safe m) (place : Place) : Safe { m with place := place } :=
  ⟨⟨h.tbs, h.cache⟩, h.csBase, h.noJump, h.announced⟩

theorem goOn (h : Safe m) (hin : Inside m.trace m.cpu.t0 tb i) : Watched (m.goOn tb i) := by
  refine ⟨h.moveTo _, nofun, ?_, nofun⟩
  rintro _ _ ⟨⟩
  exact hin

theorem outside (h : Safe m) : Watched { m with place := .outside } :=
  ⟨h.moveTo _, nofun, nofun, nofun⟩

theorem dispatch (h : Safe m) (ht0 : m.cpu.t0 = 0) : Watched { m with place := .dispatch } :=
  ⟨h.moveTo _, fun _ => ht0, nofun, nofun⟩

/-- Any change of the processor that leaves the code segment flat. -/
theorem setCpu (h : Safe m) {cpu : ExecCpu} (hcs : cpu.csBase = 0) :
    Safe { m with cpu := cpu } :=
  ⟨⟨h.tbs, h.cache⟩, hcs, h.noJump, h.announced⟩

/-- One more event. -/
theorem record (h : Safe m) {e : ExecEvent} (hjump : ∀ address n, e ≠ .tbAddJump address n)
    (he : Announced (m.trace ++ [e])) : Safe { m with trace := m.trace ++ [e] } := by
  refine ⟨⟨h.tbs, h.cache⟩, h.csBase, fun address n hmem => ?_, he⟩
  rcases List.mem_append.mp hmem with hmem | hmem
  · exact h.noJump address n hmem
  · exact hjump address n (List.mem_singleton.mp hmem).symm

/-- Servicing an interrupt. -/
theorem serviced (h : Safe m) {it : Iteration} (hint : ∀ cpu ∈ it.interrupt, cpu.csBase = 0) :
    Safe (m.serviced it) := by
  refine h.setCpu ?_
  cases hit : it.interrupt with
  | none => split_ifs <;> exact h.csBase
  | some cpu => split_ifs <;> exact hint cpu hit

/-- `DoAddress` is called with the processor as it stands. -/
theorem doAddress (B : ShadowMemory.Balancer) (h : Safe m) : Safe (m.doAddress B) := by
  have := h.record (e := .doAddress m.cpu.env) nofun (h.announced.doAddress _)
  exact ⟨⟨this.tbs, this.cache⟩, this.csBase, this.noJump, this.announced⟩

/-- A round calls `DoAddress` and links nothing, since `T0` is cleared. -/
theorem iterate (B : ShadowMemory.Balancer) (h : Safe m) {it : Iteration}
    (ht0 : m.cpu.t0 = 0) (hint : ∀ cpu ∈ it.interrupt, cpu.csBase = 0) :
    Watched (m.iterate B it) := by
  rw [Emulator.iterate]
  split_ifs with hleave
  · exact h.outside
  · have hserviced := h.serviced hint
    have hfound := hserviced.tbFindFast it.lookup
    dsimp only
    generalize (m.serviced it).tbFindFast it.lookup = found at hfound ⊢
    have hsafe : Safe found.2 :=
      ⟨hfound.tables, hfound.csBase.trans hserviced.csBase,
        hfound.trace ▸ hserviced.noJump, hfound.trace ▸ hserviced.announced⟩
    have heip : found.2.cpu.env.eip = found.1.info.pc := by
      rw [hfound.pc, hserviced.csBase, hfound.env, UInt32.zero_add]
    have hchain : (found.2.doAddress B).chain found.1 = found.2.doAddress B :=
      Emulator.chain_of_t0 _ (hfound.cleared (m.serviced_t0 it ht0))
    rw [hchain]
    exact (hsafe.doAddress B).goOn (.ofDispatch hfound.wellBuilt heip)

/-- A block is executed as it is built: it never runs past its end, is left with `T0`
cleared, and begins no kernel instruction but its first. -/
theorem execOp (h : Safe m) (hin : Inside m.trace m.cpu.t0 tb i) {cpu : ExecCpu}
    (hcpu : cpu.csBase = 0) (taken raises : Bool) :
    Watched (m.execOp tb i cpu taken raises) := by
  rw [Emulator.execOp]
  cases hop : tb.ops[i]? with
  | none =>
      obtain ⟨a, ha, hia, -⟩ := hin.bound
      exact absurd (List.getElem?_eq_none_iff.mp hop) (by omega)
  | some op =>
      cases op with
      | insnStart pc =>
          have hann : Announced (m.trace ++ [.exec pc]) := by
            refine h.announced.append fun pc' he hk => ?_
            cases he
            exact hin.announced hop hk
          have hsafe := h.record (e := .exec pc) nofun hann
          exact hsafe.goOn (hin.next hop rfl nofun)
      | plain k =>
          dsimp only
          split_ifs with hraises
          · exact h.outside
          · exact (h.setCpu hcpu).goOn (hin.next hop rfl nofun)
      | setCcOp k => exact h.goOn (hin.next hop rfl nofun)
      | resetInhibitIrq => exact (h.setCpu (by exact h.csBase)).goOn (hin.next hop rfl nofun)
      | movlEipIm eip => exact (h.setCpu (by exact h.csBase)).goOn (hin.next hop rfl nofun)
      | movlT00 => exact (h.setCpu (by exact h.csBase)).goOn (hin.next hop rfl fun _ => rfl)
      | movlT0Im im => exact (h.setCpu (by exact h.csBase)).goOn (hin.next hop rfl nofun)
      | jumpCond c l =>
          dsimp only
          split_ifs with htaken
          · exact h.goOn (hin.jump hop rfl)
          · exact h.goOn (hin.next hop rfl nofun)
      | jmpLabel l => exact h.goOn (hin.jump hop rfl)
      | setLabel l => exact h.goOn (hin.next hop rfl nofun)
      | gotoTb n => exact absurd (List.mem_of_getElem? hop) (hin.wellBuilt.noGoto n)
      | exitTb =>
          dsimp only
          split_ifs with hraises
          · exact h.outside
          · exact h.dispatch (hin.cleared hop)
      | _ => exact h.outside

end Safe

/-- **One step of the emulator.** -/
theorem Watched.step (B : ShadowMemory.Balancer) {m : Emulator} (h : Watched m)
    {a : EmulatorAct} (ha : m.Allowed a) : Watched (m.step B a) := by
  cases a with
  | enter cpu =>
      have hcpu : ({ cpu with t0 := 0 } : ExecCpu).csBase = 0 := ha.2
      exact (h.toSafe.setCpu hcpu).dispatch rfl
  | iterate it => exact h.toSafe.iterate B (h.cleared ha.1) ha.2
  | op cpu taken raises =>
      obtain ⟨⟨tb, i, hplace⟩, hcpu⟩ := ha
      rw [Emulator.step, hplace]
      exact h.toSafe.execOp (h.inside tb i hplace) hcpu taken raises
  | invalidate keep =>
      refine ⟨⟨⟨fun tb htb => ?_, fun k tb htb => ?_⟩, h.csBase, h.noJump, h.announced⟩,
        h.cleared, h.inside, h.notLost⟩
      · exact h.tbs tb (List.mem_of_mem_filter htb)
      · exact h.cache k tb (Option.filter_eq_some_iff.mp htb).1
  | genSingleInsn view pc csBase flags address =>
      refine ⟨⟨⟨fun tb htb => ?_, h.cache⟩, h.csBase, h.noJump, h.announced⟩,
        h.cleared, h.inside, h.notLost⟩
      rcases List.mem_cons.mp htb with rfl | htb
      · exact genIntermediateCodeInternal_wellBuilt view _
      · exact h.tbs tb htb

theorem Watched.init {cpu : ExecCpu} (hcpu : cpu.csBase = 0) (kernel : Kernel)
    (kqemuEnabled : ℕ) : Watched (Emulator.init cpu kernel kqemuEnabled) := by
  refine ⟨⟨⟨nofun, nofun⟩, hcpu, nofun, fun pre pc post heq _ => ?_⟩, nofun, nofun, nofun⟩
  simp [Emulator.init] at heq

/-- An instruction in the kernel is the first one of its block. -/
theorem TranslationBlock.WellBuilt.first_of_kernel {tb : TranslationBlock} (h : tb.WellBuilt)
    {i : ℕ} {pc : Addr32} (hi : tb.insns[i]? = some pc) (hk : kernelBase ≤ pc) : i = 0 := by
  cases i with
  | zero => rfl
  | succ i =>
      rw [← List.getElem?_tail] at hi
      exact absurd hk (UInt32.not_le.mpr (h.others pc (List.mem_of_getElem? hi)))

/-- **No kernel instruction escapes the interceptor.** Whatever the guest's code is and does,
with flat code segments: an instruction in the kernel is the first one of its block; no
block holds a direct jump to another one, the loop begins each round with `T0` cleared and
never links blocks; and right before an instruction in the kernel is executed, `DoAddress`
is called with `eip` at its address, and the call passes the filter. -/
theorem no_kernel_instruction_escapes (B : ShadowMemory.Balancer) {cpu : ExecCpu}
    (hcpu : cpu.csBase = 0) (kernel : Kernel) (kqemuEnabled : ℕ) {acts : List EmulatorAct}
    {m : Emulator}
    (hrun : Run.Along (Emulator.step B) Emulator.Allowed
      (Emulator.init cpu kernel kqemuEnabled) acts)
    (hm : m = Run.final (Emulator.step B) (Emulator.init cpu kernel kqemuEnabled) acts) :
    (∀ view info i pc, (genIntermediateCodeInternal view info).insns[i]? = some pc →
      kernelBase ≤ pc → i = 0) ∧
    (∀ view info n, .gotoTb n ∉ (genIntermediateCodeInternal view info).ops) ∧
    (m.place = .dispatch → m.cpu.t0 = 0) ∧
    (∀ address n, .tbAddJump address n ∉ m.trace) ∧
    m.place ≠ .lost ∧
    ∀ pre pc post, m.trace = pre ++ .exec pc :: post → kernelBase ≤ pc →
      ∃ pre' env, pre = pre' ++ [.doAddress env] ∧ env.eip = pc ∧
        ∀ k : Kernel, k.doKernelAddress B machineQEMU env = k.doAddress B machineQEMU pc env := by
  have hw : Watched m := by
    rw [hm]
    exact hrun.final (fun _ _ h ha => h.step B ha) (Watched.init hcpu kernel kqemuEnabled)
  refine ⟨fun view info i pc => ?_, fun view info => ?_, hw.cleared, hw.noJump, hw.notLost,
    fun pre pc post heq hk => ?_⟩
  · exact (genIntermediateCodeInternal_wellBuilt view info).first_of_kernel
  · exact (genIntermediateCodeInternal_wellBuilt view info).noGoto
  · obtain ⟨pre', env, hpre, heip⟩ := hw.announced pre pc post heq hk
    refine ⟨pre', env, hpre, heip, fun k => ?_⟩
    subst heip
    exact if_pos hk

/-- A processor about to execute the last instruction below the kernel. -/
def belowKernel : ExecCpu := ⟨⟨0xbfffffff, 0, 0, 0, 0, fun _ => 0⟩, 0, 0, 0⟩

/-- Two rounds across the boundary, through instructions of one byte: the first block is
executed to its end, the second one up to its first instruction. -/
def boundaryRun : List EmulatorAct :=
  let view : CodeView := ⟨[], false, fun _ _ => ⟨[.op 0], 1, by decide, by decide⟩⟩
  let round := .iterate ⟨none, false, false, ⟨fun _ => true, false, 0, view⟩⟩
  let op := .op belowKernel false false
  [.enter belowKernel, round, op, op, op, op, op, round, op]

/-- The emulator after these rounds. -/
def acrossBoundary : Emulator :=
  Run.final (Emulator.step SearchTree.Balancer.id)
    (.init belowKernel ⟨.register sampleFunctions [0, 1], Checker.init 0xc0400000⟩ 0) boundaryRun

/-- The first block ends at the boundary, so that the second instruction is announced. -/
theorem no_kernel_instruction_escapes_boundary :
    ∃ pre env, acrossBoundary.trace = pre ++ [.doAddress env, .exec 0xc0000000] ∧
      env.eip = 0xc0000000 := by
  have hrun : Run.Along (Emulator.step SearchTree.Balancer.id) Emulator.Allowed
      (.init belowKernel ⟨.register sampleFunctions [0, 1], Checker.init 0xc0400000⟩ 0)
      boundaryRun := by
    refine ⟨⟨rfl, rfl⟩, ⟨rfl, nofun⟩, ⟨⟨_, _, rfl⟩, rfl⟩, ⟨⟨_, _, rfl⟩, rfl⟩,
      ⟨⟨_, _, rfl⟩, rfl⟩, ⟨⟨_, _, rfl⟩, rfl⟩, ⟨⟨_, _, rfl⟩, rfl⟩, ⟨rfl, nofun⟩,
      ⟨⟨_, _, rfl⟩, rfl⟩, trivial⟩
  have htrace : acrossBoundary.trace =
      acrossBoundary.trace.dropLast ++ .exec 0xc0000000 :: [] := rfl
  obtain ⟨pre, env, hpre, heip, -⟩ :=
    (no_kernel_instruction_escapes SearchTree.Balancer.id rfl _ 0 hrun rfl).2.2.2.2.2
      _ 0xc0000000 [] htrace (by decide)
  refine ⟨pre, env, ?_, heip⟩
  rw [htrace, hpre, List.append_assoc]
  rfl

end MemCheck
