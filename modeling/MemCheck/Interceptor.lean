import Mathlib.Logic.Function.Basic
import MemCheck.MemoryAccess

/-!
# The Function Interceptor

`FunctionInterceptor` (`FunctionInterceptor.h`, `FunctionInterceptor.cpp`) watches the
program counter of the guest. Its table maps an address to an *address of interest*: the
entry of a hooked function, or the return address of a pending call of one. `DoAddress` is
called with every program counter the emulator dispatches. At an entry it runs the
function's `Enter` and hooks the return address, at a hooked return address it runs
`Leave` and drops one reference of the hook.

This module translates the interceptor, the hooked functions of `MemCheckLinuxKernel`, and
the part of the `Machine` interface they use. Function objects live in a store and are
referred to by a `FunctionRef`, as the source refers to them by pointer.
-/

namespace MemCheck

/-! ### The machine -/

/-- The interface `Machine`, for a processor state `σ`: what the interceptor and the hooked
functions read. -/
structure Machine (σ : Type) where
  getReturnValue : σ → Word32
  getReturnAddress : σ → Addr32
  getArgumentN : σ → Word32 → Word32
  getArgument1 : σ → Word32
  getArgument2 : σ → Word32
  getPC : σ → Addr32

/-- The fields of `CPUX86State` that `MachineQEMU` reads. `read` is the word
`cpu_memory_rw_debug` delivers at an address. -/
structure CPUX86State where
  eip : Addr32
  eax : Word32
  ecx : Word32
  edx : Word32
  esp : Word32
  read : Addr32 → Word32

/-- `MachineQEMU` for the i386. -/
def machineQEMU : Machine CPUX86State where
  getReturnValue cpuState := cpuState.eax
  getReturnAddress cpuState := cpuState.read cpuState.esp
  getArgumentN cpuState argN :=
    if argN = 1 then cpuState.eax
    else if argN = 2 then cpuState.edx
    else if argN = 3 then cpuState.ecx
    else cpuState.read (cpuState.esp + 4 + 4 * (argN - 3 - 1))
  getArgument1 cpuState := cpuState.eax
  getArgument2 cpuState := cpuState.edx
  getPC cpuState := cpuState.eip

/-! ### Function objects and the table -/

/-- The classes derived from `Function`. -/
inductive FunctionClass where
  | linuxKernelHeapFunction
  | linuxKernelEnableMemoryAccess
  | memCheckAlloc
  | memCheckFree
  | memCheckFreeSize
  | memCheckFreeAnySize
  deriving DecidableEq, Repr

/-- An object of a class derived from `Function`. -/
structure FunctionObject where
  kind : FunctionClass
  address : Addr32
  symbolName : String
  active : Bool
  numberOfArguments : Word32
  debug : Bool
  deriving DecidableEq, Repr

/-- A pointer to a function object. -/
abbrev FunctionRef := ℕ

/-- The two kinds of addresses of interest. -/
inductive AddressType where
  | returnAddress
  | function
  deriving DecidableEq, Repr

/-- The class `AddressOfInterest`. -/
structure AddressOfInterest where
  type : AddressType
  address : Addr32
  refCnt : Word32
  function : FunctionRef
  deriving DecidableEq, Repr

/-- `AddressOfInterest::NewReturnAddress`. -/
def AddressOfInterest.newReturnAddress (returnAddress : Addr32) (f : FunctionRef) :
    AddressOfInterest :=
  ⟨.returnAddress, returnAddress, 1, f⟩

/-- The class `FunctionInterceptor`, with the store its function pointers point into. -/
structure FunctionInterceptor where
  addressOfInterestMap : Addr32 → Option AddressOfInterest
  functionList : List FunctionRef
  functions : FunctionRef → FunctionObject

/-- `AddressOfInterest::NewFunction`. -/
def FunctionInterceptor.newFunctionAddress (i : FunctionInterceptor) (f : FunctionRef) :
    AddressOfInterest :=
  ⟨.function, (i.functions f).address, 1, f⟩

/-- `FunctionInterceptor::NewFunction`. -/
def FunctionInterceptor.newFunction (i : FunctionInterceptor) (f : FunctionRef) :
    FunctionInterceptor :=
  { i with
    functionList := i.functionList ++ [f]
    addressOfInterestMap :=
      Function.update i.addressOfInterestMap (i.functions f).address
        (some (i.newFunctionAddress f)) }

/-- The interceptor as constructed, over a store of function objects, after `NewFunction`
of each of `fs`. -/
def FunctionInterceptor.register (functions : FunctionRef → FunctionObject)
    (fs : List FunctionRef) : FunctionInterceptor :=
  fs.foldl newFunction ⟨fun _ => none, [], functions⟩

/-- The hooked functions: those whose entry is in the table. Of several functions at one
address the last one registered is hooked. -/
def FunctionInterceptor.hooked (i : FunctionInterceptor) : List FunctionRef :=
  i.functionList.filter fun f =>
    i.addressOfInterestMap (i.functions f).address = some (i.newFunctionAddress f)

/-- Set `m_Active` of a function object. -/
def FunctionInterceptor.setActive (i : FunctionInterceptor) (f : FunctionRef)
    (active : Bool) : FunctionInterceptor :=
  { i with functions := Function.update i.functions f { i.functions f with active := active } }

/-- Set or remove the entry at an address. -/
def FunctionInterceptor.setEntry (i : FunctionInterceptor) (address : Addr32)
    (aoi : Option AddressOfInterest) : FunctionInterceptor :=
  { i with addressOfInterestMap := Function.update i.addressOfInterestMap address aoi }

namespace FunctionInterceptor

variable (i : FunctionInterceptor) (f f' : FunctionRef) (active : Bool) (address : Addr32)
  (aoi : Option AddressOfInterest)

@[simp] theorem setActive_addressOfInterestMap :
    (i.setActive f active).addressOfInterestMap = i.addressOfInterestMap := rfl

@[simp] theorem setActive_kind :
    ((i.setActive f active).functions f').kind = (i.functions f').kind := by
  by_cases h : f' = f
  · subst h
    simp [setActive]
  · simp [setActive, h]

@[simp] theorem setActive_address :
    ((i.setActive f active).functions f').address = (i.functions f').address := by
  by_cases h : f' = f
  · subst h
    simp [setActive]
  · simp [setActive, h]

@[simp] theorem setEntry_addressOfInterestMap :
    (i.setEntry address aoi).addressOfInterestMap =
      Function.update i.addressOfInterestMap address aoi := rfl

@[simp] theorem setEntry_functions : (i.setEntry address aoi).functions = i.functions := rfl

end FunctionInterceptor

/-! ### Hooked functions -/

/-- What the interceptor and the hooked functions print. -/
inductive Event where
  | leave (symbolName : String) (pc retval : Word32)
  | enter (symbolName : String) (pc retaddr : Word32) (arguments : List Word32)
  | message (m : Message)
  | dumpTraceAtFunction
  deriving DecidableEq, Repr

/-- A shadow call made by a hooked function: a stack trace follows if it failed. -/
def Checker.shadowCall (c : Checker) (call : Call) : Checker × List Event :=
  ({ c with shadowMemory := call.shadow },
    call.output.map .message ++ if call.ret ≠ 0 then [.dumpTraceAtFunction] else [])

/-- The virtual method `Enter`. -/
def FunctionClass.enter {σ : Type} (B : ShadowMemory.Balancer) (M : Machine σ)
    (kind : FunctionClass) (c : Checker) (cpuState : σ) : Checker × List Event :=
  match kind with
  | linuxKernelHeapFunction => (memoryAccessDisable c, [])
  | linuxKernelEnableMemoryAccess => (c, [])
  | memCheckAlloc =>
      c.shadowCall (c.shadowMemory.newMemoryAlloc B 0 (M.getArgument1 cpuState)
        (M.getArgument2 cpuState))
  | memCheckFree =>
      c.shadowCall (c.shadowMemory.freeMemory B 0 (M.getArgument1 cpuState))
  | memCheckFreeSize =>
      c.shadowCall (c.shadowMemory.freeSizeMemory B 0 (M.getArgument1 cpuState)
        (M.getArgument2 cpuState))
  | memCheckFreeAnySize =>
      c.shadowCall (c.shadowMemory.freeAnySizeMemory B 0 (M.getArgument1 cpuState)
        (M.getArgument2 cpuState))

/-- The virtual method `Leave`. -/
def FunctionClass.leave (kind : FunctionClass) (c : Checker) : Checker :=
  match kind with
  | linuxKernelHeapFunction => memoryAccessEnable c
  | linuxKernelEnableMemoryAccess => memoryAccessEnable c
  | _ => c

/-! ### DoAddress -/

/-- The checker and its interceptor. -/
structure Kernel where
  interceptor : FunctionInterceptor
  memCheck : Checker

/-- The function object at a pointer. -/
def Kernel.object (k : Kernel) (f : FunctionRef) : FunctionObject := k.interceptor.functions f

/-- What one call of `DoAddress` leaves behind. -/
structure Dispatch where
  ret : ℤ
  kernel : Kernel
  output : List Event

section DoAddress

variable {σ : Type} (B : ShadowMemory.Balancer) (M : Machine σ)

/-- The `RETURNADDRESS` branch of `FunctionInterceptor::DoAddress`. -/
def Kernel.leaveFunction (k : Kernel) (pc : Addr32) (aoi : AddressOfInterest)
    (cpuState : σ) : Dispatch :=
  let f := k.object aoi.function
  let printed :=
    if f.debug then
      [Event.leave f.symbolName (M.getPC cpuState) (M.getReturnValue cpuState)]
    else []
  let refCnt := aoi.refCnt - 1
  let entry := if refCnt = 0 then none else some { aoi with refCnt := refCnt }
  ⟨0, ⟨(k.interceptor.setActive aoi.function false).setEntry pc entry,
    f.kind.leave k.memCheck⟩, printed⟩

/-- The `FUNCTION` branch of `FunctionInterceptor::DoAddress`. -/
def Kernel.enterFunction (k : Kernel) (aoi : AddressOfInterest) (cpuState : σ) : Dispatch :=
  let f := k.object aoi.function
  let returnAddress := M.getReturnAddress cpuState
  let printed :=
    if f.debug then
      [Event.enter f.symbolName (M.getPC cpuState) returnAddress
        ((List.range f.numberOfArguments.toNat).map fun i =>
          M.getArgumentN cpuState (UInt32.ofNat (i + 1)))]
    else []
  let entered := f.kind.enter B M k.memCheck cpuState
  let ret := if f.active then 1 else 0
  let entry :=
    match k.interceptor.addressOfInterestMap returnAddress with
    | some hook => { hook with refCnt := hook.refCnt + 1 }
    | none => AddressOfInterest.newReturnAddress returnAddress aoi.function
  ⟨ret, ⟨(k.interceptor.setActive aoi.function true).setEntry returnAddress (some entry),
    entered.1⟩, printed ++ entered.2⟩

/-- `FunctionInterceptor::DoAddress`. -/
def Kernel.doAddress (k : Kernel) (pc : Addr32) (cpuState : σ) : Dispatch :=
  match k.interceptor.addressOfInterestMap pc with
  | none => ⟨0, k, []⟩
  | some aoi =>
      match aoi.type with
      | .returnAddress => k.leaveFunction M pc aoi cpuState
      | .function => k.enterFunction B M aoi cpuState

/-- `MemCheckLinuxKernel::DoAddress`: only kernel addresses reach the interceptor. -/
def Kernel.doKernelAddress (k : Kernel) (cpuState : σ) : Dispatch :=
  let pc := M.getPC cpuState
  if 0xc0000000 ≤ pc then k.doAddress B M pc cpuState else ⟨0, k, []⟩

end DoAddress

end MemCheck
