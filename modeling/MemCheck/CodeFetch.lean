import MemCheck.SoftMmu

/-!
# Finding and Translating Blocks

`tb_find_fast` (`cpu-exec.c`) looks for the block to be executed next in a table of the processor
that goes by its virtual address. `tb_find_slow` goes by the physical address of the code, and if
that address has no block yet translates one. The code is read with the accesses of the guest, so
that either may be left by an exception.

The translator is a parameter: given the block and what has been read so far it says what is to be
read next, which lies behind what has been read before, or that it is done.
-/

namespace MemCheck

/-! ### The translator -/

/-- What a translation ends with: the size of the code of the guest, the size of the code of the
host, and where that has its jumps. -/
structure Translation where
  size : UInt16
  codeGenSize : ℕ
  tbNextOffset : Slot → UInt16

/-- What the translator does next. -/
inductive Fetch where
  | read (sz : AccessSize)
  | done (t : Translation)

/-- `gen_intermediate_code` and `dyngen_code`, the state that `cpu_restore_state` leaves
(`current_pc`, `current_cs_base` and `current_flags`), and `CODE_GEN_BUFFER_MAX_SIZE`. -/
structure Translator where
  next : TbEntry → List (AccessSize × ℕ) → Fetch
  restore : Qemu → TbPtr → Addr32 × Addr32 × UInt64
  codeGenBufferMaxSize : ℕ

/-- The bytes that have been read. -/
def codeBytes (read : List (AccessSize × ℕ)) : List UInt8 :=
  read.flatMap fun r => Bytes.leBytes r.1.bytes r.2

/-- Read and translate code; the first argument bounds the number of accesses. -/
def genCodeLoop (hw : Board) (tr : Translator) (e : TbEntry) :
    ℕ → List (AccessSize × ℕ) → Emu (Translation × List UInt8)
  | 0, _ => throw .crash
  | k + 1, read =>
      match tr.next e read with
      | .done t => pure (t, (codeBytes read).take t.size.toNat)
      | .read sz => do
          let v ← ldCode hw sz (e.pc + UInt32.ofNat (codeBytes read).length)
          genCodeLoop hw tr e k (read ++ [(sz, v)])

/-- No block is made from more accesses than this. -/
def fetchBound : ℕ := 4097

/-- `cpu_gen_code`; the size of the code of the host. -/
def cpuGenCode (hw : Board) (tr : Translator) (tb : TbPtr) : Emu ℕ := do
  let (t, bytes) ← genCodeLoop hw tr ((← get).cache.tbs tb) fetchBound []
  modify fun m => { m with
    cache := m.cache.setTb tb fun e => { e with size := t.size, tbNextOffset := t.tbNextOffset }
    source := Function.update m.source tb bytes }
  pure t.codeGenSize

/-! ### New blocks -/

/-- `tb_alloc`, after a flush if need be; whether there was one. -/
def tbAllocOrFlush (tr : Translator) (pc : Addr32) : Emu (TbPtr × Bool) := do
  let m ← get
  match m.cache.tbAlloc tr.codeGenBufferMaxSize pc with
  | some (tb, cache) =>
      set { m with cache := cache }
      pure (tb, false)
  | none =>
      match m.cache.tbFlush.tbAlloc tr.codeGenBufferMaxSize pc with
      | some (tb, cache) =>
          set { m with cache := cache }
          pure (tb, true)
      | none => throw .crash

/-- The call of `tlb_protect_code` in `tb_alloc_page`. -/
def Qemu.protectFirst (m : Qemu) (hw : Board) (cache : CodeCache) (pageAddr : Addr32) : Qemu :=
  if cache.readPage (.firstTb (pageIndex pageAddr)) = none then m.tlbProtectCode hw pageAddr
  else m

/-- `tb_link_phys`. -/
def Qemu.tbLinkPhys (m : Qemu) (hw : Board) (tb : TbPtr) (physPc physPage2 : Addr32) : Qemu :=
  let page1 := physPc &&& targetPageMask
  let m' := m.protectFirst hw m.cache page1
  let m' := if physPage2 ≠ noPage then
      m'.protectFirst hw (m.cache.tbAllocPage tb .zero page1) physPage2
    else m'
  { m' with cache := m.cache.tbLinkPhys tb physPc physPage2 }

/-- `CODE_GEN_ALIGN`. -/
def codeGenAlign : ℕ := 16

/-- What `tb_gen_code` and `tb_find_slow` have in common: a block is filled in, translated, and
linked. -/
def tbTranslate (hw : Board) (tr : Translator) (c : ℕ) (tb : TbPtr) (physPc pc csBase : Addr32)
    (flags : UInt64) : Emu Unit := do
  modify fun m => { m with cache := m.cache.setTb tb fun e =>
    { e with tcPtr := m.cache.codeGenPtr, csBase := csBase, flags := flags } }
  let codeGenSize ← cpuGenCode hw tr tb
  modify fun m => { m with cache := { m.cache with
    codeGenPtr := (m.cache.codeGenPtr + codeGenSize + codeGenAlign - 1) / codeGenAlign *
      codeGenAlign } }
  let size := ((← get).cache.tbs tb).size
  let virtPage2 := (pc + size.toUInt32 - 1) &&& targetPageMask
  let physPage2 ← if pc &&& targetPageMask ≠ virtPage2 then getPhysAddrCode hw c virtPage2
    else pure noPage
  modify fun m => m.tbLinkPhys hw tb physPc physPage2

/-- `tb_gen_code`. -/
def tbGenCode (hw : Board) (tr : Translator) (c : ℕ) (pc csBase : Addr32) (flags : UInt64)
    (cflags : UInt16) : Emu Unit := do
  let physPc ← getPhysAddrCode hw c pc
  let (tb, _) ← tbAllocOrFlush tr pc
  modify fun m => { m with cache := m.cache.setTb tb fun e => { e with cflags := cflags } }
  tbTranslate hw tr c tb physPc pc csBase flags

/-! ### Finding a block -/

/-- The test of `tb_find_slow` whether a block is the one. -/
def isWanted (hw : Board) (c : ℕ) (e : TbEntry) (pc csBase physPage1 : Addr32) (flags : UInt64) :
    Emu Bool :=
  if e.pc = pc ∧ e.pageAddr .zero = physPage1 ∧ e.csBase = csBase ∧ e.flags = flags then
    if e.pageAddr .one ≠ noPage then do
      let physPage2 ← getPhysAddrCode hw c ((pc &&& targetPageMask) + targetPageSize)
      pure (e.pageAddr .one == physPage2)
    else pure true
  else pure false

/-- The loop of `tb_find_slow`. -/
def findPhysLoop (hw : Board) (c : ℕ) (pc csBase physPage1 : Addr32) (flags : UInt64) :
    ℕ → Option TbPtr → Emu (Option TbPtr)
  | 0, _ => throw .crash
  | _ + 1, none => pure none
  | k + 1, some tb => do
      if ← isWanted hw c ((← get).cache.tbs tb) pc csBase physPage1 flags then pure (some tb)
      else
        let m ← get
        findPhysLoop hw c pc csBase physPage1 flags k (m.cache.hashCells (.physHashNext tb))

/-- Set `tb_invalidated_flag`. -/
def setInvalidatedFlag (flag : Bool) : Emu Unit :=
  modify fun m => { m with cache := { m.cache with tbInvalidatedFlag := flag } }

/-- A new block, where `tb_find_slow` finds none. -/
def tbFindNew (hw : Board) (tr : Translator) (c : ℕ) (physPc pc csBase : Addr32)
    (flags : UInt64) : Emu TbPtr := do
  let (tb, flushed) ← tbAllocOrFlush tr pc
  if flushed then setInvalidatedFlag true
  tbTranslate hw tr c tb physPc pc csBase flags
  pure tb

/-- `tb_find_slow`. -/
def tbFindSlow (hw : Board) (tr : Translator) (c : ℕ) (pc csBase : Addr32) (flags : UInt64) :
    Emu TbPtr := do
  setInvalidatedFlag false
  let physPc ← getPhysAddrCode hw c pc
  let m ← get
  let found ← findPhysLoop hw c pc csBase (physPc &&& targetPageMask) flags m.cache.walkBound
    (m.cache.hashCells (.bucket (tbPhysHashFunc physPc)))
  let tb ← (match found with
    | some tb => pure tb
    | none => tbFindNew hw tr c physPc pc csBase flags)
  modify fun m => m.setJmpCache c fun cache =>
    Function.update cache (tbJmpCacheHashFunc pc) (some tb)
  pure tb

/-- `tb_find_fast`. -/
def tbFindFast (hw : Board) (tr : Translator) (c : ℕ) (pc csBase : Addr32) (flags : UInt64) :
    Emu TbPtr := do
  let m ← get
  match (m.cache.tbJmpCache[c]?).bind fun cache => cache (tbJmpCacheHashFunc pc) with
  | none => tbFindSlow hw tr c pc csBase flags
  | some tb =>
      let e := m.cache.tbs tb
      if e.pc ≠ pc ∨ e.csBase ≠ csBase ∨ e.flags ≠ flags then tbFindSlow hw tr c pc csBase flags
      else pure tb

end MemCheck
