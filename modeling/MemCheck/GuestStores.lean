import MemCheck.CodeFetch

/-!
# Stores of the Guest

A store goes by `tlb_table` as a load does. A page that holds translated code, or whose dirty
flags are not all set, is written through `notdirty_mem_write`, as if it were a device: the code
that is hit is invalidated before the memory is written. If the block that makes the store is hit
itself, its current instruction is translated as a block of its own, and execution is resumed
there without the store having been made.

A store that is not aligned and spans two pages is made byte by byte, from the last one on.
-/

namespace MemCheck

/-! ### Pages with code -/

/-- `tb_invalidate_phys_page_fast`, with the end of `tb_invalidate_phys_page_range`. -/
def tbInvalidatePhysPageFast (hw : Board) (tr : Translator) (start : Addr32) (len : ℕ) :
    Emu Unit := do
  let m ← get
  match m.cache.tbInvalidatePhysPageFast m.dirty (m.single.map fun c => (m.cpus c).env) start
      len with
  | none => throw .crash
  | some r =>
      set (m.put r)
      match r.modified, m.single with
      | some tb, some c =>
          let (pc, csBase, flags) := tr.restore (m.put r) tb
          modify fun m => m.setCpu c fun cpu =>
            { cpu with env := { cpu.env with currentTb := none } }
          tbGenCode hw tr c pc csBase flags cfSingleInsn
          throw .resume
      | _, _ => pure ()

/-- The functions of `notdirty_mem_write`. -/
def notdirtyMemWrite (hw : Board) (tr : Translator) (sz : AccessSize) (addr : Addr32) (val : ℕ) :
    Emu Unit := do
  let ramAddr := addr - hw.physRamBase
  if (← get).dirty (pageIndex ramAddr) &&& codeDirtyFlag = 0 then
    tbInvalidatePhysPageFast hw tr ramAddr sz.bytes
  modify fun m => { m with ram := stRaw m.ram ramAddr sz.bytes val }
  modify fun m => m.setDirtyFlags ramAddr
  let m ← get
  if m.isDirty ramAddr then
    match m.single with
    | none => throw .crash
    | some c => modify fun m => m.tlbSetDirty c addr (m.cpus c).memWriteVaddr

/-- `notdirty_mem_writeb`. -/
def notdirtyMemWriteb (hw : Board) (tr : Translator) : Addr32 → ℕ → Emu Unit :=
  notdirtyMemWrite hw tr .b

/-- `notdirty_mem_writew`. -/
def notdirtyMemWritew (hw : Board) (tr : Translator) : Addr32 → ℕ → Emu Unit :=
  notdirtyMemWrite hw tr .w

/-- `notdirty_mem_writel`. -/
def notdirtyMemWritel (hw : Board) (tr : Translator) : Addr32 → ℕ → Emu Unit :=
  notdirtyMemWrite hw tr .l

/-! ### Devices -/

/-- Call a function of `io_mem_write`. There are three for each device. -/
def callIoMemWrite (hw : Board) (tr : Translator) (index : Word32) (sz : AccessSize)
    (addr : Addr32) (val : ℕ) : Emu Unit :=
  if index = ioIndex ioMemNotdirty then
    match sz with
    | .b => notdirtyMemWriteb hw tr addr val
    | .w => notdirtyMemWritew hw tr addr val
    | _ => notdirtyMemWritel hw tr addr val
  else ioMemWrite index sz.shift addr (UInt32.ofNat val)

/-- `io_write`. The return address tells which block makes the store. -/
def ioWrite (hw : Board) (tr : Translator) (c : ℕ) (sz : AccessSize) (physaddr : Addr32)
    (val : ℕ) (tlbAddr : Addr32) (retaddr : ℤ) : Emu Unit := do
  modify fun m => m.setCpu c fun cpu =>
    { cpu with memWriteVaddr := tlbAddr, env := { cpu.env with memWritePc := some retaddr } }
  match sz with
  | .q => do
      callIoMemWrite hw tr (ioIndex tlbAddr) .l physaddr (val % 2 ^ 32)
      callIoMemWrite hw tr (ioIndex tlbAddr) .l (physaddr + 4) (val >>> 32)
  | sz => callIoMemWrite hw tr (ioIndex tlbAddr) sz physaddr val

/-! ### Stores -/

/-- Write memory by an address of the host. -/
def stHost (hw : Board) (physaddr : Addr32) (sz : AccessSize) (val : ℕ) : Emu Unit :=
  modify fun m => { m with ram := stRaw m.ram (physaddr - hw.physRamBase) sz.bytes val }

/-- A store whose entry has been found; `unaligned` is what is done at `do_unaligned_access`. -/
def stByEntry (hw : Board) (tr : Translator) (c : ℕ) (sz : AccessSize) (retaddr : ℤ)
    (addr : Addr32) (val : ℕ) (e : TlbEntry) (unaligned : Emu Unit) : Emu Unit :=
  if pageOffset e.addrWrite ≠ 0 then
    if addr &&& sz.mask ≠ 0 then unaligned
    else ioWrite hw tr c sz (addr + e.addend) val e.addrWrite retaddr
  else if Spans addr sz then unaligned
  else stHost hw (addr + e.addend) sz val

/-- `slow_st`; the first argument bounds the depth of the recursion. -/
def slowSt (hw : Board) (tr : Translator) (c : ℕ) (mmu : MmuIdx) (retaddr : ℤ) :
    ℕ → AccessSize → Addr32 → ℕ → Emu Unit
  | 0, _, _, _ => throw .crash
  | k + 1, sz, addr, val => do
      let e ← tlbLookup hw c .write mmu addr redoBound
      stByEntry hw tr c sz retaddr addr val e <|
        (List.range sz.bytes).reverse.forM fun i =>
          slowSt hw tr c mmu retaddr k .b (addr + UInt32.ofNat i) (val >>> (i * 8) % 256)

/-- `__st`. -/
def stMmu (hw : Board) (tr : Translator) (c : ℕ) (sz : AccessSize) (mmu : MmuIdx) (retaddr : ℤ)
    (addr : Addr32) (val : ℕ) : Emu Unit := do
  let e ← tlbLookup hw c .write mmu addr redoBound
  stByEntry hw tr c sz retaddr addr val e (slowSt hw tr c mmu retaddr slowBound sz addr val)

/-- `st`. -/
def st (hw : Board) (tr : Translator) (c : ℕ) (sz : AccessSize) (mmu : MmuIdx) (retaddr : ℤ)
    (ptr : Addr32) (val : ℕ) : Emu Unit := do
  announce ptr sz
  let e := ((← get).cpus c).tlbAt mmu ptr
  if e.addrWrite ≠ ptr &&& (targetPageMask ||| sz.mask) then
    stMmu hw tr c sz mmu retaddr ptr val
  else stHost hw (ptr + e.addend) sz val

end MemCheck
