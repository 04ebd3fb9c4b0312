import MemCheck.CodeInvalidation
import MemCheck.Lib.Bytes
import MemCheck.Lib.LongJump

/-!
# The Memory of the Guest

The memory of the guest is an array of the host, `phys_ram_base`, with a byte of dirty flags for
each page. A table says for each physical page which part of the array it is, or which device.
Each processor has a table of translations, `tlb_table`, whose entries hold what must be added to
a virtual address to get an address of the host, or of a device. The low bits of an entry say how
the page is accessed; an entry of minus one matches nothing.

This module translates the state and the functions of `exec.c` that keep the tables: they work on
a state whose parts are the cache of translated blocks, the memory, and the processors. The host
is a 32-bit one, as addresses of the guest are. Devices are seen through the list of the accesses
made to them, which determines what they answer. Watchpoints are left out.
-/

namespace MemCheck

/-! ### Pages of memory and devices -/

/-- `TLB_INVALID_MASK`. -/
def tlbInvalidMask : Word32 := 0x8

/-- `IO_MEM_RAM`. -/
def ioMemRam : Word32 := 0x0

/-- `IO_MEM_ROM`. -/
def ioMemRom : Word32 := 0x10

/-- `IO_MEM_UNASSIGNED`. -/
def ioMemUnassigned : Word32 := 0x20

/-- `IO_MEM_NOTDIRTY`. -/
def ioMemNotdirty : Word32 := 0x40

/-- `IO_MEM_ROMD`. -/
def ioMemRomd : Word32 := 0x1

/-- The number of the functions of a device: `(pd >> IO_MEM_SHIFT) & (IO_MEM_NB_ENTRIES - 1)`. -/
def ioIndex (pd : Word32) : Word32 := (pd >>> 4) &&& 0xff

/-- An access to a device: the number of its functions, the size as a power of two, and the
address. -/
inductive IoAccess where
  | read (index : Word32) (shift : ℕ) (addr : Addr32)
  | write (index : Word32) (shift : ℕ) (addr : Addr32) (val : Word32)

/-- What does not change: where the memory lies in the host, the physical pages
(`phys_page_find`), and what devices answer after the accesses they have seen. -/
structure Board where
  physRamBase : Addr32
  physPageFind : Word32 → Option Word32
  ioMemRead : List IoAccess → Word32 → ℕ → Addr32 → Word32

/-- `phys_offset` of the page of an address. -/
def Board.physOffset (hw : Board) (addr : Addr32) : Word32 :=
  (hw.physPageFind (pageIndex addr)).getD ioMemUnassigned

/-- A page that is read by asking a device: `(pd & ~TARGET_PAGE_MASK) > IO_MEM_ROM && !(pd &
IO_MEM_ROMD)`. -/
def IsIo (pd : Word32) : Prop := pageOffset pd > ioMemRom ∧ pd &&& ioMemRomd = 0

instance (pd : Word32) : Decidable (IsIo pd) := inferInstanceAs (Decidable (_ ∧ _))

/-! ### The state of the emulator -/

/-- The two modes of the MMU: `MMU_MODE0_SUFFIX` and `MMU_MODE1_SUFFIX`. -/
inductive MmuIdx where
  | kernel
  | user
  deriving DecidableEq, Repr

/-- `struct CPUTLBEntry`. -/
structure TlbEntry where
  addrRead : Addr32
  addrWrite : Addr32
  addrCode : Addr32
  addend : Addr32
  deriving DecidableEq, Repr

/-- The registers that the MMU of the guest goes by, and those an exception is reported in. -/
structure MmuRegs where
  cr0 : Word32
  cr2 : Word32
  cr3 : Word32
  cr4 : Word32
  a20Mask : Word32
  efer : UInt64
  hflags : Word32
  errorCode : Word32

/-- `struct CPUX86State`, as memory accesses see it. -/
structure CpuState where
  env : CpuEnv
  memWriteVaddr : Addr32
  tlbTable : MmuIdx → Word32 → TlbEntry
  regs : MmuRegs

/-- The state of the emulator. The processors are numbered by `cpu_index`, and `single` is
`cpu_single_env`. What the guest reads and writes has been announced to the checker, in the order
of `announced`.

Two fields record what has happened, and are read by no function: the words of memory that were
written without a look at the code translated from them, and the bytes that each block was
translated from. -/
structure Qemu where
  cache : CodeCache
  ram : Addr32 → UInt8
  dirty : Word32 → UInt8
  cpus : ℕ → CpuState
  single : Option ℕ
  io : List IoAccess
  announced : List (Addr32 × ℕ)
  unseen : List Addr32
  source : TbPtr → List UInt8

/-- How execution of a function ends early: by an exception of the guest, by resuming it, by
`cpu_abort`, or by following a null pointer or never ending. -/
inductive Exit where
  | exception
  | resume
  | abort
  | crash
  deriving DecidableEq, Repr

/-- What the emulator executes. -/
abbrev Emu := EStateM Exit Qemu

/-- The size of an access. -/
inductive AccessSize where
  | b
  | w
  | l
  | q
  deriving DecidableEq, Repr

/-- `SHIFT`. -/
def AccessSize.shift : AccessSize → ℕ
  | b => 0
  | w => 1
  | l => 2
  | q => 3

/-- `DATA_SIZE`. -/
def AccessSize.bytes (sz : AccessSize) : ℕ := 2 ^ sz.shift

/-! ### Bytes -/

/-- The value of `n` bytes of memory. -/
def ldRaw (ram : Addr32 → UInt8) (a : Addr32) (n : ℕ) : ℕ := Bytes.leNat (Bytes.readBytes ram a n)

/-- `n` bytes of memory written. -/
def stRaw (ram : Addr32 → UInt8) (a : Addr32) (n val : ℕ) : Addr32 → UInt8 :=
  Bytes.writeBytes ram a (Bytes.leBytes n val)

namespace Qemu

/-- Change a processor. -/
def setCpu (m : Qemu) (c : ℕ) (f : CpuState → CpuState) : Qemu :=
  { m with cpus := Function.update m.cpus c (f (m.cpus c)) }

/-- Change the table `tb_jmp_cache` of a processor. -/
def setJmpCache (m : Qemu) (c : ℕ) (f : (Word32 → Option TbPtr) → Word32 → Option TbPtr) :
    Qemu :=
  { m with cache := { m.cache with tbJmpCache := m.cache.tbJmpCache.modify c f } }

/-- What `tb_invalidate_phys_page_range` leaves. -/
def put (m : Qemu) (r : RangeResult) : Qemu :=
  { m with
    cache := r.cache
    dirty := r.dirty
    cpus := match m.single, r.env with
      | some c, some env => Function.update m.cpus c { m.cpus c with env := env }
      | _, _ => m.cpus }

/-- All flags of a page set but `CODE_DIRTY_FLAG`, which stays as it is. -/
def setDirtyFlags (m : Qemu) (addr : Addr32) : Qemu :=
  { m with
    dirty := Function.update m.dirty (pageIndex addr)
      (m.dirty (pageIndex addr) ||| (0xff &&& ~~~ codeDirtyFlag)) }

/-- `cpu_physical_memory_is_dirty`. -/
def isDirty (m : Qemu) (addr : Addr32) : Bool := m.dirty (pageIndex addr) == 0xff

end Qemu

/-! ### The tables of translations -/

namespace TlbEntry

/-- No access matches the entry. -/
def clear (e : TlbEntry) : TlbEntry :=
  { e with addrRead := 0xffffffff, addrWrite := 0xffffffff, addrCode := 0xffffffff }

/-- `tlb_flush_entry`. -/
def tlbFlushEntry (e : TlbEntry) (addr : Addr32) : TlbEntry :=
  if addr = e.addrRead &&& (targetPageMask ||| tlbInvalidMask) ∨
      addr = e.addrWrite &&& (targetPageMask ||| tlbInvalidMask) ∨
      addr = e.addrCode &&& (targetPageMask ||| tlbInvalidMask) then e.clear
  else e

/-- The address of the host that writes to the page go to. -/
def hostPage (e : TlbEntry) : Addr32 := (e.addrWrite &&& targetPageMask) + e.addend

/-- `tlb_reset_dirty_range`. -/
def tlbResetDirtyRange (e : TlbEntry) (start length : Word32) : TlbEntry :=
  if pageOffset e.addrWrite = ioMemRam ∧ e.hostPage - start < length then
    { e with addrWrite := (e.addrWrite &&& targetPageMask) ||| ioMemNotdirty }
  else e

/-- `tlb_update_dirty`. -/
def tlbUpdateDirty (e : TlbEntry) (hw : Board) (m : Qemu) : TlbEntry :=
  if pageOffset e.addrWrite = ioMemRam ∧ m.isDirty (e.hostPage - hw.physRamBase) = false then
    { e with addrWrite := e.addrWrite ||| ioMemNotdirty }
  else e

/-- `tlb_set_dirty1`. -/
def tlbSetDirty1 (e : TlbEntry) (start : Addr32) : TlbEntry :=
  if pageOffset e.addrWrite = ioMemNotdirty ∧ e.hostPage = start then
    { e with addrWrite := (e.addrWrite &&& targetPageMask) ||| ioMemRam }
  else e

end TlbEntry

/-- The place of a page in `tlb_table`: `(addr >> TARGET_PAGE_BITS) & (CPU_TLB_SIZE - 1)`. -/
def tlbIndex (addr : Addr32) : Word32 := pageIndex addr &&& 0xff

/-- `tb_jmp_cache_hash_page`. -/
def tbJmpCacheHashPage (pc : Addr32) : Word32 :=
  let tmp := pc ^^^ (pc >>> 6)
  (tmp >>> 6) &&& 0xfc0

/-- Change the entries of a table at one place. -/
def CpuState.setTlbAt (cpu : CpuState) (i : Word32) (f : TlbEntry → TlbEntry) : CpuState :=
  { cpu with tlbTable := fun mmu => Function.update (cpu.tlbTable mmu) i (f (cpu.tlbTable mmu i)) }

/-- Change all entries of a table. -/
def CpuState.mapTlb (cpu : CpuState) (f : TlbEntry → TlbEntry) : CpuState :=
  { cpu with tlbTable := fun mmu i => f (cpu.tlbTable mmu i) }

namespace Qemu

/-- `tlb_flush`. -/
def tlbFlush (m : Qemu) (c : ℕ) : Qemu :=
  (m.setCpu c fun cpu => { cpu.mapTlb TlbEntry.clear with
    env := { cpu.env with currentTb := none } }).setJmpCache c fun _ _ => none

/-- `TB_JMP_PAGE_SIZE` entries of a table of blocks, cleared from `i` on. -/
def clearJmpPage (cache : Word32 → Option TbPtr) (i : Word32) : Word32 → Option TbPtr :=
  fun j => if i ≤ j ∧ j < i + 64 then none else cache j

/-- `tlb_flush_page`. -/
def tlbFlushPage (m : Qemu) (c : ℕ) (addr : Addr32) : Qemu :=
  let addr := addr &&& targetPageMask
  let m := m.setCpu c fun cpu => { cpu.setTlbAt (tlbIndex addr) (·.tlbFlushEntry addr) with
    env := { cpu.env with currentTb := none } }
  m.setJmpCache c fun cache =>
    clearJmpPage (clearJmpPage cache (tbJmpCacheHashPage (addr - targetPageSize)))
      (tbJmpCacheHashPage addr)

/-- The loop of `cpu_physical_memory_reset_dirty` over the flags of pages. -/
def resetDirtyLoop (flags : UInt8) (p : Word32) : ℕ → (Word32 → UInt8) → Word32 → UInt8
  | 0, dirty => dirty
  | k + 1, dirty =>
      resetDirtyLoop flags (p + 1) k (Function.update dirty p (dirty p &&& ~~~ flags))

/-- `cpu_physical_memory_reset_dirty`. -/
def cpuPhysicalMemoryResetDirty (m : Qemu) (hw : Board) (start stop : Addr32)
    (flags : UInt8) : Qemu :=
  let start := start &&& targetPageMask
  let stop := (stop + targetPageSize - 1) &&& targetPageMask
  let length := stop - start
  if length = 0 then m
  else
    { m with
      dirty := resetDirtyLoop flags (pageIndex start) (pageIndex length).toNat m.dirty
      cpus := fun c => (m.cpus c).mapTlb (·.tlbResetDirtyRange (start + hw.physRamBase) length) }

/-- `tlb_protect_code`. -/
def tlbProtectCode (m : Qemu) (hw : Board) (ramAddr : Addr32) : Qemu :=
  m.cpuPhysicalMemoryResetDirty hw ramAddr (ramAddr + targetPageSize) codeDirtyFlag

/-- `cpu_tlb_update_dirty`. -/
def cpuTlbUpdateDirty (m : Qemu) (hw : Board) (c : ℕ) : Qemu :=
  m.setCpu c fun cpu => cpu.mapTlb (·.tlbUpdateDirty hw m)

/-- `tlb_set_dirty`. -/
def tlbSetDirty (m : Qemu) (c : ℕ) (addr vaddr : Addr32) : Qemu :=
  m.setCpu c fun cpu => cpu.setTlbAt (tlbIndex vaddr) (·.tlbSetDirty1 (addr &&& targetPageMask))

end Qemu

/-- What a translation allows: `PAGE_READ`, `PAGE_WRITE` and `PAGE_EXEC`. -/
structure Prot where
  read : Bool
  write : Bool
  exec : Bool
  deriving DecidableEq, Repr

/-- The address that an entry is found by: the low bits of a device are in it. -/
def pageAddress (vaddr : Addr32) (pd : Word32) : Addr32 := if IsIo pd then vaddr ||| pd else vaddr

/-- The address that an entry is found by for writes. -/
def Qemu.writeAddress (m : Qemu) (vaddr : Addr32) (pd : Word32) : Addr32 :=
  if pageOffset pd = ioMemRom ∨ pd &&& ioMemRomd ≠ 0 then
    -- ROM: access is ignored or handled as I/O
    vaddr ||| (pd &&& ~~~ (targetPageMask ||| ioMemRomd))
  else if pageOffset pd = ioMemRam ∧ m.isDirty pd = false then vaddr ||| ioMemNotdirty
  else pageAddress vaddr pd

/-- The entry that `tlb_set_page_exec` makes. -/
def Qemu.tlbEntryFor (m : Qemu) (hw : Board) (vaddr paddr : Addr32) (prot : Prot) :
    TlbEntry :=
  let pd := hw.physOffset paddr
  let addend := if IsIo pd then paddr else hw.physRamBase + (pd &&& targetPageMask)
  { addend := addend - vaddr
    addrRead := if prot.read then pageAddress vaddr pd else 0xffffffff
    addrCode := if prot.exec then pageAddress vaddr pd else 0xffffffff
    addrWrite := if prot.write then m.writeAddress vaddr pd else 0xffffffff }

/-- `tlb_set_page_exec`. -/
def Qemu.tlbSetPageExec (m : Qemu) (hw : Board) (c : ℕ) (vaddr paddr : Addr32)
    (prot : Prot) (mmu : MmuIdx) : Qemu :=
  m.setCpu c fun cpu => { cpu with
    tlbTable := Function.update cpu.tlbTable mmu <|
      Function.update (cpu.tlbTable mmu) (tlbIndex vaddr) (m.tlbEntryFor hw vaddr paddr prot) }

end MemCheck
