import MemCheck.PageWalk

/-!
# Loads of the Guest

An access of the guest goes by `tlb_table`. The macros of `softmmu_header.h` compare one entry with
the address and its alignment at once, and read the memory of the host if they agree. Everything
else is left to the functions of `softmmu_template.h`: pages that are not in the table yet, pages
of devices, and accesses that are not aligned, of which those that span two pages are put together
from two aligned ones.
-/

namespace MemCheck

/-! ### The table of translations -/

/-- The entry of the table for the page of an address. -/
def CpuState.tlbAt (cpu : CpuState) (mmu : MmuIdx) (addr : Addr32) : TlbEntry :=
  cpu.tlbTable mmu (tlbIndex addr)

/-- `ADDR_READ`, or `addr_write`. -/
def TlbEntry.addrFor (e : TlbEntry) : Access → Addr32
  | .read => e.addrRead
  | .write => e.addrWrite
  | .fetch => e.addrCode

/-- The entry is one for the page of the address, and for such an access. -/
def TlbEntry.Matches (e : TlbEntry) (access : Access) (addr : Addr32) : Prop :=
  addr &&& targetPageMask = e.addrFor access &&& (targetPageMask ||| tlbInvalidMask)

instance (e : TlbEntry) (access : Access) (addr : Addr32) : Decidable (e.Matches access addr) :=
  inferInstanceAs (Decidable (_ = _))

/-- The loop of `redo`; the first argument bounds the number of rounds. -/
def tlbLookup (hw : Board) (c : ℕ) (access : Access) (mmu : MmuIdx) (addr : Addr32) :
    ℕ → Emu TlbEntry
  | 0 => throw .crash
  | k + 1 => do
      let e := ((← get).cpus c).tlbAt mmu addr
      if e.Matches access addr then pure e
      else do
        tlbFill hw addr access mmu
        tlbLookup hw c access mmu addr k

/-- How often `redo` is jumped to, and once more. -/
def redoBound : ℕ := 2

/-- The access spans two pages. -/
def Spans (addr : Addr32) (sz : AccessSize) : Prop :=
  (pageOffset addr).toNat + sz.bytes - 1 ≥ targetPageSize.toNat

instance (addr : Addr32) (sz : AccessSize) : Decidable (Spans addr sz) :=
  inferInstanceAs (Decidable (_ ≥ _))

/-- `DATA_SIZE - 1`, for the alignment of an address. -/
def AccessSize.mask : AccessSize → Word32
  | b => 0
  | w => 1
  | l => 3
  | q => 7

/-! ### Loads -/

/-- `io_read`. -/
def ioRead (hw : Board) (sz : AccessSize) (physaddr tlbAddr : Addr32) : Emu ℕ :=
  match sz with
  | .q => do
      let low ← ioMemRead hw (ioIndex tlbAddr) 2 physaddr
      let high ← ioMemRead hw (ioIndex tlbAddr) 2 (physaddr + 4)
      pure (low.toNat ||| high.toNat <<< 32)
  | sz => do
      let res ← ioMemRead hw (ioIndex tlbAddr) sz.shift physaddr
      pure (res.toNat % 2 ^ (8 * sz.bytes))

/-- Read memory by an address of the host. -/
def ldHost (hw : Board) (physaddr : Addr32) (sz : AccessSize) : Emu ℕ := do
  pure (ldRaw (← get).ram (physaddr - hw.physRamBase) sz.bytes)

/-- A value put together from two aligned ones. -/
def joinUnaligned (sz : AccessSize) (addr : Addr32) (res1 res2 : ℕ) : ℕ :=
  let shift := (addr &&& sz.mask).toNat * 8
  (res1 >>> shift ||| res2 <<< (sz.bytes * 8 - shift)) % 2 ^ (8 * sz.bytes)

/-- A load whose entry has been found; `unaligned` is what is done at `do_unaligned_access`. -/
def ldByEntry (hw : Board) (sz : AccessSize) (access : Access) (addr : Addr32) (e : TlbEntry)
    (unaligned : Emu ℕ) : Emu ℕ :=
  if pageOffset (e.addrFor access) ≠ 0 then
    if addr &&& sz.mask ≠ 0 then unaligned
    else ioRead hw sz (addr + e.addend) (e.addrFor access)
  else if Spans addr sz then unaligned
  else ldHost hw (addr + e.addend) sz

/-- `slow_ld`; the first argument bounds the depth of the recursion. -/
def slowLd (hw : Board) (c : ℕ) (sz : AccessSize) (access : Access) (mmu : MmuIdx) :
    ℕ → Addr32 → Emu ℕ
  | 0, _ => throw .crash
  | k + 1, addr => do
      let e ← tlbLookup hw c access mmu addr redoBound
      ldByEntry hw sz access addr e do
        let addr1 := addr &&& ~~~ sz.mask
        let res1 ← slowLd hw c sz access mmu k addr1
        let res2 ← slowLd hw c sz access mmu k (addr1 + UInt32.ofNat sz.bytes)
        pure (joinUnaligned sz addr res1 res2)

/-- How deep `slow_ld` gets, and once more. -/
def slowBound : ℕ := 2

/-- `__ld`. -/
def ldMmu (hw : Board) (c : ℕ) (sz : AccessSize) (access : Access) (mmu : MmuIdx)
    (addr : Addr32) : Emu ℕ := do
  let e ← tlbLookup hw c access mmu addr redoBound
  ldByEntry hw sz access addr e (slowLd hw c sz access mmu slowBound addr)

/-- `MemCheckLinuxKernelQEMU_MemoryAccess_`, as it is called. -/
def announce (ptr : Addr32) (sz : AccessSize) : Emu Unit :=
  modify fun m => { m with announced := m.announced ++ [(ptr, sz.bytes)] }

/-- `ld`. -/
def ld (hw : Board) (c : ℕ) (sz : AccessSize) (access : Access) (mmu : MmuIdx) (ptr : Addr32) :
    Emu ℕ := do
  announce ptr sz
  let e := ((← get).cpus c).tlbAt mmu ptr
  if e.addrFor access ≠ ptr &&& (targetPageMask ||| sz.mask) then
    ldMmu hw c sz access mmu ptr
  else ldHost hw (ptr + e.addend) sz

/-- `lds`: the value as a signed one. -/
def lds (hw : Board) (c : ℕ) (sz : AccessSize) (mmu : MmuIdx) (ptr : Addr32) : Emu ℤ := do
  let res ← ld hw c sz .read mmu ptr
  pure (Int.bmod res (2 ^ (8 * sz.bytes)))

/-! ### Where code lies -/

/-- `cpu_mmu_index`. -/
def MmuRegs.cpuMmuIndex (r : MmuRegs) : MmuIdx := if r.hflags &&& 3 = 3 then .user else .kernel

/-- `ld_code`, which accesses memory on behalf of `cpu_single_env`. -/
def ldCode (hw : Board) (sz : AccessSize) (ptr : Addr32) : Emu ℕ := do
  let m ← get
  match m.single with
  | none => throw .crash
  | some c => ld hw c sz .fetch (m.cpus c).regs.cpuMmuIndex ptr

/-- `get_phys_addr_code`. -/
def getPhysAddrCode (hw : Board) (c : ℕ) (addr : Addr32) : Emu Addr32 := do
  let cpu := (← get).cpus c
  let mmu := cpu.regs.cpuMmuIndex
  if (cpu.tlbAt mmu addr).addrCode ≠ addr &&& targetPageMask then
    let _ ← ldCode hw .b addr
  let e := ((← get).cpus c).tlbAt mmu addr
  if IsIo (pageOffset e.addrCode) then throw .abort
  pure (addr + e.addend - hw.physRamBase)

end MemCheck
