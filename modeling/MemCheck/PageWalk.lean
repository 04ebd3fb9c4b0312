import MemCheck.PhysAccess

/-!
# The MMU of the Guest

`cpu_x86_handle_mmu_fault` (`target-i386/helper2.c`) walks the page tables of the guest for an
access that matches no entry of `tlb_table`: it checks the access, notes in the tables that the
page has been accessed and written, and makes an entry. `cpu_get_phys_page_debug` walks the same
tables for a debugger, and for the checker when it reads a stack or a string of the guest; it
checks and notes nothing.

The guest is a 32-bit one, with tables of two levels, or of three with `CR4.PAE`. Exceptions that
a hypervisor intercepts are left out.
-/

namespace MemCheck

/-! ### Page tables -/

/-- `CR0_WP_MASK`. -/
def cr0WpMask : Word32 := 0x10000

/-- `CR0_PG_MASK`. -/
def cr0PgMask : Word32 := 0x80000000

/-- `CR4_PSE_MASK`. -/
def cr4PseMask : Word32 := 0x10

/-- `CR4_PAE_MASK`. -/
def cr4PaeMask : Word32 := 0x20

/-- `MSR_EFER_NXE`. -/
def msrEferNxe : UInt64 := 0x800

/-- `PG_PRESENT_MASK`. -/
def pgPresentMask : UInt64 := 0x1

/-- `PG_RW_MASK`. -/
def pgRwMask : UInt64 := 0x2

/-- `PG_USER_MASK`. -/
def pgUserMask : UInt64 := 0x4

/-- `PG_ACCESSED_MASK`. -/
def pgAccessedMask : UInt64 := 0x20

/-- `PG_DIRTY_MASK`. -/
def pgDirtyMask : UInt64 := 0x40

/-- `PG_PSE_MASK`. -/
def pgPseMask : UInt64 := 0x80

/-- `PG_NX_MASK`. -/
def pgNxMask : UInt64 := 0x8000000000000000

/-- The kinds of access: `is_write1` is 0, 1 or 2. -/
inductive Access where
  | read
  | write
  | fetch
  deriving DecidableEq, Repr

/-- `is_write`. -/
def Access.isWrite : Access → Bool
  | write => true
  | _ => false

/-- Whether the access is refused by the rights that the tables give. -/
def MmuRegs.refuses (r : MmuRegs) (ptep : UInt64) (mmu : MmuIdx) (access : Access) : Bool :=
  match mmu with
  | .user => ptep &&& pgUserMask == 0 || access.isWrite && ptep &&& pgRwMask == 0
  | .kernel => r.cr0 &&& cr0WpMask != 0 && access.isWrite && ptep &&& pgRwMask == 0

/-- The rights of the entry that is made: the page is not made writable before its entry is
dirty. -/
def MmuRegs.protFor (r : MmuRegs) (pte ptep : UInt64) (mmu : MmuIdx) : Prot where
  read := true
  exec := ptep &&& pgNxMask == 0
  write := pte &&& pgDirtyMask != 0 && match mmu with
    | .user => ptep &&& pgRwMask != 0
    | .kernel => r.cr0 &&& cr0WpMask == 0 || ptep &&& pgRwMask != 0

/-- What a walk ends with: the reason of a fault, or the entry of the page, the rights and the
size of the page. -/
inductive Walk where
  | fault (errorCode : Word32)
  | page (pte ptep : UInt64) (pageSize : Word32)

/-- Note in a table that it has been used. -/
def touchTable (hw : Board) (addr : Addr32) (entry : UInt64) : Emu UInt64 :=
  if entry &&& pgAccessedMask = 0 then do
    stlPhysNotdirty hw addr (entry ||| pgAccessedMask).toUInt32
    pure (entry ||| pgAccessedMask)
  else pure entry

/-- Note in the entry of a page that it has been accessed, or written. -/
def touchPage (hw : Board) (addr : Addr32) (entry : UInt64) (access : Access) : Emu UInt64 :=
  let isDirty := access.isWrite && entry &&& pgDirtyMask == 0
  if entry &&& pgAccessedMask = 0 ∨ isDirty then do
    let entry := entry ||| pgAccessedMask
    let entry := if isDirty then entry ||| pgDirtyMask else entry
    stlPhysNotdirty hw addr entry.toUInt32
    pure entry
  else pure entry

/-- The address of an entry of a table. -/
def entryAddr (r : MmuRegs) (table : Word32) (offset : Word32) : Addr32 :=
  (table + offset) &&& r.a20Mask

/-- The walk with `CR4.PAE`. -/
def walkPae (hw : Board) (r : MmuRegs) (addr : Addr32) (access : Access) (mmu : MmuIdx) :
    Emu Walk := do
  let pdpe ← ldqPhys hw (entryAddr r (r.cr3 &&& ~~~ 0x1f) ((addr >>> 27) &&& 0x18))
  if pdpe &&& pgPresentMask = 0 then return .fault 0
  let ptep := pgNxMask ||| pgUserMask ||| pgRwMask
  let pdeAddr := entryAddr r (pdpe.toUInt32 &&& 0xfffff000) (((addr >>> 21) &&& 0x1ff) <<< 3)
  let pde ← ldqPhys hw pdeAddr
  if pde &&& pgPresentMask = 0 then return .fault 0
  if r.efer &&& msrEferNxe = 0 ∧ pde &&& pgNxMask ≠ 0 then return .fault 0x8
  let ptep := ptep &&& (pde ^^^ pgNxMask)
  if pde &&& pgPseMask ≠ 0 then
    let ptep := ptep ^^^ pgNxMask
    if (ptep &&& pgNxMask ≠ 0 ∧ access = .fetch) ∨ r.refuses ptep mmu access then
      return .fault 0x1
    let pde ← touchPage hw pdeAddr pde access
    return .page (pde &&& 0xffe00fff) ptep 0x200000
  let pde ← touchTable hw pdeAddr pde
  let pteAddr := entryAddr r (pde.toUInt32 &&& 0xfffff000) (((addr >>> 12) &&& 0x1ff) <<< 3)
  let pte ← ldqPhys hw pteAddr
  if pte &&& pgPresentMask = 0 then return .fault 0
  if r.efer &&& msrEferNxe = 0 ∧ pte &&& pgNxMask ≠ 0 then return .fault 0x8
  let ptep := (ptep &&& (pte ^^^ pgNxMask)) ^^^ pgNxMask
  if (ptep &&& pgNxMask ≠ 0 ∧ access = .fetch) ∨ r.refuses ptep mmu access then
    return .fault 0x1
  let pte ← touchPage hw pteAddr pte access
  return .page (pte &&& 0xffffffff) ptep 0x1000

/-- The walk without it. -/
def walkLegacy (hw : Board) (r : MmuRegs) (addr : Addr32) (access : Access) (mmu : MmuIdx) :
    Emu Walk := do
  let pdeAddr := entryAddr r (r.cr3 &&& ~~~ 0xfff) ((addr >>> 20) &&& 0xffc)
  let pde := (← ldlPhys hw pdeAddr).toUInt64
  if pde &&& pgPresentMask = 0 then return .fault 0
  if pde &&& pgPseMask ≠ 0 ∧ r.cr4 &&& cr4PseMask ≠ 0 then
    if r.refuses pde mmu access then return .fault 0x1
    let pde ← touchPage hw pdeAddr pde access
    let pte := pde &&& 0xffc00fff
    return .page pte pte 0x400000
  let pde ← touchTable hw pdeAddr pde
  let pteAddr := entryAddr r (pde.toUInt32 &&& ~~~ 0xfff) ((addr >>> 10) &&& 0xffc)
  let pte := (← ldlPhys hw pteAddr).toUInt64
  if pte &&& pgPresentMask = 0 then return .fault 0
  let ptep := pte &&& pde
  if r.refuses ptep mmu access then return .fault 0x1
  let pte ← touchPage hw pteAddr pte access
  return .page pte ptep 0x1000

/-- The walk that the registers ask for. -/
def walkTables (hw : Board) (r : MmuRegs) (addr : Addr32) (access : Access) (mmu : MmuIdx) :
    Emu Walk :=
  if r.cr4 &&& cr4PaeMask ≠ 0 then walkPae hw r addr access mmu
  else walkLegacy hw r addr access mmu

/-- The physical page that an entry maps an address to. Of a large page only the part around the
address is mapped. -/
def MmuRegs.pagePaddr (r : MmuRegs) (pte : Word32) (pageSize : Word32) (addr : Addr32) : Addr32 :=
  (pte &&& r.a20Mask &&& targetPageMask) + (addr &&& targetPageMask &&& (pageSize - 1))

/-- The error code of a page fault. -/
def MmuRegs.faultCode (r : MmuRegs) (errorCode : Word32) (access : Access) (mmu : MmuIdx) :
    Word32 :=
  errorCode ||| (if access.isWrite then 0x2 else 0) ||| (if mmu = .user then 0x4 else 0) |||
    (if access = .fetch ∧ r.efer &&& msrEferNxe ≠ 0 ∧ r.cr4 &&& cr4PaeMask ≠ 0 then 0x10 else 0)

/-- `cpu_x86_handle_mmu_fault`; whether there is a fault. -/
def cpuX86HandleMmuFault (hw : Board) (c : ℕ) (addr : Addr32) (access : Access) (mmu : MmuIdx) :
    Emu Bool := do
  let r := ((← get).cpus c).regs
  if r.cr0 &&& cr0PgMask = 0 then
    modify fun m => m.tlbSetPageExec hw c (addr &&& targetPageMask) (r.pagePaddr addr 0x1000 addr)
      ⟨true, true, true⟩ mmu
    return false
  match ← walkTables hw r addr access mmu with
  | .page pte ptep pageSize =>
      modify fun m => m.tlbSetPageExec hw c (addr &&& targetPageMask)
        (r.pagePaddr pte.toUInt32 pageSize addr) (r.protFor pte ptep mmu) mmu
      return false
  | .fault errorCode =>
      modify fun m => m.setCpu c fun cpu => { cpu with regs := { cpu.regs with
        cr2 := addr, errorCode := r.faultCode errorCode access mmu } }
      return true

/-- `tlb_fill`; the registers that `cpu_restore_state` restores are not modelled. -/
def tlbFill (hw : Board) (addr : Addr32) (access : Access) (mmu : MmuIdx) : Emu Unit := do
  match (← get).single with
  | none => throw .crash
  | some c =>
      if ← cpuX86HandleMmuFault hw c addr access mmu then throw .exception

/-! ### The walk of the debugger -/

/-- `cpu_get_phys_page_debug`; nothing for a result of minus one. -/
def cpuGetPhysPageDebug (hw : Board) (c : ℕ) (addr : Addr32) : Emu (Option Addr32) := do
  let r := ((← get).cpus c).regs
  let pageOf (pte pageSize : Word32) : Addr32 :=
    (pte &&& targetPageMask) + (addr &&& targetPageMask &&& (pageSize - 1))
  if r.cr4 &&& cr4PaeMask ≠ 0 then
    let pdpe ← ldlPhys hw (entryAddr r (r.cr3 &&& ~~~ 0x1f) ((addr >>> 27) &&& 0x18))
    if pdpe.toUInt64 &&& pgPresentMask = 0 then return none
    let pde ← ldlPhys hw (entryAddr r (pdpe &&& ~~~ 0xfff) (((addr >>> 21) &&& 0x1ff) <<< 3))
    if pde.toUInt64 &&& pgPresentMask = 0 then return none
    if pde.toUInt64 &&& pgPseMask ≠ 0 then
      return some (pageOf (pde &&& ~~~ (0x1fffff &&& ~~~ 0xfff)) 0x200000)
    let pte ← ldlPhys hw (entryAddr r (pde &&& ~~~ 0xfff) (((addr >>> 12) &&& 0x1ff) <<< 3))
    return some (pageOf pte 0x1000)
  if r.cr0 &&& cr0PgMask = 0 then return some (pageOf (addr &&& r.a20Mask) 0x1000)
  let pde ← ldlPhys hw (entryAddr r (r.cr3 &&& ~~~ 0xfff) ((addr >>> 20) &&& 0xffc))
  if pde.toUInt64 &&& pgPresentMask = 0 then return none
  if pde.toUInt64 &&& pgPseMask ≠ 0 ∧ r.cr4 &&& cr4PseMask ≠ 0 then
    return some (pageOf (pde &&& ~~~ 0x003ff000 &&& r.a20Mask) 0x400000)
  let pte ← ldlPhys hw (entryAddr r (pde &&& ~~~ 0xfff) ((addr >>> 10) &&& 0xffc))
  if pte.toUInt64 &&& pgPresentMask = 0 then return none
  return some (pageOf (pte &&& r.a20Mask) 0x1000)

/-- `cpu_memory_rw_debug`, reading: the bytes read before a page that is not mapped, and whether
there was none. -/
def cpuMemoryReadDebug (hw : Board) (c : ℕ) : ℕ → Addr32 → ℕ → Emu (List UInt8 × Bool)
  | _, _, 0 => pure ([], true)
  | 0, _, _ + 1 => throw .crash
  | k + 1, addr, len + 1 => do
      match ← cpuGetPhysPageDebug hw c (addr &&& targetPageMask) with
      | none => pure ([], false)
      | some physAddr =>
          let l := pageLeft addr (len + 1)
          let bytes ← cpuPhysicalMemoryRead hw l (physAddr + pageOffset addr) l
          let (rest, ok) ← cpuMemoryReadDebug hw c k (addr + UInt32.ofNat l) (len + 1 - l)
          pure (bytes ++ rest, ok)

end MemCheck
