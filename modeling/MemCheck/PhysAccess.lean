import MemCheck.GuestMemory

/-!
# Accesses by Physical Address

Devices, and the MMU of the guest, access memory by its physical address. `ldl_phys` and its like
read and write a word, and `cpu_physical_memory_rw` copies a buffer, page by page, and to and from
devices in the widest accesses that are aligned. A write to memory invalidates the code translated
from it, unless the flags of the page say that there is none; `stl_phys_notdirty` does not.
-/

namespace MemCheck

/-! ### Devices -/

/-- Call a function of `io_mem_read`. -/
def ioMemRead (hw : Board) (index : Word32) (shift : ℕ) (addr : Addr32) : Emu Word32 :=
  modifyGet fun m =>
    (hw.ioMemRead m.io index shift addr, { m with io := m.io ++ [.read index shift addr] })

/-- Call a function of `io_mem_write`, but for those of `IO_MEM_NOTDIRTY`. -/
def ioMemWrite (index : Word32) (shift : ℕ) (addr : Addr32) (val : Word32) : Emu Unit :=
  modify fun m => { m with io := m.io ++ [.write index shift addr val] }

/-! ### Words -/

/-- Where a byte of a page of memory lies: `(pd & TARGET_PAGE_MASK) + (addr &
~TARGET_PAGE_MASK)`. -/
def ramAddr (pd : Word32) (addr : Addr32) : Addr32 := (pd &&& targetPageMask) + pageOffset addr

/-- `ldl_phys`. -/
def ldlPhys (hw : Board) (addr : Addr32) : Emu Word32 := do
  let pd := hw.physOffset addr
  if IsIo pd then ioMemRead hw (ioIndex pd) 2 addr
  else
    let m ← get
    pure (UInt32.ofNat (ldRaw m.ram (ramAddr pd addr) 4))

/-- `ldq_phys`. -/
def ldqPhys (hw : Board) (addr : Addr32) : Emu UInt64 := do
  let pd := hw.physOffset addr
  if IsIo pd then
    let low ← ioMemRead hw (ioIndex pd) 2 addr
    let high ← ioMemRead hw (ioIndex pd) 2 (addr + 4)
    pure (low.toUInt64 ||| (high.toUInt64 <<< 32))
  else
    let m ← get
    pure (UInt64.ofNat (ldRaw m.ram (ramAddr pd addr) 8))

/-- `stl_phys_notdirty`. -/
def stlPhysNotdirty (hw : Board) (addr : Addr32) (val : Word32) : Emu Unit := do
  let pd := hw.physOffset addr
  if pageOffset pd ≠ ioMemRam then ioMemWrite (ioIndex pd) 2 addr val
  else modify fun m => { m with
    ram := stRaw m.ram (ramAddr pd addr) 4 val.toNat
    unseen := ramAddr pd addr :: m.unseen }

/-! ### Writes that invalidate code -/

/-- `tb_invalidate_phys_page_range`, on the processor `cpu_single_env`; the block that is executed
if it has to be left. -/
def invalidateRange (start stop : Addr32) (isCpuWriteAccess : Bool) : Emu (Option TbPtr) := do
  let m ← get
  match m.cache.tbInvalidatePhysPageRange m.dirty (m.single.map fun c => (m.cpus c).env) start
      stop isCpuWriteAccess with
  | none => throw .crash
  | some r =>
      set (m.put r)
      pure r.modified

/-- A write of memory by a device: the code is invalidated after the bytes have been copied. -/
def writeRam (addr1 : Addr32) (bytes : List UInt8) : Emu Unit := do
  modify fun m => { m with ram := Bytes.writeBytes m.ram addr1 bytes }
  let m ← get
  if m.isDirty addr1 = false then
    let _ ← invalidateRange addr1 (addr1 + UInt32.ofNat bytes.length) false
    modify (·.setDirtyFlags addr1)

/-- `stl_phys`. -/
def stlPhys (hw : Board) (addr : Addr32) (val : Word32) : Emu Unit := do
  let pd := hw.physOffset addr
  if pageOffset pd ≠ ioMemRam then ioMemWrite (ioIndex pd) 2 addr val
  else writeRam (ramAddr pd addr) (Bytes.leBytes 4 val.toNat)

/-! ### Buffers -/

/-- The size of an access to a device, as a power of two, with `l` bytes left. -/
def ioShift (addr : Addr32) (l : ℕ) : ℕ :=
  if 4 ≤ l ∧ addr &&& 3 = 0 then 2 else if 2 ≤ l ∧ addr &&& 1 = 0 then 1 else 0

/-- How much of a buffer lies on the page of an address. -/
def pageLeft (addr : Addr32) (len : ℕ) : ℕ :=
  let l := ((addr &&& targetPageMask) + targetPageSize - addr).toNat
  if l > len then len else l

/-- `cpu_physical_memory_rw`, reading; the first argument bounds the number of rounds. -/
def cpuPhysicalMemoryRead (hw : Board) : ℕ → Addr32 → ℕ → Emu (List UInt8)
  | _, _, 0 => pure []
  | 0, _, _ + 1 => throw .crash
  | k + 1, addr, len + 1 => do
      let l := pageLeft addr (len + 1)
      let pd := hw.physOffset (addr &&& targetPageMask)
      let bytes ← if IsIo pd then do
          let shift := ioShift addr l
          let val ← ioMemRead hw (ioIndex pd) shift addr
          pure (Bytes.leBytes (2 ^ shift) val.toNat)
        else do
          let m ← get
          pure (Bytes.readBytes m.ram (ramAddr pd addr) l)
      let rest ← cpuPhysicalMemoryRead hw k (addr + UInt32.ofNat bytes.length)
        (len + 1 - bytes.length)
      pure (bytes ++ rest)

/-- `cpu_physical_memory_rw`, writing. -/
def cpuPhysicalMemoryWrite (hw : Board) : ℕ → Addr32 → List UInt8 → Emu Unit
  | _, _, [] => pure ()
  | 0, _, _ :: _ => throw .crash
  | k + 1, addr, b :: buf => do
      let l := pageLeft addr (b :: buf).length
      let pd := hw.physOffset (addr &&& targetPageMask)
      if pageOffset pd ≠ ioMemRam then
        let n := 2 ^ ioShift addr l
        ioMemWrite (ioIndex pd) (ioShift addr l) addr
          (UInt32.ofNat (Bytes.leNat ((b :: buf).take n)))
        cpuPhysicalMemoryWrite hw k (addr + UInt32.ofNat n) ((b :: buf).drop n)
      else
        writeRam (ramAddr pd addr) ((b :: buf).take l)
        cpuPhysicalMemoryWrite hw k (addr + UInt32.ofNat l) ((b :: buf).drop l)

end MemCheck
