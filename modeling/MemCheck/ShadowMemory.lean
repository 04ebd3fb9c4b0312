import Mathlib.Algebra.Group.Nat.Defs
import MemCheck.Lib.SearchTree

/-!
# The Shadow Memory

`ShadowMemory` (`ShadowMemory.h`, `ShadowMemory.cpp`) records every block the guest kernel
has obtained from one of its allocators. The record is a `std::map` keyed by intervals,
`MemoryAlloc`, under a comparator that calls `x` less than `y` when `x` ends at or before
the start of `y`; the sums are taken in 32-bit unsigned arithmetic.

This module translates the class: the key, its comparator, the four operations, and the
messages they print. An operation returns a `Call`: the value the source returns, the
shadow memory afterwards, the lines it printed, and the success flag of every re-insertion
whose result the source throws away. The map is a `SearchTree` and its rebalancing a
parameter `B`.
-/

namespace MemCheck

/-- `typedef unsigned int Addr32`. -/
abbrev Addr32 := UInt32

/-- `typedef unsigned int Word32`. -/
abbrev Word32 := UInt32

/-- The key of a recorded block: its address and its size in bytes. -/
structure MemoryAlloc where
  address : Addr32
  size : Word32
  deriving DecidableEq, Repr

/-- What is stored for a recorded block. The constructor of the source takes the size as
well and drops it. -/
structure MemoryAllocContents where
  type : ℤ
  deriving DecidableEq, Repr

/-- `MemoryAlloc::operator()`, the comparator of the map. -/
def MemoryAlloc.comp (x y : MemoryAlloc) : Bool :=
  if x.size ≠ 0 then
    x.address + x.size ≤ y.address
  else
    x.address + x.size < y.address

/-- The type of `m_MemoryMap`. -/
abbrev MemoryMap := SearchTree MemoryAlloc MemoryAllocContents

/-- The class `ShadowMemory`. -/
structure ShadowMemory where
  memoryMap : MemoryMap
  deriving DecidableEq, Repr

/-- The shadow memory a fresh `ShadowMemory` object holds. -/
def ShadowMemory.empty : ShadowMemory := ⟨SearchTree.nil⟩

/-- The lines the four operations print. -/
inductive Message where
  | allocationAlreadyExists (newAllocPtr newSize oldAllocPtr oldSize : Word32)
  | noAllocatedMemory (freePtr : Addr32)
  | freeMiddleOfAllocation (oldAllocPtr oldSize freePtr : Word32)
  | freeSizeMiddleOfAllocation (oldAllocPtr oldSize freePtr freeSize : Word32)
  | freeSizeNotEqual (freePtr allocSize freeSize : Word32)
  | truncatingAllocation
  deriving DecidableEq, Repr

/-- The `%x` conversion of `printf`. -/
def hex (n : Word32) : String := String.ofList (Nat.toDigits 16 n.toNat)

/-- The text of a printed line. -/
def Message.text : Message → String
  | allocationAlreadyExists newAllocPtr newSize oldAllocPtr oldSize =>
      "ERROR (Allocation already exists) newAllocPtr=" ++ hex newAllocPtr ++ ":" ++
        hex newSize ++ " oldAllocPtr=" ++ hex oldAllocPtr ++ ":" ++ hex oldSize ++ "\n"
  | noAllocatedMemory freePtr =>
      "ERROR (no allocated memory) freePtr=" ++ hex freePtr ++ "\n"
  | freeMiddleOfAllocation oldAllocPtr oldSize freePtr =>
      "ERROR (free middle of allocation) oldAllocPtr=" ++ hex oldAllocPtr ++ ":" ++
        hex oldSize ++ " freePtr=" ++ hex freePtr ++ "\n"
  | freeSizeMiddleOfAllocation oldAllocPtr oldSize freePtr freeSize =>
      "ERROR (free middle of allocation) oldAllocPtr=" ++ hex oldAllocPtr ++ ":" ++
        hex oldSize ++ " freePtr=" ++ hex freePtr ++ " freeSize=" ++ hex freeSize ++ "\n"
  | freeSizeNotEqual freePtr allocSize freeSize =>
      "ERROR (freeSize not equal to allocSize) freePtr=" ++ hex freePtr ++
        " alloc_size=" ++ hex allocSize ++ " free_size=" ++ hex freeSize ++ "\n"
  | truncatingAllocation => "Truncating allocation - maybe OK\n"

/-- What one call of an operation leaves behind: its return value, the shadow memory, the
lines printed, and the `.second` of each re-insertion made by a truncating or splitting
branch, in order. -/
structure Call where
  ret : ℤ
  shadow : ShadowMemory
  output : List Message
  reinserted : List Bool
  deriving DecidableEq, Repr

namespace ShadowMemory

/-- A balancer of the recorded map. -/
abbrev Balancer := SearchTree.Balancer MemoryAlloc MemoryAllocContents

variable (B : Balancer)

/-- `m_MemoryMap.find(MemoryAlloc(address, size))`. -/
def find (s : ShadowMemory) (address size : Word32) :
    Option (SearchTree.Iterator MemoryAlloc MemoryAllocContents) :=
  s.memoryMap.find MemoryAlloc.comp ⟨address, size⟩

/-- `m_MemoryMap.insert` of a fresh entry. -/
def insert (s : ShadowMemory) (type : ℤ) (address size : Word32) :
    SearchTree.Inserted MemoryAlloc MemoryAllocContents :=
  s.memoryMap.insert B MemoryAlloc.comp ⟨address, size⟩ ⟨type⟩

/-- `delete pos->second; m_MemoryMap.erase(pos)`. -/
def erase (s : ShadowMemory)
    (pos : SearchTree.Iterator MemoryAlloc MemoryAllocContents) : ShadowMemory :=
  ⟨s.memoryMap.erase B pos⟩

/-- `ShadowMemory::NewMemoryAlloc`. -/
def newMemoryAlloc (s : ShadowMemory) (type : ℤ) (allocPtr size : Word32) : Call :=
  let p := s.insert B type allocPtr size
  match p.existing with
  | some old =>
      ⟨1, ⟨p.tree⟩,
        [.allocationAlreadyExists allocPtr size old.first.address old.first.size], []⟩
  | none => ⟨0, ⟨p.tree⟩, [], []⟩

/-- `ShadowMemory::FreeMemory`. The source takes a type and does not use it. -/
def freeMemory (s : ShadowMemory) (_type : ℤ) (freePtr : Addr32) : Call :=
  if freePtr = 0 then
    ⟨0, s, [], []⟩
  else
    match s.find freePtr 0 with
    | none => ⟨1, s, [.noAllocatedMemory freePtr], []⟩
    | some pos =>
        if pos.first.address = freePtr then
          ⟨0, s.erase B pos, [], []⟩
        else
          ⟨1, s, [.freeMiddleOfAllocation pos.first.address pos.first.size freePtr], []⟩

/-- `ShadowMemory::FreeSizeMemory`. -/
def freeSizeMemory (s : ShadowMemory) (type : ℤ) (freePtr size : Word32) : Call :=
  if freePtr = 0 then
    ⟨0, s, [], []⟩
  else
    match s.find freePtr 0 with
    | none => ⟨1, s, [.noAllocatedMemory freePtr], []⟩
    | some pos =>
        if pos.first.address = freePtr then
          if pos.first.size ≠ size then
            if size < pos.first.size then
              let newSize := pos.first.size - size
              let newAddress := pos.first.address + size
              let p := (s.erase B pos).insert B type newAddress newSize
              ⟨1, ⟨p.tree⟩, [.freeSizeNotEqual freePtr pos.first.size size,
                .truncatingAllocation], [p.second]⟩
            else
              ⟨1, s, [.freeSizeNotEqual freePtr pos.first.size size], []⟩
          else
            ⟨0, s.erase B pos, [], []⟩
        else
          ⟨1, s, [.freeSizeMiddleOfAllocation pos.first.address pos.first.size freePtr size],
            []⟩

/-- `ShadowMemory::FreeAnySizeMemory`. -/
def freeAnySizeMemory (s : ShadowMemory) (type : ℤ) (freePtr size : Word32) : Call :=
  if freePtr = 0 then
    ⟨0, s, [], []⟩
  else
    match s.find freePtr 0 with
    | none => ⟨1, s, [.noAllocatedMemory freePtr], []⟩
    | some pos =>
        if pos.first.address = freePtr then
          if pos.first.size ≠ size ∧ size < pos.first.size then
            let newSize := pos.first.size - size
            let newAddress := pos.first.address + size
            let p := (s.erase B pos).insert B type newAddress newSize
            ⟨0, ⟨p.tree⟩, [], [p.second]⟩
          else
            -- an equal size, or a larger one, which the source lets fall through
            ⟨0, s.erase B pos, [], []⟩
        else
          let oldSize := pos.first.size
          let oldAddress := pos.first.address
          -- the chunk at the beginning
          let p := (s.erase B pos).insert B type oldAddress (freePtr - oldAddress)
          -- the tail
          if freePtr + size ≠ oldAddress + oldSize then
            let p' := (⟨p.tree⟩ : ShadowMemory).insert B type (freePtr + size)
              (oldAddress + oldSize - (freePtr + size))
            ⟨0, ⟨p'.tree⟩, [], [p.second, p'.second]⟩
          else
            ⟨0, ⟨p.tree⟩, [], [p.second]⟩

end ShadowMemory

/-! ### Calls as data -/

/-- One call of one of the four operations. -/
inductive Op where
  | newMemoryAlloc (type : ℤ) (allocPtr size : Word32)
  | freeMemory (type : ℤ) (freePtr : Addr32)
  | freeSizeMemory (type : ℤ) (freePtr size : Word32)
  | freeAnySizeMemory (type : ℤ) (freePtr size : Word32)
  deriving DecidableEq, Repr

/-- Perform the call. -/
def Op.perform (B : ShadowMemory.Balancer) (s : ShadowMemory) : Op → Call
  | newMemoryAlloc type p n => s.newMemoryAlloc B type p n
  | freeMemory type p => s.freeMemory B type p
  | freeSizeMemory type p n => s.freeSizeMemory B type p n
  | freeAnySizeMemory type p n => s.freeAnySizeMemory B type p n

end MemCheck
