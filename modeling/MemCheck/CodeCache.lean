import MemCheck.Dispatch
import MemCheck.Lib.LinkedCells

/-!
# The Cache of Translated Blocks

`exec.c` keeps the blocks that have been translated in an array `tbs`. A block is linked into
up to seven intrusive lists: a chain of the hash table of physical addresses, a list for each
of the one or two pages its guest code lies on, and for each of its two jumps the circular
list of the jumps to the block it has been chained to. The pointers of the page lists carry
in their low bits which of the two links of a block the list goes on with, and those of the
circular lists also whether the end has been reached.

This module translates the array, the lists, and the functions that link, chain and invalidate
blocks. A pointer to a block is its index in `tbs`; a tagged pointer is a pair, or a constructor
for each tag. The fields that link blocks are kept as cells beside the array, one memory for
each kind of list, so that a pointer to a pointer is a cell. The loops that walk a list are
bounded by the number of links there are, and yield nothing where the source would follow a
null pointer or never end. The statistics and the locks, which are empty for system emulation,
are left out.
-/

namespace MemCheck

/-! ### Pages -/

/-- `TARGET_PAGE_BITS`. -/
def targetPageBits : Word32 := 12

/-- The offset of an address in its page: `addr & ~TARGET_PAGE_MASK`. -/
def pageOffset (addr : Addr32) : Word32 := addr &&& ~~~ targetPageMask

/-- The page an address is on: `addr >> TARGET_PAGE_BITS`. -/
def pageIndex (addr : Addr32) : Word32 := addr >>> targetPageBits

/-- The address `-1`, which stands for no page. -/
def noPage : Addr32 := 0xffffffff

/-! ### Blocks and pages -/

/-- An index of the arrays of two: of the pages of a block, and of its jumps. -/
inductive Slot where
  | zero
  | one
  deriving DecidableEq, Repr

/-- A pointer to a block of `tbs`. -/
abbrev TbPtr := ℕ

/-- A pointer of a page list: a block, and which of its links the list goes on with. -/
abbrev PagePtr := TbPtr × Slot

/-- A pointer of a circular list of jumps: the tags 0 and 1 say which jump of a block the list
goes on with, and the tag 2 that this is the block the jumps lead to. -/
inductive JmpPtr where
  | jmpNext (tb : TbPtr) (n : Slot)
  | jmpFirst (tb : TbPtr)
  deriving DecidableEq, Repr

/-- `struct TranslationBlock` (`exec-all.h`) as the cache sees it, but for the links and the
targets of the jumps. The address of the translated code is its offset in `code_gen_buffer`. -/
structure TbEntry where
  pc : Addr32
  csBase : Addr32
  flags : UInt64
  size : UInt16
  cflags : UInt16
  tcPtr : ℕ
  pageAddr : Slot → Addr32
  tbNextOffset : Slot → UInt16

/-- `CF_SINGLE_INSN`. -/
def cfSingleInsn : UInt16 := 8

/-- `struct PageDesc`. The bitmap has a bit for each byte of the page. -/
structure PageDesc where
  firstTb : Option PagePtr
  codeWriteCount : UInt32
  codeBitmap : Option (ℕ → UInt8)

/-- A page descriptor filled with zeros. -/
def PageDesc.zero : PageDesc := ⟨none, 0, none⟩

/-- `invalidate_page_bitmap`. -/
def PageDesc.invalidatePageBitmap (p : PageDesc) : PageDesc :=
  { p with codeBitmap := none, codeWriteCount := 0 }

/-- `tb_phys_hash_func`. -/
def tbPhysHashFunc (pc : Addr32) : Word32 := pc &&& 0x7fff

/-- The physical address of the code of a block:
`tb->page_addr[0] + (tb->pc & ~TARGET_PAGE_MASK)`. -/
def TbEntry.physPc (e : TbEntry) : Addr32 := e.pageAddr .zero + pageOffset e.pc

/-- The cells of the chains of the hash table: `tb_phys_hash` and the fields
`phys_hash_next`. -/
inductive HashCell where
  | bucket (h : Word32)
  | physHashNext (tb : TbPtr)
  deriving DecidableEq

/-- The cells of the page lists: the fields `first_tb` of the pages and `page_next` of the
blocks. -/
inductive PageCell where
  | firstTb (index : Word32)
  | pageNext (x : PagePtr)
  deriving DecidableEq

/-- The state of the cache. The fields `jmp_next` and `jmp_first` are `jmpCells`, and `tbNext`
is where the jumps go. There is a table `tb_jmp_cache` for each processor. -/
structure CodeCache where
  tbs : TbPtr → TbEntry
  nbTbs : ℕ
  hashCells : HashCell → Option TbPtr
  pageNext : PagePtr → Option PagePtr
  l1Map : Word32 → Option (Word32 → PageDesc)
  jmpCells : JmpPtr → Option JmpPtr
  tbNext : TbPtr × Slot → ℕ
  codeGenPtr : ℕ
  tbJmpCache : List (Word32 → Option TbPtr)
  tbInvalidatedFlag : Bool

namespace CodeCache

/-! ### Reading and writing -/

/-- Change a block. -/
def setTb (s : CodeCache) (tb : TbPtr) (f : TbEntry → TbEntry) : CodeCache :=
  { s with tbs := Function.update s.tbs tb (f (s.tbs tb)) }

/-- `page_find`. -/
def pageFind (s : CodeCache) (index : Word32) : Option PageDesc :=
  (s.l1Map (index >>> 10)).map fun p => p (index &&& 0x3ff)

/-- The allocation in `page_find_alloc`. -/
def pageFindAlloc (s : CodeCache) (index : Word32) : CodeCache :=
  { s with
    l1Map := match s.l1Map (index >>> 10) with
      | some _ => s.l1Map
      | none => Function.update s.l1Map (index >>> 10) (some fun _ => PageDesc.zero) }

/-- Change the descriptor of a page that has one. -/
def setPage (s : CodeCache) (index : Word32) (f : PageDesc → PageDesc) : CodeCache :=
  { s with
    l1Map := Function.update s.l1Map (index >>> 10) <|
      (s.l1Map (index >>> 10)).map fun p =>
        Function.update p (index &&& 0x3ff) (f (p (index &&& 0x3ff))) }

/-- Write a cell of the hash table. -/
def writeHash (s : CodeCache) (c : HashCell) (v : Option TbPtr) : CodeCache :=
  { s with hashCells := Function.update s.hashCells c v }

/-- What a cell of the page lists holds. -/
def readPage (s : CodeCache) : PageCell → Option PagePtr
  | .firstTb index => (s.pageFind index).bind PageDesc.firstTb
  | .pageNext x => s.pageNext x

/-- Write a cell of the page lists. -/
def writePage (s : CodeCache) (c : PageCell) (v : Option PagePtr) : CodeCache :=
  match c with
  | .firstTb index => s.setPage index fun p => { p with firstTb := v }
  | .pageNext x => { s with pageNext := Function.update s.pageNext x v }

/-- Write a cell of the circular lists. -/
def writeJmp (s : CodeCache) (c : JmpPtr) (v : Option JmpPtr) : CodeCache :=
  { s with jmpCells := Function.update s.jmpCells c v }

/-- No list is longer than this. -/
def walkBound (s : CodeCache) : ℕ := 3 * s.nbTbs + 1

/-! ### Taking blocks out of lists -/

/-- `tb_remove`, for the chains of the hash table. -/
def tbRemove (s : CodeCache) (ptb : HashCell) (tb : TbPtr) : Option CodeCache :=
  (LinkedCells.find s.hashCells .physHashNext (fun tb1 => tb1 == tb) s.walkBound ptb).map
    fun (ptb, tb1) => s.writeHash ptb (s.hashCells (.physHashNext tb1))

/-- `tb_page_remove`: the first link of the block, whatever its tag. -/
def tbPageRemove (s : CodeCache) (ptb : PageCell) (tb : TbPtr) : Option CodeCache :=
  (LinkedCells.find s.readPage .pageNext (fun x => x.1 == tb) s.walkBound ptb).map
    fun (ptb, x) => s.writePage ptb (s.readPage (.pageNext x))

/-- `tb_jmp_remove`. -/
def tbJmpRemove (s : CodeCache) (tb : TbPtr) (n : Slot) : Option CodeCache :=
  match s.jmpCells (.jmpNext tb n) with
  | none => some s
  | some _ =>
      (LinkedCells.find s.jmpCells id (fun x => x == .jmpNext tb n) s.walkBound
        (.jmpNext tb n)).map fun (ptb, _) =>
          (s.writeJmp ptb (s.jmpCells (.jmpNext tb n))).writeJmp (.jmpNext tb n) none

/-! ### Jumps -/

/-- `tb_set_jmp_target`, without `USE_DIRECT_JUMP`. -/
def tbSetJmpTarget (s : CodeCache) (tb : TbPtr) (n : Slot) (addr : ℕ) : CodeCache :=
  { s with tbNext := Function.update s.tbNext (tb, n) addr }

/-- `tb_reset_jump`. -/
def tbResetJump (s : CodeCache) (tb : TbPtr) (n : Slot) : CodeCache :=
  s.tbSetJmpTarget tb n ((s.tbs tb).tcPtr + ((s.tbs tb).tbNextOffset n).toNat)

/-- `tb_add_jump`. -/
def tbAddJump (s : CodeCache) (tb : TbPtr) (n : Slot) (tbNext : TbPtr) : CodeCache :=
  match s.jmpCells (.jmpNext tb n) with
  | some _ => s
  | none =>
      ((s.tbSetJmpTarget tb n (s.tbs tbNext).tcPtr).writeJmp (.jmpNext tb n)
        (s.jmpCells (.jmpFirst tbNext))).writeJmp (.jmpFirst tbNext) (some (.jmpNext tb n))

/-- The loop of `tb_phys_invalidate` that suppresses the jumps to a block. -/
def resetJumpsTo : ℕ → Option JmpPtr → CodeCache → Option CodeCache
  | 0, _, _ => none
  | _ + 1, none, _ => none
  | _ + 1, some (.jmpFirst _), s => some s
  | k + 1, some (.jmpNext tb1 n1), s =>
      resetJumpsTo k (s.jmpCells (.jmpNext tb1 n1))
        ((s.tbResetJump tb1 n1).writeJmp (.jmpNext tb1 n1) none)

/-- The head of the circular list that a pointer belongs to. -/
def listHead (s : CodeCache) : ℕ → Option JmpPtr → Option TbPtr
  | 0, _ => none
  | _ + 1, none => none
  | _ + 1, some (.jmpFirst tb) => some tb
  | k + 1, some (.jmpNext tb n) => listHead s k (s.jmpCells (.jmpNext tb n))

/-- The part of `tb_reset_jump_recursive2` that unchains a jump: the state afterwards, and the
block it led to, if it was chained. -/
def unchain (s : CodeCache) (tb : TbPtr) (n : Slot) : Option (CodeCache × Option TbPtr) :=
  match s.jmpCells (.jmpNext tb n) with
  | none => some (s, none)
  | some tb1 => do
      let tbNext ← s.listHead s.walkBound (some tb1)
      let (ptb, _) ← LinkedCells.find s.jmpCells id (fun x => x == .jmpNext tb n) s.walkBound
        (.jmpFirst tbNext)
      let s := s.writeJmp ptb (s.jmpCells (.jmpNext tb n))
      let s := s.writeJmp (.jmpNext tb n) none
      some (s.tbResetJump tb n, some tbNext)

/-- `tb_reset_jump_recursive2`, with the recursive call as a parameter. -/
def tbResetJumpRecursive2 (reset : CodeCache → TbPtr → Option CodeCache) (s : CodeCache)
    (tb : TbPtr) (n : Slot) : Option CodeCache := do
  let (s, tbNext) ← s.unchain tb n
  match tbNext with
  | none => some s
  | some tbNext => reset s tbNext

/-- `tb_reset_jump_recursive`; the first argument bounds the depth of the recursion. -/
def tbResetJumpRecursive : ℕ → CodeCache → TbPtr → Option CodeCache
  | 0, _, _ => none
  | k + 1, s, tb => do
      let s ← s.tbResetJumpRecursive2 (tbResetJumpRecursive k) tb .zero
      s.tbResetJumpRecursive2 (tbResetJumpRecursive k) tb .one

/-- How deep `tb_reset_jump_recursive` can get. -/
def depthBound (s : CodeCache) : ℕ := 2 * s.nbTbs + 1

/-! ### Invalidating a block -/

/-- Take a block out of the list of a page and forget the bitmap of the page. -/
def removeFromPage (s : CodeCache) (tb : TbPtr) (addr : Addr32) : Option CodeCache :=
  match s.pageFind (pageIndex addr) with
  | none => none
  | some _ =>
      (s.tbPageRemove (.firstTb (pageIndex addr)) tb).map fun s =>
        s.setPage (pageIndex addr) PageDesc.invalidatePageBitmap

/-- The part of `tb_phys_invalidate` that takes a block out of its page lists. -/
def removeFromPages (s : CodeCache) (tb : TbPtr) (pageAddr : Addr32) : Option CodeCache := do
  let s ← if (s.tbs tb).pageAddr .zero ≠ pageAddr then
      s.removeFromPage tb ((s.tbs tb).pageAddr .zero)
    else some s
  if (s.tbs tb).pageAddr .one ≠ noPage ∧ (s.tbs tb).pageAddr .one ≠ pageAddr then
    s.removeFromPage tb ((s.tbs tb).pageAddr .one)
  else some s

/-- The part that takes it out of the tables of the processors. -/
def removeFromJmpCache (s : CodeCache) (tb : TbPtr) : CodeCache :=
  let h := tbJmpCacheHashFunc (s.tbs tb).pc
  { s with
    tbInvalidatedFlag := true
    tbJmpCache := s.tbJmpCache.map fun cache =>
      if cache h = some tb then Function.update cache h none else cache }

/-- The part that takes out its jumps, and the jumps to it. -/
def removeJumps (s : CodeCache) (tb : TbPtr) : Option CodeCache := do
  let s ← s.tbJmpRemove tb .zero
  let s ← s.tbJmpRemove tb .one
  let s ← resetJumpsTo s.walkBound (s.jmpCells (.jmpFirst tb)) s
  some (s.writeJmp (.jmpFirst tb) (some (.jmpFirst tb)))

/-- `tb_phys_invalidate`. -/
def tbPhysInvalidate (s : CodeCache) (tb : TbPtr) (pageAddr : Addr32) : Option CodeCache := do
  let s ← s.tbRemove (.bucket (tbPhysHashFunc (s.tbs tb).physPc)) tb
  let s ← s.removeFromPages tb pageAddr
  (s.removeFromJmpCache tb).removeJumps tb

/-! ### New blocks -/

/-- `tb_alloc_page`, without the call of `tlb_protect_code`. -/
def tbAllocPage (s : CodeCache) (tb : TbPtr) (n : Slot) (pageAddr : Addr32) : CodeCache :=
  let s := s.setTb tb fun e => { e with pageAddr := Function.update e.pageAddr n pageAddr }
  let s := s.pageFindAlloc (pageIndex pageAddr)
  let s := s.writePage (.pageNext (tb, n)) (s.readPage (.firstTb (pageIndex pageAddr)))
  let s := s.writePage (.firstTb (pageIndex pageAddr)) (some (tb, n))
  s.setPage (pageIndex pageAddr) PageDesc.invalidatePageBitmap

/-- `CODE_GEN_MAX_BLOCKS`. -/
def codeGenMaxBlocks : ℕ := 131072

/-- `tb_alloc`. The size of the buffer that may be used, `CODE_GEN_BUFFER_MAX_SIZE`, depends on
the longest translation of an operation. -/
def tbAlloc (s : CodeCache) (codeGenBufferMaxSize : ℕ) (pc : Addr32) :
    Option (TbPtr × CodeCache) :=
  if codeGenMaxBlocks ≤ s.nbTbs ∨ codeGenBufferMaxSize ≤ s.codeGenPtr then none
  else
    some (s.nbTbs,
      { s with nbTbs := s.nbTbs + 1 }.setTb s.nbTbs fun e => { e with pc := pc, cflags := 0 })

/-- `tb_link_phys`, up to the jumps. -/
def enter (s : CodeCache) (tb : TbPtr) (physPc physPage2 : Addr32) : CodeCache :=
  let h := tbPhysHashFunc physPc
  let s := s.writeHash (.physHashNext tb) (s.hashCells (.bucket h))
  let s := s.writeHash (.bucket h) (some tb)
  let s := s.tbAllocPage tb .zero (physPc &&& targetPageMask)
  if physPage2 ≠ noPage then s.tbAllocPage tb .one physPage2
  else s.setTb tb fun e => { e with pageAddr := Function.update e.pageAddr .one noPage }

/-- The original jump address of a block that has one. -/
def initJump (s : CodeCache) (tb : TbPtr) (n : Slot) : CodeCache :=
  if (s.tbs tb).tbNextOffset n ≠ 0xffff then s.tbResetJump tb n else s

/-- `tb_link_phys`. -/
def tbLinkPhys (s : CodeCache) (tb : TbPtr) (physPc physPage2 : Addr32) : CodeCache :=
  let s := s.enter tb physPc physPage2
  let s := s.writeJmp (.jmpFirst tb) (some (.jmpFirst tb))
  let s := s.writeJmp (.jmpNext tb .zero) none
  let s := s.writeJmp (.jmpNext tb .one) none
  (s.initJump tb .zero).initJump tb .one

/-- `page_flush_tb`. -/
def pageFlushTb (s : CodeCache) : CodeCache :=
  { s with
    l1Map := fun i => (s.l1Map i).map fun p j =>
      { p j with firstTb := none }.invalidatePageBitmap }

/-- `tb_flush`. -/
def tbFlush (s : CodeCache) : CodeCache :=
  { s with
    nbTbs := 0
    tbJmpCache := s.tbJmpCache.map fun _ _ => none
    hashCells := fun
      | .bucket _ => none
      | .physHashNext tb => s.hashCells (.physHashNext tb)
    codeGenPtr := 0 }.pageFlushTb

end CodeCache

end MemCheck
