import MemCheck.CodeBitmap
import MemCheck.Unchaining

/-!
# Writes to Translated Code

`tb_invalidate_phys_page_range` invalidates the blocks that a write of a part of a page hits. It
walks the list of the page, reading the link behind a block before the block is taken out. When
the write comes from translated code it also finds the block that is being executed, by a binary
search for the return address, since that block has to be left if it has changed itself.
`tb_invalidate_phys_page_fast` asks the bitmap of the page first.

A block whose two parts lie on one physical page is in the list of that page twice. If a write
hits both parts the block is invalidated twice, and the second time its chain of the hash table
ends before it is found: the source follows a null pointer.

## Main results

* `tbFindPc_of_within`: the search finds the block an address lies in;
* `Shape.tbInvalidatePhysPageRange`: the blocks that are hit are invalidated, and no others;
* `range_invalidation_returns_iff`: a block hit in both parts is fatal, and nothing else is;
* `Shape.tbInvalidatePhysPageFast`: the bitmap makes no difference.
-/

namespace MemCheck

open LinkedCells (Path Leads Lists)

/-! ### The functions -/

/-- The fields of `CPUState` that are used below. A return address is its offset from the
beginning of `code_gen_buffer`; there is none if `mem_write_pc` is zero. -/
structure CpuEnv where
  currentTb : Option TbPtr
  memWritePc : Option ℤ
  interruptRequest : UInt32

/-- `CODE_DIRTY_FLAG`. -/
def codeDirtyFlag : UInt8 := 2

/-- `SMC_BITMAP_USE_THRESHOLD`. -/
def smcBitmapUseThreshold : UInt32 := 10

/-- `tlb_unprotect_code_phys`. -/
def tlbUnprotectCodePhys (dirty : Word32 → UInt8) (ramAddr : Addr32) : Word32 → UInt8 :=
  Function.update dirty (pageIndex ramAddr) (dirty (pageIndex ramAddr) ||| codeDirtyFlag)

/-- The addresses of the first byte of a part of a block and of the byte after it. -/
def TbEntry.physRange (e : TbEntry) : Slot → Addr32 × Addr32
  | .zero =>
      let tbStart := e.pageAddr .zero + pageOffset e.pc
      (tbStart, tbStart + e.size.toUInt32)
  | .one =>
      let tbStart := e.pageAddr .one
      (tbStart, tbStart + pageOffset (e.pc + e.size.toUInt32))

/-- The test whether a write hits a part of a block. -/
def TbEntry.Hit (e : TbEntry) (n : Slot) (start stop : Addr32) : Prop :=
  ¬ ((e.physRange n).2 ≤ start ∨ (e.physRange n).1 ≥ stop)

instance (e : TbEntry) (n : Slot) (start stop : Addr32) : Decidable (e.Hit n start stop) :=
  inferInstanceAs (Decidable (¬ _))

namespace CodeCache

/-- The loop of `tb_find_pc`. -/
def tbFindPcLoop (s : CodeCache) (tcPtr : ℤ) : ℕ → ℤ → ℤ → Option ℤ
  | 0, _, _ => none
  | k + 1, mMin, mMax =>
      if mMin ≤ mMax then
        let m := (mMin + mMax) >>> (1 : ℕ)
        let v : ℤ := (s.tbs m.toNat).tcPtr
        if v = tcPtr then some m
        else if tcPtr < v then tbFindPcLoop s tcPtr k mMin (m - 1)
        else tbFindPcLoop s tcPtr k (m + 1) mMax
      else some mMax

/-- `tb_find_pc`. The pointer before the array is no block. -/
def tbFindPc (s : CodeCache) (tcPtr : ℤ) : Option TbPtr :=
  if s.nbTbs ≤ 0 then none
  else if tcPtr < 0 ∨ tcPtr ≥ s.codeGenPtr then none
  else
    (s.tbFindPcLoop tcPtr (s.nbTbs + 1) 0 (s.nbTbs - 1)).bind fun m =>
      if 0 ≤ m then some m.toNat else none

/-- `cpu_interrupt`, when its lock is free. -/
def cpuInterrupt (s : CodeCache) (env : CpuEnv) (mask : UInt32) : Option (CodeCache × CpuEnv) :=
  let env := { env with interruptRequest := env.interruptRequest ||| mask }
  match env.currentTb with
  | none => some (s, env)
  | some tb =>
      (tbResetJumpRecursive s.depthBound s tb).map fun s => (s, { env with currentTb := none })

/-- The beginning of `tb_invalidate_phys_page_range`: after enough writes a page gets a
bitmap. -/
def countWrite (s : CodeCache) (index : Word32) (p : PageDesc) (isCpuWriteAccess : Bool) :
    Option CodeCache :=
  match p.codeBitmap with
  | some _ => some s
  | none =>
      let s := s.setPage index fun p => { p with codeWriteCount := p.codeWriteCount + 1 }
      if p.codeWriteCount + 1 ≥ smcBitmapUseThreshold ∧ isCpuWriteAccess then
        s.buildPageBitmap index
      else some s

end CodeCache

/-- The variables of the loop of `tb_invalidate_phys_page_range`. -/
structure RangeState where
  cache : CodeCache
  env : Option CpuEnv
  currentTbNotFound : Bool
  currentTb : Option TbPtr
  currentTbModified : Bool

namespace RangeState

/-- Look up the block that is executed, the first time that code is hit. There is no processor to
ask where `cpu_single_env` is null. -/
def findCurrentTb (r : RangeState) : Option RangeState :=
  if r.currentTbNotFound then
    r.env.map fun env =>
      { r with currentTbNotFound := false, currentTb := env.memWritePc.bind r.cache.tbFindPc }
  else some r

/-- Note that the block that is executed has changed. Its state has to be restored. -/
def checkModified (r : RangeState) (tb : TbPtr) : RangeState :=
  if r.currentTb = some tb ∧ (r.cache.tbs tb).cflags &&& cfSingleInsn = 0 then
    { r with currentTbModified := true }
  else r

/-- Invalidate a block; an interrupt that came in the meantime is passed on. -/
def invalidate (r : RangeState) (tb : TbPtr) : Option RangeState := do
  let cache ← r.cache.tbPhysInvalidate tb noPage
  match r.env with
  | none => some { r with cache := cache }
  | some env =>
      if env.interruptRequest ≠ 0 ∧ env.currentTb.isSome then do
        let (cache, env) ← cache.cpuInterrupt env env.interruptRequest
        some { r with cache := cache, env := some env }
      else some { r with cache := cache }

/-- One round of the loop. -/
def step (r : RangeState) (start stop : Addr32) (x : PagePtr) : Option RangeState :=
  if (r.cache.tbs x.1).Hit x.2 start stop then do
    let r ← r.findCurrentTb
    (r.checkModified x.1).invalidate x.1
  else some r

/-- The loop of `tb_invalidate_phys_page_range`. -/
def loop (start stop : Addr32) : ℕ → Option PagePtr → RangeState → Option RangeState
  | 0, _, _ => none
  | _ + 1, none, r => some r
  | k + 1, some x, r => do
      let tbNext := r.cache.pageNext x
      let r ← r.step start stop x
      loop start stop k tbNext r

end RangeState

/-- What `tb_invalidate_phys_page_range` leaves, and the block that is executed if it has to be
translated again. -/
structure RangeResult where
  cache : CodeCache
  dirty : Word32 → UInt8
  env : Option CpuEnv
  modified : Option TbPtr

/-- The end of `tb_invalidate_phys_page_range`: a page without code need no longer be watched. -/
def RangeState.finish (r : RangeState) (dirty : Word32 → UInt8) (start : Addr32)
    (isCpuWriteAccess : Bool) : RangeResult :=
  let index := pageIndex start
  let modified := if r.currentTbModified then r.currentTb else none
  if r.cache.readPage (.firstTb index) = none then
    ⟨r.cache.setPage index PageDesc.invalidatePageBitmap,
      if isCpuWriteAccess then tlbUnprotectCodePhys dirty start else dirty, r.env, modified⟩
  else ⟨r.cache, dirty, r.env, modified⟩

namespace CodeCache

/-- `tb_invalidate_phys_page_range`, up to the call of `tb_gen_code`. -/
def tbInvalidatePhysPageRange (s : CodeCache) (dirty : Word32 → UInt8) (env : Option CpuEnv)
    (start stop : Addr32) (isCpuWriteAccess : Bool) : Option RangeResult :=
  let index := pageIndex start
  match s.pageFind index with
  | none => some ⟨s, dirty, env, none⟩
  | some p => do
      let s ← s.countWrite index p isCpuWriteAccess
      let r ← RangeState.loop start stop s.walkBound (s.readPage (.firstTb index))
        ⟨s, env, isCpuWriteAccess, none, false⟩
      some (r.finish dirty start isCpuWriteAccess)

/-- `tb_invalidate_phys_page_fast`. -/
def tbInvalidatePhysPageFast (s : CodeCache) (dirty : Word32 → UInt8) (env : Option CpuEnv)
    (start : Addr32) (len : ℕ) : Option RangeResult :=
  match s.pageFind (pageIndex start) with
  | none => some ⟨s, dirty, env, none⟩
  | some p =>
      match p.codeBitmap with
      | some tab =>
          let offset := (pageOffset start).toNat
          let b := tab (offset >>> 3) >>> UInt8.ofNat (offset &&& 7)
          if b.toNat &&& ((1 <<< len) - 1) ≠ 0 then
            s.tbInvalidatePhysPageRange dirty env start (start + UInt32.ofNat len) true
          else some ⟨s, dirty, env, none⟩
      | none => s.tbInvalidatePhysPageRange dirty env start (start + UInt32.ofNat len) true

end CodeCache

/-! ### The block an address lies in -/

/-- The code of the blocks lies in `code_gen_buffer` in the order of the array. Two blocks may
begin at one place, where the translation of the first was given up. -/
structure CodeOrder (s : CodeCache) : Prop where
  mono : ∀ i j : ℕ, i ≤ j → j < s.nbTbs → (s.tbs i).tcPtr ≤ (s.tbs j).tcPtr
  le : ∀ i : ℕ, i < s.nbTbs → (s.tbs i).tcPtr ≤ s.codeGenPtr

section Loop

variable {r : RangeState} {L : CacheLayout} {start stop : Addr32}

/-- The blocks of a list that a write hits. -/
def Struck (s : CodeCache) (start stop : Addr32) (xs : List PagePtr) : Set TbPtr :=
  { tb | ∃ n, (tb, n) ∈ xs ∧ (s.tbs tb).Hit n start stop }

/-- The block that is executed, whether it has been looked up yet or not. -/
def RangeState.writer (r : RangeState) : Option TbPtr :=
  if r.currentTbNotFound then r.env.bind fun env => env.memWritePc.bind r.cache.tbFindPc
  else r.currentTb

/-- A state of the loop that can occur. -/
structure RangeState.Ok (r : RangeState) (L : CacheLayout) : Prop where
  shape : Shape r.cache L
  bitmap : BitmapShape r.cache L
  current : ∀ env, r.env = some env → ∀ tb, env.currentTb = some tb → tb ∈ L.known
  env : r.currentTbNotFound = true → r.env.isSome = true
  modified : r.currentTbModified = true → r.currentTb = r.writer

theorem CodeCache.tbFindPc_congr {s s' : CodeCache} (htbs : s'.tbs = s.tbs)
    (hnb : s'.nbTbs = s.nbTbs) (hptr : s'.codeGenPtr = s.codeGenPtr) :
    s'.tbFindPc = s.tbFindPc := by
  have hloop : ∀ p k a b, s'.tbFindPcLoop p k a b = s.tbFindPcLoop p k a b := by
    intro p k
    induction k with
    | zero => exact fun _ _ => rfl
    | succ k ih =>
        intro a b
        simp only [CodeCache.tbFindPcLoop, htbs, ih]
  funext p
  simp only [CodeCache.tbFindPc, hnb, hptr, hloop]

namespace CodeCache.LinksChanged

variable {s s' s'' : CodeCache}

theorem refl (s : CodeCache) : s.LinksChanged s := ⟨rfl, rfl, rfl, fun _ => rfl, fun _ => .inr rfl⟩

theorem trans (h : s.LinksChanged s') (h' : s'.LinksChanged s'') : s.LinksChanged s'' := by
  refine ⟨h'.tbs.trans h.tbs, h'.nbTbs.trans h.nbTbs, h'.codeGenPtr.trans h.codeGenPtr,
    fun i => (h'.isSome i).trans (h.isSome i), fun i => ?_⟩
  rcases h'.bitmap i with hnone | heq
  · exact .inl hnone
  · rw [heq]
    exact h.bitmap i

end CodeCache.LinksChanged

/-- The processor, which may have been told of an interrupt. -/
def Interrupted (env env' : Option CpuEnv) : Prop :=
  env' = env ∨ env' = env.map fun env => { env with currentTb := none }

/-- An interrupt changes jumps only. -/
theorem Shape.cpuInterrupt {s : CodeCache} (h : Shape s L) {env : CpuEnv}
    (hcur : ∀ tb, env.currentTb = some tb → tb ∈ L.known) (mask : UInt32) :
    ∃ s' L', s.cpuInterrupt env mask = some (s', { env with
        currentTb := none, interruptRequest := env.interruptRequest ||| mask }) ∧
      Shape s' L' ∧ L' = { L with jumps := L'.jumps } ∧
      s' = { s with jmpCells := s'.jmpCells, tbNext := s'.tbNext } := by
  obtain ⟨currentTb, memWritePc, interruptRequest⟩ := env
  cases currentTb with
  | none => exact ⟨s, L, rfl, h, rfl, rfl⟩
  | some tb =>
      obtain ⟨s', L', hs', hshape, htrim, -, heq⟩ := h.resets_depthBound (hcur tb rfl)
      refine ⟨s', L', ?_, hshape, htrim.eq, heq⟩
      simp only [CodeCache.cpuInterrupt, hs', Option.map_some]

/-- Invalidating a block within the loop. -/
theorem RangeState.invalidate_eq (h : Shape r.cache L) (hbit : BitmapShape r.cache L)
    (hcur : ∀ env, r.env = some env → ∀ tb, env.currentTb = some tb → tb ∈ L.known)
    {tb : TbPtr} (htb : tb ∈ L.live) :
    ∃ s' env' L', r.invalidate tb = some { r with cache := s', env := env' } ∧
      Shape s' L' ∧ BitmapShape s' L' ∧ L'.known = L.known ∧ L'.live = L.live \ {tb} ∧
      r.cache.LinksChanged s' ∧ Interrupted r.env env' ∧
      ∀ x, (∀ y, r.cache.pageNext x = some y → y.1 ≠ tb) → s'.pageNext x = r.cache.pageNext x := by
  obtain ⟨s₁, hs₁, hinv⟩ := h.tbPhysInvalidate htb
  have hbit₁ := hbit.invalidated hinv
  rw [RangeState.invalidate, hs₁, Option.bind_eq_bind, Option.bind_some]
  cases henv : r.env with
  | none =>
      exact ⟨s₁, none, _, rfl, hinv.shape, hbit₁, rfl, rfl, hinv.links, .inl rfl,
        hinv.pageNext⟩
  | some env =>
      simp only
      split_ifs
      · obtain ⟨s₂, L₂, hs₂, hshape₂, hL₂, heq₂⟩ :=
          hinv.shape.cpuInterrupt (hcur env henv) env.interruptRequest
        rw [UInt32.or_self] at hs₂
        obtain ⟨jc, tn, rfl⟩ : ∃ jc tn, s₂ = { s₁ with jmpCells := jc, tbNext := tn } :=
          ⟨_, _, heq₂⟩
        refine ⟨_, some { env with currentTb := none }, L₂, by rw [hs₂]; rfl, hshape₂, ?_, ?_,
          ?_, ⟨hinv.links.tbs, hinv.links.nbTbs, hinv.links.codeGenPtr, hinv.links.isSome,
            hinv.links.bitmap⟩, .inr rfl, hinv.pageNext⟩
        · rw [hL₂]
          exact hbit₁
        · rw [hL₂]
          rfl
        · rw [hL₂]
          rfl
      · exact ⟨s₁, some env, _, rfl, hinv.shape, hbit₁, rfl, rfl, hinv.links, .inl rfl,
          hinv.pageNext⟩

/-- **What rounds of the loop have done:** the blocks of `D` have been invalidated. -/
structure Pruned (r : RangeState) (L : CacheLayout) (D : Set TbPtr) (r' : RangeState)
    (L' : CacheLayout) : Prop where
  ok : r'.Ok L'
  known : L'.known = L.known
  live : L'.live = L.live \ D
  links : r.cache.LinksChanged r'.cache
  env : Interrupted r.env r'.env
  writer : r'.writer = r.writer
  modified : r'.currentTbModified = true ↔ r.currentTbModified = true ∨
    ∃ tb ∈ D, r.writer = some tb ∧ (r.cache.tbs tb).cflags &&& cfSingleInsn = 0
  pageNext : ∀ x, (∀ y, r.cache.pageNext x = some y → y.1 ∉ D) →
    r'.cache.pageNext x = r.cache.pageNext x

theorem Interrupted.trans {env env' env'' : Option CpuEnv} (h : Interrupted env env')
    (h' : Interrupted env' env'') : Interrupted env env'' := by
  rcases h' with rfl | rfl
  · exact h
  · rcases h with rfl | rfl
    · exact .inr rfl
    · refine .inr ?_
      rw [Option.map_map]
      rfl

namespace Pruned

variable {r' r'' : RangeState} {L' L'' : CacheLayout} {D D' : Set TbPtr}

theorem refl (h : r.Ok L) : Pruned r L ∅ r L :=
  ⟨h, rfl, Set.sdiff_empty.symm, .refl _, .inl rfl, rfl, by simp, fun _ _ => rfl⟩

theorem trans (h : Pruned r L D r' L') (h' : Pruned r' L' D' r'' L'') :
    Pruned r L (D ∪ D') r'' L'' := by
  refine ⟨h'.ok, h'.known.trans h.known, ?_, h.links.trans h'.links, h.env.trans h'.env,
    h'.writer.trans h.writer, ?_, fun x hx => ?_⟩
  · rw [h'.live, h.live, Set.sdiff_sdiff]
  · rw [h'.modified, h.modified, h.writer, h.links.tbs, or_assoc]
    simp only [Set.mem_union, or_and_right, exists_or]
  · have hx' := h.pageNext x fun y hy hD => hx y hy (.inl hD)
    exact (h'.pageNext x fun y hy hD => hx y (hx' ▸ hy) (.inr hD)).trans hx'

end Pruned

theorem struck_nil {s : CodeCache} : Struck s start stop [] = ∅ := by
  refine Set.eq_empty_iff_forall_notMem.mpr ?_
  rintro tb ⟨n, hn, -⟩
  exact List.not_mem_nil hn

theorem struck_cons {s : CodeCache} {x : PagePtr} {xs : List PagePtr} :
    Struck s start stop (x :: xs) = Struck s start stop [x] ∪ Struck s start stop xs := by
  ext tb
  simp only [Struck, Set.mem_ofPred_eq, Set.mem_union, List.mem_cons, List.not_mem_nil, or_false,
    or_and_right, exists_or]

/-- The block that is executed has been looked up. -/
theorem RangeState.Ok.findCurrentTb (h : r.Ok L) :
    r.findCurrentTb = some { r with currentTbNotFound := false, currentTb := r.writer } := by
  obtain ⟨cache, env, notFound, currentTb, modified⟩ := r
  cases notFound with
  | false => rfl
  | true =>
      obtain ⟨env, rfl⟩ := Option.isSome_iff_exists.mp (h.env rfl)
      rfl

theorem RangeState.checkModified_eq (r : RangeState) (tb : TbPtr) :
    r.checkModified tb = { r with
      currentTbModified := r.currentTbModified ||
        decide (r.currentTb = some tb ∧ (r.cache.tbs tb).cflags &&& cfSingleInsn = 0) } := by
  rw [RangeState.checkModified]
  split_ifs with hmod
  · simp only [hmod, and_self, decide_true, Bool.or_true]
  · simp only [hmod, decide_false, Bool.or_false]

/-- One round of the loop. -/
theorem RangeState.Ok.step (h : r.Ok L) (x : PagePtr)
    (hx : (r.cache.tbs x.1).Hit x.2 start stop → x.1 ∈ L.live) :
    ∃ r' L', r.step start stop x = some r' ∧
      Pruned r L (Struck r.cache start stop [x]) r' L' := by
  rw [RangeState.step]
  split_ifs with hhit
  · have hstruck : Struck r.cache start stop [x] = {x.1} := by
      ext tb
      simp only [Struck, Set.mem_ofPred_eq, List.mem_singleton, Set.mem_singleton_iff]
      exact ⟨fun ⟨n, hn, _⟩ => congrArg Prod.fst hn, fun htb => ⟨x.2, by rw [htb], htb ▸ hhit⟩⟩
    rw [h.findCurrentTb, Option.bind_eq_bind, Option.bind_some, RangeState.checkModified_eq,
      hstruck]
    obtain ⟨s', env', L', heq, hshape, hbit, hknown, hlive, hlinks, henv, hnext⟩ :=
      RangeState.invalidate_eq (r := { r with
        currentTbNotFound := false, currentTb := r.writer
        currentTbModified := r.currentTbModified || decide (r.writer = some x.1 ∧
          (r.cache.tbs x.1).cflags &&& cfSingleInsn = 0) }) h.shape h.bitmap h.current (hx hhit)
    refine ⟨_, L', heq, ⟨hshape, hbit, fun env he tb htb => ?_, nofun, fun _ => rfl⟩, hknown, hlive,
      hlinks, henv, rfl, ?_, fun y hy => hnext y hy⟩
    · rw [hknown]
      rcases henv with rfl | rfl
      · exact h.current env he tb htb
      · obtain ⟨env₀, -, rfl⟩ := Option.map_eq_some_iff.mp he
        cases htb
    · simp only [Bool.or_eq_true, decide_eq_true_eq, Set.mem_singleton_iff, exists_eq_left]
  · have hstruck : Struck r.cache start stop [x] = ∅ := by
      refine Set.eq_empty_iff_forall_notMem.mpr ?_
      rintro tb ⟨n, hn, hhit'⟩
      obtain rfl := List.mem_singleton.mp hn
      exact hhit hhit'
    exact ⟨r, L, rfl, hstruck ▸ .refl h⟩

/-- A write hits at most one part of each block. -/
def HitOnce (s : CodeCache) (start stop : Addr32) (xs : List PagePtr) : Prop :=
  ∀ x ∈ xs, ∀ y ∈ xs, (s.tbs x.1).Hit x.2 start stop → (s.tbs y.1).Hit y.2 start stop →
    x.1 = y.1 → x = y

section Walk

variable {x : PagePtr} {xs : List PagePtr} {r' : RangeState} {L' : CacheLayout}

/-- The rest of the list is found as it was. -/
theorem Pruned.leads (h : Pruned r L (Struck r.cache start stop [x]) r' L')
    (hp : Leads r.cache.readPage .pageNext (r.cache.pageNext x) xs none)
    (hsp : Spaced (x :: xs)) : Leads r'.cache.readPage .pageNext (r.cache.pageNext x) xs none := by
  refine hp.congr fun y hy => h.pageNext y fun z hz => ?_
  rintro ⟨n, hn, -⟩
  have heq : (z.1, n) = x := List.mem_singleton.mp hn
  exact hsp.1 z (hp.mem_tail hy hz) (by rw [← heq])

/-- What is left to be hit is still live. -/
theorem Pruned.mem_live (h : Pruned r L (Struck r.cache start stop [x]) r' L') {y : PagePtr}
    (hy : y.1 ∈ L.live) (hne : (r.cache.tbs x.1).Hit x.2 start stop → y.1 ≠ x.1) :
    y.1 ∈ L'.live := by
  rw [h.live]
  refine ⟨hy, ?_⟩
  rintro ⟨n, hn, hhit⟩
  obtain rfl := List.mem_singleton.mp hn
  exact hne hhit rfl

/-- **The loop** invalidates the blocks that are hit. -/
theorem RangeState.Ok.loop (h : r.Ok L) {p : Option PagePtr} {k : ℕ}
    (hp : Leads r.cache.readPage .pageNext p xs none) (hnd : xs.Nodup) (hsp : Spaced xs)
    (hlive : ∀ x ∈ xs, (r.cache.tbs x.1).Hit x.2 start stop → x.1 ∈ L.live)
    (honce : HitOnce r.cache start stop xs) (hk : xs.length < k) :
    ∃ r' L', RangeState.loop start stop k p r = some r' ∧
      Pruned r L (Struck r.cache start stop xs) r' L' := by
  induction xs generalizing r L p k with
  | nil =>
      obtain ⟨k, rfl⟩ : ∃ j, k = j + 1 := ⟨k - 1, by omega⟩
      obtain rfl : p = none := hp
      exact ⟨r, L, rfl, struck_nil.symm ▸ .refl h⟩
  | cons x xs ih =>
      obtain ⟨k, rfl⟩ : ∃ j, k = j + 1 := ⟨k - 1, by omega⟩
      obtain ⟨rfl, hp⟩ := hp
      obtain ⟨hx, hnd⟩ := List.nodup_cons.mp hnd
      obtain ⟨r₁, L₁, hr₁, hpr₁⟩ := h.step x (hlive x List.mem_cons_self)
      have htbs : r₁.cache.tbs = r.cache.tbs := hpr₁.links.tbs
      obtain ⟨r₂, L₂, hr₂, hpr₂⟩ := ih hpr₁.ok (hpr₁.leads hp hsp) hnd hsp.2
        (fun y hy hhit => by
          rw [htbs] at hhit
          have hmem := List.mem_cons_of_mem x hy
          refine hpr₁.mem_live (hlive y hmem hhit) fun hhit' heq => ?_
          exact ne_of_mem_of_not_mem hy hx (honce y hmem x List.mem_cons_self hhit hhit' heq))
        (fun y hy z hz hhit hhit' heq => by
          rw [htbs] at hhit hhit'
          exact honce y (List.mem_cons_of_mem x hy) z (List.mem_cons_of_mem x hz) hhit hhit' heq)
        (Nat.lt_of_succ_lt_succ hk)
      refine ⟨r₂, L₂, ?_, ?_⟩
      · rw [RangeState.loop, hr₁]
        exact hr₂
      · have hstruck : Struck r₁.cache start stop xs = Struck r.cache start stop xs := by
          rw [Struck, Struck, htbs]
        rw [struck_cons, ← hstruck]
        exact hpr₁.trans hpr₂

/-- A block that is not live cannot be invalidated. -/
theorem Shape.tbPhysInvalidate_eq_none {s : CodeCache} (h : Shape s L) {tb : TbPtr}
    (htb : tb ∉ L.live) (addr : Addr32) : s.tbPhysInvalidate tb addr = none := by
  have hfind := (h.hash.lists.path (tbPhysHashFunc (s.tbs tb).physPc) (Set.mem_univ _)).find_eq_none
    (p := fun tb1 => tb1 == tb) (fun tb' htb' => beq_eq_false_iff_ne.mpr ?_) s.walkBound
  · rw [CodeCache.tbPhysInvalidate, CodeCache.tbRemove, hfind]
    rfl
  · rintro rfl
    exact htb ((h.hash.mem _ _).mp htb').1

theorem RangeState.Ok.step_eq_none (h : r.Ok L)
    (hhit : (r.cache.tbs x.1).Hit x.2 start stop) (hx : x.1 ∉ L.live) :
    r.step start stop x = none := by
  rw [RangeState.step, if_pos hhit, h.findCurrentTb, Option.bind_eq_bind, Option.bind_some,
    RangeState.checkModified_eq, RangeState.invalidate, h.shape.tbPhysInvalidate_eq_none hx]
  rfl

/-- A block that is hit in both parts is fatal. -/
theorem RangeState.Ok.loop_eq_none (h : r.Ok L) {p : Option PagePtr} {k : ℕ}
    (hp : Leads r.cache.readPage .pageNext p xs none) (hnd : xs.Nodup) (hsp : Spaced xs)
    (hlive : ∀ x ∈ xs, (r.cache.tbs x.1).Hit x.2 start stop → x.1 ∈ L.live)
    (honce : ¬ HitOnce r.cache start stop xs) :
    RangeState.loop start stop k p r = none := by
  induction xs generalizing r L p k with
  | nil => exact absurd (fun x hx => absurd hx List.not_mem_nil) honce
  | cons x xs ih =>
      cases k with
      | zero => rfl
      | succ k =>
          obtain ⟨rfl, hp⟩ := hp
          obtain ⟨hx, hnd⟩ := List.nodup_cons.mp hnd
          obtain ⟨r₁, L₁, hr₁, hpr₁⟩ := h.step x (hlive x List.mem_cons_self)
          have htbs : r₁.cache.tbs = r.cache.tbs := hpr₁.links.tbs
          have hleads := hpr₁.leads hp hsp
          rw [RangeState.loop, hr₁]
          by_cases htwin : ∃ y ∈ xs, (r.cache.tbs x.1).Hit x.2 start stop ∧
              (r.cache.tbs y.1).Hit y.2 start stop ∧ y.1 = x.1
          · -- the other part comes next, and the block is gone
            obtain ⟨y, hy, hhit, hhit', heq⟩ := htwin
            cases xs with
            | nil => exact absurd hy List.not_mem_nil
            | cons z zs =>
                obtain rfl : y = z := (List.mem_cons.mp hy).resolve_right fun hy => hsp.1 y hy heq
                have hdead : y.1 ∉ L₁.live := by
                  rw [hpr₁.live]
                  exact fun hmem => hmem.2 ⟨x.2, List.mem_singleton.mpr (by rw [heq]), heq ▸ hhit⟩
                have hnone : r₁.step start stop y = none :=
                  hpr₁.ok.step_eq_none (htbs ▸ hhit') hdead
                have hnext : r.cache.pageNext x = some y := hleads.1
                cases k with
                | zero => rfl
                | succ k =>
                    simp only [hnext, Option.bind_eq_bind, Option.bind_some, RangeState.loop,
                      hnone, Option.bind_none]
          · refine ih hpr₁.ok hleads hnd hsp.2 (fun y hy hhit => ?_) fun honce' => honce ?_
            · rw [htbs] at hhit
              refine hpr₁.mem_live (hlive y (List.mem_cons_of_mem x hy) hhit) fun hhit' heq => ?_
              exact htwin ⟨y, hy, hhit', hhit, heq⟩
            · intro y hy z hz hhit hhit' heq
              rcases List.mem_cons.mp hy with rfl | hy'
              · rcases List.mem_cons.mp hz with rfl | hz'
                · rfl
                · exact absurd ⟨z, hz', hhit, hhit', heq.symm⟩ htwin
              · rcases List.mem_cons.mp hz with rfl | hz'
                · exact absurd ⟨y, hy', hhit', hhit, heq⟩ htwin
                · exact honce' y hy' z hz' (htbs.symm ▸ hhit) (htbs.symm ▸ hhit') heq

end Walk

end Loop

/-! ### A write to a page -/

/-- Only descriptors have changed, and not their lists. -/
structure CodeCache.DescChanged (s s' : CodeCache) : Prop where
  eq : s' = { s with l1Map := s'.l1Map }
  readPage : s'.readPage = s.readPage
  isSome : ∀ i, (s'.pageFind i).isSome = (s.pageFind i).isSome

theorem CodeCache.DescChanged.setPage (s : CodeCache) (i : Word32) {f : PageDesc → PageDesc}
    (hf : ∀ p, (f p).firstTb = p.firstTb) : s.DescChanged (s.setPage i f) :=
  ⟨rfl, CodeCache.readPage_setPage hf, fun _ => CodeCache.isSome_pageFind_setPage f⟩

theorem CodeCache.DescChanged.trans {s s' s'' : CodeCache} (h : s.DescChanged s')
    (h' : s'.DescChanged s'') : s.DescChanged s'' := by
  refine ⟨?_, h'.readPage.trans h.readPage, fun i => (h'.isSome i).trans (h.isSome i)⟩
  rw [h'.eq, h.eq]

section Write

variable {s : CodeCache} {L : CacheLayout} {dirty : Word32 → UInt8} {env : Option CpuEnv}
  {start stop : Addr32} {isCpuWriteAccess : Bool}

/-- Counting a write, and making a bitmap, changes nothing but the descriptor. -/
theorem Shape.countWrite (h : Shape s L) (hbit : BitmapShape s L) {i : Word32} {p : PageDesc}
    (hp : s.pageFind i = some p) (isCpuWriteAccess : Bool) :
    ∃ s', s.countWrite i p isCpuWriteAccess = some s' ∧ Shape s' L ∧ BitmapShape s' L ∧
      s.DescChanged s' := by
  rw [CodeCache.countWrite]
  cases hbitmap : p.codeBitmap with
  | some tab => exact ⟨s, rfl, h, hbit, rfl, rfl, fun _ => rfl⟩
  | none =>
      have hshape : Shape (s.setPage i fun p =>
          { p with codeWriteCount := p.codeWriteCount + 1 }) L := h.setPage i fun _ => rfl
      have hbit' : BitmapShape (s.setPage i fun p =>
          { p with codeWriteCount := p.codeWriteCount + 1 }) L := by
        refine hbit.of_bitmap rfl fun j => .inr ?_
        rw [CodeCache.bitmap_setPage]
        split_ifs with hj
        · subst hj
          rfl
        · rfl
      have hdesc := CodeCache.DescChanged.setPage s i
        (f := fun p => { p with codeWriteCount := p.codeWriteCount + 1 }) fun _ => rfl
      simp only
      split_ifs
      · obtain ⟨s', hs', hshape', hbit'', tab, rfl⟩ := hshape.buildPageBitmap hbit' i
        exact ⟨_, hs', hshape', hbit'', hdesc.trans (.setPage _ i fun _ => rfl)⟩
      · exact ⟨_, rfl, hshape, hbit', hdesc⟩

/-- The processor that writes. -/
structure Writing (L : CacheLayout) (env : Option CpuEnv) (isCpuWriteAccess : Bool) : Prop where
  current : ∀ e, env = some e → ∀ tb, e.currentTb = some tb → tb ∈ L.known
  isSome : isCpuWriteAccess = true → env.isSome = true

/-- The block that a write comes from. -/
def CodeCache.writer (s : CodeCache) (env : Option CpuEnv) (isCpuWriteAccess : Bool) :
    Option TbPtr :=
  if isCpuWriteAccess then env.bind fun env => env.memWritePc.bind s.tbFindPc else none

/-- **What becomes of a page that is written:** the blocks of `D` have been invalidated. If the
page has no code any more a processor that writes need not be watched. If the block that the write
comes from has been hit, it must be left. -/
structure Written (s : CodeCache) (L : CacheLayout) (dirty : Word32 → UInt8)
    (env : Option CpuEnv) (start : Addr32) (isCpuWriteAccess : Bool) (D : Set TbPtr)
    (r : RangeResult) (L' : CacheLayout) : Prop where
  shape : Shape r.cache L'
  bitmap : BitmapShape r.cache L'
  known : L'.known = L.known
  live : L'.live = L.live \ D
  tbs : r.cache.tbs = s.tbs
  nbTbs : r.cache.nbTbs = s.nbTbs
  codeGenPtr : r.cache.codeGenPtr = s.codeGenPtr
  interrupted : Interrupted env r.env
  unprotected : r.dirty = dirty ∨ L'.page (pageIndex start) = [] ∧ isCpuWriteAccess = true ∧
    r.dirty = tlbUnprotectCodePhys dirty start
  modified : ∀ tb, r.modified = some tb ↔ tb ∈ D ∧ s.writer env isCpuWriteAccess = some tb ∧
    (s.tbs tb).cflags &&& cfSingleInsn = 0

/-- Nothing has happened. -/
theorem Written.refl (h : Shape s L) (hbit : BitmapShape s L) :
    Written s L dirty env start isCpuWriteAccess ∅ ⟨s, dirty, env, none⟩ L :=
  ⟨h, hbit, rfl, Set.sdiff_empty.symm, rfl, rfl, rfl, .inl rfl, .inl rfl, fun _ =>
    iff_of_false (by rintro ⟨⟩) fun h => h.1⟩

/-- What is left of the page lists. -/
theorem Written.mem_page {D : Set TbPtr} {r : RangeResult} {L' : CacheLayout}
    (h : Written s L dirty env start isCpuWriteAccess D r L') (hs : Shape s L) {i : Word32}
    {x : PagePtr} (hx : x ∈ L'.page i) : x ∈ L.page i ∧ x.1 ∉ D := by
  obtain ⟨hlive, hon⟩ := (h.shape.page.mem i x.1 x.2).mp hx
  rw [h.live] at hlive
  rw [h.tbs] at hon
  exact ⟨(hs.page.mem i x.1 x.2).mpr ⟨hlive.1, hon⟩, hlive.2⟩

/-- The loop as `tb_invalidate_phys_page_range` starts it. -/
theorem RangeState.ok_init (h : Shape s L) (hbit : BitmapShape s L)
    (henv : Writing L env isCpuWriteAccess) :
    RangeState.Ok ⟨s, env, isCpuWriteAccess, none, false⟩ L :=
  ⟨h, hbit, henv.current, henv.isSome, by rintro ⟨⟩⟩

/-- The list of a page that is empty. -/
theorem Shape.page_eq_nil (h : Shape s L) {i : Word32} (hread : s.readPage (.firstTb i) = none) :
    L.page i = [] := by
  have hpath := h.page.lists.path i (Set.mem_univ i)
  cases hpage : L.page i with
  | nil => rfl
  | cons x xs =>
      rw [hpage] at hpath
      cases hread.symm.trans hpath.1

/-- The block that has to be left is the one the write comes from, if it has been hit. -/
theorem Pruned.modified_eq_some {D : Set TbPtr} {r : RangeState} {L' : CacheLayout}
    (h : Pruned ⟨s, env, isCpuWriteAccess, none, false⟩ L D r L') (tb : TbPtr) :
    (if r.currentTbModified then r.currentTb else none) = some tb ↔
      tb ∈ D ∧ s.writer env isCpuWriteAccess = some tb ∧
        (s.tbs tb).cflags &&& cfSingleInsn = 0 := by
  have hwriter : RangeState.writer ⟨s, env, isCpuWriteAccess, none, false⟩ =
      s.writer env isCpuWriteAccess := rfl
  have hmod := h.modified
  simp only [hwriter, Bool.false_eq_true, false_or] at hmod
  split_ifs with hm
  · have hcur : r.currentTb = s.writer env isCpuWriteAccess :=
      (h.ok.modified hm).trans (h.writer.trans hwriter)
    obtain ⟨tb', hmem, hw, hflag⟩ := hmod.mp hm
    rw [hcur]
    refine ⟨fun heq => ?_, fun h => h.2.1⟩
    obtain rfl := Option.some.inj (hw.symm.trans heq)
    exact ⟨hmem, hw, hflag⟩
  · exact iff_of_false (by rintro ⟨⟩) fun h => hm (hmod.mpr ⟨tb, h⟩)

theorem Pruned.finish {D : Set TbPtr} {r : RangeState} {L' : CacheLayout}
    (h : Pruned ⟨s, env, isCpuWriteAccess, none, false⟩ L D r L') (dirty : Word32 → UInt8)
    (start : Addr32) : Written s L dirty env start isCpuWriteAccess D
      (r.finish dirty start isCpuWriteAccess) L' := by
  have hmod := h.modified_eq_some
  rw [RangeState.finish]
  generalize (if r.currentTbModified then r.currentTb else none) = modified at hmod ⊢
  by_cases hread : r.cache.readPage (.firstTb (pageIndex start)) = none
  · rw [if_pos hread]
    refine ⟨h.ok.shape.setPage _ fun _ => rfl, h.ok.bitmap.invalidatePageBitmap _, h.known,
      h.live, h.links.tbs, h.links.nbTbs, h.links.codeGenPtr, h.env, ?_, hmod⟩
    cases isCpuWriteAccess with
    | false => exact .inl rfl
    | true => exact .inr ⟨h.ok.shape.page_eq_nil hread, rfl, rfl⟩
  · rw [if_neg hread]
    exact ⟨h.ok.shape, h.ok.bitmap, h.known, h.live, h.links.tbs, h.links.nbTbs,
      h.links.codeGenPtr, h.env, .inl rfl, hmod⟩

/-- Counting the write makes no difference to what becomes of the blocks. -/
theorem Written.of_descChanged {D : Set TbPtr} {r : RangeResult} {L' : CacheLayout}
    {s₁ : CodeCache} (hdesc : s.DescChanged s₁)
    (h : Written s₁ L dirty env start isCpuWriteAccess D r L') :
    Written s L dirty env start isCpuWriteAccess D r L' := by
  obtain ⟨l1, rfl⟩ : ∃ l1, s₁ = { s with l1Map := l1 } := ⟨_, hdesc.eq⟩
  have hfind : CodeCache.tbFindPc { s with l1Map := l1 } = s.tbFindPc :=
    CodeCache.tbFindPc_congr rfl rfl rfl
  have hwriter : CodeCache.writer { s with l1Map := l1 } env isCpuWriteAccess =
      s.writer env isCpuWriteAccess := by
    rw [CodeCache.writer, CodeCache.writer, hfind]
  exact ⟨h.shape, h.bitmap, h.known, h.live, h.tbs, h.nbTbs, h.codeGenPtr, h.interrupted,
    h.unprotected, hwriter ▸ h.modified⟩

/-- The list of the page, once the write has been counted. -/
theorem Shape.leads_page (h : Shape s L) (i : Word32) :
    Leads s.readPage .pageNext (s.readPage (.firstTb i)) (L.page i) none :=
  LinkedCells.path_iff_leads.mp (h.page.lists.path i (Set.mem_univ i))

/-- **A write to a page invalidates the blocks it hits**, and no others. -/
theorem Shape.tbInvalidatePhysPageRange (h : Shape s L) (hbit : BitmapShape s L)
    (henv : Writing L env isCpuWriteAccess)
    (honce : HitOnce s start stop (L.page (pageIndex start))) :
    ∃ r L', s.tbInvalidatePhysPageRange dirty env start stop isCpuWriteAccess = some r ∧
      Written s L dirty env start isCpuWriteAccess
        (Struck s start stop (L.page (pageIndex start))) r L' := by
  rw [CodeCache.tbInvalidatePhysPageRange]
  cases hp : s.pageFind (pageIndex start) with
  | none =>
      have hread : s.readPage (.firstTb (pageIndex start)) = none := by
        rw [CodeCache.readPage, hp]
        rfl
      rw [h.page_eq_nil hread, struck_nil]
      exact ⟨_, L, rfl, .refl h hbit⟩
  | some p =>
      obtain ⟨s₁, hs₁, hshape₁, hbit₁, hdesc⟩ := h.countWrite hbit hp isCpuWriteAccess
      have htbs₁ : s₁.tbs = s.tbs := by rw [hdesc.eq]
      have hstruck : Struck s₁ start stop = Struck s start stop := by
        funext xs
        rw [Struck, Struck, htbs₁]
      obtain ⟨r, L', hr, hpr⟩ := (RangeState.ok_init hshape₁ hbit₁ henv).loop
        (hshape₁.leads_page (pageIndex start)) (hshape₁.page.lists.nodup _)
        (hshape₁.page.spaced _) (fun x hx _ => ((hshape₁.page.mem _ x.1 x.2).mp hx).1)
        (by rw [HitOnce, htbs₁]; exact honce) (hshape₁.length_page _)
      refine ⟨_, L', ?_, .of_descChanged hdesc (hstruck ▸ hpr.finish dirty start)⟩
      simp only [hs₁, Option.bind_eq_bind, Option.bind_some, hr]

/-- **A block that is hit in both parts is fatal.** -/
theorem Shape.tbInvalidatePhysPageRange_eq_none (h : Shape s L) (hbit : BitmapShape s L)
    (henv : Writing L env isCpuWriteAccess)
    (honce : ¬ HitOnce s start stop (L.page (pageIndex start))) :
    s.tbInvalidatePhysPageRange dirty env start stop isCpuWriteAccess = none := by
  rw [CodeCache.tbInvalidatePhysPageRange]
  cases hp : s.pageFind (pageIndex start) with
  | none =>
      have hread : s.readPage (.firstTb (pageIndex start)) = none := by
        rw [CodeCache.readPage, hp]
        rfl
      rw [h.page_eq_nil hread] at honce
      exact absurd (fun x hx => absurd hx List.not_mem_nil) honce
  | some p =>
      obtain ⟨s₁, hs₁, hshape₁, hbit₁, hdesc⟩ := h.countWrite hbit hp isCpuWriteAccess
      have htbs₁ : s₁.tbs = s.tbs := by rw [hdesc.eq]
      have hloop := (RangeState.ok_init hshape₁ hbit₁ henv).loop_eq_none (k := s₁.walkBound)
        (hshape₁.leads_page (pageIndex start)) (hshape₁.page.lists.nodup _)
        (hshape₁.page.spaced _) (fun x hx _ => ((hshape₁.page.mem _ x.1 x.2).mp hx).1)
        (by rw [HitOnce, htbs₁]; exact honce)
      simp only [hs₁, Option.bind_eq_bind, Option.bind_some, hloop, Option.bind_none]

/-- **Invalidating the code on a page comes to an end** if and only if no block is hit twice. -/
theorem range_invalidation_returns_iff (h : Shape s L) (hbit : BitmapShape s L)
    (henv : Writing L env isCpuWriteAccess) :
    (s.tbInvalidatePhysPageRange dirty env start stop isCpuWriteAccess).isSome ↔
      HitOnce s start stop (L.page (pageIndex start)) := by
  by_cases honce : HitOnce s start stop (L.page (pageIndex start))
  · obtain ⟨r, L', hr, -⟩ := h.tbInvalidatePhysPageRange hbit henv honce
    rw [hr]
    exact iff_of_true rfl honce
  · rw [h.tbInvalidatePhysPageRange_eq_none hbit henv honce]
    exact iff_of_false nofun honce

end Write

/-- A block across two pages of the guest that are one page of memory. -/
def CodeCache.folded : CodeCache :=
  CodeCache.tbLinkPhys { CodeCache.filled with
    tbs := fun i => { TbEntry.sample i with pc := 0xc0105ff8 } } 0 0x00105ff8 0x00105000

/-- A device writes the whole page. -/
theorem range_invalidation_returns_iff_folded :
    (CodeCache.folded.tbInvalidatePhysPageRange (fun _ => 0) none 0x00105000 0x00106000
      false).isSome = false := by
  have hshape : Shape { CodeCache.filled with
      tbs := fun i => { TbEntry.sample i with pc := 0xc0105ff8 } } .empty :=
    shape_filled.setUnknown rfl (fun _ => False.elim) le_rfl
  have hbit : BitmapShape { CodeCache.filled with
      tbs := fun i => { TbEntry.sample i with pc := 0xc0105ff8 } } .empty :=
    fun _ _ hi => nomatch hi
  have hlinked : Shape CodeCache.folded (CacheLayout.empty.enter 0 0x00105ff8 0x00105000) :=
    hshape.tbLinkPhys nofun (by decide) (by decide)
  have hwriting : Writing (CacheLayout.empty.enter 0 0x00105ff8 0x00105000) none false :=
    ⟨nofun, nofun⟩
  refine Bool.eq_false_iff.mpr fun hsome => ?_
  have honce := (range_invalidation_returns_iff hlinked (hbit.tbLinkPhys hshape nofun _ _)
    hwriting).mp hsome
  have hmem : ∀ n : Slot, (0, n) ∈ (CacheLayout.empty.enter 0 0x00105ff8 0x00105000).page
      (pageIndex 0x00105000) := by
    intro n
    cases n <;> decide
  cases honce (0, .zero) (hmem .zero) (0, .one) (hmem .one) (by decide) (by decide) rfl

/-! ### The bytes of a block -/

theorem toNat_pageOffset (addr : Addr32) : (pageOffset addr).toNat = addr.toNat % 4096 := by
  have hmask : ~~~ targetPageMask = 0xfff := by decide
  rw [pageOffset, hmask, UInt32.toNat_and]
  exact Nat.and_two_pow_sub_one_eq_mod addr.toNat 12

theorem toNat_pageIndex (addr : Addr32) : (pageIndex addr).toNat = addr.toNat / 4096 := by
  rw [pageIndex, targetPageBits, UInt32.toNat_shiftRight]
  exact Nat.shiftRight_eq_div_pow addr.toNat 12

/-- A block as it is linked: its pages are pages of memory, of which the last one is not used, and
it has some code, no more than fits on them. -/
structure TbEntry.Wf (e : TbEntry) : Prop where
  second : 4096 < (pageOffset e.pc).toNat + e.size.toNat → e.pageAddr .one ≠ noPage
  aligned : ∀ n, e.pageAddr n ≠ noPage → pageOffset (e.pageAddr n) = 0
  inside : ∀ n, e.pageAddr n ≠ noPage → (e.pageAddr n).toNat + 8192 ≤ 2 ^ 32
  size_pos : 0 < e.size.toNat
  size_le : e.size.toNat ≤ 4096

/-- Two ranges meet if each begins before the other ends. -/
theorem exists_mem_both_iff {a b c d : ℕ} (hab : a < b) (hcd : c < d) :
    (∃ o, a ≤ o ∧ o < b ∧ c ≤ o ∧ o < d) ↔ a < d ∧ c < b := by
  refine ⟨fun ⟨o, _⟩ => by omega, fun h => ⟨max a c, ?_⟩⟩
  omega

/-- The test of `tb_invalidate_phys_page_range` and the bitmap go by the same bytes. -/
theorem TbEntry.Wf.hit_iff {e : TbEntry} (h : e.Wf) {n : Slot} (hn : e.pageAddr n ≠ noPage)
    {start : Addr32} (hpage : pageIndex (e.pageAddr n) = pageIndex start) {len : ℕ}
    (hlen : 0 < len) (hend : (pageOffset start).toNat + len ≤ 4096) :
    e.Hit n start (start + UInt32.ofNat len) ↔
      ∃ o, (pageOffset start).toNat ≤ o ∧ o < (pageOffset start).toNat + len ∧ e.Covers n o := by
  have hbase := congrArg UInt32.toNat (h.aligned n hn)
  have hindex := congrArg UInt32.toNat hpage
  have hinside := h.inside n hn
  have hpos := h.size_pos
  have hle := h.size_le
  rw [toNat_pageOffset] at hbase hend ⊢
  rw [toNat_pageIndex, toNat_pageIndex] at hindex
  have hzero : (0 : UInt32).toNat = 0 := rfl
  have hstop : (start + UInt32.ofNat len).toNat = start.toNat + len := by
    rw [UInt32.toNat_add, UInt32.toNat_ofNat']
    omega
  simp only [TbEntry.Hit, TbEntry.Covers, not_or, UInt32.not_le, ge_iff_le,
    UInt32.lt_iff_toNat_lt, hstop]
  cases n with
  | zero =>
      have hsize : e.size.toUInt32.toNat = e.size.toNat := UInt16.toNat_toUInt32 _
      have hoff := Nat.mod_lt e.pc.toNat (show 4096 > 0 by omega)
      have hstart : (e.pageAddr .zero + pageOffset e.pc).toNat =
          (e.pageAddr .zero).toNat + e.pc.toNat % 4096 := by
        rw [UInt32.toNat_add, toNat_pageOffset]
        omega
      have htsize : targetPageSize.toNat = 4096 := rfl
      simp only [TbEntry.physRange, TbEntry.pageRange, UInt32.toNat_add _ e.size.toUInt32, hstart,
        hsize, toNat_pageOffset, htsize]
      rw [exists_mem_both_iff (by omega) (by split_ifs <;> omega)]
      split_ifs <;> omega
  | one =>
      have hoff := Nat.mod_lt (e.pc + e.size.toUInt32).toNat (show 4096 > 0 by omega)
      simp only [TbEntry.physRange, TbEntry.pageRange, UInt32.toNat_add (e.pageAddr .one),
        toNat_pageOffset]
      generalize (e.pc + e.size.toUInt32).toNat % 4096 = last at hoff ⊢
      by_cases hlast : 0 < last
      · rw [exists_mem_both_iff (by omega) hlast]
        omega
      · refine iff_of_false (by omega) ?_
        rintro ⟨o, -, -, -, ho⟩
        omega

/-! ### The fast path -/

/-- The bits of a bitmap that `tb_invalidate_phys_page_fast` looks at, which lie in one byte. -/
theorem codeBits_ne_zero_iff (tab : ℕ → UInt8) {offset len : ℕ} (hlen : offset % 8 + len ≤ 8) :
    (tab (offset >>> 3) >>> UInt8.ofNat (offset &&& 7)).toNat &&& ((1 <<< len) - 1) ≠ 0 ↔
      ∃ o, offset ≤ o ∧ o < offset + len ∧ codeBit tab o = true := by
  have hshift : (UInt8.ofNat (offset % 8)).toNat % 8 = offset % 8 := by
    rw [UInt8.toNat_ofNat']
    omega
  have hbit : ∀ j < len, ((tab (offset / 8)).toNat >>> (offset % 8)).testBit j =
      codeBit tab (offset + j) := by
    intro j hj
    have hdiv : (offset + j) / 8 = offset / 8 := by omega
    have hmod : (offset + j) % 8 = offset % 8 + j := by omega
    rw [Nat.testBit_shiftRight, codeBit, hdiv, hmod]
  rw [and_seven, shiftRight_three, UInt8.toNat_shiftRight, hshift, Nat.one_shiftLeft,
    Nat.and_two_pow_sub_one_eq_mod]
  constructor
  · intro hne
    obtain ⟨j, hj⟩ := Nat.exists_testBit_of_ne_zero hne
    rw [Nat.testBit_mod_two_pow, Bool.and_eq_true, decide_eq_true_iff] at hj
    exact ⟨offset + j, by omega, by omega, hbit j hj.1 ▸ hj.2⟩
  · rintro ⟨o, hle, hlt, ho⟩ hzero
    obtain ⟨j, rfl⟩ := Nat.exists_eq_add_of_le hle
    have hj : j < len := by omega
    have htest := congrArg (Nat.testBit · j) hzero
    simp only [Nat.testBit_mod_two_pow, hj, decide_true, Bool.true_and, hbit j hj, ho,
      Nat.zero_testBit, Bool.true_eq_false] at htest

section Fast

variable {s : CodeCache} {L : CacheLayout} {dirty : Word32 → UInt8} {env : Option CpuEnv}
  {start : Addr32} {len : ℕ}

/-- A write of bytes that the bitmap does not have hits no block. -/
theorem Shape.struck_eq_empty (h : Shape s L) (hbit : BitmapShape s L)
    (hwf : ∀ tb ∈ L.live, (s.tbs tb).Wf) {tab : ℕ → UInt8}
    (htab : s.bitmap (pageIndex start) = some tab) (hlen : 0 < len)
    (hend : (pageOffset start).toNat + len ≤ 4096)
    (hclear : ¬ ∃ o, (pageOffset start).toNat ≤ o ∧ o < (pageOffset start).toNat + len ∧
      codeBit tab o = true) :
    Struck s start (start + UInt32.ofNat len) (L.page (pageIndex start)) = ∅ := by
  refine Set.eq_empty_iff_forall_notMem.mpr ?_
  rintro tb ⟨n, hmem, hhit⟩
  obtain ⟨hlive, hpage, hindex⟩ := (h.page.mem _ tb n).mp hmem
  obtain ⟨o, hle, hlt, hcov⟩ := ((hwf tb hlive).hit_iff hpage hindex hlen hend).mp hhit
  exact hclear ⟨o, hle, hlt, (hbit _ tab htab o).mpr ⟨(tb, n), hmem, hcov⟩⟩

/-- **The bitmap makes no difference:** a write is passed on if it hits a block. -/
theorem Shape.tbInvalidatePhysPageFast_eq (h : Shape s L) (hbit : BitmapShape s L)
    (hwf : ∀ tb ∈ L.live, (s.tbs tb).Wf) (hlen : 0 < len)
    (hbyte : (pageOffset start).toNat % 8 + len ≤ 8) :
    s.tbInvalidatePhysPageFast dirty env start len =
        s.tbInvalidatePhysPageRange dirty env start (start + UInt32.ofNat len) true ∨
      Struck s start (start + UInt32.ofNat len) (L.page (pageIndex start)) = ∅ ∧
        s.tbInvalidatePhysPageFast dirty env start len = some ⟨s, dirty, env, none⟩ := by
  rw [CodeCache.tbInvalidatePhysPageFast]
  cases hp : s.pageFind (pageIndex start) with
  | none =>
      refine .inl ?_
      rw [CodeCache.tbInvalidatePhysPageRange, hp]
  | some p =>
      cases htab : p.codeBitmap with
      | none => simp only [htab, true_or]
      | some tab =>
          simp only [htab]
          split_ifs with hset
          · exact .inl rfl
          · refine .inr ⟨?_, rfl⟩
            rw [codeBits_ne_zero_iff tab hbyte] at hset
            have hoff := Nat.mod_lt start.toNat (show 4096 > 0 by omega)
            have hend : (pageOffset start).toNat + len ≤ 4096 := by
              rw [toNat_pageOffset] at hbyte ⊢
              omega
            have hbitmap : s.bitmap (pageIndex start) = some tab := by
              rw [CodeCache.bitmap, hp]
              exact htab
            exact h.struck_eq_empty hbit hwf hbitmap hlen hend hset

/-- **A short write invalidates the blocks it hits**, and no others. -/
theorem Shape.tbInvalidatePhysPageFast (h : Shape s L) (hbit : BitmapShape s L)
    (hwf : ∀ tb ∈ L.live, (s.tbs tb).Wf) (henv : Writing L env true) (hlen : 0 < len)
    (hbyte : (pageOffset start).toNat % 8 + len ≤ 8)
    (honce : HitOnce s start (start + UInt32.ofNat len) (L.page (pageIndex start))) :
    ∃ r L', s.tbInvalidatePhysPageFast dirty env start len = some r ∧
      Written s L dirty env start true
        (Struck s start (start + UInt32.ofNat len) (L.page (pageIndex start))) r L' := by
  rcases h.tbInvalidatePhysPageFast_eq hbit hwf hlen hbyte with heq | ⟨hempty, heq⟩
  · rw [heq]
    exact h.tbInvalidatePhysPageRange hbit henv honce
  · rw [heq, hempty]
    exact ⟨_, L, rfl, .refl h hbit⟩

theorem Shape.tbInvalidatePhysPageFast_eq_none (h : Shape s L) (hbit : BitmapShape s L)
    (hwf : ∀ tb ∈ L.live, (s.tbs tb).Wf) (henv : Writing L env true) (hlen : 0 < len)
    (hbyte : (pageOffset start).toNat % 8 + len ≤ 8)
    (honce : ¬ HitOnce s start (start + UInt32.ofNat len) (L.page (pageIndex start))) :
    s.tbInvalidatePhysPageFast dirty env start len = none := by
  rcases h.tbInvalidatePhysPageFast_eq hbit hwf hlen hbyte with heq | ⟨hempty, -⟩
  · rw [heq]
    exact h.tbInvalidatePhysPageRange_eq_none hbit henv honce
  · refine absurd (fun x hx y _ hhit _ _ => ?_) honce
    exact absurd (hempty.subset ⟨x.2, hx, hhit⟩) (Set.notMem_empty x.1)

end Fast

end MemCheck
