import MemCheck.CodeInvalidation

/-!
# The Cache between Operations

`CacheOk` is what holds of the cache between the operations of the emulator: the cells spell out a
layout, the bitmaps agree with it, the code of the blocks lies in `code_gen_buffer` in the order of
the array, and the live blocks are as they have been linked. Each operation keeps it. A block that
has been allocated is not part of the layout before it is linked, so that a translation may be
given up at any point.

## Main results

* `cacheOk_tbFlush`: flushing;
* `CacheOk.fill`: blocks that are not linked may be filled in;
* `CacheOk.tbLinkPhys`: linking a new block;
* `CacheOk.written`: a write to a page with code.
-/

namespace MemCheck

variable {s s' : CodeCache} {L : CacheLayout} {tb : TbPtr} {physPc physPage2 : Addr32}

/-! ### The order of the code -/

namespace CodeOrder

/-- More of the buffer may be used. -/
theorem congr (h : CodeOrder s) (htc : ∀ i < s.nbTbs, (s'.tbs i).tcPtr = (s.tbs i).tcPtr)
    (hnb : s'.nbTbs = s.nbTbs) (hptr : s.codeGenPtr ≤ s'.codeGenPtr) : CodeOrder s' := by
  refine ⟨fun i j hij hj => ?_, fun i hi => ?_⟩
  · rw [hnb] at hj
    rw [htc i (hij.trans_lt hj), htc j hj]
    exact h.mono i j hij hj
  · rw [hnb] at hi
    rw [htc i hi]
    exact (h.le i hi).trans hptr

/-- The code of a new block comes last. -/
theorem push (h : CodeOrder s) (htc : ∀ i < s.nbTbs, (s'.tbs i).tcPtr = (s.tbs i).tcPtr)
    (hnew : (s'.tbs s.nbTbs).tcPtr = s.codeGenPtr) (hnb : s'.nbTbs = s.nbTbs + 1)
    (hptr : s'.codeGenPtr = s.codeGenPtr) : CodeOrder s' := by
  have hle : ∀ i ≤ s.nbTbs, (s'.tbs i).tcPtr ≤ s.codeGenPtr := by
    intro i hi
    rcases hi.lt_or_eq with hi | rfl
    · rw [htc i hi]
      exact h.le i hi
    · exact hnew.le
  refine ⟨fun i j hij hj => ?_, fun i hi => ?_⟩
  · rcases (Nat.lt_succ_iff.mp (hj.trans_eq hnb)).lt_or_eq with hj | rfl
    · rw [htc i (hij.trans_lt hj), htc j hj]
      exact h.mono i j hij hj
    · rw [hnew]
      exact hle i hij
  · rw [hptr]
    exact hle i (Nat.lt_succ_iff.mp (hi.trans_eq hnb))

end CodeOrder

/-! ### The invariant -/

/-- **What holds of the cache** between operations. -/
structure CacheOk (s : CodeCache) (L : CacheLayout) : Prop where
  shape : Shape s L
  bitmap : BitmapShape s L
  order : CodeOrder s
  wf : ∀ tb ∈ L.live, (s.tbs tb).Wf

/-- **Flushing** leaves nothing. -/
theorem cacheOk_tbFlush (s : CodeCache) : CacheOk s.tbFlush .empty :=
  ⟨shape_tbFlush s, bitmapShape_tbFlush s, ⟨fun _ j _ hj => absurd hj (Nat.not_lt_zero j),
    fun i hi => absurd hi (Nat.not_lt_zero i)⟩, fun _ => False.elim⟩

namespace CacheOk

/-- The next block of the array is not linked. -/
theorem nbTbs_not_mem (h : CacheOk s L) : s.nbTbs ∉ L.known := fun hmem =>
  Nat.lt_irrefl _ (h.shape.known_lt _ hmem)

/-- **Blocks that are not linked** may be filled in, and more of the array may be used. -/
theorem fill (h : CacheOk s L)
    (heq : s' = { s with
      tbs := s'.tbs, nbTbs := s'.nbTbs, codeGenPtr := s'.codeGenPtr
      tbInvalidatedFlag := s'.tbInvalidatedFlag })
    (htbs : ∀ t ∈ L.known, s'.tbs t = s.tbs t) (hnb : s.nbTbs ≤ s'.nbTbs)
    (horder : CodeOrder s') : CacheOk s' L := by
  have hlive : ∀ t ∈ L.live, s'.tbs t = s.tbs t := fun t ht =>
    htbs t (h.shape.live_known t ht)
  refine ⟨h.shape.setUnknown heq htbs hnb, fun i tab hi o => ?_, horder, fun t ht => ?_⟩
  · have hsame : s'.bitmap i = s.bitmap i := by rw [heq]; rfl
    rw [h.bitmap i tab (hsame ▸ hi) o]
    refine exists_congr fun x => and_congr_right fun hx => ?_
    rw [hlive x.1 ((h.shape.page.mem i x.1 x.2).mp hx).1]
  · rw [hlive t ht]
    exact h.wf t ht

/-- **Linking a new block.** -/
theorem tbLinkPhys (h : CacheOk s L) (htb : tb ∉ L.known) (hlt : tb < s.nbTbs)
    (hpc : pageOffset (s.tbs tb).pc = pageOffset physPc)
    (hwf : ((s.tbs tb).placed physPc physPage2).Wf) :
    CacheOk (s.tbLinkPhys tb physPc physPage2) (L.enter tb physPc physPage2) := by
  have hlive : tb ∉ L.live := fun hmem => htb (h.shape.live_known tb hmem)
  refine ⟨h.shape.tbLinkPhys htb hlt hpc, h.bitmap.tbLinkPhys h.shape hlive _ _,
    h.order.congr (fun i _ => ?_) CodeCache.tbLinkPhys_nbTbs CodeCache.tbLinkPhys_codeGenPtr.ge,
    fun t ht => ?_⟩
  · rw [CodeCache.tbLinkPhys_tbs]
    by_cases hi : i = tb
    · subst hi
      rw [Function.update_self]
      rfl
    · rw [Function.update_of_ne hi]
  · rw [CodeCache.tbLinkPhys_tbs]
    rcases Set.mem_insert_iff.mp ht with rfl | ht
    · rw [Function.update_self]
      exact hwf
    · rw [Function.update_of_ne (ne_of_mem_of_not_mem ht hlive)]
      exact h.wf t ht

/-- Tables of the processors that lead to live blocks. -/
theorem setJmpCache (h : CacheOk s L) {caches : List (Word32 → Option TbPtr)}
    (hc : ∀ cache ∈ caches, ∀ i t, cache i = some t →
      t ∈ L.live ∧ tbJmpCacheHashFunc (s.tbs t).pc = i) :
    CacheOk { s with tbJmpCache := caches } L :=
  ⟨⟨h.shape.known_lt, h.shape.live_known, ⟨h.shape.hash.lists, h.shape.hash.mem⟩,
    ⟨h.shape.page.lists, h.shape.page.mem, h.shape.page.spaced⟩, h.shape.jmp, h.shape.jumps_live,
    h.shape.first, h.shape.target, h.shape.reset, hc⟩, h.bitmap, ⟨h.order.mono, h.order.le⟩, h.wf⟩

/-- **A write to a page.** -/
theorem written (h : CacheOk s L) {dirty : Word32 → UInt8} {env : Option CpuEnv} {start : Addr32}
    {isCpuWriteAccess : Bool} {D : Set TbPtr} {r : RangeResult} {L' : CacheLayout}
    (hw : Written s L dirty env start isCpuWriteAccess D r L') : CacheOk r.cache L' := by
  refine ⟨hw.shape, hw.bitmap, h.order.congr (fun i _ => by rw [hw.tbs]) hw.nbTbs
    hw.codeGenPtr.ge, fun t ht => ?_⟩
  rw [hw.live] at ht
  rw [hw.tbs]
  exact h.wf t ht.1

end CacheOk

end MemCheck
