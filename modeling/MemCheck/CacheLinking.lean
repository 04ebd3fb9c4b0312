import MemCheck.CacheLayout

/-!
# Linking and Chaining Blocks

A block that has just been translated is linked by `tb_link_phys`: it comes first in its chain
of the hash table and in the lists of its pages, and nothing jumps to it. `tb_add_jump` chains
a jump of one block to another, `tb_alloc` takes the next block of the array, and `tb_flush`
forgets all of them.

## Main results

* `Shape.tbLinkPhys`: linking a new block;
* `Shape.tbAddJump`: chaining a jump;
* `Shape.setUnknown`: blocks that are not linked may be changed;
* `shape_tbFlush`: flushing.
-/

namespace MemCheck

open LinkedCells (Path Leads Lists)

/-! ### Linking a new block -/

namespace CodeCache

variable {s : CodeCache} {tb : TbPtr} {n : Slot} {addr : Addr32}

/-- `tb_alloc_page` puts a link in front of the list of a page. -/
theorem readPage_tbAllocPage :
    (s.tbAllocPage tb n addr).readPage =
      Function.update (Function.update s.readPage (.pageNext (tb, n))
        (s.readPage (.firstTb (pageIndex addr)))) (.firstTb (pageIndex addr)) (some (tb, n)) := by
  have halloc := readPage_pageFindAlloc
    (s.setTb tb fun e => { e with pageAddr := Function.update e.pageAddr n addr })
    (pageIndex addr)
  rw [tbAllocPage, readPage_invalidatePageBitmap, readPage_writePage, readPage_writePage, halloc]
  · rfl
  · trivial
  · exact isSome_pageFind_pageFindAlloc _ _

/-- It drops the bitmap of the page. -/
theorem bitmap_tbAllocPage (s : CodeCache) (tb : TbPtr) (n : Slot) (addr : Addr32) (i : Word32) :
    (s.tbAllocPage tb n addr).bitmap i = none ∨
      i ≠ pageIndex addr ∧ (s.tbAllocPage tb n addr).bitmap i = s.bitmap i := by
  rw [bitmap, tbAllocPage, bitmap]
  by_cases hi : i = pageIndex addr
  · subst hi
    rw [pageFind_setPage_self]
    refine .inl ?_
    generalize CodeCache.pageFind _ _ = p
    cases p <;> rfl
  · rw [pageFind_setPage_of_ne _ hi, writePage, pageFind_setPage_of_ne _ hi]
    rcases pageFind_pageFindAlloc
      (s.setTb tb fun e => { e with pageAddr := Function.update e.pageAddr n addr })
      (pageIndex addr) i with h | ⟨-, h⟩
    · exact .inr ⟨hi, congrArg (Option.bind · PageDesc.codeBitmap) h⟩
    · exact .inl (congrArg (Option.bind · PageDesc.codeBitmap) h)

end CodeCache

theorem pageNext_ne_firstTb (x : PagePtr) (i : Word32) :
    PageCell.pageNext x ≠ PageCell.firstTb i := by
  rintro ⟨⟩

theorem PageLists.tbAllocPage {s : CodeCache} {page : Word32 → List PagePtr}
    (h : PageLists s page) {tb : TbPtr} {n : Slot} (hx : ∀ i, (tb, n) ∉ page i) (addr : Addr32) :
    PageLists (s.tbAllocPage tb n addr)
      (Function.update page (pageIndex addr) ((tb, n) :: page (pageIndex addr))) := by
  rw [PageLists, CodeCache.readPage_tbAllocPage]
  exact h.push pageNext_injective firstTb_injective (Set.mem_univ _) hx (pageNext_ne_firstTb _)

/-- The bits of a mask and the other bits make up a word. -/
theorem and_add_and_not (a m : Word32) : (a &&& m) + (a &&& ~~~ m) = a := by
  have hbv : ∀ x m : BitVec 32, (x &&& m) + (x &&& ~~~ m) = x := by
    intro x m
    have hdisj : (x &&& m) &&& (x &&& ~~~ m) = 0#32 := by
      ext i hi
      simp only [BitVec.getElem_and, BitVec.getElem_not, BitVec.getElem_zero]
      cases x[i] <;> cases m[i] <;> rfl
    rw [BitVec.add_eq_or_of_and_eq_zero _ _ hdisj]
    ext i hi
    simp only [BitVec.getElem_or, BitVec.getElem_and, BitVec.getElem_not]
    cases x[i] <;> cases m[i] <;> rfl
  exact UInt32.toBitVec_inj.mp (hbv a.toBitVec m.toBitVec)

/-- A page and the offset in it make up an address. -/
theorem mask_add_pageOffset (addr : Addr32) : (addr &&& targetPageMask) + pageOffset addr = addr :=
  and_add_and_not addr targetPageMask

/-- The address of a page is one. -/
theorem mask_ne_noPage (addr : Addr32) : addr &&& targetPageMask ≠ noPage := by
  intro h
  have h := congrArg (· &&& 1) h
  simp only [UInt32.and_assoc] at h
  have hmask : targetPageMask &&& 1 = 0 := by decide
  rw [hmask, UInt32.and_zero] at h
  exact absurd h (by decide)

/-- A block on its pages. -/
def TbEntry.placed (e : TbEntry) (physPc physPage2 : Addr32) : TbEntry :=
  { e with
    pageAddr := fun
      | .zero => physPc &&& targetPageMask
      | .one => physPage2 }

section Enter

variable {s : CodeCache} {L : CacheLayout} {tb : TbPtr} {physPc physPage2 : Addr32}

namespace CodeCache

theorem setTb_tbs (f : TbEntry → TbEntry) :
    (s.setTb tb f).tbs = Function.update s.tbs tb (f (s.tbs tb)) := rfl

theorem tbAllocPage_tbs (n : Slot) (addr : Addr32) :
    (s.tbAllocPage tb n addr).tbs = Function.update s.tbs tb
      { s.tbs tb with pageAddr := Function.update (s.tbs tb).pageAddr n addr } := rfl

theorem enter_tbs : (s.enter tb physPc physPage2).tbs =
    Function.update s.tbs tb ((s.tbs tb).placed physPc physPage2) := by
  have hpair : ∀ (f : Slot → Addr32) (a b : Addr32),
      Function.update (Function.update f .zero a) .one b = fun
        | .zero => a
        | .one => b := by
    intro f a b
    funext n
    cases n <;> rfl
  rw [enter]
  split_ifs with h
  · rw [tbAllocPage_tbs, tbAllocPage_tbs, Function.update_self, Function.update_idem, hpair]
    rfl
  · obtain rfl := not_not.mp h
    rw [setTb_tbs, tbAllocPage_tbs, Function.update_self, Function.update_idem, hpair]
    rfl

/-- What linking leaves alone. -/
theorem enter_eq (s : CodeCache) (tb : TbPtr) (physPc physPage2 : Addr32) :
    ∃ pn l1, s.enter tb physPc physPage2 = { s with
    tbs := Function.update s.tbs tb ((s.tbs tb).placed physPc physPage2)
    hashCells := Function.update (Function.update s.hashCells (.physHashNext tb)
      (s.hashCells (.bucket (tbPhysHashFunc physPc)))) (.bucket (tbPhysHashFunc physPc)) (some tb)
    pageNext := pn
    l1Map := l1 } := by
  refine ⟨(s.enter tb physPc physPage2).pageNext, (s.enter tb physPc physPage2).l1Map, ?_⟩
  rw [← enter_tbs, enter]
  split_ifs <;> rfl

end CodeCache

/-- The layout with a new block. -/
def CacheLayout.enter (L : CacheLayout) (tb : TbPtr) (physPc physPage2 : Addr32) :
    CacheLayout where
  known := insert tb L.known
  live := insert tb L.live
  hash := Function.update L.hash (tbPhysHashFunc physPc) (tb :: L.hash (tbPhysHashFunc physPc))
  page :=
    let i := pageIndex (physPc &&& targetPageMask)
    let page := Function.update L.page i ((tb, .zero) :: L.page i)
    if physPage2 ≠ noPage then
      Function.update page (pageIndex physPage2) ((tb, .one) :: page (pageIndex physPage2))
    else page
  jumps := L.jumps

/-- What is in a family of lists with one more pointer. -/
theorem mem_update_cons {I P : Type} [DecidableEq I] {lists : I → List P} {i j : I} {x y : P} :
    y ∈ Function.update lists i (x :: lists i) j ↔ j = i ∧ y = x ∨ y ∈ lists j := by
  by_cases hj : j = i
  · subst hj
    rw [Function.update_self, List.mem_cons]
    simp only [true_and]
  · rw [Function.update_of_ne hj]
    simp only [hj, false_and, false_or]

/-- The physical address a block is entered under is the one it is looked for under. -/
theorem TbEntry.placed_physPc {e : TbEntry} (h : pageOffset e.pc = pageOffset physPc) :
    (e.placed physPc physPage2).physPc = physPc := by
  have : (e.placed physPc physPage2).physPc = (physPc &&& targetPageMask) + pageOffset e.pc := rfl
  rw [this, h, mask_add_pageOffset]

/-- A new block in the hash table. -/
theorem HashShape.enter {s' : CodeCache} {live : Set TbPtr} {hash : Word32 → List TbPtr}
    (h : HashShape s live hash) (htb : tb ∉ live)
    (hpc : pageOffset (s.tbs tb).pc = pageOffset physPc)
    (htbs : s'.tbs = Function.update s.tbs tb ((s.tbs tb).placed physPc physPage2))
    (hcells : s'.hashCells = Function.update (Function.update s.hashCells (.physHashNext tb)
      (s.hashCells (.bucket (tbPhysHashFunc physPc)))) (.bucket (tbPhysHashFunc physPc))
      (some tb)) :
    HashShape s' (insert tb live)
      (Function.update hash (tbPhysHashFunc physPc) (tb :: hash (tbPhysHashFunc physPc))) := by
  refine ⟨?_, fun i tb' => ?_⟩
  · rw [hcells]
    exact h.lists.push physHashNext_injective bucket_injective (Set.mem_univ _)
      (fun j hj => htb ((h.mem j tb).mp hj).1) fun _ => nofun
  · rw [mem_update_cons, Set.mem_insert_iff, htbs]
    by_cases heq : tb' = tb
    · subst heq
      rw [Function.update_self, TbEntry.placed_physPc hpc, h.mem]
      simp only [htb, false_and, or_false, and_true, true_and, eq_comm]
    · rw [Function.update_of_ne heq, h.mem]
      simp only [heq, and_false, false_or]

/-- What the page lists hold with a new block. -/
theorem CacheLayout.mem_enter_page {i : Word32} {x : PagePtr} :
    x ∈ (L.enter tb physPc physPage2).page i ↔
      i = pageIndex (physPc &&& targetPageMask) ∧ x = (tb, .zero) ∨
      physPage2 ≠ noPage ∧ i = pageIndex physPage2 ∧ x = (tb, .one) ∨ x ∈ L.page i := by
  simp only [CacheLayout.enter]
  split_ifs with h
  · rw [mem_update_cons, mem_update_cons]
    simp only [h, true_and, ne_eq, not_false_eq_true]
    exact or_left_comm
  · rw [mem_update_cons]
    simp only [h, false_and, false_or]

/-- The links of a new block come first, next to each other. -/
theorem CacheLayout.enter_spaced (hnot : ∀ n i, (tb, n) ∉ L.page i)
    (h : ∀ i, Spaced (L.page i)) (i : Word32) :
    Spaced ((L.enter tb physPc physPage2).page i) := by
  have hne : ∀ i y, y ∈ L.page i → y.1 ≠ tb := fun i y hy heq => hnot y.2 i (heq ▸ hy)
  have hone : ∀ i j, Spaced (Function.update L.page j ((tb, .zero) :: L.page j) i) := by
    intro i j
    by_cases hij : i = j
    · subst hij
      rw [Function.update_self]
      exact ⟨fun y hy => hne i y (List.mem_of_mem_tail hy), h i⟩
    · rw [Function.update_of_ne hij]
      exact h i
  simp only [CacheLayout.enter]
  generalize pageIndex (physPc &&& targetPageMask) = j
  split_ifs
  · by_cases hij : i = pageIndex physPage2
    · subst hij
      rw [Function.update_self]
      refine ⟨fun y hy => ?_, hone _ j⟩
      by_cases hj : pageIndex physPage2 = j
      · subst hj
        rw [Function.update_self] at hy
        exact hne _ y hy
      · rw [Function.update_of_ne hj] at hy
        exact hne _ y (List.mem_of_mem_tail hy)
    · rw [Function.update_of_ne hij]
      exact hone i j
  · exact hone i j

theorem PageLists.enter (h : PageLists s L.page) (hnot : ∀ n i, (tb, n) ∉ L.page i) :
    PageLists (s.enter tb physPc physPage2) (L.enter tb physPc physPage2).page := by
  let s₀ := (s.writeHash (.physHashNext tb)
    (s.hashCells (.bucket (tbPhysHashFunc physPc)))).writeHash
    (.bucket (tbPhysHashFunc physPc)) (some tb)
  have h₀ : PageLists s₀ L.page := h
  have h₁ := PageLists.tbAllocPage h₀ (hnot .zero) (physPc &&& targetPageMask)
  rw [CodeCache.enter, CacheLayout.enter]
  split_ifs with h₂
  · refine PageLists.tbAllocPage h₁ (fun i hmem => ?_) physPage2
    rcases mem_update_cons.mp hmem with ⟨-, heq⟩ | hmem
    · cases heq
    · exact hnot .one i hmem
  · exact h₁

/-- A new block in the page lists. -/
theorem PageShape.enter (h : PageShape s L.live L.page) (htb : tb ∉ L.live)
    (physPc physPage2 : Addr32) : PageShape (s.enter tb physPc physPage2) (insert tb L.live)
      (L.enter tb physPc physPage2).page := by
  have hnot : ∀ n i, (tb, n) ∉ L.page i := fun n i hmem => htb ((h.mem i tb n).mp hmem).1
  refine ⟨PageLists.enter h.lists hnot, fun i tb' n => ?_,
    CacheLayout.enter_spaced hnot h.spaced⟩
  rw [CodeCache.enter_tbs, CacheLayout.mem_enter_page, Set.mem_insert_iff]
  by_cases heq : tb' = tb
  · subst heq
    rw [Function.update_self]
    cases n with
    | zero =>
        have hon : ((s.tbs tb').placed physPc physPage2).OnPage .zero i ↔
            pageIndex (physPc &&& targetPageMask) = i := and_iff_right (mask_ne_noPage physPc)
        rw [hon]
        simp only [hnot, Prod.mk.injEq, reduceCtorEq, and_false, and_true, true_and, true_or,
          or_false, eq_comm]
    | one =>
        have hon : ((s.tbs tb').placed physPc physPage2).OnPage .one i ↔
            physPage2 ≠ noPage ∧ pageIndex physPage2 = i := Iff.rfl
        rw [hon]
        simp only [hnot, Prod.mk.injEq, reduceCtorEq, and_false, and_true, true_and, true_or,
          or_false, false_or, eq_comm]
  · rw [Function.update_of_ne heq, h.mem]
    simp only [Prod.mk.injEq, heq, false_and, and_false, false_or]

/-- A new block, to which nothing jumps yet. -/
theorem JmpShape.enter {cells cells' : JmpPtr → Option JmpPtr} {known : Set TbPtr}
    {jumps : TbPtr → List JmpPtr} (h : JmpShape cells known jumps) (htb : tb ∉ known)
    (hfirst : cells' (.jmpFirst tb) = some (.jmpFirst tb))
    (hnext : ∀ n, cells' (.jmpNext tb n) = none)
    (hother : ∀ x, x ≠ .jmpFirst tb → (∀ n, x ≠ .jmpNext tb n) → cells' x = cells x) :
    JmpShape cells' (insert tb known) jumps := by
  have hnil : jumps tb = [] := List.eq_nil_iff_forall_not_mem.mpr fun x hx =>
    htb (h.lists.mem_dom tb x hx)
  have hjmpNext : ∀ tb' n, tb' ≠ tb → cells' (.jmpNext tb' n) = cells (.jmpNext tb' n) :=
    fun tb' n hne => hother _ nofun fun m heq => hne (JmpPtr.jmpNext.inj heq).1
  refine ⟨⟨fun t ht => ?_, h.lists.nodup, h.lists.unique, fun t x hx => ?_, h.lists.apart⟩,
    fun t tb' n hx => ?_, fun tb' htb' n hn => ?_⟩
  · rcases Set.mem_insert_iff.mp ht with rfl | ht
    · rw [hnil]
      exact hfirst
    · refine (h.lists.path t ht).congr fun c hc => ?_
      rcases JmpShape.mem_cells.mp hc with rfl | hc
      · have hne : t ≠ tb := ne_of_mem_of_not_mem ht htb
        exact hother _ (fun heq => hne (JmpPtr.jmpFirst.inj heq)) fun n => nofun
      · obtain ⟨tb', n, rfl⟩ := h.eq_jmpNext hc
        exact hjmpNext tb' n (ne_of_mem_of_not_mem (h.source t tb' n hc) htb)
  · exact Set.mem_insert_of_mem _ (h.lists.mem_dom t x hx)
  · exact Set.mem_insert_of_mem _ (h.source t tb' n hx)
  · rcases Set.mem_insert_iff.mp htb' with rfl | htb'
    · exact hnext n
    · rw [hjmpNext tb' n (ne_of_mem_of_not_mem htb' htb)]
      exact h.unchained tb' htb' n hn

/-- Where the jumps of a block go once they have been initialised. -/
def TbEntry.initJumps (e : TbEntry) (tb : TbPtr) (next : TbPtr × Slot → ℕ) : TbPtr × Slot → ℕ :=
  fun x => if x.1 = tb ∧ e.tbNextOffset x.2 ≠ 0xffff then
    e.tcPtr + (e.tbNextOffset x.2).toNat else next x

theorem CodeCache.initJump_eq (s : CodeCache) (n : Slot) : s.initJump tb n = { s with
    tbNext := if (s.tbs tb).tbNextOffset n ≠ 0xffff then
        Function.update s.tbNext (tb, n) ((s.tbs tb).tcPtr + ((s.tbs tb).tbNextOffset n).toNat)
      else s.tbNext } := by
  rw [CodeCache.initJump]
  split_ifs <;> rfl

theorem CodeCache.initJumps_eq (s : CodeCache) :
    (s.initJump tb .zero).initJump tb .one = { s with
      tbNext := (s.tbs tb).initJumps tb s.tbNext } := by
  rw [CodeCache.initJump_eq, CodeCache.initJump_eq]
  simp only [CodeCache.mk.injEq, true_and, and_true]
  funext ⟨t, n⟩
  simp only [TbEntry.initJumps]
  by_cases ht : t = tb
  · subst ht
    cases n with
    | zero =>
        have hne : (t, Slot.zero) ≠ (t, .one) := nofun
        split_ifs <;> simp_all
    | one =>
        have hne : (t, Slot.one) ≠ (t, .zero) := nofun
        split_ifs <;> simp_all
  · have hne : ∀ m, (t, n) ≠ (tb, m) := fun m heq => ht (Prod.mk.inj heq).1
    split_ifs <;> simp_all

/-- What `tb_link_phys` leaves alone. -/
theorem CodeCache.tbLinkPhys_eq : s.tbLinkPhys tb physPc physPage2 =
    { s.enter tb physPc physPage2 with
      jmpCells := Function.update (Function.update (Function.update s.jmpCells (.jmpFirst tb)
        (some (.jmpFirst tb))) (.jmpNext tb .zero) none) (.jmpNext tb .one) none
      tbNext := (s.tbs tb).initJumps tb s.tbNext } := by
  obtain ⟨pn, l1, he⟩ := CodeCache.enter_eq s tb physPc physPage2
  rw [CodeCache.tbLinkPhys, he]
  simp only [CodeCache.initJumps_eq, CodeCache.writeJmp, Function.update_self]
  rfl

theorem CodeCache.tbLinkPhys_tbs : (s.tbLinkPhys tb physPc physPage2).tbs =
    Function.update s.tbs tb ((s.tbs tb).placed physPc physPage2) := by
  rw [CodeCache.tbLinkPhys_eq]
  exact CodeCache.enter_tbs

theorem CodeCache.tbLinkPhys_nbTbs : (s.tbLinkPhys tb physPc physPage2).nbTbs = s.nbTbs := by
  obtain ⟨pn, l1, he⟩ := CodeCache.enter_eq s tb physPc physPage2
  rw [CodeCache.tbLinkPhys_eq, he]

theorem CodeCache.tbLinkPhys_codeGenPtr :
    (s.tbLinkPhys tb physPc physPage2).codeGenPtr = s.codeGenPtr := by
  obtain ⟨pn, l1, he⟩ := CodeCache.enter_eq s tb physPc physPage2
  rw [CodeCache.tbLinkPhys_eq, he]

/-- **Linking a new block.** -/
theorem Shape.tbLinkPhys (h : Shape s L) (htb : tb ∉ L.known) (hlt : tb < s.nbTbs)
    (hpc : pageOffset (s.tbs tb).pc = pageOffset physPc) :
    Shape (s.tbLinkPhys tb physPc physPage2) (L.enter tb physPc physPage2) := by
  have hlive : tb ∉ L.live := fun hmem => htb (h.live_known tb hmem)
  have hpage := h.page.enter hlive physPc physPage2
  obtain ⟨pn, l1, he⟩ := CodeCache.enter_eq s tb physPc physPage2
  rw [CodeCache.tbLinkPhys_eq]
  rw [he] at hpage ⊢
  -- the other blocks have stayed as they were
  have htbs : ∀ t ∈ L.live, Function.update s.tbs tb ((s.tbs tb).placed physPc physPage2) t =
      s.tbs t := fun t ht => Function.update_of_ne (ne_of_mem_of_not_mem ht hlive) _ _
  refine ⟨fun t ht => ?_, fun t ht => ?_, h.hash.enter hlive hpc rfl rfl,
    ⟨hpage.lists, hpage.mem, hpage.spaced⟩,
    h.jmp.enter htb ?_ (fun n => ?_) (fun x hfirst hnext => ?_),
    fun t x hx => Set.mem_insert_of_mem _ (h.jumps_live t x hx), fun t ht => ?_,
    fun t tb' n hx => ?_, fun t ht n hn hoff => ?_, fun cache hcache i t ht => ?_⟩
  · rcases Set.mem_insert_iff.mp ht with rfl | ht
    · exact hlt
    · exact h.known_lt t ht
  · rcases Set.mem_insert_iff.mp ht with rfl | ht
    · exact Set.mem_insert _ _
    · exact Set.mem_insert_of_mem _ (h.live_known t ht)
  · have hne : ∀ n, JmpPtr.jmpFirst tb ≠ .jmpNext tb n := fun n => nofun
    simp only [Function.update_of_ne (hne _), Function.update_self]
  · cases n with
    | zero =>
        have hne : JmpPtr.jmpNext tb .zero ≠ .jmpNext tb .one := nofun
        simp only [Function.update_of_ne hne, Function.update_self]
    | one => simp only [Function.update_self]
  · simp only [Function.update_of_ne (hnext _), Function.update_of_ne hfirst]
  · rcases Set.mem_insert_iff.mp ht with rfl | ht
    · simp only [Function.update_self]
      exact mask_ne_noPage physPc
    · simp only [htbs t ht]
      exact h.first t ht
  · have hne : tb' ≠ tb := ne_of_mem_of_not_mem (h.jmp.source t tb' n hx) htb
    simp only [htbs t (h.jumps_live t _ hx), TbEntry.initJumps, hne, false_and, if_false]
    exact h.target t tb' n hx
  · rcases Set.mem_insert_iff.mp ht with rfl | ht
    · simp only [Function.update_self] at hoff ⊢
      simp only [TbEntry.initJumps, true_and]
      exact if_pos hoff
    · have hne : t ≠ tb := ne_of_mem_of_not_mem ht hlive
      simp only [htbs t ht] at hoff ⊢
      simp only [TbEntry.initJumps, hne, false_and, if_false]
      exact h.reset t ht n hn hoff
  · obtain ⟨hmem, hhash⟩ := h.cached cache hcache i t ht
    refine ⟨Set.mem_insert_of_mem _ hmem, ?_⟩
    simp only [htbs t hmem]
    exact hhash

end Enter

/-! ### Chaining -/

/-- The layout with a jump of `tb` chained to `next`. -/
def CacheLayout.chain (L : CacheLayout) (tb : TbPtr) (n : Slot) (next : TbPtr) : CacheLayout :=
  { L with jumps := Function.update L.jumps next (.jmpNext tb n :: L.jumps next) }

section Chain

variable {s : CodeCache} {L : CacheLayout} {tb next : TbPtr} {n : Slot}

theorem JmpShape.push {cells : JmpPtr → Option JmpPtr} {known : Set TbPtr}
    {jumps : TbPtr → List JmpPtr} (h : JmpShape cells known jumps) (htb : tb ∈ known)
    (hnext : next ∈ known) (hnone : cells (.jmpNext tb n) = none) :
    JmpShape (Function.update (Function.update cells (.jmpNext tb n) (cells (.jmpFirst next)))
      (.jmpFirst next) (some (.jmpNext tb n))) known
      (Function.update jumps next (.jmpNext tb n :: jumps next)) := by
  have hnot : ∀ t, .jmpNext tb n ∉ jumps t := fun t ht => h.ne_none ht hnone
  refine ⟨h.lists.push Function.injective_id jmpFirst_injective hnext hnot fun _ => nofun,
    fun t tb' n' hx => ?_, fun tb' htb' n' hn' => ?_⟩
  · rcases mem_update_cons.mp hx with ⟨-, heq⟩ | hx
    · exact (JmpPtr.jmpNext.inj heq).1 ▸ htb
    · exact h.source t tb' n' hx
  · have hne : JmpPtr.jmpNext tb' n' ≠ .jmpNext tb n := fun heq =>
      hn' next (mem_update_cons.mpr (.inl ⟨rfl, heq⟩))
    have hfirst : JmpPtr.jmpNext tb' n' ≠ .jmpFirst next := nofun
    rw [Function.update_of_ne hfirst, Function.update_of_ne hne]
    exact h.unchained tb' htb' n' fun t ht => hn' t (mem_update_cons.mpr (.inr ht))

/-- **Chaining a jump** that is not chained yet. -/
theorem Shape.tbAddJump (h : Shape s L) (htb : tb ∈ L.known) (hnext : next ∈ L.live) :
    Shape (s.tbAddJump tb n next)
      (if s.jmpCells (.jmpNext tb n) = none then L.chain tb n next else L) := by
  rw [CodeCache.tbAddJump]
  cases hcell : s.jmpCells (.jmpNext tb n) with
  | some y =>
      rw [if_neg (Option.some_ne_none y)]
      exact h
  | none =>
      rw [if_pos rfl]
      refine ⟨h.known_lt, h.live_known, ⟨h.hash.lists, h.hash.mem⟩,
        ⟨h.page.lists, h.page.mem, h.page.spaced⟩,
        h.jmp.push htb (h.live_known next hnext) hcell, fun t x hx => ?_, h.first,
        fun t tb' n' hx => ?_, fun t ht n' hn' hoff => ?_, h.cached⟩
      · rcases mem_update_cons.mp hx with ⟨rfl, -⟩ | hx
        · exact hnext
        · exact h.jumps_live t x hx
      · by_cases heq : (tb', n') = (tb, n)
        · obtain ⟨rfl, rfl⟩ := Prod.mk.inj heq
          rcases mem_update_cons.mp hx with ⟨rfl, -⟩ | hx
          · exact Function.update_self _ _ _
          · exact absurd hcell (h.jmp.ne_none hx)
        · rcases mem_update_cons.mp hx with ⟨-, hx⟩ | hx
          · obtain ⟨rfl, rfl⟩ := JmpPtr.jmpNext.inj hx
            exact absurd rfl heq
          · exact (Function.update_of_ne heq _ _).trans (h.target t tb' n' hx)
      · have hne : (t, n') ≠ (tb, n) := by
          rintro ⟨⟩
          exact hn' next (mem_update_cons.mpr (.inl ⟨rfl, rfl⟩))
        refine (Function.update_of_ne hne _ _).trans (h.reset t ht n' (fun t' ht' => ?_) hoff)
        exact hn' t' (mem_update_cons.mpr (.inr ht'))

end Chain

/-! ### Blocks that are not linked -/

section Unknown

variable {s : CodeCache} {L : CacheLayout}

/-- Blocks that are not linked may be changed, and more of the array may be used. -/
theorem Shape.setUnknown (h : Shape s L) {s' : CodeCache}
    (heq : s' = { s with
      tbs := s'.tbs, nbTbs := s'.nbTbs, codeGenPtr := s'.codeGenPtr
      tbInvalidatedFlag := s'.tbInvalidatedFlag })
    (htbs : ∀ t ∈ L.known, s'.tbs t = s.tbs t) (hnb : s.nbTbs ≤ s'.nbTbs) : Shape s' L := by
  obtain ⟨tbs, nb, ptr, flag, rfl⟩ : ∃ tbs nb ptr flag, s' = { s with
      tbs := tbs, nbTbs := nb, codeGenPtr := ptr, tbInvalidatedFlag := flag } :=
    ⟨_, _, _, _, heq⟩
  have htbs' : ∀ t ∈ L.live, tbs t = s.tbs t := fun t ht => htbs t (h.live_known t ht)
  refine ⟨fun t ht => (h.known_lt t ht).trans_le hnb, h.live_known,
    ⟨h.hash.lists, fun i t => (h.hash.mem i t).trans (and_congr_right fun ht => ?_)⟩,
    ⟨h.page.lists, fun i t n => (h.page.mem i t n).trans (and_congr_right fun ht => ?_),
      h.page.spaced⟩,
    h.jmp, h.jumps_live, fun t ht => ?_, fun t tb' n hx => ?_, fun t ht n hn hoff => ?_,
    fun cache hcache i t ht => ?_⟩
  · simp only [htbs' t ht]
  · simp only [htbs' t ht]
  · simp only [htbs' t ht]
    exact h.first t ht
  · simp only [htbs' t (h.jumps_live t _ hx)]
    exact h.target t tb' n hx
  · simp only [htbs' t ht] at hoff ⊢
    exact h.reset t ht n hn hoff
  · obtain ⟨hmem, hhash⟩ := h.cached cache hcache i t ht
    simp only [htbs' t hmem]
    exact ⟨hmem, hhash⟩

/-- The layout of an empty cache. -/
def CacheLayout.empty : CacheLayout := ⟨∅, ∅, fun _ => [], fun _ => [], fun _ => []⟩

/-- **Flushing** leaves nothing. -/
theorem shape_tbFlush (s : CodeCache) : Shape s.tbFlush .empty := by
  have hpage : ∀ i, s.tbFlush.readPage (.firstTb i) = none := by
    intro i
    simp only [CodeCache.readPage, CodeCache.pageFind, CodeCache.tbFlush, CodeCache.pageFlushTb]
    cases s.l1Map (i >>> 10) <;> rfl
  refine ⟨fun _ => False.elim, fun _ => False.elim,
    ⟨.nil fun _ _ => rfl, fun _ _ => iff_of_false List.not_mem_nil fun h => h.1.elim⟩,
    ⟨.nil fun i _ => hpage i, fun _ _ _ => iff_of_false List.not_mem_nil fun h => h.1.elim,
      fun _ => trivial⟩,
    ⟨.nil fun _ => False.elim, fun _ _ _ h => absurd h List.not_mem_nil, fun _ => False.elim⟩,
    fun _ _ h => absurd h List.not_mem_nil, fun _ => False.elim,
    fun _ _ _ h => absurd h List.not_mem_nil, fun _ => False.elim, fun cache hcache i t ht => ?_⟩
  obtain ⟨_, -, rfl⟩ := List.mem_map.mp hcache
  cases ht

end Unknown

/-! ### Two blocks -/

/-- The blocks of an array: 16 bytes each, one after the other. -/
def TbEntry.sample (i : ℕ) : TbEntry where
  pc := 0xc0105000 + 16 * UInt32.ofNat i
  csBase := 0
  flags := 0
  size := 16
  cflags := 0
  tcPtr := 32 * i
  pageAddr _ := noPage
  tbNextOffset _ := 8

/-- An empty cache of one processor. -/
def CodeCache.blank : CodeCache :=
  CodeCache.tbFlush ⟨TbEntry.sample, 0, fun _ => none, fun _ => none, fun _ => none,
    fun _ => none, fun _ => 0, 0, [fun _ => none], false⟩

/-- Two blocks have been translated, and not been linked yet. -/
def CodeCache.filled : CodeCache := { CodeCache.blank with nbTbs := 2, codeGenPtr := 64 }

/-- Two blocks on one page. -/
def CodeCache.pair : CodeCache :=
  (CodeCache.filled.tbLinkPhys 0 0x00105000 noPage).tbLinkPhys 1 0x00105010 noPage

def CacheLayout.pair : CacheLayout :=
  (CacheLayout.empty.enter 0 0x00105000 noPage).enter 1 0x00105010 noPage

theorem shape_filled : Shape CodeCache.filled .empty :=
  (shape_tbFlush _).setUnknown rfl (fun _ _ => rfl) (Nat.zero_le 2)

theorem shape_pair : Shape CodeCache.pair CacheLayout.pair := by
  have hfirst : Shape (CodeCache.filled.tbLinkPhys 0 0x00105000 noPage)
      (CacheLayout.empty.enter 0 0x00105000 noPage) :=
    shape_filled.tbLinkPhys nofun (by decide) (by decide)
  refine hfirst.tbLinkPhys ?_ (by decide) (by decide)
  rintro (h | h)
  · cases h
  · exact h

end MemCheck
