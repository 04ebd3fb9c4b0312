import Mathlib.Data.List.ProdSigma
import Mathlib.Data.Set.Insert
import MemCheck.CodeCache

/-!
# The Lists of the Cache

Under the cells of the cache lies a layout: which blocks are live, the chain of each bucket of
the hash table, the list of each page, and for each block the list of the jumps chained to it.
`Shape` says that the cells spell out a layout, that the chains and the page lists hold exactly
the live blocks that belong there, and that everything that leads to a block — a bucket, a
page, a chained jump, an entry of `tb_jmp_cache` — leads to a live one.

Blocks that were once linked stay *known* until the next flush: a block may be invalidated while
it is executed, and be chained to the next one afterwards.

The functions that take blocks and jumps out are shown to do to the cells what is plainly said
of the layout. That a walk ends, and meets no null pointer, is part of it.

## Main results

* `Shape.tbPhysInvalidate`: invalidating a live block takes it out of everything.
-/

namespace MemCheck

open LinkedCells (Path Leads Lists)

/-! ### Page descriptors -/

/-- The two parts of the index of a page determine it. -/
theorem index_eq_of_parts {i j : Word32} (h₁ : i >>> 10 = j >>> 10)
    (h₂ : i &&& 0x3ff = j &&& 0x3ff) : i = j := by
  have h₁ := congrArg UInt32.toNat h₁
  have h₂ := congrArg UInt32.toNat h₂
  have hmask : ∀ k : Word32, (k &&& 0x3ff).toNat = k.toNat % 1024 := fun k => by
    rw [UInt32.toNat_and]
    exact Nat.and_two_pow_sub_one_eq_mod k.toNat 10
  have hshift : ∀ k : Word32, (k >>> 10).toNat = k.toNat / 1024 := fun k => by
    rw [UInt32.toNat_shiftRight]
    exact Nat.shiftRight_eq_div_pow k.toNat 10
  rw [hshift, hshift] at h₁
  rw [hmask, hmask] at h₂
  refine UInt32.toNat_inj.mp ?_
  omega

namespace CodeCache

variable {s : CodeCache} {i j : Word32}

theorem pageFind_setPage_self (f : PageDesc → PageDesc) :
    (s.setPage i f).pageFind i = (s.pageFind i).map f := by
  simp only [pageFind, setPage, Function.update_self]
  cases s.l1Map (i >>> 10) with
  | none => rfl
  | some p => simp only [Option.map_some, Function.update_self]

theorem pageFind_setPage_of_ne (f : PageDesc → PageDesc) (h : j ≠ i) :
    (s.setPage i f).pageFind j = s.pageFind j := by
  simp only [pageFind, setPage]
  by_cases hl1 : j >>> 10 = i >>> 10
  · -- the same table of the second level
    have hl2 : j &&& 0x3ff ≠ i &&& 0x3ff := fun hl2 => h (index_eq_of_parts hl1 hl2)
    rw [hl1, Function.update_self]
    cases s.l1Map (i >>> 10) with
    | none => rfl
    | some p => simp only [Option.map_some, Function.update_of_ne hl2]
  · rw [Function.update_of_ne hl1]

/-- Allocating descriptors. -/
theorem pageFind_pageFindAlloc (s : CodeCache) (i j : Word32) :
    (s.pageFindAlloc i).pageFind j = s.pageFind j ∨
      s.pageFind j = none ∧ (s.pageFindAlloc i).pageFind j = some PageDesc.zero := by
  simp only [pageFind, pageFindAlloc]
  cases hl1 : s.l1Map (i >>> 10) with
  | some p => exact .inl rfl
  | none =>
      by_cases hj : j >>> 10 = i >>> 10
      · rw [hj, hl1]
        simp only [Function.update_self, Option.map_none, Option.map_some, true_and, or_true]
      · exact .inl (by simp only [Function.update_of_ne hj])

theorem isSome_pageFind_pageFindAlloc (s : CodeCache) (i : Word32) :
    ((s.pageFindAlloc i).pageFind i).isSome = true := by
  simp only [pageFind, pageFindAlloc, Option.isSome_map]
  cases hl1 : s.l1Map (i >>> 10) with
  | some p => simp only [hl1, Option.isSome_some]
  | none => simp only [Function.update_self, Option.isSome_some]

theorem isSome_pageFind_setPage (f : PageDesc → PageDesc) :
    ((s.setPage i f).pageFind j).isSome = (s.pageFind j).isSome := by
  by_cases h : j = i
  · subst h
    rw [pageFind_setPage_self, Option.isSome_map]
  · rw [pageFind_setPage_of_ne f h]

/-- New descriptors have empty lists. -/
theorem readPage_pageFindAlloc (s : CodeCache) (i : Word32) :
    (s.pageFindAlloc i).readPage = s.readPage := by
  funext c
  cases c with
  | firstTb j =>
      rw [readPage, readPage]
      rcases pageFind_pageFindAlloc s i j with h | ⟨h, h'⟩
      · rw [h]
      · rw [h, h']
        rfl
  | pageNext x => rfl

/-- Changes of a descriptor that leave its list alone. -/
theorem readPage_setPage {f : PageDesc → PageDesc} (hf : ∀ p, (f p).firstTb = p.firstTb) :
    (s.setPage i f).readPage = s.readPage := by
  funext c
  cases c with
  | firstTb j =>
      rw [readPage, readPage]
      by_cases h : j = i
      · subst h
        rw [pageFind_setPage_self]
        cases s.pageFind j with
        | none => rfl
        | some p => exact hf p
      · rw [pageFind_setPage_of_ne f h]
  | pageNext x => rfl

theorem readPage_invalidatePageBitmap :
    (s.setPage i PageDesc.invalidatePageBitmap).readPage = s.readPage :=
  readPage_setPage fun _ => rfl

/-- The first cell of a page list belongs to a descriptor. -/
def HasCell (s : CodeCache) : PageCell → Prop
  | .firstTb i => (s.pageFind i).isSome = true
  | .pageNext _ => True

theorem readPage_writePage {c : PageCell} (h : s.HasCell c) (v : Option PagePtr) :
    (s.writePage c v).readPage = Function.update s.readPage c v := by
  funext d
  cases c with
  | firstTb i =>
      cases d with
      | firstTb j =>
          rw [readPage, writePage]
          by_cases hj : j = i
          · subst hj
            obtain ⟨p, hp⟩ := Option.isSome_iff_exists.mp h
            rw [pageFind_setPage_self, hp, Function.update_self]
            rfl
          · have hne : PageCell.firstTb j ≠ .firstTb i := fun heq => hj (PageCell.firstTb.inj heq)
            rw [pageFind_setPage_of_ne _ hj, Function.update_of_ne hne, readPage]
      | pageNext x =>
          have hne : PageCell.pageNext x ≠ .firstTb i := nofun
          rw [Function.update_of_ne hne]
          rfl
  | pageNext x =>
      cases d with
      | firstTb j =>
          have hne : PageCell.firstTb j ≠ .pageNext x := nofun
          rw [Function.update_of_ne hne]
          rfl
      | pageNext y =>
          simp only [readPage, writePage]
          by_cases hy : y = x
          · subst hy
            rw [Function.update_self, Function.update_self]
          · have hne : PageCell.pageNext y ≠ .pageNext x := fun heq =>
              hy (PageCell.pageNext.inj heq)
            rw [Function.update_of_ne hy, Function.update_of_ne hne, readPage]

/-- The bitmap of a page. -/
def bitmap (s : CodeCache) (i : Word32) : Option (ℕ → UInt8) :=
  (s.pageFind i).bind PageDesc.codeBitmap

theorem bitmap_invalidatePageBitmap :
    (s.setPage i PageDesc.invalidatePageBitmap).bitmap i = none := by
  rw [bitmap, pageFind_setPage_self]
  cases s.pageFind i <;> rfl

/-- Only page lists and descriptors have changed, of the cells only some that led to the block
`tb`, and bitmaps have at most been dropped. -/
structure PagesChanged (s : CodeCache) (tb : TbPtr) (s' : CodeCache) : Prop where
  eq : s' = { s with pageNext := s'.pageNext, l1Map := s'.l1Map }
  cell : ∀ c, (∀ y, s.readPage c = some y → y.1 ≠ tb) → s'.readPage c = s.readPage c
  isSome : ∀ i, (s'.pageFind i).isSome = (s.pageFind i).isSome
  bitmap : ∀ i, s'.bitmap i = none ∨ s'.bitmap i = s.bitmap i

namespace PagesChanged

variable {s' s'' : CodeCache} {tb : TbPtr}

theorem trans (h : PagesChanged s tb s') (h' : PagesChanged s' tb s'') :
    PagesChanged s tb s'' := by
  refine ⟨?_, fun c hc => ?_, fun i => (h'.isSome i).trans (h.isSome i), fun i => ?_⟩
  · rw [h'.eq, h.eq]
  · have hs' := h.cell c hc
    exact (h'.cell c (hs' ▸ hc)).trans hs'
  · rcases h'.bitmap i with h₁ | h₁
    · exact .inl h₁
    · rw [h₁]
      exact h.bitmap i

/-- Changing a descriptor but for its list. -/
theorem setPage {f : PageDesc → PageDesc} (hfirst : ∀ p, (f p).firstTb = p.firstTb)
    (hf : ∀ p, (f p).codeBitmap = none ∨ (f p).codeBitmap = p.codeBitmap) :
    PagesChanged s tb (s.setPage i f) := by
  refine ⟨rfl, fun c _ => by rw [readPage_setPage hfirst],
    fun _ => isSome_pageFind_setPage f, fun j => ?_⟩
  rw [CodeCache.bitmap, CodeCache.bitmap]
  by_cases hj : j = i
  · subst hj
    rw [pageFind_setPage_self]
    cases s.pageFind j with
    | none => exact .inl rfl
    | some p => exact hf p
  · rw [pageFind_setPage_of_ne f hj]
    exact .inr rfl

theorem invalidatePageBitmap :
    PagesChanged s tb (s.setPage i PageDesc.invalidatePageBitmap) :=
  setPage (fun _ => rfl) fun _ => .inl rfl

/-- Writing a link that led to the block. -/
theorem writePage {c : PageCell} (hc : s.HasCell c) {y : PagePtr} (hread : s.readPage c = some y)
    (hy : y.1 = tb) (v : Option PagePtr) : PagesChanged s tb (s.writePage c v) := by
  have hcell : ∀ d, (∀ y, s.readPage d = some y → y.1 ≠ tb) →
      (s.writePage c v).readPage d = s.readPage d := by
    intro d hd
    have hne : d ≠ c := fun heq => hd y (heq ▸ hread) hy
    rw [readPage_writePage hc, Function.update_of_ne hne]
  cases c with
  | firstTb i =>
      have hpage : ∀ j, (s.writePage (.firstTb i) v).bitmap j = s.bitmap j := by
        intro j
        rw [CodeCache.bitmap, CodeCache.bitmap, CodeCache.writePage]
        by_cases hj : j = i
        · subst hj
          rw [pageFind_setPage_self]
          cases s.pageFind j <;> rfl
        · rw [pageFind_setPage_of_ne _ hj]
      exact ⟨rfl, hcell, fun _ => isSome_pageFind_setPage fun p => { p with firstTb := v },
        fun j => .inr (hpage j)⟩
  | pageNext x => exact ⟨rfl, hcell, fun _ => rfl, fun _ => .inr rfl⟩

end PagesChanged

end CodeCache

/-! ### The layout -/

/-- What the cells of the cache spell out. -/
structure CacheLayout where
  known : Set TbPtr
  live : Set TbPtr
  hash : Word32 → List TbPtr
  page : Word32 → List PagePtr
  jumps : TbPtr → List JmpPtr

/-- The part `n` of the code of a block lies on the page `i`. -/
def TbEntry.OnPage (e : TbEntry) (n : Slot) (i : Word32) : Prop :=
  e.pageAddr n ≠ noPage ∧ pageIndex (e.pageAddr n) = i

/-- The chains of the hash table hold the live blocks. -/
structure HashShape (s : CodeCache) (live : Set TbPtr) (hash : Word32 → List TbPtr) : Prop where
  lists : Lists s.hashCells .physHashNext .bucket (fun _ => none) Set.univ hash
  mem : ∀ h tb, tb ∈ hash h ↔ tb ∈ live ∧ tbPhysHashFunc (s.tbs tb).physPc = h

/-- The page lists, whatever they hold. -/
abbrev PageLists (s : CodeCache) (page : Word32 → List PagePtr) : Prop :=
  Lists s.readPage .pageNext .firstTb (fun _ => none) Set.univ page

/-- The links of a block are next to each other: what comes after the next one belongs to other
blocks. -/
def Spaced : List PagePtr → Prop
  | [] => True
  | x :: xs => (∀ y ∈ xs.tail, y.1 ≠ x.1) ∧ Spaced xs

theorem Spaced.sublist {xs ys : List PagePtr} (h : Spaced ys) (hsub : xs.Sublist ys) :
    Spaced xs := by
  induction hsub with
  | slnil => exact h
  | cons y _ ih => exact ih h.2
  | cons_cons x hsub ih => exact ⟨fun y hy => h.1 y (hsub.tail.subset hy), ih h.2⟩

/-- The page lists hold the parts of the live blocks. If both parts of a block lie on one page
they are next to each other. -/
structure PageShape (s : CodeCache) (live : Set TbPtr) (page : Word32 → List PagePtr) : Prop where
  lists : PageLists s page
  mem : ∀ i tb n, (tb, n) ∈ page i ↔ tb ∈ live ∧ (s.tbs tb).OnPage n i
  spaced : ∀ i, Spaced (page i)

/-- The circular lists of the known blocks hold the jumps that are chained. -/
structure JmpShape (cells : JmpPtr → Option JmpPtr) (known : Set TbPtr)
    (jumps : TbPtr → List JmpPtr) : Prop where
  lists : Lists cells id .jmpFirst (fun t => some (.jmpFirst t)) known jumps
  source : ∀ t tb n, .jmpNext tb n ∈ jumps t → tb ∈ known
  unchained : ∀ tb ∈ known, ∀ n, (∀ t, .jmpNext tb n ∉ jumps t) → cells (.jmpNext tb n) = none

/-- **The cells of the cache spell out the layout.** -/
structure Shape (s : CodeCache) (L : CacheLayout) : Prop where
  known_lt : ∀ tb ∈ L.known, tb < s.nbTbs
  live_known : ∀ tb ∈ L.live, tb ∈ L.known
  hash : HashShape s L.live L.hash
  page : PageShape s L.live L.page
  jmp : JmpShape s.jmpCells L.known L.jumps
  jumps_live : ∀ t x, x ∈ L.jumps t → t ∈ L.live
  first : ∀ tb ∈ L.live, (s.tbs tb).pageAddr .zero ≠ noPage
  target : ∀ t tb n, .jmpNext tb n ∈ L.jumps t → s.tbNext (tb, n) = (s.tbs t).tcPtr
  reset : ∀ tb ∈ L.live, ∀ n, (∀ t, .jmpNext tb n ∉ L.jumps t) →
    (s.tbs tb).tbNextOffset n ≠ 0xffff →
    s.tbNext (tb, n) = (s.tbs tb).tcPtr + ((s.tbs tb).tbNextOffset n).toNat
  cached : ∀ cache ∈ s.tbJmpCache, ∀ h tb, cache h = some tb →
    tb ∈ L.live ∧ tbJmpCacheHashFunc (s.tbs tb).pc = h

/-! ### How long the lists are -/

theorem length_le_of_lt {xs : List TbPtr} {n : ℕ} (hnd : xs.Nodup) (h : ∀ tb ∈ xs, tb < n) :
    xs.length ≤ n := by
  have hsub := List.subperm_of_subset hnd fun tb htb => List.mem_range.mpr (h tb htb)
  exact hsub.length_le.trans List.length_range.le

/-- There are two links for each block. -/
def slots (n : ℕ) : List PagePtr := List.range n ×ˢ [.zero, .one]

theorem mem_slots {n : ℕ} {x : PagePtr} (h : x.1 < n) : x ∈ slots n := by
  obtain ⟨tb, m⟩ := x
  refine List.mem_product.mpr ⟨List.mem_range.mpr h, ?_⟩
  cases m with
  | zero => exact List.mem_cons_self
  | one => exact List.mem_cons_of_mem _ List.mem_cons_self

theorem length_slots (n : ℕ) : (slots n).length = n * 2 := by
  rw [slots, List.length_product, List.length_range]
  rfl

namespace Shape

variable {s : CodeCache} {L : CacheLayout}

theorem length_hash (h : Shape s L) (i : Word32) : (L.hash i).length < s.walkBound := by
  have hlt := length_le_of_lt (h.hash.lists.nodup i) fun tb htb =>
    h.known_lt tb (h.live_known tb ((h.hash.mem i tb).mp htb).1)
  rw [CodeCache.walkBound]
  omega

theorem length_page (h : Shape s L) (i : Word32) : (L.page i).length < s.walkBound := by
  have hsub := List.subperm_of_subset (h.page.lists.nodup i) fun x hx =>
    mem_slots (h.known_lt x.1 (h.live_known x.1 ((h.page.mem i x.1 x.2).mp hx).1))
  have hlen := hsub.length_le
  rw [length_slots] at hlen
  rw [CodeCache.walkBound]
  omega

end Shape

namespace JmpShape

variable {cells : JmpPtr → Option JmpPtr} {known : Set TbPtr} {jumps : TbPtr → List JmpPtr}
  {t tb : TbPtr} {n : Slot} {x : JmpPtr}

/-- The pointers of a circular list are jumps of blocks. -/
theorem eq_jmpNext (h : JmpShape cells known jumps) (hx : x ∈ jumps t) :
    ∃ tb n, x = .jmpNext tb n := by
  cases x with
  | jmpNext tb n => exact ⟨tb, n, rfl⟩
  | jmpFirst t' => exact absurd rfl (h.lists.apart t t' _ hx)

theorem length_lt (h : JmpShape cells known jumps) {k : ℕ} (hk : ∀ tb ∈ known, tb < k)
    (t : TbPtr) : (jumps t).length < 3 * k + 1 := by
  have hsub : ∀ x ∈ jumps t, x ∈ (slots k).map fun y => JmpPtr.jmpNext y.1 y.2 := by
    intro x hx
    obtain ⟨tb, n, rfl⟩ := h.eq_jmpNext hx
    exact List.mem_map.mpr ⟨(tb, n), mem_slots (hk tb (h.source t tb n hx)), rfl⟩
  have hlen := (List.subperm_of_subset (h.lists.nodup t) hsub).length_le
  rw [List.length_map, length_slots] at hlen
  omega

/-- A jump that is chained is in the list of some block. -/
theorem exists_of_ne_none (h : JmpShape cells known jumps) (htb : tb ∈ known)
    (hne : cells (.jmpNext tb n) ≠ none) : ∃ t, .jmpNext tb n ∈ jumps t := by
  by_contra hnot
  exact hne (h.unchained tb htb n (not_exists.mp hnot))

theorem ne_none (h : JmpShape cells known jumps) (hx : .jmpNext tb n ∈ jumps t) :
    cells (.jmpNext tb n) ≠ none := by
  refine (h.lists.path t (h.lists.mem_dom t _ hx)).read_ne_none ?_
  exact List.mem_cons_of_mem _ (List.mem_map.mpr ⟨_, hx, rfl⟩)

end JmpShape

/-! ### Taking blocks out -/

theorem physHashNext_injective : Function.Injective HashCell.physHashNext :=
  fun _ _ => HashCell.physHashNext.inj

theorem bucket_injective : Function.Injective HashCell.bucket := fun _ _ => HashCell.bucket.inj

theorem pageNext_injective : Function.Injective PageCell.pageNext :=
  fun _ _ => PageCell.pageNext.inj

theorem firstTb_injective : Function.Injective PageCell.firstTb := fun _ _ => PageCell.firstTb.inj

theorem jmpFirst_injective : Function.Injective JmpPtr.jmpFirst := fun _ _ => JmpPtr.jmpFirst.inj

/-- In lists that share no pointer, taking one out of its own list is taking it out of all. -/
theorem update_erase {I P : Type} [DecidableEq I] [DecidableEq P] {lists : I → List P} {x : P}
    {i : I} (h : ∀ j, x ∈ lists j → j = i) :
    Function.update lists i ((lists i).erase x) = fun j => (lists j).erase x := by
  funext j
  by_cases hj : j = i
  · subst hj
    rw [Function.update_self]
  · rw [Function.update_of_ne hj, List.erase_of_not_mem fun hx => hj (h j hx)]

/-- `tb_remove` takes a live block out of the hash table. -/
theorem HashShape.tbRemove {s : CodeCache} {live : Set TbPtr} {hash : Word32 → List TbPtr}
    (h : HashShape s live hash) (hlen : ∀ i, (hash i).length < s.walkBound) {tb : TbPtr}
    (htb : tb ∈ live) :
    ∃ cells, s.tbRemove (.bucket (tbPhysHashFunc (s.tbs tb).physPc)) tb =
        some { s with hashCells := cells } ∧
      HashShape { s with hashCells := cells } (live \ {tb}) fun i => (hash i).erase tb := by
  have hmem : tb ∈ hash (tbPhysHashFunc (s.tbs tb).physPc) := (h.mem _ tb).mpr ⟨htb, rfl⟩
  obtain ⟨c, y, hfind, -, -, -, hlists⟩ := h.lists.find_remove physHashNext_injective
    bucket_injective (Set.mem_univ _) (p := fun tb1 => tb1 == tb) hmem (beq_self_eq_true tb)
    (hlen _)
  refine ⟨_, by rw [CodeCache.tbRemove, hfind]; rfl, ?_, fun i tb' => ?_⟩
  · rw [← List.erase_eq_eraseP', update_erase fun j hj => h.lists.unique j _ tb hj hmem] at hlists
    exact hlists
  · rw [(h.lists.nodup i).mem_erase_iff, h.mem, Set.mem_sdiff, Set.mem_singleton_iff]
    exact ⟨fun ⟨h₁, h₂, h₃⟩ => ⟨⟨h₂, h₁⟩, h₃⟩, fun ⟨⟨h₁, h₂⟩, h₃⟩ => ⟨h₂, h₁, h₃⟩⟩

/-- A link that is in a list has its first cell in a descriptor. -/
theorem PageLists.hasCell {s : CodeCache} {page : Word32 → List PagePtr} (h : PageLists s page)
    {i : Word32} {x : PagePtr} (hx : x ∈ page i) : (s.pageFind i).isSome = true := by
  have hpath := h.path i (Set.mem_univ i)
  cases hpage : page i with
  | nil =>
      rw [hpage] at hx
      exact absurd hx List.not_mem_nil
  | cons y ys =>
      rw [hpage] at hpath
      have hread : (s.pageFind i).bind PageDesc.firstTb = some y := hpath.1
      obtain ⟨p, hp, -⟩ := Option.bind_eq_some_iff.mp hread
      rw [hp]
      rfl

/-- The first link of a block taken out of the list of a page. -/
def eraseFrom (tb : TbPtr) (page : Word32 → List PagePtr) (i : Word32) : Word32 → List PagePtr :=
  Function.update page i ((page i).eraseP fun x => x.1 == tb)

/-- `tb_page_remove` takes the first link of a block out of the list of a page. -/
theorem PageLists.removeFromPage {s : CodeCache} {page : Word32 → List PagePtr}
    (h : PageLists s page) {addr : Addr32} {tb : TbPtr} {n : Slot}
    (hx : (tb, n) ∈ page (pageIndex addr))
    (hlen : (page (pageIndex addr)).length < s.walkBound) :
    ∃ s', s.removeFromPage tb addr = some s' ∧ s.PagesChanged tb s' ∧
      s'.bitmap (pageIndex addr) = none ∧
      PageLists s' (eraseFrom tb page (pageIndex addr)) := by
  obtain ⟨c, y, hfind, hy, hc, hread, hlists⟩ := h.find_remove pageNext_injective firstTb_injective
    (Set.mem_univ _) (p := fun x => x.1 == tb) hx (beq_self_eq_true tb) hlen
  obtain ⟨p, hp⟩ := Option.isSome_iff_exists.mp (PageLists.hasCell h hx)
  have hcell : s.HasCell c := by
    rcases List.mem_cons.mp hc with rfl | hc
    · exact PageLists.hasCell h hx
    · obtain ⟨z, -, rfl⟩ := List.mem_map.mp hc
      trivial
  refine ⟨_, by rw [CodeCache.removeFromPage, hp, CodeCache.tbPageRemove, hfind]; rfl,
    (CodeCache.PagesChanged.writePage hcell hread (eq_of_beq hy) _).trans
      .invalidatePageBitmap, CodeCache.bitmap_invalidatePageBitmap, ?_⟩
  rw [PageLists, CodeCache.readPage_invalidatePageBitmap, CodeCache.readPage_writePage hcell]
  exact hlists

section EraseFrom

variable {tb : TbPtr} {page : Word32 → List PagePtr} {i j : Word32}

theorem eraseFrom_sublist : (eraseFrom tb page i j).Sublist (page j) := by
  rw [eraseFrom]
  by_cases hj : j = i
  · subst hj
    rw [Function.update_self]
    exact List.eraseP_sublist
  · rw [Function.update_of_ne hj]

/-- Links are taken out of a list as often as its page is named. -/
theorem foldl_eraseFrom (is : List Word32) (j : Word32) :
    is.foldl (eraseFrom tb) page j =
      (List.eraseP fun x => x.1 == tb)^[is.count j] (page j) := by
  induction is generalizing page with
  | nil => rfl
  | cons i is ih =>
      rw [List.foldl_cons, ih, eraseFrom]
      by_cases hj : j = i
      · subst hj
        rw [Function.update_self, List.count_cons_self, Function.iterate_succ_apply]
      · rw [Function.update_of_ne hj, List.count_cons_of_ne (Ne.symm hj)]

/-- Of two links of a block in a list, `tb_page_remove` leaves one. -/
theorem exists_mem_eraseFrom (h₀ : (tb, .zero) ∈ page i) (h₁ : (tb, .one) ∈ page j) :
    ∃ n, (tb, n) ∈ eraseFrom tb page i j := by
  rw [eraseFrom]
  by_cases hj : j = i
  · subst hj
    obtain ⟨⟨tb', n⟩, ys, zs, -, hy, heq, herase⟩ :=
      List.exists_of_eraseP (p := fun x => x.1 == tb) h₀ (beq_self_eq_true tb)
    obtain rfl : tb' = tb := eq_of_beq hy
    rw [Function.update_self, herase]
    rw [heq] at h₀ h₁
    cases n with
    | zero => exact ⟨.one, by simpa using h₁⟩
    | one => exact ⟨.zero, by simpa using h₀⟩
  · rw [Function.update_of_ne hj]
    exact ⟨.one, h₁⟩

end EraseFrom

/-- The parts of a block: one or two. -/
def TbEntry.parts (e : TbEntry) : List Slot :=
  if e.pageAddr .one = noPage then [.zero] else [.zero, .one]

theorem TbEntry.mem_parts {e : TbEntry} {n : Slot} {i : Word32} (h : e.OnPage n i) :
    n ∈ e.parts := by
  rw [TbEntry.parts]
  cases n with
  | zero => split <;> exact List.mem_cons_self
  | one =>
      rw [if_neg h.1]
      exact List.mem_cons_of_mem _ List.mem_cons_self

namespace PageShape

variable {s : CodeCache} {live : Set TbPtr} {page : Word32 → List PagePtr} {tb : TbPtr}

/-- Taking out a link for each part of a block leaves none. -/
theorem foldl_eraseFrom (h : PageShape s live page) (tb : TbPtr) :
    (((s.tbs tb).parts.map fun n => pageIndex ((s.tbs tb).pageAddr n)).foldl (eraseFrom tb) page) =
      fun i => (page i).filter fun x => !(x.1 == tb) := by
  funext i
  rw [MemCheck.foldl_eraseFrom]
  refine LinkedCells.iterate_eraseP_eq_filter ?_
  have hcount : ((s.tbs tb).parts.map fun n => pageIndex ((s.tbs tb).pageAddr n)).count i =
      (((s.tbs tb).parts.filter fun n => pageIndex ((s.tbs tb).pageAddr n) == i).map
        fun n => (tb, n)).length := by
    rw [List.length_map, ← List.countP_eq_length_filter, List.count, List.countP_map]
    rfl
  rw [hcount]
  refine LinkedCells.countP_le_of_nodup (h.lists.nodup i) ?_
  rintro ⟨tb', n⟩ hx htb
  obtain rfl : tb' = tb := eq_of_beq htb
  have hn := ((h.mem i tb' n).mp hx).2
  exact List.mem_map.mpr ⟨n, List.mem_filter.mpr ⟨TbEntry.mem_parts hn, beq_iff_eq.mpr hn.2⟩, rfl⟩

/-- The lists without the links of a block. -/
theorem filter (h : PageShape s live page) {s' : CodeCache} (htbs : s'.tbs = s.tbs)
    (hlists : PageLists s' fun i => (page i).filter fun x => !(x.1 == tb)) :
    PageShape s' (live \ {tb}) fun i => (page i).filter fun x => !(x.1 == tb) := by
  refine ⟨hlists, fun i tb' n => ?_, fun i => (h.spaced i).sublist List.filter_sublist⟩
  rw [List.mem_filter, h.mem, htbs, Set.mem_sdiff, Set.mem_singleton_iff, Bool.not_eq_true',
    beq_eq_false_iff_ne]
  exact and_right_comm

/-- Both links of a live block are taken out, also if they are in one list, and its pages lose
their bitmaps. -/
theorem removeFromPages (h : PageShape s live page)
    (hlen : ∀ i, (page i).length < s.walkBound) (htb : tb ∈ live)
    (hzero : (s.tbs tb).pageAddr .zero ≠ noPage) :
    ∃ s', s.removeFromPages tb noPage = some s' ∧ s.PagesChanged tb s' ∧
      (∀ i n, (tb, n) ∈ page i → s'.bitmap i = none) ∧
      PageShape s' (live \ {tb}) fun i => (page i).filter fun x => !(x.1 == tb) := by
  have hmem₀ : (tb, .zero) ∈ page (pageIndex ((s.tbs tb).pageAddr .zero)) :=
    (h.mem _ tb .zero).mpr ⟨htb, hzero, rfl⟩
  obtain ⟨s₁, hs₁, hpc₁, hbit₁, hlists₁⟩ := PageLists.removeFromPage h.lists hmem₀ (hlen _)
  have htbs₁ : s₁.tbs = s.tbs := by rw [hpc₁.eq]
  have hall := h.foldl_eraseFrom tb
  by_cases hone : (s.tbs tb).pageAddr .one = noPage
  · -- the code lies on one page
    rw [TbEntry.parts, if_pos hone] at hall
    refine ⟨s₁, ?_, hpc₁, fun i n hn => ?_, h.filter htbs₁ (hall ▸ hlists₁)⟩
    · simp only [CodeCache.removeFromPages, if_pos hzero, hs₁, Option.bind_eq_bind,
        Option.bind_some, htbs₁, hone, ne_eq, not_true_eq_false, false_and, if_false]
    · obtain ⟨-, hpage, rfl⟩ := (h.mem i tb n).mp hn
      cases n with
      | zero => exact hbit₁
      | one => exact absurd hone hpage
  · -- it lies on two pages, or goes through one page twice
    rw [TbEntry.parts, if_neg hone] at hall
    have hmem₁ : (tb, .one) ∈ page (pageIndex ((s.tbs tb).pageAddr .one)) :=
      (h.mem _ tb .one).mpr ⟨htb, hone, rfl⟩
    obtain ⟨n, hn⟩ := exists_mem_eraseFrom hmem₀ hmem₁
    have hbound₁ : s₁.walkBound = s.walkBound := by rw [hpc₁.eq]; rfl
    obtain ⟨s₂, hs₂, hpc₂, hbit₂, hlists₂⟩ := PageLists.removeFromPage hlists₁ hn
      (hbound₁ ▸ eraseFrom_sublist.length_le.trans_lt (hlen _))
    have htbs₂ : s₂.tbs = s.tbs := by rw [hpc₂.eq, htbs₁]
    refine ⟨s₂, ?_, hpc₁.trans hpc₂, fun i m hm => ?_, h.filter htbs₂ (hall ▸ hlists₂)⟩
    · simp only [CodeCache.removeFromPages, if_pos hzero, hs₁, Option.bind_eq_bind,
        Option.bind_some, htbs₁, hone, ne_eq, not_false_eq_true, and_self, if_true, hs₂]
    · obtain ⟨-, -, rfl⟩ := (h.mem i tb m).mp hm
      cases m with
      | zero => exact (hpc₂.bitmap _).elim id fun heq => heq.trans hbit₁
      | one => exact hbit₂

end PageShape

/-! ### Taking jumps out -/

namespace JmpShape

variable {cells : JmpPtr → Option JmpPtr} {known : Set TbPtr} {jumps : TbPtr → List JmpPtr}
  {t tb : TbPtr} {n : Slot} {x : JmpPtr}

/-- The cells of the list of a block: its own first cell, and the jumps. -/
theorem mem_cells {xs : List JmpPtr} :
    x ∈ LinkedCells.cells id (JmpPtr.jmpFirst t) xs ↔ x = .jmpFirst t ∨ x ∈ xs := by
  rw [LinkedCells.cells, List.map_id, List.mem_cons]

/-- A jump unlinked from its list, and its own cell cleared. -/
theorem cleared (h : JmpShape cells known jumps) (ht : .jmpNext tb n ∈ jumps t)
    {c : JmpPtr} {v : Option JmpPtr} (hc : c ∈ LinkedCells.cells id (JmpPtr.jmpFirst t) (jumps t))
    (hlists : Lists (Function.update cells c v) id .jmpFirst (fun t => some (.jmpFirst t)) known
      (Function.update jumps t ((jumps t).erase (.jmpNext tb n)))) :
    JmpShape (Function.update (Function.update cells c v) (.jmpNext tb n) none) known
      fun t => (jumps t).erase (.jmpNext tb n) := by
  refine ⟨?_, fun t' tb' n' hmem => ?_, fun tb' htb' n' hn' => ?_⟩
  · rw [update_erase fun j hj => h.lists.unique j t _ hj ht] at hlists
    refine hlists.update_of_notMem (fun t' _ hmem => ?_) none
    rcases mem_cells.mp hmem with heq | hmem
    · cases heq
    · exact (h.lists.nodup t').not_mem_erase hmem
  · exact h.source t' tb' n' (List.mem_of_mem_erase hmem)
  · -- a jump that is in no list afterwards is the one taken out, or was in none before
    by_cases heq : JmpPtr.jmpNext tb' n' = .jmpNext tb n
    · rw [heq, Function.update_self]
    · have hn : ∀ t, .jmpNext tb' n' ∉ jumps t := fun t' ht' =>
        hn' t' ((List.mem_erase_of_ne heq).mpr ht')
      have hne : JmpPtr.jmpNext tb' n' ≠ c := by
        rintro rfl
        rcases mem_cells.mp hc with heq | hc
        · cases heq
        · exact hn t hc
      rw [Function.update_of_ne heq, Function.update_of_ne hne]
      exact h.unchained tb' htb' n' hn

/-- `tb_jmp_remove` takes a jump out of the list it is in, if it is chained at all. -/
theorem tbJmpRemove {s : CodeCache} (h : JmpShape s.jmpCells known jumps)
    (hknown : ∀ tb ∈ known, tb < s.nbTbs) (htb : tb ∈ known) (n : Slot) :
    ∃ cells, s.tbJmpRemove tb n = some { s with jmpCells := cells } ∧
      JmpShape cells known fun t => (jumps t).erase (.jmpNext tb n) := by
  cases hcell : s.jmpCells (.jmpNext tb n) with
  | none =>
      refine ⟨s.jmpCells, by rw [CodeCache.tbJmpRemove, hcell], ?_⟩
      have hnot : ∀ t, .jmpNext tb n ∉ jumps t := fun t ht => h.ne_none ht hcell
      simpa only [List.erase_of_not_mem (hnot _)] using h
  | some y =>
      obtain ⟨t, ht⟩ := h.exists_of_ne_none htb (by rw [hcell]; exact Option.some_ne_none y)
      obtain ⟨c, hfind, hc, hlists⟩ := h.lists.find_around Function.injective_id
        jmpFirst_injective (h.lists.mem_dom t _ ht) rfl rfl ht (h.length_lt hknown t)
      rw [id, hcell] at hlists
      have hfind' : LinkedCells.find s.jmpCells id (fun x => x == JmpPtr.jmpNext tb n)
          s.walkBound (.jmpNext tb n) = some (c, .jmpNext tb n) := hfind
      exact ⟨_, by rw [CodeCache.tbJmpRemove, hcell, hfind']; rfl, h.cleared ht hc hlists⟩

end JmpShape

/-- The loop that suppresses the jumps to a block: each is reset and taken out. -/
theorem resetJumpsTo_eq {s : CodeCache} {tb : TbPtr} {p : Option JmpPtr} {xs : List JmpPtr}
    {k : ℕ} (hp : Leads s.jmpCells id p xs (some (.jmpFirst tb))) (hnd : xs.Nodup)
    (hxs : ∀ x ∈ xs, ∃ tb n, x = .jmpNext tb n) (hk : xs.length < k) :
    CodeCache.resetJumpsTo k p s = some { s with
      jmpCells := fun x => if x ∈ xs then none else s.jmpCells x
      tbNext := fun (t, n) => if .jmpNext t n ∈ xs then
          (s.tbs t).tcPtr + ((s.tbs t).tbNextOffset n).toNat
        else s.tbNext (t, n) } := by
  induction xs generalizing k p s with
  | nil =>
      obtain ⟨k, rfl⟩ : ∃ j, k = j + 1 := ⟨k - 1, by omega⟩
      have hp : p = some (.jmpFirst tb) := hp
      subst hp
      simp only [CodeCache.resetJumpsTo, List.not_mem_nil, if_false]
  | cons x xs ih =>
      obtain ⟨k, rfl⟩ : ∃ j, k = j + 1 := ⟨k - 1, by omega⟩
      obtain ⟨⟨t, n, rfl⟩, hxs'⟩ := List.forall_mem_cons.mp hxs
      obtain ⟨hx, hnd⟩ := List.nodup_cons.mp hnd
      obtain ⟨rfl, hp⟩ := hp
      have hp' : Leads ((s.tbResetJump t n).writeJmp (.jmpNext t n) none).jmpCells id
          (s.jmpCells (.jmpNext t n)) xs (some (.jmpFirst tb)) :=
        hp.congr fun y hy => Function.update_of_ne (ne_of_mem_of_not_mem hy hx) _ _
      rw [CodeCache.resetJumpsTo, ih hp' hnd hxs' (Nat.lt_of_succ_lt_succ hk)]
      simp only [CodeCache.writeJmp, CodeCache.tbResetJump, CodeCache.tbSetJmpTarget,
        Option.some.injEq, CodeCache.mk.injEq, true_and, and_true]
      refine ⟨funext fun y => ?_, funext fun y => ?_⟩
      · by_cases hy : y = .jmpNext t n
        · subst hy
          rw [Function.update_self, ite_self, if_pos List.mem_cons_self]
        · simp only [Function.update_of_ne hy, List.mem_cons, hy, false_or]
      · by_cases hy : y = (t, n)
        · subst hy
          simp only [Function.update_self, ite_self, List.mem_cons_self, if_true]
        · have hne : JmpPtr.jmpNext y.1 y.2 ≠ .jmpNext t n := fun heq =>
            hy (Prod.ext (JmpPtr.jmpNext.inj heq).1 (JmpPtr.jmpNext.inj heq).2)
          simp only [Function.update_of_ne hy, List.mem_cons, hne, false_or]

namespace JmpShape

variable {cells : JmpPtr → Option JmpPtr} {known : Set TbPtr} {jumps : TbPtr → List JmpPtr}
  {t tb : TbPtr}

/-- The list of a block emptied. -/
theorem clear (h : JmpShape cells known jumps) (ht : t ∈ known) :
    JmpShape (Function.update (fun x => if x ∈ jumps t then none else cells x) (.jmpFirst t)
      (some (.jmpFirst t))) known (Function.update jumps t []) := by
  refine ⟨h.lists.replace ht (Function.update_self _ _ _) List.nodup_nil
    (fun x hx => absurd hx List.not_mem_nil) fun j hj hjt c hc => ?_, fun t' tb n hmem => ?_,
    fun tb htb n hn => ?_⟩
  · have hct : c ∉ LinkedCells.cells id (JmpPtr.jmpFirst t) (jumps t) :=
      h.lists.disjoint_cells Function.injective_id jmpFirst_injective hjt hc
    obtain ⟨hfirst, hct⟩ := not_or.mp fun hor => hct (mem_cells.mpr hor)
    rw [Function.update_of_ne hfirst, if_neg hct]
  · by_cases heq : t' = t
    · subst heq
      rw [Function.update_self] at hmem
      exact absurd hmem List.not_mem_nil
    · rw [Function.update_of_ne heq] at hmem
      exact h.source t' tb n hmem
  · have hne : JmpPtr.jmpNext tb n ≠ .jmpFirst t := nofun
    rw [Function.update_of_ne hne]
    split_ifs with hmem
    · rfl
    · refine h.unchained tb htb n fun t' ht' => ?_
      by_cases heq : t' = t
      · exact hmem (heq ▸ ht')
      · refine hn t' ?_
        rw [Function.update_of_ne heq]
        exact ht'

end JmpShape

/-! ### Invalidating a block -/

/-- The layout without a block, whose jumps and the jumps to which are no longer chained. -/
def CacheLayout.invalidate (L : CacheLayout) (tb : TbPtr) : CacheLayout where
  known := L.known
  live := L.live \ {tb}
  hash i := (L.hash i).erase tb
  page i := (L.page i).filter fun x => !(x.1 == tb)
  jumps := Function.update
    (fun t => ((L.jumps t).erase (.jmpNext tb .zero)).erase (.jmpNext tb .one)) tb []

/-- Blocks have stayed as they were but for their links, and bitmaps have at most been
dropped. -/
structure CodeCache.LinksChanged (s s' : CodeCache) : Prop where
  tbs : s'.tbs = s.tbs
  nbTbs : s'.nbTbs = s.nbTbs
  codeGenPtr : s'.codeGenPtr = s.codeGenPtr
  isSome : ∀ i, (s'.pageFind i).isSome = (s.pageFind i).isSome
  bitmap : ∀ i, s'.bitmap i = none ∨ s'.bitmap i = s.bitmap i

/-- What becomes of the cache when a live block is invalidated. Of the links of the page lists,
only those that led to the block have changed. -/
structure Invalidated (s : CodeCache) (L : CacheLayout) (tb : TbPtr) (s' : CodeCache) : Prop where
  shape : Shape s' (L.invalidate tb)
  links : s.LinksChanged s'
  pageNext : ∀ x, (∀ y, s.pageNext x = some y → y.1 ≠ tb) → s'.pageNext x = s.pageNext x
  dropped : ∀ i n, (tb, n) ∈ L.page i → s'.bitmap i = none

/-- The stages of `tb_phys_invalidate`. -/
theorem CodeCache.tbPhysInvalidate_eq {s s₁ s₂ s₃ : CodeCache} {tb : TbPtr} {addr : Addr32}
    (h₁ : s.tbRemove (.bucket (tbPhysHashFunc (s.tbs tb).physPc)) tb = some s₁)
    (h₂ : s₁.removeFromPages tb addr = some s₂)
    (h₃ : (s₂.removeFromJmpCache tb).removeJumps tb = some s₃) :
    s.tbPhysInvalidate tb addr = some s₃ := by
  rw [CodeCache.tbPhysInvalidate, h₁, Option.bind_eq_bind, Option.bind_some, h₂]
  exact h₃

namespace Shape

variable {s : CodeCache} {L : CacheLayout} {tb : TbPtr}

/-- What is left of a table of a processor. -/
theorem cached_removeFromJmpCache (h : Shape s L) :
    ∀ cache ∈ (s.removeFromJmpCache tb).tbJmpCache, ∀ i tb', cache i = some tb' →
      tb' ∈ L.live \ {tb} ∧ tbJmpCacheHashFunc (s.tbs tb').pc = i := by
  intro cache' hmem i tb' hi
  obtain ⟨cache, hcache, rfl⟩ := List.mem_map.mp hmem
  generalize hj : tbJmpCacheHashFunc (s.tbs tb).pc = j at hi
  have hold : cache i = some tb' ∧ tb' ≠ tb := by
    split_ifs at hi with hc
    · by_cases hij : i = j
      · rw [hij, Function.update_self] at hi
        cases hi
      · rw [Function.update_of_ne hij] at hi
        refine ⟨hi, ?_⟩
        rintro rfl
        exact hij ((h.cached cache hcache i tb' hi).2.symm.trans hj)
    · refine ⟨hi, ?_⟩
      rintro rfl
      obtain rfl : j = i := hj.symm.trans (h.cached cache hcache i tb' hi).2
      exact hc hi
  obtain ⟨hlive, hhash⟩ := h.cached cache hcache i tb' hold.1
  exact ⟨⟨hlive, hold.2⟩, hhash⟩

/-- The jumps of a live block and the jumps to it are taken out. -/
theorem removeJumps (h : Shape s L) (htb : tb ∈ L.live) (s' : CodeCache)
    (hcells : s'.jmpCells = s.jmpCells) (hnb : s'.nbTbs = s.nbTbs) :
    ∃ cells xs, s'.removeJumps tb = some { s' with
        jmpCells := cells
        tbNext := fun (t, n) => if .jmpNext t n ∈ xs then
            (s'.tbs t).tcPtr + ((s'.tbs t).tbNextOffset n).toNat
          else s'.tbNext (t, n) } ∧
      xs = ((L.jumps tb).erase (.jmpNext tb .zero)).erase (.jmpNext tb .one) ∧
      JmpShape cells L.known (L.invalidate tb).jumps := by
  have hknown : tb ∈ L.known := h.live_known tb htb
  have hlt : ∀ tb ∈ L.known, tb < s'.nbTbs := fun tb' htb' => hnb ▸ h.known_lt tb' htb'
  have hjmp : JmpShape s'.jmpCells L.known L.jumps := hcells ▸ h.jmp
  obtain ⟨cells₁, hs₁, hjmp₁⟩ := hjmp.tbJmpRemove hlt hknown .zero
  obtain ⟨cells₂, hs₂, hjmp₂⟩ :=
    JmpShape.tbJmpRemove (s := { s' with jmpCells := cells₁ }) hjmp₁ hlt hknown .one
  have hpath := hjmp₂.lists.path tb hknown
  have hreset := resetJumpsTo_eq (s := { s' with jmpCells := cells₂ })
    (LinkedCells.path_iff_leads.mp hpath) (hjmp₂.lists.nodup tb) (fun x hx => hjmp₂.eq_jmpNext hx)
    (hjmp₂.length_lt hlt tb)
  refine ⟨_, _, ?_, rfl, hjmp₂.clear hknown⟩
  rw [CodeCache.removeJumps]
  simp only [Option.bind_eq_bind, hs₁, hs₂, Option.bind_some]
  have hreset' : CodeCache.resetJumpsTo { s' with jmpCells := cells₂ }.walkBound
      (cells₂ (.jmpFirst tb)) { s' with jmpCells := cells₂ } = _ := hreset
  rw [hreset']
  rfl

/-- Which jumps stay chained. -/
theorem mem_jumps_invalidate (h : Shape s L) {t : TbPtr} {x : JmpPtr} :
    x ∈ (L.invalidate tb).jumps t ↔ t ≠ tb ∧ x ∈ L.jumps t ∧ ∀ n, x ≠ .jmpNext tb n := by
  have hslots : (∀ n, x ≠ .jmpNext tb n) ↔ x ≠ .jmpNext tb .one ∧ x ≠ .jmpNext tb .zero := by
    refine ⟨fun hx => ⟨hx .one, hx .zero⟩, fun hx n => ?_⟩
    cases n with
    | zero => exact hx.2
    | one => exact hx.1
  have hnd := h.jmp.lists.nodup t
  by_cases ht : t = tb
  · subst ht
    simp only [CacheLayout.invalidate, Function.update_self, List.not_mem_nil, ne_eq,
      not_true_eq_false, false_and]
  · simp only [CacheLayout.invalidate, Function.update_of_ne ht, (hnd.erase _).mem_erase_iff,
      hnd.mem_erase_iff, hslots]
    exact ⟨fun ⟨h₁, h₂, h₃⟩ => ⟨ht, h₃, h₁, h₂⟩, fun ⟨_, h₁, h₂, h₃⟩ => ⟨h₂, h₃, h₁⟩⟩

/-- **Invalidating a live block** takes it out of everything that could lead to it. -/
theorem tbPhysInvalidate (h : Shape s L) (htb : tb ∈ L.live) :
    ∃ s', s.tbPhysInvalidate tb noPage = some s' ∧ Invalidated s L tb s' := by
  obtain ⟨hcells, hs₁, hhash⟩ := h.hash.tbRemove h.length_hash htb
  have hpage₁ : PageShape { s with hashCells := hcells } L.live L.page :=
    ⟨h.page.lists, h.page.mem, h.page.spaced⟩
  obtain ⟨s₂, hs₂, hpc, hbit, hpage⟩ := hpage₁.removeFromPages h.length_page htb (h.first tb htb)
  obtain ⟨pn, l1, rfl⟩ : ∃ pn l1, s₂ = { s with
      hashCells := hcells, pageNext := pn, l1Map := l1 } := ⟨_, _, hpc.eq⟩
  obtain ⟨jcells, xs, hs₃, hxs, hjmp⟩ := h.removeJumps htb
    (CodeCache.removeFromJmpCache { s with
      hashCells := hcells, pageNext := pn, l1Map := l1 } tb) rfl rfl
  refine ⟨_, CodeCache.tbPhysInvalidate_eq hs₁ hs₂ hs₃, ⟨h.known_lt,
    fun tb' htb' => h.live_known tb' htb'.1, ⟨hhash.lists, hhash.mem⟩,
    ⟨hpage.lists, hpage.mem, hpage.spaced⟩, hjmp, fun t x hx => ?_,
    fun tb' htb' => h.first tb' htb'.1, fun t tb' n hx => ?_, fun tb' htb' n hn hoff => ?_,
    h.cached_removeFromJmpCache⟩, ⟨rfl, rfl, rfl, hpc.isSome, hpc.bitmap⟩,
    fun x => hpc.cell (.pageNext x), hbit⟩
  · obtain ⟨ht, hx, -⟩ := h.mem_jumps_invalidate.mp hx
    exact ⟨h.jumps_live t x hx, ht⟩
  · obtain ⟨ht, hx, -⟩ := h.mem_jumps_invalidate.mp hx
    have hnot : JmpPtr.jmpNext tb' n ∉ xs := fun hmem => by
      rw [hxs] at hmem
      have hmem := List.mem_of_mem_erase (List.mem_of_mem_erase hmem)
      exact ht (h.jmp.lists.unique t tb _ hx hmem)
    exact (if_neg hnot).trans (h.target t tb' n hx)
  · by_cases hmem : JmpPtr.jmpNext tb' n ∈ xs
    · exact if_pos hmem
    · refine (if_neg hmem).trans (h.reset tb' htb'.1 n (fun t ht => ?_) hoff)
      have hne : ∀ m, JmpPtr.jmpNext tb' n ≠ .jmpNext tb m := fun m heq =>
        htb'.2 (JmpPtr.jmpNext.inj heq).1
      by_cases heq : t = tb
      · subst heq
        refine hmem ?_
        rw [hxs]
        exact (List.mem_erase_of_ne (hne _)).mpr ((List.mem_erase_of_ne (hne _)).mpr ht)
      · exact hn t (h.mem_jumps_invalidate.mpr ⟨heq, ht, hne⟩)

end Shape

end MemCheck
