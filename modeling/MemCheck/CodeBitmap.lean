import Mathlib.Data.Nat.Bitwise
import MemCheck.CacheLinking

/-!
# Bitmaps of Translated Code

A page that is written often while it holds translated code gets a bitmap with a bit for each of
its bytes, so that most writes can be told from those that hit code without walking the list of
the page. `set_bits` sets a run of bits: the rest of a byte, then whole bytes, then the beginning
of a last one.

## Main results

* `codeBit_setBits`: `set_bits` sets the bits of the run, and no other;
* `Shape.buildPageBitmap`: the bits of a new bitmap are those of the bytes that are covered by
  the live blocks of the page.
-/

namespace MemCheck

/-! ### Runs of bits -/

/-- The bits of a byte from `k` on: `0xff << k`. -/
def maskFrom (k : ℕ) : UInt8 := 0xff <<< UInt8.ofNat k

/-- The loop of `set_bits` that fills whole bytes, from the byte `i` on. -/
def fillBytes (end1 start i : ℕ) (tab : ℕ → UInt8) : ℕ × ℕ × (ℕ → UInt8) :=
  if start < end1 then fillBytes end1 (start + 8) (i + 1) (Function.update tab i 0xff)
  else (start, i, tab)
termination_by end1 - start

/-- A number with its three lowest bits cleared: `n & ~7`. -/
def clearLow (n : ℕ) : ℕ := n - (n &&& 7)

/-- `set_bits`. -/
def setBits (tab : ℕ → UInt8) (start len : ℕ) : ℕ → UInt8 :=
  let stop := start + len
  let i := start >>> 3
  let mask := maskFrom (start &&& 7)
  if clearLow start = clearLow stop then
    if start < stop then
      Function.update tab i (tab i ||| (mask &&& ~~~ maskFrom (stop &&& 7)))
    else tab
  else
    let tab := Function.update tab i (tab i ||| mask)
    let (start, i, tab) := fillBytes (clearLow stop) (clearLow (start + 8)) (i + 1) tab
    if start < stop then Function.update tab i (tab i ||| ~~~ maskFrom (stop &&& 7))
    else tab

/-- The bit of a byte of the page. -/
def codeBit (tab : ℕ → UInt8) (o : ℕ) : Bool := (tab (o / 8)).toNat.testBit (o % 8)

theorem and_seven (n : ℕ) : n &&& 7 = n % 8 := Nat.and_two_pow_sub_one_eq_mod n 3

theorem shiftRight_three (n : ℕ) : n >>> 3 = n / 8 := Nat.shiftRight_eq_div_pow n 3

theorem clearLow_eq (n : ℕ) : clearLow n = 8 * (n / 8) := by
  rw [clearLow, and_seven]
  omega

theorem testBit_maskFrom {k j : ℕ} (hk : k < 8) (hj : j < 8) :
    (maskFrom k).toNat.testBit j = decide (k ≤ j) := by
  have hall : ∀ k j : Fin 8, (maskFrom k).toNat.testBit j = decide (k ≤ j) := by decide
  exact hall ⟨k, hk⟩ ⟨j, hj⟩

theorem testBit_not_maskFrom {k j : ℕ} (hk : k < 8) (hj : j < 8) :
    (~~~ maskFrom k).toNat.testBit j = decide (j < k) := by
  have hall : ∀ k j : Fin 8, (~~~ maskFrom k).toNat.testBit j = decide (j < k) := by decide
  exact hall ⟨k, hk⟩ ⟨j, hj⟩

section Bits

variable {tab : ℕ → UInt8} {i o : ℕ}

/-- Or-ing a mask into a byte. -/
theorem codeBit_or (m : UInt8) :
    codeBit (Function.update tab i (tab i ||| m)) o = true ↔
      codeBit tab o = true ∨ o / 8 = i ∧ m.toNat.testBit (o % 8) = true := by
  rw [codeBit, codeBit]
  by_cases ho : o / 8 = i
  · subst ho
    rw [Function.update_self, UInt8.toNat_or, Nat.testBit_or, Bool.or_eq_true]
    simp only [true_and]
  · rw [Function.update_of_ne ho]
    simp only [ho, false_and, or_false]

theorem codeBit_fill :
    codeBit (Function.update tab i 0xff) o = true ↔ codeBit tab o = true ∨ o / 8 = i := by
  have hall : ∀ j : Fin 8, (0xff : UInt8).toNat.testBit j = true := by decide
  rw [codeBit, codeBit]
  by_cases ho : o / 8 = i
  · subst ho
    rw [Function.update_self]
    exact iff_of_true (hall ⟨o % 8, Nat.mod_lt o (by omega)⟩) (.inr rfl)
  · rw [Function.update_of_ne ho]
    simp only [ho, or_false]

/-- The whole bytes of a run. -/
theorem codeBit_fillBytes (tab : ℕ → UInt8) {a b : ℕ} (hab : a ≤ b) :
    ∃ tab', fillBytes (8 * b) (8 * a) a tab = (8 * b, b, tab') ∧
      ∀ o, codeBit tab' o = true ↔ codeBit tab o = true ∨ 8 * a ≤ o ∧ o < 8 * b := by
  induction hk : b - a generalizing a tab with
  | zero =>
      obtain rfl : a = b := by omega
      refine ⟨tab, ?_, fun o => ?_⟩
      · rw [fillBytes, if_neg (by omega)]
      · have hnot : ¬ (8 * a ≤ o ∧ o < 8 * a) := by omega
        simp only [hnot, or_false]
  | succ k ih =>
      obtain ⟨tab', heq, hbits⟩ :=
        ih (Function.update tab a 0xff) (a := a + 1) (by omega) (by omega)
      refine ⟨tab', ?_, fun o => ?_⟩
      · rw [fillBytes, if_pos (by omega), ← heq, Nat.mul_add]
      · rw [hbits, codeBit_fill, or_assoc]
        refine or_congr_right ?_
        omega

/-- **`set_bits` sets the bits of a run**, and no other. -/
theorem codeBit_setBits (tab : ℕ → UInt8) (start len o : ℕ) :
    codeBit (setBits tab start len) o = true ↔
      codeBit tab o = true ∨ start ≤ o ∧ o < start + len := by
  generalize hstop : start + len = stop
  have hstart : start % 8 < 8 := Nat.mod_lt start (by omega)
  have hmod : o % 8 < 8 := Nat.mod_lt o (by omega)
  have hmod' : stop % 8 < 8 := Nat.mod_lt stop (by omega)
  simp only [setBits, hstop, and_seven, shiftRight_three, clearLow_eq]
  by_cases heq : 8 * (start / 8) = 8 * (stop / 8)
  · -- the run lies in one byte
    rw [if_pos heq]
    split_ifs with hlt
    · rw [codeBit_or, UInt8.toNat_and, Nat.testBit_and, testBit_maskFrom hstart hmod,
        testBit_not_maskFrom hmod' hmod, Bool.and_eq_true, decide_eq_true_iff,
        decide_eq_true_iff]
      refine or_congr_right ?_
      omega
    · have hnot : ¬ (start ≤ o ∧ o < stop) := by omega
      simp only [hnot, or_false]
  · have hnext : (start + 8) / 8 = start / 8 + 1 := by omega
    obtain ⟨tab', hfill, hbits⟩ := codeBit_fillBytes
      (Function.update tab (start / 8) (tab (start / 8) ||| maskFrom (start % 8)))
      (a := start / 8 + 1) (b := stop / 8) (by omega)
    rw [if_neg heq]
    simp only [hnext, hfill]
    have hwhole : codeBit tab' o = true ↔
        codeBit tab o = true ∨ start ≤ o ∧ o < 8 * (stop / 8) := by
      rw [hbits, codeBit_or, testBit_maskFrom hstart hmod, decide_eq_true_iff, or_assoc]
      refine or_congr_right ?_
      omega
    split_ifs with hrest
    · rw [codeBit_or, testBit_not_maskFrom hmod' hmod, decide_eq_true_iff, hwhole, or_assoc]
      refine or_congr_right ?_
      omega
    · have hend : 8 * (stop / 8) = stop := by omega
      rw [hwhole, hend]

end Bits

/-! ### The bytes that are covered -/

/-- The part of a page that a part of a block covers, as `build_page_bitmap` computes it: the
offsets of its first byte and of the byte after it. -/
def TbEntry.pageRange (e : TbEntry) : Slot → ℕ × ℕ
  | .zero =>
      let tbStart := (pageOffset e.pc).toNat
      let tbEnd := tbStart + e.size.toNat
      (tbStart, if tbEnd > targetPageSize.toNat then targetPageSize.toNat else tbEnd)
  | .one => (0, (pageOffset (e.pc + e.size.toUInt32)).toNat)

/-- A part of a block covers a byte of its page. -/
def TbEntry.Covers (e : TbEntry) (n : Slot) (o : ℕ) : Prop :=
  (e.pageRange n).1 ≤ o ∧ o < (e.pageRange n).2

namespace CodeCache

/-- The loop of `build_page_bitmap`. -/
def buildPageBitmapLoop (s : CodeCache) :
    ℕ → Option PagePtr → (ℕ → UInt8) → Option (ℕ → UInt8)
  | 0, _, _ => none
  | _ + 1, none, tab => some tab
  | k + 1, some (tb, n), tab =>
      let (tbStart, tbEnd) := (s.tbs tb).pageRange n
      buildPageBitmapLoop s k (s.pageNext (tb, n)) (setBits tab tbStart (tbEnd - tbStart))

/-- `build_page_bitmap`, for the page `index`; there is always memory for the bitmap. -/
def buildPageBitmap (s : CodeCache) (index : Word32) : Option CodeCache :=
  (s.buildPageBitmapLoop s.walkBound (s.readPage (.firstTb index)) fun _ => 0).map fun tab =>
    s.setPage index fun p => { p with codeBitmap := some tab }

end CodeCache

section Covered

variable {s : CodeCache} {L : CacheLayout}

theorem TbEntry.pageRange_le (e : TbEntry) (n : Slot) :
    (e.pageRange n).1 ≤ (e.pageRange n).2 := by
  cases n with
  | zero =>
      have hoff : (pageOffset e.pc).toNat ≤ targetPageSize.toNat := by
        have hle : (pageOffset e.pc).toNat ≤ (~~~ targetPageMask).toNat := by
          rw [pageOffset, UInt32.toNat_and]
          exact Nat.and_le_right
        exact hle.trans (by decide)
      simp only [TbEntry.pageRange]
      split_ifs <;> omega
  | one => exact Nat.zero_le _

/-- The bits after a walk over the list of a page. -/
theorem buildPageBitmapLoop_eq (tab : ℕ → UInt8) {p : Option PagePtr} {xs : List PagePtr}
    {k : ℕ} (h : LinkedCells.Leads s.readPage .pageNext p xs none)
    (hk : xs.length < k) :
    ∃ tab', s.buildPageBitmapLoop k p tab = some tab' ∧
      ∀ o, codeBit tab' o = true ↔
        codeBit tab o = true ∨ ∃ x ∈ xs, (s.tbs x.1).Covers x.2 o := by
  induction xs generalizing k p tab with
  | nil =>
      obtain ⟨k, rfl⟩ : ∃ j, k = j + 1 := ⟨k - 1, by omega⟩
      obtain rfl : p = none := h
      exact ⟨tab, rfl, fun o => by simp only [List.not_mem_nil, false_and, exists_false, or_false]⟩
  | cons x xs ih =>
      obtain ⟨k, rfl⟩ : ∃ j, k = j + 1 := ⟨k - 1, by omega⟩
      obtain ⟨rfl, hrest⟩ := h
      let r := (s.tbs x.1).pageRange x.2
      have hle : r.1 ≤ r.2 := (s.tbs x.1).pageRange_le x.2
      obtain ⟨tab', heq, hbits⟩ :=
        ih (setBits tab r.1 (r.2 - r.1)) hrest (Nat.lt_of_succ_lt_succ hk)
      refine ⟨tab', heq, fun o => ?_⟩
      rw [hbits, codeBit_setBits, Nat.add_sub_cancel' hle, or_assoc]
      simp only [List.mem_cons, exists_eq_or_imp]
      rfl

/-- The bitmaps that there are say which bytes of their pages are covered by live blocks. -/
def BitmapShape (s : CodeCache) (L : CacheLayout) : Prop :=
  ∀ i tab, s.bitmap i = some tab →
    ∀ o, codeBit tab o = true ↔ ∃ x ∈ L.page i, (s.tbs x.1).Covers x.2 o

/-- Descriptors may be changed but for their lists. -/
theorem Shape.setPage (h : Shape s L) (i : Word32) {f : PageDesc → PageDesc}
    (hf : ∀ p, (f p).firstTb = p.firstTb) : Shape (s.setPage i f) L := by
  have hpage : PageLists (s.setPage i f) L.page := by
    rw [PageLists, CodeCache.readPage_setPage hf]
    exact h.page.lists
  exact ⟨h.known_lt, h.live_known, ⟨h.hash.lists, h.hash.mem⟩,
    ⟨hpage, h.page.mem, h.page.spaced⟩, h.jmp, h.jumps_live, h.first, h.target, h.reset, h.cached⟩

theorem CodeCache.bitmap_setPage (s : CodeCache) (i j : Word32) (f : PageDesc → PageDesc) :
    (s.setPage i f).bitmap j =
      if j = i then (s.pageFind i).bind fun p => (f p).codeBitmap else s.bitmap j := by
  rw [CodeCache.bitmap]
  split_ifs with hj
  · subst hj
    rw [CodeCache.pageFind_setPage_self]
    cases s.pageFind j <;> rfl
  · rw [CodeCache.pageFind_setPage_of_ne f hj, CodeCache.bitmap]

/-- **A new bitmap** has the bits of the bytes that are covered by live blocks. -/
theorem Shape.buildPageBitmap (h : Shape s L) (hbit : BitmapShape s L) (i : Word32) :
    ∃ s', s.buildPageBitmap i = some s' ∧ Shape s' L ∧ BitmapShape s' L ∧
      ∃ tab, s' = s.setPage i fun p => { p with codeBitmap := some tab } := by
  have hleads := LinkedCells.path_iff_leads.mp (h.page.lists.path i (Set.mem_univ i))
  obtain ⟨tab, heq, hbits⟩ := buildPageBitmapLoop_eq (fun _ => 0) hleads (h.length_page i)
  refine ⟨_, congrArg (Option.map _) heq, h.setPage i fun _ => rfl, fun j tab' hj => ?_, tab, rfl⟩
  rw [CodeCache.bitmap_setPage] at hj
  split_ifs at hj with hji
  · subst hji
    obtain ⟨p, -, hp⟩ := Option.bind_eq_some_iff.mp hj
    obtain rfl := Option.some.inj hp
    intro o
    have hzero : codeBit (fun _ => 0) o ≠ true := by
      rw [codeBit]
      exact ne_true_of_eq_false (Nat.zero_testBit _)
    rw [hbits, or_iff_right hzero]
    rfl
  · exact hbit j tab' hj

/-- A new block takes the bitmaps of its pages along. -/
theorem CodeCache.bitmap_enter (s : CodeCache) (tb : TbPtr) (physPc physPage2 : Addr32)
    (i : Word32) :
    (s.enter tb physPc physPage2).bitmap i = none ∨
      i ≠ pageIndex (physPc &&& targetPageMask) ∧
        (physPage2 ≠ noPage → i ≠ pageIndex physPage2) ∧
        (s.enter tb physPc physPage2).bitmap i = s.bitmap i := by
  let s₀ := (s.writeHash (.physHashNext tb)
    (s.hashCells (.bucket (tbPhysHashFunc physPc)))).writeHash
    (.bucket (tbPhysHashFunc physPc)) (some tb)
  have hfirst := s₀.bitmap_tbAllocPage tb .zero (physPc &&& targetPageMask) i
  rw [CodeCache.enter]
  split_ifs with hpage
  · rcases (s₀.tbAllocPage tb .zero (physPc &&& targetPageMask)).bitmap_tbAllocPage tb .one
      physPage2 i with hnone | ⟨hne, heq⟩
    · exact .inl hnone
    · rcases hfirst with hnone | ⟨hne', heq'⟩
      · exact .inl (heq.trans hnone)
      · exact .inr ⟨hne', fun _ => hne, heq.trans heq'⟩
  · rcases hfirst with hnone | ⟨hne', heq'⟩
    · exact .inl hnone
    · exact .inr ⟨hne', fun h => absurd h hpage, heq'⟩

namespace BitmapShape

/-- Bitmaps may be dropped. -/
theorem of_bitmap (h : BitmapShape s L) {s' : CodeCache} (htbs : s'.tbs = s.tbs)
    (hbit : ∀ i, s'.bitmap i = none ∨ s'.bitmap i = s.bitmap i) : BitmapShape s' L := by
  intro i tab hi
  rw [htbs]
  rcases hbit i with hnone | heq
  · cases hnone.symm.trans hi
  · exact h i tab (heq ▸ hi)

theorem invalidatePageBitmap (h : BitmapShape s L) (i : Word32) :
    BitmapShape (s.setPage i PageDesc.invalidatePageBitmap) L := by
  refine h.of_bitmap rfl fun j => ?_
  rw [CodeCache.bitmap_setPage]
  split_ifs with hj
  · cases s.pageFind i <;> exact .inl rfl
  · exact .inr rfl

/-- A block that is invalidated takes the bitmaps of its pages along. -/
theorem invalidated (h : BitmapShape s L) {s' : CodeCache} {tb : TbPtr}
    (hinv : Invalidated s L tb s') : BitmapShape s' (L.invalidate tb) := by
  intro i tab hi
  rw [hinv.links.tbs]
  have hsame : s'.bitmap i = s.bitmap i := by
    rcases hinv.links.bitmap i with hnone | heq
    · cases hnone.symm.trans hi
    · exact heq
  have hnot : ∀ x ∈ L.page i, (!(x.1 == tb)) = true := by
    rintro ⟨tb', n⟩ hx
    refine Bool.not_eq_true' _ ▸ beq_eq_false_iff_ne.mpr ?_
    rintro rfl
    cases (hinv.dropped i n hx).symm.trans hi
  have hpage : (L.invalidate tb).page i = L.page i := List.filter_eq_self.mpr hnot
  rw [hpage]
  exact h i tab (hsame ▸ hi)

/-- Linking a new block. -/
theorem tbLinkPhys (h : BitmapShape s L) (hshape : Shape s L) {tb : TbPtr}
    (htb : tb ∉ L.live) (physPc physPage2 : Addr32) :
    BitmapShape (s.tbLinkPhys tb physPc physPage2) (L.enter tb physPc physPage2) := by
  intro i tab hi o
  have hbit : (s.enter tb physPc physPage2).bitmap i = some tab := by
    rw [CodeCache.tbLinkPhys_eq] at hi
    exact hi
  rcases s.bitmap_enter tb physPc physPage2 i with hnone | ⟨hfirst, hsecond, heq⟩
  · cases hnone.symm.trans hbit
  · have hmem : ∀ x, x ∈ (L.enter tb physPc physPage2).page i ↔ x ∈ L.page i := by
      intro x
      rw [CacheLayout.mem_enter_page]
      exact ⟨fun h => h.elim (fun h => absurd h.1 hfirst) fun h => h.elim
        (fun h => absurd h.2.1 (hsecond h.1)) id, fun h => .inr (.inr h)⟩
    rw [h i tab (heq ▸ hbit) o, CodeCache.tbLinkPhys_tbs]
    refine exists_congr fun x => ?_
    rw [hmem]
    refine and_congr_right fun hx => ?_
    have hlive := ((hshape.page.mem i x.1 x.2).mp hx).1
    rw [Function.update_of_ne (ne_of_mem_of_not_mem hlive htb)]

end BitmapShape

theorem bitmapShape_tbFlush (s : CodeCache) : BitmapShape s.tbFlush .empty := by
  intro i tab hi
  have hnone : s.tbFlush.bitmap i = none := by
    simp only [CodeCache.bitmap, CodeCache.pageFind, CodeCache.tbFlush, CodeCache.pageFlushTb]
    cases s.l1Map (i >>> 10) <;> rfl
  cases hnone.symm.trans hi

end Covered

end MemCheck
