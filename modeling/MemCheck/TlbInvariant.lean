import MemCheck.GuestStores

/-!
# The Tables of Translations

What an entry of `tlb_table` may hold: it goes to a whole page, and a page that may be written
without further ado has all its dirty flags set. Every function that changes an entry, or the
flags of a page, keeps this.
-/

namespace MemCheck

open LongJump (Triple Within)

/-! ### Parts of an address -/

section Addresses

variable {a b d : Word32}

theorem toNat_mask (a : Addr32) : (a &&& targetPageMask).toNat = a.toNat - a.toNat % 4096 := by
  have h := congrArg UInt32.toNat (mask_add_pageOffset a)
  rw [UInt32.toNat_add, toNat_pageOffset] at h
  have ha := a.toNat_lt
  have hle : (a &&& targetPageMask).toNat ≤ a.toNat := by
    rw [UInt32.toNat_and]
    exact Nat.and_le_left
  omega

theorem or_and_distrib (a b m : Word32) : (a ||| b) &&& m = (a &&& m) ||| (b &&& m) := by
  refine UInt32.toBitVec_inj.mp ?_
  rw [UInt32.toBitVec_and, UInt32.toBitVec_or, UInt32.toBitVec_or, UInt32.toBitVec_and,
    UInt32.toBitVec_and, BitVec.and_or_distrib_right]

theorem pageOffset_or (a b : Word32) : pageOffset (a ||| b) = pageOffset a ||| pageOffset b :=
  or_and_distrib a b _

theorem ioIndex_or (a b : Word32) : ioIndex (a ||| b) = ioIndex a ||| ioIndex b := by
  rw [ioIndex, UInt32.shiftRight_or, or_and_distrib]
  rfl

theorem ioIndex_and (a b : Word32) : ioIndex (a &&& b) = ioIndex a &&& ioIndex b := by
  rw [ioIndex, ioIndex, ioIndex, UInt32.shiftRight_and]
  generalize a >>> 4 = a
  generalize b >>> 4 = b
  rw [UInt32.and_assoc, UInt32.and_assoc, ← UInt32.and_assoc 0xff, UInt32.and_comm 0xff b,
    UInt32.and_assoc, UInt32.and_self]

theorem pageOffset_eq_zero_iff : pageOffset a = 0 ↔ a.toNat % 4096 = 0 := by
  rw [← UInt32.toNat_inj, toNat_pageOffset]
  rfl

theorem pageOffset_mask (a : Addr32) : pageOffset (a &&& targetPageMask) = 0 := by
  rw [pageOffset_eq_zero_iff, toNat_mask]
  omega

theorem mask_of_pageOffset (h : pageOffset a = 0) : a &&& targetPageMask = a := by
  rw [pageOffset_eq_zero_iff] at h
  refine UInt32.toNat_inj.mp ?_
  rw [toNat_mask, h, Nat.sub_zero]

theorem pageOffset_add (h : pageOffset b = 0) : pageOffset (a + b) = pageOffset a := by
  rw [pageOffset_eq_zero_iff] at h
  refine UInt32.toNat_inj.mp ?_
  rw [toNat_pageOffset, toNat_pageOffset, UInt32.toNat_add]
  omega

theorem pageOffset_sub (h : pageOffset b = 0) : pageOffset (a - b) = pageOffset a := by
  rw [pageOffset_eq_zero_iff] at h
  have hb := b.toNat_lt
  refine UInt32.toNat_inj.mp ?_
  rw [toNat_pageOffset, toNat_pageOffset, UInt32.toNat_sub]
  omega

theorem pageOffset_ramAddr (pd : Word32) (addr : Addr32) :
    pageOffset (ramAddr pd addr) = pageOffset addr := by
  rw [ramAddr, UInt32.add_comm, pageOffset_add (pageOffset_mask pd), pageOffset, pageOffset,
    UInt32.and_assoc, UInt32.and_self]

/-- The rest of a page, or of the buffer. -/
theorem pageLeft_eq (addr : Addr32) (len : ℕ) :
    pageLeft addr len = min (4096 - addr.toNat % 4096) len := by
  have haddr := addr.toNat_lt
  have hsize : (targetPageSize : Word32).toNat = 4096 := rfl
  have hleft : ((addr &&& targetPageMask) + targetPageSize - addr).toNat =
      4096 - addr.toNat % 4096 := by
    rw [UInt32.toNat_sub, UInt32.toNat_add, toNat_mask, hsize]
    omega
  rw [pageLeft, hleft]
  split_ifs <;> omega

/-- What is copied in one round lies on a page. -/
theorem pageLeft_le (addr : Addr32) (len : ℕ) (hlen : 0 < len) :
    0 < pageLeft addr len ∧ pageLeft addr len ≤ len ∧
      (pageOffset addr).toNat + pageLeft addr len ≤ 4096 := by
  rw [pageLeft_eq, toNat_pageOffset]
  omega

theorem pageIndex_mask (a : Addr32) : pageIndex (a &&& targetPageMask) = pageIndex a := by
  refine UInt32.toNat_inj.mp ?_
  rw [toNat_pageIndex, toNat_pageIndex, toNat_mask]
  omega

/-- A few bytes further on the same page. -/
theorem page_add_of_lt {k : ℕ} (hk : (pageOffset a).toNat + k < 4096) :
    pageIndex (a + UInt32.ofNat k) = pageIndex a ∧
      pageOffset (a + UInt32.ofNat k) = UInt32.ofNat ((pageOffset a).toNat + k) := by
  rw [toNat_pageOffset] at hk ⊢
  have ha := a.toNat_lt
  constructor <;> refine UInt32.toNat_inj.mp ?_
  · rw [toNat_pageIndex, toNat_pageIndex, UInt32.toNat_add, UInt32.toNat_ofNat']
    omega
  · rw [toNat_pageOffset, UInt32.toNat_add, UInt32.toNat_ofNat', UInt32.toNat_ofNat']
    omega

/-- A few bytes further, on the next page. -/
theorem page_add_of_le {k : ℕ} (hk : 4096 ≤ (pageOffset a).toNat + k) (hle : k ≤ 4096) :
    pageIndex (a + UInt32.ofNat k) = pageIndex (a + targetPageSize) ∧
      pageOffset (a + UInt32.ofNat k) = UInt32.ofNat ((pageOffset a).toNat + k - 4096) := by
  rw [toNat_pageOffset] at hk ⊢
  have ha := a.toNat_lt
  have hsize : (targetPageSize : Word32).toNat = 4096 := rfl
  constructor <;> refine UInt32.toNat_inj.mp ?_
  · rw [toNat_pageIndex, toNat_pageIndex, UInt32.toNat_add, UInt32.toNat_add,
      UInt32.toNat_ofNat', hsize]
    omega
  · rw [toNat_pageOffset, UInt32.toNat_add, UInt32.toNat_ofNat', UInt32.toNat_ofNat']
    omega

/-- The page that an address goes to, if it is moved by whole pages. -/
theorem pageIndex_moved (hb : pageOffset b = 0) (hd : pageOffset d = 0) :
    pageIndex (a + d - b) = pageIndex ((a &&& targetPageMask) + d - b) := by
  rw [pageOffset_eq_zero_iff] at hb hd
  have hb' := b.toNat_lt
  have ha := a.toNat_lt
  refine UInt32.toNat_inj.mp ?_
  rw [toNat_pageIndex, toNat_pageIndex, UInt32.toNat_sub, UInt32.toNat_sub, UInt32.toNat_add,
    UInt32.toNat_add, toNat_mask]
  omega

theorem ioIndex_eq_zero (h : pageOffset a = 0) : ioIndex a = 0 := by
  rw [pageOffset_eq_zero_iff] at h
  have hand := Nat.and_two_pow_sub_one_eq_mod (a.toNat >>> 4) 8
  have hshift := Nat.shiftRight_eq_div_pow a.toNat 4
  have hindex : (ioIndex a).toNat = a.toNat / 16 % 256 := by
    rw [ioIndex, UInt32.toNat_and, UInt32.toNat_shiftRight]
    exact hand.trans (by rw [hshift])
  have hzero : (0 : Word32).toNat = 0 := rfl
  refine UInt32.toNat_inj.mp ?_
  omega

end Addresses

/-! ### The board -/

/-- What is assumed of the board. Memory begins at a page of the host. What is not a device has
no number of one, and a device has nothing else. Memory does not reach up to the last page. The
bit that makes entries invalid is not used. -/
structure Board.Ok (hw : Board) : Prop where
  aligned : pageOffset hw.physRamBase = 0
  plain : ∀ addr, pageOffset (hw.physOffset addr) = 0 ∨ ioIndex (hw.physOffset addr) ≠ 0
  device : ∀ addr, IsIo (hw.physOffset addr) → hw.physOffset addr &&& targetPageMask = 0
  inside : ∀ addr, ¬ IsIo (hw.physOffset addr) →
    (hw.physOffset addr &&& targetPageMask).toNat + 8192 ≤ 2 ^ 32
  valid : ∀ addr, hw.physOffset addr &&& tlbInvalidMask = 0

/-! ### Entries -/

/-- What an entry may hold. -/
structure TlbEntry.Ok (e : TlbEntry) (hw : Board) (dirty : Word32 → UInt8) : Prop where
  addend : pageOffset e.addend = 0
  plain : ∀ access, pageOffset (e.addrFor access) = 0 ∨ ioIndex (e.addrFor access) ≠ 0
  write : pageOffset e.addrWrite = 0 → dirty (pageIndex (e.hostPage - hw.physRamBase)) = 0xff
  code : e.addrCode = 0xffffffff ∨ IsIo (pageOffset e.addrCode) ∨
    pageOffset e.addrCode = 0 ∧ (e.addrCode + e.addend - hw.physRamBase).toNat + 8192 ≤ 2 ^ 32

section Entries

variable {hw : Board} {m : Qemu} {dirty dirty' : Word32 → UInt8} {e : TlbEntry}
  {vaddr paddr : Addr32}

theorem IsIo.ioIndex_ne_zero (hhw : hw.Ok) {addr : Addr32} (h : IsIo (hw.physOffset addr)) :
    ioIndex (hw.physOffset addr) ≠ 0 := by
  rcases hhw.plain addr with hzero | hne
  · rw [IsIo, hzero] at h
    exact absurd h.1 (by decide)
  · exact hne

theorem ioIndex_or_of_aligned (h : pageOffset vaddr = 0) (a : Word32) :
    ioIndex (vaddr ||| a) = ioIndex a := by
  rw [ioIndex_or, ioIndex_eq_zero h, UInt32.zero_or]

theorem pageOffset_ne_zero_of_ioIndex {a : Word32} (h : ioIndex a ≠ 0) : pageOffset a ≠ 0 :=
  fun hzero => h (ioIndex_eq_zero hzero)

/-- A page of memory that may be written has none of the bits of other pages. -/
theorem Board.Ok.ram (hhw : hw.Ok) {addr : Addr32} (hio : ¬ IsIo (hw.physOffset addr))
    (hrom : ¬ (pageOffset (hw.physOffset addr) = ioMemRom ∨
      hw.physOffset addr &&& ioMemRomd ≠ 0)) :
    pageOffset (hw.physOffset addr) = ioMemRam := by
  rw [not_or, not_not] at hrom
  rcases hhw.plain addr with hzero | hne
  · exact hzero
  · have hle : ¬ pageOffset (hw.physOffset addr) > ioMemRom := fun h => hio ⟨h, hrom.2⟩
    rw [gt_iff_lt, UInt32.lt_iff_toNat_lt, toNat_pageOffset] at hle
    have hromNat : (ioMemRom : Word32).toNat = 16 := rfl
    have hne16 : (hw.physOffset addr).toNat % 4096 ≠ 16 := by
      intro h16
      refine hrom.1 (UInt32.toNat_inj.mp ?_)
      rw [toNat_pageOffset, h16, hromNat]
    have hand := Nat.and_two_pow_sub_one_eq_mod ((hw.physOffset addr).toNat >>> 4) 8
    have hshift := Nat.shiftRight_eq_div_pow (hw.physOffset addr).toNat 4
    refine absurd (UInt32.toNat_inj.mp ?_) hne
    rw [ioIndex, UInt32.toNat_and, UInt32.toNat_shiftRight]
    refine hand.trans ?_
    have hzero : (0 : Word32).toNat = 0 := rfl
    omega

theorem pageAddress_plain (hhw : hw.Ok) (hv : pageOffset vaddr = 0) :
    pageOffset (pageAddress vaddr (hw.physOffset paddr)) = 0 ∨
      ioIndex (pageAddress vaddr (hw.physOffset paddr)) ≠ 0 := by
  rw [pageAddress]
  split_ifs with hio
  · rw [ioIndex_or_of_aligned hv]
    exact .inr (hio.ioIndex_ne_zero hhw)
  · exact .inl hv

/-- A page that is found for writing by its address alone is memory, and dirty. -/
theorem Qemu.writeAddress_cases (m : Qemu) (paddr : Addr32) (hhw : hw.Ok)
    (hv : pageOffset vaddr = 0) :
    ioIndex (m.writeAddress vaddr (hw.physOffset paddr)) ≠ 0 ∨
      m.writeAddress vaddr (hw.physOffset paddr) = vaddr ∧ ¬ IsIo (hw.physOffset paddr) ∧
        m.dirty (pageIndex (hw.physOffset paddr)) = 0xff := by
  rw [Qemu.writeAddress]
  split_ifs with hrom hram
  · refine .inl ?_
    have hmask : ioIndex (~~~ (targetPageMask ||| ioMemRomd)) = 0xff := by decide
    have hall : ioIndex (hw.physOffset paddr) &&& 0xff = ioIndex (hw.physOffset paddr) := by
      rw [ioIndex, UInt32.and_assoc, UInt32.and_self]
    rw [ioIndex_or_of_aligned hv, ioIndex_and, hmask, hall]
    rcases hhw.plain paddr with hzero | hne
    · rcases hrom with h | h
      · exact absurd (h.symm.trans hzero) (by decide)
      · have hodd : hw.physOffset paddr &&& ioMemRomd = pageOffset (hw.physOffset paddr) &&& 1 := by
          rw [pageOffset, UInt32.and_assoc]
          rfl
        rw [hodd, hzero] at h
        exact absurd rfl h
    · exact hne
  · rw [ioIndex_or_of_aligned hv]
    exact .inl (by decide)
  · rw [pageAddress]
    split_ifs with hio
    · rw [ioIndex_or_of_aligned hv]
      exact .inl (hio.ioIndex_ne_zero hhw)
    · rw [hhw.ram hio hrom, eq_self, true_and, Bool.not_eq_false, Qemu.isDirty, beq_iff_eq] at hram
      exact .inr ⟨rfl, hio, hram⟩

/-- What `tlb_set_page_exec` makes. -/
theorem Qemu.tlbEntryFor_ok (hhw : hw.Ok) (hv : pageOffset vaddr = 0)
    (hp : pageOffset paddr = 0) (prot : Prot) :
    (m.tlbEntryFor hw vaddr paddr prot).Ok hw m.dirty := by
  have hnone : ioIndex (0xffffffff : Word32) ≠ 0 := by decide
  have haddend : ¬ IsIo (hw.physOffset paddr) →
      vaddr + (m.tlbEntryFor hw vaddr paddr prot).addend - hw.physRamBase =
        hw.physOffset paddr &&& targetPageMask := by
    intro hio
    simp only [Qemu.tlbEntryFor, if_neg hio]
    grind
  refine ⟨?_, fun access => ?_, fun hzero => ?_, ?_⟩
  · simp only [Qemu.tlbEntryFor]
    rw [pageOffset_sub hv]
    split_ifs
    · exact hp
    · rw [pageOffset_add (pageOffset_mask _)]
      exact hhw.aligned
  · cases access with
    | read =>
        simp only [TlbEntry.addrFor, Qemu.tlbEntryFor]
        split_ifs
        · exact pageAddress_plain hhw hv
        · exact .inr hnone
    | write =>
        simp only [TlbEntry.addrFor, Qemu.tlbEntryFor]
        split_ifs
        · rcases m.writeAddress_cases paddr hhw hv with hne | ⟨heq, -⟩
          · exact .inr hne
          · rw [heq]
            exact .inl hv
        · exact .inr hnone
    | fetch =>
        simp only [TlbEntry.addrFor, Qemu.tlbEntryFor]
        split_ifs
        · exact pageAddress_plain hhw hv
        · exact .inr hnone
  · have hwrite : (m.tlbEntryFor hw vaddr paddr prot).addrWrite =
        if prot.write then m.writeAddress vaddr (hw.physOffset paddr) else 0xffffffff := rfl
    rw [TlbEntry.hostPage]
    rw [hwrite] at hzero ⊢
    split_ifs at hzero ⊢ with hw'
    · rcases m.writeAddress_cases paddr hhw hv with hne | ⟨heq, hio, hdirty⟩
      · exact absurd hzero (pageOffset_ne_zero_of_ioIndex hne)
      · rw [heq, mask_of_pageOffset hv, haddend hio, pageIndex_mask, hdirty]
    · exact absurd hzero (by decide)
  · have hcode : (m.tlbEntryFor hw vaddr paddr prot).addrCode =
        if prot.exec then pageAddress vaddr (hw.physOffset paddr) else 0xffffffff := rfl
    rw [hcode, pageAddress]
    split_ifs with hexec hio
    · refine .inr (.inl ?_)
      have hoff : pageOffset (vaddr ||| hw.physOffset paddr) =
          pageOffset (hw.physOffset paddr) := by
        rw [pageOffset_or, hv, UInt32.zero_or]
      have hidem : ∀ a, pageOffset (pageOffset a) = pageOffset a := fun a => by
        rw [pageOffset, pageOffset, UInt32.and_assoc, UInt32.and_self]
      rw [hoff, IsIo, hidem]
      refine ⟨hio.1, ?_⟩
      rw [pageOffset, UInt32.and_assoc]
      exact hio.2
    · refine .inr (.inr ⟨hv, ?_⟩)
      rw [haddend hio]
      exact hhw.inside paddr hio
    · exact .inl rfl

namespace TlbEntry

/-- Only a page that may be written depends on the flags. -/
theorem Ok.of_dirty (h : e.Ok hw dirty) (hd : ∀ i, dirty i = 0xff → dirty' i = 0xff) :
    e.Ok hw dirty' :=
  ⟨h.addend, h.plain, fun hzero => hd _ (h.write hzero), h.code⟩

theorem Ok.clear (h : e.Ok hw dirty) : e.clear.Ok hw dirty := by
  have hnone : ioIndex (0xffffffff : Word32) ≠ 0 := by decide
  refine ⟨h.addend, fun access => .inr ?_,
    fun hzero => absurd hzero (pageOffset_ne_zero_of_ioIndex hnone), .inl rfl⟩
  cases access <;> exact hnone

theorem Ok.tlbFlushEntry (h : e.Ok hw dirty) (addr : Addr32) :
    (e.tlbFlushEntry addr).Ok hw dirty := by
  rw [TlbEntry.tlbFlushEntry]
  split_ifs
  · exact h.clear
  · exact h

/-- An entry that is found for writing by another address than before. -/
theorem Ok.setWrite (h : e.Ok hw dirty) {addr : Addr32}
    (hplain : pageOffset addr = 0 ∨ ioIndex addr ≠ 0)
    (hdirty : pageOffset addr = 0 →
      dirty' (pageIndex ((addr &&& targetPageMask) + e.addend - hw.physRamBase)) = 0xff) :
    { e with addrWrite := addr }.Ok hw dirty' := by
  refine ⟨h.addend, fun access => ?_, hdirty, h.code⟩
  cases access with
  | read => exact h.plain .read
  | write => exact hplain
  | fetch => exact h.plain .fetch

/-- An entry for a page whose flags are cleared. -/
theorem Ok.tlbResetDirtyRange (h : e.Ok hw dirty) {start length : Word32}
    (hrange : pageOffset e.addrWrite = 0 →
      ¬ e.hostPage - start < length → dirty' (pageIndex (e.hostPage - hw.physRamBase)) =
        dirty (pageIndex (e.hostPage - hw.physRamBase))) :
    (e.tlbResetDirtyRange start length).Ok hw dirty' := by
  rw [TlbEntry.tlbResetDirtyRange]
  split_ifs with hin
  · have hindex : ioIndex ((e.addrWrite &&& targetPageMask) ||| ioMemNotdirty) ≠ 0 := by
      rw [ioIndex_or_of_aligned (pageOffset_mask _)]
      decide
    exact h.setWrite (.inr hindex) fun hzero =>
      absurd hzero (pageOffset_ne_zero_of_ioIndex hindex)
  · refine ⟨h.addend, h.plain, fun hzero => ?_, h.code⟩
    rw [hrange hzero fun hlt => hin ⟨hzero, hlt⟩]
    exact h.write hzero

/-- There is nothing to be done for an entry. -/
theorem Ok.tlbUpdateDirty (h : e.Ok hw m.dirty) : e.tlbUpdateDirty hw m = e := by
  rw [TlbEntry.tlbUpdateDirty, if_neg]
  rintro ⟨hzero, hclean⟩
  rw [Qemu.isDirty, h.write hzero] at hclean
  exact absurd hclean (by decide)

/-- An entry for a page whose flags are all set. -/
theorem Ok.tlbSetDirty1 (h : e.Ok hw dirty) (hhw : hw.Ok) {addr : Addr32}
    (hdirty : dirty (pageIndex (addr - hw.physRamBase)) = 0xff) :
    (e.tlbSetDirty1 (addr &&& targetPageMask)).Ok hw dirty := by
  rw [TlbEntry.tlbSetDirty1]
  split_ifs with hin
  · have hram : (e.addrWrite &&& targetPageMask) ||| ioMemRam = e.addrWrite &&& targetPageMask :=
      UInt32.or_zero
    rw [hram]
    refine h.setWrite (.inl (pageOffset_mask _)) fun _ => ?_
    have hpage := hin.2
    rw [TlbEntry.hostPage] at hpage
    rw [mask_of_pageOffset (pageOffset_mask _), hpage, ← hdirty]
    have hmoved := pageIndex_moved (a := addr) hhw.aligned (show pageOffset 0 = 0 from rfl)
    rw [UInt32.add_zero, UInt32.add_zero] at hmoved
    rw [hmoved]
  · exact h

end TlbEntry

end Entries

/-! ### All tables -/

/-- The entries of all processors are as they should be. -/
def Qemu.TlbOk (m : Qemu) (hw : Board) : Prop :=
  ∀ c mmu i, ((m.cpus c).tlbTable mmu i).Ok hw m.dirty

section Tables

variable {hw : Board} {m m' : Qemu} {c : ℕ}

/-- What a change of a processor leaves alone. -/
theorem Qemu.setCpu_eq {β : Type} (g : CpuState → β) {f : CpuState → CpuState}
    (hf : g (f (m.cpus c)) = g (m.cpus c)) (c' : ℕ) :
    g ((m.setCpu c f).cpus c') = g (m.cpus c') := by
  simp only [Qemu.setCpu]
  by_cases hc : c' = c
  · subst hc
    rw [Function.update_self, hf]
  · rw [Function.update_of_ne hc]

/-- Exactly one entry is made. -/
theorem Qemu.tlbTable_tlbSetPageExec {vaddr paddr : Addr32} {prot : Prot} {mmu mmu' : MmuIdx}
    {c' : ℕ} {i : Word32} :
    ((m.tlbSetPageExec hw c vaddr paddr prot mmu).cpus c').tlbTable mmu' i =
      if (c', mmu', i) = (c, mmu, tlbIndex vaddr) then m.tlbEntryFor hw vaddr paddr prot
      else (m.cpus c').tlbTable mmu' i := by
  simp only [Qemu.tlbSetPageExec, Qemu.setCpu, Prod.mk.injEq]
  by_cases hc : c' = c
  · subst hc
    simp only [Function.update_self, true_and]
    by_cases hmmu : mmu' = mmu
    · subst hmmu
      simp only [Function.update_self, true_and]
      exact Function.update_apply _ _ _ _
    · simp only [Function.update_of_ne hmmu, hmmu, false_and, if_false]
  · simp only [Function.update_of_ne hc, hc, false_and, if_false]

/-- Some entries of a processor are changed. -/
theorem Qemu.TlbOk.setCpu (h : m.TlbOk hw) {f : CpuState → CpuState}
    (hf : ∀ mmu i, ((f (m.cpus c)).tlbTable mmu i).Ok hw m.dirty) : (m.setCpu c f).TlbOk hw := by
  intro c' mmu i
  simp only [Qemu.setCpu]
  by_cases hc : c' = c
  · subst hc
    rw [Function.update_self]
    exact hf mmu i
  · rw [Function.update_of_ne hc]
    exact h c' mmu i

/-- No entry is changed, and no flag is cleared of a page that has them all. -/
theorem Qemu.TlbOk.of_dirty (h : m.TlbOk hw)
    (htlb : ∀ c, (m'.cpus c).tlbTable = (m.cpus c).tlbTable)
    (hdirty : ∀ i, m.dirty i = 0xff → m'.dirty i = 0xff) : m'.TlbOk hw := by
  intro c mmu i
  rw [htlb]
  exact (h c mmu i).of_dirty hdirty

theorem Qemu.TlbOk.setJmpCache (h : m.TlbOk hw)
    (f : (Word32 → Option TbPtr) → Word32 → Option TbPtr) : (m.setJmpCache c f).TlbOk hw := h

theorem Qemu.TlbOk.tlbFlush (h : m.TlbOk hw) (c : ℕ) : (m.tlbFlush c).TlbOk hw := by
  refine Qemu.TlbOk.setJmpCache (h.setCpu fun mmu i => ?_) _
  exact (h c mmu i).clear

/-- An entry of both tables is changed. -/
theorem Qemu.TlbOk.setTlbAt (h : m.TlbOk hw) {j : Word32} {f : TlbEntry → TlbEntry}
    (hf : ∀ e : TlbEntry, e.Ok hw m.dirty → (f e).Ok hw m.dirty) (mmu : MmuIdx) (i : Word32) :
    (((m.cpus c).setTlbAt j f).tlbTable mmu i).Ok hw m.dirty := by
  simp only [CpuState.setTlbAt]
  by_cases hi : i = j
  · subst hi
    rw [Function.update_self]
    exact hf _ (h c mmu i)
  · rw [Function.update_of_ne hi]
    exact h c mmu i

theorem Qemu.TlbOk.tlbFlushPage (h : m.TlbOk hw) (c : ℕ) (addr : Addr32) :
    (m.tlbFlushPage c addr).TlbOk hw := by
  refine Qemu.TlbOk.setJmpCache (h.setCpu fun mmu i => ?_) _
  exact h.setTlbAt (fun _ he => he.tlbFlushEntry _) mmu i

theorem Qemu.TlbOk.cpuTlbUpdateDirty (h : m.TlbOk hw) (c : ℕ) :
    (m.cpuTlbUpdateDirty hw c).TlbOk hw := by
  refine h.setCpu fun mmu i => ?_
  simp only [CpuState.mapTlb]
  rw [(h c mmu i).tlbUpdateDirty]
  exact h c mmu i

theorem Qemu.TlbOk.tlbSetDirty (h : m.TlbOk hw) (hhw : hw.Ok) {addr : Addr32}
    (hdirty : m.dirty (pageIndex (addr - hw.physRamBase)) = 0xff) (vaddr : Addr32) :
    (m.tlbSetDirty c addr vaddr).TlbOk hw :=
  h.setCpu <| h.setTlbAt fun _ he => he.tlbSetDirty1 hhw hdirty

/-- The flags of pages outside of the range stay as they are. -/
theorem Qemu.resetDirtyLoop_of_ne {flags : UInt8} {p i : Word32} {k : ℕ} {dirty : Word32 → UInt8}
    (h : ∀ j < k, i ≠ p + UInt32.ofNat j) : Qemu.resetDirtyLoop flags p k dirty i = dirty i := by
  induction k generalizing p dirty with
  | zero => rfl
  | succ k ih =>
      have hp : i ≠ p := Bytes.add_ofNat_zero p ▸ h 0 (Nat.succ_pos k)
      rw [Qemu.resetDirtyLoop, ih fun j hj heq => ?_, Function.update_of_ne hp]
      refine h (j + 1) (Nat.succ_lt_succ hj) ?_
      rw [heq, UInt32.ofNat_add, UInt32.add_assoc, UInt32.add_comm 1]
      rfl

/-- **Clearing flags of pages** takes the right to write the pages from the entries. -/
theorem Qemu.TlbOk.cpuPhysicalMemoryResetDirty (h : m.TlbOk hw) (start stop : Addr32)
    (flags : UInt8) : (m.cpuPhysicalMemoryResetDirty hw start stop flags).TlbOk hw := by
  rw [Qemu.cpuPhysicalMemoryResetDirty]
  have hstart := pageOffset_mask start
  have hstop := pageOffset_mask (stop + targetPageSize - 1)
  generalize start &&& targetPageMask = s at hstart ⊢
  generalize (stop + targetPageSize - 1) &&& targetPageMask = t at hstop ⊢
  split_ifs with hlen
  · exact h
  · intro c mmu i
    refine (h c mmu i).tlbResetDirtyRange fun hzero hout => Qemu.resetDirtyLoop_of_ne ?_
    intro j hj heq
    refine hout ?_
    generalize ((m.cpus c).tlbTable mmu i).hostPage = page at heq ⊢
    have hsub : page - (s + hw.physRamBase) = page - hw.physRamBase - s := by grind
    rw [hsub]
    generalize page - hw.physRamBase = x at heq ⊢
    have hx := x.toNat_lt
    have hs := s.toNat_lt
    have ht := t.toNat_lt
    have heq := congrArg UInt32.toNat heq
    have hlength := UInt32.toNat_sub t s
    rw [pageOffset_eq_zero_iff] at hstart hstop
    rw [toNat_pageIndex] at hj
    rw [UInt32.toNat_add, toNat_pageIndex, toNat_pageIndex, UInt32.toNat_ofNat'] at heq
    rw [UInt32.lt_iff_toNat_lt, UInt32.toNat_sub]
    omega

end Tables

end MemCheck
