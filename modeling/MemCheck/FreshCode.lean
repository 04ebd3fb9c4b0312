import MemCheck.CodeFetch
import MemCheck.Coherence
import MemCheck.LoadedBytes

/-!
# New Code

A block becomes live when it is linked to the pages that its code lies on. From then on the pages
have to be watched, and the code it was translated from has to be what memory holds there. This
module shows both: `tb_link_phys` watches the pages that had no code before, and the translator
reads the bytes that the guest sees at the address of the block.

`CodeAt` says where the code at an address lies in memory, by the entry of `tlb_table` for its
page. A block may span two pages; the entry of the first is still there when the second has been
read, since the two have different places in the table.

## Main results

* `Coherent.link`: a block whose code is in memory may be linked;
* `triple_getPhysAddrCode`: where the code at an address lies;
* `triple_genCodeLoop`: the translator reads the code that is seen.
-/

namespace MemCheck

open LongJump (Triple)

variable {hw : Board} {m m' : Qemu} {L : CacheLayout} {tb : TbPtr}

/-! ### Watching a page -/

/-- Flags that are clear stay clear. -/
theorem Qemu.resetDirtyLoop_and {flags x : UInt8} {p i : Word32} {k : ℕ} {dirty : Word32 → UInt8}
    (h : dirty i &&& x = 0) : Qemu.resetDirtyLoop flags p k dirty i &&& x = 0 := by
  induction k generalizing p dirty with
  | zero => exact h
  | succ k ih =>
      refine ih ?_
      by_cases hi : i = p
      · subst hi
        rw [Function.update_self, UInt8.and_assoc, UInt8.and_comm _ x, ← UInt8.and_assoc, h,
          UInt8.zero_and]
      · rw [Function.update_of_ne hi]
        exact h

/-- **Clearing flags of pages** keeps the invariant. -/
theorem Coherent.resetDirty (h : Coherent hw m L) (start stop : Addr32) (flags : UInt8) :
    Coherent hw (m.cpuPhysicalMemoryResetDirty hw start stop flags) L := by
  have htlb := h.tlb.cpuPhysicalMemoryResetDirty start stop flags
  rw [Qemu.cpuPhysicalMemoryResetDirty] at htlb ⊢
  split_ifs at htlb ⊢
  · exact h
  · exact ⟨h.cache, htlb, fun i hi => Qemu.resetDirtyLoop_and (h.watched i hi), h.length,
      h.source, h.current⟩

theorem Qemu.tlbProtectCode_eq (m : Qemu) (hw : Board) {addr : Addr32}
    (haddr : pageOffset addr = 0) :
    m.tlbProtectCode hw addr = { m with
      dirty := Function.update m.dirty (pageIndex addr)
        (m.dirty (pageIndex addr) &&& ~~~ codeDirtyFlag)
      cpus := fun c => (m.cpus c).mapTlb
        (·.tlbResetDirtyRange (addr + hw.physRamBase) targetPageSize) } := by
  have hsize : (targetPageSize : Word32).toNat = 4096 := rfl
  have hzero := pageOffset_eq_zero_iff.mp haddr
  have hstop : (addr + targetPageSize + targetPageSize - 1) &&& targetPageMask =
      addr + targetPageSize := by
    have hone : (1 : Word32).toNat = 1 := rfl
    refine UInt32.toNat_inj.mp ?_
    rw [toNat_mask, UInt32.toNat_sub, UInt32.toNat_add, UInt32.toNat_add, hsize, hone]
    omega
  have hlength : addr + targetPageSize - addr = targetPageSize := by grind
  rw [Qemu.tlbProtectCode, Qemu.cpuPhysicalMemoryResetDirty]
  simp only [mask_of_pageOffset haddr, hstop, hlength]
  rw [if_neg (by decide)]
  rfl

/-- What watching a page does. -/
structure Watching (hw : Board) (L : CacheLayout) (m m' : Qemu) : Prop where
  coherent : Coherent hw m' L
  eq : m' = { m with dirty := m'.dirty, cpus := m'.cpus }
  kept : ∀ j, m.dirty j &&& codeDirtyFlag = 0 → m'.dirty j &&& codeDirtyFlag = 0
  code : ∀ c mmu x, ((m'.cpus c).tlbAt mmu x).addrCode = ((m.cpus c).tlbAt mmu x).addrCode ∧
    ((m'.cpus c).tlbAt mmu x).addend = ((m.cpus c).tlbAt mmu x).addend

theorem Watching.trans {m'' : Qemu} (h : Watching hw L m m') (h' : Watching hw L m' m'') :
    Watching hw L m m'' :=
  ⟨h'.coherent, by rw [h'.eq, h.eq], fun j hj => h'.kept j (h.kept j hj), fun c mmu x =>
    ⟨(h'.code c mmu x).1.trans (h.code c mmu x).1, (h'.code c mmu x).2.trans (h.code c mmu x).2⟩⟩

theorem TlbEntry.tlbResetDirtyRange_code (e : TlbEntry) (start length : Word32) :
    (e.tlbResetDirtyRange start length).addrCode = e.addrCode ∧
      (e.tlbResetDirtyRange start length).addend = e.addend := by
  rw [TlbEntry.tlbResetDirtyRange]
  split_ifs <;> exact ⟨rfl, rfl⟩

theorem Coherent.protectFirst (h : Coherent hw m L) (cache : CodeCache) {addr : Addr32}
    (haddr : pageOffset addr = 0) :
    Watching hw L m (m.protectFirst hw cache addr) ∧
      (cache.readPage (.firstTb (pageIndex addr)) = none →
        (m.protectFirst hw cache addr).dirty (pageIndex addr) &&& codeDirtyFlag = 0) := by
  rw [Qemu.protectFirst]
  split_ifs with hfirst
  · have hcoh := h.resetDirty addr (addr + targetPageSize) codeDirtyFlag
    have heq := m.tlbProtectCode_eq hw haddr
    refine ⟨⟨hcoh, by rw [heq], fun j hj => ?_, fun c mmu x => ?_⟩, fun _ => ?_⟩
    · rw [heq]
      simp only
      by_cases hi : j = pageIndex addr
      · subst hi
        rw [Function.update_self, UInt8.and_assoc, UInt8.not_and_self, UInt8.and_zero]
      · rw [Function.update_of_ne hi]
        exact hj
    · rw [heq]
      exact TlbEntry.tlbResetDirtyRange_code _ _ _
    · rw [heq]
      simp only
      rw [Function.update_self, UInt8.and_assoc, UInt8.not_and_self, UInt8.and_zero]
  · exact ⟨⟨h, rfl, fun _ hj => hj, fun _ _ _ => ⟨rfl, rfl⟩⟩, fun hnone => absurd hnone hfirst⟩

theorem Shape.page_ne_nil {s : CodeCache} (h : Shape s L) {i : Word32}
    (hread : s.readPage (.firstTb i) ≠ none) : L.page i ≠ [] := by
  intro hnil
  have hpath := h.page.lists.path i (Set.mem_univ i)
  rw [hnil] at hpath
  exact hread hpath

/-! ### Linking a block -/

/-- **Blocks that are not linked** may be filled in. -/
theorem Coherent.fill (h : Coherent hw m L) {s' : CodeCache} {source' : TbPtr → List UInt8}
    (heq : s' = { m.cache with
      tbs := s'.tbs, nbTbs := s'.nbTbs, codeGenPtr := s'.codeGenPtr
      tbInvalidatedFlag := s'.tbInvalidatedFlag })
    (htbs : ∀ t ∈ L.known, s'.tbs t = m.cache.tbs t) (hnb : m.cache.nbTbs ≤ s'.nbTbs)
    (horder : CodeOrder s') (hsource : ∀ t ∈ L.known, source' t = m.source t) :
    Coherent hw { m with cache := s', source := source' } L := by
  have hlive : ∀ t ∈ L.live, t ∈ L.known := h.cache.shape.live_known
  refine ⟨h.cache.fill heq htbs hnb horder, h.tlb, h.watched, fun t ht => ?_,
    fun t ht k b hb => ?_, h.current⟩
  · simp only [htbs t (hlive t ht), hsource t (hlive t ht)]
    exact h.length t ht
  · simp only [hsource t (hlive t ht)] at hb
    simp only [htbs t (hlive t ht)]
    exact h.source t ht k b hb

section Link

variable {physPc physPage2 : Addr32}

/-- The pages that hold code with a new block. -/
theorem CacheLayout.enter_watched {d : Word32 → UInt8}
    (hold : ∀ i, L.page i ≠ [] → d i &&& codeDirtyFlag = 0)
    (hfirst : d (pageIndex (physPc &&& targetPageMask)) &&& codeDirtyFlag = 0)
    (hsecond : physPage2 ≠ noPage → d (pageIndex physPage2) &&& codeDirtyFlag = 0) {i : Word32}
    (hi : (L.enter tb physPc physPage2).page i ≠ []) : d i &&& codeDirtyFlag = 0 := by
  obtain ⟨x, hx⟩ := List.exists_mem_of_ne_nil _ hi
  rcases CacheLayout.mem_enter_page.mp hx with ⟨rfl, -⟩ | ⟨hne, rfl, -⟩ | hmem
  · exact hfirst
  · exact hsecond hne
  · exact hold i (List.ne_nil_of_mem hmem)

/-- The pages of a new block are watched. -/
theorem Coherent.watched_enter (h : Coherent hw m L) (tb : TbPtr) (physPc physPage2 : Addr32)
    (h2 : physPage2 ≠ noPage → pageOffset physPage2 = 0) :
    ∃ m', Watching hw L m m' ∧
      m.tbLinkPhys hw tb physPc physPage2 =
        { m' with cache := m.cache.tbLinkPhys tb physPc physPage2 } ∧
      ∀ i, (L.enter tb physPc physPage2).page i ≠ [] → m'.dirty i &&& codeDirtyFlag = 0 := by
  let page1 := physPc &&& targetPageMask
  obtain ⟨hw1, hclear1⟩ := h.protectFirst m.cache (pageOffset_mask physPc)
  have hfirst : (m.protectFirst hw m.cache page1).dirty (pageIndex page1) &&&
      codeDirtyFlag = 0 := by
    by_cases hread : m.cache.readPage (.firstTb (pageIndex page1)) = none
    · exact hclear1 hread
    · exact hw1.kept _ (h.watched _ (h.cache.shape.page_ne_nil hread))
  rw [Qemu.tbLinkPhys]
  split_ifs with hpage
  · obtain ⟨hw2, hclear2⟩ := hw1.coherent.protectFirst (m.cache.tbAllocPage tb .zero page1)
      (h2 hpage)
    refine ⟨_, hw1.trans hw2, rfl, fun i hi => CacheLayout.enter_watched
      (fun i hi => hw2.kept i (hw1.kept i (h.watched i hi))) (hw2.kept _ hfirst) (fun _ => ?_) hi⟩
    -- the list of the second page, after the block has been put on the first one
    rw [CodeCache.readPage_tbAllocPage] at hclear2
    by_cases hsame : pageIndex physPage2 = pageIndex page1
    · rw [hsame]
      exact hw2.kept _ hfirst
    · by_cases hread : m.cache.readPage (.firstTb (pageIndex physPage2)) = none
      · refine hclear2 ?_
        rw [Function.update_of_ne fun heq => hsame (PageCell.firstTb.inj heq),
          Function.update_of_ne (pageNext_ne_firstTb _ _).symm]
        exact hread
      · exact hw2.kept _ (hw1.kept _ (h.watched _ (h.cache.shape.page_ne_nil hread)))
  · exact ⟨_, hw1, rfl, fun i hi => CacheLayout.enter_watched
      (fun i hi => hw1.kept i (h.watched i hi)) hfirst (fun hne => absurd hne hpage) hi⟩

/-- **A block whose code is in memory** may be linked. -/
theorem Coherent.link (h : Coherent hw m L) (htb : tb ∉ L.known) (hlt : tb < m.cache.nbTbs)
    (hpc : pageOffset (m.cache.tbs tb).pc = pageOffset physPc)
    (hwf : ((m.cache.tbs tb).placed physPc physPage2).Wf)
    (hlen : (m.source tb).length = (m.cache.tbs tb).size.toNat)
    (hsource : ∀ k b, (m.source tb)[k]? = some b →
      m.Holds (((m.cache.tbs tb).placed physPc physPage2).byteAddr k) b) :
    Coherent hw (m.tbLinkPhys hw tb physPc physPage2) (L.enter tb physPc physPage2) := by
  have hlive : tb ∉ L.live := fun hmem => htb (h.cache.shape.live_known tb hmem)
  obtain ⟨m', hwatch, heq, hflags⟩ := h.watched_enter tb physPc physPage2 (hwf.aligned .one)
  obtain ⟨dirty, cpus, rfl⟩ : ∃ dirty cpus, m' = { m with dirty := dirty, cpus := cpus } :=
    ⟨_, _, hwatch.eq⟩
  have hcoh := hwatch.coherent
  rw [heq]
  refine ⟨h.cache.tbLinkPhys htb hlt hpc hwf, hcoh.tlb, hflags, fun t ht => ?_,
    fun t ht k b hb => ?_, fun c t ht => ?_⟩
  · simp only [CodeCache.tbLinkPhys_tbs]
    rcases Set.mem_insert_iff.mp ht with rfl | ht
    · rw [Function.update_self]
      exact hlen
    · rw [Function.update_of_ne (ne_of_mem_of_not_mem ht hlive)]
      exact h.length t ht
  · simp only [CodeCache.tbLinkPhys_tbs]
    rcases Set.mem_insert_iff.mp ht with rfl | ht
    · rw [Function.update_self]
      exact hsource k b hb
    · rw [Function.update_of_ne (ne_of_mem_of_not_mem ht hlive)]
      exact h.source t ht k b hb
  · obtain ⟨hknown, hsingle⟩ := hcoh.current c t ht
    exact ⟨Set.mem_insert_of_mem _ hknown, hsingle⟩

end Link

/-! ### Where code is read -/

/-- By the table, the code at an address lies at another one in memory. -/
structure CodeAt (hw : Board) (c : ℕ) (mmu : MmuIdx) (m : Qemu) (addr phys : Addr32) : Prop where
  hit : ((m.cpus c).tlbAt mmu addr).Matches .fetch addr
  plain : pageOffset ((m.cpus c).tlbAt mmu addr).addrCode = 0
  eq : phys = addr + ((m.cpus c).tlbAt mmu addr).addend - hw.physRamBase
  offset : pageOffset phys = pageOffset addr
  inside : (phys &&& targetPageMask).toNat + 8192 ≤ 2 ^ 32

section Fetch

variable {c : ℕ} {mmu : MmuIdx} {a addr phys : Addr32}

/-- The page that an address goes to, if it is moved by whole pages. -/
theorem mask_moved {x b d : Word32} (hb : pageOffset b = 0) (hd : pageOffset d = 0) :
    (x + d - b) &&& targetPageMask = (x &&& targetPageMask) + d - b := by
  rw [pageOffset_eq_zero_iff] at hb hd
  have hb' := b.toNat_lt
  have hx := x.toNat_lt
  refine UInt32.toNat_inj.mp ?_
  rw [toNat_mask, UInt32.toNat_sub, UInt32.toNat_sub, UInt32.toNat_add, UInt32.toNat_add,
    toNat_mask]
  omega

/-- An entry that is found by its address alone. -/
theorem TlbEntry.Matches.addrFor_eq {e : TlbEntry} {access : Access} (h : e.Matches access addr)
    (hplain : pageOffset (e.addrFor access) = 0) : e.addrFor access = addr &&& targetPageMask := by
  calc e.addrFor access = e.addrFor access &&& targetPageMask :=
        (mask_of_pageOffset hplain).symm
    _ = e.addrFor access &&& targetPageMask &&& (targetPageMask ||| tlbInvalidMask) := by
        rw [UInt32.and_assoc]
        rfl
    _ = e.addrFor access &&& (targetPageMask ||| tlbInvalidMask) := by
        rw [mask_of_pageOffset hplain]
    _ = addr &&& targetPageMask := h.symm

/-- What is not a device is memory. -/
theorem CodeAt.of_matches (hhw : hw.Ok) (hok : m.TlbOk hw)
    (hhit : ((m.cpus c).tlbAt mmu addr).Matches .fetch addr)
    (hio : ¬ IsIo (pageOffset ((m.cpus c).tlbAt mmu addr).addrCode)) :
    CodeAt hw c mmu m addr
      (addr + ((m.cpus c).tlbAt mmu addr).addend - hw.physRamBase) := by
  have he : ((m.cpus c).tlbAt mmu addr).Ok hw m.dirty := hok c mmu (tlbIndex addr)
  have hoffset : pageOffset (addr + ((m.cpus c).tlbAt mmu addr).addend - hw.physRamBase) =
      pageOffset addr := by
    rw [pageOffset_sub hhw.aligned, pageOffset_add he.addend]
  rcases he.code with hnone | hio' | ⟨hplain, hinside⟩
  · -- an entry of minus one matches nothing
    have hpage : addr &&& targetPageMask = 0xffffffff &&& (targetPageMask ||| tlbInvalidMask) :=
      hnone ▸ hhit
    have hzero := pageOffset_mask addr
    rw [hpage] at hzero
    exact absurd hzero (by decide)
  · exact absurd hio' hio
  · have hpage : ((m.cpus c).tlbAt mmu addr).addrCode = addr &&& targetPageMask :=
      hhit.addrFor_eq hplain
    refine ⟨hhit, hplain, rfl, hoffset, ?_⟩
    rw [mask_moved hhw.aligned he.addend, ← hpage]
    exact hinside

/-- The entry stays while the page is accessed. -/
theorem CodeAt.steady (h : CodeAt hw c mmu m addr phys)
    (hs : Steady hw c .fetch mmu a m m') (hnear : Near a addr) :
    CodeAt hw c mmu m' addr phys := by
  have hkept := hs.kept addr hnear h.hit
  exact ⟨hkept ▸ h.hit, hkept ▸ h.plain, hkept ▸ h.eq, h.offset, h.inside⟩

theorem Loaded.matches {access : Access} {n v : ℕ} (h : Loaded hw c access mmu m addr n v)
    (hn : 0 < n) : ((m.cpus c).tlbAt mmu addr).Matches access addr := by
  obtain ⟨bs, rfl, -, hsees⟩ := h
  have hfirst := (hsees 0 bs[0] (List.getElem?_eq_getElem hn)).1
  rwa [Bytes.add_ofNat_zero] at hfirst

theorem triple_ldCode (hhw : hw.Ok) (m : Qemu) (hok : m.TlbOk hw) (hsingle : m.single = some c)
    (sz : AccessSize) (addr : Addr32) (hnear : ∀ j < sz.bytes, Near a (addr + UInt32.ofNat j)) :
    Triple (· = m) (ldCode hw sz addr)
      (LoadSpec hw c .fetch (m.cpus c).regs.cpuMmuIndex a m addr sz.bytes)
      (fun e m' => e = .exception ∧
        Steady hw c .fetch (m.cpus c).regs.cpuMmuIndex a m m') := by
  refine .get_bind ?_
  rintro m rfl
  rw [hsingle]
  exact triple_ld hhw m hok hsingle sz .fetch _ hnear

/-- **The physical address of code**, or an exception, or the code is on a device. -/
theorem triple_getPhysAddrCode (hhw : hw.Ok) (m : Qemu) (hok : m.TlbOk hw)
    (hsingle : m.single = some c) (hnear : Near a addr) :
    Triple (· = m) (getPhysAddrCode hw c addr)
      (fun phys m' => Steady hw c .fetch (m.cpus c).regs.cpuMmuIndex a m m' ∧
        CodeAt hw c (m.cpus c).regs.cpuMmuIndex m' addr phys)
      (fun e m' => e ≠ .crash ∧ Steady hw c .fetch (m.cpus c).regs.cpuMmuIndex a m m') := by
  refine .get_bind ?_
  rintro m rfl
  -- once the entry is there
  have hrest : ∀ m', Steady hw c .fetch (m.cpus c).regs.cpuMmuIndex a m m' →
      ((m'.cpus c).tlbAt (m.cpus c).regs.cpuMmuIndex addr).Matches .fetch addr →
      Triple (· = m') (do
          let e := ((← get).cpus c).tlbAt (m.cpus c).regs.cpuMmuIndex addr
          if IsIo (pageOffset e.addrCode) then throw .abort
          pure (addr + e.addend - hw.physRamBase) : Emu Addr32)
        (fun phys m' => Steady hw c .fetch (m.cpus c).regs.cpuMmuIndex a m m' ∧
          CodeAt hw c (m.cpus c).regs.cpuMmuIndex m' addr phys)
        (fun e m' => e ≠ .crash ∧
          Steady hw c .fetch (m.cpus c).regs.cpuMmuIndex a m m') := by
    intro m' hs hhit
    refine .get_bind ?_
    rintro m' rfl
    refine .ite (fun _ => ?_) fun hio => ?_
    · rintro _ rfl
      exact ⟨by decide, hs⟩
    · rintro _ rfl
      exact ⟨hs, .of_matches hhw (hs.calm.tlbOk hok) hhit hio⟩
  refine .ite (fun _ => ?_) fun hhit => ?_
  · have hb : ∀ j < AccessSize.b.bytes, Near a (addr + UInt32.ofNat j) := by
      intro j hj
      obtain rfl : j = 0 := Nat.lt_one_iff.mp hj
      rwa [Bytes.add_ofNat_zero]
    refine ((triple_ldCode hhw m hok hsingle .b addr hb).weaken_exit
      fun e m' h => ⟨by rw [h.1]; decide, h.2⟩).bind fun v m' hload => ?_
    exact hrest m' hload.steady (hload.loaded.matches Nat.one_pos) m' rfl
  · refine hrest m (.refl m) ?_
    have haddr : ((m.cpus c).tlbAt (m.cpus c).regs.cpuMmuIndex addr).addrCode =
        addr &&& targetPageMask := not_not.mp hhit
    rw [TlbEntry.Matches, TlbEntry.addrFor, haddr, UInt32.and_assoc]
    rfl

end Fetch

/-! ### Reading code -/

/-- What is assumed of the translator: it reads no more than a page, a block has some code, which
has been read, and a flush makes room for a block. -/
structure Translator.Ok (tr : Translator) : Prop where
  read : ∀ e r sz, tr.next e r = .read sz → (codeBytes r).length + sz.bytes ≤ 4096
  done : ∀ e r t, tr.next e r = .done t →
    0 < t.size.toNat ∧ t.size.toNat ≤ (codeBytes r).length
  buffer : 0 < tr.codeGenBufferMaxSize

/-- The bytes are seen from an address on. -/
def Fetched (hw : Board) (c : ℕ) (mmu : MmuIdx) (m : Qemu) (pc : Addr32) (bytes : List UInt8) :
    Prop :=
  ∀ j b, bytes[j]? = some b → Sees hw c .fetch mmu m (pc + UInt32.ofNat j) b

section Read

variable {c : ℕ} {mmu : MmuIdx} {tr : Translator} {e : TbEntry} {m₀ : Qemu}

theorem codeBytes_append (read : List (AccessSize × ℕ)) (sz : AccessSize) (v : ℕ) :
    codeBytes (read ++ [(sz, v)]) = codeBytes read ++ Bytes.leBytes sz.bytes v := by
  rw [codeBytes, List.flatMap_append, List.flatMap_singleton]
  rfl

theorem Fetched.take {pc : Addr32} {bytes : List UInt8} (h : Fetched hw c mmu m pc bytes) (n : ℕ) :
    Fetched hw c mmu m pc (bytes.take n) := by
  intro j b hb
  rw [List.getElem?_take] at hb
  split_ifs at hb
  exact h j b hb

/-- What has been read stays seen, and what is read next comes behind it. -/
theorem Fetched.append {pc : Addr32} {bytes : List UInt8} (h : Fetched hw c mmu m pc bytes)
    (hlen : bytes.length ≤ 4096) (hs : Steady hw c .fetch mmu pc m m') {n v : ℕ}
    (hload : Loaded hw c .fetch mmu m' (pc + UInt32.ofNat bytes.length) n v) :
    Fetched hw c mmu m' pc (bytes ++ Bytes.leBytes n v) := by
  obtain ⟨bs, rfl, rfl, hsees⟩ := hload
  rw [Bytes.leBytes_leNat]
  intro j b hb
  by_cases hj : j < bytes.length
  · rw [List.getElem?_append_left hj] at hb
    exact (h j b hb).steady hs (near_add pc (by omega))
  · rw [List.getElem?_append_right (by omega)] at hb
    have hsum : pc + UInt32.ofNat j =
        pc + UInt32.ofNat bytes.length + UInt32.ofNat (j - bytes.length) := by
      rw [UInt32.add_assoc, ← UInt32.ofNat_add]
      congr 2
      omega
    rw [hsum]
    exact hsees _ b hb

theorem Calm.cpuMmuIndex {S : Set (ℕ × MmuIdx × Word32)} (h : Calm hw S m m') (c : ℕ) :
    (m'.cpus c).regs.cpuMmuIndex = (m.cpus c).regs.cpuMmuIndex := by
  rw [MmuRegs.cpuMmuIndex, h.hflags, MmuRegs.cpuMmuIndex]

/-- What the translator has read. -/
structure CodeRead (hw : Board) (c : ℕ) (mmu : MmuIdx) (pc : Addr32) (m : Qemu) (t : Translation)
    (bytes : List UInt8) (m' : Qemu) : Prop where
  steady : Steady hw c .fetch mmu pc m m'
  length : bytes.length = t.size.toNat
  pos : 0 < t.size.toNat
  le : t.size.toNat ≤ 4096
  fetched : Fetched hw c mmu m' pc bytes

/-- **The translator reads the code** that is seen at the address of the block. The induction is
on the number of accesses left; what has been read so far stays seen. -/
theorem triple_genCodeLoop (hhw : hw.Ok) (htr : tr.Ok) (hok : m₀.TlbOk hw)
    (hsingle : m₀.single = some c) {k : ℕ} {read : List (AccessSize × ℕ)} (m : Qemu)
    (hs : Steady hw c .fetch (m₀.cpus c).regs.cpuMmuIndex e.pc m₀ m)
    (hread : Fetched hw c (m₀.cpus c).regs.cpuMmuIndex m e.pc (codeBytes read))
    (hlen : (codeBytes read).length ≤ 4096) (hk : 4096 < (codeBytes read).length + k) :
    Triple (· = m) (genCodeLoop hw tr e k read)
      (fun r => CodeRead hw c (m₀.cpus c).regs.cpuMmuIndex e.pc m₀ r.1 r.2)
      (fun x m' => x ≠ .crash ∧ Steady hw c .fetch (m₀.cpus c).regs.cpuMmuIndex e.pc m₀ m') := by
  induction k generalizing read m with
  | zero => omega
  | succ k ih =>
      rw [genCodeLoop]
      cases hnext : tr.next e read with
      | done t =>
          obtain ⟨hpos, hle⟩ := htr.done e read t hnext
          rintro m rfl
          exact ⟨hs, List.length_take_of_le hle, hpos, hle.trans hlen, hread.take _⟩
      | read sz =>
          have hbound := htr.read e read sz hnext
          have hpos := sz.bytes_pos
          have hmmu := hs.calm.cpuMmuIndex c
          have hnear : ∀ j < sz.bytes, Near e.pc
              (e.pc + UInt32.ofNat (codeBytes read).length + UInt32.ofNat j) := by
            intro j hj
            rw [UInt32.add_assoc, ← UInt32.ofNat_add]
            exact near_add e.pc (by omega)
          have hcode := triple_ldCode hhw m (hs.calm.tlbOk hok) (hs.calm.single.trans hsingle) sz _
            hnear
          rw [hmmu] at hcode
          refine (hcode.weaken_exit fun x m' h => ⟨by rw [h.1]; decide, hs.trans h.2⟩).bind
            fun v m' hload => ?_
          have hcodes := codeBytes_append read sz v
          have hlength : (codeBytes (read ++ [(sz, v)])).length =
              (codeBytes read).length + sz.bytes := by
            rw [hcodes, List.length_append, Bytes.length_leBytes]
          refine ih m' (hs.trans hload.steady) ?_ (by omega) (by omega) m' rfl
          rw [hcodes]
          exact hread.append hlen hload.steady hload.loaded

end Read

end MemCheck
