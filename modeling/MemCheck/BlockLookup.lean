import MemCheck.FreshCode

/-!
# Looking for Blocks

`tb_find_slow` looks for a block by the physical address of its code, and by the second page if it
has one. A block that is found this way was translated from the bytes that the guest sees at the
address now, since memory still holds them where the block lies. If there is none, one is
translated from those bytes. `tb_find_fast` goes by the virtual address, and finds a live block for
it.

A block passes through three states before it is linked: `Taken` from the array, `Pending` once its
code has a place, and `Translated` once its code has been read. None of them is part of the layout,
so that an exception may give it up.

## Main results

* `Lies.sees_iff`: what is seen at the address of a block is what memory holds where it lies;
* `triple_tbTranslate`: a block is translated and linked;
* `triple_tbFindSlow`, `triple_tbFindFast`: what a look for a block leads to.
-/

namespace MemCheck

open LongJump (Triple)

variable {hw : Board} {m m' : Qemu} {L : CacheLayout} {tb : TbPtr} {c : ℕ} {mmu : MmuIdx}

/-! ### Where the code of a block is seen -/

section Lies

variable {e : TbEntry} {addr phys x : Addr32} {b : UInt8} {k : ℕ}

/-- What is seen on the page of an address. -/
theorem CodeAt.sees_iff (h : CodeAt hw c mmu m addr phys) (hx : pageIndex x = pageIndex addr) :
    Sees hw c .fetch mmu m x b ↔ m.Holds ((phys &&& targetPageMask) + pageOffset x) b := by
  have hentry : (m.cpus c).tlbAt mmu x = (m.cpus c).tlbAt mmu addr := by
    rw [CpuState.tlbAt, tlbIndex_eq_of_pageIndex hx, CpuState.tlbAt]
  have hphys := mask_add_pageOffset phys
  rw [h.offset] at hphys
  have haddr := mask_add_pageOffset addr
  have hself := mask_add_pageOffset x
  rw [mask_eq_of_pageIndex hx] at hself
  have heq := h.eq
  have hplace : x + ((m.cpus c).tlbAt mmu addr).addend - hw.physRamBase =
      (phys &&& targetPageMask) + pageOffset x := by grind
  rw [Sees, hentry, hplace]
  exact ⟨fun hsees => hsees.2 h.plain, fun hb => ⟨h.hit.of_pageIndex hx.symm, fun _ => hb⟩⟩

theorem CodeAt.congr (h : CodeAt hw c mmu m addr phys) (hcpus : m'.cpus = m.cpus) :
    CodeAt hw c mmu m' addr phys :=
  ⟨hcpus ▸ h.hit, hcpus ▸ h.plain, hcpus ▸ h.eq, h.offset, h.inside⟩

/-- By the table, the code of a block is on the pages of the block. -/
structure Lies (hw : Board) (c : ℕ) (mmu : MmuIdx) (m : Qemu) (e : TbEntry) : Prop where
  first : ∃ phys, CodeAt hw c mmu m e.pc phys ∧ e.pageAddr .zero = phys &&& targetPageMask
  second : 4096 < (pageOffset e.pc).toNat + e.size.toNat →
    ∃ virt phys, pageIndex virt = pageIndex (e.pc + targetPageSize) ∧
      CodeAt hw c mmu m virt phys ∧ e.pageAddr .one = phys &&& targetPageMask

/-- **What is seen at the address of a block** is what memory holds where the block lies. -/
theorem Lies.sees_iff (h : Lies hw c mmu m e) (hle : e.size.toNat ≤ 4096)
    (hk : k < e.size.toNat) :
    Sees hw c .fetch mmu m (e.pc + UInt32.ofNat k) b ↔ m.Holds (e.byteAddr k) b := by
  rw [TbEntry.byteAddr]
  split_ifs with ho
  · obtain ⟨phys, hcode, hpage⟩ := h.first
    obtain ⟨hindex, hoffset⟩ := page_add_of_lt ho
    rw [hcode.sees_iff hindex, hoffset, hpage]
  · obtain ⟨virt, phys, hvirt, hcode, hpage⟩ := h.second (by omega)
    obtain ⟨hindex, hoffset⟩ := page_add_of_le (not_lt.mp ho) (hk.le.trans hle)
    rw [hcode.sees_iff (hindex.trans hvirt.symm), hoffset, hpage]

end Lies

/-! ### Blocks that are being translated -/

/-- No block is executed. -/
def Qemu.Idle (m : Qemu) : Prop := ∀ c, (m.cpus c).env.currentTb = none

/-- What a block is looked up by. -/
structure Wanted where
  pc : Addr32
  csBase : Addr32
  flags : UInt64

/-- The block is one that is looked for. -/
structure TbEntry.Is (e : TbEntry) (w : Wanted) : Prop where
  pc : e.pc = w.pc
  csBase : e.csBase = w.csBase
  flags : e.flags = w.flags

/-- A block has been taken from the array, and its code has no place yet. -/
structure Taken (hw : Board) (L : CacheLayout) (tb : TbPtr) (pc : Addr32) (s : CodeCache)
    (m : Qemu) : Prop where
  coherent : Coherent hw { m with cache := s } L
  eq : m.cache = { s with
    nbTbs := s.nbTbs + 1, tbs := m.cache.tbs, tbInvalidatedFlag := m.cache.tbInvalidatedFlag }
  next : tb = s.nbTbs
  tbs : ∀ t, t ≠ tb → m.cache.tbs t = s.tbs t
  start : (m.cache.tbs tb).pc = pc

/-- A block whose code has a place, and that is not linked yet. -/
structure Pending (hw : Board) (L : CacheLayout) (tb : TbPtr) (w : Wanted) (m : Qemu) : Prop where
  coherent : Coherent hw m L
  notMem : tb ∉ L.known
  lt : tb < m.cache.nbTbs
  is : (m.cache.tbs tb).Is w

/-- A block whose code has been read. -/
structure Translated (hw : Board) (c : ℕ) (mmu : MmuIdx) (L : CacheLayout) (tb : TbPtr)
    (w : Wanted) (m : Qemu) : Prop extends Pending hw L tb w m where
  pos : 0 < (m.cache.tbs tb).size.toNat
  le : (m.cache.tbs tb).size.toNat ≤ 4096
  length : (m.source tb).length = (m.cache.tbs tb).size.toNat
  fetched : Fetched hw c mmu m w.pc (m.source tb)

section Translate

variable {tr : Translator} {w : Wanted} {pc physPc physPage2 : Addr32} {s : CodeCache}

/-- Flushing while no block is executed. -/
theorem Coherent.tbFlush (h : Coherent hw m L) (hidle : m.Idle) :
    Coherent hw { m with cache := m.cache.tbFlush } .empty :=
  ⟨cacheOk_tbFlush _, h.tlb, fun _ hi => absurd rfl hi, fun _ => False.elim,
    fun _ => False.elim, fun c tb htb => by cases (hidle c).symm.trans htb⟩

theorem Coherent.taken (h : Coherent hw { m with cache := s } L) {size : ℕ} {r : TbPtr × CodeCache}
    (hr : s.tbAlloc size pc = some r) : Taken hw L r.1 pc s { m with cache := r.2 } := by
  rw [CodeCache.tbAlloc] at hr
  split_ifs at hr
  obtain rfl := Option.some.inj hr
  refine ⟨h, rfl, rfl, fun t ht => Function.update_of_ne ht _ _, ?_⟩
  simp only [CodeCache.setTb, Function.update_self]

/-- **There is always a block** to be taken. -/
theorem triple_tbAllocOrFlush (htr : tr.Ok) (h : Coherent hw m L) (hidle : m.Idle) :
    Triple (· = m) (tbAllocOrFlush tr pc)
      (fun r m' => m' = { m with cache := m'.cache } ∧ ∃ L' s, Taken hw L' r.1 pc s m')
      (fun _ _ => False) := by
  refine .get_bind ?_
  rintro m rfl
  cases halloc : m.cache.tbAlloc tr.codeGenBufferMaxSize pc with
  | some r =>
      rintro _ rfl
      exact ⟨rfl, L, _, h.taken halloc⟩
  | none =>
      cases halloc' : m.cache.tbFlush.tbAlloc tr.codeGenBufferMaxSize pc with
      | some r =>
          rintro _ rfl
          exact ⟨rfl, .empty, _, (h.tbFlush hidle).taken halloc'⟩
      | none =>
          have hroom : ¬ (CodeCache.codeGenMaxBlocks ≤ m.cache.tbFlush.nbTbs ∨
              tr.codeGenBufferMaxSize ≤ m.cache.tbFlush.codeGenPtr) := by
            rintro (hle | hle)
            · exact absurd (show CodeCache.codeGenMaxBlocks ≤ 0 from hle) (by decide)
            · exact Nat.not_lt.mpr hle htr.buffer
          rw [CodeCache.tbAlloc, if_neg hroom] at halloc'
          cases halloc'

/-- The block may be filled in further. -/
theorem Taken.setTb (h : Taken hw L tb pc s m) {f : TbEntry → TbEntry} (hf : ∀ e, (f e).pc = e.pc) :
    Taken hw L tb pc s { m with cache := m.cache.setTb tb f } := by
  refine ⟨h.coherent, ?_, h.next, fun t ht => ?_, ?_⟩
  · exact congrArg (CodeCache.setTb · tb f) h.eq
  · exact (Function.update_of_ne ht _ _).trans (h.tbs t ht)
  · refine Eq.trans ?_ h.start
    simp only [CodeCache.setTb, Function.update_self]
    exact hf _

/-- The code of a block is to come behind the code of the others. -/
theorem Taken.pending (h : Taken hw L tb w.pc s m) :
    Pending hw L tb w { m with cache := m.cache.setTb tb fun e =>
      { e with tcPtr := m.cache.codeGenPtr, csBase := w.csBase, flags := w.flags } } := by
  have hnot : tb ∉ L.known := h.next ▸ h.coherent.cache.nbTbs_not_mem
  have hnb : m.cache.nbTbs = s.nbTbs + 1 := by rw [h.eq]
  have hptr : m.cache.codeGenPtr = s.codeGenPtr := by rw [h.eq]
  have hold : ∀ t, t ≠ tb → ∀ e, Function.update m.cache.tbs tb e t = s.tbs t := fun t ht e =>
    (Function.update_of_ne ht e _).trans (h.tbs t ht)
  refine ⟨h.coherent.fill ?_ (fun t ht => hold t (ne_of_mem_of_not_mem ht hnot) _) ?_ ?_
    fun _ _ => rfl, hnot, ?_, ?_⟩
  · obtain ⟨tbs, flag, heq⟩ : ∃ tbs flag, m.cache = { s with
        nbTbs := s.nbTbs + 1, tbs := tbs, tbInvalidatedFlag := flag } := ⟨_, _, h.eq⟩
    rw [heq]
    rfl
  · exact (Nat.le_succ _).trans_eq hnb.symm
  · refine h.coherent.cache.order.push (fun i hi => ?_) ?_ hnb hptr
    · exact congrArg TbEntry.tcPtr (hold i (hi.trans_eq h.next.symm).ne _)
    · simp only [CodeCache.setTb, ← h.next, Function.update_self]
      exact hptr
  · exact h.next.trans_lt ((Nat.lt_succ_self _).trans_eq hnb.symm)
  · simp only [CodeCache.setTb, Function.update_self]
    exact ⟨h.start, rfl, rfl⟩

/-- More of the buffer may be used, and the block filled in. -/
theorem Pending.fill (h : Pending hw L tb w m) {f : TbEntry → TbEntry} {ptr : ℕ}
    (bytes : List UInt8) (hptr : m.cache.codeGenPtr ≤ ptr)
    (hf : ∀ e, (f e).tcPtr = e.tcPtr ∧ (e.Is w → (f e).Is w)) :
    Pending hw L tb w { m with
      cache := { m.cache.setTb tb f with codeGenPtr := ptr }
      source := Function.update m.source tb bytes } := by
  have hne : ∀ t ∈ L.known, t ≠ tb := fun t ht => ne_of_mem_of_not_mem ht h.notMem
  refine ⟨h.coherent.fill rfl (fun t ht => Function.update_of_ne (hne t ht) _ _) le_rfl ?_
    fun t ht => Function.update_of_ne (hne t ht) _ _, h.notMem, h.lt, ?_⟩
  · refine h.coherent.cache.order.congr (fun i _ => ?_) rfl hptr
    simp only [CodeCache.setTb]
    by_cases hi : i = tb
    · subst hi
      rw [Function.update_self]
      exact (hf _).1
    · rw [Function.update_of_ne hi]
  · simp only [CodeCache.setTb, Function.update_self]
    exact (hf _).2 h.is

theorem Pending.calm (h : Pending hw L tb w m) {S : Set (ℕ × MmuIdx × Word32)}
    (hcalm : Calm hw S m m') : Pending hw L tb w m' :=
  ⟨h.coherent.calm hcalm, h.notMem, hcalm.cache ▸ h.lt, hcalm.cache ▸ h.is⟩

/-- What the translator says of the block is noted in it. -/
theorem Pending.translated (h : Pending hw L tb w m) (t : Translation) {bytes : List UInt8}
    (hlen : bytes.length = t.size.toNat) (hpos : 0 < t.size.toNat) (hle : t.size.toNat ≤ 4096)
    (hfetched : Fetched hw c mmu m w.pc bytes) :
    Translated hw c mmu L tb w { m with
      cache := m.cache.setTb tb fun e => { e with size := t.size, tbNextOffset := t.tbNextOffset }
      source := Function.update m.source tb bytes } := by
  let f : TbEntry → TbEntry := fun e => { e with size := t.size, tbNextOffset := t.tbNextOffset }
  have hsize : (Function.update m.cache.tbs tb (f (m.cache.tbs tb)) tb).size.toNat =
      t.size.toNat := by rw [Function.update_self]
  have hbytes : Function.update m.source tb bytes tb = bytes := Function.update_self ..
  have hf : ∀ e, (f e).tcPtr = e.tcPtr ∧ (e.Is w → (f e).Is w) := fun e =>
    ⟨rfl, fun he => ⟨he.pc, he.csBase, he.flags⟩⟩
  refine ⟨h.fill bytes le_rfl hf, hpos.trans_eq hsize.symm, hsize.trans_le hle,
    (congrArg List.length hbytes).trans (hlen.trans hsize.symm), fun j b hb => ?_⟩
  simp only [hbytes] at hb
  exact hfetched j b hb

/-- The code at an address is read for the processor that executes. -/
structure Reading (hw : Board) (c : ℕ) (mmu : MmuIdx) (pc phys : Addr32) (m : Qemu) : Prop where
  single : m.single = some c
  mmuIndex : (m.cpus c).regs.cpuMmuIndex = mmu
  codeAt : CodeAt hw c mmu m pc phys

theorem Reading.steady (h : Reading hw c mmu pc physPc m) (hs : Steady hw c .fetch mmu pc m m') :
    Reading hw c mmu pc physPc m' :=
  ⟨hs.calm.single.trans h.single, (hs.calm.cpuMmuIndex c).trans h.mmuIndex,
    h.codeAt.steady hs (.inl rfl)⟩

/-- **A block is translated** from the code at its address. -/
theorem triple_cpuGenCode (hhw : hw.Ok) (htr : tr.Ok) (h : Pending hw L tb w m)
    (hr : Reading hw c mmu w.pc physPc m) :
    Triple (· = m) (cpuGenCode hw tr tb)
      (fun _ m' => Translated hw c mmu L tb w m' ∧ Reading hw c mmu w.pc physPc m')
      (fun x m' => x ≠ .crash ∧ Coherent hw m' L) := by
  refine .get_bind ?_
  rintro m rfl
  have hread : Fetched hw c (m.cpus c).regs.cpuMmuIndex m (m.cache.tbs tb).pc (codeBytes []) :=
    fun _ _ hb => by cases hb
  have hbound : 4096 < (codeBytes []).length + fetchBound := by decide
  have hloop := triple_genCodeLoop hhw htr h.coherent.tlb hr.single m (.refl m) hread
    (Nat.zero_le _) hbound
  rw [hr.mmuIndex, h.is.pc] at hloop
  refine (hloop.weaken_exit fun x m' hx => ⟨hx.1, h.coherent.calm hx.2.calm⟩).bind
    fun r m' hcode => ?_
  have hr' := hr.steady hcode.steady
  exact ⟨(h.calm hcode.steady.calm).translated r.1 hcode.length hcode.pos hcode.le hcode.fetched,
    hr'.single, hr'.mmuIndex, hr'.codeAt.congr rfl⟩

/-- A live block that is the one looked for. -/
structure Usable (hw : Board) (c : ℕ) (w : Wanted) (tb : TbPtr) (m : Qemu) : Prop where
  coherent : ∃ L, Coherent hw m L ∧ tb ∈ L.live
  is : (m.cache.tbs tb).Is w
  single : m.single = some c

/-- It was translated from the code that is seen at its address. -/
structure Serves (hw : Board) (c : ℕ) (mmu : MmuIdx) (w : Wanted) (tb : TbPtr) (m : Qemu) :
    Prop extends Usable hw c w tb m where
  fetched : Fetched hw c mmu m w.pc (m.source tb)

theorem toNat_last (pc : Addr32) {size : UInt16} (hpos : 0 < size.toNat) :
    (pc + size.toUInt32 - 1).toNat = (pc.toNat + size.toNat - 1) % 2 ^ 32 := by
  have hone : (1 : Word32).toNat = 1 := rfl
  rw [UInt32.toNat_sub, UInt32.toNat_add, UInt16.toNat_toUInt32, hone]
  omega

/-- The test whether the code goes on to another page. -/
theorem mask_ne_iff_spans (pc : Addr32) {size : UInt16} (hpos : 0 < size.toNat)
    (hle : size.toNat ≤ 4096) :
    pc &&& targetPageMask ≠ (pc + size.toUInt32 - 1) &&& targetPageMask ↔
      4096 < (pageOffset pc).toNat + size.toNat := by
  have hpc := pc.toNat_lt
  rw [Ne, ← UInt32.toNat_inj, toNat_mask, toNat_mask, toNat_last pc hpos, toNat_pageOffset]
  omega

/-- It is the next one. -/
theorem pageIndex_last {size : UInt16} (hpos : 0 < size.toNat) (hle : size.toNat ≤ 4096)
    (hspan : 4096 < (pageOffset pc).toNat + size.toNat) :
    pageIndex ((pc + size.toUInt32 - 1) &&& targetPageMask) = pageIndex (pc + targetPageSize) := by
  have hpc := pc.toNat_lt
  have htsize : (targetPageSize : Word32).toNat = 4096 := rfl
  rw [toNat_pageOffset] at hspan
  refine UInt32.toNat_inj.mp ?_
  rw [pageIndex_mask, toNat_pageIndex, toNat_pageIndex, UInt32.toNat_add, toNat_last pc hpos,
    htsize]
  omega

theorem Sees.watching {x : Addr32} {b : UInt8} (h : Sees hw c .fetch mmu m x b)
    (hwatch : Watching hw L m m') : Sees hw c .fetch mmu m' x b := by
  obtain ⟨hcode, haddend⟩ := hwatch.code c mmu x
  have hholds : ∀ a, m'.Holds a b ↔ m.Holds a b := fun a => by
    rw [hwatch.eq]
    rfl
  refine ⟨?_, fun hplain => (hholds _).mpr ?_⟩
  · rw [TlbEntry.Matches, TlbEntry.addrFor, hcode]
    exact h.1
  · rw [TlbEntry.addrFor, hcode] at hplain
    rw [haddend]
    exact h.2 hplain

/-- Code that is longer than the rest of its page goes on at `physPage2`. -/
structure GoesOn (hw : Board) (c : ℕ) (mmu : MmuIdx) (m : Qemu) (pc : Addr32) (size : ℕ)
    (physPage2 : Addr32) : Prop where
  next : 4096 < (pageOffset pc).toNat + size →
    ∃ virt, pageIndex virt = pageIndex (pc + targetPageSize) ∧ pageOffset virt = 0 ∧
      CodeAt hw c mmu m virt physPage2
  ends : (pageOffset pc).toNat + size ≤ 4096 → physPage2 = noPage

section GoesOn

variable {e : TbEntry}

theorem GoesOn.ne_noPage (h : GoesOn hw c mmu m e.pc e.size.toNat physPage2)
    (hlt : 4096 < (pageOffset e.pc).toNat + e.size.toNat) : physPage2 ≠ noPage := by
  rintro rfl
  obtain ⟨virt, -, hoffset, hcode⟩ := h.next hlt
  exact absurd (hcode.offset.trans hoffset) (by decide)

theorem GoesOn.codeAt (h : GoesOn hw c mmu m e.pc e.size.toNat physPage2)
    (hne : physPage2 ≠ noPage) :
    pageOffset physPage2 = 0 ∧
      ∃ virt, pageIndex virt = pageIndex (e.pc + targetPageSize) ∧
        CodeAt hw c mmu m virt physPage2 := by
  obtain ⟨virt, hindex, hoffset, hcode⟩ := h.next (not_le.mp fun hle => hne (h.ends hle))
  exact ⟨hcode.offset.trans hoffset, virt, hindex, hcode⟩

theorem GoesOn.lies (h : GoesOn hw c mmu m e.pc e.size.toNat physPage2)
    (hcode : CodeAt hw c mmu m e.pc physPc) : Lies hw c mmu m (e.placed physPc physPage2) := by
  refine ⟨⟨physPc, hcode, rfl⟩, fun hlt => ?_⟩
  obtain ⟨hoffset, virt, hindex, hcode₂⟩ := h.codeAt (h.ne_noPage hlt)
  exact ⟨virt, physPage2, hindex, hcode₂, (mask_of_pageOffset hoffset).symm⟩

theorem GoesOn.wf (h : GoesOn hw c mmu m e.pc e.size.toNat physPage2)
    (hcode : CodeAt hw c mmu m e.pc physPc) (hpos : 0 < e.size.toNat)
    (hle : e.size.toNat ≤ 4096) : (e.placed physPc physPage2).Wf := by
  refine ⟨h.ne_noPage, fun n hn => ?_, fun n hn => ?_, hpos, hle⟩
  · cases n with
    | zero => exact pageOffset_mask physPc
    | one => exact (h.codeAt hn).1
  · cases n with
    | zero => exact hcode.inside
    | one =>
        obtain ⟨hoffset, virt, -, hcode₂⟩ := h.codeAt hn
        have hinside := hcode₂.inside
        rwa [mask_of_pageOffset hoffset] at hinside

end GoesOn

/-- **A block that has been translated may be linked.** -/
theorem Translated.link (h : Translated hw c mmu L tb w m)
    (hr : Reading hw c mmu w.pc physPc m)
    (hnext : GoesOn hw c mmu m w.pc (m.cache.tbs tb).size.toNat physPage2) :
    Serves hw c mmu w tb (m.tbLinkPhys hw tb physPc physPage2) := by
  have hcode := hr.codeAt
  rw [← h.is.pc] at hcode hnext
  have hwf := hnext.wf hcode h.pos h.le
  have hlink := h.coherent.link h.notMem h.lt hcode.offset.symm hwf h.length fun k b hb => by
    have hk : k < (m.cache.tbs tb).size.toNat :=
      h.length ▸ (List.getElem?_eq_some_iff.mp hb).1
    refine ((hnext.lies hcode).sees_iff h.le hk).mp ?_
    have hsees := h.fetched k b hb
    rwa [← h.is.pc] at hsees
  obtain ⟨m', hwatch, heq, -⟩ := h.coherent.watched_enter tb physPc physPage2 (hwf.aligned .one)
  refine ⟨⟨⟨_, hlink, Set.mem_insert _ _⟩, ?_, ?_⟩, ?_⟩
  · rw [heq]
    simp only [CodeCache.tbLinkPhys_tbs, Function.update_self]
    exact ⟨h.is.pc, h.is.csBase, h.is.flags⟩
  · rw [heq, hwatch.eq]
    exact hr.single
  · rw [heq]
    intro j b hb
    have hb' : (m.source tb)[j]? = some b := by
      rw [hwatch.eq] at hb
      exact hb
    have hsees := (h.fetched j b hb').watching hwatch
    exact hsees

theorem Translated.setCodeGenPtr (h : Translated hw c mmu L tb w m) {ptr : ℕ}
    (hptr : m.cache.codeGenPtr ≤ ptr) :
    Translated hw c mmu L tb w { m with cache := { m.cache with codeGenPtr := ptr } } :=
  ⟨⟨h.coherent.fill rfl (fun _ _ => rfl) le_rfl
      (h.coherent.cache.order.congr (fun _ _ => rfl) rfl hptr) fun _ _ => rfl,
    h.notMem, h.lt, h.is⟩, h.pos, h.le, h.length, fun j b hb => h.fetched j b hb⟩

/-- The block stays translated while the code next to it is looked at. -/
theorem Translated.steady (h : Translated hw c mmu L tb w m)
    (hs : Steady hw c .fetch mmu w.pc m m') : Translated hw c mmu L tb w m' := by
  have hcache := hs.calm.cache
  have hsource := hs.calm.source
  refine ⟨h.toPending.calm hs.calm, hcache ▸ h.pos, hcache ▸ h.le, ?_, fun j b hb => ?_⟩
  · rw [hcache, hsource]
    exact h.length
  · rw [hsource] at hb
    have hj : j < 4096 :=
      ((List.getElem?_eq_some_iff.mp hb).1.trans_eq h.length).trans_le h.le
    exact (h.fetched j b hb).steady hs (near_add _ hj.le)

/-- **A block is translated and linked**, unless the code cannot be read. -/
theorem triple_tbTranslate (hhw : hw.Ok) (htr : tr.Ok) (h : Taken hw L tb w.pc s m)
    (hr : Reading hw c mmu w.pc physPc m) :
    Triple (· = m) (tbTranslate hw tr c tb physPc w.pc w.csBase w.flags)
      (fun _ => Serves hw c mmu w tb) (fun x m' => x ≠ .crash ∧ ∃ L, Coherent hw m' L) := by
  refine (Triple.modify (Q := fun _ m' => Pending hw L tb w m' ∧ Reading hw c mmu w.pc physPc m')
    ?_).bind fun _ => ?_
  · rintro m rfl
    exact ⟨h.pending, hr.single, hr.mmuIndex, hr.codeAt.congr rfl⟩
  rintro m₁ ⟨hp, hr₁⟩
  refine ((triple_cpuGenCode hhw htr hp hr₁).weaken_exit fun x m' hx => ⟨hx.1, L, hx.2⟩).bind
    (fun codeGenSize => ?_) m₁ rfl
  refine (Triple.modify (Q := fun _ m' => Translated hw c mmu L tb w m' ∧
    Reading hw c mmu w.pc physPc m') ?_).bind fun _ => ?_
  · rintro m₂ ⟨ht, hr₂⟩
    refine ⟨ht.setCodeGenPtr ?_, hr₂.single, hr₂.mmuIndex, hr₂.codeAt.congr rfl⟩
    rw [codeGenAlign]
    omega
  refine .get_bind ?_
  rintro m₃ ⟨ht, hr₃⟩
  have hspan := mask_ne_iff_spans w.pc ht.pos ht.le
  refine .ite (fun hne => ?_) fun heq => ?_
  · have hindex := pageIndex_last ht.pos ht.le (hspan.mp hne)
    have hphys := triple_getPhysAddrCode hhw m₃ ht.coherent.tlb hr₃.single (.inr hindex)
    rw [hr₃.mmuIndex] at hphys
    refine (hphys.weaken_exit fun x m' hx =>
      ⟨hx.1, L, ht.coherent.calm hx.2.calm⟩).bind fun physPage2 => Triple.modify ?_
    rintro m₄ ⟨hs, hcode⟩
    have hcache := hs.calm.cache
    refine (ht.steady hs).link (hr₃.steady hs)
      ⟨fun _ => ⟨_, hindex, pageOffset_mask _, hcode⟩, fun hle => ?_⟩
    rw [hcache] at hle
    exact absurd (hspan.mp hne) (not_lt.mpr hle)
  · rintro _ rfl
    exact ht.link hr₃ ⟨fun hlt => absurd (hspan.mpr hlt) heq, fun _ => rfl⟩

theorem Qemu.Idle.calm (h : m.Idle) {S : Set (ℕ × MmuIdx × Word32)} (hcalm : Calm hw S m m') :
    m'.Idle := by
  intro c
  rw [hcalm.env]
  exact h c

theorem Reading.congr (h : Reading hw c mmu pc physPc m) (hcpus : m'.cpus = m.cpus)
    (hsingle : m'.single = m.single) : Reading hw c mmu pc physPc m' :=
  ⟨hsingle.trans h.single, hcpus ▸ h.mmuIndex, h.codeAt.congr hcpus⟩

/-- The address of the code that a processor executes. -/
theorem triple_getPhysAddrCode_reading (hhw : hw.Ok) (h : Coherent hw m L)
    (hsingle : m.single = some c) (hmmu : (m.cpus c).regs.cpuMmuIndex = mmu) (pc : Addr32) :
    Triple (· = m) (getPhysAddrCode hw c pc)
      (fun physPc m' => Steady hw c .fetch mmu pc m m' ∧ Reading hw c mmu pc physPc m')
      (fun x m' => x ≠ .crash ∧ Coherent hw m' L) := by
  have hphys := triple_getPhysAddrCode (a := pc) hhw m h.tlb hsingle (.inl rfl)
  rw [hmmu] at hphys
  refine hphys.conseq (fun _ h => h) (fun physPc m' hm => ⟨hm.1, ?_⟩)
    fun x m' hx => ⟨hx.1, h.calm hx.2.calm⟩
  exact ⟨hm.1.calm.single.trans hsingle, (hm.1.calm.cpuMmuIndex c).trans hmmu, hm.2⟩

/-- **`tb_gen_code`.** -/
theorem triple_tbGenCode (hhw : hw.Ok) (htr : tr.Ok) (h : Coherent hw m L) (hidle : m.Idle)
    (hsingle : m.single = some c) (w : Wanted) (cflags : UInt16) :
    Triple (· = m) (tbGenCode hw tr c w.pc w.csBase w.flags cflags)
      (fun _ m' => ∃ tb, Serves hw c (m.cpus c).regs.cpuMmuIndex w tb m')
      (fun x m' => x ≠ .crash ∧ ∃ L, Coherent hw m' L) := by
  refine ((triple_getPhysAddrCode_reading hhw h hsingle rfl w.pc).weaken_exit fun x m' hx =>
    ⟨hx.1, L, hx.2⟩).bind fun physPc => ?_
  rintro m₁ ⟨hs, hr⟩
  refine ((triple_tbAllocOrFlush htr (h.calm hs.calm) (hidle.calm hs.calm)).weaken_exit
    fun _ _ => False.elim).bind (fun r => ?_) m₁ rfl
  rintro m₂ ⟨heq, L', s, ht⟩
  have hr₂ : Reading hw c (m.cpus c).regs.cpuMmuIndex w.pc physPc m₂ :=
    hr.congr (by rw [heq]) (by rw [heq])
  refine (Triple.modify (P := (· = m₂)) (Q := fun _ m' => Taken hw L' r.1 w.pc s m' ∧
    Reading hw c (m.cpus c).regs.cpuMmuIndex w.pc physPc m') ?_).bind (fun _ => ?_) m₂ rfl
  · rintro _ rfl
    exact ⟨ht.setTb fun _ => rfl, hr₂.congr rfl rfl⟩
  · rintro m₃ ⟨ht, hr⟩
    exact ((triple_tbTranslate hhw htr ht hr).conseq (fun _ h => h) (fun _ _ h => ⟨r.1, h⟩)
      fun _ _ h => h) m₃ rfl

end Translate

/-! ### Looking for a block -/

section Find

variable {tr : Translator} {w : Wanted} {physPc : Addr32}

/-- A live block on the pages of the code. -/
theorem Coherent.serves (h : Coherent hw m L) (htb : tb ∈ L.live) (his : (m.cache.tbs tb).Is w)
    (hlies : Lies hw c mmu m (m.cache.tbs tb)) (hsingle : m.single = some c) :
    Serves hw c mmu w tb m := by
  refine ⟨⟨⟨L, h, htb⟩, his, hsingle⟩, fun k b hb => ?_⟩
  have hk : k < (m.cache.tbs tb).size.toNat :=
    h.length tb htb ▸ (List.getElem?_eq_some_iff.mp hb).1
  rw [← his.pc, hlies.sees_iff (h.cache.wf tb htb).size_le hk]
  exact h.source tb htb k b hb

/-- The page behind the page of an address. -/
theorem pageIndex_next (pc : Addr32) :
    pageIndex ((pc &&& targetPageMask) + targetPageSize) = pageIndex (pc + targetPageSize) := by
  have hpc := pc.toNat_lt
  have htsize : (targetPageSize : Word32).toNat = 4096 := rfl
  refine UInt32.toNat_inj.mp ?_
  rw [toNat_pageIndex, toNat_pageIndex, UInt32.toNat_add, UInt32.toNat_add, toNat_mask, htsize]
  omega

/-- **The test of `tb_find_slow`** holds of blocks with the code that is looked for only. -/
theorem triple_isWanted (hhw : hw.Ok) (h : Coherent hw m L) (htb : tb ∈ L.live)
    (hr : Reading hw c mmu w.pc physPc m) :
    Triple (· = m) (isWanted hw c (m.cache.tbs tb) w.pc w.csBase (physPc &&& targetPageMask)
        w.flags)
      (fun r m' => Steady hw c .fetch mmu w.pc m m' ∧ (r = true → Serves hw c mmu w tb m'))
      (fun x m' => x ≠ .crash ∧ Coherent hw m' L) := by
  have hwf := h.cache.wf tb htb
  refine .ite (fun hmatch => ?_) fun _ => ?_
  · obtain ⟨hpc, hpage, hcs, hflags⟩ := hmatch
    refine .ite (fun hsecond => ?_) fun hnone => ?_
    · have hnext := pageIndex_next w.pc
      have hphys := triple_getPhysAddrCode hhw m h.tlb hr.single (.inr hnext)
      rw [hr.mmuIndex] at hphys
      refine (hphys.weaken_exit fun x m' hx => ⟨hx.1, h.calm hx.2.calm⟩).bind
        fun physPage2 => ?_
      rintro m' ⟨hs, hcode⟩
      refine ⟨hs, fun heq => ?_⟩
      have hcache := hs.calm.cache
      have hr' := hr.steady hs
      have hpage2 : (m.cache.tbs tb).pageAddr .one = physPage2 := beq_iff_eq.mp heq
      refine (h.calm hs.calm).serves htb ?_ ?_ hr'.single
      · rw [hcache]
        exact ⟨hpc, hcs, hflags⟩
      · rw [hcache]
        refine ⟨⟨physPc, hpc.symm ▸ hr'.codeAt, hpage⟩, fun _ =>
          ⟨_, physPage2, hpc.symm ▸ hnext, hcode, ?_⟩⟩
        rw [mask_of_pageOffset (hpage2 ▸ hwf.aligned .one hsecond)]
        exact hpage2
    · rintro _ rfl
      refine ⟨.refl _, fun _ => h.serves htb ⟨hpc, hcs, hflags⟩ ⟨⟨physPc, hpc.symm ▸ hr.codeAt,
        hpage⟩, fun hlt => absurd (hwf.second hlt) hnone⟩ hr.single⟩
  · rintro _ rfl
    exact ⟨.refl _, nofun⟩

/-- **The loop of `tb_find_slow`** finds a block with the code that is looked for, or none. The
induction is on the list of blocks that are left; looking at code leaves the list alone. -/
theorem triple_findPhysLoop (hhw : hw.Ok) (h : Coherent hw m L)
    (hr : Reading hw c mmu w.pc physPc m) {k : ℕ} {xs : List TbPtr} {p : Option TbPtr}
    (hpath : LinkedCells.Leads m.cache.hashCells .physHashNext p xs none)
    (hlive : ∀ t ∈ xs, t ∈ L.live) (hk : xs.length < k) (m' : Qemu)
    (hs : Steady hw c .fetch mmu w.pc m m') :
    Triple (· = m')
      (findPhysLoop hw c w.pc w.csBase (physPc &&& targetPageMask) w.flags k p)
      (fun r m' => Steady hw c .fetch mmu w.pc m m' ∧
        ∀ tb, r = some tb → Serves hw c mmu w tb m')
      (fun x m' => x ≠ .crash ∧ Coherent hw m' L) := by
  induction xs generalizing k p m' with
  | nil =>
      obtain ⟨k, rfl⟩ := Nat.exists_eq_succ_of_ne_zero (Nat.ne_zero_of_lt hk)
      obtain rfl := hpath
      rintro _ rfl
      exact ⟨hs, nofun⟩
  | cons tb xs ih =>
      obtain ⟨k, rfl⟩ := Nat.exists_eq_succ_of_ne_zero (Nat.ne_zero_of_lt hk)
      obtain ⟨rfl, hpath⟩ := hpath
      obtain ⟨htb, hlive⟩ := List.forall_mem_cons.mp hlive
      refine .get_bind ?_
      rintro m' rfl
      refine (triple_isWanted hhw (h.calm hs.calm) htb (hr.steady hs)).bind fun r => ?_
      rintro m₁ ⟨hs₁, hserves⟩
      have hs' := hs.trans hs₁
      cases r with
      | true => exact ⟨hs', fun _ heq => Option.some.inj heq ▸ hserves rfl⟩
      | false =>
          refine Triple.get_bind (P := (· = m₁)) ?_ m₁ rfl
          rintro _ rfl
          rw [hs'.calm.cache]
          exact ih hpath hlive (Nat.lt_of_succ_lt_succ hk) _ hs'

theorem Coherent.setInvalidatedFlag (h : Coherent hw m L) (flag : Bool) :
    Coherent hw { m with cache := { m.cache with tbInvalidatedFlag := flag } } L :=
  h.fill rfl (fun _ _ => rfl) le_rfl ⟨h.cache.order.mono, h.cache.order.le⟩ fun _ _ => rfl

/-- The block is found by its address the next time. -/
theorem Serves.setJmpCache (h : Serves hw c mmu w tb m) :
    Serves hw c mmu w tb (m.setJmpCache c fun cache =>
      Function.update cache (tbJmpCacheHashFunc w.pc) (some tb)) := by
  obtain ⟨⟨⟨L, hcoh, htb⟩, his, hsingle⟩, hfetched⟩ := h
  refine ⟨⟨⟨L, hcoh.setJmpCache fun cache i t hi => ?_, htb⟩, his, hsingle⟩,
    fun j b hb => hfetched j b hb⟩
  by_cases heq : i = tbJmpCacheHashFunc w.pc
  · subst heq
    rw [Function.update_self] at hi
    obtain rfl := Option.some.inj hi
    exact .inr ⟨htb, by rw [his.pc]⟩
  · rw [Function.update_of_ne heq] at hi
    exact .inl hi

/-- A new block, if none has been found. -/
theorem triple_tbFindNew (hhw : hw.Ok) (htr : tr.Ok) (h : Coherent hw m L) (hidle : m.Idle)
    (hr : Reading hw c mmu w.pc physPc m) :
    Triple (· = m) (tbFindNew hw tr c physPc w.pc w.csBase w.flags)
      (fun tb => Serves hw c mmu w tb) (fun x m' => x ≠ .crash ∧ ∃ L, Coherent hw m' L) := by
  refine ((triple_tbAllocOrFlush htr h hidle).weaken_exit fun _ _ => False.elim).bind fun r => ?_
  rintro m₁ ⟨heq, L', s, ht⟩
  have hr₁ : Reading hw c mmu w.pc physPc m₁ := hr.congr (by rw [heq]) (by rw [heq])
  have hrest : ∀ m₂, Taken hw L' r.1 w.pc s m₂ → Reading hw c mmu w.pc physPc m₂ →
      Triple (· = m₂) (do
          tbTranslate hw tr c r.1 physPc w.pc w.csBase w.flags
          pure r.1 : Emu TbPtr)
        (fun tb => Serves hw c mmu w tb) (fun x m' => x ≠ .crash ∧ ∃ L, Coherent hw m' L) :=
    fun m₂ ht hr => (triple_tbTranslate hhw htr ht hr).bind fun _ => .pure fun _ h => h
  obtain ⟨tb, flushed⟩ := r
  cases flushed with
  | false => exact hrest m₁ ht hr₁ m₁ rfl
  | true =>
      refine hrest { m₁ with cache := { m₁.cache with tbInvalidatedFlag := true } } ?_
        (hr₁.congr rfl rfl) _ rfl
      exact ⟨ht.coherent, congrArg (fun s => { s with tbInvalidatedFlag := true }) ht.eq, ht.next,
        ht.tbs, ht.start⟩

/-- **`tb_find_slow` finds a block** that was translated from the code that the guest has at the
address, or makes one. -/
theorem triple_tbFindSlow (hhw : hw.Ok) (htr : tr.Ok) (h : Coherent hw m L) (hidle : m.Idle)
    (hsingle : m.single = some c) :
    Triple (· = m) (tbFindSlow hw tr c w.pc w.csBase w.flags)
      (fun tb => Serves hw c (m.cpus c).regs.cpuMmuIndex w tb)
      (fun x m' => x ≠ .crash ∧ ∃ L, Coherent hw m' L) := by
  let m₁ := { m with cache := { m.cache with tbInvalidatedFlag := false } }
  have h₁ : Coherent hw m₁ L := h.setInvalidatedFlag false
  refine (Triple.modify (Q := fun _ => (· = m₁)) ?_).bind fun _ => ?_
  · rintro _ rfl
    rfl
  refine ((triple_getPhysAddrCode_reading hhw h₁ hsingle rfl w.pc).weaken_exit fun x m' hx =>
    ⟨hx.1, L, hx.2⟩).bind fun physPc => .get_bind ?_
  rintro m₂ ⟨hs, hr⟩
  have h₂ := h₁.calm hs.calm
  have hidle₂ : m₂.Idle := Qemu.Idle.calm (m := m₁) hidle hs.calm
  have hpath := h₂.cache.shape.hash.lists.path (tbPhysHashFunc physPc) (Set.mem_univ _)
  have hloop := triple_findPhysLoop hhw h₂ hr (LinkedCells.path_iff_leads.mp hpath)
    (fun t ht => ((h₂.cache.shape.hash.mem _ t).mp ht).1) (h₂.cache.shape.length_hash _)
    m₂ (.refl _)
  refine (hloop.weaken_exit fun x m' hx => ⟨hx.1, L, hx.2⟩).bind fun found => ?_
  rintro m₃ ⟨hs', hfound⟩
  refine Triple.bind (P := (· = m₃)) (Q := fun tb => Serves hw c (m.cpus c).regs.cpuMmuIndex w tb)
    ?_ (fun tb => ?_) m₃ rfl
  · cases found with
    | some tb =>
        rintro _ rfl
        exact hfound tb rfl
    | none =>
        exact triple_tbFindNew hhw htr (h₂.calm hs'.calm) (hidle₂.calm hs'.calm) (hr.steady hs')
  · intro m' hserves
    exact hserves.setJmpCache

/-- **`tb_find_fast` finds a live block** that is the one looked for, or makes one. -/
theorem triple_tbFindFast (hhw : hw.Ok) (htr : tr.Ok) (h : Coherent hw m L) (hidle : m.Idle)
    (hsingle : m.single = some c) :
    Triple (· = m) (tbFindFast hw tr c w.pc w.csBase w.flags)
      (fun tb => Usable hw c w tb) (fun x m' => x ≠ .crash ∧ ∃ L, Coherent hw m' L) := by
  have hslow := (triple_tbFindSlow hhw htr h hidle hsingle (w := w)).conseq (fun _ h => h)
    (fun _ _ h => h.toUsable) fun _ _ h => h
  refine .get_bind ?_
  rintro m rfl
  split
  · exact hslow
  · rename_i tb hcached
    refine .ite (fun _ => hslow) fun hmatch => ?_
    rintro _ rfl
    obtain ⟨cache, hcache, htb⟩ := Option.bind_eq_some_iff.mp hcached
    have hlive := h.cache.shape.cached cache (List.mem_of_getElem? hcache) _ tb htb
    simp only [not_or, not_not] at hmatch
    exact ⟨⟨L, h, hlive.1⟩, ⟨hmatch.1, hmatch.2.1, hmatch.2.2⟩, hsingle⟩

end Find

end MemCheck
