import MemCheck.BlockLookup
import MemCheck.GuestStores

/-!
# Writes to Memory

Whoever writes to memory, the blocks whose code is hit are invalidated. A device writes first and
invalidates afterwards. A store of the guest to a page that is watched invalidates before it
writes, and is not made at all if it hits the block that it comes from. A store to any other page
goes by its entry in `tlb_table` alone; the flags of such a page say that it holds no code.

An operation may be left by an exception or by resuming execution with the invariant intact. It
can only crash over a block with both of its parts on one page.

## Main results

* `triple_cpuPhysicalMemoryWrite`, `triple_stlPhys`: writes by devices;
* `triple_notdirtyMemWrite`: stores to pages that are watched;
* `triple_st`: stores of the guest, of any size and alignment.
-/

namespace MemCheck

open LongJump (Triple)

variable {hw : Board} {m m' : Qemu} {L : CacheLayout} {c : ℕ} {mmu : MmuIdx} {tr : Translator}

/-! ### Blocks that are hit twice -/

/-- Both parts of a block lie on one page of memory. -/
def CacheLayout.HasTwin (L : CacheLayout) : Prop :=
  ∃ tb i, (tb, .zero) ∈ L.page i ∧ (tb, .one) ∈ L.page i

theorem hasTwin_of_not_hitOnce {s : CodeCache} {start stop : Addr32} {i : Word32}
    (h : ¬ HitOnce s start stop (L.page i)) : L.HasTwin := by
  simp only [HitOnce, not_forall] at h
  obtain ⟨⟨tb, n⟩, hx, ⟨tb', n'⟩, hy, -, -, heq, hne⟩ := h
  obtain rfl : tb = tb' := heq
  cases n <;> cases n'
  · exact absurd rfl hne
  · exact ⟨tb, i, hx, hy⟩
  · exact ⟨tb, i, hy, hx⟩
  · exact absurd rfl hne

/-- How an operation may be left. -/
structure Leaves (hw : Board) (x : Exit) (m : Qemu) : Prop where
  coherent : x ≠ .crash → ∃ L, Coherent hw m L
  twin : x = .crash → ∃ L, CacheOk m.cache L ∧ L.HasTwin

theorem Leaves.of_coherent {x : Exit} (hx : x ≠ .crash ∧ ∃ L, Coherent hw m L) : Leaves hw x m :=
  ⟨fun _ => hx.2, fun h => absurd h hx.1⟩

/-- What holds between operations: the code of the live blocks is in memory. -/
structure Sound (hw : Board) (single : Option ℕ) (m : Qemu) : Prop where
  single : m.single = single
  coherent : ∃ L, Coherent hw m L

theorem Sound.calm {single : Option ℕ} (h : Sound hw single m) {S : Set (ℕ × MmuIdx × Word32)}
    (hcalm : Calm hw S m m') : Sound hw single m' :=
  ⟨hcalm.single.trans h.single, h.coherent.imp fun _ hcoh => hcoh.calm hcalm⟩

/-! ### Invalidating code -/

/-- The processor that writes. -/
def Qemu.writerEnv (m : Qemu) : Option CpuEnv := m.single.map fun c => (m.cpus c).env

theorem Coherent.writing (h : Coherent hw m L) {isCpuWriteAccess : Bool}
    (hsome : isCpuWriteAccess = true → m.single.isSome = true) :
    Writing L m.writerEnv isCpuWriteAccess := by
  refine ⟨fun e he tb htb => ?_, fun hcpu => ?_⟩
  · obtain ⟨c, -, rfl⟩ := Option.map_eq_some_iff.mp he
    exact (h.current c tb htb).1
  · rw [Qemu.writerEnv, Option.isSome_map]
    exact hsome hcpu

theorem triple_invalidateRange (h : CacheOk m.cache L) {start stop : Addr32}
    {isCpuWriteAccess : Bool} (hwr : Writing L m.writerEnv isCpuWriteAccess) :
    Triple (· = m) (invalidateRange start stop isCpuWriteAccess)
      (fun _ m' => ∃ r L', m' = m.put r ∧
        Written m.cache L m.dirty m.writerEnv start isCpuWriteAccess
          (Struck m.cache start stop (L.page (pageIndex start))) r L')
      (fun x m' => x = .crash ∧ m' = m ∧ L.HasTwin) := by
  refine .get_bind ?_
  rintro m rfl
  by_cases honce : HitOnce m.cache start stop (L.page (pageIndex start))
  · obtain ⟨r, L', hr, hwritten⟩ := h.shape.tbInvalidatePhysPageRange h.bitmap hwr honce
    rw [Qemu.writerEnv] at hr
    rw [hr]
    rintro _ rfl
    exact ⟨r, L', rfl, hwritten⟩
  · have hr : m.cache.tbInvalidatePhysPageRange m.dirty m.writerEnv start stop isCpuWriteAccess =
        none := h.shape.tbInvalidatePhysPageRange_eq_none h.bitmap hwr honce
    rw [Qemu.writerEnv] at hr
    rw [hr]
    rintro _ rfl
    exact ⟨rfl, rfl, hasTwin_of_not_hitOnce honce⟩

/-! ### Writes by devices -/

section Devices

variable {single : Option ℕ}

theorem triple_ioMemWrite {index : Word32} {shift : ℕ} {addr : Addr32} {val : Word32} :
    Triple (Sound hw single) (ioMemWrite index shift addr val) (fun _ => Sound hw single)
      (Leaves hw) :=
  fun _ h => h.calm (S := ∅) (.log _ _ _)

/-- **A write by a device** keeps the invariant. -/
theorem triple_writeRam {a : Addr32} {bs : List UInt8}
    (hend : (pageOffset a).toNat + bs.length ≤ 4096) :
    Triple (Sound hw single) (writeRam a bs) (fun _ => Sound hw single) (Leaves hw) := by
  rintro m ⟨hsingle, L, h⟩
  let m₁ : Qemu := { m with ram := Bytes.writeBytes m.ram a bs }
  refine (Triple.modify (P := (· = m)) (Q := fun _ => (· = m₁)) ?_).bind
    (fun _ => .get_bind ?_) m rfl
  · rintro _ rfl
    rfl
  rintro _ rfl
  refine .ite (fun _ => ?_) fun hdirty => ?_
  · have hcache : CacheOk m₁.cache L := h.cache
    have hwr : Writing L m₁.writerEnv false := h.writing nofun
    refine ((triple_invalidateRange hcache hwr).weaken_exit ?_).bind fun _ => .modify ?_
    · rintro _ _ ⟨rfl, rfl, htwin⟩
      exact ⟨fun hne => absurd rfl hne, fun _ => ⟨L, h.cache, htwin⟩⟩
    · rintro _ ⟨r, L', rfl, hwritten⟩
      have hclear := (h.put hwritten).write hend (h.not_struck hwritten)
      exact ⟨hsingle, L', hclear.setDirtyFlags a⟩
  · rintro _ rfl
    refine ⟨hsingle, L, h.write_of_nil hend (h.page_eq_nil ?_)⟩
    have hall : m.dirty (pageIndex a) = 0xff := by
      rw [Bool.not_eq_false, Qemu.isDirty, beq_iff_eq] at hdirty
      exact hdirty
    rw [hall]
    decide

/-- **`stl_phys`**, whose address must be aligned. -/
theorem triple_stlPhys {addr : Addr32} {val : Word32} (haddr : addr &&& 3 = 0) :
    Triple (Sound hw single) (stlPhys hw addr val) (fun _ => Sound hw single) (Leaves hw) := by
  refine .ite (fun _ => triple_ioMemWrite) fun _ => triple_writeRam ?_
  have halign := and_mask_eq_zero_iff.mp (show addr &&& AccessSize.l.mask = 0 from haddr)
  have hfour : AccessSize.l.bytes = 4 := rfl
  rw [hfour] at halign
  rw [pageOffset_ramAddr, toNat_pageOffset, Bytes.length_leBytes]
  omega

/-- **`cpu_physical_memory_rw`**: each round writes at least a byte. -/
theorem triple_cpuPhysicalMemoryWrite {k : ℕ} {addr : Addr32} {buf : List UInt8}
    (hk : buf.length ≤ k) :
    Triple (Sound hw single) (cpuPhysicalMemoryWrite hw k addr buf) (fun _ => Sound hw single)
      (Leaves hw) := by
  induction k generalizing addr buf with
  | zero =>
      obtain rfl := List.length_eq_zero_iff.mp (Nat.le_zero.mp hk)
      exact .pure fun _ h => h
  | succ k ih =>
      cases buf with
      | nil => exact .pure fun _ h => h
      | cons b buf =>
          have hrest : ∀ n, 0 < n → ((b :: buf).drop n).length ≤ k := by
            intro n hn
            rw [List.length_drop]
            omega
          obtain ⟨hpos, hle, hend⟩ := pageLeft_le addr (b :: buf).length (Nat.succ_pos _)
          rw [cpuPhysicalMemoryWrite]
          generalize pageLeft addr (b :: buf).length = l at hpos hle hend ⊢
          refine .ite (fun _ => ?_) fun _ => ?_
          · have hdrop := hrest _ (Nat.two_pow_pos (ioShift addr l))
            exact triple_ioMemWrite.bind fun _ => ih hdrop
          · have hdrop := hrest _ hpos
            refine (triple_writeRam ?_).bind fun _ => ih hdrop
            rwa [pageOffset_ramAddr, List.length_take_of_le hle]

end Devices

/-! ### Writes by the guest to pages with code -/

/-- Only the processor that executes can have a block. -/
theorem Coherent.idle (h : Coherent hw m L) (hsingle : m.single = some c)
    (hcur : (m.cpus c).env.currentTb = none) : m.Idle := by
  intro c'
  cases hcur' : (m.cpus c').env.currentTb with
  | none => rfl
  | some tb =>
      obtain rfl : c = c' := Option.some.inj (hsingle.symm.trans (h.current c' tb hcur').2)
      cases hcur.symm.trans hcur'

/-- The block that is executed is left. -/
theorem Coherent.leave (h : Coherent hw m L) (c : ℕ) :
    Coherent hw (m.setCpu c fun cpu => { cpu with env := { cpu.env with currentTb := none } }) L :=
  h.setCpu (h.tlb.setCpu (h.tlb c)) nofun

section Guest

variable {start : Addr32} {len : ℕ}

/-- **Invalidating the code that a store hits**: if it is the code that is executed, execution is
resumed at the store. -/
theorem triple_tbInvalidatePhysPageFast (hhw : hw.Ok) (htr : tr.Ok) (h : Coherent hw m L)
    (hsingle : m.single = some c) (hlen : 0 < len)
    (hbyte : (pageOffset start).toNat % 8 + len ≤ 8) :
    Triple (· = m) (tbInvalidatePhysPageFast hw tr start len)
      (fun _ m' => ∃ r L', m' = m.put r ∧ Written m.cache L m.dirty m.writerEnv start true
        (Struck m.cache start (start + UInt32.ofNat len) (L.page (pageIndex start))) r L')
      (Leaves hw) := by
  have hwr : Writing L m.writerEnv true := h.writing fun _ => by rw [hsingle]; rfl
  refine .get_bind ?_
  rintro m rfl
  by_cases honce : HitOnce m.cache start (start + UInt32.ofNat len) (L.page (pageIndex start))
  · obtain ⟨r, L', hr, hwritten⟩ :=
      h.cache.shape.tbInvalidatePhysPageFast h.cache.bitmap h.cache.wf hwr hlen hbyte honce
    have hput := h.put hwritten
    rw [Qemu.writerEnv] at hr
    rw [hr]
    refine Triple.bind (Q := fun _ => (· = m.put r)) ?_ fun _ => ?_
    · rintro _ rfl
      rfl
    rw [hsingle]
    cases r.modified with
    | none =>
        rintro _ rfl
        exact ⟨r, L', rfl, hwritten⟩
    | some tb =>
        -- the block that makes the store is hit itself
        let m₁ := (m.put r).setCpu c fun cpu =>
          { cpu with env := { cpu.env with currentTb := none } }
        have hleft : Coherent hw m₁ L' := hput.leave c
        have hcur : (m₁.cpus c).env.currentTb = none := by
          simp only [m₁, Qemu.setCpu, Function.update_self]
        refine (Triple.modify (Q := fun _ => (· = m₁)) ?_).bind fun _ => ?_
        · rintro _ rfl
          rfl
        have hgen := triple_tbGenCode hhw htr hleft (hleft.idle hsingle hcur) hsingle
          ⟨(tr.restore (m.put r) tb).1, (tr.restore (m.put r) tb).2.1,
            (tr.restore (m.put r) tb).2.2⟩ cfSingleInsn
        refine (hgen.weaken_exit fun x m' hx => Leaves.of_coherent hx).bind fun _ => .throw ?_
        rintro m' ⟨tb', hserves⟩
        exact .of_coherent ⟨by decide, hserves.coherent.imp fun _ h => h.1⟩
  · have hr : m.cache.tbInvalidatePhysPageFast m.dirty m.writerEnv start len = none :=
      h.cache.shape.tbInvalidatePhysPageFast_eq_none h.cache.bitmap h.cache.wf hwr hlen hbyte honce
    rw [Qemu.writerEnv] at hr
    rw [hr]
    rintro _ rfl
    exact ⟨fun hne => absurd rfl hne, fun _ => ⟨L, h.cache, hasTwin_of_not_hitOnce honce⟩⟩

/-- The end of `notdirty_mem_write`, once no block is hit any more. -/
theorem Coherent.notdirtyWrite (hhw : hw.Ok) (h : Coherent hw m L) (hsingle : m.single = some c)
    {addr : Addr32} {n val : ℕ} (hend : (pageOffset (addr - hw.physRamBase)).toNat + n ≤ 4096)
    (hclear : ∀ tb ∈ L.live, tb ∉ Struck m.cache (addr - hw.physRamBase)
      (addr - hw.physRamBase + UInt32.ofNat n) (L.page (pageIndex (addr - hw.physRamBase)))) :
    Triple (· = m) (do
        modify fun m => { m with ram := stRaw m.ram (addr - hw.physRamBase) n val }
        modify fun m => m.setDirtyFlags (addr - hw.physRamBase)
        let m ← get
        if m.isDirty (addr - hw.physRamBase) then
          match m.single with
          | none => throw .crash
          | some c => modify fun m => m.tlbSetDirty c addr (m.cpus c).memWriteVaddr : Emu Unit)
      (fun _ => Sound hw (some c)) (Leaves hw) := by
  let m₁ : Qemu := { m with ram := stRaw m.ram (addr - hw.physRamBase) n val }
  let m₂ := m₁.setDirtyFlags (addr - hw.physRamBase)
  have hm₁ : Coherent hw m₁ L := by
    have hlen : (Bytes.leBytes n val).length = n := Bytes.length_leBytes
    refine h.write ?_ ?_ <;> rwa [hlen]
  have hm₂ : Coherent hw m₂ L := hm₁.setDirtyFlags _
  refine (Triple.modify (Q := fun _ => (· = m₁)) ?_).bind fun _ => ?_
  · rintro _ rfl
    rfl
  refine (Triple.modify (Q := fun _ => (· = m₂)) ?_).bind fun _ => .get_bind ?_
  · rintro _ rfl
    rfl
  rintro _ rfl
  refine .ite (fun hdirty => ?_) fun _ => ?_
  · have hsingle₂ : m₂.single = some c := hsingle
    rw [Qemu.isDirty, beq_iff_eq] at hdirty
    rw [hsingle₂]
    rintro _ rfl
    exact ⟨hsingle, L, hm₂.setCpu (hm₂.tlb.tlbSetDirty hhw hdirty _) fun _ h => h⟩
  · rintro _ rfl
    exact ⟨hsingle, L, hm₂⟩

/-- **A store to a page that is watched.** -/
theorem triple_notdirtyMemWrite (hhw : hw.Ok) (htr : tr.Ok) {sz : AccessSize} {addr : Addr32}
    {val : ℕ} (hsz : sz ≠ .q) (halign : addr &&& sz.mask = 0) :
    Triple (Sound hw (some c)) (notdirtyMemWrite hw tr sz addr val)
      (fun _ => Sound hw (some c)) (Leaves hw) := by
  have hbyte : (pageOffset (addr - hw.physRamBase)).toNat % 8 + sz.bytes ≤ 8 := by
    rw [pageOffset_sub hhw.aligned, toNat_pageOffset]
    rw [and_mask_eq_zero_iff] at halign
    cases sz <;> simp only [AccessSize.bytes, AccessSize.shift] at halign ⊢ <;> grind
  have hend : (pageOffset (addr - hw.physRamBase)).toNat + sz.bytes ≤ 4096 := by
    rw [toNat_pageOffset] at hbyte ⊢
    omega
  intro m hsound
  obtain ⟨hsingle, L, h⟩ := hsound
  refine Triple.get_bind (P := (· = m)) ?_ m rfl
  rintro _ rfl
  refine .ite (fun _ => ?_) fun hset => ?_
  · refine (triple_tbInvalidatePhysPageFast hhw htr h hsingle sz.bytes_pos hbyte).bind fun _ => ?_
    rintro _ ⟨r, L', rfl, hwritten⟩
    exact (h.put hwritten).notdirtyWrite hhw hsingle hend (h.not_struck hwritten) _ rfl
  · refine h.notdirtyWrite hhw hsingle hend fun tb _ => ?_
    rw [h.page_eq_nil hset, struck_nil]
    exact Set.notMem_empty tb

/-! ### Stores -/

variable {sz : AccessSize} {addr : Addr32} {val : ℕ} {retaddr : ℤ}

theorem triple_callIoMemWrite (hhw : hw.Ok) (htr : tr.Ok) {index : Word32} (hsz : sz ≠ .q)
    (halign : addr &&& sz.mask = 0) :
    Triple (Sound hw (some c)) (callIoMemWrite hw tr index sz addr val)
      (fun _ => Sound hw (some c)) (Leaves hw) := by
  refine .ite (fun _ => ?_) fun _ => triple_ioMemWrite
  cases sz with
  | b => exact triple_notdirtyMemWrite hhw htr hsz halign
  | w => exact triple_notdirtyMemWrite hhw htr hsz halign
  | l => exact triple_notdirtyMemWrite hhw htr hsz halign
  | q => exact absurd rfl hsz

/-- **A store through the functions of a device.** -/
theorem triple_ioWrite (hhw : hw.Ok) (htr : tr.Ok) {tlbAddr : Addr32}
    (halign : addr &&& sz.mask = 0) :
    Triple (Sound hw (some c)) (ioWrite hw tr c sz addr val tlbAddr retaddr)
      (fun _ => Sound hw (some c)) (Leaves hw) := by
  refine Triple.bind (Q := fun _ => Sound hw (some c)) (.modify ?_) fun _ => ?_
  · rintro m ⟨hsingle, L, h⟩
    exact ⟨hsingle, L, h.setCpu (h.tlb.setCpu (h.tlb c)) fun _ h => h⟩
  · cases sz with
    | b => exact triple_callIoMemWrite hhw htr nofun halign
    | w => exact triple_callIoMemWrite hhw htr nofun halign
    | l => exact triple_callIoMemWrite hhw htr nofun halign
    | q =>
        have hlow : addr &&& AccessSize.l.mask = 0 ∧ (addr + 4) &&& AccessSize.l.mask = 0 := by
          have hfour : (4 : Word32).toNat = 4 := rfl
          rw [and_mask_eq_zero_iff] at halign ⊢
          rw [and_mask_eq_zero_iff, UInt32.toNat_add, hfour]
          simp only [AccessSize.bytes, AccessSize.shift] at halign ⊢
          omega
        have hl : AccessSize.l ≠ .q := nofun
        exact (triple_callIoMemWrite hhw htr hl hlow.1).bind fun _ =>
          triple_callIoMemWrite hhw htr hl hlow.2

/-- **A store to memory** that goes by an entry alone: the page holds no code. -/
theorem triple_stHost (hhw : hw.Ok) (h : Coherent hw m L) (hsingle : m.single = some c)
    (hhit : ((m.cpus c).tlbAt mmu addr).Matches .write addr)
    (hplain : pageOffset ((m.cpus c).tlbAt mmu addr).addrWrite = 0) (hspan : ¬ Spans addr sz) :
    Triple (· = m) (stHost hw (addr + ((m.cpus c).tlbAt mmu addr).addend) sz val)
      (fun _ => Sound hw (some c)) (Leaves hw) := by
  have he : ((m.cpus c).tlbAt mmu addr).Ok hw m.dirty := h.tlb c mmu (tlbIndex addr)
  generalize (m.cpus c).tlbAt mmu addr = e at hhit hplain he ⊢
  have hpage : e.addrWrite = addr &&& targetPageMask := hhit.addrFor_eq hplain
  have hdirty := he.write hplain
  rw [TlbEntry.hostPage, hpage, mask_of_pageOffset (pageOffset_mask addr),
    ← pageIndex_moved hhw.aligned he.addend] at hdirty
  have hnil : L.page (pageIndex (addr + e.addend - hw.physRamBase)) = [] := by
    refine h.page_eq_nil ?_
    rw [hdirty]
    decide
  rintro _ rfl
  refine ⟨hsingle, L, h.write_of_nil ?_ hnil⟩
  rw [spans_iff] at hspan
  rw [pageOffset_sub hhw.aligned, pageOffset_add he.addend, toNat_pageOffset, Bytes.length_leBytes]
  omega

theorem triple_stByEntry (hhw : hw.Ok) (htr : tr.Ok) (h : Coherent hw m L)
    (hsingle : m.single = some c) (hhit : ((m.cpus c).tlbAt mmu addr).Matches .write addr)
    {unaligned : Emu Unit}
    (hun : addr &&& sz.mask ≠ 0 ∨ Spans addr sz →
      Triple (Sound hw (some c)) unaligned (fun _ => Sound hw (some c)) (Leaves hw)) :
    Triple (· = m)
      (stByEntry hw tr c sz retaddr addr val ((m.cpus c).tlbAt mmu addr) unaligned)
      (fun _ => Sound hw (some c)) (Leaves hw) := by
  have hsound : ∀ m', m' = m → Sound hw (some c) m' := fun m' heq => heq ▸ ⟨hsingle, L, h⟩
  refine .ite (fun _ => .ite (fun hne => ?_) fun halign => ?_) fun hplain =>
    .ite (fun hspan => ?_) fun hspan => ?_
  · exact (hun (.inl hne)).strengthen_pre hsound
  · refine (triple_ioWrite hhw htr ?_).strengthen_pre hsound
    have hadd : pageOffset ((m.cpus c).tlbAt mmu addr).addend = 0 := (h.tlb c mmu _).addend
    rw [pageOffset_eq_zero_iff] at hadd
    rw [not_not, and_mask_eq_zero_iff] at halign
    rw [and_mask_eq_zero_iff, UInt32.toNat_add]
    cases sz <;> simp only [AccessSize.bytes, AccessSize.shift] at halign ⊢ <;> omega
  · exact (hun (.inr hspan)).strengthen_pre hsound
  · exact triple_stHost hhw h hsingle hhit (not_not.mp hplain) hspan

/-- A single byte is never unaligned. -/
theorem ne_b_of_unaligned (h : addr &&& sz.mask ≠ 0 ∨ Spans addr sz) : sz ≠ .b := by
  rintro rfl
  rcases h with hne | hspan
  · exact hne UInt32.and_zero
  · have halign : addr &&& AccessSize.b.mask = 0 := UInt32.and_zero
    exact not_spans_of_aligned halign hspan

/-- The look for an entry. -/
theorem triple_tlbLookup_bind (hhw : hw.Ok) {f : TlbEntry → Emu Unit}
    (hf : ∀ m L, Coherent hw m L → m.single = some c →
      ((m.cpus c).tlbAt mmu addr).Matches .write addr →
      Triple (· = m) (f ((m.cpus c).tlbAt mmu addr)) (fun _ => Sound hw (some c)) (Leaves hw)) :
    Triple (Sound hw (some c)) (tlbLookup hw c .write mmu addr redoBound >>= f)
      (fun _ => Sound hw (some c)) (Leaves hw) := by
  rintro m ⟨hsingle, L, h⟩
  refine ((triple_tlbLookup hhw m hsingle .write mmu addr).weaken_exit ?_).bind (fun e => ?_) m rfl
  · rintro _ m' ⟨rfl, hcalm, -⟩
    exact .of_coherent ⟨by decide, L, h.calm hcalm⟩
  · intro m' hfound
    obtain rfl := hfound.entry
    exact hf m' L (h.calm hfound.calm) (hfound.calm.single.trans hsingle) hfound.hit m' rfl

/-- **The slow path of a store.** The induction is on the depth of the recursion: bytes are stored
without going any deeper. -/
theorem triple_slowSt (hhw : hw.Ok) (htr : tr.Ok) {k : ℕ} (hk : sz = .b ∧ 1 ≤ k ∨ 2 ≤ k) :
    Triple (Sound hw (some c)) (slowSt hw tr c mmu retaddr k sz addr val)
      (fun _ => Sound hw (some c)) (Leaves hw) := by
  induction k generalizing sz addr val with
  | zero => omega
  | succ k ih =>
      refine triple_tlbLookup_bind hhw fun m L h hsingle hhit =>
        triple_stByEntry hhw htr h hsingle hhit fun hun => .forM (fun i => ih (.inl ⟨rfl, ?_⟩)) _
      have hb := ne_b_of_unaligned hun
      rcases hk with ⟨hsz, -⟩ | hk
      · exact absurd hsz hb
      · omega

theorem triple_stMmu (hhw : hw.Ok) (htr : tr.Ok) :
    Triple (Sound hw (some c)) (stMmu hw tr c sz mmu retaddr addr val)
      (fun _ => Sound hw (some c)) (Leaves hw) :=
  triple_tlbLookup_bind hhw fun _ _ h hsingle hhit =>
    triple_stByEntry hhw htr h hsingle hhit fun _ => triple_slowSt hhw htr (.inr le_rfl)

/-- **A store of the guest keeps code and memory together.** -/
theorem triple_st (hhw : hw.Ok) (htr : tr.Ok) (sz : AccessSize) (mmu : MmuIdx) (retaddr : ℤ)
    (addr : Addr32) (val : ℕ) :
    Triple (Sound hw (some c)) (st hw tr c sz mmu retaddr addr val)
      (fun _ => Sound hw (some c)) (Leaves hw) := by
  refine Triple.bind (Q := fun _ => Sound hw (some c)) (.modify ?_) fun _ => .get_bind ?_
  · intro m h
    exact h.calm (S := ∅) (.log _ _ _)
  rintro m ⟨hsingle, L, h⟩
  refine .ite (fun _ => ?_) fun hfast => ?_
  · exact (triple_stMmu hhw htr).strengthen_pre fun m' heq => heq ▸ ⟨hsingle, L, h⟩
  · have he : ((m.cpus c).tlbAt mmu addr).Ok hw m.dirty := h.tlb c mmu (tlbIndex addr)
    have heq : ((m.cpus c).tlbAt mmu addr).addrFor .write =
        addr &&& (targetPageMask ||| sz.mask) := not_not.mp hfast
    obtain ⟨hhit, hplain, halign⟩ := he.fast heq
    exact triple_stHost hhw h hsingle hhit hplain (not_spans_of_aligned halign)

end Guest

end MemCheck
