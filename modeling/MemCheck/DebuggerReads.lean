import MemCheck.PageMapping
import MemCheck.StackTrace

/-!
# What the Debugger Reads

The checker reads the memory of the guest with `cpu_memory_rw_debug`. `StackTrace` has it as a
function of a partial map from pages to physical ones; here is that map for a state of the
emulator, and that the function of the emulator reads what it says.

A device that is read may answer differently every time, and the map says nothing about it: the
results are about reads that ask no device, as the length of the log of accesses shows.

## Main results

* `triple_cpuMemoryReadDebug`: the function reads by the map;
* `debugger_reads_by_page_map`: it reads what `StackTrace` takes it to read;
* `debugger_reads_what_guest_loads`: that is what the guest loads.
-/

namespace MemCheck

open LongJump (Triple Within)

/-! ### Reads that only ask devices -/

/-- Nothing has happened but that devices were asked. -/
def Asks (m m' : Qemu) : Prop := ∃ xs, m' = { m with io := m.io ++ xs }

section Asks

variable {hw : Board} {m m' m'' : Qemu} {F : Exit → Prop}

theorem Asks.refl (m : Qemu) : Asks m m := ⟨[], by rw [List.append_nil]⟩

theorem Asks.trans (h : Asks m m') (h' : Asks m' m'') : Asks m m'' := by
  obtain ⟨xs, rfl⟩ := h
  obtain ⟨ys, rfl⟩ := h'
  exact ⟨xs ++ ys, by rw [List.append_assoc]⟩

instance : Std.Refl Asks := ⟨Asks.refl⟩

instance : IsTrans Qemu Asks := ⟨fun _ _ _ => Asks.trans⟩

theorem Asks.io_le (h : Asks m m') : m.io.length ≤ m'.io.length := by
  obtain ⟨xs, rfl⟩ := h
  exact List.length_append ▸ Nat.le_add_right _ _

/-- No device was asked. -/
theorem Asks.eq (h : Asks m m') (hio : m'.io.length = m.io.length) : m' = m := by
  obtain ⟨xs, rfl⟩ := h
  rw [List.length_append] at hio
  obtain rfl := List.eq_nil_of_length_eq_zero (show xs.length = 0 by omega)
  rw [List.append_nil]

theorem Asks.calm {S : Set (ℕ × MmuIdx × Word32)} (h : Asks m m') : Calm hw S m m' := by
  obtain ⟨xs, rfl⟩ := h
  exact .log m _ _

theorem asks_ioMemRead {index : Word32} {shift : ℕ} {addr : Addr32} :
    Within Asks F (ioMemRead hw index shift addr) :=
  Within.modifyGet fun _ => ⟨_, rfl⟩

theorem triple_ioMemRead_asked {index : Word32} {shift : ℕ} (addr : Addr32) (m : Qemu) :
    Triple (· = m) (ioMemRead hw index shift addr)
      (fun _ m' => Asks m m' ∧ m'.io.length ≠ m.io.length) (fun _ _ => False) := by
  rintro m rfl
  refine ⟨⟨_, rfl⟩, ?_⟩
  rw [List.length_append]
  exact Nat.ne_of_gt (Nat.lt_succ_self _)

theorem asks_ldlPhys {addr : Addr32} : Within Asks F (ldlPhys hw addr) :=
  .ite (fun _ => asks_ioMemRead) fun _ => .get_bind fun _ => .pure _

theorem asks_cpuGetPhysPageDebug {c : ℕ} {addr : Addr32} :
    Within Asks F (cpuGetPhysPageDebug hw c addr) := by
  refine .get_bind fun _ => .ite (fun _ => ?_) fun _ => .ite (fun _ => .pure _) fun _ => ?_
  · exact .bind asks_ldlPhys fun _ => .ite (fun _ => .pure _) fun _ =>
      .bind asks_ldlPhys fun _ => .ite (fun _ => .pure _) fun _ => .ite (fun _ => .pure _)
        fun _ => .bind asks_ldlPhys fun _ => .pure _
  · exact .bind asks_ldlPhys fun _ => .ite (fun _ => .pure _) fun _ => .ite (fun _ => .pure _)
      fun _ => .bind asks_ldlPhys fun _ => .ite (fun _ => .pure _) fun _ => .pure _

end Asks

/-! ### Physical memory -/

section Physical

variable {hw : Board}

theorem pow_ioShift_le (addr : Addr32) {l : ℕ} (hl : 0 < l) : 2 ^ ioShift addr l ≤ l := by
  rw [ioShift]
  split_ifs with h4 h2
  · exact h4.1
  · exact h2.1
  · exact hl

theorem physOffset_mask (addr : Addr32) :
    hw.physOffset (addr &&& targetPageMask) = hw.physOffset addr := by
  rw [Board.physOffset, pageIndex_mask, Board.physOffset]

/-- What has been read from an address on: if no device was asked, it is memory. -/
structure PhysicalRead (hw : Board) (m : Qemu) (addr : Addr32) (len : ℕ) (bytes : List UInt8)
    (m' : Qemu) : Prop where
  asks : Asks m m'
  length : bytes.length = len
  memory : m'.io.length = m.io.length → addr.toNat % 4096 + len ≤ 4096 →
    bytes = Bytes.readBytes m.ram (ramAddr (hw.physOffset addr) addr) len

/-- What is read in one round, and what is read after it. -/
theorem PhysicalRead.append {m m₁ m₂ : Qemu} {addr a : Addr32} {len : ℕ} {bytes rest : List UInt8}
    (hle : bytes.length ≤ len) (hasks : Asks m m₁)
    (hmemory : m₁.io.length = m.io.length → addr.toNat % 4096 + len ≤ 4096 →
      bytes = Bytes.readBytes m.ram (ramAddr (hw.physOffset addr) addr) len)
    (h : PhysicalRead hw m₁ a (len - bytes.length) rest m₂) :
    PhysicalRead hw m addr len (bytes ++ rest) m₂ := by
  refine ⟨hasks.trans h.asks, ?_, fun hio hpage => ?_⟩
  · rw [List.length_append, h.length]
    omega
  · have hbytes := hmemory (le_antisymm (h.asks.io_le.trans hio.le) hasks.io_le) hpage
    have hrest := h.length
    rw [hbytes, Bytes.length_readBytes, Nat.sub_self] at hrest
    rw [List.eq_nil_of_length_eq_zero hrest, List.append_nil, hbytes]

/-- **`cpu_physical_memory_rw`** reads as many bytes as it should; those of a page of memory at
once. -/
theorem triple_cpuPhysicalMemoryRead {k len : ℕ} (hk : len ≤ k) (addr : Addr32) (m : Qemu) :
    Triple (· = m) (cpuPhysicalMemoryRead hw k addr len) (PhysicalRead hw m addr len)
      (fun _ _ => False) := by
  induction k generalizing addr len m with
  | zero =>
      obtain rfl := Nat.le_zero.mp hk
      rintro m rfl
      exact ⟨.refl m, rfl, fun _ _ => rfl⟩
  | succ k ih =>
      cases len with
      | zero =>
          rintro m rfl
          exact ⟨.refl m, rfl, fun _ _ => rfl⟩
      | succ len =>
          -- what is left to read after a round
          have hround : ∀ bytes : List UInt8, Triple
              (fun m₁ => (0 < bytes.length ∧ bytes.length ≤ len + 1) ∧ Asks m m₁ ∧
                (m₁.io.length = m.io.length → addr.toNat % 4096 + (len + 1) ≤ 4096 → bytes =
                  Bytes.readBytes m.ram (ramAddr (hw.physOffset addr) addr) (len + 1)))
              (do
                let rest ← cpuPhysicalMemoryRead hw k (addr + UInt32.ofNat bytes.length)
                  (len + 1 - bytes.length)
                pure (bytes ++ rest))
              (PhysicalRead hw m addr (len + 1)) (fun _ _ => False) := by
            rintro bytes m₁ ⟨⟨hpos, hle⟩, hasks, hmemory⟩
            exact ((ih (by omega) _ m₁).bind fun rest => .pure fun _ h =>
              .append hle hasks hmemory h) m₁ rfl
          have hleft := pageLeft_le addr (len + 1) len.succ_pos
          have hpow := pow_ioShift_le addr hleft.1
          rw [cpuPhysicalMemoryRead]
          refine .ite (fun hio => (triple_ioMemRead_asked addr m).bind ?_) fun _ => .get_bind ?_
          · intro val
            generalize hbytes : Bytes.leBytes (2 ^ ioShift addr (pageLeft addr (len + 1)))
              val.toNat = bytes
            refine Triple.bind (.pure ?_) hround
            rintro m₁ ⟨hasks, hne⟩
            rw [← hbytes, Bytes.length_leBytes]
            exact ⟨⟨Nat.two_pow_pos _, hpow.trans hleft.2.1⟩, hasks, fun hio => absurd hio hne⟩
          · rintro m rfl
            generalize hbytes : Bytes.readBytes m.ram (ramAddr (hw.physOffset
              (addr &&& targetPageMask)) addr) (pageLeft addr (len + 1)) = bytes
            refine Triple.bind (.pure ?_) hround
            rintro m rfl
            rw [← hbytes, Bytes.length_readBytes]
            refine ⟨⟨hleft.1, hleft.2.1⟩, .refl m, fun _ hpage => ?_⟩
            rw [physOffset_mask, pageLeft_eq, min_eq_right (by omega)]

end Physical

/-! ### The memory of the guest -/

/-- The memory of the guest as the debugger sees it, by the page tables of a processor. -/
def Qemu.debugMemory (hw : Board) (c : ℕ) (m : Qemu) : GuestMemory where
  physPage n :=
    match cpuGetPhysPageDebug hw c (UInt32.ofNat (n * 4096)) m with
    | .ok page _ => page.map UInt32.toNat
    | .error _ _ => none
  physical a := m.ram (ramAddr (hw.physOffset (UInt32.ofNat a)) (UInt32.ofNat a))

section Virtual

variable {hw : Board} {c : ℕ} {m m' : Qemu} {addr page : Addr32}

/-- What the debugger finds is a whole page. -/
theorem triple_debug_aligned :
    Triple (fun _ => True) (cpuGetPhysPageDebug hw c addr)
      (fun p _ => ∀ page, p = some page → pageOffset page = 0) (fun _ _ => False) := by
  have hnone : ∀ page : Addr32, none = some page → pageOffset page = 0 := fun _ h => by cases h
  have hpage : ∀ x k page : Addr32,
      some ((x &&& targetPageMask) + (addr &&& targetPageMask &&& k)) = some page →
        pageOffset page = 0 :=
    fun x k page h => Option.some.inj h ▸ pageOffset_page x k addr
  refine .get_bind fun m _ => Triple.strengthen_pre (P := fun _ => True)
    (.ite (fun _ => ?_) fun _ => .ite (fun _ => .pure fun _ _ => hpage _ _) fun _ => ?_)
    fun _ _ => trivial
  · exact returns_ldlPhys.bind fun _ => .ite (fun _ => .pure fun _ _ => hnone) fun _ =>
      returns_ldlPhys.bind fun _ => .ite (fun _ => .pure fun _ _ => hnone) fun _ =>
        .ite (fun _ => .pure fun _ _ => hpage _ _) fun _ =>
          returns_ldlPhys.bind fun _ => .pure fun _ _ => hpage _ _
  · exact returns_ldlPhys.bind fun _ => .ite (fun _ => .pure fun _ _ => hnone) fun _ =>
      .ite (fun _ => .pure fun _ _ => hpage _ _) fun _ =>
        returns_ldlPhys.bind fun _ => .ite (fun _ => .pure fun _ _ => hnone) fun _ =>
          .pure fun _ _ => hpage _ _

theorem ofNat_div_mul (addr : Addr32) :
    UInt32.ofNat (addr.toNat / 4096 * 4096) = addr &&& targetPageMask := by
  have haddr := addr.toNat_lt
  refine UInt32.toNat_inj.mp ?_
  rw [UInt32.toNat_ofNat', toNat_mask]
  omega

/-- A few bytes further on a page of memory. -/
theorem ramAddr_add {a : Addr32} {i : ℕ} (hi : (pageOffset a).toNat + i < 4096) :
    ramAddr (hw.physOffset (a + UInt32.ofNat i)) (a + UInt32.ofNat i) =
      ramAddr (hw.physOffset a) a + UInt32.ofNat i := by
  obtain ⟨hindex, hoffset⟩ := page_add_of_lt hi
  rw [Board.physOffset, hindex, ramAddr, hoffset, UInt32.ofNat_add, UInt32.ofNat_toNat,
    ← UInt32.add_assoc]
  rfl

/-- The bytes of a page. -/
theorem physical_debugMemory {i : ℕ} (hpage : pageOffset page = 0)
    (hi : addr.toNat % 4096 + i < 4096) :
    (m.debugMemory hw c).physical (page.toNat + addr.toNat % 4096 + i) =
      m.ram (ramAddr (hw.physOffset (page + pageOffset addr)) (page + pageOffset addr) +
        UInt32.ofNat i) := by
  have hoff : (pageOffset (page + pageOffset addr)).toNat = addr.toNat % 4096 := by
    rw [UInt32.add_comm, pageOffset_add hpage, toNat_pageOffset, toNat_pageOffset, Nat.mod_mod]
  have hx : UInt32.ofNat (page.toNat + addr.toNat % 4096 + i) =
      page + pageOffset addr + UInt32.ofNat i := by
    rw [UInt32.ofNat_add, UInt32.ofNat_add, UInt32.ofNat_toNat, ← toNat_pageOffset,
      UInt32.ofNat_toNat]
  refine (congrArg (fun x => m.ram (ramAddr (hw.physOffset x) x)) hx).trans ?_
  rw [ramAddr_add (by rw [hoff]; exact hi)]

/-- A page, as the debugger reads it. -/
theorem range_map_physical {l : ℕ} (hpage : pageOffset page = 0)
    (hl : addr.toNat % 4096 + l ≤ 4096) :
    (List.range l).map (fun i =>
        (m.debugMemory hw c).physical (page.toNat + addr.toNat % 4096 + i)) =
      Bytes.readBytes m.ram (ramAddr (hw.physOffset (page + pageOffset addr))
        (page + pageOffset addr)) l := by
  refine List.ext_getElem? fun i => ?_
  by_cases hi : i < l
  · rw [Bytes.getElem?_readBytes hi, List.getElem?_map, List.getElem?_range hi, Option.map_some,
      physical_debugMemory hpage (by omega)]
  · rw [List.getElem?_eq_none (by rw [List.length_map, List.length_range]; omega),
      List.getElem?_eq_none (by rw [Bytes.length_readBytes]; omega)]

/-- What has been read, and whether all of it: if no device was asked, it is what the map says. -/
structure DebugRead (hw : Board) (c : ℕ) (m : Qemu) (addr : Addr32) (len : ℕ)
    (r : List UInt8 × Bool) (m' : Qemu) : Prop where
  asks : Asks m m'
  length : r.1.length ≤ len
  memory : m'.io.length = m.io.length → ∀ buf : List UInt8, buf.length = len →
    (m.debugMemory hw c).cpuMemoryRwDebug addr buf =
      (if r.2 then 0 else -1, r.1 ++ buf.drop r.1.length)

theorem physPage_debugMemory {p : Option Addr32}
    (h : cpuGetPhysPageDebug hw c (addr &&& targetPageMask) m = .ok p m') :
    (m.debugMemory hw c).physPage (addr.toNat / 4096) = p.map UInt32.toNat := by
  rw [← ofNat_div_mul] at h
  simp only [Qemu.debugMemory, h]

/-- What the debugger finds is the map. -/
theorem triple_debug_page (addr : Addr32) (m : Qemu) :
    Triple (· = m) (cpuGetPhysPageDebug hw c (addr &&& targetPageMask))
      (fun p m' => Asks m m' ∧ (∀ page, p = some page → pageOffset page = 0) ∧
        (m.debugMemory hw c).physPage (addr.toNat / 4096) = p.map UInt32.toNat)
      (fun _ _ => False) := by
  rintro m rfl
  have hspec : Triple (· = m) (cpuGetPhysPageDebug hw c (addr &&& targetPageMask))
      (fun p m' => Asks m m' ∧ ∀ page, p = some page → pageOffset page = 0)
      (fun _ _ => False) :=
    ((asks_cpuGetPhysPageDebug (F := fun _ => False) m).and
      (triple_debug_aligned.strengthen_pre fun _ _ => trivial)).weaken_exit fun _ _ h => h.2
  obtain ⟨p, m', hres, hasks, haligned⟩ := hspec.exists_ok rfl
  rw [hres]
  exact ⟨hasks, haligned, physPage_debugMemory hres⟩

/-- The rest of a page, and what is read after it. -/
theorem DebugRead.append {m₁ m₂ m₃ : Qemu} {len l : ℕ} {bytes : List UInt8}
    {r : List UInt8 × Bool} (hl : min (4096 - addr.toNat % 4096) (len + 1) = l)
    (hasks : Asks m m₁) (haligned : pageOffset page = 0)
    (hpage : (m.debugMemory hw c).physPage (addr.toNat / 4096) = some page.toNat)
    (h : PhysicalRead hw m₁ (page + pageOffset addr) l bytes m₂)
    (h' : DebugRead hw c m₂ (addr + UInt32.ofNat l) (len + 1 - l) r m₃) :
    DebugRead hw c m addr (len + 1) (bytes ++ r.1, r.2) m₃ := by
  have hasks' := hasks.trans h.asks
  refine ⟨hasks'.trans h'.asks, ?_, fun hio buf hbuf => ?_⟩
  · have hle := h'.length
    rw [List.length_append, h.length]
    omega
  · -- no device has been asked in any of the steps
    have hio₂ : m₂.io.length = m.io.length :=
      le_antisymm (h'.asks.io_le.trans hio.le) hasks'.io_le
    have hio₁ : m₁.io.length = m.io.length :=
      le_antisymm (h.asks.io_le.trans hio₂.le) hasks.io_le
    obtain rfl := hasks.eq hio₁
    obtain rfl := h.asks.eq hio₂
    have hoff : (page + pageOffset addr).toNat % 4096 = addr.toNat % 4096 := by
      rw [← toNat_pageOffset, UInt32.add_comm, pageOffset_add haligned, toNat_pageOffset,
        toNat_pageOffset, Nat.mod_mod]
    have hbytes := h.memory rfl (by omega)
    have hrest := h'.memory hio (buf.drop l) (by rw [List.length_drop]; omega)
    rw [GuestMemory.cpuMemoryRwDebug, if_pos (by omega), hpage, hbuf, hl]
    simp only
    rw [hrest, range_map_physical haligned (by omega), ← hbytes, List.append_assoc,
      List.length_append, h.length, List.drop_drop]

/-- **`cpu_memory_rw_debug`** reads by the map of the pages. -/
theorem triple_cpuMemoryReadDebug (hw : Board) (c : ℕ) {k len : ℕ} (hk : len ≤ k) (addr : Addr32)
    (m : Qemu) :
    Triple (· = m) (cpuMemoryReadDebug hw c k addr len) (DebugRead hw c m addr len)
      (fun _ _ => False) := by
  have hzero : ∀ addr (m : Qemu), DebugRead hw c m addr 0 ([], true) m := by
    refine fun addr m => ⟨.refl m, le_rfl, fun _ buf hbuf => ?_⟩
    obtain rfl := List.eq_nil_of_length_eq_zero hbuf
    rw [GuestMemory.cpuMemoryRwDebug]
    rfl
  induction k generalizing addr len m with
  | zero =>
      obtain rfl := Nat.le_zero.mp hk
      rintro m rfl
      exact hzero addr m
  | succ k ih =>
      cases len with
      | zero =>
          rintro m rfl
          exact hzero addr m
      | succ len =>
          rw [cpuMemoryReadDebug]
          refine (triple_debug_page addr m).bind fun p => ?_
          cases p with
          | none =>
              rintro m₁ ⟨hasks, -, hpage⟩
              refine ⟨hasks, Nat.zero_le _, fun _ buf hbuf => ?_⟩
              rw [GuestMemory.cpuMemoryRwDebug, if_pos (by omega), hpage]
              rfl
          | some page =>
              have hleft := pageLeft_le addr (len + 1) len.succ_pos
              have hmin := pageLeft_eq addr (len + 1)
              generalize pageLeft addr (len + 1) = l at hleft hmin ⊢
              rintro m₁ ⟨hasks, haligned, hpage⟩
              refine ((triple_cpuPhysicalMemoryRead le_rfl (page + pageOffset addr) m₁).bind
                fun bytes => ?_) m₁ rfl
              intro m₂ h
              refine ((ih (by omega) (addr + UInt32.ofNat l) m₂).bind fun r => .pure ?_) m₂ rfl
              intro m₃ h'
              exact .append hmin.symm hasks (haligned page rfl) hpage h h'

/-- A page of tables that maps itself everywhere: each of its words is the entry `0x00105007`. -/
def Qemu.selfMapped : Qemu := { Qemu.small with
  ram := fun a => [0x07, 0x50, 0x10, 0x00].getD (a.toNat % 4) 0
  cpus := fun c => { Qemu.small.cpus c with
    regs := ⟨0x80000000, 0, 0x00105000, 0, 0xffffffff, 0, 0, 0⟩ } }

/-- **The checker reads by the map of the pages**: `cpu_memory_rw_debug` returns, and if it asks
no device it changes nothing, and leaves in the buffer what `StackTrace` goes by. -/
theorem debugger_reads_by_page_map (hw : Board) (c : ℕ) (m : Qemu) (addr : Addr32)
    (buf : List UInt8) :
    ∃ bytes ok m', cpuMemoryReadDebug hw c buf.length addr buf.length m = .ok (bytes, ok) m' ∧
      (m'.io = m.io → m' = m ∧ (m.debugMemory hw c).cpuMemoryRwDebug addr buf =
        (if ok then 0 else -1, bytes ++ buf.drop bytes.length)) := by
  obtain ⟨r, m', hres, hread⟩ :=
    (triple_cpuMemoryReadDebug hw c (le_refl buf.length) addr m).exists_ok rfl
  refine ⟨r.1, r.2, m', hres, fun hio => ?_⟩
  have hlen := congrArg List.length hio
  exact ⟨hread.asks.eq hlen, hread.memory hlen buf rfl⟩

/-- A word across two pages. -/
theorem debugger_reads_by_page_map_selfMapped :
    (Qemu.selfMapped.debugMemory .small 0).cpuMemoryRwDebug 0xc0000fff [1, 2, 3, 4] =
      (0, [0x00, 0x07, 0x50, 0x10]) := by
  obtain ⟨bytes, ok, m', hres, hread⟩ :=
    debugger_reads_by_page_map .small 0 Qemu.selfMapped 0xc0000fff [1, 2, 3, 4]
  have hrun : cpuMemoryReadDebug .small 0 4 0xc0000fff 4 Qemu.selfMapped =
      .ok ([0x00, 0x07, 0x50, 0x10], true) Qemu.selfMapped := rfl
  obtain ⟨hvalue, rfl⟩ := EStateM.Result.ok.inj (hres.symm.trans hrun)
  obtain ⟨rfl, rfl⟩ := Prod.mk.inj hvalue
  exact (hread rfl).2

end Virtual

/-! ### What the guest loads -/

section Loads

variable {hw : Board} {c : ℕ} {m m₁ m' : Qemu} {addr x page : Addr32} {access : Access}
  {mmu : MmuIdx} {prot : Prot}

/-- The byte that the debugger reads on a page that is mapped. -/
theorem Maps.byte_debugMemory {r : MmuRegs} (h : Maps hw r m.ram addr page)
    (hr : (m.cpus c).regs = r)
    (hpae : r.cr4 &&& cr4PaeMask ≠ 0 → r.cr0 &&& cr0PgMask ≠ 0 ∧ r.a20Mask = 0xffffffff)
    (hx : pageIndex x = pageIndex addr) :
    (m.debugMemory hw c).byte x =
      some (m.ram ((hw.physOffset page &&& targetPageMask) + pageOffset x)) := by
  have hfind := h.mask.cpuGetPhysPageDebug hr hpae
  rw [← mask_eq_of_pageIndex hx] at hfind
  have haligned := h.pageOffset_eq
  have hoff : pageOffset (page + pageOffset x) = pageOffset x := by
    rw [UInt32.add_comm, pageOffset_add haligned, pageOffset, pageOffset, UInt32.and_assoc,
      UInt32.and_self]
  have hindex : pageIndex (page + pageOffset x) = pageIndex page := by
    rw [pageOffset_eq_zero_iff] at haligned
    have hpage := page.toNat_lt
    refine UInt32.toNat_inj.mp ?_
    rw [toNat_pageIndex, toNat_pageIndex, UInt32.toNat_add, toNat_pageOffset]
    omega
  rw [GuestMemory.byte, physPage_debugMemory hfind]
  refine congrArg some ((physical_debugMemory (i := 0) haligned (by omega)).trans ?_)
  rw [Bytes.add_ofNat_zero, ramAddr, hoff, Board.physOffset, hindex, Board.physOffset]

/-- The page is one of memory if its entry has no other bits set. -/
theorem not_isIo_of_plain (hplain : pageAddress (addr &&& targetPageMask) (hw.physOffset page) =
    addr &&& targetPageMask) : ¬ IsIo (hw.physOffset page) := by
  intro hio
  rw [pageAddress, if_pos hio] at hplain
  have hoff := congrArg pageOffset hplain
  rw [pageOffset_or, pageOffset_mask, UInt32.zero_or] at hoff
  rw [IsIo, hoff] at hio
  exact absurd hio.1 (by decide)

/-- A byte that is loaded from memory by the entry of its page. -/
theorem ld_byte_of_entry (haddr : ((m.cpus c).tlbAt mmu x).addrRead = x &&& targetPageMask) :
    ld hw c .b .read mmu x m =
      .ok (m.ram (x + ((m.cpus c).tlbAt mmu x).addend - hw.physRamBase)).toNat
        { m with announced := m.announced ++ [(x, 1)] } := by
  let m₁ : Qemu := { m with announced := m.announced ++ [(x, 1)] }
  have hld : ld hw c .b .read mmu x m =
      (if ((m₁.cpus c).tlbAt mmu x).addrRead ≠ x &&& targetPageMask then
        ldMmu hw c .b .read mmu x
      else ldHost hw (x + ((m₁.cpus c).tlbAt mmu x).addend) .b : Emu ℕ) m₁ := rfl
  rw [hld, if_neg (not_not.mpr haddr)]
  rfl

/-- The address of a byte in memory, by the entry that is made for its page. -/
theorem addend_tlbEntryFor (hio : ¬ IsIo (hw.physOffset page))
    (hx : x &&& targetPageMask = addr &&& targetPageMask) :
    x + (m.tlbEntryFor hw (addr &&& targetPageMask) page prot).addend - hw.physRamBase =
      (hw.physOffset page &&& targetPageMask) + pageOffset x := by
  have hself := mask_add_pageOffset x
  simp only [Qemu.tlbEntryFor, if_neg hio]
  rw [hx] at hself
  grind

/-- **What the debugger reads is what the guest loads**: on a page of memory that the MMU has just
entered into the table, without asking a device, every byte that the guest loads is the one that
the debugger reads. With `CR4.PAE` paging must be on, and `a20_mask` must let all addresses
through. -/
theorem debugger_reads_what_guest_loads
    (hpae : (m.cpus c).regs.cr4 &&& cr4PaeMask ≠ 0 →
      (m.cpus c).regs.cr0 &&& cr0PgMask ≠ 0 ∧ (m.cpus c).regs.a20Mask = 0xffffffff)
    (hfault : cpuX86HandleMmuFault hw c addr access mmu m = .ok false m') (hio : m'.io = m.io)
    (hplain : ((m'.cpus c).tlbAt mmu addr).addrRead = addr &&& targetPageMask)
    (hx : pageIndex x = pageIndex addr) :
    ∃ b m'', (m'.debugMemory hw c).byte x = some b ∧
      ld hw c .b .read mmu x m' = .ok b.toNat m'' := by
  obtain ⟨m₁, page, prot, hcpus, hread, hmaps, hm'⟩ :=
    (triple_cpuX86HandleMmuFault_maps m).of_ok rfl hfault rfl (congrArg List.length hio)
  have hram : m'.ram = m₁.ram := hm' ▸ rfl
  have hregs : (m'.cpus c).regs = (m.cpus c).regs := by
    rw [hm', ← hcpus]
    exact Qemu.setCpu_eq (fun cpu => cpu.regs) rfl c
  have hentry : (m'.cpus c).tlbAt mmu addr =
      m₁.tlbEntryFor hw (addr &&& targetPageMask) page prot := by
    rw [hm']
    exact m₁.tlbAt_fill addr page prot
  have hsame : (m'.cpus c).tlbAt mmu x = (m'.cpus c).tlbAt mmu addr := by
    rw [CpuState.tlbAt, tlbIndex_eq_of_pageIndex hx, CpuState.tlbAt]
  have hmask := mask_eq_of_pageIndex hx
  have hmem : ¬ IsIo (hw.physOffset page) := by
    rw [hentry] at hplain
    simp only [Qemu.tlbEntryFor, hread, if_true] at hplain
    exact not_isIo_of_plain hplain
  have hload : ld hw c .b .read mmu x m' = _ :=
    ld_byte_of_entry (by rw [hsame, hplain, hmask])
  rw [hsame, hentry, addend_tlbEntryFor hmem hmask] at hload
  rw [← hram] at hmaps
  exact ⟨_, _, hmaps.byte_debugMemory hregs hpae hx, hload⟩

theorem fault_selfMapped :
    ∃ m', cpuX86HandleMmuFault .small 0 0xc0000123 .write .kernel Qemu.selfMapped = .ok false m' ∧
      m'.io = [] ∧ ((m'.cpus 0).tlbAt .kernel 0xc0000123).addrRead = 0xc0000000 :=
  ⟨_, rfl, rfl, by decide +kernel⟩

/-- The MMU has noted the write in the page that is read. -/
theorem debugger_reads_what_guest_loads_selfMapped :
    ∃ m', cpuX86HandleMmuFault .small 0 0xc0000123 .write .kernel Qemu.selfMapped = .ok false m' ∧
      ∃ b m'', (m'.debugMemory .small 0).byte 0xc0000fff = some b ∧
        ld .small 0 .b .read .kernel 0xc0000fff m' = .ok b.toNat m'' := by
  obtain ⟨m', hfault, hio, hplain⟩ := fault_selfMapped
  exact ⟨m', hfault, debugger_reads_what_guest_loads (fun h => absurd (by decide) h) hfault hio
    hplain (by decide)⟩

end Loads

end MemCheck
