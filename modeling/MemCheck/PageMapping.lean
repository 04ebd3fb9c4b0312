import MemCheck.LoadedBytes

/-!
# What the Page Tables Map

The MMU of the guest and the debugger walk the same tables with code of their own. `Maps` says
what the tables map an address to, and both walks find it. The MMU writes to the tables while it
walks them, but only the bits that note accesses and writes, so that the tables map the same
afterwards, also where a table maps itself.

The two differ with `CR4.PAE`: the debugger walks the tables even if paging is off, and does not
apply `a20_mask` to the page that it finds.

## Main results

* `triple_walkTables_maps`: what the MMU finds is what the tables map;
* `Maps.cpuGetPhysPageDebug`: the debugger finds it too.
-/

namespace MemCheck

open LongJump (Triple)

/-! ### Words of memory -/

/-- The word of memory at an address. -/
def ramWord (ram : Addr32 → UInt8) (a : Addr32) : Word32 := UInt32.ofNat (ldRaw ram a 4)

section Words

variable {ram : Addr32 → UInt8} {a x : Addr32}

theorem ramWord_stRaw_self (val : Word32) : ramWord (stRaw ram a 4 val.toNat) a = val := by
  have hread : Bytes.readBytes (stRaw ram a 4 val.toNat) a (Bytes.leBytes 4 val.toNat).length =
      Bytes.leBytes 4 val.toNat :=
    Bytes.readBytes_writeBytes (by rw [Bytes.length_leBytes]; omega)
  rw [Bytes.length_leBytes] at hread
  rw [ramWord, ldRaw, hread, Bytes.leNat_leBytes]
  refine UInt32.toNat_inj.mp ?_
  have hval := val.toNat_lt
  rw [UInt32.toNat_ofNat']
  omega

/-- Aligned words do not overlap. -/
theorem ramWord_stRaw_of_ne (ha : a.toNat % 4 = 0) (hx : x.toNat % 4 = 0) (hne : x ≠ a)
    (val : ℕ) : ramWord (stRaw ram a 4 val) x = ramWord ram x := by
  have hne : x.toNat ≠ a.toNat := fun h => hne (UInt32.toNat_inj.mp h)
  have hx' := x.toNat_lt
  have ha' := a.toNat_lt
  rw [ramWord, ldRaw, Bytes.readBytes_congr fun k hk => ?_, ramWord, ldRaw]
  refine stRaw_of_not_lt (by omega) ?_
  rw [UInt32.toNat_sub, UInt32.toNat_add, UInt32.toNat_ofNat']
  omega

/-- The low word of two. -/
theorem toUInt32_ldRaw : (UInt64.ofNat (ldRaw ram a 8)).toUInt32 = ramWord ram a := by
  have hlt := Bytes.leNat_lt (Bytes.readBytes ram a 8)
  rw [Bytes.length_readBytes] at hlt
  have hsplit : Bytes.readBytes ram a 8 =
      Bytes.readBytes ram a 4 ++ Bytes.readBytes ram (a + UInt32.ofNat 4) 4 :=
    Bytes.readBytes_add (n := 4) (k := 4)
  have happend := Bytes.leNat_append (Bytes.readBytes ram a 4)
    (Bytes.readBytes ram (a + UInt32.ofNat 4) 4)
  rw [← hsplit, Bytes.length_readBytes] at happend
  refine UInt32.toNat_inj.mp ?_
  rw [ramWord, ldRaw, ldRaw, UInt64.toNat_toUInt32, UInt64.toNat_ofNat', UInt32.toNat_ofNat',
    happend]
  omega

end Words

/-! ### Entries of tables -/

/-- The bits of an entry that a walk leaves alone. -/
def keptMask : Word32 := ~~~ 0x60

/-- A word of memory is an entry, but for what has been noted in it. -/
def Alike (entry : UInt64) (w : Word32) : Prop := w &&& keptMask = entry.toUInt32 &&& keptMask

section Alike

variable {entry e : UInt64} {w : Word32}

theorem Touched.toUInt32 (h : Touched entry e) :
    e.toUInt32 &&& keptMask = entry.toUInt32 &&& keptMask := by
  have hlow := congrArg UInt64.toUInt32 h
  rwa [UInt64.toUInt32_and, UInt64.toUInt32_and] at hlow

theorem Touched.toUInt32_and (h : Touched entry e) {k : Word32} (hk : keptMask &&& k = k) :
    e.toUInt32 &&& k = entry.toUInt32 &&& k := by
  rw [← hk, ← UInt32.and_assoc, ← UInt32.and_assoc, h.toUInt32]

theorem Alike.and (h : Alike entry w) {k : Word32} (hk : keptMask &&& k = k) :
    w &&& k = entry.toUInt32 &&& k := by
  rw [← hk, ← UInt32.and_assoc, ← UInt32.and_assoc, h]

/-- More may be noted in the entry. -/
theorem Alike.and_eq (h : Alike entry w) (ht : Touched entry e) {k : Word32}
    (hk : keptMask &&& k = k) : e.toUInt32 &&& k = w &&& k :=
  (ht.toUInt32_and hk).trans (h.and hk).symm

theorem toUInt64_toUInt32 (x : UInt64) : x.toUInt32.toUInt64 = x &&& 0xffffffff := by
  refine UInt64.toNat_inj.mp ?_
  rw [UInt32.toNat_toUInt64, UInt64.toNat_toUInt32, UInt64.toNat_and]
  exact (Nat.and_two_pow_sub_one_eq_mod _ 32).symm

/-- The flags of an entry. -/
theorem Alike.flag (h : Alike entry w) {k : Word32} (hk : keptMask &&& k = k) :
    w.toUInt64 &&& k.toUInt64 = entry &&& k.toUInt64 := by
  have hlow : (0xffffffff : UInt64) &&& k.toUInt64 = k.toUInt64 := by
    rw [UInt64.and_comm, ← toUInt64_toUInt32, UInt32.toUInt32_toUInt64]
  rw [← UInt32.toUInt64_and, h.and hk, UInt32.toUInt64_and, toUInt64_toUInt32, UInt64.and_assoc,
    hlow]

end Alike

/-! ### What a walk does to memory -/

/-- The words of memory stay as they are, but for what is noted in them. -/
structure Noted (m m' : Qemu) : Prop where
  cpus : m'.cpus = m.cpus
  io : m.io.length ≤ m'.io.length
  words : ∀ a, a.toNat % 4 = 0 → ramWord m'.ram a &&& keptMask = ramWord m.ram a &&& keptMask

/-- An entry has been read from a table, or from a device. -/
structure EntryRead (hw : Board) (m : Qemu) (a : Addr32) (entry : UInt64) (m' : Qemu) : Prop where
  noted : Noted m m'
  value : ¬ IsIo (hw.physOffset a) →
    entry.toUInt32 = ramWord m'.ram (ramAddr (hw.physOffset a) a)
  quiet : m'.io.length = m.io.length → ¬ IsIo (hw.physOffset a)

/-- A table in memory has an entry that is present. -/
structure InTable (hw : Board) (ram : Addr32 → UInt8) (a : Addr32) (w : Word32) : Prop where
  memory : ¬ IsIo (hw.physOffset a)
  word : ramWord ram (ramAddr (hw.physOffset a) a) = w
  present : w.toUInt64 &&& pgPresentMask ≠ 0

section Walks

variable {hw : Board} {m m' m'' : Qemu} {a : Addr32} {entry e : UInt64}

theorem Noted.refl (m : Qemu) : Noted m m := ⟨rfl, le_rfl, fun _ _ => rfl⟩

theorem Noted.trans (h : Noted m m') (h' : Noted m' m'') : Noted m m'' :=
  ⟨h'.cpus.trans h.cpus, h.io.trans h'.io, fun a ha => (h'.words a ha).trans (h.words a ha)⟩

/-- A device is asked. -/
theorem Noted.ask (m : Qemu) (xs : List IoAccess) : Noted m { m with io := m.io ++ xs } :=
  ⟨rfl, List.length_append ▸ Nat.le_add_right _ _, fun _ _ => rfl⟩

theorem EntryRead.of_io (hio : IsIo (hw.physOffset a)) (m : Qemu) (x : IoAccess)
    (xs : List IoAccess) : EntryRead hw m a entry { m with io := m.io ++ x :: xs } := by
  refine ⟨.ask m _, fun hram => absurd hio hram, fun hlen => ?_⟩
  rw [List.length_append, List.length_cons] at hlen
  omega

theorem triple_ldlPhys_entry (m : Qemu) :
    Triple (· = m) (ldlPhys hw a) (fun w => EntryRead hw m a w.toUInt64) (fun _ _ => False) := by
  refine .ite (fun hio => ?_) fun hram => .get_bind ?_
  · rintro _ rfl
    exact .of_io hio _ _ []
  · rintro _ rfl _ rfl
    exact ⟨.refl _, fun _ => UInt32.toUInt32_toUInt64 _, fun _ => hram⟩

theorem triple_ldqPhys_entry (m : Qemu) :
    Triple (· = m) (ldqPhys hw a) (EntryRead hw m a) (fun _ _ => False) := by
  refine .ite (fun hio => ?_) fun hram => .get_bind ?_
  · rintro m rfl
    have hread : ∀ entry : UInt64, EntryRead hw m a entry { m with io := m.io ++ _ :: [_] } :=
      fun entry => .of_io hio m (.read (ioIndex (hw.physOffset a)) 2 a)
        [.read (ioIndex (hw.physOffset a)) 2 (a + 4)]
    rw [List.append_cons] at hread
    exact hread _
  · rintro _ rfl _ rfl
    exact ⟨.refl _, fun _ => toUInt32_ldRaw, fun _ => hram⟩

theorem toNat_ramAddr_mod (pd : Word32) (a : Addr32) : (ramAddr pd a).toNat % 4 = a.toNat % 4 := by
  have h := congrArg UInt32.toNat (pageOffset_ramAddr pd a)
  rw [toNat_pageOffset, toNat_pageOffset] at h
  omega

/-- **An entry is written back** with more noted in it than before. -/
theorem triple_stlPhysNotdirty_noted (m : Qemu) (ha : a.toNat % 4 = 0)
    (hvalue : ¬ IsIo (hw.physOffset a) →
      entry.toUInt32 = ramWord m.ram (ramAddr (hw.physOffset a) a)) (ht : Touched entry e) :
    Triple (· = m) (stlPhysNotdirty hw a e.toUInt32) (fun _ m' => Noted m m')
      (fun _ _ => False) := by
  refine .ite (fun _ => ?_) fun hram => .modify ?_
  · rintro _ rfl
    exact .ask _ _
  · rintro _ rfl
    refine ⟨rfl, le_rfl, fun x hx => ?_⟩
    have hmem : ¬ IsIo (hw.physOffset a) := fun hio => by
      rw [IsIo, not_not.mp hram] at hio
      exact absurd hio.1 (by decide)
    have hcell := (toNat_ramAddr_mod (hw.physOffset a) a).trans ha
    by_cases heq : x = ramAddr (hw.physOffset a) a
    · subst heq
      rw [ramWord_stRaw_self, ht.toUInt32, hvalue hmem]
    · rw [ramWord_stRaw_of_ne hcell hx heq]

/-- What is noted in a table. -/
theorem triple_touchTable_noted (m : Qemu) (ha : a.toNat % 4 = 0)
    (hvalue : ¬ IsIo (hw.physOffset a) →
      entry.toUInt32 = ramWord m.ram (ramAddr (hw.physOffset a) a)) :
    Triple (· = m) (touchTable hw a entry) (fun e m' => Noted m m' ∧ Touched entry e)
      (fun _ _ => False) := by
  have ht : Touched entry (entry ||| pgAccessedMask) := .or (by decide)
  refine .ite (fun _ => ?_) fun _ => .pure ?_
  · exact (triple_stlPhysNotdirty_noted m ha hvalue ht).bind fun _ => .pure fun _ hn => ⟨hn, ht⟩
  · rintro _ rfl
    exact ⟨.refl _, .refl _⟩

theorem triple_touchPage_noted (m : Qemu) (access : Access) (ha : a.toNat % 4 = 0)
    (hvalue : ¬ IsIo (hw.physOffset a) →
      entry.toUInt32 = ramWord m.ram (ramAddr (hw.physOffset a) a)) :
    Triple (· = m) (touchPage hw a entry access) (fun e m' => Noted m m' ∧ Touched entry e)
      (fun _ _ => False) := by
  have ht : Touched entry (entry ||| pgAccessedMask) := .or (by decide)
  refine .ite (fun _ => ?_) fun _ => .pure ?_
  · split_ifs
    · have ht' := ht.trans (.or (x := pgDirtyMask) (by decide))
      exact (triple_stlPhysNotdirty_noted m ha hvalue ht').bind fun _ =>
        .pure fun _ hn => ⟨hn, ht'⟩
    · exact (triple_stlPhysNotdirty_noted m ha hvalue ht).bind fun _ =>
        .pure fun _ hn => ⟨hn, ht⟩
  · rintro _ rfl
    exact ⟨.refl _, .refl _⟩

/-- The entry that has been read is still in its table, but for what has been noted since. -/
theorem EntryRead.inTable (h : EntryRead hw m a entry m') (ha : a.toNat % 4 = 0)
    (hpresent : entry &&& pgPresentMask ≠ 0) (hn : Noted m' m'')
    (hio : m''.io.length = m.io.length) : ∃ w, InTable hw m''.ram a w ∧ Alike entry w := by
  have hmem := h.quiet (le_antisymm (hn.io.trans hio.le) h.noted.io)
  have halike : Alike entry (ramWord m''.ram (ramAddr (hw.physOffset a) a)) := by
    rw [Alike, hn.words _ ((toNat_ramAddr_mod _ a).trans ha), h.value hmem]
  exact ⟨_, ⟨hmem, rfl, (halike.flag (k := 0x1) (by decide)).trans_ne hpresent⟩, halike⟩

end Walks

/-! ### What the tables map -/

namespace MmuRegs

/-- The entry of the page directory for an address. -/
def pdeAddr (r : MmuRegs) (addr : Addr32) : Addr32 :=
  entryAddr r (r.cr3 &&& ~~~ 0xfff) ((addr >>> 20) &&& 0xffc)

/-- The entry of a page table. -/
def pteAddr (r : MmuRegs) (pde : Word32) (addr : Addr32) : Addr32 :=
  entryAddr r (pde &&& ~~~ 0xfff) ((addr >>> 10) &&& 0xffc)

/-- With `CR4.PAE`, the entry of the table above the page directories. -/
def pdpeAddrPae (r : MmuRegs) (addr : Addr32) : Addr32 :=
  entryAddr r (r.cr3 &&& ~~~ 0x1f) ((addr >>> 27) &&& 0x18)

/-- With `CR4.PAE`, the entry of a page directory. -/
def pdeAddrPae (r : MmuRegs) (pdpe : Word32) (addr : Addr32) : Addr32 :=
  entryAddr r (pdpe &&& ~~~ 0xfff) (((addr >>> 21) &&& 0x1ff) <<< 3)

/-- With `CR4.PAE`, the entry of a page table. -/
def pteAddrPae (r : MmuRegs) (pde : Word32) (addr : Addr32) : Addr32 :=
  entryAddr r (pde &&& ~~~ 0xfff) (((addr >>> 12) &&& 0x1ff) <<< 3)

end MmuRegs

/-- The tables in memory map an address to a physical page. -/
inductive Maps (hw : Board) (r : MmuRegs) (ram : Addr32 → UInt8) (addr page : Addr32) : Prop
  | unpaged (hpg : r.cr0 &&& cr0PgMask = 0) (hpage : page = r.pagePaddr addr 0x1000 addr)
  | large {pde : Word32} (hpg : r.cr0 &&& cr0PgMask ≠ 0) (hpae : r.cr4 &&& cr4PaeMask = 0)
      (hpde : InTable hw ram (r.pdeAddr addr) pde)
      (hlarge : pde.toUInt64 &&& pgPseMask ≠ 0 ∧ r.cr4 &&& cr4PseMask ≠ 0)
      (hpage : page = r.pagePaddr (pde &&& 0xffc00fff) 0x400000 addr)
  | small {pde pte : Word32} (hpg : r.cr0 &&& cr0PgMask ≠ 0) (hpae : r.cr4 &&& cr4PaeMask = 0)
      (hpde : InTable hw ram (r.pdeAddr addr) pde)
      (hsmall : ¬ (pde.toUInt64 &&& pgPseMask ≠ 0 ∧ r.cr4 &&& cr4PseMask ≠ 0))
      (hpte : InTable hw ram (r.pteAddr pde addr) pte)
      (hpage : page = r.pagePaddr pte 0x1000 addr)
  | largePae {pdpe pde : Word32} (hpg : r.cr0 &&& cr0PgMask ≠ 0)
      (hpae : r.cr4 &&& cr4PaeMask ≠ 0) (hpdpe : InTable hw ram (r.pdpeAddrPae addr) pdpe)
      (hpde : InTable hw ram (r.pdeAddrPae pdpe addr) pde)
      (hlarge : pde.toUInt64 &&& pgPseMask ≠ 0)
      (hpage : page = r.pagePaddr (pde &&& 0xffe00fff) 0x200000 addr)
  | smallPae {pdpe pde pte : Word32} (hpg : r.cr0 &&& cr0PgMask ≠ 0)
      (hpae : r.cr4 &&& cr4PaeMask ≠ 0) (hpdpe : InTable hw ram (r.pdpeAddrPae addr) pdpe)
      (hpde : InTable hw ram (r.pdeAddrPae pdpe addr) pde)
      (hsmall : ¬ pde.toUInt64 &&& pgPseMask ≠ 0)
      (hpte : InTable hw ram (r.pteAddrPae pde addr) pte)
      (hpage : page = r.pagePaddr pte 0x1000 addr)

/-- The page that a walk ends with is mapped, unless a device was asked on the way. -/
def Walk.Found (hw : Board) (r : MmuRegs) (addr : Addr32) (m m' : Qemu) : Walk → Prop
  | .fault _ => True
  | .page pte _ pageSize => m'.io.length = m.io.length →
      Maps hw r m'.ram addr (r.pagePaddr pte.toUInt32 pageSize addr)

section Tables

variable {hw : Board} {r : MmuRegs} {addr : Addr32} {access : Access} {mmu : MmuIdx}

theorem toNat_and_mod_four (x : Word32) {k : Word32} (hk : k.toNat % 4 = 0) :
    (x &&& k).toNat % 4 = 0 := by
  rw [UInt32.toNat_and, show 4 = 2 ^ 2 from rfl, Nat.and_mod_two_pow, show 2 ^ 2 = 4 from rfl, hk,
    Nat.and_zero]

/-- Entries are aligned. -/
theorem toNat_entryAddr_mod {table offset : Word32} (htable : table.toNat % 4 = 0)
    (hoffset : offset.toNat % 4 = 0) : (entryAddr r table offset).toNat % 4 = 0 := by
  rw [entryAddr, UInt32.and_comm]
  refine toNat_and_mod_four _ ?_
  rw [UInt32.toNat_add]
  omega

theorem toNat_shiftLeft_mod (x : Word32) : (x <<< 3).toNat % 4 = 0 := by
  have hthree : (3 : Word32).toNat % 32 = 3 := rfl
  rw [UInt32.toNat_shiftLeft, hthree, Nat.shiftLeft_eq]
  omega

theorem MmuRegs.pdeAddr_mod : (r.pdeAddr addr).toNat % 4 = 0 :=
  toNat_entryAddr_mod (toNat_and_mod_four _ (by decide)) (toNat_and_mod_four _ (by decide))

theorem MmuRegs.pteAddr_mod (pde : Word32) : (r.pteAddr pde addr).toNat % 4 = 0 :=
  toNat_entryAddr_mod (toNat_and_mod_four _ (by decide)) (toNat_and_mod_four _ (by decide))

theorem MmuRegs.pdpeAddrPae_mod : (r.pdpeAddrPae addr).toNat % 4 = 0 :=
  toNat_entryAddr_mod (toNat_and_mod_four _ (by decide)) (toNat_and_mod_four _ (by decide))

theorem MmuRegs.pdeAddrPae_mod (pdpe : Word32) : (r.pdeAddrPae pdpe addr).toNat % 4 = 0 :=
  toNat_entryAddr_mod (toNat_and_mod_four _ (by decide)) (toNat_shiftLeft_mod _)

theorem MmuRegs.pteAddrPae_mod (pde : Word32) : (r.pteAddrPae pde addr).toNat % 4 = 0 :=
  toNat_entryAddr_mod (toNat_and_mod_four _ (by decide)) (toNat_shiftLeft_mod _)

/-- Only the bits of the page count. -/
theorem MmuRegs.pagePaddr_congr {x y pageSize : Word32}
    (h : x &&& targetPageMask = y &&& targetPageMask) :
    r.pagePaddr x pageSize addr = r.pagePaddr y pageSize addr := by
  rw [MmuRegs.pagePaddr, MmuRegs.pagePaddr, UInt32.and_assoc, UInt32.and_comm r.a20Mask,
    ← UInt32.and_assoc, h, UInt32.and_assoc, UInt32.and_comm _ r.a20Mask, ← UInt32.and_assoc]

/-- **The walk through two levels.** -/
theorem triple_walkLegacy_maps (hpg : r.cr0 &&& cr0PgMask ≠ 0) (hpae : r.cr4 &&& cr4PaeMask = 0)
    (m : Qemu) :
    Triple (· = m) (walkLegacy hw r addr access mmu)
      (fun w m' => Noted m m' ∧ w.Found hw r addr m m') (fun _ _ => False) := by
  refine (triple_ldlPhys_entry m).bind fun pde =>
    .ite (fun _ => .pure fun _ h => ⟨h.noted, trivial⟩) fun hpresent =>
    .ite (fun hlarge => .ite (fun _ => .pure fun _ h => ⟨h.noted, trivial⟩) fun _ => ?_)
      fun hsmall => ?_
  · intro m₁ h₁
    refine ((triple_touchPage_noted m₁ access r.pdeAddr_mod h₁.value).bind fun e => .pure ?_) m₁ rfl
    rintro m₂ ⟨hn, ht⟩
    refine ⟨h₁.noted.trans hn, fun hio => ?_⟩
    obtain ⟨w, hw, halike⟩ := h₁.inTable r.pdeAddr_mod hpresent hn hio
    have hflag := halike.flag (k := 0x80) (by decide)
    refine .large hpg hpae hw ⟨hflag.trans_ne hlarge.1, hlarge.2⟩ (r.pagePaddr_congr ?_)
    rw [UInt64.toUInt32_and, UInt32.and_assoc, UInt32.and_assoc]
    exact halike.and_eq ht (by decide)
  · intro m₁ h₁
    refine ((triple_touchTable_noted m₁ r.pdeAddr_mod h₁.value).bind fun e => ?_) m₁ rfl
    rintro m₂ ⟨hn₁, ht₁⟩
    have hn₂ := h₁.noted.trans hn₁
    refine ((triple_ldlPhys_entry (a := r.pteAddr e.toUInt32 addr) m₂).bind fun pte =>
      .ite (fun _ => .pure fun _ h => ⟨hn₂.trans h.noted, trivial⟩) fun hpte =>
      .ite (fun _ => .pure fun _ h => ⟨hn₂.trans h.noted, trivial⟩) fun _ => ?_) m₂ rfl
    intro m₃ h₃
    refine ((triple_touchPage_noted m₃ access (r.pteAddr_mod _) h₃.value).bind fun e' =>
      .pure ?_) m₃ rfl
    rintro m₄ ⟨hn₃, ht₃⟩
    have hn₄ := h₃.noted.trans hn₃
    refine ⟨hn₂.trans hn₄, fun hio => ?_⟩
    obtain ⟨w, hw, halike⟩ := h₁.inTable r.pdeAddr_mod hpresent (hn₁.trans hn₄) hio
    obtain ⟨w', hw', halike'⟩ := h₃.inTable (r.pteAddr_mod _) hpte hn₃
      (le_antisymm (hio.le.trans hn₂.io) hn₄.io)
    have hflag := halike.flag (k := 0x80) (by decide)
    have haddr : r.pteAddr e.toUInt32 addr = r.pteAddr w addr := by
      rw [MmuRegs.pteAddr, halike.and_eq ht₁ (by decide), MmuRegs.pteAddr]
    exact .small hpg hpae hw (fun h => hsmall ⟨hflag.symm.trans_ne h.1, h.2⟩) (haddr ▸ hw')
      (r.pagePaddr_congr (halike'.and_eq ht₃ (by decide)))

/-- With `CR4.PAE`, the first two tables that are read. -/
theorem EntryRead.directory {m m₁ m₂ m₃ : Qemu} {pdpe pde : UInt64}
    (h₁ : EntryRead hw m (r.pdpeAddrPae addr) pdpe m₁) (hpdpe : pdpe &&& pgPresentMask ≠ 0)
    (h₂ : EntryRead hw m₁ (r.pdeAddrPae pdpe.toUInt32 addr) pde m₂)
    (hpde : pde &&& pgPresentMask ≠ 0) (hn : Noted m₂ m₃) (hio : m₃.io.length = m.io.length) :
    ∃ pdpe' pde', InTable hw m₃.ram (r.pdpeAddrPae addr) pdpe' ∧
      InTable hw m₃.ram (r.pdeAddrPae pdpe' addr) pde' ∧ Alike pde pde' := by
  have hn' := h₂.noted.trans hn
  obtain ⟨pdpe', htable, halike⟩ := h₁.inTable r.pdpeAddrPae_mod hpdpe hn' hio
  obtain ⟨pde', htable', halike'⟩ := h₂.inTable (r.pdeAddrPae_mod _) hpde hn
    (le_antisymm (hio.le.trans h₁.noted.io) hn'.io)
  have haddr : r.pdeAddrPae pdpe.toUInt32 addr = r.pdeAddrPae pdpe' addr := by
    rw [MmuRegs.pdeAddrPae, halike.and_eq (.refl pdpe) (by decide), MmuRegs.pdeAddrPae]
  exact ⟨pdpe', pde', htable, haddr ▸ htable', halike'⟩

/-- **The walk through three levels.** -/
theorem triple_walkPae_maps (hpg : r.cr0 &&& cr0PgMask ≠ 0) (hpae : r.cr4 &&& cr4PaeMask ≠ 0)
    (m : Qemu) :
    Triple (· = m) (walkPae hw r addr access mmu)
      (fun w m' => Noted m m' ∧ w.Found hw r addr m m') (fun _ _ => False) := by
  refine (triple_ldqPhys_entry (a := r.pdpeAddrPae addr) m).bind fun pdpe =>
    .ite (fun _ => .pure fun _ h => ⟨h.noted, trivial⟩) fun hpdpe => ?_
  intro m₁ h₁
  refine ((triple_ldqPhys_entry (a := r.pdeAddrPae pdpe.toUInt32 addr) m₁).bind fun pde =>
    .ite (fun _ => .pure fun _ h => ⟨h₁.noted.trans h.noted, trivial⟩) fun hpresent =>
    .ite (fun _ => .pure fun _ h => ⟨h₁.noted.trans h.noted, trivial⟩) fun _ =>
    .ite (fun hlarge => .ite (fun _ => .pure fun _ h => ⟨h₁.noted.trans h.noted, trivial⟩)
      fun _ => ?_) fun hsmall => ?_) m₁ rfl
  · intro m₂ h₂
    refine ((triple_touchPage_noted m₂ access (r.pdeAddrPae_mod _) h₂.value).bind fun e =>
      .pure ?_) m₂ rfl
    rintro m₃ ⟨hn₃, ht₃⟩
    have hn := h₂.noted.trans hn₃
    refine ⟨h₁.noted.trans hn, fun hio => ?_⟩
    obtain ⟨pdpe', pde', hpdpe', hpde', halike⟩ := h₁.directory hpdpe h₂ hpresent hn₃ hio
    have hflag := halike.flag (k := 0x80) (by decide)
    refine .largePae hpg hpae hpdpe' hpde' (hflag.trans_ne hlarge) (r.pagePaddr_congr ?_)
    rw [UInt64.toUInt32_and, UInt32.and_assoc, UInt32.and_assoc]
    exact halike.and_eq ht₃ (by decide)
  · intro m₂ h₂
    refine ((triple_touchTable_noted m₂ (r.pdeAddrPae_mod _) h₂.value).bind fun e => ?_) m₂ rfl
    rintro m₃ ⟨hn₂, ht₂⟩
    have hn₃ := (h₁.noted.trans h₂.noted).trans hn₂
    refine ((triple_ldqPhys_entry (a := r.pteAddrPae e.toUInt32 addr) m₃).bind fun pte =>
      .ite (fun _ => .pure fun _ h => ⟨hn₃.trans h.noted, trivial⟩) fun hpte =>
      .ite (fun _ => .pure fun _ h => ⟨hn₃.trans h.noted, trivial⟩) fun _ =>
      .ite (fun _ => .pure fun _ h => ⟨hn₃.trans h.noted, trivial⟩) fun _ => ?_) m₃ rfl
    intro m₄ h₄
    refine ((triple_touchPage_noted m₄ access (r.pteAddrPae_mod _) h₄.value).bind fun e' =>
      .pure ?_) m₄ rfl
    rintro m₅ ⟨hn₄, ht₄⟩
    have hn₅ := h₄.noted.trans hn₄
    refine ⟨hn₃.trans hn₅, fun hio => ?_⟩
    obtain ⟨pdpe', pde', hpdpe', hpde', halike⟩ :=
      h₁.directory hpdpe h₂ hpresent (hn₂.trans hn₅) hio
    obtain ⟨pte', hpte', halike'⟩ := h₄.inTable (r.pteAddrPae_mod _) hpte hn₄
      (le_antisymm (hio.le.trans hn₃.io) hn₅.io)
    have hflag := halike.flag (k := 0x80) (by decide)
    have haddr : r.pteAddrPae e.toUInt32 addr = r.pteAddrPae pde' addr := by
      rw [MmuRegs.pteAddrPae, halike.and_eq ht₂ (by decide), MmuRegs.pteAddrPae]
    refine .smallPae hpg hpae hpdpe' hpde' (fun h => hsmall (hflag.symm.trans_ne h))
      (haddr ▸ hpte') (r.pagePaddr_congr ?_)
    rw [UInt64.toUInt32_and, UInt32.and_assoc]
    exact halike'.and_eq ht₄ (k := targetPageMask) (by decide)

/-- **What the MMU finds is what the tables map.** -/
theorem triple_walkTables_maps (hpg : r.cr0 &&& cr0PgMask ≠ 0) (m : Qemu) :
    Triple (· = m) (walkTables hw r addr access mmu)
      (fun w m' => Noted m m' ∧ w.Found hw r addr m m') (fun _ _ => False) :=
  .ite (fun hpae => triple_walkPae_maps hpg hpae m) fun hpae =>
    triple_walkLegacy_maps hpg (not_not.mp hpae) m

end Tables

/-! ### The walk of the debugger -/

section Debugger

variable {hw : Board} {r : MmuRegs} {m : Qemu} {c : ℕ} {a addr page : Addr32} {w : Word32}

/-- An entry in memory is read without a trace. -/
theorem InTable.read {α : Type} {f : Word32 → Emu α} {Q : α → Qemu → Prop}
    {E : Exit → Qemu → Prop} (h : InTable hw m.ram a w) (hf : Triple (· = m) (f w) Q E) :
    Triple (· = m) (ldlPhys hw a >>= f) Q E := by
  refine Triple.bind (Q := fun v m' => v = w ∧ m' = m)
    (.ite (fun hio => absurd hio h.memory) fun _ => .get_bind ?_) fun v => ?_
  · rintro m rfl _ rfl
    exact ⟨h.word, rfl⟩
  · rintro _ ⟨rfl, rfl⟩
    exact hf _ rfl

theorem MmuRegs.pagePaddr_of_a20 (ha20 : r.a20Mask = 0xffffffff) (pte pageSize : Word32) :
    r.pagePaddr pte pageSize addr =
      (pte &&& targetPageMask) + (addr &&& targetPageMask &&& (pageSize - 1)) := by
  rw [MmuRegs.pagePaddr, ha20, UInt32.and_assoc]
  rfl

theorem Maps.triple_debug (h : Maps hw r m.ram addr page) (hr : (m.cpus c).regs = r)
    (hpae : r.cr4 &&& cr4PaeMask ≠ 0 → r.cr0 &&& cr0PgMask ≠ 0 ∧ r.a20Mask = 0xffffffff) :
    Triple (· = m) (cpuGetPhysPageDebug hw c addr) (fun p m' => p = some page ∧ m' = m)
      (fun _ _ => False) := by
  refine .get_bind ?_
  rintro m rfl
  simp only [hr]
  cases h with
  | unpaged hpg hpage =>
      refine .ite (fun h => absurd hpg (hpae h).1) fun _ => .ite (fun _ => .pure ?_) fun h =>
        absurd hpg h
      rintro _ rfl
      exact ⟨congrArg some hpage.symm, rfl⟩
  | large hpg hpae hpde hlarge hpage =>
      refine .ite (fun h => absurd hpae h) fun _ => .ite (fun h => absurd h hpg) fun _ =>
        hpde.read (.ite (fun h => absurd h hpde.present) fun _ =>
          .ite (fun _ => .pure ?_) fun h => absurd hlarge h)
      rintro _ rfl
      exact ⟨congrArg some hpage.symm, rfl⟩
  | small hpg hpae hpde hsmall hpte hpage =>
      refine .ite (fun h => absurd hpae h) fun _ => .ite (fun h => absurd h hpg) fun _ =>
        hpde.read (.ite (fun h => absurd h hpde.present) fun _ =>
          .ite (fun h => absurd h hsmall) fun _ =>
            hpte.read (.ite (fun h => absurd h hpte.present) fun _ => .pure ?_))
      rintro _ rfl
      exact ⟨congrArg some hpage.symm, rfl⟩
  | largePae hpg hpae' hpdpe hpde hlarge hpage =>
      refine .ite (fun _ => ?_) fun h => absurd hpae' h
      refine hpdpe.read (.ite (fun h => absurd h hpdpe.present) fun _ =>
        hpde.read (.ite (fun h => absurd h hpde.present) fun _ =>
          .ite (fun _ => .pure ?_) fun h => absurd hlarge h))
      rintro _ rfl
      rw [hpage, r.pagePaddr_of_a20 (hpae hpae').2]
      exact ⟨rfl, rfl⟩
  | smallPae hpg hpae' hpdpe hpde hsmall hpte hpage =>
      refine .ite (fun _ => ?_) fun h => absurd hpae' h
      refine hpdpe.read (.ite (fun h => absurd h hpdpe.present) fun _ =>
        hpde.read (.ite (fun h => absurd h hpde.present) fun _ =>
          .ite (fun h => absurd h hsmall) fun _ => hpte.read (.pure ?_)))
      rintro _ rfl
      rw [hpage, r.pagePaddr_of_a20 (hpae hpae').2]
      exact ⟨rfl, rfl⟩

/-- **The debugger finds what the tables map.** -/
theorem Maps.cpuGetPhysPageDebug (h : Maps hw r m.ram addr page) (hr : (m.cpus c).regs = r)
    (hpae : r.cr4 &&& cr4PaeMask ≠ 0 → r.cr0 &&& cr0PgMask ≠ 0 ∧ r.a20Mask = 0xffffffff) :
    MemCheck.cpuGetPhysPageDebug hw c addr m = .ok (some page) m := by
  obtain ⟨p, m', hres, rfl, rfl⟩ := (h.triple_debug hr hpae).exists_ok rfl
  exact hres

/-! ### Pages -/

theorem mask_shiftRight_and (addr : Addr32) {n k : Word32}
    (hk : (targetPageMask >>> n) &&& k = k) :
    ((addr &&& targetPageMask) >>> n) &&& k = (addr >>> n) &&& k := by
  rw [UInt32.shiftRight_and, UInt32.and_assoc, hk]

theorem MmuRegs.pagePaddr_mask (pte pageSize : Word32) :
    r.pagePaddr pte pageSize (addr &&& targetPageMask) = r.pagePaddr pte pageSize addr := by
  rw [MmuRegs.pagePaddr, UInt32.and_assoc addr, UInt32.and_self, MmuRegs.pagePaddr]

/-- A page is mapped as a whole. -/
theorem Maps.mask {ram : Addr32 → UInt8} (h : Maps hw r ram addr page) :
    Maps hw r ram (addr &&& targetPageMask) page := by
  have hpde : r.pdeAddr (addr &&& targetPageMask) = r.pdeAddr addr := by
    rw [MmuRegs.pdeAddr, mask_shiftRight_and addr (by decide), MmuRegs.pdeAddr]
  have hpte : ∀ pde, r.pteAddr pde (addr &&& targetPageMask) = r.pteAddr pde addr := fun pde => by
    rw [MmuRegs.pteAddr, mask_shiftRight_and addr (by decide), MmuRegs.pteAddr]
  have hpdpePae : r.pdpeAddrPae (addr &&& targetPageMask) = r.pdpeAddrPae addr := by
    rw [MmuRegs.pdpeAddrPae, mask_shiftRight_and addr (by decide), MmuRegs.pdpeAddrPae]
  have hpdePae : ∀ pdpe, r.pdeAddrPae pdpe (addr &&& targetPageMask) = r.pdeAddrPae pdpe addr :=
    fun pdpe => by
      rw [MmuRegs.pdeAddrPae, mask_shiftRight_and addr (by decide), MmuRegs.pdeAddrPae]
  have hptePae : ∀ pde, r.pteAddrPae pde (addr &&& targetPageMask) = r.pteAddrPae pde addr :=
    fun pde => by
      rw [MmuRegs.pteAddrPae, mask_shiftRight_and addr (by decide), MmuRegs.pteAddrPae]
  cases h with
  | unpaged hpg hpage =>
      refine .unpaged hpg (hpage.trans ?_)
      rw [r.pagePaddr_mask]
      refine r.pagePaddr_congr ?_
      rw [UInt32.and_assoc, UInt32.and_self]
  | large hpg hpae htable hlarge hpage =>
      rw [← hpde] at htable
      rw [← r.pagePaddr_mask] at hpage
      exact .large hpg hpae htable hlarge hpage
  | small hpg hpae htable hsmall htable' hpage =>
      rw [← hpde] at htable
      rw [← hpte] at htable'
      rw [← r.pagePaddr_mask] at hpage
      exact .small hpg hpae htable hsmall htable' hpage
  | largePae hpg hpae htable htable' hlarge hpage =>
      rw [← hpdpePae] at htable
      rw [← hpdePae] at htable'
      rw [← r.pagePaddr_mask] at hpage
      exact .largePae hpg hpae htable htable' hlarge hpage
  | smallPae hpg hpae htable htable' hsmall htable'' hpage =>
      rw [← hpdpePae] at htable
      rw [← hpdePae] at htable'
      rw [← hptePae] at htable''
      rw [← r.pagePaddr_mask] at hpage
      exact .smallPae hpg hpae htable htable' hsmall htable'' hpage

theorem Maps.pageOffset_eq {ram : Addr32 → UInt8} (h : Maps hw r ram addr page) :
    pageOffset page = 0 := by
  cases h <;> subst_vars <;> exact r.pageOffset_pagePaddr _ _ _

end Debugger

/-! ### Faults -/

/-- **A page that is entered into the table is mapped**, unless a device was asked. -/
theorem triple_cpuX86HandleMmuFault_maps {hw : Board} {c : ℕ} {addr : Addr32} {access : Access}
    {mmu : MmuIdx} (m : Qemu) :
    Triple (· = m) (cpuX86HandleMmuFault hw c addr access mmu)
      (fun fault m' => fault = false → m'.io.length = m.io.length →
        ∃ (m₁ : Qemu) (page : Addr32) (prot : Prot), m₁.cpus = m.cpus ∧ prot.read = true ∧
          Maps hw (m.cpus c).regs m₁.ram addr page ∧
          m' = m₁.tlbSetPageExec hw c (addr &&& targetPageMask) page prot mmu)
      (fun _ _ => False) := by
  refine .get_bind ?_
  rintro m rfl
  refine .ite (fun hpg => ?_) fun hpg => ?_
  · rintro m rfl _ _
    exact ⟨m, _, _, rfl, rfl, .unpaged hpg rfl, rfl⟩
  · refine (triple_walkTables_maps hpg m).bind fun w => ?_
    rintro m₁ ⟨hn, hfound⟩
    cases w with
    | fault errorCode => exact fun h => by cases h
    | page pte ptep pageSize => exact fun _ hio => ⟨m₁, _, _, hn.cpus, rfl, hfound hio, rfl⟩

end MemCheck
