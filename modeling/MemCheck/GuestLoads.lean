import MemCheck.PageTables
import MemCheck.TlbInvariant

/-!
# What Loads Do

A load changes little: entries of `tlb_table` may be made, and the walk through the page tables
notes in them what is accessed. `Calm` says so.
-/

namespace MemCheck

open LongJump (Triple Within)

/-! ### What a load leaves alone -/

/-- The byte has been written without a look at code. -/
def Qemu.Unseen (m : Qemu) (a : Addr32) : Prop := ∃ w ∈ m.unseen, (a - w).toNat < 4

/-- The byte is at the address in memory, unless it has been written without a look at code. -/
def Qemu.Holds (m : Qemu) (a : Addr32) (b : UInt8) : Prop := m.ram a = b ∨ m.Unseen a

/-- The entries of `S` may have been made anew, and memory written that is noted as such. -/
structure Calm (hw : Board) (S : Set (ℕ × MmuIdx × Word32)) (m m' : Qemu) : Prop where
  cache : m'.cache = m.cache
  dirty : m'.dirty = m.dirty
  single : m'.single = m.single
  source : m'.source = m.source
  env : ∀ c, (m'.cpus c).env = (m.cpus c).env
  hflags : ∀ c, (m'.cpus c).regs.hflags = (m.cpus c).regs.hflags
  unseen : ∀ a, m.Unseen a → m'.Unseen a
  ram : ∀ a, m'.ram a = m.ram a ∨ m'.Unseen a
  tlb : ∀ c mmu i, (m'.cpus c).tlbTable mmu i = (m.cpus c).tlbTable mmu i ∨
    (c, mmu, i) ∈ S ∧ ((m'.cpus c).tlbTable mmu i).Ok hw m.dirty

section Calm

variable {hw : Board} {S S' : Set (ℕ × MmuIdx × Word32)} {m m' m'' : Qemu} {F : Exit → Prop}

theorem Calm.refl (m : Qemu) : Calm hw S m m :=
  ⟨rfl, rfl, rfl, rfl, fun _ => rfl, fun _ => rfl, fun _ h => h, fun _ => .inl rfl,
    fun _ _ _ => .inl rfl⟩

theorem Calm.trans (h : Calm hw S m m') (h' : Calm hw S m' m'') : Calm hw S m m'' := by
  refine ⟨h'.cache.trans h.cache, h'.dirty.trans h.dirty, h'.single.trans h.single,
    h'.source.trans h.source, fun c => (h'.env c).trans (h.env c),
    fun c => (h'.hflags c).trans (h.hflags c), fun a ha => h'.unseen a (h.unseen a ha),
    fun a => ?_, fun c mmu i => ?_⟩
  · rcases h'.ram a with heq | hun
    · rcases h.ram a with heq' | hun
      · exact .inl (heq.trans heq')
      · exact .inr (h'.unseen a hun)
    · exact .inr hun
  · rcases h'.tlb c mmu i with heq | ⟨hS, hok⟩
    · rw [heq]
      exact h.tlb c mmu i
    · exact .inr ⟨hS, h.dirty ▸ hok⟩

/-- What is noted of an access is read by devices and the checker only. -/
theorem Calm.log (m : Qemu) (io : List IoAccess) (announced : List (Addr32 × ℕ)) :
    Calm hw S m { m with io := io, announced := announced } :=
  ⟨rfl, rfl, rfl, rfl, fun _ => rfl, fun _ => rfl, fun _ h => h, fun _ => .inl rfl,
    fun _ _ _ => .inl rfl⟩

instance : Std.Refl (Calm hw S) := ⟨Calm.refl⟩

instance : IsTrans Qemu (Calm hw S) := ⟨fun _ _ _ => Calm.trans⟩

theorem Calm.mono (h : Calm hw S m m') (hS : S ⊆ S') : Calm hw S' m m' :=
  { h with tlb := fun c mmu i => (h.tlb c mmu i).imp id fun ⟨hmem, hok⟩ => ⟨hS hmem, hok⟩ }

theorem Calm.holds (h : Calm hw S m m') {a : Addr32} {b : UInt8} (hb : m.Holds a b) :
    m'.Holds a b := by
  rcases hb with hb | hun
  · rcases h.ram a with heq | hun
    · exact .inl (heq.trans hb)
    · exact .inr hun
  · exact .inr (h.unseen a hun)

/-- The tables stay as they should be. -/
theorem Calm.tlbOk (h : Calm hw S m m') (hok : m.TlbOk hw) : m'.TlbOk hw := by
  intro c mmu i
  rw [h.dirty]
  rcases h.tlb c mmu i with heq | ⟨-, hnew⟩
  · rw [heq]
    exact hok c mmu i
  · exact hnew

/-! ### The walk through the page tables -/

theorem within_ioMemRead {index : Word32} {shift : ℕ} {addr : Addr32} :
    Within (Calm hw S) F (ioMemRead hw index shift addr) :=
  Within.modifyGet fun m => .log m _ _

theorem within_ioMemWrite {index : Word32} {shift : ℕ} {addr : Addr32} {val : Word32} :
    Within (Calm hw S) F (ioMemWrite index shift addr val) :=
  Within.modifyGet fun m => .log m _ _

theorem within_ldlPhys {addr : Addr32} : Within (Calm hw S) F (ldlPhys hw addr) :=
  .ite (fun _ => within_ioMemRead) fun _ => .get_bind fun _ => .pure _

theorem within_ldqPhys {addr : Addr32} : Within (Calm hw S) F (ldqPhys hw addr) :=
  .ite (fun _ => .bind within_ioMemRead fun _ => .bind within_ioMemRead fun _ => .pure _)
    fun _ => .get_bind fun _ => .pure _

/-- A byte outside of what is written stays as it is. -/
theorem stRaw_of_not_lt {ram : Addr32 → UInt8} {a x : Addr32} {n val : ℕ} (hn : n ≤ 2 ^ 32)
    (h : ¬ (x - a).toNat < n) : stRaw ram a n val x = ram x := by
  rw [stRaw, Bytes.writeBytes_apply (by rw [Bytes.length_leBytes]; exact hn),
    List.getElem?_eq_none (by rw [Bytes.length_leBytes]; omega), Option.getD_none]

theorem within_stlPhysNotdirty {addr : Addr32} {val : Word32} :
    Within (Calm hw S) F (stlPhysNotdirty hw addr val) := by
  refine .ite (fun _ => within_ioMemWrite) fun _ => Within.modifyGet fun m => ?_
  refine ⟨rfl, rfl, rfl, rfl, fun _ => rfl, fun _ => rfl,
    fun a ⟨w, hw, ha⟩ => ⟨w, List.mem_cons_of_mem _ hw, ha⟩, fun a => ?_,
    fun _ _ _ => .inl rfl⟩
  by_cases ha : (a - ramAddr (hw.physOffset addr) addr).toNat < 4
  · exact .inr ⟨_, List.mem_cons_self, ha⟩
  · exact .inl (stRaw_of_not_lt (by omega) ha)

theorem within_touchTable {addr : Addr32} {entry : UInt64} :
    Within (Calm hw S) F (touchTable hw addr entry) :=
  .ite (fun _ => .bind within_stlPhysNotdirty fun _ => .pure _) fun _ => .pure _

theorem within_touchPage {addr : Addr32} {entry : UInt64} {access : Access} :
    Within (Calm hw S) F (touchPage hw addr entry access) :=
  .ite (fun _ => .bind within_stlPhysNotdirty fun _ => .pure _) fun _ => .pure _

theorem within_walkLegacy {r : MmuRegs} {addr : Addr32} {access : Access} {mmu : MmuIdx} :
    Within (Calm hw S) F (walkLegacy hw r addr access mmu) := by
  refine .bind within_ldlPhys fun pde => .ite (fun _ => .pure _) fun _ =>
    .ite (fun _ => ?_) fun _ => ?_
  · refine .ite (fun _ => .pure _) fun _ => .bind within_touchPage fun _ => .pure _
  · refine .bind within_touchTable fun _ => .bind within_ldlPhys fun pte =>
      .ite (fun _ => .pure _) fun _ => .ite (fun _ => .pure _) fun _ =>
        .bind within_touchPage fun _ => .pure _

theorem within_walkPae {r : MmuRegs} {addr : Addr32} {access : Access} {mmu : MmuIdx} :
    Within (Calm hw S) F (walkPae hw r addr access mmu) := by
  refine .bind within_ldqPhys fun pdpe => .ite (fun _ => .pure _) fun _ =>
    .bind within_ldqPhys fun pde => .ite (fun _ => .pure _) fun _ =>
      .ite (fun _ => .pure _) fun _ => .ite (fun _ => ?_) fun _ => ?_
  · exact .ite (fun _ => .pure _) fun _ => .bind within_touchPage fun _ => .pure _
  · exact .bind within_touchTable fun _ => .bind within_ldqPhys fun pte =>
      .ite (fun _ => .pure _) fun _ => .ite (fun _ => .pure _) fun _ => .ite (fun _ => .pure _)
        fun _ => .bind within_touchPage fun _ => .pure _

/-- A page that a walk finds is a whole page. -/
theorem pageOffset_page (x k : Word32) (addr : Addr32) :
    pageOffset ((x &&& targetPageMask) + (addr &&& targetPageMask &&& k)) = 0 := by
  have hrest : pageOffset (addr &&& targetPageMask &&& k) = 0 := by
    rw [pageOffset, UInt32.and_assoc, UInt32.and_comm k, ← UInt32.and_assoc,
      UInt32.and_assoc addr, UInt32.and_not_self, UInt32.and_zero, UInt32.zero_and]
  rw [pageOffset_add hrest, pageOffset_mask]

theorem MmuRegs.pageOffset_pagePaddr (r : MmuRegs) (pte pageSize : Word32) (addr : Addr32) :
    pageOffset (r.pagePaddr pte pageSize addr) = 0 :=
  pageOffset_page _ _ addr

theorem tlbIndex_mask (addr : Addr32) : tlbIndex (addr &&& targetPageMask) = tlbIndex addr := by
  rw [tlbIndex, pageIndex_mask, tlbIndex]

/-- Making an entry. -/
theorem Calm.tlbSetPageExec (hhw : hw.Ok) (m : Qemu) (c : ℕ) {vaddr paddr : Addr32}
    (hv : pageOffset vaddr = 0) (hp : pageOffset paddr = 0) (prot : Prot) (mmu : MmuIdx) :
    Calm hw {(c, mmu, tlbIndex vaddr)} m (m.tlbSetPageExec hw c vaddr paddr prot mmu) := by
  refine ⟨rfl, rfl, rfl, rfl, Qemu.setCpu_eq CpuState.env rfl,
    Qemu.setCpu_eq (fun cpu => cpu.regs.hflags) rfl, fun _ h => h, fun _ => .inl rfl,
    fun c' mmu' i => ?_⟩
  rw [Qemu.tlbTable_tlbSetPageExec]
  split_ifs with heq
  · exact .inr ⟨heq, Qemu.tlbEntryFor_ok hhw hv hp prot⟩
  · exact .inl rfl

theorem mask_or_eq (addr : Addr32) {x : Word32}
    (hx : x &&& (targetPageMask ||| tlbInvalidMask) = 0) :
    addr &&& targetPageMask =
      ((addr &&& targetPageMask) ||| x) &&& (targetPageMask ||| tlbInvalidMask) := by
  rw [or_and_distrib, hx, UInt32.or_zero, UInt32.and_assoc]
  rfl

theorem mask_pageAddress (hhw : hw.Ok) (addr paddr : Addr32) :
    addr &&& targetPageMask = pageAddress (addr &&& targetPageMask) (hw.physOffset paddr) &&&
      (targetPageMask ||| tlbInvalidMask) := by
  rw [pageAddress]
  split_ifs with hio
  · refine mask_or_eq addr ?_
    rw [UInt32.and_comm, or_and_distrib, UInt32.and_comm targetPageMask, hhw.device paddr hio,
      UInt32.and_comm tlbInvalidMask, hhw.valid paddr]
    rfl
  · rw [UInt32.and_assoc]
    rfl

theorem Qemu.mask_writeAddress (hhw : hw.Ok) (m : Qemu) (addr paddr : Addr32) :
    addr &&& targetPageMask = m.writeAddress (addr &&& targetPageMask) (hw.physOffset paddr) &&&
      (targetPageMask ||| tlbInvalidMask) := by
  rw [Qemu.writeAddress]
  split_ifs
  · refine mask_or_eq addr ?_
    rw [UInt32.and_assoc]
    exact hhw.valid paddr
  · exact mask_or_eq addr (by decide)
  · exact mask_pageAddress hhw addr paddr

/-- An entry with the right for an access is found by it. -/
theorem Qemu.matches_tlbEntryFor (hhw : hw.Ok) {addr paddr : Addr32} {prot : Prot}
    {access : Access} (h : prot.allows access = true) :
    (m.tlbEntryFor hw (addr &&& targetPageMask) paddr prot).Matches access addr := by
  cases access with
  | read =>
      simp only [Prot.allows] at h
      simp only [TlbEntry.Matches, TlbEntry.addrFor, Qemu.tlbEntryFor, h, if_true]
      exact mask_pageAddress hhw addr paddr
  | write =>
      simp only [Prot.allows] at h
      simp only [TlbEntry.Matches, TlbEntry.addrFor, Qemu.tlbEntryFor, h, if_true]
      exact m.mask_writeAddress hhw addr paddr
  | fetch =>
      simp only [Prot.allows] at h
      simp only [TlbEntry.Matches, TlbEntry.addrFor, Qemu.tlbEntryFor, h, if_true]
      exact mask_pageAddress hhw addr paddr

/-! ### Filling the table -/

variable {c : ℕ} {addr : Addr32} {access : Access} {mmu : MmuIdx}

/-- An entry made by a walk. -/
theorem Calm.fill (hhw : hw.Ok) (m : Qemu) (r : MmuRegs) {pte pageSize : Word32} {prot : Prot} :
    Calm hw {(c, mmu, tlbIndex addr)} m (m.tlbSetPageExec hw c (addr &&& targetPageMask)
      (r.pagePaddr pte pageSize addr) prot mmu) := by
  have h := Calm.tlbSetPageExec hhw m c (pageOffset_mask addr)
    (r.pageOffset_pagePaddr pte pageSize addr) prot mmu
  rwa [tlbIndex_mask] at h

theorem Qemu.tlbAt_fill (m : Qemu) (vaddr paddr : Addr32) (prot : Prot) :
    ((m.tlbSetPageExec hw c (vaddr &&& targetPageMask) paddr prot mmu).cpus c).tlbAt mmu vaddr =
      m.tlbEntryFor hw (vaddr &&& targetPageMask) paddr prot := by
  rw [CpuState.tlbAt, Qemu.tlbTable_tlbSetPageExec, tlbIndex_mask, if_pos rfl]

/-- The registers that report a fault. -/
theorem Calm.setRegs (m : Qemu) (c : ℕ) {f : CpuState → CpuState}
    (henv : (f (m.cpus c)).env = (m.cpus c).env)
    (hflags : (f (m.cpus c)).regs.hflags = (m.cpus c).regs.hflags)
    (htlb : (f (m.cpus c)).tlbTable = (m.cpus c).tlbTable) : Calm hw S m (m.setCpu c f) :=
  ⟨rfl, rfl, rfl, rfl, Qemu.setCpu_eq CpuState.env henv,
    Qemu.setCpu_eq (fun cpu => cpu.regs.hflags) hflags, fun _ h => h, fun _ => .inl rfl,
    fun c' mmu i => .inl (congrFun (congrFun (Qemu.setCpu_eq CpuState.tlbTable htlb c') mmu) i)⟩

/-- A walk, and what it grants. -/
theorem triple_walkTables (m : Qemu) (r : MmuRegs) :
    Triple (· = m) (walkTables hw r addr access mmu)
      (fun w m' => Calm hw S m m' ∧ w.Grants r mmu access) (fun _ _ => False) := by
  refine .ite (fun _ => ?_) fun _ => ?_
  · exact ((within_walkPae (F := fun _ => False) m).and
      (triple_walkPae.strengthen_pre fun _ _ => trivial)).weaken_exit fun _ _ h => h.2
  · exact ((within_walkLegacy (F := fun _ => False) m).and
      (triple_walkLegacy.strengthen_pre fun _ _ => trivial)).weaken_exit fun _ _ h => h.2

/-- **A page fault** is reported, or the page that was missing is found from now on. -/
theorem triple_cpuX86HandleMmuFault (hhw : hw.Ok) (m : Qemu) :
    Triple (· = m) (cpuX86HandleMmuFault hw c addr access mmu)
      (fun fault m' => Calm hw {(c, mmu, tlbIndex addr)} m m' ∧
        (fault = false → ((m'.cpus c).tlbAt mmu addr).Matches access addr))
      (fun _ _ => False) := by
  refine .get_bind ?_
  rintro m rfl
  refine .ite (fun _ => ?_) fun _ => ?_
  · -- paging is off
    rintro _ rfl
    refine ⟨.fill hhw _ _, fun _ => ?_⟩
    rw [Qemu.tlbAt_fill]
    exact Qemu.matches_tlbEntryFor hhw (by cases access <;> rfl)
  · refine (triple_walkTables (S := {(c, mmu, tlbIndex addr)}) m _).bind fun w => ?_
    rintro m₁ ⟨hcalm, hgrants⟩
    cases w with
    | page pte ptep pageSize =>
        refine ⟨hcalm.trans (.fill hhw _ _), fun _ => ?_⟩
        rw [Qemu.tlbAt_fill]
        exact Qemu.matches_tlbEntryFor hhw hgrants
    | fault errorCode =>
        exact ⟨hcalm.trans (.setRegs _ _ rfl rfl rfl), nofun⟩

theorem triple_tlbFill (hhw : hw.Ok) (m : Qemu) (hsingle : m.single = some c) :
    Triple (· = m) (tlbFill hw addr access mmu)
      (fun _ m' => Calm hw {(c, mmu, tlbIndex addr)} m m' ∧
        ((m'.cpus c).tlbAt mmu addr).Matches access addr)
      (fun e m' => e = .exception ∧ Calm hw {(c, mmu, tlbIndex addr)} m m') := by
  refine .get_bind ?_
  rintro m rfl
  rw [hsingle]
  refine ((triple_cpuX86HandleMmuFault hhw m).weaken_exit fun _ _ => False.elim).bind
    fun fault => ?_
  rintro m' ⟨hcalm, hfound⟩
  cases fault with
  | false => exact ⟨hcalm, hfound rfl⟩
  | true => exact ⟨rfl, hcalm⟩

/-- What a look into the table leads to: an entry for the access. If there was one already nothing
has happened. -/
structure TlbFound (hw : Board) (c : ℕ) (access : Access) (mmu : MmuIdx) (addr : Addr32) (m : Qemu)
    (e : TlbEntry) (m' : Qemu) : Prop where
  calm : Calm hw {(c, mmu, tlbIndex addr)} m m'
  entry : (m'.cpus c).tlbAt mmu addr = e
  hit : e.Matches access addr
  same : ((m.cpus c).tlbAt mmu addr).Matches access addr → m' = m

theorem tlbLookup_of_matches {k : ℕ} (h : ((m.cpus c).tlbAt mmu addr).Matches access addr) :
    tlbLookup hw c access mmu addr (k + 1) m = .ok ((m.cpus c).tlbAt mmu addr) m := by
  have heq : tlbLookup hw c access mmu addr (k + 1) m =
      (if ((m.cpus c).tlbAt mmu addr).Matches access addr then
        pure ((m.cpus c).tlbAt mmu addr) else do
          tlbFill hw addr access mmu
          tlbLookup hw c access mmu addr k : Emu TlbEntry) m := rfl
  rw [heq, if_pos h]
  rfl

/-- **The table is filled at most once** for an access. -/
theorem triple_tlbLookup (hhw : hw.Ok) (m : Qemu) (hsingle : m.single = some c)
    (access : Access) (mmu : MmuIdx) (addr : Addr32) :
    Triple (· = m) (tlbLookup hw c access mmu addr redoBound)
      (TlbFound hw c access mmu addr m)
      (fun e m' => e = .exception ∧ Calm hw {(c, mmu, tlbIndex addr)} m m' ∧
        ¬ ((m.cpus c).tlbAt mmu addr).Matches access addr) := by
  by_cases hhit : ((m.cpus c).tlbAt mmu addr).Matches access addr
  · rintro _ rfl
    rw [redoBound, tlbLookup_of_matches hhit]
    exact ⟨.refl _, rfl, hhit, fun _ => rfl⟩
  · refine .get_bind ?_
    rintro m rfl
    rw [if_neg hhit]
    refine ((triple_tlbFill hhw m hsingle).weaken_exit fun _ _ h => ⟨h.1, h.2, hhit⟩).bind
      fun _ => ?_
    rintro m' ⟨hcalm, hhit'⟩
    rw [tlbLookup_of_matches hhit']
    exact ⟨hcalm, rfl, hhit', fun h => absurd h hhit⟩

/-! ### Two pages next to each other -/

/-- The address is on the page of `a`, or on the next one. -/
def Near (a x : Addr32) : Prop :=
  pageIndex x = pageIndex a ∨ pageIndex x = pageIndex (a + targetPageSize)

theorem mask_eq_of_pageIndex {x y : Addr32} (h : pageIndex x = pageIndex y) :
    x &&& targetPageMask = y &&& targetPageMask := by
  have h := congrArg UInt32.toNat h
  rw [toNat_pageIndex, toNat_pageIndex] at h
  refine UInt32.toNat_inj.mp ?_
  rw [toNat_mask, toNat_mask]
  omega

/-- The two pages have different places in the table. -/
theorem Near.pageIndex_eq {a x y : Addr32} (hx : Near a x) (hy : Near a y)
    (h : tlbIndex x = tlbIndex y) : pageIndex x = pageIndex y := by
  have htlb : ∀ z, (tlbIndex z).toNat = z.toNat / 4096 % 256 := fun z => by
    rw [tlbIndex, UInt32.toNat_and, toNat_pageIndex]
    exact Nat.and_two_pow_sub_one_eq_mod _ 8
  have h := congrArg UInt32.toNat h
  rw [htlb, htlb] at h
  have hsize : (targetPageSize : Word32).toNat = 4096 := rfl
  have ha := a.toNat_lt
  have hnext : (pageIndex (a + targetPageSize)).toNat = (a.toNat / 4096 + 1) % 2 ^ 20 := by
    rw [toNat_pageIndex, UInt32.toNat_add, hsize]
    omega
  have hpage := toNat_pageIndex a
  refine UInt32.toNat_inj.mp ?_
  rw [toNat_pageIndex, toNat_pageIndex]
  rcases hx with hx | hx <;> rcases hy with hy | hy <;>
  · have hx := congrArg UInt32.toNat hx
    have hy := congrArg UInt32.toNat hy
    rw [toNat_pageIndex] at hx hy
    omega

theorem tlbIndex_eq_of_pageIndex {x y : Addr32} (h : pageIndex x = pageIndex y) :
    tlbIndex x = tlbIndex y := by
  rw [tlbIndex, h, tlbIndex]

theorem TlbEntry.Matches.of_pageIndex {e : TlbEntry} {x y : Addr32} (h : e.Matches access x)
    (hpage : pageIndex x = pageIndex y) : e.Matches access y := by
  rw [TlbEntry.Matches, ← mask_eq_of_pageIndex hpage]
  exact h

/-- What an access to the pages of `a` changes: an entry that is there stays. -/
structure Steady (hw : Board) (c : ℕ) (access : Access) (mmu : MmuIdx) (a : Addr32)
    (m m' : Qemu) : Prop where
  calm : Calm hw Set.univ m m'
  kept : ∀ x, Near a x → ((m.cpus c).tlbAt mmu x).Matches access x →
    (m'.cpus c).tlbAt mmu x = (m.cpus c).tlbAt mmu x

variable {a : Addr32}

theorem Steady.refl (m : Qemu) : Steady hw c access mmu a m m := ⟨.refl m, fun _ _ _ => rfl⟩

theorem Steady.trans (h : Steady hw c access mmu a m m') (h' : Steady hw c access mmu a m' m'') :
    Steady hw c access mmu a m m'' := by
  refine ⟨h.calm.trans h'.calm, fun x hx hhit => ?_⟩
  have hsame := h.kept x hx hhit
  exact (h'.kept x hx (hsame ▸ hhit)).trans hsame

/-- Filling the table for one page leaves the entry of the other. -/
theorem Calm.steady (h : Calm hw {(c, mmu, tlbIndex addr)} m m') (hnear : Near a addr)
    (hsame : ((m.cpus c).tlbAt mmu addr).Matches access addr → m' = m) :
    Steady hw c access mmu a m m' := by
  refine ⟨h.mono (Set.subset_univ _), fun x hx hhit => ?_⟩
  by_cases hindex : tlbIndex x = tlbIndex addr
  · have hpage := hx.pageIndex_eq hnear hindex
    have hhit' : ((m.cpus c).tlbAt mmu addr).Matches access addr := by
      rw [CpuState.tlbAt, ← hindex]
      exact hhit.of_pageIndex hpage
    rw [hsame hhit']
  · rcases h.tlb c mmu (tlbIndex x) with heq | ⟨hmem, -⟩
    · exact heq
    · exact absurd (congrArg (fun p => p.2.2) (Set.mem_singleton_iff.mp hmem)) hindex

end Calm

end MemCheck
