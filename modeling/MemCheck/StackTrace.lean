import MemCheck.SymbolTable

/-!
# Stack Traces

A report is followed by a stack trace of the guest (`MachineQEMUi386.cpp`).
`RecurseStackTrace` follows the saved frame pointers from `EBP` and prints the return address
of each frame, up to a depth of `20`. It reads the guest's memory with `cpu_memory_rw_debug`
(`exec.c`), page by page, and ignores what that returns: a word that cannot be read leaves the
variable it was read into, or some of its bytes, as they were.

The guest's memory is a partial map from pages to physical ones; `DebuggerReads` has the map for
a state of the emulator. The host is little-endian, as the guest is. The value the uninitialised
`returnAddress` has in each iteration is a parameter; a compiler that keeps it in one place makes
it the value of the iteration before.

## Main results

* `cpuMemoryRwDebug_eq`: the page-wise copy reads byte by byte up to the first unmapped page;
* `length_recurseStackTrace_le`: a trace ends, also on a cyclic chain of frames;
* `recurse_stack_trace_real_iff`: when a trace lists the real frames.
-/

namespace MemCheck

/-! ### Reading the guest's memory -/

/-- The guest's memory as the debugger sees it: the physical page behind each page, which
`cpu_get_phys_page_debug` returns, and the bytes that `cpu_physical_memory_rw` reads. -/
structure GuestMemory where
  physPage : ℕ → Option ℕ
  physical : ℕ → UInt8

namespace GuestMemory

/-- `cpu_memory_rw_debug(env, addr, buf, len, 0)`: the value returned, and `buf` afterwards. -/
def cpuMemoryRwDebug (m : GuestMemory) (addr : Addr32) (buf : List UInt8) : ℤ × List UInt8 :=
  if 0 < buf.length then
    match m.physPage (addr.toNat / 4096) with
    -- if no physical page mapped, return an error
    | none => (-1, buf)
    | some page =>
        let l := min (4096 - addr.toNat % 4096) buf.length
        let rest := m.cpuMemoryRwDebug (addr + UInt32.ofNat l) (buf.drop l)
        (rest.1, (List.range l).map (fun i => m.physical (page + addr.toNat % 4096 + i)) ++ rest.2)
  else
    (0, buf)
termination_by buf.length
decreasing_by
  rw [List.length_drop]
  omega

/-- The byte at an address, if its page is mapped. -/
def byte (m : GuestMemory) (addr : Addr32) : Option UInt8 :=
  (m.physPage (addr.toNat / 4096)).map fun page => m.physical (page + addr.toNat % 4096)

/-- The bytes from an address on, if all of their pages are mapped. -/
def bytes (m : GuestMemory) (addr : Addr32) : ℕ → Option (List UInt8)
  | 0 => some []
  | n + 1 =>
      match m.byte addr, m.bytes (addr + 1) n with
      | some b, some bs => some (b :: bs)
      | _, _ => none

/-- A buffer with the bytes from an address on, up to the first that is not mapped. -/
def fill (m : GuestMemory) (addr : Addr32) : List UInt8 → List UInt8
  | [] => []
  | old :: buf =>
      match m.byte addr with
      | some b => b :: m.fill (addr + 1) buf
      | none => old :: buf

variable {m : GuestMemory} {addr : Addr32} {buf : List UInt8}

theorem fill_of_bytes {bs : List UInt8} (h : m.bytes addr buf.length = some bs) :
    m.fill addr buf = bs := by
  induction buf generalizing addr bs with
  | nil => exact Option.some.inj h
  | cons old buf ih =>
      rw [List.length_cons, bytes] at h
      rw [fill]
      cases hb : m.byte addr with
      | none => simp [hb] at h
      | some b =>
          cases hbs : m.bytes (addr + 1) buf.length with
          | none => simp [hb, hbs] at h
          | some bs' =>
              simp only [hb, hbs, Option.some.injEq] at h
              rw [← h, ih hbs]

/-- The addresses of one page follow each other. -/
theorem toNat_add_ofNat {i : ℕ} (h : addr.toNat % 4096 + i < 4096) :
    (addr + UInt32.ofNat i).toNat = addr.toNat + i := by
  have haddr := addr.toNat_lt
  rw [UInt32.toNat_add, UInt32.toNat_ofNat']
  omega

/-- The bytes of a mapped page. -/
theorem byte_of_page {page i : ℕ} (hpage : m.physPage (addr.toNat / 4096) = some page)
    (h : addr.toNat % 4096 + i < 4096) :
    m.byte (addr + UInt32.ofNat i) = some (m.physical (page + addr.toNat % 4096 + i)) := by
  have hdiv : (addr.toNat + i) / 4096 = addr.toNat / 4096 := by omega
  have hmod : page + (addr.toNat + i) % 4096 = page + addr.toNat % 4096 + i := by omega
  rw [byte, toNat_add_ofNat h, hdiv, hpage, Option.map_some, hmod]

theorem ofNat_succ (addr : Addr32) (i : ℕ) :
    addr + UInt32.ofNat (i + 1) = addr + 1 + UInt32.ofNat i := by
  rw [UInt32.ofNat_add, UInt32.add_comm (UInt32.ofNat i), ← UInt32.add_assoc]
  rfl

theorem add_ofNat_zero (addr : Addr32) : addr + UInt32.ofNat 0 = addr := UInt32.add_zero addr

/-- Readable bytes are filled in one by one. -/
theorem fill_append {g : ℕ → UInt8} {l : ℕ} (hl : l ≤ buf.length)
    (h : ∀ i < l, m.byte (addr + UInt32.ofNat i) = some (g i)) :
    m.fill addr buf = (List.range l).map g ++ m.fill (addr + UInt32.ofNat l) (buf.drop l) := by
  induction l generalizing addr buf g with
  | zero =>
      rw [add_ofNat_zero]
      rfl
  | succ l ih =>
      obtain ⟨old, buf, rfl⟩ := List.exists_cons_of_length_pos (Nat.lt_of_lt_of_le l.succ_pos hl)
      have hfirst := h 0 l.succ_pos
      rw [add_ofNat_zero] at hfirst
      rw [fill, hfirst, List.range_succ_eq_map, List.map_cons, List.map_map, List.drop_succ_cons,
        ofNat_succ, List.cons_append]
      refine congrArg (g 0 :: ·) (ih (Nat.le_of_succ_le_succ hl) fun i hi => ?_)
      rw [← ofNat_succ]
      exact h (i + 1) (Nat.succ_lt_succ hi)

/-- The bytes after readable ones decide whether all are. -/
theorem bytes_isSome_add {g : ℕ → UInt8} {l n : ℕ}
    (h : ∀ i < l, m.byte (addr + UInt32.ofNat i) = some (g i)) :
    (m.bytes addr (l + n)).isSome = (m.bytes (addr + UInt32.ofNat l) n).isSome := by
  induction l generalizing addr g with
  | zero => rw [Nat.zero_add, add_ofNat_zero]
  | succ l ih =>
      have hfirst := h 0 l.succ_pos
      rw [add_ofNat_zero] at hfirst
      have hlater : ∀ i < l, m.byte (addr + 1 + UInt32.ofNat i) = some (g (i + 1)) := by
        intro i hi
        rw [← ofNat_succ]
        exact h (i + 1) (Nat.succ_lt_succ hi)
      have hrest := ih hlater
      rw [Nat.succ_add, bytes, hfirst, ofNat_succ, ← hrest]
      cases m.bytes (addr + 1) (l + n) <;> rfl

/-- **The page-wise copy reads byte by byte.** It fills the buffer up to the first byte on a
page that is not mapped, and returns `0` if there is none. -/
theorem cpuMemoryRwDebug_eq (m : GuestMemory) (addr : Addr32) (buf : List UInt8) :
    m.cpuMemoryRwDebug addr buf =
      (if (m.bytes addr buf.length).isSome then 0 else -1, m.fill addr buf) := by
  -- induction along the copied pages
  induction hn : buf.length using Nat.strong_induction_on generalizing addr buf with
  | _ n ih =>
  rw [cpuMemoryRwDebug]
  by_cases hpos : 0 < buf.length
  · rw [if_pos hpos]
    obtain ⟨old, buf, rfl⟩ := List.exists_cons_of_length_pos hpos
    cases hpage : m.physPage (addr.toNat / 4096) with
    | none =>
        have hbyte : m.byte addr = none := by rw [byte, hpage, Option.map_none]
        rw [fill, ← hn, List.length_cons, bytes, hbyte]
        rfl
    | some page =>
        generalize hl : min (4096 - addr.toNat % 4096) (old :: buf).length = l
        have hle : l ≤ (old :: buf).length := hl ▸ Nat.min_le_right _ _
        have hbytes : ∀ i < l, m.byte (addr + UInt32.ofNat i) =
            some (m.physical (page + addr.toNat % 4096 + i)) :=
          fun i hi => byte_of_page hpage (by omega)
        have hrest := ih (n - l) (by omega) (addr + UInt32.ofNat l) ((old :: buf).drop l)
          (by rw [List.length_drop, hn])
        have hsplit : n = l + (n - l) := by omega
        simp only
        rw [hrest, fill_append hle hbytes, ← bytes_isSome_add hbytes, ← hsplit]
  · obtain rfl := List.eq_nil_of_length_eq_zero (Nat.eq_zero_of_not_pos hpos)
    rw [if_neg hpos, ← hn]
    rfl

end GuestMemory

/-! ### Words -/

/-- The bytes of a variable. -/
def bytesOf (w : Addr32) : List UInt8 :=
  [w.toUInt8, (w >>> 8).toUInt8, (w >>> 16).toUInt8, (w >>> 24).toUInt8]

/-- The variable with the given bytes. -/
def wordOf (bs : List UInt8) : Addr32 := bs.foldr (fun b w => b.toUInt32 + 256 * w) 0

theorem wordOf_bytesOf (w : Addr32) : wordOf (bytesOf w) = w := by
  have hw := w.toNat_lt
  rw [← UInt32.toNat_inj]
  simp only [wordOf, bytesOf, List.foldr_cons, List.foldr_nil, UInt32.toNat_add, UInt32.toNat_mul,
    UInt8.toNat_toUInt32, UInt32.toNat_toUInt8, UInt32.toNat_shiftRight, UInt32.toNat_ofNat,
    Nat.shiftRight_eq_div_pow, Nat.reducePow, Nat.reduceMod]
  omega

namespace GuestMemory

/-- `cpu_memory_rw_debug` into a variable that holds `old`: the variable afterwards. -/
def readWord (m : GuestMemory) (addr : Addr32) (old : Addr32) : Addr32 :=
  wordOf (m.cpuMemoryRwDebug addr (bytesOf old)).2

/-- The word at an address, if all of its bytes are mapped. -/
def word (m : GuestMemory) (addr : Addr32) : Option Addr32 := (m.bytes addr 4).map wordOf

variable {m : GuestMemory} {addr w : Addr32}

/-- A readable word is read, whatever the variable held. -/
theorem readWord_of_word (h : m.word addr = some w) (old : Addr32) :
    m.readWord addr old = w := by
  obtain ⟨bs, hbs, rfl⟩ := Option.map_eq_some_iff.mp h
  rw [readWord, cpuMemoryRwDebug_eq, fill_of_bytes hbs]

/-- A read that fails at its first byte leaves the variable as it was. -/
theorem readWord_of_unmapped (h : m.byte addr = none) (old : Addr32) :
    m.readWord addr old = old := by
  rw [readWord, cpuMemoryRwDebug_eq, bytesOf, fill, h]
  exact wordOf_bytesOf old

end GuestMemory

/-! ### The trace -/

/-- `MachineQEMU::RecurseStackTrace`: the calls of `PrintPC` it makes. `stale depth` is what
`returnAddress` holds at the start of the iteration at that depth. -/
def recurseStackTrace (m : GuestMemory) (stale : ℕ → Addr32) (framePointer : Addr32)
    (depth : ℕ) : List (ℕ × Addr32) :=
  if depth < 20 ∧ framePointer ≠ 0 then
    let returnAddress := m.readWord (framePointer + 4) (stale depth)
    if returnAddress = 0 then
      []
    else
      (depth, returnAddress) ::
        recurseStackTrace m stale (m.readWord framePointer framePointer) (depth + 1)
  else
    []
termination_by 20 - depth

/-- `%2u` and `%8x` pad with blanks on the left. -/
def padLeft (width : ℕ) (s : String) : String := "".pushn ' ' (width - s.length) ++ s

/-- `%8x`. -/
def hex8 (w : Addr32) : String := padLeft 8 (String.ofList (Nat.toDigits 16 w.toNat))

/-- `MachineQEMU::PrintPC`: the line printed. -/
def printPC (symbolTable : SymbolTable) (depth : ℕ) (pc : Addr32) : String :=
  match symbolTable.lookup pc ⟨0, 0, ""⟩ with
  | (0, symbol) =>
      padLeft 2 (toString depth) ++ ": " ++ symbol.name ++ "+" ++
        toString (pc - symbol.address).toNat ++ " (" ++ hex8 pc ++ ")\n"
  | _ => padLeft 2 (toString depth) ++ ": " ++ hex8 pc ++ "\n"

/-- The lines printed by a sequence of calls of `PrintPC`. -/
def printed (symbolTable : SymbolTable) (calls : List (ℕ × Addr32)) : String :=
  String.join (calls.map fun c => printPC symbolTable c.1 c.2)

/-- The registers a trace starts from. -/
structure TraceRegs where
  eip : Addr32
  esp : Addr32
  ebp : Addr32

/-- `MachineQEMU::StackTraceAtFunction`: what it prints. -/
def stackTraceAtFunction (m : GuestMemory) (stale : ℕ → Addr32) (cpuState : TraceRegs)
    (symbolTable : SymbolTable) : String :=
  "TRACE\n" ++ printed symbolTable ((0, cpuState.eip) ::
    (1, m.readWord cpuState.esp (stale 1)) :: recurseStackTrace m stale cpuState.ebp 2)

/-- `MachineQEMU::StackTrace`: what it prints. -/
def stackTrace (m : GuestMemory) (stale : ℕ → Addr32) (cpuState : TraceRegs)
    (symbolTable : SymbolTable) : String :=
  "TRACE\n" ++ printed symbolTable ((0, cpuState.eip) ::
    recurseStackTrace m stale cpuState.ebp 1)

/-! ### The frames of the guest -/

/-- The return addresses of the frames from `framePointer` on, `n` at most: up to the first
frame pointer or return address that is zero or cannot be read. -/
def frames (m : GuestMemory) : ℕ → Addr32 → List Addr32
  | 0, _ => []
  | n + 1, framePointer =>
      if framePointer = 0 then
        []
      else
        match m.word (framePointer + 4) with
        | none => []
        | some returnAddress =>
            if returnAddress = 0 then
              []
            else
              returnAddress ::
                match m.word framePointer with
                | none => []
                | some saved => frames m n saved

/-- The frames with their depths, as they should be printed from `depth` on. -/
def frameEntries (m : GuestMemory) (framePointer : Addr32) (depth : ℕ) : List (ℕ × Addr32) :=
  (frames m (20 - depth) framePointer).mapIdx fun i returnAddress => (depth + i, returnAddress)

/-- **A failed read is noticed only if it leaves zero.** Along the frames from `framePointer`
on, `n` at most: where the return address cannot be read, what is left in its variable is zero;
and where the saved frame pointer cannot be read, the limit is reached, or what is left in its
variable is zero, or what is then read or left as the next return address is. -/
def LeavesZero (m : GuestMemory) (stale : ℕ → Addr32) : ℕ → Addr32 → ℕ → Prop
  | 0, _, _ => True
  | n + 1, framePointer, depth =>
      framePointer = 0 ∨
        match m.word (framePointer + 4) with
        | none => m.readWord (framePointer + 4) (stale depth) = 0
        | some returnAddress =>
            returnAddress = 0 ∨
              match m.word framePointer with
              | none =>
                  n = 0 ∨ m.readWord framePointer framePointer = 0 ∨
                    m.readWord (m.readWord framePointer framePointer + 4) (stale (depth + 1)) = 0
              | some saved => LeavesZero m stale n saved (depth + 1)

section Trace

variable {m : GuestMemory} {stale : ℕ → Addr32} {framePointer : Addr32} {depth : ℕ}

/-- **A trace ends** at the depth limit at the latest, also on a cyclic chain of frames. -/
theorem length_recurseStackTrace_le (m : GuestMemory) (stale : ℕ → Addr32)
    (framePointer : Addr32) (depth : ℕ) :
    (recurseStackTrace m stale framePointer depth).length ≤ 20 - depth := by
  fun_induction recurseStackTrace m stale framePointer depth with
  | case1 framePointer depth h returnAddress hzero => exact Nat.zero_le _
  | case2 framePointer depth h returnAddress hzero ih =>
      rw [List.length_cons]
      omega
  | case3 framePointer depth h => exact Nat.zero_le _

/-- Nothing is printed from a frame on. -/
theorem recurseStackTrace_eq_nil_iff :
    recurseStackTrace m stale framePointer depth = [] ↔
      20 ≤ depth ∨ framePointer = 0 ∨ m.readWord (framePointer + 4) (stale depth) = 0 := by
  rw [recurseStackTrace]
  by_cases hrun : depth < 20 ∧ framePointer ≠ 0
  · rw [if_pos hrun]
    by_cases hzero : m.readWord (framePointer + 4) (stale depth) = 0
    · simp [hzero]
    · simp only [if_neg hzero]
      refine iff_of_false nofun ?_
      rintro (hd | hf | hz)
      · omega
      · exact hrun.2 hf
      · exact hzero hz
  · rw [if_neg hrun]
    refine iff_of_true rfl ?_
    by_cases hd : 20 ≤ depth
    · exact Or.inl hd
    · exact Or.inr (Or.inl (not_not.mp fun hf => hrun ⟨Nat.not_le.mp hd, hf⟩))

/-- The entry printed for a frame whose return address is read. -/
theorem recurseStackTrace_of_ne (hd : depth < 20) (hf : framePointer ≠ 0)
    (hra : m.readWord (framePointer + 4) (stale depth) ≠ 0) :
    recurseStackTrace m stale framePointer depth =
      (depth, m.readWord (framePointer + 4) (stale depth)) ::
        recurseStackTrace m stale (m.readWord framePointer framePointer) (depth + 1) := by
  rw [recurseStackTrace, if_pos ⟨hd, hf⟩]
  exact if_neg hra

/-- The entries of the frames, the first one apart. -/
theorem mapIdx_entries (returnAddress : Addr32) (rest : List Addr32) (depth : ℕ) :
    (returnAddress :: rest).mapIdx (fun i ra => (depth + i, ra)) =
      (depth, returnAddress) :: rest.mapIdx fun i ra => (depth + 1 + i, ra) := by
  rw [List.mapIdx_cons]
  simp only [Nat.add_zero, Nat.add_right_comm depth, Nat.add_assoc]

/-- The trace against the frames, `n` of which are left to the limit. -/
theorem recurseStackTrace_eq_iff {n : ℕ} (hn : 20 - depth = n) :
    recurseStackTrace m stale framePointer depth =
        (frames m n framePointer).mapIdx (fun i returnAddress => (depth + i, returnAddress)) ↔
      LeavesZero m stale n framePointer depth := by
  induction n generalizing framePointer depth with
  | zero =>
      rw [LeavesZero, frames, List.mapIdx_nil, recurseStackTrace_eq_nil_iff]
      exact iff_of_true (Or.inl (by omega)) trivial
  | succ n ih =>
      have hd : depth < 20 := by omega
      rw [LeavesZero, frames]
      by_cases hf : framePointer = 0
      · rw [if_pos hf, List.mapIdx_nil, recurseStackTrace_eq_nil_iff]
        exact iff_of_true (Or.inr (Or.inl hf)) (Or.inl hf)
      rw [if_neg hf, or_iff_right hf]
      cases hra : m.word (framePointer + 4) with
      | none =>
          simp only [List.mapIdx_nil]
          rw [recurseStackTrace_eq_nil_iff, or_iff_right (Nat.not_le.mpr hd), or_iff_right hf]
      | some returnAddress =>
          have hread := GuestMemory.readWord_of_word hra (stale depth)
          simp only
          by_cases hzero : returnAddress = 0
          · rw [if_pos hzero, List.mapIdx_nil, recurseStackTrace_eq_nil_iff]
            exact iff_of_true (Or.inr (Or.inr (hread.trans hzero))) (Or.inl hzero)
          rw [if_neg hzero, or_iff_right hzero, mapIdx_entries,
            recurseStackTrace_of_ne hd hf (hread ▸ hzero), hread, List.cons_inj_right]
          cases hsaved : m.word framePointer with
          | none =>
              have hlimit : 20 ≤ depth + 1 ↔ n = 0 := by omega
              simp only [List.mapIdx_nil]
              rw [recurseStackTrace_eq_nil_iff, hlimit]
          | some saved =>
              rw [GuestMemory.readWord_of_word hsaved]
              exact ih (by omega)

/-- **A trace lists the real frames** exactly if every read that fails leaves zero. For every
memory, every frame pointer and every depth to start from, and whatever the uninitialised
variable holds: what `RecurseStackTrace` prints is the sequence of the frames' return
addresses, at their depths. It never prints more than the limit leaves room for. -/
theorem recurse_stack_trace_real_iff (m : GuestMemory) (stale : ℕ → Addr32) (ebp : Addr32)
    (depth : ℕ) :
    (recurseStackTrace m stale ebp depth = frameEntries m ebp depth ↔
        LeavesZero m stale (20 - depth) ebp depth) ∧
      (recurseStackTrace m stale ebp depth).length ≤ 20 - depth :=
  ⟨recurseStackTrace_eq_iff rfl, length_recurseStackTrace_le m stale ebp depth⟩

/-- A memory with one page, at `0x1000`: a frame with the return address `0xc0100000` and a
saved frame pointer `0x2000` into a page that is not mapped. -/
def oneFrame : GuestMemory where
  physPage n := if n = 1 then some 0 else none
  physical i := [0x00, 0x20, 0x00, 0x00, 0x00, 0x00, 0x10, 0xc0].getD i 0

/-- The return address of the frame is printed a second time, for a frame that cannot be
read. -/
theorem oneFrame_printed_twice :
    recurseStackTrace oneFrame (fun _ => 0xc0100000) 0x1000 1 ≠ frameEntries oneFrame 0x1000 1 := by
  have hframes : frameEntries oneFrame 0x1000 1 = [(1, 0xc0100000)] := by decide
  have hra : oneFrame.readWord (0x1000 + 4) 0xc0100000 = 0xc0100000 :=
    GuestMemory.readWord_of_word (by decide) _
  have hsaved : oneFrame.readWord 0x1000 0x1000 = 0x2000 :=
    GuestMemory.readWord_of_word (by decide) _
  have hstale : oneFrame.readWord (0x2000 + 4) 0xc0100000 = 0xc0100000 :=
    GuestMemory.readWord_of_unmapped (by decide) _
  rw [recurseStackTrace_of_ne (by decide) (by decide) (by rw [hra]; decide), hframes, hsaved, hra]
  intro h
  have hnil := recurseStackTrace_eq_nil_iff.mp (List.cons.inj h).2
  rw [hstale] at hnil
  exact absurd hnil (by decide)

/-- In a memory without unmapped pages no read fails. -/
theorem leavesZero_of_mapped (hm : ∀ page, (m.physPage page).isSome = true) (n : ℕ)
    (framePointer : Addr32) (depth : ℕ) : LeavesZero m stale n framePointer depth := by
  have hbyte : ∀ addr, (m.byte addr).isSome = true := by
    intro addr
    rw [GuestMemory.byte, Option.isSome_map]
    exact hm _
  have hbytes : ∀ k addr, (m.bytes addr k).isSome = true := by
    intro k
    induction k with
    | zero => exact fun addr => rfl
    | succ k ih =>
        intro addr
        obtain ⟨b, hb⟩ := Option.isSome_iff_exists.mp (hbyte addr)
        obtain ⟨bs, hbs⟩ := Option.isSome_iff_exists.mp (ih (addr + 1))
        rw [GuestMemory.bytes, hb, hbs]
        rfl
  have hword : ∀ addr, ∃ w, m.word addr = some w := by
    intro addr
    rw [← Option.isSome_iff_exists, GuestMemory.word, Option.isSome_map]
    exact hbytes 4 addr
  induction n generalizing framePointer depth with
  | zero => trivial
  | succ n ih =>
      obtain ⟨returnAddress, hra⟩ := hword (framePointer + 4)
      obtain ⟨saved, hsaved⟩ := hword framePointer
      rw [LeavesZero, hra, hsaved]
      exact Or.inr (Or.inr (ih saved (depth + 1)))

/-- **In a memory without unmapped pages a trace is that of the real frames.** -/
theorem stackTrace_of_mapped (hm : ∀ page, (m.physPage page).isSome = true)
    (cpuState : TraceRegs) (symbolTable : SymbolTable) :
    stackTrace m stale cpuState symbolTable =
      "TRACE\n" ++ printed symbolTable ((0, cpuState.eip) :: frameEntries m cpuState.ebp 1) := by
  have hreal : recurseStackTrace m stale cpuState.ebp 1 = frameEntries m cpuState.ebp 1 :=
    (recurseStackTrace_eq_iff rfl).mpr (leavesZero_of_mapped hm _ _ _)
  rw [stackTrace, hreal]

end Trace

end MemCheck
