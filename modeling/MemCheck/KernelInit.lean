import MemCheck.Activations
import MemCheck.MalformedFiles

/-!
# Initialisation: Which Functions Are Hooked

`MemCheckLinuxKernel::Init` (`MemCheckLinuxKernel.cpp`) loads `System.map`, creates a function
object for each of seventeen kernel functions and registers them with the interceptor. The
constructor of `LinuxKernelFunction` looks the function's name up and ignores the result of
the lookup, and `m_Address` has no initial value: a name that is not in `System.map` is hooked
at whatever address the object's memory held. Registrations share one table by address, so a
later one displaces an earlier one at the same address. What uninitialised memory holds is a
parameter (`Indeterminate`).

What the file says about a name (`Mentions`) and what the loop of `Load` stores under it
(`Stores`) differ on a line that lacks a field: the loop then stores what its variables held.

## Main results

* `mentions_systemMap`: which names a file of well-formed lines mentions;
* `stores_of_mentions`: what is mentioned is stored;
* `map_init`: the table after `Init` holds the last registration at each address;
* `init_hooks_iff`: exactly when the hooked functions are those `System.map` names.
-/

namespace MemCheck

open Writes

/-! ### The registrations -/

/-- What a function object is created from. -/
structure HookSpec where
  kind : FunctionClass
  symbolName : String
  numberOfArguments : Word32
  deriving DecidableEq, Repr

/-- A `LinuxKernelHeapFunction` with its default arguments. -/
def HookSpec.heap (symbolName : String) : HookSpec := ⟨.linuxKernelHeapFunction, symbolName, 0⟩

/-- The function objects of `Init`, in the order of their registration. -/
def hookSpecs : List HookSpec :=
  [⟨.memCheckAlloc, "MemCheck_Alloc", 2⟩,
    ⟨.memCheckFree, "MemCheck_Free", 1⟩,
    ⟨.memCheckFreeSize, "MemCheck_FreeSize", 2⟩,
    ⟨.memCheckFreeAnySize, "MemCheck_FreeAnySize", 2⟩,
    .heap "__free_slab",
    .heap "__alloc_bootmem_core",
    .heap "free_bootmem_core",
    .heap "init_bootmem_core",
    .heap "reserve_bootmem",
    .heap "free_init_pages",
    .heap "__kmalloc",
    .heap "mykfree",
    .heap "mykmem_cache_free",
    .heap "my__kmalloc_track_caller",
    .heap "__alloc_pages",
    .heap "mykmem_cache_alloc",
    .heap "free_bootmem"]

/-- The specification of the function at a pointer; pointers count the registrations. -/
def hookSpec (f : FunctionRef) : HookSpec := hookSpecs.getD f (.heap "")

/-- The name of the function at a pointer. -/
def hookName (f : FunctionRef) : String := (hookSpec f).symbolName

/-- `LinuxKernelFunction::LinuxKernelFunction`, on memory in which `m_Address` is `address`. -/
def newLinuxKernelFunction (t : SymbolTable) (spec : HookSpec) (address : Addr32) :
    FunctionObject :=
  ⟨spec.kind, (t.lookupName spec.symbolName address).2, spec.symbolName, false,
    spec.numberOfArguments, false⟩

/-- What uninitialised memory holds: the variables of the loop of `Load`, `m_Address` of each
function object, and `m_MemoryAccessStart`. -/
structure Indeterminate where
  scanned : Scanned
  address : FunctionRef → Addr32
  memoryAccessStart : Addr32

/-- The class `MemCheckLinuxKernel`: its symbol table, its interceptor and its checker. -/
structure MemCheckLinuxKernel where
  symbolTable : SymbolTable
  kernel : Kernel

namespace MemCheckLinuxKernel

/-- `MemCheckLinuxKernel::Init` with a fresh interceptor. -/
def init (B : SearchTree.Balancer Symbol Unit) (r : Indeterminate) (text : List Char) :
    Option MemCheckLinuxKernel :=
  (SymbolTable.empty.load B r.scanned text).map fun t =>
    ⟨t, .register (fun f => newLinuxKernelFunction t (hookSpec f) (r.address f))
        (List.range hookSpecs.length),
      Checker.init (t.lookupName "__bss_stop" r.memoryAccessStart).2⟩

end MemCheckLinuxKernel

/-! ### What `System.map` says about a name -/

/-- The name on a line that has all three fields and a type other than `A`. -/
def lineName (s : List Char) : Option String :=
  if (fields s).2.1 = some 'A' then none else (fields s).2.2.map String.ofList

/-- The lines of a text. -/
def textLines (text : List Char) : List (List Char) := (Scan.readLines 500 [] text).getD []

/-- The name stands on a line with all three fields whose type is not `A`. -/
def Mentions (text : List Char) (name : String) : Prop :=
  ∃ s ∈ textLines text, lineName s = some name

instance (text : List Char) (name : String) : Decidable (Mentions text name) :=
  inferInstanceAs (Decidable (∃ s ∈ textLines text, _ = _))

/-- The values of the variables of `Load`'s loop after each line of a text. -/
def scansOf (v : Scanned) (text : List Char) : List Scanned :=
  ((Scan.readLines 500 [] text).bind (scans v)).getD []

/-- `Load` stores an address under the name: after some line the variables held the name and
a type other than `A`, be it from this line, from one before it or uninitialised. -/
def Stores (v : Scanned) (text : List Char) (name : String) : Prop :=
  ∃ u ∈ scansOf v text, u.type ≠ 'A' ∧ u.name = name

/-- The address stored last under the name. -/
def symbolAddress (v : Scanned) (text : List Char) (name : String) : Option Addr32 :=
  lastWrite name ((writes (scansOf v text)).map Prod.swap)

/-- The address a function is registered at: the one stored last under its name, or else what
the memory of `m_Address` held. -/
def hookAddress (r : Indeterminate) (text : List Char) (f : FunctionRef) : Addr32 :=
  (symbolAddress r.scanned text (hookName f)).getD (r.address f)

section Lines

variable {v u : Scanned} {s : List Char} {lines : List (List Char)} {name : String}

/-- A line that was scanned has a name that fits, if it has one. -/
theorem nameFits_of_sscanf (h : v.sscanf s = some u) : NameFits s := by
  rw [Scanned.sscanf] at h
  rw [NameFits, fields]
  cases hhex : Scan.scanHex 8 (s.takeWhile (· ≠ '\x00')) with
  | none => simp
  | some x =>
      obtain ⟨address, s'⟩ := x
      simp only [hhex] at h ⊢
      cases hchar : Scan.scanChar s' with
      | none => simp
      | some y =>
          obtain ⟨type, s''⟩ := y
          simp only [hchar] at h ⊢
          intro name hword
          simp only [hword, Option.ite_none_right_eq_some] at h
          exact h.1

theorem nameFits_of_scans {vs : List Scanned} (h : scans v lines = some vs) :
    ∀ s ∈ lines, NameFits s := by
  induction lines generalizing v vs with
  | nil => exact fun s hs => absurd hs List.not_mem_nil
  | cons s lines ih =>
      rw [scans] at h
      cases hs : v.sscanf s with
      | none => simp [hs] at h
      | some u =>
          simp only [hs, Option.map_eq_some_iff] at h
          obtain ⟨us, hus, -⟩ := h
          exact List.forall_mem_cons.mpr ⟨nameFits_of_sscanf hs, ih hus⟩

/-- A line with a name has a type. -/
theorem exists_type {word : List Char} (h : (fields s).2.2 = some word) :
    ∃ type, (fields s).2.1 = some type := by
  rw [fields] at h ⊢
  cases hhex : Scan.scanHex 8 (s.takeWhile (· ≠ '\x00')) with
  | none =>
      rw [hhex] at h
      cases h
  | some x =>
      rw [hhex] at h
      cases hchar : Scan.scanChar x.2 with
      | none =>
          simp only [hchar] at h
          cases h
      | some y => exact ⟨y.1, by simp only [hchar]⟩

/-- The name and the type of a complete line are those the variables have after it. -/
theorem after_of_lineName (h : lineName s = some name) (v : Scanned) :
    (v.after s).type ≠ 'A' ∧ (v.after s).name = name := by
  rw [lineName, Option.ite_none_left_eq_some] at h
  obtain ⟨htype, hname⟩ := h
  obtain ⟨word, hword, -⟩ := Option.map_eq_some_iff.mp hname
  obtain ⟨type, hfield⟩ := exists_type hword
  rw [Scanned.after, hname, hfield]
  exact ⟨fun heq => htype (hfield.trans (congrArg some heq)), rfl⟩

theorem exists_row (hs : s ∈ lines) : ∃ w : Scanned, (s, w.after s) ∈ rows v lines := by
  induction lines generalizing v with
  | nil => exact absurd hs List.not_mem_nil
  | cons t lines ih =>
      rcases List.mem_cons.mp hs with rfl | hs
      · exact ⟨v, List.mem_cons_self⟩
      · obtain ⟨w, hw⟩ := ih (v := v.after t) hs
        exact ⟨w, List.mem_cons_of_mem _ hw⟩

/-- A well-formed line has the name written on it, unless its type is `A`. -/
theorem lineName_text (l : MapLine) :
    lineName l.text = if l.type = 'A' then none else some l.symbolName := by
  have hscan := l.sscanf_text ⟨0, 'A', ""⟩
  rw [sscanf_of_nameFits (nameFits_of_sscanf hscan), Option.some.injEq] at hscan
  -- the name is not the one the variable held before, so the line has all its fields
  have hname : (fields l.text).2.2.map String.ofList = some l.symbolName := by
    have hget : ((fields l.text).2.2.map String.ofList).getD "" = l.symbolName :=
      congrArg Scanned.name hscan
    cases hword : (fields l.text).2.2.map String.ofList with
    | some name => rw [← hget, hword, Option.getD_some]
    | none =>
        rw [hword, Option.getD_none] at hget
        exact absurd (String.ofList_eq_empty_iff.mp hget.symm) l.name_ne_nil
  obtain ⟨word, hword, -⟩ := Option.map_eq_some_iff.mp hname
  obtain ⟨type, hfield⟩ := exists_type hword
  have htype : type = l.type := by
    have hget : (fields l.text).2.1.getD 'A' = l.type := congrArg Scanned.type hscan
    rw [← hget, hfield, Option.getD_some]
  rw [lineName, hname, hfield, htype]
  simp only [Option.some.injEq]

end Lines

section Names

variable {B : SearchTree.Balancer Symbol Unit} {v : Scanned} {text : List Char} {name : String}

/-- A name has an address exactly if something is stored under it. -/
theorem stores_iff : Stores v text name ↔ ∃ a, symbolAddress v text name = some a := by
  simp only [symbolAddress, exists_lastWrite_iff, writes, Stores, List.map_map,
    List.mem_map, List.mem_filter, decide_eq_true_eq]
  constructor
  · rintro ⟨u, hu, htype, hname⟩
    exact ⟨_, ⟨u, ⟨hu, htype⟩, rfl⟩, hname⟩
  · rintro ⟨w, ⟨u, ⟨hu, htype⟩, rfl⟩, hname⟩
    exact ⟨u, hu, htype, hname⟩

/-- **What is mentioned is stored**, on any text that is loaded. -/
theorem stores_of_mentions {t : SymbolTable}
    (hload : SymbolTable.empty.load B v text = some t) (h : Mentions text name) :
    Stores v text name := by
  obtain ⟨lines, vs, pos, rest, hlines, hscans, -, -⟩ := load_eq_some.mp hload
  obtain ⟨s, hs, hname⟩ := h
  rw [textLines, hlines, Option.getD_some] at hs
  obtain ⟨w, hw⟩ := exists_row (v := v) hs
  refine ⟨w.after s, ?_, after_of_lineName hname w⟩
  rw [scansOf, hlines, Option.bind_some, scans_eq_rows (nameFits_of_scans hscans),
    Option.getD_some]
  exact List.mem_map_of_mem (f := Prod.snd) hw

/-- `Load` leaves the address of every name under which something is stored, and no other. -/
theorem nameToAddressMap_load {t : SymbolTable}
    (hload : SymbolTable.empty.load B v text = some t) :
    t.nameToAddressMap name = symbolAddress v text name := by
  obtain ⟨lines, vs, pos, rest, hlines, hscans, -, rfl⟩ := load_eq_some.mp hload
  rw [symbolAddress, scansOf, hlines, Option.bind_some, hscans, Option.getD_some]

/-- In a file of well-formed lines a name has the address on the last symbol's line with
that name. -/
theorem symbolAddress_systemMap {ls : List MapLine} (newline : Bool) (hne : ls ≠ []) :
    symbolAddress v (systemMap ls newline) name =
      lastWrite name ((symbolWrites ls).map Prod.swap) := by
  obtain ⟨vs, hscans, hwrites⟩ := scans_fileLines v newline hne
  rw [symbolAddress, scansOf, readLines_systemMap hne, Option.bind_some, hscans,
    Option.getD_some]
  exact hwrites Prod.swap name

/-- In a file of well-formed lines the names mentioned are those on the symbols' lines. -/
theorem mentions_systemMap {ls : List MapLine} (newline : Bool) (hne : ls ≠ []) :
    Mentions (systemMap ls newline) name ↔ ∃ l ∈ symbolLines ls, l.symbolName = name := by
  have hempty : lineName [] = none := by decide
  simp only [Mentions, textLines, readLines_systemMap hne, Option.getD_some, fileLines,
    symbolLines, List.mem_filter, decide_eq_true_eq]
  constructor
  · rintro ⟨s, hs, hname⟩
    rcases List.mem_append.mp hs with hs | hs
    · obtain ⟨l, hl, rfl⟩ := List.mem_map.mp hs
      rw [lineName_text, Option.ite_none_left_eq_some] at hname
      exact ⟨l, ⟨hl, hname.1⟩, Option.some.inj hname.2⟩
    · split_ifs at hs with hnl
      · rw [List.mem_singleton.mp hs, hempty] at hname
        cases hname
      · exact absurd hs List.not_mem_nil
  · rintro ⟨l, ⟨hl, htype⟩, rfl⟩
    refine ⟨l.text, List.mem_append_left _ (List.mem_map_of_mem hl), ?_⟩
    rw [lineName_text, if_neg htype]

end Names

/-! ### The table after `Init` -/

section Init

variable {B : SearchTree.Balancer Symbol Unit} {r : Indeterminate} {text : List Char}
  {m : MemCheckLinuxKernel}

/-- What the constructor leaves in `m_Address`. -/
theorem address_newLinuxKernelFunction {t : SymbolTable} {f : FunctionRef}
    (hload : SymbolTable.empty.load B r.scanned text = some t) :
    (newLinuxKernelFunction t (hookSpec f) (r.address f)).address = hookAddress r text f := by
  rw [newLinuxKernelFunction, hookAddress, ← nameToAddressMap_load hload,
    SymbolTable.lookupName, hookName]
  cases t.nameToAddressMap (hookSpec f).symbolName with
  | some a => rfl
  | none => rfl

/-- **The table after `Init`**: at each address the last function registered there. -/
theorem map_init (hm : MemCheckLinuxKernel.init B r text = some m) {pc : Addr32}
    {aoi : AddressOfInterest} :
    m.kernel.interceptor.addressOfInterestMap pc = some aoi ↔
      ∃ f < hookSpecs.length, hookAddress r text f = pc ∧
        ⟨.function, hookAddress r text f, 1, f⟩ = aoi ∧
        ∀ f', f < f' → f' < hookSpecs.length → hookAddress r text f' ≠ pc := by
  obtain ⟨t, hload, rfl⟩ := Option.map_eq_some_iff.mp hm
  rw [map_register]
  simp only [address_newLinuxKernelFunction hload]
  exact lastWrite_range_eq_some

/-- Some function is the last one registered at the address of each. -/
theorem exists_entry_init (hm : MemCheckLinuxKernel.init B r text = some m) {f : FunctionRef}
    (hf : f < hookSpecs.length) :
    ∃ aoi, m.kernel.interceptor.addressOfInterestMap (hookAddress r text f) = some aoi := by
  obtain ⟨t, hload, rfl⟩ := Option.map_eq_some_iff.mp hm
  rw [map_register, exists_lastWrite_iff]
  exact ⟨_, List.mem_map_of_mem (List.mem_range.mpr hf), address_newLinuxKernelFunction hload⟩

/-- The lookup of a mentioned name gives the address it is registered at. -/
theorem lookupName_of_mentions (hm : MemCheckLinuxKernel.init B r text = some m)
    {f : FunctionRef} (h : Mentions text (hookName f)) (address : Addr32) :
    (m.symbolTable.lookupName (hookName f) address).2 = hookAddress r text f := by
  obtain ⟨t, hload, rfl⟩ := Option.map_eq_some_iff.mp hm
  obtain ⟨a, ha⟩ := stores_iff.mp (stores_of_mentions hload h)
  rw [SymbolTable.lookupName, nameToAddressMap_load hload, hookAddress, ha]
  rfl

end Init

/-- Only symbols of the loaded kernel are hooked: each function whose name `System.map`
mentions has a `FUNCTION` entry at the address the lookup gives for it, and there is no other
entry. -/
structure HooksSymbols (text : List Char) (m : MemCheckLinuxKernel) : Prop where
  hooked : ∀ f < hookSpecs.length, Mentions text (hookName f) →
    m.kernel.interceptor.addressOfInterestMap
        (m.symbolTable.lookupName (hookName f) 0).2 =
      some ⟨.function, (m.symbolTable.lookupName (hookName f) 0).2, 1, f⟩
  only : ∀ pc aoi, m.kernel.interceptor.addressOfInterestMap pc = some aoi →
    ∃ f < hookSpecs.length, Mentions text (hookName f) ∧
      pc = (m.symbolTable.lookupName (hookName f) 0).2 ∧ aoi = ⟨.function, pc, 1, f⟩

/-- **When only symbols of the loaded kernel are hooked.** For every text of `System.map` for
which `Init` returns, and whatever uninitialised memory holds: if and only if no function
whose name is mentioned shares the address it is registered at with one registered later, and
every function whose name is not mentioned is registered at the address of a mentioned one
registered later. -/
theorem init_hooks_iff (B : SearchTree.Balancer Symbol Unit) {r : Indeterminate}
    {text : List Char} {m : MemCheckLinuxKernel}
    (hm : MemCheckLinuxKernel.init B r text = some m) :
    HooksSymbols text m ↔
      (∀ f < hookSpecs.length, Mentions text (hookName f) →
        ∀ f' < hookSpecs.length, f < f' → hookAddress r text f' ≠ hookAddress r text f) ∧
      ∀ f < hookSpecs.length, ¬ Mentions text (hookName f) →
        ∃ f' < hookSpecs.length, f < f' ∧ Mentions text (hookName f') ∧
          hookAddress r text f' = hookAddress r text f := by
  constructor
  · rintro ⟨hhooked, honly⟩
    constructor
    · intro f hf hmentions
      have hentry := hhooked f hf hmentions
      rw [lookupName_of_mentions hm hmentions] at hentry
      obtain ⟨g, -, -, hfun, hlast⟩ := (map_init hm).mp hentry
      obtain rfl : g = f := congrArg AddressOfInterest.function hfun
      exact fun f' hf' hlt => hlast f' hlt hf'
    · intro f hf hmentions
      -- the function that is the last one at the same address is mentioned
      obtain ⟨aoi, hentry⟩ := exists_entry_init hm hf
      obtain ⟨g, hg, hgm, haddr, rfl⟩ := honly _ _ hentry
      obtain ⟨g', -, -, hfun, hlast⟩ := (map_init hm).mp hentry
      obtain rfl : g' = g := congrArg AddressOfInterest.function hfun
      rw [lookupName_of_mentions hm hgm] at haddr
      rcases Nat.lt_trichotomy f g' with hlt | rfl | hlt
      · exact ⟨g', hg, hlt, hgm, haddr.symm⟩
      · exact absurd hgm hmentions
      · exact absurd rfl (hlast f hlt hf)
  · rintro ⟨hdistinct, hcovered⟩
    constructor
    · intro f hf hmentions
      rw [lookupName_of_mentions hm hmentions]
      exact (map_init hm).mpr ⟨f, hf, rfl, rfl, fun f' hlt hf' =>
        hdistinct f hf hmentions f' hf' hlt⟩
    · intro pc aoi hentry
      obtain ⟨f, hf, rfl, rfl, hlast⟩ := (map_init hm).mp hentry
      by_cases hmentions : Mentions text (hookName f)
      · exact ⟨f, hf, hmentions, (lookupName_of_mentions hm hmentions 0).symm, rfl⟩
      · obtain ⟨f', hf', hlt, -, haddr⟩ := hcovered f hf hmentions
        exact absurd haddr (hlast f' hlt hf')

/-- A `System.map` of one line, which mentions only the function registered last. -/
def bootmemMap : List Char := "c0123456 T free_bootmem\n".toList

/-- Uninitialised memory in which every `m_Address` is the given one. -/
def filledWith (address : Addr32) : Indeterminate := ⟨⟨0, 'A', ""⟩, fun _ => address, 0⟩

theorem mentions_bootmemMap {name : String} :
    Mentions bootmemMap name ↔ name = "free_bootmem" := by
  have hlines : (textLines bootmemMap).map lineName = [some "free_bootmem", none] := by decide
  constructor
  · rintro ⟨s, hs, hname⟩
    have hmem := List.mem_map_of_mem (f := lineName) hs
    rw [hlines, hname] at hmem
    simpa using hmem
  · rintro rfl
    decide

theorem exists_init_bootmemMap (address : Addr32) :
    ∃ m, MemCheckLinuxKernel.init SearchTree.Balancer.id (filledWith address) bootmemMap =
      some m := by
  have hload :
      (SymbolTable.empty.load SearchTree.Balancer.id ⟨0, 'A', ""⟩ bootmemMap).isSome := by
    decide
  obtain ⟨t, ht⟩ := Option.isSome_iff_exists.mp hload
  exact ⟨_, Option.map_eq_some_iff.mpr ⟨t, ht, rfl⟩⟩

theorem hookAddress_bootmemMap (address : Addr32) {f : FunctionRef}
    (hf : hookName f ≠ "free_bootmem") :
    hookAddress (filledWith address) bootmemMap f = address := by
  have hscans : scansOf ⟨0, 'A', ""⟩ bootmemMap =
      [⟨0xc0123456, 'T', "free_bootmem"⟩, ⟨0xc0123456, 'T', "free_bootmem"⟩] := by decide
  have hnone : symbolAddress ⟨0, 'A', ""⟩ bootmemMap (hookName f) = none := by
    refine Option.eq_none_iff_forall_ne_some.mpr fun a ha => ?_
    obtain ⟨u, hu, -, hname⟩ := stores_iff.mpr ⟨a, ha⟩
    rw [hscans] at hu
    simp only [List.mem_cons, List.not_mem_nil, or_false, or_self] at hu
    exact hf (hname.symm.trans (congrArg Scanned.name hu))
  rw [hookAddress, filledWith, hnone]
  rfl

/-- The functions that are not mentioned are displaced where the one that is stands. -/
theorem init_hooks_iff_bootmem :
    ∃ m, MemCheckLinuxKernel.init SearchTree.Balancer.id (filledWith 0xc0123456) bootmemMap =
      some m ∧ HooksSymbols bootmemMap m := by
  obtain ⟨m, hm⟩ := exists_init_bootmemMap 0xc0123456
  have hlast : ∀ f < hookSpecs.length, hookName f = "free_bootmem" ↔ f = 16 := by decide
  refine ⟨m, hm, (init_hooks_iff _ hm).mpr ⟨?_, ?_⟩⟩
  · intro f hf hmentions f' hf' hlt
    have hf16 := (hlast f hf).mp (mentions_bootmemMap.mp hmentions)
    subst hf16
    exact absurd hf' (Nat.not_lt.mpr hlt)
  · intro f hf hmentions
    have hname : hookName f ≠ "free_bootmem" := mentions_bootmemMap.not.mp hmentions
    have hne : f ≠ 16 := (hlast f hf).not.mp hname
    have haddr : hookAddress (filledWith 0xc0123456) bootmemMap 16 = 0xc0123456 := by decide
    exact ⟨16, by decide, Nat.lt_of_le_of_ne (Nat.le_of_lt_succ hf) hne,
      mentions_bootmemMap.mpr rfl, haddr.trans (hookAddress_bootmemMap _ hname).symm⟩

/-- A function that `System.map` does not mention is hooked at its uninitialised address. -/
theorem init_hooks_unmentioned :
    ¬ Mentions bootmemMap "mykmem_cache_alloc" ∧
    ∃ m, MemCheckLinuxKernel.init SearchTree.Balancer.id (filledWith 0xbfff1234) bootmemMap =
        some m ∧
      m.kernel.interceptor.addressOfInterestMap 0xbfff1234 =
        some ⟨.function, 0xbfff1234, 1, 15⟩ ∧
      ¬ HooksSymbols bootmemMap m := by
  have hmentions : ¬ Mentions bootmemMap "mykmem_cache_alloc" :=
    mentions_bootmemMap.not.mpr (by decide)
  obtain ⟨m, hm⟩ := exists_init_bootmemMap 0xbfff1234
  have hentry : m.kernel.interceptor.addressOfInterestMap 0xbfff1234 =
      some ⟨.function, 0xbfff1234, 1, 15⟩ := by
    have h15 : hookAddress (filledWith 0xbfff1234) bootmemMap 15 = 0xbfff1234 :=
      hookAddress_bootmemMap _ (by decide)
    have h16 : hookAddress (filledWith 0xbfff1234) bootmemMap 16 ≠ 0xbfff1234 := by decide
    refine (map_init hm).mpr ⟨15, by decide, h15, by rw [h15], fun f' hlt hf' => ?_⟩
    obtain rfl : f' = 16 := Nat.le_antisymm (Nat.le_of_lt_succ hf') hlt
    exact h16
  refine ⟨hmentions, m, hm, hentry, fun h => ?_⟩
  obtain ⟨f, -, hf, -, haoi⟩ := h.only _ _ hentry
  obtain rfl : 15 = f := congrArg AddressOfInterest.function haoi
  exact hmentions hf

end MemCheck
