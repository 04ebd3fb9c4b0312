import MemCheck.Lib.Scan
import MemCheck.Lib.Writes
import MemCheck.ShadowInvariant

/-!
# The Symbol Table

`SymbolTable` (`SymbolTable.h`, `SymbolTable.cpp`) reads the kernel's `System.map` and
answers two questions: which symbol encloses an address, and which address a name has.

`Load` reads the file line by line into two maps, from names to addresses and from addresses
to names, and then turns neighbours of the second into *tiles*, symbols that reach up to the
next address. The tiles go into a `std::set` under the overlap comparator of the shadow
memory and are queried with a key of size zero. Lines of type `A` are skipped. The variables
`sscanf` assigns are not initialised, and keep their values on a line that does not assign
them; the values they have before the first line are a parameter. A text on which `Load` does
not return has no result: a line that does not fit its buffer, a name that does not fit its
own, and a file without a symbol.

## Main results

* `load_eq_some`: what the maps hold after `Load`, for any text;
* `readLines_systemMap`, `scans_fileLines`: what the loop reads from well-formed lines;
* `lookup_encloses`: both lookups, for every file of well-formed lines.
-/

namespace MemCheck

open Writes

/-! ### The class -/

/-- The class `Symbol`. -/
structure Symbol where
  address : Addr32
  size : Word32
  name : String
  deriving DecidableEq, Repr

/-- `Symbol::operator()`, the comparator of the set. -/
def Symbol.comp (x y : Symbol) : Bool :=
  if x.size ≠ 0 then
    x.address + x.size ≤ y.address
  else
    x.address + x.size < y.address

/-- `Symbol(address)`, the key of a lookup. -/
def Symbol.point (address : Addr32) : Symbol := ⟨address, 0, ""⟩

/-- The class `SymbolTable`. -/
structure SymbolTable where
  nameToAddressMap : String → Option Addr32
  symbolMap : SearchTree Symbol Unit

/-- The variables `addr`, `type` and `name` of the loop. -/
structure Scanned where
  address : Addr32
  type : Char
  name : String
  deriving DecidableEq, Repr

/-- `sscanf(s, "%8x %c %s\n", &addr, &type, name)`, which stops at the first conversion that
fails. There is no result when the name overruns its buffer of `100` characters. -/
def Scanned.sscanf (v : Scanned) (s : List Char) : Option Scanned :=
  match Scan.scanHex 8 (s.takeWhile (· ≠ '\x00')) with
  | none => some v
  | some (address, s) =>
      match Scan.scanChar s with
      | none => some { v with address := address }
      | some (type, s) =>
          match Scan.scanWord s with
          | none => some { v with address := address, type := type }
          | some name =>
              if name.length < 100 then some ⟨address, type, String.ofList name⟩ else none

/-- The state of the loop of `Load`. -/
structure Loader where
  scanned : Scanned
  addressToNameMap : List (Addr32 × String)
  nameToAddressMap : String → Option Addr32

/-- The rest of the loop's body, once the variables are scanned. -/
def Loader.store (l : Loader) (v : Scanned) : Loader :=
  if v.type ≠ 'A' then
    ⟨v, assign v.address v.name l.addressToNameMap,
      Function.update l.nameToAddressMap v.name (some v.address)⟩
  else
    { l with scanned := v }

/-- The body of the loop of `Load`, for the line `s`. -/
def Loader.next (l : Loader) (s : List Char) : Option Loader :=
  (l.scanned.sscanf s).map l.store

/-- The second loop of `Load`: `pos` and the entries behind it. -/
def insertSymbols (B : SearchTree.Balancer Symbol Unit) :
    Addr32 × String → List (Addr32 × String) → SearchTree Symbol Unit → SearchTree Symbol Unit
  | _, [], symbolMap => symbolMap
  | pos, next :: rest, symbolMap =>
      insertSymbols B next rest
        (symbolMap.insert B Symbol.comp ⟨pos.1, next.1 - pos.1, pos.2⟩ ()).tree

namespace SymbolTable

/-- A fresh `SymbolTable`. -/
def empty : SymbolTable := ⟨fun _ => none, SearchTree.nil⟩

/-- `SymbolTable::Load` of a file with the given text, `v` being the values the variables of
the loop happen to have. -/
def load (B : SearchTree.Balancer Symbol Unit) (t : SymbolTable) (v : Scanned)
    (text : List Char) : Option SymbolTable :=
  match Scan.readLines 500 [] text with
  | none => none
  | some lines =>
      match lines.foldlM Loader.next ⟨v, [], t.nameToAddressMap⟩ with
      | none => none
      | some l =>
          match l.addressToNameMap with
          -- `next++` steps past the end of an empty map
          | [] => none
          | pos :: rest => some ⟨l.nameToAddressMap, insertSymbols B pos rest t.symbolMap⟩

/-- `SymbolTable::Lookup` of an address: the value returned, and `symbol` afterwards. -/
def lookup (t : SymbolTable) (address : Addr32) (symbol : Symbol) : ℤ × Symbol :=
  match t.symbolMap.find Symbol.comp (Symbol.point address) with
  | some pos => (0, pos.first)
  | none => (1, symbol)

/-- `SymbolTable::Lookup` of a name: the value returned, and `address` afterwards. -/
def lookupName (t : SymbolTable) (name : String) (address : Addr32) : ℤ × Addr32 :=
  match t.nameToAddressMap name with
  | some a => (0, a)
  | none => (1, address)

end SymbolTable

/-! ### The first loop -/

/-- The values of the variables after each line. -/
def scans (v : Scanned) : List (List Char) → Option (List Scanned)
  | [] => some []
  | s :: lines =>
      match v.sscanf s with
      | none => none
      | some v' => (scans v' lines).map (v' :: ·)

/-- What the loop writes: the address and the name on each line whose type is not `A`. -/
def writes (vs : List Scanned) : List (Addr32 × String) :=
  (vs.filter (·.type ≠ 'A')).map fun v => (v.address, v.name)

section Loop

variable {v : Scanned} {vs : List Scanned} {l : Loader} {lines : List (List Char)}

@[simp] theorem Loader.store_scanned : (l.store v).scanned = v := by
  rw [Loader.store]
  split_ifs <;> rfl

/-- The loop scans the lines and stores what it scanned. -/
theorem foldlM_next : lines.foldlM Loader.next l =
    (scans l.scanned lines).map fun vs => vs.foldl Loader.store l := by
  induction lines generalizing l with
  | nil => rfl
  | cons s lines ih =>
      rw [List.foldlM_cons, Loader.next, scans]
      cases hs : l.scanned.sscanf s with
      | none => rfl
      | some v =>
          simp only [Option.map_some, Option.bind_eq_bind, Option.bind_some, ih,
            Loader.store_scanned, Option.map_map]
          rfl

theorem addressToNameMap_foldl : (vs.foldl Loader.store l).addressToNameMap =
    (writes vs).foldl (fun t w => assign w.1 w.2 t) l.addressToNameMap := by
  induction vs generalizing l with
  | nil => rfl
  | cons v vs ih =>
      rw [List.foldl_cons, ih]
      by_cases hv : v.type ≠ 'A'
      · simp [Loader.store, writes, hv]
      · simp [Loader.store, writes, hv]

theorem nameToAddressMap_foldl : (vs.foldl Loader.store l).nameToAddressMap =
    ((writes vs).map Prod.swap).foldl
      (fun (m : String → Option Addr32) w => Function.update m w.1 (some w.2))
      l.nameToAddressMap := by
  induction vs generalizing l with
  | nil => rfl
  | cons v vs ih =>
      rw [List.foldl_cons, ih]
      by_cases hv : v.type ≠ 'A'
      · simp [Loader.store, writes, hv]
      · simp [Loader.store, writes, hv]

end Loop

section Load

variable {B : SearchTree.Balancer Symbol Unit} {v : Scanned} {text : List Char}

/-- `Load` of a text whose lines are scanned. -/
theorem load_of_scans {lines : List (List Char)} {vs : List Scanned}
    (hlines : Scan.readLines 500 [] text = some lines) (hscans : scans v lines = some vs) :
    SymbolTable.empty.load B v text =
      match table (writes vs) with
      | [] => none
      | pos :: rest => some ⟨fun name => lastWrite name ((writes vs).map Prod.swap),
          insertSymbols B pos rest SearchTree.nil⟩ := by
  have hnames : (vs.foldl Loader.store ⟨v, [], fun _ => none⟩).nameToAddressMap =
      fun name => lastWrite name ((writes vs).map Prod.swap) :=
    nameToAddressMap_foldl.trans (funext fun name => foldl_update _ name)
  have htable : (vs.foldl Loader.store ⟨v, [], fun _ => none⟩).addressToNameMap =
      table (writes vs) := addressToNameMap_foldl
  simp only [SymbolTable.load, SymbolTable.empty, hlines, foldlM_next, hscans,
    Option.map_some, hnames, htable]

/-- **What `Load` leaves**, for any text: the names have the addresses last written for them,
and the symbols are made from the ordered table of what was written. -/
theorem load_eq_some {t : SymbolTable} :
    SymbolTable.empty.load B v text = some t ↔
      ∃ lines vs pos rest, Scan.readLines 500 [] text = some lines ∧
        scans v lines = some vs ∧ table (writes vs) = pos :: rest ∧
        t = ⟨fun name => lastWrite name ((writes vs).map Prod.swap),
          insertSymbols B pos rest SearchTree.nil⟩ := by
  constructor
  · intro h
    cases hlines : Scan.readLines 500 [] text with
    | none => simp [SymbolTable.load, hlines] at h
    | some lines =>
        cases hscans : scans v lines with
        | none => simp [SymbolTable.load, hlines, foldlM_next, hscans] at h
        | some vs =>
            rw [load_of_scans hlines hscans] at h
            cases htable : table (writes vs) with
            | nil => simp [htable] at h
            | cons pos rest =>
                rw [htable] at h
                exact ⟨lines, vs, pos, rest, rfl, hscans, htable, (Option.some.inj h).symm⟩
  · rintro ⟨lines, vs, pos, rest, hlines, hscans, htable, rfl⟩
    rw [load_of_scans hlines hscans, htable]

end Load

/-! ### The tiles -/

/-- The interval of a symbol. -/
def Symbol.span (x : Symbol) : MemoryAlloc := ⟨x.address, x.size⟩

/-- The comparator is the one of the shadow memory. -/
theorem Symbol.comp_iff {x y : Symbol} (hx : x.span.Fits) :
    x.comp y = true ↔ x.span.extent.Before y.span.extent :=
  MemoryAlloc.comp_iff (x := x.span) (y := y.span) hx

/-- The symbols made of `pos` and the entries behind it. -/
def tiles : Addr32 × String → List (Addr32 × String) → List Symbol
  | _, [] => []
  | pos, next :: rest => ⟨pos.1, next.1 - pos.1, pos.2⟩ :: tiles next rest

/-- `x` is the symbol at an entry of the table, reaching up to the next entry. -/
structure Tiles (t : List (Addr32 × String)) (x : Symbol) : Prop where
  entry : (x.address, x.name) ∈ t
  next : ∃ w ∈ t, x.address < w.1 ∧ x.address.toNat + x.size.toNat = w.1.toNat ∧
    ∀ w' ∈ t, x.address < w'.1 → w.1 ≤ w'.1

section Tiles

variable {pos : Addr32 × String} {rest : List (Addr32 × String)} {x : Symbol}

theorem Tiles.size_pos {t : List (Addr32 × String)} (h : Tiles t x) : 0 < x.size.toNat := by
  obtain ⟨w, -, hlt, hend, -⟩ := h.next
  rw [UInt32.lt_iff_toNat_lt] at hlt
  omega

theorem Tiles.fits {t : List (Addr32 × String)} (h : Tiles t x) : x.span.Fits := by
  obtain ⟨w, -, -, hend, -⟩ := h.next
  have hw := w.1.toNat_lt
  rw [MemoryAlloc.Fits]
  exact hend.trans_lt hw

/-- The size of a symbol is the distance to the next address. -/
theorem toNat_gap {next : Addr32 × String} (hlt : pos.1 < next.1) :
    pos.1.toNat + (next.1 - pos.1).toNat = next.1.toNat := by
  rw [UInt32.toNat_sub_of_le _ _ (UInt32.le_of_lt hlt)]
  exact Nat.add_sub_cancel' (UInt32.le_iff_toNat_le.mp (UInt32.le_of_lt hlt))

/-- The first symbol reaches up to the second entry. -/
theorem tiles_head {next : Addr32 × String} (h : Sorted (pos :: next :: rest)) :
    Tiles (pos :: next :: rest) ⟨pos.1, next.1 - pos.1, pos.2⟩ := by
  obtain ⟨hpos, hrest⟩ := List.pairwise_cons.mp h
  obtain ⟨hnext, -⟩ := List.pairwise_cons.mp hrest
  have hlt := hpos next List.mem_cons_self
  refine ⟨List.mem_cons_self, next, List.mem_cons_of_mem pos List.mem_cons_self, hlt,
    toNat_gap hlt, fun w hw hltw => ?_⟩
  rcases List.mem_cons.mp hw with rfl | hw
  · exact absurd hltw (UInt32.lt_irrefl _)
  rcases List.mem_cons.mp hw with rfl | hw
  · exact UInt32.le_refl _
  · exact UInt32.le_of_lt (hnext w hw)

/-- Every symbol made is one of the table's, and starts at or behind `pos`. -/
theorem tiles_of_mem (h : Sorted (pos :: rest)) (hx : x ∈ tiles pos rest) :
    Tiles (pos :: rest) x ∧ pos.1 ≤ x.address := by
  induction rest generalizing pos with
  | nil => exact absurd hx List.not_mem_nil
  | cons next rest ih =>
      obtain ⟨hpos, hrest⟩ := List.pairwise_cons.mp h
      have hlt := hpos next List.mem_cons_self
      rcases List.mem_cons.mp hx with rfl | hx
      · exact ⟨tiles_head h, UInt32.le_refl _⟩
      · obtain ⟨htile, hle⟩ := ih hrest hx
        obtain ⟨w, hw, hltw, hend, hleast⟩ := htile.next
        have hposx : pos.1 < x.address := UInt32.lt_of_lt_of_le hlt hle
        refine ⟨⟨List.mem_cons_of_mem pos htile.entry, w, List.mem_cons_of_mem pos hw, hltw,
          hend, ?_⟩, UInt32.le_of_lt hposx⟩
        intro w' hw' hltw'
        rcases List.mem_cons.mp hw' with rfl | hw'
        · exact absurd hltw' (UInt32.lt_asymm hposx)
        · exact hleast w' hw' hltw'

/-- The symbols cover everything from the first address up to the last. -/
theorem exists_tile {q : Addr32} (hpos : pos.1 ≤ q) (hlast : ∃ w ∈ rest, q < w.1)
    (h : Sorted (pos :: rest)) :
    ∃ x ∈ tiles pos rest, x.address ≤ q ∧ q.toNat < x.address.toNat + x.size.toNat := by
  induction rest generalizing pos with
  | nil =>
      obtain ⟨w, hw, -⟩ := hlast
      exact absurd hw List.not_mem_nil
  | cons next rest ih =>
      obtain ⟨hlt, hrest⟩ := List.pairwise_cons.mp h
      by_cases hq : q < next.1
      · refine ⟨_, List.mem_cons_self, hpos, ?_⟩
        rw [toNat_gap (hlt next List.mem_cons_self)]
        exact UInt32.lt_iff_toNat_lt.mp hq
      · obtain ⟨w, hw, hqw⟩ := hlast
        have hw' : w ∈ rest := by
          rcases List.mem_cons.mp hw with rfl | hw
          · exact absurd hqw hq
          · exact hw
        obtain ⟨x, hx, hle, hin⟩ := ih (UInt32.not_lt.mp hq) ⟨w, hw', hqw⟩ hrest
        exact ⟨x, List.mem_cons_of_mem _ hx, hle, hin⟩

/-- An address between two of the table's is in a symbol. -/
theorem exists_tile_between {q : Addr32} (h : Sorted (pos :: rest))
    (hlow : ∃ w ∈ pos :: rest, w.1 ≤ q) (hhigh : ∃ w ∈ pos :: rest, q < w.1) :
    ∃ x ∈ tiles pos rest, x.span.extent.Contains q.toNat := by
  obtain ⟨hfirst, -⟩ := List.pairwise_cons.mp h
  obtain ⟨w, hw, hwq⟩ := hlow
  obtain ⟨w', hw', hqw'⟩ := hhigh
  -- the first address of the table is the smallest, and the greater one is behind it
  have hpos : pos.1 ≤ q := by
    rcases List.mem_cons.mp hw with rfl | hw
    · exact hwq
    · exact UInt32.le_trans (UInt32.le_of_lt (hfirst w hw)) hwq
  have hrest : w' ∈ rest := by
    rcases List.mem_cons.mp hw' with rfl | hw'
    · exact absurd hqw' (UInt32.not_lt.mpr hpos)
    · exact hw'
  obtain ⟨x, hx, hle, hin⟩ := exists_tile hpos ⟨w', hrest, hqw'⟩ h
  refine ⟨x, hx, UInt32.le_iff_toNat_le.mp hle, ?_⟩
  simp only [Symbol.span, MemoryAlloc.extent_stop]
  omega

end Tiles

/-! ### The set of symbols -/

section SymbolMap

variable {B : SearchTree.Balancer Symbol Unit} {m : SearchTree Symbol Unit}
  {pos : Addr32 × String} {rest : List (Addr32 × String)}

/-- The comparator of the set orders the intervals of the symbols. -/
theorem ordersExtents_symbol :
    SearchTree.OrdersExtents Symbol.comp (fun x => x.span.extent) fun x => x.span.Fits :=
  fun hx => Symbol.comp_iff hx

/-- The second loop of `Load` adds exactly the symbols made. -/
theorem spaced_insertSymbols (h : Sorted (pos :: rest))
    (hm : m.Spaced (fun x => x.span.extent) fun x => x.span.Fits)
    (hstop : ∀ e ∈ m.toList, e.1.span.extent.stop ≤ pos.1.toNat) :
    (insertSymbols B pos rest m).Spaced (fun x => x.span.extent) (fun x => x.span.Fits) ∧
      ∀ e, e ∈ (insertSymbols B pos rest m).toList ↔
        e ∈ m.toList ∨ e.1 ∈ tiles pos rest := by
  induction rest generalizing pos m with
  | nil => exact ⟨hm, fun e => (or_iff_left List.not_mem_nil).symm⟩
  | cons next rest ih =>
      obtain ⟨hpos, hrest⟩ := List.pairwise_cons.mp h
      have hgap := toNat_gap (hpos next List.mem_cons_self)
      have hlt := UInt32.lt_iff_toNat_lt.mp (hpos next List.mem_cons_self)
      obtain ⟨-, hins, hmem⟩ := hm.insert_of_free ordersExtents_symbol (tiles_head h).fits B ()
        fun e he => Extent.Before.not_meets (hstop e he)
      obtain ⟨hspaced, hfinal⟩ := ih hrest hins fun e he => by
        rcases (hmem e).mp he with rfl | he
        · simp only [Symbol.span, MemoryAlloc.extent_stop]
          omega
        · exact (hstop e he).trans hlt.le
      refine ⟨hspaced, fun e => ?_⟩
      rw [insertSymbols, hfinal e, hmem e, tiles, List.mem_cons, Prod.ext_iff]
      simp only [and_true]
      tauto

/-- **A lookup finds the symbol that contains the address**, if there is one. -/
theorem find_tiles (h : Sorted (pos :: rest)) (q : Addr32) :
    (∀ j, (insertSymbols B pos rest SearchTree.nil).find Symbol.comp (.point q) = some j →
        j.first ∈ tiles pos rest ∧ j.first.span.extent.Contains q.toNat) ∧
      ((insertSymbols B pos rest SearchTree.nil).find Symbol.comp (.point q) = none →
        ∀ x ∈ tiles pos rest, ¬ x.span.extent.Contains q.toNat) := by
  obtain ⟨hspaced, hmem⟩ := spaced_insertSymbols (B := B) h (SearchTree.spaced_nil _ _)
    fun e he => absurd he List.not_mem_nil
  have hpoint : (Symbol.point q).span.Fits := MemoryAlloc.fits_zero q
  constructor
  · intro j hj
    obtain ⟨hget, hmeets⟩ := hspaced.find_eq_some ordersExtents_symbol hpoint hj
    have hin := (hmem j.deref).mp (List.mem_of_getElem? hget)
    exact ⟨hin.resolve_left List.not_mem_nil, MemoryAlloc.meets_zero.mp hmeets⟩
  · intro hnone x hx hc
    have hfree := (hspaced.find_eq_none_iff ordersExtents_symbol hpoint).mp hnone
    exact hfree (x, ()) ((hmem _).mpr (Or.inr hx)) (MemoryAlloc.meets_zero.mpr hc)

end SymbolMap

/-! ### Files of well-formed lines -/

/-- A well-formed line: eight hexadecimal digits, a type character and a name without blanks
of fewer than `100` characters, with blanks in between, of fewer than `500` characters in
all. -/
structure MapLine where
  digits : List Char
  typeGap : List Char
  type : Char
  nameGap : List Char
  name : List Char
  digits_length : digits.length = 8
  digits_hex : ∀ c ∈ digits, Scan.isHexDigit c = true
  gaps_blank : ∀ c ∈ typeGap ++ nameGap, Scan.isSpace c = true ∧ c ≠ '\n'
  visible : ∀ c ∈ type :: name, Scan.isSpace c = false ∧ c ≠ '\x00'
  name_ne_nil : name ≠ []
  name_length : name.length < 100
  length : (digits ++ (typeGap ++ type :: (nameGap ++ name))).length < 500

namespace MapLine

variable (l : MapLine)

/-- The line as it stands in the file. -/
def text : List Char := l.digits ++ (l.typeGap ++ l.type :: (l.nameGap ++ l.name))

/-- The address on the line. -/
def address : Addr32 := UInt32.ofNat (Scan.hexValue l.digits)

/-- The name on the line. -/
def symbolName : String := String.ofList l.name

/-- What the loop scans from the line. -/
def scanned : Scanned := ⟨l.address, l.type, l.symbolName⟩

/-- No character of a line ends a line or a string. -/
theorem plain_of_mem {c : Char} (hc : c ∈ l.text) : c ≠ '\n' ∧ c ≠ '\x00' := by
  have hspace : Scan.isSpace '\n' = true := rfl
  have hblank : ∀ d ∈ l.typeGap ++ l.nameGap, d ≠ '\n' ∧ d ≠ '\x00' := by
    intro d hd
    obtain ⟨hs, hn⟩ := l.gaps_blank d hd
    refine ⟨hn, ?_⟩
    rintro rfl
    exact absurd hs (by decide)
  have hvisible : ∀ d ∈ l.type :: l.name, d ≠ '\n' ∧ d ≠ '\x00' := by
    intro d hd
    obtain ⟨hs, hn⟩ := l.visible d hd
    refine ⟨?_, hn⟩
    rintro rfl
    exact absurd (hs.symm.trans hspace) Bool.false_ne_true
  rcases List.mem_append.mp hc with hc | hc
  · have hhex := l.digits_hex c hc
    constructor <;> (rintro rfl; exact absurd hhex (by decide))
  rcases List.mem_append.mp hc with hc | hc
  · exact hblank c (List.mem_append_left _ hc)
  rcases List.mem_cons.mp hc with rfl | hc
  · exact hvisible _ List.mem_cons_self
  rcases List.mem_append.mp hc with hc | hc
  · exact hblank c (List.mem_append_right _ hc)
  · exact hvisible c (List.mem_cons_of_mem _ hc)

/-- **A well-formed line is scanned as it is written.** -/
theorem sscanf_text (v : Scanned) : v.sscanf l.text = some l.scanned := by
  have hnul : l.text.takeWhile (· ≠ '\x00') = l.text := by
    rw [List.takeWhile_eq_self_iff]
    intro c hc
    exact decide_eq_true (l.plain_of_mem hc).2
  have hne : l.digits ≠ [] := by
    intro hnil
    have hlen := l.digits_length
    rw [hnil] at hlen
    cases hlen
  have hhex : Scan.scanHex 8 l.text =
      some (l.address, l.typeGap ++ l.type :: (l.nameGap ++ l.name)) := by
    rw [← l.digits_length]
    exact Scan.scanHex_digits hne l.digits_hex
  have hchar : Scan.scanChar (l.typeGap ++ l.type :: (l.nameGap ++ l.name)) =
      some (l.type, l.nameGap ++ l.name) :=
    Scan.scanChar_gap (fun d hd => (l.gaps_blank d (List.mem_append_left _ hd)).1)
      (l.visible _ List.mem_cons_self).1
  have hword : Scan.scanWord (l.nameGap ++ l.name) = some l.name :=
    Scan.scanWord_gap (fun d hd => (l.gaps_blank d (List.mem_append_right _ hd)).1)
      l.name_ne_nil fun d hd => (l.visible d (List.mem_cons_of_mem _ hd)).1
  simp only [Scanned.sscanf, hnul, hhex, hchar, hword, if_pos l.name_length]
  rfl

end MapLine

/-- The lines of a file, with the empty one that follows a newline at its end. -/
def fileLines (ls : List MapLine) (newline : Bool) : List (List Char) :=
  ls.map MapLine.text ++ if newline then [[]] else []

/-- The text of a file. -/
def systemMap (ls : List MapLine) (newline : Bool) : List Char :=
  ['\n'].intercalate (fileLines ls newline)

/-- The lines whose type is not `A`. -/
def symbolLines (ls : List MapLine) : List MapLine := ls.filter (·.type ≠ 'A')

/-- The addresses and names on these lines. -/
def symbolWrites (ls : List MapLine) : List (Addr32 × String) :=
  (symbolLines ls).map fun l => (l.address, l.symbolName)

section Files

variable {ls : List MapLine} {newline : Bool} {v : Scanned}

theorem writes_scanned : writes (ls.map MapLine.scanned) = symbolWrites ls := by
  rw [writes, symbolWrites, symbolLines, List.filter_map, List.map_map]
  rfl

theorem readLines_systemMap (hne : ls ≠ []) :
    Scan.readLines 500 [] (systemMap ls newline) = some (fileLines ls newline) := by
  refine Scan.readLines_intercalate ?_ fun s hs => ?_
  · rw [fileLines]
    exact List.append_ne_nil_of_left_ne_nil (by simpa using hne) _
  · rw [fileLines, List.mem_append] at hs
    rcases hs with hs | hs
    · obtain ⟨l, -, rfl⟩ := List.mem_map.mp hs
      exact ⟨fun hc => (l.plain_of_mem hc).1 rfl, l.length⟩
    · have hnil : s = [] := by
        split_ifs at hs with hnl
        · exact List.mem_singleton.mp hs
        · exact absurd hs List.not_mem_nil
      subst hnil
      exact ⟨List.not_mem_nil, by simp⟩

/-- Scanning well-formed lines and what follows them. -/
theorem scans_text (hne : ls ≠ []) (lines : List (List Char)) :
    scans v (ls.map MapLine.text ++ lines) =
      (scans (ls.getLast hne).scanned lines).map (ls.map MapLine.scanned ++ ·) := by
  induction ls generalizing v with
  | nil => exact absurd rfl hne
  | cons l ls ih =>
      simp only [List.map_cons, List.cons_append, scans, l.sscanf_text v]
      cases ls with
      | nil => rfl
      | cons l' ls =>
          rw [ih (List.cons_ne_nil _ _), Option.map_map, List.getLast_cons_cons]
          rfl

theorem writes_append (vs us : List Scanned) : writes (vs ++ us) = writes vs ++ writes us := by
  rw [writes, List.filter_append, List.map_append]
  rfl

/-- Scanning the same values again writes nothing new, into either map. -/
theorem lastWrite_writes_repeat {κ ν : Type} [DecidableEq κ] (g : Addr32 × String → κ × ν)
    (vs : List Scanned) (u : Scanned) (k : κ) :
    lastWrite k ((writes (vs ++ [u] ++ [u])).map g) = lastWrite k ((writes (vs ++ [u])).map g) := by
  by_cases hu : u.type ≠ 'A'
  · have hone : writes [u] = [(u.address, u.name)] := by simp [writes, hu]
    rw [writes_append, writes_append, hone, List.map_append, List.map_append,
      List.map_singleton]
    exact lastWrite_repeat k _ _
  · have hnone : writes [u] = [] := by simp [writes, hu]
    rw [writes_append (vs ++ [u]), hnone, List.append_nil]

/-- **What the loop writes for a file of well-formed lines**: under each key, what the last
line with that key says. The empty line at the end repeats the line before it. -/
theorem scans_fileLines (v : Scanned) (newline : Bool) (hne : ls ≠ []) :
    ∃ vs, scans v (fileLines ls newline) = some vs ∧
      ∀ {κ ν : Type} [DecidableEq κ] (g : Addr32 × String → κ × ν) (k : κ),
        lastWrite k ((writes vs).map g) = lastWrite k ((symbolWrites ls).map g) := by
  cases newline with
  | false =>
      refine ⟨ls.map MapLine.scanned, ?_, fun g k => ?_⟩
      · rw [fileLines, scans_text hne]
        simp [scans]
      · rw [writes_scanned]
  | true =>
      refine ⟨ls.map MapLine.scanned ++ [(ls.getLast hne).scanned], ?_, fun g k => ?_⟩
      · rw [fileLines, scans_text hne]
        rfl
      · have hlast : ls.map MapLine.scanned =
            ls.dropLast.map MapLine.scanned ++ [(ls.getLast hne).scanned] := by
          conv_lhs => rw [← List.dropLast_append_getLast hne]
          rw [List.map_append, List.map_singleton]
        rw [← writes_scanned, hlast]
        exact lastWrite_writes_repeat g _ _ k

end Files

/-! ### Lookups -/

/-- `x` is the symbol that encloses `q`, in the file with the lines `ls`: its address is the
greatest on a symbol's line not above `q`, its size is the distance to the next greater one,
and its name is that of the last such line with its address. -/
structure Encloses (ls : List MapLine) (q : Addr32) (x : Symbol) : Prop where
  address : ∃ l ∈ symbolLines ls, l.address = x.address
  address_le : x.address ≤ q
  greatest : ∀ l ∈ symbolLines ls, l.address ≤ q → l.address ≤ x.address
  size : ∃ l ∈ symbolLines ls, x.address < l.address ∧ x.size = l.address - x.address ∧
    ∀ l' ∈ symbolLines ls, x.address < l'.address → l.address ≤ l'.address
  inside : q - x.address < x.size
  name : lastWrite x.address (symbolWrites ls) = some x.name

section Lookup

variable {ls : List MapLine} {ws : List (Addr32 × String)} {q : Addr32} {x : Symbol}

/-- The keys of the table are the addresses on the symbols' lines. -/
theorem exists_mem_table_iff (hws : ∀ a, lastWrite a ws = lastWrite a (symbolWrites ls))
    {a : Addr32} : (∃ w ∈ table ws, w.1 = a) ↔ ∃ l ∈ symbolLines ls, l.address = a := by
  rw [exists_mem_table_iff_mem, ← exists_lastWrite_iff, hws a, exists_lastWrite_iff, symbolWrites]
  constructor
  · rintro ⟨w, hw, rfl⟩
    obtain ⟨l, hl, rfl⟩ := List.mem_map.mp hw
    exact ⟨l, hl, rfl⟩
  · rintro ⟨l, hl, rfl⟩
    exact ⟨_, List.mem_map_of_mem hl, rfl⟩

/-- The symbol of the table that contains an address encloses it. -/
theorem Tiles.encloses (hws : ∀ a, lastWrite a ws = lastWrite a (symbolWrites ls))
    (h : Tiles (table ws) x) (hq : x.span.extent.Contains q.toNat) : Encloses ls q x := by
  obtain ⟨w, hw, hlt, hend, hleast⟩ := h.next
  have hpos := h.size_pos
  have hlt' := UInt32.lt_iff_toNat_lt.mp hlt
  obtain ⟨hlo, hhi⟩ := hq
  simp only [Symbol.span, MemoryAlloc.extent_start, MemoryAlloc.extent_stop] at hlo hhi
  have hle : x.address ≤ q := UInt32.le_iff_toNat_le.mpr hlo
  obtain ⟨lw, hlw, hlwa⟩ := (exists_mem_table_iff hws).mp ⟨w, hw, rfl⟩
  have hkey : ∀ l ∈ symbolLines ls, ∃ w' ∈ table ws, w'.1 = l.address :=
    fun l hl => (exists_mem_table_iff hws).mpr ⟨l, hl, rfl⟩
  refine ⟨(exists_mem_table_iff hws).mp ⟨_, h.entry, rfl⟩, hle, fun l hl hlq => ?_,
    ⟨lw, hlw, hlwa ▸ hlt, ?_, fun l' hl' hlt'' => ?_⟩, ?_, ?_⟩
  · -- an address above that of `x` is at or above the end of `x`
    by_contra hgt
    obtain ⟨w', hw', hw'a⟩ := hkey l hl
    have hge := UInt32.le_iff_toNat_le.mp (hleast w' hw' (hw'a ▸ UInt32.not_le.mp hgt))
    rw [hw'a] at hge
    rw [UInt32.le_iff_toNat_le] at hlq
    omega
  · rw [← UInt32.toNat_inj, hlwa, UInt32.toNat_sub_of_le _ _ (UInt32.le_of_lt hlt)]
    omega
  · obtain ⟨w', hw', hw'a⟩ := hkey l' hl'
    rw [hlwa, ← hw'a]
    exact hleast w' hw' (hw'a ▸ hlt'')
  · rw [UInt32.lt_iff_toNat_lt, UInt32.toNat_sub_of_le _ _ hle]
    omega
  · rw [← hws]
    exact mem_table_iff.mp h.entry

/-- An enclosed address lies between the addresses on two symbols' lines. -/
theorem Encloses.bounds (h : Encloses ls q x) :
    (∃ l ∈ symbolLines ls, l.address ≤ q) ∧ ∃ l ∈ symbolLines ls, q < l.address := by
  obtain ⟨l, hl, hla⟩ := h.address
  obtain ⟨l', hl', hlt, hsize, -⟩ := h.size
  refine ⟨⟨l, hl, hla ▸ h.address_le⟩, l', hl', ?_⟩
  have hin := h.inside
  have hle := UInt32.le_iff_toNat_le.mp h.address_le
  rw [hsize, UInt32.lt_iff_toNat_lt, UInt32.toNat_sub_of_le _ _ h.address_le,
    UInt32.toNat_sub_of_le _ _ (UInt32.le_of_lt hlt)] at hin
  rw [UInt32.lt_iff_toNat_lt]
  omega

/-- An address between those on two symbols' lines is in a symbol of the table. -/
theorem exists_tile_of_lines {pos : Addr32 × String} {rest : List (Addr32 × String)}
    (hws : ∀ a, lastWrite a ws = lastWrite a (symbolWrites ls))
    (htable : table ws = pos :: rest) (hlow : ∃ l ∈ symbolLines ls, l.address ≤ q)
    (hhigh : ∃ l ∈ symbolLines ls, q < l.address) :
    ∃ x ∈ tiles pos rest, x.span.extent.Contains q.toNat := by
  obtain ⟨l, hl, hlq⟩ := hlow
  obtain ⟨l', hl', hql'⟩ := hhigh
  obtain ⟨w, hw, hwa⟩ := (exists_mem_table_iff hws).mpr ⟨l, hl, rfl⟩
  obtain ⟨w', hw', hw'a⟩ := (exists_mem_table_iff hws).mpr ⟨l', hl', rfl⟩
  rw [htable] at hw hw'
  exact exists_tile_between (htable ▸ sorted_table ws) ⟨w, hw, hwa ▸ hlq⟩ ⟨w', hw', hw'a ▸ hql'⟩

/-- The lookup of an address in the symbols made from the table. -/
theorem lookup_table {B : SearchTree.Balancer Symbol Unit} {pos : Addr32 × String}
    {rest : List (Addr32 × String)} {names : String → Option Addr32} (symbol : Symbol)
    (hws : ∀ a, lastWrite a ws = lastWrite a (symbolWrites ls))
    (htable : table ws = pos :: rest) {t : SymbolTable}
    (ht : t = ⟨names, insertSymbols B pos rest SearchTree.nil⟩) :
    ((t.lookup q symbol).1 = 0 ↔
        (∃ l ∈ symbolLines ls, l.address ≤ q) ∧ ∃ l ∈ symbolLines ls, q < l.address) ∧
      ((t.lookup q symbol).1 = 0 → Encloses ls q (t.lookup q symbol).2) := by
  have hsorted : Sorted (pos :: rest) := htable ▸ sorted_table ws
  obtain ⟨hsome, hnone⟩ := find_tiles (B := B) hsorted q
  subst ht
  cases hfind : (insertSymbols B pos rest SearchTree.nil).find Symbol.comp (.point q) with
  | some j =>
      simp only [SymbolTable.lookup, hfind]
      obtain ⟨hmem, hcont⟩ := hsome j hfind
      have htile : Tiles (table ws) j.first := htable ▸ (tiles_of_mem hsorted hmem).1
      have hencl := htile.encloses hws hcont
      exact ⟨iff_of_true trivial hencl.bounds, fun _ => hencl⟩
  | none =>
      simp only [SymbolTable.lookup, hfind]
      refine ⟨iff_of_false Int.one_ne_zero ?_, fun hret => absurd hret Int.one_ne_zero⟩
      rintro ⟨hlow, hhigh⟩
      obtain ⟨x, hx, hcont⟩ := exists_tile_of_lines hws htable hlow hhigh
      exact hnone hfind x hx hcont

end Lookup

/-- The lookup of a name, in terms of what was written under it. -/
theorem lookupName_of_writes {t : SymbolTable} {ws : List (String × Addr32)} {name : String}
    (ht : t.nameToAddressMap name = lastWrite name ws) (address : Addr32) :
    ((t.lookupName name address).1 = 0 ↔ ∃ w ∈ ws, w.1 = name) ∧
      ((t.lookupName name address).1 = 0 →
        lastWrite name ws = some (t.lookupName name address).2) := by
  rw [SymbolTable.lookupName, ht, ← exists_lastWrite_iff]
  cases hlast : lastWrite name ws with
  | some a => simp
  | none => simp

/-- The names written are those on the symbols' lines. -/
theorem exists_mem_swap_iff {ls : List MapLine} {name : String} :
    (∃ w ∈ (symbolWrites ls).map Prod.swap, w.1 = name) ↔
      ∃ l ∈ symbolLines ls, l.symbolName = name := by
  simp only [symbolWrites, List.map_map, List.mem_map]
  constructor
  · rintro ⟨w, ⟨l, hl, rfl⟩, hname⟩
    exact ⟨l, hl, hname⟩
  · rintro ⟨l, hl, hname⟩
    exact ⟨_, ⟨l, hl, rfl⟩, hname⟩

/-- **Lookups name the enclosing symbol.** For every file of well-formed lines, at least one
of them of another type than `A`, `Load` returns. Then the lookup of an address returns `0`
exactly from the smallest up to below the largest address on such a line, with the symbol
that encloses it; and the lookup of a name returns `0` exactly if the name is on such a line,
with the address on the last one. -/
theorem lookup_encloses (B : SearchTree.Balancer Symbol Unit) (v : Scanned)
    {ls : List MapLine} (newline : Bool) (hsymbol : ∃ l ∈ ls, l.type ≠ 'A') :
    ∃ t, SymbolTable.empty.load B v (systemMap ls newline) = some t ∧
      (∀ q symbol,
        ((t.lookup q symbol).1 = 0 ↔
            (∃ l ∈ symbolLines ls, l.address ≤ q) ∧ ∃ l ∈ symbolLines ls, q < l.address) ∧
          ((t.lookup q symbol).1 = 0 → Encloses ls q (t.lookup q symbol).2)) ∧
      ∀ name address,
        ((t.lookupName name address).1 = 0 ↔ ∃ l ∈ symbolLines ls, l.symbolName = name) ∧
          ((t.lookupName name address).1 = 0 →
            lastWrite name ((symbolWrites ls).map Prod.swap) =
              some (t.lookupName name address).2) := by
  obtain ⟨l, hl, htype⟩ := hsymbol
  obtain ⟨vs, hscans, hwrites⟩ := scans_fileLines v newline (List.ne_nil_of_mem hl)
  have haddr : ∀ a, lastWrite a (writes vs) = lastWrite a (symbolWrites ls) := by
    intro a
    simpa using hwrites id a
  have hmem : l ∈ symbolLines ls := List.mem_filter.mpr ⟨hl, decide_eq_true htype⟩
  cases htable : table (writes vs) with
  | nil =>
      obtain ⟨w, hw, -⟩ := (exists_mem_table_iff haddr).mpr ⟨l, hmem, rfl⟩
      rw [htable] at hw
      exact absurd hw List.not_mem_nil
  | cons pos rest =>
      refine ⟨_, load_eq_some.mpr ⟨_, vs, pos, rest, readLines_systemMap (List.ne_nil_of_mem hl),
        hscans, htable, rfl⟩, fun q symbol => lookup_table symbol haddr htable rfl,
        fun name address => ?_⟩
      obtain ⟨hret, hfound⟩ := lookupName_of_writes
        (t := ⟨fun name => lastWrite name ((writes vs).map Prod.swap),
          insertSymbols B pos rest SearchTree.nil⟩) (hwrites Prod.swap name) address
      exact ⟨hret.trans exists_mem_swap_iff, hfound⟩

/-- `c0100000 T _text`. -/
def textLine : MapLine where
  digits := ['c', '0', '1', '0', '0', '0', '0', '0']
  typeGap := [' ']
  type := 'T'
  nameGap := [' ']
  name := ['_', 't', 'e', 'x', 't']
  digits_length := rfl
  digits_hex := List.all_eq_true.mp rfl
  gaps_blank := by simp [Scan.isSpace]
  visible := by simp [Scan.isSpace]
  name_ne_nil := List.cons_ne_nil _ _
  name_length := by decide
  length := by decide

/-- `c0300000 T _etext`. -/
def etextLine : MapLine where
  digits := ['c', '0', '3', '0', '0', '0', '0', '0']
  typeGap := [' ']
  type := 'T'
  nameGap := [' ']
  name := ['_', 'e', 't', 'e', 'x', 't']
  digits_length := rfl
  digits_hex := List.all_eq_true.mp rfl
  gaps_blank := by simp [Scan.isSpace]
  visible := by simp [Scan.isSpace]
  name_ne_nil := List.cons_ne_nil _ _
  name_length := by decide
  length := by decide

/-- An address between the two lines. -/
theorem lookup_encloses_text :
    ∃ t, SymbolTable.empty.load SearchTree.Balancer.id ⟨0, 'A', ""⟩
        (systemMap [textLine, etextLine] true) = some t ∧
      (t.lookup 0xc0100004 ⟨0, 0, ""⟩).1 = 0 := by
  have hsymbol : ∃ l ∈ [textLine, etextLine], l.type ≠ 'A' :=
    ⟨textLine, List.mem_cons_self, by decide⟩
  obtain ⟨t, hload, hlookup, -⟩ := lookup_encloses SearchTree.Balancer.id ⟨0, 'A', ""⟩ true
    hsymbol
  refine ⟨t, hload, (hlookup _ _).1.mpr ⟨⟨textLine, List.mem_cons_self, by decide⟩, ?_⟩⟩
  exact ⟨etextLine, List.mem_cons_of_mem _ List.mem_cons_self, by decide⟩

end MemCheck
