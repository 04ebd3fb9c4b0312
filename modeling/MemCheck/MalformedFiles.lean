import MemCheck.Lib.Stream
import MemCheck.SymbolTable

/-!
# Malformed Files

`SymbolTable::Load` checks neither that a line was read nor that it was scanned. This module
says for which files that matters.

The loop ends on the end of the stream only. A line that does not fit its buffer leaves the
stream failed but not at its end, and every later `getline` does nothing, so the loop never
ends. A line on which `sscanf` does not assign all three variables is stored all the same,
under what the variables held before: the effect of such a line is compared with that of the
file without it.

## Main results

* `load_ends_iff`: the files whose loading ends;
* `answers_ofWrites_iff`: when two sequences of writes give the same answers;
* `malformed_contribute_nothing_iff`: the files whose malformed lines contribute nothing.
-/

namespace MemCheck

open Writes

/-! ### The read loop -/

/-- The read loop of `Load` ends on a file with the given text. -/
def LoadEnds (text : List Char) : Prop := ∃ lines, Scan.Reads 500 (.ofText text) lines

/-- **Loading ends exactly if every line fits the buffer**: `500` characters in a row always
hold a newline. -/
theorem load_ends_iff (text : List Char) :
    LoadEnds text ↔ ∀ w, w <:+: text → w.length = 500 → '\n' ∈ w :=
  Scan.exists_reads_iff (Nat.succ_pos 499)

/-- A file of one line of `500` characters is never loaded. -/
theorem not_loadEnds_long_line : ¬ LoadEnds (List.replicate 500 'a') := by
  intro h
  have hmem := (Scan.exists_reads_iff (Nat.succ_pos 499)).mp h _ List.infix_rfl
    List.length_replicate
  have heq := List.eq_of_mem_replicate hmem
  exact absurd heq (by decide)

/-! ### Lines and what is stored for them -/

/-- The three fields of a line, each present if its conversion and those before it succeed. -/
def fields (s : List Char) : Option Addr32 × Option Char × Option (List Char) :=
  match Scan.scanHex 8 (s.takeWhile (· ≠ '\x00')) with
  | none => (none, none, none)
  | some (address, s) =>
      match Scan.scanChar s with
      | none => (some address, none, none)
      | some (type, s) => (some address, some type, Scan.scanWord s)

/-- The line has all three fields. -/
def Complete (s : List Char) : Bool := (fields s).2.2.isSome

/-- The name on the line, if there is one, fits its buffer. -/
def NameFits (s : List Char) : Prop := ∀ name, (fields s).2.2 = some name → name.length < 100

instance (s : List Char) : Decidable (NameFits s) :=
  decidable_of_iff ((fields s).2.2.all (fun name => name.length < 100) = true) (by
    simp [NameFits, Option.all_eq_true])

/-- The variables after a line: a field that is not on the line keeps its value. -/
def Scanned.after (v : Scanned) (s : List Char) : Scanned where
  address := (fields s).1.getD v.address
  type := (fields s).2.1.getD v.type
  name := ((fields s).2.2.map String.ofList).getD v.name

/-- Each line with the variables after it. -/
def rows (v : Scanned) : List (List Char) → List (List Char × Scanned)
  | [] => []
  | s :: lines => (s, v.after s) :: rows (v.after s) lines

/-- The address and the name stored for a line. -/
def stored (r : List Char × Scanned) : Option (Addr32 × String) :=
  if r.2.type ≠ 'A' then some (r.2.address, r.2.name) else none

/-- What is stored for the lines of a file. -/
def fileWrites (v : Scanned) (lines : List (List Char)) : List (Addr32 × String) :=
  (rows v lines).filterMap stored

/-- The text of a file with the given lines. -/
def fileText (lines : List (List Char)) : List Char := ['\n'].intercalate lines

/-- Every text is that of some lines. -/
theorem exists_fileText (text : List Char) :
    ∃ lines ≠ [], (∀ s ∈ lines, '\n' ∉ s) ∧ fileText lines = text := by
  induction text with
  | nil => exact ⟨[[]], List.cons_ne_nil _ _, by simp, rfl⟩
  | cons c text ih =>
      obtain ⟨lines, hne, hlines, rfl⟩ := ih
      obtain ⟨s, rest, rfl⟩ := List.exists_cons_of_ne_nil hne
      obtain ⟨hs, hrest⟩ := List.forall_mem_cons.mp hlines
      by_cases hc : c = '\n'
      · subst hc
        refine ⟨[] :: s :: rest, List.cons_ne_nil _ _, ?_, rfl⟩
        exact List.forall_mem_cons.mpr ⟨List.not_mem_nil, hlines⟩
      · refine ⟨(c :: s) :: rest, List.cons_ne_nil _ _, ?_, ?_⟩
        · refine List.forall_mem_cons.mpr ⟨fun hmem => ?_, hrest⟩
          rcases List.mem_cons.mp hmem with heq | hmem
          · exact hc heq.symm
          · exact hs hmem
        · cases rest with
          | nil => rfl
          | cons s' rest => rfl

/-- The lines of the file without its malformed ones. An empty file has one empty line. -/
def cleanLines (lines : List (List Char)) : List (List Char) :=
  if lines.filter Complete = [] then [[]] else lines.filter Complete

section Rows

variable {v : Scanned} {s : List Char} {lines : List (List Char)}

/-- `sscanf` assigns the fields of the line. -/
theorem sscanf_of_nameFits (h : NameFits s) (v : Scanned) : v.sscanf s = some (v.after s) := by
  rw [NameFits] at h
  rw [Scanned.sscanf, Scanned.after]
  rw [fields] at h ⊢
  cases hhex : Scan.scanHex 8 (s.takeWhile (· ≠ '\x00')) with
  | none => rfl
  | some x =>
      obtain ⟨address, s'⟩ := x
      simp only [hhex] at h ⊢
      cases hchar : Scan.scanChar s' with
      | none => rfl
      | some y =>
          obtain ⟨type, s''⟩ := y
          simp only [hchar] at h ⊢
          cases hword : Scan.scanWord s'' with
          | none => rfl
          | some name =>
              simp only [if_pos (h name hword)]
              rfl

/-- A line with all three fields leaves nothing of what the variables held. -/
theorem after_of_complete (h : Complete s = true) (v w : Scanned) : v.after s = w.after s := by
  rw [Scanned.after, Scanned.after]
  rw [Complete] at h
  rw [fields] at h ⊢
  cases hhex : Scan.scanHex 8 (s.takeWhile (· ≠ '\x00')) with
  | none =>
      simp only [hhex] at h
      cases h
  | some x =>
      obtain ⟨address, s'⟩ := x
      simp only [hhex] at h ⊢
      cases hchar : Scan.scanChar s' with
      | none =>
          simp only [hchar] at h
          cases h
      | some y =>
          obtain ⟨type, s''⟩ := y
          simp only [hchar] at h ⊢
          obtain ⟨name, hword⟩ := Option.isSome_iff_exists.mp h
          rw [hword]
          rfl

/-- What the loop scans, line by line. -/
theorem scans_eq_rows (h : ∀ s ∈ lines, NameFits s) :
    scans v lines = some ((rows v lines).map Prod.snd) := by
  induction lines generalizing v with
  | nil => rfl
  | cons s lines ih =>
      obtain ⟨hs, hlines⟩ := List.forall_mem_cons.mp h
      rw [scans, sscanf_of_nameFits hs v]
      simp only [ih hlines, Option.map_some, rows, List.map_cons]

/-- The complete lines are stored the same without the others. -/
theorem rows_filter_complete (w : Scanned) :
    rows w (lines.filter Complete) = (rows v lines).filter fun r => Complete r.1 := by
  induction lines generalizing v w with
  | nil => rfl
  | cons s lines ih =>
      cases hc : Complete s with
      | false =>
          rw [List.filter_cons_of_neg (by simp [hc]), rows,
            List.filter_cons_of_neg (by simp [hc])]
          exact ih w
      | true =>
          rw [List.filter_cons_of_pos hc, rows, rows, List.filter_cons_of_pos (by exact hc),
            after_of_complete hc w v, ih (v := v.after s)]

theorem writes_map_snd (rs : List (List Char × Scanned)) :
    writes (rs.map Prod.snd) = rs.filterMap stored := by
  induction rs with
  | nil => rfl
  | cons r rs ih =>
      by_cases hr : r.2.type ≠ 'A'
      · have hstored : stored r = some (r.2.address, r.2.name) := if_pos hr
        rw [List.filterMap_cons_some hstored, ← ih, writes, List.map_cons,
          List.filter_cons_of_pos (by simpa using hr), List.map_cons]
        rfl
      · have hstored : stored r = none := if_neg hr
        rw [List.filterMap_cons_none hstored, ← ih, writes, List.map_cons,
          List.filter_cons_of_neg (by simpa using hr)]
        rfl

end Rows

/-! ### The symbols of two tables -/

section Tables

variable {ws ws' : List (Addr32 × String)} {t t' : List (Addr32 × String)} {x y : Symbol}
  {q : Addr32}

theorem Tiles.contains_iff (h : Tiles t x) : x.span.extent.Contains q.toNat ↔
    x.address.toNat ≤ q.toNat ∧ q.toNat < x.address.toNat + x.size.toNat := by
  have hpos := h.size_pos
  rw [Extent.Contains, Symbol.span, MemoryAlloc.extent_start, MemoryAlloc.extent_stop,
    Nat.max_eq_left hpos]

/-- A symbol contains its address. -/
theorem Tiles.contains_address (h : Tiles t x) : x.span.extent.Contains x.address.toNat :=
  h.contains_iff.mpr ⟨le_rfl, Nat.lt_add_of_pos_right h.size_pos⟩

/-- A symbol ends before the next address. -/
theorem Tiles.stop_le (h : Tiles t x) {a : Addr32} (ha : ∃ w ∈ t, w.1 = a)
    (hlt : x.address < a) : x.address.toNat + x.size.toNat ≤ a.toNat := by
  obtain ⟨w, hw, rfl⟩ := ha
  obtain ⟨w', -, -, hend, hleast⟩ := h.next
  rw [hend]
  exact UInt32.le_iff_toNat_le.mp (hleast w hw hlt)

/-- The address of a symbol is the last of the table at or below what it contains. -/
theorem Tiles.le_address (h : Tiles t x) (hq : x.span.extent.Contains q.toNat) {a : Addr32}
    (ha : ∃ w ∈ t, w.1 = a) (haq : a ≤ q) : a ≤ x.address := by
  obtain ⟨-, hlt⟩ := h.contains_iff.mp hq
  rw [UInt32.le_iff_toNat_le] at haq
  by_contra hgt
  have hstop := h.stop_le ha (UInt32.not_le.mp hgt)
  omega

/-- An address is in one symbol at most. -/
theorem Tiles.eq_of_contains (hx : Tiles (table ws) x) (hy : Tiles (table ws) y)
    (hqx : x.span.extent.Contains q.toNat) (hqy : y.span.extent.Contains q.toNat) : x = y := by
  have haddr : x.address = y.address := by
    have hxq := UInt32.le_iff_toNat_le.mpr (hx.contains_iff.mp hqx).1
    have hyq := UInt32.le_iff_toNat_le.mpr (hy.contains_iff.mp hqy).1
    exact UInt32.le_antisymm (hy.le_address hqy ⟨_, hx.entry, rfl⟩ hxq)
      (hx.le_address hqx ⟨_, hy.entry, rfl⟩ hyq)
  have hname : x.name = y.name := by
    have hxe := mem_table_iff.mp hx.entry
    rw [haddr, mem_table_iff.mp hy.entry] at hxe
    exact (Option.some.inj hxe).symm
  have hsize : x.size = y.size := by
    obtain ⟨w, hw, hwlt, hwend, -⟩ := hx.next
    obtain ⟨w', hw', hwlt', hwend', -⟩ := hy.next
    have h1 := hx.stop_le ⟨w', hw', rfl⟩ (haddr ▸ hwlt')
    have h2 := hy.stop_le ⟨w, hw, rfl⟩ (haddr ▸ hwlt)
    rw [← UInt32.toNat_inj]
    rw [haddr] at h1 hwend
    omega
  cases x
  cases y
  cases haddr
  cases hname
  cases hsize
  rfl

/-- An address between two of the table's is in a symbol. -/
theorem exists_tiles_between (hlow : ∃ w ∈ table ws, w.1 ≤ q) (hhigh : ∃ w ∈ table ws, q < w.1) :
    ∃ x, Tiles (table ws) x ∧ x.span.extent.Contains q.toNat := by
  have hsorted := sorted_table ws
  cases htable : table ws with
  | nil =>
      obtain ⟨w, hw, -⟩ := hlow
      rw [htable] at hw
      exact absurd hw List.not_mem_nil
  | cons pos rest =>
      rw [htable] at hsorted hlow hhigh
      obtain ⟨x, hx, hc⟩ := exists_tile_between hsorted hlow hhigh
      exact ⟨x, (tiles_of_mem hsorted hx).1, hc⟩

/-- The symbol at an address of the table below its last. -/
theorem exists_tiles_at {a : Addr32} {name : String} (ha : lastWrite a ws = some name)
    (hhigh : ∃ w ∈ table ws, a < w.1) :
    ∃ x, Tiles (table ws) x ∧ x.address = a ∧ x.name = name := by
  have hentry := mem_table_iff.mpr ha
  obtain ⟨x, hx, hc⟩ := exists_tiles_between ⟨_, hentry, UInt32.le_refl a⟩ hhigh
  have haddr : x.address = a :=
    UInt32.le_antisymm (UInt32.le_iff_toNat_le.mpr (hx.contains_iff.mp hc).1)
      (hx.le_address hc ⟨_, hentry, rfl⟩ (UInt32.le_refl a))
  refine ⟨x, hx, haddr, ?_⟩
  have hxe := mem_table_iff.mp hx.entry
  rw [haddr, ha] at hxe
  exact (Option.some.inj hxe).symm

/-- The symbol that ends at an address of the table above its first. -/
theorem exists_tiles_upto {a b : Addr32} (ha : ∃ w ∈ table ws, w.1 = a)
    (hb : ∃ w ∈ table ws, w.1 = b) (hlt : b < a) :
    ∃ x, Tiles (table ws) x ∧ x.address.toNat + x.size.toNat = a.toNat := by
  have hlt' := UInt32.lt_iff_toNat_lt.mp hlt
  have hone : (1 : Addr32) ≤ a := by
    rw [UInt32.le_iff_toNat_le, UInt32.toNat_one]
    omega
  have hpred : (a - 1).toNat + 1 = a.toNat := by
    rw [UInt32.toNat_sub_of_le _ _ hone, UInt32.toNat_one]
    omega
  obtain ⟨w, hw, rfl⟩ := ha
  obtain ⟨w', hw', rfl⟩ := hb
  obtain ⟨x, hx, hc⟩ := exists_tiles_between (q := w.1 - 1)
    ⟨w', hw', UInt32.le_iff_toNat_le.mpr (by omega)⟩ ⟨w, hw, UInt32.lt_iff_toNat_lt.mpr (by omega)⟩
  obtain ⟨hle, hin⟩ := hx.contains_iff.mp hc
  have hstop := hx.stop_le ⟨w, hw, rfl⟩ (UInt32.lt_iff_toNat_lt.mpr (by omega))
  exact ⟨x, hx, by omega⟩

/-- A symbol of one table is one of another with the same addresses and its entry. -/
theorem Tiles.congr (h : Tiles t x) (hkeys : ∀ a, (∃ w ∈ t, w.1 = a) ↔ ∃ w ∈ t', w.1 = a)
    (hentry : (x.address, x.name) ∈ t') : Tiles t' x := by
  obtain ⟨w, hw, hlt, hend, -⟩ := h.next
  obtain ⟨w', hw', hkey⟩ := (hkeys w.1).mp ⟨w, hw, rfl⟩
  refine ⟨hentry, w', hw', hkey ▸ hlt, hkey ▸ hend, fun w'' hw'' hlt'' => ?_⟩
  have hstop := h.stop_le ((hkeys w''.1).mpr ⟨w'', hw'', rfl⟩) hlt''
  rw [UInt32.le_iff_toNat_le, hkey]
  omega

/-- Tables with the same addresses, and the same names below the last, make the same
symbols. -/
theorem tiles_iff_of_names (hkeys : ∀ a, (∃ w ∈ table ws, w.1 = a) ↔ ∃ w ∈ table ws', w.1 = a)
    (hname : ∀ a name, lastWrite a ws = some name → (∃ w ∈ table ws, a < w.1) →
      lastWrite a ws' = some name) (x : Symbol) : Tiles (table ws) x ↔ Tiles (table ws') x := by
  constructor
  · intro hx
    obtain ⟨w, hw, hlt, -⟩ := hx.next
    exact hx.congr hkeys
      (mem_table_iff.mpr (hname _ _ (mem_table_iff.mp hx.entry) ⟨w, hw, hlt⟩))
  · intro hx
    obtain ⟨w, hw, hlt, -⟩ := hx.next
    obtain ⟨w', hw', hkey⟩ := (hkeys w.1).mpr ⟨w, hw, rfl⟩
    obtain ⟨⟨a, name⟩, he, hea⟩ := (hkeys x.address).mpr ⟨_, hx.entry, rfl⟩
    obtain rfl : a = x.address := hea
    have hsame := hname _ _ (mem_table_iff.mp he) ⟨w', hw', hkey ▸ hlt⟩
    rw [mem_table_iff.mp hx.entry, Option.some.injEq] at hsame
    exact hx.congr (fun a => (hkeys a).symm) (hsame ▸ he)

/-- The last address of a table is where the symbol before it ends, so a table with the same
symbols has it. -/
theorem exists_mem_last (hsame : ∀ x, Tiles (table ws) x → Tiles (table ws') x) {a : Addr32}
    (ha : ∃ w ∈ ws, w.1 = a) (hmax : ∀ w ∈ ws, w.1 ≤ a) {b : Addr32 × String} (hb : b ∈ ws')
    (hsub : ∃ w ∈ ws, w.1 = b.1) : ∃ w ∈ ws', w.1 = a := by
  by_cases hab : b.1 = a
  · exact ⟨b, hb, hab⟩
  · obtain ⟨w, hw, hwb⟩ := hsub
    have hlt : b.1 < a := Std.lt_of_le_of_ne (hwb ▸ hmax w hw) hab
    obtain ⟨x, hx, hend⟩ := exists_tiles_upto (exists_mem_table_iff_mem.mpr ha)
      (exists_mem_table_iff_mem.mpr ⟨w, hw, hwb⟩) hlt
    obtain ⟨w', hw', -, hend', -⟩ := (hsame x hx).next
    refine exists_mem_table_iff_mem.mp ⟨w', hw', ?_⟩
    rw [← UInt32.toNat_inj]
    omega

/-- **The same symbols.** Two tables, the addresses of the second among those of the first,
make the same symbols exactly if each name of the first is in the second too, except that the
name at the last address can differ. -/
theorem tiles_iff (hne : ws' ≠ []) (hsub : ∀ a, (∃ w ∈ ws', w.1 = a) → ∃ w ∈ ws, w.1 = a) :
    (∀ x, Tiles (table ws) x ↔ Tiles (table ws') x) ↔
      ∀ a name, lastWrite a ws = some name → lastWrite a ws' = some name ∨
        ((∃ w ∈ ws', w.1 = a) ∧ ∀ w ∈ ws, w.1 ≤ a) := by
  constructor
  · intro hsame a name ha
    by_cases hhigh : ∃ w ∈ ws, a < w.1
    · obtain ⟨w, hw, hlt⟩ := hhigh
      obtain ⟨w', hw', hkey⟩ := exists_mem_table_iff_mem.mpr ⟨w, hw, rfl⟩
      obtain ⟨x, hx, rfl, rfl⟩ := exists_tiles_at ha ⟨w', hw', hkey ▸ hlt⟩
      exact Or.inl (mem_table_iff.mp ((hsame x).mp hx).entry)
    · have hmax : ∀ w ∈ ws, w.1 ≤ a := fun w hw =>
        UInt32.not_lt.mp fun hlt => hhigh ⟨w, hw, hlt⟩
      obtain ⟨b, hb⟩ := List.exists_mem_of_ne_nil ws' hne
      exact Or.inr ⟨exists_mem_last (fun x => (hsame x).mp) (exists_lastWrite_iff.mp ⟨name, ha⟩)
        hmax hb (hsub b.1 ⟨b, hb, rfl⟩), hmax⟩
  · intro h
    refine tiles_iff_of_names (fun a => ?_) ?_
    · rw [exists_mem_table_iff_mem, exists_mem_table_iff_mem]
      refine ⟨fun ha => ?_, hsub a⟩
      obtain ⟨name, hname⟩ := exists_lastWrite_iff.mpr ha
      rcases h a name hname with hsame | ⟨hkey, -⟩
      · exact exists_lastWrite_iff.mp ⟨name, hsame⟩
      · exact hkey
    · rintro a name ha ⟨w, hw, hlt⟩
      rcases h a name ha with hsame | ⟨-, hmax⟩
      · exact hsame
      · obtain ⟨w', hw', hkey⟩ := exists_mem_table_iff_mem.mp ⟨w, hw, rfl⟩
        exact absurd (hkey ▸ hmax w' hw') (UInt32.not_le.mpr hlt)

end Tables

/-! ### The answers of a table -/

/-- What `Lookup` answers, for every name and for every address. -/
def SymbolTable.answers (t : SymbolTable) :
    (String → Addr32 → ℤ × Addr32) × (Addr32 → Symbol → ℤ × Symbol) :=
  (t.lookupName, t.lookup)

/-- The table `Load` makes from what its first loop stores. -/
def SymbolTable.ofWrites (B : SearchTree.Balancer Symbol Unit) (ws : List (Addr32 × String)) :
    Option SymbolTable :=
  match table ws with
  | [] => none
  | pos :: rest => some ⟨fun name => lastWrite name (ws.map Prod.swap),
      insertSymbols B pos rest SearchTree.nil⟩

section Answers

variable {B : SearchTree.Balancer Symbol Unit} {ws ws' : List (Addr32 × String)}
  {t t' : SymbolTable} {x : Symbol} {q : Addr32}

theorem ofWrites_eq_none_iff : SymbolTable.ofWrites B ws = none ↔ ws = [] := by
  rw [← table_eq_nil_iff, SymbolTable.ofWrites]
  cases table ws with
  | nil => exact iff_of_true rfl rfl
  | cons pos rest => exact iff_of_false nofun nofun

theorem nameToAddressMap_ofWrites (h : SymbolTable.ofWrites B ws = some t) :
    t.nameToAddressMap = fun name => lastWrite name (ws.map Prod.swap) := by
  rw [SymbolTable.ofWrites] at h
  cases htable : table ws with
  | nil =>
      rw [htable] at h
      cases h
  | cons pos rest =>
      rw [htable] at h
      cases h
      rfl

/-- A lookup finds the symbol of the table that contains the address, or none does. -/
theorem lookup_ofWrites (h : SymbolTable.ofWrites B ws = some t) (q : Addr32) (symbol : Symbol) :
    (∃ x, Tiles (table ws) x ∧ x.span.extent.Contains q.toNat ∧ t.lookup q symbol = (0, x)) ∨
      ((∀ x, Tiles (table ws) x → ¬ x.span.extent.Contains q.toNat) ∧
        t.lookup q symbol = (1, symbol)) := by
  have hsorted := sorted_table ws
  rw [SymbolTable.ofWrites] at h
  cases htable : table ws with
  | nil =>
      rw [htable] at h
      cases h
  | cons pos rest =>
      rw [htable] at h hsorted
      cases h
      obtain ⟨hsome, hnone⟩ := find_tiles (B := B) hsorted q
      simp only [SymbolTable.lookup]
      cases hfind : (insertSymbols B pos rest SearchTree.nil).find Symbol.comp (.point q) with
      | some j =>
          obtain ⟨hmem, hc⟩ := hsome j hfind
          exact Or.inl ⟨j.first, (tiles_of_mem hsorted hmem).1, hc, rfl⟩
      | none =>
          refine Or.inr ⟨fun x hx hc => ?_, rfl⟩
          obtain ⟨w, hw, -, hend, -⟩ := hx.next
          obtain ⟨hle, hlt⟩ := hx.contains_iff.mp hc
          obtain ⟨y, hy, hyq⟩ := exists_tile_between hsorted
            ⟨_, hx.entry, UInt32.le_iff_toNat_le.mpr hle⟩
            ⟨w, hw, UInt32.lt_iff_toNat_lt.mpr (hend ▸ hlt)⟩
          exact hnone hfind y hy hyq

theorem lookup_of_tiles (h : SymbolTable.ofWrites B ws = some t) (hx : Tiles (table ws) x)
    (hq : x.span.extent.Contains q.toNat) (symbol : Symbol) : t.lookup q symbol = (0, x) := by
  rcases lookup_ofWrites h q symbol with ⟨y, hy, hyq, hlook⟩ | ⟨hnone, -⟩
  · rw [hlook, hx.eq_of_contains hy hq hyq]
  · exact absurd hq (hnone x hx)

/-- Two tables answer the same by address exactly if they have the same symbols. -/
theorem lookup_eq_iff (h : SymbolTable.ofWrites B ws = some t)
    (h' : SymbolTable.ofWrites B ws' = some t') :
    t.lookup = t'.lookup ↔ ∀ x, Tiles (table ws) x ↔ Tiles (table ws') x := by
  have hhas : ∀ {ws ws' t t'}, SymbolTable.ofWrites B ws = some t →
      SymbolTable.ofWrites B ws' = some t' → t.lookup = t'.lookup →
      ∀ x, Tiles (table ws) x → Tiles (table ws') x := by
    intro ws ws' t t' h h' hsame x hx
    have hlook := lookup_of_tiles h hx hx.contains_address x
    rw [hsame] at hlook
    rcases lookup_ofWrites h' x.address x with ⟨y, hy, -, hlook'⟩ | ⟨-, hlook'⟩
    · obtain rfl := (Prod.mk.inj (hlook.symm.trans hlook')).2
      exact hy
    · exact absurd (Prod.mk.inj (hlook.symm.trans hlook')).1 (by decide)
  constructor
  · exact fun hsame x => ⟨hhas h h' hsame x, hhas h' h hsame.symm x⟩
  · intro hsame
    funext q symbol
    rcases lookup_ofWrites h q symbol with ⟨x, hx, hq, hlook⟩ | ⟨hnone, hlook⟩
    · rw [hlook, lookup_of_tiles h' ((hsame x).mp hx) hq]
    · rcases lookup_ofWrites h' q symbol with ⟨y, hy, hyq, -⟩ | ⟨-, hlook'⟩
      · exact absurd hyq (hnone y ((hsame y).mpr hy))
      · rw [hlook, hlook']

/-- Two tables answer the same by name exactly if their names have the same addresses. -/
theorem lookupName_eq_iff :
    t.lookupName = t'.lookupName ↔ t.nameToAddressMap = t'.nameToAddressMap := by
  constructor
  · intro hsame
    funext name
    have h0 := congrFun (congrFun hsame name) 0
    cases h : t.nameToAddressMap name with
    | none =>
        cases h' : t'.nameToAddressMap name with
        | none => rfl
        | some a' => simp [SymbolTable.lookupName, h, h'] at h0
    | some a =>
        cases h' : t'.nameToAddressMap name with
        | none => simp [SymbolTable.lookupName, h, h'] at h0
        | some a' => simpa [SymbolTable.lookupName, h, h'] using h0
  · intro hsame
    funext name address
    rw [SymbolTable.lookupName, SymbolTable.lookupName, hsame]

theorem lastWrite_swap_mem {name : String} {a : Addr32}
    (h : lastWrite name (ws.map Prod.swap) = some a) : (a, name) ∈ ws := by
  obtain ⟨w, hw, heq⟩ := List.mem_map.mp (mem_of_lastWrite h)
  obtain rfl : w = (a, name) := Prod.swap_injective heq
  exact hw

/-- The names have the same addresses if those of the first do in the second, whose writes are
among those of the first. -/
theorem names_eq_iff (hsub : ws' ⊆ ws) :
    (fun name => lastWrite name (ws.map Prod.swap)) =
        (fun name => lastWrite name (ws'.map Prod.swap)) ↔
      ∀ name a, lastWrite name (ws.map Prod.swap) = some a →
        lastWrite name (ws'.map Prod.swap) = some a := by
  constructor
  · exact fun h name a ha => (congrFun h name).symm.trans ha
  · intro h
    funext name
    cases hname : lastWrite name (ws.map Prod.swap) with
    | some a => exact (h name a hname).symm
    | none =>
        cases hname' : lastWrite name (ws'.map Prod.swap) with
        | none => rfl
        | some a =>
            obtain ⟨b, hb⟩ := exists_lastWrite_iff.mpr ⟨(name, a),
              List.mem_map_of_mem (f := Prod.swap) (hsub (lastWrite_swap_mem hname')), rfl⟩
            exact absurd (hname.symm.trans hb) (Option.some_ne_none b).symm

/-- Some name has an address, unless nothing is written. -/
theorem exists_lastWrite_swap (hne : ws ≠ []) :
    ∃ name a, lastWrite name (ws.map Prod.swap) = some a := by
  obtain ⟨w, hw⟩ := List.exists_mem_of_ne_nil ws hne
  exact ⟨_, exists_lastWrite_iff.mpr ⟨_, List.mem_map_of_mem (f := Prod.swap) hw, rfl⟩⟩

/-- A single write is among others as soon as a name has the same address in both. -/
theorem subset_of_lastWrite_swap (hsub : ws' ⊆ ws ∨ ∃ w, ws' = [w]) {name : String} {a : Addr32}
    (h : lastWrite name (ws.map Prod.swap) = some a)
    (h' : lastWrite name (ws'.map Prod.swap) = some a) : ws' ⊆ ws := by
  rcases hsub with hsub | ⟨w, rfl⟩
  · exact hsub
  · obtain rfl := List.mem_singleton.mp (lastWrite_swap_mem h')
    exact List.cons_subset.mpr ⟨lastWrite_swap_mem h, List.nil_subset ws⟩

/-- **The same answers.** Two sequences of writes, those of the second among those of the
first or a single one, give tables that answer the same exactly if every name of the first has
its address in the second, every address its name, but for the name at the last address, and
the first is not empty unless the second is. -/
theorem answers_ofWrites_iff (hsub : ws' ⊆ ws ∨ ∃ w, ws' = [w]) :
    (SymbolTable.ofWrites B ws).map SymbolTable.answers =
        (SymbolTable.ofWrites B ws').map SymbolTable.answers ↔
      (∀ name a, lastWrite name (ws.map Prod.swap) = some a →
          lastWrite name (ws'.map Prod.swap) = some a) ∧
        (∀ a name, lastWrite a ws = some name → lastWrite a ws' = some name ∨
          ((∃ w ∈ ws', w.1 = a) ∧ ∀ w ∈ ws, w.1 ≤ a)) ∧
        (ws = [] → ws' = []) := by
  by_cases hnil : ws = []
  · subst hnil
    rw [ofWrites_eq_none_iff.mpr rfl, Option.map_none, eq_comm, Option.map_eq_none_iff,
      ofWrites_eq_none_iff]
    exact ⟨fun h => ⟨nofun, nofun, fun _ => h⟩, fun h => h.2.2 rfl⟩
  obtain ⟨t, ht⟩ := Option.ne_none_iff_exists'.mp (mt (ofWrites_eq_none_iff (B := B)).mp hnil)
  by_cases hnil' : ws' = []
  · -- a name of the first has no address in the second
    subst hnil'
    rw [ht, ofWrites_eq_none_iff.mpr rfl, Option.map_none]
    refine iff_of_false nofun fun h => ?_
    obtain ⟨name, a, ha⟩ := exists_lastWrite_swap hnil
    exact absurd (h.1 name a ha) nofun
  obtain ⟨t', ht'⟩ := Option.ne_none_iff_exists'.mp (mt (ofWrites_eq_none_iff (B := B)).mp hnil')
  rw [ht, ht', Option.map_some, Option.map_some, Option.some.injEq, SymbolTable.answers,
    SymbolTable.answers, Prod.mk.injEq, lookup_eq_iff ht ht', lookupName_eq_iff,
    nameToAddressMap_ofWrites ht, nameToAddressMap_ofWrites ht']
  have hkeys : ws' ⊆ ws → ∀ a, (∃ w ∈ ws', w.1 = a) → ∃ w ∈ ws, w.1 = a :=
    fun hss a ⟨w, hw, hwa⟩ => ⟨w, hss hw, hwa⟩
  constructor
  · rintro ⟨hnames, htiles⟩
    obtain ⟨name, a, ha⟩ := exists_lastWrite_swap hnil'
    have hss := subset_of_lastWrite_swap hsub ((congrFun hnames name).trans ha) ha
    exact ⟨(names_eq_iff hss).mp hnames, (tiles_iff hnil' (hkeys hss)).mp htiles,
      fun h => absurd h hnil⟩
  · rintro ⟨hnames, haddrs, -⟩
    obtain ⟨name, a, ha⟩ := exists_lastWrite_swap hnil
    have hss := subset_of_lastWrite_swap hsub ha (hnames name a ha)
    exact ⟨(names_eq_iff hss).mpr hnames, (tiles_iff hnil' (hkeys hss)).mpr haddrs⟩

end Answers

/-! ### Malformed lines -/

/-- **The malformed lines do no harm**, `v` being the values the variables of the loop happen
to have. Whatever is stored for a malformed line is stored anew by a later line, or is what
the rest of the file says; but the name at the last address does not matter. If every line is
malformed, something is stored for one of them unless nothing is for an empty file. -/
structure Harmless (v : Scanned) (lines : List (List Char)) : Prop where
  name : ∀ s u post, (s, u) :: post <:+ rows v lines → Complete s = false → u.type ≠ 'A' →
    (∃ r ∈ post, r.2.type ≠ 'A' ∧ r.2.name = u.name) ∨
      lastWrite u.name ((fileWrites v (cleanLines lines)).map Prod.swap) = some u.address
  address : ∀ s u post, (s, u) :: post <:+ rows v lines → Complete s = false → u.type ≠ 'A' →
    (∃ r ∈ post, r.2.type ≠ 'A' ∧ r.2.address = u.address) ∨
      lastWrite u.address (fileWrites v (cleanLines lines)) = some u.name ∨
      ((∃ w ∈ fileWrites v (cleanLines lines), w.1 = u.address) ∧
        ∀ r ∈ rows v lines, r.2.type ≠ 'A' → r.2.address ≤ u.address)
  stored : (∀ s ∈ lines, Complete s = false) → v.type ≠ 'A' →
    ∃ r ∈ rows v lines, r.2.type ≠ 'A'

section Malformed

variable {B : SearchTree.Balancer Symbol Unit} {v : Scanned} {lines : List (List Char)}

theorem stored_eq_some {r : List Char × Scanned} {w : Addr32 × String} :
    stored r = some w ↔ r.2.type ≠ 'A' ∧ (r.2.address, r.2.name) = w := by
  rw [stored, Option.ite_none_right_eq_some, Option.some.injEq]

/-- `Load` of a file of lines that fit their buffers. -/
theorem load_fileText (hne : lines ≠ []) (hlines : ∀ s ∈ lines, '\n' ∉ s ∧ s.length < 500)
    (hnames : ∀ s ∈ lines, NameFits s) :
    SymbolTable.empty.load B v (fileText lines) =
      SymbolTable.ofWrites B (fileWrites v lines) := by
  rw [fileText, load_of_scans (Scan.readLines_intercalate hne hlines) (scans_eq_rows hnames),
    writes_map_snd]
  rfl

theorem cleanLines_ne_nil : cleanLines lines ≠ [] := by
  rw [cleanLines]
  split_ifs with h
  · exact List.cons_ne_nil _ _
  · exact h

theorem fileText_cleanLines : fileText (cleanLines lines) = fileText (lines.filter Complete) := by
  rw [cleanLines]
  split_ifs with h
  · rw [h]
    rfl
  · rfl

/-- A line of the file without its malformed ones is one of the file, or empty. -/
theorem mem_or_eq_nil_of_mem_cleanLines {s : List Char} (hs : s ∈ cleanLines lines) :
    s ∈ lines ∨ s = [] := by
  rw [cleanLines] at hs
  split_ifs at hs with h
  · exact Or.inr (List.mem_singleton.mp hs)
  · exact Or.inl (List.mem_filter.mp hs).1

/-- `Load` of the file without its malformed lines. -/
theorem load_clean (hlines : ∀ s ∈ lines, '\n' ∉ s ∧ s.length < 500)
    (hnames : ∀ s ∈ lines, NameFits s) :
    SymbolTable.empty.load B v (fileText (lines.filter Complete)) =
      SymbolTable.ofWrites B (fileWrites v (cleanLines lines)) := by
  rw [← fileText_cleanLines]
  refine load_fileText cleanLines_ne_nil (fun s hs => ?_) fun s hs => ?_
  · rcases mem_or_eq_nil_of_mem_cleanLines hs with hs | rfl
    · exact hlines s hs
    · exact ⟨List.not_mem_nil, Nat.succ_pos 499⟩
  · rcases mem_or_eq_nil_of_mem_cleanLines hs with hs | rfl
    · exact hnames s hs
    · exact nofun

/-- What is stored without the malformed lines: if all are malformed, what is stored for an
empty file, and else what is stored for the others. -/
theorem fileWrites_cleanLines (v : Scanned) (lines : List (List Char)) :
    ((∀ s ∈ lines, Complete s = false) ∧ (rows v lines).filter (fun r => Complete r.1) = [] ∧
        fileWrites v (cleanLines lines) = (stored ([], v)).toList) ∨
      (¬ (∀ s ∈ lines, Complete s = false) ∧
        fileWrites v (cleanLines lines) =
          ((rows v lines).filter fun r => Complete r.1).filterMap stored) := by
  have hall : lines.filter Complete = [] ↔ ∀ s ∈ lines, Complete s = false := by
    simp only [List.filter_eq_nil_iff, Bool.not_eq_true]
  rw [← hall, ← rows_filter_complete v, fileWrites, cleanLines]
  split_ifs with h
  · refine Or.inl ⟨h, by rw [h]; rfl, ?_⟩
    have hrows : rows v [[]] = [([], v)] := rfl
    rw [hrows, List.filterMap_cons]
    cases stored ([], v) <;> rfl
  · exact Or.inr ⟨h, rfl⟩

/-- What the complete lines store is stored without the malformed ones too. -/
theorem lastWrite_cleanLines {κ ν : Type} [DecidableEq κ] (g : Addr32 × String → κ × ν) {k : κ}
    {x : ν} (h : lastWrite k (((rows v lines).filter fun r => Complete r.1).filterMap
      fun r => (stored r).map g) = some x) :
    lastWrite k ((fileWrites v (cleanLines lines)).map g) = some x := by
  rcases fileWrites_cleanLines v lines with ⟨-, hnil, -⟩ | ⟨-, hwrites⟩
  · rw [hnil] at h
    exact absurd h nofun
  · rw [hwrites, List.map_filterMap]
    exact h

/-- What is stored without the malformed lines is stored with them, or is a single write. -/
theorem cleanLines_subset : fileWrites v (cleanLines lines) ⊆ fileWrites v lines ∨
    ∃ w, fileWrites v (cleanLines lines) = [w] := by
  rcases fileWrites_cleanLines v lines with ⟨-, -, hwrites⟩ | ⟨-, hwrites⟩
  · rw [hwrites]
    cases stored ([], v) with
    | none => exact Or.inl (List.nil_subset _)
    | some w => exact Or.inr ⟨w, rfl⟩
  · rw [hwrites]
    exact Or.inl (List.Sublist.subset (List.filter_sublist.filterMap stored))

/-- A property of what is stored under each key holds exactly if each malformed line has it or
is followed by a line that stores under the same key. -/
theorem forall_stored_iff (v : Scanned) (lines : List (List Char)) {κ ν : Type}
    [DecidableEq κ] (g : Addr32 × String → κ × ν)
    {P : κ → ν → Prop}
    (hP : ∀ k x, lastWrite k ((fileWrites v (cleanLines lines)).map g) = some x → P k x) :
    (∀ k x, lastWrite k ((fileWrites v lines).map g) = some x → P k x) ↔
      ∀ s u post, (s, u) :: post <:+ rows v lines → Complete s = false → u.type ≠ 'A' →
        (∃ r ∈ post, r.2.type ≠ 'A' ∧
          (g (r.2.address, r.2.name)).1 = (g (u.address, u.name)).1) ∨
        P (g (u.address, u.name)).1 (g (u.address, u.name)).2 := by
  have hstored : ∀ {r : List Char × Scanned} {w : κ × ν}, (stored r).map g = some w ↔
      r.2.type ≠ 'A' ∧ g (r.2.address, r.2.name) = w := by
    intro r w
    rw [Option.map_eq_some_iff]
    constructor
    · rintro ⟨w', hw', rfl⟩
      obtain ⟨htype, rfl⟩ := stored_eq_some.mp hw'
      exact ⟨htype, rfl⟩
    · rintro ⟨htype, hg⟩
      exact ⟨_, stored_eq_some.mpr ⟨htype, rfl⟩, hg⟩
  rw [fileWrites, List.map_filterMap]
  refine (forall_lastWrite_iff fun k x hx => hP k x (lastWrite_cleanLines g hx)).trans ?_
  constructor
  · intro h s u post hsuffix hc htype
    refine (h (s, u) post _ _ hsuffix hc (hstored.mpr ⟨htype, rfl⟩)).imp_left ?_
    rintro ⟨r, hr, w, hw, hk⟩
    obtain ⟨htype', rfl⟩ := hstored.mp hw
    exact ⟨r, hr, htype', hk⟩
  · intro h r post k x hsuffix hc hr
    obtain ⟨htype, hg⟩ := hstored.mp hr
    have hrow := h r.1 r.2 post hsuffix hc htype
    rw [hg] at hrow
    refine hrow.imp_left ?_
    rintro ⟨r', hr', htype', hk⟩
    exact ⟨r', hr', _, hstored.mpr ⟨htype', rfl⟩, hk⟩

theorem forall_mem_fileWrites {p : Addr32 × String → Prop} :
    (∀ w ∈ fileWrites v lines, p w) ↔
      ∀ r ∈ rows v lines, r.2.type ≠ 'A' → p (r.2.address, r.2.name) := by
  constructor
  · intro h r hr htype
    exact h _ (List.mem_filterMap.mpr ⟨r, hr, stored_eq_some.mpr ⟨htype, rfl⟩⟩)
  · intro h w hw
    obtain ⟨r, hr, hstored⟩ := List.mem_filterMap.mp hw
    obtain ⟨htype, rfl⟩ := stored_eq_some.mp hstored
    exact h r hr htype

theorem fileWrites_eq_nil_iff : fileWrites v lines = [] ↔ ∀ r ∈ rows v lines, r.2.type = 'A' := by
  simp [fileWrites, List.filterMap_eq_nil_iff, stored]

/-- Where nothing is stored for a file, nothing is without its malformed lines either, unless
all lines are malformed. -/
theorem fileWrites_eq_nil_imp_iff :
    (fileWrites v lines = [] → fileWrites v (cleanLines lines) = []) ↔
      ((∀ s ∈ lines, Complete s = false) → v.type ≠ 'A' →
        ∃ r ∈ rows v lines, r.2.type ≠ 'A') := by
  rcases fileWrites_cleanLines v lines with ⟨hall, -, hwrites⟩ | ⟨hall, hwrites⟩
  · have hempty : (stored ([], v)).toList = [] ↔ v.type = 'A' := by
      simp [stored]
    rw [hwrites, hempty, fileWrites_eq_nil_iff]
    constructor
    · rintro h - htype
      by_contra hnone
      push Not at hnone
      exact htype (h hnone)
    · intro h hnone
      by_contra htype
      obtain ⟨r, hr, hrtype⟩ := h hall htype
      exact hrtype (hnone r hr)
  · refine iff_of_true (fun hnil => ?_) fun h => absurd h hall
    rw [hwrites]
    refine List.eq_nil_of_subset_nil ?_
    rw [← hnil]
    exact (List.filter_sublist.filterMap stored).subset

/-- **Malformed lines.** For every file whose lines are shorter than `500` characters and
whose names are shorter than `100`, what `Lookup` answers after `Load` is what it answers
after `Load` of the file without the lines on which `sscanf` does not assign all three
variables, exactly if these do no harm. -/
theorem malformed_contribute_nothing_iff (B : SearchTree.Balancer Symbol Unit) (v : Scanned)
    {lines : List (List Char)} (hne : lines ≠ [])
    (hlines : ∀ s ∈ lines, '\n' ∉ s ∧ s.length < 500) (hnames : ∀ s ∈ lines, NameFits s) :
    (SymbolTable.empty.load B v (fileText lines)).map SymbolTable.answers =
        (SymbolTable.empty.load B v (fileText (lines.filter Complete))).map
          SymbolTable.answers ↔
      Harmless v lines := by
  rw [load_fileText hne hlines hnames, load_clean hlines hnames,
    answers_ofWrites_iff cleanLines_subset, fileWrites_eq_nil_imp_iff,
    forall_stored_iff v lines Prod.swap fun _ _ hx => hx]
  have haddress := forall_stored_iff v lines id
    (P := fun a name => lastWrite a (fileWrites v (cleanLines lines)) = some name ∨
      ((∃ w ∈ fileWrites v (cleanLines lines), w.1 = a) ∧ ∀ w ∈ fileWrites v lines, w.1 ≤ a))
    fun a name hx => Or.inl (by rwa [List.map_id] at hx)
  rw [List.map_id] at haddress
  rw [haddress]
  simp only [forall_mem_fileWrites]
  exact ⟨fun h => ⟨h.1, h.2.1, h.2.2⟩, fun h => ⟨h.name, h.address, h.stored⟩⟩

/-- Two symbols and the empty line after the newline at the end of the file. -/
def tidyLines : List (List Char) := ["c0100000 T a".toList, "c0200000 T b".toList, []]

theorem harmless_tidyLines : Harmless ⟨0, 'A', ""⟩ tidyLines := by
  have hrows : rows ⟨0, 'A', ""⟩ tidyLines =
      [("c0100000 T a".toList, ⟨0xc0100000, 'T', "a"⟩),
        ("c0200000 T b".toList, ⟨0xc0200000, 'T', "b"⟩), ([], ⟨0xc0200000, 'T', "b"⟩)] := by
    decide
  have hclean : fileWrites ⟨0, 'A', ""⟩ (cleanLines tidyLines) =
      [(0xc0100000, "a"), (0xc0200000, "b")] := by decide
  -- only the last line is malformed
  have hlast : ∀ s u post, (s, u) :: post <:+ rows ⟨0, 'A', ""⟩ tidyLines →
      Complete s = false → u = ⟨0xc0200000, 'T', "b"⟩ := by
    intro s u post hsuffix hc
    rw [hrows] at hsuffix
    simp only [List.suffix_cons_iff, List.suffix_nil, List.cons.injEq, Prod.mk.injEq,
      reduceCtorEq, or_false] at hsuffix
    rcases hsuffix with ⟨⟨rfl, -⟩, -⟩ | ⟨⟨-, rfl⟩, -⟩ | ⟨⟨-, rfl⟩, -⟩
    · exact absurd hc (by decide)
    · rfl
    · rfl
  refine ⟨fun s u post hsuffix hc _ => Or.inr ?_, fun s u post hsuffix hc _ => Or.inr (Or.inl ?_),
    fun _ htype => absurd rfl htype⟩
  · obtain rfl := hlast s u post hsuffix hc
    rw [hclean]
    decide
  · obtain rfl := hlast s u post hsuffix hc
    rw [hclean]
    decide

/-- A file of two symbols that ends with a newline: the empty line behind it is malformed and
stores the second symbol again. -/
theorem malformed_tidyLines :
    (SymbolTable.empty.load .id ⟨0, 'A', ""⟩ (fileText tidyLines)).map SymbolTable.answers =
      (SymbolTable.empty.load .id ⟨0, 'A', ""⟩ (fileText (tidyLines.filter Complete))).map
        SymbolTable.answers :=
  (malformed_contribute_nothing_iff .id ⟨0, 'A', ""⟩ (by decide) (by decide) (by decide)).mpr
    harmless_tidyLines

/-- A symbol and a line cut after its address: the second line moves the symbol. -/
def cutLines : List (List Char) := ["c0100000 T a".toList, "c0200000".toList]

/-- The cut line changes what the name is looked up as. -/
theorem cutLines_move_symbol :
    (SymbolTable.empty.load .id ⟨0, 'A', ""⟩ (fileText cutLines)).map SymbolTable.answers ≠
      (SymbolTable.empty.load .id ⟨0, 'A', ""⟩ (fileText (cutLines.filter Complete))).map
        SymbolTable.answers := by
  intro h
  have hname := congrArg (Option.map fun x => x.1 "a" 0) h
  exact absurd hname (by decide)

end Malformed

end MemCheck
