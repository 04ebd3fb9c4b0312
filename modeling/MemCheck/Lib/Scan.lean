import Mathlib.Data.List.TakeWhile

/-!
# Line Input and Formatted Scanning of the C Library

What a program that reads a text file line by line with `istream::getline` and takes each
line apart with `sscanf` gets from the C and C++ libraries. Texts are lists of characters.

`readLines n` is the loop `while (!in.eof()) in.getline(s, n)`: it delivers the lines the
loop sees, the last of which is what follows the last newline, and it is `none` when a line
does not fit the buffer, since the stream then fails without reaching its end and the loop
never does. `scanHex`, `scanChar` and `scanWord` are the conversions `%nx`, `%c` after a
blank, and `%s`; they are `none` when the conversion fails, at which point `sscanf` stops.

## Main results

* `readLines_intercalate`: the lines of a text are read back;
* `scanHex_digits`, `scanChar_gap`, `scanWord_gap`: what is written is scanned.
-/

namespace Scan

/-! ### Lines -/

/-- The lines read with a buffer of `n` characters, `line` being what the buffer holds of
the current line, last character first. A character is stored while it leaves room for the
terminating `NUL`. -/
def readLines (n : ℕ) (line : List Char) : List Char → Option (List (List Char))
  | [] => some [line.reverse]
  | c :: text =>
      if c = '\n' then (readLines n [] text).map (line.reverse :: ·)
      else if line.length + 1 < n then readLines n (c :: line) text
      else none

section Lines

variable {n : ℕ} {line l text : List Char}

/-- A line that fits is stored. -/
theorem readLines_append (hl : '\n' ∉ l) (hlen : line.length + l.length < n) :
    readLines n line (l ++ text) = readLines n (l.reverse ++ line) text := by
  induction l generalizing line with
  | nil => rfl
  | cons c l ih =>
      rw [List.length_cons] at hlen
      have hc : c ≠ '\n' := fun heq => hl (heq ▸ List.mem_cons_self)
      have hrest : '\n' ∉ l := fun hin => hl (List.mem_cons_of_mem c hin)
      rw [List.cons_append, readLines, if_neg hc, if_pos (by omega), ih hrest
        (by rw [List.length_cons]; omega), List.reverse_cons, List.append_assoc]
      rfl

/-- The last line is what is left of the text. -/
theorem readLines_last (hl : '\n' ∉ l) (hlen : l.length < n) :
    readLines n [] l = some [l] := by
  have hread : readLines n [] (l ++ []) = readLines n (l.reverse ++ []) [] :=
    readLines_append hl (by simpa using hlen)
  rw [List.append_nil, List.append_nil] at hread
  rw [hread, readLines, List.reverse_reverse]

/-- A line ends at its newline. -/
theorem readLines_newline (hl : '\n' ∉ l) (hlen : l.length < n) :
    readLines n [] (l ++ '\n' :: text) = (readLines n [] text).map (l :: ·) := by
  rw [readLines_append hl (by simpa using hlen), readLines, if_pos rfl, List.append_nil,
    List.reverse_reverse]

/-- **Reading back**: the lines a text is put together from, if each fits the buffer. -/
theorem readLines_intercalate {ls : List (List Char)} (hne : ls ≠ [])
    (hls : ∀ l ∈ ls, '\n' ∉ l ∧ l.length < n) :
    readLines n [] (['\n'].intercalate ls) = some ls := by
  induction ls with
  | nil => exact absurd rfl hne
  | cons l ls ih =>
      obtain ⟨hl, hlen⟩ := hls l List.mem_cons_self
      cases ls with
      | nil =>
          rw [List.intercalate_singleton]
          exact readLines_last hl hlen
      | cons l' ls =>
          rw [List.intercalate_cons_cons, List.append_assoc, List.singleton_append,
            readLines_newline hl hlen, ih (List.cons_ne_nil _ _)
              fun m hm => hls m (List.mem_cons_of_mem l hm)]
          rfl

end Lines

/-! ### Conversions -/

/-- `isspace` in the C locale. -/
def isSpace (c : Char) : Bool :=
  c = ' ' || c = '\t' || c = '\n' || c = '\x0b' || c = '\x0c' || c = '\r'

/-- `isxdigit`. -/
def isHexDigit (c : Char) : Bool :=
  ('0' ≤ c && c ≤ '9') || ('a' ≤ c && c ≤ 'f') || ('A' ≤ c && c ≤ 'F')

/-- The value of a hexadecimal digit. -/
def digitValue (c : Char) : ℕ :=
  if c ≤ '9' then c.toNat - 48 else if 'a' ≤ c then c.toNat - 87 else c.toNat - 55

/-- The value of a string of hexadecimal digits. -/
def hexValue (digits : List Char) : ℕ := digits.foldl (fun n d => 16 * n + digitValue d) 0

/-- A blank in the format, and the blanks most conversions skip. -/
def skipSpace (cs : List Char) : List Char := cs.dropWhile isSpace

/-- The number of `%x` after its sign, of at most `width` characters: an optional `0x` and
hexadecimal digits, which may be absent after `0x`. -/
def hexNumber (width : ℕ) (cs : List Char) : Option (ℕ × List Char) :=
  if 2 ≤ width ∧ (['0', 'x'].isPrefixOf cs ∨ ['0', 'X'].isPrefixOf cs) then
    let digits := ((cs.drop 2).take (width - 2)).takeWhile isHexDigit
    some (hexValue digits, (cs.drop 2).drop digits.length)
  else
    let digits := (cs.take width).takeWhile isHexDigit
    if digits = [] then none else some (hexValue digits, cs.drop digits.length)

/-- The conversion `%x` of at most `width` characters into an `unsigned int`. -/
def scanHex (width : ℕ) (cs : List Char) : Option (UInt32 × List Char) :=
  match skipSpace cs with
  | '-' :: rest => (hexNumber (width - 1) rest).map fun r => (-UInt32.ofNat r.1, r.2)
  | '+' :: rest => (hexNumber (width - 1) rest).map fun r => (UInt32.ofNat r.1, r.2)
  | rest => (hexNumber width rest).map fun r => (UInt32.ofNat r.1, r.2)

/-- A blank in the format and the conversion `%c`. -/
def scanChar (cs : List Char) : Option (Char × List Char) :=
  match skipSpace cs with
  | [] => none
  | c :: rest => some (c, rest)

/-- The conversion `%s`. -/
def scanWord (cs : List Char) : Option (List Char) :=
  match (skipSpace cs).takeWhile fun c => !isSpace c with
  | [] => none
  | word => some word

section Conversions

variable {gap word digits rest : List Char} {c : Char}

/-- Skipping blanks in front of a character that is none. -/
theorem skipSpace_gap (hgap : ∀ d ∈ gap, isSpace d = true) (hc : isSpace c = false) :
    skipSpace (gap ++ c :: rest) = c :: rest := by
  induction gap with
  | nil => simp [skipSpace, hc]
  | cons d gap ih =>
      have hd : isSpace d = true := hgap d List.mem_cons_self
      rw [skipSpace, List.cons_append, List.dropWhile_cons_of_pos hd]
      exact ih fun e he => hgap e (List.mem_cons_of_mem d he)

/-- A hexadecimal digit is no blank, no sign and no `x`. -/
theorem ne_of_isHexDigit (hc : isHexDigit c = true) :
    isSpace c = false ∧ c ≠ '-' ∧ c ≠ '+' ∧ c ≠ 'x' ∧ c ≠ 'X' := by
  refine ⟨?_, ?_, ?_, ?_, ?_⟩
  · rw [Bool.eq_false_iff]
    intro hs
    simp only [isSpace, Bool.or_eq_true, decide_eq_true_eq] at hs
    rcases hs with ((((rfl | rfl) | rfl) | rfl) | rfl) | rfl <;> exact absurd hc (by decide)
  all_goals
    rintro rfl
    exact absurd hc (by decide)

/-- The digits of a number of full width. -/
theorem hexNumber_digits (hne : digits ≠ []) (hdigits : ∀ d ∈ digits, isHexDigit d = true) :
    hexNumber digits.length (digits ++ rest) = some (hexValue digits, rest) := by
  have hmark : ¬ (2 ≤ digits.length ∧ (['0', 'x'].isPrefixOf (digits ++ rest) ∨
      ['0', 'X'].isPrefixOf (digits ++ rest))) := by
    rintro ⟨hlen, hmark⟩
    match digits, hlen with
    | d :: e :: ds, _ =>
        obtain ⟨-, -, -, hx, hX⟩ :=
          ne_of_isHexDigit (hdigits e (List.mem_cons_of_mem d List.mem_cons_self))
        simp [List.isPrefixOf, Ne.symm hx, Ne.symm hX] at hmark
  have htake : (((digits ++ rest).take digits.length).takeWhile isHexDigit) = digits := by
    rw [List.take_left, List.takeWhile_eq_self_iff]
    exact hdigits
  simp only [hexNumber, if_neg hmark, htake, if_neg hne, List.drop_left]

/-- **`%nx`** reads `n` digits, whatever follows. -/
theorem scanHex_digits (hne : digits ≠ []) (hdigits : ∀ d ∈ digits, isHexDigit d = true) :
    scanHex digits.length (digits ++ rest) = some (UInt32.ofNat (hexValue digits), rest) := by
  have hnumber : hexNumber digits.length (digits ++ rest) = some (hexValue digits, rest) :=
    hexNumber_digits hne hdigits
  match digits with
  | d :: ds =>
      obtain ⟨hspace, hminus, hplus, -, -⟩ := ne_of_isHexDigit (hdigits d List.mem_cons_self)
      have hskip : skipSpace ([] ++ d :: (ds ++ rest)) = d :: (ds ++ rest) :=
        skipSpace_gap (fun _ h => absurd h List.not_mem_nil) hspace
      rw [scanHex, List.cons_append, ← List.nil_append (d :: (ds ++ rest)), hskip]
      split
      · rename_i heq
        exact absurd (List.cons.inj heq).1 hminus
      · rename_i heq
        exact absurd (List.cons.inj heq).1 hplus
      · rw [List.cons_append] at hnumber
        rw [hnumber]
        rfl

/-- **`%c`** after a blank reads the next character that is no blank. -/
theorem scanChar_gap (hgap : ∀ d ∈ gap, isSpace d = true) (hc : isSpace c = false) :
    scanChar (gap ++ c :: rest) = some (c, rest) := by
  rw [scanChar, skipSpace_gap hgap hc]

/-- **`%s`** reads a word to the end of the line. -/
theorem scanWord_gap (hgap : ∀ d ∈ gap, isSpace d = true) (hne : word ≠ [])
    (hword : ∀ d ∈ word, isSpace d = false) : scanWord (gap ++ word) = some word := by
  match word with
  | c :: cs =>
      have htake : (c :: cs).takeWhile (fun d => !isSpace d) = c :: cs := by
        rw [List.takeWhile_eq_self_iff]
        intro d hd
        rw [hword d hd]
        rfl
      rw [scanWord, skipSpace_gap hgap (hword c List.mem_cons_self), htake]

end Conversions

end Scan
