import Mathlib.Data.List.Infix
import MemCheck.Lib.Scan

/-!
# Input Streams and Loops that Read Lines

An input stream is what is left of its text and two bits: `eofbit`, set when the end of the
text is met, and `failbit`, set when an operation fails. `getline` fails when it meets the end
before any character, and when a line does not fit the buffer; the text is then not at its
end. On a stream with a bit set it extracts nothing.

`Reads` is the loop `while (!in.eof()) in.getline(s, n)`, which looks at `eofbit` only: a
stream that has failed before its end stays as it is, and the loop never ends. The function
`readLines` is what the loop reads.

## Main results

* `reads_iff`: the loop ends, and with which lines, exactly as `readLines` says;
* `exists_reads_iff`: it does so exactly if every `n` characters in a row contain a
  newline.
-/

namespace Scan

/-! ### Streams -/

/-- An input stream. -/
structure IStream where
  rest : List Char
  eofbit : Bool
  failbit : Bool
  deriving DecidableEq, Repr

/-- A stream on a text. -/
def IStream.ofText (text : List Char) : IStream := ⟨text, false, false⟩

/-- The extraction of `getline(s, n)`, `line` being what is stored of the line, last character
first: the end of the text is tested first, then the newline, then the room in the buffer. -/
def extract (n : ℕ) (line : List Char) : List Char → List Char × IStream
  | [] => (line.reverse, ⟨[], true, line.isEmpty⟩)
  | c :: text =>
      if c = '\n' then (line.reverse, ⟨text, false, false⟩)
      else if line.length + 1 < n then extract n (c :: line) text
      else (line.reverse, ⟨c :: text, false, true⟩)

/-- `istream::getline(s, n)`: the string stored, and the stream afterwards. -/
def IStream.getline (n : ℕ) (s : IStream) : List Char × IStream :=
  if s.eofbit || s.failbit then ([], { s with failbit := true })
  else extract n [] s.rest

/-- The loop `while (!in.eof()) in.getline(s, n)` ends, after one iteration for each line. -/
inductive Reads (n : ℕ) : IStream → List (List Char) → Prop where
  | done {s : IStream} : s.eofbit = true → Reads n s []
  | next {s : IStream} {lines : List (List Char)} : s.eofbit = false →
      Reads n (s.getline n).2 lines → Reads n s ((s.getline n).1 :: lines)

section Reads

variable {n : ℕ} {line text : List Char} {s : IStream} {lines : List (List Char)}

/-- A stream that has failed before its end is never at its end. -/
theorem not_reads_of_failbit (he : s.eofbit = false) (hf : s.failbit = true) :
    ¬ Reads n s lines := by
  intro h
  induction h with
  | done hd => exact absurd (he.symm.trans hd) Bool.false_ne_true
  | next _ _ ih =>
      simp only [IStream.getline, he, hf, Bool.or_true, if_true] at ih
      exact ih trivial trivial

/-- One call of `getline`, in terms of the lines. -/
theorem readLines_eq_extract (n : ℕ) (line text : List Char) :
    readLines n line text =
      if (extract n line text).2.eofbit then some [(extract n line text).1]
      else if (extract n line text).2.failbit then none
      else (readLines n [] (extract n line text).2.rest).map ((extract n line text).1 :: ·) := by
  induction text generalizing line with
  | nil => rfl
  | cons c text ih =>
      rw [readLines, extract]
      by_cases hc : c = '\n'
      · simp only [if_pos hc]
        rfl
      by_cases hroom : line.length + 1 < n
      · simp only [if_neg hc, if_pos hroom]
        exact ih (c :: line)
      · simp only [if_neg hc, if_neg hroom]
        rfl

/-- What is left after a line is shorter. -/
theorem length_extract (h1 : (extract n line text).2.eofbit = false)
    (h2 : (extract n line text).2.failbit = false) :
    (extract n line text).2.rest.length < text.length := by
  induction text generalizing line with
  | nil => cases h1
  | cons c text ih =>
      rw [extract] at h1 h2 ⊢
      by_cases hc : c = '\n'
      · simp only [if_pos hc]
        exact Nat.lt_succ_self _
      by_cases hroom : line.length + 1 < n
      · simp only [if_neg hc, if_pos hroom] at h1 h2 ⊢
        exact (ih h1 h2).trans (Nat.lt_succ_self _)
      · simp only [if_neg hc, if_neg hroom] at h2
        cases h2

/-- A fresh stream. -/
theorem getline_ofText : (IStream.ofText text).getline n = extract n [] text := rfl

theorem reads_iff_of_eofbit (h : s.eofbit = true) : Reads n s lines ↔ lines = [] := by
  constructor
  · rintro (- | ⟨he, -⟩)
    · rfl
    · exact absurd (he.symm.trans h) Bool.false_ne_true
  · rintro rfl
    exact .done h

theorem reads_iff_of_not_eofbit (h : s.eofbit = false) :
    Reads n s lines ↔ ∃ rest, lines = (s.getline n).1 :: rest ∧ Reads n (s.getline n).2 rest := by
  constructor
  · rintro (hd | ⟨-, hrest⟩)
    · exact absurd (h.symm.trans hd) Bool.false_ne_true
    · exact ⟨_, rfl, hrest⟩
  · rintro ⟨rest, rfl, hrest⟩
    exact .next h hrest

/-- **The loop reads the lines**, and ends exactly if they can be read. -/
theorem reads_iff : Reads n (.ofText text) lines ↔ readLines n [] text = some lines := by
  induction hlen : text.length using Nat.strong_induction_on generalizing text lines with
  | _ len ih =>
      rw [reads_iff_of_not_eofbit rfl, getline_ofText, readLines_eq_extract]
      cases h1 : (extract n [] text).2.eofbit with
      | true =>
          rw [if_pos rfl, Option.some.injEq, eq_comm]
          simp only [reads_iff_of_eofbit h1]
          exact ⟨fun ⟨rest, hl, hr⟩ => hr ▸ hl, fun hl => ⟨[], hl, rfl⟩⟩
      | false =>
          rw [if_neg Bool.false_ne_true]
          cases h2 : (extract n [] text).2.failbit with
          | true =>
              rw [if_pos rfl]
              exact ⟨fun ⟨rest, _, hr⟩ => absurd hr (not_reads_of_failbit h1 h2), nofun⟩
          | false =>
              -- the stream is fresh again, on a shorter text
              have hfresh : (extract n [] text).2 = .ofText (extract n [] text).2.rest :=
                congrArg₂ (IStream.mk _) h1 h2
              rw [if_neg Bool.false_ne_true, Option.map_eq_some_iff, hfresh]
              refine exists_congr fun rest => ?_
              rw [ih _ (hlen ▸ length_extract h1 h2) rfl, and_comm, @eq_comm _ lines]
              rfl

/-- A part of a text without a newline lies on one side of each newline. -/
theorem infix_newline {a w : List Char} (hw : w <:+: a ++ '\n' :: text) (hn : '\n' ∉ w) :
    w <:+: a ∨ w <:+: text := by
  rcases List.infix_append_iff.mp hw with h | h | ⟨l₁, l₂, rfl, h₁, h₂⟩
  · exact Or.inl h
  · rcases List.infix_cons_iff.mp h with h | h
    · rcases List.prefix_cons_iff.mp h with rfl | ⟨u, rfl, -⟩
      · exact Or.inl List.nil_infix
      · exact absurd List.mem_cons_self hn
    · exact Or.inr h
  · rcases List.prefix_cons_iff.mp h₂ with rfl | ⟨u, rfl, -⟩
    · rw [List.append_nil]
      exact Or.inl h₁.isInfix
    · exact absurd (List.mem_append_right l₁ List.mem_cons_self) hn

/-- Behind a newline only the rest of the text matters, if what is before it is short. -/
theorem forall_infix_newline_iff {a : List Char} (ha : a.length < n) :
    (∀ w, w <:+: a ++ '\n' :: text → w.length = n → '\n' ∈ w) ↔
      ∀ w, w <:+: text → w.length = n → '\n' ∈ w := by
  constructor
  · intro hall w hw
    exact hall w (hw.trans ⟨a ++ ['\n'], [], by simp⟩)
  · intro hall w hw hlen
    by_contra hn
    rcases infix_newline hw hn with h | h
    · have hle := h.length_le
      omega
    · exact hn (hall w h hlen)

/-- The lines can be read exactly if a newline stands in every stretch of the buffer's
size, `line` being the part of the current line that is stored. -/
theorem readLines_isSome_iff (hline : line.length < n) (hnl : '\n' ∉ line) :
    (∃ lines, readLines n line text = some lines) ↔
      ∀ w, w <:+: line.reverse ++ text → w.length = n → '\n' ∈ w := by
  induction text generalizing line with
  | nil =>
      refine iff_of_true ⟨_, rfl⟩ fun w hw hlen => ?_
      have hle := hw.length_le
      rw [List.append_nil, List.length_reverse] at hle
      omega
  | cons c text ih =>
      rw [readLines]
      by_cases hc : c = '\n'
      · subst hc
        rw [if_pos rfl, forall_infix_newline_iff (by rwa [List.length_reverse])]
        refine Iff.trans ?_ (@ih [] (Nat.zero_lt_of_lt hline) List.not_mem_nil)
        simp only [Option.map_eq_some_iff]
        constructor
        · rintro ⟨_, lines, hlines, -⟩
          exact ⟨lines, hlines⟩
        · rintro ⟨lines, hlines⟩
          exact ⟨_, lines, hlines, rfl⟩
      rw [if_neg hc]
      by_cases hroom : line.length + 1 < n
      · rw [if_pos hroom, @ih (c :: line) hroom
          (by simp [Ne.symm hc, hnl]), List.reverse_cons, List.append_assoc]
        rfl
      · -- the line and the character that does not fit
        rw [if_neg hroom]
        refine iff_of_false (by rintro ⟨lines, h⟩; cases h) fun hall => ?_
        have hin := hall (line.reverse ++ [c]) ⟨[], text, by simp⟩
          (by rw [List.length_append, List.length_reverse, List.length_singleton]; omega)
        simp [Ne.symm hc, hnl] at hin

/-- **When the loop ends**: exactly if every `n` characters in a row contain a newline. -/
theorem exists_reads_iff (hn : 0 < n) :
    (∃ lines, Reads n (.ofText text) lines) ↔
      ∀ w, w <:+: text → w.length = n → '\n' ∈ w := by
  simp only [reads_iff]
  exact readLines_isSome_iff hn List.not_mem_nil

end Reads

end Scan
