import Mathlib
import StackMachine.Action

/-! Printed text read back. A printed cell is a line of digits, perhaps with a sign before them. So
each of its characters is a byte (`utf8ByteSize_of_prefix`), and lines of cells can be told apart and
read as the numbers that were printed (`readLines_printed`). -/

namespace StackMachine

open StackMachine.Action

namespace Cell

variable {v : Cell} {c : Char}

theorem sign_or_digit_of_mem_text (hc : c ∈ v.text.toList) : c = '-' ∨ c.isDigit = true := by
  rw [text, Int.repr_eq_if] at hc
  split at hc
  · rw [Nat.toList_repr] at hc
    exact .inr (Nat.isDigit_of_mem_toDigits (by decide) (by decide) hc)
  · rw [String.toList_append, List.mem_append, Nat.toList_repr] at hc
    refine hc.imp ?_ (Nat.isDigit_of_mem_toDigits (by decide) (by decide))
    exact fun h => List.mem_singleton.1 h

theorem newline_notMem_text (v : Cell) : '\n' ∉ v.text.toList := by
  intro h
  rcases sign_or_digit_of_mem_text h with h | h
  · exact absurd h (by decide)
  · exact absurd h (by decide)

theorem utf8Size_of_mem_printed (hc : c ∈ printed v) : c.utf8Size = 1 := by
  rw [printed, List.mem_append, List.mem_singleton] at hc
  rcases hc with hc | rfl
  · rcases sign_or_digit_of_mem_text hc with rfl | hd
    · decide
    · rw [Char.utf8Size_eq_one_iff]
      simp only [Char.isDigit, Bool.and_eq_true, decide_eq_true_eq] at hd
      exact UInt32.le_trans hd.2 (by decide)
  · decide

end Cell

theorem utf8Len_of_ascii {text : List Char} (h : ∀ c ∈ text, c.utf8Size = 1) :
    String.utf8Len text = text.length := by
  induction text with
  | nil => rfl
  | cons c r ih =>
    rw [String.utf8Len_cons, ih fun d hd => h d (List.mem_cons_of_mem _ hd),
      h c List.mem_cons_self, List.length_cons]

theorem utf8ByteSize_of_prefix {cells : List Cell} {text : List Char}
    (h : text <+: cells.flatMap printed) : (String.ofList text).utf8ByteSize = text.length := by
  rw [String.utf8ByteSize_ofList]
  refine utf8Len_of_ascii ?_
  intro c hc
  obtain ⟨v, -, hv⟩ := List.mem_flatMap.1 (h.subset hc)
  exact Cell.utf8Size_of_mem_printed hv

/-- The numbers that the lines of a text are, or `none` for a line that is not a number. What
follows the last newline is not a line. -/
def readLines (text : String) : List (Option Int) :=
  (text.toList.splitOn '\n').dropLast.map fun line => (String.ofList line).toInt?

/-- Splitting at the newlines gives back the lines that were written, and nothing after the last. -/
theorem splitOn_lines {lines : List (List Char)} (h : ∀ l ∈ lines, '\n' ∉ l) :
    (lines.flatMap (· ++ ['\n'])).splitOn '\n' = lines ++ [[]] := by
  induction lines with
  | nil => exact List.splitOn_nil '\n'
  | cons l r ih =>
    rw [List.flatMap_cons, List.append_assoc, List.singleton_append,
      List.splitOn_append_cons_self_of_not_mem (h l List.mem_cons_self),
      ih fun x hx => h x (List.mem_cons_of_mem l hx)]
    rfl

theorem splitOn_printed (cells : List Cell) :
    (cells.flatMap printed).splitOn '\n' = cells.map (·.text.toList) ++ [[]] := by
  have hlines : cells.flatMap printed = (cells.map (·.text.toList)).flatMap (· ++ ['\n']) := by
    rw [List.flatMap_map]
    rfl
  rw [hlines]
  refine splitOn_lines fun l hl => ?_
  obtain ⟨v, -, rfl⟩ := List.mem_map.1 hl
  exact v.newline_notMem_text

theorem readLines_printed (cells : List Cell) :
    readLines (String.ofList (cells.flatMap printed)) = cells.map fun v => some v.toInt := by
  rw [readLines, String.toList_ofList, splitOn_printed, List.dropLast_concat, List.map_map]
  refine List.map_congr_left ?_
  intro v _
  rw [Function.comp_apply, String.ofList_toList, Cell.text, Int.toInt?_repr]

end StackMachine
