/-! A cell is what programs, stacks and variables are made of: a signed 32-bit number whose
arithmetic wraps. Cells also name addresses and variables, but only those that are not negative do. -/

namespace StackMachine

abbrev Cell := Int32

namespace Cell

/-- The address or index that a cell names. -/
def index? (w : Cell) : Option Nat :=
  if 0 ≤ w.toInt then some w.toInt.toNat else none

def text (w : Cell) : String := w.toInt.repr

def flag (b : Bool) : Cell := if b then 1 else 0

theorem flag_decide (P : Prop) [Decidable P] : flag P = if P then 1 else 0 := by
  by_cases h : P <;> simp [flag, h]

theorem index?_eq_some_iff {w : Cell} {n : Nat} : w.index? = some n ↔ w.toInt = n := by
  by_cases h : 0 ≤ w.toInt
  · simp only [index?, h, if_true, Option.some.injEq]
    omega
  · simp only [index?, h, if_false, reduceCtorEq, false_iff]
    omega

theorem index?_of_nonneg {w : Cell} (h : 0 ≤ w.toInt) : w.index? = some w.toInt.toNat :=
  if_pos h

theorem index?_eq_none_iff {w : Cell} : w.index? = none ↔ w.toInt < 0 := by
  simp [index?]

end Cell

end StackMachine
