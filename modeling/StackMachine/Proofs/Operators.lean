import Mathlib.Data.Int.ModEq
import StackMachine.Proofs.Step

/-! The operators on two cells, held against arithmetic on whole numbers. Sums, differences and
products are those of the numbers up to a multiple of 2 ^ 32 (`Cell.Wraps`), comparisons are those
of the numbers, and the quotient is the truncated one only for divisors that are one, minus one or
larger in absolute value than what they divide (`operators_exact`). -/

namespace StackMachine

variable {W : Type}

namespace Cell

/-- The cell holds the one number within the range of cells that is congruent to `z`. -/
def Wraps (z : Int) (x : Cell) : Prop :=
  ∀ y : Int, y = x.toInt ↔ -2 ^ 31 ≤ y ∧ y < 2 ^ 31 ∧ y ≡ z [ZMOD 2 ^ 32]

theorem bmod_eq_iff {y z : Int} :
    z.bmod (2 ^ 32) = y ↔ -2 ^ 31 ≤ y ∧ y < 2 ^ 31 ∧ y ≡ z [ZMOD 2 ^ 32] := by
  unfold Int.ModEq
  rw [Int.bmod_def]
  omega

theorem wraps_iff {x : Cell} {z : Int} : x.Wraps z ↔ x.toInt = z.bmod (2 ^ 32) := by
  unfold Wraps
  simp only [← bmod_eq_iff]
  constructor
  · intro h
    exact ((h x.toInt).1 rfl).symm
  · intro h y
    rw [h, eq_comm]

theorem wraps_add (a b : Cell) : (a + b).Wraps (a.toInt + b.toInt) :=
  wraps_iff.2 (Int32.toInt_add a b)

theorem wraps_sub (a b : Cell) : (b - a).Wraps (b.toInt - a.toInt) :=
  wraps_iff.2 (Int32.toInt_sub b a)

theorem wraps_mul (a b : Cell) : (a * b).Wraps (a.toInt * b.toInt) :=
  wraps_iff.2 (Int32.toInt_mul a b)

theorem wraps_neg (b : Cell) : (-b).Wraps (-b.toInt) :=
  wraps_iff.2 (Int32.toInt_neg b)

theorem wraps_toInt (b : Cell) : b.Wraps b.toInt :=
  wraps_iff.2 (Int32.toInt_bmod b).symm

theorem toInt_flag (p : Bool) : (flag p).toInt = if p then 1 else 0 := by
  cases p <;> rfl

theorem flag_eq_one_iff {p : Bool} : flag p = 1 ↔ p = true := by
  cases p <;> decide

theorem count_one_comparisons (a b : Cell) :
    [flag (a = b), flag (b < a), flag (a < b)].count 1 = 1 := by
  have heq : a = b ↔ a.toInt = b.toInt := Int32.toInt_inj.symm
  simp only [List.count_cons, List.count_nil, beq_iff_eq, flag_eq_one_iff, decide_eq_true_eq, heq,
    Int32.lt_iff_toInt_lt]
  rcases Int.lt_trichotomy a.toInt b.toInt with h | h | h
  · rw [if_pos h, if_neg (by omega), if_neg (by omega)]
  · rw [if_neg (by omega), if_neg (by omega), if_pos h]
  · rw [if_neg (by omega), if_pos h, if_neg (by omega)]

theorem one_div_eq_zero {a : Cell} (h : a.toInt ≠ 1) (h' : a.toInt ≠ -1) : 1 / a = 0 := by
  have hq : ((1 : Int).tdiv a.toInt).natAbs = 0 := by
    rw [Int.natAbs_tdiv]
    refine Nat.div_eq_zero_iff.2 ?_
    have : (1 : Int).natAbs = 1 := rfl
    omega
  rw [← Int32.toInt_inj, Int32.toInt_div, Int32.toInt_one, Int.natAbs_eq_zero.1 hq]
  rfl

theorem one_div_mul_eq (a b : Cell) :
    1 / a * b = if a.toInt = 1 then b else if a.toInt = -1 then -b else 0 := by
  by_cases h : a.toInt = 1
  · have ha : a = 1 := Int32.toInt_inj.1 h
    have hone : (1 : Cell) / 1 = 1 := rfl
    rw [if_pos h, ha, hone, Int32.one_mul]
  · rw [if_neg h]
    by_cases h' : a.toInt = -1
    · have ha : a = -1 := Int32.toInt_inj.1 h'
      have hone : (1 : Cell) / -1 = -1 := rfl
      rw [if_pos h', ha, hone, Int32.neg_mul, Int32.one_mul]
    · rw [if_neg h', one_div_eq_zero h h', Int32.zero_mul]

theorem bmod_tdiv {a : Int} (b : Cell) (h : 2 ≤ a.natAbs) :
    (b.toInt.tdiv a).bmod (2 ^ 32) = b.toInt.tdiv a := by
  have hq : (b.toInt.tdiv a).natAbs ≤ b.toInt.natAbs / 2 := by
    rw [Int.natAbs_tdiv]
    exact Nat.div_le_div_left h (by decide)
  have hlo := Int32.le_toInt b
  have hhi := Int32.toInt_lt b
  refine bmod_eq_iff.2 ⟨?_, ?_, rfl⟩ <;> omega

theorem wraps_tdiv_iff {a : Cell} (b : Cell) (ha : a.toInt ≠ 0) :
    (1 / a * b).Wraps (b.toInt.tdiv a.toInt) ↔
      a.toInt.natAbs = 1 ∨ b.toInt.natAbs < a.toInt.natAbs := by
  rw [one_div_mul_eq]
  by_cases h : a.toInt = 1
  · rw [if_pos h, h, Int.tdiv_one]
    exact iff_of_true (wraps_toInt b) (.inl rfl)
  · rw [if_neg h]
    by_cases h' : a.toInt = -1
    · rw [if_pos h', h', Int.tdiv_neg, Int.tdiv_one]
      exact iff_of_true (wraps_neg b) (.inl rfl)
    · -- the operation gives zero here
      have habs : 2 ≤ a.toInt.natAbs := by omega
      rw [if_neg h', wraps_iff, bmod_tdiv b habs, Int32.toInt_zero, eq_comm,
        ← Int.natAbs_eq_zero, Int.natAbs_tdiv]
      have hdiv : b.toInt.natAbs / a.toInt.natAbs = 0 ↔ b.toInt.natAbs < a.toInt.natAbs := by
        rw [Nat.div_eq_zero_iff]
        omega
      refine hdiv.trans ?_
      omega

end Cell

open StackMachine.Action

namespace Stack

theorem cells_of_toList {s : Stack} {r : List Cell} {a b : Cell} (h : s.toList = r ++ [b, a]) :
    s.cells = a :: b :: r.reverse := by
  have := congrArg List.reverse h
  simpa [toList] using this

end Stack

namespace Machine

variable [Writer W] {m : Machine W} {i : Instruction}

/-- Performs an instruction that need not stand in the program; one that is not well formed cannot
be performed. -/
def execute? (m : Machine W) (i : Instruction) : Option (Except Cause Unit × Machine W) :=
  (i.action? m.program.size).map (m.perform · i.size)

theorem execute?_of_fetch (h : m.fetch = .ok i) : m.execute? i = some m.cycle := by
  have hw := Program.wellFormed_of_decode (decode_of_fetch h)
  obtain ⟨a, ha⟩ : ∃ a : Action W Control, i.action? m.program.size = some a :=
    Option.isSome_iff_exists.1 (Instruction.isSome_action?_iff.2 hw)
  rw [execute?, ha, cycle_of_fetch_ok h ha, Option.map_some]

theorem execute?_of_run {a : Action W Control} {k : Control} {t : Store W}
    (ha : i.action? m.program.size = some a) (hr : a.run m.store = .ok k t) :
    m.execute? i = some (.ok (), { m with steps := m.steps + 1, store := t }.advance i.size k) := by
  rw [execute?, ha, Option.map_some, perform_eq, hr]

/-- The operator takes the two topmost cells off the stack and puts `x` on what is left, `r`; it
changes nothing else, and execution goes on behind it. -/
def Replaces (m : Machine W) (op : Opcode) (r : List Cell) (x : Cell) : Prop :=
  ∃ m', m.execute? (.plain op) = some (.ok (), m') ∧ m'.stack = r ++ [x] ∧ m'.vars = m.vars ∧
    m'.output = m.output ∧ m'.status = m.status ∧ m'.pc = m.pc + 1

variable {r : List Cell} {a b : Cell} {op : Opcode}

theorem replaces_of_run {act : Action W Control} {x : Cell} (hop : op.arity = 0)
    (ha : (Instruction.plain op).action? m.program.size = some act)
    (hr : act.run m.store =
      .ok .next { m.store with stack := ⟨m.store.stack.room + 1, x :: r.reverse⟩ }) :
    m.Replaces op r x := by
  refine ⟨_, execute?_of_run ha hr, ?_, rfl, rfl, rfl, ?_⟩
  · simp [stack, advance, Stack.toList]
  · simp [advance, Instruction.size, Instruction.opcode, Opcode.size, hop]

theorem replaces_of_binary (h : m.stack = r ++ [b, a]) (hop : op.arity = 0)
    (f : Cell → Cell → Cell)
    (ha : (Instruction.plain op).action? (W := W) m.program.size =
      some (binary fun a b => pure (f a b))) :
    m.Replaces op r (f a b) := by
  refine replaces_of_run hop ha ?_
  rw [run_binary_pure, Stack.cells_of_toList h]

theorem replaces_of_divide (h : m.stack = r ++ [b, a]) (ha : a ≠ 0) :
    m.Replaces .div r (1 / a * b) := by
  refine replaces_of_run rfl rfl ?_
  rw [run_binary_divide, Stack.cells_of_toList h]
  exact if_neg ha

/-- On two cells `a` and `b`, with `a` on top, the operators compute the sum, the difference `b - a`
and the product modulo 2 ^ 32; of the comparisons exactly one holds; and the quotient is `b`, `-b`
or zero as `a` is one, minus one or anything else. That is the truncated quotient of `b` by `a`
exactly if `a` is one or minus one, or larger than `b` in absolute value. -/
theorem operators_exact (m : Machine W) (r : List Cell) (a b : Cell) (h : m.stack = r ++ [b, a]) :
    (∃ x, m.Replaces .add r x ∧ x.Wraps (a.toInt + b.toInt)) ∧
    (∃ x, m.Replaces .sub r x ∧ x.Wraps (b.toInt - a.toInt)) ∧
    (∃ x, m.Replaces .mul r x ∧ x.Wraps (a.toInt * b.toInt)) ∧
    (∃ x y z, m.Replaces .eq r x ∧ m.Replaces .lt r y ∧ m.Replaces .gt r z ∧
      x.toInt = (if a.toInt = b.toInt then 1 else 0) ∧
      y.toInt = (if a.toInt > b.toInt then 1 else 0) ∧
      z.toInt = (if a.toInt < b.toInt then 1 else 0) ∧ [x, y, z].count 1 = 1) ∧
    (a.toInt ≠ 0 → ∃ x, m.Replaces .div r x ∧
      (a.toInt = 1 → x = b) ∧
      (a.toInt = -1 → x.Wraps (-b.toInt) ∧ (b.toInt = -2 ^ 31 → x = b)) ∧
      (a.toInt ≠ 1 → a.toInt ≠ -1 → x.toInt = 0) ∧
      (x.Wraps (b.toInt.tdiv a.toInt) ↔
        a.toInt.natAbs = 1 ∨ b.toInt.natAbs < a.toInt.natAbs)) ∧
    ∀ op x, m.Replaces op r x → -2 ^ 31 ≤ x.toInt ∧ x.toInt < 2 ^ 31 := by
  refine ⟨⟨a + b, ?_, Cell.wraps_add a b⟩, ⟨b - a, ?_, Cell.wraps_sub a b⟩,
    ⟨a * b, ?_, Cell.wraps_mul a b⟩, ?_, ?_, ?_⟩
  · exact replaces_of_binary h rfl (fun a b => a + b) rfl
  · exact replaces_of_binary h rfl (fun a b => b - a) rfl
  · exact replaces_of_binary h rfl (fun a b => a * b) rfl
  · refine ⟨_, _, _, replaces_of_binary h rfl (fun a b => Cell.flag (a = b)) rfl,
      replaces_of_binary h rfl (fun a b => Cell.flag (b < a)) rfl,
      replaces_of_binary h rfl (fun a b => Cell.flag (a < b)) rfl, ?_, ?_, ?_, ?_⟩
    · simp [Cell.toInt_flag, Int32.toInt_inj]
    · simp [Cell.toInt_flag, Int32.lt_iff_toInt_lt]
    · simp [Cell.toInt_flag, Int32.lt_iff_toInt_lt]
    · exact Cell.count_one_comparisons a b
  · intro ha
    have hne : a ≠ 0 := by
      rintro rfl
      exact ha rfl
    refine ⟨1 / a * b, replaces_of_divide h hne, ?_, ?_, ?_, Cell.wraps_tdiv_iff b ha⟩
    · intro h1
      rw [Cell.one_div_mul_eq, if_pos h1]
    · intro h1
      rw [Cell.one_div_mul_eq, if_neg (by omega), if_pos h1]
      refine ⟨Cell.wraps_neg b, ?_⟩
      intro hb
      rw [← Int32.toInt_inj, Int32.toInt_neg, hb]
      rfl
    · intro h1 h2
      rw [Cell.one_div_mul_eq, if_neg h1, if_neg h2]
      rfl
  · intro op x _
    exact ⟨Int32.le_toInt x, Int32.toInt_lt x⟩

/-- The least cell divided by minus one stays the least, and one less than it is the greatest. -/
theorem operators_exact_least :
    let m := (start #[0, -2147483648, 0, -1, 5] {} Sink.unbounded).after 2
    m.stack = [] ++ [-2147483648, -1] ∧ m.Replaces .div [] (-2147483648) ∧
      ∃ x, m.Replaces .add [] x ∧ x.toInt = 2147483647 := by
  intro m
  have h : m.stack = [] ++ [-2147483648, -1] := by decide
  obtain ⟨⟨x, hx, hsum⟩, -, -, -, hdiv, -⟩ := operators_exact m [] (-1) (-2147483648) h
  obtain ⟨y, hy, -, hneg, -⟩ := hdiv (by decide)
  have hleast : y = -2147483648 := (hneg (by decide)).2 (by decide)
  have hgreatest : 2147483647 = x.toInt := (hsum _).2 ⟨by decide, by decide, by decide⟩
  exact ⟨h, hleast ▸ hy, x, hx, hgreatest.symm⟩

end Machine

end StackMachine
