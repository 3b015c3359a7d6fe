import StackMachine.Cell

/-! The instruction set: nineteen operations numbered from zero, each followed by at most one
operand cell. A number is looked up by its place in `all`, and `ofCode?_eq_some_iff` says that
this undoes `code`. -/

namespace StackMachine

inductive Opcode
  | push | pop | add | sub | mul | div | dup | swap | print | jmp | jz | jnz
  | eq | lt | gt | alloc | load | store | halt
  deriving DecidableEq, Repr

namespace Opcode

/-- In the order of their codes. -/
def all : List Opcode :=
  [push, pop, add, sub, mul, div, dup, swap, print, jmp, jz, jnz, eq, lt, gt, alloc, load, store, halt]

def code : Opcode → Nat
  | push => 0
  | pop => 1
  | add => 2
  | sub => 3
  | mul => 4
  | div => 5
  | dup => 6
  | swap => 7
  | print => 8
  | jmp => 9
  | jz => 10
  | jnz => 11
  | eq => 12
  | lt => 13
  | gt => 14
  | alloc => 15
  | load => 16
  | store => 17
  | halt => 18

/-- The number of operand cells that follow the code. -/
def arity : Opcode → Nat
  | push | jmp | jz | jnz | alloc | load | store => 1
  | _ => 0

def size (op : Opcode) : Nat := 1 + op.arity

def mnemonic : Opcode → String
  | push => "PUSH"
  | pop => "POP"
  | add => "ADD"
  | sub => "SUB"
  | mul => "MUL"
  | div => "DIV"
  | dup => "DUP"
  | swap => "SWAP"
  | print => "PRINT"
  | jmp => "JMP"
  | jz => "JZ"
  | jnz => "JNZ"
  | eq => "EQ"
  | lt => "LT"
  | gt => "GT"
  | alloc => "ALLOC"
  | load => "LOAD"
  | store => "STORE"
  | halt => "HALT"

def ofCode? (n : Nat) : Option Opcode := all[n]?

def ofMnemonic? (s : String) : Option Opcode := all.find? (·.mnemonic = s)

def cell (op : Opcode) : Cell := Int32.ofNat op.code

def ofCell? (w : Cell) : Option Opcode := w.index?.bind ofCode?

/-- The complaint about a number that is no opcode. -/
def unknownCodeMessage (n : Nat) : String :=
  "No discriminant in enum `Operation` matches the value `" ++ n.repr ++ "`"

@[simp] theorem length_all : all.length = 19 := rfl

@[simp] theorem ofCode?_code (op : Opcode) : ofCode? op.code = some op := by
  cases op <;> rfl

theorem code_of_ofCode? {n : Nat} {op : Opcode} (h : ofCode? n = some op) : op.code = n := by
  have hn : n < 19 := (List.getElem?_eq_some_iff.1 h).1
  have : ∀ k : Fin 19, ∀ op, ofCode? k = some op → op.code = k := by decide +kernel
  exact this ⟨n, hn⟩ op h

theorem ofCode?_eq_some_iff {n : Nat} {op : Opcode} : ofCode? n = some op ↔ n = op.code :=
  ⟨fun h => (code_of_ofCode? h).symm, fun h => h ▸ ofCode?_code op⟩

theorem ofCode?_eq_none_iff {n : Nat} : ofCode? n = none ↔ 18 < n := by
  rw [ofCode?, List.getElem?_eq_none_iff, length_all]
  rfl

theorem toInt_cell (op : Opcode) : op.cell.toInt = op.code := by
  cases op <;> rfl

theorem ofCell?_eq_some_iff {w : Cell} {op : Opcode} : ofCell? w = some op ↔ w = op.cell := by
  simp only [ofCell?, Option.bind_eq_some_iff, Cell.index?_eq_some_iff, ofCode?_eq_some_iff,
    exists_eq_right, ← toInt_cell, Int32.toInt_inj]

@[simp] theorem ofCell?_cell (op : Opcode) : ofCell? op.cell = some op :=
  ofCell?_eq_some_iff.2 rfl

theorem cell_injective {a b : Opcode} (h : a.cell = b.cell) : a = b :=
  Option.some.inj (by rw [← ofCell?_cell a, h, ofCell?_cell])

/-- The opcodes fill the numbers from 0 to 18. -/
theorem ofCell?_eq_none_iff {w : Cell} : ofCell? w = none ↔ w.toInt < 0 ∨ 18 < w.toInt := by
  unfold ofCell?
  cases h : w.index? with
  | none =>
    have := Cell.index?_eq_none_iff.1 h
    simp [this]
  | some n =>
    have := Cell.index?_eq_some_iff.1 h
    rw [Option.bind_some, ofCode?_eq_none_iff]
    omega

theorem not_unknown_cell (op : Opcode) : ¬ (op.cell.toInt < 0 ∨ 18 < op.cell.toInt) := by
  rw [← ofCell?_eq_none_iff, ofCell?_cell]
  exact Option.some_ne_none op

theorem arity_le_one (op : Opcode) : op.arity ≤ 1 := by
  cases op <;> decide

theorem size_pos (op : Opcode) : 0 < op.size := by
  unfold size
  omega

end Opcode

end StackMachine
