import Mathlib.Algebra.Group.Nat.Defs
import StackMachine.Proofs.Faults

/-! No step asks for what is undefined. `Machine.rawStep` is the step of a machine once more, done
with operations that are defined only in part: sums and differences of 64-bit words, quotients of
cells, places of a row that are told by their number, and a choice by instruction that leaves some
out. What guards these operations often stands far from them: that an instruction is well formed is
the decoder's doing, that a step can be counted the step limit's. Still a machine that was started
never gets to an operation that is undefined, and it takes the same step (`step_defined`). -/

namespace StackMachine

/-- The sum of two words, if that is a word. -/
def sum? (a b : Nat) : Option Nat := if a + b < 2 ^ 64 then some (a + b) else none

def difference? (a b : Nat) : Option Nat := if b ≤ a then some (a - b) else none

/-- The truncated quotient, if there is one and it is a cell. -/
def Cell.quotient? (a b : Cell) : Option Cell :=
  if b = 0 ∨ a = Int32.minValue ∧ b = -1 then none else some (a / b)

/-- Exchanges two cells that are told by their places, counted from the bottom. -/
def Stack.exchange? (s : Stack) (i j : Nat) : Option Stack := do
  let v ← s.toList[i]?
  let w ← s.toList[j]?
  return ⟨s.room, ((s.toList.set i w).set j v).reverse⟩

namespace Variables

def index (m : Variables) (w : Cell) : Except Cause Nat :=
  match w.index? with
  | none => .error (.indexOutOfRange w)
  | some i => if i < m.size then .ok i else .error (.indexOutOfRange w)

def write? (m : Variables) (i : Nat) (v : Cell) : Option Variables :=
  if h : i < m.slots.size then some ⟨m.slots.set i (some v)⟩ else none

end Variables

variable {W : Type}

/-- An action that may be undefined. -/
def Raw (W α : Type) : Type := Store W → Option (EStateM.Result Cause (Store W) α)

instance : Monad (Raw W) where
  pure x := fun s => some (.ok x s)
  bind a f := fun s =>
    match a s with
    | none => none
    | some (.ok x t) => f x t
    | some (.error c t) => some (.error c t)

namespace Raw

variable {α β : Type}

def undefined : Raw W α := fun _ => none

def ofAction (a : Action W α) : Raw W α := fun s => some (a.run s)

def ofOption : Option α → Raw W α
  | none => undefined
  | some x => pure x

def divide (a b : Cell) : Raw W Cell :=
  if a = 0 then ofAction (throw .divisionByZero)
  else do
    let q ← ofOption (Cell.quotient? 1 a)
    return q * b

def swap : Raw W Unit := fun s =>
  if s.stack.depth < 2 then some (.error .stackUnderflow s)
  else do
    let i ← difference? s.stack.depth 1
    let j ← difference? s.stack.depth 2
    let stack ← s.stack.exchange? i j
    return .ok () { s with stack }

def load (w : Cell) : Raw W Cell := fun s =>
  match s.vars.index w with
  | .error c => some (.error c s)
  | .ok i => do
    match ← s.vars.slots[i]? with
    | none => return .error (.readBeforeAllocation i) s
    | some v => return .ok v s

def store (w v : Cell) : Raw W Unit := fun s =>
  match s.vars.index w with
  | .error c => some (.error c s)
  | .ok i => do
    let vars ← s.vars.write? i v
    return .ok () { s with vars }

end Raw

open Raw in
def Instruction.raw [Writer W] (n : Nat) : Instruction → Raw W Control
  | withOperand .alloc i => do
    store i 0
    return .next
  | withOperand .load i => do
    ofAction (Action.push (← load i))
    return .next
  | withOperand .store i => do
    store i (← ofAction Action.pop)
    return .next
  | plain .div => do
    let a ← ofAction Action.pop
    let b ← ofAction Action.pop
    ofAction (Action.push (← divide a b))
    return .next
  | plain .swap => do
    swap
    return .next
  | i =>
    match i.action? n with
    | none => undefined
    | some a => ofAction a

/-- The operations that take two cells from the stack and push one. -/
def Opcode.IsBinary : Opcode → Prop
  | add | sub | mul | div | eq | lt | gt => True
  | _ => False

def Program.rawDecode (p : Program) (pc : Nat) : Option (Except Cause Instruction) :=
  match p[pc]? with
  | none => some (.error (.outOfBounds (Int64.ofNat pc)))
  | some w =>
    match Opcode.ofCell? w with
    | none => some (.error (.unknownInstruction w))
    | some op =>
      if op.arity = 0 then some (.ok (.plain op))
      else do
        let k ← sum? pc 1
        match p[k]? with
        | none => return .error (.outOfBounds (Int64.ofNat k))
        | some v => return .ok (.withOperand op v)

namespace Machine

def rawFetch (m : Machine W) : Option (Except Cause Instruction) :=
  match m.maxSteps with
  | none => m.program.rawDecode m.pc
  | some limit =>
    if limit ≤ m.steps then some (.error (.stepLimit limit)) else m.program.rawDecode m.pc

variable [Writer W]

def rawCycle (m : Machine W) : Option (Except Cause Unit × Machine W) := do
  match ← m.rawFetch with
  | .error c => return (.error c, m)
  | .ok i =>
    let steps ← sum? m.steps 1
    let pc ← sum? m.pc i.size
    match ← i.raw m.program.size m.store with
    | .error c store => return (.error c, { m with steps, store })
    | .ok .next store => return (.ok (), { m with steps, store, pc })
    | .ok (.jump t) store => return (.ok (), { m with steps, store, pc := t })
    | .ok .halt store => return (.ok (), { m with steps, store, status := .halted .instruction })

/-- A step in which something may be undefined. -/
def rawStep (m : Machine W) : Option (Except Fault Status × Machine W) :=
  match m.status with
  | .halted e => some (.ok (.halted e), m)
  | .faulted f => some (.error f, m)
  | .running =>
    if m.pc < m.program.size then do
      match ← m.rawCycle with
      | (.ok (), m') => return (.ok m'.status, m')
      | (.error c, m') => return (.error ⟨c, m'.pc⟩, { m' with status := .faulted ⟨c, m'.pc⟩ })
    else some (.ok (.halted .endOfProgram), { m with status := .halted .endOfProgram })

end Machine

/-! Each operation is defined where it is used. -/

theorem sum?_eq {a b : Nat} (h : a + b < 2 ^ 64) : sum? a b = some (a + b) :=
  if_pos h

theorem Cell.quotient?_eq {a b : Cell} (ha : a ≠ Int32.minValue) (hb : b ≠ 0) :
    quotient? a b = some (a / b) :=
  if_neg fun h => h.elim hb fun h => ha h.1

theorem Stack.exchange?_eq {s t : Stack} (h : s.swap = .ok t) :
    s.exchange? (s.depth - 1) (s.depth - 2) = some t := by
  obtain ⟨room, _ | ⟨a, _ | ⟨b, r⟩⟩⟩ := s
  · cases h
  · cases h
  · cases h
    have hi : depth ⟨room, a :: b :: r⟩ - 1 = r.reverse.length + 1 := by simp [depth]
    have hj : depth ⟨room, a :: b :: r⟩ - 2 = r.reverse.length := by simp [depth]
    have hcells : toList ⟨room, a :: b :: r⟩ = r.reverse ++ [b, a] := by simp [toList]
    have ha : (r.reverse ++ [b, a])[r.reverse.length + 1]? = some a := by simp
    have hb : (r.reverse ++ [b, a])[r.reverse.length]? = some b := by simp
    rw [exchange?, hi, hj, hcells, ha, hb]
    simp [List.set_append_right]

namespace Variables

variable {m : Variables} {w : Cell}

theorem index_eq (m : Variables) (w : Cell) : m.index w = (m.locate w).map Fin.val := by
  unfold index locate size
  cases w.index? with
  | none => rfl
  | some i =>
    dsimp only
    split <;> rfl

theorem write?_eq (i : Fin m.slots.size) (v : Cell) : m.write? i v = some (m.set i v) :=
  dif_pos i.isLt

end Variables

namespace Raw

variable {α β : Type}

/-- What may be undefined is defined, and it is the action. -/
def Agrees (g : Raw W α) (a : Action W α) : Prop := ∀ s, g s = some (a.run s)

namespace Agrees

theorem ofAction (a : Action W α) : Agrees (Raw.ofAction a) a := fun _ => rfl

theorem pure (x : α) : Agrees (Pure.pure x : Raw W α) (Pure.pure x) := fun _ => rfl

theorem bind {g : Raw W α} {a : Action W α} {h : α → Raw W β} {f : α → Action W β}
    (ha : Agrees g a) (hf : ∀ x, Agrees (h x) (f x)) : Agrees (g >>= h) (a >>= f) := by
  intro s
  rw [EStateM.run_bind]
  change (match g s with
    | none => none
    | some (.ok x t) => h x t
    | some (.error c t) => some (.error c t)) = _
  rw [ha s]
  cases a.run s with
  | ok x t => exact hf x t
  | error c t => rfl

theorem divide (a b : Cell) : Agrees (W := W) (Raw.divide a b) (Action.divide a b) := by
  unfold Raw.divide Action.divide
  by_cases h : a = 0
  · rw [if_pos h, if_pos h]
    exact ofAction _
  · rw [if_neg h, if_neg h, Cell.quotient?_eq (by decide) h]
    exact fun _ => rfl

theorem swap : Agrees (W := W) Raw.swap Action.swap := by
  intro s
  rw [Action.run_swap]
  unfold Raw.swap
  cases h : s.stack.swap with
  | error c =>
    obtain ⟨rfl, hd⟩ := Stack.swap_eq_error_iff.1 h
    exact if_pos hd
  | ok t =>
    have hd : ¬ s.stack.depth < 2 := by
      intro hd
      rw [Stack.swap_eq_error_iff.2 ⟨rfl, hd⟩] at h
      cases h
    have hi : difference? s.stack.depth 1 = some (s.stack.depth - 1) := if_pos (by omega)
    have hj : difference? s.stack.depth 2 = some (s.stack.depth - 2) := if_pos (by omega)
    rw [if_neg hd, hi, hj]
    simp only [Option.bind_eq_bind, Option.bind_some, Stack.exchange?_eq h]
    rfl

theorem load (w : Cell) : Agrees (W := W) (Raw.load w) (Action.load w) := by
  intro s
  rw [Action.run_load]
  unfold Raw.load Variables.load
  rw [Variables.index_eq]
  cases s.vars.locate w with
  | error c => rfl
  | ok i =>
    have hi : s.vars.slots[i.val]? = some (s.vars.get i) := Array.getElem?_eq_getElem i.isLt
    simp only [Except.map, hi, Option.bind_eq_bind, Option.bind_some]
    cases s.vars.get i <;> rfl

theorem store (w v : Cell) : Agrees (W := W) (Raw.store w v) (Action.store w v) := by
  intro s
  rw [Action.run_store]
  unfold Raw.store Variables.store
  rw [Variables.index_eq]
  cases s.vars.locate w with
  | error c => rfl
  | ok i =>
    simp only [Except.map, Variables.write?_eq, Option.bind_eq_bind, Option.bind_some]
    rfl

end Agrees

end Raw

open StackMachine.Raw in
theorem Instruction.agrees_raw [Writer W] {n : Nat} {i : Instruction} {a : Action W Control}
    (ha : i.action? n = some a) : Agrees (i.raw n) a := by
  cases i with
  | withOperand op v =>
    cases op
    case alloc => cases ha; exact (Agrees.store v 0).bind fun _ => .pure _
    case load =>
      cases ha
      exact (Agrees.load v).bind fun x => (Agrees.ofAction _).bind fun _ => .pure _
    case store =>
      cases ha
      exact (Agrees.ofAction _).bind fun x => (Agrees.store v x).bind fun _ => .pure _
    all_goals
      cases ha
      try exact Agrees.ofAction _
  | plain op =>
    cases op
    case div =>
      cases ha
      exact (Agrees.ofAction _).bind fun x => (Agrees.ofAction _).bind fun y =>
        (Agrees.divide x y).bind fun _ => (Agrees.ofAction _).bind fun _ => .pure _
    case swap => cases ha; exact Agrees.swap.bind fun _ => .pure _
    all_goals
      cases ha
      try exact Agrees.ofAction _

theorem Program.rawDecode_eq {p : Program} {pc : Nat} (hp : p.size < 2 ^ 64) :
    p.rawDecode pc = some (p.decode pc) := by
  unfold rawDecode decode
  cases hw : p[pc]? with
  | none => rfl
  | some w =>
    have hpc := (Array.getElem?_eq_some_iff.1 hw).1
    dsimp only
    cases Opcode.ofCell? w with
    | none => rfl
    | some op =>
      dsimp only
      split
      · rfl
      · rw [sum?_eq (by omega)]
        simp only [Option.bind_eq_bind, Option.bind_some]
        cases p[pc + 1]? <;> rfl

namespace Machine

variable {m m' : Machine W}

theorem rawFetch_eq (hp : m.program.size < 2 ^ 64) : m.rawFetch = some m.fetch := by
  unfold rawFetch fetch
  rw [Program.rawDecode_eq hp]
  cases m.maxSteps with
  | none => rfl
  | some limit =>
    dsimp only
    split <;> rfl

variable [Writer W]

theorem rawCycle_of_fetch_error {c : Cause} (hp : m.program.size < 2 ^ 64)
    (hf : m.fetch = .error c) : m.rawCycle = some (.error c, m) := by
  unfold rawCycle
  rw [rawFetch_eq hp, hf]
  rfl

theorem rawCycle_of_performs {i : Instruction} {a : Action W Control}
    (hp : m.program.size < 2 ^ 64) (hs : m.steps + 1 < 2 ^ 64) (h : m.Performs i a) :
    m.rawCycle = some (m.perform a i.size) := by
  have hle := Program.add_size_le_of_decode h.decode
  unfold rawCycle
  rw [rawFetch_eq hp, h.fetch, perform_eq]
  simp only [Option.bind_eq_bind, Option.bind_some]
  rw [sum?_eq hs, sum?_eq (by omega)]
  simp only [Option.bind_some, Instruction.agrees_raw h.action m.store]
  cases a.run m.store with
  | error c s => rfl
  | ok k s => cases k <;> rfl

theorem rawStep_eq (hp : m.program.size < 2 ^ 64)
    (hs : ∀ i, m.fetch = .ok i → m.steps + 1 < 2 ^ 64) : m.rawStep = some m.step := by
  unfold rawStep step
  cases hr : m.status with
  | halted e => rfl
  | faulted f => rfl
  | running =>
    by_cases hpc : m.pc < m.program.size
    · simp only [hpc, if_true]
      have hc : m.rawCycle = some m.cycle := by
        cases hf : m.fetch with
        | error c => rw [rawCycle_of_fetch_error hp hf, cycle_of_fetch_error hf]
        | ok i =>
          obtain ⟨a, ha⟩ := exists_performs hr hpc hf
          rw [rawCycle_of_performs hp (hs i hf) ha, cycle_of_fetch_ok ha.fetch ha.action]
      rw [hc]
      simp only [Option.bind_eq_bind, Option.bind_some]
      cases m.cycle with
      | mk x m' => cases x <;> rfl
    · simp only [hpc, if_false]

/-- Two cells that were taken leave room for one. -/
theorem not_stackOverflow_of_isBinary {i : Instruction} {a : Action W Control} {c : Cause}
    {s : Store W} (h : m.Performs i a) (hi : i.opcode.IsBinary)
    (hr : a.run m.store = .error c s) : c ≠ .stackOverflow := by
  have hc := Instruction.fault?_of_run h.action hr
  rintro rfl
  cases hop : i.opcode
  case add | sub | mul | div | eq | lt | gt =>
    rw [hop, Opcode.fault?] at hc
    split at hc
    · cases hc
    · simp at hc
  all_goals
    rw [hop] at hi
    exact hi

section Start

variable {p : Program} {l : Limits} {w : W} {n : Nat}

theorem steps_lt_of_fetch (hl : ∀ k, l.maxSteps = some k → k < 2 ^ 64) (h : l.maxSteps ≠ none)
    {i : Instruction} (hf : ((start p l w).after n).fetch = .ok i) :
    ((start p l w).after n).steps + 1 < 2 ^ 64 := by
  obtain ⟨k, hk⟩ := Option.ne_none_iff_exists'.1 h
  have hlt := (fetch_eq_ok_iff.1 hf).1 k ((valid_after p l w n).maxSteps.trans hk)
  have := hl k hk
  omega

/-- As long as a further step can be counted, a machine takes every step without asking for what is
undefined; under a step limit that is always so. An instruction that is fetched is well formed, the
addresses after it are words, and if it takes two cells from the stack and pushes one, it does not
lack a place for that. -/
theorem step_defined (p : Program) (l : Limits) (w : W) (hp : p.size < 2 ^ 64)
    (hl : ∀ k, l.maxSteps = some k → k < 2 ^ 64) (n : Nat) :
    let m := (start p l w).after n
    (m.steps < 2 ^ 64 - 1 ∨ l.maxSteps ≠ none → m.rawStep = some m.step) ∧
      ∀ i, m.fetch = .ok i →
        i.WellFormed ∧ m.pc + 1 < 2 ^ 64 ∧ m.pc + i.size < 2 ^ 64 ∧
        (l.maxSteps ≠ none → m.steps + 1 < 2 ^ 64) ∧
        (m.status = .running → i.opcode.IsBinary →
          m.step.1 ≠ .error ⟨.stackOverflow, m.pc⟩) := by
  intro m
  have hprogram : m.program = p := (valid_after p l w n).program
  have hsize : m.program.size < 2 ^ 64 := by rwa [hprogram]
  refine ⟨?_, ?_⟩
  · intro hs
    refine rawStep_eq hsize ?_
    intro i hf
    rcases hs with hs | hs
    · omega
    · exact steps_lt_of_fetch hl hs hf
  · intro i hf
    have hd := decode_of_fetch hf
    have hle := Program.add_size_le_of_decode hd
    have hpos := i.size_pos
    refine ⟨Program.wellFormed_of_decode hd, by omega, by omega, ?_, ?_⟩
    · exact fun hs => steps_lt_of_fetch hl hs hf
    · intro hs hi he
      obtain ⟨a, ha⟩ := exists_performs hs (by omega) hf
      cases hr : a.run m.store with
      | ok k s =>
        rw [ha.step_of_ok hr] at he
        cases he
      | error c s =>
        rw [ha.step_of_error hr] at he
        cases he
        exact not_stackOverflow_of_isBinary ha hi hr rfl

/-- A quotient by minus one is defined, and it is counted as the last step that is allowed. -/
theorem step_defined_divide :
    let p : Program := #[0, 7, 0, -1, 5]
    let l : Limits := { stackCapacity := 2, maxSteps := some 3 }
    (p.size < 2 ^ 64 ∧ ∀ k, l.maxSteps = some k → k < 2 ^ 64) ∧
      (((start p l Sink.unbounded).after 2).rawStep.map fun r => (r.2.stack, r.2.steps)) =
        some ([-7], 3) := by
  intro p l
  have hl : ∀ k, l.maxSteps = some k → k < 2 ^ 64 := by
    rintro k ⟨⟩
    decide
  refine ⟨⟨by decide, hl⟩, ?_⟩
  rw [(step_defined p l Sink.unbounded (by decide) hl 2).1 (.inr nofun)]
  decide +kernel

end Start

end Machine

end StackMachine
