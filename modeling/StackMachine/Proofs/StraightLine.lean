import StackMachine.Proofs.Listing
import StackMachine.Proofs.StepLimit

/-! Straight-line code. A list of instructions without jumps can be evaluated as it stands, from left
to right, with no program to fetch from and no address to go on to: `transform` is the table of
instructions, on plain lists of cells, and `evaluate` goes through a list by this table. Running the
assembled list comes to the same (`run_straight_line`). -/

namespace StackMachine

variable {W : Type}

/-- What instructions transform: the stack with the top first, the variables, and the writer. -/
structure Data (W : Type := Sink) where
  stack : List Cell
  vars : List (Option Cell)
  sink : W
  deriving DecidableEq, Repr

namespace Data

def initial (l : Limits) (w : W) : Data W := ⟨[], List.replicate l.variableCount none, w⟩

def fail (d : Data W) (c : Cause) : Except (Cause × W) (Data W) := .error (c, d.sink)

def push (d : Data W) (capacity : Nat) (v : Cell) : Except (Cause × W) (Data W) :=
  if d.stack.length < capacity then .ok { d with stack := v :: d.stack } else d.fail .stackOverflow

def slot? (d : Data W) (i : Cell) : Option Nat :=
  if 0 ≤ i.toInt ∧ i.toInt < d.vars.length then some i.toInt.toNat else none

def set (d : Data W) (i v : Cell) : Except (Cause × W) (Data W) :=
  match d.slot? i with
  | none => d.fail (.indexOutOfRange i)
  | some k => .ok { d with vars := d.vars.set k (some v) }

def print [Writer W] (d : Data W) (v : Cell) : Except (Cause × W) (Data W) :=
  match Writer.write d.sink (v.toInt.repr.toList ++ ['\n']) with
  | (.ok (), sink) => .ok { d with sink }
  | (.error e, sink) => .error (.output e, sink)

end Data

/-- The table of instructions, with `a` for the cell that is popped first and `b` for the second.
Jumps are not in it. -/
def Instruction.transform [Writer W] (capacity : Nat) (d : Data W) (i : Instruction) :
    Except (Cause × W) (Data W) :=
  match i, d.stack with
  | withOperand .push v, _ => d.push capacity v
  | withOperand .alloc i, _ => d.set i 0
  | withOperand .load i, _ =>
    match d.slot? i with
    | none => d.fail (.indexOutOfRange i)
    | some k =>
      match d.vars[k]? with
      | some (some v) => d.push capacity v
      | _ => d.fail (.readBeforeAllocation k)
  | withOperand .store i, a :: r => { d with stack := r }.set i a
  | plain .pop, _ :: r => .ok { d with stack := r }
  | plain .add, a :: b :: r => .ok { d with stack := (a + b) :: r }
  | plain .sub, a :: b :: r => .ok { d with stack := (b - a) :: r }
  | plain .mul, a :: b :: r => .ok { d with stack := (a * b) :: r }
  | plain .div, a :: b :: r =>
    if a = 0 then d.fail .divisionByZero else .ok { d with stack := (1 / a * b) :: r }
  | plain .dup, a :: _ => d.push capacity a
  | plain .swap, a :: b :: r => .ok { d with stack := b :: a :: r }
  | plain .print, a :: _ => d.print a
  | plain .eq, a :: b :: r => .ok { d with stack := (if a = b then 1 else 0) :: r }
  | plain .lt, a :: b :: r => .ok { d with stack := (if a > b then 1 else 0) :: r }
  | plain .gt, a :: b :: r => .ok { d with stack := (if a < b then 1 else 0) :: r }
  | plain .halt, _ => .ok d
  | _, _ => d.fail .stackUnderflow

/-- Evaluates a list from left to right, other instructions having been evaluated before it. What is
left when a `HALT`, a failure or the end of the list is reached is how it ended and the writer. -/
def evaluate [Writer W] (l : Limits) (before : List Instruction) (d : Data W) :
    List Instruction → Except Fault Completion × W
  | [] => (.ok ⟨.endOfProgram, before.length, d.stack.reverse⟩, d.sink)
  | i :: is =>
    let address := (before.map Instruction.size).sum
    match l.maxSteps.filter (· ≤ before.length) with
    | some limit => (.error ⟨.stepLimit limit, address⟩, d.sink)
    | none =>
      if i = .plain .halt then (.ok ⟨.instruction, before.length + 1, d.stack.reverse⟩, d.sink)
      else
        match i.transform l.stackCapacity d with
        | .error (c, sink) => (.error ⟨c, address⟩, sink)
        | .ok d => evaluate l (before ++ [i]) d is

open StackMachine.Action

def Store.data (s : Store W) : Data W := ⟨s.stack.cells, s.vars.slots.toList, s.sink⟩

namespace Action

variable {α β : Type}

/-- What an action leaves, so far as the table tells. -/
def effect (a : Action W α) (s : Store W) : Except (Cause × W) (Data W) :=
  match a.run s with
  | .ok _ t => .ok t.data
  | .error c t => .error (c, t.sink)

variable {s : Store W}

theorem effect_bind_pure (a : Action W α) (x : β) :
    effect (a >>= fun _ => pure x) s = effect a s := by
  rw [effect, EStateM.run_bind, effect]
  cases a.run s <;> rfl

theorem effect_push (v : Cell) : effect (push v) s = s.data.push s.stack.capacity v := by
  obtain ⟨⟨_ | room, cells⟩, vars, sink⟩ := s
  · exact (if_neg (by simp [Store.data, Stack.capacity, Stack.depth])).symm
  · exact (if_pos (by simp [Store.data, Stack.capacity, Stack.depth])).symm

theorem slot?_of_locate_ok {i : Cell} {k : Fin s.vars.slots.size} (h : s.vars.locate i = .ok k) :
    s.data.slot? i = some k.val := by
  have hi := Cell.index?_eq_some_iff.1 (Variables.locate_eq_ok_iff.1 h)
  have hlen : s.data.vars.length = s.vars.size := Array.length_toList
  have hk : k.val < s.vars.size := k.isLt
  rw [Data.slot?, if_pos (by omega), hi, Int.toNat_natCast]

theorem slot?_of_locate_error {i : Cell} {c : Cause} (h : s.vars.locate i = .error c) :
    s.data.slot? i = none := by
  have hr := (Variables.locate_eq_error_iff.1 h).2
  have hlen : s.data.vars.length = s.vars.size := Array.length_toList
  exact if_neg (by omega)

theorem effect_store (i v : Cell) : effect (store i v) s = s.data.set i v := by
  rw [effect, run_store, Variables.store, Data.set]
  cases h : s.vars.locate i with
  | error c =>
    rw [slot?_of_locate_error h, (Variables.locate_eq_error_iff.1 h).1]
    rfl
  | ok k =>
    rw [slot?_of_locate_ok h]
    simp only [Store.data, Variables.set, Array.toList_set]

theorem effect_load_push (i : Cell) :
    effect (load i >>= fun v => push v >>= fun _ => pure Control.next) s =
      match s.data.slot? i with
      | none => s.data.fail (.indexOutOfRange i)
      | some k =>
        match s.data.vars[k]? with
        | some (some v) => s.data.push s.stack.capacity v
        | _ => s.data.fail (.readBeforeAllocation k) := by
  rw [effect, EStateM.run_bind, run_load, Variables.load]
  cases h : s.vars.locate i with
  | error c =>
    rw [slot?_of_locate_error h, (Variables.locate_eq_error_iff.1 h).1]
    rfl
  | ok k =>
    have hk : s.data.vars[k.val]? = some (s.vars.get k) := by
      simp [Store.data, Variables.get]
    rw [slot?_of_locate_ok h]
    dsimp only
    rw [hk]
    cases s.vars.get k with
    | none => rfl
    | some v => exact (effect_bind_pure _ _).trans (effect_push v)

theorem effect_print [Writer W] (v : Cell) : effect (print v) s = s.data.print v := by
  rw [effect, run_print, Data.print, ← printed_eq]
  change _ = match Writer.write s.sink (printed v) with
    | (.ok (), sink) => Except.ok { s.data with sink }
    | (.error e, sink) => .error (Cause.output e, sink)
  cases Writer.write s.sink (printed v) with
  | mk r w => cases r <;> rfl

end Action

namespace Instruction

theorem target?_eq_none {i : Instruction} (h : i.opcode ∉ [Opcode.jmp, .jz, .jnz]) :
    i.target? = none := by
  cases i with
  | plain op => rfl
  | withOperand op v => cases op <;> simp_all [opcode, target?]

variable [Writer W] {n : Nat} {i : Instruction} {a : Action W Control}

theorem effect_action (ha : i.action? n = some a) (hi : i.target? = none) (s : Store W) :
    effect a s = i.transform s.stack.capacity s.data := by
  cases i with
  | withOperand op v =>
    cases op
    case push => cases ha; exact (effect_bind_pure _ _).trans (effect_push v)
    case jmp | jz | jnz => cases hi
    case alloc => cases ha; exact (effect_bind_pure _ _).trans (effect_store v 0)
    case load =>
      cases ha
      exact effect_load_push v
    case store =>
      cases ha
      obtain ⟨⟨room, _ | ⟨x, r⟩⟩, vars, sink⟩ := s
      · rfl
      · exact (effect_bind_pure _ _).trans (effect_store (s := ⟨⟨room + 1, r⟩, vars, sink⟩) v x)
    all_goals cases ha
  | plain op =>
    cases op
    case pop =>
      cases ha
      obtain ⟨⟨room, _ | ⟨x, r⟩⟩, vars, sink⟩ := s <;> rfl
    case div =>
      cases ha
      rw [effect, run_binary_divide]
      obtain ⟨⟨room, _ | ⟨x, _ | ⟨y, r⟩⟩⟩, vars, sink⟩ := s
      · rfl
      · rfl
      · dsimp only
        by_cases h : x = 0
        · rw [if_pos h]
          exact (if_pos h).symm
        · rw [if_neg h]
          exact (if_neg h).symm
    case dup =>
      cases ha
      obtain ⟨⟨room, _ | ⟨x, r⟩⟩, vars, sink⟩ := s
      · rfl
      · exact (effect_bind_pure _ _).trans (effect_push (s := ⟨⟨room, x :: r⟩, vars, sink⟩) x)
    case swap =>
      cases ha
      obtain ⟨⟨room, _ | ⟨x, _ | ⟨y, r⟩⟩⟩, vars, sink⟩ := s <;> rfl
    case print =>
      cases ha
      obtain ⟨⟨room, _ | ⟨x, r⟩⟩, vars, sink⟩ := s
      · rfl
      · exact (effect_bind_pure _ _).trans (effect_print (s := ⟨⟨room, x :: r⟩, vars, sink⟩) x)
    case halt => cases ha; rfl
    case add | sub | mul =>
      cases ha
      rw [effect, run_binary_pure]
      obtain ⟨⟨room, _ | ⟨x, _ | ⟨y, r⟩⟩⟩, vars, sink⟩ := s <;> rfl
    case eq | lt | gt =>
      cases ha
      simp only [effect, run_binary_pure, Cell.flag_decide]
      obtain ⟨⟨room, _ | ⟨x, _ | ⟨y, r⟩⟩⟩, vars, sink⟩ := s <;> rfl
    all_goals cases ha

theorem eq_next_of_run {s t : Store W} {k : Control} (ha : i.action? n = some a)
    (hi : i.target? = none) (hh : i ≠ .plain .halt) (hr : a.run s = .ok k t) : k = .next := by
  have hk := ((Store.stable_sameShape.ends_action ha).ok hr).2
  cases k with
  | next => rfl
  | jump t =>
    have ht := hk.2
    rw [hi] at ht
    cases ht
  | halt => exact absurd hk hh

end Instruction

namespace Program

theorem length_cells {is : List Instruction} (hw : ∀ i ∈ is, i.WellFormed) :
    (is.flatMap Instruction.cells).length = (is.map Instruction.size).sum := by
  rw [List.length_flatMap]
  exact congrArg List.sum (List.map_congr_left fun i hi => (hw i hi).length_cells)

theorem size_assemble {is : List Instruction} (hw : ∀ i ∈ is, i.WellFormed) :
    (assemble is).size = (is.map Instruction.size).sum :=
  List.size_toArray.trans (length_cells hw)

theorem decode_assemble {before is : List Instruction} {i : Instruction}
    (hw : ∀ j ∈ before ++ i :: is, j.WellFormed) :
    (assemble (before ++ i :: is)).decode (before.map Instruction.size).sum = .ok i := by
  have hlen := length_cells fun j hj => hw j (List.mem_append_left _ hj)
  refine decode_eq_ok_iff.2 ⟨hw i (by simp), ?_⟩
  rw [assemble, List.toList_toArray, List.flatMap_append, ← hlen, List.drop_left,
    List.flatMap_cons]
  exact List.prefix_append _ _

end Program

namespace Machine

/-- The machine has performed the first part of an assembled list and the rest is left. -/
structure InLine (l : Limits) (before rest : List Instruction) (m : Machine W) : Prop where
  program : m.program = Program.assemble (before ++ rest)
  maxSteps : m.maxSteps = l.maxSteps
  capacity : m.store.stack.capacity = l.stackCapacity
  running : m.status = .running
  pc : m.pc = (before.map Instruction.size).sum
  steps : m.steps = before.length

variable {l : Limits} {before rest : List Instruction} {i : Instruction} {m : Machine W}

namespace InLine

theorem decode (h : InLine l before (i :: rest) m) (hw : ∀ j ∈ before ++ i :: rest, j.WellFormed) :
    m.program.decode m.pc = .ok i := by
  rw [h.program, h.pc]
  exact Program.decode_assemble hw

theorem pc_lt (h : InLine l before (i :: rest) m) (hw : ∀ j ∈ before ++ i :: rest, j.WellFormed) :
    m.pc < m.program.size :=
  Program.lt_size_of_decode (h.decode hw)

variable [Writer W]

theorem moved {a : Action W Control} {s : Store W} (h : InLine l before (i :: rest) m)
    (hp : m.Performs i a) (hr : a.run m.store = .ok .next s) :
    InLine l (before ++ [i]) rest
      { m with steps := m.steps + 1, store := s, pc := m.pc + i.size } where
  program := by rw [h.program, List.append_assoc, List.singleton_append]
  maxSteps := h.maxSteps
  capacity :=
    ((Store.stable_sameShape.ends_action hp.action).ok hr).1.1.trans h.capacity
  running := h.running
  pc := by simp [h.pc]
  steps := by simp [h.steps]

/-- Running the rest of a list ends as evaluating it does. -/
theorem runFor (h : InLine l before rest m) (hw : ∀ i ∈ before ++ rest, i.WellFormed)
    (hj : ∀ i ∈ rest, i.target? = none) :
    ∃ e, m.runFor (rest.length + 1) = some ((evaluate l before m.store.data rest).1, e) ∧
      e.store.sink = (evaluate l before m.store.data rest).2 := by
  induction rest generalizing before m with
  | nil =>
    have hle : m.program.size ≤ m.pc := by
      rw [h.program, h.pc, List.append_nil]
      exact Nat.le_of_eq (Program.size_assemble (by simpa using hw))
    rw [Machine.runFor, step_of_exhausted h.running hle, evaluate, ← h.steps]
    exact ⟨_, rfl, rfl⟩
  | cons i rest ih =>
    have hd := h.decode hw
    have hpc := h.pc_lt hw
    rw [evaluate]
    cases hl : l.maxSteps.filter (· ≤ before.length) with
    | some k =>
      obtain ⟨hk, hle⟩ := Option.filter_eq_some_iff.1 hl
      have hf : m.fetch = .error (.stepLimit k) := fetch_eq_error_iff.2
        (.inl ⟨k, h.maxSteps.trans hk, by simpa [h.steps] using hle, rfl⟩)
      rw [Machine.runFor, step_of_unfetched h.running hpc hf, ← h.pc]
      exact ⟨_, rfl, rfl⟩
    | none =>
      have hf : m.fetch = .ok i := by
        refine fetch_eq_ok_iff.2 ⟨fun k hk => ?_, hd⟩
        have := Option.filter_eq_none_iff.1 hl k (h.maxSteps ▸ hk)
        simpa [h.steps] using this
      obtain ⟨a, hp⟩ := exists_performs h.running hpc hf
      dsimp only
      by_cases hhalt : i = .plain .halt
      · subst hhalt
        have hr : a.run m.store = .ok .halt m.store := by
          cases hp.action
          rfl
        rw [Machine.runFor, step_of_outcome (.stopped hp hr), if_pos rfl, ← h.steps]
        exact ⟨_, rfl, rfl⟩
      have heff := Instruction.effect_action hp.action (hj i List.mem_cons_self) m.store
      rw [h.capacity, effect] at heff
      rw [if_neg hhalt, ← heff]
      cases hr : a.run m.store with
      | error c s =>
        rw [Machine.runFor, step_of_outcome (.failed hp hr), ← h.pc]
        exact ⟨_, rfl, rfl⟩
      | ok k s =>
        obtain rfl := Instruction.eq_next_of_run hp.action (hj i List.mem_cons_self) hhalt hr
        rw [Machine.runFor, step_of_outcome (.moved hp hr)]
        exact ih (h.moved hp hr) (by simpa using hw) fun j hj' => hj j (List.mem_cons_of_mem i hj')

end InLine

variable [Writer W]

/-- Running an assembled list without jumps ends as evaluating the list does: with the same
completion or fault, and with the same text printed. It takes at most one step more than the list
has instructions. -/
theorem run_straight_line (is : List Instruction) (hw : ∀ i ∈ is, i.WellFormed)
    (hj : ∀ i ∈ is, i.opcode ∉ [Opcode.jmp, .jz, .jnz]) (l : Limits) (w : W) :
    let m := start (Program.assemble is) l w
    let v := evaluate l [] (.initial l w) is
    ∃ e, m.runFor (is.length + 1) = some (v.1, e) ∧ e.output = Writer.accepted v.2 ∧
      ((l.maxSteps = none → is.length < UInt64.size) → m.run = some (v.1, e)) := by
  intro m v
  have h : InLine l [] is m := ⟨rfl, rfl, rfl, rfl, rfl, rfl⟩
  have hdata : m.store.data = .initial l w := by
    simp [m, start, Store.data, Data.initial, Stack.empty, Variables.ofSize]
  obtain ⟨e, he, hs⟩ := h.runFor hw fun i hi => Instruction.target?_eq_none (hj i hi)
  rw [hdata] at he hs
  exact ⟨e, he, congrArg Writer.accepted hs, run_of_runFor he⟩

/-- Seven is greater than three, so `LT` leaves a one. The fault stands where the instructions before
it end, and what they printed was printed. -/
theorem run_straight_line_divide :
    let is : List Instruction :=
      [.withOperand .push 3, .withOperand .push 7, .plain .lt, .plain .print, .withOperand .push 0,
        .plain .div, .plain .halt]
    (∀ i ∈ is, i.WellFormed) ∧ (∀ i ∈ is, i.opcode ∉ [Opcode.jmp, .jz, .jnz]) ∧
      ∃ e, (start (Program.assemble is) {} Sink.unbounded).run =
        some (.error ⟨.divisionByZero, 8⟩, e) ∧ e.output = "1\n" := by
  intro is
  have hw : ∀ i ∈ is, i.WellFormed := by decide
  have hj : ∀ i ∈ is, i.opcode ∉ [Opcode.jmp, .jz, .jnz] := by decide
  let v := evaluate {} [] (.initial {} Sink.unbounded) is
  have hv : v.1 = .error ⟨.divisionByZero, 8⟩ := by decide +kernel
  have hprinted : Writer.accepted v.2 = "1\n" := by decide +kernel
  obtain ⟨e, -, ho, hr⟩ := run_straight_line is hw hj {} Sink.unbounded
  rw [hv] at hr
  exact ⟨hw, hj, e, hr fun _ => by decide, ho.trans hprinted⟩

end Machine

end StackMachine
