import StackMachine.Proofs.Invariant

/-! Which fault a step ends in, if any, told from what can be seen before it: the step count, the
cells at the address, the depth of the stack and its top, and the variables. `Machine.fault?` lists
the causes in order of precedence and `step_eq_fault?` says that the step goes by this list. -/

namespace StackMachine

namespace Writer

variable {W : Type} [Writer W]

def TakesAll (w : W) (text : List Char) : Prop :=
  accepted (write w text).2 = accepted w ++ String.ofList text

instance (w : W) (text : List Char) : Decidable (TakesAll w text) :=
  inferInstanceAs (Decidable (_ = _))

def complaint (w : W) (text : List Char) : String :=
  match (write w text).1 with
  | .ok () => ""
  | .error e => e

theorem takesAll_of_ok {w w' : W} {text : List Char} (h : write w text = (.ok (), w')) :
    TakesAll w text := by
  rw [TakesAll, h]
  exact accepted_of_ok h

theorem not_takesAll_of_error {w w' : W} {text : List Char} {e : String}
    (h : write w text = (.error e, w')) : ¬ TakesAll w text := by
  obtain ⟨t, -, hne, ha⟩ := accepted_of_error h
  rw [TakesAll, h, ha]
  intro he
  exact hne (String.ofList_injective ((String.append_right_inj _).1 he))

end Writer

variable {W : Type}

/-- The cause that ends an operation with operand `t` in a program of `n` cells, by depth, capacity,
top of the stack and variables. -/
def Opcode.fault? [Writer W] (l : Limits) (n : Nat) (t : Cell) (s : Store W) (op : Opcode) :
    Option Cause :=
  let depth := s.stack.depth
  let top := s.stack.cells.head?
  let strays := t.toInt < 0 ∨ n < t.toInt
  let misses := t.toInt < 0 ∨ l.variableCount ≤ t.toInt
  match op with
  | push => if depth = l.stackCapacity then some .stackOverflow else none
  | pop => if depth = 0 then some .stackUnderflow else none
  | add | sub | mul | eq | lt | gt | swap => if depth < 2 then some .stackUnderflow else none
  | div =>
    if depth < 2 then some .stackUnderflow
    else if top = some 0 then some .divisionByZero
    else none
  | dup =>
    if depth = 0 then some .stackUnderflow
    else if depth = l.stackCapacity then some .stackOverflow
    else none
  | print =>
    match top with
    | none => some .stackUnderflow
    | some a =>
      let text := a.toInt.repr.toList ++ ['\n']
      if Writer.TakesAll s.sink text then none
      else some (.output (Writer.complaint s.sink text))
  | jmp => if strays then some (.outOfBounds t.toInt64) else none
  | jz =>
    if depth = 0 then some .stackUnderflow
    else if top = some 0 ∧ strays then some (.outOfBounds t.toInt64)
    else none
  | jnz =>
    if depth = 0 then some .stackUnderflow
    else if top ≠ some 0 ∧ strays then some (.outOfBounds t.toInt64)
    else none
  | alloc => if misses then some (.indexOutOfRange t) else none
  | load =>
    if misses then some (.indexOutOfRange t)
    else if s.vars.slots[t.toInt.toNat]? = some none then some (.readBeforeAllocation t.toInt.toNat)
    else if depth = l.stackCapacity then some .stackOverflow
    else none
  | store =>
    if depth = 0 then some .stackUnderflow
    else if misses then some (.indexOutOfRange t)
    else none
  | halt => none

/-- The cause that ends the next step of a running machine that is at a cell of its program. The
step limit comes first, then the cell, then the lack of an operand, and last the operation. -/
def Machine.fault? [Writer W] (l : Limits) (m : Machine W) : Option Cause :=
  match l.maxSteps.filter (· ≤ m.steps), m.program[m.pc]? with
  | some limit, _ => some (.stepLimit limit)
  | none, none => none
  | none, some w =>
    if w.toInt < 0 ∨ 18 < w.toInt then some (.unknownInstruction w)
    else
      (Opcode.ofCell? w).bind fun op =>
        if op.arity = 1 ∧ m.pc + 1 = m.program.size then
          some (.outOfBounds (Int64.ofNat m.program.size))
        else op.fault? l m.program.size (m.program[m.pc + 1]?.getD 0) m.store

namespace Action

variable {α β : Type}

def fault? (a : Action W α) (s : Store W) : Option Cause :=
  match a.run s with
  | .ok _ _ => none
  | .error c _ => some c

variable {s : Store W}

theorem fault?_pure (x : α) : fault? (pure x : Action W α) s = none := rfl

theorem fault?_throw (c : Cause) : fault? (throw c : Action W α) s = some c := rfl

theorem fault?_bind (a : Action W α) (f : α → Action W β) :
    fault? (a >>= f) s = match a.run s with
      | .ok x t => fault? (f x) t
      | .error c _ => some c := by
  unfold fault?
  rw [EStateM.run_bind]
  cases a.run s <;> rfl

theorem fault?_bind_pure (a : Action W α) (x : β) :
    fault? (a >>= fun _ => pure x) s = fault? a s := by
  rw [fault?_bind, fault?]
  cases a.run s <;> rfl

/-- Where an action asks a component that fails in one way only, it has that component's fault. -/
theorem fault?_eq_ite {x : Except Cause β} {a : Action W α} {c : Cause} {P : Prop} [Decidable P]
    (ha : fault? a s = match x with
      | .ok _ => none
      | .error d => some d)
    (hx : ∀ d, x = .error d ↔ d = c ∧ P) : fault? a s = if P then some c else none := by
  rw [ha]
  cases x with
  | error d =>
    obtain ⟨rfl, hp⟩ := (hx d).1 rfl
    rw [if_pos hp]
  | ok y =>
    refine (if_neg fun hp => ?_).symm
    simpa using (hx c).2 ⟨rfl, hp⟩

theorem fault?_push (v : Cell) :
    fault? (push v) s =
      if s.stack.depth = s.stack.capacity then some .stackOverflow else none := by
  refine fault?_eq_ite ?_ fun d => Stack.push_eq_error_iff (v := v)
  rw [fault?, run_push]
  cases s.stack.push v <;> rfl

theorem fault?_pop : fault? pop s = if s.stack.depth = 0 then some .stackUnderflow else none := by
  refine fault?_eq_ite ?_ fun d => Stack.pop_eq_error_iff
  rw [fault?, run_pop]
  cases s.stack.pop <;> rfl

theorem fault?_swap : fault? swap s = if s.stack.depth < 2 then some .stackUnderflow else none := by
  refine fault?_eq_ite ?_ fun d => Stack.swap_eq_error_iff
  rw [fault?, run_swap]
  cases s.stack.swap <;> rfl

theorem fault?_store (i v : Cell) :
    fault? (store i v) s =
      if i.toInt < 0 ∨ s.vars.size ≤ i.toInt then some (.indexOutOfRange i) else none := by
  refine fault?_eq_ite ?_ fun d => Variables.store_eq_error_iff (v := v)
  rw [fault?, run_store]
  cases s.vars.store i v <;> rfl

theorem fault?_print [Writer W] (v : Cell) :
    let text := v.toInt.repr.toList ++ ['\n']
    fault? (print v) s =
      if Writer.TakesAll s.sink text then none
      else some (.output (Writer.complaint s.sink text)) := by
  intro text
  rw [fault?, run_print, printed_eq]
  cases h : Writer.write s.sink text with
  | mk r sink =>
    cases r with
    | ok u => rw [if_pos (Writer.takesAll_of_ok h)]
    | error e => rw [if_neg (Writer.not_takesAll_of_error h), Writer.complaint, h]

theorem fault?_jump (n : Nat) (t : Cell) :
    fault? (jump n t : Action W Control) s =
      if t.toInt < 0 ∨ n < t.toInt then some (.outOfBounds t.toInt64) else none := by
  unfold jump
  cases h : t.index? with
  | none =>
    have := Cell.index?_eq_none_iff.1 h
    dsimp only
    rw [fault?_throw, if_pos (by omega)]
  | some k =>
    have := Cell.index?_eq_some_iff.1 h
    dsimp only
    by_cases hk : k ≤ n
    · rw [if_pos hk, fault?_pure, if_neg (by omega)]
    · rw [if_neg hk, fault?_throw, if_pos (by omega)]

theorem fault?_jump_if (P : Prop) [Decidable P] (n : Nat) (t : Cell) :
    fault? (if P then jump n t else pure .next : Action W Control) s =
      if P ∧ (t.toInt < 0 ∨ n < t.toInt) then some (.outOfBounds t.toInt64) else none := by
  by_cases h : P
  · rw [if_pos h, fault?_jump]
    simp only [h, true_and]
  · rw [if_neg h, fault?_pure, if_neg fun hp => h hp.1]

theorem fault?_pop_bind (f : Cell → Action W β) :
    fault? (pop >>= f) s = match s.stack.cells with
      | [] => some .stackUnderflow
      | a :: r => fault? (f a) { s with stack := ⟨s.stack.room + 1, r⟩ } := by
  rw [fault?_bind, run_pop]
  obtain ⟨⟨room, _ | ⟨a, r⟩⟩, vars, sink⟩ := s <;> rfl

theorem fault?_peek_bind (f : Cell → Action W β) :
    fault? (peek >>= f) s = match s.stack.cells with
      | [] => some .stackUnderflow
      | a :: _ => fault? (f a) s := by
  rw [fault?_bind, run_peek]
  obtain ⟨⟨room, _ | ⟨a, r⟩⟩, vars, sink⟩ := s <;> rfl

theorem fault?_load_bind {i : Cell} {f : Cell → Action W β} {c : Option Cause}
    (hf : ∀ v, fault? (f v) s = c) :
    fault? (load i >>= f) s =
      if i.toInt < 0 ∨ s.vars.size ≤ i.toInt then some (.indexOutOfRange i)
      else if s.vars.slots[i.toInt.toNat]? = some none then
        some (.readBeforeAllocation i.toInt.toNat)
      else c := by
  rw [fault?_bind, run_load]
  cases h : s.vars.load i with
  | error d =>
    dsimp only
    rcases Variables.load_eq_error_iff.1 h with ⟨rfl, hi⟩ | ⟨k, hk, hs, rfl⟩
    · rw [if_pos hi]
    · have ht := Cell.index?_eq_some_iff.1 hk
      have hlt := (Array.getElem?_eq_some_iff.1 hs).1
      rw [if_neg (by unfold Variables.size; omega), ht, Int.toNat_natCast, if_pos hs]
  | ok v =>
    dsimp only
    have hi : ¬ (i.toInt < 0 ∨ s.vars.size ≤ i.toInt) := by
      intro hi
      simp [Variables.load_eq_error_iff.2 (Or.inl ⟨rfl, hi⟩)] at h
    have hs : s.vars.slots[i.toInt.toNat]? ≠ some none := by
      intro hs
      have hk : i.index? = some i.toInt.toNat := Cell.index?_eq_some_iff.2 (by omega)
      simp [Variables.load_eq_error_iff.2 (Or.inr ⟨_, hk, hs, rfl⟩)] at h
    rw [if_neg hi, if_neg hs, hf]

theorem divide_eq (a b : Cell) :
    (∃ v, (divide a b : Action W Cell) = pure v) ∨ ∃ c, (divide a b : Action W Cell) = throw c := by
  by_cases h : a = 0
  · exact Or.inr ⟨.divisionByZero, if_pos h⟩
  · exact Or.inl ⟨1 / a * b, if_neg h⟩

/-- Two cells make room for the result, so that only the operation itself can fail. -/
theorem fault?_binary {f : Cell → Cell → Action W Cell}
    (hf : ∀ a b, (∃ v, f a b = pure v) ∨ ∃ c, f a b = throw c) :
    fault? (binary f) s = match s.stack.cells with
      | a :: b :: _ => fault? (f a b) s
      | _ => some .stackUnderflow := by
  unfold binary
  rw [fault?_pop_bind]
  obtain ⟨⟨room, _ | ⟨a, _ | ⟨b, r⟩⟩⟩, vars, sink⟩ := s
  · rfl
  · rfl
  · dsimp only
    rw [fault?_pop_bind]
    dsimp only
    rcases hf a b with ⟨v, h⟩ | ⟨c, h⟩
    · rw [h, pure_bind, fault?_bind_pure, fault?_push]
      refine if_neg ?_
      simp only [Stack.capacity, Stack.depth]
      omega
    · rw [h]
      rfl

end Action

open StackMachine.Action

variable {W : Type} [Writer W] {l : Limits} {n : Nat} {i : Instruction} {a : Action W Control}
  {s : Store W}

theorem Instruction.fault?_action (ha : i.action? n = some a)
    (hc : s.stack.capacity = l.stackCapacity) (hm : s.vars.size = l.variableCount) :
    fault? a s = i.opcode.fault? l n (i.operand?.getD 0) s := by
  cases i with
  | withOperand op t =>
    cases op
    case push =>
      cases ha
      rw [fault?_bind_pure, fault?_push, hc]
      rfl
    case jmp =>
      cases ha
      exact fault?_jump n t
    case jz =>
      cases ha
      rw [fault?_pop_bind]
      obtain ⟨⟨room, _ | ⟨a, r⟩⟩, vars, sink⟩ := s
      · rfl
      · dsimp only
        rw [fault?_jump_if]
        simp [opcode, operand?, Opcode.fault?, Stack.depth]
    case jnz =>
      cases ha
      rw [fault?_pop_bind]
      obtain ⟨⟨room, _ | ⟨a, r⟩⟩, vars, sink⟩ := s
      · rfl
      · dsimp only
        rw [← ite_not, fault?_jump_if]
        simp [opcode, operand?, Opcode.fault?, Stack.depth]
    case alloc =>
      cases ha
      rw [fault?_bind_pure, alloc, fault?_store, hm]
      rfl
    case load =>
      cases ha
      rw [fault?_load_bind fun v => (fault?_bind_pure _ _).trans (fault?_push v), hc, hm]
      rfl
    case store =>
      cases ha
      rw [fault?_pop_bind]
      obtain ⟨⟨room, _ | ⟨a, r⟩⟩, vars, sink⟩ := s
      · rfl
      · dsimp only
        rw [fault?_bind_pure, fault?_store, hm]
        rfl
    all_goals cases ha
  | plain op =>
    cases op
    case pop =>
      cases ha
      rw [fault?_bind_pure, fault?_pop]
      rfl
    case div =>
      cases ha
      rw [fault?_binary divide_eq]
      obtain ⟨⟨room, _ | ⟨a, _ | ⟨b, r⟩⟩⟩, vars, sink⟩ := s
      · rfl
      · rfl
      · dsimp only
        by_cases h : a = 0
        · rw [divide, if_pos h, fault?_throw]
          simp [h, opcode, Opcode.fault?, Stack.depth]
        · rw [divide, if_neg h, fault?_pure]
          simp [h, opcode, Opcode.fault?, Stack.depth]
    case dup =>
      cases ha
      rw [fault?_peek_bind]
      obtain ⟨⟨room, _ | ⟨a, r⟩⟩, vars, sink⟩ := s
      · rfl
      · dsimp only
        rw [fault?_bind_pure, fault?_push, hc]
        rfl
    case swap =>
      cases ha
      rw [fault?_bind_pure, fault?_swap]
      rfl
    case print =>
      cases ha
      rw [fault?_peek_bind]
      obtain ⟨⟨room, _ | ⟨a, r⟩⟩, vars, sink⟩ := s
      · rfl
      · dsimp only
        rw [fault?_bind_pure, fault?_print]
        rfl
    case halt => cases ha; rfl
    case add | sub | mul | eq | lt | gt =>
      cases ha
      rw [fault?_binary fun a b => Or.inl ⟨_, rfl⟩]
      obtain ⟨⟨room, _ | ⟨a, _ | ⟨b, r⟩⟩⟩, vars, sink⟩ := s <;> rfl
    all_goals cases ha

theorem Instruction.fault?_of_run {c : Cause} {s' : Store W} (ha : i.action? n = some a)
    (hr : a.run s = .error c s') :
    i.opcode.fault? ⟨s.stack.capacity, s.vars.size, none⟩ n (i.operand?.getD 0) s = some c := by
  rw [← fault?_action ha rfl rfl, Action.fault?, hr]

theorem Opcode.fault?_of_arity_eq_zero {op : Opcode} (h : op.arity = 0) (t u : Cell) :
    op.fault? l n t s = op.fault? l n u s := by
  cases op
  case push | jmp | jz | jnz | alloc | load | store => cases h
  all_goals rfl

namespace Machine

variable {p : Program} {m : Machine W}

theorem fault?_of_decode (h : Valid p l m) (hpc : m.pc < p.size)
    (hn : ∀ k, l.maxSteps = some k → m.steps < k) :
    m.fault? l = match p.decode m.pc with
      | .error c => some c
      | .ok i => i.opcode.fault? l p.size (i.operand?.getD 0) m.store := by
  have hl : l.maxSteps.filter (· ≤ m.steps) = none := by
    simpa [Option.filter_eq_none_iff] using hn
  unfold fault?
  rw [hl, h.program]
  cases hd : p.decode m.pc with
  | error c =>
    rcases Program.decode_eq_error_iff.1 hd with ⟨hle, -⟩ | ⟨w, hw, hr, rfl⟩ | ⟨op, ho, ha, hs, rfl⟩
    · omega
    · simp only [hw, hr, if_true]
    · simp only [ho, op.not_unknown_cell, if_false, Opcode.ofCell?_cell, Option.bind_some, ha, hs,
        and_self, if_true]
  | ok i =>
    have hs := Program.add_size_le_of_decode hd
    have ho := Program.getElem?_of_decode hd
    have ha : ¬ (i.opcode.arity = 1 ∧ m.pc + 1 = p.size) := by
      unfold Instruction.size Opcode.size at hs
      omega
    simp only [ho, i.opcode.not_unknown_cell, if_false, Opcode.ofCell?_cell, Option.bind_some, ha]
    cases i with
    | plain op => exact Opcode.fault?_of_arity_eq_zero (Program.wellFormed_of_decode hd) _ _
    | withOperand op v => rw [Program.operand_of_decode hd]; rfl

theorem Valid.step_eq (h : Valid p l m) (hs : m.status = .running) (hpc : m.pc < p.size) :
    m.step.1 = match m.fault? l with
      | some c => .error ⟨c, m.pc⟩
      | none => .ok m.next.status := by
  have hpc' : m.pc < m.program.size := h.program ▸ hpc
  cases hf : m.fetch with
  | error c =>
    rw [step_of_unfetched hs hpc' hf]
    rcases fetch_eq_error_iff.1 hf with ⟨k, hk, hle, rfl⟩ | ⟨hn, hd⟩
    · have hl : l.maxSteps.filter (· ≤ m.steps) = some k := by
        simpa [← h.maxSteps, hk] using hle
      simp only [fault?, hl]
    · rw [h.maxSteps] at hn
      rw [h.program] at hd
      rw [fault?_of_decode h hpc hn, hd]
  | ok i =>
    obtain ⟨a, hp⟩ := exists_performs hs hpc' hf
    have hn := (fetch_eq_ok_iff.1 hf).1
    rw [h.maxSteps] at hn
    have hd := hp.decode
    have ha := hp.action
    rw [h.program] at hd ha
    rw [fault?_of_decode h hpc hn, hd]
    dsimp only
    rw [← Instruction.fault?_action ha h.capacity h.size_vars]
    unfold Action.fault? next
    cases hr : a.run m.store with
    | error c s => rw [hp.step_of_error hr]
    | ok k s => rw [hp.step_of_ok hr]

/-- Wherever a run has come to, the next step ends in the first fault that the list gives for what
can be seen there, and if it gives none, the step succeeds. -/
theorem step_eq_fault? (p : Program) (l : Limits) (w : W) (n : Nat) :
    let m := (start p l w).after n
    m.status = .running → m.pc < p.size →
      m.step.1 = match m.fault? l with
        | some c => .error ⟨c, m.pc⟩
        | none => .ok m.next.status :=
  fun hs hpc => (valid_after p l w n).step_eq hs hpc

/-- A full stack does not matter to the load of a variable that was never allocated. A printed number
must go into the writer with its sign and its newline. -/
theorem step_eq_fault?_full :
    let full := (start #[0, 7, 16, 3] { stackCapacity := 1 } Sink.unbounded).after 1
    let short := (start #[0, -12, 8] {} (⟨some 3, none, none, ""⟩ : Sink)).after 1
    (full.status = .running ∧ full.pc < 4 ∧ full.step.1 = .error ⟨.readBeforeAllocation 3, 2⟩) ∧
      short.status = .running ∧ short.pc < 3 ∧ short.next.output = "-12" ∧
        short.step.1 = .error ⟨.output "failed to write whole buffer", 2⟩ := by
  refine ⟨⟨by decide, by decide, ?_⟩, by decide, by decide, by decide +kernel, ?_⟩
  · exact (step_eq_fault? #[0, 7, 16, 3] { stackCapacity := 1 } Sink.unbounded 1 (by decide)
      (by decide)).trans (by rfl)
  · exact (step_eq_fault? #[0, -12, 8] {} (⟨some 3, none, none, ""⟩ : Sink) 1 (by decide)
      (by decide)).trans (by decide +kernel)

end Machine

end StackMachine
