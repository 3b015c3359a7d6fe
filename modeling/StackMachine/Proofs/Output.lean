import StackMachine.Proofs.Faults
import StackMachine.Proofs.Simulation

/-! What a machine prints. A step hands text to the writer exactly if it performs a `PRINT` on a
stack that is not empty, and that text is the top (`sink_next`). So what was accepted only grows
(`output_prefix_after`), and all that a step does to a store it does to its stack and variables
without a look at its sink (`Store.simulation_of_sinks`). -/

namespace StackMachine

variable {W W' : Type}

/-- Stores that differ in their sinks alone, and there within `S`. -/
def Store.SinksWithin (S : W → W' → Prop) (s : Store W) (t : Store W') : Prop :=
  t.stack = s.stack ∧ t.vars = s.vars ∧ S s.sink t.sink

open StackMachine.Action

theorem Store.simulation_of_sinks (S : W → W' → Prop) (E : Cause → Prop) :
    Simulation (Store.SinksWithin S) E where
  push v := by
    rintro s t ⟨hs, hv, hw⟩
    rw [run_push, run_push, hs]
    cases s.stack.push v with
    | ok x => exact ⟨_, rfl, rfl, hv, hw⟩
    | error c => exact .inr ⟨t, rfl, hs, hv, hw⟩
  pop := by
    rintro s t ⟨hs, hv, hw⟩
    rw [run_pop, run_pop, hs]
    cases s.stack.pop with
    | ok x => exact ⟨_, rfl, rfl, hv, hw⟩
    | error c => exact .inr ⟨t, rfl, hs, hv, hw⟩
  peek := by
    rintro s t ⟨hs, hv, hw⟩
    rw [run_peek, run_peek, hs]
    cases s.stack.peek with
    | ok x => exact ⟨t, rfl, hs, hv, hw⟩
    | error c => exact .inr ⟨t, rfl, hs, hv, hw⟩
  swap := by
    rintro s t ⟨hs, hv, hw⟩
    rw [run_swap, run_swap, hs]
    cases s.stack.swap with
    | ok x => exact ⟨_, rfl, rfl, hv, hw⟩
    | error c => exact .inr ⟨t, rfl, hs, hv, hw⟩
  load i := by
    rintro s t ⟨hs, hv, hw⟩
    rw [run_load, run_load, hv]
    cases s.vars.load i with
    | ok x => exact ⟨t, rfl, hs, hv, hw⟩
    | error c => exact .inr ⟨t, rfl, hs, hv, hw⟩
  store i v := by
    rintro s t ⟨hs, hv, hw⟩
    rw [run_store, run_store, hv]
    cases s.vars.store i v with
    | ok x => exact ⟨_, rfl, hs, rfl, hw⟩
    | error c => exact .inr ⟨t, rfl, hs, hv, hw⟩

/-- The store that an action leaves, however it ends. -/
def Action.left {α : Type} (a : Action W α) (s : Store W) : Store W :=
  match a.run s with
  | .ok _ t => t
  | .error _ t => t

variable [Writer W] {n : Nat} {i : Instruction} {a : Action W Control}

theorem Instruction.sink_left (ha : i.action? n = some a) (hi : i ≠ .plain .print)
    (s : Store W) : (a.left s).sink = s.sink := by
  have hm : Matches (Store.SinksWithin fun v w => v = s.sink ∧ w = s.sink) (fun _ => False) a a :=
    (Store.simulation_of_sinks _ _).action (fun _ => .jump _ _) (fun h => absurd h hi) ha ha
  have hR : Store.SinksWithin (fun v w => v = s.sink ∧ w = s.sink) s s := ⟨rfl, rfl, rfl, rfl⟩
  unfold Action.left
  cases hr : a.run s with
  | ok k t =>
    obtain ⟨_, -, -, -, ht, -⟩ := hm.ok hR hr
    exact ht
  | error c t =>
    obtain ⟨_, -, -, -, ht, -⟩ := (hm.error hR hr).resolve_left id
    exact ht

theorem Instruction.run_print (ha : (Instruction.plain .print).action? n = some a)
    (s : Store W) :
    a.run s = match s.stack.cells.head? with
      | none => .error .stackUnderflow s
      | some v => match Writer.write s.sink (printed v) with
        | (.ok (), sink) => .ok .next { s with sink }
        | (.error detail, sink) => .error (.output detail) { s with sink } := by
  cases ha
  rw [EStateM.run_bind, run_peek]
  obtain ⟨⟨room, _ | ⟨v, r⟩⟩, vars, sink⟩ := s
  · rfl
  · dsimp only [Stack.peek, List.head?]
    rw [EStateM.run_bind, Action.run_print]
    cases Writer.write sink (printed v) with
    | mk r w => cases r <;> rfl

namespace Machine

/-- The cell that the next step prints, or tries to: the top of the stack, if the step performs a
`PRINT`. -/
def printing? (m : Machine W) : Option Cell :=
  match m.status, m.fetch with
  | .running, .ok (.plain .print) => m.store.stack.cells.head?
  | _, _ => none

def printedIn (m : Machine W) (n : Nat) : List Cell :=
  (List.range n).filterMap fun k => (m.after k).printing?

variable {m : Machine W}

theorem printedIn_succ (m : Machine W) (n : Nat) :
    m.printedIn (n + 1) = m.printedIn n ++ (m.after n).printing?.toList := by
  rw [printedIn, List.range_succ, List.filterMap_append, printedIn]
  cases h : (m.after n).printing? <;> simp [h]

theorem Performs.store_next (hp : m.Performs i a) : m.next.store = a.left m.store := by
  unfold Action.left next
  cases hr : a.run m.store with
  | error c s => rw [hp.step_of_error hr]
  | ok k s =>
    rw [hp.step_of_ok hr]
    cases k <;> rfl

theorem Performs.printing?_eq (hp : m.Performs i a) :
    m.printing? = if i = .plain .print then m.store.stack.cells.head? else none := by
  unfold printing?
  rw [hp.running, hp.fetch]
  split
  · rename_i h
    cases h
    rfl
  · rename_i h
    rw [if_neg]
    rintro rfl
    exact h rfl rfl

theorem store_next_of_idle (h : ∀ i a, ¬ m.Performs i a) : m.next.store = m.store := by
  generalize hr : m.step = o
  obtain ⟨r, n⟩ := o
  have hn : m.next = n := by rw [next, hr]
  rw [hn]
  cases outcome_of_step hr with
  | halted | faulted | exhausted | unfetched => rfl
  | failed hp | moved hp | jumped hp | stopped hp => exact absurd hp (h _ _)

theorem printing?_of_idle (h : ∀ i a, ¬ m.Performs i a) : m.printing? = none := by
  unfold printing?
  split
  · rename_i hs hf
    obtain ⟨a, hp⟩ := exists_performs_of_fetch hs hf
    exact absurd hp (h _ _)
  · rfl

/-- A step leaves the sink alone unless it prints the top of the stack. -/
theorem sink_next (m : Machine W) :
    m.next.store.sink = match m.printing? with
      | none => m.store.sink
      | some v => (Writer.write m.store.sink (printed v)).2 := by
  by_cases h : ∃ i a, m.Performs i a
  · obtain ⟨i, a, hp⟩ := h
    rw [hp.store_next, hp.printing?_eq]
    by_cases hi : i = .plain .print
    · subst hi
      rw [if_pos rfl, Action.left, Instruction.run_print hp.action]
      cases m.store.stack.cells.head? with
      | none => rfl
      | some v =>
        dsimp only
        cases Writer.write m.store.sink (printed v) with
        | mk r w => cases r <;> rfl
    · rw [if_neg hi, Instruction.sink_left hp.action hi]
  · have hidle : ∀ i a, ¬ m.Performs i a := fun i a hp => h ⟨i, a, hp⟩
    rw [printing?_of_idle hidle, store_next_of_idle hidle]

theorem output_prefix_next (m : Machine W) : m.output.toList <+: m.next.output.toList := by
  unfold output
  rw [sink_next]
  cases m.printing? with
  | none => exact List.prefix_refl _
  | some v =>
    dsimp only
    cases h : Writer.write m.store.sink (printed v) with
    | mk r w =>
      cases r with
      | ok u =>
        rw [Writer.accepted_of_ok h, String.toList_append]
        exact List.prefix_append _ _
      | error e =>
        obtain ⟨t, -, -, ha⟩ := Writer.accepted_of_error h
        rw [ha, String.toList_append]
        exact List.prefix_append _ _

theorem output_prefix_after (m : Machine W) {j k : Nat} (h : j ≤ k) :
    (m.after j).output.toList <+: (m.after k).output.toList := by
  induction h with
  | refl => exact List.prefix_refl _
  | step _ ih => exact ih.trans (output_prefix_next _)

end Machine

section

variable {W : Type} [Writer W] {l : Limits} {n : Nat} {i : Instruction} {a : Action W Control}
  {s s' : Store W} {e : String}

theorem Opcode.eq_print_of_fault? {op : Opcode} {t : Cell}
    (h : op.fault? l n t s = some (.output e)) : op = .print := by
  cases op <;> simp only [fault?] at h <;> grind

theorem Instruction.eq_print_of_output (ha : i.action? n = some a)
    (hr : a.run s = .error (.output e) s') : i = .plain .print := by
  have hop := Opcode.eq_print_of_fault? (fault?_of_run ha hr)
  cases i with
  | plain op =>
    obtain rfl : op = .print := hop
    rfl
  | withOperand op v =>
    obtain rfl : op = .print := hop
    cases ha

theorem Instruction.run_print_eq_error (ha : (Instruction.plain .print).action? n = some a)
    (hr : a.run s = .error (.output e) s') :
    ∃ v w, s.stack.cells.head? = some v ∧ Writer.write s.sink (printed v) = (.error e, w) ∧
      s' = { s with sink := w } := by
  rw [run_print ha] at hr
  cases htop : s.stack.cells.head? with
  | none =>
    rw [htop] at hr
    cases hr
  | some v =>
    rw [htop] at hr
    dsimp only at hr
    cases hw : Writer.write s.sink (printed v) with
    | mk r w =>
      rw [hw] at hr
      cases r with
      | ok _ => cases hr
      | error d =>
        cases hr
        exact ⟨v, w, rfl, hw, rfl⟩

theorem Machine.Fails.print {m : Machine W} (h : m.Fails (· = .output e)) :
    ∃ v w, m.printing? = some v ∧ Writer.write m.store.sink (printed v) = (.error e, w) ∧
      m.next = { m with
        steps := m.steps + 1
        store := { m.store with sink := w }
        status := .faulted ⟨.output e, m.pc⟩ } := by
  obtain ⟨i, a, _, s, hp, hr, rfl⟩ := h
  obtain rfl := Instruction.eq_print_of_output hp.action hr
  obtain ⟨v, w, htop, hw, rfl⟩ := Instruction.run_print_eq_error hp.action hr
  refine ⟨v, w, ?_, hw, ?_⟩
  · rw [hp.printing?_eq, if_pos rfl, htop]
  · rw [Machine.next, hp.step_of_error hr]

end

end StackMachine
