import StackMachine.Proofs.Simulation

/-! Code that works above other cells. Each operation looks at the top of the stack and at the room
that is left, and at nothing else of it. So a machine does the same above a base of further cells as
without one, if it has a place more for each of them (`Overlies.after`). Only where it lacks a cell
does it matter what lies below, and there the machine without the base faults. -/

namespace StackMachine

variable {W : Type}

namespace Stack

/-- The stack above further cells, of which the topmost comes first, with places for them. -/
def above (s : Stack) (base : List Cell) : Stack := ⟨s.room, s.cells ++ base⟩

variable {s t : Stack} (base : List Cell)

theorem toList_above (s : Stack) : (s.above base).toList = base.reverse ++ s.toList :=
  List.reverse_append

theorem push_above (s : Stack) (v : Cell) :
    (s.above base).push v = (s.push v).map (above · base) := by
  obtain ⟨_ | room, cells⟩ := s <;> rfl

theorem pop_above {v : Cell} (h : s.pop = .ok (v, t)) :
    (s.above base).pop = .ok (v, t.above base) := by
  obtain ⟨room, _ | ⟨a, r⟩⟩ := s <;> cases h
  rfl

theorem peek_above {v : Cell} (h : s.peek = .ok v) : (s.above base).peek = .ok v := by
  obtain ⟨room, _ | ⟨a, r⟩⟩ := s <;> cases h
  rfl

theorem swap_above (h : s.swap = .ok t) : (s.above base).swap = .ok (t.above base) := by
  obtain ⟨room, _ | ⟨a, _ | ⟨b, r⟩⟩⟩ := s <;> cases h
  rfl

theorem eq_above (hs : t.toList = base ++ s.toList)
    (hc : t.capacity = s.capacity + base.length) : t = s.above base.reverse := by
  obtain ⟨room, cells⟩ := s
  obtain ⟨room', cells'⟩ := t
  have hcells : cells' = cells ++ base.reverse := by
    rw [← List.reverse_inj, List.reverse_append, List.reverse_reverse]
    exact hs
  subst hcells
  have hroom : room' = room := by
    simp only [capacity, depth, List.length_append, List.length_reverse] at hc
    omega
  rw [above, hroom]

end Stack

def Store.above (s : Store W) (base : List Cell) : Store W := { s with stack := s.stack.above base }

open StackMachine.Action

theorem Store.simulation_above (base : List Cell) :
    Simulation (W := W) (fun s t => t = s.above base) (· = .stackUnderflow) where
  push v := by
    rintro s _ rfl
    rw [run_push, run_push, above, Stack.push_above]
    cases s.stack.push v with
    | ok t => exact ⟨_, rfl, rfl⟩
    | error c => exact .inr ⟨_, rfl, rfl⟩
  pop := by
    rintro s _ rfl
    rw [run_pop, run_pop]
    cases h : s.stack.pop with
    | ok r =>
      refine ⟨_, ?_, rfl⟩
      rw [above, Stack.pop_above base h]
      rfl
    | error c => exact .inl (Stack.pop_eq_error_iff.1 h).1
  peek := by
    rintro s _ rfl
    rw [run_peek, run_peek]
    cases h : s.stack.peek with
    | ok v => exact ⟨_, by rw [above, Stack.peek_above base h], rfl⟩
    | error c => exact .inl (Stack.peek_eq_error_iff.1 h).1
  swap := by
    rintro s _ rfl
    rw [run_swap, run_swap]
    cases h : s.stack.swap with
    | ok t =>
      refine ⟨_, ?_, rfl⟩
      rw [above, Stack.swap_above base h]
      rfl
    | error c => exact .inl (Stack.swap_eq_error_iff.1 h).1
  load i := by
    rintro s _ rfl
    rw [run_load, run_load, above]
    cases s.vars.load i with
    | ok v => exact ⟨_, rfl, rfl⟩
    | error c => exact .inr ⟨_, rfl, rfl⟩
  store i v := by
    rintro s _ rfl
    rw [run_store, run_store, above]
    cases s.vars.store i v with
    | ok t => exact ⟨_, rfl, rfl⟩
    | error c => exact .inr ⟨_, rfl, rfl⟩

theorem Store.print_above [Writer W] (base : List Cell) (v : Cell) :
    Matches (W := W) (fun s t => t = s.above base) (· = .stackUnderflow) (print v) (print v) := by
  rintro s _ rfl
  rw [run_print, run_print, above]
  cases Writer.write s.sink (printed v) with
  | mk r w =>
    cases r with
    | ok u => exact ⟨_, rfl, rfl⟩
    | error e => exact .inr ⟨_, rfl, rfl⟩

namespace Machine

/-- The second machine has further cells at the bottom of its stack, the bottom first, and a place
more for each of them. In everything else it is as the first one. -/
structure Overlies (base : List Cell) (a b : Machine W) : Prop where
  program : b.program = a.program
  maxSteps : b.maxSteps = a.maxSteps
  status : b.status = a.status
  pc : b.pc = a.pc
  steps : b.steps = a.steps
  vars : b.vars = a.vars
  sink : b.store.sink = a.store.sink
  stack : b.stack = base ++ a.stack
  capacity : b.store.stack.capacity = a.store.stack.capacity + base.length

variable {a b : Machine W} {base : List Cell}

theorem overlies_iff :
    Overlies base a b ↔ b = a.withStore (a.store.above base.reverse) := by
  constructor
  · intro h
    obtain ⟨program, maxSteps, status, pc, steps, stack, vars, sink⟩ := b
    obtain ⟨rfl, rfl, rfl, rfl, rfl, rfl, rfl, hs, hc⟩ := h
    obtain rfl := Stack.eq_above base hs hc
    rfl
  · rintro rfl
    refine ⟨rfl, rfl, rfl, rfl, rfl, rfl, rfl, ?_, ?_⟩
    · exact (Stack.toList_above _ _).trans (by rw [List.reverse_reverse]; rfl)
    · simp only [withStore, Store.above, Stack.above, Stack.capacity, Stack.depth,
        List.length_append, List.length_reverse, Nat.add_assoc]

variable [Writer W] {n : Nat}

theorem Fails.step {E : Cause → Prop} (h : a.Fails E) : ∃ f, a.step.1 = .error f ∧ E f.cause := by
  obtain ⟨i, x, c, s, hp, hr, hc⟩ := h
  exact ⟨⟨c, a.pc⟩, by rw [hp.step_of_error hr], hc⟩

theorem Overlies.after (h : Overlies base a b)
    (hn : ∀ k < n, ∀ f, (a.after k).step.1 = .error f → f.cause ≠ .stackUnderflow) :
    Overlies base (a.after n) (b.after n) := by
  have hstep : InStep (fun s t => t = s.above base.reverse) a b := ⟨_, overlies_iff.1 h, rfl⟩
  rcases hstep.after (Store.simulation_above _) (Store.print_above _) n with
    ⟨t, ht, rfl⟩ | ⟨j, hj, -, hf⟩
  · exact overlies_iff.2 ht
  · obtain ⟨f, hs, hc⟩ := hf.step
    exact absurd hc (hn j hj f hs)

/-- A machine with a base of further cells at the bottom of its stack, and places for them, does as
the machine without that base, for as long as none of the steps of that one finds too few cells on
the stack. Other faults, that of a full stack included, come in the same step, and the base is
there as before. -/
theorem frame_preserved (a b : Machine W) (base : List Cell) (h : Overlies base a b) (n : Nat)
    (hn : ∀ k < n, ∀ f, (a.after k).step.1 = .error f → f.cause ≠ .stackUnderflow) :
    let m := a.after n
    let m' := b.after n
    m'.pc = m.pc ∧ m'.steps = m.steps ∧ m'.status = m.status ∧ m'.vars = m.vars ∧
      m'.output = m.output ∧ m'.stack = base ++ m.stack := by
  intro m m'
  have hm := h.after hn
  exact ⟨hm.pc, hm.steps, hm.status, hm.vars, congrArg Writer.accepted hm.sink, hm.stack⟩

/-- Above two cells the stack is full as soon as it would be without them. -/
theorem frame_preserved_full :
    let a := start #[0, 7, 6] { stackCapacity := 1 } Sink.unbounded
    let b := { a with store := { a.store with stack := ⟨1, [5, 4]⟩ } }
    Overlies [4, 5] a b ∧ (b.after 2).status = .faulted ⟨.stackOverflow, 2⟩ ∧
      (b.after 2).stack = [4, 5, 7] := by
  intro a b
  have h : Overlies [4, 5] a b := ⟨rfl, rfl, rfl, rfl, rfl, rfl, rfl, rfl, rfl⟩
  have hn : ∀ k < 2, ∀ f, (a.after k).step.1 = .error f → f.cause ≠ .stackUnderflow := by
    intro k hk f hf
    obtain rfl | rfl : k = 0 ∨ k = 1 := by omega
    · cases hf
    · cases hf
      decide
  obtain ⟨-, -, hs, -, -, hstack⟩ := frame_preserved a b [4, 5] h 2 hn
  exact ⟨h, hs.trans rfl, hstack.trans rfl⟩

end Machine

end StackMachine
