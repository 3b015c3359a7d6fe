import StackMachine.Proofs.Action
import StackMachine.Proofs.Decode
import StackMachine.Proofs.Step

/-! The invariant of a machine: the sizes of its store, the bounds of its address and step count,
and what each ending says about where the machine stands. Whatever the program, the limits and the
writer, it holds after any number of steps (`valid_after`). -/

namespace StackMachine

variable {W : Type}

def Store.SameShape (s t : Store W) : Prop :=
  t.stack.capacity = s.stack.capacity ∧ t.vars.size = s.vars.size

theorem Store.stable_sameShape [Writer W] : Action.Stable (Store.SameShape (W := W)) where
  refl _ := ⟨rfl, rfl⟩
  trans h h' := ⟨h'.1.trans h.1, h'.2.trans h.2⟩
  push h := ⟨Stack.capacity_of_push h, rfl⟩
  pop h := ⟨Stack.capacity_of_pop h, rfl⟩
  swap h := ⟨Stack.capacity_of_swap h, rfl⟩
  store h := ⟨rfl, Variables.size_of_store h⟩
  write _ := ⟨rfl, rfl⟩

namespace Machine

/-- What a status says about the machine that has it. -/
def Explained (p : Program) (l : Limits) (m : Machine W) : Status → Prop
  | .running => True
  | .halted .endOfProgram => m.pc = p.size
  | .halted .instruction => p.decode m.pc = .ok (.plain .halt)
  | .faulted f => f.address = m.pc ∧ m.pc < p.size ∧
      ∀ n, f.cause = .stepLimit n → l.maxSteps = some n ∧ m.steps = n

/-- What holds of every machine that runs `p` within the limits `l`. -/
structure Valid (p : Program) (l : Limits) (m : Machine W) : Prop where
  program : m.program = p
  maxSteps : m.maxSteps = l.maxSteps
  capacity : m.store.stack.capacity = l.stackCapacity
  size_vars : m.store.vars.size = l.variableCount
  pc_le : m.pc ≤ p.size
  steps_le : ∀ n, l.maxSteps = some n → m.steps ≤ n
  status : m.Explained p l m.status

theorem valid_start (p : Program) (l : Limits) (w : W) : Valid p l (start p l w) := by
  constructor <;> simp [start, Explained]

variable [Writer W] {p : Program} {l : Limits} {m m' : Machine W}

namespace Valid

variable {i : Instruction} {a : Action W Control} {s : Store W}

theorem perform (h : Valid p l m) (hp : m.Performs i a) (hs : m.store.SameShape s) {pc : Nat}
    {status : Status} (hpc : pc ≤ p.size)
    (he : Explained p l { m with steps := m.steps + 1, store := s, pc, status } status) :
    Valid p l { m with steps := m.steps + 1, store := s, pc, status } where
  program := h.program
  maxSteps := h.maxSteps
  capacity := hs.1.trans h.capacity
  size_vars := hs.2.trans h.size_vars
  pc_le := hpc
  steps_le n hn := (fetch_eq_ok_iff.1 hp.fetch).1 n (h.maxSteps.trans hn)
  status := he

end Valid

theorem valid_step {r : Except Fault Status} (h : Valid p l m) (ho : Outcome m r m') :
    Valid p l m' := by
  have hstable := Store.stable_sameShape (W := W)
  cases ho with
  | halted _ => exact h
  | faulted _ => exact h
  | exhausted _ hpc =>
    rw [h.program] at hpc
    exact { h with status := Nat.le_antisymm h.pc_le hpc }
  | unfetched _ hpc hf =>
    rw [h.program] at hpc
    refine { h with status := ⟨rfl, hpc, ?_⟩ }
    rintro n rfl
    rcases fetch_eq_error_iff.1 hf with ⟨k, hk, hle, hc⟩ | ⟨-, hd⟩
    · cases hc
      exact ⟨h.maxSteps ▸ hk, Nat.le_antisymm (h.steps_le _ (h.maxSteps ▸ hk)) hle⟩
    · simp [Program.decode_eq_error_iff] at hd
  | failed hp hr =>
    obtain ⟨hs, hc⟩ := (hstable.ends_action hp.action).error hr
    refine h.perform hp hs h.pc_le ⟨rfl, h.program ▸ hp.pc_lt, ?_⟩
    rintro n rfl
    exact absurd trivial hc
  | moved hp hr =>
    have hs := ((hstable.ends_action hp.action).ok hr).1
    have hle := Program.add_size_le_of_decode hp.decode
    rw [h.program] at hle
    exact h.perform hp hs hle (by rw [hp.running]; trivial)
  | jumped hp hr =>
    obtain ⟨hs, hle, -⟩ := (hstable.ends_action hp.action).ok hr
    exact h.perform hp hs (h.program ▸ hle) (by rw [hp.running]; trivial)
  | stopped hp hr =>
    obtain ⟨hs, rfl⟩ := (hstable.ends_action hp.action).ok hr
    exact h.perform hp hs h.pc_le (h.program ▸ hp.decode)

theorem valid_after (p : Program) (l : Limits) (w : W) (n : Nat) :
    Valid p l ((start p l w).after n) :=
  after_induction (valid_start p l w) (fun _ _ _ => valid_step) n

/-- A machine stays within its limits and its program, and its status tells where it stands: past
the last cell, at a `HALT`, or at the instruction that faulted. It exceeds a step limit only when
exactly so many steps were made. -/
theorem bounds_after (p : Program) (l : Limits) (w : W) (n : Nat) :
    let m := (start p l w).after n
    m.stack.length ≤ l.stackCapacity ∧ m.vars.size = l.variableCount ∧ m.pc ≤ p.size ∧
      (∀ k, l.maxSteps = some k → m.steps ≤ k) ∧
      (m.status = .halted .endOfProgram → m.pc = p.size) ∧
      (m.status = .halted .instruction → m.pc < p.size ∧ p[m.pc]? = some Opcode.halt.cell) ∧
      ∀ f, m.status = .faulted f → f.address = m.pc ∧ m.pc < p.size ∧
        ∀ k, f.cause = .stepLimit k → l.maxSteps = some k ∧ m.steps = k := by
  intro m
  have h : Valid p l m := valid_after p l w n
  have hs := h.status
  refine ⟨?_, h.size_vars, h.pc_le, h.steps_le, ?_, ?_, ?_⟩
  · rw [← h.capacity, stack, Stack.length_toList]
    exact m.store.stack.depth_le_capacity
  · intro he
    rwa [he] at hs
  · intro he
    rw [he] at hs
    have hc := Program.getElem?_of_decode hs
    exact ⟨(Array.getElem?_eq_some_iff.1 hc).1, hc⟩
  · intro f hf
    rwa [hf] at hs

end Machine

end StackMachine
