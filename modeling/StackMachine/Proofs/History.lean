import StackMachine.Proofs.Aftermath
import StackMachine.Proofs.Depths
import StackMachine.Proofs.Run

/-! What the past of a machine tells of its store. `performed?` names the instruction that a step
performs to its end, and these instructions account for all that is there: a variable holds what was
last written to it, and nothing if that never happened (`variables_hold_last_write`), and the stack
is as deep as cells were put on it and not taken off again (`depth_balances`). -/

namespace StackMachine

variable {W : Type}

open StackMachine.Action

namespace Variables

theorem getElem?_of_store {m n : Variables} {w v : Cell} (h : m.store w v = .ok n) (i : Nat) :
    n.slots[i]? = if w.index? = some i then some (some v) else m.slots[i]? := by
  obtain ⟨k, hk, hlt, rfl⟩ := store_eq_ok_iff.1 h
  simp only [hk, Option.some.injEq, Array.getElem?_setIfInBounds]
  by_cases hi : k = i
  · rw [if_pos hi, if_pos hi]
    exact if_pos hlt
  · rw [if_neg hi, if_neg hi]

end Variables

variable [Writer W] {n : Nat} {i : Instruction} {a : Action W Control} {k : Control}
  {s t : Store W} {v : Cell}

theorem Store.nearlyStable_vars : NearlyStable fun s t : Store W => t.vars = s.vars where
  refl _ := rfl
  trans h h' := h'.trans h
  push _ := rfl
  pop _ := rfl
  swap _ := rfl
  write _ := rfl

namespace Instruction

theorem vars_of_run (ha : i.action? n = some a) (hr : a.run s = .ok k t)
    (hi : ∀ v, ¬ (i = .withOperand .alloc v ∨ i = .withOperand .store v)) : t.vars = s.vars :=
  ((Store.nearlyStable_vars.ends_action (fun v h => absurd h (hi v)) ha).ok hr).1

theorem vars_of_alloc (ha : (withOperand .alloc v).action? n = some a) (hr : a.run s = .ok k t) :
    s.vars.store v 0 = .ok t.vars := by
  cases ha
  obtain ⟨_, _, hstore, hr⟩ := run_bind_eq_ok_iff.1 hr
  obtain ⟨vars, hvars, rfl⟩ := run_store_eq_ok_iff.1 hstore
  cases hr
  exact hvars

theorem vars_of_store (ha : (withOperand .store v).action? n = some a) (hr : a.run s = .ok k t) :
    ∃ x, s.stack.toList = t.stack.toList ++ [x] ∧ s.vars.store v x = .ok t.vars := by
  cases ha
  obtain ⟨x, _, hpop, hr⟩ := run_bind_eq_ok_iff.1 hr
  obtain ⟨_, _, hstore, hr⟩ := run_bind_eq_ok_iff.1 hr
  obtain ⟨stack, hstack, rfl⟩ := run_pop_eq_ok_iff.1 hpop
  obtain ⟨vars, hvars, rfl⟩ := run_store_eq_ok_iff.1 hstore
  cases hr
  exact ⟨x, Stack.toList_of_pop hstack, hvars⟩

theorem stack_of_load (ha : (withOperand .load v).action? n = some a) (hr : a.run s = .ok k t) :
    ∃ x, s.vars.load v = .ok x ∧ t.stack.toList = s.stack.toList ++ [x] := by
  cases ha
  obtain ⟨x, _, hload, hr⟩ := run_bind_eq_ok_iff.1 hr
  obtain ⟨_, _, hpush, hr⟩ := run_bind_eq_ok_iff.1 hr
  obtain ⟨hx, rfl⟩ := run_load_eq_ok_iff.1 hload
  obtain ⟨stack, hstack, rfl⟩ := run_push_eq_ok_iff.1 hpush
  cases hr
  exact ⟨x, hx, Stack.toList_of_push hstack⟩

end Instruction

namespace Machine

variable {m : Machine W}

/-- The instruction that the next step performs to its end. A step that faults performs none. -/
def performed? (m : Machine W) : Option Instruction :=
  match m.status, m.fetch, m.step.1 with
  | .running, .ok i, .ok _ => some i
  | _, _, _ => none

theorem performed?_eq_some_iff :
    m.performed? = some i ↔ ∃ a k, m.Performs i a ∧ a.run m.store = .ok k m.next.store := by
  constructor
  · intro h
    unfold performed? at h
    split at h
    · rename_i hs hf hok
      cases h
      obtain ⟨a, hp⟩ := exists_performs_of_fetch hs hf
      have hn := hp.store_next
      unfold left at hn
      cases hr : a.run m.store with
      | error c s =>
        rw [hp.step_of_error hr] at hok
        cases hok
      | ok k s =>
        rw [hr] at hn
        exact ⟨a, k, hp, by rw [hn, hr]⟩
    · cases h
  · rintro ⟨a, k, hp, hr⟩
    unfold performed?
    rw [hp.running, hp.fetch, hp.step_of_ok hr]

theorem store_next_of_performed?_eq_none (h : m.performed? = none) :
    m.next.vars = m.vars ∧ ((∀ f, m.step.1 ≠ .error f) → m.next.store = m.store) := by
  by_cases hp : ∃ i a, m.Performs i a
  · obtain ⟨i, a, hp⟩ := hp
    have hn := hp.store_next
    unfold left at hn
    cases hr : a.run m.store with
    | error c s =>
      rw [hr] at hn
      -- cells may be gone from the stack by then, but no variable has changed
      refine ⟨?_, fun hf => absurd (by rw [hp.step_of_error hr]) (hf _)⟩
      rw [vars, hn]
      exact (Instruction.lacks_of_error hp.action hr).2
    | ok k s =>
      rw [hr] at hn
      rw [performed?_eq_some_iff.2 ⟨a, k, hp, by rw [hn, hr]⟩] at h
      cases h
  · have hidle := store_next_of_idle fun i a hp' => hp ⟨i, a, hp'⟩
    exact ⟨congrArg Store.vars hidle, fun _ => hidle⟩

theorem Performs.step_eq_error_iff {c : Cause} (hp : m.Performs i a) :
    m.step.1 = .error ⟨c, m.pc⟩ ↔ Action.fault? a m.store = some c := by
  unfold Action.fault?
  cases hr : a.run m.store with
  | error d s => simp [hp.step_of_error hr]
  | ok k s => simp [hp.step_of_ok hr]

/-! Variables. -/

/-- The next step allocates the variable of this number or stores to it. -/
def Writes (i : Nat) (m : Machine W) : Prop :=
  ∃ v : Cell, v.index? = some i ∧
    (m.performed? = some (.withOperand .alloc v) ∨ m.performed? = some (.withOperand .store v))

variable {i j k : Nat}

theorem slot_next_of_alloc (h : m.performed? = some (.withOperand .alloc v)) (i : Nat) :
    m.next.vars.slots[i]? = if v.index? = some i then some (some 0) else m.vars.slots[i]? := by
  obtain ⟨a, k, hp, hr⟩ := performed?_eq_some_iff.1 h
  exact Variables.getElem?_of_store (Instruction.vars_of_alloc hp.action hr) i

theorem slot_next_of_store (h : m.performed? = some (.withOperand .store v)) (i : Nat) :
    ∃ x, m.stack = m.next.stack ++ [x] ∧
      m.next.vars.slots[i]? = if v.index? = some i then some (some x) else m.vars.slots[i]? := by
  obtain ⟨a, k, hp, hr⟩ := performed?_eq_some_iff.1 h
  obtain ⟨x, hs, hv⟩ := Instruction.vars_of_store hp.action hr
  exact ⟨x, hs, Variables.getElem?_of_store hv i⟩

theorem slot_next_of_not_writes (h : ¬ m.Writes i) :
    m.next.vars.slots[i]? = m.vars.slots[i]? := by
  cases hp : m.performed? with
  | none => rw [(store_next_of_performed?_eq_none hp).1]
  | some j =>
    by_cases hj : ∃ v, j = .withOperand .alloc v ∨ j = .withOperand .store v
    · obtain ⟨v, hj⟩ := hj
      have hv : v.index? ≠ some i := by
        intro hv
        refine h ⟨v, hv, ?_⟩
        rw [hp, Option.some.injEq, Option.some.injEq]
        exact hj
      rcases hj with rfl | rfl
      · rw [slot_next_of_alloc hp, if_neg hv]
      · obtain ⟨x, -, hx⟩ := slot_next_of_store hp i
        rw [hx, if_neg hv]
    · obtain ⟨a, k, hperf, hr⟩ := performed?_eq_some_iff.1 hp
      rw [vars, Instruction.vars_of_run hperf.action hr fun v hv => hj ⟨v, hv⟩, vars]

theorem Writes.slot_next (h : m.Writes i) : ∃ x, m.next.vars.slots[i]? = some (some x) := by
  obtain ⟨v, hv, hp | hp⟩ := h
  · exact ⟨0, by rw [slot_next_of_alloc hp, if_pos hv]⟩
  · obtain ⟨x, -, hx⟩ := slot_next_of_store hp i
    exact ⟨x, by rw [hx, if_pos hv]⟩

theorem slot_after_of_not_writes (hk : j ≤ k)
    (h : ∀ n, j ≤ n → n < k → ¬ (m.after n).Writes i) :
    (m.after k).vars.slots[i]? = (m.after j).vars.slots[i]? := by
  induction hk with
  | refl => rfl
  | step hk ih =>
    rw [after, slot_next_of_not_writes (h _ hk (Nat.lt_succ_self _))]
    exact ih fun n hn hlt => h n hn (Nat.lt_succ_of_lt hlt)

theorem allocated_next (h : ∃ x, m.vars.slots[i]? = some (some x)) :
    ∃ x, m.next.vars.slots[i]? = some (some x) := by
  by_cases hw : m.Writes i
  · exact hw.slot_next
  · rwa [slot_next_of_not_writes hw]

theorem allocated_after (hk : j ≤ k) (h : ∃ x, (m.after j).vars.slots[i]? = some (some x)) :
    ∃ x, (m.after k).vars.slots[i]? = some (some x) := by
  induction hk with
  | refl => exact h
  | step _ ih => exact allocated_next ih

omit [Writer W] in
theorem slot_start (p : Program) {l : Limits} (w : W) (hi : i < l.variableCount) :
    (start p l w).vars.slots[i]? = some none := by
  simp [start, vars, Variables.ofSize, hi]

theorem slot_after_eq_none_iff (p : Program) {l : Limits} (w : W) (hi : i < l.variableCount) :
    ((start p l w).after n).vars.slots[i]? = some none ↔
      ∀ k < n, ¬ ((start p l w).after k).Writes i := by
  constructor
  · intro h k hk hw
    -- the cell written in step k would still be there, or one that was written over it
    obtain ⟨x, hx⟩ := allocated_after hk hw.slot_next
    rw [h] at hx
    cases hx
  · intro h
    rw [slot_after_of_not_writes n.zero_le fun k _ hk => h k hk]
    exact slot_start p w hi

theorem step_load_eq_error_iff (hs : m.status = .running)
    (hf : m.fetch = .ok (.withOperand .load v)) (hv : v.index? = some i) :
    m.step.1 = .error ⟨.readBeforeAllocation i, m.pc⟩ ↔ m.vars.slots[i]? = some none := by
  obtain ⟨a, hp⟩ := exists_performs_of_fetch hs hf
  have hi : v.toInt = i := Cell.index?_eq_some_iff.1 hv
  let l : Limits := ⟨m.store.stack.capacity, m.store.vars.size, none⟩
  rw [hp.step_eq_error_iff, Instruction.fault?_action (l := l) hp.action rfl rfl]
  simp only [Instruction.opcode, Instruction.operand?, Option.getD_some, Opcode.fault?, hi,
    Int.toNat_natCast]
  by_cases hmiss : (i : Int) < 0 ∨ (l.variableCount : Int) ≤ i
  · have hnone : m.vars.slots[i]? = none := by
      refine Array.getElem?_eq_none ?_
      change l.variableCount ≤ i
      omega
    rw [if_pos hmiss, hnone]
    simp
  · rw [if_neg hmiss]
    by_cases hslot : m.store.vars.slots[i]? = some none
    · rw [if_pos hslot]
      exact iff_of_true rfl hslot
    · rw [if_neg hslot]
      refine iff_of_false ?_ hslot
      split <;> simp

/-- A variable holds what the latest step wrote to it that performed an `ALLOC` or a `STORE` of it:
zero, or the cell that was popped. It holds nothing if there was no such step. Nothing else changes
it, and none takes it away. So a `LOAD` pushes the cell that was written last, and it fails for want
of an allocation exactly if none was. -/
theorem variables_hold_last_write (p : Program) (l : Limits) (w : W) (n i : Nat)
    (hi : i < l.variableCount) :
    let m (k : Nat) := (start p l w).after k
    let slot (k : Nat) := (m k).vars.slots[i]?
    (slot n = some none ↔ ∀ k < n, ¬ (m k).Writes i) ∧
    (∀ k < n, (∀ j, k < j → j < n → ¬ (m j).Writes i) → ∀ v : Cell, v.index? = some i →
      ((m k).performed? = some (.withOperand .alloc v) → slot n = some (some 0)) ∧
      ((m k).performed? = some (.withOperand .store v) →
        ∃ x, (m k).stack = (m (k + 1)).stack ++ [x] ∧ slot n = some (some x))) ∧
    ((∃ x, slot n = some (some x)) → ∃ x, slot (n + 1) = some (some x)) ∧
    (¬ (m n).Writes i → slot (n + 1) = slot n) ∧
    ∀ v : Cell, v.index? = some i →
      ((m n).performed? = some (.withOperand .load v) →
        ∃ x, slot n = some (some x) ∧ (m (n + 1)).stack = (m n).stack ++ [x]) ∧
      ((m n).status = .running → (m n).fetch = .ok (.withOperand .load v) →
        ((m n).step.1 = .error ⟨.readBeforeAllocation i, (m n).pc⟩ ↔
          ∀ k < n, ¬ (m k).Writes i)) := by
  intro m slot
  have hnone : slot n = some none ↔ ∀ k < n, ¬ (m k).Writes i := slot_after_eq_none_iff p w hi
  refine ⟨hnone, ?_, allocated_next, slot_next_of_not_writes, ?_⟩
  · intro k hk hlast v hv
    have hkeep : slot n = (m k).next.vars.slots[i]? := slot_after_of_not_writes hk hlast
    rw [hkeep]
    constructor
    · intro hp
      rw [slot_next_of_alloc hp, if_pos hv]
    · intro hp
      obtain ⟨x, hs, hx⟩ := slot_next_of_store hp i
      rw [if_pos hv] at hx
      exact ⟨x, hs, hx⟩
  · intro v hv
    constructor
    · intro hp
      obtain ⟨a, k, hperf, hr⟩ := performed?_eq_some_iff.1 hp
      obtain ⟨x, hl, hs⟩ := Instruction.stack_of_load hperf.action hr
      obtain ⟨j, hj, hx⟩ := Variables.load_eq_ok_iff.1 hl
      rw [hv, Option.some.injEq] at hj
      subst hj
      exact ⟨x, hx, hs⟩
    · intro hs hf
      rw [step_load_eq_error_iff hs hf hv]
      exact hnone

/-- The `STORE` comes after the `ALLOC`, so what it popped is what the `LOAD` pushes. -/
theorem variables_hold_last_write_store :
    let m (k : Nat) := (start #[15, 0, 0, 7, 17, 0, 16, 0] {} Sink.unbounded).after k
    (m 2).performed? = some (.withOperand .store 0) ∧ (m 3).vars.slots[0]? = some (some 7) ∧
      (m 3).performed? = some (.withOperand .load 0) ∧ (m 4).stack = [7] := by
  intro m
  have hstore : (m 2).performed? = some (.withOperand .store 0) := by decide
  have hload : (m 3).performed? = some (.withOperand .load 0) := by decide
  obtain ⟨-, hlast, -, -, hnext⟩ :=
    variables_hold_last_write #[15, 0, 0, 7, 17, 0, 16, 0] {} Sink.unbounded 3 0 (by decide)
  obtain ⟨x, hx, hslot⟩ := (hlast 2 (by omega) (fun j hj hj' => by omega) 0 rfl).2 hstore
  obtain ⟨y, hy, hstack⟩ := (hnext 0 rfl).1 hload
  have hseven : x = 7 := by
    have h : [7] = [] ++ [x] := hx
    simpa using h.symm
  have hsame : y = x := by
    rw [hslot] at hy
    simpa using hy.symm
  rw [hsame, hseven] at hstack
  rw [hseven] at hslot
  exact ⟨hstore, hslot, hload, hstack⟩

end Machine

/-! The depth of the stack. -/

namespace Opcode

/-- The operations that leave one cell more than they find. -/
def adding : List Opcode := [push, dup, load]

/-- The operations that leave one cell less than they find. -/
def taking : List Opcode := [pop, add, sub, mul, div, eq, lt, gt, jz, jnz, store]

theorem effect_eq (op : Opcode) :
    op.effect = (if op ∈ adding then 1 else 0 : Nat) - (if op ∈ taking then 1 else 0 : Nat) := by
  cases op <;> rfl

theorem needs_of_fault?_eq_none {op : Opcode} {l : Limits} (hc : s.stack.capacity = l.stackCapacity)
    (h : op.fault? l n v s = none) :
    op.needs ≤ s.stack.depth ∧ (s.stack.depth : Int) + op.effect ≤ l.stackCapacity := by
  have hle := s.stack.depth_le_capacity
  have htop : s.stack.cells.head? = none ↔ s.stack.depth = 0 := by simp [Stack.depth]
  cases op <;> simp only [fault?] at h <;> simp only [needs, effect] <;> grind

end Opcode

theorem Instruction.depth_of_run (ha : i.action? n = some a) (hr : a.run s = .ok k t) :
    (t.stack.depth : Int) = s.stack.depth + i.opcode.effect := by
  have hnone : Action.fault? a s = none := by rw [Action.fault?, hr]
  -- the limits that the store itself has, so that nothing need be known of a machine
  rw [fault?_action (l := ⟨s.stack.capacity, s.vars.size, none⟩) ha rfl rfl] at hnone
  obtain ⟨hn, hc⟩ := Opcode.needs_of_fault?_eq_none rfl hnone
  obtain ⟨e, he⟩ := Opcode.exists_depth hn
  have hs := shifts_action ha hn hc he s rfl rfl
  rw [hr] at hs
  rw [hs.2, he]

namespace Machine

variable {m : Machine W}

def performedIn (m : Machine W) (n : Nat) : List Instruction :=
  (List.range n).filterMap fun k => (m.after k).performed?

def timesPerformed (m : Machine W) (n : Nat) (ops : List Opcode) : Nat :=
  (m.performedIn n).countP fun i => i.opcode ∈ ops

theorem performedIn_succ (m : Machine W) (n : Nat) :
    m.performedIn (n + 1) = m.performedIn n ++ (m.after n).performed?.toList := by
  rw [performedIn, List.range_succ, List.filterMap_append, performedIn]
  cases h : (m.after n).performed? <;> simp [h]

theorem timesPerformed_succ (m : Machine W) (n : Nat) (ops : List Opcode) :
    m.timesPerformed (n + 1) ops = m.timesPerformed n ops +
      match (m.after n).performed? with
      | none => 0
      | some i => if i.opcode ∈ ops then 1 else 0 := by
  rw [timesPerformed, performedIn_succ, List.countP_append, timesPerformed]
  cases (m.after n).performed? with
  | none => rfl
  | some i => simp

theorem depth_next (h : ∀ f, m.step.1 ≠ .error f) :
    (m.next.stack.length : Int) = m.stack.length +
      match m.performed? with
      | none => 0
      | some i => i.opcode.effect := by
  rw [stack, stack, Stack.length_toList, Stack.length_toList]
  cases hp : m.performed? with
  | none =>
    rw [(store_next_of_performed?_eq_none hp).2 h]
    exact (Int.add_zero _).symm
  | some i =>
    obtain ⟨a, k, hperf, hr⟩ := performed?_eq_some_iff.1 hp
    exact Instruction.depth_of_run hperf.action hr

theorem depth_after (m : Machine W) (n : Nat) (h : ∀ k < n, ∀ f, (m.after k).step.1 ≠ .error f) :
    ((m.after n).stack.length : Int) =
      m.stack.length + m.timesPerformed n Opcode.adding - m.timesPerformed n Opcode.taking := by
  induction n with
  | zero => simp [after, timesPerformed, performedIn]
  | succ n ih =>
    have hn := ih fun k hk => h k (Nat.lt_succ_of_lt hk)
    rw [after, depth_next (h n n.lt_succ_self), hn, timesPerformed_succ, timesPerformed_succ]
    cases (m.after n).performed? with
    | none => simp
    | some i =>
      dsimp only
      rw [Opcode.effect_eq]
      omega

theorem step_ne_error_of_halted {e : Ending} {n k : Nat} (h : (m.after n).status = .halted e)
    (hk : k < n) (f : Fault) : (m.after k).step.1 ≠ .error f := by
  intro hf
  rw [step_eq, Status.report_eq_error_iff] at hf
  have hs : (m.after (k + 1)).status = .faulted f := hf
  have hn := after_of_le (m := m) (j := k + 1) (by rw [hs]; rintro ⟨⟩) hk
  rw [hn, hs] at h
  cases h

/-- As long as no step faults, the stack is as deep as the cells put on it by `PUSH`, `DUP` and
`LOAD` outnumber those taken off it for good, whatever the branches and loops. The stack of a run
that halts is that deep. -/
theorem depth_balances (p : Program) (l : Limits) (w : W) (n : Nat) :
    let m := start p l w
    let balance : Int := m.timesPerformed n [.push, .dup, .load] -
      m.timesPerformed n [.pop, .add, .sub, .mul, .div, .eq, .lt, .gt, .jz, .jnz, .store]
    ((∀ k < n, ∀ f, (m.after k).step.1 ≠ .error f) →
      ((m.after n).stack.length : Int) = balance) ∧
    ∀ c e, m.runFor n = some (.ok c, e) → (c.stack.length : Int) = balance := by
  intro m balance
  have hdepth : (∀ k < n, ∀ f, (m.after k).step.1 ≠ .error f) →
      ((m.after n).stack.length : Int) = balance := by
    intro h
    have hd := depth_after m n h
    have hzero : m.stack.length = 0 := rfl
    rw [hd, hzero]
    simp only [balance, Opcode.adding, Opcode.taking]
    omega
  refine ⟨hdepth, ?_⟩
  intro c e he
  obtain ⟨rfl, ha⟩ := (runFor_eq_some_iff rfl).1 he
  obtain ⟨d, hs, rfl⟩ := answer?_eq_ok_iff.1 ha
  exact hdepth fun k hk f => step_ne_error_of_halted hs hk f

/-- A count down from 3 goes through its loop three times, and the zero on which it ends is left. -/
theorem depth_balances_loop :
    let m := start #[0, 3, 0, 1, 3, 6, 11, 2, 18] {} Sink.unbounded
    m.timesPerformed 14 [.push, .dup, .load] = 7 ∧
      ∃ c e, m.runFor 14 = some (.ok c, e) ∧ (c.stack.length : Int) = 1 := by
  intro m
  have hadded : m.timesPerformed 14 [.push, .dup, .load] = 7 := by decide +kernel
  have htaken : m.timesPerformed 14
      [.pop, .add, .sub, .mul, .div, .eq, .lt, .gt, .jz, .jnz, .store] = 6 := by decide +kernel
  have hhalt : (m.after 14).status = .halted .instruction := by decide +kernel
  have hrun := (runFor_eq_some_iff rfl).2 ⟨rfl, answer?_eq_ok_iff.2 ⟨_, hhalt, rfl⟩⟩
  have hlen := (depth_balances #[0, 3, 0, 1, 3, 6, 11, 2, 18] {} Sink.unbounded 14).2 _ _ hrun
  rw [hadded, htaken] at hlen
  exact ⟨hadded, _, _, hrun, hlen⟩

end Machine

end StackMachine
