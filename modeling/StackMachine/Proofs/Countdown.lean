import StackMachine.Proofs.Peephole
import StackMachine.Proofs.Recurrence
import StackMachine.Proofs.StraightLine

/-! A loop that counts down. The program keeps its counter in a variable, prints it, takes one from it
and starts over unless that gave zero; as the difference wraps, it gets to zero from every start
(`run_countdown`). What one lap does is straight-line code, which a machine goes through as soon as its
instructions lead from one store to another (`after_of_leads`), and the jump behind it; `Counted` is
what holds between two laps. -/

namespace StackMachine

variable {W : Type} [Writer W]

open StackMachine.Action

/-! Going through a block of instructions. -/

theorem Leads.print {n room : Nat} {v : Cell} {r : List Cell} {vars : Variables} {sink sink' : W}
    {is : List Instruction} {t : Store W} (hw : Writer.write sink (printed v) = (.ok (), sink'))
    (h : Leads n is ⟨⟨room, v :: r⟩, vars, sink'⟩ t) :
    Leads n (.plain .print :: is) ⟨⟨room, v :: r⟩, vars, sink⟩ t := by
  refine cons (k := .next) rfl ?_ h
  rw [Instruction.run_print (n := n) rfl]
  simp only [List.head?_cons, hw]

namespace Machine

variable {m : Machine W}

theorem performs_of_unlimited {i : Instruction} {a : Action W Control} (hl : m.maxSteps = none)
    (hs : m.status = .running) (hd : m.program.decode m.pc = .ok i)
    (ha : i.action? m.program.size = some a) : m.Performs i a := by
  refine ⟨hs, Program.lt_size_of_decode hd, ?_, ha⟩
  rw [fetch, hl]
  exact hd

/-- Without a limit, instructions that stand one behind the other and neither jump nor halt are all
performed if they lead from this store to another one. -/
theorem after_of_leads {p : Program} {lines : List (Nat × Instruction)} {a e : Nat} {s t : Store W}
    (ht : p.Tiles a lines e) (hi : ∀ x ∈ lines, x.2.target? = none ∧ x.2 ≠ .plain .halt)
    (h : Leads p.size (lines.map (·.2)) s t) (hp : m.program = p) (hl : m.maxSteps = none)
    (hs : m.status = .running) (hpc : m.pc = a) (hst : m.store = s) :
    m.after lines.length = { m with pc := e, steps := m.steps + lines.length, store := t } := by
  -- each line leaves the machine where the next one stands, with the store that the rest starts from
  induction ht generalizing m s with
  | nil =>
    subst hpc
    cases h
    subst hst
    rfl
  | @cons a e i lines hd _ ih =>
    subst hp hpc hst
    cases h with
    | cons ha hr h =>
      obtain ⟨hjump, hhalt⟩ := hi _ List.mem_cons_self
      obtain rfl := Instruction.eq_next_of_run ha hjump hhalt hr
      have hperf := performs_of_unlimited hl hs hd ha
      have hrest := ih (fun y hy => hi y (List.mem_cons_of_mem _ hy)) h
        (m := { m with steps := m.steps + 1, store := _, pc := m.pc + i.size }) rfl hl hs rfl rfl
      rw [List.length_cons, after, ← next_after, next_of_outcome (.moved hperf hr), hrest,
        Nat.add_assoc, Nat.add_comm 1]

section Branch

variable {room k : Nat} {a t : Cell} {r : List Cell} {vars : Variables} {sink : W}

omit [Writer W] in
theorem run_jnz {n : Nat} {s : Store W} (ht : t.index? = some k) (hk : k ≤ n)
    (hs : s = ⟨⟨room, a :: r⟩, vars, sink⟩) :
    (pop >>= fun v => if v = 0 then pure .next else jump n t : Action W Control).run s =
      .ok (if a = 0 then .next else .jump k) ⟨⟨room + 1, r⟩, vars, sink⟩ := by
  subst hs
  refine run_bind_eq_ok_iff.2 ⟨a, ⟨⟨room + 1, r⟩, vars, sink⟩, rfl, ?_⟩
  by_cases ha : a = 0
  · rw [if_pos ha, if_pos ha]
    rfl
  · rw [if_neg ha, if_neg ha, run_jump, ht]
    exact if_pos hk

theorem next_of_jnz (hl : m.maxSteps = none) (hs : m.status = .running)
    (hd : m.program.decode m.pc = .ok (.withOperand .jnz t)) (ht : t.index? = some k)
    (hk : k ≤ m.program.size) (hst : m.store = ⟨⟨room, a :: r⟩, vars, sink⟩) :
    m.next = { m with
      pc := if a = 0 then m.pc + 2 else k
      steps := m.steps + 1
      store := ⟨⟨room + 1, r⟩, vars, sink⟩ } := by
  have hp := performs_of_unlimited hl hs hd rfl
  have hr := run_jnz ht hk hst
  by_cases ha : a = 0
  · rw [if_pos ha] at hr ⊢
    exact next_of_outcome (.moved hp hr)
  · rw [if_neg ha] at hr ⊢
    exact next_of_outcome (.jumped hp hr)

end Branch

end Machine

/-! The loop. -/

def countdown (n : Cell) : List Instruction :=
  [.withOperand .alloc 0, .withOperand .push n, .withOperand .store 0,
    .withOperand .load 0, .plain .print, .withOperand .push 1, .plain .sub, .plain .dup,
    .withOperand .store 0, .withOperand .jnz 6, .plain .halt]

namespace Cell

/-- How often one is taken from a cell, once at least, until it is zero. -/
def laps (n : Cell) : Nat := (if 0 < n.toInt then n.toInt else n.toInt + 2 ^ 32).toNat

/-- The cell and the next lower ones. -/
def down (n : Cell) (j : Nat) : List Cell := (List.range j).map fun i => n - Int32.ofNat i

theorem down_succ (n : Cell) (j : Nat) : n.down (j + 1) = n.down j ++ [n - Int32.ofNat j] := by
  rw [down, List.range_succ, List.map_append]
  rfl

theorem sub_ofNat_succ (n : Cell) (j : Nat) :
    n - Int32.ofNat (j + 1) = n - Int32.ofNat j - 1 := by
  rw [Int32.ofNat_add, ← Int32.sub_sub]
  rfl

/-- From a cell that is not positive the way leads through the lowest cell to the highest one. -/
theorem coe_laps (n : Cell) :
    (n.laps : Int) = if 0 < n.toInt then n.toInt else n.toInt + 2 ^ 32 := by
  have hlo := Int32.le_toInt n
  refine Int.toNat_of_nonneg ?_
  split <;> omega

theorem laps_pos (n : Cell) : 0 < n.laps := by
  have hlo := Int32.le_toInt n
  have hlaps := n.coe_laps
  split at hlaps <;> omega

theorem laps_le (n : Cell) : n.laps ≤ 2 ^ 32 := by
  have hhi := Int32.toInt_lt n
  have hlaps := n.coe_laps
  split at hlaps <;> omega

theorem sub_ofNat_eq_zero_iff {n : Cell} {j : Nat} (h0 : 0 < j) (hj : j ≤ n.laps) :
    n - Int32.ofNat j = 0 ↔ j = n.laps := by
  have hlo := Int32.le_toInt n
  have hhi := Int32.toInt_lt n
  have hlaps := n.coe_laps
  have hsize : Int32.size = 4294967296 := rfl
  rw [← Int32.toInt_inj, Int32.toInt_sub, Int32.toInt_ofNat', Int32.toInt_zero]
  split at hlaps <;> simp only [hsize, Int.bmod_def] <;> omega

theorem sub_ofNat_laps (n : Cell) : n - Int32.ofNat n.laps = 0 :=
  (sub_ofNat_eq_zero_iff n.laps_pos (Nat.le_refl _)).2 rfl

end Cell

namespace Limits

def counter (l : Limits) (v : Cell) : Variables := (Variables.ofSize l.variableCount).put 0 v

variable {l : Limits}

theorem hasVariable_zero (hv : 1 ≤ l.variableCount) : l.HasVariable 0 :=
  ⟨Int.le_refl 0, Int.ofNat_lt.2 hv⟩

theorem store_ofSize (hv : 1 ≤ l.variableCount) (v : Cell) :
    (Variables.ofSize l.variableCount).store 0 v = .ok (l.counter v) :=
  (hasVariable_zero hv).store_eq_put (Variables.size_ofSize _) v

theorem store_counter (hv : 1 ≤ l.variableCount) (u v : Cell) :
    (l.counter u).store 0 v = .ok (l.counter v) := by
  have hsize : (l.counter u).size = l.variableCount :=
    (Variables.size_put ..).trans (Variables.size_ofSize _)
  exact ((hasVariable_zero hv).store_eq_put hsize v).trans (congrArg _ (Variables.put_put ..))

theorem load_counter (hv : 1 ≤ l.variableCount) (v : Cell) : (l.counter v).load 0 = .ok v :=
  (hasVariable_zero hv).load_put (Variables.size_ofSize _)

theorem getElem?_counter (hv : 1 ≤ l.variableCount) (v : Cell) :
    (l.counter v).slots[0]? = some (some v) := by
  obtain ⟨i, hi, hs⟩ := Variables.load_eq_ok_iff.1 (load_counter hv v)
  cases hi
  exact hs

end Limits

namespace Machine

variable {n : Cell} {l : Limits} {w : W} {j : Nat} {m : Machine W}

theorem after_lap {v : Cell} {room : Nat} {sink sink' : W}
    (hp : m.program = Program.assemble (countdown n)) (hl : m.maxSteps = none)
    (hs : m.status = .running) (hpc : m.pc = 6) (hv : 1 ≤ l.variableCount)
    (hst : m.store = ⟨⟨room + 2, []⟩, l.counter v, sink⟩)
    (hw : Writer.write sink (printed v) = (.ok (), sink')) :
    m.after 7 = { m with
      pc := if v - 1 = 0 then 17 else 6
      steps := m.steps + 7
      store := ⟨⟨room + 2, []⟩, l.counter (v - 1), sink'⟩ } := by
  have htiles : (Program.assemble (countdown n)).Tiles 6
      [(6, .withOperand .load 0), (8, .plain .print), (9, .withOperand .push 1), (11, .plain .sub),
        (12, .plain .dup), (13, .withOperand .store 0)] 15 :=
    .cons rfl (.cons rfl (.cons rfl (.cons rfl (.cons rfl (.cons rfl .nil)))))
  have hleads : Leads (Program.assemble (countdown n)).size
      [.withOperand .load 0, .plain .print, .withOperand .push 1, .plain .sub, .plain .dup,
        .withOperand .store 0]
      ⟨⟨room + 2, []⟩, l.counter v, sink⟩ ⟨⟨room + 1, [v - 1]⟩, l.counter (v - 1), sink'⟩ :=
    .load (Limits.load_counter hv v) (.print hw (.push
      (.binary (fun a b => b - a) rfl (.dup (.store (Limits.store_counter hv v (v - 1)) .nil)))))
  have hbody := after_of_leads htiles (by simp [Instruction.target?]) hleads hp hl hs hpc hst
  have hjnz : m.program.decode 15 = .ok (.withOperand .jnz 6) := by
    rw [hp]
    rfl
  have hsize : 6 ≤ m.program.size := by
    rw [hp]
    exact Nat.le_of_ble_eq_true rfl
  exact (congrArg next hbody).trans (next_of_jnz hl hs hjnz rfl hsize rfl)

/-- The machine has printed `j` numbers and stands at `a`, outside of the loop's body: there is nothing
on the stack, and the variable holds the next number. -/
structure Counted (n : Cell) (l : Limits) (w : W) (j a : Nat) (m : Machine W) : Prop where
  program : m.program = Program.assemble (countdown n)
  maxSteps : m.maxSteps = none
  running : m.status = .running
  pc : m.pc = a
  steps : m.steps = 7 * j + 3
  store : m.store = ⟨.empty l.stackCapacity, l.counter (n - Int32.ofNat j), m.store.sink⟩
  reliable : Writer.Reliable m.store.sink
  output : m.output = Writer.accepted w ++ String.ofList ((n.down j).flatMap printed)

theorem counted_start (n : Cell) (hc : 2 ≤ l.stackCapacity) (hv : 1 ≤ l.variableCount)
    (hl : l.maxSteps = none) (hw : Writer.Reliable w) :
    Counted n l w 0 6 ((start (Program.assemble (countdown n)) l w).after 3) := by
  obtain ⟨room, hroom⟩ := Nat.exists_eq_add_of_le' hc
  have htiles : (Program.assemble (countdown n)).Tiles 0
      [(0, .withOperand .alloc 0), (2, .withOperand .push n), (4, .withOperand .store 0)] 6 :=
    .cons rfl (.cons rfl (.cons rfl .nil))
  have hleads : Leads (Program.assemble (countdown n)).size
      [.withOperand .alloc 0, .withOperand .push n, .withOperand .store 0]
      ⟨⟨room + 2, []⟩, .ofSize l.variableCount, w⟩ ⟨⟨room + 2, []⟩, l.counter n, w⟩ :=
    .alloc (Limits.store_ofSize hv 0) (.push (.store (Limits.store_counter hv 0 n) .nil))
  have h3 : (start (Program.assemble (countdown n)) l w).after 3 = _ :=
    after_of_leads htiles (by simp [Instruction.target?]) hleads rfl hl rfl rfl (by rw [← hroom]; rfl)
  rw [h3]
  exact {
    program := rfl
    maxSteps := hl
    running := rfl
    pc := rfl
    steps := rfl
    store := by
      rw [hroom]
      exact congrArg (fun v => Store.mk (.empty _) (l.counter v) w) (Int32.sub_zero n).symm
    reliable := hw
    output := String.append_empty.symm }

theorem Counted.lap (h : Counted n l w j 6 m) (hc : 2 ≤ l.stackCapacity)
    (hv : 1 ≤ l.variableCount) :
    Counted n l w (j + 1) (if n - Int32.ofNat (j + 1) = 0 then 17 else 6) (m.after 7) := by
  obtain ⟨room, hroom⟩ := Nat.exists_eq_add_of_le' hc
  have hwrite := h.reliable.write_eq (printed (n - Int32.ofNat j))
  have hst := h.store
  rw [hroom] at hst
  rw [after_lap h.program h.maxSteps h.running h.pc hv hst hwrite, Cell.sub_ofNat_succ]
  exact {
    program := h.program
    maxSteps := h.maxSteps
    running := h.running
    pc := rfl
    steps := by rw [h.steps, Nat.mul_succ, Nat.add_right_comm]
    store := by rw [hroom, Cell.sub_ofNat_succ]; rfl
    reliable := h.reliable.write _
    output := by
      rw [Machine.output, Writer.accepted_of_ok hwrite, Cell.down_succ, List.flatMap_append,
        String.ofList_append, ← String.append_assoc, ← h.output, List.flatMap_singleton]
      rfl }

theorem Counted.laps (h : Counted n l w 0 6 m) (hc : 2 ≤ l.stackCapacity)
    (hv : 1 ≤ l.variableCount) (hj : j < n.laps) : Counted n l w j 6 (m.after (7 * j)) := by
  induction j with
  | zero => exact h
  | succ j ih =>
    have hlap := (ih (Nat.lt_of_succ_lt hj)).lap hc hv
    have hne : n - Int32.ofNat (j + 1) ≠ 0 := fun hz =>
      Nat.ne_of_lt hj ((Cell.sub_ofNat_eq_zero_iff j.succ_pos (Nat.le_of_lt hj)).1 hz)
    rwa [if_neg hne, ← after_add] at hlap

theorem Counted.leave (h : Counted n l w 0 6 m) (hc : 2 ≤ l.stackCapacity)
    (hv : 1 ≤ l.variableCount) : Counted n l w n.laps 17 (m.after (7 * n.laps)) := by
  obtain ⟨k, hk⟩ := Nat.exists_eq_add_of_le' n.laps_pos
  have hlap := (h.laps hc hv (j := k) (by omega)).lap hc hv
  rw [← hk, if_pos n.sub_ofNat_laps, ← after_add, ← Nat.mul_succ, Nat.succ_eq_add_one,
    ← hk] at hlap
  exact hlap

theorem Counted.next (h : Counted n l w j 17 m) :
    m.next = { m with steps := m.steps + 1, status := .halted .instruction } := by
  have hd : m.program.decode m.pc = .ok (.plain .halt) := by
    rw [h.program, h.pc]
    rfl
  exact next_of_outcome (.stopped (performs_of_unlimited h.maxSteps h.running hd rfl) rfl)

theorem Counted.answer? (h : Counted n l w j 17 m) :
    m.next.answer? = some (.ok ⟨.instruction, 7 * j + 4, []⟩) := by
  have hstack : m.stack = [] := by
    rw [stack, h.store]
    rfl
  have hsteps : m.steps + 1 = 7 * j + 4 := congrArg (· + 1) h.steps
  rw [h.next, ← hsteps, ← hstack]
  rfl

/-- From every start the loop ends by `HALT` with the counter at zero, after printing the start and
the next lower numbers down to one. -/
theorem run_countdown (n : Cell) (l : Limits) (hc : 2 ≤ l.stackCapacity)
    (hv : 1 ≤ l.variableCount) (hl : l.maxSteps = none) (w : W) (hw : Writer.Reliable w) :
    ∃ e, (start (Program.assemble (countdown n)) l w).run =
        some (.ok ⟨.instruction, 7 * n.laps + 4, []⟩, e) ∧
      e.vars.slots[0]? = some (some 0) ∧
      e.output = Writer.accepted w ++ String.ofList ((n.down n.laps).flatMap printed) ∧
      (n.laps : Int) = (if 0 < n.toInt then n.toInt else n.toInt + 2 ^ 32) ∧
      (n.down n.laps).getLast? = some 1 := by
  have h := (counted_start n hc hv hl hw).leave hc hv
  rw [← after_add] at h
  have hrun := (runFor_eq_some_iff (n := 3 + 7 * n.laps + 1) rfl).2 ⟨rfl, h.answer?⟩
  refine ⟨_, run_of_runFor hrun fun _ => ?_, ?_, ?_, n.coe_laps, ?_⟩
  · have hle := n.laps_le
    have hsize : UInt64.size = 2 ^ 64 := rfl
    omega
  · rw [after, h.next, vars, h.store, n.sub_ofNat_laps]
    exact Limits.getElem?_counter hv 0
  · rw [after, h.next]
    exact h.output
  · obtain ⟨k, hk⟩ := Nat.exists_eq_add_of_le' n.laps_pos
    have hone := n.sub_ofNat_laps
    rw [hk, Cell.sub_ofNat_succ, Int32.sub_eq_iff_eq_add, Int32.zero_add] at hone
    rw [hk, Cell.down_succ, List.getLast?_concat, hone]

theorem run_countdown_three :
    let l : Limits := { stackCapacity := 2, variableCount := 1 }
    (2 ≤ l.stackCapacity ∧ 1 ≤ l.variableCount ∧ l.maxSteps = none ∧
      Writer.Reliable Sink.unbounded) ∧
    ∃ e, (start (Program.assemble (countdown 3)) l Sink.unbounded).run =
        some (.ok ⟨.instruction, 25, []⟩, e) ∧
      e.vars.slots[0]? = some (some 0) ∧ e.output = "3\n2\n1\n" := by
  intro l
  have hw : Writer.Reliable Sink.unbounded := Sink.reliable_of_unlimited (by decide) rfl
  obtain ⟨e, hr, hz, ho, -⟩ := run_countdown 3 l (by decide) (by decide) rfl Sink.unbounded hw
  have hprinted : Writer.accepted Sink.unbounded ++
      String.ofList ((Cell.down 3 (Cell.laps 3)).flatMap printed) = "3\n2\n1\n" := by
    decide +kernel
  exact ⟨⟨by decide, by decide, rfl, hw⟩, e, hr, hz, ho.trans hprinted⟩

end Machine

end StackMachine
