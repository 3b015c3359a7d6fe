import StackMachine.Proofs.StepLimit

/-! Programs that jump only forward. Their machines move on with every step that leaves them
running, so the address counts at least as many cells as there were steps (`Ahead`), and a run is
over before the program is used up. What is asked of a program speaks of cells and not of listed
instructions, since a jump may land inside an instruction and take an operand for an opcode. -/

namespace StackMachine

/-- The cell after an address, if there is one, names a later address or none at all. -/
def Program.LeadsAhead (p : Program) (k : Nat) : Prop :=
  ∀ t ∈ p[k + 1]?, (k : Int) < t.toInt ∨ t.toInt < 0

-- Cells are finitely many, so what is decided here is the one cell and not all that there are.
instance (p : Program) (k : Nat) : Decidable (p.LeadsAhead k) := Option.decidableForallMem _

/-- Every cell with the code of a jump is the last one or leads ahead. -/
def Program.JumpsForward (p : Program) : Prop :=
  ∀ k < p.size, ∀ op ∈ [Opcode.jmp, .jz, .jnz], p[k]? = some op.cell → p.LeadsAhead k

instance (p : Program) : Decidable p.JumpsForward :=
  inferInstanceAs (Decidable (∀ k < p.size, _))

theorem Instruction.eq_jump_of_target? {i : Instruction} {t : Cell} (h : i.target? = some t) :
    ∃ op ∈ [Opcode.jmp, .jz, .jnz], i = .withOperand op t := by
  unfold target? at h
  split at h
  · exact ⟨.jmp, by simp, by rw [Option.some.inj h]⟩
  · exact ⟨.jz, by simp, by rw [Option.some.inj h]⟩
  · exact ⟨.jnz, by simp, by rw [Option.some.inj h]⟩
  · cases h

theorem Program.JumpsForward.lt_target {p : Program} (hp : p.JumpsForward) {pc k : Nat}
    {i : Instruction} (hd : p.decode pc = .ok i) (ht : i.target?.bind Cell.index? = some k) :
    pc < k := by
  obtain ⟨t, hi, hk⟩ := Option.bind_eq_some_iff.1 ht
  obtain ⟨op, hop, rfl⟩ := Instruction.eq_jump_of_target? hi
  have hcode : p[pc]? = some op.cell := Program.getElem?_of_decode hd
  have hto := hp pc (Program.lt_size_of_decode hd) op hop hcode t (Program.operand_of_decode hd)
  rw [Cell.index?_eq_some_iff.1 hk] at hto
  omega

namespace Machine

variable {W : Type} [Writer W] {p : Program} {l : Limits} {w : W} {m m' : Machine W}

theorem pc_lt_of_outcome {r : Except Fault Status} (hp : m.program.JumpsForward)
    (ho : Outcome m r m') (hs : m'.status = .running) : m.pc < m'.pc := by
  cases ho with
  | halted h => rw [h] at hs; cases hs
  | faulted h => rw [h] at hs; cases hs
  | exhausted | unfetched | failed | stopped => cases hs
  | @moved i => exact Nat.lt_add_of_pos_right i.size_pos
  | jumped hperf hr =>
    obtain ⟨-, -, ht⟩ := (Store.stable_sameShape.ends_action hperf.action).ok hr
    exact hp.lt_target hperf.decode ht

structure Ahead (p : Program) (m : Machine W) : Prop where
  program : m.program = p
  steps_le_size : m.steps ≤ p.size
  steps_le_pc : m.status = .running → m.steps ≤ m.pc

theorem ahead_step (hp : p.JumpsForward) (h : Ahead p m) {r : Except Fault Status}
    (ho : Outcome m r m') : Ahead p m' := by
  have hlt : m'.status = .running → m.pc < m'.pc := pc_lt_of_outcome (h.program.symm ▸ hp) ho
  have hstep : ∀ {i a}, m.Performs i a → m.steps + 1 ≤ p.size := by
    intro i a hperf
    have hpc := hperf.pc_lt
    rw [h.program] at hpc
    exact Nat.lt_of_le_of_lt (h.steps_le_pc hperf.running) hpc
  cases ho with
  | halted | faulted => exact h
  | exhausted | unfetched => exact ⟨h.program, h.steps_le_size, nofun⟩
  | failed hperf | stopped hperf => exact ⟨h.program, hstep hperf, nofun⟩
  | moved hperf | jumped hperf =>
    refine ⟨h.program, hstep hperf, ?_⟩
    intro hs
    exact Nat.lt_of_le_of_lt (h.steps_le_pc hperf.running) (hlt hs)

theorem ahead_after (hp : p.JumpsForward) (l : Limits) (w : W) (n : Nat) :
    Ahead p ((start p l w).after n) :=
  after_induction ⟨rfl, Nat.zero_le _, fun _ => Nat.zero_le _⟩ (fun _ _ _ h ho => ahead_step hp h ho) n

theorem ended_of_jumpsForward (hp : p.JumpsForward) (l : Limits) (w : W) :
    ((start p l w).after (p.size + 1)).status ≠ .running := by
  intro hs
  have hle := (ahead_after hp l w (p.size + 1)).steps_le_size
  rw [steps_after_start hs] at hle
  exact Nat.not_succ_le_self p.size hle

/-- If a program jumps only forward, then under any limits and with any writer each step that does
not end the machine takes it to a later address, no more steps are counted than the program has
cells, and one step more is enough for a run to end. -/
theorem run_of_jumpsForward (p : Program) (hp : p.JumpsForward) (l : Limits) (w : W) :
    let m := (start p l w).after
    (∀ n, (m (n + 1)).status = .running → (m n).pc < (m (n + 1)).pc) ∧
      (∀ n, (m n).steps ≤ p.size) ∧
      ∃ r e, (start p l w).runFor (p.size + 1) = some (r, e) ∧
        ((l.maxSteps = none → p.size < UInt64.size) → (start p l w).run = some (r, e)) := by
  intro m
  refine ⟨?_, fun n => (ahead_after hp l w n).steps_le_size, ?_⟩
  · intro n hs
    exact pc_lt_of_outcome ((ahead_after hp l w n).program.symm ▸ hp) (outcome_next (m n)) hs
  · have hend := ended_of_jumpsForward hp l w
    rw [ne_eq, ← runFor_eq_none_iff rfl, ← ne_eq, Option.ne_none_iff_exists'] at hend
    obtain ⟨⟨r, e⟩, he⟩ := hend
    exact ⟨r, e, he, run_of_runFor he⟩

/-- A jump that skips one cell lands on the operand of a `PUSH`, which is then performed as a `JZ`
without anything on the stack. -/
theorem run_of_jumpsForward_operand :
    Program.JumpsForward #[9, 3, 0, 10, 6, 18] ∧
      (∀ n, ((start #[9, 3, 0, 10, 6, 18] {} Sink.unbounded).after n).steps ≤ 6) ∧
      ∃ e, (start #[9, 3, 0, 10, 6, 18] {} Sink.unbounded).run =
        some (.error ⟨.stackUnderflow, 3⟩, e) := by
  have hp : Program.JumpsForward #[9, 3, 0, 10, 6, 18] := by decide
  obtain ⟨-, hsteps, r, e, he, hrun⟩ :=
    run_of_jumpsForward #[9, 3, 0, 10, 6, 18] hp {} Sink.unbounded
  obtain ⟨rfl, ha⟩ := (runFor_eq_some_iff rfl).1 he
  have hfault : ((start #[9, 3, 0, 10, 6, 18] {} Sink.unbounded).after 7).status =
      .faulted ⟨.stackUnderflow, 3⟩ := by decide +kernel
  obtain rfl : r = .error ⟨.stackUnderflow, 3⟩ :=
    Option.some.inj (ha.symm.trans (answer?_eq_error_iff.2 hfault))
  exact ⟨hp, hsteps, _, hrun fun _ => by decide⟩

end Machine

end StackMachine
