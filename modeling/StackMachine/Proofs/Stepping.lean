import StackMachine.Proofs.Invariant
import StackMachine.Proofs.Output

/-! Stepping against running. Steps made one by one and a run afterwards pass through the machines
that a single run passes through, so they end alike (`runsTo_after_iff`). What a step reports is the
status that it leaves behind, and a machine that has ended reports its end for ever
(`stepping_agrees_with_running`). -/

namespace StackMachine.Machine

variable {W : Type} [Writer W]

/-- The text that was accepted after an earlier state. -/
def outputSince (e m : Machine W) : String :=
  String.ofList (e.output.toList.drop m.output.toList.length)

variable {m e : Machine W} {r : Except Fault Completion}

theorem append_outputSince (h : m.output.toList <+: e.output.toList) :
    m.output ++ e.outputSince m = e.output := by
  rw [← String.toList_inj, String.toList_append, outputSince, String.toList_ofList]
  exact List.prefix_iff_eq_append.1 h

theorem output_prefix_of_runsTo (h : m.RunsTo r e) : m.output.toList <+: e.output.toList := by
  obtain ⟨k, rfl, -⟩ := runsTo_iff.1 h
  exact output_prefix_after m (Nat.zero_le _)

theorem runFor_after {k : Nat} {x : Except Fault Completion × Machine W} (n : Nat)
    (h : m.runFor k = some x) : (m.after n).runFor k = some x := by
  cases k with
  | zero => cases h
  | succ k =>
    rw [runFor_succ_eq_after] at h ⊢
    obtain ⟨y, hy, rfl⟩ := Option.map_eq_some_iff.1 h
    have he : (m.after n).after (k + 1) = m.after (k + 1) := by
      rw [← after_add]
      exact after_of_le (ended_of_answer? hy) (Nat.le_add_left ..)
    rw [he, hy, Option.map_some]

theorem runsTo_after_iff (n : Nat) : (m.after n).RunsTo r e ↔ m.RunsTo r e := by
  constructor
  · intro h
    obtain ⟨k, rfl, ha⟩ := runsTo_iff.1 h
    exact runsTo_iff.2 ⟨n + k, by rw [← after_add, Nat.add_assoc], ha⟩
  · rintro ⟨k, h⟩
    exact ⟨k, runFor_after n h⟩

theorem run_of_ended (h : m.answer? = some r) : m.run = some (r, m) := by
  obtain ⟨k, hk⟩ := Nat.exists_eq_add_of_le' m.stepBudget_pos
  rw [run, hk, runFor_succ_eq_after, after_of_ended (ended_of_answer? h), h, Option.map_some]

/-- Whatever the number of steps that are made first, a run from there ends as a run from the start
does, and the text of both parts makes up the text of the whole. A step returns the status that it
leaves, and a fault as an error. Once ended, a machine stays as it is under any number of steps,
which all return the same, and a run reports how it ended. -/
theorem stepping_agrees_with_running (p : Program) (l : Limits) (w : W) (n : Nat) :
    let m := (start p l w).after n
    (∀ r e, m.RunsTo r e ↔ (start p l w).RunsTo r e) ∧
      (∀ x, (start p l w).run = some x → m.run = some x) ∧
      (∀ r e, m.RunsTo r e → m.output ++ e.outputSince m = e.output) ∧
      (∀ s, m.step.1 = .ok s ↔ m.next.status = s ∧ ∀ f, s ≠ .faulted f) ∧
      (∀ f, m.step.1 = .error f ↔ m.next.status = .faulted f) ∧
      (m.status ≠ .running → ∀ k, m.after k = m ∧ (m.after k).step = (m.status.report, m)) ∧
      (∀ e, m.status = .halted e → m.run = some (.ok ⟨e, m.steps, m.stack⟩, m)) ∧
      ∀ f, m.status = .faulted f → m.run = some (.error f, m) := by
  intro m
  refine ⟨fun _ _ => runsTo_after_iff n, ?_, ?_, ?_, ?_, ?_, ?_, ?_⟩
  · intro x hx
    have hm : m.stepBudget = (start p l w).stepBudget := by
      rw [stepBudget, (valid_after p l w n).maxSteps]
      rfl
    rw [run, hm]
    exact runFor_after n hx
  · intro r e h
    exact append_outputSince (output_prefix_of_runsTo h)
  · intro s
    rw [step_eq]
    exact Status.report_eq_ok_iff
  · intro f
    rw [step_eq]
    exact Status.report_eq_error_iff
  · intro h k
    rw [after_of_ended h k, step_eq, next_of_ended h]
    exact ⟨rfl, rfl⟩
  · intro e h
    exact run_of_ended (by rw [answer?, h]; rfl)
  · intro f h
    exact run_of_ended (by rw [answer?, h])

end StackMachine.Machine
