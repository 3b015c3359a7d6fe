import StackMachine.Proofs.Step

/-! Runs, seen from the machines that they pass through. A machine that has ended stays as it is,
so a run answers what the machine after so many steps has to say (`runFor_eq_after`), and whenever
a run ends, it ends in the same machine (`after_eq_of_ended`). -/

namespace StackMachine

/-- What a step reports that leaves a machine in this status. -/
def Status.report : Status → Except Fault Status
  | .running => .ok .running
  | .halted e => .ok (.halted e)
  | .faulted f => .error f

theorem Status.report_eq_ok_iff {s t : Status} :
    t.report = .ok s ↔ t = s ∧ ∀ f, s ≠ .faulted f := by
  cases t with
  | faulted f =>
    simp only [report, reduceCtorEq, false_iff]
    rintro ⟨rfl, h⟩
    exact h f rfl
  | running | halted e =>
    simp only [report, Except.ok.injEq, iff_self_and]
    rintro rfl f hf
    cases hf

theorem Status.report_eq_error_iff {t : Status} {f : Fault} :
    t.report = .error f ↔ t = .faulted f := by
  cases t <;> simp [report]

namespace Machine

variable {W : Type}

/-- What a machine that has ended answers. -/
def answer? (m : Machine W) : Option (Except Fault Completion) :=
  match m.status with
  | .running => none
  | .halted e => some (.ok (m.completion e))
  | .faulted f => some (.error f)

theorem answer?_eq_none_iff {m : Machine W} : m.answer? = none ↔ m.status = .running := by
  unfold answer?
  split <;> simp_all

theorem ended_of_answer? {m : Machine W} {r : Except Fault Completion} (h : m.answer? = some r) :
    m.status ≠ .running := by
  intro hs
  rw [answer?_eq_none_iff.2 hs] at h
  cases h

theorem answer?_eq_error_iff {m : Machine W} {f : Fault} :
    m.answer? = some (.error f) ↔ m.status = .faulted f := by
  unfold answer?
  split <;> simp_all

theorem answer?_eq_ok_iff {m : Machine W} {c : Completion} :
    m.answer? = some (.ok c) ↔ ∃ e, m.status = .halted e ∧ m.completion e = c := by
  unfold answer?
  split <;> simp_all

/-- A running machine at whose address a cell stands. -/
def Pending (m : Machine W) : Prop := m.status = .running ∧ m.pc < m.program.size

variable [Writer W]

theorem report_of_outcome {m m' : Machine W} {r : Except Fault Status} (h : Outcome m r m') :
    r = m'.status.report := by
  cases h with
  | halted hs => rw [hs]; rfl
  | faulted hs => rw [hs]; rfl
  | exhausted => rfl
  | unfetched => rfl
  | failed => rfl
  | moved hp => simp only [hp.running, Status.report]
  | jumped hp => simp only [hp.running, Status.report]
  | stopped => rfl

theorem step_eq (m : Machine W) : m.step = (m.next.status.report, m.next) :=
  Prod.ext (report_of_outcome (outcome_next m)) rfl

/-- A machine still runs after a step only if it had an instruction and performed it. -/
theorem pending_of_running {m m' : Machine W} {r : Except Fault Status} (h : Outcome m r m')
    (hs : m'.status = .running) : m.Pending ∧ m'.steps = m.steps + 1 := by
  cases h with
  | halted h => rw [h] at hs; cases hs
  | faulted h => rw [h] at hs; cases hs
  | moved hp => exact ⟨⟨hp.running, hp.pc_lt⟩, rfl⟩
  | jumped hp => exact ⟨⟨hp.running, hp.pc_lt⟩, rfl⟩
  | exhausted | unfetched | failed | stopped => cases hs

theorem next_of_ended {m : Machine W} (h : m.status ≠ .running) : m.next = m := by
  unfold next
  cases hs : m.status with
  | running => exact absurd hs h
  | halted e => rw [step_of_halted hs]
  | faulted f => rw [step_of_faulted hs]

theorem after_add (m : Machine W) (j k : Nat) : m.after (j + k) = (m.after j).after k := by
  induction k with
  | zero => rfl
  | succ k ih => rw [← Nat.add_assoc, after, ih, after]

theorem after_of_ended {m : Machine W} (h : m.status ≠ .running) (n : Nat) : m.after n = m := by
  induction n with
  | zero => rfl
  | succ n ih => rw [after, ih, next_of_ended h]

theorem after_of_le {m : Machine W} {j k : Nat} (h : (m.after j).status ≠ .running) (hk : j ≤ k) :
    m.after k = m.after j := by
  obtain ⟨i, rfl⟩ := Nat.exists_eq_add_of_le hk
  rw [after_add, after_of_ended h]

theorem running_of_le {m : Machine W} {j k : Nat} (h : (m.after k).status = .running)
    (hj : j ≤ k) : (m.after j).status = .running := by
  by_cases hs : (m.after j).status = .running
  · exact hs
  · rwa [after_of_le hs hj] at h

theorem after_eq_of_ended {m : Machine W} {j k : Nat} (hj : (m.after j).status ≠ .running)
    (hk : (m.after k).status ≠ .running) : m.after j = m.after k := by
  rcases Nat.le_total j k with h | h
  · exact (after_of_le hj h).symm
  · exact after_of_le hk h

/-- If a running machine has ended, one of its steps was the last. -/
theorem exists_last_step {m : Machine W} {k : Nat} (h : m.status = .running)
    (hk : (m.after k).status ≠ .running) :
    ∃ j, (m.after j).status = .running ∧ m.after (j + 1) = m.after k := by
  induction k with
  | zero => exact absurd h hk
  | succ k ih =>
    by_cases hs : (m.after k).status = .running
    · exact ⟨k, hs, rfl⟩
    · obtain ⟨j, hj, he⟩ := ih hs
      exact ⟨j, hj, he.trans (after_of_le hs k.le_succ).symm⟩

/-- As long as a machine runs, it performs one instruction in every step. -/
theorem steps_after {m : Machine W} {n : Nat} (h : (m.after n).status = .running) :
    (m.after n).steps = m.steps + n := by
  induction n with
  | zero => rfl
  | succ n ih =>
    have hn := ih (running_of_le h n.le_succ)
    rw [after, (pending_of_running (outcome_next _) h).2, hn, Nat.add_assoc]

theorem runFor_succ (m : Machine W) (n : Nat) :
    m.runFor (n + 1) = match m.next.answer? with
      | some r => some (r, m.next)
      | none => m.next.runFor n := by
  rw [runFor, step_eq, answer?]
  cases m.next.status <;> rfl

theorem runFor_succ_eq_after (m : Machine W) (n : Nat) :
    m.runFor (n + 1) = (m.after (n + 1)).answer?.map (·, m.after (n + 1)) := by
  induction n generalizing m with
  | zero =>
    rw [runFor_succ]
    change _ = m.next.answer?.map (·, m.next)
    cases m.next.answer? <;> rfl
  | succ n ih =>
    rw [runFor_succ, after, ← next_after]
    cases ha : m.next.answer? with
    | none => exact ih m.next
    | some r => simp only [after_of_ended (ended_of_answer? ha), ha, Option.map_some]

theorem runFor_eq_after {m : Machine W} (h : m.status = .running) (n : Nat) :
    m.runFor n = (m.after n).answer?.map (·, m.after n) := by
  cases n with
  | zero => simp only [runFor, after, answer?_eq_none_iff.2 h, Option.map_none]
  | succ n => exact runFor_succ_eq_after m n

theorem runFor_eq_none_iff {m : Machine W} (h : m.status = .running) {n : Nat} :
    m.runFor n = none ↔ (m.after n).status = .running := by
  rw [runFor_eq_after h, Option.map_eq_none_iff, answer?_eq_none_iff]

theorem runFor_eq_some_iff {m : Machine W} (h : m.status = .running) {n : Nat}
    {r : Except Fault Completion} {e : Machine W} :
    m.runFor n = some (r, e) ↔ e = m.after n ∧ e.answer? = some r := by
  rw [runFor_eq_after h]
  constructor
  · intro he
    obtain ⟨x, hx, he⟩ := Option.map_eq_some_iff.1 he
    cases he
    exact ⟨rfl, hx⟩
  · rintro ⟨rfl, he⟩
    rw [he, Option.map_some]

/-- The run, however long it takes, ends with this answer and leaves this machine. -/
def RunsTo (m : Machine W) (r : Except Fault Completion) (e : Machine W) : Prop :=
  ∃ n, m.runFor n = some (r, e)

theorem runsTo_iff {m : Machine W} {r : Except Fault Completion} {e : Machine W} :
    m.RunsTo r e ↔ ∃ n, e = m.after (n + 1) ∧ e.answer? = some r := by
  constructor
  · rintro ⟨_ | n, h⟩
    · cases h
    · rw [runFor_succ_eq_after] at h
      obtain ⟨x, hx, h⟩ := Option.map_eq_some_iff.1 h
      cases h
      exact ⟨n, rfl, hx⟩
  · rintro ⟨n, rfl, h⟩
    exact ⟨n + 1, by rw [runFor_succ_eq_after, h, Option.map_some]⟩

end Machine

end StackMachine
