import StackMachine.Proofs.Invariant
import StackMachine.Proofs.Run

/-! A step limit changes nothing about a run that stays within it, and otherwise stops it where the
run without the limit is after so many steps (`run_limited`). The two machines go in lock step
(`next_limitTo`) until the one has made all its steps while the other would perform a further
instruction (`next_limitTo_of_spent`). -/

namespace StackMachine.Machine

variable {W : Type}

def limitTo (m : Machine W) (n : Nat) : Machine W := { m with maxSteps := some n }

def exceed (m : Machine W) (n : Nat) : Machine W :=
  { m.limitTo n with status := .faulted ⟨.stepLimit n, m.pc⟩ }

/-- The least step limit under which a run that ended in this machine would have ended alike. It
is the number of instructions performed, and one more if the last fault came from decoding. -/
def needed (m : Machine W) : Nat :=
  match m.status with
  | .faulted f =>
    match m.program.decode f.address with
    | .error c => if c = f.cause then m.steps + 1 else m.steps
    | .ok _ => m.steps
  | _ => m.steps

theorem fetch_limitTo {m : Machine W} {n : Nat} (h0 : m.maxSteps = none) (h : m.steps < n) :
    (m.limitTo n).fetch = m.fetch := by
  simp only [fetch, limitTo, h0, Nat.not_le.2 h, if_false]

theorem answer?_limitTo (m : Machine W) (n : Nat) : (m.limitTo n).answer? = m.answer? := rfl

variable [Writer W] {m m' : Machine W} {r : Except Fault Status} {n : Nat}

theorem Performs.limitTo {i : Instruction} {a : Action W Control} (hp : m.Performs i a)
    (h0 : m.maxSteps = none) (h : m.steps < n) : (m.limitTo n).Performs i a where
  running := hp.running
  pc_lt := hp.pc_lt
  fetch := (fetch_limitTo h0 h).trans hp.fetch
  action := hp.action

theorem Outcome.limitTo (ho : Outcome m r m') (h0 : m.maxSteps = none)
    (h : m.Pending → m.steps < n) : Outcome (m.limitTo n) r (m'.limitTo n) := by
  cases ho with
  | halted hs => exact .halted hs
  | faulted hs => exact .faulted hs
  | exhausted hs hpc => exact .exhausted hs hpc
  | unfetched hs hpc hf => exact .unfetched hs hpc ((fetch_limitTo h0 (h ⟨hs, hpc⟩)).trans hf)
  | failed hp hr => exact .failed (hp.limitTo h0 (h ⟨hp.running, hp.pc_lt⟩)) hr
  | moved hp hr => exact .moved (hp.limitTo h0 (h ⟨hp.running, hp.pc_lt⟩)) hr
  | jumped hp hr => exact .jumped (hp.limitTo h0 (h ⟨hp.running, hp.pc_lt⟩)) hr
  | stopped hp hr => exact .stopped (hp.limitTo h0 (h ⟨hp.running, hp.pc_lt⟩)) hr

theorem next_limitTo (h0 : m.maxSteps = none) (h : m.Pending → m.steps < n) :
    (m.limitTo n).next = m.next.limitTo n := by
  have ho := step_of_outcome ((outcome_next m).limitTo h0 h)
  rw [next, ho]

theorem next_limitTo_of_spent (h : m.Pending) (hn : n ≤ m.steps) :
    (m.limitTo n).next = m.exceed n := by
  have hf : (m.limitTo n).fetch = .error (.stepLimit n) :=
    fetch_eq_error_iff.2 (.inl ⟨n, rfl, hn, rfl⟩)
  have hs := step_of_unfetched (m := m.limitTo n) h.1 h.2 hf
  rw [next, hs]
  rfl

theorem after_limitTo {k : Nat} (h0 : ∀ j, (m.after j).maxSteps = none)
    (h : ∀ j < k, (m.after j).Pending → (m.after j).steps < n) :
    (m.limitTo n).after k = (m.after k).limitTo n := by
  induction k with
  | zero => rfl
  | succ k ih =>
    have hk := ih (fun j hj => h j (Nat.lt_succ_of_lt hj))
    rw [after, hk, next_limitTo (h0 k) (h k k.lt_succ_self), after]

theorem needed_of_outcome (h : Outcome m r m') (h0 : m.maxSteps = none) (hs : m.status = .running)
    (hs' : m'.status ≠ .running) :
    m'.needed = if m.pc < m.program.size then m.steps + 1 else m.steps := by
  cases h with
  | halted h => rw [hs] at h; cases h
  | faulted h => rw [hs] at h; cases h
  | exhausted _ hpc => simp only [needed, Nat.not_lt.2 hpc, if_false]
  | unfetched _ hpc hf =>
    rcases fetch_eq_error_iff.1 hf with ⟨k, hk, -⟩ | ⟨-, hd⟩
    · rw [h0] at hk
      cases hk
    · simp only [needed, hd, hpc, if_true]
  | failed hp => simp only [needed, hp.decode, hp.pc_lt, if_true]
  | moved hp => exact absurd hp.running hs'
  | jumped hp => exact absurd hp.running hs'
  | stopped hp => simp only [needed, hp.pc_lt, if_true]

theorem pending_of_lt {j k : Nat} (h : (m.after k).status = .running) (hj : j < k) :
    (m.after j).Pending :=
  (pending_of_running (outcome_next (m.after j)) (running_of_le h hj)).1

section Start

variable {p : Program} {l : Limits} {w : W} {k : Nat}

theorem steps_after_start (h : ((start p l w).after n).status = .running) :
    ((start p l w).after n).steps = n :=
  (steps_after h).trans n.zero_add

theorem ended_of_maxSteps (hn : l.maxSteps = some n) :
    ((start p l w).after (n + 1)).status ≠ .running := by
  intro hs
  have hle := (valid_after p l w (n + 1)).steps_le n hn
  rw [steps_after_start hs] at hle
  exact Nat.not_succ_le_self n hle

/-- A run that ends within some steps ends, unless these are more than a machine without a limit is
given. -/
theorem run_of_runFor {r : Except Fault Completion} {e : Machine W}
    (h : (start p l w).runFor k = some (r, e)) (hk : l.maxSteps = none → k ≤ UInt64.size) :
    (start p l w).run = some (r, e) := by
  cases hl : l.maxSteps with
  | none =>
    have hb : (start p l w).stepBudget = UInt64.size := by rw [stepBudget, start, hl, Option.elim_none]
    rw [run, hb]
    exact runFor_of_le h (hk hl)
  | some n =>
    obtain ⟨rfl, ha⟩ := (runFor_eq_some_iff rfl).1 h
    have hb : (start p l w).stepBudget = n + 1 := by rw [stepBudget, start, hl, Option.elim_some]
    rw [run, hb]
    exact (runFor_eq_some_iff rfl).2
      ⟨after_eq_of_ended (ended_of_answer? ha) (ended_of_maxSteps hl), ha⟩

theorem lt_needed_iff (h0 : l.maxSteps = none) (hk : ((start p l w).after k).status ≠ .running) :
    n < ((start p l w).after k).needed ↔ ((start p l w).after n).Pending := by
  obtain ⟨j, hj, he⟩ := exists_last_step rfl hk
  rw [← he] at hk ⊢
  have hj0 := (valid_after p l w j).maxSteps.trans h0
  have hneed := needed_of_outcome (outcome_next _) hj0 hj hk
  rw [steps_after_start hj] at hneed
  rcases Nat.lt_trichotomy n j with hlt | rfl | hgt
  · have hle : j ≤ ((start p l w).after (j + 1)).needed := by
      rw [after, hneed]
      split <;> omega
    exact iff_of_true (Nat.lt_of_lt_of_le hlt hle) (pending_of_lt hj hlt)
  · rw [after, hneed]
    by_cases hpc : ((start p l w).after n).pc < ((start p l w).after n).program.size
    · exact iff_of_true (by rw [if_pos hpc]; exact n.lt_succ_self) ⟨hj, hpc⟩
    · exact iff_of_false (by rw [if_neg hpc]; exact n.lt_irrefl) (fun h => hpc h.2)
  · refine iff_of_false (Nat.not_lt.2 ?_) ?_
    · rw [after, hneed]
      split <;> omega
    · intro h
      exact hk (running_of_le h.1 hgt)

/-- With a further instruction to perform after `n` steps, the limited machine faults there. -/
theorem after_limitTo_of_pending (h0 : l.maxSteps = none)
    (h : ((start p l w).after n).Pending) :
    ((start p l w).limitTo n).after (n + 1) = ((start p l w).after n).exceed n := by
  have hlock : ((start p l w).limitTo n).after n = ((start p l w).after n).limitTo n := by
    refine after_limitTo (fun j => (valid_after p l w j).maxSteps.trans h0) ?_
    intro j hj hp
    rwa [steps_after_start hp.1]
  rw [after, hlock]
  exact next_limitTo_of_spent h (Nat.le_of_eq (steps_after_start h.1).symm)

/-- With none, the limit is never felt: a machine that has not ended before its step `n` ends in
that step. -/
theorem after_limitTo_of_not_pending (h0 : l.maxSteps = none)
    (h : ¬((start p l w).after n).Pending) :
    ((start p l w).limitTo n).after (n + 1) = ((start p l w).after (n + 1)).limitTo n := by
  refine after_limitTo (fun j => (valid_after p l w j).maxSteps.trans h0) ?_
  intro j hj hp
  rw [steps_after_start hp.1]
  refine Nat.lt_of_le_of_ne (Nat.le_of_lt_succ hj) ?_
  rintro rfl
  exact h hp

theorem run_limitTo (m : Machine W) (n : Nat) :
    (m.limitTo n).run =
      ((m.limitTo n).after (n + 1)).answer?.map (·, (m.limitTo n).after (n + 1)) :=
  runFor_succ_eq_after (m.limitTo n) n

theorem run_limitTo_of_pending (h0 : l.maxSteps = none) (h : ((start p l w).after n).Pending) :
    ((start p l w).limitTo n).run =
      some (.error ⟨.stepLimit n, ((start p l w).after n).pc⟩,
        ((start p l w).after n).exceed n) := by
  rw [run_limitTo, after_limitTo_of_pending h0 h]
  rfl

theorem run_limitTo_of_not_pending (h0 : l.maxSteps = none)
    (h : ¬((start p l w).after n).Pending) :
    ((start p l w).limitTo n).run =
      ((start p l w).after (n + 1)).answer?.map (·, ((start p l w).after (n + 1)).limitTo n) := by
  rw [run_limitTo, after_limitTo_of_not_pending h0 h, answer?_limitTo]

end Start

/-- A limited run ends within one step more than its limit. If the run without a limit needs no
more than the limit, the two end alike; if it needs more or never ends, the limited run performs
as many instructions as it may and faults where the other one then is. -/
theorem run_limited (p : Program) (l : Limits) (w : W) (n : Nat) :
    let u := start p { l with maxSteps := none } w
    let b := start p { l with maxSteps := some n } w
    (b.run = b.runFor (n + 1) ∧ (b.runFor (n + 1)).isSome) ∧
      (∀ k r e, u.runFor k = some (r, e) → e.needed ≤ n → b.run = some (r, e.limitTo n)) ∧
      ((∀ k, u.runFor k = none) ∨ (∃ k r e, u.runFor k = some (r, e) ∧ n < e.needed) →
        b.run = some (.error ⟨.stepLimit n, (u.after n).pc⟩, (u.after n).exceed n) ∧
          (u.after n).steps = n) := by
  intro u b
  have hu : u.status = .running := rfl
  have hend : ¬(u.after n).Pending → (u.after (n + 1)).status ≠ .running := by
    intro hp hs
    exact hp (pending_of_lt hs n.lt_succ_self)
  have hstop : (u.after n).Pending →
      b.run = some (.error ⟨.stepLimit n, (u.after n).pc⟩, (u.after n).exceed n) :=
    run_limitTo_of_pending rfl
  have hsame : ¬(u.after n).Pending →
      b.run = (u.after (n + 1)).answer?.map (·, (u.after (n + 1)).limitTo n) :=
    run_limitTo_of_not_pending rfl
  refine ⟨⟨rfl, ?_⟩, ?_, ?_⟩
  · change b.run.isSome
    by_cases hp : (u.after n).Pending
    · rw [hstop hp]
      rfl
    · rw [hsame hp, Option.isSome_map, Option.isSome_iff_ne_none, ne_eq, answer?_eq_none_iff]
      exact hend hp
  · intro k r e hk hn
    obtain ⟨rfl, hr⟩ := (runFor_eq_some_iff hu).1 hk
    have hs := ended_of_answer? hr
    have hp : ¬(u.after n).Pending := by
      rw [← lt_needed_iff rfl hs]
      exact Nat.not_lt.2 hn
    rw [hsame hp, after_eq_of_ended (hend hp) hs, hr, Option.map_some]
  · intro h
    have hp : (u.after n).Pending := by
      rcases h with h | ⟨k, r, e, hk, hn⟩
      · exact pending_of_lt ((runFor_eq_none_iff hu).1 (h (n + 1))) n.lt_succ_self
      · obtain ⟨rfl, hr⟩ := (runFor_eq_some_iff hu).1 hk
        exact (lt_needed_iff rfl (ended_of_answer? hr)).1 hn
    exact ⟨hstop hp, steps_after_start hp.1⟩

/-- An instruction that cannot be decoded needs a limit of one more than what stands before it. -/
theorem run_limited_push_unknown :
    let b n := start #[0, 5, 99] { maxSteps := some n } Sink.unbounded
    ((b 2).run.map (·.1) = some (.error ⟨.unknownInstruction 99, 2⟩)) ∧
      (b 1).run.map (·.1) = some (.error ⟨.stepLimit 1, 2⟩) := by
  intro b
  have h2 := (run_limited #[0, 5, 99] {} Sink.unbounded 2).2.1 2 _ _ rfl (by decide)
  have h1 := (run_limited #[0, 5, 99] {} Sink.unbounded 1).2.2 (.inr ⟨2, _, _, rfl, by decide⟩)
  exact ⟨congrArg (Option.map (·.1)) h2, congrArg (Option.map (·.1)) h1.1⟩

end StackMachine.Machine
