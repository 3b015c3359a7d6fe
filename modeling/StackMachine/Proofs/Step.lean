import StackMachine.Run

/-! All that a step can do, said once. `Outcome` has a constructor for every way in which a step
ends, with its guards and with the machine that it leaves; `step_eq_iff` says that these are all of
them. Proofs about steps go by cases on it, and `after_induction` carries what steps preserve over
runs. -/

namespace StackMachine.Machine

variable {W : Type} [Writer W]

/-- A running machine that is about to perform an instruction. -/
structure Performs (m : Machine W) (i : Instruction) (a : Action W Control) : Prop where
  running : m.status = .running
  pc_lt : m.pc < m.program.size
  fetch : m.fetch = .ok i
  action : i.action? m.program.size = some a

inductive Outcome (m : Machine W) : Except Fault Status → Machine W → Prop
  | halted {e : Ending} : m.status = .halted e → Outcome m (.ok (.halted e)) m
  | faulted {f : Fault} : m.status = .faulted f → Outcome m (.error f) m
  | exhausted : m.status = .running → m.program.size ≤ m.pc →
      Outcome m (.ok (.halted .endOfProgram)) { m with status := .halted .endOfProgram }
  | unfetched {c : Cause} : m.status = .running → m.pc < m.program.size → m.fetch = .error c →
      Outcome m (.error ⟨c, m.pc⟩) { m with status := .faulted ⟨c, m.pc⟩ }
  | failed {i : Instruction} {a : Action W Control} {c : Cause} {s : Store W} :
      m.Performs i a → a.run m.store = .error c s →
      Outcome m (.error ⟨c, m.pc⟩)
        { m with steps := m.steps + 1, store := s, status := .faulted ⟨c, m.pc⟩ }
  | moved {i : Instruction} {a : Action W Control} {s : Store W} :
      m.Performs i a → a.run m.store = .ok .next s →
      Outcome m (.ok .running) { m with steps := m.steps + 1, store := s, pc := m.pc + i.size }
  | jumped {i : Instruction} {a : Action W Control} {t : Nat} {s : Store W} :
      m.Performs i a → a.run m.store = .ok (.jump t) s →
      Outcome m (.ok .running) { m with steps := m.steps + 1, store := s, pc := t }
  | stopped {i : Instruction} {a : Action W Control} {s : Store W} :
      m.Performs i a → a.run m.store = .ok .halt s →
      Outcome m (.ok (.halted .instruction))
        { m with steps := m.steps + 1, store := s, status := .halted .instruction }

theorem step_of_running {m : Machine W} (hs : m.status = .running) (hpc : m.pc < m.program.size) :
    m.step = match m.cycle with
      | (.ok (), m') => (.ok m'.status, m')
      | (.error c, m') => (.error ⟨c, m'.pc⟩, { m' with status := .faulted ⟨c, m'.pc⟩ }) := by
  unfold step
  rw [hs]
  exact if_pos hpc

theorem step_of_exhausted {m : Machine W} (hs : m.status = .running) (hpc : m.program.size ≤ m.pc) :
    m.step = (.ok (.halted .endOfProgram), { m with status := .halted .endOfProgram }) := by
  simp only [step, hs, Nat.not_lt.2 hpc, if_false]

theorem step_of_unfetched {m : Machine W} {c : Cause} (hs : m.status = .running)
    (hpc : m.pc < m.program.size) (hf : m.fetch = .error c) :
    m.step = (.error ⟨c, m.pc⟩, { m with status := .faulted ⟨c, m.pc⟩ }) := by
  rw [step_of_running hs hpc, cycle_of_fetch_error hf]

namespace Performs

variable {m : Machine W} {i : Instruction} {a : Action W Control} {s : Store W}

theorem step_of_error {c : Cause} (h : m.Performs i a) (hr : a.run m.store = .error c s) :
    m.step = (.error ⟨c, m.pc⟩,
      { m with steps := m.steps + 1, store := s, status := .faulted ⟨c, m.pc⟩ }) := by
  rw [step_of_running h.running h.pc_lt, cycle_of_fetch_ok h.fetch h.action, perform_eq, hr]

theorem step_of_ok {k : Control} (h : m.Performs i a) (hr : a.run m.store = .ok k s) :
    m.step = (.ok ({ m with steps := m.steps + 1, store := s }.advance i.size k).status,
      { m with steps := m.steps + 1, store := s }.advance i.size k) := by
  rw [step_of_running h.running h.pc_lt, cycle_of_fetch_ok h.fetch h.action, perform_eq, hr]

theorem decode (h : m.Performs i a) : m.program.decode m.pc = .ok i :=
  decode_of_fetch h.fetch

end Performs

theorem exists_performs {m : Machine W} {i : Instruction} (hs : m.status = .running)
    (hpc : m.pc < m.program.size) (hf : m.fetch = .ok i) : ∃ a, m.Performs i a := by
  have hw := Program.wellFormed_of_decode (decode_of_fetch hf)
  obtain ⟨a, ha⟩ : ∃ a : Action W Control, i.action? m.program.size = some a :=
    Option.isSome_iff_exists.1 (Instruction.isSome_action?_iff.2 hw)
  exact ⟨a, hs, hpc, hf, ha⟩

theorem exists_performs_of_fetch {m : Machine W} {i : Instruction} (hs : m.status = .running)
    (hf : m.fetch = .ok i) : ∃ a, m.Performs i a :=
  exists_performs hs (Program.lt_size_of_decode (decode_of_fetch hf)) hf

theorem outcome_of_step {m m' : Machine W} {r : Except Fault Status} (h : m.step = (r, m')) :
    Outcome m r m' := by
  cases hs : m.status with
  | halted e => rw [step_of_halted hs] at h; cases h; exact .halted hs
  | faulted f => rw [step_of_faulted hs] at h; cases h; exact .faulted hs
  | running =>
    by_cases hpc : m.pc < m.program.size
    · cases hf : m.fetch with
      | error c => rw [step_of_unfetched hs hpc hf] at h; cases h; exact .unfetched hs hpc hf
      | ok i =>
        obtain ⟨a, hp⟩ := exists_performs hs hpc hf
        cases hr : a.run m.store with
        | error c s => rw [hp.step_of_error hr] at h; cases h; exact .failed hp hr
        | ok k s =>
          rw [hp.step_of_ok hr] at h
          cases h
          cases k with
          | next => simpa only [advance, hs] using Outcome.moved hp hr
          | jump t => simpa only [advance, hs] using Outcome.jumped hp hr
          | halt => exact .stopped hp hr
    · rw [step_of_exhausted hs (Nat.not_lt.1 hpc)] at h
      cases h
      exact .exhausted hs (Nat.not_lt.1 hpc)

theorem step_of_outcome {m m' : Machine W} {r : Except Fault Status} (h : Outcome m r m') :
    m.step = (r, m') := by
  cases h with
  | halted hs => exact step_of_halted hs
  | faulted hs => exact step_of_faulted hs
  | exhausted hs hpc => exact step_of_exhausted hs hpc
  | unfetched hs hpc hf => exact step_of_unfetched hs hpc hf
  | failed hp hr => exact hp.step_of_error hr
  | moved hp hr => rw [hp.step_of_ok hr]; simp only [advance, hp.running]
  | jumped hp hr => rw [hp.step_of_ok hr]; simp only [advance, hp.running]
  | stopped hp hr => exact hp.step_of_ok hr

theorem next_of_outcome {m m' : Machine W} {r : Except Fault Status} (h : Outcome m r m') :
    m.next = m' :=
  congrArg Prod.snd (step_of_outcome h)

theorem step_eq_iff {m m' : Machine W} {r : Except Fault Status} :
    m.step = (r, m') ↔ Outcome m r m' :=
  ⟨outcome_of_step, step_of_outcome⟩

theorem outcome_next (m : Machine W) : Outcome m m.step.1 m.next :=
  outcome_of_step rfl

/-- What every step preserves holds after any number of steps. -/
theorem after_induction {P : Machine W → Prop} {m : Machine W} (h0 : P m)
    (hstep : ∀ (m m' : Machine W) (r : Except Fault Status), P m → Outcome m r m' → P m')
    (n : Nat) : P (m.after n) := by
  induction n with
  | zero => exact h0
  | succ n ih => exact hstep _ _ _ ih (outcome_next _)

end StackMachine.Machine
