import StackMachine.Proofs.Aftermath
import StackMachine.Trace
import Mathlib.Data.List.Basic

/-! The trace of a run tells what the run did. The events of a step go with what the machine that it
leaves counts (`Reported`), so over a run they add up to that: an instruction for each of its steps
(`length_debug_log`), a warning if it has faulted (`warn_log`), a snapshot for each step and for a
fault that came before any instruction (`snapshots_log`). -/

namespace StackMachine

variable {W : Type}

namespace Event

/-- The events of a level, in their order. -/
def ofLevel (l : Level) (es : List (Event W)) : List (Event W) := es.filter (·.level = l)

def isSnapshot : Event W → Bool
  | .snapshot _ => true
  | _ => false

@[simp] theorem ofLevel_nil (l : Level) : ofLevel l ([] : List (Event W)) = [] := rfl

@[simp] theorem ofLevel_cons (l : Level) (x : Event W) (es : List (Event W)) :
    ofLevel l (x :: es) = if x.level = l then x :: ofLevel l es else ofLevel l es := by
  simp only [ofLevel, List.filter_cons, decide_eq_true_iff]

@[simp] theorem ofLevel_append (l : Level) (es es' : List (Event W)) :
    ofLevel l (es ++ es') = ofLevel l es ++ ofLevel l es' :=
  List.filter_append es es'

end Event

theorem Listing.mem_events {l : Listing} {x : Event W} (hx : x ∈ l.events) :
    x.level = .trace ∧ x.isSnapshot = false := by
  rcases List.mem_append.1 hx with h | h
  · obtain ⟨y, -, rfl⟩ := List.mem_map.1 h
    exact ⟨rfl, rfl⟩
  · obtain ⟨y, -, rfl⟩ := List.mem_map.1 h
    exact ⟨rfl, rfl⟩

theorem Listing.ofLevel_events (l : Listing) {v : Level} (hv : v ≠ .trace) :
    Event.ofLevel v (l.events (W := W)) = [] := by
  refine List.filter_eq_nil_iff.2 fun x hx => ?_
  rw [(mem_events hx).1, decide_eq_true_iff]
  exact hv.symm

theorem Listing.countP_events (l : Listing) :
    (l.events (W := W)).countP Event.isSnapshot = 0 :=
  List.countP_eq_zero.2 fun _ hx => Bool.eq_false_iff.1 (mem_events hx).2

theorem Ending.name_eq_ite (e : Ending) :
    e.name = if e = .instruction then "Instruction" else "EndOfProgram" := by
  cases e <;> rfl

namespace Machine

/-- The warning that goes with the status of a machine. -/
def warnings (m : Machine W) : List (Event W) :=
  match m.status with
  | .faulted f => [.faulted f]
  | _ => []

/-- One for a machine that faulted before it got to perform an instruction. -/
def uncounted (m : Machine W) : Nat :=
  match m.status with
  | .faulted f => if f.OfFetching m.program then 1 else 0
  | _ => 0

/-- The machine as a snapshot shows it, where one that has just faulted still counts as running. -/
def shown (m : Machine W) : Machine W :=
  match m.status with
  | .faulted _ => { m with status := .running }
  | _ => m

@[simp] theorem ofLevel_debug_warnings (m : Machine W) : Event.ofLevel .debug m.warnings = [] := by
  unfold warnings
  cases m.status <;> rfl

@[simp] theorem ofLevel_info_warnings (m : Machine W) : Event.ofLevel .info m.warnings = [] := by
  unfold warnings
  cases m.status <;> rfl

@[simp] theorem ofLevel_warn_warnings (m : Machine W) :
    Event.ofLevel .warn m.warnings = m.warnings := by
  unfold warnings
  cases m.status <;> rfl

@[simp] theorem countP_warnings (m : Machine W) : m.warnings.countP Event.isSnapshot = 0 := by
  unfold warnings
  cases m.status <;> rfl

theorem warnings_of_running {m : Machine W} (h : m.status = .running) : m.warnings = [] := by
  rw [warnings, h]

theorem uncounted_of_running {m : Machine W} (h : m.status = .running) : m.uncounted = 0 := by
  rw [uncounted, h]

variable [Writer W]

/-- What a step tells that finds a cell: its instruction if it can be fetched, the fault if there is
one, and the machine that it leaves. -/
def record (m : Machine W) : List (Event W) :=
  (match m.fetch with
    | .ok i => [.performing m.pc i]
    | .error _ => []) ++
  (match m.step.1 with
    | .error f => [.faulted f]
    | .ok _ => []) ++
  [.snapshot m.next.shown]

/-- The events of the first steps. -/
def log (m : Machine W) (n : Nat) : List (Event W) :=
  (List.range n).flatMap fun i => (m.after i).stepEvents

/-- All that a run tells that answers so after some steps. -/
def transcript (m : Machine W) (n : Nat) (r : Except Fault Completion) : List (Event W) :=
  m.program.listing.events ++ (m.log n ++ closingEvents r)

/-- A run within a number of steps, with its events. -/
def tracedFor (m : Machine W) (n : Nat) : Option (Trace W) :=
  (m.traceFor n).map fun t => { t with events := m.program.listing.events ++ t.events }

theorem trace_eq_tracedFor (m : Machine W) : m.trace = m.tracedFor m.stepBudget := rfl

section Step

variable {m m' : Machine W} {r : Except Fault Status} {i : Instruction} {a : Action W Control}
  {c : Cause} {s : Store W}

theorem stepEvents_of_ended (h : m.status ≠ .running) : m.stepEvents = [] :=
  if_neg fun hp => h hp.1

theorem stepEvents_of_exhausted (h : m.program.size ≤ m.pc) : m.stepEvents = [] :=
  if_neg fun hp => Nat.not_lt.2 h hp.2

theorem stepEvents_of_unfetched (hp : m.Pending) (hf : m.fetch = .error c) :
    m.stepEvents = [.faulted ⟨c, m.pc⟩, .snapshot m] := by
  refine (if_pos hp).trans ?_
  rw [hf, cycle_of_fetch_error hf]
  rfl

namespace Performs

theorem pending (h : m.Performs i a) : m.Pending := ⟨h.running, h.pc_lt⟩

theorem stepEvents_eq (h : m.Performs i a) :
    m.stepEvents = .performing m.pc i :: ((match (m.perform a i.size).1 with
      | .ok () => []
      | .error c => [.faulted ⟨c, m.pc⟩]) ++ [.snapshot (m.perform a i.size).2]) := by
  refine (if_pos h.pending).trans ?_
  rw [h.fetch, cycle_of_fetch_ok h.fetch h.action]
  rfl

theorem stepEvents_of_error (h : m.Performs i a) (hr : a.run m.store = .error c s) :
    m.stepEvents = [.performing m.pc i, .faulted ⟨c, m.pc⟩,
      .snapshot { m with steps := m.steps + 1, store := s }] := by
  rw [h.stepEvents_eq, perform_eq, hr]
  rfl

theorem stepEvents_of_ok {k : Control} (h : m.Performs i a) (hr : a.run m.store = .ok k s) :
    m.stepEvents = [.performing m.pc i, .snapshot m.next] := by
  rw [h.stepEvents_eq, perform_eq, hr, next, h.step_of_ok hr]
  rfl

end Performs

/-- The events of a step can be read off what the step reports and leaves. -/
theorem stepEvents_eq_record (hs : m.status = .running) :
    m.stepEvents = if m.pc < m.program.size then m.record else [] := by
  by_cases hpc : m.pc < m.program.size
  · rw [if_pos hpc]
    cases hf : m.fetch with
    | error c =>
      rw [stepEvents_of_unfetched ⟨hs, hpc⟩ hf, record, hf, next, step_of_unfetched hs hpc hf]
      rw [shown, ← hs]
      rfl
    | ok i =>
      obtain ⟨a, hp⟩ := exists_performs hs hpc hf
      cases hr : a.run m.store with
      | error c s =>
        rw [hp.stepEvents_of_error hr, record, hf, next, hp.step_of_error hr, shown, ← hs]
        rfl
      | ok k s =>
        rw [hp.stepEvents_of_ok hr, record, hf, next, hp.step_of_ok hr]
        cases k <;> simp [shown, advance, hs]
  · rw [if_neg hpc, stepEvents_of_exhausted (Nat.not_lt.1 hpc)]

/-- How the events of a step go with what the machine that it leaves counts. -/
inductive Reported (m m' : Machine W) : Prop
  | silent : m.stepEvents = [] → m'.steps = m.steps → m'.warnings = m.warnings →
      m'.uncounted = m.uncounted → Reported m m'
  | unfetched : m.Pending → m.stepEvents = m'.warnings ++ [.snapshot m] → m'.steps = m.steps →
      m'.uncounted = 1 → Reported m m'
  | performed {i : Instruction} {x : Machine W} : m.Pending → m.program.decode m.pc = .ok i →
      m.stepEvents = .performing m.pc i :: (m'.warnings ++ [.snapshot x]) →
      m'.steps = m.steps + 1 → m'.uncounted = 0 → Reported m m'

theorem Outcome.reported (ho : Outcome m r m') : Reported m m' := by
  cases ho with
  | halted hs => exact .silent (stepEvents_of_ended (by rw [hs]; exact nofun)) rfl rfl rfl
  | faulted hs => exact .silent (stepEvents_of_ended (by rw [hs]; exact nofun)) rfl rfl rfl
  | exhausted hs hpc =>
    refine .silent (stepEvents_of_exhausted hpc) rfl ?_ ?_
    · rw [warnings, warnings, hs]
    · rw [uncounted, uncounted, hs]
  | unfetched hs hpc hf =>
    exact .unfetched ⟨hs, hpc⟩ (stepEvents_of_unfetched ⟨hs, hpc⟩ hf) rfl
      (if_pos (ofFetching_of_fetch hf))
  | failed hp hr =>
    exact .performed hp.pending hp.decode (hp.stepEvents_of_error hr) rfl
      (if_neg (hp.not_ofFetching hr))
  | moved hp hr | jumped hp hr =>
    refine .performed (x := m.next) hp.pending hp.decode ?_ rfl (uncounted_of_running hp.running)
    rw [hp.stepEvents_of_ok hr, warnings_of_running]
    · rfl
    · exact hp.running
  | stopped hp hr => exact .performed hp.pending hp.decode (hp.stepEvents_of_ok hr) rfl rfl

end Step

section Log

variable {m : Machine W} {n : Nat}

theorem log_one (m : Machine W) : m.log 1 = m.stepEvents := by
  rw [log, List.range_one, List.flatMap_singleton, after]

theorem log_add (m : Machine W) (j k : Nat) : m.log (j + k) = m.log j ++ (m.after j).log k := by
  simp only [log, List.range_add, List.flatMap_append, List.flatMap_map, after_add]

theorem log_succ (m : Machine W) (n : Nat) :
    m.log (n + 1) = m.log n ++ (m.after n).stepEvents := by
  rw [log_add, log_one]

theorem log_of_ended (h : m.status ≠ .running) (n : Nat) : m.log n = [] := by
  refine List.flatMap_eq_nil_iff.2 fun i _ => ?_
  rw [after_of_ended h, stepEvents_of_ended h]

theorem log_of_le {j : Nat} (h : (m.after j).status ≠ .running) (hn : j ≤ n) :
    m.log n = m.log j := by
  obtain ⟨i, rfl⟩ := Nat.exists_eq_add_of_le hn
  rw [log_add, log_of_ended h, List.append_nil]

/-- A run reports as many instructions as it counts. -/
theorem length_debug_log (m : Machine W) (n : Nat) :
    (m.after n).steps = m.steps + (Event.ofLevel .debug (m.log n)).length := by
  induction n with
  | zero => rfl
  | succ n ih =>
    rw [log_succ, Event.ofLevel_append, List.length_append, after]
    cases (outcome_next (m.after n)).reported with
    | silent he hs => simp [he, hs, ih]
    | unfetched _ he hs => simp [he, hs, ih, Event.level]
    | performed _ _ he hs => simp [he, hs, ih, Event.level, Nat.add_assoc]

/-- Each at the address where the machine then was, and as it is decoded there. -/
theorem debug_log_eq (m : Machine W) (n : Nat) {k : Nat} {x : Event W}
    (h : (Event.ofLevel .debug (m.log n))[k]? = some x) :
    ∃ i, (m.after k).program.decode (m.after k).pc = .ok i ∧ x = .performing (m.after k).pc i := by
  induction n with
  | zero => cases h
  | succ n ih =>
    rw [log_succ, Event.ofLevel_append] at h
    cases (outcome_next (m.after n)).reported with
    | silent he => exact ih (by simpa [he] using h)
    | unfetched _ he => exact ih (by simpa [he, Event.level] using h)
    | @performed i _ hp hd he _ _ =>
      -- A machine that still runs has reported an instruction in each of its steps.
      have hn : (Event.ofLevel .debug (m.log n)).length = n := by
        have := length_debug_log m n
        rw [steps_after hp.1] at this
        exact (Nat.add_left_cancel this).symm
      have hx : Event.ofLevel .debug (m.after n).stepEvents = [.performing (m.after n).pc i] := by
        simp [he, Event.level]
      rw [hx, List.getElem?_append, hn] at h
      split at h
      · exact ih h
      · rw [List.getElem?_singleton] at h
        split at h
        · obtain rfl : k = n := by omega
          cases h
          exact ⟨i, hd, rfl⟩
        · cases h

theorem warn_log (m : Machine W) (n : Nat) :
    (m.after n).warnings = m.warnings ++ Event.ofLevel .warn (m.log n) := by
  induction n with
  | zero => simp [log, after]
  | succ n ih =>
    rw [log_succ, Event.ofLevel_append, ← List.append_assoc, ← ih, after]
    cases (outcome_next (m.after n)).reported with
    | silent he _ hw => simp [he, hw]
    | unfetched hp he => simp [he, warnings_of_running hp.1, Event.level]
    | performed hp _ he => simp [he, warnings_of_running hp.1, Event.level]

theorem info_log (m : Machine W) (n : Nat) : Event.ofLevel .info (m.log n) = [] := by
  induction n with
  | zero => rfl
  | succ n ih =>
    rw [log_succ, Event.ofLevel_append, ih]
    cases (outcome_next (m.after n)).reported with
    | silent he => simp [he]
    | unfetched _ he => simp [he, Event.level]
    | performed _ _ he => simp [he, Event.level]

theorem snapshots_log (m : Machine W) (n : Nat) :
    (m.after n).steps + (m.after n).uncounted =
      m.steps + m.uncounted + (m.log n).countP Event.isSnapshot := by
  induction n with
  | zero => rfl
  | succ n ih =>
    rw [log_succ, List.countP_append, ← Nat.add_assoc, ← ih, after]
    cases (outcome_next (m.after n)).reported with
    | silent he hs _ hu => simp [he, hs, hu]
    | unfetched hp he hs hu => simp [he, hs, hu, uncounted_of_running hp.1, Event.isSnapshot]
    | performed hp _ he hs hu => simp [he, hs, hu, uncounted_of_running hp.1, Event.isSnapshot]

theorem traceFor_succ (m : Machine W) (n : Nat) :
    m.traceFor (n + 1) = match m.next.answer? with
      | some r => some ⟨m.stepEvents ++ closingEvents r, r, m.next⟩
      | none => (m.next.traceFor n).map fun t => { t with events := m.stepEvents ++ t.events } := by
  rw [traceFor, step_eq, answer?]
  cases m.next.status <;> rfl

/-- A traced run is the run, with the events of its steps and the one that closes it. -/
theorem traceFor_eq (m : Machine W) (n : Nat) :
    m.traceFor n = (m.runFor n).map fun (r, e) => ⟨m.log n ++ closingEvents r, r, e⟩ := by
  induction n generalizing m with
  | zero => rfl
  | succ n ih =>
    rw [traceFor_succ, runFor_succ, Nat.add_comm, log_add, log_one, after, after]
    cases ha : m.next.answer? with
    | some r => simp [log_of_ended (ended_of_answer? ha)]
    | none => simp [ih, Function.comp_def]

theorem tracedFor_eq (m : Machine W) (n : Nat) :
    m.tracedFor n = (m.runFor n).map fun (r, e) => ⟨m.transcript n r, r, e⟩ := by
  rw [tracedFor, traceFor_eq, Option.map_map]
  rfl

end Log

section Transcript

variable {m : Machine W} {n : Nat} {r : Except Fault Completion}

theorem ofLevel_transcript {v : Level} (hv : v ≠ .trace) :
    Event.ofLevel v (m.transcript n r) =
      Event.ofLevel v (m.log n) ++ Event.ofLevel v (closingEvents r) := by
  rw [transcript, Event.ofLevel_append, Listing.ofLevel_events _ hv, Event.ofLevel_append,
    List.nil_append]

theorem debug_transcript :
    Event.ofLevel .debug (m.transcript n r) = Event.ofLevel .debug (m.log n) := by
  rw [ofLevel_transcript (by decide)]
  cases r <;> exact List.append_nil _

theorem length_debug_transcript (h0 : m.steps = 0) :
    (Event.ofLevel .debug (m.transcript n r)).length = (m.after n).steps := by
  rw [debug_transcript, length_debug_log, h0, Nat.zero_add]

theorem info_transcript : Event.ofLevel .info (m.transcript n r) = closingEvents r := by
  rw [ofLevel_transcript (by decide), info_log]
  cases r <;> rfl

theorem warn_transcript (h : m.status = .running) :
    Event.ofLevel .warn (m.transcript n r) = (m.after n).warnings := by
  rw [ofLevel_transcript (by decide), warn_log, warnings_of_running h, List.nil_append]
  cases r <;> exact List.append_nil _

theorem snapshots_transcript (h : m.status = .running) (h0 : m.steps = 0) :
    (m.transcript n r).countP Event.isSnapshot = (m.after n).steps + (m.after n).uncounted := by
  rw [snapshots_log, h0, uncounted_of_running h, Nat.zero_add, transcript, List.countP_append,
    Listing.countP_events, Nat.zero_add, List.countP_append]
  cases r <;> rfl

/-- A run has the same to tell however many steps it is given beyond the last one that it makes. -/
theorem tracedFor_of_last {j : Nat} (hj : (m.after j).status = .running)
    (ha : (m.after (j + 1)).answer? = some r) (k : Nat) :
    m.tracedFor k = (m.runFor k).map fun _ => ⟨m.transcript (j + 1) r, r, m.after (j + 1)⟩ := by
  have h0 : m.status = .running := running_of_le hj j.zero_le
  rw [tracedFor_eq]
  cases hk : m.runFor k with
  | none => rfl
  | some x =>
    obtain ⟨r', e⟩ := x
    obtain ⟨rfl, hr⟩ := (runFor_eq_some_iff h0).1 hk
    have hend := ended_of_answer? ha
    have he : m.after k = m.after (j + 1) := after_eq_of_ended (ended_of_answer? hr) hend
    have hle : j + 1 ≤ k := by
      by_contra hlt
      exact ended_of_answer? hr (running_of_le hj (by omega))
    obtain rfl : r = r' := by
      rw [he, ha] at hr
      exact Option.some.inj hr
    simp only [Option.map_some, he, transcript, log_of_le hend hle]

end Transcript

end Machine

end StackMachine
