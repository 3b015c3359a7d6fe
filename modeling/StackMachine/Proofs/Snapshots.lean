import StackMachine.Proofs.Layout
import StackMachine.Proofs.Record
import StackMachine.Proofs.StepLimit

/-! The dumps that a run gives on its way, against the dumps of a machine that is stepped. Each step
that finds a cell gives one dump, so the dumps of a run are those of its first machines, without a
gap (`exists_dumps_log`). A dump is taken when the step has done its work but before a fault counts,
and this shows in the heading alone. -/

namespace StackMachine

variable {W : Type}

/-- The texts of the dumps among some events, in their order. -/
def dumps (es : List (Event W)) : List String :=
  (es.filter fun x => x.level = .trace ∧ x.isSnapshot).map Event.message

theorem dumps_append (es es' : List (Event W)) : dumps (es ++ es') = dumps es ++ dumps es' := by
  rw [dumps, List.filter_append, List.map_append, dumps, dumps]

theorem dumps_listing (l : Listing) : dumps (l.events (W := W)) = [] := by
  refine List.map_eq_nil_iff.2 (List.filter_eq_nil_iff.2 fun x hx => ?_)
  simp [(Listing.mem_events hx).2]

namespace Machine

/-- The dump of a machine, but for the step count and the status in the heading. -/
def dumpAs (m : Machine W) (steps : Nat) (status : String) : String :=
  "IP: " ++ m.pc.repr ++ "\tSteps: " ++ steps.repr ++ "\t" ++ status ++ "\n" ++
    String.ofList ((Dump.table m.stack m.vars.slots.toList).lines.flatMap (· ++ ['\n']))

theorem dump_eq_dumpAs (m : Machine W) : m.dump = m.dumpAs m.steps m.status.text :=
  m.dump_eq_headLine

theorem dump_shown_of_faulted {m : Machine W} {f : Fault} (h : m.status = .faulted f) :
    m.shown.dump = m.dumpAs m.steps "Running." := by
  rw [shown, h, dump_eq_dumpAs]
  rfl

theorem dump_shown_of_not_faulted {m : Machine W} (h : ∀ f, m.status ≠ .faulted f) :
    m.shown.dump = m.dump := by
  unfold shown
  split
  · exact absurd ‹_› (h _)
  · rfl

variable [Writer W] {m : Machine W}

/-- All that a run has told when it has made so many steps. -/
def told (m : Machine W) (n : Nat) : List (Event W) := m.program.listing.events ++ m.log n

theorem dumps_told (m : Machine W) (n : Nat) : dumps (m.told n) = dumps (m.log n) := by
  rw [told, dumps_append, dumps_listing, List.nil_append]

theorem transcript_eq_told (m : Machine W) (n : Nat) (r : Except Fault Completion) :
    m.transcript n r = m.told n ++ closingEvents r := by
  rw [transcript, told, List.append_assoc]

theorem dumps_told_closing (m : Machine W) (n : Nat) (r : Except Fault Completion) :
    dumps (m.told n ++ closingEvents r) = dumps (m.told n) := by
  rw [dumps_append]
  cases r <;> exact List.append_nil _

theorem dumps_stepEvents_of_pending (h : m.Pending) :
    dumps m.stepEvents = ["\n" ++ m.next.shown.dump] := by
  rw [stepEvents_eq_record h.1, if_pos h.2, record, dumps_append, dumps_append]
  cases m.fetch <;> cases m.step.1 <;> rfl

theorem stepEvents_of_not_pending (h : ¬ m.Pending) : m.stepEvents = [] :=
  if_neg h

theorem exists_dumps_log (m : Machine W) (n : Nat) :
    ∃ j, (∀ k, k < j ↔ k < n ∧ (m.after k).Pending) ∧
      dumps (m.log n) = (List.range j).map fun k => "\n" ++ (m.after (k + 1)).shown.dump := by
  induction n with
  | zero => exact ⟨0, by simp, rfl⟩
  | succ n ih =>
    obtain ⟨j, hj, hd⟩ := ih
    rw [log_succ, dumps_append, hd]
    by_cases h : (m.after n).Pending
    · -- A machine that gets as far as this found a cell in every step before.
      obtain rfl : j = n := by
        have hlt : ∀ k < n, k < j := fun k hk => (hj k).2 ⟨hk, pending_of_lt h.1 hk⟩
        have hle : ¬ n < j := fun hn => Nat.lt_irrefl n ((hj n).1 hn).1
        exact Nat.le_antisymm (Nat.not_lt.1 hle) (Nat.not_lt.1 fun hn => Nat.lt_irrefl j (hlt j hn))
      refine ⟨j + 1, ?_, ?_⟩
      · intro k
        rw [Nat.lt_succ_iff]
        refine ⟨fun hk => ⟨hk, ?_⟩, fun hk => hk.1⟩
        rcases Nat.lt_or_eq_of_le hk with hlt | rfl
        · exact ((hj k).1 hlt).2
        · exact h
      · rw [dumps_stepEvents_of_pending h, List.range_succ, List.map_append]
        rfl
    · refine ⟨j, ?_, ?_⟩
      · intro k
        rw [hj, Nat.lt_succ_iff]
        refine ⟨fun hk => ⟨Nat.le_of_lt hk.1, hk.2⟩, fun hk => ⟨?_, hk.2⟩⟩
        refine Nat.lt_of_le_of_ne hk.1 ?_
        rintro rfl
        exact h hk.2
      · rw [stepEvents_of_not_pending h]
        exact List.append_nil _

theorem getElem?_dumps_told {n k : Nat} {x : String} :
    (dumps (m.told n))[k]? = some x ↔
      k < n ∧ (m.after k).Pending ∧ x = "\n" ++ (m.after (k + 1)).shown.dump := by
  obtain ⟨j, hj, hd⟩ := exists_dumps_log m n
  rw [dumps_told, hd, List.getElem?_map, Option.map_eq_some_iff, ← and_assoc, ← hj k]
  constructor
  · rintro ⟨i, hi, rfl⟩
    obtain ⟨hlt, rfl⟩ := List.getElem?_eq_some_iff.1 hi
    exact ⟨by simpa only [List.length_range] using hlt, by rw [List.getElem_range]⟩
  · rintro ⟨hk, rfl⟩
    exact ⟨k, List.getElem?_range hk, rfl⟩

theorem steps_next_of_pending (h : m.Pending) :
    m.next.steps = if m.fetch.isOk then m.steps + 1 else m.steps := by
  cases hf : m.fetch with
  | error c => rw [next, step_of_unfetched h.1 h.2 hf]; rfl
  | ok i =>
    obtain ⟨a, hp⟩ := exists_performs h.1 h.2 hf
    cases hr : a.run m.store with
    | error c s => rw [next, hp.step_of_error hr]; rfl
    | ok k s => rw [next, hp.step_of_ok hr]; cases k <;> rfl

theorem statusText_next_of_pending (h : m.Pending) (hne : ∀ f, m.step.1 ≠ .error f) :
    m.next.status.text =
      if m.next.status = .running then "Running." else "Halted (Instruction)." := by
  cases hf : m.fetch with
  | error c => exact absurd (congrArg Prod.fst (step_of_unfetched h.1 h.2 hf)) (hne _)
  | ok i =>
    obtain ⟨a, hp⟩ := exists_performs h.1 h.2 hf
    cases hr : a.run m.store with
    | error c s => exact absurd (congrArg Prod.fst (hp.step_of_error hr)) (hne _)
    | ok k s =>
      rw [next, hp.step_of_ok hr]
      cases k with
      | next | jump t =>
        simp only [advance, h.1]
        rfl
      | halt => rfl

/-- Whatever a run tells, its dumps are those of the machine after one step, after two steps, and so
on for as long as the steps find a cell. Only if the step before it faults, a dump still calls the
machine running; in all else it is that of the faulted machine. The heading counts the step unless
that failed before its instruction was there. -/
theorem traced_dumps_agree (p : Program) (l : Limits) (w : W) :
    let run := start p l w
    let m := run.after
    run.trace = run.tracedFor run.stepBudget ∧
    (∀ n, run.tracedFor n =
      (run.runFor n).map fun (r, e) => ⟨run.told n ++ closingEvents r, r, e⟩) ∧
    (∀ n r, dumps (run.told n ++ closingEvents r) = dumps (run.told n)) ∧
    ∀ n k, (k < n ∧ (m k).Pending ↔ ∃ x, (dumps (run.told n))[k]? = some x) ∧
      ∀ x, (dumps (run.told n))[k]? = some x →
        let count := if (m k).fetch.isOk then k + 1 else k
        let status :=
          if (m (k + 1)).status = .running then "Running." else "Halted (Instruction)."
        (m (k + 1)).steps = count ∧
        ((∀ f, (m k).step.1 ≠ .error f) →
          x = "\n" ++ (m (k + 1)).dump ∧ (m (k + 1)).dump = (m (k + 1)).dumpAs count status) ∧
        ∀ f, (m k).step.1 = .error f →
          x = "\n" ++ (m (k + 1)).dumpAs count "Running." ∧
          (m (k + 1)).dump = (m (k + 1)).dumpAs count ("Faulted: " ++ f.message ++ ".") := by
  intro run m
  refine ⟨trace_eq_tracedFor run, ?_, dumps_told_closing run, ?_⟩
  · intro n
    simp only [tracedFor_eq, transcript_eq_told]
  · intro n k
    refine ⟨⟨fun h => ⟨_, getElem?_dumps_told.2 ⟨h.1, h.2, rfl⟩⟩, ?_⟩, ?_⟩
    · rintro ⟨x, hx⟩
      obtain ⟨hk, hp, -⟩ := getElem?_dumps_told.1 hx
      exact ⟨hk, hp⟩
    · intro x hx count status
      obtain ⟨-, hp, rfl⟩ := getElem?_dumps_told.1 hx
      have hreport : (m k).step.1 = (m (k + 1)).status.report := by rw [step_eq]; rfl
      have hcount : (m (k + 1)).steps = count := by
        have hsteps := steps_next_of_pending hp
        rwa [steps_after_start hp.1] at hsteps
      refine ⟨hcount, ?_, ?_⟩
      · intro hne
        have htext : (m (k + 1)).status.text = status := statusText_next_of_pending hp hne
        refine ⟨?_, by rw [dump_eq_dumpAs, hcount, htext]⟩
        refine congrArg ("\n" ++ ·) (dump_shown_of_not_faulted fun f hf => hne f ?_)
        rw [hreport]
        exact Status.report_eq_error_iff.2 hf
      · intro f hf
        rw [hreport, Status.report_eq_error_iff] at hf
        rw [← hcount]
        exact ⟨congrArg ("\n" ++ ·) (dump_shown_of_faulted hf), by rw [dump_eq_dumpAs, hf]; rfl⟩

set_option maxRecDepth 4000 in
/-- The second step finds an unknown cell. It is not counted, and while the machine has faulted then,
the dump in its trace calls it running. -/
theorem traced_dumps_agree_unknown :
    let run := start #[0, 5, 99] { variableCount := 1 } Sink.unbounded
    ∃ (t : Trace) (table : Block), run.tracedFor 2 = some t ∧
      (dumps t.events)[1]? =
        some ("\nIP: 2\tSteps: 1\tRunning.\n" ++ String.ofList (table.flatMap (· ++ ['\n']))) ∧
      (run.after 2).dump = "IP: 2\tSteps: 1\tFaulted: unknown instruction 99 at ip 2.\n" ++
        String.ofList (table.flatMap (· ++ ['\n'])) ∧
      table.map String.ofList = [
        "  Stack                       │ Variables               ",
        " ─────────────────────────────┼──────────────────────── ",
        "         Address │ Contents   │   Address │ Contents    ",
        "   ──────────────┼──────────  │  ─────────┼──────────   ",
        "    * --> S[0] = │ 5          │    M[0] = │ `           ",
        "   ──────────────┴──────────  │  ─────────┴──────────   ",
        " ─────────────────────────────┴──────────────────────── "] := by
  intro run
  obtain ⟨-, htraced, hclosing, hdumps⟩ :=
    traced_dumps_agree #[0, 5, 99] { variableCount := 1 } Sink.unbounded
  obtain ⟨hex, hall⟩ := hdumps 2 1
  obtain ⟨x, hx⟩ := hex.1 ⟨by decide, by decide, by decide⟩
  obtain ⟨-, -, hfault⟩ := hall x hx
  obtain ⟨htext, hdump⟩ := hfault ⟨.unknownInstruction 99, 2⟩ rfl
  have hrun : run.runFor 2 = some (.error ⟨.unknownInstruction 99, 2⟩, run.after 2) := rfl
  refine ⟨_, (Dump.table [5] [none]).lines, by rw [htraced, hrun]; rfl, ?_, ?_, by rfl⟩
  · rw [hclosing, hx, htext, dumpAs, ← String.append_assoc]
    exact congrArg (fun heading => some (heading ++ _)) (by decide +kernel)
  · rw [hdump, dumpAs]
    exact congrArg (· ++ _) (by decide +kernel)

end Machine

end StackMachine
