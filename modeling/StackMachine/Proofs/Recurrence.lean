import Mathlib
import StackMachine.Proofs.Output
import StackMachine.Proofs.StepLimit

/-! Halting told from repetition. Without a step limit, and with a writer that never fails, what a
machine does from now on depends on its configuration alone: on its address, its stack and its
variables (`after_alike`). There are only so many configurations (`card_configuration`), so a
machine that has not ended after as many steps has been in one of them twice, and then it runs for
ever (`halts_or_repeats`). -/

namespace StackMachine

variable {W : Type}

theorem Cell.card_eq : Fintype.card Cell = 2 ^ 32 :=
  FinEnum.card_eq_fintypeCard.symm

namespace Machine

section Count

variable {p : Program} {l : Limits} {m n : Machine W}

/-- Machines at the same address that hold the same. -/
def SameConfiguration (m n : Machine W) : Prop :=
  m.pc = n.pc ∧ m.stack = n.stack ∧ m.vars = n.vars

/-- An address or the end of a program, a stack within its capacity and as many variables as there
are. -/
abbrev Configuration (p : Program) (l : Limits) : Type :=
  Fin (p.size + 1) × (Σ k : Fin (l.stackCapacity + 1), List.Vector Cell k) ×
    List.Vector (Option Cell) l.variableCount

theorem card_configuration (p : Program) (l : Limits) :
    Fintype.card (Configuration p l) =
      (p.size + 1) * (∑ k ∈ Finset.range (l.stackCapacity + 1), 2 ^ (32 * k)) *
        (2 ^ 32 + 1) ^ l.variableCount := by
  have hsum : ∑ k : Fin (l.stackCapacity + 1), (2 ^ 32) ^ (k : Nat) =
      ∑ k ∈ Finset.range (l.stackCapacity + 1), 2 ^ (32 * k) := by
    rw [Fin.sum_univ_eq_sum_range fun k => (2 ^ 32) ^ k]
    exact Finset.sum_congr rfl fun k _ => (pow_mul 2 32 k).symm
  simp only [Fintype.card_prod, Fintype.card_fin, Fintype.card_sigma, card_vector,
    Fintype.card_option, Cell.card_eq]
  rw [hsum, mul_assoc]

def Valid.configuration (h : Valid p l m) : Configuration p l :=
  (⟨m.pc, Nat.lt_succ_of_le h.pc_le⟩,
    ⟨⟨m.stack.length, by
      rw [stack, Stack.length_toList, ← h.capacity]
      exact Nat.lt_succ_of_le m.store.stack.depth_le_capacity⟩, ⟨m.stack, rfl⟩⟩,
    ⟨m.vars.slots.toList, h.size_vars⟩)

theorem sameConfiguration_of_eq {hm : Valid p l m} {hn : Valid p l n}
    (h : hm.configuration = hn.configuration) : SameConfiguration m n := by
  refine ⟨?_, ?_, ?_⟩
  · exact congrArg (fun c => (c.1 : Nat)) h
  · exact congrArg (fun c => c.2.1.2.toList) h
  · have hv : m.vars.slots.toList = n.vars.slots.toList := congrArg (fun c => c.2.2.toList) h
    have hs := Array.toList_inj.1 hv
    cases hmv : m.vars
    cases hnv : n.vars
    rw [hmv, hnv] at hs
    exact congrArg Variables.mk hs

end Count

end Machine

variable [Writer W]

namespace Writer

/-- Whatever a writer was told, it takes the next text whole. -/
def Reliable (w : W) : Prop :=
  ∀ (told : List (List Char)) (text : List Char),
    (write (told.foldl (fun w t => (write w t).2) w) text).1 = .ok ()

theorem Reliable.write_eq {w : W} (h : Reliable w) (text : List Char) :
    write w text = (.ok (), (write w text).2) :=
  Prod.ext (h [] text) rfl

theorem Reliable.write {w : W} (h : Reliable w) (text : List Char) :
    Reliable (Writer.write w text).2 :=
  fun told => h (text :: told)

end Writer

theorem Sink.reliable_of_unlimited {s : Sink} (hc : s.chunk ≠ some 0) (hr : s.room = none) :
    Writer.Reliable s := by
  have hw : ∀ {s : Sink}, s.chunk ≠ some 0 → s.room = none → ∀ text,
      s.write text = (.ok (), s.take text) := by
    intro s hc hr text
    exact write_of_fits hc fun k hk => by simp [hr] at hk
  intro told
  induction told generalizing s with
  | nil =>
    intro text
    exact congrArg Prod.fst (hw hc hr text)
  | cons t told ih =>
    intro text
    rw [List.foldl_cons, show Writer.write s t = s.write t from rfl, hw hc hr]
    exact ih (s := s.take t) hc (by rw [take, hr, Option.map_none]) text

open StackMachine.Action

abbrev Store.SameContents : Store W → Store W → Prop :=
  Store.SinksWithin fun v w => Writer.Reliable v ∧ Writer.Reliable w

theorem Store.print_sameContents (v : Cell) :
    Matches (W := W) Store.SameContents (fun _ => False) (print v) (print v) := by
  rintro s t ⟨hs, hv, hsw, htw⟩
  rw [run_print, run_print, hsw.write_eq, htw.write_eq]
  exact ⟨_, rfl, hs, hv, hsw.write _, htw.write _⟩

namespace Machine

def withSteps (m : Machine W) (k : Nat) : Machine W := { m with steps := k }

section

variable {m n : Machine W} {r : Except Fault Status}

omit [Writer W] in
theorem fetch_withSteps (h0 : m.maxSteps = none) (k : Nat) : (m.withSteps k).fetch = m.fetch := by
  simp only [fetch, withSteps, h0]

theorem Performs.withSteps {i : Instruction} {a : Action W Control} (hp : m.Performs i a)
    (h0 : m.maxSteps = none) (k : Nat) : (m.withSteps k).Performs i a where
  running := hp.running
  pc_lt := hp.pc_lt
  fetch := (fetch_withSteps h0 k).trans hp.fetch
  action := hp.action

theorem Outcome.withSteps (ho : Outcome m r n) (h0 : m.maxSteps = none) (k : Nat) :
    ∃ k', Outcome (m.withSteps k) r (n.withSteps k') := by
  cases ho with
  | halted h => exact ⟨k, .halted h⟩
  | faulted h => exact ⟨k, .faulted h⟩
  | exhausted h hpc => exact ⟨k, .exhausted h hpc⟩
  | unfetched h hpc hf => exact ⟨k, .unfetched h hpc ((fetch_withSteps h0 k).trans hf)⟩
  | failed hp hr => exact ⟨k + 1, .failed (hp.withSteps h0 k) hr⟩
  | moved hp hr => exact ⟨k + 1, .moved (hp.withSteps h0 k) hr⟩
  | jumped hp hr => exact ⟨k + 1, .jumped (hp.withSteps h0 k) hr⟩
  | stopped hp hr => exact ⟨k + 1, .stopped (hp.withSteps h0 k) hr⟩

theorem next_withSteps (h0 : m.maxSteps = none) (k : Nat) :
    ∃ k', (m.withSteps k).next = m.next.withSteps k' := by
  obtain ⟨k', ho⟩ := (outcome_next m).withSteps h0 k
  exact ⟨k', by rw [next, step_of_outcome ho]⟩

/-- Machines that differ in their counts of steps and in what their writers were told. -/
def Alike (m n : Machine W) : Prop := ∃ k x, InStep Store.SameContents m x ∧ n = x.withSteps k

theorem Alike.status (h : Alike m n) : n.status = m.status := by
  obtain ⟨k, _, ⟨t, rfl, -⟩, rfl⟩ := h
  rfl

theorem Alike.next (h : Alike m n) (h0 : m.maxSteps = none) : Alike m.next n.next := by
  obtain ⟨k, x, hx, rfl⟩ := h
  have hx0 : x.maxSteps = none := by
    obtain ⟨t, rfl, -⟩ := hx
    exact h0
  obtain ⟨k', hk⟩ := next_withSteps hx0 k
  refine ⟨k', x.next, ?_, hk⟩
  rcases hx.next (Store.simulation_of_sinks _ _) Store.print_sameContents with hf | hn
  · obtain ⟨_, _, _, _, -, -, hf⟩ := hf
    exact hf.elim
  · exact hn

theorem after_alike (h : Alike m n) (h0 : ∀ i, (m.after i).maxSteps = none) (i : Nat) :
    Alike (m.after i) (n.after i) := by
  induction i with
  | zero => exact h
  | succ i ih => exact ih.next (h0 i)

theorem reliable_after (h : Writer.Reliable m.store.sink) (i : Nat) :
    Writer.Reliable (m.after i).store.sink := by
  induction i with
  | zero => exact h
  | succ i ih =>
    rw [after, sink_next]
    cases (m.after i).printing? with
    | none => exact ih
    | some v => exact ih.write _

end

section

variable {p : Program} {l : Limits} {m n : Machine W}

theorem SameConfiguration.alike (h : SameConfiguration m n) (hm : Valid p l m) (hn : Valid p l n)
    (hs : m.status = n.status) (hmw : Writer.Reliable m.store.sink)
    (hnw : Writer.Reliable n.store.sink) : Alike m n := by
  obtain ⟨hpc, hstack, hvars⟩ := h
  have hcells : n.store.stack.cells = m.store.stack.cells :=
    (List.reverse_injective hstack).symm
  have hroom : n.store.stack.room = m.store.stack.room := by
    have hc := hn.capacity.trans hm.capacity.symm
    rw [Stack.capacity, Stack.capacity, Stack.depth, Stack.depth, hcells] at hc
    omega
  refine ⟨n.steps, m.withStore n.store, ⟨n.store, rfl, ?_, hvars.symm, hmw, hnw⟩, ?_⟩
  · generalize n.store.stack = s at hcells hroom
    cases s
    simp only at hcells hroom
    rw [hcells, hroom]
  · have hprogram := hn.program.trans hm.program.symm
    have hlimit := hn.maxSteps.trans hm.maxSteps.symm
    obtain ⟨program, maxSteps, status, pc, steps, store⟩ := n
    simp only at hprogram hlimit hs hpc
    rw [withStore, withSteps, hs, hpc, hprogram, hlimit]

end

section Start

variable {p : Program} {l : Limits} {w : W}

/-- Among more machines than there are configurations, two have the same one. -/
theorem exists_sameConfiguration (p : Program) (l : Limits) (w : W) :
    ∃ j k, j < k ∧ k ≤ Fintype.card (Configuration p l) ∧
      SameConfiguration ((start p l w).after j) ((start p l w).after k) := by
  let code (i : Fin (Fintype.card (Configuration p l) + 1)) := (valid_after p l w i).configuration
  have hcard : Fintype.card (Configuration p l) <
      Fintype.card (Fin (Fintype.card (Configuration p l) + 1)) := by
    rw [Fintype.card_fin]
    exact Nat.lt_succ_self _
  obtain ⟨i, j, hne, hij⟩ := Fintype.exists_ne_map_eq_of_card_lt code hcard
  rcases Nat.lt_or_gt_of_ne (Fin.val_ne_of_ne hne) with h | h
  · exact ⟨i, j, h, Nat.le_of_lt_succ j.isLt, sameConfiguration_of_eq hij⟩
  · exact ⟨j, i, h, Nat.le_of_lt_succ i.isLt, sameConfiguration_of_eq hij.symm⟩

theorem running_of_sameConfiguration (h0 : l.maxSteps = none) (hw : Writer.Reliable w) {j k : Nat}
    (hjk : j < k) (hk : ((start p l w).after k).status = .running)
    (h : SameConfiguration ((start p l w).after j) ((start p l w).after k)) (n : Nat) :
    ((start p l w).after n).status = .running := by
  have hj := running_of_le hk hjk.le
  have halike := h.alike (valid_after p l w j) (valid_after p l w k) (hj.trans hk.symm)
    (reliable_after hw j) (reliable_after hw k)
  have hlimit : ∀ i, (((start p l w).after j).after i).maxSteps = none := by
    intro i
    rw [← after_add]
    exact (valid_after p l w (j + i)).maxSteps.trans h0
  induction n using Nat.strong_induction_on with
  | _ n ih =>
    -- past the repetition, a step is one that was made a period earlier
    rcases Nat.le_total n k with hn | hn
    · exact running_of_le hk hn
    · obtain ⟨i, rfl⟩ := Nat.exists_eq_add_of_le hn
      have hsame := (after_alike halike hlimit i).status
      rw [← after_add, ← after_add] at hsame
      rw [hsame]
      exact ih (j + i) (by omega)

theorem run_limitTo_of_running (h0 : l.maxSteps = none)
    (h : ∀ n, ((start p l w).after n).status = .running) (n : Nat) :
    ((start p l w).limitTo n).run =
      some (.error ⟨.stepLimit n, ((start p l w).after n).pc⟩,
        ((start p l w).after n).exceed n) :=
  run_limitTo_of_pending h0 (pending_of_lt (h (n + 1)) n.lt_succ_self)

/-- Without a step limit, and with a writer that never fails, a run either ends, and then within
as many steps as there are configurations, or it is in one configuration twice. In this case every
step reports a running machine, and every step limit is exceeded. -/
theorem halts_or_repeats (p : Program) (l : Limits) (h0 : l.maxSteps = none) (w : W)
    (hw : Writer.Reliable w) :
    let m := (start p l w).after
    let bound := (p.size + 1) * (∑ k ∈ Finset.range (l.stackCapacity + 1), 2 ^ (32 * k)) *
      (2 ^ 32 + 1) ^ l.variableCount
    let halts := ∃ n, (m n).status ≠ .running
    let repeats := ∃ j k, j ≠ k ∧ (m j).status = .running ∧ (m k).status = .running ∧
      (m j).pc = (m k).pc ∧ (m j).stack = (m k).stack ∧ (m j).vars = (m k).vars
    (halts ∧ ¬ repeats ∨ repeats ∧ ¬ halts) ∧
      (halts → (m bound).status ≠ .running) ∧
      (repeats → (∀ n, (m n).step.1 = .ok .running) ∧
        ∀ n, ∃ a e, (start p { l with maxSteps := some n } w).run =
          some (.error ⟨.stepLimit n, a⟩, e)) := by
  intro m bound halts repeats
  have hforever : repeats → ∀ n, (m n).status = .running := by
    rintro ⟨j, k, hne, hj, hk, h⟩
    rcases Nat.lt_or_gt_of_ne hne with hlt | hgt
    · exact running_of_sameConfiguration h0 hw hlt hk h
    · exact running_of_sameConfiguration h0 hw hgt hj ⟨h.1.symm, h.2.1.symm, h.2.2.symm⟩
  have hrepeats : (m bound).status = .running → repeats := by
    intro hs
    obtain ⟨j, k, hlt, hle, h⟩ := exists_sameConfiguration p l w
    rw [card_configuration] at hle
    have hk := running_of_le hs hle
    exact ⟨j, k, hlt.ne, running_of_le hk hlt.le, hk, h⟩
  have hexcl : repeats → ¬ halts := fun hr ⟨n, hn⟩ => hn (hforever hr n)
  refine ⟨?_, ?_, ?_⟩
  · by_cases hs : (m bound).status = .running
    · exact .inr ⟨hrepeats hs, hexcl (hrepeats hs)⟩
    · exact .inl ⟨⟨bound, hs⟩, fun hr => hs (hforever hr bound)⟩
  · intro hh hs
    exact hexcl (hrepeats hs) hh
  · intro hr
    refine ⟨?_, ?_⟩
    · intro n
      have hn : (m n).next.status = .running := hforever hr (n + 1)
      rw [step_eq, hn]
      rfl
    · intro n
      exact ⟨_, _, run_limitTo_of_running h0 (hforever hr) n⟩

/-- A program that prints for ever is back where it started after four steps. -/
theorem halts_or_repeats_printing :
    let l : Limits := { stackCapacity := 1, variableCount := 0 }
    (l.maxSteps = none ∧ Writer.Reliable Sink.unbounded) ∧
      (∀ n, ((start #[0, 7, 8, 1, 9, 0] l Sink.unbounded).after n).step.1 = .ok .running) ∧
      ∀ n, ∃ a e, (start #[0, 7, 8, 1, 9, 0] { l with maxSteps := some n } Sink.unbounded).run =
        some (.error ⟨.stepLimit n, a⟩, e) := by
  intro l
  have hw : Writer.Reliable Sink.unbounded := Sink.reliable_of_unlimited (by decide) rfl
  refine ⟨⟨rfl, hw⟩, ?_⟩
  refine (halts_or_repeats #[0, 7, 8, 1, 9, 0] l rfl Sink.unbounded hw).2.2 ?_
  exact ⟨0, 4, by decide, by decide +kernel, by decide +kernel, by decide +kernel,
    by decide +kernel, by decide +kernel⟩

end Start

end Machine

end StackMachine
