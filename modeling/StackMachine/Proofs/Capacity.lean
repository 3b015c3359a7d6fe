import StackMachine.Proofs.Simulation

/-! A machine with more places. With more room on its stack and more variables a machine goes the
same way as before (`after_enlarge`), up to a fault that says that a place was lacking: every other
check asks what the places hold and not how many there are. -/

namespace StackMachine

variable {W : Type}

/-- The causes that tell of a missing place: on the stack or among the variables. -/
def Cause.OfSize : Cause → Prop
  | stackOverflow | indexOutOfRange _ => True
  | _ => False

namespace Stack

def widen (s : Stack) (k : Nat) : Stack := ⟨s.room + k, s.cells⟩

variable {s t : Stack} (k : Nat)

theorem push_widen {v : Cell} (h : s.push v = .ok t) : (s.widen k).push v = .ok (t.widen k) := by
  obtain ⟨_ | room, cells⟩ := s
  · cases h
  · cases h
    rw [widen, Nat.add_right_comm]
    rfl

theorem pop_widen (s : Stack) :
    (s.widen k).pop = s.pop.map fun (v, t) => (v, t.widen k) := by
  obtain ⟨room, _ | ⟨a, r⟩⟩ := s
  · rfl
  · simp only [widen, pop, Except.map, Nat.add_right_comm]

theorem peek_widen (s : Stack) : (s.widen k).peek = s.peek := by
  obtain ⟨room, _ | ⟨a, r⟩⟩ := s <;> rfl

theorem swap_widen (s : Stack) : (s.widen k).swap = s.swap.map (widen · k) := by
  obtain ⟨room, _ | ⟨a, _ | ⟨b, r⟩⟩⟩ := s <;> rfl

end Stack

namespace Variables

/-- The same variables and then some that hold nothing. -/
def grow (m : Variables) (k : Nat) : Variables := ⟨m.slots ++ Array.replicate k none⟩

variable {m n : Variables} {w v : Cell} (k : Nat)

theorem getElem?_grow {i : Nat} {x : Option Cell} (h : m.slots[i]? = some x) :
    (m.grow k).slots[i]? = some x :=
  (Array.getElem?_append_left (Array.getElem?_eq_some_iff.1 h).1).trans h

theorem load_grow (h : m.load w = .ok v) : (m.grow k).load w = .ok v := by
  obtain ⟨i, hw, hs⟩ := load_eq_ok_iff.1 h
  exact load_eq_ok_iff.2 ⟨i, hw, getElem?_grow k hs⟩

theorem load_grow_error {c : Cause} (h : m.load w = .error c) (hc : ¬ c.OfSize) :
    (m.grow k).load w = .error c := by
  rcases load_eq_error_iff.1 h with ⟨rfl, -⟩ | ⟨i, hw, hs, rfl⟩
  · exact absurd trivial hc
  · exact load_eq_error_iff.2 (.inr ⟨i, hw, getElem?_grow k hs, rfl⟩)

theorem store_grow (h : m.store w v = .ok n) : (m.grow k).store w v = .ok (n.grow k) := by
  obtain ⟨i, hw, hi, rfl⟩ := store_eq_ok_iff.1 h
  refine store_eq_ok_iff.2 ⟨i, hw, ?_, ?_⟩
  · simp only [grow, size, Array.size_append]
    exact Nat.lt_add_right _ hi
  · simp only [grow, Array.setIfInBounds_append_left hi]

theorem ofSize_grow (n : Nat) : (ofSize n).grow k = ofSize (n + k) := by
  simp only [grow, ofSize, Array.replicate_append_replicate]

end Variables

def Store.enlarge (s : Store W) (j k : Nat) : Store W := ⟨s.stack.widen j, s.vars.grow k, s.sink⟩

open StackMachine.Action

theorem Store.simulation_enlarge (j k : Nat) :
    Simulation (W := W) (fun s t => t = s.enlarge j k) Cause.OfSize where
  push v := by
    rintro s _ rfl
    rw [run_push, run_push]
    cases h : s.stack.push v with
    | ok t =>
      refine ⟨_, ?_, rfl⟩
      rw [enlarge, Stack.push_widen j h]
      rfl
    | error c =>
      obtain ⟨rfl, -⟩ := Stack.push_eq_error_iff.1 h
      exact .inl trivial
  pop := by
    rintro s _ rfl
    rw [run_pop, run_pop, enlarge, Stack.pop_widen]
    cases s.stack.pop with
    | ok r => exact ⟨_, rfl, rfl⟩
    | error c => exact .inr ⟨_, rfl, rfl⟩
  peek := by
    rintro s _ rfl
    rw [run_peek, run_peek, enlarge, Stack.peek_widen]
    cases s.stack.peek with
    | ok v => exact ⟨_, rfl, rfl⟩
    | error c => exact .inr ⟨_, rfl, rfl⟩
  swap := by
    rintro s _ rfl
    rw [run_swap, run_swap, enlarge, Stack.swap_widen]
    cases s.stack.swap with
    | ok t => exact ⟨_, rfl, rfl⟩
    | error c => exact .inr ⟨_, rfl, rfl⟩
  load i := by
    rintro s _ rfl
    rw [run_load, run_load]
    cases h : s.vars.load i with
    | ok v => exact ⟨_, by rw [enlarge, Variables.load_grow k h], rfl⟩
    | error c =>
      by_cases hc : c.OfSize
      · exact .inl hc
      · exact .inr ⟨_, by rw [enlarge, Variables.load_grow_error k h hc], rfl⟩
  store i v := by
    rintro s _ rfl
    rw [run_store, run_store]
    cases h : s.vars.store i v with
    | ok t =>
      refine ⟨_, ?_, rfl⟩
      rw [enlarge, Variables.store_grow k h]
      rfl
    | error c =>
      obtain ⟨rfl, -⟩ := Variables.store_eq_error_iff.1 h
      exact .inl trivial

theorem Store.print_enlarge [Writer W] (j k : Nat) (v : Cell) :
    Matches (W := W) (fun s t => t = s.enlarge j k) Cause.OfSize (print v) (print v) := by
  rintro s _ rfl
  rw [run_print, run_print, enlarge]
  cases Writer.write s.sink (printed v) with
  | mk r w =>
    cases r with
    | ok u => exact ⟨_, rfl, rfl⟩
    | error e => exact .inr ⟨_, rfl, rfl⟩

namespace Machine

section

variable {p : Program} {l l' : Limits} {w : W}

theorem start_enlarge (hs : l.stackCapacity ≤ l'.stackCapacity)
    (hv : l.variableCount ≤ l'.variableCount) (hm : l'.maxSteps = l.maxSteps) :
    start p l' w = (start p l w).withStore ((start p l w).store.enlarge
      (l'.stackCapacity - l.stackCapacity) (l'.variableCount - l.variableCount)) := by
  have hstack : Stack.empty l'.stackCapacity =
      (Stack.empty l.stackCapacity).widen (l'.stackCapacity - l.stackCapacity) := by
    rw [Stack.empty, Stack.empty, Stack.widen, Nat.add_sub_cancel' hs]
  simp only [start, withStore, Store.enlarge, hm, hstack, Variables.ofSize_grow,
    Nat.add_sub_cancel' hv]

variable [Writer W]

theorem after_enlarge (hs : l.stackCapacity ≤ l'.stackCapacity)
    (hv : l.variableCount ≤ l'.variableCount) (hm : l'.maxSteps = l.maxSteps) {n : Nat}
    (hn : ∀ f, ((start p l w).after n).status = .faulted f → ¬ f.cause.OfSize) :
    (start p l' w).after n = ((start p l w).after n).withStore
      (((start p l w).after n).store.enlarge (l'.stackCapacity - l.stackCapacity)
        (l'.variableCount - l.variableCount)) := by
  have hstep := InStep.after (Store.simulation_enlarge _ _) (Store.print_enlarge _ _)
    ⟨_, start_enlarge (p := p) (w := w) hs hv hm, rfl⟩ n
  rcases hstep with ⟨t, ht, rfl⟩ | ⟨j, hj, -, hf⟩
  · exact ht
  · obtain ⟨-, c, hc, hst⟩ := hf.after hj
    exact absurd hc (hn _ hst)

end

variable [Writer W]

/-- With larger limits, the one on steps apart, a machine is after any number of steps where it was
with the smaller ones, unless these made it fault for want of a place. It holds the same, in
variables that are followed by some that hold nothing. So every run that ends in another way ends
alike. -/
theorem larger_limits_agree (p : Program) (l l' : Limits) (w : W)
    (hs : l.stackCapacity ≤ l'.stackCapacity) (hv : l.variableCount ≤ l'.variableCount)
    (hm : l'.maxSteps = l.maxSteps) :
    (∀ n,
      let m := (start p l w).after n
      let m' := (start p l' w).after n
      (∀ f, m.status = .faulted f → ¬ f.cause.OfSize) →
        m'.status = m.status ∧ m'.pc = m.pc ∧ m'.steps = m.steps ∧ m'.stack = m.stack ∧
        m'.output = m.output ∧
        m'.vars.slots =
          m.vars.slots ++ Array.replicate (l'.variableCount - l.variableCount) none) ∧
    ∀ k r e, (start p l w).runFor k = some (r, e) → (∀ f, r = .error f → ¬ f.cause.OfSize) →
      ∃ e', (start p l' w).runFor k = some (r, e') ∧ e'.output = e.output := by
  refine ⟨?_, ?_⟩
  · intro n m m' hn
    have h := after_enlarge (p := p) (w := w) hs hv hm hn
    change m' = m.withStore _ at h
    rw [h]
    exact ⟨rfl, rfl, rfl, rfl, rfl, rfl⟩
  · intro k r e hk hr
    obtain ⟨rfl, ha⟩ := (runFor_eq_some_iff rfl).1 hk
    have hn : ∀ f, ((start p l w).after k).status = .faulted f → ¬ f.cause.OfSize := by
      intro f hf
      refine hr f ?_
      rw [answer?, hf] at ha
      exact (Option.some.inj ha).symm
    refine ⟨_, (runFor_eq_some_iff rfl).2 ⟨(after_enlarge hs hv hm hn).symm, ?_⟩, rfl⟩
    exact ha

/-- A variable that was never stored to is missed no less where there are more of them. -/
theorem larger_limits_agree_load :
    let l : Limits := { stackCapacity := 1, variableCount := 2 }
    let l' : Limits := { stackCapacity := 3, variableCount := 5 }
    (l.stackCapacity ≤ l'.stackCapacity ∧ l.variableCount ≤ l'.variableCount) ∧
      ∃ e, (start #[0, 7, 17, 0, 16, 1] l' Sink.unbounded).runFor 3 =
        some (.error ⟨.readBeforeAllocation 1, 4⟩, e) ∧ e.output = "" := by
  intro l l'
  refine ⟨by decide, ?_⟩
  refine (larger_limits_agree #[0, 7, 17, 0, 16, 1] l l' Sink.unbounded (by decide) (by decide)
    rfl).2 3 _ _ rfl ?_
  rintro f h
  cases h
  exact id

end Machine

end StackMachine
