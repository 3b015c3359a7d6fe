import StackMachine.Proofs.Definedness
import StackMachine.Proofs.Output

/-! What a fault leaves behind. Nothing is taken back: cells that an instruction popped before it
failed are gone, and what a writer took of a text was printed. All else is as it was. Most
instructions fail before they change anything (`Atomic`); those that pop first lose cells, and
`Opcode.lost` tells how many by the cause. -/

namespace StackMachine

variable {W : Type}

instance : DecidablePred Opcode.IsBinary
  | .add | .sub | .mul | .div | .eq | .lt | .gt => isTrue trivial
  | .push | .pop | .dup | .swap | .print | .jmp | .jz | .jnz | .alloc | .load | .store | .halt =>
    isFalse id

/-- How many cells are gone from a stack of some depth when an operation has failed. A binary one
has taken the only cell that there was, or both if the division by the first is the cause; a store
has taken the cell that it has no variable for, a conditional jump the one that it went by. -/
def Opcode.lost (depth : Nat) (op : Opcode) : Cause → Nat
  | .stackUnderflow => if op.IsBinary ∧ depth = 1 then 1 else 0
  | .divisionByZero => if op = .div then 2 else 0
  | .indexOutOfRange _ => if op = .store then 1 else 0
  | .outOfBounds _ => if op = .jz ∨ op = .jnz then 1 else 0
  | _ => 0

/-- A fault that comes from looking for an instruction: the step limit, or nothing to decode. -/
def Fault.OfFetching (p : Program) (f : Fault) : Prop :=
  (∃ k, f.cause = .stepLimit k) ∨ p.decode f.address = .error f.cause

instance (c : Cause) : Decidable (∃ k, c = .stepLimit k) :=
  match c with
  | .stepLimit k => isTrue ⟨k, rfl⟩
  | .stackUnderflow | .stackOverflow | .indexOutOfRange _ | .readBeforeAllocation _
  | .divisionByZero | .unknownInstruction _ | .outOfBounds _ | .output _ => isFalse nofun

instance (p : Program) (f : Fault) : Decidable (f.OfFetching p) :=
  inferInstanceAs (Decidable (_ ∨ _))

namespace Action

variable {α β : Type}

/-- An action that fails leaves the store as it was. -/
def Atomic (a : Action W α) : Prop := ∀ s c t, a.run s = .error c t → t = s

theorem left_peek (s : Store W) : peek.left s = s := by
  rw [left, run_peek]
  cases s.stack.peek <;> rfl

theorem left_load (i : Cell) (s : Store W) : (load i).left s = s := by
  rw [left, run_load]
  cases s.vars.load i <;> rfl

namespace Atomic

theorem pure (x : α) : Atomic (Pure.pure x : Action W α) := nofun

theorem push (v : Cell) : Atomic (W := W) (push v) := by
  intro s c t hr
  rw [run_push] at hr
  split at hr <;> cases hr
  rfl

theorem pop : Atomic (W := W) pop := by
  intro s c t hr
  rw [run_pop] at hr
  split at hr <;> cases hr
  rfl

theorem swap : Atomic (W := W) swap := by
  intro s c t hr
  rw [run_swap] at hr
  split at hr <;> cases hr
  rfl

theorem store (i v : Cell) : Atomic (W := W) (store i v) := by
  intro s c t hr
  rw [run_store] at hr
  split at hr <;> cases hr
  rfl

theorem jump (n : Nat) (v : Cell) : Atomic (W := W) (jump n v) := by
  intro s c t hr
  rw [run_jump] at hr
  split at hr
  · cases hr
    rfl
  · split at hr <;> cases hr
    rfl

theorem bind_pure {a : Action W α} (ha : Atomic a) (x : β) :
    Atomic (a >>= fun _ => Pure.pure x) := by
  intro s c t hr
  rw [EStateM.run_bind] at hr
  cases h : a.run s with
  | ok y u => rw [h] at hr; cases hr
  | error d u => rw [h] at hr; cases hr; exact ha s c t h

theorem bind {a : Action W α} {f : α → Action W β} (ha : ∀ s, a.left s = s)
    (hf : ∀ x, Atomic (f x)) : Atomic (a >>= f) := by
  intro s c t hr
  have hs := ha s
  unfold left at hs
  rw [EStateM.run_bind] at hr
  cases h : a.run s with
  | ok x u =>
    rw [h] at hr hs
    subst hs
    exact hf x u c t hr
  | error d u =>
    rw [h] at hr hs
    cases hr
    exact hs

end Atomic

end Action

open StackMachine.Action

/-- The store has so many cells less on its stack and the same variables. -/
def Store.Lacks (k : Nat) (s t : Store W) : Prop :=
  t.stack.cells = s.stack.cells.drop k ∧ t.vars = s.vars

theorem Action.Atomic.lacks {α : Type} {a : Action W α} {c : Cause} {s t : Store W} {k : Nat}
    (h : Atomic a) (hr : a.run s = .error c t) (hk : k = 0) : s.Lacks k t := by
  rw [hk, h s c t hr]
  exact ⟨rfl, rfl⟩

section

variable {f : Cell → Action W Control} {c : Cause} {s t : Store W}

/-- What pops first and then does all or nothing lacks the top in the end, unless there was none. -/
theorem Action.lacks_of_pop_bind (hf : ∀ v, Atomic (f v)) (hr : (pop >>= f).run s = .error c t) :
    (c = .stackUnderflow ∧ s.Lacks 0 t) ∨ ∃ v u, (f v).run u = .error c t ∧ s.Lacks 1 t := by
  obtain ⟨⟨room, _ | ⟨v, r⟩⟩, vars, sink⟩ := s
  · cases hr
    exact .inl ⟨rfl, rfl, rfl⟩
  · change (f v).run ⟨⟨room + 1, r⟩, vars, sink⟩ = .error c t at hr
    refine .inr ⟨v, _, hr, ?_⟩
    rw [hf v _ c t hr]
    exact ⟨rfl, rfl⟩

theorem Action.eq_outOfBounds_of_jump {n : Nat} {v : Cell} (hr : (jump n v).run s = .error c t) :
    c = .outOfBounds v.toInt64 := by
  rw [run_jump] at hr
  split at hr
  · cases hr
    rfl
  · split at hr <;> cases hr
    rfl

theorem Action.eq_indexOutOfRange_of_store {v x : Cell}
    (hr : (store v x >>= fun _ => pure Control.next).run s = .error c t) :
    c = .indexOutOfRange v := by
  rw [EStateM.run_bind, run_store] at hr
  cases h : s.vars.store v x with
  | ok m => rw [h] at hr; cases hr
  | error d =>
    rw [h] at hr
    cases hr
    exact (Variables.store_eq_error_iff.1 h).1

theorem Action.lacks_of_binary {op : Opcode} (hop : op.IsBinary) {g : Cell → Cell → Cell}
    (hr : (binary fun a b => pure (g a b)).run s = .error c t) :
    s.Lacks (op.lost s.stack.depth c) t := by
  rw [run_binary_pure] at hr
  obtain ⟨⟨room, _ | ⟨a, _ | ⟨b, r⟩⟩⟩, vars, sink⟩ := s <;> cases hr
  · exact ⟨List.drop_nil.symm, rfl⟩
  · simp [Store.Lacks, Opcode.lost, hop, Stack.depth]

theorem Action.lacks_of_divide (hr : (binary divide).run s = .error c t) :
    s.Lacks (Opcode.div.lost s.stack.depth c) t := by
  rw [run_binary_divide] at hr
  obtain ⟨⟨room, _ | ⟨a, _ | ⟨b, r⟩⟩⟩, vars, sink⟩ := s
  · cases hr
    exact ⟨rfl, rfl⟩
  · cases hr
    exact ⟨rfl, rfl⟩
  · dsimp only at hr
    split at hr <;> cases hr
    exact ⟨rfl, rfl⟩

end

theorem Fault.OfFetching.not_output {p : Program} {f : Fault} (hf : f.OfFetching p) (e : String) :
    f.cause ≠ .output e := by
  intro hc
  rcases hf with ⟨k, hk⟩ | hd
  · rw [hc] at hk
    cases hk
  · simp [hc, Program.decode_eq_error_iff] at hd

namespace Machine

variable {m m' : Machine W} {f : Fault}

theorem stack_of_lacks {k : Nat} (h : m.store.Lacks k m'.store) :
    m'.stack = m.stack.take (m.stack.length - k) := by
  unfold stack Stack.toList
  rw [h.1, List.reverse_drop, List.length_reverse]

def lost (m : Machine W) (c : Cause) : Nat :=
  match m.program.decode m.pc with
  | .ok i => i.opcode.lost m.stack.length c
  | .error _ => 0

theorem ofFetching_of_fetch {c : Cause} (hf : m.fetch = .error c) :
    Fault.OfFetching m.program ⟨c, m.pc⟩ := by
  rcases fetch_eq_error_iff.1 hf with ⟨k, -, -, rfl⟩ | ⟨-, hd⟩
  · exact .inl ⟨k, rfl⟩
  · exact .inr hd

theorem lost_of_fetching (hf : f.OfFetching m.program) (ha : f.address = m.pc) :
    m.lost f.cause = 0 := by
  unfold lost
  rcases hf with ⟨k, hk⟩ | hd
  · rw [hk]
    cases m.program.decode m.pc <;> rfl
  · rw [← ha, hd]

end Machine

variable [Writer W] {n : Nat} {i : Instruction} {a : Action W Control} {c : Cause} {s t : Store W}

/-- However an instruction fails, the cells that are lost are the topmost ones, and the variables are
as they were. -/
theorem Instruction.lacks_of_error (ha : i.action? n = some a) (hr : a.run s = .error c t) :
    s.Lacks (i.opcode.lost s.stack.depth c) t := by
  cases i with
  | withOperand op v =>
    cases op
    case push =>
      cases ha
      exact ((Atomic.push v).bind_pure _).lacks hr (by cases c <;> rfl)
    case jmp =>
      cases ha
      exact (Atomic.jump n v).lacks hr (by cases c <;> rfl)
    case jz =>
      cases ha
      have hf : ∀ x : Cell, Atomic (W := W) (if x = 0 then jump n v else pure .next) := by
        intro x
        split
        · exact .jump n v
        · exact .pure _
      obtain ⟨rfl, hl⟩ | ⟨x, u, hx, hl⟩ := lacks_of_pop_bind hf hr
      · exact hl
      · split at hx
        · obtain rfl := eq_outOfBounds_of_jump hx
          exact hl
        · cases hx
    case jnz =>
      cases ha
      have hf : ∀ x : Cell, Atomic (W := W) (if x = 0 then pure .next else jump n v) := by
        intro x
        split
        · exact .pure _
        · exact .jump n v
      obtain ⟨rfl, hl⟩ | ⟨x, u, hx, hl⟩ := lacks_of_pop_bind hf hr
      · exact hl
      · split at hx
        · cases hx
        · obtain rfl := eq_outOfBounds_of_jump hx
          exact hl
    case alloc =>
      cases ha
      exact ((Atomic.store v 0).bind_pure _).lacks hr (by cases c <;> rfl)
    case load =>
      cases ha
      have hl : Atomic (W := W) (load v >>= fun x => push x >>= fun _ => pure Control.next) :=
        .bind (left_load v) fun x => (Atomic.push x).bind_pure _
      exact hl.lacks hr (by cases c <;> rfl)
    case store =>
      cases ha
      obtain ⟨rfl, hl⟩ | ⟨x, u, hx, hl⟩ :=
        lacks_of_pop_bind (fun x => (Atomic.store v x).bind_pure _) hr
      · exact hl
      · obtain rfl := eq_indexOutOfRange_of_store hx
        exact hl
    all_goals cases ha
  | plain op =>
    cases op
    case pop =>
      cases ha
      exact (Atomic.pop.bind_pure _).lacks hr (by cases c <;> rfl)
    case div => cases ha; exact lacks_of_divide hr
    case dup =>
      cases ha
      have hl : Atomic (W := W) (peek >>= fun x => push x >>= fun _ => pure Control.next) :=
        .bind left_peek fun x => (Atomic.push x).bind_pure _
      exact hl.lacks hr (by cases c <;> rfl)
    case swap =>
      cases ha
      exact (Atomic.swap.bind_pure _).lacks hr (by cases c <;> rfl)
    case print =>
      rw [run_print ha] at hr
      split at hr
      · cases hr
        exact ⟨rfl, rfl⟩
      · split at hr <;> cases hr
        exact ⟨rfl, rfl⟩
    case halt => cases ha; cases hr
    case add | sub | mul | eq | lt | gt =>
      cases ha
      exact lacks_of_binary trivial hr
    all_goals cases ha

theorem Instruction.sink_of_error (ha : i.action? n = some a) (hr : a.run s = .error c t)
    (hc : ∀ e, c ≠ .output e) : t.sink = s.sink := by
  by_cases hi : i = .plain .print
  · subst hi
    rw [run_print ha] at hr
    split at hr
    · cases hr
      rfl
    · split at hr <;> cases hr
      exact absurd rfl (hc _)
  · have hl := Instruction.sink_left ha hi s
    rwa [Action.left, hr] at hl

namespace Machine

variable {m m' : Machine W} {f : Fault}

theorem Performs.not_ofFetching {i : Instruction} {a : Action W Control} {c : Cause} {s : Store W}
    (hp : m.Performs i a) (hr : a.run m.store = .error c s) :
    ¬ Fault.OfFetching m.program ⟨c, m.pc⟩ := by
  rintro (⟨k, rfl⟩ | hd)
  · exact ((Store.stable_sameShape.ends_action hp.action).error hr).2 trivial
  · rw [hp.decode] at hd
    cases hd

/-- A step faults before it performs an instruction, and then the machine has but a new status, or
while it performs one. -/
theorem Outcome.fetching_or_failed (ho : Outcome m (.error f) m') (hs : m.status = .running) :
    (f.address = m.pc ∧ f.OfFetching m.program ∧ m' = { m with status := .faulted f }) ∨
      ¬ f.OfFetching m.program ∧ ∃ i a s, m.Performs i a ∧ a.run m.store = .error f.cause s ∧
        m' = { m with steps := m.steps + 1, store := s, status := .faulted f } := by
  cases ho with
  | faulted h =>
    rw [hs] at h
    cases h
  | unfetched _ _ hf => exact .inl ⟨rfl, ofFetching_of_fetch hf, rfl⟩
  | failed hp hr => exact .inr ⟨hp.not_ofFetching hr, _, _, _, hp, hr, rfl⟩

theorem Performs.lost_eq {i : Instruction} {a : Action W Control} (hp : m.Performs i a) (c : Cause) :
    m.lost c = i.opcode.lost m.store.stack.depth c := by
  rw [lost, hp.decode, stack, Stack.length_toList]

end Machine

end StackMachine
