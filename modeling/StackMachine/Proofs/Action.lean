import StackMachine.Semantics

/-! What holds of every action that an instruction stands for. Such actions are built from a few
elementary ones by sequencing, so a relation between stores that these keep is kept by all
(`Stable.ends_action`). Along the way go the values and the causes that an action can end with. -/

namespace StackMachine

variable {W : Type}

/-- The causes that come from looking for an instruction and never from performing one. -/
def Cause.BeforePerforming : Cause → Prop
  | unknownInstruction _ | stepLimit _ => True
  | _ => False

/-- The operand of a jump. -/
def Instruction.target? : Instruction → Option Cell
  | withOperand .jmp t | withOperand .jz t | withOperand .jnz t => some t
  | _ => none

/-- Where an instruction of a program of `n` cells may send execution. -/
def Control.Suits (n : Nat) (i : Instruction) : Control → Prop
  | next => True
  | jump t => t ≤ n ∧ i.target?.bind Cell.index? = some t
  | halt => i = .plain .halt

namespace Action

variable {α β : Type}

/-- However the action ends, the store has changed within `R`; it ends with a value in `P` or with a
cause that performing can have. -/
def Ends (R : Store W → Store W → Prop) (P : α → Prop) (a : Action W α) : Prop :=
  ∀ s, match a.run s with
    | .ok x t => R s t ∧ P x
    | .error c t => R s t ∧ ¬ c.BeforePerforming

namespace Ends

variable {R : Store W → Store W → Prop} {P Q : α → Prop} {a : Action W α} {s t : Store W}

theorem ok {x : α} (h : Ends R P a) (hr : a.run s = .ok x t) : R s t ∧ P x := by
  have := h s
  rwa [hr] at this

theorem error {c : Cause} (h : Ends R P a) (hr : a.run s = .error c t) :
    R s t ∧ ¬ c.BeforePerforming := by
  have := h s
  rwa [hr] at this

end Ends

/-- A relation that holds along every elementary change of a store. -/
structure Stable [Writer W] (R : Store W → Store W → Prop) : Prop where
  refl : ∀ s, R s s
  trans : ∀ {s t u}, R s t → R t u → R s u
  push : ∀ {s v t}, s.stack.push v = .ok t → R s { s with stack := t }
  pop : ∀ {s v t}, s.stack.pop = .ok (v, t) → R s { s with stack := t }
  swap : ∀ {s t}, s.stack.swap = .ok t → R s { s with stack := t }
  store : ∀ {s i v t}, s.vars.store i v = .ok t → R s { s with vars := t }
  write : ∀ {s v r t}, Writer.write s.sink (printed v) = (r, t) → R s { s with sink := t }

/-- A relation that holds along every elementary change of the stack and the sink. Variables may
change otherwise, and that matters for `ALLOC` and `STORE` alone. -/
structure NearlyStable [Writer W] (R : Store W → Store W → Prop) : Prop where
  refl : ∀ s, R s s
  trans : ∀ {s t u}, R s t → R t u → R s u
  push : ∀ {s v t}, s.stack.push v = .ok t → R s { s with stack := t }
  pop : ∀ {s v t}, s.stack.pop = .ok (v, t) → R s { s with stack := t }
  swap : ∀ {s t}, s.stack.swap = .ok t → R s { s with stack := t }
  write : ∀ {s v r t}, Writer.write s.sink (printed v) = (r, t) → R s { s with sink := t }

namespace NearlyStable

variable [Writer W] {R : Store W → Store W → Prop} {P : α → Prop} {Q : β → Prop}
  (h : NearlyStable R)

include h

theorem ends_pure {x : α} (hx : P x) : Ends R P (Pure.pure x : Action W α) :=
  fun s => ⟨h.refl s, hx⟩

theorem ends_throw {c : Cause} (hc : ¬ c.BeforePerforming) : Ends R P (throw c : Action W α) :=
  fun s => ⟨h.refl s, hc⟩

theorem ends_bind {a : Action W α} {f : α → Action W β} (ha : Ends R P a)
    (hf : ∀ x, P x → Ends R Q (f x)) : Ends R Q (a >>= f) := by
  intro s
  rw [EStateM.run_bind]
  cases hr : a.run s with
  | error c t => exact ha.error hr
  | ok x t =>
    obtain ⟨hst, hp⟩ := ha.ok hr
    dsimp only
    cases hq : (f x).run t with
    | ok y u => exact ⟨h.trans hst ((hf x hp).ok hq).1, ((hf x hp).ok hq).2⟩
    | error c u => exact ⟨h.trans hst ((hf x hp).error hq).1, ((hf x hp).error hq).2⟩

/-! The elementary actions. Each asks one component of the store and faults with what that says. -/

theorem ends_push (v : Cell) : Ends R (fun _ => True) (Action.push v) := by
  intro s
  rw [run_push]
  cases hp : s.stack.push v with
  | ok t => exact ⟨h.push hp, trivial⟩
  | error c =>
    obtain ⟨rfl, -⟩ := Stack.push_eq_error_iff.1 hp
    exact ⟨h.refl s, id⟩

theorem ends_pop : Ends R (fun _ => True) Action.pop := by
  intro s
  rw [run_pop]
  cases hp : s.stack.pop with
  | ok t => exact ⟨h.pop hp, trivial⟩
  | error c =>
    obtain ⟨rfl, -⟩ := Stack.pop_eq_error_iff.1 hp
    exact ⟨h.refl s, id⟩

theorem ends_peek : Ends R (fun _ => True) Action.peek := by
  intro s
  rw [run_peek]
  cases hp : s.stack.peek with
  | ok t => exact ⟨h.refl s, trivial⟩
  | error c =>
    obtain ⟨rfl, -⟩ := Stack.peek_eq_error_iff.1 hp
    exact ⟨h.refl s, id⟩

theorem ends_swap : Ends R (fun _ => True) Action.swap := by
  intro s
  rw [run_swap]
  cases hp : s.stack.swap with
  | ok t => exact ⟨h.swap hp, trivial⟩
  | error c =>
    obtain ⟨rfl, -⟩ := Stack.swap_eq_error_iff.1 hp
    exact ⟨h.refl s, id⟩

theorem ends_load (i : Cell) : Ends R (fun _ => True) (Action.load i) := by
  intro s
  rw [run_load]
  cases hp : s.vars.load i with
  | ok t => exact ⟨h.refl s, trivial⟩
  | error c =>
    obtain ⟨rfl, -⟩ | ⟨k, -, -, rfl⟩ := Variables.load_eq_error_iff.1 hp
    · exact ⟨h.refl s, id⟩
    · exact ⟨h.refl s, id⟩

theorem ends_print (v : Cell) : Ends R (fun _ => True) (Action.print v) := by
  intro s
  rw [run_print]
  cases hp : Writer.write s.sink (printed v) with
  | mk r t =>
    cases r with
    | ok u => exact ⟨h.write hp, trivial⟩
    | error e => exact ⟨h.write hp, id⟩

theorem ends_divide (a b : Cell) : Ends R (fun _ => True) (Action.divide a b) := by
  unfold Action.divide
  split
  · exact h.ends_throw id
  · exact h.ends_pure trivial

theorem ends_binary {f : Cell → Cell → Action W Cell} {n : Nat} {i : Instruction}
    (hf : ∀ a b, Ends R (fun _ => True) (f a b)) : Ends R (Control.Suits n i) (binary f) :=
  h.ends_bind h.ends_pop fun _ _ => h.ends_bind h.ends_pop fun _ _ =>
    h.ends_bind (hf _ _) fun _ _ => h.ends_bind (h.ends_push _) fun _ _ => h.ends_pure trivial

theorem ends_jump {n : Nat} {i : Instruction} {t : Cell} (hi : i.target? = some t) :
    Ends R (Control.Suits n i) (jump n t) := by
  unfold jump
  cases ht : t.index? with
  | none => exact h.ends_throw id
  | some k =>
    dsimp only
    split
    · rename_i hk
      exact h.ends_pure ⟨hk, by rw [hi, Option.bind_some, ht]⟩
    · exact h.ends_throw id

theorem ends_action {n : Nat} {i : Instruction} {a : Action W Control}
    (hs : ∀ v, i = .withOperand .alloc v ∨ i = .withOperand .store v →
      ∀ x, Ends R (fun _ => True) (Action.store v x))
    (ha : i.action? n = some a) : Ends R (Control.Suits n i) a := by
  cases i with
  | withOperand op v =>
    cases op
    case push =>
      cases ha
      exact h.ends_bind (h.ends_push v) fun _ _ => h.ends_pure trivial
    case jmp => cases ha; exact h.ends_jump rfl
    case jz =>
      cases ha
      refine h.ends_bind h.ends_pop fun x _ => ?_
      split
      · exact h.ends_jump rfl
      · exact h.ends_pure trivial
    case jnz =>
      cases ha
      refine h.ends_bind h.ends_pop fun x _ => ?_
      split
      · exact h.ends_pure trivial
      · exact h.ends_jump rfl
    case alloc =>
      cases ha
      exact h.ends_bind (hs v (.inl rfl) 0) fun _ _ => h.ends_pure trivial
    case load =>
      cases ha
      exact h.ends_bind (h.ends_load v) fun x _ =>
        h.ends_bind (h.ends_push x) fun _ _ => h.ends_pure trivial
    case store =>
      cases ha
      exact h.ends_bind h.ends_pop fun x _ =>
        h.ends_bind (hs v (.inr rfl) x) fun _ _ => h.ends_pure trivial
    all_goals cases ha
  | plain op =>
    cases op
    case pop => cases ha; exact h.ends_bind h.ends_pop fun _ _ => h.ends_pure trivial
    case div => cases ha; exact h.ends_binary h.ends_divide
    case dup =>
      cases ha
      exact h.ends_bind h.ends_peek fun x _ =>
        h.ends_bind (h.ends_push x) fun _ _ => h.ends_pure trivial
    case swap => cases ha; exact h.ends_bind h.ends_swap fun _ _ => h.ends_pure trivial
    case print =>
      cases ha
      exact h.ends_bind h.ends_peek fun x _ =>
        h.ends_bind (h.ends_print x) fun _ _ => h.ends_pure trivial
    case halt => cases ha; exact h.ends_pure rfl
    case add | sub | mul | eq | lt | gt =>
      cases ha
      exact h.ends_binary fun _ _ => h.ends_pure trivial
    all_goals cases ha

end NearlyStable

namespace Stable

variable [Writer W] {R : Store W → Store W → Prop} (h : Stable R)

include h

theorem nearly : NearlyStable R :=
  ⟨h.refl, h.trans, h.push, h.pop, h.swap, h.write⟩

theorem ends_store (i v : Cell) : Ends R (fun _ => True) (Action.store i v) := by
  intro s
  rw [run_store]
  cases hp : s.vars.store i v with
  | ok t => exact ⟨h.store hp, trivial⟩
  | error c =>
    obtain ⟨rfl, -⟩ := Variables.store_eq_error_iff.1 hp
    exact ⟨h.refl s, id⟩

theorem ends_action {n : Nat} {i : Instruction} {a : Action W Control} (ha : i.action? n = some a) :
    Ends R (Control.Suits n i) a :=
  h.nearly.ends_action (fun v _ => h.ends_store v) ha

end Stable

end Action

end StackMachine
