import StackMachine.Proofs.Run

/-! Two machines in lock step. They run the same program and differ in what they work on alone: in
the places that their stores have, or in where their text goes. A relation between the stores that
every elementary action keeps is kept by every step, with all else equal, up to a step of the first
machine that fails by a cause which is exempted (`InStep.next`, `InStep.after`). -/

namespace StackMachine

variable {W W' : Type}

namespace Action

variable {α β : Type}

/-- From related stores the two actions end alike and leave related stores, unless the first one
fails by a cause in `E`. -/
def Matches (R : Store W → Store W' → Prop) (E : Cause → Prop) (a : Action W α)
    (b : Action W' α) : Prop :=
  ∀ s t, R s t → match a.run s with
    | .ok x s' => ∃ t', b.run t = .ok x t' ∧ R s' t'
    | .error c s' => E c ∨ ∃ t', b.run t = .error c t' ∧ R s' t'

namespace Matches

variable {R : Store W → Store W' → Prop} {E : Cause → Prop} {a : Action W α} {b : Action W' α}
  {s s' : Store W} {t : Store W'}

theorem ok {x : α} (h : Matches R E a b) (hR : R s t) (hr : a.run s = .ok x s') :
    ∃ t', b.run t = .ok x t' ∧ R s' t' := by
  have := h s t hR
  rwa [hr] at this

theorem error {c : Cause} (h : Matches R E a b) (hR : R s t) (hr : a.run s = .error c s') :
    E c ∨ ∃ t', b.run t = .error c t' ∧ R s' t' := by
  have := h s t hR
  rwa [hr] at this

theorem pure (x : α) : Matches R E (Pure.pure x) (Pure.pure x) :=
  fun _ t hR => ⟨t, rfl, hR⟩

theorem throw (c : Cause) : Matches R E (throw c : Action W α) (throw c) :=
  fun _ t hR => .inr ⟨t, rfl, hR⟩

theorem bind {f : α → Action W β} {g : α → Action W' β} (ha : Matches R E a b)
    (hf : ∀ x, Matches R E (f x) (g x)) : Matches R E (a >>= f) (b >>= g) := by
  intro s t hR
  rw [EStateM.run_bind, EStateM.run_bind]
  cases hr : a.run s with
  | error c s' =>
    rcases ha.error hR hr with he | ⟨t', ht, hR'⟩
    · exact .inl he
    · exact .inr ⟨t', by rw [ht], hR'⟩
  | ok x s' =>
    obtain ⟨t', ht, hR'⟩ := ha.ok hR hr
    rw [ht]
    exact hf x s' t' hR'

theorem jump (n : Nat) (v : Cell) : Matches R E (jump n v) (jump n v) := by
  unfold Action.jump
  cases v.index? with
  | none => exact throw _
  | some k =>
    dsimp only
    split
    · exact pure _
    · exact throw _

theorem divide (v w : Cell) : Matches R E (divide v w) (divide v w) := by
  unfold Action.divide
  split
  · exact throw _
  · exact pure _

end Matches

/-- A relation between stores that the elementary actions keep, except for the one that prints. -/
structure Simulation (R : Store W → Store W' → Prop) (E : Cause → Prop) : Prop where
  push : ∀ v, Matches R E (push v) (push v)
  pop : Matches R E pop pop
  peek : Matches R E peek peek
  swap : Matches R E swap swap
  load : ∀ i, Matches R E (load i) (load i)
  store : ∀ i v, Matches R E (store i v) (store i v)

namespace Simulation

variable {R : Store W → Store W' → Prop} {E : Cause → Prop} (h : Simulation R E)

include h

theorem binary {f : Cell → Cell → Action W Cell} {g : Cell → Cell → Action W' Cell}
    (hf : ∀ v w, Matches R E (f v w) (g v w)) : Matches R E (binary f) (binary g) :=
  h.pop.bind fun v => h.pop.bind fun w => (hf v w).bind fun x => (h.push x).bind fun _ => .pure _

variable [Writer W] [Writer W'] {n n' : Nat} {i : Instruction} {a : Action W Control}
  {b : Action W' Control}

/-- Actions of one instruction match, within programs whose jumps match, if printing does; and
that matters for `PRINT` alone. -/
theorem action (hj : ∀ v, Matches R E (Action.jump n v) (Action.jump n' v))
    (hp : i = .plain .print → ∀ v, Matches R E (print v) (print v))
    (ha : i.action? n = some a) (hb : i.action? n' = some b) : Matches R E a b := by
  cases i with
  | withOperand op v =>
    cases op
    case push => cases ha; cases hb; exact (h.push v).bind fun _ => .pure _
    case jmp => cases ha; cases hb; exact hj v
    case jz =>
      cases ha; cases hb
      refine h.pop.bind fun x => ?_
      split
      · exact hj v
      · exact .pure _
    case jnz =>
      cases ha; cases hb
      refine h.pop.bind fun x => ?_
      split
      · exact .pure _
      · exact hj v
    case alloc => cases ha; cases hb; exact (h.store v 0).bind fun _ => .pure _
    case load =>
      cases ha; cases hb
      exact (h.load v).bind fun x => (h.push x).bind fun _ => .pure _
    case store =>
      cases ha; cases hb
      exact h.pop.bind fun x => (h.store v x).bind fun _ => .pure _
    all_goals cases ha
  | plain op =>
    cases op
    case pop => cases ha; cases hb; exact h.pop.bind fun _ => .pure _
    case div => cases ha; cases hb; exact h.binary .divide
    case dup =>
      cases ha; cases hb
      exact h.peek.bind fun x => (h.push x).bind fun _ => .pure _
    case swap => cases ha; cases hb; exact h.swap.bind fun _ => .pure _
    case print =>
      cases ha; cases hb
      exact h.peek.bind fun x => (hp rfl x).bind fun _ => .pure _
    case halt => cases ha; cases hb; exact .pure _
    case add | sub | mul | eq | lt | gt =>
      cases ha; cases hb
      exact h.binary fun _ _ => .pure _
    all_goals cases ha

end Simulation

end Action

namespace Machine

open StackMachine.Action

def withStore (m : Machine W) (t : Store W') : Machine W' :=
  ⟨m.program, m.maxSteps, m.status, m.pc, m.steps, t⟩

/-- The second machine differs from the first in the store alone, and there within `R`. -/
def InStep (R : Store W → Store W' → Prop) (m : Machine W) (m' : Machine W') : Prop :=
  ∃ t, m' = m.withStore t ∧ R m.store t

variable [Writer W]

/-- The next step performs an instruction that fails by a cause in `E`. -/
def Fails (E : Cause → Prop) (m : Machine W) : Prop :=
  ∃ i a c s, m.Performs i a ∧ a.run m.store = .error c s ∧ E c

variable {m n : Machine W} {E : Cause → Prop}

theorem Fails.next (h : m.Fails E) : ∃ c, E c ∧ m.next.status = .faulted ⟨c, m.pc⟩ := by
  obtain ⟨i, a, c, s, hp, hr, hc⟩ := h
  exact ⟨c, hc, by rw [Machine.next, hp.step_of_error hr]⟩

theorem Fails.after {j k : Nat} (h : (m.after j).Fails E) (hj : j < k) :
    m.after k = m.after (j + 1) ∧ ∃ c, E c ∧ (m.after k).status = .faulted ⟨c, (m.after j).pc⟩ := by
  obtain ⟨c, hc, hs⟩ := h.next
  have he : (m.after (j + 1)).status ≠ .running := by
    rw [Machine.after, hs]
    rintro ⟨⟩
  have hk := after_of_le he hj
  exact ⟨hk, c, hc, by rw [hk, Machine.after, hs]⟩

variable [Writer W'] {m' : Machine W'} {R : Store W → Store W' → Prop}

theorem Performs.withStore {i : Instruction} {a : Action W Control} (hp : m.Performs i a)
    (t : Store W') : ∃ b, (m.withStore t).Performs i b :=
  exists_performs hp.running hp.pc_lt hp.fetch

variable (hR : Simulation R E) (hw : ∀ v, Matches R E (print v) (print v))

include hR hw

theorem Performs.matches {i : Instruction} {a : Action W Control} {t : Store W'}
    {b : Action W' Control} (hp : m.Performs i a) (hq : (m.withStore t).Performs i b) :
    Matches R E a b :=
  hR.action (fun _ => .jump _ _) (fun _ => hw) hp.action hq.action

theorem Outcome.withStore {r : Except Fault Status} {t : Store W'} (ho : Outcome m r n)
    (hs : R m.store t) :
    m.Fails E ∨ ∃ u, Outcome (m.withStore t) r (n.withStore u) ∧ R n.store u := by
  cases ho with
  | halted h => exact .inr ⟨t, .halted h, hs⟩
  | faulted h => exact .inr ⟨t, .faulted h, hs⟩
  | exhausted h hpc => exact .inr ⟨t, .exhausted h hpc, hs⟩
  | unfetched h hpc hf => exact .inr ⟨t, .unfetched h hpc hf, hs⟩
  | failed hp hr =>
    obtain ⟨b, hq⟩ := hp.withStore t
    rcases (hp.matches hR hw hq).error hs hr with hc | ⟨u, hu, hs'⟩
    · exact .inl ⟨_, _, _, _, hp, hr, hc⟩
    · exact .inr ⟨u, .failed hq hu, hs'⟩
  | moved hp hr =>
    obtain ⟨b, hq⟩ := hp.withStore t
    obtain ⟨u, hu, hs'⟩ := (hp.matches hR hw hq).ok hs hr
    exact .inr ⟨u, .moved hq hu, hs'⟩
  | jumped hp hr =>
    obtain ⟨b, hq⟩ := hp.withStore t
    obtain ⟨u, hu, hs'⟩ := (hp.matches hR hw hq).ok hs hr
    exact .inr ⟨u, .jumped hq hu, hs'⟩
  | stopped hp hr =>
    obtain ⟨b, hq⟩ := hp.withStore t
    obtain ⟨u, hu, hs'⟩ := (hp.matches hR hw hq).ok hs hr
    exact .inr ⟨u, .stopped hq hu, hs'⟩

theorem InStep.next (h : InStep R m m') : m.Fails E ∨ InStep R m.next m'.next := by
  obtain ⟨t, rfl, hs⟩ := h
  rcases (outcome_next m).withStore hR hw hs with hf | ⟨u, ho, hs'⟩
  · exact .inl hf
  · refine .inr ⟨u, ?_, hs'⟩
    rw [Machine.next, step_of_outcome ho]

theorem InStep.after (h : InStep R m m') (n : Nat) :
    InStep R (m.after n) (m'.after n) ∨
      ∃ j < n, InStep R (m.after j) (m'.after j) ∧ (m.after j).Fails E := by
  induction n with
  | zero => exact .inl h
  | succ n ih =>
    rcases ih with hn | ⟨j, hj, hf⟩
    · rcases hn.next hR hw with hf | hn'
      · exact .inr ⟨n, n.lt_succ_self, hn, hf⟩
      · exact .inl hn'
    · exact .inr ⟨j, Nat.lt_succ_of_lt hj, hf⟩

end Machine

end StackMachine
