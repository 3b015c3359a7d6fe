import StackMachine.Proofs.Boundaries

/-! Stack depths told in advance. `Program.Depths` asks for an assignment of depths to addresses
that every instruction respects: it finds as many cells as it needs, what it leaves has room, and
wherever it may go on the depth is the one that it leaves. Such an assignment says how deep the
stack is whenever the machine runs, so neither the stack nor decoding ever fails
(`depths_predict_run`). -/

namespace StackMachine

namespace Opcode

/-- How many cells an operation finds on the stack, at least. -/
def needs : Opcode → Nat
  | add | sub | mul | div | swap | eq | lt | gt => 2
  | pop | dup | print | jz | jnz | store => 1
  | push | jmp | alloc | load | halt => 0

/-- By how many cells an operation changes the depth of the stack. -/
def effect : Opcode → Int
  | push | dup | load => 1
  | pop | add | sub | mul | div | eq | lt | gt | jz | jnz | store => -1
  | swap | print | jmp | alloc | halt => 0

theorem exists_depth {op : Opcode} {d : Nat} (h : op.needs ≤ d) :
    ∃ e : Nat, (e : Int) = d + op.effect := by
  have heffect : -(op.needs : Int) ≤ op.effect := by
    cases op <;> decide
  exact ⟨(d + op.effect).toNat, by omega⟩

end Opcode

/-- Where execution may be after an instruction at address `a` of a program of `n` cells. -/
def Instruction.successors (n a : Nat) (i : Instruction) : List Nat :=
  (if i.opcode = .jmp ∨ i.opcode = .halt then [] else [a + i.size]) ++
    ((i.target?.bind Cell.index?).filter (· ≤ n)).toList

/-- An instruction at address `a` that goes by the depths: it finds `d` cells there, which are
enough, and it leaves as many as there is room for and as its successors find. -/
structure Instruction.Flows (n capacity : Nat) (depth? : Nat → Option Nat) (a d : Nat)
    (i : Instruction) : Prop where
  needs : i.opcode.needs ≤ d
  room : (d : Int) + i.opcode.effect ≤ capacity
  next : ∀ b ∈ i.successors n a, (depth? b).map Int.ofNat = some (d + i.opcode.effect)

/-- A partial assignment of depths to the addresses of a program, its end included, that all the
instructions at these addresses go by. -/
structure Program.Depths (p : Program) (capacity : Nat) (depth? : Nat → Option Nat) : Prop where
  start : depth? 0 = some 0
  le_size : ∀ a d, depth? a = some d → a ≤ p.size
  flows : ∀ a d, depth? a = some d → a < p.size →
    ∃ i, p.decode a = .ok i ∧ i.Flows p.size capacity depth? a d

/-- The causes that tell of the depth of the stack. -/
def Cause.OfStack : Cause → Prop
  | stackUnderflow | stackOverflow => True
  | _ => False

namespace Stack

variable {s t : Stack} {v : Cell}

theorem depth_of_push (h : s.push v = .ok t) : t.depth = s.depth + 1 := by
  have hl := congrArg List.length (toList_of_push h)
  simpa using hl

theorem depth_of_pop (h : s.pop = .ok (v, t)) : s.depth = t.depth + 1 := by
  have hl := congrArg List.length (toList_of_pop h)
  simpa using hl

theorem depth_of_swap (h : s.swap = .ok t) : t.depth = s.depth := by
  unfold swap at h
  split at h
  · cases h
    rfl
  · cases h

end Stack

variable {W : Type}

namespace Action

variable {α β : Type} {c d e k : Nat}

/-- On a stack of `c` places that holds `d` cells the action leaves `e` cells, unless it fails, and
that not because of the stack. -/
def Shifts (c d e : Nat) (a : Action W α) : Prop :=
  ∀ s, s.stack.capacity = c → s.stack.depth = d → match a.run s with
    | .ok _ t => t.stack.capacity = c ∧ t.stack.depth = e
    | .error x _ => ¬ x.OfStack

namespace Shifts

theorem pure (x : α) : Shifts c d d (Pure.pure x : Action W α) :=
  fun _ hc hd => ⟨hc, hd⟩

theorem throw {x : Cause} (hx : ¬ x.OfStack) : Shifts c d e (throw x : Action W α) :=
  fun _ _ _ => hx

theorem bind {a : Action W α} {f : α → Action W β} (ha : Shifts c d e a)
    (hf : ∀ x, Shifts c e k (f x)) : Shifts c d k (a >>= f) := by
  intro s hc hd
  have h := ha s hc hd
  rw [EStateM.run_bind]
  cases hr : a.run s with
  | error x t =>
    rw [hr] at h
    exact h
  | ok x t =>
    rw [hr] at h
    exact hf x t h.1 h.2

theorem push (v : Cell) (h : d < c) : Shifts (W := W) c d (d + 1) (Action.push v) := by
  intro s hc hd
  rw [run_push]
  cases hp : s.stack.push v with
  | error x =>
    have := (Stack.push_eq_error_iff.1 hp).2
    omega
  | ok t => exact ⟨(Stack.capacity_of_push hp).trans hc, by rw [Stack.depth_of_push hp, hd]⟩

theorem pop : Shifts (W := W) c (d + 1) d Action.pop := by
  intro s hc hd
  rw [run_pop]
  cases hp : s.stack.pop with
  | error x =>
    have := (Stack.pop_eq_error_iff.1 hp).2
    omega
  | ok r =>
    have hl := Stack.depth_of_pop hp
    exact ⟨(Stack.capacity_of_pop hp).trans hc, Nat.succ.inj (hl.symm.trans hd)⟩

theorem peek : Shifts (W := W) c (d + 1) (d + 1) Action.peek := by
  intro s hc hd
  rw [run_peek]
  cases hp : s.stack.peek with
  | error x =>
    have := (Stack.peek_eq_error_iff.1 hp).2
    omega
  | ok v => exact ⟨hc, hd⟩

theorem swap : Shifts (W := W) c (d + 2) (d + 2) Action.swap := by
  intro s hc hd
  rw [run_swap]
  cases hp : s.stack.swap with
  | error x =>
    have := (Stack.swap_eq_error_iff.1 hp).2
    omega
  | ok t => exact ⟨(Stack.capacity_of_swap hp).trans hc, (Stack.depth_of_swap hp).trans hd⟩

theorem load (i : Cell) : Shifts (W := W) c d d (Action.load i) := by
  intro s hc hd
  rw [run_load]
  cases hp : s.vars.load i with
  | ok v => exact ⟨hc, hd⟩
  | error x => rcases Variables.load_eq_error_iff.1 hp with ⟨rfl, -⟩ | ⟨j, -, -, rfl⟩ <;> exact id

theorem store (i v : Cell) : Shifts (W := W) c d d (Action.store i v) := by
  intro s hc hd
  rw [run_store]
  cases hp : s.vars.store i v with
  | ok t => exact ⟨hc, hd⟩
  | error x =>
    obtain ⟨rfl, -⟩ := Variables.store_eq_error_iff.1 hp
    exact id

theorem print [Writer W] (v : Cell) : Shifts (W := W) c d d (Action.print v) := by
  intro s hc hd
  rw [run_print]
  cases Writer.write s.sink (printed v) with
  | mk r w =>
    cases r with
    | ok _ => exact ⟨hc, hd⟩
    | error _ => exact id

theorem divide (a b : Cell) : Shifts (W := W) c d d (Action.divide a b) := by
  unfold Action.divide
  split
  · exact throw id
  · exact pure _

theorem jump (n : Nat) (t : Cell) : Shifts (W := W) c d d (Action.jump n t) := by
  unfold Action.jump
  cases t.index? with
  | none => exact throw id
  | some k =>
    dsimp only
    split
    · exact pure _
    · exact throw id

theorem binary {f : Cell → Cell → Action W Cell} (h : d < c) (hf : ∀ a b, Shifts c d d (f a b)) :
    Shifts c (d + 2) (d + 1) (binary f) :=
  pop.bind fun a => pop.bind fun b => (hf a b).bind fun x => (push x h).bind fun _ => pure _

end Shifts

end Action

namespace Instruction

open StackMachine.Action

variable [Writer W] {n c d e : Nat} {i : Instruction} {a : Action W Control}

theorem shifts_action (ha : i.action? n = some a) (hn : i.opcode.needs ≤ d)
    (hc : (d : Int) + i.opcode.effect ≤ c) (he : (e : Int) = d + i.opcode.effect) :
    Shifts c d e a := by
  cases i with
  | withOperand op v =>
    cases op
    all_goals simp only [opcode, Opcode.needs, Opcode.effect] at hn hc he
    case push =>
      cases ha
      obtain rfl : e = d + 1 := by omega
      exact (Shifts.push v (by omega)).bind fun _ => .pure _
    case jmp =>
      cases ha
      obtain rfl : e = d := by omega
      exact .jump n v
    case jz =>
      cases ha
      obtain rfl : d = e + 1 := by omega
      refine Shifts.pop.bind fun x => ?_
      split
      · exact .jump n v
      · exact .pure _
    case jnz =>
      cases ha
      obtain rfl : d = e + 1 := by omega
      refine Shifts.pop.bind fun x => ?_
      split
      · exact .pure _
      · exact .jump n v
    case alloc =>
      cases ha
      obtain rfl : e = d := by omega
      exact (Shifts.store v 0).bind fun _ => .pure _
    case load =>
      cases ha
      obtain rfl : e = d + 1 := by omega
      exact (Shifts.load v).bind fun x => (Shifts.push x (by omega)).bind fun _ => .pure _
    case store =>
      cases ha
      obtain rfl : d = e + 1 := by omega
      exact Shifts.pop.bind fun x => (Shifts.store v x).bind fun _ => .pure _
    all_goals cases ha
  | plain op =>
    cases op
    all_goals simp only [opcode, Opcode.needs, Opcode.effect] at hn hc he
    case pop =>
      cases ha
      obtain rfl : d = e + 1 := by omega
      exact Shifts.pop.bind fun _ => .pure _
    case dup =>
      cases ha
      obtain ⟨k, rfl⟩ := Nat.exists_eq_add_of_le' hn
      obtain rfl : e = k + 1 + 1 := by omega
      exact Shifts.peek.bind fun x => (Shifts.push x (by omega)).bind fun _ => .pure _
    case swap =>
      cases ha
      obtain ⟨k, rfl⟩ := Nat.exists_eq_add_of_le' hn
      obtain rfl : e = k + 2 := by omega
      exact Shifts.swap.bind fun _ => .pure _
    case print =>
      cases ha
      obtain ⟨k, rfl⟩ := Nat.exists_eq_add_of_le' hn
      obtain rfl : e = k + 1 := by omega
      exact Shifts.peek.bind fun x => (Shifts.print x).bind fun _ => .pure _
    case halt =>
      cases ha
      obtain rfl : e = d := by omega
      exact .pure _
    case div =>
      cases ha
      obtain ⟨k, rfl⟩ := Nat.exists_eq_add_of_le' hn
      obtain rfl : e = k + 1 := by omega
      exact .binary (by omega) .divide
    case add | sub | mul | eq | lt | gt =>
      cases ha
      obtain ⟨k, rfl⟩ := Nat.exists_eq_add_of_le' hn
      obtain rfl : e = k + 1 := by omega
      exact .binary (by omega) fun _ _ => .pure _
    all_goals cases ha

theorem add_size_mem_successors {s t : Store W} (ha : i.action? n = some a)
    (hr : a.run s = .ok .next t) (k : Nat) : k + i.size ∈ i.successors n k := by
  have hop : ¬ (i.opcode = .jmp ∨ i.opcode = .halt) := by
    cases i with
    | withOperand op v =>
      rintro (rfl | rfl)
      · cases ha
        unfold jump at hr
        split at hr
        · cases hr
        · split at hr <;> cases hr
      · cases ha
    | plain op =>
      rintro (rfl | rfl)
      · cases ha
      · cases ha
        cases hr
  rw [successors, if_neg hop]
  exact List.mem_append_left _ List.mem_cons_self

theorem target_mem_successors {t : Nat} (h : Control.Suits n i (.jump t)) (k : Nat) :
    t ∈ i.successors n k := by
  obtain ⟨hle, ht⟩ := h
  refine List.mem_append_right _ ?_
  rw [ht, Option.filter_some, if_pos (decide_eq_true hle)]
  exact List.mem_singleton_self t

end Instruction

/-- A fault that depths cannot rule out: not one of the stack, and none of decoding. What is out of
bounds is the target of a jump. -/
def Fault.Unforeseen (p : Program) (f : Fault) : Prop :=
  ¬ f.cause.OfStack ∧ (∀ x, f.cause ≠ .unknownInstruction x) ∧
    ∀ k, f.cause = .outOfBounds k → ∃ i t, p.decode f.address = .ok i ∧ i.target? = some t ∧
      k = t.toInt64 ∧ (t.toInt < 0 ∨ p.size < t.toInt)

namespace Machine

variable {p : Program} {l : Limits} {depth? : Nat → Option Nat} {m m' : Machine W}

structure Foretold (p : Program) (depth? : Nat → Option Nat) (m : Machine W) : Prop where
  depth : m.status = .running → depth? m.pc = some m.store.stack.depth
  fault : ∀ f, m.status = .faulted f → f.Unforeseen p

theorem foretold_start (h : p.Depths l.stackCapacity depth?) (w : W) :
    Foretold p depth? (start p l w) where
  depth _ := h.start
  fault _ hf := nomatch hf

variable [Writer W]

theorem Foretold.shifts {i : Instruction} {a : Action W Control}
    (hD : p.Depths l.stackCapacity depth?) (hv : Valid p l m) (h : Foretold p depth? m)
    (hp : m.Performs i a) :
    ∃ e, (∀ b ∈ i.successors p.size m.pc, depth? b = some e) ∧
      match a.run m.store with
      | .ok _ t => t.stack.depth = e
      | .error c _ => ¬ c.OfStack := by
  have hd := hp.decode
  have ha := hp.action
  have hpc := hp.pc_lt
  rw [hv.program] at hd ha hpc
  obtain ⟨j, hj, hf⟩ := hD.flows _ _ (h.depth hp.running) hpc
  rw [hd, Except.ok.injEq] at hj
  subst hj
  have hneeds := hf.needs
  obtain ⟨e, he⟩ := Opcode.exists_depth hneeds
  refine ⟨e, ?_, ?_⟩
  · intro b hb
    obtain ⟨e', hb', he'⟩ := Option.map_eq_some_iff.1 (hf.next b hb)
    rw [hb', Option.some.injEq]
    exact Int.ofNat.inj (he'.trans he.symm)
  · have hs := Instruction.shifts_action ha hneeds hf.room he m.store hv.capacity rfl
    cases hr : a.run m.store with
    | ok k t =>
      rw [hr] at hs
      exact hs.2
    | error c t =>
      rw [hr] at hs
      exact hs

theorem foretold_step (hD : p.Depths l.stackCapacity depth?) (hv : Valid p l m)
    (h : Foretold p depth? m) {r : Except Fault Status} (ho : Outcome m r m') :
    Foretold p depth? m' := by
  have hstable := Store.stable_sameShape (W := W)
  cases ho with
  | halted _ => exact h
  | faulted _ => exact h
  | exhausted _ _ => exact ⟨nofun, nofun⟩
  | unfetched hs hpc hf =>
    refine ⟨nofun, ?_⟩
    rintro _ ⟨⟩
    rcases fetch_eq_error_iff.1 hf with ⟨k, -, -, rfl⟩ | ⟨-, hd⟩
    · exact ⟨id, nofun, nofun⟩
    · rw [hv.program] at hd hpc
      obtain ⟨i, hi, -⟩ := hD.flows _ _ (h.depth hs) hpc
      rw [hd] at hi
      cases hi
  | failed hp hr =>
    refine ⟨nofun, ?_⟩
    rintro _ ⟨⟩
    obtain ⟨e, -, hs⟩ := h.shifts hD hv hp
    rw [hr] at hs
    refine ⟨hs, ?_, ?_⟩
    · rintro x rfl
      exact ((hstable.ends_action hp.action).error hr).2 trivial
    · rintro k rfl
      obtain ⟨t, ht, hk, hout⟩ := Instruction.target_of_outOfBounds hp.action hr
      have hd := hp.decode
      rw [hv.program] at hd hout
      exact ⟨_, t, hd, ht, hk, hout⟩
  | moved hp hr =>
    obtain ⟨e, he, hs⟩ := h.shifts hD hv hp
    rw [hr] at hs
    refine ⟨fun _ => ?_, fun f hf => h.fault f hf⟩
    have ha := hp.action
    rw [hv.program] at ha
    rw [hs]
    exact he _ (Instruction.add_size_mem_successors ha hr _)
  | jumped hp hr =>
    obtain ⟨e, he, hs⟩ := h.shifts hD hv hp
    rw [hr] at hs
    refine ⟨fun _ => ?_, fun f hf => h.fault f hf⟩
    have hsuits := ((hstable.ends_action hp.action).ok hr).2
    rw [hv.program] at hsuits
    rw [hs]
    exact he _ (Instruction.target_mem_successors hsuits _)
  | stopped hp hr => exact ⟨nofun, nofun⟩

theorem foretold_after (hD : p.Depths l.stackCapacity depth?) (w : W) (n : Nat) :
    Foretold p depth? ((start p l w).after n) :=
  (after_induction (P := fun m => Valid p l m ∧ Foretold p depth? m)
    ⟨valid_start p l w, foretold_start hD w⟩
    (fun _ _ _ h ho => ⟨valid_step h.1 ho, foretold_step hD h.1 h.2 ho⟩) n).2

/-- If depths are assigned to a program so that every instruction goes by them, then wherever the
machine runs the assignment has an entry and the stack is as deep as that says. No run fails
because of the stack, or for want of an opcode or an operand: all that is ever out of bounds is the
target of a jump. The variables, the step limit and the writer do not matter. -/
theorem depths_predict_run (p : Program) (l : Limits) (depth? : Nat → Option Nat)
    (hD : p.Depths l.stackCapacity depth?) (w : W) (n : Nat) :
    let m := (start p l w).after n
    (m.status = .running → depth? m.pc = some m.stack.length) ∧
      ∀ f, m.status = .faulted f →
        f.cause ≠ .stackUnderflow ∧ f.cause ≠ .stackOverflow ∧
        (∀ x, f.cause ≠ .unknownInstruction x) ∧
        ∀ k, f.cause = .outOfBounds k → ∃ i t, p.decode f.address = .ok i ∧
          i.target? = some t ∧ k = t.toInt64 ∧ (t.toInt < 0 ∨ p.size < t.toInt) := by
  intro m
  have h : Foretold p depth? m := foretold_after hD w n
  refine ⟨?_, ?_⟩
  · intro hs
    rw [h.depth hs, stack, Stack.length_toList]
  · intro f hf
    obtain ⟨hstack, hrest⟩ := h.fault f hf
    exact ⟨fun hc => hstack (hc ▸ trivial), fun hc => hstack (hc ▸ trivial), hrest⟩

/-- A loop that counts down from three needs two places and no more. -/
theorem depths_predict_run_loop :
    let p := Program.assemble [.withOperand .push 3, .withOperand .push 1, .plain .sub, .plain .dup,
      .withOperand .jnz 2, .plain .halt]
    let depth? (a : Nat) := [(0, 0), (2, 1), (4, 2), (5, 1), (6, 2), (8, 1)].lookup a
    p.Depths 2 depth? ∧ ∀ n f, ((start p ⟨2, 0, none⟩ Sink.unbounded).after n).status = .faulted f →
      f.cause ≠ .stackUnderflow ∧ f.cause ≠ .stackOverflow := by
  intro p depth?
  have hmem : ∀ a d, depth? a = some d →
      (a, d) ∈ [(0, 0), (2, 1), (4, 2), (5, 1), (6, 2), (8, 1)] := by
    intro a d h
    obtain ⟨l₁, l₂, hl, -⟩ := List.lookup_eq_some_iff.1 h
    rw [hl]
    exact List.mem_append_right _ List.mem_cons_self
  have hflows : ∀ x ∈ [(0, 0), (2, 1), (4, 2), (5, 1), (6, 2), (8, 1)],
      ∃ i, p.decode x.1 = .ok i ∧ i.Flows p.size 2 depth? x.1 x.2 := by
    simp only [List.forall_mem_cons, List.not_mem_nil, false_imp_iff, implies_true, and_true]
    refine ⟨⟨_, rfl, ?_⟩, ⟨_, rfl, ?_⟩, ⟨_, rfl, ?_⟩, ⟨_, rfl, ?_⟩, ⟨_, rfl, ?_⟩, ⟨_, rfl, ?_⟩⟩
    all_goals exact ⟨by decide, by decide, by decide⟩
  have hD : p.Depths 2 depth? := by
    refine ⟨rfl, ?_, ?_⟩
    · intro a d h
      have hle : ∀ x ∈ [(0, 0), (2, 1), (4, 2), (5, 1), (6, 2), (8, 1)], x.1 ≤ 9 := by decide
      exact hle _ (hmem a d h)
    · intro a d h _
      exact hflows _ (hmem a d h)
  refine ⟨hD, ?_⟩
  intro n f hf
  obtain ⟨hu, ho, -⟩ := (depths_predict_run p ⟨2, 0, none⟩ depth? hD Sink.unbounded n).2 f hf
  exact ⟨hu, ho⟩

end Machine

end StackMachine
