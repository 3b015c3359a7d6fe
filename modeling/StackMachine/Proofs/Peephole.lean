import StackMachine.Proofs.Invariant
import StackMachine.Proofs.Operators

/-! Short sequences of instructions that come to the same. They are performed one after the other
from any state that a machine can reach, with the cells, the room and the variables there that the
law asks for, and neither side faults (`peephole_equivalences`). The laws are shown on stores, where
all instructions but jumps do all that they do. -/

namespace StackMachine

variable {W : Type}

open StackMachine.Action

namespace Variables

/-- The variables with a cell put at a place, if they have that place. -/
def put (m : Variables) (j : Nat) (x : Cell) : Variables := ⟨m.slots.setIfInBounds j (some x)⟩

variable {m : Variables} {x : Cell} {j k : Nat}

theorem size_put (m : Variables) (j : Nat) (x : Cell) : (m.put j x).size = m.size :=
  Array.size_setIfInBounds

theorem put_put (m : Variables) (j : Nat) (x y : Cell) : (m.put j x).put j y = m.put j y :=
  congrArg mk (Array.setIfInBounds_setIfInBounds _)

theorem put_comm (h : j ≠ k) (x y : Cell) : (m.put j x).put k y = (m.put k y).put j x :=
  congrArg mk (Array.setIfInBounds_comm _ _ h)

theorem put_of_getElem? (h : m.slots[j]? = some (some x)) : m.put j x = m := by
  refine congrArg mk (Array.ext_getElem? fun k => ?_)
  rw [Array.getElem?_setIfInBounds]
  by_cases hk : j = k
  · rw [if_pos hk, if_pos (Array.getElem?_eq_some_iff.1 h).1, ← hk, h]
  · rw [if_neg hk]

end Variables

namespace Limits

/-- There is a variable of this number. -/
def HasVariable (l : Limits) (i : Cell) : Prop := 0 ≤ i.toInt ∧ i.toInt < l.variableCount

namespace HasVariable

variable {l : Limits} {i j x : Cell} {m : Variables}

theorem store_eq_put (hi : l.HasVariable i) (hm : m.size = l.variableCount) (x : Cell) :
    m.store i x = .ok (m.put i.toInt.toNat x) := by
  have hlt : i.toInt.toNat < m.size := by
    obtain ⟨h0, hlt⟩ := hi
    omega
  exact Variables.store_eq_ok_iff.2 ⟨_, Cell.index?_of_nonneg hi.1, hlt, rfl⟩

theorem load_put (hi : l.HasVariable i) (hm : m.size = l.variableCount) :
    (m.put i.toInt.toNat x).load i = .ok x :=
  Variables.load_of_store (hi.store_eq_put hm x)

theorem store_comm (hi : l.HasVariable i) (hj : l.HasVariable j) (hij : i ≠ j)
    (hm : m.size = l.variableCount) (x y : Cell) :
    ∃ n, (m.put i.toInt.toNat x).store j y = .ok n ∧ (m.put j.toInt.toNat y).store i x = .ok n := by
  have hne : i.toInt.toNat ≠ j.toInt.toNat := by
    intro he
    have := hi.1
    have := hj.1
    exact hij (Int32.toInt_inj.1 (by omega))
  refine ⟨_, hj.store_eq_put ((m.size_put _ x).trans hm) y, ?_⟩
  rw [Variables.put_comm hne]
  exact hi.store_eq_put ((m.size_put _ y).trans hm) x

end HasVariable

end Limits

variable [Writer W]

/-- Performed one after the other in a program of `n` cells, the instructions lead from one store to
the other without a fault. -/
inductive Leads (n : Nat) : List Instruction → Store W → Store W → Prop
  | nil {s : Store W} : Leads n [] s s
  | cons {i : Instruction} {is : List Instruction} {a : Action W Control} {k : Control}
      {s t u : Store W} :
      i.action? n = some a → a.run s = .ok k t → Leads n is t u → Leads n (i :: is) s u

namespace Leads

variable {n room : Nat} {a b v x : Cell} {r : List Cell} {vars vars' : Variables} {sink : W}
  {is : List Instruction} {t : Store W}

theorem push (h : Leads n is ⟨⟨room, v :: r⟩, vars, sink⟩ t) :
    Leads n (.withOperand .push v :: is) ⟨⟨room + 1, r⟩, vars, sink⟩ t :=
  cons rfl rfl h

theorem pop (h : Leads n is ⟨⟨room + 1, r⟩, vars, sink⟩ t) :
    Leads n (.plain .pop :: is) ⟨⟨room, a :: r⟩, vars, sink⟩ t :=
  cons rfl rfl h

theorem dup (h : Leads n is ⟨⟨room, a :: a :: r⟩, vars, sink⟩ t) :
    Leads n (.plain .dup :: is) ⟨⟨room + 1, a :: r⟩, vars, sink⟩ t :=
  cons rfl rfl h

theorem swap (h : Leads n is ⟨⟨room, b :: a :: r⟩, vars, sink⟩ t) :
    Leads n (.plain .swap :: is) ⟨⟨room, a :: b :: r⟩, vars, sink⟩ t :=
  cons rfl rfl h

theorem binary {op : Opcode} (f : Cell → Cell → Cell)
    (hop : (Instruction.plain op).action? (W := W) n = some (Action.binary fun a b => pure (f a b)))
    (h : Leads n is ⟨⟨room + 1, f a b :: r⟩, vars, sink⟩ t) :
    Leads n (.plain op :: is) ⟨⟨room, a :: b :: r⟩, vars, sink⟩ t :=
  cons hop (run_binary_pure f _) h

theorem alloc (hv : vars.store v 0 = .ok vars') (h : Leads n is ⟨⟨room, r⟩, vars', sink⟩ t) :
    Leads n (.withOperand .alloc v :: is) ⟨⟨room, r⟩, vars, sink⟩ t := by
  have hstore : (Action.alloc v).run ⟨⟨room, r⟩, vars, sink⟩ = .ok () ⟨⟨room, r⟩, vars', sink⟩ :=
    run_store_eq_ok_iff.2 ⟨_, hv, rfl⟩
  exact cons (k := .next) rfl (run_bind_eq_ok_iff.2 ⟨(), _, hstore, rfl⟩) h

theorem store (hv : vars.store v a = .ok vars') (h : Leads n is ⟨⟨room + 1, r⟩, vars', sink⟩ t) :
    Leads n (.withOperand .store v :: is) ⟨⟨room, a :: r⟩, vars, sink⟩ t := by
  have hstore : (Action.store v a).run ⟨⟨room + 1, r⟩, vars, sink⟩ =
      .ok () ⟨⟨room + 1, r⟩, vars', sink⟩ :=
    run_store_eq_ok_iff.2 ⟨_, hv, rfl⟩
  exact cons (k := .next) rfl
    (run_bind_eq_ok_iff.2 ⟨a, _, rfl, run_bind_eq_ok_iff.2 ⟨(), _, hstore, rfl⟩⟩) h

theorem load (hv : vars.load v = .ok x) (h : Leads n is ⟨⟨room, x :: r⟩, vars, sink⟩ t) :
    Leads n (.withOperand .load v :: is) ⟨⟨room + 1, r⟩, vars, sink⟩ t := by
  have hload : (Action.load v).run ⟨⟨room + 1, r⟩, vars, sink⟩ =
      .ok x ⟨⟨room + 1, r⟩, vars, sink⟩ :=
    run_load_eq_ok_iff.2 ⟨hv, rfl⟩
  exact cons (k := .next) rfl (run_bind_eq_ok_iff.2 ⟨x, _, hload, rfl⟩) h

end Leads

namespace Machine

/-- Performs instructions one after the other, none of which need stand in the program. -/
def executeAll? (m : Machine W) : List Instruction → Option (Machine W)
  | [] => some m
  | i :: is =>
    match m.execute? i with
    | some (.ok (), m') => m'.executeAll? is
    | _ => none

/-- From this machine both sequences end without a fault, and they leave the same store: the same
stack, the same variables and the same sink. -/
def SameEffect (m : Machine W) (is js : List Instruction) : Prop :=
  ∃ a b, m.executeAll? is = some a ∧ m.executeAll? js = some b ∧ a.store = b.store

variable {m : Machine W} {is js : List Instruction} {s t : Store W}

theorem executeAll?_cons {i : Instruction} {a : Action W Control} {k : Control}
    (ha : i.action? m.program.size = some a) (hr : a.run m.store = .ok k t) :
    m.executeAll? (i :: is) =
      ({ m with steps := m.steps + 1, store := t }.advance i.size k).executeAll? is := by
  rw [executeAll?, execute?_of_run ha hr]

theorem exists_executeAll?_of_leads (hs : m.store = s) (h : Leads m.program.size is s t) :
    ∃ m', m.executeAll? is = some m' ∧ m'.store = t := by
  generalize hn : m.program.size = n at h
  induction h generalizing m with
  | nil => exact ⟨m, rfl, hs⟩
  | @cons i is a k s t u ha hr _ ih =>
    subst hs
    rw [executeAll?_cons (hn ▸ ha) hr]
    -- wherever the control leads, the next instruction works on the store that this one left
    cases k <;> exact ih rfl hn

theorem sameEffect_of_leads (hs : m.store = s) (h : Leads m.program.size is s t)
    (h' : Leads m.program.size js s t) : m.SameEffect is js := by
  obtain ⟨a, ha, hat⟩ := exists_executeAll?_of_leads hs h
  obtain ⟨b, hb, hbt⟩ := exists_executeAll?_of_leads hs h'
  exact ⟨a, b, ha, hb, hat.trans hbt.symm⟩

/-! The laws. -/

/-- The laws, each with what it asks of a machine within the limits `l`. -/
inductive Law (l : Limits) (m : Machine W) : List Instruction → List Instruction → Prop
  | swap_swap : 2 ≤ m.stack.length → Law l m [.plain .swap, .plain .swap] []
  | swap_add : 2 ≤ m.stack.length → Law l m [.plain .swap, .plain .add] [.plain .add]
  | swap_mul : 2 ≤ m.stack.length → Law l m [.plain .swap, .plain .mul] [.plain .mul]
  | swap_eq : 2 ≤ m.stack.length → Law l m [.plain .swap, .plain .eq] [.plain .eq]
  | swap_lt : 2 ≤ m.stack.length → Law l m [.plain .swap, .plain .lt] [.plain .gt]
  | swap_gt : 2 ≤ m.stack.length → Law l m [.plain .swap, .plain .gt] [.plain .lt]
  | push_pop (v : Cell) : m.stack.length < l.stackCapacity →
      Law l m [.withOperand .push v, .plain .pop] []
  | push_zero_store (i : Cell) : m.stack.length < l.stackCapacity → l.HasVariable i →
      Law l m [.withOperand .push 0, .withOperand .store i] [.withOperand .alloc i]
  | push_store_alloc (v i : Cell) : m.stack.length < l.stackCapacity → l.HasVariable i →
      Law l m [.withOperand .push v, .withOperand .store i, .withOperand .alloc i]
        [.withOperand .alloc i]
  | load_store (i x : Cell) : m.stack.length < l.stackCapacity → l.HasVariable i →
      m.vars.slots[i.toInt.toNat]? = some (some x) →
      Law l m [.withOperand .load i, .withOperand .store i] []
  | dup_pop : 1 ≤ m.stack.length → m.stack.length < l.stackCapacity →
      Law l m [.plain .dup, .plain .pop] []
  | dup_store (i : Cell) : 1 ≤ m.stack.length → m.stack.length < l.stackCapacity →
      l.HasVariable i →
      Law l m [.plain .dup, .withOperand .store i] [.withOperand .store i, .withOperand .load i]
  | alloc_alloc (i j : Cell) : l.HasVariable i → l.HasVariable j → i ≠ j →
      Law l m [.withOperand .alloc i, .withOperand .alloc j]
        [.withOperand .alloc j, .withOperand .alloc i]
  | push_store_push_store (v w i j : Cell) : m.stack.length < l.stackCapacity →
      l.HasVariable i → l.HasVariable j → i ≠ j →
      Law l m
        [.withOperand .push v, .withOperand .store i, .withOperand .push w, .withOperand .store j]
        [.withOperand .push w, .withOperand .store j, .withOperand .push v, .withOperand .store i]

omit [Writer W] in
theorem exists_store_eq_of_two_le (h : 2 ≤ m.stack.length) :
    ∃ room a b r, m.store = ⟨⟨room, a :: b :: r⟩, m.vars, m.store.sink⟩ := by
  rw [stack, Stack.length_toList, Stack.depth] at h
  obtain ⟨a, q, hq⟩ := List.exists_cons_of_length_pos (Nat.lt_of_succ_lt h)
  rw [hq] at h
  obtain ⟨b, r, hr⟩ := List.exists_cons_of_length_pos (Nat.lt_of_succ_lt_succ h)
  refine ⟨m.store.stack.room, a, b, r, ?_⟩
  rw [← hr, ← hq]
  rfl

theorem sameEffect_swap_binary {op op' : Opcode} (h : 2 ≤ m.stack.length)
    (f g : Cell → Cell → Cell)
    (hf : (Instruction.plain op).action? (W := W) m.program.size =
      some (binary fun a b => pure (f a b)))
    (hg : (Instruction.plain op').action? (W := W) m.program.size =
      some (binary fun a b => pure (g a b)))
    (hfg : ∀ a b, f b a = g a b) :
    m.SameEffect [.plain .swap, .plain op] [.plain op'] := by
  obtain ⟨room, a, b, r, hs⟩ := exists_store_eq_of_two_le h
  refine sameEffect_of_leads hs (.swap (.binary f hf .nil)) ?_
  rw [hfg]
  exact .binary g hg .nil

variable {p : Program} {l : Limits} {i : Cell}

omit [Writer W] in
theorem Valid.exists_store_eq (hv : Valid p l m) (h : m.stack.length < l.stackCapacity) :
    ∃ room, m.store = ⟨⟨room + 1, m.store.stack.cells⟩, m.vars, m.store.sink⟩ := by
  have hc := hv.capacity
  rw [stack, Stack.length_toList] at h
  rw [Stack.capacity] at hc
  refine ⟨m.store.stack.room - 1, ?_⟩
  rw [Nat.sub_add_cancel (by omega)]
  rfl

omit [Writer W] in
theorem Valid.exists_store_eq_cons (hv : Valid p l m) (h1 : 1 ≤ m.stack.length)
    (h : m.stack.length < l.stackCapacity) :
    ∃ room a r, m.store = ⟨⟨room + 1, a :: r⟩, m.vars, m.store.sink⟩ := by
  obtain ⟨room, hs⟩ := hv.exists_store_eq h
  rw [stack, Stack.length_toList, Stack.depth] at h1
  obtain ⟨a, r, hr⟩ := List.exists_cons_of_length_pos h1
  rw [hr] at hs
  exact ⟨room, a, r, hs⟩

theorem SameEffect.of_law {is js : List Instruction} (hv : Valid p l m) (h : Law l m is js) :
    m.SameEffect is js := by
  have hm : m.vars.size = l.variableCount := hv.size_vars
  cases h with
  | swap_swap h =>
    obtain ⟨room, a, b, r, hs⟩ := exists_store_eq_of_two_le h
    exact sameEffect_of_leads hs (.swap (.swap .nil)) .nil
  | swap_add h =>
    exact sameEffect_swap_binary h (fun a b => a + b) (fun a b => a + b) rfl rfl
      fun a b => Int32.add_comm b a
  | swap_mul h =>
    exact sameEffect_swap_binary h (fun a b => a * b) (fun a b => a * b) rfl rfl
      fun a b => Int32.mul_comm b a
  | swap_eq h =>
    refine sameEffect_swap_binary h (fun a b => Cell.flag (a = b)) (fun a b => Cell.flag (a = b))
      rfl rfl fun a b => ?_
    simp only [eq_comm]
  | swap_lt h =>
    exact sameEffect_swap_binary h (fun a b => Cell.flag (b < a)) (fun a b => Cell.flag (a < b))
      rfl rfl fun _ _ => rfl
  | swap_gt h =>
    exact sameEffect_swap_binary h (fun a b => Cell.flag (a < b)) (fun a b => Cell.flag (b < a))
      rfl rfl fun _ _ => rfl
  | push_pop v h =>
    obtain ⟨room, hs⟩ := hv.exists_store_eq h
    exact sameEffect_of_leads hs (.push (.pop .nil)) .nil
  | push_zero_store i h hi =>
    obtain ⟨room, hs⟩ := hv.exists_store_eq h
    have h0 := hi.store_eq_put hm 0
    exact sameEffect_of_leads hs (.push (.store h0 .nil)) (.alloc h0 .nil)
  | push_store_alloc v i h hi =>
    obtain ⟨room, hs⟩ := hv.exists_store_eq h
    -- the zero comes into a variable that holds `v` by then
    have hagain := hi.store_eq_put ((m.vars.size_put i.toInt.toNat v).trans hm) 0
    rw [Variables.put_put] at hagain
    exact sameEffect_of_leads hs (.push (.store (hi.store_eq_put hm v) (.alloc hagain .nil)))
      (.alloc (hi.store_eq_put hm 0) .nil)
  | load_store i x h hi hx =>
    obtain ⟨room, hs⟩ := hv.exists_store_eq h
    have hload : m.vars.load i = .ok x :=
      Variables.load_eq_ok_iff.2 ⟨_, Cell.index?_of_nonneg hi.1, hx⟩
    have hstore := hi.store_eq_put hm x
    rw [Variables.put_of_getElem? hx] at hstore
    exact sameEffect_of_leads hs (.load hload (.store hstore .nil)) .nil
  | dup_pop h1 h =>
    obtain ⟨room, a, r, hs⟩ := hv.exists_store_eq_cons h1 h
    exact sameEffect_of_leads hs (.dup (.pop .nil)) .nil
  | dup_store i h1 h hi =>
    obtain ⟨room, a, r, hs⟩ := hv.exists_store_eq_cons h1 h
    have hstore := hi.store_eq_put hm a
    exact sameEffect_of_leads hs (.dup (.store hstore .nil))
      (.store hstore (.load (hi.load_put hm) .nil))
  | alloc_alloc i j hi hj hij =>
    obtain ⟨n, hfst, hsnd⟩ := hi.store_comm hj hij hm 0 0
    exact sameEffect_of_leads rfl (.alloc (hi.store_eq_put hm 0) (.alloc hfst .nil))
      (.alloc (hj.store_eq_put hm 0) (.alloc hsnd .nil))
  | push_store_push_store v w i j h hi hj hij =>
    obtain ⟨room, hs⟩ := hv.exists_store_eq h
    obtain ⟨n, hfst, hsnd⟩ := hi.store_comm hj hij hm v w
    exact sameEffect_of_leads hs
      (.push (.store (hi.store_eq_put hm v) (.push (.store hfst .nil))))
      (.push (.store (hj.store_eq_put hm w) (.push (.store hsnd .nil))))

theorem exists_swap_sub (h : 2 ≤ m.stack.length) :
    ∃ x y r c, m.executeAll? [.plain .sub] = some x ∧
      m.executeAll? [.plain .swap, .plain .sub] = some y ∧
      x.stack = r ++ [c] ∧ y.stack = r ++ [-c] ∧ y.vars = x.vars ∧ y.store.sink = x.store.sink := by
  obtain ⟨room, a, b, r, hs⟩ := exists_store_eq_of_two_le h
  have hsub : (Instruction.plain .sub).action? (W := W) m.program.size =
      some (binary fun a b => pure (b - a)) := rfl
  obtain ⟨x, hx, hxs⟩ := exists_executeAll?_of_leads hs (.binary _ hsub .nil)
  obtain ⟨y, hy, hys⟩ := exists_executeAll?_of_leads hs (.swap (.binary _ hsub .nil))
  refine ⟨x, y, r.reverse, b - a, hx, hy, ?_, ?_, ?_, ?_⟩
  · rw [stack, hxs]
    exact List.reverse_cons
  · rw [stack, hys, Int32.neg_sub]
    exact List.reverse_cons
  · rw [vars, vars, hxs, hys]
  · rw [hxs, hys]

theorem exists_push_zero_jz (hv : Valid p l m) (h : m.stack.length < l.stackCapacity) {t : Cell}
    (h0 : 0 ≤ t.toInt) (ht : t.toInt ≤ p.size) :
    ∃ x y, m.executeAll? [.withOperand .push 0, .withOperand .jz t] = some x ∧
      m.executeAll? [.withOperand .jmp t] = some y ∧
      x.store = y.store ∧ x.pc = t.toInt ∧ y.pc = t.toInt := by
  obtain ⟨room, hs⟩ := hv.exists_store_eq h
  have hle : t.toInt.toNat ≤ m.program.size := by
    rw [hv.program]
    omega
  have hjump (s : Store W) : (jump m.program.size t).run s = .ok (.jump t.toInt.toNat) s := by
    rw [run_jump, Cell.index?_of_nonneg h0]
    exact if_pos hle
  have hpush : (push 0 >>= fun _ => pure .next : Action W Control).run m.store =
      .ok .next ⟨⟨room, 0 :: m.store.stack.cells⟩, m.vars, m.store.sink⟩ := by
    rw [hs]
    rfl
  have hjz : (pop >>= fun v => if v = 0 then jump m.program.size t else pure .next :
      Action W Control).run ⟨⟨room, 0 :: m.store.stack.cells⟩, m.vars, m.store.sink⟩ =
      .ok (.jump t.toInt.toNat) m.store := by
    refine run_bind_eq_ok_iff.2
      ⟨0, ⟨⟨room + 1, m.store.stack.cells⟩, m.vars, m.store.sink⟩, rfl, ?_⟩
    rw [if_pos rfl, hjump, ← hs]
  exact ⟨_, _, (executeAll?_cons rfl hpush).trans (executeAll?_cons rfl hjz),
    executeAll?_cons rfl (hjump m.store), rfl, Int.toNat_of_nonneg h0, Int.toNat_of_nonneg h0⟩

/-- Wherever a machine has got to, the laws hold there. Besides, an exchange before a difference
negates it, and a jump on a zero that was pushed goes where the unconditional one goes. -/
theorem peephole_equivalences (p : Program) (l : Limits) (w : W) (n : Nat) :
    let m := (start p l w).after n
    (∀ is js, Law l m is js → m.SameEffect is js) ∧
    (2 ≤ m.stack.length → ∃ x y r c, m.executeAll? [.plain .sub] = some x ∧
      m.executeAll? [.plain .swap, .plain .sub] = some y ∧
      x.stack = r ++ [c] ∧ y.stack = r ++ [-c] ∧ y.vars = x.vars ∧
      y.store.sink = x.store.sink) ∧
    (m.stack.length < l.stackCapacity → ∀ t : Cell, 0 ≤ t.toInt → t.toInt ≤ p.size →
      ∃ x y, m.executeAll? [.withOperand .push 0, .withOperand .jz t] = some x ∧
        m.executeAll? [.withOperand .jmp t] = some y ∧
        x.store = y.store ∧ x.pc = t.toInt ∧ y.pc = t.toInt) := by
  intro m
  have hv : Valid p l m := valid_after p l w n
  exact ⟨fun _ _ => .of_law hv, exists_swap_sub, fun h _ => exists_push_zero_jz hv h⟩

/-- On a stack of 5 and 7 the exchanged difference is 2. -/
theorem peephole_equivalences_difference :
    let m := (start #[0, 5, 0, 7] {} Sink.unbounded).after 2
    m.stack = [5, 7] ∧ m.SameEffect [.plain .swap, .plain .lt] [.plain .gt] ∧
      ∃ y, m.executeAll? [.plain .swap, .plain .sub] = some y ∧ y.stack = [2] := by
  intro m
  have hstack : m.stack = [5, 7] := by decide
  have hsub : (m.executeAll? [.plain .sub]).map stack = some ([] ++ [-2]) := by decide
  obtain ⟨hlaw, hswap, -⟩ := peephole_equivalences #[0, 5, 0, 7] {} Sink.unbounded 2
  obtain ⟨x, y, r, c, hx, hy, hxs, hys, -⟩ := hswap (by decide)
  rw [hx, Option.map_some, hxs, Option.some.injEq] at hsub
  obtain ⟨rfl, hc⟩ := List.append_inj' hsub rfl
  cases hc
  exact ⟨hstack, hlaw _ _ (.swap_lt (by decide)), y, hy, hys⟩

end Machine

end StackMachine
