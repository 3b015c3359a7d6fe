import Mathlib.Algebra.Order.Group.Multiset
import StackMachine.Stack

/-! What a stack went through tells what it holds. Its record has every call of an operation with the
answer. Nothing gets lost and nothing is there twice: the cells that were pushed are those that were
popped and those that are still there (`pushed_add_cells`). As long as no cells change places, pushes
and pops go together like brackets, so a pop takes the cell of the latest push that is still open
(`call_pop_eq_ok_iff_lastUnpopped`). -/

namespace StackMachine.Stack

inductive Call
  | push (v : Cell)
  | pop
  | peek
  | swap
  deriving DecidableEq, Repr

/-- The cell that a pop or a peek reads, or why a call failed. -/
abbrev Answer := Except Cause (Option Cell)

/-- The answer of a call and the stack that is there afterwards. An operation that fails gives no
stack, so the one that it was called on stays. -/
def call (s : Stack) : Call → Answer × Stack
  | .push v =>
    match s.push v with
    | .ok t => (.ok none, t)
    | .error c => (.error c, s)
  | .pop =>
    match s.pop with
    | .ok (v, t) => (.ok (some v), t)
    | .error c => (.error c, s)
  | .peek => (s.peek.map some, s)
  | .swap =>
    match s.swap with
    | .ok t => (.ok none, t)
    | .error c => (.error c, s)

structure Entry where
  call : Call
  answer : Answer

namespace Entry

def pushed? (e : Entry) : Option Cell :=
  match e.answer, e.call with
  | .ok _, .push v => some v
  | _, _ => none

def popped? (e : Entry) : Option Cell :=
  match e.answer, e.call with
  | .ok v, .pop => v
  | _, _ => none

def swaps (e : Entry) : Bool :=
  match e.answer, e.call with
  | .ok _, .swap => true
  | _, _ => false

end Entry

def pushed (r : List Entry) : List Cell := r.filterMap Entry.pushed?

def popped (r : List Entry) : List Cell := r.filterMap Entry.popped?

def entry (s : Stack) (c : Call) : Entry := ⟨c, (s.call c).1⟩

def record (s : Stack) : List Call → List Entry
  | [] => []
  | c :: cs => s.entry c :: (s.call c).2.record cs

def after (s : Stack) : List Call → Stack
  | [] => s
  | c :: cs => (s.call c).2.after cs

/-- The ways in which a call can end. -/
inductive Ends : Stack → Call → Answer → Stack → Prop
  | pushed (room : Nat) (cells : List Cell) (v : Cell) :
    Ends ⟨room + 1, cells⟩ (.push v) (.ok none) ⟨room, v :: cells⟩
  | popped (room : Nat) (cells : List Cell) (v : Cell) :
    Ends ⟨room, v :: cells⟩ .pop (.ok (some v)) ⟨room + 1, cells⟩
  | peeked (room : Nat) (cells : List Cell) (v : Cell) :
    Ends ⟨room, v :: cells⟩ .peek (.ok (some v)) ⟨room, v :: cells⟩
  | swapped (room : Nat) (cells : List Cell) (v w : Cell) :
    Ends ⟨room, v :: w :: cells⟩ .swap (.ok none) ⟨room, w :: v :: cells⟩
  | failed (s : Stack) (c : Call) (e : Cause) : Ends s c (.error e) s

/-- A stretch of a record in which each push has its pop and each pop its push, as brackets have.
Calls that neither push nor pop may stand anywhere. -/
inductive Settled : List Entry → Prop
  | nil : Settled []
  | idle {e : Entry} : e.pushed? = none → e.popped? = none → Settled [e]
  | pair {e d : Entry} {r : List Entry} {v w : Cell} :
    e.pushed? = some v → Settled r → d.popped? = some w → Settled (e :: r ++ [d])
  | append {r q : List Entry} : Settled r → Settled q → Settled (r ++ q)

/-- The latest push without a pop is of this cell: every push after it has its pop, and no pop after
it is left over for it. -/
def LastUnpopped (r : List Entry) (v : Cell) : Prop :=
  ∃ before e since, r = before ++ e :: since ∧ e.pushed? = some v ∧ Settled since

/-- The cells of all pushes without a pop, the latest first. -/
inductive Unpopped : List Entry → List Cell → Prop
  | nil {r : List Entry} : Settled r → Unpopped r []
  | cons {e : Entry} {r q : List Entry} {l : List Cell} {v : Cell} :
    Unpopped r l → e.pushed? = some v → Settled q → Unpopped (r ++ e :: q) (v :: l)

variable {s t : Stack} {c : Call} {cs : List Call} {e : Entry} {r q : List Entry} {l : List Cell}
  {v : Cell}

/-! When calls fail. -/

theorem call_push_eq_error_iff {e : Cause} :
    (s.call (.push v)).1 = .error e ↔ e = .stackOverflow ∧ s.depth = s.capacity := by
  rw [← push_eq_error_iff (v := v), call]
  cases s.push v <;> simp

theorem call_pop_eq_error_iff {e : Cause} :
    (s.call .pop).1 = .error e ↔ e = .stackUnderflow ∧ s.depth = 0 := by
  rw [← pop_eq_error_iff, call]
  cases s.pop <;> simp

theorem call_peek_eq_error_iff {e : Cause} :
    (s.call .peek).1 = .error e ↔ e = .stackUnderflow ∧ s.depth = 0 := by
  rw [← peek_eq_error_iff, call]
  cases s.peek <;> simp [Except.map]

theorem call_swap_eq_error_iff {e : Cause} :
    (s.call .swap).1 = .error e ↔ e = .stackUnderflow ∧ s.depth < 2 := by
  rw [← swap_eq_error_iff, call]
  cases s.swap <;> simp

/-! What one call does. -/

theorem ends_call (s : Stack) (c : Call) : Ends s c (s.call c).1 (s.call c).2 := by
  obtain ⟨room, cells⟩ := s
  cases c with
  | push v =>
    cases room with
    | zero => exact .failed _ _ _
    | succ room => exact .pushed room cells v
  | pop =>
    cases cells with
    | nil => exact .failed _ _ _
    | cons v l => exact .popped room l v
  | peek =>
    cases cells with
    | nil => exact .failed _ _ _
    | cons v l => exact .peeked room l v
  | swap =>
    cases cells with
    | nil => exact .failed _ _ _
    | cons v l =>
      cases l with
      | nil => exact .failed _ _ _
      | cons w l => exact .swapped room l v w

namespace Ends

variable {a : Answer}

theorem capacity_eq (h : Ends s c a t) : t.capacity = s.capacity := by
  cases h with
  | pushed room cells v => exact capacity_of_push (v := v) rfl
  | popped room cells v => exact capacity_of_pop (v := v) rfl
  | swapped => exact capacity_of_swap rfl
  | peeked | failed => rfl

theorem eq_self (h : Ends s c a t) (hc : c = .peek ∨ ∃ e, a = .error e) : t = s := by
  cases h with
  | pushed | popped | swapped => simp at hc
  | peeked | failed => rfl

theorem cells_of_pushed (h : Ends s c a t) (hp : Entry.pushed? ⟨c, a⟩ = some v) :
    t.cells = v :: s.cells := by
  cases h with
  | pushed =>
    cases hp
    rfl
  | popped | peeked | swapped | failed => cases hp

theorem cells_of_popped (h : Ends s c a t) (hp : Entry.popped? ⟨c, a⟩ = some v) :
    s.cells = v :: t.cells := by
  cases h with
  | popped =>
    cases hp
    rfl
  | pushed | peeked | swapped | failed => cases hp

theorem cells_of_idle (h : Ends s c a t) (hp : Entry.pushed? ⟨c, a⟩ = none)
    (hq : Entry.popped? ⟨c, a⟩ = none) (hs : Entry.swaps ⟨c, a⟩ = false) : t.cells = s.cells := by
  cases h with
  | pushed => cases hp
  | popped => cases hq
  | swapped => cases hs
  | peeked | failed => rfl

theorem balance (h : Ends s c a t) :
    ((Entry.pushed? ⟨c, a⟩).toList : Multiset Cell) + s.cells =
      (Entry.popped? ⟨c, a⟩).toList + t.cells := by
  cases h with
  | pushed | popped | peeked | failed => rfl
  | swapped room cells v w => exact congrArg _ (Multiset.coe_eq_coe.2 (.swap w v cells))

end Ends

/-! What many calls do. -/

theorem capacity_after (s : Stack) (cs : List Call) : (s.after cs).capacity = s.capacity := by
  induction cs generalizing s with
  | nil => rfl
  | cons c cs ih =>
    rw [after, ih]
    exact (ends_call s c).capacity_eq

theorem pushed_cons (e : Entry) (r : List Entry) :
    pushed (e :: r) = e.pushed?.toList ++ pushed r := by
  unfold pushed
  cases h : e.pushed? <;> simp [h]

theorem popped_cons (e : Entry) (r : List Entry) :
    popped (e :: r) = e.popped?.toList ++ popped r := by
  unfold popped
  cases h : e.popped? <;> simp [h]

/-- What was there and what was pushed is what was popped and what is there now. -/
theorem pushed_add_cells (s : Stack) (cs : List Call) :
    (pushed (s.record cs) : Multiset Cell) + s.cells =
      popped (s.record cs) + (s.after cs).cells := by
  induction cs generalizing s with
  | nil => rfl
  | cons c cs ih =>
    have hcall := (ends_call s c).balance
    rw [record, after, pushed_cons, popped_cons, ← Multiset.coe_add, ← Multiset.coe_add]
    calc
      _ = ((s.entry c).pushed?.toList + s.cells : Multiset Cell) + pushed ((s.call c).2.record cs) :=
        add_right_comm ..
      _ = (s.entry c).popped?.toList + (s.call c).2.cells + pushed ((s.call c).2.record cs) :=
        congrArg (· + _) hcall
      _ = (s.entry c).popped?.toList + (pushed ((s.call c).2.record cs) + (s.call c).2.cells) := by
        rw [add_assoc, add_comm (pushed _ : Multiset Cell)]
      _ = _ := by rw [ih, add_assoc]

theorem pushed_eq_popped_add (capacity : Nat) (cs : List Call) :
    (pushed ((empty capacity).record cs) : Multiset Cell) =
      popped ((empty capacity).record cs) + ((empty capacity).after cs).toList := by
  rw [toList, Multiset.coe_reverse, ← pushed_add_cells]
  exact (add_zero _).symm

/-! A record comes apart where its calls do. -/

theorem after_append (s : Stack) (as bs : List Call) :
    s.after (as ++ bs) = (s.after as).after bs := by
  induction as generalizing s with
  | nil => rfl
  | cons c as ih => exact ih _

theorem eq_nil_of_record (h : s.record cs = []) : cs = [] := by
  cases cs with
  | nil => rfl
  | cons c cs => cases h

theorem exists_cons_of_record (h : s.record cs = e :: r) :
    ∃ c ds, cs = c :: ds ∧ s.entry c = e ∧ (s.call c).2.record ds = r := by
  cases cs with
  | nil => cases h
  | cons c ds => exact ⟨c, ds, rfl, List.cons.inj h⟩

theorem exists_append_of_record (h : s.record cs = r ++ q) :
    ∃ as bs, cs = as ++ bs ∧ s.record as = r ∧ (s.after as).record bs = q := by
  induction r generalizing s cs with
  | nil => exact ⟨[], cs, rfl, rfl, h⟩
  | cons e r ih =>
    obtain ⟨c, ds, rfl, hc, hds⟩ := exists_cons_of_record h
    obtain ⟨as, bs, rfl, has, hbs⟩ := ih hds
    exact ⟨c :: as, bs, rfl, by rw [record, hc, has], hbs⟩

/-! Pushes with and without their pops. -/

/-- Calls that pop what they push leave the cells as they were. -/
theorem Settled.cells_after (h : Settled r) (hr : s.record cs = r)
    (hs : ∀ e ∈ r, e.swaps = false) : (s.after cs).cells = s.cells := by
  induction h generalizing s cs with
  | nil =>
    rw [eq_nil_of_record hr]
    rfl
  | idle hp hq =>
    obtain ⟨c, ds, rfl, rfl, hds⟩ := exists_cons_of_record hr
    rw [eq_nil_of_record hds]
    exact (ends_call s c).cells_of_idle hp hq (hs _ List.mem_cons_self)
  | pair he _ hd ih =>
    obtain ⟨c, ds, rfl, rfl, hds⟩ := exists_cons_of_record hr
    obtain ⟨as, bs, rfl, has, hbs⟩ := exists_append_of_record hds
    obtain ⟨c', _, rfl, rfl, hnil⟩ := exists_cons_of_record hbs
    have hpush := (ends_call s c).cells_of_pushed he
    have hpop := (ends_call ((s.call c).2.after as) c').cells_of_popped hd
    -- between the two the pushed cell stays on top, so it is the one that goes
    have hbetween := ih has fun e he => hs e (List.mem_append_left _ (List.mem_cons_of_mem _ he))
    rw [hpop, hpush] at hbetween
    rw [eq_nil_of_record hnil, after, after_append]
    exact (List.cons.inj hbetween).2
  | append _ _ ih ih' =>
    obtain ⟨as, bs, rfl, has, hbs⟩ := exists_append_of_record hr
    rw [after_append, ih' hbs fun e he => hs e (List.mem_append_right _ he)]
    exact ih has fun e he => hs e (List.mem_append_left _ he)

theorem Unpopped.append (h : Unpopped r l) (hq : Settled q) : Unpopped (r ++ q) l := by
  cases h with
  | nil hr => exact .nil (hr.append hq)
  | cons hr he hs =>
    rw [List.append_assoc, List.cons_append]
    exact .cons hr he (hs.append hq)

theorem Unpopped.call (h : Unpopped r s.cells) (hs : (s.entry c).swaps = false) :
    Unpopped (r ++ [s.entry c]) (s.call c).2.cells := by
  have hends := ends_call s c
  cases hp : (s.entry c).pushed? with
  | some v =>
    rw [hends.cells_of_pushed hp]
    exact .cons h hp .nil
  | none =>
    cases hq : (s.entry c).popped? with
    | some v =>
      -- the latest push has found its pop, and together they belong to what came before
      rw [hends.cells_of_popped hq] at h
      cases h with
      | cons hr he hsettled =>
        rw [List.append_assoc]
        exact hr.append (.pair he hsettled hq)
    | none =>
      rw [hends.cells_of_idle hp hq hs]
      exact h.append (.idle hp hq)

theorem Unpopped.record (h : Unpopped r s.cells) (hs : ∀ e ∈ s.record cs, e.swaps = false) :
    Unpopped (r ++ s.record cs) (s.after cs).cells := by
  induction cs generalizing s r with
  | nil =>
    rw [Stack.record, List.append_nil]
    exact h
  | cons c cs ih =>
    rw [Stack.record, List.forall_mem_cons] at hs
    have hrest := ih (h.call hs.1) hs.2
    rwa [List.append_assoc] at hrest

theorem call_pop_eq_ok_iff : (s.call .pop).1 = .ok (some v) ↔ s.cells.head? = some v := by
  obtain ⟨room, cells⟩ := s
  cases cells <;> simp [call, pop]

theorem call_pop_eq_ok_iff_lastUnpopped {capacity : Nat}
    (hs : ∀ e ∈ (empty capacity).record cs, e.swaps = false) :
    (((empty capacity).after cs).call .pop).1 = .ok (some v) ↔
      LastUnpopped ((empty capacity).record cs) v := by
  rw [call_pop_eq_ok_iff]
  constructor
  · intro h
    have hunpopped := Unpopped.record (s := empty capacity) (.nil .nil) hs
    rw [List.nil_append] at hunpopped
    obtain ⟨l, hl⟩ := List.head?_eq_some_iff.1 h
    rw [hl] at hunpopped
    generalize (empty capacity).record cs = r at hunpopped
    cases hunpopped with
    | cons _ he hsettled => exact ⟨_, _, _, rfl, he, hsettled⟩
  · rintro ⟨before, e, since, hr, he, hsettled⟩
    rw [hr] at hs
    obtain ⟨as, bs, rfl, -, hbs⟩ := exists_append_of_record hr
    obtain ⟨c, ds, rfl, rfl, hds⟩ := exists_cons_of_record hbs
    have hpush := (ends_call ((empty capacity).after as) c).cells_of_pushed he
    have hsince := hsettled.cells_after hds fun e he =>
      hs e (List.mem_append_right _ (List.mem_cons_of_mem _ he))
    rw [after_append, after, hsince, hpush]
    rfl

/-- Whatever is called on a stack that was empty at first, its depth is the number of pushes less that
of pops and stays within the capacity, and its cells are the pushed ones less the popped ones, with
their multiplicities. The depth alone decides which calls fail. A call that fails leaves the stack as
it is, and so does a peek. Unless cells changed places, a pop takes the cell of the latest push that
has no pop yet. -/
theorem conserves_cells (capacity : Nat) (cs : List Call) :
    let s := (empty capacity).after cs
    let r := (empty capacity).record cs
    (s.depth : Int) = (pushed r).length - (popped r).length ∧ s.depth ≤ capacity ∧
    (pushed r : Multiset Cell) = popped r + s.toList ∧
    (∀ c, c = .peek ∨ (∃ e, (s.call c).1 = .error e) → (s.call c).2 = s) ∧
    (∀ v e, (s.call (.push v)).1 = .error e ↔ e = .stackOverflow ∧ s.depth = capacity) ∧
    (∀ e, (s.call .pop).1 = .error e ↔ e = .stackUnderflow ∧ s.depth = 0) ∧
    (∀ e, (s.call .peek).1 = .error e ↔ e = .stackUnderflow ∧ s.depth = 0) ∧
    (∀ e, (s.call .swap).1 = .error e ↔ e = .stackUnderflow ∧ s.depth < 2) ∧
    ((∀ e ∈ r, e.swaps = false) →
      ∀ v, (s.call .pop).1 = .ok (some v) ↔ LastUnpopped r v) := by
  intro s r
  have hcapacity : s.capacity = capacity := capacity_after (empty capacity) cs
  have hcells := pushed_eq_popped_add capacity cs
  have hcount : (pushed r).length = (popped r).length + s.depth := by
    have h := congrArg Multiset.card hcells
    rwa [Multiset.card_add, Multiset.coe_card, Multiset.coe_card, Multiset.coe_card,
      length_toList] at h
  refine ⟨?_, ?_, hcells, ?_, ?_, ?_, ?_, ?_, ?_⟩
  · omega
  · rw [← hcapacity]
    exact s.depth_le_capacity
  · intro c hc
    exact (ends_call s c).eq_self hc
  · intro v e
    rw [← hcapacity]
    exact call_push_eq_error_iff
  · intro e
    exact call_pop_eq_error_iff
  · intro e
    exact call_peek_eq_error_iff
  · intro e
    exact call_swap_eq_error_iff
  · intro hs v
    exact call_pop_eq_ok_iff_lastUnpopped hs

/-- One push is refused and two cells are popped again, so the first one is on top, alone. -/
theorem conserves_cells_refused :
    let cs : List Call := [.push 1, .push 2, .push 3, .pop, .push 4, .peek, .pop]
    let s := (empty 2).after cs
    let r := (empty 2).record cs
    pushed r = [1, 2, 4] ∧ popped r = [2, 4] ∧ (∀ e ∈ r, e.swaps = false) ∧ LastUnpopped r 1 ∧
      (s.call .swap).1 = .error .stackUnderflow ∧ (s.call .swap).2 = s := by
  intro cs s r
  have hs : ∀ e ∈ r, e.swaps = false := by decide
  have hpop : (s.call .pop).1 = .ok (some 1) := rfl
  have hswap : (s.call .swap).1 = .error .stackUnderflow := rfl
  obtain ⟨-, -, -, hkeep, -, -, -, -, hlast⟩ := conserves_cells 2 cs
  exact ⟨rfl, rfl, hs, (hlast hs 1).1 hpop, hswap, hkeep .swap (.inr ⟨_, hswap⟩)⟩

end StackMachine.Stack
