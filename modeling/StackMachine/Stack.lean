import StackMachine.Fault

/-! The bounded operand stack. It grows and shrinks at the top alone: a push fails exactly when
the stack is full, a pop or a peek when it is empty, a swap when it holds fewer than two cells.
The stack counts the room that is left, so that no operation has to count its cells; room and
depth always add up to the same capacity (`capacity_of_push`, `capacity_of_pop`). -/

namespace StackMachine

structure Stack where
  /-- How many more cells the stack takes. -/
  room : Nat
  /-- The top comes first. -/
  cells : List Cell
  deriving DecidableEq, Repr

namespace Stack

def empty (capacity : Nat) : Stack := ⟨capacity, []⟩

def depth (s : Stack) : Nat := s.cells.length

def capacity (s : Stack) : Nat := s.room + s.depth

/-- The cells with the bottom first. -/
def toList (s : Stack) : List Cell := s.cells.reverse

def push (v : Cell) : Stack → Except Cause Stack
  | ⟨0, _⟩ => .error .stackOverflow
  | ⟨room + 1, cells⟩ => .ok ⟨room, v :: cells⟩

def pop : Stack → Except Cause (Cell × Stack)
  | ⟨_, []⟩ => .error .stackUnderflow
  | ⟨room, a :: r⟩ => .ok (a, ⟨room + 1, r⟩)

def peek : Stack → Except Cause Cell
  | ⟨_, []⟩ => .error .stackUnderflow
  | ⟨_, a :: _⟩ => .ok a

/-- Exchanges the two topmost cells. -/
def swap : Stack → Except Cause Stack
  | ⟨room, a :: b :: r⟩ => .ok ⟨room, b :: a :: r⟩
  | _ => .error .stackUnderflow

@[simp] theorem toList_empty (n : Nat) : (empty n).toList = [] := rfl

@[simp] theorem capacity_empty (n : Nat) : (empty n).capacity = n := rfl

@[simp] theorem length_toList (s : Stack) : s.toList.length = s.depth :=
  List.length_reverse

theorem toList_of_push {s t : Stack} {v : Cell} (h : s.push v = .ok t) :
    t.toList = s.toList ++ [v] := by
  unfold push at h
  split at h
  · cases h
  · cases h
    exact List.reverse_cons

theorem capacity_of_push {s t : Stack} {v : Cell} (h : s.push v = .ok t) :
    t.capacity = s.capacity := by
  unfold push at h
  split at h
  · cases h
  · cases h
    simp only [capacity, depth, List.length_cons]
    omega

theorem toList_of_pop {s t : Stack} {v : Cell} (h : s.pop = .ok (v, t)) :
    s.toList = t.toList ++ [v] := by
  unfold pop at h
  split at h
  · cases h
  · cases h
    exact List.reverse_cons

theorem capacity_of_pop {s t : Stack} {v : Cell} (h : s.pop = .ok (v, t)) :
    t.capacity = s.capacity := by
  unfold pop at h
  split at h
  · cases h
  · cases h
    simp only [capacity, depth, List.length_cons]
    omega

theorem capacity_of_swap {s t : Stack} (h : s.swap = .ok t) : t.capacity = s.capacity := by
  unfold swap at h
  split at h
  · cases h
    rfl
  · cases h

theorem depth_le_capacity (s : Stack) : s.depth ≤ s.capacity :=
  Nat.le_add_left ..

theorem push_eq_error_iff {s : Stack} {v : Cell} {c : Cause} :
    s.push v = .error c ↔ c = .stackOverflow ∧ s.depth = s.capacity := by
  obtain ⟨_ | room, cells⟩ := s
  · simp [push, capacity, depth, eq_comm]
  · simp [push, capacity, depth]

theorem pop_eq_error_iff {s : Stack} {c : Cause} :
    s.pop = .error c ↔ c = .stackUnderflow ∧ s.depth = 0 := by
  obtain ⟨room, _ | ⟨a, r⟩⟩ := s
  · simp [pop, depth, eq_comm]
  · simp [pop, depth]

theorem peek_eq_error_iff {s : Stack} {c : Cause} :
    s.peek = .error c ↔ c = .stackUnderflow ∧ s.depth = 0 := by
  obtain ⟨room, _ | ⟨a, r⟩⟩ := s
  · simp [peek, depth, eq_comm]
  · simp [peek, depth]

theorem swap_eq_error_iff {s : Stack} {c : Cause} :
    s.swap = .error c ↔ c = .stackUnderflow ∧ s.depth < 2 := by
  obtain ⟨room, _ | ⟨a, _ | ⟨b, r⟩⟩⟩ := s
  · simp [swap, depth, eq_comm]
  · simp [swap, depth, eq_comm]
  · simp [swap, depth]

end Stack

end StackMachine
