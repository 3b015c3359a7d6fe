import StackMachine.Fault

/-! A fixed block of variables. A variable holds nothing until it is allocated or stored to, and
reading it before that is a fault. -/

namespace StackMachine

structure Variables where
  slots : Array (Option Cell)
  deriving DecidableEq, Repr

namespace Variables

def ofSize (n : Nat) : Variables := ⟨Array.replicate n none⟩

def size (m : Variables) : Nat := m.slots.size

/-- The slot that an operand names. -/
def locate (m : Variables) (w : Cell) : Except Cause (Fin m.slots.size) :=
  match w.index? with
  | none => .error (.indexOutOfRange w)
  | some i => if h : i < m.slots.size then .ok ⟨i, h⟩ else .error (.indexOutOfRange w)

def get (m : Variables) (i : Fin m.slots.size) : Option Cell := m.slots[i]

def set (m : Variables) (i : Fin m.slots.size) (v : Cell) : Variables :=
  ⟨m.slots.set i (some v)⟩

def load (m : Variables) (w : Cell) : Except Cause Cell :=
  match m.locate w with
  | .error c => .error c
  | .ok i =>
    match m.get i with
    | none => .error (.readBeforeAllocation i)
    | some v => .ok v

/-- Allocates the slot too, if it was not. -/
def store (m : Variables) (w v : Cell) : Except Cause Variables :=
  match m.locate w with
  | .error c => .error c
  | .ok i => .ok (m.set i v)

/-- A fresh variable is zero, and so is one that is allocated again. -/
def alloc (m : Variables) (w : Cell) : Except Cause Variables := m.store w 0

/-- The allocated slots in order, each with its index. -/
def allocated (m : Variables) : List (Nat × Cell) :=
  m.slots.toList.zipIdx.filterMap fun (v, i) => v.map (i, ·)

def slotText : Option Cell → String
  | none => "`"
  | some v => v.text

@[simp] theorem size_ofSize (n : Nat) : (ofSize n).size = n :=
  Array.size_replicate

@[simp] theorem size_set (m : Variables) (i : Fin m.slots.size) (v : Cell) : (m.set i v).size = m.size :=
  Array.size_set i.isLt

theorem locate_eq_ok_iff {m : Variables} {w : Cell} {i : Fin m.slots.size} :
    m.locate w = .ok i ↔ w.index? = some i.val := by
  unfold locate
  constructor
  · intro h
    split at h
    · cases h
    · rename_i k hk
      split at h
      · cases h
        exact hk
      · cases h
  · intro h
    simp only [h, i.isLt, dif_pos]

theorem locate_eq_error_iff {m : Variables} {w : Cell} {c : Cause} :
    m.locate w = .error c ↔ c = .indexOutOfRange w ∧ (w.toInt < 0 ∨ m.size ≤ w.toInt) := by
  unfold locate
  split
  · rename_i h
    have := Cell.index?_eq_none_iff.1 h
    simp [this, eq_comm]
  · rename_i i h
    have := Cell.index?_eq_some_iff.1 h
    split
    · rename_i hi
      simp only [reduceCtorEq, size, false_iff, not_and]
      omega
    · rename_i hi
      simp only [Except.error.injEq, size, eq_comm (a := c), iff_self_and]
      omega

theorem store_eq_error_iff {m : Variables} {w v : Cell} {c : Cause} :
    m.store w v = .error c ↔ c = .indexOutOfRange w ∧ (w.toInt < 0 ∨ m.size ≤ w.toInt) := by
  rw [← locate_eq_error_iff]
  unfold store
  cases m.locate w <;> simp

theorem load_eq_error_iff {m : Variables} {w : Cell} {c : Cause} :
    m.load w = .error c ↔
      (c = .indexOutOfRange w ∧ (w.toInt < 0 ∨ m.size ≤ w.toInt)) ∨
        ∃ i : Nat, w.index? = some i ∧ m.slots[i]? = some none ∧ c = .readBeforeAllocation i := by
  rw [← locate_eq_error_iff]
  unfold load
  cases h : m.locate w with
  | error d =>
    change Except.error d = Except.error c ↔ _
    refine ⟨fun he => Or.inl (by simpa using he), ?_⟩
    rintro (he | ⟨i, hw, hs, -⟩)
    · simpa using he
    · have := (locate_eq_error_iff.1 h).2
      have := Cell.index?_eq_some_iff.1 hw
      have := (Array.getElem?_eq_some_iff.1 hs).1
      unfold size at *
      omega
  | ok k =>
    have hk := locate_eq_ok_iff.1 h
    have hg : m.slots[k.val] = m.get k := rfl
    cases hv : m.get k <;> simp [hk, hg, hv, eq_comm]

theorem load_eq_ok_iff {m : Variables} {w v : Cell} :
    m.load w = .ok v ↔ ∃ i : Nat, w.index? = some i ∧ m.slots[i]? = some (some v) := by
  unfold load
  cases h : m.locate w with
  | error c =>
    have hr := (locate_eq_error_iff.1 h).2
    simp only [reduceCtorEq, false_iff]
    rintro ⟨i, hi, hs⟩
    have := Cell.index?_eq_some_iff.1 hi
    have := (Array.getElem?_eq_some_iff.1 hs).1
    unfold size at hr
    omega
  | ok k =>
    have hk := locate_eq_ok_iff.1 h
    have hg : m.slots[k.val] = m.get k := rfl
    cases hv : m.get k <;> simp [hk, hg, hv]

theorem store_eq_ok_iff {m n : Variables} {w v : Cell} :
    m.store w v = .ok n ↔
      ∃ i : Nat, w.index? = some i ∧ i < m.size ∧ n = ⟨m.slots.setIfInBounds i (some v)⟩ := by
  unfold store
  cases h : m.locate w with
  | error c =>
    have hr := (locate_eq_error_iff.1 h).2
    simp only [reduceCtorEq, false_iff]
    rintro ⟨i, hi, hlt, -⟩
    have := Cell.index?_eq_some_iff.1 hi
    omega
  | ok k =>
    have hk := locate_eq_ok_iff.1 h
    have hs : m.slots.setIfInBounds k (some v) = m.slots.set k (some v) := by
      rw [Array.setIfInBounds_def, dif_pos k.isLt]
    simp [hk, hs, set, size, eq_comm (a := n)]

theorem size_of_store {m n : Variables} {w v : Cell} (h : m.store w v = .ok n) :
    n.size = m.size := by
  unfold store at h
  split at h
  · cases h
  · cases h
    exact size_set ..

theorem load_of_store {m n : Variables} {w v : Cell} (h : m.store w v = .ok n) :
    n.load w = .ok v := by
  unfold store at h
  split at h
  · cases h
  · rename_i i hi
    cases h
    have hw := locate_eq_ok_iff.1 hi
    have hl : (m.set i v).locate w = .ok ⟨i.val, by simp only [set, Array.size_set, i.isLt]⟩ :=
      locate_eq_ok_iff.2 hw
    have hg : (m.set i v).get ⟨i.val, by simp only [set, Array.size_set, i.isLt]⟩ = some v :=
      Array.getElem_set_self i.isLt
    unfold load
    rw [hl]
    simp only [hg]

end Variables

end StackMachine
