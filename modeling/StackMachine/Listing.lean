import StackMachine.Program

/-! The listing of a program: its instructions in order, read from address zero, each starting
where the one before it ends. It stops at the end of the program or at the first address where no
instruction can be decoded. -/

namespace StackMachine

structure Listing where
  lines : List (Nat × Instruction)
  bad : Option (Nat × Cause)
  deriving DecidableEq, Repr

namespace Program

def listingFrom (p : Program) (pc : Nat) : Listing :=
  if pc < p.size then
    match p.decode pc with
    | .error c => ⟨[], some (pc, c)⟩
    | .ok i =>
      let rest := p.listingFrom (pc + i.size)
      ⟨(pc, i) :: rest.lines, rest.bad⟩
  else ⟨[], none⟩
termination_by p.size - pc
decreasing_by
  have := i.size_pos
  omega

def listing (p : Program) : Listing := p.listingFrom 0

section

variable {p : Program} {pc : Nat}

theorem listingFrom_of_le (h : p.size ≤ pc) : p.listingFrom pc = ⟨[], none⟩ := by
  unfold listingFrom
  exact if_neg (Nat.not_lt.2 h)

theorem listingFrom_of_error {c : Cause} (h : pc < p.size) (hd : p.decode pc = .error c) :
    p.listingFrom pc = ⟨[], some (pc, c)⟩ := by
  unfold listingFrom
  rw [if_pos h, hd]

theorem listingFrom_of_ok {i : Instruction} (hd : p.decode pc = .ok i) :
    p.listingFrom pc =
      ⟨(pc, i) :: (p.listingFrom (pc + i.size)).lines, (p.listingFrom (pc + i.size)).bad⟩ := by
  have hle := add_size_le_of_decode hd
  have hpos := i.size_pos
  rw [listingFrom, if_pos (by omega), hd]

end

end Program

namespace Listing

/-- The address in a column of four, then what stands there. -/
def line (address : Nat) (text : String) : String :=
  String.ofList (address.repr.toList.leftpad 4 ' ') ++ ": " ++ text

end Listing

end StackMachine
