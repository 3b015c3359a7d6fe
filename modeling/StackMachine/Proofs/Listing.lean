import Mathlib.Algebra.GroupWithZero.Nat
import StackMachine.Listing
import StackMachine.Proofs.Decode

/-! Assembling and listing undo each other (`listing_assemble`, `toList_assemble_listing`). Both
are compared with `Tiles`, the relation between a program and the lines that cover it without a gap
from one address to another: the cells of such lines are those of the program between the two
addresses, and a listing is the tiling that goes on for as long as an instruction is left. -/

namespace StackMachine.Program

/-- Lines that stand in a program one right after the other, from an address up to another. -/
inductive Tiles (p : Program) : Nat → List (Nat × Instruction) → Nat → Prop
  | nil {a : Nat} : Tiles p a [] a
  | cons {a e : Nat} {i : Instruction} {lines : List (Nat × Instruction)} :
      p.decode a = .ok i → Tiles p (a + i.size) lines e → Tiles p a ((a, i) :: lines) e

/-- What a listing that stops at an address says about it. -/
def Stops (p : Program) (e : Nat) : Option (Nat × Cause) → Prop
  | none => p.size ≤ e
  | some (a, c) => a = e ∧ e < p.size ∧ p.decode e = .error c

@[simp] theorem stops_none {p : Program} {e : Nat} : p.Stops e none ↔ p.size ≤ e := Iff.rfl

theorem Stops.take {p : Program} {e : Nat} {bad : Option (Nat × Cause)} (h : p.Stops e bad) :
    p.toList.take e = p.toList.take (bad.elim p.size (·.1)) := by
  rcases bad with _ | ⟨b, c⟩
  · rw [List.take_of_length_le (by simpa using h), List.take_of_length_le (by simp)]
  · obtain ⟨rfl, -⟩ := h
    rfl

/-- Instructions with the addresses that they have if the first one stands at `a`. -/
def addressedFrom (a : Nat) : List Instruction → List (Nat × Instruction)
  | [] => []
  | i :: is => (a, i) :: addressedFrom (a + i.size) is

theorem addressedFrom_eq_mapIdx (a : Nat) (is : List Instruction) :
    addressedFrom a is =
      is.mapIdx fun k i => (a + ((is.take k).map Instruction.size).sum, i) := by
  induction is generalizing a with
  | nil => rfl
  | cons i is ih => simp [addressedFrom, ih, List.mapIdx_cons, Nat.add_assoc]

variable {p : Program} {a e : Nat}

/-- An instruction is decoded exactly where its cells stand; what follows them is what is left of
the program at the next address. -/
theorem decode_eq_ok_iff_append {i : Instruction} {t : List Cell} :
    p.decode a = .ok i ∧ t = p.toList.drop (a + i.size) ↔
      i.WellFormed ∧ i.cells ++ t = p.toList.drop a := by
  rw [decode_eq_ok_iff, and_assoc]
  refine and_congr_right fun hi => ?_
  rw [← hi.length_cells, ← List.drop_drop]
  constructor
  · rintro ⟨⟨u, hu⟩, rfl⟩
    rw [← hu, List.drop_left]
  · intro h
    rw [← h, List.drop_left]
    exact ⟨List.prefix_append _ _, rfl⟩

namespace Tiles

variable {lines : List (Nat × Instruction)}

theorem wellFormed (h : Tiles p a lines e) : ∀ i ∈ lines.map (·.2), i.WellFormed := by
  induction h with
  | nil => simp
  | cons hd _ ih => simpa using ⟨wellFormed_of_decode hd, by simpa using ih⟩

theorem head_address (h : Tiles p a lines e) {x : Nat × Instruction} (hx : lines[0]? = some x) :
    x.1 = a := by
  cases h with
  | nil => simp at hx
  | cons =>
    simp only [List.getElem?_cons_zero, Option.some.injEq] at hx
    rw [← hx]

theorem next_address (h : Tiles p a lines e) {k : Nat} {x y : Nat × Instruction}
    (hx : lines[k]? = some x) (hy : lines[k + 1]? = some y) : y.1 = x.1 + x.2.size := by
  induction h generalizing k with
  | nil => simp at hx
  | cons _ ht ih =>
    cases k with
    | zero =>
      simp only [List.getElem?_cons_zero, Option.some.injEq] at hx
      rw [← hx]
      exact ht.head_address (by simpa using hy)
    | succ k => exact ih (by simpa using hx) (by simpa using hy)

theorem cells_append_drop (h : Tiles p a lines e) :
    (lines.map (·.2)).flatMap Instruction.cells ++ p.toList.drop e = p.toList.drop a := by
  induction h with
  | nil => rfl
  | cons hd _ ih =>
    rw [List.map_cons, List.flatMap_cons, List.append_assoc, ih]
    exact (decode_eq_ok_iff_append.1 ⟨hd, rfl⟩).2

theorem le_size (h : Tiles p a lines e) (ha : a ≤ p.size) : e ≤ p.size := by
  induction h with
  | nil => exact ha
  | cons hd _ ih => exact ih (add_size_le_of_decode hd)

theorem listingFrom_eq (h : Tiles p a lines e) {bad : Option (Nat × Cause)} (hs : p.Stops e bad) :
    p.listingFrom a = ⟨lines, bad⟩ := by
  induction h with
  | nil =>
    rcases bad with _ | ⟨b, c⟩
    · exact listingFrom_of_le hs
    · obtain ⟨rfl, hlt, hd⟩ := hs
      exact listingFrom_of_error hlt hd
  | cons hd _ ih => rw [listingFrom_of_ok hd, ih hs]

end Tiles

theorem tiles_of_cells {is : List Instruction} (hw : ∀ i ∈ is, i.WellFormed) {t : List Cell}
    (h : is.flatMap Instruction.cells ++ t = p.toList.drop a) :
    ∃ e, Tiles p a (addressedFrom a is) e ∧ t = p.toList.drop e := by
  induction is generalizing a with
  | nil => exact ⟨a, .nil, h⟩
  | cons i is ih =>
    rw [List.flatMap_cons, List.append_assoc] at h
    obtain ⟨hd, hrest⟩ := decode_eq_ok_iff_append.2 ⟨hw i (by simp), h⟩
    obtain ⟨e, he, ht⟩ := ih (fun j hj => hw j (by simp [hj])) hrest
    exact ⟨e, .cons hd he, ht⟩

theorem tiles_listingFrom (p : Program) (a : Nat) :
    ∃ e, Tiles p a (p.listingFrom a).lines e ∧ p.Stops e (p.listingFrom a).bad := by
  fun_induction listingFrom p a with
  | case1 a hlt c hd => exact ⟨a, .nil, rfl, hlt, hd⟩
  | case2 a hlt i hd rest ih =>
    obtain ⟨e, he, hs⟩ := ih
    exact ⟨e, .cons hd he, hs⟩
  | case3 a hlt => exact ⟨a, .nil, Nat.not_lt.1 hlt⟩

theorem exists_tiles_listing (p : Program) :
    ∃ e, Tiles p 0 p.listing.lines e ∧ p.Stops e p.listing.bad :=
  tiles_listingFrom p 0

theorem tiles_listing (hbad : p.listing.bad = none) : Tiles p 0 p.listing.lines p.size := by
  obtain ⟨e, ht, hs⟩ := exists_tiles_listing p
  have hle : p.size ≤ e := by
    rw [hbad] at hs
    exact hs
  rw [Nat.le_antisymm hle (ht.le_size p.size.zero_le)]
  exact ht

theorem listing_assemble {is : List Instruction} (hw : ∀ i ∈ is, i.WellFormed) :
    (assemble is).listing = ⟨addressedFrom 0 is, none⟩ := by
  have hc : is.flatMap Instruction.cells ++ [] = (assemble is).toList.drop 0 := by
    simp [assemble]
  obtain ⟨e, he, hnil⟩ := tiles_of_cells hw hc
  refine he.listingFrom_eq ?_
  simpa [Stops] using hnil.symm

theorem toList_assemble_listing (p : Program) :
    (assemble (p.listing.lines.map (·.2))).toList =
      p.toList.take (p.listing.bad.elim p.size (·.1)) := by
  obtain ⟨e, ht, hs⟩ := exists_tiles_listing p
  have hc : (p.listing.lines.map (·.2)).flatMap Instruction.cells = p.toList.take e := by
    refine (List.append_left_inj (p.toList.drop e)).1 ?_
    rw [List.take_append_drop]
    exact ht.cells_append_drop
  rw [assemble, List.toList_toArray, hc]
  exact hs.take

/-- A listing that found nothing bad lists a program that was assembled, and only then. -/
theorem bad_eq_none_iff :
    p.listing.bad = none ↔ ∃ is : List Instruction, (∀ i ∈ is, i.WellFormed) ∧ p = assemble is := by
  constructor
  · intro hbad
    obtain ⟨e, ht, -⟩ := exists_tiles_listing p
    refine ⟨_, ht.wellFormed, Array.toList_inj.1 ?_⟩
    have hc := toList_assemble_listing p
    rw [hbad, Option.elim_none, List.take_of_length_le (by simp)] at hc
    exact hc.symm
  · rintro ⟨is, hw, rfl⟩
    rw [listing_assemble hw]

/-- The first address that cannot be decoded holds no opcode, or one that lacks its operand. -/
theorem bad_eq_some {c : Cause} (h : p.listing.bad = some (a, c)) :
    (∃ w, p[a]? = some w ∧ (w.toInt < 0 ∨ 18 < w.toInt) ∧ c = .unknownInstruction w) ∨
      ∃ op : Opcode, p[a]? = some op.cell ∧ op.arity = 1 ∧ a + 1 = p.size ∧
        c = .outOfBounds (Int64.ofNat p.size) := by
  obtain ⟨e, -, hs⟩ := exists_tiles_listing p
  rw [h] at hs
  obtain ⟨rfl, hlt, hd⟩ := hs
  rcases decode_eq_error_iff.1 hd with ⟨hle, -⟩ | hc
  · exact absurd hlt (Nat.not_lt.2 hle)
  · exact hc

theorem getElem?_of_bad_unknown {w : Cell} (h : p.listing.bad = some (a, .unknownInstruction w)) :
    p[a]? = some w := by
  rcases bad_eq_some h with ⟨v, hv, -, hc⟩ | ⟨op, -, -, -, hc⟩
  · cases hc
    exact hv
  · cases hc

theorem exists_opcode_of_bad_outOfBounds {k : Int64}
    (h : p.listing.bad = some (a, .outOfBounds k)) :
    ∃ op : Opcode, p[a]? = some op.cell ∧ op.arity = 1 ∧ a + 1 = p.size := by
  rcases bad_eq_some h with ⟨w, -, -, hc⟩ | ⟨op, hop, harity, hsize, -⟩
  · cases hc
  · exact ⟨op, hop, harity, hsize⟩

/-- A listing gives an assembled list back, each instruction with the sum of the sizes before it.
Conversely the lines of a listing are well formed, stand one after the other from address zero and
assemble to the cells before the bad address; there is none exactly if the program was assembled,
and else no opcode stands there or one whose operand would be past the end. -/
theorem listing_inverse_assemble :
    (∀ is : List Instruction, (∀ i ∈ is, i.WellFormed) →
      (assemble is).listing =
        ⟨is.mapIdx fun k i => (((is.take k).map Instruction.size).sum, i), none⟩) ∧
    ∀ p : Program,
      let lines := p.listing.lines
      let is := lines.map (·.2)
      (∀ x, lines[0]? = some x → x.1 = 0) ∧
      (∀ k x y, lines[k]? = some x → lines[k + 1]? = some y → y.1 = x.1 + x.2.size) ∧
      (∀ i ∈ is, i.WellFormed) ∧
      (assemble is).toList = p.toList.take (p.listing.bad.elim p.size (·.1)) ∧
      (p.listing.bad = none ↔
        ∃ js : List Instruction, (∀ i ∈ js, i.WellFormed) ∧ p = assemble js) ∧
      ∀ a c, p.listing.bad = some (a, c) →
        (∃ w, p[a]? = some w ∧ (w.toInt < 0 ∨ 18 < w.toInt) ∧ c = .unknownInstruction w) ∨
        ∃ op : Opcode, p[a]? = some op.cell ∧ op.arity = 1 ∧ a + 1 = p.size ∧
          c = .outOfBounds (Int64.ofNat p.size) := by
  refine ⟨?_, ?_⟩
  · intro is hw
    rw [listing_assemble hw, addressedFrom_eq_mapIdx]
    simp only [Nat.zero_add]
  · intro p lines is
    obtain ⟨e, ht, -⟩ := tiles_listingFrom p 0
    exact ⟨fun _ => ht.head_address, fun _ _ _ => ht.next_address, ht.wellFormed,
      toList_assemble_listing p, bad_eq_none_iff, fun _ _ => bad_eq_some⟩

theorem listing_assemble_push_halt :
    (assemble [.withOperand .push 7, .plain .halt]).listing =
      ⟨[(0, .withOperand .push 7), (2, .plain .halt)], none⟩ :=
  (listing_inverse_assemble.1 [.withOperand .push 7, .plain .halt] (by decide)).trans (by rfl)

end StackMachine.Program
