import StackMachine.Proofs.Listing

/-! The listing of a program that is followed by another one (`listing_append`). The first listing
ends in one of three ways: at the end of its program, and then the second one goes on from there; at a
cell that is no opcode, and then nothing of what follows is listed; or at an opcode without its
operand, which is then the first cell that follows. Lines stay where they are while cells are added
behind them (`Tiles.append_left`) and move with the cells that are put before them
(`Tiles.append_right`). -/

namespace StackMachine

/-- The cause that is found when `n` cells are put before a program. An index is a 64-bit number. -/
def Cause.raise (n : Nat) : Cause → Cause
  | outOfBounds k => outOfBounds (k + Int64.ofNat n)
  | c => c

def Listing.raise (n : Nat) (l : Listing) : Listing where
  lines := l.lines.map fun (a, i) => (a + n, i)
  bad := l.bad.map fun (a, c) => (a + n, c.raise n)

namespace Program

variable {p q : Program} {a b e : Nat} {i : Instruction} {c : Cause}

theorem decode_append_left (q : Program) (h : ∀ k, p.decode a ≠ .error (.outOfBounds k)) :
    (p ++ q).decode a = p.decode a := by
  have hle : p.size ≤ (p ++ q).size := by
    rw [Array.size_append]
    exact Nat.le_add_right ..
  refine (decode_of_agrees hle fun k _ hk => Array.getElem?_append_left hk).resolve_right ?_
  rintro ⟨-, k, hk⟩
  exact h k hk

theorem decode_append_right (p q : Program) (a : Nat) :
    (p ++ q).decode (a + p.size) = (q.decode a).mapError (Cause.raise p.size) := by
  have hcell (k : Nat) : (p ++ q)[k + p.size]? = q[k]? := by
    rw [Array.getElem?_append_right (Nat.le_add_left ..), Nat.add_sub_cancel]
  unfold decode
  rw [hcell, Nat.add_right_comm, hcell]
  cases q[a]? with
  | none =>
    rw [Int64.ofNat_add]
    rfl
  | some w =>
    dsimp only
    cases Opcode.ofCell? w with
    | none => rfl
    | some op =>
      dsimp only
      by_cases ha : op.arity = 0
      · rw [if_pos ha, if_pos ha]
        rfl
      · rw [if_neg ha, if_neg ha]
        cases q[a + 1]? with
        | none =>
          rw [Int64.ofNat_add (a + 1)]
          rfl
        | some v => rfl

namespace Tiles

variable {lines lines' : List (Nat × Instruction)}

theorem append_left (h : Tiles p a lines e) (q : Program) : Tiles (p ++ q) a lines e := by
  induction h with
  | nil => exact .nil
  | cons hd _ ih =>
    refine .cons ?_ ih
    rw [decode_append_left q (by simp [hd]), hd]

theorem append_right (h : Tiles q a lines e) (p : Program) :
    Tiles (p ++ q) (a + p.size) (lines.map fun (b, i) => (b + p.size, i)) (e + p.size) := by
  induction h with
  | nil => exact .nil
  | cons hd _ ih =>
    refine .cons ?_ ?_
    · rw [decode_append_right, hd]
      rfl
    · rwa [Nat.add_right_comm]

theorem trans (h : Tiles p a lines b) (h' : Tiles p b lines' e) :
    Tiles p a (lines ++ lines') e := by
  induction h with
  | nil => exact h'
  | cons hd _ ih => exact .cons hd (ih h')

end Tiles

theorem Stops.append_right {bad : Option (Nat × Cause)} (h : q.Stops e bad) (p : Program) :
    (p ++ q).Stops (e + p.size) (bad.map fun (a, c) => (a + p.size, c.raise p.size)) := by
  have hsize : (p ++ q).size = q.size + p.size := by
    rw [Array.size_append, Nat.add_comm]
  rcases bad with _ | ⟨b, c⟩
  · have hle : q.size ≤ e := h
    change (p ++ q).size ≤ e + p.size
    omega
  · obtain ⟨rfl, hlt, hd⟩ := h
    refine ⟨rfl, by omega, ?_⟩
    rw [decode_append_right, hd]
    rfl

theorem listing_append_of_complete (h : p.listing.bad = none) (q : Program) :
    (p ++ q).listing = ⟨p.listing.lines ++ (q.listing.raise p.size).lines,
      (q.listing.raise p.size).bad⟩ := by
  obtain ⟨e, ht, hs⟩ := exists_tiles_listing q
  have hright := ht.append_right p
  rw [Nat.zero_add] at hright
  exact (((tiles_listing h).append_left q).trans hright).listingFrom_eq (hs.append_right p)

theorem listing_append_of_unknown {w : Cell} (h : p.listing.bad = some (a, .unknownInstruction w))
    (q : Program) : (p ++ q).listing = p.listing := by
  obtain ⟨e, ht, hs⟩ := exists_tiles_listing p
  refine (ht.append_left q).listingFrom_eq ?_
  change (p ++ q).Stops e p.listing.bad
  rw [h] at hs ⊢
  obtain ⟨rfl, hlt, hd⟩ := hs
  refine ⟨rfl, ?_, ?_⟩
  · rw [Array.size_append]
    omega
  · rw [decode_append_left q (by simp [hd]), hd]

theorem listing_append_operand {k : Int64} (h : p.listing.bad = some (a, .outOfBounds k)) (x : Cell) :
    ∃ op : Opcode, p[a]? = some op.cell ∧
      (p ++ #[x]).listing = ⟨p.listing.lines ++ [(a, .withOperand op x)], none⟩ := by
  obtain ⟨op, hop, harity, hsize⟩ := exists_opcode_of_bad_outOfBounds h
  obtain ⟨e, ht, hs⟩ := exists_tiles_listing p
  rw [h] at hs
  obtain ⟨rfl, hlt, -⟩ := hs
  have hopcode : (p ++ #[x])[a]? = some op.cell := by
    rw [Array.getElem?_append_left hlt, hop]
  have hoperand : (p ++ #[x])[a + 1]? = some x := by
    rw [hsize, Array.getElem?_append_right (Nat.le_refl _), Nat.sub_self]
    rfl
  have hd : (p ++ #[x]).decode a = .ok (.withOperand op x) := by
    refine decode_eq_ok_iff.2 ⟨harity, cons_prefix_drop_iff.2 ⟨?_, cons_prefix_drop_iff.2
      ⟨?_, List.nil_prefix⟩⟩⟩
    · rwa [Array.getElem?_toList]
    · rwa [Array.getElem?_toList]
  refine ⟨op, hop, ((ht.append_left #[x]).trans (.cons hd .nil)).listingFrom_eq ?_⟩
  change (p ++ #[x]).size ≤ a + (1 + op.arity)
  rw [Array.size_append, harity, ← hsize]
  exact Nat.le_refl _

/-- The listing of a program that is followed by another is told by the two listings: by how the first
one ends and, if that is at an opcode without its operand, by the first cell of the other program and
the listing of the rest. -/
theorem listing_append (p q : Program) :
    (p.listing.bad = none → (p ++ q).listing =
      ⟨p.listing.lines ++ (q.listing.raise p.size).lines, (q.listing.raise p.size).bad⟩) ∧
    (∀ a w, p.listing.bad = some (a, .unknownInstruction w) → (p ++ q).listing = p.listing) ∧
    ∀ a k x (r : Program), p.listing.bad = some (a, .outOfBounds k) → q = #[x] ++ r →
      ∃ op : Opcode, p[a]? = some op.cell ∧ (p ++ q).listing =
        ⟨p.listing.lines ++ (a, .withOperand op x) :: (r.listing.raise (p.size + 1)).lines,
          (r.listing.raise (p.size + 1)).bad⟩ := by
  refine ⟨fun h => listing_append_of_complete h q, fun a w h => listing_append_of_unknown h q, ?_⟩
  rintro a k x r h rfl
  obtain ⟨op, hop, hl⟩ := listing_append_operand h x
  have hrest := listing_append_of_complete (congrArg Listing.bad hl) r
  rw [hl, Array.size_append] at hrest
  refine ⟨op, hop, ?_⟩
  rw [← Array.append_assoc, hrest, List.append_assoc]
  rfl

/-- A truncated jump takes the first cell of what follows for its target; what was bad there stays bad
further on. -/
theorem listing_append_truncated :
    let p : Program := #[1, 9]
    let q : Program := #[0, 18, 0]
    p.listing = ⟨[(0, .plain .pop)], some (1, .outOfBounds 2)⟩ ∧
      q.listing = ⟨[(0, .withOperand .push 18)], some (2, .outOfBounds 3)⟩ ∧
      (p ++ q).listing =
        ⟨[(0, .plain .pop), (1, .withOperand .jmp 0), (3, .plain .halt)],
          some (4, .outOfBounds 5)⟩ := by
  intro p q
  have hp : p.listing = ⟨[(0, .plain .pop)], some (1, .outOfBounds 2)⟩ :=
    Tiles.listingFrom_eq (.cons rfl .nil) ⟨rfl, by decide, rfl⟩
  have hq : q.listing = ⟨[(0, .withOperand .push 18)], some (2, .outOfBounds 3)⟩ :=
    Tiles.listingFrom_eq (.cons rfl .nil) ⟨rfl, by decide, rfl⟩
  let r : Program := #[18, 0]
  have hr : r.listing = ⟨[(0, .plain .halt)], some (1, .outOfBounds 2)⟩ :=
    Tiles.listingFrom_eq (.cons rfl .nil) ⟨rfl, by decide, rfl⟩
  obtain ⟨op, hop, h⟩ := (listing_append p q).2.2 1 2 0 r (congrArg Listing.bad hp) rfl
  obtain rfl : Opcode.jmp = op := Opcode.cell_injective (Option.some.inj hop)
  rw [hp, hr] at h
  exact ⟨hp, hq, h⟩

end Program

end StackMachine
