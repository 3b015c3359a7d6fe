import StackMachine.Proofs.Listing
import StackMachine.Proofs.Messages
import StackMachine.Trace

/-! The text of a listing and the program that it is of. A line tells its address, which ends at the
first colon, and what stands there; a mnemonic has no blank, so its end can be seen, and an opening
bracket tells a cell that could not be decoded. So a listing can be read off its text
(`listing_eq_of_messages`), and from the listing all cells but those that it does not reach
(`cells_of_messages`). -/

namespace StackMachine

variable {W : Type}

namespace Opcode

theorem ofMnemonic?_mnemonic (op : Opcode) : ofMnemonic? op.mnemonic = some op := by
  cases op <;> decide

theorem mnemonic_injective {a b : Opcode} (h : a.mnemonic = b.mnemonic) : a = b :=
  Option.some.inj (by rw [← ofMnemonic?_mnemonic a, h, ofMnemonic?_mnemonic])

theorem all_isUpper_mnemonic (op : Opcode) : op.mnemonic.toList.all Char.isUpper = true := by
  cases op <;> rfl

theorem notMem_mnemonic {op : Opcode} {c : Char} (hc : c.isUpper = false) :
    c ∉ op.mnemonic.toList := by
  intro h
  rw [List.all_eq_true.1 op.all_isUpper_mnemonic c h] at hc
  cases hc

end Opcode

namespace Instruction

theorem toList_text_withOperand (op : Opcode) (v : Cell) :
    (withOperand op v).text.toList = op.mnemonic.toList ++ ' ' :: v.text.toList := by
  rw [text, String.toList_append, String.toList_append, List.append_assoc]
  rfl

theorem text_injective {i j : Instruction} (h : i.text = j.text) : i = j := by
  have hblank (op : Opcode) : ∀ c ∈ op.mnemonic.toList, ¬ c = ' ' := by
    rintro c hc rfl
    exact Opcode.notMem_mnemonic (by decide) hc
  have hne (op op' : Opcode) (v : Cell) : (plain op).text ≠ (withOperand op' v).text := by
    intro he
    have hmem : ' ' ∈ (plain op).text.toList := by
      rw [he, toList_text_withOperand]
      exact List.mem_append_right _ List.mem_cons_self
    exact hblank op ' ' hmem rfl
  cases i with
  | plain op =>
    cases j with
    | plain op' => rw [Opcode.mnemonic_injective h]
    | withOperand op' w => exact absurd h (hne op op' w)
  | withOperand op v =>
    cases j with
    | plain op' => exact absurd h.symm (hne op' op v)
    | withOperand op' w =>
      have ht := congrArg String.toList h
      rw [toList_text_withOperand, toList_text_withOperand] at ht
      obtain ⟨hop, -, hv⟩ :=
        eq_of_append_cons_first (P := (· = ' ')) rfl rfl (hblank op) (hblank op') ht
      rw [Opcode.mnemonic_injective (String.toList_inj.1 hop),
        Cell.text_injective (String.toList_inj.1 hv)]

theorem bracket_notMem_text (i : Instruction) : '<' ∉ i.text.toList := by
  intro h
  cases i with
  | plain op => exact Opcode.notMem_mnemonic (by decide) h
  | withOperand op v =>
    rw [toList_text_withOperand, List.mem_append, List.mem_cons] at h
    rcases h with h | h | h
    · exact Opcode.notMem_mnemonic (by decide) h
    · exact absurd h (by decide)
    · rcases Cell.sign_or_digit_of_mem_text h with h | h
      · exact absurd h (by decide)
      · exact absurd h (by decide)

end Instruction

namespace Listing

theorem filter_isDigit_leftpad (n k : Nat) :
    (n.repr.toList.leftpad k ' ').filter Char.isDigit = n.repr.toList := by
  rw [List.leftpad, List.filter_append, List.filter_replicate_of_neg (by decide), List.nil_append,
    List.filter_eq_self]
  exact fun c => isDigit_of_mem_repr

theorem colon_notMem_leftpad (n k : Nat) : ':' ∉ n.repr.toList.leftpad k ' ' := by
  intro h
  rcases List.mem_append.1 h with h | h
  · exact absurd (List.mem_replicate.1 h).2 (by decide)
  · exact absurd (isDigit_of_mem_repr h) (by decide)

theorem line_injective {a b : Nat} {s t : String} (h : line a s = line b t) : a = b ∧ s = t := by
  have hsplit (a : Nat) (s : String) :
      (line a s).toList = a.repr.toList.leftpad 4 ' ' ++ ':' :: ' ' :: s.toList := by
    rw [line, String.toList_append, String.toList_append, String.toList_ofList, List.append_assoc]
    rfl
  have hcolon (a : Nat) : ∀ c ∈ a.repr.toList.leftpad 4 ' ', ¬ c = ':' := by
    rintro c hc rfl
    exact colon_notMem_leftpad a 4 hc
  have ht := congrArg String.toList h
  rw [hsplit, hsplit] at ht
  obtain ⟨hpad, -, hrest⟩ :=
    eq_of_append_cons_first (P := (· = ':')) rfl rfl (hcolon a) (hcolon b) ht
  constructor
  · have hdigits := congrArg (List.filter Char.isDigit) hpad
    rw [filter_isDigit_leftpad, filter_isDigit_leftpad] at hdigits
    exact Nat.repr_injective (String.toList_inj.1 hdigits)
  · exact String.toList_inj.1 (List.cons.inj hrest).2

end Listing

namespace Event

variable {a b : Nat} {i j : Instruction} {c d : Cause}

theorem listed_of_message (h : (listed a i : Event W).message = (listed b j : Event W).message) :
    (a, i) = (b, j) := by
  obtain ⟨ha, hi⟩ := Listing.line_injective h
  rw [ha, Instruction.text_injective hi]

theorem undecodable_of_message
    (h : (undecodable a c : Event W).message = (undecodable b d : Event W).message) :
    (a, c) = (b, d) := by
  obtain ⟨ha, hc⟩ := Listing.line_injective h
  rw [ha, Cause.message_injective (eq_of_between hc)]

theorem message_listed_ne (a b : Nat) (i : Instruction) (c : Cause) :
    (listed a i : Event W).message ≠ (undecodable b c : Event W).message := by
  intro h
  obtain ⟨-, hi⟩ := Listing.line_injective h
  refine i.bracket_notMem_text ?_
  rw [hi, String.toList_append, String.toList_append, List.append_assoc]
  exact List.mem_cons_self

end Event

/-- No two listings have the same text. -/
theorem listing_eq_of_messages {l l' : Listing}
    (h : (l.events (W := W)).map Event.message = (l'.events (W := W)).map Event.message) :
    l = l' := by
  obtain ⟨lines, bad⟩ := l
  obtain ⟨lines', bad'⟩ := l'
  induction lines generalizing lines' with
  | nil =>
    cases lines' with
    | nil =>
      cases bad with
      | none =>
        cases bad' with
        | none => rfl
        | some y => cases h
      | some x =>
        cases bad' with
        | none => cases h
        | some y =>
          obtain rfl : x = y := Event.undecodable_of_message (List.cons.inj h).1
          rfl
    | cons y r' =>
      cases bad with
      | none => cases h
      | some x =>
        exact absurd (List.cons.inj h).1.symm (Event.message_listed_ne y.1 x.1 y.2 x.2)
  | cons x r ih =>
    cases lines' with
    | nil =>
      cases bad' with
      | none => cases h
      | some y => exact absurd (List.cons.inj h).1 (Event.message_listed_ne x.1 y.1 x.2 y.2)
    | cons y r' =>
      obtain ⟨hhead, htail⟩ := List.cons.inj h
      obtain rfl : x = y := Event.listed_of_message hhead
      obtain ⟨rfl, rfl⟩ := Listing.mk.inj (ih r' htail)
      rfl

namespace Program

variable {p q : Program}

/-- The cells before the address where a listing ends can be told from it. -/
theorem getElem?_of_listing (h : p.listing = q.listing) {a : Nat} {c : Cause}
    (hbad : p.listing.bad = some (a, c)) {k : Nat} (hk : k < a) : p[k]? = q[k]? := by
  have hp := toList_assemble_listing p
  have hq := toList_assemble_listing q
  rw [← h, hp, hbad] at hq
  have htake : p.toList.take a = q.toList.take a := hq
  have hcell := congrArg (·[k]?) htake
  simpa [List.getElem?_take, hk] using hcell

/-- Two programs for which a traced run begins with the same texts are the same if they can be listed
to their ends; they are the same up to a cell that is no opcode; and they are the same up to their last
cells if there an operand is missing. -/
theorem cells_of_messages (p q : Program)
    (h : (p.listing.events (W := W)).map Event.message =
      (q.listing.events (W := W)).map Event.message) :
    (p.listing.bad = none → q.listing.bad = none ∧ p = q) ∧
    (∀ a w, p.listing.bad = some (a, .unknownInstruction w) →
      a < p.size ∧ a < q.size ∧ ∀ k ≤ a, p[k]? = q[k]?) ∧
    ∀ a k, p.listing.bad = some (a, .outOfBounds k) →
      p.size = q.size ∧ a + 1 = p.size ∧ (∀ k < a, p[k]? = q[k]?) ∧
        ∃ op op' : Opcode, op.arity = 1 ∧ op'.arity = 1 ∧
          p[a]? = some op.cell ∧ q[a]? = some op'.cell := by
  have hl : p.listing = q.listing := listing_eq_of_messages h
  refine ⟨fun hbad => ?_, fun a w hbad => ?_, fun a k hbad => ?_⟩
  · have hp := toList_assemble_listing p
    have hq := toList_assemble_listing q
    rw [← hl, hp, hbad, Option.elim_none, Option.elim_none, List.take_of_length_le (by simp),
      List.take_of_length_le (by simp)] at hq
    exact ⟨hl ▸ hbad, Array.toList_inj.1 hq⟩
  · have hp := getElem?_of_bad_unknown hbad
    have hq := getElem?_of_bad_unknown (hl ▸ hbad)
    refine ⟨(Array.getElem?_eq_some_iff.1 hp).1, (Array.getElem?_eq_some_iff.1 hq).1, ?_⟩
    intro k hk
    rcases Nat.lt_or_eq_of_le hk with hk | rfl
    · exact getElem?_of_listing hl hbad hk
    · rw [hp, hq]
  · obtain ⟨op, hp, harity, hsize⟩ := exists_opcode_of_bad_outOfBounds hbad
    obtain ⟨op', hq, harity', hsize'⟩ := exists_opcode_of_bad_outOfBounds (hl ▸ hbad)
    exact ⟨hsize.symm.trans hsize', hsize, fun k => getElem?_of_listing hl hbad,
      op, op', harity, harity', hp, hq⟩

/-- The texts do not tell which operand is missing. -/
theorem cells_of_messages_truncated :
    let p : Program := #[0, -5, 9]
    let q : Program := #[0, -5, 17]
    let texts := ["   0: PUSH -5", "   2: <program index 3 out of bounds>"]
    (p.listing.events (W := Sink)).map Event.message = texts ∧
      (q.listing.events (W := Sink)).map Event.message = texts ∧
      p ≠ q ∧ p.size = q.size ∧ ∀ k < 2, p[k]? = q[k]? := by
  intro p q texts
  have hp : p.listing = ⟨[(0, .withOperand .push (-5))], some (2, .outOfBounds 3)⟩ :=
    Tiles.listingFrom_eq (.cons rfl .nil) ⟨rfl, by decide, rfl⟩
  have hq : q.listing = ⟨[(0, .withOperand .push (-5))], some (2, .outOfBounds 3)⟩ :=
    Tiles.listingFrom_eq (.cons rfl .nil) ⟨rfl, by decide, rfl⟩
  have hpt : (p.listing.events (W := Sink)).map Event.message = texts := by
    rw [hp]
    decide +kernel
  have hqt : (q.listing.events (W := Sink)).map Event.message = texts := by
    rw [hq]
    decide +kernel
  obtain ⟨hsize, -, hcells, -⟩ :=
    (cells_of_messages p q (hpt.trans hqt.symm)).2.2 2 3 (congrArg Listing.bad hp)
  exact ⟨hpt, hqt, by decide, hsize, hcells⟩

end Program

end StackMachine
