import StackMachine.Dump
import StackMachine.Proofs.Decimal

/-! Messages determine what they tell. The first characters of a message give its kind of cause
(`codeOfMessage_message`); what else it tells stands between texts that the kind fixes. A fault adds
its address at the end, and the digits there cannot be mistaken for the end of a message, whatever
text a writer gave for its refusal. -/

namespace StackMachine

section Split

variable {α : Type} {P : α → Prop} {x x' y y' : List α} {a a' : α}

/-- Lists that are equal split in the same place at the first element with some property. -/
theorem eq_of_append_cons_first (ha : P a) (ha' : P a') (hx : ∀ b ∈ x, ¬ P b)
    (hx' : ∀ b ∈ x', ¬ P b) (h : x ++ a :: y = x' ++ a' :: y') : x = x' ∧ a = a' ∧ y = y' := by
  induction x generalizing x' with
  | nil =>
    cases x' with
    | nil => exact ⟨rfl, List.cons.inj h⟩
    | cons b r =>
      obtain ⟨rfl, -⟩ := List.cons.inj h
      exact absurd ha (hx' a List.mem_cons_self)
  | cons b r ih =>
    cases x' with
    | nil =>
      obtain ⟨rfl, -⟩ := List.cons.inj h
      exact absurd ha' (hx b List.mem_cons_self)
    | cons c s =>
      obtain ⟨rfl, hr⟩ := List.cons.inj h
      obtain ⟨rfl, hrest⟩ := ih (fun d hd => hx d (List.mem_cons_of_mem _ hd))
        (fun d hd => hx' d (List.mem_cons_of_mem _ hd)) hr
      exact ⟨rfl, hrest⟩

/-- And so they do at the last one. -/
theorem eq_of_append_cons_last (ha : P a) (ha' : P a') (hy : ∀ b ∈ y, ¬ P b)
    (hy' : ∀ b ∈ y', ¬ P b) (h : x ++ a :: y = x' ++ a' :: y') : x = x' ∧ a = a' ∧ y = y' := by
  have hr : y.reverse ++ a :: x.reverse = y'.reverse ++ a' :: x'.reverse := by
    simpa using congrArg List.reverse h
  obtain ⟨hy, rfl, hx⟩ := eq_of_append_cons_first ha ha' (by simpa using hy) (by simpa using hy') hr
  exact ⟨List.reverse_injective hx, rfl, List.reverse_injective hy⟩

end Split

theorem eq_of_between {before after s t : String} (h : before ++ s ++ after = before ++ t ++ after) :
    s = t :=
  (String.append_right_inj _).1 ((String.append_left_inj _).1 h)

theorem Cell.text_injective {v w : Cell} (h : v.text = w.text) : v = w :=
  Int32.toInt_inj.1 (Int.repr_injective h)

theorem isDigit_of_mem_repr {n : Nat} {c : Char} (hc : c ∈ n.repr.toList) : c.isDigit = true := by
  rw [Nat.toList_repr] at hc
  exact Nat.isDigit_of_mem_toDigits (by decide) (by decide) hc

namespace Cause

/-- How messages begin, with the exit status of their cause. Of two openings that fit, the first
one counts. -/
def openings : List (List Char × Nat) :=
  [("stack underflow".toList, 2), ("stack overflow".toList, 3), ("variable index ".toList, 4),
    ("variable ".toList, 5), ("division by zero".toList, 6), ("unknown instruction ".toList, 7),
    ("program index ".toList, 8), ("step limit of ".toList, 9),
    ("failed to write output: ".toList, 10)]

def codeOfMessage (s : List Char) : Option Nat :=
  (openings.find? fun o => o.1.isPrefixOf s).map (·.2)

theorem codeOfMessage_variable {d : Char} (hd : d.isDigit = true) (s : List Char) :
    codeOfMessage ("variable ".toList ++ d :: s) = some 5 := by
  have hne : ('i' == d) = false := by
    rw [beq_eq_false_iff_ne]
    rintro rfl
    exact absurd hd (by decide)
  have hunderflow : "stack underflow".toList.isPrefixOf ("variable ".toList ++ d :: s) = false := rfl
  have hoverflow : "stack overflow".toList.isPrefixOf ("variable ".toList ++ d :: s) = false := rfl
  -- What follows the word is a digit, so the message is not about an index.
  have hindex : "variable index ".toList.isPrefixOf ("variable ".toList ++ d :: s) = false := by
    have hi : "variable index ".toList.isPrefixOf ("variable ".toList ++ d :: s) =
        ('i' == d && "ndex ".toList.isPrefixOf s) := rfl
    rw [hi, hne, Bool.false_and]
  unfold codeOfMessage openings
  rw [List.find?_cons, hunderflow, List.find?_cons, hoverflow, List.find?_cons, hindex]
  rfl

theorem codeOfMessage_message (c : Cause) : codeOfMessage c.message.toList = some c.exitCode := by
  cases c with
  | stackUnderflow | stackOverflow | divisionByZero => decide +kernel
  | indexOutOfRange w =>
    change codeOfMessage ("variable index " ++ w.text ++ " out of range").toList = some 4
    rw [String.toList_append, String.toList_append]
    rfl
  | readBeforeAllocation i =>
    change codeOfMessage ("variable " ++ i.repr ++ " read before it was allocated").toList = some 5
    obtain ⟨d, r, hd⟩ : ∃ d r, i.repr.toList = d :: r := by
      rw [Nat.toList_repr]
      exact List.exists_cons_of_ne_nil Nat.toDigits_ne_nil
    rw [String.toList_append, String.toList_append, hd, List.append_assoc]
    exact codeOfMessage_variable (isDigit_of_mem_repr (hd ▸ List.mem_cons_self)) _
  | unknownInstruction w =>
    change codeOfMessage ("unknown instruction " ++ w.text).toList = some 7
    rw [String.toList_append]
    rfl
  | outOfBounds i =>
    change codeOfMessage ("program index " ++ i.toInt.repr ++ " out of bounds").toList = some 8
    rw [String.toList_append, String.toList_append]
    rfl
  | stepLimit n =>
    change codeOfMessage ("step limit of " ++ n.repr ++ " exceeded").toList = some 9
    rw [String.toList_append, String.toList_append]
    rfl
  | output detail =>
    change codeOfMessage ("failed to write output: " ++ detail).toList = some 10
    rw [String.toList_append]
    rfl

theorem exitCode_of_message {c d : Cause} (h : c.message = d.message) : c.exitCode = d.exitCode :=
  Option.some.inj (by rw [← codeOfMessage_message c, h, codeOfMessage_message])

theorem message_injective {c d : Cause} (h : c.message = d.message) : c = d := by
  have hcode := exitCode_of_message h
  cases c with
  | stackUnderflow =>
    cases d with
    | stackUnderflow => rfl
    | _ => cases hcode
  | stackOverflow =>
    cases d with
    | stackOverflow => rfl
    | _ => cases hcode
  | divisionByZero =>
    cases d with
    | divisionByZero => rfl
    | _ => cases hcode
  | indexOutOfRange w =>
    cases d with
    | indexOutOfRange v =>
      have ht := eq_of_between h
      rw [Cell.text_injective ht]
    | _ => cases hcode
  | readBeforeAllocation i =>
    cases d with
    | readBeforeAllocation k =>
      have ht := eq_of_between h
      rw [Nat.repr_injective ht]
    | _ => cases hcode
  | unknownInstruction w =>
    cases d with
    | unknownInstruction v => rw [Cell.text_injective ((String.append_right_inj _).1 h)]
    | _ => cases hcode
  | outOfBounds i =>
    cases d with
    | outOfBounds k =>
      have ht := eq_of_between h
      rw [Int64.toInt_inj.1 (Int.repr_injective ht)]
    | _ => cases hcode
  | stepLimit n =>
    cases d with
    | stepLimit k =>
      have ht := eq_of_between h
      rw [Nat.repr_injective ht]
    | _ => cases hcode
  | output e =>
    cases d with
    | output f => rw [(String.append_right_inj _).1 h]
    | _ => cases hcode

end Cause

theorem Fault.message_injective {f g : Fault} (h : f.message = g.message) : f = g := by
  have hsplit (k : Fault) : k.message.toList =
      (k.cause.message.toList ++ " at ip".toList) ++ ' ' :: k.address.repr.toList := by
    rw [message, String.toList_append, String.toList_append]
    simp
  have hdigits (k : Fault) : ∀ c ∈ k.address.repr.toList, ¬ c.isDigit = false := by
    intro c hc
    rw [isDigit_of_mem_repr hc]
    decide
  have ht := congrArg String.toList h
  rw [hsplit, hsplit] at ht
  obtain ⟨hc, -, ha⟩ :=
    eq_of_append_cons_last (P := fun c => c.isDigit = false) rfl rfl (hdigits f) (hdigits g) ht
  have hcause := Cause.message_injective (String.toList_inj.1 (List.append_cancel_right hc))
  have haddress := Nat.repr_injective (String.toList_inj.1 ha)
  cases f
  cases g
  cases hcause
  cases haddress
  rfl

/-- The text of a fault tells the fault and that of a cause the cause, so also the exit status. This
holds whatever a writer says of its refusal, even if that reads like another fault. -/
theorem Fault.texts_unambiguous :
    (∀ f g : Fault, f.message = g.message → f = g) ∧
      (∀ c d : Cause, c.message = d.message → c = d) ∧
      ∀ c d : Cause, c.message = d.message → c.exitCode = d.exitCode :=
  ⟨fun _ _ => message_injective, fun _ _ => Cause.message_injective,
    fun _ _ => Cause.exitCode_of_message⟩

/-- The refusal ends like a fault at address 3, and the fault is at address 12 all the same. -/
theorem Fault.texts_unambiguous_refusal :
    let refusal := "stack underflow at ip 3"
    let f : Fault := ⟨.output refusal, 12⟩
    let g : Fault := ⟨.output (Fault.message ⟨.stackUnderflow, 3⟩), 12⟩
    f.message = g.message ∧ f = g ∧ f.cause = g.cause ∧ f.cause.exitCode = g.cause.exitCode := by
  intro refusal f g
  have hrefusal : Fault.message ⟨.stackUnderflow, 3⟩ = refusal := by decide +kernel
  have hcause : f.cause.message = g.cause.message :=
    congrArg (fun detail => Cause.message (.output detail)) hrefusal.symm
  have hfault : f.message = g.message := congrArg (· ++ " at ip " ++ Nat.repr 12) hcause
  obtain ⟨hf, hc, he⟩ := texts_unambiguous
  exact ⟨hfault, hf f g hfault, hc _ _ hcause, he _ _ hcause⟩

theorem Ending.name_injective {d e : Ending} (h : d.name = e.name) : d = e := by
  cases d with
  | instruction =>
    cases e with
    | instruction => rfl
    | endOfProgram => exact absurd h (by decide)
  | endOfProgram =>
    cases e with
    | endOfProgram => rfl
    | instruction => exact absurd h (by decide)

namespace Status

/-- What tells a status at its first character. -/
def initial : Status → Char
  | running => 'R'
  | halted _ => 'H'
  | faulted _ => 'F'

theorem head?_text (s : Status) : s.text.toList.head? = some s.initial := by
  cases s with
  | running => rfl
  | halted e => cases e <;> rfl
  | faulted f =>
    change ("Faulted: " ++ f.message ++ ".").toList.head? = some 'F'
    rw [String.toList_append, String.toList_append]
    rfl

theorem text_injective {s t : Status} (h : s.text = t.text) : s = t := by
  have hi : s.initial = t.initial := Option.some.inj (by rw [← head?_text s, h, head?_text])
  cases s with
  | running =>
    cases t with
    | running => rfl
    | halted e | faulted f => cases hi
  | halted e =>
    cases t with
    | halted d =>
      have hn := eq_of_between h
      rw [Ending.name_injective hn]
    | running | faulted f => cases hi
  | faulted f =>
    cases t with
    | faulted g =>
      have hm := eq_of_between h
      rw [Fault.message_injective hm]
    | running | halted e => cases hi

end Status

end StackMachine
