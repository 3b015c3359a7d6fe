import StackMachine.Proofs.Faults
import StackMachine.Proofs.Listing

/-! Runs that keep to a listing. If all of a program can be listed and its jumps lead to addresses
of the listing or out of the program, then wherever execution goes it finds the instructions that
are listed, and nothing that cannot be decoded (`listing_predicts_run`). Nothing but position tells
an opcode from an operand, so this needs that each listed instruction ends where the next one starts
(`Tiles.next_mem`) and that an instruction goes on there or to its target. -/

namespace StackMachine

namespace Program

/-- An address that an instruction is listed at, or the end of the program. -/
def IsBoundary (p : Program) (a : Nat) : Prop := a ∈ p.listing.lines.map (·.1) ∨ a = p.size

instance (p : Program) (a : Nat) : Decidable (p.IsBoundary a) :=
  inferInstanceAs (Decidable (_ ∨ _))

/-- Every listed jump that stays within the program, its end included, leads to a boundary. -/
def JumpsToBoundaries (p : Program) : Prop :=
  ∀ x ∈ p.listing.lines, ∀ t ∈ x.2.target?, ∀ a ∈ t.index?, a ≤ p.size → p.IsBoundary a

variable {p : Program} {a b e : Nat} {i : Instruction}

namespace Tiles

variable {lines : List (Nat × Instruction)}

theorem decode_of_mem (h : Tiles p a lines e) (hx : (b, i) ∈ lines) : p.decode b = .ok i := by
  induction h with
  | nil => cases hx
  | cons hd _ ih =>
    obtain hx | hx := List.mem_cons.1 hx
    · cases hx
      exact hd
    · exact ih hx

theorem start_mem (h : Tiles p a lines e) : a ∈ lines.map (·.1) ∨ a = e := by
  cases h with
  | nil => exact .inr rfl
  | cons => exact .inl List.mem_cons_self

theorem next_mem (h : Tiles p a lines e) (hx : (b, i) ∈ lines) :
    b + i.size ∈ lines.map (·.1) ∨ b + i.size = e := by
  induction h with
  | nil => cases hx
  | cons _ ht ih =>
    obtain hx | hx := List.mem_cons.1 hx
    · cases hx
      exact ht.start_mem.imp_left (List.mem_cons_of_mem _)
    · exact (ih hx).imp_left (List.mem_cons_of_mem _)

end Tiles

theorem decode_of_listed (hbad : p.listing.bad = none) (h : (a, i) ∈ p.listing.lines) :
    p.decode a = .ok i :=
  (tiles_listing hbad).decode_of_mem h

theorem IsBoundary.exists_listed (h : p.IsBoundary a) (ha : a < p.size) :
    ∃ i, (a, i) ∈ p.listing.lines := by
  obtain ⟨⟨_, i⟩, hx, rfl⟩ := List.mem_map.1 (h.resolve_right (Nat.ne_of_lt ha))
  exact ⟨i, hx⟩

theorem IsBoundary.mem_listing_iff (hbad : p.listing.bad = none) (h : p.IsBoundary a)
    (hd : p.decode a = .ok i) (j : Instruction) : (a, j) ∈ p.listing.lines ↔ j = i := by
  have hj : ∀ k, (a, k) ∈ p.listing.lines → k = i := by
    intro k hk
    have hk := decode_of_listed hbad hk
    rw [hd] at hk
    exact (Except.ok.inj hk).symm
  obtain ⟨k, hk⟩ := h.exists_listed (lt_size_of_decode hd)
  refine ⟨hj j, ?_⟩
  rintro rfl
  rwa [← hj k hk]

end Program

section

variable {W : Type} [Writer W] {l : Limits} {n : Nat} {i : Instruction} {a : Action W Control}
  {s s' : Store W} {k : Int64}

theorem Opcode.strays_of_fault? {op : Opcode} {t : Cell}
    (h : op.fault? l n t s = some (.outOfBounds k)) :
    (op = .jmp ∨ op = .jz ∨ op = .jnz) ∧ k = t.toInt64 ∧ (t.toInt < 0 ∨ n < t.toInt) := by
  cases op <;> simp only [fault?] at h <;> grind

theorem Instruction.target_of_outOfBounds (ha : i.action? n = some a)
    (hr : a.run s = .error (.outOfBounds k) s') :
    ∃ t, i.target? = some t ∧ k = t.toInt64 ∧ (t.toInt < 0 ∨ n < t.toInt) := by
  obtain ⟨hop, hk, ht⟩ := Opcode.strays_of_fault? (fault?_of_run ha hr)
  cases i with
  | withOperand op v =>
    refine ⟨v, ?_, hk, ht⟩
    obtain rfl | rfl | rfl : op = .jmp ∨ op = .jz ∨ op = .jnz := hop
    · rfl
    · rfl
    · rfl
  | plain op =>
    obtain rfl | rfl | rfl : op = .jmp ∨ op = .jz ∨ op = .jnz := hop
    · cases ha
    · cases ha
    · cases ha

end

/-- A fault that does not come from decoding: no unknown instruction, and nothing out of bounds but
the target of a listed jump. -/
def Fault.OfListed (p : Program) (f : Fault) : Prop :=
  (∀ w, f.cause ≠ .unknownInstruction w) ∧
    ∀ k, f.cause = .outOfBounds k → ∃ i t, (f.address, i) ∈ p.listing.lines ∧
      i.target? = some t ∧ k = t.toInt64 ∧ (t.toInt < 0 ∨ p.size < t.toInt)

namespace Machine

variable {W : Type} {p : Program} {l : Limits} {m m' : Machine W}

structure KeepsTo (p : Program) (m : Machine W) : Prop where
  boundary : p.IsBoundary m.pc
  fault : ∀ f, m.status = .faulted f → f.OfListed p

theorem keepsTo_start (hbad : p.listing.bad = none) (w : W) : KeepsTo p (start p l w) where
  boundary := (Program.tiles_listing hbad).start_mem
  fault _ hf := nomatch hf

variable [Writer W]

theorem keepsTo_step (hbad : p.listing.bad = none) (hj : p.JumpsToBoundaries) (hv : Valid p l m)
    (h : KeepsTo p m) {r : Except Fault Status} (ho : Outcome m r m') : KeepsTo p m' := by
  have hstable := Store.stable_sameShape (W := W)
  have hlisted : m.pc < p.size → ∃ i, (m.pc, i) ∈ p.listing.lines := h.boundary.exists_listed
  rw [← hv.program] at hlisted
  cases ho with
  | halted _ => exact h
  | faulted _ => exact h
  | exhausted _ _ => exact ⟨h.boundary, fun _ hf => nomatch hf⟩
  | unfetched _ hpc hf =>
    refine ⟨h.boundary, ?_⟩
    rintro _ ⟨⟩
    rcases fetch_eq_error_iff.1 hf with ⟨k, -, -, rfl⟩ | ⟨-, hd⟩
    · exact ⟨by rintro x ⟨⟩, by rintro k ⟨⟩⟩
    · obtain ⟨i, hi⟩ := hlisted hpc
      rw [hv.program] at hd hi
      rw [Program.decode_of_listed hbad hi] at hd
      cases hd
  | failed hp hr =>
    refine ⟨h.boundary, ?_⟩
    rintro _ ⟨⟩
    refine ⟨?_, ?_⟩
    · rintro w rfl
      exact ((hstable.ends_action hp.action).error hr).2 trivial
    · rintro k rfl
      obtain ⟨t, ht, hk, hs⟩ := Instruction.target_of_outOfBounds hp.action hr
      have hd := hp.decode
      rw [hv.program] at hd hs
      exact ⟨_, t, (h.boundary.mem_listing_iff hbad hd _).2 rfl, ht, hk, hs⟩
  | moved hp hr =>
    have hd := hp.decode
    rw [hv.program] at hd
    refine ⟨?_, fun f hf => h.fault f hf⟩
    exact (Program.tiles_listing hbad).next_mem ((h.boundary.mem_listing_iff hbad hd _).2 rfl)
  | jumped hp hr =>
    obtain ⟨-, hle, ht⟩ := (hstable.ends_action hp.action).ok hr
    have hd := hp.decode
    rw [hv.program] at hd hle
    obtain ⟨v, hv, ha⟩ := Option.bind_eq_some_iff.1 ht
    refine ⟨?_, fun f hf => h.fault f hf⟩
    exact hj _ ((h.boundary.mem_listing_iff hbad hd _).2 rfl) v hv _ ha hle
  | stopped hp hr => exact ⟨h.boundary, fun _ hf => nomatch hf⟩

theorem keepsTo_after (hbad : p.listing.bad = none) (hj : p.JumpsToBoundaries) (w : W) (n : Nat) :
    KeepsTo p ((start p l w).after n) :=
  (after_induction (P := fun m => Valid p l m ∧ KeepsTo p m)
    ⟨valid_start p l w, keepsTo_start hbad w⟩
    (fun _ _ _ h ho => ⟨valid_step h.1 ho, keepsTo_step hbad hj h.1 h.2 ho⟩) n).2

/-- If a program can be listed to its end, and its jumps lead to listed addresses or out of the
program, a machine is at a listed address or at the end of the program after any number of steps,
and there it finds the instruction that is listed. It never fails for want of an opcode or an
operand: all that is ever out of bounds is the target of a listed jump. -/
theorem listing_predicts_run (p : Program) (hbad : p.listing.bad = none)
    (hj : p.JumpsToBoundaries) (l : Limits) (w : W) (n : Nat) :
    let m := (start p l w).after n
    (m.pc ∈ p.listing.lines.map (·.1) ∨ m.pc = p.size) ∧
      (m.pc < p.size → ∃ i, m.program.decode m.pc = .ok i) ∧
      (∀ i, m.program.decode m.pc = .ok i → ∀ j, (m.pc, j) ∈ p.listing.lines ↔ j = i) ∧
      ∀ f, m.status = .faulted f →
        (∀ x, f.cause ≠ .unknownInstruction x) ∧
          ∀ k, f.cause = .outOfBounds k → ∃ i t, (f.address, i) ∈ p.listing.lines ∧
            i.target? = some t ∧ k = t.toInt64 ∧ (t.toInt < 0 ∨ p.size < t.toInt) := by
  intro m
  have h : KeepsTo p m := keepsTo_after hbad hj w n
  have hp : m.program = p := (valid_after p l w n).program
  refine ⟨h.boundary, ?_, ?_, h.fault⟩
  · intro hpc
    obtain ⟨i, hi⟩ := h.boundary.exists_listed hpc
    exact ⟨i, by rw [hp, Program.decode_of_listed hbad hi]⟩
  · intro i hd
    rw [hp] at hd
    exact h.boundary.mem_listing_iff hbad hd

/-- A loop that counts down from three is back at its second instruction after the first round. -/
theorem listing_predicts_run_loop :
    let p := Program.assemble [.withOperand .push 3, .withOperand .push 1, .plain .sub, .plain .dup,
      .withOperand .jnz 2, .plain .halt]
    (p.listing.bad = none ∧ p.JumpsToBoundaries) ∧
      ((start p {} Sink.unbounded).after 5).pc = 2 ∧
      ∀ j, (2, j) ∈ p.listing.lines ↔ j = .withOperand .push 1 := by
  intro p
  have hl : p.listing = ⟨Program.addressedFrom 0 [.withOperand .push 3, .withOperand .push 1,
      .plain .sub, .plain .dup, .withOperand .jnz 2, .plain .halt], none⟩ :=
    Program.listing_assemble (by decide)
  have hbad : p.listing.bad = none := by rw [hl]
  have htarget : ∀ x ∈ p.listing.lines, x.2.target? = none ∨ x.2.target? = some 2 := by
    rw [hl]
    decide
  have hboundary : p.IsBoundary 2 := by decide +kernel
  have hj : p.JumpsToBoundaries := by
    intro x hx t ht a ha _
    rcases htarget x hx with h | h
    · rw [h] at ht
      cases ht
    · rw [h] at ht
      cases ht
      cases ha
      exact hboundary
  have hpc : ((start p {} Sink.unbounded).after 5).pc = 2 := by decide +kernel
  have hp : ((start p {} Sink.unbounded).after 5).program = p := (valid_after p {} _ 5).program
  refine ⟨⟨hbad, hj⟩, hpc, ?_⟩
  have h := (listing_predicts_run p hbad hj {} Sink.unbounded 5).2.2.1
  rw [hpc, hp] at h
  exact h _ rfl

end Machine

end StackMachine
