import StackMachine.Program

/-! What decoding at an address finds, in both directions. It gives an instruction exactly if that
is well formed and its cells stand there (`decode_eq_ok_iff`), it fails in exactly three ways
(`decode_eq_error_iff`), and either way it looks at no cell but those that the instruction would have
(`decode_congr`). -/

namespace StackMachine.Program

theorem cons_prefix_drop_iff {w : Cell} {r l : List Cell} {n : Nat} :
    w :: r <+: l.drop n ↔ l[n]? = some w ∧ r <+: l.drop (n + 1) := by
  by_cases h : n < l.length
  · rw [List.drop_eq_getElem_cons h, List.cons_prefix_cons, List.getElem?_eq_getElem h,
      Option.some.injEq, eq_comm]
  · have hd : l.drop n = [] := List.drop_eq_nil_of_le (Nat.not_lt.1 h)
    have hn : l[n]? = none := List.getElem?_eq_none (Nat.not_lt.1 h)
    simp [hd, hn]

theorem decode_eq_ok_iff {p : Program} {pc : Nat} {i : Instruction} :
    p.decode pc = .ok i ↔ i.WellFormed ∧ i.cells <+: p.toList.drop pc := by
  constructor
  · intro h
    refine ⟨wellFormed_of_decode h, ?_⟩
    unfold decode at h
    split at h
    · cases h
    · rename_i w hw
      split at h
      · cases h
      · rename_i op hop
        obtain rfl := Opcode.ofCell?_eq_some_iff.1 hop
        split at h
        · cases h
          exact cons_prefix_drop_iff.2 ⟨by simpa using hw, List.nil_prefix⟩
        · split at h
          · cases h
          · rename_i v hv
            cases h
            exact cons_prefix_drop_iff.2
              ⟨by simpa using hw, cons_prefix_drop_iff.2 ⟨by simpa using hv, List.nil_prefix⟩⟩
  · rintro ⟨hi, hc⟩
    unfold decode
    cases i with
    | plain op =>
      have hw : p[pc]? = some op.cell := by simpa using (cons_prefix_drop_iff.1 hc).1
      have ha : op.arity = 0 := hi
      simp only [hw, Opcode.ofCell?_cell, ha, if_true]
    | withOperand op v =>
      obtain ⟨hw, hv⟩ := cons_prefix_drop_iff.1 hc
      replace hw : p[pc]? = some op.cell := by simpa using hw
      replace hv : p[pc + 1]? = some v := by simpa using (cons_prefix_drop_iff.1 hv).1
      have ha : op.arity = 1 := hi
      simp [hw, hv, ha]

theorem getElem?_of_decode {p : Program} {pc : Nat} {i : Instruction} (h : p.decode pc = .ok i) :
    p[pc]? = some i.opcode.cell := by
  have hc := (decode_eq_ok_iff.1 h).2
  cases i with
  | plain op => simpa [Instruction.opcode] using (cons_prefix_drop_iff.1 hc).1
  | withOperand op v => simpa [Instruction.opcode] using (cons_prefix_drop_iff.1 hc).1

theorem operand_of_decode {p : Program} {pc : Nat} {op : Opcode} {v : Cell}
    (h : p.decode pc = .ok (.withOperand op v)) : p[pc + 1]? = some v := by
  obtain ⟨-, hv⟩ := cons_prefix_drop_iff.1 (decode_eq_ok_iff.1 h).2
  simpa using (cons_prefix_drop_iff.1 hv).1

theorem decode_eq_error_iff {p : Program} {pc : Nat} {c : Cause} :
    p.decode pc = .error c ↔
      (p.size ≤ pc ∧ c = .outOfBounds (Int64.ofNat pc)) ∨
      (∃ w, p[pc]? = some w ∧ (w.toInt < 0 ∨ 18 < w.toInt) ∧ c = .unknownInstruction w) ∨
      ∃ op : Opcode, p[pc]? = some op.cell ∧ op.arity = 1 ∧ pc + 1 = p.size ∧
        c = .outOfBounds (Int64.ofNat p.size) := by
  cases hw : p[pc]? with
  | none =>
    have := Array.getElem?_eq_none_iff.1 hw
    simp [decode, this, eq_comm]
  | some w =>
    have hpc := (Array.getElem?_eq_some_iff.1 hw).1
    cases ho : Opcode.ofCell? w with
    | none =>
      have hr := Opcode.ofCell?_eq_none_iff.1 ho
      have hne : ∀ op : Opcode, w ≠ op.cell := by rintro op rfl; simp at ho
      simp [decode, hw, ho, hr, hne, Nat.not_le.2 hpc, eq_comm]
    | some op =>
      obtain rfl := Opcode.ofCell?_eq_some_iff.1 ho
      have hr := op.not_unknown_cell
      have hinj : ∀ o : Opcode, op.cell = o.cell ↔ op = o :=
        fun o => ⟨Opcode.cell_injective, congrArg _⟩
      rcases Nat.le_one_iff_eq_zero_or_eq_one.1 op.arity_le_one with ha | ha
      · simp [decode, hw, ha, hr, hinj, Nat.not_le.2 hpc]
      · cases hv : p[pc + 1]? with
        | none =>
          have hs : pc + 1 = p.size := by
            have := Array.getElem?_eq_none_iff.1 hv
            omega
          simp [decode, hw, ha, hr, hinj, hs, Nat.not_le.2 hpc, eq_comm]
        | some v =>
          have hs := (Array.getElem?_eq_some_iff.1 hv).1
          simp [decode, hw, hv, ha, hr, hinj, Nat.ne_of_lt hs, Nat.not_le.2 hpc]

/-- The cells that decoding at an address asks for: the one that stands there, and the next one if
an operand belongs to it. -/
def Asks (p : Program) (pc k : Nat) : Prop :=
  k = pc ∨ k = pc + 1 ∧ ∃ op : Opcode, p[pc]? = some op.cell ∧ op.arity = 1

variable {p q : Program} {pc k : Nat}

theorem decode_congr (h : ∀ k, p.Asks pc k → q[k]? = p[k]?) : q.decode pc = p.decode pc := by
  unfold decode
  rw [h pc (.inl rfl)]
  cases hw : p[pc]? with
  | none => rfl
  | some w =>
    cases ho : Opcode.ofCell? w with
    | none => simp only [ho]
    | some op =>
      by_cases ha : op.arity = 0
      · simp only [ho, ha, if_true]
      · have hle := op.arity_le_one
        rw [Opcode.ofCell?_eq_some_iff] at ho
        rw [h (pc + 1) (.inr ⟨rfl, op, by rw [hw, ho], by omega⟩)]

theorem lt_size_of_asks {i : Instruction} (hd : p.decode pc = .ok i) (hk : p.Asks pc k) :
    k < p.size := by
  have hle := add_size_le_of_decode hd
  have hpos := i.size_pos
  rcases hk with rfl | ⟨rfl, op, hop, ha⟩
  · omega
  · have hi := getElem?_of_decode hd
    rw [hop, Option.some.injEq] at hi
    have hs : i.size = 2 := by
      rw [Instruction.size, ← Opcode.cell_injective hi, Opcode.size, ha]
    omega

theorem decode_of_agrees (hle : p.size ≤ q.size)
    (h : ∀ k, p.Asks pc k → k < p.size → q[k]? = p[k]?) :
    q.decode pc = p.decode pc ∨
      p.size < q.size ∧ ∃ a, p.decode pc = .error (.outOfBounds a) := by
  rcases Nat.eq_or_lt_of_le hle with hs | hs
  · refine .inl (decode_congr ?_)
    intro k hk
    by_cases hlt : k < p.size
    · exact h k hk hlt
    · rw [Array.getElem?_eq_none (by omega), Array.getElem?_eq_none (by omega)]
  · cases hd : p.decode pc with
    | ok i =>
      refine .inl (Eq.trans (decode_congr ?_) hd)
      exact fun k hk => h k hk (lt_size_of_asks hd hk)
    | error c =>
      rcases decode_eq_error_iff.1 hd with ⟨-, rfl⟩ | ⟨w, hw, hr, rfl⟩ | ⟨op, -, -, -, rfl⟩
      · exact .inr ⟨hs, _, rfl⟩
      · refine .inl (Eq.trans (decode_congr ?_) hd)
        rintro k (rfl | ⟨rfl, op, hop, -⟩)
        · exact h k (.inl rfl) (Array.getElem?_eq_some_iff.1 hw).1
        · rw [hop, Option.some.injEq] at hw
          exact absurd hr (hw ▸ op.not_unknown_cell)
      · exact .inr ⟨hs, _, rfl⟩

theorem decode_of_size_le (h : p.size ≤ pc) : p.decode pc = .error (.outOfBounds (Int64.ofNat pc)) :=
  decode_eq_error_iff.2 (.inl ⟨h, rfl⟩)

theorem decode_eq_unknown_iff {w : Cell} :
    p.decode pc = .error (.unknownInstruction w) ↔
      p[pc]? = some w ∧ (w.toInt < 0 ∨ 18 < w.toInt) := by
  simp [decode_eq_error_iff]

theorem ofNat_succ_ne (n : Nat) : Int64.ofNat (n + 1) ≠ Int64.ofNat n := by
  intro h
  rw [Int64.ofNat_add, Int64.add_eq_left] at h
  exact absurd h (by decide)

/-- The index that a failure tells is the address itself or the one after it, and these differ even
as 64-bit numbers; so it tells whether the opcode or its operand was looked for in vain. -/
theorem decode_eq_outside_iff :
    p.decode pc = .error (.outOfBounds (Int64.ofNat pc)) ↔ p.size ≤ pc := by
  refine ⟨fun h => ?_, decode_of_size_le⟩
  rcases decode_eq_error_iff.1 h with ⟨hle, -⟩ | ⟨w, -, -, hc⟩ | ⟨op, -, -, hs, hc⟩
  · exact hle
  · cases hc
  · rw [← hs] at hc
    exact absurd (Cause.outOfBounds.inj hc).symm (ofNat_succ_ne pc)

theorem decode_eq_truncated_iff :
    p.decode pc = .error (.outOfBounds (Int64.ofNat (pc + 1))) ↔
      ∃ op : Opcode, p[pc]? = some op.cell ∧ op.arity = 1 ∧ pc + 1 = p.size := by
  constructor
  · intro h
    rcases decode_eq_error_iff.1 h with ⟨-, hc⟩ | ⟨w, -, -, hc⟩ | ⟨op, hop, ha, hs, -⟩
    · exact absurd (Cause.outOfBounds.inj hc) (ofNat_succ_ne pc)
    · cases hc
    · exact ⟨op, hop, ha, hs⟩
  · rintro ⟨op, hop, ha, hs⟩
    exact decode_eq_error_iff.2 (.inr (.inr ⟨op, hop, ha, hs, by rw [hs]⟩))

/-- Decoding finds an instruction at an address exactly if it is well formed and its cells stand
there; there is then no other, and all of its cells lie in the program. Else the address is outside,
or the cell there is no opcode, or the last cell lacks its operand. No cell but the one at the address
and an operand behind it has a say in that. -/
theorem decode_inverts_cells (p : Program) (pc : Nat) :
    (∀ i, p.decode pc = .ok i ↔ i.WellFormed ∧ i.cells <+: p.toList.drop pc) ∧
    (∀ i : Instruction, i.WellFormed → i.cells <+: p.toList.drop pc →
      i.cells.length = i.size ∧ pc + i.size ≤ p.size ∧
        ∀ j : Instruction, j.WellFormed → j.cells <+: p.toList.drop pc → j = i) ∧
    (p.decode pc = .error (.outOfBounds (Int64.ofNat pc)) ↔ p.size ≤ pc) ∧
    (∀ w, p.decode pc = .error (.unknownInstruction w) ↔
      p[pc]? = some w ∧ (w.toInt < 0 ∨ 18 < w.toInt)) ∧
    (p.decode pc = .error (.outOfBounds (Int64.ofNat (pc + 1))) ↔
      ∃ op : Opcode, p[pc]? = some op.cell ∧ op.arity = 1 ∧ pc + 1 = p.size) ∧
    (∀ c, p.decode pc = .error c → c = .outOfBounds (Int64.ofNat pc) ∨
      (∃ w, c = .unknownInstruction w) ∨ c = .outOfBounds (Int64.ofNat (pc + 1))) ∧
    ∀ q : Program, (∀ k, p.Asks pc k → q[k]? = p[k]?) → q.decode pc = p.decode pc := by
  refine ⟨fun _ => decode_eq_ok_iff, ?_, decode_eq_outside_iff, fun _ => decode_eq_unknown_iff,
    decode_eq_truncated_iff, ?_, fun _ => decode_congr⟩
  · intro i hi hc
    have hd : p.decode pc = .ok i := decode_eq_ok_iff.2 ⟨hi, hc⟩
    refine ⟨hi.length_cells, add_size_le_of_decode hd, fun j hj hc' => ?_⟩
    have hd' : p.decode pc = .ok j := decode_eq_ok_iff.2 ⟨hj, hc'⟩
    rw [hd] at hd'
    exact (Except.ok.inj hd').symm
  · intro c h
    rcases decode_eq_error_iff.1 h with ⟨-, hc⟩ | ⟨w, -, -, hc⟩ | ⟨op, -, -, hs, hc⟩
    · exact .inl hc
    · exact .inr (.inl ⟨w, hc⟩)
    · rw [← hs] at hc
      exact .inr (.inr hc)

/-- In the middle of an instruction an operand is read as an opcode, and a jump at the very end lacks
its target. -/
theorem decode_inverts_cells_operand :
    let p : Program := #[0, 256, 9]
    p.decode 1 = .error (.unknownInstruction 256) ∧ p.decode 2 = .error (.outOfBounds 3) ∧
      ∀ q : Program, q[1]? = some 256 → q.decode 1 = .error (.unknownInstruction 256) := by
  intro p
  have hunknown : p.decode 1 = .error (.unknownInstruction 256) :=
    ((decode_inverts_cells p 1).2.2.2.1 256).2 ⟨rfl, .inr (by decide)⟩
  have htruncated : p.decode 2 = .error (.outOfBounds 3) :=
    (decode_inverts_cells p 2).2.2.2.2.1.2 ⟨.jmp, rfl, rfl, rfl⟩
  refine ⟨hunknown, htruncated, fun q hq => ?_⟩
  rw [← hunknown]
  refine (decode_inverts_cells p 1).2.2.2.2.2.2 q ?_
  rintro k (rfl | ⟨-, op, hop, -⟩)
  · exact hq
  · exact absurd (Option.some.inj hop) (by cases op <;> decide)

end StackMachine.Program
