import StackMachine.Proofs.Invariant
import StackMachine.Proofs.Simulation

/-! What a run owes to its program. A machine looks at the cells that it decodes and, apart from
that, at the length of the program: to see whether it is at the end, whether an operand is missing
and whether a jump stays inside. So on a program that is no shorter and has the same cells wherever
the machine looks it goes the same way (`after_onProgram`), up to an end that tells the length. -/

namespace StackMachine

/-- The ways to end that tell how long the program is. -/
def Status.TellsLength : Status → Prop
  | .halted .endOfProgram => True
  | .faulted f => ∃ a, f.cause = .outOfBounds a
  | _ => False

theorem Status.TellsLength.ended {s : Status} (h : s.TellsLength) : s ≠ .running := by
  rintro rfl
  exact h

namespace Action

variable {W α : Type} {E : Cause → Prop}

theorem Matches.same (a : Action W α) : Matches (· = ·) E a a := by
  rintro s _ rfl
  cases hr : a.run s with
  | ok x t => exact ⟨t, rfl, rfl⟩
  | error c t => exact .inr ⟨t, rfl, rfl⟩

theorem Simulation.same : Simulation (W := W) (· = ·) E where
  push _ := .same _
  pop := .same _
  peek := .same _
  swap := .same _
  load _ := .same _
  store _ _ := .same _

theorem Matches.jump_of_le {n n' : Nat} (h : n ≤ n') (v : Cell) :
    Matches (W := W) (· = ·) (fun c => n < n' ∧ ∃ a, c = .outOfBounds a) (Action.jump n v)
      (Action.jump n' v) := by
  unfold Action.jump
  cases v.index? with
  | none => exact .same _
  | some t =>
    dsimp only
    by_cases ht : t ≤ n
    · rw [if_pos ht, if_pos (Nat.le_trans ht h)]
      exact .same _
    · rw [if_neg ht]
      rintro s _ rfl
      by_cases hs : n < n'
      · exact .inl ⟨hs, _, rfl⟩
      · rw [if_neg (by omega)]
        exact .inr ⟨s, rfl, rfl⟩

end Action

namespace Machine

variable {W : Type}

/-- The cells that the next step reads: those of the instruction that it decodes. -/
def Reads (m : Machine W) (k : Nat) : Prop :=
  m.Pending ∧ (∀ n, m.maxSteps = some n → m.steps < n) ∧ m.program.Asks m.pc k

def onProgram (m : Machine W) (q : Program) : Machine W := { m with program := q }

variable {q : Program} {m n : Machine W}

theorem fetch_onProgram (hs : m.Pending) (hle : m.program.size ≤ q.size)
    (hq : ∀ k, m.Reads k → k < m.program.size → q[k]? = m.program[k]?) :
    (m.onProgram q).fetch = m.fetch ∨
      m.program.size < q.size ∧ ∃ a, m.fetch = .error (.outOfBounds a) := by
  cases hl : m.maxSteps with
  | none =>
    simp only [fetch, onProgram, hl]
    exact Program.decode_of_agrees hle fun k hk => hq k ⟨hs, by simp [hl], hk⟩
  | some limit =>
    by_cases hsteps : limit ≤ m.steps
    · left
      simp only [fetch, onProgram, hl, hsteps, if_true]
    · have hlt : ∀ n, m.maxSteps = some n → m.steps < n := by
        intro n hn
        cases hl.symm.trans hn
        omega
      simp only [fetch, onProgram, hl, hsteps, if_false]
      exact Program.decode_of_agrees hle fun k hk => hq k ⟨hs, hlt, hk⟩

variable [Writer W]

theorem Performs.onProgram {i : Instruction} {a : Action W Control} (hp : m.Performs i a)
    (hle : m.program.size ≤ q.size)
    (hq : ∀ k, m.Reads k → k < m.program.size → q[k]? = m.program[k]?) :
    ∃ b, (m.onProgram q).Performs i b ∧
      Action.Matches (· = ·) (fun c => m.program.size < q.size ∧ ∃ k, c = .outOfBounds k) a b := by
  have hf : (m.onProgram q).fetch = .ok i := by
    rcases fetch_onProgram ⟨hp.running, hp.pc_lt⟩ hle hq with h | ⟨-, k, h⟩
    · rw [h, hp.fetch]
    · rw [hp.fetch] at h
      cases h
  obtain ⟨b, hb⟩ := exists_performs (m := m.onProgram q) hp.running
    (Nat.lt_of_lt_of_le hp.pc_lt hle) hf
  exact ⟨b, hb, Action.Simulation.same.action (fun v => .jump_of_le hle v) (fun _ v => .same _)
    hp.action hb.action⟩

theorem Outcome.onProgram {r : Except Fault Status} (ho : Outcome m r n)
    (hle : m.program.size ≤ q.size)
    (hq : ∀ k, m.Reads k → k < m.program.size → q[k]? = m.program[k]?) :
    Outcome (m.onProgram q) r (n.onProgram q) ∨
      m.program.size < q.size ∧ n.status.TellsLength := by
  cases ho with
  | halted h => exact .inl (.halted h)
  | faulted h => exact .inl (.faulted h)
  | exhausted h hpc =>
    rcases Nat.eq_or_lt_of_le hle with hs | hs
    · exact .inl (.exhausted h (hs ▸ hpc))
    · exact .inr ⟨hs, trivial⟩
  | unfetched h hpc hf =>
    rcases fetch_onProgram ⟨h, hpc⟩ hle hq with he | ⟨hs, a, he⟩
    · exact .inl (.unfetched h (Nat.lt_of_lt_of_le hpc hle) (he.trans hf))
    · rw [he] at hf
      cases hf
      exact .inr ⟨hs, a, rfl⟩
  | failed hp hr =>
    obtain ⟨b, hb, hab⟩ := hp.onProgram hle hq
    rcases hab.error rfl hr with ⟨hs, a, rfl⟩ | ⟨_, ht, rfl⟩
    · exact .inr ⟨hs, a, rfl⟩
    · exact .inl (.failed hb ht)
  | moved hp hr =>
    obtain ⟨b, hb, hab⟩ := hp.onProgram hle hq
    obtain ⟨_, ht, rfl⟩ := hab.ok rfl hr
    exact .inl (.moved hb ht)
  | jumped hp hr =>
    obtain ⟨b, hb, hab⟩ := hp.onProgram hle hq
    obtain ⟨_, ht, rfl⟩ := hab.ok rfl hr
    exact .inl (.jumped hb ht)
  | stopped hp hr =>
    obtain ⟨b, hb, hab⟩ := hp.onProgram hle hq
    obtain ⟨_, ht, rfl⟩ := hab.ok rfl hr
    exact .inl (.stopped hb ht)

section Start

variable {p : Program} {l : Limits} {w : W}

def AgreesWhereRead (p q : Program) (l : Limits) (w : W) : Prop :=
  ∀ n k, ((start p l w).after n).Reads k → k < p.size → q[k]? = p[k]?

theorem agreesWhereRead_append (p r : Program) (l : Limits) (w : W) :
    AgreesWhereRead p (p ++ r) l w := by
  intro n k _ hk
  exact Array.getElem?_append_left hk

theorem after_onProgram (hle : p.size ≤ q.size) (hq : AgreesWhereRead p q l w) {n : Nat}
    (hn : ((start p l w).after n).status.TellsLength → p.size = q.size) :
    (start q l w).after n = ((start p l w).after n).onProgram q := by
  induction n with
  | zero => rfl
  | succ n ih =>
    have hprog := (valid_after p l w n).program
    -- a machine that told the length has ended, and would still tell it one step later
    have hprev := ih fun h => hn (by rwa [after, next_of_ended h.ended])
    have hstep := (outcome_next ((start p l w).after n)).onProgram (q := q)
      (by rwa [hprog]) (by rw [hprog]; exact hq n)
    rw [hprog] at hstep
    rcases hstep with ho | ⟨hlt, ht⟩
    · rw [after, hprev, next, step_of_outcome ho, after]
    · exact absurd (hn ht) (Nat.ne_of_lt hlt)

theorem runFor_onProgram (hle : p.size ≤ q.size) (hq : AgreesWhereRead p q l w) {k : Nat}
    {r : Except Fault Completion} {e : Machine W} (hk : (start p l w).runFor k = some (r, e))
    (he : e.status.TellsLength → p.size = q.size) :
    (start q l w).runFor k = some (r, e.onProgram q) := by
  obtain ⟨rfl, ha⟩ := (runFor_eq_some_iff rfl).1 hk
  exact (runFor_eq_some_iff rfl).2 ⟨(after_onProgram hle hq he).symm, ha⟩

theorem runFor_append (r : Program) {k : Nat} {x : Except Fault Completion} {e : Machine W}
    (hk : (start p l w).runFor k = some (x, e)) (he : ¬ e.status.TellsLength) :
    (start (p ++ r) l w).runFor k = some (x, e.onProgram (p ++ r)) :=
  runFor_onProgram (by simp) (agreesWhereRead_append p r l w) hk fun h => absurd h he

/-- A program `q` that is no shorter than `p`, and has the same cell wherever a run of `p` reads
one, takes the machine through the same states for as long as it runs on `p`. It ends in the same
step and the same way, if the end of `p` is neither the end of the program nor out of bounds; and
in these cases too if `q` is no longer than `p`. -/
theorem read_cells_decide_run (p q : Program) (l : Limits) (w : W) (hle : p.size ≤ q.size)
    (hq : ∀ n k, ((start p l w).after n).Reads k → k < p.size → q[k]? = p[k]?) :
    (∀ n,
      let m := (start p l w).after n
      let m' := (start q l w).after n
      (m.status.TellsLength → p.size = q.size) →
        m'.status = m.status ∧ m'.pc = m.pc ∧ m'.steps = m.steps ∧ m'.stack = m.stack ∧
        m'.vars = m.vars ∧ m'.output = m.output) ∧
    ∀ k r e, (start p l w).runFor k = some (r, e) →
      (e.status.TellsLength → p.size = q.size) →
      ∃ e', (start q l w).runFor k = some (r, e') ∧ e'.output = e.output := by
  refine ⟨?_, ?_⟩
  · intro n m m' hn
    have h : m' = m.onProgram q := after_onProgram hle hq hn
    rw [h]
    exact ⟨rfl, rfl, rfl, rfl, rfl, rfl⟩
  · intro k r e hk he
    exact ⟨e.onProgram q, runFor_onProgram hle hq hk he, rfl⟩

/-- A cell that is jumped over may be any other, and so may what follows the `HALT`. -/
theorem read_cells_decide_run_jump :
    let p : Program := #[9, 3, 99, 18]
    let q : Program := #[9, 3, 0, 18, -1]
    (p.size ≤ q.size ∧ ∀ n k, ((start p {} Sink.unbounded).after n).Reads k → k < p.size →
      q[k]? = p[k]?) ∧
      ∃ e, (start q {} Sink.unbounded).runFor 2 = some (.ok ⟨.instruction, 2, []⟩, e) ∧
        e.output = "" := by
  intro p q
  have hend : ∀ n, 2 ≤ n → ((start p {} Sink.unbounded).after n).status ≠ .running := by
    intro n hn
    have h2 : ((start p {} Sink.unbounded).after 2).status = .halted .instruction := by
      decide +kernel
    rw [after_of_le (by rw [h2]; rintro ⟨⟩) hn, h2]
    rintro ⟨⟩
  have hread : ∀ n k, ((start p {} Sink.unbounded).after n).Reads k → k ≠ 2 := by
    rintro n k ⟨hs, -, hk⟩ rfl
    match n with
    | 0 => rcases hk with hk | ⟨hk, -⟩ <;> cases hk
    | 1 => rcases hk with hk | ⟨hk, -⟩ <;> cases hk
    | n + 2 => exact hend (n + 2) (by omega) hs.1
  have hq : ∀ n k, ((start p {} Sink.unbounded).after n).Reads k → k < p.size →
      q[k]? = p[k]? := by
    intro n k hk hlt
    have hne := hread n k hk
    have hall : ∀ k < 4, k ≠ 2 → q[k]? = p[k]? := by decide
    exact hall k hlt hne
  refine ⟨⟨by decide, hq⟩, ?_⟩
  exact (read_cells_decide_run p q {} Sink.unbounded (by decide) hq).2 2 _ _ rfl
    (by rintro ⟨⟩)

end Start

end Machine

end StackMachine
