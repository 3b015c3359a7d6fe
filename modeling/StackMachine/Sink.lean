/-! Where printed text goes. Machines print to any `Writer`, of which they know only that it takes
the beginning of a text and says whether that was all. A `Sink` is one that can be computed with.
It takes text in pieces of at most `chunk` characters until its room is used up; the text that it
is handed is ASCII, so that a character is a byte. A write is repeated until all is taken or the
sink takes nothing more, and what was taken before that stays. So a text that fits is taken whole
(`write_of_fits`) and any other up to the room that there is (`write_of_room_lt`), whatever the
pieces. -/

namespace StackMachine

class Writer (W : Type) where
  /-- Hands a text over; an error says why not all of it was taken. -/
  write : W → List Char → Except String Unit × W
  /-- All that was taken so far. -/
  accepted : W → String
  accepted_of_ok : ∀ {w w' : W} {text : List Char}, write w text = (.ok (), w') →
    accepted w' = accepted w ++ String.ofList text
  accepted_of_error : ∀ {w w' : W} {text : List Char} {e : String}, write w text = (.error e, w') →
    ∃ t, t <+: text ∧ t ≠ text ∧ accepted w' = accepted w ++ String.ofList t

structure Sink where
  /-- How many more characters are taken; `none` for no limit. -/
  room : Option Nat
  chunk : Option Nat
  /-- What a sink without room answers; without one it takes nothing and keeps silent. -/
  refusal : Option String
  accepted : String
  deriving DecidableEq, Repr

namespace Sink

def unbounded : Sink := ⟨none, none, none, ""⟩

/-- A sink that is full from the start and says why. -/
def refusing (reason : String) : Sink := ⟨some 0, none, some reason, ""⟩

/-- The complaint about a sink that takes nothing without saying why. -/
def stalled : String := "failed to write whole buffer"

/-- How much of a text of length `n` one piece takes. -/
def taken (s : Sink) (n : Nat) : Nat :=
  let most := s.chunk.elim n (min n)
  s.room.elim most (min most)

def take (s : Sink) (text : List Char) : Sink :=
  { s with
    room := s.room.map fun r => r - text.length
    accepted := s.accepted ++ String.ofList text }

@[simp] theorem take_nil (s : Sink) : s.take [] = s := by
  unfold take
  cases s with
  | mk room chunk refusal accepted => cases room <;> simp

theorem take_take (s : Sink) (a b : List Char) : (s.take a).take b = s.take (a ++ b) := by
  unfold take
  cases s.room <;> simp [String.append_assoc, Nat.sub_sub]

theorem taken_le (s : Sink) (n : Nat) : s.taken n ≤ n := by
  unfold taken
  cases s.chunk <;> cases s.room <;> simp only [Option.elim] <;> omega

theorem taken_le_room {s : Sink} {k : Nat} (h : s.room = some k) (n : Nat) : s.taken n ≤ k := by
  simp only [taken, h, Option.elim]
  omega

/-- Something is taken as long as there is room and pieces are not empty. -/
theorem taken_pos {s : Sink} {n : Nat} (hc : s.chunk ≠ some 0) (hr : s.room ≠ some 0) (hn : 0 < n) :
    0 < s.taken n := by
  unfold taken
  cases hk : s.chunk <;> cases hq : s.room <;> grind

def write (s : Sink) (text : List Char) : Except String Unit × Sink :=
  if text = [] then (.ok (), s)
  else if s.room = some 0 then (.error (s.refusal.getD stalled), s)
  else if s.taken text.length = 0 then (.error stalled, s)
  else (s.take (text.take (s.taken text.length))).write (text.drop (s.taken text.length))
termination_by text.length
decreasing_by
  simp only [List.length_drop]
  have := s.taken_le text.length
  omega

theorem accepted_take (s : Sink) (text : List Char) :
    (s.take text).accepted = s.accepted ++ String.ofList text := rfl

theorem accepted_of_write_ok {s s' : Sink} {text : List Char} (h : s.write text = (.ok (), s')) :
    s'.accepted = s.accepted ++ String.ofList text := by
  fun_induction write s text with
  | case1 s => cases h; simp
  | case2 s text h0 h1 => cases h
  | case3 s text h0 h1 h2 => cases h
  | case4 s text h0 h1 h2 ih =>
    rw [ih h, accepted_take, String.append_assoc, ← String.ofList_append, List.take_append_drop]

theorem accepted_of_write_error {s s' : Sink} {text : List Char} {e : String}
    (h : s.write text = (.error e, s')) :
    ∃ t, t <+: text ∧ t ≠ text ∧ s'.accepted = s.accepted ++ String.ofList t := by
  fun_induction write s text with
  | case1 s => cases h
  | case2 s text h0 h1 =>
    cases h
    exact ⟨[], List.nil_prefix, Ne.symm h0, by simp⟩
  | case3 s text h0 h1 h2 =>
    cases h
    exact ⟨[], List.nil_prefix, Ne.symm h0, by simp⟩
  | case4 s text h0 h1 h2 ih =>
    obtain ⟨t, ht, hne, ha⟩ := ih h
    have hsplit := List.take_append_drop (s.taken text.length) text
    refine ⟨text.take (s.taken text.length) ++ t, ?_, ?_, ?_⟩
    · have := (List.prefix_append_right_inj (text.take (s.taken text.length))).2 ht
      rwa [hsplit] at this
    · intro he
      exact hne (List.append_cancel_left (he.trans hsplit.symm))
    · rw [ha, accepted_take, String.append_assoc, ← String.ofList_append]

instance : Writer Sink where
  write := write
  accepted := accepted
  accepted_of_ok := accepted_of_write_ok
  accepted_of_error := accepted_of_write_error

theorem write_of_fits {s : Sink} {text : List Char} (hc : s.chunk ≠ some 0)
    (hr : ∀ k, s.room = some k → text.length ≤ k) : s.write text = (.ok (), s.take text) := by
  fun_induction write s text with
  | case1 s => rw [take_nil]
  | case2 s text h0 h1 =>
    have := hr 0 h1
    exact absurd (List.length_eq_zero_iff.1 (Nat.le_zero.1 this)) h0
  | case3 s text h0 h1 h2 =>
    exact absurd h2 (Nat.ne_of_gt (taken_pos hc h1 (List.length_pos_iff.2 h0)))
  | case4 s text h0 h1 h2 ih =>
    rw [ih, take_take, List.take_append_drop]
    · exact hc
    · intro k h
      obtain ⟨r, hk, rfl⟩ := Option.map_eq_some_iff.1 h
      have := hr r hk
      have := s.taken_le text.length
      simp only [List.length_drop, List.length_take]
      omega

theorem write_of_room_lt {s : Sink} {text : List Char} {k : Nat} (hc : s.chunk ≠ some 0)
    (hr : s.room = some k) (hk : k < text.length) :
    s.write text = (.error (s.refusal.getD stalled), s.take (text.take k)) := by
  fun_induction write s text generalizing k with
  | case1 s => cases hk
  | case2 s text h0 h1 =>
    rw [h1] at hr
    cases hr
    rw [List.take_zero, take_nil]
  | case3 s text h0 h1 h2 =>
    exact absurd h2 (Nat.ne_of_gt (taken_pos hc h1 (List.length_pos_iff.2 h0)))
  | case4 s text h0 h1 h2 ih =>
    have hle := taken_le_room hr text.length
    have hroom : (s.take (text.take (s.taken text.length))).room = some (k - s.taken text.length) := by
      simp only [take, hr, Option.map_some, List.length_take, Nat.min_eq_left (s.taken_le _)]
    rw [ih hc hroom (by rw [List.length_drop]; omega), take_take, ← List.take_add,
      Nat.add_sub_cancel' hle]
    rfl

end Sink

end StackMachine
