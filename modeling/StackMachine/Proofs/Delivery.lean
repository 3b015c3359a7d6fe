import StackMachine.Sink

/-! How a text gets to a sink. A sink may take less of a text at a time than it could, and what is
left is handed over again; but in what pieces it takes a text makes no difference to what it takes
in the end, nor to whether that is all (`Sink.delivers_iff`). So a writer that acts as a sink does
(`Writer.ActsAs`) is known by the room that it has. -/

namespace StackMachine

namespace Sink

/-- How a text is handed over, piece by piece, to a sink that may take less of it at a time than it
could. What is left is handed over again until nothing is left or the sink has no room. -/
inductive Delivers : Sink → List Char → Except String Unit × Sink → Prop
  | all (s : Sink) : Delivers s [] (.ok (), s)
  | full {s : Sink} {text : List Char} : text ≠ [] → s.room = some 0 →
      Delivers s text (.error (s.refusal.getD stalled), s)
  | piece {s : Sink} {text : List Char} {k : Nat} {r : Except String Unit × Sink} : 0 < k →
      k ≤ s.taken text.length → Delivers (s.take (text.take k)) (text.drop k) r →
      Delivers s text r

def Fits (s : Sink) (text : List Char) : Prop := ∀ k, s.room = some k → text.length ≤ k

variable {s : Sink} {told text : List Char} {k : Nat}

theorem fits_of_unlimited (h : s.room = none) (text : List Char) : s.Fits text := by
  intro k hk
  rw [h] at hk
  cases hk

theorem not_fits_iff : ¬ s.Fits text ↔ ∃ k, s.room = some k ∧ k < text.length := by
  simp only [Fits, Classical.not_forall, Nat.not_le, exists_prop]

theorem write_take_of_fits (hc : s.chunk ≠ some 0) (h : s.Fits (told ++ text)) :
    (s.take told).write text = (.ok (), s.take (told ++ text)) := by
  rw [write_of_fits, take_take]
  · exact hc
  · intro r hr
    obtain ⟨k, hk, rfl⟩ := Option.map_eq_some_iff.1 hr
    have := h k hk
    rw [List.length_append] at this
    omega

theorem write_take_of_room_lt (hc : s.chunk ≠ some 0) (hr : s.room = some k)
    (hle : told.length ≤ k) (hlt : k < (told ++ text).length) :
    (s.take told).write text =
      (.error (s.refusal.getD stalled), s.take ((told ++ text).take k)) := by
  have hchunk : (s.take told).chunk ≠ some 0 := hc
  have hroom : (s.take told).room = some (k - told.length) := by
    simp only [take, hr, Option.map_some]
  rw [List.length_append] at hlt
  rw [write_of_room_lt hchunk hroom (by omega), take_take, List.take_append,
    List.take_of_length_le hle]
  rfl

theorem write_take_drop (hc : s.chunk ≠ some 0) (hk : k ≤ s.taken text.length) :
    (s.take (text.take k)).write (text.drop k) = s.write text := by
  have hlen : (text.take k).length = k :=
    List.length_take_of_le (Nat.le_trans hk (s.taken_le _))
  by_cases h : s.Fits text
  · rw [write_of_fits hc h, write_take_of_fits hc] <;> rw [List.take_append_drop]
    exact h
  · obtain ⟨r, hr, hlt⟩ := not_fits_iff.1 h
    have hkr : (text.take k).length ≤ r := by
      rw [hlen]
      exact Nat.le_trans hk (taken_le_room hr _)
    rw [write_of_room_lt hc hr hlt, write_take_of_room_lt hc hr hkr] <;>
      rw [List.take_append_drop]
    exact hlt

theorem delivers_iff (hc : s.chunk ≠ some 0) {r : Except String Unit × Sink} :
    s.Delivers text r ↔ r = s.write text := by
  constructor
  · intro h
    induction h with
    | all s => rw [write, if_pos rfl]
    | full hne hr => rw [write, if_neg hne, if_pos hr]
    | piece _ hk _ ih => rw [ih hc, write_take_drop hc hk]
  · rintro rfl
    fun_induction write s text with
    | case1 s => exact .all s
    | case2 s text h0 h1 => exact .full h0 h1
    | case3 s text h0 h1 h2 =>
      exact absurd h2 (Nat.ne_of_gt (taken_pos hc h1 (List.length_pos_iff.2 h0)))
    | case4 s text h0 h1 h2 ih =>
      exact .piece (Nat.pos_of_ne_zero h2) (Nat.le_refl _) (ih hc)

/-- A sink that was told nothing yet, and takes something whenever it has room. -/
structure Fresh (s : Sink) : Prop where
  chunk : s.chunk ≠ some 0
  accepted : s.accepted = ""

theorem Fresh.accepted_take (h : s.Fresh) (text : List Char) :
    (s.take text).accepted = String.ofList text := by
  rw [Sink.accepted_take, h.accepted, String.empty_append]

end Sink

/-- A writer that takes texts as a sink does, each piece as small as it chooses. -/
structure Writer.ActsAs {W : Type} [Writer W] (view : W → Sink) : Prop where
  delivers : ∀ w text, (view w).chunk ≠ some 0 →
    (view w).Delivers text ((write w text).1, view (write w text).2)
  accepted : ∀ w, accepted w = (view w).accepted

theorem Sink.actsAs : Writer.ActsAs (id : Sink → Sink) where
  delivers _ _ hc := (delivers_iff hc).2 rfl
  accepted _ := rfl

namespace Writer.ActsAs

variable {W : Type} [Writer W] {view : W → Sink} (h : ActsAs view) {w : W} {s : Sink}
  {told text : List Char}

include h

theorem write_eq (text : List Char) (hw : (view w).chunk ≠ some 0) :
    ((write w text).1, view (write w text).2) = (view w).write text :=
  (Sink.delivers_iff hw).1 (h.delivers w text hw)

theorem write_of_fits (hs : s.chunk ≠ some 0) (hw : view w = s.take told)
    (hf : s.Fits (told ++ text)) :
    ∃ w', write w text = (.ok (), w') ∧ view w' = s.take (told ++ text) := by
  have he := h.write_eq text (hw ▸ hs : (view w).chunk ≠ some 0)
  rw [hw, Sink.write_take_of_fits hs hf] at he
  obtain ⟨hr, hv⟩ := Prod.mk.inj he
  exact ⟨_, Prod.ext hr rfl, hv⟩

theorem write_of_room_lt {k : Nat} (hs : s.chunk ≠ some 0) (hw : view w = s.take told)
    (hr : s.room = some k) (hle : told.length ≤ k) (hlt : k < (told ++ text).length) :
    ∃ w', write w text = (.error (s.refusal.getD Sink.stalled), w') ∧
      view w' = s.take ((told ++ text).take k) := by
  have he := h.write_eq text (hw ▸ hs : (view w).chunk ≠ some 0)
  rw [hw, Sink.write_take_of_room_lt hs hr hle hlt] at he
  obtain ⟨hr, hv⟩ := Prod.mk.inj he
  exact ⟨_, Prod.ext hr rfl, hv⟩

end Writer.ActsAs

end StackMachine
