import StackMachine.Proofs.Layout
import StackMachine.Proofs.Messages

/-! A dump read back. The text of a fault may hold anything, even a table, so a dump is read from its
end: the table is what follows the last line but one that is ruled (`eq_of_append_lines`). In it the rules
tell how wide the columns are, the last ruled line of each side tells where its cell ends and the
blanks below it begin, and the contents of a row end at the first blank. -/

namespace StackMachine

namespace Side

theorem align_of_length {side : Side} {w : Nat} {l : Line} (h : l.length = w) :
    side.align w l = l := by
  cases side with
  | left => rw [align, List.rightpad, h, Nat.sub_self, List.replicate_zero, List.append_nil]
  | right => rw [align, List.leftpad, h, Nat.sub_self, List.replicate_zero, List.nil_append]

theorem align_nil (side : Side) (w : Nat) : side.align w [] = List.replicate w ' ' := by
  cases side with
  | left => rw [align, List.rightpad, List.length_nil, Nat.sub_zero, List.nil_append]
  | right => rw [align, List.leftpad, List.length_nil, Nat.sub_zero, List.append_nil]

end Side

theorem Block.length_getD_le {b : Block} {w : Nat} (h : ∀ l ∈ b, l.length = w) (k : Nat) :
    (b.getD k []).length ≤ w :=
  forall_getD (P := (·.length ≤ w)) (Nat.zero_le w) (fun l hl => Nat.le_of_eq (h l hl)) k

theorem Column.map_align_rightpad {c : Column} {b : Block} (h : ∀ l ∈ b, l.length = c.width)
    (n : Nat) : (b.rightpad n []).map c.align =
      b ++ List.replicate (n - b.length) (List.replicate c.width ' ') := by
  have hfull : b.map c.align = b :=
    (List.map_congr_left fun l hl => Side.align_of_length (h l hl)).trans (List.map_id b)
  have hblank : c.align [] = List.replicate c.width ' ' := Side.align_nil ..
  rw [List.rightpad, List.map_append, hfull, List.map_replicate, hblank]

namespace Table

variable {t t' : Table} {a a' b b' : Block} {x x' y y' : Line}

/-- A line that is drawn under other lines. -/
def Ruled (l : Line) : Prop := l[1]? = some '─'

theorem ruled_rule (t : Table) (z : Char) : Ruled (t.rule z) := rfl

theorem not_ruled_line (t : Table) (x y : Line) : ¬ Ruled (t.line x y) := by
  change ¬ some ' ' = some '─'
  decide

theorem not_ruled_blank (w : Nat) : ¬ Ruled (List.replicate w ' ') := by
  intro h
  exact absurd (List.mem_replicate.1 (List.mem_of_getElem? h)).2 (by decide)

theorem eq_of_append_blank {w k k' : Nat}
    (h : t.lines ++ List.replicate k (List.replicate w ' ') =
      t'.lines ++ List.replicate k' (List.replicate w ' ')) : t.lines = t'.lines := by
  have hlast (u : Table) : ∃ b, u.lines = b ++ [u.rule '┴'] := ⟨_, rfl⟩
  have hblank (n : Nat) : ∀ l ∈ List.replicate n (List.replicate w ' '), ¬ Ruled l := by
    intro l hl
    rw [(List.mem_replicate.1 hl).2]
    exact not_ruled_blank w
  obtain ⟨b, hb⟩ := hlast t
  obtain ⟨b', hb'⟩ := hlast t'
  rw [hb, hb', List.append_assoc, List.append_assoc] at h
  obtain ⟨rfl, hr, -⟩ := eq_of_append_cons_last (P := Ruled) (ruled_rule t '┴') (ruled_rule t' '┴')
    (hblank k) (hblank k') h
  rw [hb, hb', hr]

theorem widths_of_rule (h : t.rule '┼' = t'.rule '┼') :
    t.left.width = t'.left.width ∧ t.right.width = t'.right.width := by
  have hsplit (u : Table) : u.rule '┼' = (' ' :: List.replicate (u.left.width + 2) '─') ++
      '┼' :: (List.replicate (u.right.width + 2) '─' ++ [' ']) := by
    simp [rule]
  have hcross (u : Table) : ∀ c ∈ ' ' :: List.replicate (u.left.width + 2) '─', ¬ c = '┼' := by
    rintro c hc rfl
    simp at hc
  rw [hsplit, hsplit] at h
  obtain ⟨hleft, -, hright⟩ :=
    eq_of_append_cons_first (P := (· = '┼')) rfl rfl (hcross t) (hcross t') h
  have hl := congrArg List.length hleft
  have hr := congrArg List.length hright
  simp only [List.length_cons, List.length_append, List.length_replicate, List.length_nil] at hl hr
  omega

def leftPart (t : Table) (l : Line) : Line := (l.drop 2).take t.left.width

def rightPart (t : Table) (l : Line) : Line := (l.drop (t.left.width + 5)).take t.right.width

theorem leftPart_line (hx : x.length ≤ t.left.width) :
    t.leftPart (t.line x y) = t.left.align x := by
  have hlen : (t.left.align x).length = t.left.width := Side.length_align hx
  rw [leftPart, line, List.append_assoc, List.append_assoc, List.append_assoc]
  change List.take t.left.width (t.left.align x ++ _) = _
  rw [← hlen, List.take_left]

theorem rightPart_line (hx : x.length ≤ t.left.width) (hy : y.length ≤ t.right.width) :
    t.rightPart (t.line x y) = t.right.align y := by
  have hlen : (t.right.align y).length = t.right.width := Side.length_align hy
  have hpre : ([' ', ' '] ++ t.left.align x ++ [' ', '│', ' ']).length = t.left.width + 5 := by
    have : (t.left.align x).length = t.left.width := Side.length_align hx
    simp only [List.length_append, List.length_cons, List.length_nil, this]
    omega
  rw [rightPart, line, List.append_assoc, ← hpre, List.drop_left, ← hlen, List.take_left]

theorem map_leftPart_row (ha : ∀ l ∈ a, l.length = t.left.width) :
    (t.row a b).map t.leftPart =
      a ++ List.replicate (b.length - a.length) (List.replicate t.left.width ' ') := by
  have hparts : (t.row a b).map t.leftPart = (a.rightpad b.length []).map t.left.align := by
    rw [row_eq, List.map_map, ← Block.map_getD_range, List.map_map]
    exact List.map_congr_left fun k _ => leftPart_line (Block.length_getD_le ha k)
  rw [hparts, Column.map_align_rightpad ha]

theorem map_rightPart_row (ha : ∀ l ∈ a, l.length = t.left.width)
    (hb : ∀ l ∈ b, l.length = t.right.width) :
    (t.row a b).map t.rightPart =
      b ++ List.replicate (a.length - b.length) (List.replicate t.right.width ' ') := by
  have hparts : (t.row a b).map t.rightPart = (b.rightpad a.length []).map t.right.align := by
    rw [row_eq, List.map_map, Nat.max_comm, ← Block.map_getD_range, List.map_map]
    exact List.map_congr_left fun k _ =>
      rightPart_line (Block.length_getD_le ha k) (Block.length_getD_le hb k)
  rw [hparts, Column.map_align_rightpad hb]

/-- What stands in the right column of a line up to the first blank. -/
def contents (t : Table) (l : Line) : Line := (t.rightPart l).takeWhile (· ≠ ' ')

theorem contents_line (hx : x.length ≤ t.left.width) (hy : y.length ≤ t.right.width)
    (hside : t.right.side = .left) (hb : ' ' ∉ y) : t.contents (t.line x y) = y := by
  have hkept : ∀ c ∈ y, decide (c ≠ ' ') = true := by
    rintro c hc
    rw [decide_eq_true_iff]
    rintro rfl
    exact hb hc
  rw [contents, rightPart_line hx hy, Column.align, hside, Side.align, List.rightpad,
    List.takeWhile_append_of_pos hkept, List.takeWhile_replicate, if_neg (by decide),
    List.append_nil]

theorem leftPart_congr (hl : t.left.width = t'.left.width) : t.leftPart = t'.leftPart := by
  funext l
  rw [leftPart, leftPart, hl]

theorem rightPart_congr (hl : t.left.width = t'.left.width) (hr : t.right.width = t'.right.width) :
    t.rightPart = t'.rightPart := by
  funext l
  rw [rightPart, rightPart, hl, hr]

section Nested

variable {s s' v v' : Table} {above above' : Block}

/-- A table of one row can be told from what comes before it: it begins above the last line but one
that is ruled. -/
theorem eq_of_append_lines (ht : t.rows = [(a, b)]) (ht' : t'.rows = [(a', b')])
    (h : above ++ t.lines = above' ++ t'.lines) : above = above' ∧ t.lines = t'.lines := by
  have hrow (t : Table) (a b : Block) : ∀ l ∈ t.row a b, ¬ Ruled l := by
    intro l hl
    rw [row_eq] at hl
    obtain ⟨k, -, rfl⟩ := List.mem_map.1 hl
    exact t.not_ruled_line _ _
  have hsplit {t : Table} {a b : Block} (ht : t.rows = [(a, b)]) (above : Block) :
      above ++ t.lines = ((above ++ [t.line t.left.title t.right.title]) ++
        t.rule '┼' :: t.row a b) ++ [t.rule '┴'] := by
    rw [lines_of_rows ht]
    simp
  have hlines := h
  rw [hsplit ht, hsplit ht'] at h
  obtain ⟨h, -⟩ := List.append_inj' h rfl
  obtain ⟨habove, -, -⟩ := eq_of_append_cons_last (P := Ruled) (ruled_rule _ _) (ruled_rule _ _)
    (hrow _ _ _) (hrow _ _ _) h
  obtain ⟨rfl, -⟩ := List.append_inj' habove rfl
  exact ⟨rfl, List.append_cancel_left hlines⟩

/-- Two tables side by side in another one can be told from its lines. -/
theorem nested_of_lines (ht : t.rows = [(s.lines, v.lines)]) (ht' : t'.rows = [(s'.lines, v'.lines)])
    (hs : ∀ l ∈ s.lines, l.length = t.left.width) (hs' : ∀ l ∈ s'.lines, l.length = t'.left.width)
    (hv : ∀ l ∈ v.lines, l.length = t.right.width) (hv' : ∀ l ∈ v'.lines, l.length = t'.right.width)
    (h : t.lines = t'.lines) : s.lines = s'.lines ∧ v.lines = v'.lines := by
  rw [lines_of_rows ht, lines_of_rows ht'] at h
  obtain ⟨-, h⟩ := List.cons.inj h
  obtain ⟨hrule, h⟩ := List.cons.inj h
  obtain ⟨hrow, -⟩ := List.append_inj' h rfl
  obtain ⟨hl, hr⟩ := widths_of_rule hrule
  constructor
  · have hleft := congrArg (List.map t.leftPart) hrow
    rw [map_leftPart_row hs, leftPart_congr hl, map_leftPart_row hs', hl] at hleft
    exact eq_of_append_blank hleft
  · have hright := congrArg (List.map t.rightPart) hrow
    rw [map_rightPart_row hs hv, rightPart_congr hl hr, map_rightPart_row hs' hv', hr] at hright
    exact eq_of_append_blank hright

end Nested

end Table

theorem Variables.slotText_injective {v w : Option Cell} (h : slotText v = slotText w) : v = w := by
  have hne (u : Cell) : "`" ≠ u.text := by
    intro he
    have hmem : '`' ∈ u.text.toList := he ▸ List.mem_singleton_self _
    exact Dump.notMem_text (by decide) (by decide) u hmem
  cases v with
  | none =>
    cases w with
    | none => rfl
    | some w => exact absurd h (hne w)
  | some v =>
    cases w with
    | none => exact absurd h.symm (hne v)
    | some w => rw [Cell.text_injective h]

namespace Dump

variable {cells cells' : List Cell} {slots slots' : List (Option Cell)}

theorem texts_of_lines {letter letter' : Char} {marked marked' : Nat → Bool} {texts texts' : List Line}
    (hb : ∀ x ∈ texts, ' ' ∉ x) (hb' : ∀ x ∈ texts', ' ' ∉ x)
    (h : (labelled letter marked texts).lines = (labelled letter' marked' texts').lines) :
    texts = texts' := by
  have hread {letter : Char} {marked : Nat → Bool} {texts : List Line} (hb : ∀ x ∈ texts, ' ' ∉ x) :
      (texts.zipIdx.map fun x => (labelled letter marked texts).line
        (label letter (marked x.2) x.2) x.1).map (labelled letter marked texts).contents = texts := by
    have hfits : (labelled letter marked texts).Fits := fits_register _
    rw [List.map_map]
    conv_rhs => rw [← List.zipIdx_map_fst 0 texts]
    refine List.map_congr_left fun x hx => ?_
    have hmem : ([label letter (marked x.2) x.2], [x.1]) ∈ (labelled letter marked texts).rows :=
      List.mem_map_of_mem hx
    exact Table.contents_line (hfits.left _ hmem _ List.mem_cons_self)
      (hfits.right _ hmem _ List.mem_cons_self) rfl (hb x.1 (List.fst_mem_of_mem_zipIdx hx))
  rw [lines_labelled, lines_labelled] at h
  obtain ⟨-, h⟩ := List.cons.inj h
  obtain ⟨hrule, h⟩ := List.cons.inj h
  obtain ⟨hrows, -⟩ := List.append_inj' h rfl
  obtain ⟨hl, hr⟩ := Table.widths_of_rule hrule
  have hcontents : (labelled letter marked texts).contents =
      (labelled letter' marked' texts').contents := by
    funext l
    rw [Table.contents, Table.contents, Table.rightPart_congr hl hr]
  rw [← hread hb, hrows, hcontents, hread hb']

theorem cells_of_lines (h : (stackTable cells).lines = (stackTable cells').lines) :
    cells = cells' := by
  have hblank (cells : List Cell) : ∀ x ∈ cells.map (·.text.toList), ' ' ∉ x :=
    List.forall_mem_map.2 fun v _ => notMem_text (by decide) (by decide) v
  rw [stackTable_eq, stackTable_eq] at h
  exact List.map_injective_iff.2 (fun v w hv => Cell.text_injective (String.toList_inj.1 hv))
    (texts_of_lines (hblank cells) (hblank cells') h)

theorem slots_of_lines (h : (variableTable slots).lines = (variableTable slots').lines) :
    slots = slots' := by
  have hblank (slots : List (Option Cell)) :
      ∀ x ∈ slots.map fun v => (Variables.slotText v).toList, ' ' ∉ x :=
    List.forall_mem_map.2 fun v _ => notMem_slotText (by decide) (by decide) (by decide) v
  rw [variableTable_eq, variableTable_eq] at h
  exact List.map_injective_iff.2
    (fun v w hv => Variables.slotText_injective (String.toList_inj.1 hv))
    (texts_of_lines (hblank slots) (hblank slots') h)

theorem registers_of_lines (h : (table cells slots).lines = (table cells' slots').lines) :
    cells = cells' ∧ slots = slots' := by
  have hstack (cells : List Cell) (slots : List (Option Cell)) :
      ∀ l ∈ (stackTable cells).lines, l.length = (table cells slots).left.width := by
    rw [width_left_table]
    exact fun l => (fits_register _).length_of_mem_lines
  have hvars (cells : List Cell) (slots : List (Option Cell)) :
      ∀ l ∈ (variableTable slots).lines, l.length = (table cells slots).right.width := by
    rw [width_right_table]
    exact fun l => (fits_register _).length_of_mem_lines
  obtain ⟨hs, hv⟩ := Table.nested_of_lines (rows_table cells slots) (rows_table cells' slots')
    (hstack cells slots) (hstack cells' slots') (hvars cells slots) (hvars cells' slots') h
  exact ⟨cells_of_lines hs, slots_of_lines hv⟩

theorem headLine_injective {pc pc' steps steps' : Nat} {x x' : String}
    (h : headLine pc steps x = headLine pc' steps' x') : pc = pc' ∧ steps = steps' ∧ x = x' := by
  have hsplit (pc steps : Nat) (x : String) : (headLine pc steps x).toList =
      ("IP: ".toList ++ pc.repr.toList) ++ '\t' ::
        (("Steps: ".toList ++ steps.repr.toList) ++ '\t' :: x.toList) := by
    simp [headLine]
  have htab {word : String} (hw : '\t' ∉ word.toList) (n : Nat) :
      ∀ c ∈ word.toList ++ n.repr.toList, ¬ c = '\t' := by
    rintro c hc rfl
    rcases List.mem_append.1 hc with hc | hc
    · exact hw hc
    · exact absurd (isDigit_of_mem_repr hc) (by decide)
  have ht := congrArg String.toList h
  rw [hsplit, hsplit] at ht
  obtain ⟨hpc, -, ht⟩ := eq_of_append_cons_first (P := (· = '\t')) rfl rfl
    (htab (by decide) pc) (htab (by decide) pc') ht
  obtain ⟨hsteps, -, ht⟩ := eq_of_append_cons_first (P := (· = '\t')) rfl rfl
    (htab (by decide) steps) (htab (by decide) steps') ht
  exact ⟨Nat.repr_injective (String.toList_inj.1 (List.append_cancel_left hpc)),
    Nat.repr_injective (String.toList_inj.1 (List.append_cancel_left hsteps)),
    String.toList_inj.1 ht⟩

end Dump

namespace Machine

variable {W W' : Type}

/-- A dump tells all of a machine but its program, its limits and its sink: two machines have the
same dump exactly if they are at the same address after the same number of steps, have the same
status, down to the text of a fault, and hold the same stack and the same variables. -/
theorem dump_eq_iff (m : Machine W) (m' : Machine W') :
    m.dump = m'.dump ↔ m.pc = m'.pc ∧ m.steps = m'.steps ∧ m.status = m'.status ∧
      m.stack = m'.stack ∧ m.vars.slots.toList = m'.vars.slots.toList := by
  constructor
  · intro h
    have hlines := congrArg (fun s : String => s.toList.splitOn '\n') h
    simp only [splitOn_dump] at hlines
    obtain ⟨hlines, -⟩ := List.append_inj' hlines rfl
    obtain ⟨hhead, htable⟩ := Table.eq_of_append_lines (Dump.rows_table _ _) (Dump.rows_table _ _) hlines
    have hline := congrArg (['\n'].intercalate ·) hhead
    simp only [List.intercalate_splitOn] at hline
    obtain ⟨hpc, hsteps, htext⟩ := Dump.headLine_injective (String.toList_inj.1 hline)
    have hstatus := Status.text_injective htext
    obtain ⟨hstack, hvars⟩ := Dump.registers_of_lines htable
    exact ⟨hpc, hsteps, hstatus, hstack, hvars⟩
  · rintro ⟨hpc, hsteps, hstatus, hstack, hvars⟩
    rw [dump, dump, hpc, hsteps, hstatus, hstack, hvars]

end Machine

end StackMachine
