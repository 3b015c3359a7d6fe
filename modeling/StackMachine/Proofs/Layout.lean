import StackMachine.Proofs.Decimal
import StackMachine.Dump

/-! The layout of dumps. In a table whose columns are wide enough (`Table.Fits`) all lines have the
width of the table, so a table can be a cell of another one and its width is then that of its column.
A register has one row for each of its cells and three lines of frame, and two registers side by side
have as many rows as the longer one has lines. No line holds a newline, so these are the lines of the
text (`splitOn_dump`). -/

namespace StackMachine

namespace Block

theorem width_le {b : Block} {w : Nat} (h : ∀ l ∈ b, l.length ≤ w) : b.width ≤ w := by
  induction b with
  | nil => exact Nat.zero_le w
  | cons a r ih =>
    have hw : width (a :: r) = max a.length (width r) := rfl
    rw [hw]
    exact Nat.max_le.2 ⟨h a List.mem_cons_self, ih fun l hl => h l (List.mem_cons_of_mem a hl)⟩

theorem width_eq {b : Block} {w : Nat} (hne : b ≠ []) (h : ∀ l ∈ b, l.length = w) :
    b.width = w := by
  obtain ⟨l, hl⟩ := List.exists_mem_of_ne_nil b hne
  have hle : b.width ≤ w := width_le fun l hl => Nat.le_of_eq (h l hl)
  have hge : l.length ≤ b.width := length_le_width hl
  rw [h l hl] at hge
  exact Nat.le_antisymm hle hge

/-- What holds of every line of a block and of the empty line holds of the lines that a row shows of
the block, those below its end included. -/
theorem forall_getD {P : Line → Prop} {b : Block} (h0 : P []) (h : ∀ l ∈ b, P l) (k : Nat) :
    P (b.getD k []) := by
  by_cases hk : k < b.length
  · rw [List.getD_eq_getElem b [] hk]
    exact h _ (List.getElem_mem hk)
  · rw [List.getD_eq_default b [] (Nat.not_lt.1 hk)]
    exact h0

theorem getElem?_rightpad {b : Block} {n k : Nat} (hk : k < max n b.length) :
    (b.rightpad n [])[k]? = some (b.getD k []) := by
  rw [List.rightpad, List.getElem?_append]
  split
  · rename_i h
    rw [List.getElem?_eq_getElem h, List.getD_eq_getElem b [] h]
  · rename_i h
    rw [List.getD_eq_default b [] (Nat.not_lt.1 h), List.getElem?_replicate, if_pos (by omega)]

theorem map_getD_range (b : Block) (n : Nat) :
    (List.range (max b.length n)).map (b.getD · []) = b.rightpad n [] := by
  refine List.ext_getElem? fun k => ?_
  rw [List.getElem?_map]
  by_cases hk : k < max b.length n
  · rw [List.getElem?_range hk, getElem?_rightpad (by omega)]
    rfl
  · rw [List.getElem?_eq_none (by rw [List.length_range]; omega),
      List.getElem?_eq_none (by rw [List.length_rightpad]; omega)]
    rfl

end Block

theorem Side.mem_align {side : Side} {w : Nat} {l : Line} {c : Char} (h : c ∈ side.align w l) :
    c = ' ' ∨ c ∈ l := by
  cases side with
  | left =>
    rcases List.mem_append.1 h with h | h
    · exact .inr h
    · exact .inl (List.mem_replicate.1 h).2
  | right =>
    rcases List.mem_append.1 h with h | h
    · exact .inl (List.mem_replicate.1 h).2
    · exact .inr h

theorem Side.infix_align {side : Side} {w : Nat} {l : Line} : l <:+: side.align w l := by
  cases side with
  | left => exact (List.prefix_append _ _).isInfix
  | right => exact (List.suffix_append _ _).isInfix

namespace Column

theorem title_le_fitting (title : String) (side : Side) (cells : List Block) :
    (fitting title side cells).title.length ≤ (fitting title side cells).width :=
  Nat.le_max_left ..

theorem length_le_fitting {title : String} {side : Side} {cells : List Block} {b : Block} {l : Line}
    (hb : b ∈ cells) (hl : l ∈ b) : l.length ≤ (fitting title side cells).width :=
  Nat.le_trans (Block.length_le_width (List.mem_flatten.2 ⟨b, hb, hl⟩)) (Nat.le_max_right ..)

end Column

namespace Table

variable {t : Table} {a b : Block} {l : Line}

/-- The columns are wide enough for all that stands in them. -/
structure Fits (t : Table) : Prop where
  leftTitle : t.left.title.length ≤ t.left.width
  rightTitle : t.right.title.length ≤ t.right.width
  left : ∀ r ∈ t.rows, ∀ l ∈ r.1, l.length ≤ t.left.width
  right : ∀ r ∈ t.rows, ∀ l ∈ r.2, l.length ≤ t.right.width

theorem fits_of_fitting (leftTitle rightTitle : String) (leftSide rightSide : Side)
    (rows : List (Block × Block)) :
    Fits ⟨.fitting leftTitle leftSide (rows.map (·.1)),
      .fitting rightTitle rightSide (rows.map (·.2)), rows⟩ where
  leftTitle := Column.title_le_fitting ..
  rightTitle := Column.title_le_fitting ..
  left _ hr _ hl := Column.length_le_fitting (List.mem_map_of_mem hr) hl
  right _ hr _ hl := Column.length_le_fitting (List.mem_map_of_mem hr) hl

/-- The two cells of a row side by side, line by line, the lower one with empty lines below. -/
theorem row_eq (t : Table) (a b : Block) :
    t.row a b = (List.range (max a.length b.length)).map fun k =>
      t.line (a.getD k []) (b.getD k []) := by
  rw [row, ← Block.map_getD_range, ← Block.map_getD_range, Nat.max_comm b.length,
    List.zipWith_map, List.zipWith_self]

theorem lines_eq (t : Table) :
    t.lines = t.line t.left.title t.right.title :: t.rule '┼' ::
      (t.rows.flatMap (fun r => t.row r.1 r.2) ++ [t.rule '┴']) := rfl

/-- The lines of a table of one row. -/
theorem lines_of_rows (h : t.rows = [(a, b)]) :
    t.lines = t.line t.left.title t.right.title :: t.rule '┼' :: (t.row a b ++ [t.rule '┴']) := by
  rw [lines_eq, h, List.flatMap_singleton]

theorem mem_lines : l ∈ t.lines ↔ l = t.line t.left.title t.right.title ∨ l = t.rule '┼' ∨
    (∃ r ∈ t.rows, ∃ k, k < max r.1.length r.2.length ∧ l = t.line (r.1.getD k []) (r.2.getD k [])) ∨
    l = t.rule '┴' := by
  simp only [lines, List.mem_append, List.mem_cons, List.not_mem_nil, or_false, List.mem_flatMap,
    row_eq, List.mem_map, List.mem_range, eq_comm (a := l), or_assoc]

theorem Fits.length_of_mem_lines (h : t.Fits) (hl : l ∈ t.lines) : l.length = t.width := by
  rcases mem_lines.1 hl with rfl | rfl | ⟨r, hr, k, -, rfl⟩ | rfl
  · exact length_line h.leftTitle h.rightTitle
  · exact t.length_rule _
  · exact length_line
      (Block.forall_getD (P := fun l => l.length ≤ t.left.width) (Nat.zero_le _) (h.left r hr) k)
      (Block.forall_getD (P := fun l => l.length ≤ t.right.width) (Nat.zero_le _) (h.right r hr) k)
  · exact t.length_rule _

theorem Fits.width_lines (h : t.Fits) : Block.width t.lines = t.width :=
  Block.width_eq (by simp [lines]) fun _ => h.length_of_mem_lines

section Lines

variable {x y : Line} {c : Char}

theorem infix_line_left : x <:+: t.line x y := by
  have hline : t.left.align x <:+: t.line x y := by
    rw [line, List.append_assoc, List.append_assoc]
    exact List.infix_append _ _ _
  exact Side.infix_align.trans hline

theorem infix_line_right : y <:+: t.line x y :=
  Side.infix_align.trans (List.infix_append _ _ _)

/-- What tables are drawn with. -/
def frame : List Char := [' ', '│', '─', '┼', '┴']

theorem mem_line (hc : c ∈ t.line x y) : c ∈ frame ∨ c ∈ x ∨ c ∈ y := by
  have hblank : [' ', ' '] ⊆ frame := by decide
  have hbar : [' ', '│', ' '] ⊆ frame := by decide
  simp only [line, List.mem_append] at hc
  rcases hc with (((hc | hc) | hc) | hc) | hc
  · exact .inl (hblank hc)
  · rcases Side.mem_align hc with rfl | hc
    · exact .inl (by decide)
    · exact .inr (.inl hc)
  · exact .inl (hbar hc)
  · rcases Side.mem_align hc with rfl | hc
    · exact .inl (by decide)
    · exact .inr (.inr hc)
  · exact .inl (hblank hc)

theorem mem_line_iff (hc : c ∉ frame) : c ∈ t.line x y ↔ c ∈ x ∨ c ∈ y := by
  refine ⟨fun h => (mem_line h).resolve_left hc, ?_⟩
  rintro (h | h)
  · exact infix_line_left.subset h
  · exact infix_line_right.subset h

theorem notMem_rule (hc : c ∉ frame) {z : Char} (hz : z ∈ frame) : c ∉ t.rule z := by
  intro h
  simp only [rule, List.mem_append, List.mem_replicate, List.mem_singleton] at h
  rcases h with (((rfl | ⟨-, rfl⟩) | rfl) | ⟨-, rfl⟩) | rfl
  · exact hc (by decide)
  · exact hc (by decide)
  · exact hc hz
  · exact hc (by decide)
  · exact hc (by decide)

/-- What holds of the lines that frame a table, and of two lines side by side if it holds of both. -/
structure Closed (P : Line → Prop) : Prop where
  nil : P []
  line : ∀ (t : Table) {x y : Line}, P x → P y → P (t.line x y)
  rule : ∀ (t : Table), ∀ z ∈ frame, P (t.rule z)

theorem Closed.forall_mem_lines {P : Line → Prop} (h : Closed P) (hleft : P t.left.title)
    (hright : P t.right.title) (hrows : ∀ r ∈ t.rows, (∀ l ∈ r.1, P l) ∧ ∀ l ∈ r.2, P l) :
    ∀ l ∈ t.lines, P l := by
  intro l hl
  rcases mem_lines.1 hl with rfl | rfl | ⟨r, hr, k, -, rfl⟩ | rfl
  · exact h.line t hleft hright
  · exact h.rule t _ (by decide)
  · obtain ⟨hrl, hrr⟩ := hrows r hr
    exact h.line t (Block.forall_getD h.nil hrl k) (Block.forall_getD h.nil hrr k)
  · exact h.rule t _ (by decide)

theorem closed_notMem (hc : c ∉ frame) : Closed (c ∉ ·) where
  nil := List.not_mem_nil
  line _ _ _ hx hy h := ((mem_line_iff hc).1 h).elim hx hy
  rule _ _ hz := notMem_rule hc hz

end Lines

end Table

namespace Dump

/-- What names a cell of a register. -/
def label (letter : Char) (marked : Bool) (index : Nat) : Line :=
  (if marked then "* --> ".toList else []) ++ (letter :: '[' :: index.repr.toList ++ "] =".toList)

/-- A register of single lines, which are named in their order. -/
def labelled (letter : Char) (marked : Nat → Bool) (texts : List Line) : Table :=
  register (texts.zipIdx.map fun x => ([label letter (marked x.2) x.2], [x.1]))

theorem row_eq_label (letter : Char) (marked : Bool) (i : Nat) (contents : String) :
    row letter marked i contents = ([label letter marked i], [contents.toList]) := by
  cases marked with
  | false => rfl
  | true => rfl

theorem stackTable_eq (cells : List Cell) :
    stackTable cells =
      labelled 'S' (fun i => i + 1 = cells.length) (cells.map (·.text.toList)) := by
  rw [stackTable, labelled, List.zipIdx_map, List.map_map]
  exact congrArg register (List.map_congr_left fun x _ => row_eq_label ..)

theorem variableTable_eq (slots : List (Option Cell)) :
    variableTable slots =
      labelled 'M' (fun _ => false) (slots.map fun v => (Variables.slotText v).toList) := by
  rw [variableTable, labelled, List.zipIdx_map, List.map_map]
  exact congrArg register (List.map_congr_left fun x _ => row_eq_label ..)

section Labelled

variable {letter : Char} {marked : Nat → Bool} {texts : List Line}

theorem lines_labelled (letter : Char) (marked : Nat → Bool) (texts : List Line) :
    let t := labelled letter marked texts
    t.lines = t.line "Address".toList "Contents".toList :: t.rule '┼' ::
      (texts.zipIdx.map (fun x => t.line (label letter (marked x.2) x.2) x.1) ++
        [t.rule '┴']) := by
  intro t
  have hrows : t.rows = texts.zipIdx.map fun x => ([label letter (marked x.2) x.2], [x.1]) := rfl
  have hflat : t.rows.flatMap (fun r => t.row r.1 r.2) =
      texts.zipIdx.map fun x => t.line (label letter (marked x.2) x.2) x.1 := by
    rw [hrows, List.flatMap_map]
    exact List.map_eq_flatMap.symm
  rw [Table.lines_eq, hflat]
  rfl

theorem length_lines_labelled (letter : Char) (marked : Nat → Bool) (texts : List Line) :
    (labelled letter marked texts).lines.length = texts.length + 3 := by
  rw [lines_labelled]
  simp

theorem getElem?_lines_labelled {i : Nat} {x : Line} (h : texts[i]? = some x) :
    (labelled letter marked texts).lines[i + 2]? =
      some ((labelled letter marked texts).line (label letter (marked i) i) x) := by
  have hi := (List.getElem?_eq_some_iff.1 h).1
  rw [lines_labelled, List.getElem?_cons_succ, List.getElem?_cons_succ,
    List.getElem?_append_left (by simpa using hi), List.getElem?_map, List.getElem?_zipIdx, h,
    Nat.zero_add]
  rfl

theorem forall_mem_labelled {P : Line → Prop} (hP : Table.Closed P) (hleft : P "Address".toList)
    (hright : P "Contents".toList) (hlabel : ∀ i, P (label letter (marked i) i))
    (htext : ∀ x ∈ texts, P x) : ∀ l ∈ (labelled letter marked texts).lines, P l := by
  refine hP.forall_mem_lines hleft hright fun r hr => ?_
  obtain ⟨x, hx, rfl⟩ := List.mem_map.1 hr
  refine ⟨?_, ?_⟩
  · intro l hl
    rw [List.mem_singleton.1 hl]
    exact hlabel x.2
  · intro l hl
    rw [List.mem_singleton.1 hl]
    exact htext x.1 (List.fst_mem_of_mem_zipIdx hx)

end Labelled

theorem fits_register (rows : List (Block × Block)) : (register rows).Fits :=
  Table.fits_of_fitting ..

theorem fits_table (cells : List Cell) (slots : List (Option Cell)) : (table cells slots).Fits :=
  Table.fits_of_fitting "Stack" "Variables" .left .left
    [((stackTable cells).lines, (variableTable slots).lines)]

theorem width_lines_register (rows : List (Block × Block)) :
    Block.width (register rows).lines = (register rows).width :=
  (fits_register rows).width_lines

/-- The titles alone make a register as wide as this. -/
theorem le_width_register (rows : List (Block × Block)) : 22 ≤ (register rows).width := by
  have hleft : 7 ≤ (register rows).left.width := (fits_register rows).leftTitle
  have hright : 8 ≤ (register rows).right.width := (fits_register rows).rightTitle
  rw [Table.width]
  omega

/-- A register is wider than a short title over it. -/
theorem width_fitting_register {title : String} (h : title.toList.length ≤ 22) (side : Side)
    (rows : List (Block × Block)) :
    (Column.fitting title side [(register rows).lines]).width = (register rows).width := by
  rw [Column.fitting, List.flatten_singleton, width_lines_register]
  exact Nat.max_eq_right (Nat.le_trans h (le_width_register rows))

theorem width_left_table (cells : List Cell) (slots : List (Option Cell)) :
    (table cells slots).left.width = (stackTable cells).width :=
  width_fitting_register (by decide) _ _

theorem width_right_table (cells : List Cell) (slots : List (Option Cell)) :
    (table cells slots).right.width = (variableTable slots).width :=
  width_fitting_register (by decide) _ _

theorem lines_stackTable (cells : List Cell) :
    let s := stackTable cells
    s.lines = s.line "Address".toList "Contents".toList :: s.rule '┼' ::
      (cells.zipIdx.map (fun (v, i) =>
        s.line (label 'S' (i + 1 = cells.length) i) v.text.toList) ++ [s.rule '┴']) := by
  intro s
  have hs : s = labelled 'S' _ _ := stackTable_eq cells
  rw [hs, lines_labelled, ← hs, List.zipIdx_map, List.map_map]
  rfl

theorem lines_variableTable (slots : List (Option Cell)) :
    let s := variableTable slots
    s.lines = s.line "Address".toList "Contents".toList :: s.rule '┼' ::
      (slots.zipIdx.map (fun (v, i) =>
        s.line (label 'M' false i) (Variables.slotText v).toList) ++ [s.rule '┴']) := by
  intro s
  have hs : s = labelled 'M' _ _ := variableTable_eq slots
  rw [hs, lines_labelled, ← hs, List.zipIdx_map, List.map_map]
  rfl

theorem getElem?_lines_stackTable {cells : List Cell} {i : Nat} {v : Cell} (h : cells[i]? = some v) :
    (stackTable cells).lines[i + 2]? =
      some ((stackTable cells).line (label 'S' (i + 1 = cells.length) i) v.text.toList) := by
  rw [stackTable_eq]
  exact getElem?_lines_labelled (by rw [List.getElem?_map, h]; rfl)

theorem length_lines_stackTable (cells : List Cell) :
    (stackTable cells).lines.length = cells.length + 3 := by
  rw [stackTable_eq, length_lines_labelled, List.length_map]

theorem length_lines_variableTable (slots : List (Option Cell)) :
    (variableTable slots).lines.length = slots.length + 3 := by
  rw [variableTable_eq, length_lines_labelled, List.length_map]

theorem rows_table (cells : List Cell) (slots : List (Option Cell)) :
    (table cells slots).rows = [((stackTable cells).lines, (variableTable slots).lines)] := rfl

/-- The registers side by side, line by line. -/
theorem lines_table (cells : List Cell) (slots : List (Option Cell)) :
    let t := table cells slots
    t.lines = t.line "Stack".toList "Variables".toList :: t.rule '┼' ::
      ((List.range (max cells.length slots.length + 3)).map (fun k =>
        t.line ((stackTable cells).lines.getD k []) ((variableTable slots).lines.getD k [])) ++
      [t.rule '┴']) := by
  intro t
  have hmax : max (cells.length + 3) (slots.length + 3) = max cells.length slots.length + 3 := by
    omega
  have hlines : t.lines = t.line t.left.title t.right.title :: t.rule '┼' ::
      (t.row (stackTable cells).lines (variableTable slots).lines ++ [t.rule '┴']) :=
    Table.lines_of_rows (rows_table cells slots)
  rw [hlines, Table.row_eq, length_lines_stackTable, length_lines_variableTable, hmax]
  rfl

theorem getElem?_lines_table {cells : List Cell} {slots : List (Option Cell)} {k : Nat}
    (h : k < max cells.length slots.length + 3) :
    (table cells slots).lines[k + 2]? = some ((table cells slots).line
      ((stackTable cells).lines.getD k []) ((variableTable slots).lines.getD k [])) := by
  rw [lines_table, List.getElem?_cons_succ, List.getElem?_cons_succ,
    List.getElem?_append_left (by simpa using h), List.getElem?_map, List.getElem?_range h]
  rfl

section Lines

variable {cells : List Cell} {slots : List (Option Cell)} {P : Line → Prop}

theorem forall_mem_stackTable (hP : Table.Closed P) (hleft : P "Address".toList)
    (hright : P "Contents".toList) (hlabel : ∀ marked i, P (label 'S' marked i))
    (htext : ∀ v : Cell, P v.text.toList) : ∀ l ∈ (stackTable cells).lines, P l := by
  rw [stackTable_eq]
  exact forall_mem_labelled hP hleft hright (fun i => hlabel _ i)
    (List.forall_mem_map.2 fun v _ => htext v)

theorem forall_mem_variableTable (hP : Table.Closed P) (hleft : P "Address".toList)
    (hright : P "Contents".toList) (hlabel : ∀ i, P (label 'M' false i))
    (htext : ∀ v, P (Variables.slotText v).toList) : ∀ l ∈ (variableTable slots).lines, P l := by
  rw [variableTable_eq]
  exact forall_mem_labelled hP hleft hright hlabel (List.forall_mem_map.2 fun v _ => htext v)

theorem forall_mem_table (hP : Table.Closed P) (hleft : P "Stack".toList)
    (hright : P "Variables".toList) (hs : ∀ l ∈ (stackTable cells).lines, P l)
    (hv : ∀ l ∈ (variableTable slots).lines, P l) : ∀ l ∈ (table cells slots).lines, P l := by
  refine hP.forall_mem_lines hleft hright fun r hr => ?_
  obtain rfl := List.mem_singleton.1 hr
  exact ⟨hs, hv⟩

end Lines

section Characters

variable {letter c : Char} {i : Nat}

theorem notMem_label {marked : Bool} (hmark : c ∉ "* --> ".toList ∨ marked = false)
    (hletter : letter ≠ c) (hframe : c ∉ "[] =".toList) (hdigit : c.isDigit = false) :
    c ∉ label letter marked i := by
  intro hc
  rcases List.mem_append.1 hc with hc | hc
  · rcases hmark with h | rfl
    · cases marked with
      | true => exact h hc
      | false => cases hc
    · cases hc
  · simp only [List.cons_append, List.mem_cons, List.mem_append, Nat.toList_repr] at hc
    rcases hc with rfl | rfl | hc | hc
    · exact hletter rfl
    · exact hframe (by decide)
    · rw [Nat.isDigit_of_mem_toDigits (by decide) (by decide) hc] at hdigit
      cases hdigit
    · have hsub : "] =".toList ⊆ "[] =".toList := by decide
      exact hframe (hsub hc)

theorem notMem_text (hsign : c ≠ '-') (hdigit : c.isDigit = false) (v : Cell) :
    c ∉ v.text.toList := by
  intro hc
  rcases Cell.sign_or_digit_of_mem_text hc with hc | hc
  · exact hsign hc
  · rw [hc] at hdigit
    cases hdigit

theorem notMem_slotText (hnone : c ≠ '`') (hsign : c ≠ '-') (hdigit : c.isDigit = false)
    (v : Option Cell) : c ∉ (Variables.slotText v).toList := by
  cases v with
  | none => exact fun hc => hnone (List.mem_singleton.1 hc)
  | some v => exact notMem_text hsign hdigit v

theorem newline_notMem_table (cells : List Cell) (slots : List (Option Cell)) :
    ∀ l ∈ (table cells slots).lines, '\n' ∉ l := by
  have hP : Table.Closed ('\n' ∉ ·) := Table.closed_notMem (by decide)
  refine forall_mem_table hP (by decide) (by decide) ?_ ?_
  · refine forall_mem_stackTable hP (by decide) (by decide) (fun marked i => ?_) ?_
    · exact notMem_label (.inl (by decide)) (by decide) (by decide) (by decide)
    · exact notMem_text (by decide) (by decide)
  · refine forall_mem_variableTable hP (by decide) (by decide) (fun i => ?_) ?_
    · exact notMem_label (.inr rfl) (by decide) (by decide) (by decide)
    · exact notMem_slotText (by decide) (by decide) (by decide)

end Characters

section Marker

variable {t : Table} {x y l : Line} {cells : List Cell} {slots : List (Option Cell)}

/-- The marker of the top stands in the line. -/
def Marked (l : Line) : Prop := "* -->".toList <:+: l

theorem Marked.star_mem (h : Marked l) : '*' ∈ l := h.subset (by decide)

theorem marked_label (letter : Char) (i : Nat) : Marked (label letter true i) := by
  refine List.IsPrefix.isInfix ?_
  exact ⟨' ' :: letter :: '[' :: i.repr.toList ++ "] =".toList, rfl⟩

theorem star_notMem_label {letter : Char} (h : letter ≠ '*') (i : Nat) :
    '*' ∉ label letter false i :=
  notMem_label (.inr rfl) h (by decide) (by decide)

theorem star_notMem_line (hx : '*' ∉ x) (hy : '*' ∉ y) : '*' ∉ t.line x y :=
  (Table.closed_notMem (by decide)).line t hx hy

theorem star_notMem_rule {z : Char} (hz : z ∈ Table.frame) : '*' ∉ t.rule z :=
  Table.notMem_rule (by decide) hz

theorem star_notMem_variableTable : ∀ l ∈ (variableTable slots).lines, '*' ∉ l :=
  forall_mem_variableTable (Table.closed_notMem (by decide)) (by decide) (by decide)
    (star_notMem_label (by decide)) (notMem_slotText (by decide) (by decide) (by decide))

/-- A star is always part of a marker. -/
theorem marked_of_star_mem : ∀ l ∈ (table cells slots).lines, '*' ∈ l → Marked l := by
  have hP : Table.Closed fun l => '*' ∈ l → Marked l := by
    refine ⟨nofun, fun t x y hx hy h => ?_, fun t z hz h => absurd h (star_notMem_rule hz)⟩
    rcases (Table.mem_line_iff (by decide)).1 h with h | h
    · exact (hx h).trans Table.infix_line_left
    · exact (hy h).trans Table.infix_line_right
  have htitle : ∀ s ∈ ["Address", "Contents", "Stack", "Variables"], '*' ∉ s.toList := by decide
  refine forall_mem_table hP (fun h => absurd h (htitle _ (by simp)))
    (fun h => absurd h (htitle _ (by simp))) ?_ ?_
  · refine forall_mem_stackTable hP (fun h => absurd h (htitle _ (by simp)))
      (fun h => absurd h (htitle _ (by simp))) ?_ ?_
    · intro marked i h
      cases marked with
      | true => exact marked_label 'S' i
      | false => exact absurd h (star_notMem_label (by decide) i)
    · exact fun v h => absurd h (notMem_text (by decide) (by decide) v)
  · exact fun l hl h => absurd h (star_notMem_variableTable l hl)

/-- A star in a table is in one of its rows. -/
theorem star_mem_framed_iff {title above below : Line} {b : Block} (h0 : '*' ∉ title)
    (h1 : '*' ∉ above) (h2 : '*' ∉ below) (k : Nat) :
    '*' ∈ (title :: above :: (b ++ [below])).getD k [] ↔ ∃ i, k = i + 2 ∧ '*' ∈ b.getD i [] := by
  obtain _ | _ | k := k
  · exact iff_of_false h0 (by simp)
  · exact iff_of_false h1 (by simp)
  · have hk : '*' ∈ (b ++ [below]).getD k [] ↔ '*' ∈ b.getD k [] := by
      by_cases hlt : k < b.length
      · rw [List.getD_append _ _ _ _ hlt]
      · have hle := Nat.not_lt.1 hlt
        rw [List.getD_append_right _ _ _ _ hle, List.getD_eq_default b [] hle]
        exact iff_of_false
          (Block.forall_getD (P := ('*' ∉ ·)) List.not_mem_nil (by simpa using h2) _)
          List.not_mem_nil
    simpa [eq_comm] using hk

theorem star_mem_stackTable_iff (cells : List Cell) (k : Nat) :
    '*' ∈ (stackTable cells).lines.getD k [] ↔ cells ≠ [] ∧ k = cells.length + 1 := by
  have hrow : ∀ i, '*' ∈ (cells.zipIdx.map fun x => (stackTable cells).line
      (label 'S' (x.2 + 1 = cells.length) x.2) x.1.text.toList).getD i [] ↔
        i + 1 = cells.length := by
    intro i
    rw [List.getD_eq_getElem?_getD, List.getElem?_map, List.getElem?_zipIdx]
    cases hv : cells[i]? with
    | none =>
      have hle := List.getElem?_eq_none_iff.1 hv
      exact iff_of_false List.not_mem_nil (by omega)
    | some v =>
      have htext : '*' ∉ v.text.toList := notMem_text (by decide) (by decide) v
      simp only [Option.map_some, Option.getD_some, Table.mem_line_iff (c := '*') (by decide),
        htext, or_false, Nat.zero_add]
      by_cases hi : i + 1 = cells.length
      · rw [decide_eq_true hi]
        exact iff_of_true (marked_label 'S' i).star_mem hi
      · rw [decide_eq_false hi]
        exact iff_of_false (star_notMem_label (by decide) i) hi
  rw [lines_stackTable, star_mem_framed_iff
    (star_notMem_line (by decide) (by decide)) (star_notMem_rule (by decide))
    (star_notMem_rule (by decide)), ← List.length_pos_iff]
  simp only [hrow]
  exact ⟨fun ⟨i, hk, hi⟩ => by omega, fun ⟨h0, hk⟩ => ⟨cells.length - 1, by omega, by omega⟩⟩

theorem star_mem_table_iff (cells : List Cell) (slots : List (Option Cell)) (k : Nat) :
    '*' ∈ (table cells slots).lines.getD k [] ↔ cells ≠ [] ∧ k = cells.length + 3 := by
  have hrow : ∀ i, '*' ∈ ((List.range (max cells.length slots.length + 3)).map fun k =>
      (table cells slots).line ((stackTable cells).lines.getD k [])
        ((variableTable slots).lines.getD k [])).getD i [] ↔ cells ≠ [] ∧ i = cells.length + 1 := by
    intro i
    have hvars : '*' ∉ (variableTable slots).lines.getD i [] :=
      Block.forall_getD (P := ('*' ∉ ·)) List.not_mem_nil star_notMem_variableTable i
    rw [List.getD_eq_getElem?_getD, List.getElem?_map]
    by_cases hi : i < max cells.length slots.length + 3
    · rw [List.getElem?_range hi, Option.map_some, Option.getD_some,
        Table.mem_line_iff (by decide), or_iff_left hvars, star_mem_stackTable_iff]
    · have hnone : (List.range (max cells.length slots.length + 3))[i]? = none :=
        List.getElem?_eq_none (by rw [List.length_range]; omega)
      rw [hnone]
      exact iff_of_false List.not_mem_nil (by omega)
  rw [lines_table, star_mem_framed_iff (star_notMem_line (by decide) (by decide))
    (star_notMem_rule (by decide)) (star_notMem_rule (by decide))]
  simp only [hrow]
  exact ⟨fun ⟨i, hk, h, hi⟩ => ⟨h, by omega⟩, fun ⟨h, hk⟩ => ⟨cells.length + 1, by omega, h, rfl⟩⟩

/-- Of the lines of a dump, the marker stands in that of the top of the stack. -/
theorem marked_iff {k : Nat} (h : (table cells slots).lines[k]? = some l) :
    Marked l ↔ cells ≠ [] ∧ k = cells.length + 3 := by
  rw [← star_mem_table_iff cells slots, List.getD_eq_getElem?_getD, h, Option.getD_some]
  exact ⟨Marked.star_mem, marked_of_star_mem l (List.mem_of_getElem? h)⟩

end Marker

section Drawn

/-! How the lines of a dump are drawn, in tables that are as wide as theirs. -/

/-- Two texts that fill their columns. -/
def barred (left right : Line) : Line :=
  [' ', ' '] ++ left ++ [' ', '│', ' '] ++ right ++ [' ', ' ']

def ruleLine (t : Table) (crossing : Char) : Line :=
  [' '] ++ List.replicate (t.left.width + 2) '─' ++ [crossing] ++
    List.replicate (t.right.width + 2) '─' ++ [' ']

/-- A line of each of two registers. -/
def pairLine (t : Table) (a b : Line) : Line :=
  barred (a.rightpad t.left.width ' ') (b.rightpad t.right.width ' ')

/-- A line of a register, with what names the cell at the right of its column. -/
def entryLine (t : Table) (name contents : Line) : Line :=
  barred (name.leftpad t.left.width ' ') (contents.rightpad t.right.width ' ')

def slotLine (v : Option Cell) : Line := (v.elim "`" (·.toInt.repr)).toList

theorem rule_eq_ruleLine (t : Table) : t.rule = ruleLine t := rfl

theorem line_table (cells : List Cell) (slots : List (Option Cell)) :
    (table cells slots).line = pairLine (table cells slots) := rfl

theorem line_stackTable (cells : List Cell) :
    (stackTable cells).line = entryLine (stackTable cells) := rfl

theorem line_variableTable (slots : List (Option Cell)) :
    (variableTable slots).line = entryLine (variableTable slots) := rfl

theorem slotText_eq_slotLine (v : Option Cell) : (Variables.slotText v).toList = slotLine v := by
  cases v <;> rfl

end Drawn

/-- A heading without its end. -/
def headLine (pc steps : Nat) (status : String) : String :=
  "IP: " ++ pc.repr ++ "\tSteps: " ++ steps.repr ++ "\t" ++ status

end Dump

namespace Machine

variable {W : Type}

theorem dump_eq_headLine (m : Machine W) :
    m.dump = Dump.headLine m.pc m.steps m.status.text ++ "\n" ++
      String.ofList ((Dump.table m.stack m.vars.slots.toList).lines.flatMap (· ++ ['\n'])) := rfl

theorem splitOn_dump (m : Machine W) :
    m.dump.toList.splitOn '\n' =
      (Dump.headLine m.pc m.steps m.status.text).toList.splitOn '\n' ++
        (Dump.table m.stack m.vars.slots.toList).lines ++ [[]] := by
  have hdump : m.dump.toList = (Dump.headLine m.pc m.steps m.status.text).toList ++ '\n' ::
      (Dump.table m.stack m.vars.slots.toList).lines.flatMap (· ++ ['\n']) := by
    simp [dump_eq_headLine]
  rw [hdump, List.splitOn_append_cons_self, splitOn_lines (Dump.newline_notMem_table _ _),
    List.append_assoc]

/-- Split into lines, a dump is its heading and, below it, the stack and the variables side by side,
in a frame of three lines and each in a frame of its own, so in six lines more than the longer of them
has cells. All these lines are equally long, each cell stands in a row of its own, in order, and the
marker stands in the row of the top of the stack and nowhere else. -/
theorem dump_layout (m : Machine W) :
    let cells := m.store.stack.cells.reverse
    let slots := m.store.vars.slots.toList
    let depth := cells.length
    let t := Dump.table cells slots
    let s := Dump.stackTable cells
    let v := Dump.variableTable slots
    m.dump.toList.splitOn '\n' =
      (Dump.headLine m.pc m.steps m.status.text).toList.splitOn '\n' ++ t.lines ++ [[]] ∧
    (∀ l ∈ t.lines, '\n' ∉ l) ∧
    t.lines.length = max depth slots.length + 6 ∧
    (∀ l ∈ t.lines, l.length = s.width + v.width + 7) ∧
    (∀ l ∈ s.lines, l.length = s.width) ∧ (∀ l ∈ v.lines, l.length = v.width) ∧
    t.lines = Dump.pairLine t "Stack".toList "Variables".toList :: Dump.ruleLine t '┼' ::
      ((List.range (max depth slots.length + 3)).map (fun k =>
        Dump.pairLine t (s.lines.getD k []) (v.lines.getD k [])) ++ [Dump.ruleLine t '┴']) ∧
    s.lines = Dump.entryLine s "Address".toList "Contents".toList :: Dump.ruleLine s '┼' ::
      (cells.zipIdx.map (fun (x, i) =>
        Dump.entryLine s (Dump.label 'S' (i + 1 = depth) i) x.toInt.repr.toList) ++
        [Dump.ruleLine s '┴']) ∧
    v.lines = Dump.entryLine v "Address".toList "Contents".toList :: Dump.ruleLine v '┼' ::
      (slots.zipIdx.map (fun (x, i) =>
        Dump.entryLine v (Dump.label 'M' false i) (Dump.slotLine x)) ++ [Dump.ruleLine v '┴']) ∧
    (∀ k l, t.lines[k]? = some l → (Dump.Marked l ↔ cells ≠ [] ∧ k = depth + 3)) ∧
    ∀ x, cells.getLast? = some x → t.lines[depth + 3]? =
      some (Dump.pairLine t (Dump.entryLine s (Dump.label 'S' true (depth - 1)) x.toInt.repr.toList)
        (v.lines.getD (depth + 1) [])) := by
  intro cells slots depth t s v
  have hlines := Dump.lines_table cells slots
  have hwidth : t.width = s.width + v.width + 7 := by
    rw [Table.width, Dump.width_left_table, Dump.width_right_table]
  refine ⟨m.splitOn_dump, Dump.newline_notMem_table _ _, ?_, ?_,
    fun l => (Dump.fits_register _).length_of_mem_lines,
    fun l => (Dump.fits_register _).length_of_mem_lines, ?_, ?_, ?_, fun k l => Dump.marked_iff, ?_⟩
  · rw [hlines]
    simp [depth]
  · intro l hl
    rw [(Dump.fits_table _ _).length_of_mem_lines hl]
    exact hwidth
  · rw [← Dump.line_table, ← Dump.rule_eq_ruleLine]
    exact hlines
  · rw [← Dump.line_stackTable, ← Dump.rule_eq_ruleLine]
    exact Dump.lines_stackTable _
  · rw [← Dump.line_variableTable, ← Dump.rule_eq_ruleLine]
    simp only [← Dump.slotText_eq_slotLine]
    exact Dump.lines_variableTable _
  · intro x hx
    rw [List.getLast?_eq_getElem?] at hx
    have hlt := (List.getElem?_eq_some_iff.1 hx).1
    have htop : depth - 1 + 1 = depth := by omega
    have hrow := Dump.getElem?_lines_stackTable hx
    rw [show cells.length - 1 + 2 = depth + 1 by omega, decide_eq_true htop] at hrow
    rw [Dump.getElem?_lines_table (by omega), List.getD_eq_getElem?_getD, hrow, Option.getD_some,
      Dump.line_table, Dump.line_stackTable]
    rfl

end Machine

end StackMachine
