/-! Two-column tables in plain text. A cell of a table is a block of lines, which may be a table
itself. A column that fits is as wide as its widest line, and a row is as high as its higher cell;
so all lines of a table with fitting columns are of its width (`length_line`, `length_rule`). -/

namespace StackMachine

abbrev Line := List Char

abbrev Block := List Line

namespace Block

/-- Each line with its end. -/
def text (b : Block) : String := String.ofList (b.flatMap (· ++ ['\n']))

def width (b : Block) : Nat := (b.map List.length).foldr max 0

theorem length_le_width {b : Block} {l : Line} (h : l ∈ b) : l.length ≤ b.width := by
  induction b with
  | nil => cases h
  | cons a r ih =>
    have hw : width (a :: r) = max a.length (width r) := rfl
    rw [hw]
    obtain rfl | h := List.mem_cons.1 h
    · exact Nat.le_max_left ..
    · exact Nat.le_trans (ih h) (Nat.le_max_right ..)

end Block

inductive Side
  | left
  | right
  deriving DecidableEq, Repr

/-- Fills a line up with blanks so that it stands at one side of its column. -/
def Side.align (side : Side) (width : Nat) (l : Line) : Line :=
  match side with
  | .left => l.rightpad width ' '
  | .right => l.leftpad width ' '

theorem Side.length_align {side : Side} {w : Nat} {l : Line} (h : l.length ≤ w) :
    (side.align w l).length = w := by
  cases side with
  | left => rw [align, List.length_rightpad, Nat.max_eq_left h]
  | right => rw [align, List.length_leftpad, Nat.max_eq_left h]

structure Column where
  title : Line
  side : Side
  width : Nat
  deriving DecidableEq, Repr

/-- The column that is just wide enough for its title and its cells. -/
def Column.fitting (title : String) (side : Side) (cells : List Block) : Column :=
  ⟨title.toList, side, max title.toList.length (Block.width cells.flatten)⟩

def Column.align (c : Column) (l : Line) : Line := c.side.align c.width l

structure Table where
  left : Column
  right : Column
  rows : List (Block × Block)
  deriving DecidableEq, Repr

namespace Table

/-- The width of every line. -/
def width (t : Table) : Nat := t.left.width + t.right.width + 7

def line (t : Table) (a b : Line) : Line :=
  [' ', ' '] ++ t.left.align a ++ [' ', '│', ' '] ++ t.right.align b ++ [' ', ' ']

def rule (t : Table) (crossing : Char) : Line :=
  [' '] ++ List.replicate (t.left.width + 2) '─' ++ [crossing] ++
    List.replicate (t.right.width + 2) '─' ++ [' ']

/-- The lines of a row; the lower cell is filled up with empty lines at its end. -/
def row (t : Table) (a b : Block) : Block :=
  List.zipWith t.line (a.rightpad b.length []) (b.rightpad a.length [])

def lines (t : Table) : Block :=
  [t.line t.left.title t.right.title, t.rule '┼'] ++
    t.rows.flatMap (fun (a, b) => t.row a b) ++ [t.rule '┴']

theorem length_line {t : Table} {a b : Line} (ha : a.length ≤ t.left.width)
    (hb : b.length ≤ t.right.width) : (t.line a b).length = t.width := by
  simp only [line, List.length_append, Column.align, Side.length_align ha, Side.length_align hb, List.length_cons,
    List.length_nil, width]
  omega

theorem length_rule (t : Table) (crossing : Char) : (t.rule crossing).length = t.width := by
  simp only [rule, List.length_append, List.length_replicate, List.length_cons, List.length_nil,
    width]
  omega

end Table

end StackMachine
