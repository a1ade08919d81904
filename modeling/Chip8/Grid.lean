/-
Text in columns.

Cells stand in columns that are flush on the left, one space apart. A column is as
wide as its widest cell; nothing is added after the last one. Every row ends with
a line feed.

* `Grid.width`: the width of a column.
* `Grid.row`: one row, given the widths of the columns.
* `Grid.render`: the whole text.
-/

namespace Chip8

namespace Grid

/-- The width of column `j`: the length of its longest cell. -/
def width (rows : List (List String)) (j : Nat) : Nat :=
  (rows.map fun r => (r.getD j "").length).foldl max 0

/-- A cell with spaces after it up to a width. -/
def pad (width : Nat) (cell : String) : String :=
  cell ++ String.ofList (List.replicate (width - cell.length) ' ')

/-- The cells of a row. All but the last are padded, `widths` holding the widths of
the columns from here on. -/
def row : List Nat → List String → String
  | _, [] => ""
  | _, [c] => c
  | [], c :: cs => c ++ " " ++ row [] cs
  | w :: ws, c :: cs => pad w c ++ " " ++ row ws cs

/-- The text of a grid with a given number of columns. -/
def render (columns : Nat) (rows : List (List String)) : String :=
  let widths := (List.range columns).map (width rows)
  String.join (rows.map fun r => row widths r ++ "\n")

end Grid

end Chip8
