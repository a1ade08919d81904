/-
The lines of a text.

A line feed ends a line and belongs to none. A carriage return directly before
it belongs to the line end as well, and only there: at the end of a text that
no line feed closes it is an ordinary character. A text has as many lines as
it has line feeds, and one more if characters follow the last of them; so the
empty text has none.

* `withoutReturn`: a line without the carriage return of its line end.
* `lines`: the lines of a text, in order.
-/

namespace Chip8

namespace Text

/-- The line before a line feed, less one carriage return at its end. -/
def withoutReturn (l : List Char) : List Char :=
  if l.getLast? = some '\r' then l.dropLast else l

/-- What follows the place at which dropping stops is shorter than the text. -/
theorem shorter_of_dropWhile {p : Char → Bool} {s rest : List Char} {c : Char}
    (h : s.dropWhile p = c :: rest) : rest.length < s.length := by
  have hl := (List.dropWhile_sublist (l := s) p).length_le
  rw [h] at hl
  exact hl

/-- The lines of a text. -/
def lines (s : List Char) : List (List Char) :=
  match h : s.dropWhile (· != '\n') with
  | [] => if s.isEmpty then [] else [s]
  | _ :: rest =>
    have := shorter_of_dropWhile h
    withoutReturn (s.takeWhile (· != '\n')) :: lines rest
termination_by s.length

end Text

end Chip8
