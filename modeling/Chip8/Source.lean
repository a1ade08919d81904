/-
Source texts and their tokens.

* `Source.lineTokens`: the tokens of one numbered line, or the error that names
  the line and the place in it.
* `Source.tokens`: the tokens of a whole text. The first line that cannot be read
  decides the error.
-/
import Chip8.Error
import Chip8.Source.Line
import Chip8.Text.Blank
import Chip8.Text.Lines

namespace Chip8

namespace Source

/-- The tokens of a line. An unreadable place is reported without the blanks
at the end of the line. -/
def lineTokens (line : Nat) (s : List Char) : Except Error (List Token) :=
  match lexemes s with
  | .ok ls => .ok (ls.map fun l => ⟨l, line⟩)
  | .error rest => .error (.unreadable line (String.ofList (Text.trimEnd rest)))

/-- The tokens of consecutive lines, of which the first has the given number. -/
def tokensFrom (line : Nat) : List (List Char) → Except Error (List Token)
  | [] => .ok []
  | s :: rest => do
    let here ← lineTokens line s
    let below ← tokensFrom (line + 1) rest
    return here ++ below

/-- The tokens of a source text. -/
def tokens (text : String) : Except Error (List Token) :=
  tokensFrom 1 (Text.lines text.toList)

end Source

end Chip8
