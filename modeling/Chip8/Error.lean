/-
What can go wrong between a source text and its image.

* `Error`: one constructor per cause, with what a message needs to say.
* `Error.message`: the wording, the only place where it is written down.
-/
import Chip8.Token

namespace Chip8

/-- The reasons for which a source text is refused. -/
inductive Error where
  /-- On line `line` the text that starts with `fragment` is no lexeme. -/
  | unreadable (line : Nat) (fragment : String)
  /-- A token of another kind was due. -/
  | unexpectedKind (expected : List Kind) (actual : Kind) (line : Nat)
  /-- The tokens ended before the operands of an instruction did. -/
  | endOfInput
  /-- No instruction has this name. -/
  | unknownMnemonic (name : String) (line : Nat)
  /-- An operand of the right kind that the instruction does not admit. -/
  | invalidOperand (operand expected : String) (line : Nat)
  /-- The image has no room for the next bytes. -/
  | imageFull (capacity : Nat)
  /-- A label is used where it has not been declared. -/
  | undeclaredLabel (name : String) (line : Nat)
  /-- A label is declared a second time. -/
  | duplicateLabel (name : String) (line : Nat)
  deriving DecidableEq, Repr

namespace Error

/-- A list of kinds as a choice: `register or hex`. -/
def choice (kinds : List Kind) : String :=
  " or ".intercalate (kinds.map Kind.word)

/-- The message for an error. -/
def message : Error → String
  | unreadable line fragment =>
    "unable to parse `" ++ fragment ++ "` on line " ++ line.repr
  | unexpectedKind expected actual line =>
    "expected " ++ choice expected ++ " on line " ++ line.repr ++ ", got " ++ actual.word
  | endOfInput => "expected an operand, got end of input"
  | unknownMnemonic name line =>
    "unknown instruction `" ++ name ++ "` on line " ++ line.repr
  | invalidOperand operand expected line =>
    "invalid operand `" ++ operand ++ "` on line " ++ line.repr ++ ", expected " ++ expected
  | imageFull capacity => "program does not fit into " ++ capacity.repr ++ " bytes"
  | undeclaredLabel name line =>
    "label `" ++ name ++ "` on line " ++ line.repr ++ " is not declared before its use"
  | duplicateLabel name line =>
    "label `" ++ name ++ "` on line " ++ line.repr ++ " is already declared"

end Error

end Chip8
