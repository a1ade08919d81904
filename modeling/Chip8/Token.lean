/-
Tokens: the lexemes of a source text with the line on which each stands.

* `Kind`: the five kinds of lexeme, and the words by which messages name them.
* `Lexeme`: what was read. A label declaration, an instruction name and an
  operand name carry their text, a register and a literal their number.
* `Lexeme.spelling`: how a lexeme is written in a source text.
* `Lexeme.byte`, `Lexeme.address`, `Lexeme.nibble`: the low bits of the number,
  as wide as the field of an instruction that takes them.
* `Token`: a lexeme and its line. Nothing but the reported line numbers depends
  on the second component.
-/
import Chip8.Text.Hex

namespace Chip8

/-! ### Kinds -/

/-- The kinds of lexeme. -/
inductive Kind where
  /-- A label declaration, `loop:`. -/
  | label
  /-- An instruction name at the start of a line, `DRW`. -/
  | instruction
  /-- A register, `V0` to `VF`. -/
  | register
  /-- A hexadecimal literal, `0x2A`. -/
  | literal
  /-- Any other operand: a label in use, or a special operand such as `DT`. -/
  | name
  deriving DecidableEq, Repr

/-- The word that stands for a kind in messages and listings. -/
def Kind.word : Kind → String
  | .label => "section"
  | .instruction => "instruction"
  | .register => "register"
  | .literal => "hex"
  | .name => "name"

/-! ### Lexemes -/

/-- A lexeme. A register read from a source text is below sixteen, but every
function accepts the whole byte. -/
inductive Lexeme where
  | label (name : String)
  | instruction (name : String)
  | register (index : BitVec 8)
  | literal (value : BitVec 64)
  | name (text : String)
  deriving DecidableEq, Repr

namespace Lexeme

/-- The kind of a lexeme. -/
def kind : Lexeme → Kind
  | label _ => .label
  | instruction _ => .instruction
  | register _ => .register
  | literal _ => .literal
  | name _ => .name

/-- The text of a lexeme that carries one. -/
def text? : Lexeme → Option String
  | label s | instruction s | name s => some s
  | register _ | literal _ => none

/-- The number of a lexeme; one that carries a text counts as zero. -/
def number : Lexeme → BitVec 64
  | register r => r.setWidth 64
  | literal v => v
  | label _ | instruction _ | name _ => 0#64

/-- How a lexeme is written: a label with its colon, a register and a literal
in capital digits after `V` and `0x`. -/
def spelling : Lexeme → String
  | label s => s ++ ":"
  | instruction s | name s => s
  | register r => "V" ++ Hex.numeral r.toNat
  | literal v => "0x" ++ Hex.numeral v.toNat

/-- The low eight bits of the number. -/
def byte (l : Lexeme) : BitVec 8 := l.number.setWidth 8

/-- The low twelve bits of the number. -/
def address (l : Lexeme) : BitVec 12 := l.number.setWidth 12

/-- The low four bits of the number. -/
def nibble (l : Lexeme) : BitVec 4 := l.number.setWidth 4

end Lexeme

/-! ### Tokens -/

/-- A lexeme and the number of its line; the first line has number one. -/
structure Token where
  lexeme : Lexeme
  line : Nat
  deriving DecidableEq, Repr

namespace Token

/-- The kind of a token's lexeme. -/
def kind (t : Token) : Kind := t.lexeme.kind

/-- How a token's lexeme is written. -/
def spelling (t : Token) : String := t.lexeme.spelling

end Token

end Chip8
