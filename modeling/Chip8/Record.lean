/-
The log of an assembly.

* `Level`: how important a record is. A log kept at some level shows the records
  that are at least as important (`Level.shows`).
* `Record`: what happened: tokens read, a label bound, an instruction encoded, the
  image finished.
* `Record.level`, `Record.origin`, `Record.message`: the three columns of a log.
-/
import Chip8.Mnemonic
import Chip8.Text.Hex
import Chip8.Word

namespace Chip8

/-! ### Levels -/

/-- The levels of a log, the most important first. -/
inductive Level where
  | error | warn | info | debug
  deriving DecidableEq, Repr

namespace Level

/-- The name of a level in a log line. -/
def name : Level → String
  | error => "ERROR"
  | warn => "WARN"
  | info => "INFO"
  | debug => "DEBUG"

/-- The place of a level: a larger number is less important. -/
def rank : Level → Nat
  | error => 0
  | warn => 1
  | info => 2
  | debug => 3

/-- A log kept at level `l` shows records of level `r` that are at least as
important. -/
def shows (l r : Level) : Bool := r.rank ≤ l.rank

end Level

/-! ### Records -/

/-- An entry in the log of an assembly. -/
inductive Record where
  /-- A source text was read and has this many tokens. -/
  | lexed (tokens : Nat)
  /-- A label was bound to an address. -/
  | declared (name : String) (address : Word)
  /-- The instruction on a line has this word. -/
  | encoded (line : Nat) (mnemonic : Mnemonic) (word : Word)
  /-- The image is finished and has this many bytes. -/
  | assembled (bytes : Nat)
  deriving DecidableEq, Repr

namespace Record

/-- All steps on the way are details; only the result is news. -/
def level : Record → Level
  | lexed _ | declared _ _ | encoded _ _ _ => .debug
  | assembled _ => .info

/-- The part of the assembler that a record comes from. -/
def origin : Record → String
  | lexed _ => "chip8asm::assembler::lexer"
  | declared _ _ => "chip8asm::assembler::labels"
  | encoded _ _ _ | assembled _ => "chip8asm::assembler::compiler"

/-- The text of a record. Addresses have at least three digits, words four. -/
def message : Record → String
  | lexed tokens => "lexed " ++ tokens.repr ++ " token(s)"
  | declared name address => "label `" ++ name ++ "` => 0x" ++ Hex.padded 3 address.toNat
  | encoded line mnemonic word =>
    "line " ++ line.repr ++ ": " ++ mnemonic.name ++ " => 0x" ++ Hex.padded 4 word.toNat
  | assembled bytes => "assembled " ++ bytes.repr ++ " byte(s)"

end Record

end Chip8
