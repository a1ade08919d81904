/-
The names of the instructions.

* `Mnemonic`: the twenty names. Several instructions may share one and differ
  in their operands.
* `Mnemonic.name`, `Mnemonic.ofName?`: how a name is written, and the look-up.
  The look-up distinguishes capitals from small letters, and it inverts the
  spelling by construction: it searches for the mnemonic with that spelling.
-/

namespace Chip8

/-- The instruction names. -/
inductive Mnemonic where
  | cls | ret | sys | jp | call | se | sne | ld | add | or | and | xor | sub | shr | subn | shl
  | rnd | drw | skp | sknp
  deriving DecidableEq, Repr

namespace Mnemonic

/-- All mnemonics. -/
def all : List Mnemonic :=
  [cls, ret, sys, jp, call, se, sne, ld, add, or, and, xor, sub, shr, subn, shl, rnd, drw, skp,
    sknp]

/-- The spelling of a mnemonic. -/
def name : Mnemonic → String
  | cls => "CLS"
  | ret => "RET"
  | sys => "SYS"
  | jp => "JP"
  | call => "CALL"
  | se => "SE"
  | sne => "SNE"
  | ld => "LD"
  | add => "ADD"
  | or => "OR"
  | and => "AND"
  | xor => "XOR"
  | sub => "SUB"
  | shr => "SHR"
  | subn => "SUBN"
  | shl => "SHL"
  | rnd => "RND"
  | drw => "DRW"
  | skp => "SKP"
  | sknp => "SKNP"

/-- The mnemonic with a given spelling. -/
def ofName? (s : String) : Option Mnemonic :=
  all.find? fun m => m.name == s

end Mnemonic

end Chip8
