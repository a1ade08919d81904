/-
The operands of an instruction, read from the tokens that follow its name.

Every name has its own order of operands, and the kinds that are admitted at a
place are part of the error message, in the order given here. An instruction
reads no more tokens than its form needs. Labels are not looked up while reading:
a label in use becomes a `Target` and waits.

* `Target.ofToken`: a name is a label, anything else a number.
* `RegisterOp.into?`, `RegisterOp.outOf?`: the special operands of `LD`.
* `Operands.load`: the eleven forms of `LD`. Both operands have been taken before
  the first is looked at.
* `Mnemonic.operands`: the reader of each name; `advances_operands` says that it
  takes tokens from the front only.
* `Mnemonic.encode`: the operands read, the target resolved, the word.
-/
import Chip8.Instruction
import Chip8.Reader

namespace Chip8

open Reader

/-! ### Single operands -/

/-- The target that an address operand denotes. -/
def Target.ofToken (t : Token) : Target :=
  match t.lexeme with
  | .name s => .label s t.line
  | l => .literal l.address

/-- The error for a token that its instruction does not admit. -/
def Token.refused (t : Token) (expected : String) : Error :=
  .invalidOperand t.spelling expected t.line

/-- What `LD` can set from a register, the index register apart. -/
def RegisterOp.into? (s : String) : Option RegisterOp :=
  if s = "DT" then some .setDelay
  else if s = "ST" then some .setSound
  else if s = "F" then some .font
  else if s = "B" then some .decimal
  else none

/-- What `LD` can set a register from, by name. -/
def RegisterOp.outOf? (s : String) : Option RegisterOp :=
  if s = "DT" then some .readDelay
  else if s = "K" then some .awaitKey
  else if s = "I" then some .restore
  else none

namespace Operands

/-! ### Forms -/

/-- A register and then, in the token `q`, a byte or another register. -/
def byteOrPair (b : ByteOp) (p : PairOp) (x : BitVec 4) (q : Token) : Instruction Target :=
  match q.lexeme with
  | .literal v => .byte b x (Lexeme.literal v).byte
  | l => .pair p x l.nibble

/-- The form of `LD` with the operands `p` and `q`. -/
def load (p q : Token) : Except Error (Instruction Target) :=
  match p.lexeme with
  | .name s =>
    if s = "I" then
      match q.lexeme with
      | .register r => .ok (.register .store (Lexeme.register r).nibble)
      | _ => .ok (.address .ldI (Target.ofToken q))
    else
      match RegisterOp.into? s with
      | some op => (q.require [.register]).map fun _ => .register op q.lexeme.nibble
      | none => .error (p.refused "I, DT, ST, F or B")
  | l =>
    match q.lexeme with
    | .name s =>
      match RegisterOp.outOf? s with
      | some op => .ok (.register op l.nibble)
      | none => .error (q.refused "DT, K or I")
    | _ => .ok (byteOrPair .ld .ld l.nibble q)

/-! ### Readers -/

/-- `nnn`. -/
def address (op : AddressOp) : Reader (Instruction Target) := do
  let t ← expect [.name, .literal]
  return .address op (Target.ofToken t)

/-- `Vx`. -/
def register (op : RegisterOp) : Reader (Instruction Target) := do
  let t ← expect [.register]
  return .register op t.lexeme.nibble

/-- `Vx, Vy`. -/
def pair (op : PairOp) : Reader (Instruction Target) := do
  let p ← expect [.register]
  let q ← expect [.register]
  return .pair op p.lexeme.nibble q.lexeme.nibble

/-- `Vx, kk` or `Vx, Vy`. -/
def skip (b : ByteOp) (op : PairOp) : Reader (Instruction Target) := do
  let p ← expect [.register]
  let q ← expect [.literal, .register]
  return byteOrPair b op p.lexeme.nibble q

/-- `nnn` or `V0, nnn`. -/
def jump : Reader (Instruction Target) := do
  let t ← expect [.name, .literal, .register]
  match t.lexeme with
  | .register r =>
    if (Lexeme.register r).nibble = 0#4 then address .jpV0 else throw (t.refused "V0")
  | _ => return .address .jp (Target.ofToken t)

/-- The two operands of `LD`. -/
def loads : Reader (Instruction Target) := do
  let p ← expect [.register, .name]
  let q ← expect [.literal, .register, .name]
  ofExcept (load p q)

/-- `Vx, kk` or `Vx, Vy` or `I, Vx`. -/
def add : Reader (Instruction Target) := do
  let p ← expect [.name, .register]
  match p.lexeme with
  | .name s => if s = "I" then register .addIndex else throw (p.refused "I")
  | l => do
    let q ← expect [.literal, .register]
    return byteOrPair .add .add l.nibble q

/-- `Vx, kk`. -/
def random : Reader (Instruction Target) := do
  let p ← expect [.register]
  let q ← expect [.literal]
  return .byte .rnd p.lexeme.nibble q.lexeme.byte

/-- `Vx, Vy, n`. -/
def draw : Reader (Instruction Target) := do
  let p ← expect [.register]
  let q ← expect [.register]
  let n ← expect [.literal]
  return .sprite p.lexeme.nibble q.lexeme.nibble n.lexeme.nibble

end Operands

open Operands in
/-- Reads the operands that follow a name. -/
def Mnemonic.operands : Mnemonic → Reader (Instruction Target)
  | .cls => return .fixed .cls
  | .ret => return .fixed .ret
  | .sys => address .sys
  | .jp => jump
  | .call => address .call
  | .se => skip .se .se
  | .sne => skip .sne .sne
  | .ld => loads
  | .add => Operands.add
  | .or => pair .or
  | .and => pair .and
  | .xor => pair .xor
  | .sub => pair .sub
  | .shr => pair .shr
  | .subn => pair .subn
  | .shl => pair .shl
  | .rnd => random
  | .drw => draw
  | .skp => register .skp
  | .sknp => register .sknp

/-- Reads the operands that follow a name and gives the word, with labels looked
up in a table. -/
def Mnemonic.encode (m : Mnemonic) (labels : Labels) : Reader Word := do
  let i ← m.operands
  let r ← ofExcept (i.resolve labels)
  return r.word

/-! ### What the readers leave -/

namespace Operands

theorem advances_address (op : AddressOp) : Advances (address op) :=
  advances_bind (advances_expect _) fun _ => advances_pure _

theorem advances_register (op : RegisterOp) : Advances (register op) :=
  advances_bind (advances_expect _) fun _ => advances_pure _

theorem advances_pair (op : PairOp) : Advances (pair op) :=
  advances_bind (advances_expect _) fun _ =>
    advances_bind (advances_expect _) fun _ => advances_pure _

theorem advances_skip (b : ByteOp) (op : PairOp) : Advances (skip b op) :=
  advances_bind (advances_expect _) fun _ =>
    advances_bind (advances_expect _) fun _ => advances_pure _

theorem advances_jump : Advances jump :=
  advances_bind (advances_expect _) fun t => by
    split
    · split
      · exact advances_address _
      · exact advances_throw _
    · exact advances_pure _

theorem advances_loads : Advances loads :=
  advances_bind (advances_expect _) fun _ =>
    advances_bind (advances_expect _) fun _ => advances_ofExcept _

theorem advances_add : Advances Operands.add :=
  advances_bind (advances_expect _) fun p => by
    split
    · split
      · exact advances_register _
      · exact advances_throw _
    · exact advances_bind (advances_expect _) fun _ => advances_pure _

theorem advances_random : Advances random :=
  advances_bind (advances_expect _) fun _ =>
    advances_bind (advances_expect _) fun _ => advances_pure _

theorem advances_draw : Advances draw :=
  advances_bind (advances_expect _) fun _ =>
    advances_bind (advances_expect _) fun _ =>
      advances_bind (advances_expect _) fun _ => advances_pure _

/-- Reading operands takes tokens from the front only, whatever the name and
however it ends. -/
theorem advances_operands : ∀ m : Mnemonic, Advances m.operands
  | .cls | .ret => advances_pure _
  | .sys | .call => advances_address _
  | .jp => advances_jump
  | .se | .sne => advances_skip _ _
  | .ld => advances_loads
  | .add => advances_add
  | .or | .and | .xor | .sub | .shr | .subn | .shl => advances_pair _
  | .rnd => advances_random
  | .drw => advances_draw
  | .skp | .sknp => advances_register _

end Operands

end Chip8
