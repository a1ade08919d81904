/-
The instruction set: thirty-five instructions in six layouts.

An instruction is known by its layout, its operation and its fields. The letters
of the layouts are those of the usual tables: `nnn` an address of twelve bits,
`x` and `y` registers, `kk` a byte, `n` a nibble.

* `FixedOp`, `AddressOp`, `ByteOp`, `PairOp`, `RegisterOp`: the operations of each
  layout, with the mnemonic that names them (`mnemonic`) and the bits that identify
  them (`opcode`). The sixth layout has a single operation, `DRW`.
* `Instruction`: an operation with its fields. The address is a parameter: first
  it may still be a label (`Target`), later it is a number.
* `Instruction.word`: the word of an instruction, its fields written side by side
  as in the tables.
* `Target.resolve`, `Instruction.resolve`: labels replaced by the low twelve bits of
  their addresses.
-/
import Chip8.Labels
import Chip8.Mnemonic

namespace Chip8

/-! ### Operations -/

/-- Operations without a field. -/
inductive FixedOp where
  /-- `CLS`: clear the display. -/
  | cls
  /-- `RET`: return from a subroutine. -/
  | ret
  deriving DecidableEq, Repr

/-- Operations on an address. -/
inductive AddressOp where
  /-- `SYS nnn`: call machine code. -/
  | sys
  /-- `JP nnn`: jump. -/
  | jp
  /-- `CALL nnn`: call a subroutine. -/
  | call
  /-- `LD I, nnn`: set the index register. -/
  | ldI
  /-- `JP V0, nnn`: jump to the address plus `V0`. -/
  | jpV0
  deriving DecidableEq, Repr

/-- Operations on a register and a byte. -/
inductive ByteOp where
  /-- `SE Vx, kk`: skip if equal. -/
  | se
  /-- `SNE Vx, kk`: skip if not equal. -/
  | sne
  /-- `LD Vx, kk`. -/
  | ld
  /-- `ADD Vx, kk`. -/
  | add
  /-- `RND Vx, kk`: a random byte, masked. -/
  | rnd
  deriving DecidableEq, Repr

/-- Operations on two registers. -/
inductive PairOp where
  /-- `SE Vx, Vy`: skip if equal. -/
  | se
  /-- `SNE Vx, Vy`: skip if not equal. -/
  | sne
  /-- `LD Vx, Vy`. -/
  | ld
  | or
  | and
  | xor
  | add
  | sub
  | shr
  | subn
  | shl
  deriving DecidableEq, Repr

/-- Operations on one register. -/
inductive RegisterOp where
  /-- `SKP Vx`: skip if the key is down. -/
  | skp
  /-- `SKNP Vx`: skip if the key is up. -/
  | sknp
  /-- `LD Vx, DT`: read the delay timer. -/
  | readDelay
  /-- `LD Vx, K`: wait for a key. -/
  | awaitKey
  /-- `LD DT, Vx`: set the delay timer. -/
  | setDelay
  /-- `LD ST, Vx`: set the sound timer. -/
  | setSound
  /-- `ADD I, Vx`: advance the index register. -/
  | addIndex
  /-- `LD F, Vx`: point the index register at the sprite of a digit. -/
  | font
  /-- `LD B, Vx`: store the decimal digits. -/
  | decimal
  /-- `LD I, Vx`: store `V0` to `Vx` in memory. -/
  | store
  /-- `LD Vx, I`: load `V0` to `Vx` from memory. -/
  | restore
  deriving DecidableEq, Repr

/-! ### Opcodes -/

/-- The whole word of an operation without a field. -/
def FixedOp.opcode : FixedOp → Word
  | cls => 0x00E0#16
  | ret => 0x00EE#16

/-- The first nibble, before `nnn`. -/
def AddressOp.opcode : AddressOp → BitVec 4
  | sys => 0x0#4
  | jp => 0x1#4
  | call => 0x2#4
  | ldI => 0xA#4
  | jpV0 => 0xB#4

/-- The first nibble, before `xkk`. -/
def ByteOp.opcode : ByteOp → BitVec 4
  | se => 0x3#4
  | sne => 0x4#4
  | ld => 0x6#4
  | add => 0x7#4
  | rnd => 0xC#4

/-- The nibbles before and after `xy`. -/
def PairOp.opcode : PairOp → BitVec 4 × BitVec 4
  | se => (0x5#4, 0x0#4)
  | sne => (0x9#4, 0x0#4)
  | ld => (0x8#4, 0x0#4)
  | or => (0x8#4, 0x1#4)
  | and => (0x8#4, 0x2#4)
  | xor => (0x8#4, 0x3#4)
  | add => (0x8#4, 0x4#4)
  | sub => (0x8#4, 0x5#4)
  | shr => (0x8#4, 0x6#4)
  | subn => (0x8#4, 0x7#4)
  | shl => (0x8#4, 0xE#4)

/-- The nibble before and the byte after `x`. -/
def RegisterOp.opcode : RegisterOp → BitVec 4 × BitVec 8
  | skp => (0xE#4, 0x9E#8)
  | sknp => (0xE#4, 0xA1#8)
  | readDelay => (0xF#4, 0x07#8)
  | awaitKey => (0xF#4, 0x0A#8)
  | setDelay => (0xF#4, 0x15#8)
  | setSound => (0xF#4, 0x18#8)
  | addIndex => (0xF#4, 0x1E#8)
  | font => (0xF#4, 0x29#8)
  | decimal => (0xF#4, 0x33#8)
  | store => (0xF#4, 0x55#8)
  | restore => (0xF#4, 0x65#8)

/-! ### Names -/

/-- The name of an operation without a field. -/
def FixedOp.mnemonic : FixedOp → Mnemonic
  | cls => .cls
  | ret => .ret

/-- The name of an operation on an address. -/
def AddressOp.mnemonic : AddressOp → Mnemonic
  | sys => .sys
  | jp | jpV0 => .jp
  | call => .call
  | ldI => .ld

/-- The name of an operation on a register and a byte. -/
def ByteOp.mnemonic : ByteOp → Mnemonic
  | se => .se
  | sne => .sne
  | ld => .ld
  | add => .add
  | rnd => .rnd

/-- The name of an operation on two registers. -/
def PairOp.mnemonic : PairOp → Mnemonic
  | se => .se
  | sne => .sne
  | ld => .ld
  | or => .or
  | and => .and
  | xor => .xor
  | add => .add
  | sub => .sub
  | shr => .shr
  | subn => .subn
  | shl => .shl

/-- The name of an operation on one register. -/
def RegisterOp.mnemonic : RegisterOp → Mnemonic
  | skp => .skp
  | sknp => .sknp
  | addIndex => .add
  | readDelay | awaitKey | setDelay | setSound | font | decimal | store | restore => .ld

/-! ### Instructions -/

/-- An operation with its fields; `α` is the type of addresses. -/
inductive Instruction (α : Type) where
  | fixed (op : FixedOp)
  | address (op : AddressOp) (nnn : α)
  | byte (op : ByteOp) (x : BitVec 4) (kk : BitVec 8)
  | pair (op : PairOp) (x y : BitVec 4)
  /-- `DRW Vx, Vy, n`: draw a sprite of `n` rows. -/
  | sprite (x y n : BitVec 4)
  | register (op : RegisterOp) (x : BitVec 4)
  deriving DecidableEq, Repr

namespace Instruction

/-- The name of an instruction. -/
def mnemonic {α : Type} : Instruction α → Mnemonic
  | fixed op => op.mnemonic
  | address op _ => op.mnemonic
  | byte op _ _ => op.mnemonic
  | pair op _ _ => op.mnemonic
  | sprite _ _ _ => .drw
  | register op _ => op.mnemonic

/-- The word of an instruction. -/
def word : Instruction (BitVec 12) → Word
  | fixed op => op.opcode
  | address op nnn => .ofAddress op.opcode nnn
  | byte op x kk => .ofByte op.opcode x kk
  | pair op x y => .ofNibbles op.opcode.1 x y op.opcode.2
  | sprite x y n => .ofNibbles 0xD#4 x y n
  | register op x => .ofByte op.opcode.1 x op.opcode.2

end Instruction

/-! ### Targets -/

/-- An address as it is written: a number, or a label on a line. -/
inductive Target where
  | literal (nnn : BitVec 12)
  | label (name : String) (line : Nat)
  deriving DecidableEq, Repr

/-- The address of a target: twelve bits of the label's address. -/
def Target.resolve (labels : Labels) : Target → Except Error (BitVec 12)
  | literal nnn => .ok nnn
  | label name line => (labels.resolve name line).map (·.setWidth 12)

/-- An instruction with its target, if it has one, replaced by an address. -/
def Instruction.resolve (labels : Labels) :
    Instruction Target → Except Error (Instruction (BitVec 12))
  | fixed op => .ok (fixed op)
  | address op target => (target.resolve labels).map (address op)
  | byte op x kk => .ok (byte op x kk)
  | pair op x y => .ok (pair op x y)
  | sprite x y n => .ok (sprite x y n)
  | register op x => .ok (register op x)

end Chip8
