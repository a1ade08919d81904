/-
Programs as lists of statements.

A statement is a label declaration, a byte of data or an instruction with its
operands. Where one ends is decided by the tokens alone: it does not depend on
which labels have been declared or on how full the image is.

* `Statement`: the three kinds, with the line numbers that later errors name.
* `Statement.read`: the next statement; `read_shorter` says that it takes at least
  one token.
* `Program.read`: all statements of a token list up to its end, or up to the first
  place that is no statement, with the error found there.
-/
import Chip8.Instruction.Operands

namespace Chip8

/-- One statement of a program. -/
inductive Statement where
  | label (name : String) (line : Nat)
  | data (byte : BitVec 8)
  | instruction (i : Instruction Target) (line : Nat)
  deriving DecidableEq, Repr

namespace Statement

open Reader

/-- Reads the statement that a token starts. -/
def after (t : Token) : Reader Statement :=
  match t.lexeme with
  | .label name => return .label name t.line
  | .literal v => return .data (Lexeme.literal v).byte
  | .instruction name =>
    match Mnemonic.ofName? name with
    | some m => (.instruction · t.line) <$> m.operands
    | none => throw (.unknownMnemonic name t.line)
  | .register _ | .name _ =>
    throw (.unexpectedKind [.label, .literal, .instruction] t.kind t.line)

/-- Reads a statement. -/
def read : Reader Statement := do
  let t ← next
  after t

/-- Reading a statement is going on after its first token. -/
theorem read_cons (t : Token) (ts : List Token) : read (t :: ts) = after t ts := rfl

/-- The rest of a statement is taken from the front. -/
theorem advances_after (t : Token) : Advances (after t) := by
  rw [after]
  split
  · exact advances_pure _
  · exact advances_pure _
  · split
    · exact advances_map _ (Operands.advances_operands _)
    · exact advances_throw _
  · exact advances_throw _
  · exact advances_throw _

/-- A statement takes at least one token. -/
theorem read_shorter {ts rest : List Token} {s : Statement} (h : read ts = .ok s rest) :
    rest.length < ts.length := by
  cases ts with
  | nil => cases h
  | cons t ts =>
    rw [read_cons] at h
    have hs := advances_after t ts
    rw [left, h] at hs
    exact Nat.lt_succ_of_le hs.length_le

end Statement

/-- The statements of a program, and the error at which reading them stopped if it
did not reach the end. -/
structure Program where
  statements : List Statement
  stop : Option Error
  deriving DecidableEq, Repr

/-- Reads a program from its tokens. -/
def Program.read (ts : List Token) : Program :=
  if ts.isEmpty then ⟨[], none⟩
  else
    match h : Statement.read ts with
    | .error e _ => ⟨[], some e⟩
    | .ok s rest =>
      have := Statement.read_shorter h
      let p := Program.read rest
      ⟨s :: p.statements, p.stop⟩
termination_by ts.length

end Chip8
