/-
From statements to the image.

An assembly goes through the statements once. A label is bound to the address of
the next byte, so it can be used from then on and not before.

* `Assembly`: the labels declared and the bytes written so far.
* `Assembly.here`: the address of the next byte. The image is loaded at `0x200`.
* `Assembly.step`: what one statement adds. The word of an instruction is recorded
  before it is written, so the record is there even if the image is full.
* `assemble`, `Source.assemble`: the image of a token list and of a source text.
-/
import Chip8.Image
import Chip8.Logged
import Chip8.Record
import Chip8.Source
import Chip8.Statement

namespace Chip8

/-- The address at which an image is loaded. -/
def Image.base : Word := 0x200#16

/-- The state of an assembly between two statements. -/
structure Assembly where
  labels : Labels
  image : Image
  deriving DecidableEq

namespace Assembly

/-- The state before the first statement. -/
def start : Assembly := ⟨.empty, .empty⟩

/-- The address of the next byte. -/
def here (a : Assembly) : Word := Image.base + BitVec.ofNat 16 a.image.size

/-- Writes bytes into the image. -/
def write (a : Assembly) (bs : List UInt8) : Except Error Assembly :=
  (a.image.append bs).map fun image => { a with image }

/-- Carries out one statement. -/
def step (a : Assembly) : Statement → Logged Record Error Assembly
  | .label name line => do
    let labels ← Logged.ofExcept (a.labels.declare name a.here line)
    Logged.record (.declared name a.here)
    return { a with labels }
  | .data b => Logged.ofExcept (a.write [⟨b⟩])
  | .instruction i line => do
    let r ← Logged.ofExcept (i.resolve a.labels)
    Logged.record (.encoded line i.mnemonic r.word)
    Logged.ofExcept (a.write r.word.bytes)

/-- Carries out statements in order. -/
def run (a : Assembly) : List Statement → Logged Record Error Assembly
  | [] => return a
  | s :: rest => do
    let b ← a.step s
    b.run rest

end Assembly

/-- Assembles a program: its statements, then the error at which it stops, if there
is one. -/
def Program.assemble (p : Program) : Logged Record Error Image := do
  let a ← Assembly.start.run p.statements
  match p.stop with
  | some e => Logged.ofExcept (.error e)
  | none => do
    Logged.record (.assembled a.image.size)
    return a.image

/-- Assembles a list of tokens. -/
def assemble (ts : List Token) : Logged Record Error Image :=
  (Program.read ts).assemble

namespace Source

/-- The tokens of a source text, with their number on record. -/
def read (text : String) : Logged Record Error (List Token) := do
  let ts ← Logged.ofExcept (tokens text)
  Logged.record (.lexed ts.length)
  return ts

/-- Assembles a source text. -/
def assemble (text : String) : Logged Record Error Image := do
  let ts ← read text
  Chip8.assemble ts

end Source

end Chip8
