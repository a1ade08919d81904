/-
What can be printed about a source text and its image.

* `Listing.tokens`: a token a row: its line, its kind, how it is written.
* `Listing.image`: two bytes a row, after the address of the first. Since data are
  single bytes, rows need not coincide with instructions, and the last row may hold
  one byte only.
-/
import Chip8.Assembly
import Chip8.Grid

namespace Chip8

namespace Listing

/-- The row of a token. -/
def tokenRow (t : Token) : List String :=
  [t.line.repr ++ ":", t.kind.word, t.spelling]

/-- The token stream. -/
def tokens (ts : List Token) : String :=
  Grid.render 3 (ts.map tokenRow)

/-- The digits of a byte. -/
def byte (b : UInt8) : String := Hex.padded 2 b.toNat

/-- The row of the bytes at an address. -/
def imageRow (address : Nat) (digits : String) : List String :=
  ["0x" ++ Hex.padded 4 address ++ ":", digits]

/-- The rows of bytes from an address on. -/
def imageRows (address : Nat) : List UInt8 → List (List String)
  | [] => []
  | [b] => [imageRow address (byte b)]
  | b :: c :: rest => imageRow address (byte b ++ byte c) :: imageRows (address + 2) rest

/-- The image with the addresses at which it is loaded. -/
def image (i : Image) : String :=
  Grid.render 2 (imageRows Image.base.toNat i.toList)

end Listing

end Chip8
