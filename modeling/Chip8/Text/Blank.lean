/-
Blank characters: those with the Unicode property `White_Space`.

* `blankRanges`: the ten ranges of the property, as code points.
* `isBlank`: membership in one of them.
* `trimEnd`: a text without the blanks at its end.
-/

namespace Chip8

namespace Text

/-- The code points of the property `White_Space`, as inclusive ranges in
increasing order. -/
def blankRanges : List (Nat × Nat) :=
  [(0x0009, 0x000D), (0x0020, 0x0020), (0x0085, 0x0085), (0x00A0, 0x00A0), (0x1680, 0x1680),
    (0x2000, 0x200A), (0x2028, 0x2029), (0x202F, 0x202F), (0x205F, 0x205F), (0x3000, 0x3000)]

/-- A blank is a character in one of the ranges of `White_Space`. -/
def isBlank (c : Char) : Bool :=
  blankRanges.any fun r => r.1 ≤ c.toNat && c.toNat ≤ r.2

/-- The text up to its last character that is not blank. -/
def trimEnd (s : List Char) : List Char :=
  (s.reverse.dropWhile isBlank).reverse

end Text

end Chip8
