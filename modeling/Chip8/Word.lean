/-
Instruction words and the places of their fields.

A word has sixteen bits, or four nibbles. After the first nibble an instruction has
an address of twelve bits (`annn`), a register and a byte (`axkk`), or two registers
and a nibble (`axyn`).

* `Word.ofAddress`, `Word.ofByte`, `Word.ofNibbles`: the word with given fields in
  each of the three layouts. `toNat_ofAddress`, `toNat_ofByte` and `toNat_ofNibbles`
  give it as a number.
* `Word.ofX`, `Word.ofY`: the word in which only one register is set.
* `Word.high`, `Word.low`, `Word.bytes`: a word as it stands in memory, the high
  byte first.
-/

namespace Chip8

/-- A word of memory, as wide as an instruction or an address. -/
abbrev Word := BitVec 16

namespace Word

/-! ### Fields -/

/-- `annn`: a nibble and an address. -/
def ofAddress (a : BitVec 4) (nnn : BitVec 12) : Word := a ++ nnn

/-- `axkk`: two nibbles and a byte. -/
def ofByte (a x : BitVec 4) (kk : BitVec 8) : Word := a ++ x ++ kk

/-- `axyn`: four nibbles. -/
def ofNibbles (a x y n : BitVec 4) : Word := a ++ x ++ y ++ n

/-- The word with a register in bits 8 to 11 and zeros elsewhere. -/
def ofX (r : BitVec 4) : Word := ofNibbles 0#4 r 0#4 0#4

/-- The word with a register in bits 4 to 7 and zeros elsewhere. -/
def ofY (r : BitVec 4) : Word := ofNibbles 0#4 0#4 r 0#4

/-- Bit vectors side by side as a number: the second fills the places that the
shift of the first has freed. -/
theorem toNat_append_eq_add {m n : Nat} (a : BitVec m) (b : BitVec n) :
    (a ++ b).toNat = a.toNat <<< n + b.toNat := by
  rw [BitVec.toNat_append, Nat.shiftLeft_add_eq_or_of_lt b.isLt]

/-- `annn` as a number. -/
theorem toNat_ofAddress (a : BitVec 4) (nnn : BitVec 12) :
    (ofAddress a nnn).toNat = a.toNat * 0x1000 + nnn.toNat := by
  have h : (ofAddress a nnn).toNat = a.toNat <<< 12 + nnn.toNat := toNat_append_eq_add a nnn
  rw [h, Nat.shiftLeft_eq]

/-- `axkk` as a number. -/
theorem toNat_ofByte (a x : BitVec 4) (kk : BitVec 8) :
    (ofByte a x kk).toNat = a.toNat * 0x1000 + x.toNat * 0x100 + kk.toNat := by
  have h : (ofByte a x kk).toNat = (a ++ x).toNat <<< 8 + kk.toNat :=
    toNat_append_eq_add (a ++ x) kk
  rw [h, toNat_append_eq_add a x]
  simp only [Nat.shiftLeft_eq]
  omega

/-- `axyn` as a number. -/
theorem toNat_ofNibbles (a x y n : BitVec 4) :
    (ofNibbles a x y n).toNat =
      a.toNat * 0x1000 + x.toNat * 0x100 + y.toNat * 0x10 + n.toNat := by
  have h : (ofNibbles a x y n).toNat = (a ++ x ++ y).toNat <<< 4 + n.toNat :=
    toNat_append_eq_add (a ++ x ++ y) n
  rw [h, toNat_append_eq_add (a ++ x) y, toNat_append_eq_add a x]
  simp only [Nat.shiftLeft_eq]
  omega

/-! ### Bytes -/

/-- The byte of bits 8 to 15. -/
def high (w : Word) : UInt8 := ⟨w.extractLsb' 8 8⟩

/-- The byte of bits 0 to 7. -/
def low (w : Word) : UInt8 := ⟨w.extractLsb' 0 8⟩

/-- The bytes of a word in memory order. -/
def bytes (w : Word) : List UInt8 := [w.high, w.low]

end Word

end Chip8
