/-
Hexadecimal numerals over the sixteen digits `0`-`9` and `A`-`F`.

* `Hex.isDigit`, `Hex.digitValue`: the digits and what they stand for. Small
  letters are not digits here.
* `Hex.value`: the number that a string of digits denotes, kept in a fixed
  number of bits. Each digit is shifted in from the right, so a numeral that
  is too long keeps its low bits.
* `Hex.digits`, `Hex.numeral`, `Hex.padded`: the shortest numeral of a number,
  and the same with leading zeros up to a width.
* `Hex.value_digits`: **reading inverts writing**, up to the bits that are kept.
-/

namespace Chip8

namespace Hex

/-! ### Reading -/

/-- The sixteen hexadecimal digits: the decimal ones and the capitals `A`-`F`. -/
def isDigit (c : Char) : Bool :=
  c.isDigit || ('A' ≤ c && c ≤ 'F')

/-- What a digit stands for: its distance from `0`, or ten more than its
distance from `A`. -/
def digitValue (c : Char) : Nat :=
  if c.isDigit then c.toNat - '0'.toNat else c.toNat - 'A'.toNat + 10

/-- The number that a string of digits denotes, in `w` bits: every digit moves
the number so far four bits up and takes the place that this frees. -/
def value (w : Nat) (ds : List Char) : BitVec w :=
  ds.foldl (fun n d => n <<< 4 ||| BitVec.ofNat w (digitValue d)) 0#w

/-! ### Writing -/

/-- The digit that stands for a number below sixteen. -/
def digitChar (n : Nat) : Char :=
  n.digitChar.toUpper

/-- The digits of a number, the most significant first and none to spare. -/
def digits (n : Nat) : List Char :=
  if n < 16 then [digitChar n] else digits (n / 16) ++ [digitChar (n % 16)]

/-- A number below sixteen is one digit. -/
theorem digits_of_lt {n : Nat} (h : n < 16) : digits n = [digitChar n] := by
  rw [digits, if_pos h]

/-- A larger number is that of its sixteenth and one digit more. -/
theorem digits_of_le {n : Nat} (h : 16 ≤ n) :
    digits n = digits (n / 16) ++ [digitChar (n % 16)] := by
  rw [digits, if_neg (Nat.not_lt.mpr h)]

/-- Every number has a digit. -/
theorem digits_ne_nil (n : Nat) : digits n ≠ [] := by
  rcases Nat.lt_or_ge n 16 with h | h
  · rw [digits_of_lt h]
    exact List.cons_ne_nil _ _
  · rw [digits_of_le h]
    exact List.append_ne_nil_of_right_ne_nil _ (List.cons_ne_nil _ _)

/-- The shortest hexadecimal numeral of a number. -/
def numeral (n : Nat) : String :=
  String.ofList (digits n)

/-- The numeral of a number, with zeros before it up to `width` digits. -/
def padded (width n : Nat) : String :=
  String.ofList (List.replicate (width - (digits n).length) '0' ++ digits n)

/-! ### Reading what was written -/

/-- A digit stands for the number it was chosen for. -/
theorem digitValue_digitChar {n : Nat} (h : n < 16) : digitValue (digitChar n) = n :=
  (by decide : ∀ n < 16, digitValue (digitChar n) = n) n h

/-- What is written is a digit. -/
theorem isDigit_digitChar {n : Nat} (h : n < 16) : isDigit (digitChar n) = true :=
  (by decide : ∀ n < 16, isDigit (digitChar n) = true) n h

/-- A numeral is written in digits only. -/
theorem isDigit_of_mem_digits (n : Nat) : ∀ c ∈ digits n, isDigit c = true := by
  induction n using Nat.strongRecOn with
  | ind n ih =>
    intro c hc
    rcases Nat.lt_or_ge n 16 with h | h
    · rw [digits_of_lt h, List.mem_singleton] at hc
      rw [hc]
      exact isDigit_digitChar h
    · rw [digits_of_le h, List.mem_append, List.mem_singleton] at hc
      rcases hc with hc | rfl
      · exact ih (n / 16) (by omega) c hc
      · exact isDigit_digitChar (Nat.mod_lt n (by decide))

/-- One digit more at the end is shifted in. -/
theorem value_concat (w : Nat) (ds : List Char) (d : Char) :
    value w (ds ++ [d]) = value w ds <<< 4 ||| BitVec.ofNat w (digitValue d) := by
  rw [value, List.foldl_append]
  rfl

/-- Shifting a digit in is multiplying by sixteen and adding: the two parts have no
bit in common. -/
theorem shift_or_eq (w a b : Nat) (h : b < 16) :
    BitVec.ofNat w a <<< 4 ||| BitVec.ofNat w b = BitVec.ofNat w (16 * a + b) := by
  apply BitVec.eq_of_getLsbD_eq
  intro i hi
  have hsum : (16 * a + b).testBit i = if i < 4 then b.testBit i else a.testBit (i - 4) :=
    Nat.testBit_two_pow_mul_add a (i := 4) h i
  simp only [BitVec.getLsbD_or, BitVec.getLsbD_shiftLeft, BitVec.getLsbD_ofNat, hi, hsum,
    decide_true, Bool.true_and]
  by_cases h4 : i < 4
  · simp [h4]
  · have hb : b.testBit i = false :=
      Nat.testBit_lt_two_pow (Nat.lt_of_lt_of_le h (Nat.pow_le_pow_right (n := 2) (by decide)
        (Nat.not_lt.mp h4)))
    have hi' : i - 4 < w := by omega
    simp [h4, hb, hi']

/-- **Reading inverts writing**: the numeral of a number denotes it, up to the bits
that are kept. -/
theorem value_digits (w n : Nat) : value w (digits n) = BitVec.ofNat w n := by
  induction n using Nat.strongRecOn with
  | ind n ih =>
    rcases Nat.lt_or_ge n 16 with h | h
    · rw [digits_of_lt h, ← List.nil_append [digitChar n], value_concat,
        digitValue_digitChar h]
      exact (shift_or_eq w 0 n h).trans (by rw [Nat.mul_zero, Nat.zero_add])
    · have hm : n % 16 < 16 := Nat.mod_lt n (by decide)
      rw [digits_of_le h, value_concat, ih (n / 16) (by omega), digitValue_digitChar hm,
        shift_or_eq w _ _ hm, Nat.div_add_mod]

end Hex

end Chip8
