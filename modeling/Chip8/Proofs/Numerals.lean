/-
Hexadecimal numerals for numbers.

A number is written with as many digits as it needs, and with zeros before them up to a width. Both
are numerals that denote it. How many digits there are is known as well: a number that needs no more
than the width has exactly that many, and one that needs more has no zero in front.

* `IsNumeral`: the numerals that denote a number.
* `Source.numeralValue_append_of_zeros`: zeros before a numeral do not change its number.
* `Hex.numeralValue_digits`, `Hex.length_digits_le`: the shortest numeral of a number, and its
  length.
* `Hex.IsFilled`, `Hex.isFilled_padded`: **a numeral that is filled up with zeros**, and only as far
  as a width asks for.
-/
import Mathlib.Tactic
import Chip8.Proofs.LineGrammar

namespace Chip8

open Source

/-! ### Numerals that denote a number -/

/-- A numeral for a number: hexadecimal digits, in capitals, with any number of leading zeros. -/
def IsNumeral (ds : List Char) (n : Nat) : Prop := IsWord IsHexDigit ds ∧ numeralValue ds = n

namespace Source

lemma numeralValue_of_zeros {zeros : List Char} (h : IsRun (· = '0') zeros) :
    numeralValue zeros = 0 := by
  induction zeros using List.reverseRecOn with
  | nil => rfl
  | append_singleton zeros d ih =>
      obtain ⟨hzeros, hd⟩ := List.forall_mem_append.mp h
      rw [numeralValue_concat, ih hzeros, hd d (.head _)]
      rfl

/-- Zeros before a numeral do not change its number. -/
lemma numeralValue_append_of_zeros {zeros : List Char} (h : IsRun (· = '0') zeros)
    (ds : List Char) : numeralValue (zeros ++ ds) = numeralValue ds := by
  induction ds using List.reverseRecOn with
  | nil => rw [List.append_nil, numeralValue_of_zeros h, numeralValue_of_zeros (by simp [IsRun])]
  | append_singleton ds d ih =>
      rw [← List.append_assoc, numeralValue_concat, numeralValue_concat, ih]

end Source

/-! ### Numerals that are written -/

namespace Hex

lemma idxOf_digitChar {n : Nat} (h : n < 16) : digitOrder.idxOf (digitChar n) = n := by
  have hdigit : IsHexDigit (digitChar n) := (isHexDigit_iff _).mp (isDigit_digitChar h)
  rw [← digitValue_eq_idxOf hdigit, digitValue_digitChar h]

/-- The numeral of a number denotes it. -/
lemma numeralValue_digits (n : Nat) : numeralValue (digits n) = n := by
  induction n using Nat.strong_induction_on with
  | _ n ih =>
    rcases Nat.lt_or_ge n 16 with h | h
    · rw [digits_of_lt h, ← List.nil_append [digitChar n], numeralValue_concat, idxOf_digitChar h]
      exact Nat.zero_add n
    · rw [digits_of_le h, numeralValue_concat, ih (n / 16) (by omega),
        idxOf_digitChar (Nat.mod_lt n (by decide))]
      omega

/-- A number has no more digits than it needs. -/
lemma length_digits_le {width n : Nat} (h : n < 16 ^ (width + 1)) :
    (digits n).length ≤ width + 1 := by
  induction width generalizing n with
  | zero =>
      rw [digits_of_lt (by omega)]
      exact Nat.le_refl 1
  | succ width ih =>
      rcases Nat.lt_or_ge n 16 with hn | hn
      · rw [digits_of_lt hn]
        exact Nat.le_add_left 1 _
      · have hdiv : n / 16 < 16 ^ (width + 1) := by
          rw [pow_succ] at h
          omega
        rw [digits_of_le hn, List.length_append]
        exact Nat.add_le_add_right (ih hdiv) 1

lemma toList_padded (width n : Nat) :
    (padded width n).toList = List.replicate (width - (digits n).length) '0' ++ digits n :=
  String.toList_ofList

/-- Leading zeros do not change what a numeral denotes. -/
lemma isNumeral_padded (width n : Nat) : IsNumeral (padded width n).toList n := by
  have hzeros : IsRun (· = '0') (List.replicate (width - (digits n).length) '0') :=
    fun c hc => List.eq_of_mem_replicate hc
  rw [toList_padded]
  refine ⟨⟨List.append_ne_nil_of_right_ne_nil _ (digits_ne_nil n), ?_⟩, ?_⟩
  · intro c hc
    rcases List.mem_append.mp hc with hc | hc
    · rw [hzeros c hc]
      decide
    · exact (isHexDigit_iff c).mp (isDigit_of_mem_digits n c hc)
  · rw [numeralValue_append_of_zeros hzeros, numeralValue_digits]

/-- A numeral for a number, filled up with zeros to a width: it has at least so many digits, and a
zero in front only if it has no more. -/
structure IsFilled (width n : Nat) (s : String) : Prop where
  numeral : IsNumeral s.toList n
  width_le : width ≤ s.length
  leading : width < s.length → s.toList.head? ≠ some '0'

/-- A number other than zero has no zero in front. -/
lemma head?_digits_ne_zero {n : Nat} (h : n ≠ 0) : (digits n).head? ≠ some '0' := by
  induction n using Nat.strong_induction_on with
  | _ n ih =>
    rcases Nat.lt_or_ge n 16 with hn | hn
    · rw [digits_of_lt hn]
      exact (by decide : ∀ n < 16, n ≠ 0 → [digitChar n].head? ≠ some '0') n hn h
    · rw [digits_of_le hn, List.head?_append_of_ne_nil _ (digits_ne_nil _)]
      exact ih (n / 16) (by omega) (by omega)

/-- **What is filled up with zeros** has no more of them than it needs. -/
theorem isFilled_padded {width : Nat} (hwidth : 0 < width) (n : Nat) :
    IsFilled width n (padded width n) := by
  have hlength : (padded width n).length = width - (digits n).length + (digits n).length := by
    rw [← String.length_toList, toList_padded, List.length_append, List.length_replicate]
  refine ⟨isNumeral_padded width n, by omega, fun hlong => ?_⟩
  have hzeros : width - (digits n).length = 0 := by omega
  have hn : n ≠ 0 := by
    rintro rfl
    have hone : (digits 0).length = 1 := by rw [digits_of_lt (by decide), List.length_singleton]
    omega
  rw [toList_padded, hzeros]
  exact head?_digits_ne_zero hn

end Hex

end Chip8
