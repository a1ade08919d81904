/-
Literals and the numbers that they denote.

A literal is read by shifting its digits into a number of a fixed width, so that one with more
digits than fit loses its first ones. No field of an instruction is as wide as the number, and
neither is a byte of data. What is lost would not have been seen there: the bytes of an image are
those of the number that the whole numeral denotes.

* `Lead`: a line with a place where an operand is to be read, and the lexemes before it;
  `Lead.lexemes_eq` says how reading goes on there.
* `toNat_ofNat_mod`: cutting a number twice is cutting it to the smaller width.
* `Layout.Denotes`: where a literal stands as data or as an operand, the image has the low bits of
  a number; `IsLayout.denotes` says that this is so in every layout.
* `literal_denotes_numeral`: **a literal means its numeral**, however long it is.
-/
import Mathlib.Tactic
import Chip8.Proofs.LabelElimination
import Chip8.Proofs.Numerals
import Chip8.Proofs.Unreadable

namespace Chip8

namespace Source

/-! ### Places of operands -/

/-- A line with a place where an operand is to be read: before it stand a head or none and operands,
which are read as given lexemes. -/
inductive Lead : List Char → List Lexeme → List Char → Prop
  | intro {head : Option (List Char × Lexeme)} {os : List Piece} {place : List Char}
      (hhead : Begins head (Piece.join place os)) (hos : Cut place os) :
      Lead (head.elim [] Prod.fst ++ Piece.join place os)
        ((head.map Prod.snd).toList ++ os.map Piece.lexeme) place

/-- Behind operands reading goes on at the place. -/
lemma Cut.operands_join {place : List Char} {os : List Piece} (h : Cut place os) :
    operands (Piece.join place os) = (operands place).map (os.map Piece.lexeme ++ ·) := by
  induction h with
  | nil => cases hplace : operands place <;> simp [Piece.join, hplace, Except.map]
  | cons hs ho _ ih =>
      rw [Piece.join, operands_append (longest_run_iff.mp hs).1 (isOperand_iff.mp ho), ih]
      cases operands place <;> rfl

/-- The lexemes of a line are those before the place and those that are read from there on. -/
lemma Lead.lexemes_eq {line place : List Char} {ls : List Lexeme} (h : Lead line ls place) :
    lexemes line = (operands place).map (ls ++ ·) := by
  obtain ⟨hhead, hos⟩ := h
  rw [hhead.lexemes_eq, hos.operands_join]
  cases operands place with
  | error rest => rfl
  | ok more => exact congrArg Except.ok (List.append_assoc _ _ more).symm

/-- A literal is one lexeme, and reading goes on behind it. -/
lemma Lead.lexemes_eq_of_literal {line seps ds rest : List Char} {ls : List Lexeme}
    (h : Lead line ls (seps ++ ('0' :: 'x' :: ds ++ rest))) (hseps : IsRun IsSeparator seps)
    (hds : IsWord IsHexDigit ds) (hrest : Stops IsHexDigit rest) :
    lexemes line =
      (operands rest).map (ls ++ .literal (BitVec.ofNat 64 (numeralValue ds)) :: ·) := by
  have hliteral := isOperand_iff.mp (.literal (longest_word_iff.mpr ⟨hds, hrest⟩))
  rw [h.lexemes_eq, operands_append hseps hliteral]
  cases operands rest <;> rfl

end Source

open Source

/-! ### Literals in an image -/

/-- Cutting a number to a width and then to a smaller one. -/
lemma toNat_ofNat_mod {w k : Nat} (h : k ≤ w) (n : Nat) :
    (BitVec.ofNat w n).toNat % 2 ^ k = n % 2 ^ k := by
  rw [BitVec.toNat_ofNat, Nat.mod_mod_of_dvd _ (pow_dvd_pow 2 h)]

lemma Field.width_le (f : Field) : f.width ≤ 12 := by
  cases f <;> decide

/-- A place that admits a literal has a field for it. -/
lemma Slot.Admits.exists_field {s : Slot} {v : BitVec 64} (h : s.Admits (.literal v)) :
    ∃ f, s.field? = some f := by
  cases s with
  | byte | nibble | address => exact ⟨_, rfl⟩
  | vx | vy =>
      obtain ⟨r, hr⟩ := h
      cases hr
  | v0 =>
      obtain ⟨r, hr, -⟩ := h
      cases hr
  | special name => cases h

/-- A literal stands for a number in the image of a program: where it is data, the byte has the low
bits of the number, and where it is an operand, a field of the word has. -/
structure Layout.Denotes (v : BitVec 64) (n : Nat) (segs : List Segment) (img : List UInt8) :
    Prop where
  data : ∀ before line after, segs = before ++ .data v line :: after →
    ∃ b, img[size before]? = some b ∧ b.toNat = n % 256
  operand : ∀ before name line ops after, segs = before ++ .instruction name line ops :: after →
    ∃ row ∈ opcodeTable, Mnemonic.ofName? name = some row.mnemonic ∧ row.Matches ops ∧
      ∀ slot line', (slot, ⟨.literal v, line'⟩) ∈ row.slots.zip ops →
        ∃ f, slot.field? = some f ∧ f.read (wordAt img (size before)) = n % 2 ^ f.width

/-- **In every layout** a literal stands for each number that it is the low bits of. -/
theorem IsLayout.denotes {ts : List Token} {segs : List Segment} {img : List UInt8}
    (h : IsLayout ts segs img) (n : Nat) :
    Layout.Denotes (BitVec.ofNat 64 n) n segs img := by
  refine ⟨?_, ?_⟩
  · rintro before line after rfl
    obtain ⟨pre, bs, post, hbs, hpre, rfl⟩ := h.emitted.exists_split
    cases hbs
    refine ⟨UInt8.ofNat (BitVec.ofNat 64 n).toNat, ?_, ?_⟩
    · rw [← hpre, List.getElem?_append_right le_rfl, Nat.sub_self]
      rfl
    · rw [UInt8.toNat_ofNat']
      exact toNat_ofNat_mod (by omega) n
  · rintro before name line ops after rfl
    obtain ⟨pre, bs, post, hbs, hpre, rfl⟩ := h.emitted.exists_split
    obtain ⟨row, hrow, hm, hops, w, hw, rfl⟩ := hbs.exists_row
    refine ⟨row, hrow, hm, hops, fun slot line' hmem => ?_⟩
    obtain ⟨f, hf⟩ := ((List.forall₂_iff_zip.mp hops).2 hmem).exists_field
    obtain ⟨k, hk, hread⟩ := (List.forall₂_iff_zip.mp hw.fills).2 hmem f hf
    cases hk
    refine ⟨f, hf, ?_⟩
    rw [← hpre, Layout.wordAt_append, hread]
    exact toNat_ofNat_mod (f.width_le.trans (by omega)) n

/-- **A literal means its numeral.** Let `n` be the number that digits denote to the base sixteen,
however many they are. In the place of an operand `0x` and the digits are read as one literal, with
or without zeros before them, and its value is `n` in sixty-four bits. The low bits of the value are
those of `n`: as a byte, as an address and as a nibble, and so in the image of every program that is
assembled, where the literal is data and where it fills a field of an instruction. -/
theorem literal_denotes_numeral (ds : List Char) (hds : IsWord IsHexDigit ds) :
    ∃ v : BitVec 64, v.toNat = numeralValue ds % 2 ^ 64 ∧
      (∀ zeros line ls seps rest, IsRun (· = '0') zeros → IsRun IsSeparator seps →
        Stops IsHexDigit rest → Lead line ls (seps ++ ('0' :: 'x' :: (zeros ++ ds) ++ rest)) →
        lexemes line = (operands rest).map (ls ++ .literal v :: ·)) ∧
      (Lexeme.literal v).byte.toNat = numeralValue ds % 256 ∧
      (Lexeme.literal v).address.toNat = numeralValue ds % 4096 ∧
      (Lexeme.literal v).nibble.toNat = numeralValue ds % 16 ∧
      ∀ ts i, (assemble ts).outcome = .ok i →
        ∃ segs, IsLayout ts segs i.toList ∧
          Layout.Denotes v (numeralValue ds) segs i.toList := by
  refine ⟨BitVec.ofNat 64 (numeralValue ds), BitVec.toNat_ofNat _ _, ?_, ?_, ?_, ?_, ?_⟩
  · intro zeros line ls seps rest hzeros hseps hrest hlead
    have hdigits : IsWord IsHexDigit (zeros ++ ds) := by
      refine ⟨List.append_ne_nil_of_right_ne_nil zeros hds.1, ?_⟩
      refine List.forall_mem_append.mpr ⟨fun c hc => ?_, hds.2⟩
      rw [hzeros c hc]
      decide
    rw [hlead.lexemes_eq_of_literal hseps hdigits hrest, numeralValue_append_of_zeros hzeros]
  · rw [Lexeme.toNat_byte_literal]
    exact toNat_ofNat_mod (k := 8) (by omega) _
  · rw [Lexeme.toNat_address_literal]
    exact toNat_ofNat_mod (k := 12) (by omega) _
  · rw [Lexeme.toNat_nibble_literal]
    exact toNat_ofNat_mod (k := 4) (by omega) _
  · intro ts i hi
    obtain ⟨segs, hsegs⟩ := exists_isLayout_of_assemble hi
    exact ⟨segs, hsegs, hsegs.denotes _⟩

/-- More digits than sixteen: the first of them have no part in the value, which stands alone on its
line here. -/
theorem literal_denotes_numeral_long :
    ∃ v : BitVec 64, v.toNat = 0x456789ABCDEF0123 ∧ (Lexeme.literal v).byte.toNat = 0x23 ∧
      lexemes "0x00123456789ABCDEF0123;".toList = .ok [.literal v] := by
  have hdigits : IsWord IsHexDigit "123456789ABCDEF0123".toList :=
    ⟨by decide, fun c hc => (isHexDigit_iff c).mp (List.all_eq_true.mp rfl c hc)⟩
  have hvalue : numeralValue "123456789ABCDEF0123".toList = 0x123456789ABCDEF0123 := by
    decide +kernel
  have hlead : Lead "0x00123456789ABCDEF0123;".toList [] "0x00123456789ABCDEF0123;".toList :=
    .intro (begins_none_iff.mpr rfl) .nil
  obtain ⟨v, hv, hread, hbyte, -⟩ := literal_denotes_numeral _ hdigits
  rw [hvalue] at hv hbyte
  refine ⟨v, hv, hbyte, ?_⟩
  rw [hread ['0', '0'] _ [] [] [';'] (by simp [IsRun]) (List.forall_mem_nil _)
    (stops_cons_iff.mpr (by decide)) hlead]
  exact congrArg (Except.map _) (operands_stop (List.forall_mem_nil IsSeparator) (.inr ⟨[], rfl⟩))

end Chip8
