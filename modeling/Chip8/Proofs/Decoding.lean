/-
Reading a word back.

The rows of the opcode table differ in bits that no field covers, so a word tells by which
row it was encoded, and its fields tell the operands. There is one exception: an address
may be any number, and with the right one `SYS` has the words of `CLS` and of `RET`.

* `Row.fixedBits`, `Row.fits`: the bits of a row outside its fields, and the words that
  have them.
* `decode`: the first row of the table that a word fits, with the numbers in its fields.
* `rows_differ`: two rows differ in a bit that is fixed in both, but for `SYS` and the
  instructions without operands.
* `Row.Encodes.operandField_eq`: the numbers in the fields are those that the operands
  stand for.
* `encode_unambiguous`: **a word is encoded in one way only**. Two calls of the encoder that
  give the same word have used the same name, the same row and the same fields, or one of
  them was `SYS` with the address `0x0E0` or `0x0EE`; every other word is decoded.
-/
import Mathlib.Tactic
import Chip8.Proofs.OpcodeTable

namespace Chip8

namespace Row

/-! ### Fixed bits and fields -/

/-- The fields of a row. -/
def fields (row : Row) : List Field := row.slots.filterMap Slot.field?

/-- The bits that no field of a row covers. -/
def fixedBits (row : Row) : List Nat :=
  (List.range 16).filter fun k => row.fields.all fun f => k < f.start || f.start + f.width ≤ k

/-- A word has the fixed bits of a row. -/
def fits (row : Row) (w : Word) : Bool :=
  row.fixedBits.all fun k => w.getLsbD k == row.opcode.getLsbD k

/-- The number in a field of a word, if the row has the field. -/
def wordField (row : Row) (w : Word) (f : Field) : Option Nat :=
  if f ∈ row.fields then some (f.read w) else none

/-- The number that operands stand for in a field, as far as its bits go, if the row has
the field. -/
def operandField (row : Row) (labels : Labels) (ops : List Token) (f : Field) : Option Nat :=
  (row.slots.zip ops).findSome? fun p =>
    if p.1.field? = some f then (p.2.lexeme.number? labels).map (· % 2 ^ f.width) else none

end Row

/-- The first row that a word fits, and the numbers in its fields. -/
def decode (w : Word) : Option (Row × (Field → Option Nat)) :=
  (opcodeTable.find? (·.fits w)).map fun row => (row, row.wordField w)

namespace Row

variable {row row' : Row} {labels labels' : Labels} {ops ops' : List Token} {w w' : Word}

lemma mem_fixedBits_iff {k : Nat} :
    k ∈ row.fixedBits ↔ k < 16 ∧ ∀ s ∈ row.slots, ∀ f, s.field? = some f → ¬ f.Covers k := by
  have hcover : ∀ f : Field,
      (k < f.start || f.start + f.width ≤ k) = true ↔ ¬ f.Covers k := by
    intro f
    simp only [Bool.or_eq_true, decide_eq_true_eq, Field.Covers]
    omega
  simp only [fixedBits, fields, List.mem_filter, List.mem_range, List.all_eq_true, hcover,
    List.mem_filterMap]
  refine and_congr_right fun _ => ⟨fun h s hs f hf => h f ⟨s, hs, hf⟩, fun h f hf => ?_⟩
  obtain ⟨s, hs, hfield⟩ := hf
  exact h s hs f hfield

/-- A word has the fixed bits of the row by which it was encoded. -/
lemma Encodes.fits (h : row.Encodes labels ops w) : row.fits w = true := by
  rw [Row.fits, List.all_eq_true]
  intro k hk
  obtain ⟨hlt, hfree⟩ := mem_fixedBits_iff.mp hk
  exact beq_iff_eq.mpr (h.fixed k hlt hfree)

lemma getLsbD_eq_of_fits (h : row.fits w = true) {k : Nat} (hk : k ∈ row.fixedBits) :
    w.getLsbD k = row.opcode.getLsbD k :=
  beq_iff_eq.mp (List.all_eq_true.mp h k hk)

/-- The fixed bits of a row and its fields make up the word. -/
lemma eq_of_fits (h : row.fits w = true) (h' : row.fits w' = true)
    (hread : ∀ f ∈ row.fields, f.read w = f.read w') : w = w' := by
  apply BitVec.eq_of_getLsbD_eq
  intro k hk
  by_cases hfree : k ∈ row.fixedBits
  · rw [getLsbD_eq_of_fits h hfree, getLsbD_eq_of_fits h' hfree]
  · obtain ⟨s, hs, f, hf, hfk⟩ : ∃ s ∈ row.slots, ∃ f, s.field? = some f ∧ f.Covers k := by
      by_contra hnone
      push Not at hnone
      exact hfree (mem_fixedBits_iff.mpr ⟨hk, hnone⟩)
    exact Field.getLsbD_eq_of_read_eq (hread f (List.mem_filterMap.mpr ⟨s, hs, hf⟩)) hfk

/-- Operands that fill their places are found in the fields of the word. -/
lemma findSome?_eq_of_fills {slots : List Slot} (h : List.Forall₂ (Slot.Fills labels w) slots ops)
    (f : Field) :
    ((slots.zip ops).findSome? fun p =>
      if p.1.field? = some f then (p.2.lexeme.number? labels).map (· % 2 ^ f.width) else none) =
      if f ∈ slots.filterMap Slot.field? then some (f.read w) else none := by
  induction h with
  | nil => rfl
  | @cons s t slots ops hst _ ih =>
      rw [List.zip_cons_cons, List.findSome?_cons]
      by_cases hs : s.field? = some f
      · obtain ⟨v, hv, hread⟩ := hst f hs
        have hmem : f ∈ (s :: slots).filterMap Slot.field? :=
          List.mem_filterMap.mpr ⟨s, .head _, hs⟩
        rw [if_pos hs, hv, if_pos hmem, hread]
        rfl
      · have hmem : f ∈ (s :: slots).filterMap Slot.field? ↔ f ∈ slots.filterMap Slot.field? := by
          simp [List.mem_filterMap, hs]
        rw [if_neg hs, ih]
        simp only [hmem]

/-- **The fields hold the operands.** -/
lemma Encodes.operandField_eq (h : row.Encodes labels ops w) :
    row.operandField labels ops = row.wordField w :=
  funext fun f => findSome?_eq_of_fills h.fills f

end Row

/-! ### Two rows for one word -/

/-- Rows that do not share a word differ in a bit that is fixed in both. -/
lemma rows_differ : ∀ row ∈ opcodeTable, ∀ row' ∈ opcodeTable, row = row' ∨
    (row.mnemonic = .sys ∧ row'.mnemonic ∈ [Mnemonic.cls, .ret]) ∨
    (row'.mnemonic = .sys ∧ row.mnemonic ∈ [Mnemonic.cls, .ret]) ∨
    ∃ k ∈ row.fixedBits, k ∈ row'.fixedBits ∧ row.opcode.getLsbD k ≠ row'.opcode.getLsbD k := by
  decide +kernel

/-- The rows of the three instructions that may share a word. -/
lemma row_of_mnemonic : ∀ row ∈ opcodeTable,
    (row.mnemonic = .cls → row = ⟨.cls, [], 0x00E0#16⟩) ∧
    (row.mnemonic = .ret → row = ⟨.ret, [], 0x00EE#16⟩) ∧
    (row.mnemonic = .sys → row = ⟨.sys, [.address], 0x0000#16⟩) := by
  decide +kernel

/-- The words that two names share: `SYS` with a certain address has the word of an
instruction without operands. -/
inductive SharesWord : Mnemonic → Mnemonic → Word → Prop
  | cls : SharesWord .sys .cls 0x00E0#16
  | ret : SharesWord .sys .ret 0x00EE#16

/-- The word of an instruction without operands, of which every bit is fixed. -/
lemma sharesWord_of_fits {row : Row} {w : Word} (hrow : row ∈ opcodeTable)
    (hm : row.mnemonic ∈ [Mnemonic.cls, .ret]) (h : row.fits w = true) :
    SharesWord .sys row.mnemonic w := by
  obtain ⟨hcls, hret, -⟩ := row_of_mnemonic row hrow
  rcases List.mem_pair.mp hm with hm | hm
  · rw [hcls hm] at h ⊢
    obtain rfl : w = 0x00E0#16 := Row.eq_of_fits h (by decide) (List.forall_mem_nil _)
    exact .cls
  · rw [hret hm] at h ⊢
    obtain rfl : w = 0x00EE#16 := Row.eq_of_fits h (by decide) (List.forall_mem_nil _)
    exact .ret

/-- A word fits one row only, or it is a word that two names share. -/
lemma eq_or_sharesWord_of_fits {row row' : Row} {w : Word} (hrow : row ∈ opcodeTable)
    (hrow' : row' ∈ opcodeTable) (h : row.fits w = true) (h' : row'.fits w = true) :
    row = row' ∨ SharesWord row.mnemonic row'.mnemonic w ∨
      SharesWord row'.mnemonic row.mnemonic w := by
  rcases rows_differ row hrow row' hrow' with heq | ⟨hsys, hm⟩ | ⟨hsys, hm⟩ | ⟨k, hk, hk', hne⟩
  · exact .inl heq
  · rw [hsys]
    exact .inr (.inl (sharesWord_of_fits hrow' hm h'))
  · rw [hsys]
    exact .inr (.inr (sharesWord_of_fits hrow hm h))
  · rw [← Row.getLsbD_eq_of_fits h hk, ← Row.getLsbD_eq_of_fits h' hk'] at hne
    exact absurd rfl hne

/-- The word of `SYS` is its address. -/
lemma eq_iff_of_encodes_sys {labels : Labels} {ops : List Token} {w n : Word}
    (h : Row.Encodes ⟨.sys, [.address], 0x0000#16⟩ labels ops w)
    (hn : Row.fits ⟨.sys, [.address], 0x0000#16⟩ n = true) :
    w = n ↔ Row.operandField ⟨.sys, [.address], 0x0000#16⟩ labels ops .nnn =
      some (Field.nnn.read n) := by
  have hfield : Row.wordField ⟨.sys, [.address], 0x0000#16⟩ w .nnn = some (Field.nnn.read w) := rfl
  rw [h.operandField_eq, hfield, Option.some.injEq]
  refine ⟨fun hw => by rw [hw], fun hread => Row.eq_of_fits h.fits hn fun f hf => ?_⟩
  obtain rfl : f = .nnn := List.mem_singleton.mp hf
  exact hread

/-! ### Decoding -/

/-- A word that fits a row is decoded to the row and its fields, unless two names share
it. -/
lemma decode_eq_some {row : Row} {w : Word} (hrow : row ∈ opcodeTable) (h : row.fits w = true)
    (hcls : w ≠ 0x00E0#16) (hret : w ≠ 0x00EE#16) : decode w = some (row, row.wordField w) := by
  have hnone : ∀ {m m' : Mnemonic}, ¬ SharesWord m m' w := by
    rintro m m' (_ | _)
    · exact hcls rfl
    · exact hret rfl
  cases hfind : opcodeTable.find? (·.fits w) with
  | none => exact absurd h (List.find?_eq_none.mp hfind row hrow)
  | some first =>
      have hfirst : first ∈ opcodeTable := List.mem_of_find?_eq_some hfind
      have hfits : first.fits w = true := List.find?_some (p := (Row.fits · w)) hfind
      rcases eq_or_sharesWord_of_fits hfirst hrow hfits h with rfl | hs | hs
      · rw [decode, hfind]
        rfl
      · exact absurd hs hnone
      · exact absurd hs hnone

/-- The row of the table by which a call of the encoder gives a word, and the operands that
it takes. -/
structure Mnemonic.Uses (m : Mnemonic) (labels : Labels) (ts rest : List Token) (w : Word)
    (row : Row) (ops : List Token) : Prop where
  mem : row ∈ opcodeTable
  mnemonic : row.mnemonic = m
  tokens : ts = ops ++ rest
  admits : row.Matches ops
  encodes : row.Encodes labels ops w

lemma Mnemonic.exists_uses {m : Mnemonic} {labels : Labels} {ts rest : List Token} {w : Word}
    (h : m.encode labels ts = .ok w rest) : ∃ row ops, m.Uses labels ts rest w row ops := by
  obtain ⟨i, r, hi, hr, rfl⟩ := encode_eq_ok_iff_resolve.mp h
  obtain ⟨ops, hs, rfl, rfl⟩ := operands_eq_ok_iff.mp hi
  exact ⟨i.form.row, ops, Form.mem_opcodeTable_iff.mpr ⟨_, rfl⟩, i.form_row_mnemonic, rfl,
    hs.matches, hs.encodes hr⟩

/-- **A word is encoded in one way only.** If two calls of the encoder give the same word,
they have used the same name, the same row of the table and the same numbers in its fields,
or one is `SYS` and the other an instruction without operands: `CLS` if the address is
`0x0E0`, and `RET` if it is `0x0EE`. All other words are decoded to the row and the fields
that have been used. -/
theorem encode_unambiguous {m m' : Mnemonic} {labels labels' : Labels}
    {ts ts' rest rest' : List Token} {w : Word} (h : m.encode labels ts = .ok w rest)
    (h' : m'.encode labels' ts' = .ok w rest') :
    (∃ row ops, m.Uses labels ts rest w row ops) ∧
    (∃ row' ops', m'.Uses labels' ts' rest' w row' ops') ∧
    ∀ row ops row' ops', m.Uses labels ts rest w row ops →
      m'.Uses labels' ts' rest' w row' ops' →
      (m = m' ∧ row = row' ∧ row.operandField labels ops = row'.operandField labels' ops' ∨
        SharesWord m m' w ∨ SharesWord m' m w) ∧
      (w ≠ 0x00E0#16 → w ≠ 0x00EE#16 → decode w = some (row, row.operandField labels ops)) ∧
      (m = .sys → (w = 0x00E0#16 ↔ row.operandField labels ops .nnn = some 0x0E0) ∧
        (w = 0x00EE#16 ↔ row.operandField labels ops .nnn = some 0x0EE)) := by
  refine ⟨Mnemonic.exists_uses h, Mnemonic.exists_uses h', ?_⟩
  rintro row ops row' ops' ⟨hrow, rfl, -, -, he⟩ ⟨hrow', rfl, -, -, he'⟩
  refine ⟨?_, fun hcls hret => ?_, fun hsys => ?_⟩
  · refine (eq_or_sharesWord_of_fits hrow hrow' he.fits he'.fits).imp_left fun heq => ?_
    subst heq
    exact ⟨rfl, rfl, by rw [he.operandField_eq, he'.operandField_eq]⟩
  · rw [he.operandField_eq]
    exact decode_eq_some hrow he.fits hcls hret
  · obtain rfl := (row_of_mnemonic row hrow).2.2 hsys
    exact ⟨eq_iff_of_encodes_sys he (by decide), eq_iff_of_encodes_sys he (by decide)⟩

/-- A shared word: the address of `SYS` is taken modulo 4096, and what is left has the word
of `CLS`. -/
theorem encode_unambiguous_sys_cls :
    Mnemonic.sys.encode .empty [⟨.literal 0xF0E0#64, 1⟩] = .ok 0x00E0#16 [] ∧
    Mnemonic.cls.encode .empty [] = .ok 0x00E0#16 [] ∧
    ∃ row ops, Mnemonic.sys.Uses .empty [⟨.literal 0xF0E0#64, 1⟩] [] 0x00E0#16 row ops ∧
      row.operandField .empty ops .nnn = some 0x0E0 := by
  have hsys : Mnemonic.sys.encode .empty [⟨.literal 0xF0E0#64, 1⟩] = .ok 0x00E0#16 [] := rfl
  have hcls : Mnemonic.cls.encode .empty [] = .ok 0x00E0#16 [] := rfl
  obtain ⟨⟨row, ops, hu⟩, ⟨row', ops', hu'⟩, hall⟩ := encode_unambiguous hsys hcls
  obtain ⟨-, -, hshared⟩ := hall row ops row' ops' hu hu'
  exact ⟨hsys, hcls, row, ops, hu, (hshared rfl).1.mp rfl⟩

end Chip8
