/-
From a program on paper to its image.

A program is a list of items: labels, bytes of data, and instructions, each of which is a row of
the opcode table with numbers for its fields. It can be written down in many ways, with any
separators, leading zeros and comments. Whatever way is chosen, the text is assembled to the
bytes of the items, one after the other.

* `Item`, `Fields`, `Reference`: programs. That the numbers fit their fields is part of the types.
* `Row.wordWith`: the word of a row with given numbers in its fields.
* `Items.address`, `Items.image`: the address of a label and the image of a program, from the
  sizes of the items alone.
* `Items.Valid`: the programs in which labels are names, all different, and declared before use.
* `Item.IsLine`, `Items.IsText`: the lines that an item can be written as, and the texts of a
  program.
* `Row.encodes_wordWith`: the word of a row with the numbers of its operands is what the row says.
* `Items.Valid.emits`, `Items.Valid.emitted`: an item emits its bytes, and a program its image.
* `Item.IsLine.lexemes_eq`, `Items.Valid.tokens_eq`: however an item is written, it is read as the
  same lexemes, and so is a program.
* `assemble_written`: **a written program is assembled to its image**, or it does not fit.
-/
import Mathlib.Tactic
import Chip8.Proofs.Decoding
import Chip8.Proofs.LineGrammar
import Chip8.Proofs.Numerals
import Chip8.Proofs.Rendering
import Chip8.Proofs.Tracing

namespace Chip8

open Source

/-! ### Programs -/

/-- An address in a program: a number, or a label that stands for one. -/
inductive Reference where
  | literal (nnn : BitVec 12)
  | label (name : String)
  deriving DecidableEq, Repr

/-- Numbers for the fields of an instruction. A row uses those of the fields that it has. -/
structure Fields where
  x : BitVec 4
  y : BitVec 4
  n : BitVec 4
  kk : BitVec 8
  nnn : Reference
  deriving DecidableEq, Repr

/-- The number for a field, labels standing for given addresses. An address has twelve bits. -/
def Fields.value (address : String → Nat) (v : Fields) : Field → Nat
  | .x => v.x.toNat
  | .y => v.y.toNat
  | .n => v.n.toNat
  | .kk => v.kk.toNat
  | .nnn =>
    match v.nnn with
    | .literal nnn => nnn.toNat
    | .label name => address name % 4096

/-- The word of a row with numbers in its fields: each is shifted to the place of its field and
added to the opcode. -/
def Row.wordWith (row : Row) (value : Field → Nat) : Word :=
  BitVec.ofNat 16 (row.opcode.toNat + (row.fields.map fun f => value f * 2 ^ f.start).sum)

/-- An item of a program: a label, a byte of data, or an instruction of the table. -/
inductive Item where
  | label (name : String)
  | data (byte : BitVec 8)
  | instruction (row : Row) (hrow : row ∈ opcodeTable) (fields : Fields)

namespace Item

/-- The number of bytes of an item. -/
def size : Item → Nat
  | label _ => 0
  | data _ => 1
  | instruction _ _ _ => 2

/-- The name that an item declares. -/
def name? : Item → Option String
  | label name => some name
  | data _ | instruction _ _ _ => none

/-- The bytes of an item, labels standing for given addresses: a word has its high byte first. -/
def bytes (address : String → Nat) : Item → List UInt8
  | label _ => []
  | data b => [UInt8.ofNat b.toNat]
  | instruction row _ v =>
    let w := row.wordWith (v.value address)
    [UInt8.ofNat (w.toNat / 256), UInt8.ofNat w.toNat]

end Item

namespace Items

/-- The number of bytes of items. -/
def size (items : List Item) : Nat := (items.map Item.size).sum

/-- The names that items declare, in order. -/
def names (items : List Item) : List String := items.filterMap Item.name?

/-- The address of a label: the load address plus the number of bytes before the label. -/
def address (items : List Item) (label : String) : Nat :=
  0x200 + size (items.takeWhile (·.name? != some label))

/-- The image of a program: the bytes of its items, one after the other. -/
def image (items : List Item) : List UInt8 := items.flatMap (Item.bytes (address items))

/-- A program that can be assembled: its labels are identifiers that are not taken for a register,
all of them different, and declared before they are used. -/
structure Valid (items : List Item) : Prop where
  distinct : (names items).Nodup
  identifier : ∀ name ∈ names items, IsIdentifier name.toList ∧ ¬ BeginsLikeRegister name.toList
  declared : ∀ before row hrow v after label, items = before ++ .instruction row hrow v :: after →
    Slot.address ∈ row.slots → v.nnn = .label label → label ∈ names before

end Items

/-! ### Writing a program -/

/-- What an operand can be written as: `V` and a digit, `0x` and a numeral, or a name. -/
def Slot.IsText (v : Fields) : Slot → List Char → Prop
  | .vx, text => ∃ d, text = ['V', d] ∧ IsNumeral [d] v.x.toNat
  | .vy, text => ∃ d, text = ['V', d] ∧ IsNumeral [d] v.y.toNat
  | .v0, text => text = ['V', '0']
  | .byte, text => ∃ ds, text = '0' :: 'x' :: ds ∧ IsNumeral ds v.kk.toNat
  | .nibble, text => ∃ ds, text = '0' :: 'x' :: ds ∧ IsNumeral ds v.n.toNat
  | .address, text =>
    match v.nnn with
    | .literal nnn => ∃ ds, text = '0' :: 'x' :: ds ∧ IsNumeral ds nnn.toNat
    | .label name => text = name.toList
  | .special name, text => text = name.toList

/-- What follows the name of an instruction: its operands in order, with at least one separator
before each of them, and the end of the line. -/
inductive AreOperands (v : Fields) : List Slot → List Char → Prop
  | nil {ending : List Char} (h : IsEnding ending) : AreOperands v [] ending
  | cons {s : Slot} {slots : List Slot} {seps text rest : List Char}
      (hs : IsWord IsSeparator seps) (ht : s.IsText v text) (hr : AreOperands v slots rest) :
      AreOperands v (s :: slots) (seps ++ (text ++ rest))

/-- The lines that an item can be written as. A label and an instruction begin in the first
column. -/
inductive Item.IsLine : Item → List Char → Prop
  | label {name : String} {ending : List Char} (h : IsEnding ending) :
      IsLine (.label name) (name.toList ++ [':'] ++ ending)
  | data {b : BitVec 8} {seps ds ending : List Char} (hs : IsRun IsSeparator seps)
      (hds : IsNumeral ds b.toNat) (h : IsEnding ending) :
      IsLine (.data b) (seps ++ ('0' :: 'x' :: ds ++ ending))
  | instruction {row : Row} {hrow : row ∈ opcodeTable} {v : Fields} {rest : List Char}
      (h : AreOperands v row.slots rest) :
      IsLine (.instruction row hrow v) (row.mnemonic.name.toList ++ rest)

/-- The texts of a program: each item is written on a line of its own. -/
def Items.IsText (items : List Item) (text : String) : Prop :=
  ∃ lines, Text.IsLines text.toList lines ∧ List.Forall₂ Item.IsLine items lines

/-! ### The word of a row -/

namespace Form

variable {value : Field → Nat}

/-- The instruction of a form with numbers in its fields. -/
def fill (value : Field → Nat) : Form → Instruction (BitVec 12)
  | fixed op => .fixed op
  | address op => .address op (BitVec.ofNat 12 (value .nnn))
  | byte op => .byte op (BitVec.ofNat 4 (value .x)) (BitVec.ofNat 8 (value .kk))
  | pair op => .pair op (BitVec.ofNat 4 (value .x)) (BitVec.ofNat 4 (value .y))
  | sprite => .sprite (BitVec.ofNat 4 (value .x)) (BitVec.ofNat 4 (value .y))
      (BitVec.ofNat 4 (value .n))
  | register op => .register op (BitVec.ofNat 4 (value .x))

lemma fields_address (op : AddressOp) : (address op).row.fields = [.nnn] := by
  cases op <;> rfl

lemma fields_register (op : RegisterOp) : (register op).row.fields = [.x] := by
  cases op <;> rfl

/-- Adding the numbers to the opcode is writing them into the fields. -/
lemma wordWith_row (f : Form) (hv : ∀ fld, value fld < 2 ^ fld.width) :
    f.row.wordWith value = (f.fill value).word := by
  have hx : value .x < 16 := hv .x
  have hy : value .y < 16 := hv .y
  have hn : value .n < 16 := hv .n
  have hkk : value .kk < 256 := hv .kk
  have hnnn : value .nnn < 4096 := hv .nnn
  apply BitVec.eq_of_toNat_eq
  rw [Row.wordWith, BitVec.toNat_ofNat]
  cases f with
  | fixed op =>
      exact Nat.mod_eq_of_lt op.opcode.isLt
  | address op =>
      rw [fields_address]
      simp [row, fill, Instruction.word, Word.toNat_ofAddress, Field.start]
      omega
  | byte op =>
      simp [row, Row.fields, Slot.field?, fill, Instruction.word, Word.toNat_ofByte, Field.start]
      omega
  | pair op =>
      simp [row, Row.fields, Slot.field?, fill, Instruction.word, Word.toNat_ofNibbles,
        Field.start]
      omega
  | sprite =>
      simp [row, Row.fields, Slot.field?, fill, Instruction.word, Word.toNat_ofNibbles,
        Field.start]
      omega
  | register op =>
      rw [fields_register]
      simp [row, fill, Instruction.word, Word.toNat_ofByte, Field.start]
      omega

/-- The numbers can be read back. -/
lemma read_fill (f : Form) (hv : ∀ fld, value fld < 2 ^ fld.width) {fld : Field}
    (hf : fld ∈ f.row.fields) : fld.read (f.fill value).word = value fld := by
  have hmod : value fld % 2 ^ fld.width = value fld := Nat.mod_eq_of_lt (hv fld)
  cases f with
  | fixed op => cases hf
  | address op =>
      rw [fields_address, List.mem_singleton] at hf
      subst hf
      exact (Field.read_nnn_ofAddress _ _).trans hmod
  | register op =>
      rw [fields_register, List.mem_singleton] at hf
      subst hf
      exact (Field.read_x_ofByte _ _ _).trans hmod
  | byte op =>
      have hf : fld ∈ [Field.x, .kk] := hf
      rcases List.mem_pair.mp hf with rfl | rfl
      · exact (Field.read_x_ofByte _ _ _).trans hmod
      · exact (Field.read_kk_ofByte _ _ _).trans hmod
  | pair op =>
      have hf : fld ∈ [Field.x, .y] := hf
      rcases List.mem_pair.mp hf with rfl | rfl
      · exact (Field.read_x_ofNibbles _ _ _ _).trans hmod
      · exact (Field.read_y_ofNibbles _ _ _ _).trans hmod
  | sprite =>
      have hf : fld ∈ [Field.x, .y, .n] := hf
      simp only [List.mem_cons, List.not_mem_nil, or_false] at hf
      rcases hf with rfl | rfl | rfl
      · exact (Field.read_x_ofNibbles _ _ _ _).trans hmod
      · exact (Field.read_y_ofNibbles _ _ _ _).trans hmod
      · exact (Field.read_n_ofNibbles _ _ _ _).trans hmod

/-- Outside the fields of a row its word is the opcode. -/
lemma getLsbD_fill (f : Form) {k : Nat} (hk : ∀ s ∈ f.row.slots, ∀ fld, s.field? = some fld →
    ¬ fld.Covers k) : (f.fill value).word.getLsbD k = f.row.opcode.getLsbD k := by
  cases f with
  | fixed op => rfl
  | address op =>
      have hs : Slot.address ∈ op.slots := by cases op <;> simp [AddressOp.slots]
      exact Word.getLsbD_ofAddress_fixed _ _ (hk .address hs .nnn rfl)
  | register op =>
      have hs : Slot.vx ∈ op.slots := by cases op <;> simp [RegisterOp.slots]
      exact Word.getLsbD_ofByte_fixed _ _ _ (hk .vx hs .x rfl)
  | byte op =>
      exact Word.getLsbD_ofByte_fixed_both _ _ _ (hk .vx (by simp [row]) .x rfl)
        (hk .byte (by simp [row]) .kk rfl)
  | pair op =>
      exact Word.getLsbD_ofNibbles_fixed _ _ _ _ (hk .vx (by simp [row]) .x rfl)
        (hk .vy (by simp [row]) .y rfl)
  | sprite =>
      exact Word.getLsbD_ofNibbles_fixed_all _ _ _ _ (hk .vx (by simp [row]) .x rfl)
        (hk .vy (by simp [row]) .y rfl) (hk .nibble (by simp [row]) .n rfl)

end Form

/-! ### The lexemes and segments of a program -/

/-- The lexeme of an operand. -/
def Slot.lexeme (v : Fields) : Slot → Lexeme
  | .vx => .register (v.x.setWidth 8)
  | .vy => .register (v.y.setWidth 8)
  | .v0 => .register 0#8
  | .byte => .literal (v.kk.setWidth 64)
  | .nibble => .literal (v.n.setWidth 64)
  | .address =>
    match v.nnn with
    | .literal nnn => .literal (nnn.setWidth 64)
    | .label name => .name name
  | .special name => .name name

namespace Item

/-- The lexemes of an item. -/
def lexemes : Item → List Lexeme
  | label name => [.label name]
  | data b => [.literal (b.setWidth 64)]
  | instruction row _ v => .instruction row.mnemonic.name :: row.slots.map (Slot.lexeme v)

/-- The segment of an item on a line. -/
def segment (line : Nat) : Item → Segment
  | label name => .label name line
  | data b => .data (b.setWidth 64) line
  | instruction row _ v =>
    .instruction row.mnemonic.name line (row.slots.map fun s => ⟨s.lexeme v, line⟩)

lemma tokens_segment (line : Nat) (item : Item) :
    (item.segment line).tokens = item.lexemes.map (⟨·, line⟩) := by
  cases item <;> simp [segment, Segment.tokens, lexemes]

@[simp] lemma name?_segment (line : Nat) (item : Item) :
    (item.segment line).name? = item.name? := by
  cases item <;> rfl

@[simp] lemma size_segment (line : Nat) (item : Item) : (item.segment line).size = item.size := by
  cases item <;> rfl

end Item

namespace Items

/-- The segments of items on consecutive lines. -/
def segments (line : Nat) : List Item → List Segment
  | [] => []
  | item :: items => item.segment line :: segments (line + 1) items

variable {items done after : List Item}

lemma segments_append (line : Nat) (items after : List Item) :
    segments line (items ++ after) =
      segments line items ++ segments (line + items.length) after := by
  induction items generalizing line with
  | nil => rfl
  | cons item items ih =>
      rw [List.cons_append, segments, ih, segments, List.cons_append, List.length_cons]
      congr 3
      omega

lemma flatMap_tokens_segments (line : Nat) (items : List Item) :
    (segments line items).flatMap Segment.tokens = numbered line (items.map Item.lexemes) := by
  induction items generalizing line with
  | nil => rfl
  | cons item items ih =>
      rw [segments, List.flatMap_cons, Item.tokens_segment, ih]
      rfl

@[simp] lemma names_segments (line : Nat) (items : List Item) :
    Layout.names (segments line items) = names items := by
  induction items generalizing line with
  | nil => rfl
  | cons item items ih =>
      rw [segments, Layout.names_cons, ih, Item.name?_segment, names, names]
      cases h : item.name? <;> simp [h]

/-- A label has the same address in the program and in its layout. -/
lemma address_segments (line : Nat) (items : List Item) (label : String) :
    Layout.address (segments line items) label = address items label := by
  suffices h : Layout.size ((segments line items).takeWhile (·.name? != some label)) =
      size (items.takeWhile (·.name? != some label)) by
    rw [Layout.address, address, h]
  induction items generalizing line with
  | nil => rfl
  | cons item items ih =>
      rw [segments, List.takeWhile_cons, List.takeWhile_cons, Item.name?_segment]
      split
      · rw [Layout.size_cons, ih, Item.size_segment, size, size, List.map_cons, List.sum_cons]
      · rfl

end Items

/-! ### The bytes of a program -/

lemma Fields.value_lt (address : String → Nat) (v : Fields) (f : Field) :
    v.value address f < 2 ^ f.width := by
  cases f with
  | x => exact v.x.isLt
  | y => exact v.y.isLt
  | n => exact v.n.isLt
  | kk => exact v.kk.isLt
  | nnn =>
      rw [value]
      split
      · exact BitVec.isLt _
      · exact Nat.mod_lt _ (by decide)

/-- Every operand is admitted in its place. -/
lemma Slot.admits_lexeme (v : Fields) (s : Slot) : s.Admits (s.lexeme v) := by
  cases s with
  | vx | vy => exact ⟨_, rfl⟩
  | v0 => exact ⟨_, rfl, rfl⟩
  | byte | nibble => exact ⟨_, rfl⟩
  | special name => rfl
  | address =>
      rw [lexeme]
      split
      · exact .inl ⟨_, rfl⟩
      · exact .inr ⟨_, rfl⟩

/-- An operand stands for the number in its field, as far as the bits of the field go. -/
lemma Slot.number?_lexeme {labels : Labels} {address : String → Nat} {v : Fields} {s : Slot}
    {f : Field} (hf : s.field? = some f)
    (hl : ∀ label, s = .address → v.nnn = .label label →
      labels.find? label = some (BitVec.ofNat 16 (address label))) :
    ∃ n, (s.lexeme v).number? labels = some n ∧ v.value address f = n % 2 ^ f.width := by
  have hwide : ∀ {w w' : Nat} (b : BitVec w), w ≤ w' → b.toNat = (b.setWidth w').toNat % 2 ^ w := by
    intro w w' b hw
    rw [BitVec.toNat_setWidth_of_le hw, Nat.mod_eq_of_lt b.isLt]
  cases s with
  | vx =>
      cases hf
      exact ⟨_, rfl, hwide v.x (by decide)⟩
  | vy =>
      cases hf
      exact ⟨_, rfl, hwide v.y (by decide)⟩
  | byte =>
      cases hf
      exact ⟨_, rfl, hwide v.kk (by decide)⟩
  | nibble =>
      cases hf
      exact ⟨_, rfl, hwide v.n (by decide)⟩
  | address =>
      cases hf
      rw [lexeme, Fields.value]
      cases hnnn : v.nnn with
      | literal nnn => exact ⟨_, rfl, hwide nnn (by decide)⟩
      | label label =>
          refine ⟨_, by rw [Lexeme.number?, hl label rfl hnnn]; rfl, ?_⟩
          change address label % 4096 = (BitVec.ofNat 16 (address label)).toNat % 4096
          rw [BitVec.toNat_ofNat]
          omega
  | v0 | special => cases hf

/-- **The word of an instruction.** With the operands of a row the row says the word that has their
numbers in its fields. -/
theorem Row.encodes_wordWith {row : Row} (hrow : row ∈ opcodeTable) {labels : Labels}
    {address : String → Nat} {v : Fields} (line : Nat)
    (hl : ∀ label, Slot.address ∈ row.slots → v.nnn = .label label →
      labels.find? label = some (BitVec.ofNat 16 (address label))) :
    row.Encodes labels (row.slots.map fun s => ⟨s.lexeme v, line⟩)
      (row.wordWith (v.value address)) := by
  obtain ⟨form, rfl⟩ := Form.mem_opcodeTable_iff.mp hrow
  rw [form.wordWith_row (v.value_lt address)]
  refine ⟨?_, fun k _ hk => form.getLsbD_fill hk⟩
  rw [List.forall₂_map_right_iff, List.forall₂_same]
  intro s hs f hf
  have hread := form.read_fill (v.value_lt address) (List.mem_filterMap.mpr ⟨s, hs, hf⟩)
  obtain ⟨n, hn, hvalue⟩ := Slot.number?_lexeme hf
    fun label haddress hnnn => hl label (haddress ▸ hs) hnnn
  exact ⟨n, hn, hread.trans hvalue⟩

namespace Items

variable {items done after : List Item}

/-- A label that has been declared stands for its address in the program. -/
lemma Valid.find?_labels (h : Valid (done ++ after)) {label : String}
    (hlabel : label ∈ names done) :
    (Layout.labels (segments 1 done)).find? label =
      some (BitVec.ofNat 16 (address (done ++ after) label)) := by
  have hdeclared : (Layout.labels (segments 1 done)).find? label ≠ none := by
    rwa [ne_eq, Layout.find?_labels_eq_none_iff, names_segments, not_not]
  obtain ⟨a, ha⟩ := Option.ne_none_iff_exists'.mp hdeclared
  have hd : (Layout.names (segments 1 done ++ segments (1 + done.length) after)).Nodup := by
    rw [← segments_append, names_segments]
    exact h.distinct
  rw [ha, Layout.eq_address_of_find?_labels hd ha, ← segments_append, address_segments]

/-- **An item** of a program emits its bytes. -/
theorem Valid.emits {item : Item} (h : Valid (done ++ item :: after)) (line : Nat) :
    (item.segment line).Emits (Layout.labels (segments 1 done))
      (item.bytes (address (done ++ item :: after))) := by
  cases item with
  | label name => exact .label name line
  | data b =>
      have hb : UInt8.ofNat (b.setWidth 64).toNat = UInt8.ofNat b.toNat := by
        rw [BitVec.toNat_setWidth_of_le (by decide)]
      rw [Item.bytes, ← hb]
      exact .data _ line
  | instruction row hrow v =>
      have hw := Row.encodes_wordWith hrow line fun label haddress hnnn =>
        h.find?_labels (h.declared done row hrow v after label rfl haddress hnnn)
      have hops : row.Matches (row.slots.map fun s => ⟨s.lexeme v, line⟩) := by
        rw [Row.Matches, List.forall₂_map_right_iff, List.forall₂_same]
        exact fun s _ => s.admits_lexeme v
      rw [Item.bytes, ← Word.bytes_eq_ofNat]
      exact hw.emits hrow row.mnemonic.ofName?_name hops

/-- **The items** of a program emit its image, one after the other. -/
theorem Valid.emitted (h : Valid (done ++ after)) :
    Layout.Emitted [] (segments 1 done) (done.flatMap (Item.bytes (address (done ++ after)))) := by
  -- along the items that have been emitted
  induction done using List.reverseRecOn generalizing after with
  | nil => exact .nil []
  | append_singleton done item ih =>
      rw [List.append_assoc, List.singleton_append] at h ⊢
      have hone := Layout.Emitted.cons (h.emits (1 + done.length)) (.nil _)
      rw [segments_append, List.flatMap_append]
      refine Layout.emitted_append_iff.mpr ⟨_, _, ih h, ?_, rfl⟩
      simpa [segments] using hone

end Items

/-! ### Reading what was written -/

section

variable {v : Fields} {s : Slot} {slots : List Slot} {text rest ending : List Char}

lemma AreOperands.endsOperand (h : AreOperands v slots text) : EndsOperand text := by
  cases h with
  | nil h => exact h.endsOperand
  | cons hs ht hr => exact endsOperand_separators hs _

/-- A register is read as its number. -/
lemma IsNumeral.operandAt_register {d : Char} {b : BitVec 4} (h : IsNumeral [d] b.toNat)
    (rest : List Char) : OperandAt ['V', d] (.register (b.setWidth 8)) rest := by
  have hd : IsHexDigit d := h.1.2 d (.head _)
  have hr := isOperand_iff.mp (.register hd rest)
  rwa [h.2, BitVec.ofNat_toNat] at hr

/-- A literal is read as its number. -/
lemma IsNumeral.operandAt_literal {ds : List Char} {w : Nat} {b : BitVec w}
    (h : IsNumeral ds b.toNat) (hrest : EndsOperand rest) :
    OperandAt ('0' :: 'x' :: ds) (.literal (b.setWidth 64)) rest := by
  have hstop : Stops IsHexDigit rest :=
    hrest.stops_identifier.mono fun _ => IsHexDigit.isIdentifierRest
  have hl := OperandAt.literal h.1.1 h.1.2 hstop
  rwa [value_eq_ofNat_numeralValue 64 h.1.2, h.2, BitVec.ofNat_toNat] at hl

/-- A name is read as it is written. -/
lemma operandAt_of_legible {name : String} (h : (Lexeme.name name).Legible)
    (hrest : EndsOperand rest) : OperandAt name.toList (.name name) rest := by
  have hn := OperandAt.name h.1 h.2 hrest.stops_identifier
  rwa [String.ofList_toList] at hn

/-- An operand is read as its lexeme. -/
lemma Slot.IsText.operandAt (h : s.IsText v text) (hl : (s.lexeme v).Legible)
    (hrest : EndsOperand rest) : OperandAt text (s.lexeme v) rest := by
  cases s with
  | vx | vy =>
      obtain ⟨d, rfl, hd⟩ := h
      exact hd.operandAt_register rest
  | v0 =>
      obtain rfl := h
      exact .register (by decide) rest
  | byte | nibble =>
      obtain ⟨ds, rfl, hds⟩ := h
      exact hds.operandAt_literal hrest
  | special name =>
      obtain rfl := h
      exact operandAt_of_legible hl hrest
  | address =>
      rw [IsText] at h
      rw [lexeme] at hl ⊢
      cases hnnn : v.nnn with
      | literal nnn =>
          rw [hnnn] at h
          obtain ⟨ds, rfl, hds⟩ := h
          exact hds.operandAt_literal hrest
      | label name =>
          rw [hnnn] at h hl
          obtain rfl := h
          exact operandAt_of_legible hl hrest

/-- Operands are read in order. -/
lemma AreOperands.operandsAt (h : AreOperands v slots text)
    (hl : ∀ s ∈ slots, (s.lexeme v).Legible) :
    OperandsAt text (slots.map (Slot.lexeme v)) := by
  induction h with
  | nil h => exact h.operandsAt
  | cons hs ht hr ih =>
      obtain ⟨hfirst, hothers⟩ := List.forall_mem_cons.mp hl
      exact .next hs.2 (ht.operandAt hfirst hr.endsOperand) (ih hothers)

/-- A line that begins with no letter has no head. -/
lemma head?_eq_none_of_not_isLetter {c : Char} (h : ¬ IsLetter c) (cs : List Char) :
    head? (c :: cs) = none := by
  have hletter : ¬ isLetter c = true := mt (isLetter_iff c).mp h
  have hcapital : ¬ isCapital c = true := fun hc => h ((isCapital_iff c).mp hc).isLetter
  have hlabel : label? (c :: cs) = none := by rw [label?, identifier?, if_neg hletter]
  have hname : instruction? (c :: cs) = none := by
    rw [instruction?, List.takeWhile_cons_of_neg hcapital]
  rw [head?, hlabel, hname]
  rfl

lemma not_isLetter_of_isSeparator {c : Char} (h : IsSeparator c) : ¬ IsLetter c :=
  fun hc => hc.isIdentifierRest.not_isSeparator h

/-- **A line** is read as the lexemes of its item. -/
theorem Item.IsLine.lexemes_eq {item : Item} {line : List Char} (h : item.IsLine line)
    (hl : ∀ l ∈ item.lexemes, l.Legible) : Source.lexemes line = .ok item.lexemes := by
  cases h with
  | @label name ending h =>
      have hhead := HeadAt.label (hl (.label name) (.head _)) ending
      rw [String.ofList_toList] at hhead
      exact lexemes_eq_ok_iff.mpr (.inl ⟨_, _, ending, [], rfl, hhead, h.operandsAt, rfl⟩)
  | @data b seps ds ending hs hds h =>
      have hops := OperandsAt.next hs (hds.operandAt_literal h.endsOperand) h.operandsAt
      refine lexemes_eq_ok_iff.mpr (.inr ⟨?_, hops⟩)
      cases seps with
      | nil => exact head?_eq_none_of_not_isLetter (by decide) _
      | cons c seps =>
          exact head?_eq_none_of_not_isLetter (not_isLetter_of_isSeparator (hs c (.head _))) _
  | @instruction row hrow v rest h =>
      obtain ⟨⟨hne, hcap⟩, hslots⟩ := List.forall_mem_cons.mp hl
      have hrest := h.endsOperand
      have hdrop : rest.dropWhile isIdentifierRest = rest :=
        ((span_eq_iff isIdentifierRest_iff).mpr
          ⟨List.nil_append rest, List.forall_mem_nil _, hrest.stops_identifier⟩).2
      have hcolon : Stops (· = ':') (rest.dropWhile isIdentifierRest) := by
        rw [hdrop]
        refine hrest.stops fun c hc hcolon => ?_
        subst hcolon
        exact absurd hc (by decide)
      have hstop : Stops IsCapital rest :=
        hrest.stops_identifier.mono fun _ hc => hc.isLetter.isIdentifierRest
      have hhead := HeadAt.instruction (mt String.toList_eq_nil_iff.mp hne) hcap hstop hcolon
      rw [String.ofList_toList] at hhead
      have hops := h.operandsAt fun s hs => hslots _ (List.mem_map_of_mem hs)
      exact lexemes_eq_ok_iff.mpr (.inl ⟨_, _, rest, _, rfl, hhead, hops, rfl⟩)

end

/-! ### The text of a program -/

lemma Mnemonic.legible (m : Mnemonic) : (Lexeme.instruction m.name).Legible := by
  have hne : m.name ≠ "" := by cases m <;> decide
  have hall : m.name.toList.all isCapital = true := by cases m <;> decide
  exact ⟨hne, fun c hc => (isCapital_iff c).mp (List.all_eq_true.mp hall c hc)⟩

/-- The special names of the table can be read, and none of them is taken for a register. -/
lemma Slot.legible_special {row : Row} (hrow : row ∈ opcodeTable) {name : String}
    (hs : Slot.special name ∈ row.slots) : (Lexeme.name name).Legible := by
  have hnames : ∀ row ∈ opcodeTable, ∀ s ∈ row.slots,
      s ∈ [Slot.vx, .vy, .v0, .byte, .nibble, .address] ++
        ["I", "DT", "K", "ST", "F", "B"].map Slot.special := by
    decide +kernel
  have hread : ∀ name ∈ ["I", "DT", "K", "ST", "F", "B"],
      identifier? name.toList = some (name.toList, []) ∧ register? name.toList = none := by
    decide
  have hname : name ∈ ["I", "DT", "K", "ST", "F", "B"] := by simpa using hnames row hrow _ hs
  obtain ⟨hid, hreg⟩ := hread name hname
  exact ⟨(identifier?_eq_some_iff.mp hid).2.1, register?_eq_none_iff.mp hreg⟩

namespace Items

variable {items : List Item} {text : String}

/-- Every lexeme of a program can be read. -/
lemma Valid.legible (h : Valid items) {item : Item} (hitem : item ∈ items) :
    ∀ l ∈ item.lexemes, l.Legible := by
  cases item with
  | label name =>
      have hname : name ∈ names items := List.mem_filterMap.mpr ⟨_, hitem, rfl⟩
      exact List.forall_mem_singleton.mpr (h.identifier name hname).1
  | data b => exact List.forall_mem_singleton.mpr trivial
  | instruction row hrow v =>
      refine List.forall_mem_cons.mpr ⟨row.mnemonic.legible, List.forall_mem_map.mpr fun s hs => ?_⟩
      have hreg : ∀ b : BitVec 4, (Lexeme.register (b.setWidth 8)).Legible := by
        intro b
        have := b.isLt
        rw [Lexeme.Legible, BitVec.toNat_setWidth_of_le (by decide)]
        omega
      cases s with
      | vx | vy => exact hreg _
      | v0 => exact Nat.zero_le 15
      | byte | nibble => trivial
      | special name => exact Slot.legible_special hrow hs
      | address =>
          rw [Slot.lexeme]
          cases hnnn : v.nnn with
          | literal nnn => trivial
          | label name =>
              obtain ⟨before, after, rfl⟩ := List.append_of_mem hitem
              have hname := h.declared before row hrow v after name rfl hs hnnn
              refine h.identifier name ?_
              rw [names, List.filterMap_append]
              exact List.mem_append_left _ hname

/-- **A text** of a program is read as the tokens of its segments. -/
theorem Valid.tokens_eq (h : Valid items) (ht : IsText items text) :
    tokens text = .ok ((segments 1 items).flatMap Segment.tokens) := by
  obtain ⟨lines, hlines, hitems⟩ := ht
  rw [tokens, Text.isLines_iff.mp hlines, flatMap_tokens_segments]
  refine tokensFrom_eq_ok_iff.mpr ⟨items.map Item.lexemes, ?_, rfl⟩
  have hread : List.Forall₂ (fun item line => Source.lexemes line = .ok item.lexemes) items lines :=
    ((List.forall₂_and_left items lines).mpr ⟨fun item hitem => hitem, hitems⟩).imp
      fun item line hline => hline.2.lexemes_eq (h.legible hline.1)
  rw [List.forall₂_map_right_iff]
  exact hread.flip

end Items

/-- **A written program is assembled to its image.** If the image fits into memory, it comes out,
byte by byte; if it does not, the error says so. -/
theorem assemble_written {items : List Item} {text : String} (h : Items.Valid items)
    (ht : Items.IsText items text) :
    ((Items.image items).length ≤ 4096 →
      ∃ i, (Source.assemble text).outcome = .ok i ∧ i.toList = Items.image items) ∧
    (4096 < (Items.image items).length →
      (Source.assemble text).outcome = .error (.imageFull 4096)) := by
  have hemitted : Layout.Emitted [] (Items.segments 1 items) (Items.image items) := by
    have hall : Items.Valid (items ++ []) := by rwa [List.append_nil]
    have himg := hall.emitted
    rwa [List.append_nil] at himg
  have hd : (Layout.names (Items.segments 1 items)).Nodup := by
    rw [Items.names_segments]
    exact h.distinct
  rw [Source.assemble_of_tokens (h.tokens_eq ht)]
  refine ⟨fun hfits => ?_, fun hfull => assemble_eq_error rfl hd hemitted hfull⟩
  rw [hemitted.length_eq] at hfits
  exact assemble_of_isLayout ⟨rfl, hd, hemitted, hfits⟩

/-- The address of a label with the name of the index register. -/
def indexFields : Fields := ⟨0#4, 0#4, 0#4, 0#8, .label "I"⟩

/-- A byte of data, the label, and an instruction that loads it into the register. -/
def indexed : List Item :=
  [.data 0xF0#8, .label "I",
    .instruction ⟨.ld, [.special "I", .address], 0xA000#16⟩ (by decide) indexFields]

lemma valid_indexed : Items.Valid indexed := by
  have hrow : ⟨.ld, [.special "I", .address], 0xA000#16⟩ ∈ opcodeTable := by decide
  have hnames : Items.names indexed = ["I"] := rfl
  refine ⟨by decide, ?_, ?_⟩
  · rw [hnames, List.forall_mem_singleton]
    exact Slot.legible_special hrow (.head _)
  · intro before row hrow v after label h hs hlabel
    rcases before with _ | ⟨a, _ | ⟨b, _ | ⟨c, before⟩⟩⟩
    · cases h
    · cases h
    · cases h
      cases hlabel
      decide
    · have hlen := congrArg List.length h
      simp [indexed] at hlen

/-- The text has a tab and a zero before the number, a comment, and line ends of two kinds. -/
lemma isText_indexed : Items.IsText indexed "\t0x0F0\nI: ; data\r\nLD I,\tI\r" := by
  have hdata : Item.IsLine (.data 0xF0#8) ['\t', '0', 'x', '0', 'F', '0'] :=
    @Item.IsLine.data _ ['\t'] ['0', 'F', '0'] [] (by simp [IsRun, IsSeparator])
      ⟨⟨by simp, by simp [IsHexDigit]⟩, by decide⟩ (.plain (by simp [IsRun]))
  have hlabel : Item.IsLine (.label "I") ['I', ':', ' ', ';', ' ', 'd', 'a', 't', 'a'] :=
    @Item.IsLine.label "I" _
      (@IsEnding.comment [' '] (by simp [IsRun, IsSeparator]) [' ', 'd', 'a', 't', 'a'])
  have hload : Item.IsLine indexed[2] ['L', 'D', ' ', 'I', ',', '\t', 'I', '\r'] := by
    have hend : AreOperands indexFields [] ['\r'] :=
      .nil (.plain (by simp [IsRun, IsSeparator]))
    have haddress : AreOperands indexFields [.address] ([',', '\t'] ++ (['I'] ++ ['\r'])) :=
      .cons ⟨by simp, by simp [IsSeparator]⟩ rfl hend
    have hoperands : AreOperands indexFields [.special "I", .address] ([' '] ++ (['I'] ++ _)) :=
      .cons ⟨by simp, by simp [IsSeparator]⟩ rfl haddress
    exact .instruction hoperands
  refine ⟨_, Text.isLines_iff.mpr ?_, .cons hdata (.cons hlabel (.cons hload .nil))⟩
  cbv

/-- The image of the program, whatever way it is written. -/
theorem assemble_written_indexed :
    Items.Valid indexed ∧ Items.IsText indexed "\t0x0F0\nI: ; data\r\nLD I,\tI\r" ∧
      ∃ i, (Source.assemble "\t0x0F0\nI: ; data\r\nLD I,\tI\r").outcome = .ok i ∧
        i.toList = [0xF0, 0xA2, 0x01] := by
  have himg : Items.image indexed = [0xF0, 0xA2, 0x01] := by decide
  have h := (assemble_written valid_indexed isText_indexed).1 (by rw [himg]; decide)
  rw [himg] at h
  exact ⟨valid_indexed, isText_indexed, h⟩

end Chip8
