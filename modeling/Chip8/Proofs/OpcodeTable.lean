/-
The opcode table, and that encoding follows it.

The table lists each form of each instruction: its name, what its operands are, and
its word with zeros in place of the fields. It says nothing about how operands are
read or how a word is put together.

* `Field`: the fields of a word as ranges of bits.
* `Slot`, `Slot.Admits`: the places of operands and the lexemes they admit.
* `Row`, `opcodeTable`: the thirty-five rows.
* `Row.Matches`: the operands are one for each place, and each is admitted.
* `Row.Encodes`: each field of the word holds the low bits of the number that its
  operand stands for, and every bit outside the fields is that of the row. A label
  stands for a number only if it is declared.
* `encodes_unique`: a row, its operands and the labels determine the word.
* `encode_follows_opcodeTable`: **encoding follows the table**. A name and its operands
  give a word exactly if some row says so, and no two rows match the same tokens.
-/
import Mathlib.Tactic
import Chip8.Proofs.Reading

namespace Chip8

/-! ### Fields -/

/-- The fields that a word may have. -/
inductive Field where
  | x | y | kk | n | nnn
  deriving DecidableEq, Repr

namespace Field

/-- The lowest bit of a field. -/
def start : Field → Nat
  | x => 8
  | y => 4
  | kk | n | nnn => 0

/-- The number of bits of a field. -/
def width : Field → Nat
  | x | y | n => 4
  | kk => 8
  | nnn => 12

/-- The number in a field of a word. -/
def read (f : Field) (w : Word) : Nat := (w.extractLsb' f.start f.width).toNat

/-- The bit `k` of a word belongs to the field. -/
def Covers (f : Field) (k : Nat) : Prop := f.start ≤ k ∧ k < f.start + f.width

end Field

/-! ### Rows -/

/-- The place of an operand. -/
inductive Slot where
  /-- A register, for the field `x`. -/
  | vx
  /-- A register, for the field `y`. -/
  | vy
  /-- The register `V0` and no other. -/
  | v0
  /-- A literal, for the field `kk`. -/
  | byte
  /-- A literal, for the field `n`. -/
  | nibble
  /-- A literal or a label, for the field `nnn`. -/
  | address
  /-- A fixed name, such as `DT`. -/
  | special (name : String)
  deriving DecidableEq, Repr

namespace Slot

/-- The field that an operand fills. -/
def field? : Slot → Option Field
  | vx => some .x
  | vy => some .y
  | byte => some .kk
  | nibble => some .n
  | address => some .nnn
  | v0 | special _ => none

/-- The lexemes that may stand in a place. Of a register only the low four bits
count. -/
def Admits : Slot → Lexeme → Prop
  | vx, l | vy, l => ∃ r, l = .register r
  | v0, l => ∃ r, l = .register r ∧ r.toNat % 16 = 0
  | byte, l | nibble, l => ∃ v, l = .literal v
  | address, l => (∃ v, l = .literal v) ∨ ∃ s, l = .name s
  | special s, l => l = .name s

end Slot

/-- The number that an operand stands for; a name is a label and has to be declared. -/
def Lexeme.number? (labels : Labels) : Lexeme → Option Nat
  | .register r => some r.toNat
  | .literal v => some v.toNat
  | .name s => (labels.find? s).map BitVec.toNat
  | .label _ | .instruction _ => none

/-- An operand fills its place in a word: the field of the place holds the low bits of
the number that the operand stands for. -/
def Slot.Fills (labels : Labels) (w : Word) (s : Slot) (t : Token) : Prop :=
  ∀ f, s.field? = some f → ∃ v, t.lexeme.number? labels = some v ∧ f.read w = v % 2 ^ f.width

/-- A row of the table: a name, the places of its operands, and the word with zeros
in place of the fields. -/
structure Row where
  mnemonic : Mnemonic
  slots : List Slot
  opcode : Word
  deriving DecidableEq, Repr

/-- The instruction set. -/
def opcodeTable : List Row :=
  [⟨.cls, [], 0x00E0#16⟩,
    ⟨.ret, [], 0x00EE#16⟩,
    ⟨.sys, [.address], 0x0000#16⟩,
    ⟨.jp, [.address], 0x1000#16⟩,
    ⟨.jp, [.v0, .address], 0xB000#16⟩,
    ⟨.call, [.address], 0x2000#16⟩,
    ⟨.se, [.vx, .byte], 0x3000#16⟩,
    ⟨.se, [.vx, .vy], 0x5000#16⟩,
    ⟨.sne, [.vx, .byte], 0x4000#16⟩,
    ⟨.sne, [.vx, .vy], 0x9000#16⟩,
    ⟨.ld, [.vx, .byte], 0x6000#16⟩,
    ⟨.ld, [.vx, .vy], 0x8000#16⟩,
    ⟨.ld, [.special "I", .address], 0xA000#16⟩,
    ⟨.ld, [.vx, .special "DT"], 0xF007#16⟩,
    ⟨.ld, [.vx, .special "K"], 0xF00A#16⟩,
    ⟨.ld, [.special "DT", .vx], 0xF015#16⟩,
    ⟨.ld, [.special "ST", .vx], 0xF018#16⟩,
    ⟨.ld, [.special "F", .vx], 0xF029#16⟩,
    ⟨.ld, [.special "B", .vx], 0xF033#16⟩,
    ⟨.ld, [.special "I", .vx], 0xF055#16⟩,
    ⟨.ld, [.vx, .special "I"], 0xF065#16⟩,
    ⟨.add, [.vx, .byte], 0x7000#16⟩,
    ⟨.add, [.vx, .vy], 0x8004#16⟩,
    ⟨.add, [.special "I", .vx], 0xF01E#16⟩,
    ⟨.or, [.vx, .vy], 0x8001#16⟩,
    ⟨.and, [.vx, .vy], 0x8002#16⟩,
    ⟨.xor, [.vx, .vy], 0x8003#16⟩,
    ⟨.sub, [.vx, .vy], 0x8005#16⟩,
    ⟨.shr, [.vx, .vy], 0x8006#16⟩,
    ⟨.subn, [.vx, .vy], 0x8007#16⟩,
    ⟨.shl, [.vx, .vy], 0x800E#16⟩,
    ⟨.rnd, [.vx, .byte], 0xC000#16⟩,
    ⟨.drw, [.vx, .vy, .nibble], 0xD000#16⟩,
    ⟨.skp, [.vx], 0xE09E#16⟩,
    ⟨.sknp, [.vx], 0xE0A1#16⟩]

namespace Row

/-- The operands are one for each place, and each is admitted there. -/
def Matches (row : Row) (ops : List Token) : Prop :=
  List.Forall₂ (fun s t => s.Admits t.lexeme) row.slots ops

/-- The word of a row with given operands, bit by bit: the operands fill their places,
and all bits outside the fields are those of the row. -/
structure Encodes (row : Row) (labels : Labels) (ops : List Token) (w : Word) : Prop where
  fills : List.Forall₂ (Slot.Fills labels w) row.slots ops
  fixed : ∀ k, k < 16 → (∀ s ∈ row.slots, ∀ f, s.field? = some f → ¬ f.Covers k) →
    w.getLsbD k = row.opcode.getLsbD k

end Row

/-! ### The row of an instruction -/

/-- The operands of an operation on an address. -/
def AddressOp.slots : AddressOp → List Slot
  | sys | jp | call => [.address]
  | ldI => [.special "I", .address]
  | jpV0 => [.v0, .address]

/-- The operands of an operation on one register. -/
def RegisterOp.slots : RegisterOp → List Slot
  | skp | sknp => [.vx]
  | readDelay => [.vx, .special "DT"]
  | awaitKey => [.vx, .special "K"]
  | setDelay => [.special "DT", .vx]
  | setSound => [.special "ST", .vx]
  | addIndex | store => [.special "I", .vx]
  | font => [.special "F", .vx]
  | decimal => [.special "B", .vx]
  | restore => [.vx, .special "I"]

/-- An instruction without its fields. -/
inductive Form where
  | fixed (op : FixedOp)
  | address (op : AddressOp)
  | byte (op : ByteOp)
  | pair (op : PairOp)
  | sprite
  | register (op : RegisterOp)
  deriving DecidableEq, Repr

namespace Form

/-- The row of a form. -/
def row : Form → Row
  | fixed op => ⟨op.mnemonic, [], op.opcode⟩
  | address op => ⟨op.mnemonic, op.slots, .ofAddress op.opcode 0#12⟩
  | byte op => ⟨op.mnemonic, [.vx, .byte], .ofByte op.opcode 0#4 0#8⟩
  | pair op => ⟨op.mnemonic, [.vx, .vy], .ofNibbles op.opcode.1 0#4 0#4 op.opcode.2⟩
  | sprite => ⟨.drw, [.vx, .vy, .nibble], .ofNibbles 0xD#4 0#4 0#4 0#4⟩
  | register op => ⟨op.mnemonic, op.slots, .ofByte op.opcode.1 0#4 op.opcode.2⟩

/-- All forms, in the order of the table. -/
def all : List Form :=
  [fixed .cls, fixed .ret, address .sys, address .jp, address .jpV0, address .call,
    byte .se, pair .se, byte .sne, pair .sne, byte .ld, pair .ld, address .ldI,
    register .readDelay, register .awaitKey, register .setDelay, register .setSound,
    register .font, register .decimal, register .store, register .restore, byte .add, pair .add,
    register .addIndex, pair .or, pair .and, pair .xor, pair .sub, pair .shr, pair .subn,
    pair .shl, byte .rnd, sprite, register .skp, register .sknp]

lemma mem_all (f : Form) : f ∈ all := by
  cases f with
  | fixed op => cases op <;> decide
  | address op => cases op <;> decide
  | byte op => cases op <;> decide
  | pair op => cases op <;> decide
  | sprite => decide
  | register op => cases op <;> decide

lemma map_row_all : all.map row = opcodeTable := rfl

/-- The rows of the table are those of the forms. -/
lemma mem_opcodeTable_iff {r : Row} : r ∈ opcodeTable ↔ ∃ f : Form, f.row = r := by
  rw [← map_row_all, List.mem_map]
  refine ⟨fun h => ?_, fun h => ?_⟩
  · obtain ⟨f, -, hf⟩ := h
    exact ⟨f, hf⟩
  · obtain ⟨f, hf⟩ := h
    exact ⟨f, mem_all f, hf⟩

end Form

namespace Instruction

/-- The form of an instruction. -/
def form {α : Type} : Instruction α → Form
  | fixed op => .fixed op
  | address op _ => .address op
  | byte op _ _ => .byte op
  | pair op _ _ => .pair op
  | sprite _ _ _ => .sprite
  | register op _ => .register op

lemma form_row_mnemonic {α : Type} (i : Instruction α) : i.form.row.mnemonic = i.mnemonic := by
  cases i <;> rfl

end Instruction

/-! ### The low bits of numbers -/

namespace Lexeme

@[simp] lemma toNat_nibble_register (r : BitVec 8) :
    (Lexeme.register r).nibble.toNat = r.toNat % 16 := by
  simp only [nibble, number, BitVec.toNat_setWidth]
  omega

@[simp] lemma toNat_nibble_literal (v : BitVec 64) :
    (Lexeme.literal v).nibble.toNat = v.toNat % 16 := by
  simp only [nibble, number, BitVec.toNat_setWidth]

@[simp] lemma toNat_byte_literal (v : BitVec 64) :
    (Lexeme.literal v).byte.toNat = v.toNat % 256 := by
  simp only [byte, number, BitVec.toNat_setWidth]

@[simp] lemma toNat_address_literal (v : BitVec 64) :
    (Lexeme.literal v).address.toNat = v.toNat % 4096 := by
  simp only [address, number, BitVec.toNat_setWidth]

end Lexeme

/-! ### Matching a row is spelling an instruction of its form -/

namespace Slot

lemma admits_address_iff {t : Token} :
    Slot.address.Admits t.lexeme ↔ t.kind ∈ [Kind.name, .literal] := by
  rw [Admits, ← Lexeme.kind_eq_literal_iff, ← Lexeme.kind_eq_name_iff, List.mem_pair, or_comm]
  rfl

lemma admits_v0_iff {t : Token} :
    Slot.v0.Admits t.lexeme ↔ t.kind = .register ∧ t.lexeme.nibble = 0#4 := by
  rw [Token.kind, Lexeme.kind_eq_register_iff, Admits]
  refine ⟨fun h => ?_, fun h => ?_⟩
  · obtain ⟨r, hr, h0⟩ := h
    refine ⟨⟨r, hr⟩, BitVec.eq_of_toNat_eq ?_⟩
    rw [hr, Lexeme.toNat_nibble_register, h0]
    rfl
  · obtain ⟨⟨r, hr⟩, h0⟩ := h
    refine ⟨r, hr, ?_⟩
    rw [hr] at h0
    rw [← Lexeme.toNat_nibble_register, h0]
    rfl

end Slot

lemma RegisterOp.slots_of_outOf? {s : String} {op : RegisterOp} (h : outOf? s = some op) :
    op.slots = [.vx, .special s] := by
  rw [outOf?] at h
  split_ifs at h with h1 h2 h3
  · cases h; rw [h1]; rfl
  · cases h; rw [h2]; rfl
  · cases h; rw [h3]; rfl

lemma RegisterOp.slots_of_into? {s : String} {op : RegisterOp} (h : into? s = some op) :
    op.slots = [.special s, .vx] := by
  rw [into?] at h
  split_ifs at h with h1 h2 h3 h4
  · cases h; rw [h1]; rfl
  · cases h; rw [h2]; rfl
  · cases h; rw [h3]; rfl
  · cases h; rw [h4]; rfl

/-- Operands that spell an instruction match the row of its form. -/
lemma Spells.matches {ops : List Token} {i : Instruction Target} (h : Spells ops i) :
    i.form.row.Matches ops := by
  have hr : ∀ {t : Token}, t.kind = .register → Slot.vx.Admits t.lexeme :=
    fun h => Lexeme.kind_eq_register_iff.mp h
  have hv : ∀ {t : Token}, t.kind = .literal → Slot.byte.Admits t.lexeme :=
    fun h => Lexeme.kind_eq_literal_iff.mp h
  cases h with
  | fixed op => exact .nil
  | address hop ht =>
      simp only [List.mem_cons, List.not_mem_nil, or_false] at hop
      rcases hop with rfl | rfl | rfl <;>
        exact .cons (Slot.admits_address_iff.mpr ht) .nil
  | jumpV0 hp h0 ht =>
      exact .cons (Slot.admits_v0_iff.mpr ⟨hp, h0⟩) (.cons (Slot.admits_address_iff.mpr ht) .nil)
  | loadIndex hp ht => exact .cons hp (.cons (Slot.admits_address_iff.mpr ht) .nil)
  | byte op hp hq => exact .cons (hr hp) (.cons (hv hq) .nil)
  | pair op hp hq => exact .cons (hr hp) (.cons (hr hq) .nil)
  | sprite hp hq hn => exact .cons (hr hp) (.cons (hr hq) (.cons (hv hn) .nil))
  | key hop hp =>
      rcases List.mem_pair.mp hop with rfl | rfl <;> exact .cons (hr hp) .nil
  | outOf hp hq hs =>
      rw [Row.Matches, Instruction.form, Form.row, RegisterOp.slots_of_outOf? hs]
      exact .cons (hr hp) (.cons hq .nil)
  | into hp hs hq =>
      rw [Row.Matches, Instruction.form, Form.row, RegisterOp.slots_of_into? hs]
      exact .cons hp (.cons (hr hq) .nil)
  | index hop hp hq =>
      rcases List.mem_pair.mp hop with rfl | rfl <;> exact .cons hp (.cons (hr hq) .nil)

/-- Operands that match the row of a form spell an instruction of that form. -/
lemma Form.exists_spells {f : Form} {ops : List Token} (h : f.row.Matches ops) :
    ∃ i : Instruction Target, i.form = f ∧ Spells ops i := by
  have hr : ∀ {t : Token}, Slot.vx.Admits t.lexeme → t.kind = .register :=
    fun h => Lexeme.kind_eq_register_iff.mpr h
  have hv : ∀ {t : Token}, Slot.byte.Admits t.lexeme → t.kind = .literal :=
    fun h => Lexeme.kind_eq_literal_iff.mpr h
  rw [Row.Matches] at h
  cases f with
  | fixed op =>
      obtain rfl := List.forall₂_nil_left_iff.mp h
      exact ⟨.fixed op, rfl, .fixed op⟩
  | address op =>
      cases op with
      | sys | jp | call =>
          obtain _ | ⟨ht, _ | _⟩ := h
          exact ⟨_, rfl, .address (by simp) (Slot.admits_address_iff.mp ht)⟩
      | ldI =>
          obtain _ | ⟨hp, _ | ⟨ht, _ | _⟩⟩ := h
          exact ⟨_, rfl, .loadIndex hp (Slot.admits_address_iff.mp ht)⟩
      | jpV0 =>
          obtain _ | ⟨hp, _ | ⟨ht, _ | _⟩⟩ := h
          obtain ⟨hk, h0⟩ := Slot.admits_v0_iff.mp hp
          exact ⟨_, rfl, .jumpV0 hk h0 (Slot.admits_address_iff.mp ht)⟩
  | byte op =>
      obtain _ | ⟨hp, _ | ⟨hq, _ | _⟩⟩ := h
      exact ⟨_, rfl, .byte op (hr hp) (hv hq)⟩
  | pair op =>
      obtain _ | ⟨hp, _ | ⟨hq, _ | _⟩⟩ := h
      exact ⟨_, rfl, .pair op (hr hp) (hr hq)⟩
  | sprite =>
      obtain _ | ⟨hp, _ | ⟨hq, _ | ⟨hn, _ | _⟩⟩⟩ := h
      exact ⟨_, rfl, .sprite (hr hp) (hr hq) (hv hn)⟩
  | register op =>
      cases op with
      | skp | sknp =>
          obtain _ | ⟨hp, _ | _⟩ := h
          exact ⟨_, rfl, .key (by simp) (hr hp)⟩
      | readDelay | awaitKey | restore =>
          obtain _ | ⟨hp, _ | ⟨hq, _ | _⟩⟩ := h
          exact ⟨_, rfl, .outOf (hr hp) hq rfl⟩
      | setDelay | setSound | font | decimal =>
          obtain _ | ⟨hp, _ | ⟨hq, _ | _⟩⟩ := h
          exact ⟨_, rfl, .into hp rfl (hr hq)⟩
      | store | addIndex =>
          obtain _ | ⟨hp, _ | ⟨hq, _ | _⟩⟩ := h
          exact ⟨_, rfl, .index (by simp) hp (hr hq)⟩

/-! ### Bits and fields of a word -/

namespace Word

lemma getLsbD_ofAddress (a : BitVec 4) (nnn : BitVec 12) (k : Nat) :
    (ofAddress a nnn).getLsbD k = if k < 12 then nnn.getLsbD k else a.getLsbD (k - 12) := by
  rw [ofAddress, BitVec.getLsbD_append]

lemma getLsbD_ofByte (a x : BitVec 4) (kk : BitVec 8) (k : Nat) :
    (ofByte a x kk).getLsbD k =
      if k < 8 then kk.getLsbD k
      else if k < 12 then x.getLsbD (k - 8) else a.getLsbD (k - 12) := by
  rw [ofByte, BitVec.getLsbD_append, BitVec.getLsbD_append]
  grind

lemma getLsbD_ofNibbles (a x y n : BitVec 4) (k : Nat) :
    (ofNibbles a x y n).getLsbD k =
      if k < 4 then n.getLsbD k
      else if k < 8 then y.getLsbD (k - 4)
      else if k < 12 then x.getLsbD (k - 8) else a.getLsbD (k - 12) := by
  rw [ofNibbles, BitVec.getLsbD_append, BitVec.getLsbD_append, BitVec.getLsbD_append]
  grind

/-! Outside the fields a word does not depend on what they hold. -/

variable {k : Nat}

lemma getLsbD_ofAddress_fixed (a : BitVec 4) (nnn : BitVec 12) (h : ¬ Field.nnn.Covers k) :
    (ofAddress a nnn).getLsbD k = (ofAddress a 0#12).getLsbD k := by
  have hk : ¬ k < 12 := fun hk => h ⟨Nat.zero_le k, hk⟩
  rw [getLsbD_ofAddress, getLsbD_ofAddress, if_neg hk, if_neg hk]

lemma getLsbD_ofByte_fixed (a x : BitVec 4) (kk : BitVec 8) (hx : ¬ Field.x.Covers k) :
    (ofByte a x kk).getLsbD k = (ofByte a 0#4 kk).getLsbD k := by
  simp only [Field.Covers, Field.start, Field.width] at hx
  rw [getLsbD_ofByte, getLsbD_ofByte]
  split_ifs with h8 h12
  · rfl
  · omega
  · rfl

lemma getLsbD_ofByte_fixed_both (a x : BitVec 4) (kk : BitVec 8) (hx : ¬ Field.x.Covers k)
    (hkk : ¬ Field.kk.Covers k) :
    (ofByte a x kk).getLsbD k = (ofByte a 0#4 0#8).getLsbD k := by
  have h8 : ¬ k < 8 := fun h8 => hkk ⟨Nat.zero_le k, h8⟩
  rw [getLsbD_ofByte_fixed a x kk hx, getLsbD_ofByte, getLsbD_ofByte, if_neg h8, if_neg h8]

lemma getLsbD_ofNibbles_fixed (a x y n : BitVec 4) (hx : ¬ Field.x.Covers k)
    (hy : ¬ Field.y.Covers k) :
    (ofNibbles a x y n).getLsbD k = (ofNibbles a 0#4 0#4 n).getLsbD k := by
  simp only [Field.Covers, Field.start, Field.width] at hx hy
  rw [getLsbD_ofNibbles, getLsbD_ofNibbles]
  split_ifs with h4 h8 h12
  · rfl
  · omega
  · omega
  · rfl

lemma getLsbD_ofNibbles_fixed_all (a x y n : BitVec 4) (hx : ¬ Field.x.Covers k)
    (hy : ¬ Field.y.Covers k) (hn : ¬ Field.n.Covers k) :
    (ofNibbles a x y n).getLsbD k = (ofNibbles a 0#4 0#4 0#4).getLsbD k := by
  have h4 : ¬ k < 4 := fun h4 => hn ⟨Nat.zero_le k, h4⟩
  rw [getLsbD_ofNibbles_fixed a x y n hx hy, getLsbD_ofNibbles, getLsbD_ofNibbles, if_neg h4,
    if_neg h4]

end Word

namespace Field

lemma read_eq (f : Field) (w : Word) : f.read w = w.toNat / 2 ^ f.start % 2 ^ f.width := by
  rw [read, BitVec.extractLsb'_toNat, Nat.shiftRight_eq_div_pow]

/-- Words that agree in a field agree in its bits. -/
lemma getLsbD_eq_of_read_eq {f : Field} {w w' : Word} (h : f.read w = f.read w') {k : Nat}
    (hk : f.Covers k) : w.getLsbD k = w'.getLsbD k := by
  have hbits := congrArg (BitVec.getLsbD · (k - f.start)) (BitVec.eq_of_toNat_eq h)
  have hlt : k - f.start < f.width := by
    have := hk.1
    have := hk.2
    omega
  simpa only [BitVec.getLsbD_extractLsb', hlt, decide_true, Bool.true_and,
    Nat.add_sub_cancel' hk.1] using hbits

variable (a p q r : BitVec 4)

@[simp] lemma read_nnn_ofAddress (t : BitVec 12) : nnn.read (.ofAddress a t) = t.toNat := by
  rw [read_eq, Word.toNat_ofAddress]
  simp only [start, width]
  omega

@[simp] lemma read_x_ofByte (t : BitVec 8) : x.read (.ofByte a p t) = p.toNat := by
  rw [read_eq, Word.toNat_ofByte]
  simp only [start, width]
  omega

@[simp] lemma read_kk_ofByte (t : BitVec 8) : kk.read (.ofByte a p t) = t.toNat := by
  rw [read_eq, Word.toNat_ofByte]
  simp only [start, width]
  omega

@[simp] lemma read_x_ofNibbles : x.read (.ofNibbles a p q r) = p.toNat := by
  rw [read_eq, Word.toNat_ofNibbles]
  simp only [start, width]
  omega

@[simp] lemma read_y_ofNibbles : y.read (.ofNibbles a p q r) = q.toNat := by
  rw [read_eq, Word.toNat_ofNibbles]
  simp only [start, width]
  omega

@[simp] lemma read_n_ofNibbles : n.read (.ofNibbles a p q r) = r.toNat := by
  rw [read_eq, Word.toNat_ofNibbles]
  simp only [start, width]
  omega

end Field

/-! ### Filling places -/

namespace Slot

variable {labels : Labels} {w : Word} {t : Token}

lemma fills_of_field?_eq_none {s : Slot} (h : s.field? = none) : s.Fills labels w t := by
  intro f hf
  rw [h] at hf
  cases hf

/-- A register fills a field of four bits. -/
lemma fills_of_register {s : Slot} {f : Field} (hs : s.field? = some f) (hwidth : f.width = 4)
    (ht : t.kind = .register) (h : f.read w = t.lexeme.nibble.toNat) : s.Fills labels w t := by
  obtain ⟨r, hr⟩ := Lexeme.kind_eq_register_iff.mp ht
  intro g hg
  obtain rfl := Option.some.inj (hs.symm.trans hg)
  refine ⟨r.toNat, by rw [hr]; rfl, ?_⟩
  rw [h, hr, Lexeme.toNat_nibble_register, hwidth]
  rfl

lemma fills_byte (ht : t.kind = .literal) (h : Field.kk.read w = t.lexeme.byte.toNat) :
    Slot.byte.Fills labels w t := by
  obtain ⟨v, hv⟩ := Lexeme.kind_eq_literal_iff.mp ht
  rintro f ⟨⟩
  exact ⟨v.toNat, by rw [hv]; rfl, by rw [h, hv, Lexeme.toNat_byte_literal]; rfl⟩

lemma fills_nibble (ht : t.kind = .literal) (h : Field.n.read w = t.lexeme.nibble.toNat) :
    Slot.nibble.Fills labels w t := by
  obtain ⟨v, hv⟩ := Lexeme.kind_eq_literal_iff.mp ht
  rintro f ⟨⟩
  exact ⟨v.toNat, by rw [hv]; rfl, by rw [h, hv, Lexeme.toNat_nibble_literal]; rfl⟩

end Slot

/-- The address of a target is the low part of the number its operand stands for. -/
lemma Target.resolve_ofToken_eq_ok_iff {labels : Labels} {t : Token} {a : BitVec 12}
    (ht : t.kind ∈ [Kind.name, .literal]) :
    (Target.ofToken t).resolve labels = .ok a ↔
      ∃ v, t.lexeme.number? labels = some v ∧ a.toNat = v % 4096 := by
  rcases List.mem_pair.mp ht with ht | ht
  · obtain ⟨s, hs⟩ := Lexeme.kind_eq_name_iff.mp ht
    simp only [ofToken, hs, resolve, Labels.resolve, Lexeme.number?]
    cases labels.find? s with
    | none => simp [Except.map]
    | some b =>
        simp only [Except.map, Except.ok.injEq, Option.map_some, Option.some.injEq,
          exists_eq_left', ← BitVec.toNat_inj, BitVec.toNat_setWidth]
        exact eq_comm
  · obtain ⟨v, hv⟩ := Lexeme.kind_eq_literal_iff.mp ht
    simp only [ofToken, hv, resolve, Lexeme.number?, Except.ok.injEq, Option.some.injEq,
      exists_eq_left', ← BitVec.toNat_inj, Lexeme.toNat_address_literal]
    exact eq_comm

/-! ### The word of an instruction -/

lemma Instruction.resolve_address_eq_ok_iff {labels : Labels} {op : AddressOp} {t : Target}
    {r : Instruction (BitVec 12)} :
    (Instruction.address op t).resolve labels = .ok r ↔
      ∃ a, t.resolve labels = .ok a ∧ r = .address op a := by
  rw [Instruction.resolve]
  cases t.resolve labels with
  | error e => simp [Except.map]
  | ok a => simp [Except.map, eq_comm]

/-- An operation on an address: if the operands fill their places, nothing else has
changed. -/
lemma encodes_address {labels : Labels} {op : AddressOp} {ops : List Token} {a : BitVec 12}
    (hs : Slot.address ∈ op.slots)
    (h : List.Forall₂ (Slot.Fills labels (Instruction.address op a).word) op.slots ops) :
    (Form.address op).row.Encodes labels ops (Instruction.address op a).word :=
  ⟨h, fun _ _ hk => Word.getLsbD_ofAddress_fixed _ _ (hk .address hs .nnn rfl)⟩

/-- An operation on one register: if the operands fill their places, nothing else has
changed. -/
lemma encodes_register {labels : Labels} {op : RegisterOp} {ops : List Token} {x : BitVec 4}
    (hs : Slot.vx ∈ op.slots)
    (h : List.Forall₂ (Slot.Fills labels (Instruction.register op x).word) op.slots ops) :
    (Form.register op).row.Encodes labels ops (Instruction.register op x).word :=
  ⟨h, fun _ _ hk => Word.getLsbD_ofByte_fixed _ _ _ (hk .vx hs .x rfl)⟩

lemma fills_target {labels : Labels} {op : AddressOp} {t : Token} {a : BitVec 12}
    (ht : t.kind ∈ [Kind.name, .literal]) (ha : (Target.ofToken t).resolve labels = .ok a) :
    Slot.address.Fills labels (Instruction.address op a).word t := by
  obtain ⟨v, hv, hav⟩ := (Target.resolve_ofToken_eq_ok_iff ht).mp ha
  rintro f ⟨⟩
  exact ⟨v, hv, (Field.read_nnn_ofAddress _ _).trans hav⟩

lemma fills_register {labels : Labels} {op : RegisterOp} {p : Token} (hp : p.kind = .register) :
    Slot.vx.Fills labels (Instruction.register op p.lexeme.nibble).word p :=
  Slot.fills_of_register rfl rfl hp (Field.read_x_ofByte _ _ _)

/-- The word of an instruction is what its row says, once its target is known. -/
lemma Spells.encodes {ops : List Token} {i : Instruction Target} (h : Spells ops i)
    {labels : Labels} {r : Instruction (BitVec 12)} (hr : i.resolve labels = .ok r) :
    i.form.row.Encodes labels ops r.word := by
  have hnone : ∀ {s : Slot} {w : Word} {t : Token}, s.field? = none → s.Fills labels w t :=
    Slot.fills_of_field?_eq_none
  cases h with
  | fixed op =>
      cases hr
      exact ⟨.nil, fun _ _ _ => rfl⟩
  | address hop ht =>
      obtain ⟨a, ha, rfl⟩ := Instruction.resolve_address_eq_ok_iff.mp hr
      simp only [List.mem_cons, List.not_mem_nil, or_false] at hop
      rcases hop with rfl | rfl | rfl <;>
        exact encodes_address (.head _) (.cons (fills_target ht ha) .nil)
  | jumpV0 hp h0 ht =>
      obtain ⟨a, ha, rfl⟩ := Instruction.resolve_address_eq_ok_iff.mp hr
      exact encodes_address (.tail _ (.head _))
        (.cons (hnone rfl) (.cons (fills_target ht ha) .nil))
  | loadIndex hp ht =>
      obtain ⟨a, ha, rfl⟩ := Instruction.resolve_address_eq_ok_iff.mp hr
      exact encodes_address (.tail _ (.head _))
        (.cons (hnone rfl) (.cons (fills_target ht ha) .nil))
  | byte op hp hq =>
      cases hr
      refine ⟨.cons (Slot.fills_of_register rfl rfl hp (Field.read_x_ofByte _ _ _))
        (.cons (Slot.fills_byte hq (Field.read_kk_ofByte _ _ _)) .nil), fun k _ hk => ?_⟩
      exact Word.getLsbD_ofByte_fixed_both _ _ _ (hk .vx (.head _) .x rfl)
        (hk .byte (.tail _ (.head _)) .kk rfl)
  | pair op hp hq =>
      cases hr
      refine ⟨.cons (Slot.fills_of_register rfl rfl hp (Field.read_x_ofNibbles _ _ _ _))
        (.cons (Slot.fills_of_register rfl rfl hq (Field.read_y_ofNibbles _ _ _ _)) .nil),
        fun k _ hk => ?_⟩
      exact Word.getLsbD_ofNibbles_fixed _ _ _ _ (hk .vx (.head _) .x rfl)
        (hk .vy (.tail _ (.head _)) .y rfl)
  | sprite hp hq hn =>
      cases hr
      refine ⟨.cons (Slot.fills_of_register rfl rfl hp (Field.read_x_ofNibbles _ _ _ _))
        (.cons (Slot.fills_of_register rfl rfl hq (Field.read_y_ofNibbles _ _ _ _))
          (.cons (Slot.fills_nibble hn (Field.read_n_ofNibbles _ _ _ _)) .nil)), fun k _ hk => ?_⟩
      exact Word.getLsbD_ofNibbles_fixed_all _ _ _ _ (hk .vx (.head _) .x rfl)
        (hk .vy (.tail _ (.head _)) .y rfl) (hk .nibble (.tail _ (.tail _ (.head _))) .n rfl)
  | key hop hp =>
      cases hr
      rcases List.mem_pair.mp hop with rfl | rfl <;>
        exact encodes_register (.head _) (.cons (fills_register hp) .nil)
  | outOf hp hq hs =>
      cases hr
      refine encodes_register ?_ ?_ <;> rw [RegisterOp.slots_of_outOf? hs]
      · exact .head _
      · exact .cons (fills_register hp) (.cons (hnone rfl) .nil)
  | into hp hs hq =>
      cases hr
      refine encodes_register ?_ ?_ <;> rw [RegisterOp.slots_of_into? hs]
      · exact .tail _ (.head _)
      · exact .cons (hnone rfl) (.cons (fills_register hq) .nil)
  | index hop hp hq =>
      cases hr
      rcases List.mem_pair.mp hop with rfl | rfl <;>
        exact encodes_register (.tail _ (.head _))
          (.cons (hnone rfl) (.cons (fills_register hq) .nil))

/-- If a row says what the word is, the target of the instruction is known. -/
lemma Spells.exists_resolve {ops : List Token} {i : Instruction Target} (h : Spells ops i)
    {labels : Labels} {w : Word} (he : i.form.row.Encodes labels ops w) :
    ∃ r, i.resolve labels = .ok r := by
  have hTarget : ∀ {op : AddressOp} {t : Token}, t.kind ∈ [Kind.name, .literal] →
      Slot.address.Fills labels w t →
      ∃ r, (Instruction.address op (.ofToken t)).resolve labels = .ok r := by
    intro op t ht hf
    obtain ⟨v, hv, -⟩ := hf .nnn rfl
    have ha : (Target.ofToken t).resolve labels = .ok (BitVec.ofNat 12 v) :=
      (Target.resolve_ofToken_eq_ok_iff ht).mpr ⟨v, hv, BitVec.toNat_ofNat v 12⟩
    exact ⟨_, Instruction.resolve_address_eq_ok_iff.mpr ⟨_, ha, rfl⟩⟩
  obtain ⟨hf, -⟩ := he
  cases h with
  | address hop ht =>
      simp only [List.mem_cons, List.not_mem_nil, or_false] at hop
      rcases hop with rfl | rfl | rfl <;>
        (obtain _ | ⟨hf, _⟩ := hf; exact hTarget ht hf)
  | jumpV0 hp h0 ht =>
      obtain _ | ⟨-, _ | ⟨hf, _⟩⟩ := hf
      exact hTarget ht hf
  | loadIndex hp ht =>
      obtain _ | ⟨-, _ | ⟨hf, _⟩⟩ := hf
      exact hTarget ht hf
  | _ => exact ⟨_, rfl⟩

/-- Words that the same operands fill agree in every field of the row. -/
lemma read_eq_of_fills {labels : Labels} {w w' : Word} {slots : List Slot} {ops : List Token}
    (h : List.Forall₂ (Slot.Fills labels w) slots ops)
    (h' : List.Forall₂ (Slot.Fills labels w') slots ops) :
    ∀ s ∈ slots, ∀ f, s.field? = some f → f.read w = f.read w' := by
  induction h with
  | nil => simp
  | cons hst _ ih =>
      obtain _ | ⟨hst', ht'⟩ := h'
      intro s hs f hf
      rcases List.mem_cons.mp hs with rfl | hs
      · obtain ⟨v, hv, hw⟩ := hst f hf
        obtain ⟨v', hv', hw'⟩ := hst' f hf
        rw [hv] at hv'
        cases hv'
        rw [hw, hw']
      · exact ih ht' s hs f hf

/-- A row, its operands and the labels determine the word: every bit is in a field or
fixed. -/
theorem Row.encodes_unique {row : Row} {labels : Labels} {ops : List Token} {w w' : Word}
    (h : row.Encodes labels ops w) (h' : row.Encodes labels ops w') : w = w' := by
  apply BitVec.eq_of_getLsbD_eq
  intro k hk
  by_cases hc : ∃ s ∈ row.slots, ∃ f, s.field? = some f ∧ f.Covers k
  · obtain ⟨s, hs, f, hf, hfk⟩ := hc
    exact Field.getLsbD_eq_of_read_eq (read_eq_of_fills h.fills h'.fills s hs f hf) hfk
  · have hfree : ∀ s ∈ row.slots, ∀ f, s.field? = some f → ¬ f.Covers k :=
      fun s hs f hf hfk => hc ⟨s, hs, f, hf, hfk⟩
    rw [h.fixed k hk hfree, h'.fixed k hk hfree]

/-- What a spelled instruction encodes to is what its row says. -/
lemma Spells.encodes_iff {ops : List Token} {i : Instruction Target} (h : Spells ops i)
    {labels : Labels} {w : Word} :
    i.form.row.Encodes labels ops w ↔ ∃ r, i.resolve labels = .ok r ∧ r.word = w := by
  refine ⟨fun he => ?_, fun h => ?_⟩
  · obtain ⟨r, hr⟩ := h.exists_resolve he
    exact ⟨r, hr, Row.encodes_unique (h.encodes hr) he⟩
  · obtain ⟨r, hr, rfl⟩ := h
    exact h.encodes hr

/-! ### Encoding -/

/-- **Encoding follows the opcode table.** A name with the tokens after it gives a word
and leaves a rest exactly if the tokens before the rest match a row of that name and
the word is the one that the row, the operands and the labels determine. At most one
row of a name matches, and at one length only. -/
theorem encode_follows_opcodeTable (m : Mnemonic) (labels : Labels) (ts : List Token) :
    (∀ (w : Word) (rest : List Token), m.encode labels ts = .ok w rest ↔
      ∃ row ∈ opcodeTable, row.mnemonic = m ∧
        ∃ ops, ts = ops ++ rest ∧ row.Matches ops ∧ row.Encodes labels ops w) ∧
    ∀ row ∈ opcodeTable, ∀ row' ∈ opcodeTable, row.mnemonic = m → row'.mnemonic = m →
      ∀ ops ops', ops <+: ts → ops' <+: ts → row.Matches ops → row'.Matches ops' →
        row = row' ∧ ops = ops' := by
  constructor
  · intro w rest
    rw [Mnemonic.encode_eq_ok_iff_resolve]
    refine ⟨fun h => ?_, fun h => ?_⟩
    · obtain ⟨i, r, hi, hr, rfl⟩ := h
      obtain ⟨ops, hs, rfl, rfl⟩ := Mnemonic.operands_eq_ok_iff.mp hi
      exact ⟨i.form.row, Form.mem_opcodeTable_iff.mpr ⟨_, rfl⟩, i.form_row_mnemonic, ops, rfl,
        hs.matches, hs.encodes hr⟩
    · obtain ⟨row, hrow, hm, ops, rfl, hops, hw⟩ := h
      obtain ⟨f, rfl⟩ := Form.mem_opcodeTable_iff.mp hrow
      obtain ⟨i, rfl, hs⟩ := Form.exists_spells hops
      obtain ⟨r, hr, hrw⟩ := hs.encodes_iff.mp hw
      rw [i.form_row_mnemonic] at hm
      exact ⟨i, r, Mnemonic.operands_eq_ok_iff.mpr ⟨ops, hs, hm, rfl⟩, hr, hrw⟩
  · rintro row hrow row' hrow' hm hm' ops ops' ⟨rest, rfl⟩ ⟨rest', ht⟩ hops hops'
    obtain ⟨f, rfl⟩ := Form.mem_opcodeTable_iff.mp hrow
    obtain ⟨f', rfl⟩ := Form.mem_opcodeTable_iff.mp hrow'
    obtain ⟨i, rfl, hs⟩ := Form.exists_spells hops
    obtain ⟨i', rfl, hs'⟩ := Form.exists_spells hops'
    rw [i.form_row_mnemonic] at hm
    rw [i'.form_row_mnemonic] at hm'
    obtain ⟨hops, rfl, -⟩ := hs.deterministic hs' (hm.trans hm'.symm) ht.symm
    exact ⟨rfl, hops⟩

end Chip8
