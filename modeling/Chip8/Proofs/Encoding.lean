/-
Encoding by an index, masks and shifts.

The operands of an instruction are read from a list of tokens, and its word is written field by
field. Here the tokens are read by an index into them, the numbers of the operands are cut to their
fields by masks, and the fields are shifted to their places and put together. An index can be
beyond the tokens, and a number can be too wide for a word.

* `Lexeme.low`, `Lexeme.x`, `Lexeme.y`: the fields of an operand in a word.
* `Instruction.word_address` and the like: a word is put together from its fields.
* `Cursor`: reading by an index; `Cursor.encode`: the word of an instruction.
* `Cursor.Follows`: a cursor does not trap, stays within the tokens and reads what a reader reads.
  Sequencing keeps this (`Cursor.follows_bind`).
* `Cursor.follows_encode`: **encoding by masks and shifts** never traps, and it gives the word of
  the instruction.
-/
import Mathlib.Tactic
import Chip8.Instruction.Operands
import Chip8.Proofs.Checked

namespace Chip8

/-! ### Fields -/

namespace Lexeme

/-- The low bits of the number, masked and then narrowed to a word. -/
def low (bits : Nat) (l : Lexeme) : Checked Word :=
  Checked.narrow 16 (l.number.toNat &&& (2 ^ bits - 1))

/-- The low four bits of the number, in the place of the first register. -/
def x (l : Lexeme) : Checked Word := do return (← l.low 4) <<< 8

/-- The low four bits of the number, in the place of the second register. -/
def y (l : Lexeme) : Checked Word := do return (← l.low 4) <<< 4

/-- A mask leaves no more bits than a word has. -/
lemma low_eq {bits : Nat} (h : bits ≤ 16) (l : Lexeme) :
    l.low bits = .value ((l.number.setWidth bits).setWidth 16) := by
  have hmask : l.number.toNat &&& (2 ^ bits - 1) = l.number.toNat % 2 ^ bits :=
    Nat.and_two_pow_sub_one_eq_mod _ _
  have hlt : l.number.toNat % 2 ^ bits < 2 ^ 16 :=
    calc l.number.toNat % 2 ^ bits < 2 ^ bits := Nat.mod_lt _ (Nat.two_pow_pos bits)
      _ ≤ 2 ^ 16 := Nat.pow_le_pow_right (by omega) h
  rw [low, hmask, Checked.narrow_of_lt hlt]
  refine congrArg Checked.value (BitVec.eq_of_toNat_eq ?_)
  rw [BitVec.toNat_ofNat, BitVec.toNat_setWidth, BitVec.toNat_setWidth]

lemma low_four (l : Lexeme) : l.low 4 = .value (l.nibble.setWidth 16) := low_eq (by omega) l

lemma low_eight (l : Lexeme) : l.low 8 = .value (l.byte.setWidth 16) := low_eq (by omega) l

lemma low_twelve (l : Lexeme) : l.low 12 = .value (l.address.setWidth 16) := low_eq (by omega) l

/-- A nibble that is shifted within a word loses no bit. -/
lemma toNat_nibble_shiftLeft (l : Lexeme) {k : Nat} (hk : k ≤ 12) :
    (l.nibble.setWidth 16 <<< k).toNat = l.nibble.toNat * 2 ^ k := by
  have hnat : (l.nibble.setWidth 16).toNat = l.nibble.toNat := by
    have h := l.nibble.isLt
    rw [BitVec.toNat_setWidth, Nat.mod_eq_of_lt (by omega)]
  have hlt : l.nibble.toNat * 2 ^ k < 2 ^ 16 :=
    calc l.nibble.toNat * 2 ^ k < 2 ^ 4 * 2 ^ k :=
          Nat.mul_lt_mul_of_pos_right l.nibble.isLt (Nat.two_pow_pos k)
      _ = 2 ^ (4 + k) := (Nat.pow_add 2 4 k).symm
      _ ≤ 2 ^ 16 := Nat.pow_le_pow_right (by omega) (by omega)
  rw [BitVec.toNat_shiftLeft, hnat, Nat.shiftLeft_eq, Nat.mod_eq_of_lt hlt]

lemma x_eq (l : Lexeme) : l.x = .value (.ofX l.nibble) := by
  rw [x, low_four]
  refine congrArg Checked.value (BitVec.eq_of_toNat_eq ?_)
  rw [toNat_nibble_shiftLeft l (by omega), Word.ofX, Word.toNat_ofNibbles]
  simp

lemma y_eq (l : Lexeme) : l.y = .value (.ofY l.nibble) := by
  rw [y, low_four]
  refine congrArg Checked.value (BitVec.eq_of_toNat_eq ?_)
  rw [toNat_nibble_shiftLeft l (by omega), Word.ofY, Word.toNat_ofNibbles]
  simp

end Lexeme

/-! ### Words -/

namespace Word

lemma or_ofAddress (a a' : BitVec 4) (b b' : BitVec 12) :
    ofAddress a b ||| ofAddress a' b' = ofAddress (a ||| a') (b ||| b') := BitVec.or_append

lemma or_ofByte (a a' x x' : BitVec 4) (b b' : BitVec 8) :
    ofByte a x b ||| ofByte a' x' b' = ofByte (a ||| a') (x ||| x') (b ||| b') := by
  rw [ofByte, ofByte, BitVec.or_append, BitVec.or_append]
  rfl

lemma or_ofNibbles (a a' x x' y y' n n' : BitVec 4) :
    ofNibbles a x y n ||| ofNibbles a' x' y' n' =
      ofNibbles (a ||| a') (x ||| x') (y ||| y') (n ||| n') := by
  rw [ofNibbles, ofNibbles, BitVec.or_append, BitVec.or_append, BitVec.or_append]
  rfl

lemma setWidth_address (b : BitVec 12) : b.setWidth 16 = ofAddress 0#4 b := by
  apply BitVec.eq_of_toNat_eq
  rw [BitVec.toNat_setWidth, toNat_ofAddress]
  have h := b.isLt
  simp only [BitVec.toNat_ofNat]
  omega

lemma setWidth_byte (b : BitVec 8) : b.setWidth 16 = ofByte 0#4 0#4 b := by
  apply BitVec.eq_of_toNat_eq
  rw [BitVec.toNat_setWidth, toNat_ofByte]
  have h := b.isLt
  simp only [BitVec.toNat_ofNat]
  omega

lemma setWidth_nibble (n : BitVec 4) : n.setWidth 16 = ofNibbles 0#4 0#4 0#4 n := by
  apply BitVec.eq_of_toNat_eq
  rw [BitVec.toNat_setWidth, toNat_ofNibbles]
  have h := n.isLt
  simp only [BitVec.toNat_ofNat]
  omega

/-- The mask of an address keeps its twelve bits. -/
lemma setWidth_twelve (a : Word) : (a.setWidth 12).setWidth 16 = a &&& 0xFFF#16 := by
  apply BitVec.eq_of_toNat_eq
  have hmask : (a &&& 0xFFF#16).toNat = a.toNat % 2 ^ 12 := Nat.and_two_pow_sub_one_eq_mod _ 12
  rw [BitVec.toNat_setWidth, BitVec.toNat_setWidth, hmask]
  omega

lemma ofX_eq_ofByte (x : BitVec 4) : ofX x = ofByte 0#4 x 0#8 := by
  apply BitVec.eq_of_toNat_eq
  rw [ofX, toNat_ofNibbles, toNat_ofByte]
  simp only [BitVec.toNat_ofNat]

end Word

/-! Instructions are put together from the word without fields and each field in its place. -/

namespace Instruction

/-- The word of an instruction with its target resolved. -/
def settle (labels : Labels) (i : Instruction Target) : Except Error Word :=
  (i.resolve labels).map word

lemma word_address (op : AddressOp) (nnn : BitVec 12) :
    (address op 0#12).word ||| nnn.setWidth 16 = (address op nnn).word := by
  rw [Word.setWidth_address]
  change Word.ofAddress op.opcode 0#12 ||| _ = Word.ofAddress op.opcode nnn
  rw [Word.or_ofAddress, BitVec.or_zero, BitVec.zero_or]

lemma word_byte (op : ByteOp) (x : BitVec 4) (kk : BitVec 8) :
    (byte op 0#4 0#8).word ||| Word.ofX x ||| kk.setWidth 16 = (byte op x kk).word := by
  rw [Word.setWidth_byte, Word.ofX_eq_ofByte]
  change Word.ofByte op.opcode 0#4 0#8 ||| _ ||| _ = Word.ofByte op.opcode x kk
  simp only [Word.or_ofByte, BitVec.or_zero, BitVec.zero_or]

lemma word_pair (op : PairOp) (x y : BitVec 4) :
    (pair op 0#4 0#4).word ||| Word.ofX x ||| Word.ofY y = (pair op x y).word := by
  change Word.ofNibbles op.opcode.1 0#4 0#4 op.opcode.2 ||| _ ||| _ =
    Word.ofNibbles op.opcode.1 x y op.opcode.2
  simp only [Word.ofX, Word.ofY, Word.or_ofNibbles, BitVec.or_zero, BitVec.zero_or]

lemma word_sprite (x y n : BitVec 4) :
    (sprite 0#4 0#4 0#4).word ||| Word.ofX x ||| Word.ofY y ||| n.setWidth 16 =
      (sprite x y n).word := by
  rw [Word.setWidth_nibble]
  change Word.ofNibbles 0xD#4 0#4 0#4 0#4 ||| _ ||| _ ||| _ = Word.ofNibbles 0xD#4 x y n
  simp only [Word.ofX, Word.ofY, Word.or_ofNibbles, BitVec.or_zero, BitVec.zero_or]

lemma word_register (op : RegisterOp) (x : BitVec 4) :
    (register op 0#4).word ||| Word.ofX x = (register op x).word := by
  rw [Word.ofX_eq_ofByte]
  change Word.ofByte op.opcode.1 0#4 op.opcode.2 ||| _ = Word.ofByte op.opcode.1 x op.opcode.2
  rw [Word.or_ofByte, BitVec.or_zero, BitVec.zero_or, BitVec.or_zero]

end Instruction

namespace Encoding

variable {labels : Labels}

/-- `nnn`. Of the address of a label twelve bits are kept. -/
def addressWord (labels : Labels) (op : AddressOp) (t : Token) : Checked Word := do
  let nnn ← match t.lexeme with
    | .name s => do pure ((← Checked.ofExcept (labels.resolve s t.line)) &&& 0xFFF#16)
    | l => l.low 12
  return (Instruction.address op 0#12).word ||| nnn

/-- `Vx`. -/
def registerWord (op : RegisterOp) (l : Lexeme) : Checked Word := do
  return (Instruction.register op 0#4).word ||| (← l.x)

/-- `Vx, kk`. -/
def byteWord (op : ByteOp) (p q : Lexeme) : Checked Word := do
  return (Instruction.byte op 0#4 0#8).word ||| (← p.x) ||| (← q.low 8)

/-- `Vx, Vy`. -/
def pairWord (op : PairOp) (p q : Lexeme) : Checked Word := do
  return (Instruction.pair op 0#4 0#4).word ||| (← p.x) ||| (← q.y)

/-- `Vx, Vy, n`. -/
def spriteWord (p q n : Lexeme) : Checked Word := do
  return (Instruction.sprite 0#4 0#4 0#4).word ||| (← p.x) ||| (← q.y) ||| (← n.low 4)

/-- `Vx, kk` or `Vx, Vy`. -/
def byteOrPairWord (b : ByteOp) (op : PairOp) (p q : Lexeme) : Checked Word :=
  match q with
  | .literal v => byteWord b p (.literal v)
  | l => pairWord op p l

/-- The forms of `LD` with a register in the first place. -/
def loadRegister (l : Lexeme) (q : Token) : Checked Word :=
  match q.lexeme with
  | .name s =>
    match RegisterOp.outOf? s with
    | some op => registerWord op l
    | none => .error (q.refused "DT, K or I")
  | _ => byteOrPairWord .ld .ld l q.lexeme

/-- The forms of `LD` with a name in the first place. -/
def loadName (labels : Labels) (s : String) (p q : Token) : Checked Word :=
  if s = "I" then
    match q.lexeme with
    | .register r => registerWord .store (.register r)
    | _ => addressWord labels .ldI q
  else
    match RegisterOp.into? s with
    | some op => do
      Checked.ofExcept (q.require [.register])
      registerWord op q.lexeme
    | none => .error (p.refused "I, DT, ST, F or B")

/-- The eleven forms of `LD`. -/
def loadWord (labels : Labels) (p q : Token) : Checked Word :=
  match p.lexeme with
  | .name s => loadName labels s p q
  | l => loadRegister l q

lemma addressWord_eq (op : AddressOp) (t : Token) :
    addressWord labels op t =
      .ofExcept (Instruction.settle labels (.address op (Target.ofToken t))) := by
  obtain ⟨l, line⟩ := t
  have hnumber : (l.low 12 >>= fun nnn => pure ((Instruction.address op 0#12).word ||| nnn)) =
      .value (Instruction.address op l.address).word := by
    rw [Lexeme.low_twelve]
    exact congrArg Checked.value (Instruction.word_address op l.address)
  cases l with
  | name s =>
      change (Checked.ofExcept (labels.resolve s line) >>= fun a => _) =
        .ofExcept ((((labels.resolve s line).map (·.setWidth 12)).map
          (Instruction.address op)).map _)
      cases labels.resolve s line with
      | error e => rfl
      | ok a =>
          refine congrArg Checked.value ?_
          rw [← Instruction.word_address op (a.setWidth 12), Word.setWidth_twelve]
  | label s => exact hnumber
  | instruction s => exact hnumber
  | register r => exact hnumber
  | literal v => exact hnumber

lemma registerWord_eq (op : RegisterOp) (l : Lexeme) :
    registerWord op l = .value (Instruction.register op l.nibble).word := by
  rw [registerWord, Lexeme.x_eq]
  exact congrArg Checked.value (Instruction.word_register op l.nibble)

lemma byteWord_eq (op : ByteOp) (p q : Lexeme) :
    byteWord op p q = .value (Instruction.byte op p.nibble q.byte).word := by
  rw [byteWord, Lexeme.x_eq, Lexeme.low_eight]
  exact congrArg Checked.value (Instruction.word_byte op p.nibble q.byte)

lemma pairWord_eq (op : PairOp) (p q : Lexeme) :
    pairWord op p q = .value (Instruction.pair op p.nibble q.nibble).word := by
  rw [pairWord, Lexeme.x_eq, Lexeme.y_eq]
  exact congrArg Checked.value (Instruction.word_pair op p.nibble q.nibble)

lemma spriteWord_eq (p q n : Lexeme) :
    spriteWord p q n = .value (Instruction.sprite p.nibble q.nibble n.nibble).word := by
  rw [spriteWord, Lexeme.x_eq, Lexeme.y_eq, Lexeme.low_four]
  exact congrArg Checked.value (Instruction.word_sprite p.nibble q.nibble n.nibble)

lemma byteOrPairWord_eq (labels : Labels) (b : ByteOp) (op : PairOp) (p : Lexeme) (q : Token) :
    byteOrPairWord b op p q.lexeme =
      .ofExcept (Instruction.settle labels (Operands.byteOrPair b op p.nibble q)) := by
  unfold byteOrPairWord Operands.byteOrPair
  cases q.lexeme with
  | literal v => exact byteWord_eq b p (.literal v)
  | label s => exact pairWord_eq op p _
  | instruction s => exact pairWord_eq op p _
  | register r => exact pairWord_eq op p _
  | name s => exact pairWord_eq op p _

lemma loadRegister_eq (l : Lexeme) (q : Token) :
    loadRegister l q =
      .ofExcept ((match q.lexeme with
        | .name s =>
          match RegisterOp.outOf? s with
          | some op => .ok (.register op l.nibble)
          | none => .error (q.refused "DT, K or I")
        | _ => .ok (Operands.byteOrPair .ld .ld l.nibble q)) >>= Instruction.settle labels) := by
  obtain ⟨l', line⟩ := q
  unfold loadRegister
  cases l' with
  | name s =>
      dsimp only
      cases RegisterOp.outOf? s with
      | none => rfl
      | some op => exact registerWord_eq op l
  | label s => exact byteOrPairWord_eq labels .ld .ld l _
  | instruction s => exact byteOrPairWord_eq labels .ld .ld l _
  | register r => exact byteOrPairWord_eq labels .ld .ld l _
  | literal v => exact byteOrPairWord_eq labels .ld .ld l _

/-- Both operands of `LD` decide its form, and the form its word. -/
lemma loadWord_eq (p q : Token) :
    loadWord labels p q = .ofExcept (Operands.load p q >>= Instruction.settle labels) := by
  have hregister (op : RegisterOp) (l : Lexeme) :
      registerWord op l = .ofExcept (Instruction.settle labels (.register op l.nibble)) :=
    registerWord_eq op l
  obtain ⟨l, line⟩ := p
  obtain ⟨l', line'⟩ := q
  unfold loadWord Operands.load
  cases l with
  | name s =>
      dsimp only
      unfold loadName
      by_cases hs : s = "I"
      · rw [if_pos hs, if_pos hs]
        cases l' with
        | register r => exact hregister .store (.register r)
        | label s' => exact addressWord_eq .ldI _
        | instruction s' => exact addressWord_eq .ldI _
        | literal v => exact addressWord_eq .ldI _
        | name s' => exact addressWord_eq .ldI _
      · rw [if_neg hs, if_neg hs]
        cases RegisterOp.into? s with
        | none => rfl
        | some op =>
            dsimp only
            cases Token.require ⟨l', line'⟩ [.register] with
            | error e => rfl
            | ok u => exact hregister op l'
  | label s => exact loadRegister_eq _ _
  | instruction s => exact loadRegister_eq _ _
  | register r => exact loadRegister_eq _ _
  | literal v => exact loadRegister_eq _ _

end Encoding

/-! ### Cursors -/

/-- Reading by an index into the tokens. -/
abbrev Cursor := StateT Nat Checked

namespace Cursor

open Encoding

variable {α β : Type} {ts : List Token} {labels : Labels}

/-- Takes the token at the index, if there is one. -/
def next (ts : List Token) : Cursor Token := fun index =>
  match ts[index]? with
  | some t => .value (t, index + 1)
  | none => .error .endOfInput

/-- Takes the token at the index and checks its kind. -/
def expect (ts : List Token) (kinds : List Kind) : Cursor Token := do
  let t ← next ts
  Checked.ofExcept (t.require kinds)
  return t

/-- `nnn`. -/
def address (ts : List Token) (labels : Labels) (op : AddressOp) : Cursor Word := do
  let t ← expect ts [.name, .literal]
  addressWord labels op t

/-- `Vx`. -/
def register (ts : List Token) (op : RegisterOp) : Cursor Word := do
  let t ← expect ts [.register]
  registerWord op t.lexeme

/-- `Vx, Vy`. -/
def pair (ts : List Token) (op : PairOp) : Cursor Word := do
  let p ← expect ts [.register]
  let q ← expect ts [.register]
  pairWord op p.lexeme q.lexeme

/-- `Vx, kk` or `Vx, Vy`. -/
def skip (ts : List Token) (b : ByteOp) (op : PairOp) : Cursor Word := do
  let p ← expect ts [.register]
  let q ← expect ts [.literal, .register]
  byteOrPairWord b op p.lexeme q.lexeme

/-- `nnn` or `V0, nnn`. -/
def jump (ts : List Token) (labels : Labels) : Cursor Word := do
  let t ← expect ts [.name, .literal, .register]
  match t.lexeme with
  | .register r => do
    if (← (Lexeme.register r).low 4) = 0#16 then address ts labels .jpV0
    else Checked.error (t.refused "V0")
  | _ => addressWord labels .jp t

/-- The two operands of `LD`. -/
def loads (ts : List Token) (labels : Labels) : Cursor Word := do
  let p ← expect ts [.register, .name]
  let q ← expect ts [.literal, .register, .name]
  loadWord labels p q

/-- `Vx, kk` or `Vx, Vy` or `I, Vx`. -/
def add (ts : List Token) : Cursor Word := do
  let p ← expect ts [.name, .register]
  match p.lexeme with
  | .name s => if s = "I" then register ts .addIndex else Checked.error (p.refused "I")
  | l => do
    let q ← expect ts [.literal, .register]
    byteOrPairWord .add .add l q.lexeme

/-- `Vx, kk`. -/
def random (ts : List Token) : Cursor Word := do
  let p ← expect ts [.register]
  let q ← expect ts [.literal]
  byteWord .rnd p.lexeme q.lexeme

/-- `Vx, Vy, n`. -/
def draw (ts : List Token) : Cursor Word := do
  let p ← expect ts [.register]
  let q ← expect ts [.register]
  let n ← expect ts [.literal]
  spriteWord p.lexeme q.lexeme n.lexeme

/-- Reads the operands that follow a name and gives the word. -/
def encode (ts : List Token) (labels : Labels) : Mnemonic → Cursor Word
  | .cls => return (Instruction.fixed .cls).word
  | .ret => return (Instruction.fixed .ret).word
  | .sys => address ts labels .sys
  | .jp => jump ts labels
  | .call => address ts labels .call
  | .se => skip ts .se .se
  | .sne => skip ts .sne .sne
  | .ld => loads ts labels
  | .add => add ts
  | .or => pair ts .or
  | .and => pair ts .and
  | .xor => pair ts .xor
  | .sub => pair ts .sub
  | .shr => pair ts .shr
  | .subn => pair ts .subn
  | .shl => pair ts .shl
  | .rnd => random ts
  | .drw => draw ts
  | .skp => register ts .skp
  | .sknp => register ts .sknp

/-! ### Cursors and readers -/

/-- The result of a reader, without the tokens that are left by a failure. -/
def result (r : Reader α) (ts : List Token) : Except Error (α × List Token) :=
  match r ts with
  | .ok a rest => .ok (a, rest)
  | .error e _ => .error e

/-- A cursor has read what a reader has read: it is ahead of where it was and within the tokens,
and behind it are those that the reader has left. -/
structure Reached (ts : List Token) (start : Nat) (p : α × Nat) (q : α × List Token) : Prop where
  value : p.1 = q.1
  rest : ts.drop p.2 = q.2
  le : start ≤ p.2
  le_length : p.2 ≤ ts.length

/-- From every index within the tokens on, the cursor does not trap and reads what the reader
reads. -/
def Follows (ts : List Token) (c : Cursor α) (r : Reader α) : Prop :=
  ∀ start ≤ ts.length, Checked.Agrees (Reached ts start) (c start) (result r (ts.drop start))

lemma result_bind (r : Reader α) (f : α → Reader β) (ts : List Token) :
    result (r >>= f) ts = result r ts >>= fun q => result (f q.1) q.2 := by
  simp only [result, bind, EStateM.bind]
  cases r ts <;> rfl

lemma follows_bind {c : Cursor α} {r : Reader α} {f : α → Cursor β} {g : α → Reader β}
    (h : Follows ts c r) (hf : ∀ a, Follows ts (f a) (g a)) : Follows ts (c >>= f) (r >>= g) := by
  intro start hstart
  rw [result_bind]
  refine (h start hstart).bind ?_
  rintro ⟨a, index⟩ ⟨b, rest⟩ ⟨rfl, rfl, hle, hlen⟩
  refine (hf a index hlen).mono fun p q hpq => ?_
  exact ⟨hpq.value, hpq.rest, hle.trans hpq.le, hpq.le_length⟩

lemma follows_lift {c : Checked α} {x : Except Error α} (h : c = .ofExcept x) :
    Follows ts (monadLift c) (ofExcept x) := by
  intro start hstart
  rw [h]
  cases x with
  | ok a => exact .value ⟨rfl, rfl, le_rfl, hstart⟩
  | error e => exact .error e

lemma follows_pure (a : α) : Follows ts (pure a) (pure a) :=
  fun _ hstart => .value ⟨rfl, rfl, le_rfl, hstart⟩

lemma follows_next : Follows ts (next ts) Reader.next := by
  intro start hstart
  rw [next]
  cases h : ts[start]? with
  | none =>
      have hdrop : ts.drop start = [] := List.drop_eq_nil_of_le (List.getElem?_eq_none_iff.mp h)
      rw [hdrop]
      exact .error _
  | some t =>
      obtain ⟨hlt, ht⟩ := List.getElem?_eq_some_iff.mp h
      rw [List.drop_eq_getElem_cons hlt, ht]
      exact .value ⟨rfl, rfl, Nat.le_succ start, hlt⟩

lemma follows_expect (kinds : List Kind) : Follows ts (expect ts kinds) (Reader.expect kinds) :=
  follows_bind follows_next fun t =>
    follows_bind (follows_lift rfl) fun _ => follows_pure t

lemma follows_throw (e : Error) :
    Follows ts (monadLift (Checked.error e : Checked α)) (throw e) :=
  fun _ _ => .error e

lemma ofExcept_bind (x : Except Error α) (f : α → Except Error β) :
    (ofExcept x >>= fun a => ofExcept (f a) : Reader β) = ofExcept (x >>= f) := by
  cases x <;> rfl

/-- A reader of instructions goes on to the word. -/
def settling (labels : Labels) (r : Reader (Instruction Target)) : Reader Word :=
  r >>= fun i => ofExcept (i.settle labels)

lemma encode_eq (m : Mnemonic) : m.encode labels = settling labels m.operands := by
  rw [Mnemonic.encode, settling]
  refine congrArg (m.operands >>= ·) (funext fun i => ?_)
  rw [Instruction.settle]
  cases i.resolve labels <;> rfl

/-- The word is that of an instruction that has been read. -/
lemma follows_settled {i : Instruction Target} {c : Checked Word}
    (h : c = .ofExcept (i.settle labels)) :
    Follows ts (monadLift c) (pure i >>= fun i => ofExcept (i.settle labels)) :=
  follows_lift h

lemma follows_address (op : AddressOp) :
    Follows ts (address ts labels op) (settling labels (Operands.address op)) := by
  rw [settling, Operands.address, bind_assoc]
  exact follows_bind (follows_expect _) fun t => follows_settled (addressWord_eq op t)

lemma follows_register (op : RegisterOp) :
    Follows ts (register ts op) (settling labels (Operands.register op)) := by
  rw [settling, Operands.register, bind_assoc]
  exact follows_bind (follows_expect _) fun t => follows_settled (registerWord_eq op t.lexeme)

lemma follows_pair (op : PairOp) :
    Follows ts (pair ts op) (settling labels (Operands.pair op)) := by
  simp only [settling, Operands.pair, bind_assoc]
  exact follows_bind (follows_expect _) fun p => follows_bind (follows_expect _) fun q =>
    follows_settled (pairWord_eq op p.lexeme q.lexeme)

lemma follows_skip (b : ByteOp) (op : PairOp) :
    Follows ts (skip ts b op) (settling labels (Operands.skip b op)) := by
  simp only [settling, Operands.skip, bind_assoc]
  exact follows_bind (follows_expect _) fun p => follows_bind (follows_expect _) fun q =>
    follows_settled (byteOrPairWord_eq labels b op p.lexeme q)

/-- The mask of a register is zero for `V0` only. -/
lemma setWidth_eq_zero_iff (n : BitVec 4) : n.setWidth 16 = 0#16 ↔ n = 0#4 := by
  refine ⟨fun h => BitVec.eq_of_toNat_eq ?_, fun h => ?_⟩
  · have hnat := congrArg BitVec.toNat h
    rw [BitVec.toNat_setWidth] at hnat
    have hlt := n.isLt
    simp only [BitVec.toNat_ofNat] at hnat ⊢
    omega
  · rw [h]
    rfl

lemma follows_jump : Follows ts (jump ts labels) (settling labels Operands.jump) := by
  simp only [settling, Operands.jump, bind_assoc]
  refine follows_bind (follows_expect _) fun t => ?_
  obtain ⟨l, line⟩ := t
  cases l with
  | register r =>
      dsimp only
      rw [Lexeme.low_four]
      change Follows ts (if (Lexeme.register r).nibble.setWidth 16 = 0#16 then _ else _) _
      by_cases hr : (Lexeme.register r).nibble = 0#4
      · rw [if_pos ((setWidth_eq_zero_iff _).mpr hr), if_pos hr]
        exact follows_address .jpV0
      · rw [if_neg fun h => hr ((setWidth_eq_zero_iff _).mp h), if_neg hr]
        exact follows_throw _
  | label s => exact follows_settled (addressWord_eq .jp _)
  | instruction s => exact follows_settled (addressWord_eq .jp _)
  | literal v => exact follows_settled (addressWord_eq .jp _)
  | name s => exact follows_settled (addressWord_eq .jp _)

lemma follows_loads : Follows ts (loads ts labels) (settling labels Operands.loads) := by
  simp only [settling, Operands.loads, bind_assoc]
  refine follows_bind (follows_expect _) fun p => follows_bind (follows_expect _) fun q => ?_
  rw [ofExcept_bind]
  exact follows_lift (loadWord_eq p q)

/-- `ADD` with a register in the first place. -/
lemma follows_addRegister (l : Lexeme) :
    Follows ts (do byteOrPairWord .add .add l (← expect ts [.literal, .register]).lexeme)
      (settling labels (do
        return Operands.byteOrPair .add .add l.nibble
          (← Reader.expect [.literal, .register]))) := by
  rw [settling, bind_assoc]
  exact follows_bind (follows_expect _) fun q =>
    follows_settled (byteOrPairWord_eq labels .add .add l q)

lemma follows_add : Follows ts (add ts) (settling labels Operands.add) := by
  rw [settling, Operands.add, bind_assoc]
  refine follows_bind (follows_expect _) fun p => ?_
  obtain ⟨l, line⟩ := p
  cases l with
  | name s =>
      dsimp only
      by_cases hs : s = "I"
      · rw [if_pos hs, if_pos hs]
        exact follows_register .addIndex
      · rw [if_neg hs, if_neg hs]
        exact follows_throw _
  | label s => exact follows_addRegister _
  | instruction s => exact follows_addRegister _
  | register r => exact follows_addRegister _
  | literal v => exact follows_addRegister _

lemma follows_random : Follows ts (random ts) (settling labels Operands.random) := by
  simp only [settling, Operands.random, bind_assoc]
  exact follows_bind (follows_expect _) fun p => follows_bind (follows_expect _) fun q =>
    follows_settled (byteWord_eq .rnd p.lexeme q.lexeme)

lemma follows_draw : Follows ts (draw ts) (settling labels Operands.draw) := by
  simp only [settling, Operands.draw, bind_assoc]
  exact follows_bind (follows_expect _) fun p => follows_bind (follows_expect _) fun q =>
    follows_bind (follows_expect _) fun n =>
      follows_settled (spriteWord_eq p.lexeme q.lexeme n.lexeme)

/-- **Encoding by masks and shifts** does not trap, and gives the word of the instruction. -/
theorem follows_encode (m : Mnemonic) : Follows ts (encode ts labels m) (m.encode labels) := by
  rw [encode_eq]
  cases m with
  | cls => exact follows_pure _
  | ret => exact follows_pure _
  | sys => exact follows_address .sys
  | jp => exact follows_jump
  | call => exact follows_address .call
  | se => exact follows_skip .se .se
  | sne => exact follows_skip .sne .sne
  | ld => exact follows_loads
  | add => exact follows_add
  | or => exact follows_pair .or
  | and => exact follows_pair .and
  | xor => exact follows_pair .xor
  | sub => exact follows_pair .sub
  | shr => exact follows_pair .shr
  | subn => exact follows_pair .subn
  | shl => exact follows_pair .shl
  | rnd => exact follows_random
  | drw => exact follows_draw
  | skp => exact follows_register .skp
  | sknp => exact follows_register .sknp

end Cursor

end Chip8
