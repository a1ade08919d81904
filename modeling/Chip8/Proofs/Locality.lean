/-
Readers that do not look ahead.

A reader takes tokens from the front. What it does with them does not depend on the tokens that it
leaves, so with more tokens behind it succeeds with the same value or fails with the same error.
Only where it has run out of tokens do the next ones make a difference. The readers of operands are
put together from readers of this kind.

* `Error.IsOfOperand`: the errors that are about a token in the place of an operand.
* `Reader.Local`: a reader that does not look ahead, and whose errors are of this kind.
* `Mnemonic.local_operands`, `Mnemonic.local_encode`: **reading operands and encoding them is
  local**, whatever the name.
-/
import Mathlib.Tactic
import Chip8.Instruction.Operands

namespace Chip8

/-- The errors about an operand that is there: it has the wrong kind, or its instruction does not
admit it, or it is a label that is not declared. -/
def Error.IsOfOperand : Error → Prop
  | .unexpectedKind _ _ _ | .invalidOperand _ _ _ | .undeclaredLabel _ _ => True
  | .unreadable _ _ | .endOfInput | .unknownMnemonic _ _ | .imageFull _ | .duplicateLabel _ _ =>
    False

/-! ### Local readers -/

namespace Reader

variable {α β : Type}

/-- A reader is local if more tokens behind those that it has are left as they are: it succeeds
with the same value, or it fails with the same error about an operand, unless it has run out of
tokens. -/
def Local (r : Reader α) : Prop :=
  ∀ ts us, (∃ a rest, r ts = .ok a rest ∧ r (ts ++ us) = .ok a (rest ++ us)) ∨
    (∃ e rest, e.IsOfOperand ∧ r ts = .error e rest ∧ r (ts ++ us) = .error e (rest ++ us)) ∨
    r ts = .error .endOfInput []

lemma local_pure (a : α) : Local (pure a) := fun ts _ => .inl ⟨a, ts, rfl, rfl⟩

lemma local_throw {e : Error} (he : e.IsOfOperand) : Local (throw e : Reader α) :=
  fun ts _ => .inr (.inl ⟨e, ts, he, rfl, rfl⟩)

lemma local_ofExcept {x : Except Error α} (hx : ∀ e, x = .error e → e.IsOfOperand) :
    Local (ofExcept x : Reader α) := by
  cases x with
  | ok a => exact local_pure a
  | error e => exact local_throw (hx e rfl)

lemma local_next : Local next
  | [], _ => .inr (.inr rfl)
  | t :: ts, _ => .inl ⟨t, ts, rfl, rfl⟩

/-- Sequencing keeps the property: what the first part leaves has the further tokens behind it. -/
lemma local_bind {r : Reader α} {f : α → Reader β} (hr : Local r) (hf : ∀ a, Local (f a)) :
    Local (r >>= f) := by
  intro ts us
  simp only [bind, EStateM.bind]
  rcases hr ts us with ⟨a, rest, h, h'⟩ | ⟨e, rest, he, h, h'⟩ | h
  · rw [h, h']
    exact hf a rest us
  · rw [h, h']
    exact .inr (.inl ⟨e, rest, he, rfl, rfl⟩)
  · rw [h]
    exact .inr (.inr rfl)

lemma isOfOperand_of_require {t : Token} {kinds : List Kind} {e : Error}
    (h : t.require kinds = .error e) : e.IsOfOperand := by
  rw [Token.require] at h
  split_ifs at h
  cases h
  trivial

lemma local_expect (kinds : List Kind) : Local (expect kinds) :=
  local_bind local_next fun t =>
    local_bind (local_ofExcept fun _ => isOfOperand_of_require) fun _ => local_pure t

end Reader

namespace Operands

open Reader

lemma local_address (op : AddressOp) : Local (address op) :=
  local_bind (local_expect _) fun _ => local_pure _

lemma local_register (op : RegisterOp) : Local (register op) :=
  local_bind (local_expect _) fun _ => local_pure _

lemma local_pair (op : PairOp) : Local (pair op) :=
  local_bind (local_expect _) fun _ => local_bind (local_expect _) fun _ => local_pure _

lemma local_skip (b : ByteOp) (op : PairOp) : Local (skip b op) :=
  local_bind (local_expect _) fun _ => local_bind (local_expect _) fun _ => local_pure _

lemma local_jump : Local jump := by
  refine local_bind (local_expect _) fun t => ?_
  split
  · split_ifs
    · exact local_address _
    · exact local_throw trivial
  · exact local_pure _

/-- The operands of `LD` are refused for what they are. -/
lemma isOfOperand_of_load {p q : Token} {e : Error} (h : load p q = .error e) :
    e.IsOfOperand := by
  rw [load] at h
  split at h
  · split_ifs at h
    · split at h <;> cases h
    · split at h
      · cases hq : q.require [.register] with
        | ok _ =>
            rw [hq] at h
            cases h
        | error e' =>
            rw [hq] at h
            cases h
            exact isOfOperand_of_require hq
      · cases h
        trivial
  · split at h
    · split at h
      · cases h
      · cases h
        trivial
    · cases h

lemma local_loads : Local loads :=
  local_bind (local_expect _) fun _ => local_bind (local_expect _) fun _ =>
    local_ofExcept fun _ => isOfOperand_of_load

lemma local_add : Local Operands.add := by
  refine local_bind (local_expect _) fun p => ?_
  split
  · split_ifs
    · exact local_register _
    · exact local_throw trivial
  · exact local_bind (local_expect _) fun _ => local_pure _

lemma local_random : Local random :=
  local_bind (local_expect _) fun _ => local_bind (local_expect _) fun _ => local_pure _

lemma local_draw : Local draw :=
  local_bind (local_expect _) fun _ => local_bind (local_expect _) fun _ =>
    local_bind (local_expect _) fun _ => local_pure _

end Operands

open Reader Operands in
/-- Reading operands is local, whatever the name. -/
lemma Mnemonic.local_operands : ∀ m : Mnemonic, Local m.operands
  | .cls | .ret => local_pure _
  | .sys | .call => local_address _
  | .jp => local_jump
  | .se | .sne => local_skip _ _
  | .ld => local_loads
  | .add => local_add
  | .or | .and | .xor | .sub | .shr | .subn | .shl => local_pair _
  | .rnd => local_random
  | .drw => local_draw
  | .skp | .sknp => local_register _

/-- A label that is not declared is an error about an operand. -/
lemma Instruction.isOfOperand_of_resolve {labels : Labels} {i : Instruction Target} {e : Error}
    (h : i.resolve labels = .error e) : e.IsOfOperand := by
  cases i with
  | address op t =>
      cases t with
      | literal nnn => cases h
      | label name line =>
          rw [resolve, Target.resolve, Labels.resolve] at h
          cases hfind : labels.find? name with
          | none =>
              rw [hfind] at h
              cases h
              trivial
          | some a =>
              rw [hfind] at h
              cases h
  | _ => cases h

/-- **Encoding is local**: an instruction takes its operands and looks no further. -/
theorem Mnemonic.local_encode (m : Mnemonic) (labels : Labels) : Reader.Local (m.encode labels) :=
  Reader.local_bind m.local_operands fun _ =>
    Reader.local_bind (Reader.local_ofExcept fun _ => Instruction.isOfOperand_of_resolve) fun _ =>
      Reader.local_pure _

/-- Encoding fails for the end of the tokens, or for an operand. -/
lemma Mnemonic.isOfOperand_of_encode {m : Mnemonic} {labels : Labels} {ts rest : List Token}
    {e : Error} (h : m.encode labels ts = .error e rest) : e = .endOfInput ∨ e.IsOfOperand := by
  rcases m.local_encode labels ts [] with ⟨w, left, hw, -⟩ | ⟨e', left, he, hw, -⟩ | hw
  · rw [h] at hw
    cases hw
  · rw [h] at hw
    cases hw
    exact .inr he
  · rw [h] at hw
    cases hw
    exact .inl rfl

end Chip8
