/-
Prefixes of a token list.

An assembly goes through its tokens once and never looks ahead. So what comes later cannot change
a byte that has been written or an error that has been found. There is one exception: a token list
may end where an operand is due, and then the next tokens decide.

* `Mnemonic.Awaits`: the operands after which an instruction waits for one more.
* `Mnemonic.encode_eq_endOfInput_iff`: encoding runs out of tokens exactly with these.
* `Layout.Fails.append`: a failure stays what it is, unless it is for the end of the tokens.
* `assemble_prefix`: **the prefixes of a token list**. An error of a prefix is the error of the
  whole, the image of a prefix is a prefix of the image, and otherwise the prefix ends where an
  operand is due.
-/
import Mathlib.Tactic
import Chip8.Proofs.Locality
import Chip8.Proofs.Tracing

namespace Chip8

/-! ### Running out of tokens -/

/-- The operands that an instruction takes before it waits for one more. Each of them is admitted
in its place, with an exception: the first operand of `LD` is looked at only after the second. -/
def Mnemonic.Awaits (m : Mnemonic) (ops : List Token) : Prop :=
  match m with
  | .cls | .ret => False
  | .sys | .call | .skp | .sknp => ops = []
  | .jp => ops = [] ∨ ∃ t, ops = [t] ∧ t.kind = .register ∧ t.lexeme.nibble = 0#4
  | .ld => ops = [] ∨ ∃ t, ops = [t] ∧ (t.kind = .register ∨ t.kind = .name)
  | .add => ops = [] ∨ ∃ t, ops = [t] ∧ (t.kind = .register ∨ t.lexeme = .name "I")
  | .se | .sne | .or | .and | .xor | .sub | .shr | .subn | .shl | .rnd =>
    ops = [] ∨ ∃ t, ops = [t] ∧ t.kind = .register
  | .drw =>
    ops = [] ∨ (∃ t, ops = [t] ∧ t.kind = .register) ∨
      ∃ t u, ops = [t, u] ∧ t.kind = .register ∧ u.kind = .register

namespace Reader

variable {α β : Type} {ts rest : List Token}

lemma pure_ne_error {a : α} {e : Error} : (pure a : Reader α) ts ≠ .error e rest := by
  intro h
  cases h

lemma throw_ne_endOfInput {e : Error} (he : e.IsOfOperand) :
    (throw e : Reader α) ts ≠ .error .endOfInput rest := by
  intro h
  cases h
  exact he

/-- A token that is refused is there. -/
lemma refused_ne_endOfInput {t : Token} {expected : String} :
    (throw (t.refused expected) : Reader α) ts ≠ .error .endOfInput rest :=
  throw_ne_endOfInput trivial

lemma ofExcept_ne_endOfInput {x : Except Error α} (hx : ∀ {e}, x = .error e → e.IsOfOperand) :
    (ofExcept x : Reader α) ts ≠ .error .endOfInput rest := by
  cases x with
  | ok a => exact pure_ne_error
  | error e => exact throw_ne_endOfInput (hx rfl)

/-- Expecting and going on runs out of tokens if there are none, or if the first is admitted and
the others run out. -/
lemma expect_bind_eq_endOfInput_iff {kinds : List Kind} {f : Token → Reader β} :
    (expect kinds >>= f) ts = .error .endOfInput rest ↔
      (ts = [] ∧ rest = []) ∨
        ∃ t us, ts = t :: us ∧ t.kind ∈ kinds ∧ f t us = .error .endOfInput rest := by
  rw [bind_eq_error_iff]
  cases ts with
  | nil => simp [expect_nil, eq_comm]
  | cons t us =>
      rw [expect_cons]
      split_ifs with hk <;> simp [hk]

/-- The last operand: there is no token. -/
lemma expect_last_eq_endOfInput_iff {kinds : List Kind} {f : Token → Reader β}
    (hf : ∀ t us, f t us ≠ .error .endOfInput rest) :
    (expect kinds >>= f) ts = .error .endOfInput rest ↔ ts = [] ∧ rest = [] := by
  rw [expect_bind_eq_endOfInput_iff]
  simp [hf]

/-- The last operand but one: there is no token, or there is one for which a second is due. -/
lemma expect_bind_eq_endOfInput_iff_of {kinds : List Kind} {f : Token → Reader β} {P : Token → Prop}
    (hf : ∀ t us, t.kind ∈ kinds →
      (f t us = .error .endOfInput rest ↔ P t ∧ us = [] ∧ rest = [])) :
    (expect kinds >>= f) ts = .error .endOfInput rest ↔
      (ts = [] ∨ ∃ t, ts = [t] ∧ t.kind ∈ kinds ∧ P t) ∧ rest = [] := by
  rw [expect_bind_eq_endOfInput_iff]
  refine ⟨fun h => ?_, fun h => ?_⟩
  · rcases h with ⟨rfl, hrest⟩ | ⟨t, us, rfl, hk, h⟩
    · exact ⟨.inl rfl, hrest⟩
    · obtain ⟨ht, rfl, hrest⟩ := (hf t us hk).mp h
      exact ⟨.inr ⟨t, rfl, hk, ht⟩, hrest⟩
  · rcases h with ⟨rfl | ⟨t, rfl, hk, ht⟩, hrest⟩
    · exact .inl ⟨rfl, hrest⟩
    · exact .inr ⟨t, [], rfl, hk, (hf t [] hk).mpr ⟨ht, rfl, hrest⟩⟩

/-- Two operands of which the first is admitted for its kind alone. -/
lemma expect_expect_eq_endOfInput_iff {kinds kinds' : List Kind} {f : Token → Token → Reader β}
    (hf : ∀ p q us, f p q us ≠ .error .endOfInput rest) :
    (expect kinds >>= fun p => expect kinds' >>= f p) ts = .error .endOfInput rest ↔
      (ts = [] ∨ ∃ t, ts = [t] ∧ t.kind ∈ kinds) ∧ rest = [] := by
  refine (expect_bind_eq_endOfInput_iff_of (P := fun _ => True) fun p us _ => ?_).trans (by simp)
  rw [true_and]
  exact expect_last_eq_endOfInput_iff (hf p)

end Reader

namespace Operands

open Reader

variable {ts rest : List Token}

lemma address_eq_endOfInput_iff {op : AddressOp} :
    address op ts = .error .endOfInput rest ↔ ts = [] ∧ rest = [] :=
  expect_last_eq_endOfInput_iff fun _ _ => pure_ne_error

lemma register_eq_endOfInput_iff {op : RegisterOp} :
    register op ts = .error .endOfInput rest ↔ ts = [] ∧ rest = [] :=
  expect_last_eq_endOfInput_iff fun _ _ => pure_ne_error

/-- After a register `JP` waits for an address only if the register is `V0`. -/
lemma jump_eq_endOfInput_iff :
    jump ts = .error .endOfInput rest ↔ Mnemonic.Awaits .jp ts ∧ rest = [] := by
  refine (expect_bind_eq_endOfInput_iff_of
    (P := fun t => t.kind = .register ∧ t.lexeme.nibble = 0#4) ?_).trans ?_
  · rintro ⟨l, line⟩ us -
    cases l with
    | register r =>
        by_cases h0 : (Lexeme.register r).nibble = 0#4
        · simp [h0, address_eq_endOfInput_iff, Token.kind, Lexeme.kind]
        · simp [h0, refused_ne_endOfInput]
    | label | instruction | literal | name => simp [pure_ne_error, Token.kind, Lexeme.kind]
  · refine and_congr_left' (or_congr_right (exists_congr fun t => and_congr_right' ?_))
    exact ⟨fun h => h.2, fun h => ⟨by simp [h.1], h⟩⟩

/-- After a name `ADD` waits for a register only if the name is `I`. -/
lemma add_eq_endOfInput_iff :
    Operands.add ts = .error .endOfInput rest ↔ Mnemonic.Awaits .add ts ∧ rest = [] := by
  refine (expect_bind_eq_endOfInput_iff_of
    (P := fun t => t.kind = .register ∨ t.lexeme = .name "I") ?_).trans ?_
  · rintro ⟨l, line⟩ us hk
    cases l with
    | name s =>
        by_cases hs : s = "I"
        · simp [hs, register_eq_endOfInput_iff]
        · simp [hs, refused_ne_endOfInput, Token.kind, Lexeme.kind]
    | register r =>
        refine (expect_last_eq_endOfInput_iff fun _ _ => pure_ne_error).trans ?_
        simp [Token.kind, Lexeme.kind]
    | label | instruction | literal => simp [Token.kind, Lexeme.kind] at hk
  · refine and_congr_left' (or_congr_right (exists_congr fun t => and_congr_right' ?_))
    refine ⟨fun h => h.2, fun h => ⟨?_, h⟩⟩
    rcases h with h | h
    · simp [h]
    · simp [Token.kind, h, Lexeme.kind]

lemma draw_eq_endOfInput_iff :
    draw ts = .error .endOfInput rest ↔ Mnemonic.Awaits .drw ts ∧ rest = [] := by
  rw [draw, expect_bind_eq_endOfInput_iff]
  simp only [expect_expect_eq_endOfInput_iff fun _ _ _ => pure_ne_error, List.mem_singleton]
  refine ⟨fun h => ?_, fun h => ?_⟩
  · rcases h with ⟨rfl, hrest⟩ | ⟨t, us, rfl, ht, rfl | ⟨u, rfl, hu⟩, hrest⟩
    · exact ⟨.inl rfl, hrest⟩
    · exact ⟨.inr (.inl ⟨t, rfl, ht⟩), hrest⟩
    · exact ⟨.inr (.inr ⟨t, u, rfl, ht, hu⟩), hrest⟩
  · rcases h with ⟨rfl | ⟨t, rfl, ht⟩ | ⟨t, u, rfl, ht, hu⟩, hrest⟩
    · exact .inl ⟨rfl, hrest⟩
    · exact .inr ⟨t, [], rfl, ht, .inl rfl, hrest⟩
    · exact .inr ⟨t, [u], rfl, ht, .inr ⟨u, rfl, hu⟩, hrest⟩

end Operands

open Reader Operands in
/-- Reading operands runs out of tokens after those that an instruction takes before it waits, and
takes them all. -/
lemma Mnemonic.operands_eq_endOfInput_iff {m : Mnemonic} {ts rest : List Token} :
    m.operands ts = .error .endOfInput rest ↔ m.Awaits ts ∧ rest = [] := by
  cases m with
  | cls | ret => simp [operands, Awaits, pure_ne_error]
  | sys | call => exact address_eq_endOfInput_iff
  | skp | sknp => exact register_eq_endOfInput_iff
  | jp => exact jump_eq_endOfInput_iff
  | add => exact add_eq_endOfInput_iff
  | drw => exact draw_eq_endOfInput_iff
  | or | and | xor | sub | shr | subn | shl =>
      rw [operands, pair, expect_expect_eq_endOfInput_iff fun _ _ _ => pure_ne_error]
      simp [Awaits]
  | se | sne =>
      rw [operands, skip, expect_expect_eq_endOfInput_iff fun _ _ _ => pure_ne_error]
      simp [Awaits]
  | rnd =>
      rw [operands, random, expect_expect_eq_endOfInput_iff fun _ _ _ => pure_ne_error]
      simp [Awaits]
  | ld =>
      rw [operands, loads, expect_expect_eq_endOfInput_iff fun _ _ _ =>
        ofExcept_ne_endOfInput isOfOperand_of_load]
      simp [Awaits]

/-- **Where encoding runs out of tokens**: after the operands that an instruction takes before it
waits, whatever labels are declared. -/
theorem Mnemonic.encode_eq_endOfInput_iff {m : Mnemonic} {labels : Labels} {ts rest : List Token} :
    m.encode labels ts = .error .endOfInput rest ↔ m.Awaits ts ∧ rest = [] := by
  rw [encode_eq_error_iff, ← operands_eq_endOfInput_iff]
  refine or_iff_left ?_
  rintro ⟨i, -, hi⟩
  exact Instruction.isOfOperand_of_resolve hi

/-! ### Prefixes of a token list -/

/-- A failure stays what it is with more tokens behind, unless it is for the end of the tokens. -/
lemma Layout.Fails.append {segs : List Segment} {ts : List Token} {e : Error} {rs : List Record}
    (h : Fails segs ts e rs) (he : e ≠ .endOfInput) (us : List Token) :
    Fails segs (ts ++ us) e rs := by
  cases h with
  | duplicate hname => exact .duplicate hname
  | dataFull hfull => exact .dataFull hfull
  | stray hkind => exact .stray hkind
  | unknown hm => exact .unknown hm
  | @refused name line m ts rest e hm hw =>
      rcases m.local_encode (labels segs) ts us with ⟨w, left, h, -⟩ | ⟨e', left, -, h, h'⟩ | h
      · rw [hw] at h
        cases h
      · rw [hw] at h
        cases h
        exact .refused hm h'
      · rw [hw] at h
        cases h
        exact absurd rfl he
  | @wordFull name line m ts rest w hm hw hfull =>
      rcases m.local_encode (labels segs) ts us with ⟨w', left, h, h'⟩ | ⟨e', left, -, h, -⟩ | h
      · rw [hw] at h
        cases h
        exact .wordFull hm h' hfull
      · rw [hw] at h
        cases h
      · rw [hw] at h
        cases h

section

variable {ts us : List Token} {e : Error}

lemma Logged.eq_of_outcome {ρ ε α : Type} {m : Logged ρ ε α} {x : Except ε α} (h : m.outcome = x) :
    m = ⟨m.records, x⟩ := by
  rw [← h]

/-- The first error decides, and the log ends with it. -/
lemma assemble_append_of_error (he : e ≠ .endOfInput) (h : (assemble ts).outcome = .error e)
    (us : List Token) : assemble (ts ++ us) = assemble ts := by
  have hfailure := Logged.eq_of_outcome h
  obtain ⟨segs, img, rest, last, rfl, hlay, hf, hrs⟩ := assemble_eq_failure_iff.mp hfailure
  rw [hfailure, List.append_assoc, assemble_of_fails hlay (hf.append he us), hrs]

/-- What is assembled first is not changed by what follows. -/
lemma toList_prefix_of_append {i k : Image} (h : (assemble ts).outcome = .ok i)
    (hk : (assemble (ts ++ us)).outcome = .ok k) : i.toList <+: k.toList := by
  obtain ⟨segs, hlay⟩ := exists_isLayout_of_assemble h
  obtain rfl := hlay.tokens
  obtain ⟨after, post, rest, rfl, hlay', rfl | ⟨e, rs, hf⟩⟩ := Layout.exists_layout_append hlay us
  · obtain ⟨j, hj, hpost⟩ := assemble_of_isLayout hlay'
    rw [List.append_nil, ← List.flatMap_append, hj] at hk
    cases hk
    exact ⟨post, hpost.symm⟩
  · rw [← List.append_assoc, ← List.flatMap_append, assemble_of_fails hlay' hf] at hk
    cases hk

/-- A token list runs out of tokens if and only if it ends with an instruction that waits for an
operand, behind tokens that are assembled. -/
lemma assemble_eq_endOfInput_iff :
    (assemble ts).outcome = .error .endOfInput ↔
      ∃ pre name line ops m i, ts = pre ++ ⟨.instruction name, line⟩ :: ops ∧
        (assemble pre).outcome = .ok i ∧ Mnemonic.ofName? name = some m ∧ m.Awaits ops := by
  refine ⟨fun h => ?_, fun h => ?_⟩
  · obtain ⟨segs, img, rest, last, rfl, hlay, hf, -⟩ :=
      assemble_eq_failure_iff.mp (Logged.eq_of_outcome h)
    obtain ⟨i, hi, -⟩ := assemble_of_isLayout hlay
    cases hf with
    | @refused name line m ops left e hm hw =>
        exact ⟨_, name, line, ops, m, i, rfl, hi, hm, (m.encode_eq_endOfInput_iff.mp hw).1⟩
  · obtain ⟨pre, name, line, ops, m, i, rfl, hi, hm, hops⟩ := h
    obtain ⟨segs, hlay⟩ := exists_isLayout_of_assemble hi
    obtain rfl := hlay.tokens
    have hw : m.encode (Layout.labels segs) ops = .error .endOfInput [] :=
      m.encode_eq_endOfInput_iff.mpr ⟨hops, rfl⟩
    rw [assemble_of_fails hlay (.refused hm hw)]

end

/-- **The prefixes of a token list.** An error that is not for the end of the tokens is the error
of every longer list, with the same log. If a longer list is assembled, the list itself is, and its
image is a prefix, or it runs out of tokens. It does so exactly if it ends with an instruction that
waits for an operand, behind tokens that are assembled; and an instruction waits exactly where
encoding it has taken all tokens, refused none and finds no other. -/
theorem assemble_prefix (ts us : List Token) :
    (∀ e, e ≠ .endOfInput → (assemble ts).outcome = .error e →
      (assemble (ts ++ us)).outcome = .error e ∧
        (assemble (ts ++ us)).records = (assemble ts).records) ∧
    (∀ k, (assemble (ts ++ us)).outcome = .ok k →
      (∃ i, (assemble ts).outcome = .ok i ∧ i.toList <+: k.toList) ∨
        (assemble ts).outcome = .error .endOfInput) ∧
    ((assemble ts).outcome = .error .endOfInput ↔
      ∃ pre name line ops m i, ts = pre ++ ⟨.instruction name, line⟩ :: ops ∧
        (assemble pre).outcome = .ok i ∧ Mnemonic.ofName? name = some m ∧ m.Awaits ops) ∧
    ∀ (m : Mnemonic) labels ops, m.Awaits ops ↔ m.encode labels ops = .error .endOfInput [] := by
  refine ⟨fun e he h => ?_, fun k hk => ?_, assemble_eq_endOfInput_iff, fun m labels ops => ?_⟩
  · rw [assemble_append_of_error he h us]
    exact ⟨h, rfl⟩
  · cases h : (assemble ts).outcome with
    | ok i => exact .inl ⟨i, rfl, toList_prefix_of_append h hk⟩
    | error e =>
        by_cases he : e = .endOfInput
        · exact .inr (by rw [he])
        · rw [assemble_append_of_error he h us, h] at hk
          cases hk
  · rw [m.encode_eq_endOfInput_iff, and_iff_left rfl]

end Chip8
