/-
Programs that differ in the names of their labels.

A name in a program is a label or one of six special operands, and which of the two depends on
its place. If the labels get other names, distinct ones for distinct labels, and the special
operands keep theirs, nothing changes but the names in the log and in the errors. This is shown for
two programs side by side: every function of the assembler gives alike results on alike arguments.
The lines of the two programs are compared by a relation that is left open here, since nothing but
the line numbers in the log and in the errors depends on them.

* `Renaming`: a map of names that is injective and keeps the special operands.
* `Token.Alike`, `Error.Alike`, `Record.Alike`: tokens, errors and records that differ in names and
  lines only.
* `Reader.Alike`, `Logged.Alike`: readers and logged computations with alike results, closed under
  sequencing.
* `Mnemonic.alike_operands`: reading operands, whatever the name of the instruction.
* `Assembly.alike_step`, `Assembly.alike_run`: one statement, and then all of them.
* `alike_assemble`: **alike programs are assembled alike**.
* `assemble_renamed`: **renaming labels does not change the image**.
-/
import Mathlib.Tactic
import Mathlib.Data.List.Forall2
import Mathlib.Logic.Equiv.Basic
import Chip8.Proofs.Layout

namespace Chip8

/-! ### Renamings -/

/-- The names that mean something else than a label where `LD` or `ADD` admits them. -/
def specialNames : List String := ["I", "DT", "ST", "F", "B", "K"]

/-- A map of names that keeps them apart and leaves the special operands what they are. -/
structure Renaming where
  toFun : String → String
  injective : Function.Injective toFun
  special : ∀ s ∈ specialNames, toFun s = s

namespace Renaming

instance : CoeFun Renaming fun _ => String → String := ⟨toFun⟩

/-- Two labels exchange their names. -/
def swap (a b : String) (ha : a ∉ specialNames) (hb : b ∉ specialNames) : Renaming where
  toFun := Equiv.swap a b
  injective := (Equiv.swap a b).injective
  special := by
    intro s hs
    refine Equiv.swap_apply_of_ne_of_ne ?_ ?_
    · exact fun h => ha (h ▸ hs)
    · exact fun h => hb (h ▸ hs)

/-- What is renamed to a special operand was one. -/
lemma eq_iff_of_mem (r : Renaming) {s t : String} (ht : t ∈ specialNames) : r s = t ↔ s = t := by
  refine ⟨fun h => r.injective ?_, fun h => ?_⟩
  · rw [h, r.special t ht]
  · rw [h, r.special t ht]

end Renaming

/-- A lexeme with its label renamed, if it has one. -/
def Lexeme.rename (r : Renaming) : Lexeme → Lexeme
  | label s => label (r s)
  | instruction s => instruction s
  | register i => register i
  | literal v => literal v
  | name s => name (r s)

/-- A token with its label renamed, if it has one. -/
def Token.rename (r : Renaming) (t : Token) : Token := ⟨t.lexeme.rename r, t.line⟩

namespace Lexeme

variable (r : Renaming) (l : Lexeme)

@[simp] lemma kind_rename : (l.rename r).kind = l.kind := by
  cases l <;> rfl

@[simp] lemma number_rename : (l.rename r).number = l.number := by
  cases l <;> rfl

@[simp] lemma nibble_rename : (l.rename r).nibble = l.nibble := by
  rw [nibble, nibble, number_rename]

@[simp] lemma byte_rename : (l.rename r).byte = l.byte := by
  rw [byte, byte, number_rename]

end Lexeme

/-! The special operands are found under their own names only. -/

lemma RegisterOp.into?_rename (r : Renaming) (s : String) : into? (r s) = into? s := by
  simp only [into?, r.eq_iff_of_mem (by decide : "DT" ∈ specialNames),
    r.eq_iff_of_mem (by decide : "ST" ∈ specialNames),
    r.eq_iff_of_mem (by decide : "F" ∈ specialNames),
    r.eq_iff_of_mem (by decide : "B" ∈ specialNames)]

lemma RegisterOp.outOf?_rename (r : Renaming) (s : String) : outOf? (r s) = outOf? s := by
  simp only [outOf?, r.eq_iff_of_mem (by decide : "DT" ∈ specialNames),
    r.eq_iff_of_mem (by decide : "K" ∈ specialNames),
    r.eq_iff_of_mem (by decide : "I" ∈ specialNames)]

/-! ### Alike tokens, errors and records -/

section

variable (r : Renaming) (lines : Nat → Nat → Prop)

/-- The second token is the first one renamed, on a line that corresponds. -/
structure Token.Alike (t t' : Token) : Prop where
  lexeme : t'.lexeme = t.lexeme.rename r
  line : lines t.line t'.line

/-- The errors of an assembly, the second with names renamed and on a line that corresponds. The
text of a refused operand is that of the operand, so it is renamed if the operand is a name. -/
inductive Error.Alike : Error → Error → Prop
  | unexpectedKind (expected : List Kind) (actual : Kind) {n n' : Nat} (h : lines n n') :
      Alike (.unexpectedKind expected actual n) (.unexpectedKind expected actual n')
  | endOfInput : Alike .endOfInput .endOfInput
  | unknownMnemonic (name : String) {n n' : Nat} (h : lines n n') :
      Alike (.unknownMnemonic name n) (.unknownMnemonic name n')
  | invalidOperand (l : Lexeme) (expected : String) {n n' : Nat} (h : lines n n') :
      Alike (.invalidOperand l.spelling expected n)
        (.invalidOperand (l.rename r).spelling expected n')
  | imageFull (capacity : Nat) : Alike (.imageFull capacity) (.imageFull capacity)
  | undeclaredLabel (name : String) {n n' : Nat} (h : lines n n') :
      Alike (.undeclaredLabel name n) (.undeclaredLabel (r name) n')
  | duplicateLabel (name : String) {n n' : Nat} (h : lines n n') :
      Alike (.duplicateLabel name n) (.duplicateLabel (r name) n')

/-- The records of an assembly, the second with names renamed and on a line that corresponds. -/
inductive Record.Alike : Record → Record → Prop
  | declared (name : String) (address : Word) :
      Alike (.declared name address) (.declared (r name) address)
  | encoded (m : Mnemonic) (w : Word) {n n' : Nat} (h : lines n n') :
      Alike (.encoded n m w) (.encoded n' m w)
  | assembled (bytes : Nat) : Alike (.assembled bytes) (.assembled bytes)

/-- Two outcomes: values that are related, or alike errors. -/
inductive Outcomes {α β : Type} (V : α → β → Prop) : Except Error α → Except Error β → Prop
  | ok {a : α} {b : β} (h : V a b) : Outcomes V (.ok a) (.ok b)
  | error {e e' : Error} (h : e.Alike r lines e') : Outcomes V (.error e) (.error e')

/-- The results of two readers: related values or alike errors, and alike tokens that are left. -/
inductive Reader.Results {α β : Type} (V : α → β → Prop) :
    EStateM.Result Error (List Token) α → EStateM.Result Error (List Token) β → Prop
  | ok {a : α} {b : β} {ts ts' : List Token} (h : V a b)
      (hts : List.Forall₂ (Token.Alike r lines) ts ts') : Results V (.ok a ts) (.ok b ts')
  | error {e e' : Error} {ts ts' : List Token} (h : e.Alike r lines e')
      (hts : List.Forall₂ (Token.Alike r lines) ts ts') : Results V (.error e ts) (.error e' ts')

/-- Two readers whose results correspond on alike tokens. -/
def Reader.Alike {α β : Type} (V : α → β → Prop) (x : Reader α) (y : Reader β) : Prop :=
  ∀ ts ts', List.Forall₂ (Token.Alike r lines) ts ts' → Results r lines V (x ts) (y ts')

/-- Two logged computations with alike records and corresponding outcomes. -/
structure Logged.Alike {α β : Type} (V : α → β → Prop) (x : Logged Record Error α)
    (y : Logged Record Error β) : Prop where
  records : List.Forall₂ (Record.Alike r lines) x.records y.records
  outcome : Outcomes r lines V x.outcome y.outcome

end

variable {r : Renaming} {lines : Nat → Nat → Prop} {α β γ δ : Type} {V : α → β → Prop}
  {U : γ → δ → Prop}

lemma Token.Alike.kind_eq {t t' : Token} (h : t.Alike r lines t') : t'.kind = t.kind := by
  rw [kind, h.lexeme, Lexeme.kind_rename, kind]

/-- A token that is not admitted is refused on the line where it stands, under its new name. -/
lemma Token.Alike.refused {t t' : Token} (h : t.Alike r lines t') (expected : String) :
    (t.refused expected).Alike r lines (t'.refused expected) := by
  rw [Token.refused, Token.refused, spelling, spelling, h.lexeme]
  exact .invalidOperand t.lexeme expected h.line

lemma Token.Alike.require {t t' : Token} (h : t.Alike r lines t') (kinds : List Kind) :
    Outcomes r lines Eq (t.require kinds) (t'.require kinds) := by
  rw [Token.require, Token.require, h.kind_eq]
  split_ifs
  · exact .ok rfl
  · exact .error (.unexpectedKind _ _ h.line)

/-! ### Sequences of alike steps -/

namespace Outcomes

/-- Outcomes with equal values are the same value, if they are values. -/
lemma eq_ok_iff {x y : Except Error α} {a : α} (h : Outcomes r lines Eq x y) :
    y = .ok a ↔ x = .ok a := by
  cases h with
  | ok h => rw [h]
  | error h => simp

lemma exists_error_right {x : Except Error α} {y : Except Error β} {e : Error}
    (h : Outcomes r lines V x y) (hx : x = .error e) :
    ∃ e', y = .error e' ∧ e.Alike r lines e' := by
  cases h with
  | ok h => cases hx
  | error h =>
      cases hx
      exact ⟨_, rfl, h⟩

lemma exists_error_left {x : Except Error α} {y : Except Error β} {e' : Error}
    (h : Outcomes r lines V x y) (hy : y = .error e') : ∃ e, x = .error e ∧ e.Alike r lines e' := by
  cases h with
  | ok h => cases hy
  | error h =>
      cases hy
      exact ⟨_, rfl, h⟩

lemma map {x : Except Error α} {y : Except Error β} {f : α → γ} {g : β → δ}
    (h : Outcomes r lines V x y) (hfg : ∀ a b, V a b → U (f a) (g b)) :
    Outcomes r lines U (x.map f) (y.map g) := by
  cases h with
  | ok h => exact .ok (hfg _ _ h)
  | error h => exact .error h

end Outcomes

namespace Reader

lemma alike_pure {a : α} {b : β} (h : V a b) : Alike r lines V (pure a) (pure b) :=
  fun _ _ hts => .ok h hts

lemma alike_throw {e e' : Error} (h : e.Alike r lines e') :
    Alike r lines V (throw e : Reader α) (throw e' : Reader β) :=
  fun _ _ hts => .error h hts

lemma alike_ofExcept {x : Except Error α} {y : Except Error β} (h : Outcomes r lines V x y) :
    Alike r lines V (ofExcept x : Reader α) (ofExcept y : Reader β) := by
  cases h with
  | ok h => exact alike_pure h
  | error h => exact alike_throw h

lemma alike_next : Alike r lines (Token.Alike r lines) next next := by
  intro ts ts' hts
  cases hts with
  | nil => exact .error .endOfInput .nil
  | cons ht hts => exact .ok ht hts

/-- Sequencing keeps the property: the second parts go on with related values and alike tokens. -/
lemma alike_bind {x : Reader α} {y : Reader β} {f : α → Reader γ} {g : β → Reader δ}
    (hxy : Alike r lines V x y) (hfg : ∀ a b, V a b → Alike r lines U (f a) (g b)) :
    Alike r lines U (x >>= f) (y >>= g) := by
  intro ts ts' hts
  have h := hxy ts ts' hts
  simp only [bind, EStateM.bind]
  generalize x ts = u at h ⊢
  generalize y ts' = v at h ⊢
  cases h with
  | ok h hrest => exact hfg _ _ h _ _ hrest
  | error h hrest => exact .error h hrest

lemma alike_map {x : Reader α} {y : Reader β} {f : α → γ} {g : β → δ}
    (hxy : Alike r lines V x y) (hfg : ∀ a b, V a b → U (f a) (g b)) :
    Alike r lines U (f <$> x) (g <$> y) := by
  intro ts ts' hts
  have h := hxy ts ts' hts
  simp only [Functor.map, EStateM.map]
  generalize x ts = u at h ⊢
  generalize y ts' = v at h ⊢
  cases h with
  | ok h hrest => exact .ok (hfg _ _ h) hrest
  | error h hrest => exact .error h hrest

lemma alike_expect (kinds : List Kind) :
    Alike r lines (Token.Alike r lines) (expect kinds) (expect kinds) :=
  alike_bind alike_next fun _ _ ht =>
    alike_bind (alike_ofExcept (ht.require kinds)) fun _ _ _ => alike_pure ht

end Reader

namespace Logged

lemma alike_pure {a : α} {b : β} (h : V a b) :
    Alike r lines V (pure a : Logged Record Error α) (pure b : Logged Record Error β) :=
  ⟨.nil, .ok h⟩

lemma alike_ofExcept {x : Except Error α} {y : Except Error β} (h : Outcomes r lines V x y) :
    Alike r lines V (ofExcept x) (ofExcept y) :=
  ⟨.nil, h⟩

lemma alike_record {a b : Record} (h : a.Alike r lines b) :
    Alike r lines Eq (record a) (record b) :=
  ⟨.cons h .nil, .ok rfl⟩

lemma alike_bind {x : Logged Record Error α} {y : Logged Record Error β}
    {f : α → Logged Record Error γ} {g : β → Logged Record Error δ} (hxy : Alike r lines V x y)
    (hfg : ∀ a b, V a b → Alike r lines U (f a) (g b)) :
    Alike r lines U (x >>= f) (y >>= g) := by
  obtain ⟨rs, u⟩ := x
  obtain ⟨rs', v⟩ := y
  obtain ⟨hrecords, houtcome⟩ := hxy
  cases houtcome with
  | ok h =>
      have hnext := hfg _ _ h
      rw [bind_of_ok rfl, bind_of_ok rfl]
      exact ⟨List.rel_append hrecords hnext.records, hnext.outcome⟩
  | error h =>
      rw [bind_of_error rfl, bind_of_error rfl]
      exact ⟨hrecords, .error h⟩

end Logged

/-! ### Reading alike operands -/

section

variable (r lines)

/-- A literal address, or a label and the same one renamed. -/
inductive Target.Alike : Target → Target → Prop
  | literal (nnn : BitVec 12) : Alike (.literal nnn) (.literal nnn)
  | label (name : String) {n n' : Nat} (h : lines n n') : Alike (.label name n) (.label (r name) n')

/-- Instructions that differ in their targets only, which are alike. -/
inductive Instruction.Alike : Instruction Target → Instruction Target → Prop
  | address (op : AddressOp) {t t' : Target} (h : t.Alike r lines t') :
      Alike (.address op t) (.address op t')
  | other {i : Instruction Target} (h : ∀ op t, i ≠ .address op t) : Alike i i

end

lemma Token.Alike.ofToken {t t' : Token} (h : t.Alike r lines t') :
    (Target.ofToken t).Alike r lines (Target.ofToken t') := by
  rw [Target.ofToken, Target.ofToken, h.lexeme]
  cases hl : t.lexeme with
  | name s => exact .label s h.line
  | label | instruction | register | literal => exact .literal _

namespace Operands

open Reader

lemma alike_byteOrPair (b : ByteOp) (op : PairOp) (x : BitVec 4) {q q' : Token}
    (h : q.Alike r lines q') :
    (byteOrPair b op x q).Alike r lines (byteOrPair b op x q') := by
  have hsame : byteOrPair b op x q' = byteOrPair b op x q := by
    rw [byteOrPair, byteOrPair, h.lexeme]
    cases q.lexeme <;> rfl
  rw [hsame]
  refine .other fun op' t => ?_
  rw [byteOrPair]
  split <;> simp

/-- `LD` looks at the names of its operands: they are special in both programs or in neither. -/
lemma alike_load {p p' q q' : Token} (hp : p.Alike r lines p') (hq : q.Alike r lines q') :
    Outcomes r lines (Instruction.Alike r lines) (load p q) (load p' q') := by
  rw [load, load, hp.lexeme]
  cases hl : p.lexeme with
  | name s =>
      simp only [Lexeme.rename, r.eq_iff_of_mem (by decide : "I" ∈ specialNames),
        RegisterOp.into?_rename]
      split_ifs with hI
      · rw [hq.lexeme]
        cases hlq : q.lexeme with
        | register i => exact .ok (.other (by simp))
        | label | instruction | literal | name => exact .ok (.address .ldI hq.ofToken)
      · cases RegisterOp.into? s with
        | none => exact .error (hp.refused _)
        | some op =>
            refine (hq.require [.register]).map fun _ _ _ => ?_
            rw [hq.lexeme, Lexeme.nibble_rename]
            exact .other (by simp)
  | label | instruction | register | literal =>
      simp only [Lexeme.rename]
      rw [hq.lexeme]
      cases hlq : q.lexeme with
      | name s =>
          simp only [Lexeme.rename, RegisterOp.outOf?_rename]
          cases RegisterOp.outOf? s with
          | none => exact .error (hq.refused _)
          | some op => exact .ok (.other (by simp))
      | label | instruction | register | literal =>
          exact .ok (alike_byteOrPair _ _ _ hq)

/-! Readers of operands that are put together from expectations. -/

lemma alike_address (op : AddressOp) :
    Alike r lines (Instruction.Alike r lines) (address op) (address op) :=
  alike_bind (alike_expect _) fun _ _ ht => alike_pure (.address op ht.ofToken)

lemma alike_register (op : RegisterOp) :
    Alike r lines (Instruction.Alike r lines) (register op) (register op) := by
  refine alike_bind (alike_expect _) fun t t' ht => alike_pure ?_
  rw [ht.lexeme, Lexeme.nibble_rename]
  exact .other (by simp)

lemma alike_pair (op : PairOp) :
    Alike r lines (Instruction.Alike r lines) (pair op) (pair op) := by
  refine alike_bind (alike_expect _) fun p p' hp => ?_
  refine alike_bind (alike_expect _) fun q q' hq => alike_pure ?_
  rw [hp.lexeme, hq.lexeme, Lexeme.nibble_rename, Lexeme.nibble_rename]
  exact .other (by simp)

lemma alike_skip (b : ByteOp) (op : PairOp) :
    Alike r lines (Instruction.Alike r lines) (skip b op) (skip b op) := by
  refine alike_bind (alike_expect _) fun p p' hp => ?_
  refine alike_bind (alike_expect _) fun q q' hq => alike_pure ?_
  rw [hp.lexeme, Lexeme.nibble_rename]
  exact alike_byteOrPair b op _ hq

lemma alike_jump : Alike r lines (Instruction.Alike r lines) jump jump := by
  refine alike_bind (alike_expect _) fun t t' ht => ?_
  rw [ht.lexeme]
  cases t.lexeme with
  | register i =>
      simp only [Lexeme.rename]
      split_ifs
      · exact alike_address .jpV0
      · exact alike_throw (ht.refused "V0")
  | label | instruction | literal | name => exact alike_pure (.address .jp ht.ofToken)

lemma alike_loads : Alike r lines (Instruction.Alike r lines) loads loads :=
  alike_bind (alike_expect _) fun _ _ hp =>
    alike_bind (alike_expect _) fun _ _ hq => alike_ofExcept (alike_load hp hq)

lemma alike_add : Alike r lines (Instruction.Alike r lines) Operands.add Operands.add := by
  refine alike_bind (alike_expect _) fun p p' hp => ?_
  rw [hp.lexeme]
  cases p.lexeme with
  | name s =>
      simp only [Lexeme.rename, r.eq_iff_of_mem (by decide : "I" ∈ specialNames)]
      split_ifs
      · exact alike_register .addIndex
      · exact alike_throw (hp.refused "I")
  | label | instruction | register | literal =>
      exact alike_bind (alike_expect _) fun _ _ hq => alike_pure (alike_byteOrPair _ _ _ hq)

lemma alike_random : Alike r lines (Instruction.Alike r lines) random random := by
  refine alike_bind (alike_expect _) fun p p' hp => ?_
  refine alike_bind (alike_expect _) fun q q' hq => alike_pure ?_
  rw [hp.lexeme, hq.lexeme, Lexeme.nibble_rename, Lexeme.byte_rename]
  exact .other (by simp)

lemma alike_draw : Alike r lines (Instruction.Alike r lines) draw draw := by
  refine alike_bind (alike_expect _) fun p p' hp => ?_
  refine alike_bind (alike_expect _) fun q q' hq => ?_
  refine alike_bind (alike_expect _) fun n n' hn => alike_pure ?_
  rw [hp.lexeme, hq.lexeme, hn.lexeme]
  simp only [Lexeme.nibble_rename]
  exact .other (by simp)

end Operands

open Reader Operands in
/-- **Reading alike operands** gives alike instructions, whatever the name. -/
theorem Mnemonic.alike_operands :
    ∀ m : Mnemonic, Alike r lines (Instruction.Alike r lines) m.operands m.operands
  | .cls | .ret => alike_pure (.other (by simp))
  | .sys | .call => alike_address _
  | .jp => alike_jump
  | .se | .sne => alike_skip _ _
  | .ld => alike_loads
  | .add => alike_add
  | .or | .and | .xor | .sub | .shr | .subn | .shl => alike_pair _
  | .rnd => alike_random
  | .drw => alike_draw
  | .skp | .sknp => alike_register _

/-! ### Reading alike programs -/

section

variable (r lines)

/-- Statements that are alike: a label and the same one renamed, the same byte, instructions with
alike targets. -/
inductive Statement.Alike : Statement → Statement → Prop
  | label (name : String) {n n' : Nat} (h : lines n n') :
      Alike (.label name n) (.label (r name) n')
  | data (b : BitVec 8) : Alike (.data b) (.data b)
  | instruction {i i' : Instruction Target} {n n' : Nat} (hi : i.Alike r lines i')
      (h : lines n n') : Alike (.instruction i n) (.instruction i' n')

/-- Programs with alike statements, which stop with alike errors or not at all. -/
structure Program.Alike (p p' : Program) : Prop where
  statements : List.Forall₂ (Statement.Alike r lines) p.statements p'.statements
  stop : Option.Rel (Error.Alike r lines) p.stop p'.stop

end

lemma Statement.alike_after {t t' : Token} (h : t.Alike r lines t') :
    Reader.Alike r lines (Statement.Alike r lines) (after t) (after t') := by
  obtain ⟨l, line⟩ := t
  obtain ⟨l', line'⟩ := t'
  obtain ⟨rfl, hline⟩ := h
  cases l with
  | label s => exact Reader.alike_pure (.label s hline)
  | literal v => exact Reader.alike_pure (.data _)
  | instruction s =>
      simp only [after, Lexeme.rename]
      cases Mnemonic.ofName? s with
      | none => exact Reader.alike_throw (.unknownMnemonic s hline)
      | some m => exact Reader.alike_map m.alike_operands fun i i' hi => .instruction hi hline
  | register | name => exact Reader.alike_throw (.unexpectedKind _ _ hline)

lemma Statement.alike_read :
    Reader.Alike r lines (Statement.Alike r lines) Statement.read Statement.read :=
  Reader.alike_bind Reader.alike_next fun _ _ ht => alike_after ht

/-- Alike tokens are read as alike programs. -/
lemma Program.alike_read {ts ts' : List Token} (h : List.Forall₂ (Token.Alike r lines) ts ts') :
    (Program.read ts).Alike r lines (Program.read ts') := by
  -- by induction on the number of tokens: a statement takes at least one of them
  induction hn : ts.length using Nat.strong_induction_on generalizing ts ts' with
  | _ n ih =>
    cases h with
    | nil =>
        rw [Program.read_nil]
        exact ⟨.nil, .none⟩
    | @cons t t' us us' ht hus =>
        have hread := Statement.alike_read (t :: us) (t' :: us') (.cons ht hus)
        cases hs : Statement.read (t :: us) with
        | error e rest =>
            cases hs' : Statement.read (t' :: us') with
            | ok s' rest' =>
                rw [hs, hs'] at hread
                cases hread
            | error e' rest' =>
                rw [hs, hs'] at hread
                obtain _ | ⟨he, -⟩ := hread
                rw [read_of_error (List.cons_ne_nil t us) hs,
                  read_of_error (List.cons_ne_nil t' us') hs']
                exact ⟨.nil, .some he⟩
        | ok s rest =>
            cases hs' : Statement.read (t' :: us') with
            | error e' rest' =>
                rw [hs, hs'] at hread
                cases hread
            | ok s' rest' =>
                rw [hs, hs'] at hread
                obtain ⟨hss, hrest⟩ | _ := hread
                have hlt : rest.length < n := hn ▸ Statement.read_shorter hs
                obtain ⟨hstatements, hstop⟩ := ih _ hlt hrest rfl
                rw [read_of_ok hs, read_of_ok hs']
                exact ⟨.cons hss hstatements, hstop⟩

/-! ### Carrying out alike statements -/

section

variable (r)

/-- The labels of the second table are those of the first one renamed. It may have further ones,
under names that no label is renamed to. -/
def Labels.Alike (labels labels' : Labels) : Prop :=
  ∀ name, labels'.find? (r name) = labels.find? name

/-- States with the same image, the labels renamed. -/
structure Assembly.Alike (a a' : Assembly) : Prop where
  labels : a.labels.Alike r a'.labels
  image : a'.image = a.image

end

/-- A label is declared in both tables or in neither: an injective map takes no two names to one. -/
lemma Labels.Alike.declare {labels labels' : Labels} (h : labels.Alike r labels')
    (name : String) (address : Word) {n n' : Nat} (hn : lines n n') :
    Outcomes r lines (Labels.Alike r) (labels.declare name address n)
      (labels'.declare (r name) address n') := by
  cases hd : labels.declare name address n with
  | error e =>
      rw [Labels.declare] at hd
      cases hfind : labels.find? name with
      | none =>
          rw [hfind] at hd
          cases hd
      | some a =>
          rw [hfind] at hd
          cases hd
          rw [Labels.declare, h name, hfind]
          exact .error (.duplicateLabel name hn)
  | ok t =>
      have hnew : labels'.find? (r name) = none :=
        (h name).trans (declare_eq_ok_iff.mp hd).1
      have hd' : labels'.declare (r name) address n' = .ok _ := declare_eq_ok_iff.mpr ⟨hnew, rfl⟩
      rw [hd']
      refine .ok fun other => ?_
      rw [find?_of_declare hd', find?_of_declare hd, h other]
      simp only [r.injective.eq_iff]

/-- A label is found in both tables, with the same address, or in neither. -/
lemma Labels.Alike.resolve {labels labels' : Labels} (h : labels.Alike r labels')
    (name : String) {n n' : Nat} (hn : lines n n') :
    Outcomes r lines Eq (labels.resolve name n) (labels'.resolve (r name) n') := by
  rw [Labels.resolve, Labels.resolve, h name]
  cases labels.find? name with
  | none => exact .error (.undeclaredLabel name hn)
  | some a => exact .ok rfl

lemma Labels.Alike.resolve_instruction {labels labels' : Labels} (h : labels.Alike r labels')
    {i i' : Instruction Target} (hi : i.Alike r lines i') :
    Outcomes r lines Eq (i.resolve labels) (i'.resolve labels') := by
  cases hi with
  | address op ht =>
      refine Outcomes.map (V := Eq) ?_ fun a b hab => hab ▸ rfl
      cases ht with
      | literal nnn => exact .ok rfl
      | label name hn => exact (h.resolve name hn).map fun a b hab => hab ▸ rfl
  | other hother =>
      cases i with
      | address op t => exact absurd rfl (hother op t)
      | fixed | byte | pair | sprite | register => exact .ok rfl

/-- Alike instructions have the same name. -/
lemma Instruction.Alike.mnemonic_eq {i i' : Instruction Target} (h : i.Alike r lines i') :
    i'.mnemonic = i.mnemonic := by
  cases h <;> rfl

namespace Assembly

variable {a a' : Assembly}

lemma Alike.here_eq (h : a.Alike r a') : a'.here = a.here := by
  rw [here, here, h.image]

lemma Alike.write (h : a.Alike r a') (bs : List UInt8) :
    Outcomes r lines (Alike r) (a.write bs) (a'.write bs) := by
  rw [Assembly.write, Assembly.write, h.image]
  cases happend : a.image.append bs with
  | ok image => exact .ok ⟨h.labels, rfl⟩
  | error e =>
      obtain ⟨-, rfl⟩ := Image.append_eq_error_iff.mp happend
      exact .error (.imageFull _)

/-- **A step.** Alike statements have alike effects on alike states. -/
theorem alike_step (h : a.Alike r a') {s s' : Statement} (hs : s.Alike r lines s') :
    Logged.Alike r lines (Alike r) (a.step s) (a'.step s') := by
  cases hs with
  | label name hn =>
      rw [step, step, h.here_eq]
      refine Logged.alike_bind (Logged.alike_ofExcept (h.labels.declare name _ hn)) ?_
      intro labels labels' hlabels
      refine Logged.alike_bind (Logged.alike_record (.declared name _)) fun _ _ _ => ?_
      exact Logged.alike_pure ⟨hlabels, h.image⟩
  | data b => exact Logged.alike_ofExcept (h.write _)
  | instruction hi hn =>
      refine Logged.alike_bind (Logged.alike_ofExcept (h.labels.resolve_instruction hi)) ?_
      rintro i _ rfl
      rw [hi.mnemonic_eq]
      refine Logged.alike_bind (Logged.alike_record (.encoded _ _ hn)) fun _ _ _ => ?_
      exact Logged.alike_ofExcept (h.write _)

/-- **A run.** Alike statements, one after the other, have alike effects. -/
theorem alike_run {ss ss' : List Statement} (hss : List.Forall₂ (Statement.Alike r lines) ss ss')
    (h : a.Alike r a') : Logged.Alike r lines (Alike r) (a.run ss) (a'.run ss') := by
  induction hss generalizing a a' with
  | nil => exact Logged.alike_pure h
  | cons hs _ ih => exact Logged.alike_bind (alike_step h hs) fun b b' hb => ih hb

end Assembly

lemma Program.Alike.assemble {p p' : Program} (h : p.Alike r lines p') :
    Logged.Alike r lines Eq p.assemble p'.assemble := by
  have hstart : Assembly.start.Alike r Assembly.start := ⟨fun _ => rfl, rfl⟩
  obtain ⟨ss, stop⟩ := p
  obtain ⟨ss', stop'⟩ := p'
  obtain ⟨hstatements, hstop⟩ := h
  refine Logged.alike_bind (Assembly.alike_run hstatements hstart) fun a a' ha => ?_
  rw [ha.image]
  cases hstop with
  | some he => exact Logged.alike_ofExcept (.error he)
  | none =>
      refine Logged.alike_bind (Logged.alike_record (.assembled _)) fun _ _ _ => ?_
      exact Logged.alike_pure rfl

/-- **Alike programs are assembled alike**: to the same image or with alike errors, and with alike
records. -/
theorem alike_assemble {ts ts' : List Token} (h : List.Forall₂ (Token.Alike r lines) ts ts') :
    Logged.Alike r lines Eq (assemble ts) (assemble ts') :=
  (Program.alike_read h).assemble

/-! ### Renaming the labels of a program -/

lemma Token.alike_rename (r : Renaming) (t : Token) : t.Alike r Eq (t.rename r) := ⟨rfl, rfl⟩

/-- **Renaming labels does not change the image.** A program with its labels renamed is assembled
if and only if the program is, to the same image. If one of them fails the other does, with the same
error on the same line but for the names in it. -/
theorem assemble_renamed (r : Renaming) (ts : List Token) :
    (∀ i, (assemble (ts.map (Token.rename r))).outcome = .ok i ↔ (assemble ts).outcome = .ok i) ∧
    (∀ e, (assemble ts).outcome = .error e →
      ∃ e', (assemble (ts.map (Token.rename r))).outcome = .error e' ∧ e.Alike r Eq e') ∧
    (∀ e', (assemble (ts.map (Token.rename r))).outcome = .error e' →
      ∃ e, (assemble ts).outcome = .error e ∧ e.Alike r Eq e') ∧
    List.Forall₂ (Record.Alike r Eq) (assemble ts).records
      (assemble (ts.map (Token.rename r))).records := by
  have htokens : List.Forall₂ (Token.Alike r Eq) ts (ts.map (Token.rename r)) := by
    rw [List.forall₂_map_right_iff, List.forall₂_same]
    intro t _
    exact t.alike_rename r
  obtain ⟨hrecords, houtcome⟩ := alike_assemble htokens
  refine ⟨fun i => houtcome.eq_ok_iff, ?_, ?_, hrecords⟩
  · intro e he
    exact houtcome.exists_error_right he
  · intro e' he'
    exact houtcome.exists_error_left he'

-- a renaming, and a name that it takes to another
example : Token.rename (.swap "loop" "end" (by decide) (by decide)) ⟨.name "loop", 3⟩ =
    ⟨.name "end", 3⟩ := by decide

end Chip8
