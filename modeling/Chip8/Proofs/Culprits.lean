/-
The culprit of an error.

Most errors of an assembly name a line and say what is wrong there. That they are right does not
follow from the order in which an assembly looks at its tokens: `LD` takes both operands before it
looks at the name of the first, and a label is looked up when all operands are there. So what is
wrong with a token is said here without a reader, by the opcode table and the tokens before it.

* `Mnemonic.Admits`, `Mnemonic.AdmitsKinds`: the operands with which some form of an instruction
  begins, and the kinds of such operands.
* `Mnemonic.Refuses`: what is wrong with an operand, given those before it. No form has its kind in
  this place, or none that begins with these operands has, or its kind is admitted and it is not.
* `Reader.Explains`, `Mnemonic.explains_operands`: if reading operands fails, and not for the end of
  the tokens, it has taken an operand that is refused.
* `Layout.Emitted.mem_names`: a declaration among the tokens of segments is the declaration of a
  segment, so the table of labels lacks no label that has been declared.
* `Blames`, `Faulty`: the culprit of an error, and what is wrong with a statement.
* `Layout.Fails.exists_failsWith`: where an assembly fails stands a statement with something wrong.
* `assemble_error_culprit`: **every error points at its culprit**.
-/
import Mathlib.Tactic
import Chip8.Proofs.Prefixes

namespace Chip8

/-! ### What the table admits -/

instance : Fintype Kind where
  elems := {.label, .instruction, .register, .literal, .name}
  complete k := by cases k <;> decide

namespace Slot

/-- Some lexeme of a kind may stand in a place. -/
def AdmitsKind (s : Slot) (k : Kind) : Prop := ∃ l : Lexeme, l.kind = k ∧ s.Admits l

/-- The kinds of the lexemes that may stand in a place. -/
def kinds : Slot → List Kind
  | vx | vy | v0 => [.register]
  | byte | nibble => [.literal]
  | address => [.literal, .name]
  | special _ => [.name]

lemma Admits.kind_mem {s : Slot} {l : Lexeme} (h : s.Admits l) : l.kind ∈ s.kinds := by
  cases s with
  | vx | vy | byte | nibble =>
      obtain ⟨r, rfl⟩ := h
      simp [Lexeme.kind, kinds]
  | v0 =>
      obtain ⟨r, rfl, -⟩ := h
      simp [Lexeme.kind, kinds]
  | address =>
      obtain ⟨v, rfl⟩ | ⟨s, rfl⟩ := h <;> simp [Lexeme.kind, kinds]
  | special s =>
      obtain rfl := h
      simp [Lexeme.kind, kinds]

lemma admitsKind_iff {s : Slot} {k : Kind} : s.AdmitsKind k ↔ k ∈ s.kinds := by
  refine ⟨fun h => ?_, fun h => ?_⟩
  · obtain ⟨l, rfl, hl⟩ := h
    exact hl.kind_mem
  · cases s with
    | vx | vy | v0 =>
        obtain rfl := List.mem_singleton.mp h
        exact ⟨.register 0#8, rfl, by simp [Admits]⟩
    | byte | nibble =>
        obtain rfl := List.mem_singleton.mp h
        exact ⟨.literal 0#64, rfl, by simp [Admits]⟩
    | address =>
        obtain rfl | rfl := List.mem_pair.mp h
        · exact ⟨.literal 0#64, rfl, .inl ⟨_, rfl⟩⟩
        · exact ⟨.name "", rfl, .inr ⟨_, rfl⟩⟩
    | special s =>
        obtain rfl := List.mem_singleton.mp h
        exact ⟨.name s, rfl, rfl⟩

instance (s : Slot) (k : Kind) : Decidable (s.AdmitsKind k) :=
  decidable_of_iff (k ∈ s.kinds) admitsKind_iff.symm

end Slot

namespace Mnemonic

/-- The places of the operands in each form of an instruction. -/
def forms (m : Mnemonic) : List (List Slot) :=
  (opcodeTable.filter (·.mnemonic = m)).map Row.slots

/-- The operands are admitted in the first places of some form of the instruction. -/
def Admits (m : Mnemonic) (ops : List Token) : Prop :=
  ∃ slots ∈ m.forms, List.Forall₂ (fun s t => s.Admits t.lexeme) (slots.take ops.length) ops

/-- Behind the operands some operand of a kind is admitted. -/
def AdmitsNext (m : Mnemonic) (ops : List Token) (k : Kind) : Prop :=
  ∃ t : Token, t.kind = k ∧ m.Admits (ops ++ [t])

/-- The kinds are admitted in the first places of some form of the instruction, whatever the
operands that have them. -/
def AdmitsKinds (m : Mnemonic) (kinds : List Kind) : Prop :=
  ∃ slots ∈ m.forms, List.Forall₂ Slot.AdmitsKind (slots.take kinds.length) kinds

instance (m : Mnemonic) (kinds : List Kind) : Decidable (m.AdmitsKinds kinds) :=
  inferInstanceAs (Decidable (∃ slots ∈ m.forms, _))

/-- Behind operands of these kinds, all admitted, the kinds that are admitted next. -/
structure Expects (m : Mnemonic) (before kinds : List Kind) : Prop where
  admitted : m.AdmitsKinds before
  mem_iff : ∀ k, k ∈ kinds ↔ m.AdmitsKinds (before ++ [k])

instance (m : Mnemonic) (before kinds : List Kind) : Decidable (m.Expects before kinds) :=
  decidable_of_iff (m.AdmitsKinds before ∧ ∀ k, k ∈ kinds ↔ m.AdmitsKinds (before ++ [k]))
    ⟨fun h => ⟨h.1, h.2⟩, fun h => ⟨h.1, h.2⟩⟩

lemma admits_nil (m : Mnemonic) : m.Admits [] := by
  have hforms : m.forms ≠ [] := by cases m <;> decide
  obtain ⟨slots, hslots⟩ := List.exists_mem_of_ne_nil _ hforms
  exact ⟨slots, hslots, .nil⟩

/-! ### What is wrong with an operand -/

/-- An operand that an instruction does not take behind the operands `before`, and the error that
says so. -/
inductive Refuses (m : Mnemonic) (before : List Token) (t : Token) : Error → Prop
  /-- It is the first whose kind no form of the instruction has in its place. The error lists the
  kinds that some form has there. -/
  | kind {kinds : List Kind} (h : m.Expects (before.map Token.kind) kinds) (ht : t.kind ∉ kinds) :
      Refuses m before t (.unexpectedKind kinds t.kind t.line)
  /-- No form that begins with the operands before has its kind next. The error lists the kinds
  that some such form has. -/
  | form {kinds : List Kind} (hbefore : m.Admits before)
      (h : ∀ k, k ∈ kinds ↔ m.AdmitsNext before k) (ht : t.kind ∉ kinds) :
      Refuses m before t (.unexpectedKind kinds t.kind t.line)
  /-- A form that begins with the operands before has its kind next, but none has it itself. -/
  | value {expected : String} (hbefore : m.Admits before) (h : m.AdmitsNext before t.kind)
      (ht : ¬ m.Admits (before ++ [t])) :
      Refuses m before t (.invalidOperand t.spelling expected t.line)

/-- One of the operands is refused, behind those before it. -/
def RefusesOne (m : Mnemonic) (ops : List Token) (e : Error) : Prop :=
  ∃ before t after, ops = before ++ t :: after ∧ m.Refuses before t e

end Mnemonic

/-! ### Reading operands -/

namespace Reader

variable {α : Type} {m : Mnemonic} {before : List Token}

/-- A reader that goes on behind the operands `before` explains its errors: if it fails, and not for
the end of the tokens, then with the tokens that it takes, and one of them or one before is
refused. -/
def Explains (m : Mnemonic) (before : List Token) (r : Reader α) : Prop :=
  ∀ ts e rest, r ts = .error e rest → e ≠ .endOfInput →
    ∃ taken, ts = taken ++ rest ∧ r taken = .error e [] ∧ m.RefusesOne (before ++ taken) e

lemma explains_pure (a : α) : Explains m before (pure a) :=
  fun _ _ _ h _ => absurd h pure_ne_error

lemma explains_throw {e : Error} (h : m.RefusesOne before e) :
    Explains m before (throw e : Reader α) := by
  rintro ts e rest ⟨⟩ -
  exact ⟨[], rfl, rfl, by rwa [List.append_nil]⟩

lemma explains_ofExcept {x : Except Error α} (h : ∀ e, x = .error e → m.RefusesOne before e) :
    Explains m before (ofExcept x) := by
  cases x with
  | ok a => exact explains_pure a
  | error e => exact explains_throw (h e rfl)

/-- **A step.** Expecting the kinds that are admitted next and going on explains the errors if going
on does. -/
lemma explains_expect_bind {kinds ks : List Kind} {f : Token → Reader α}
    (hks : before.map Token.kind = ks) (h : m.Expects ks kinds)
    (hf : ∀ t, t.kind ∈ kinds → Explains m (before ++ [t]) (f t)) :
    Explains m before (expect kinds >>= f) := by
  intro ts e rest hr he
  subst hks
  rcases bind_eq_error_iff.mp hr with hexpect | ⟨t, us, ht, hrest⟩
  · cases ts with
    | nil =>
        cases hexpect
        exact absurd rfl he
    | cons t us =>
        rw [expect_cons] at hexpect
        split_ifs at hexpect with hk
        cases hexpect
        refine ⟨[t], rfl, bind_eq_error_iff.mpr (.inl ?_), before, t, [], rfl, .kind h hk⟩
        rw [expect_cons, if_neg hk]
  · obtain ⟨rfl, hk⟩ := expect_eq_ok_iff.mp ht
    obtain ⟨taken, rfl, htaken, href⟩ := hf t hk us e rest hrest he
    refine ⟨t :: taken, rfl, bind_eq_error_iff.mpr (.inr ⟨t, taken, ?_, htaken⟩), ?_⟩
    · exact expect_eq_ok_iff.mpr ⟨rfl, hk⟩
    · rwa [List.append_assoc] at href

/-- The last operand. -/
lemma explains_expect_last {kinds ks : List Kind} {g : Token → α}
    (hks : before.map Token.kind = ks) (h : m.Expects ks kinds) :
    Explains m before (expect kinds >>= fun t => pure (g t)) :=
  explains_expect_bind hks h fun _ _ => explains_pure _

/-- An operand of a single kind, on which going on may rely. -/
lemma explains_expect_one {k : Kind} {ks : List Kind} {f : Token → Reader α}
    (hks : before.map Token.kind = ks) (h : m.Expects ks [k])
    (hf : ∀ t, (before ++ [t]).map Token.kind = ks ++ [k] → Explains m (before ++ [t]) (f t)) :
    Explains m before (expect [k] >>= f) := by
  refine explains_expect_bind hks h fun t ht => hf t ?_
  rw [List.map_append, hks, List.map_singleton, List.mem_singleton.mp ht]

end Reader

/-! ### The special operands -/

namespace RegisterOp

lemma into?_eq_none_iff {s : String} : into? s = none ↔ s ∉ ["DT", "ST", "F", "B"] := by
  rw [into?]
  split_ifs <;> simp_all

lemma outOf?_eq_none_iff {s : String} : outOf? s = none ↔ s ∉ ["DT", "K", "I"] := by
  rw [outOf?]
  split_ifs <;> simp_all

end RegisterOp

namespace Mnemonic

variable {s : String} {p q : Token}

lemma forms_jp : jp.forms = [[.address], [.v0, .address]] := rfl

lemma forms_add : add.forms = [[.vx, .byte], [.vx, .vy], [.special "I", .vx]] := rfl

lemma forms_ld : ld.forms = [[.vx, .byte], [.vx, .vy], [.special "I", .address],
    [.vx, .special "DT"], [.vx, .special "K"], [.special "DT", .vx], [.special "ST", .vx],
    [.special "F", .vx], [.special "B", .vx], [.special "I", .vx], [.vx, .special "I"]] := rfl

lemma admits_jp_iff : jp.Admits [p] ↔
    p.kind ∈ [Kind.name, .literal] ∨ p.kind = .register ∧ p.lexeme.nibble = 0#4 := by
  rw [← Slot.admits_v0_iff, ← Slot.admits_address_iff]
  simp [Admits, forms_jp]

lemma admits_add_iff : add.Admits [p] ↔ p.kind = .register ∨ p.lexeme = .name "I" := by
  rw [Token.kind, Lexeme.kind_eq_register_iff]
  simp [Admits, forms_add, Slot.Admits]

lemma admits_ld_of_register (hp : p.kind = .register) : ld.Admits [p] := by
  obtain ⟨r, hr⟩ := Lexeme.kind_eq_register_iff.mp hp
  simp [Admits, forms_ld, Slot.Admits, hr]

lemma admits_ld_name_iff (hp : p.lexeme = .name s) :
    ld.Admits [p] ↔ s = "I" ∨ s ∈ ["DT", "ST", "F", "B"] := by
  have hmem : ld.Admits [p] ↔ s ∈ ["I", "DT", "ST", "F", "B", "I"] := by
    simp [Admits, forms_ld, Slot.Admits, hp]
  simp only [hmem, List.mem_cons, List.not_mem_nil, or_false]
  tauto

lemma admits_ld_register_name_iff (hp : p.kind = .register) (hq : q.lexeme = .name s) :
    ld.Admits [p, q] ↔ s ∈ ["DT", "K", "I"] := by
  obtain ⟨r, hr⟩ := Lexeme.kind_eq_register_iff.mp hp
  simp [Admits, forms_ld, Slot.Admits, hr, hq]

/-- Behind `DT`, `ST`, `F` and `B` stands a register. -/
lemma admits_ld_special_iff (hp : p.lexeme = .name s) (hs : s ∈ ["DT", "ST", "F", "B"]) :
    ld.Admits [p, q] ↔ q.kind = .register := by
  rw [Token.kind, Lexeme.kind_eq_register_iff]
  simp only [List.mem_cons, List.not_mem_nil, or_false] at hs
  obtain rfl | rfl | rfl | rfl := hs <;> simp [Admits, forms_ld, Slot.Admits, hp]

lemma admitsNext_ld_special_iff (hp : p.lexeme = .name s) (hs : s ∈ ["DT", "ST", "F", "B"])
    (k : Kind) : k ∈ [Kind.register] ↔ ld.AdmitsNext [p] k := by
  rw [List.mem_singleton]
  refine ⟨fun h => ?_, fun h => ?_⟩
  · exact ⟨⟨.register 0#8, 0⟩, h.symm, (admits_ld_special_iff hp hs).mpr rfl⟩
  · obtain ⟨t, rfl, ht⟩ := h
    exact (admits_ld_special_iff hp hs).mp ht

/-! ### The operands of each instruction -/

/-- Behind a register `LD` refuses a name that is not special. -/
lemma refusesOne_of_load_register {e : Error} (hp : p.kind = .register)
    (h : Operands.load p q = .error e) : ld.RefusesOne [p, q] e := by
  obtain ⟨r, hr⟩ := Lexeme.kind_eq_register_iff.mp hp
  simp only [Operands.load, hr] at h
  split at h
  · next s hs =>
    split at h
    · cases h
    · next hnone =>
      cases h
      have hkind : Kind.name = q.kind := by rw [Token.kind, hs, Lexeme.kind]
      have hnext : ld.AdmitsNext [p] q.kind :=
        ⟨⟨.name "DT", 0⟩, hkind, (admits_ld_register_name_iff hp rfl).mpr (by simp)⟩
      refine ⟨[p], q, [], rfl, .value (admits_ld_of_register hp) hnext ?_⟩
      exact mt (admits_ld_register_name_iff hp hs).mp (RegisterOp.outOf?_eq_none_iff.mp hnone)
  · cases h

/-- A name that is not special is refused by `LD`, and behind a special name other than `I` what is
not a register. -/
lemma refusesOne_of_load_name {e : Error} (hp : p.lexeme = .name s)
    (h : Operands.load p q = .error e) : ld.RefusesOne [p, q] e := by
  simp only [Operands.load, hp] at h
  split_ifs at h with hI
  · split at h <;> cases h
  · split at h
    · next op hop =>
      have hspecial : s ∈ ["DT", "ST", "F", "B"] := by
        by_contra hmem
        rw [RegisterOp.into?_eq_none_iff.mpr hmem] at hop
        cases hop
      have hbefore : ld.Admits [p] := (admits_ld_name_iff hp).mpr (.inr hspecial)
      rw [Token.require] at h
      split_ifs at h with hq
      · cases h
      · cases h
        exact ⟨[p], q, [], rfl, .form hbefore (admitsNext_ld_special_iff hp hspecial) hq⟩
    · next hnone =>
      cases h
      have hkind : Kind.name = p.kind := by rw [Token.kind, hp, Lexeme.kind]
      have hnext : ld.AdmitsNext [] p.kind :=
        ⟨⟨.name "I", 0⟩, hkind, (admits_ld_name_iff rfl).mpr (.inl rfl)⟩
      have hname : ¬ (s = "I" ∨ s ∈ ["DT", "ST", "F", "B"]) :=
        not_or_intro hI (RegisterOp.into?_eq_none_iff.mp hnone)
      -- the second operand has been taken all the same
      exact ⟨[], p, [q], rfl, .value ld.admits_nil hnext (mt (admits_ld_name_iff hp).mp hname)⟩

end Mnemonic

namespace Operands

open Reader

variable {m : Mnemonic}

/-- `Vx` and a last operand. -/
lemma explains_register_last {kinds : List Kind} {g : Token → Token → Instruction Target}
    (hp : m.Expects [] [.register]) (hq : m.Expects [.register] kinds) :
    Explains m [] (expect [.register] >>= fun p => expect kinds >>= fun q => pure (g p q)) :=
  explains_expect_one rfl hp fun _ hks => explains_expect_last hks hq

lemma explains_draw : Explains .drw [] draw :=
  explains_expect_one rfl (by decide) fun _ hks =>
    explains_expect_one hks (by decide) fun _ hks => explains_expect_last hks (by decide)

/-- A register that is not `V0` is refused by `JP`. -/
lemma explains_jump : Explains .jp [] jump := by
  refine explains_expect_bind rfl (by decide) ?_
  rintro ⟨l, line⟩ hk
  cases l with
  | label | instruction => simp [Token.kind, Lexeme.kind] at hk
  | name | literal => exact explains_pure _
  | register r =>
      by_cases h0 : (Lexeme.register r).nibble = 0#4
      · have hexpects : Mnemonic.jp.Expects [.register] [.name, .literal] := by decide
        simp only [h0, if_pos]
        exact explains_expect_last rfl hexpects
      · simp only [h0, if_false]
        have hnext : Mnemonic.jp.AdmitsNext [] .register :=
          ⟨⟨.register 0#8, 0⟩, rfl, Mnemonic.admits_jp_iff.mpr (.inr ⟨rfl, rfl⟩)⟩
        refine explains_throw ⟨[], _, [], rfl, .value (Mnemonic.admits_nil _) hnext ?_⟩
        exact mt Mnemonic.admits_jp_iff.mp (by simp [h0, Token.kind, Lexeme.kind])

/-- A name other than `I` is refused by `ADD`. -/
lemma explains_add : Explains .add [] Operands.add := by
  refine explains_expect_bind rfl (by decide) ?_
  rintro ⟨l, line⟩ hk
  cases l with
  | label | instruction | literal => simp [Token.kind, Lexeme.kind] at hk
  | register r =>
      have hexpects : Mnemonic.add.Expects [.register] [.literal, .register] := by decide
      exact explains_expect_last rfl hexpects
  | name s =>
      by_cases hs : s = "I"
      · have hexpects : Mnemonic.add.Expects [.name] [.register] := by decide
        simp only [hs, if_pos]
        exact explains_expect_last rfl hexpects
      · simp only [hs, if_false]
        have hnext : Mnemonic.add.AdmitsNext [] .name :=
          ⟨⟨.name "I", 0⟩, rfl, Mnemonic.admits_add_iff.mpr (.inr rfl)⟩
        refine explains_throw ⟨[], _, [], rfl, .value (Mnemonic.admits_nil _) hnext ?_⟩
        exact mt Mnemonic.admits_add_iff.mp (by simp [hs, Token.kind, Lexeme.kind])

/-- Both operands of `LD` are taken, and only then is the first looked at. -/
lemma explains_loads : Explains .ld [] loads := by
  refine explains_expect_bind rfl (by decide) fun p hp => ?_
  have hkind := List.mem_pair.mp hp
  have hexpects : Mnemonic.ld.Expects [p.kind] [.literal, .register, .name] := by
    rcases hkind with hk | hk <;> rw [hk] <;> decide
  refine explains_expect_bind rfl hexpects fun q _ => explains_ofExcept fun e h => ?_
  rcases hkind with hk | hk
  · exact Mnemonic.refusesOne_of_load_register hk h
  · obtain ⟨s, hs⟩ := Lexeme.kind_eq_name_iff.mp hk
    exact Mnemonic.refusesOne_of_load_name hs h

end Operands

open Reader Operands in
/-- **Errors of operands are explained**, for every instruction. -/
theorem Mnemonic.explains_operands (m : Mnemonic) : Explains m [] m.operands := by
  cases m with
  | cls | ret => exact explains_pure _
  | sys | call | skp | sknp => exact explains_expect_last rfl (by decide)
  | se | sne | or | and | xor | sub | shr | subn | shl | rnd =>
      exact explains_register_last (by decide) (by decide)
  | jp => exact explains_jump
  | ld => exact explains_loads
  | add => exact explains_add
  | drw => exact explains_draw

/-! ### Labels among the tokens -/

/-- An operand is no declaration. -/
lemma Row.Matches.not_declares {row : Row} {ops : List Token} (h : row.Matches ops)
    (name : String) : ¬ Declares ops name := by
  rintro ⟨line, hmem⟩
  rw [Matches] at h
  generalize row.slots = slots at h
  induction h with
  | nil => cases hmem
  | @cons s t _ _ hs _ ih =>
      rcases List.mem_cons.mp hmem with rfl | hmem
      · have hkind := hs.kind_mem
        cases s <;> simp [Lexeme.kind, Slot.kinds] at hkind
      · exact ih hmem

/-- The label that a segment declares is its only token that is a declaration. -/
lemma Segment.Emits.name?_of_declares {labels : Labels} {seg : Segment} {bs : List UInt8}
    (h : seg.Emits labels bs) {name : String} (hd : Declares seg.tokens name) :
    seg.name? = some name := by
  obtain ⟨line, hmem⟩ := hd
  cases h with
  | label | data => simp_all [Segment.tokens, Segment.name?]
  | instruction hm hw =>
      obtain ⟨i, r, hi, -, -⟩ := Mnemonic.encode_eq_ok_iff_resolve.mp hw
      obtain ⟨ops, hs, -, rfl⟩ := Mnemonic.operands_eq_ok_iff.mp hi
      have hops : ⟨.label name, line⟩ ∈ ops := by simpa [Segment.tokens] using hmem
      exact absurd ⟨line, hops⟩ (hs.matches.not_declares name)

lemma Layout.Emitted.mem_names {before segs : List Segment} {img : List UInt8}
    (h : Emitted before segs img) {name : String}
    (hd : Declares (segs.flatMap Segment.tokens) name) : name ∈ names segs := by
  induction h with
  | nil =>
      obtain ⟨line, hmem⟩ := hd
      cases hmem
  | cons hs _ ih =>
      obtain ⟨line, hmem⟩ := hd
      rw [List.flatMap_cons, List.mem_append] at hmem
      rw [names_cons, List.mem_append]
      rcases hmem with hmem | hmem
      · exact .inl (by simp [hs.name?_of_declares ⟨line, hmem⟩])
      · exact .inr (ih ⟨line, hmem⟩)

/-- Operands that spell an instruction are taken to the last. -/
lemma Spells.operands_eq {ops : List Token} {i : Instruction Target} (h : Spells ops i) :
    i.mnemonic.operands ops = .ok i [] := by
  simpa using Mnemonic.operands_of_spells h []

/-- The target of an instruction is its last operand, in the place of an address. -/
lemma Spells.exists_target {ops : List Token} {op : AddressOp} {target : Target}
    (h : Spells ops (.address op target)) :
    ∃ before t, ops = before ++ [t] ∧ target = .ofToken t ∧
      op.slots[before.length]? = some .address := by
  cases h with
  | address hop ht =>
      simp only [List.mem_cons, List.not_mem_nil, or_false] at hop
      exact ⟨[], _, rfl, rfl, by rcases hop with rfl | rfl | rfl <;> rfl⟩
  | @jumpV0 p t => exact ⟨[p], t, rfl, rfl, rfl⟩
  | @loadIndex p t => exact ⟨[p], t, rfl, rfl, rfl⟩

/-- Looking up the target fails if it is a label that is not declared. -/
lemma Instruction.resolve_eq_error {labels : Labels} {i : Instruction Target} {e : Error}
    (h : i.resolve labels = .error e) :
    ∃ op name line, i = .address op (.label name line) ∧ labels.find? name = none ∧
      e = .undeclaredLabel name line := by
  cases i with
  | fixed | byte | pair | sprite | register => cases h
  | address op target =>
      cases target with
      | literal nnn => cases h
      | label name line =>
          simp only [resolve, Target.resolve, Labels.resolve] at h
          cases hfind : labels.find? name with
          | some a =>
              rw [hfind] at h
              cases h
          | none =>
              rw [hfind] at h
              cases h
              exact ⟨op, name, line, rfl, hfind, rfl⟩

/-! ### The culprit of an error -/

/-- The line that an error names. -/
def Error.line? : Error → Option Nat
  | .unreadable line _ | .unexpectedKind _ _ line | .unknownMnemonic _ line
  | .invalidOperand _ _ line | .undeclaredLabel _ line | .duplicateLabel _ line => some line
  | .endOfInput | .imageFull _ => none

/-- The culprit of an error, behind the tokens `pre` of other statements and the tokens `lead` of
its own. -/
inductive Blames (pre : List Token) : List Token → Token → Error → Prop
  /-- There is no instruction of this name. -/
  | unknown {name : String} {line : Nat} (h : Mnemonic.ofName? name = none) :
      Blames pre [] ⟨.instruction name, line⟩ (.unknownMnemonic name line)
  /-- The label has been declared before. -/
  | duplicate {name : String} {line : Nat} (h : Declares pre name) :
      Blames pre [] ⟨.label name, line⟩ (.duplicateLabel name line)
  /-- An operand stands where a statement is due. -/
  | stray {t : Token} (h : t.kind ∈ [Kind.register, .name]) :
      Blames pre [] t (.unexpectedKind [.label, .literal, .instruction] t.kind t.line)
  /-- The operand is not admitted. -/
  | operand {name : String} {line : Nat} {m : Mnemonic} {before : List Token} {t : Token}
      {e : Error} (hm : Mnemonic.ofName? name = some m) (h : m.Refuses before t e) :
      Blames pre (⟨.instruction name, line⟩ :: before) t e
  /-- The operands are those of a form with an address, and the address is a label that has not
  been declared before. -/
  | undeclared {name label : String} {line line' : Nat} {row : Row} {before : List Token}
      (hrow : row ∈ opcodeTable) (hm : Mnemonic.ofName? name = some row.mnemonic)
      (hops : row.Matches (before ++ [⟨.name label, line'⟩]))
      (hslot : row.slots[before.length]? = some .address)
      (h : ¬ Declares (pre ++ ⟨.instruction name, line⟩ :: before) label) :
      Blames pre (⟨.instruction name, line⟩ :: before) ⟨.name label, line'⟩
        (.undeclaredLabel label line')

/-- The line of an error is that of its culprit. -/
lemma Blames.line?_eq {pre lead : List Token} {t : Token} {e : Error} (h : Blames pre lead t e) :
    e.line? = some t.line := by
  cases h with
  | operand hm h => cases h <;> rfl
  | unknown | duplicate | stray | undeclared => rfl

/-- What is wrong with the tokens `seg` of a statement that stands between the tokens `pre` and
`rest`, a number of bytes having been written. -/
inductive Faulty (pre seg rest : List Token) (size : Nat) : Error → Prop
  /-- There is a culprit. -/
  | culprit (lead : List Token) (t : Token) (after : List Token) {e : Error}
      (hseg : seg = lead ++ t :: after) (h : Blames pre lead t e) : Faulty pre seg rest size e
  /-- The tokens end where an operand is due. -/
  | endOfInput {name : String} {line : Nat} {m : Mnemonic} {ops : List Token}
      (hseg : seg = ⟨.instruction name, line⟩ :: ops) (hrest : rest = [])
      (hm : Mnemonic.ofName? name = some m) (h : m.Awaits ops) :
      Faulty pre seg rest size .endOfInput
  /-- They are those of a statement, and there is no room for its bytes. -/
  | imageFull {s : Segment} {statement : Statement} (hs : s.Reads statement) (hseg : seg = s.tokens)
      (h : 4096 < size + s.size) : Faulty pre seg rest size (.imageFull 4096)

namespace Layout

variable {segs : List Segment} {img : List UInt8} {ts rest : List Token} {name : String}
  {m : Mnemonic} {e : Error}

/-- The next statement behind segments takes the tokens `seg`, leaves `rest` and fails: it fails
with the tokens that it takes, and there is something wrong with them. -/
structure FailsWith (segs : List Segment) (seg rest : List Token) (e : Error) : Prop where
  left : Reader.left Statement.read (seg ++ rest) = rest
  fails : ∃ rs, Fails segs seg e rs
  faulty : Faulty (segs.flatMap Segment.tokens) seg rest (size segs) e

/-- An operand is refused. -/
lemma failsWith_of_operands (segs : List Segment) (line : Nat) (hm : Mnemonic.ofName? name = some m)
    (h : m.operands ts = .error e rest) (he : e ≠ .endOfInput) :
    ∃ ops, ts = ops ++ rest ∧ FailsWith segs (⟨.instruction name, line⟩ :: ops) rest e := by
  obtain ⟨ops, rfl, hops, before, t, after, hsplit, href⟩ := m.explains_operands ts e rest h he
  have hfails : m.encode (labels segs) ops = .error e [] :=
    Mnemonic.encode_eq_error_iff.mpr (.inl hops)
  refine ⟨ops, rfl, ?_, ⟨[], .refused hm hfails⟩, ?_⟩
  · rw [Reader.left, List.cons_append, Statement.read_instruction_of_error hm h]
  · refine .culprit (⟨.instruction name, line⟩ :: before) t after ?_ (.operand hm href)
    rw [List.cons_append, ← hsplit, List.nil_append]

/-- A label is not declared. -/
lemma failsWith_of_resolve (hlay : IsLayout (segs.flatMap Segment.tokens) segs img)
    {i : Instruction Target} (line : Nat) (hm : Mnemonic.ofName? name = some m)
    (h : m.operands ts = .ok i rest) (hr : i.resolve (labels segs) = .error e) :
    ∃ ops, ts = ops ++ rest ∧ FailsWith segs (⟨.instruction name, line⟩ :: ops) rest e := by
  obtain ⟨ops, hs, rfl, rfl⟩ := Mnemonic.operands_eq_ok_iff.mp h
  have hfails : i.mnemonic.encode (labels segs) ops = .error e [] :=
    Mnemonic.encode_eq_error_iff.mpr (.inr ⟨i, hs.operands_eq, hr⟩)
  refine ⟨ops, rfl, ?_, ⟨[], .refused hm hfails⟩, ?_⟩
  · rw [Reader.left, List.cons_append, Statement.read_instruction_of_ok hm h]
  · obtain ⟨op, label, line', rfl, hfind, rfl⟩ := Instruction.resolve_eq_error hr
    obtain ⟨before, t, rfl, ht, hslot⟩ := hs.exists_target
    obtain rfl := Target.ofToken_eq_label_iff.mp ht.symm
    have hnew : ¬ Declares (segs.flatMap Segment.tokens ++ ⟨.instruction name, line⟩ :: before)
        label := by
      rintro ⟨line'', hmem⟩
      rcases List.mem_append.mp hmem with hmem | hmem
      · exact find?_labels_eq_none_iff.mp hfind (hlay.emitted.mem_names ⟨line'', hmem⟩)
      · have hbefore : ⟨.label label, line''⟩ ∈ before := by simpa using hmem
        exact hs.matches.not_declares label ⟨line'', List.mem_append_left _ hbefore⟩
    have hrow : (Form.address op).row ∈ opcodeTable := Form.mem_opcodeTable_iff.mpr ⟨_, rfl⟩
    exact .culprit (_ :: before) _ [] rfl (.undeclared hrow hm hs.matches hslot hnew)

/-- **What is wrong where an assembly fails.** Tokens with which it fails begin with those of a
statement that fails. -/
theorem Fails.exists_failsWith {rs : List Record}
    (hlay : IsLayout (segs.flatMap Segment.tokens) segs img) (h : Fails segs ts e rs) :
    ∃ seg rest, ts = seg ++ rest ∧ FailsWith segs seg rest e := by
  cases h with
  | @duplicate name line rest hname =>
      have hblames : Blames (segs.flatMap Segment.tokens) [] ⟨.label name, line⟩ _ :=
        .duplicate (hlay.declares hname)
      exact ⟨[_], rest, rfl, rfl, ⟨_, .duplicate hname⟩, .culprit [] _ [] rfl hblames⟩
  | @dataFull v line rest hfull =>
      exact ⟨[_], rest, rfl, rfl, ⟨_, .dataFull hfull⟩, .imageFull (.data v line) rfl hfull⟩
  | @stray t rest hkind =>
      refine ⟨[t], rest, rfl, ?_, ⟨_, .stray hkind⟩, .culprit [] t [] rfl (.stray hkind)⟩
      obtain ⟨l, line⟩ := t
      cases l with
      | register | name => rfl
      | label | literal | instruction => simp [Token.kind, Lexeme.kind] at hkind
  | @unknown name line rest hm =>
      refine ⟨[_], rest, rfl, ?_, ⟨_, .unknown hm⟩, .culprit [] _ [] rfl (.unknown hm)⟩
      rw [Reader.left, List.singleton_append, Statement.read_instruction_of_none hm]
  | @refused name line m ts rest e hm hw =>
      rcases Mnemonic.encode_eq_error_iff.mp hw with hops | ⟨i, hi, hr⟩
      · by_cases he : e = .endOfInput
        · subst he
          obtain ⟨hawaits, rfl⟩ := m.operands_eq_endOfInput_iff.mp hops
          refine ⟨⟨.instruction name, line⟩ :: ts, [], (List.append_nil _).symm, ?_,
            ⟨_, .refused hm hw⟩, .endOfInput rfl rfl hm hawaits⟩
          rw [List.append_nil, Reader.left, Statement.read_instruction_of_error hm hops]
        · obtain ⟨ops, rfl, hfails⟩ := failsWith_of_operands segs line hm hops he
          exact ⟨_, rest, rfl, hfails⟩
      · obtain ⟨ops, rfl, hfails⟩ := failsWith_of_resolve hlay line hm hi hr
        exact ⟨_, rest, rfl, hfails⟩
  | @wordFull name line m ts rest w hm hw hfull =>
      obtain ⟨i, r, hi, hr, rfl⟩ := Mnemonic.encode_eq_ok_iff_resolve.mp hw
      obtain ⟨ops, hs, rfl, rfl⟩ := Mnemonic.operands_eq_ok_iff.mp hi
      have hword : i.mnemonic.encode (labels segs) ops = .ok r.word [] :=
        Mnemonic.encode_eq_ok_iff_resolve.mpr ⟨i, r, hs.operands_eq, hr, rfl⟩
      refine ⟨⟨.instruction name, line⟩ :: ops, rest, rfl, ?_, ⟨_, .wordFull hm hword hfull⟩,
        .imageFull (.instruction line hm hs) rfl hfull⟩
      rw [Reader.left, List.cons_append, Statement.read_instruction_of_ok hm hi]

end Layout

/-- A statement with an error that names a line has a culprit, and the line is that of the
culprit. -/
lemma Faulty.exists_blames {pre seg rest : List Token} {size line : Nat} {e : Error}
    (h : Faulty pre seg rest size e) (hline : e.line? = some line) :
    ∃ lead t after, seg = lead ++ t :: after ∧ t.line = line ∧ Blames pre lead t e := by
  cases h with
  | culprit lead t after hseg h =>
      rw [h.line?_eq] at hline
      exact ⟨lead, t, after, hseg, Option.some.inj hline, h⟩
  | endOfInput => cases hline
  | imageFull => cases hline

/-- **Every error points at its culprit.** If an assembly fails, its tokens are those of statements
that are assembled, those of a statement with which it fails, and a rest that plays no part. If the
error names a line, one of the tokens of that statement has this line and is the culprit: the name
of no instruction, a label that has been declared before, an operand where a statement is due, the
first operand whose kind is not admitted, an operand of an admitted kind that is not admitted
itself, or a label in the place of an address that has not been declared before. An error that names
no line is that an operand is due and there is no token left, or that there is no room for the bytes
of the statement. -/
theorem assemble_error_culprit {ts : List Token} {e : Error}
    (h : (assemble ts).outcome = .error e) :
    ∃ pre seg rest i, ts = pre ++ (seg ++ rest) ∧ (assemble pre).outcome = .ok i ∧
      Reader.left Statement.read (seg ++ rest) = rest ∧
      (assemble (pre ++ seg)).outcome = .error e ∧ Faulty pre seg rest i.size e ∧
      ∀ line, e.line? = some line →
        ∃ lead t after, seg = lead ++ t :: after ∧ t.line = line ∧ Blames pre lead t e := by
  obtain ⟨segs, img, us, last, rfl, hlay, hf, -⟩ :=
    assemble_eq_failure_iff.mp (Logged.eq_of_outcome h)
  obtain ⟨i, hi, himg⟩ := assemble_of_isLayout hlay
  have hsize : Layout.size segs = i.size := by
    rw [← hlay.emitted.length_eq, ← himg, Image.length_toList]
  obtain ⟨seg, rest, rfl, hleft, ⟨rs, hfails⟩, hfaulty⟩ := hf.exists_failsWith hlay
  rw [hsize] at hfaulty
  refine ⟨_, seg, rest, i, rfl, hi, hleft, ?_, hfaulty, fun line => hfaulty.exists_blames⟩
  rw [assemble_of_fails hlay hfails]

/-- The name of a label as the first operand of `LD`, with its second operand on the next line: the
error is on the line of the first. -/
theorem assemble_error_culprit_ld :
    (assemble [⟨.label "a", 1⟩, ⟨.instruction "LD", 2⟩, ⟨.name "a", 2⟩,
      ⟨.register 1#8, 3⟩]).outcome = .error (.invalidOperand "a" "I, DT, ST, F or B" 2) ∧
    ∃ pre lead t after rest, [⟨.label "a", 1⟩, ⟨.instruction "LD", 2⟩, ⟨.name "a", 2⟩,
        ⟨.register 1#8, 3⟩] = pre ++ (lead ++ t :: after ++ rest) ∧ t.line = 2 ∧
      Blames pre lead t (.invalidOperand "a" "I, DT, ST, F or B" 2) := by
  have h : (assemble [⟨.label "a", 1⟩, ⟨.instruction "LD", 2⟩, ⟨.name "a", 2⟩,
      ⟨.register 1#8, 3⟩]).outcome = .error (.invalidOperand "a" "I, DT, ST, F or B" 2) := by
    decide +kernel
  obtain ⟨pre, seg, rest, i, hts, -, -, -, -, hline⟩ := assemble_error_culprit h
  obtain ⟨lead, t, after, rfl, ht, hblames⟩ := hline 2 rfl
  exact ⟨h, pre, lead, t, after, rest, hts, ht, hblames⟩

end Chip8
