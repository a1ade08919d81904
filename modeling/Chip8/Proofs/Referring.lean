/-
Which labels can be referred to.

Every identifier can be declared as a label. Whether it can be used as an operand is decided
by other rules, of which that for registers comes before that for names: an identifier that
begins with `V` and a hexadecimal digit is a register there, with something behind it. All
other identifiers are names, and a label with such a name can be referred to by every
instruction that takes an address. A label that begins like a register can be referred to by
none, though the text may be assembled to another instruction.

* `Source.ReadAsName`, `Source.readAsName_iff`: the identifiers that are one name.
* `AddressOp.written`, `reference`: an instruction that takes an address, and the text that
  declares a label and refers to it.
* `Referable`: the text is assembled to the instruction with the address of the label.
* `Source.lexemes_written`, `tokens_reference_eq_ok_iff`: the tokens of the text.
* `exists_assemble_reference`: a name is resolved to the address of its label.
* `toList_ne_of_register`: with a register in the place of the address there is no such word,
  because the word would tell the row of the table, and the row has no register there.
* `referable_iff`: **a label can be referred to if and only if it does not begin like a
  register**, whichever instruction refers to it, and then it is read as a name.
-/
import Mathlib.Tactic
import Chip8.Proofs.Decoding
import Chip8.Proofs.LabelAddress
import Chip8.Proofs.Lexing

namespace Chip8

/-! ### Identifiers as operands -/

namespace Source

/-- In the place of an operand, before a separator or at the end of the line, a text is
read as one name. -/
def ReadAsName (s : String) : Prop :=
  ∀ rest, (∀ c ∈ rest.head?, IsSeparator c) → operand? (s.toList ++ rest) = some (.name s, rest)

variable {s : String}

lemma operandAt_name (hs : IsIdentifier s.toList) (hreg : ¬ BeginsLikeRegister s.toList)
    {rest : List Char} (hrest : ∀ c ∈ rest.head?, IsSeparator c) :
    OperandAt s.toList (.name s) rest := by
  have hstop : Stops IsIdentifierRest rest := fun c hc hid => hid.not_isSeparator (hrest c hc)
  have h := OperandAt.name hs hreg hstop
  rwa [String.ofList_toList] at h

/-- The identifiers that are read as a name are those that do not begin like a register. -/
lemma readAsName_iff (hs : IsIdentifier s.toList) :
    ReadAsName s ↔ ¬ BeginsLikeRegister s.toList := by
  refine ⟨fun h hreg => ?_, fun hreg rest hrest => ?_⟩
  · obtain ⟨d, after, htext, hd⟩ := hreg
    have hname : operand? (s.toList ++ []) = some (.name s, []) := h [] (by simp)
    have hregister := operand?_eq_some_iff.mpr ⟨['V', d], .register hd after, rfl⟩
    rw [List.append_nil, htext] at hname
    cases hname.symm.trans hregister
  · exact operand?_eq_some_iff.mpr ⟨s.toList, operandAt_name hs hreg hrest, rfl⟩

lemma IsIdentifier.newline_not_mem {s : List Char} (hs : IsIdentifier s) : '\n' ∉ s := by
  obtain ⟨c, cs, rfl, hc, hcs⟩ := hs
  intro hmem
  rcases List.mem_cons.mp hmem with rfl | hmem
  · exact absurd hc (by decide)
  · exact absurd (hcs _ hmem) (by decide)

/-- A line with a head. -/
lemma lexemes_of_headAt {t rest : List Char} {l : Lexeme} (h : HeadAt t l rest) :
    lexemes (t ++ rest) = (operands rest).map (l :: ·) := by
  rw [lexemes, head?_eq_some_iff.mpr ⟨t, h, rfl⟩]

lemma operands_nil : operands [] = .ok [] :=
  operands_stop (List.forall_mem_nil _) (.inl rfl)

end Source

/-! ### A declaration and a reference -/

/-- An instruction that takes an address, written up to the address. -/
def AddressOp.written : AddressOp → String
  | sys => "SYS "
  | jp => "JP "
  | call => "CALL "
  | ldI => "LD I, "
  | jpV0 => "JP V0, "

/-- The word of an instruction that takes an address, with the load address in it. -/
def AddressOp.wordAtBase : AddressOp → Word
  | sys => 0x0200#16
  | jp => 0x1200#16
  | call => 0x2200#16
  | ldI => 0xA200#16
  | jpV0 => 0xB200#16

/-- The text that declares a label on its first line and refers to it on the second. -/
def reference (op : AddressOp) (s : String) : String := s ++ ":\n" ++ op.written ++ s

/-- An instruction can refer to a label: the text that declares the label and refers to it is
assembled to the instruction with the load address, which is where the label stands. -/
def Referable (op : AddressOp) (s : String) : Prop :=
  ∃ i, (Source.assemble (reference op s)).outcome = .ok i ∧ i.toList = op.wordAtBase.bytes

/-! ### The tokens of the text -/

namespace AddressOp

/-- The operands before the address. -/
def leading : AddressOp → List Lexeme
  | sys | jp | call => []
  | ldI => [.name "I"]
  | jpV0 => [.register 0#8]

/-- What is written between the name of an instruction and the address. -/
def gap : AddressOp → List Char
  | sys | jp | call => [' ']
  | ldI => [' ', 'I', ',', ' ']
  | jpV0 => [' ', 'V', '0', ',', ' ']

lemma toList_written (op : AddressOp) :
    op.written.toList = op.mnemonic.name.toList ++ op.gap := by
  cases op <;> decide

end AddressOp

namespace Source

variable {s : String} {t rest : List Char} {l : Lexeme}

/-- The instruction is the head of its line. -/
lemma headAt_mnemonic (op : AddressOp) (rest : List Char) :
    HeadAt op.mnemonic.name.toList (.instruction op.mnemonic.name) (op.gap ++ rest) := by
  obtain ⟨gap, hgap⟩ : ∃ gap, op.gap = ' ' :: gap := by cases op <;> exact ⟨_, rfl⟩
  have hne : op.mnemonic.name.toList ≠ [] := by cases op <;> decide
  have hall : op.mnemonic.name.toList.all isCapital = true := by cases op <;> decide
  have hcap : ∀ c ∈ op.mnemonic.name.toList, IsCapital c :=
    fun c hc => (isCapital_iff c).mp (List.all_eq_true.mp hall c hc)
  have hspace : isIdentifierRest ' ' = false := by decide
  have h : HeadAt _ _ (op.gap ++ rest) := .instruction hne hcap ?_ ?_
  · rwa [String.ofList_toList] at h
  · rw [hgap]
    exact stops_cons_iff.mpr (by decide)
  · rw [hgap, List.cons_append, List.dropWhile_cons_of_neg (by simp [hspace])]
    exact stops_cons_iff.mpr (by decide)

/-- The operands of the second line: those before the address, and then whatever the text
begins with that stands in the place of the address. -/
lemma operands_gap (op : AddressOp) (h : OperandAt t l rest) :
    operands (op.gap ++ (t ++ rest)) = (operands rest).map (op.leading ++ l :: ·) := by
  have hspace : ∀ c ∈ [' '], IsSeparator c := by simp [IsSeparator]
  have hcomma : ∀ c ∈ [',', ' '], IsSeparator c := by simp [IsSeparator]
  -- an operand before the address, with a comma behind it
  have hbefore : ∀ {u : List Char} {l' : Lexeme}, OperandAt u l' ([',', ' '] ++ (t ++ rest)) →
      operands ([' '] ++ (u ++ ([',', ' '] ++ (t ++ rest)))) =
        (operands rest).map ([l'] ++ l :: ·) := by
    intro u l' hu
    rw [operands_append hspace hu, operands_append hcomma h]
    cases operands rest <;> rfl
  cases op with
  | sys | jp | call => exact operands_append hspace h
  | ldI =>
      have hI : IsIdentifier ['I'] := ⟨'I', [], rfl, by decide, List.forall_mem_nil _⟩
      have hreg : ¬ BeginsLikeRegister ['I'] := by
        rintro ⟨d, after, he, -⟩
        cases he
      exact hbefore (.name hI hreg (stops_cons_iff.mpr (by decide)))
  | jpV0 => exact hbefore (.register (d := '0') (by decide) _)

/-- The lexemes of the second line. -/
lemma lexemes_written (op : AddressOp) (h : OperandAt t l rest) :
    lexemes (op.written.toList ++ (t ++ rest)) =
      (operands rest).map fun ls => .instruction op.mnemonic.name :: (op.leading ++ l :: ls) := by
  rw [AddressOp.toList_written, List.append_assoc, lexemes_of_headAt (headAt_mnemonic op _),
    operands_gap op h]
  cases operands rest <;> rfl

/-- The first line declares the label. -/
lemma lexemes_declaration (hs : IsIdentifier s.toList) :
    lexemes (s.toList ++ [':']) = .ok [.label s] := by
  have hhead := HeadAt.label hs []
  rw [String.ofList_toList] at hhead
  have h := lexemes_of_headAt hhead
  rw [List.append_nil, operands_nil] at h
  exact h

end Source

/-- The text has two lines. -/
lemma lines_reference {s : String} (op : AddressOp) (hs : Source.IsIdentifier s.toList) :
    Text.lines (reference op s).toList =
      [s.toList ++ [':'], op.written.toList ++ s.toList] := by
  have hfeed : '\n' ∉ s.toList := hs.newline_not_mem
  have hwritten : '\n' ∉ op.written.toList := by cases op <;> decide
  have hfirst : '\n' ∉ s.toList ++ [':'] := by simp [hfeed]
  have hsecond : '\n' ∉ op.written.toList ++ s.toList := by simp [hfeed, hwritten]
  have hne : op.written.toList ++ s.toList ≠ [] := by
    obtain ⟨c, cs, hcons, -⟩ := hs
    simp [hcons]
  have htext : (reference op s).toList =
      (s.toList ++ [':']) ++ '\n' :: (op.written.toList ++ s.toList) := by
    simp [reference]
  have hkeep : Text.withoutReturn (s.toList ++ [':']) = s.toList ++ [':'] := by
    rw [Text.withoutReturn, if_neg]
    simp
  rw [htext, Text.lines_append_newline hfirst, hkeep, Text.lines_of_not_mem hne hsecond]

/-- The tokens of the text: the declaration, and those of the second line. -/
lemma tokens_reference_eq_ok_iff {s : String} {op : AddressOp} {ts : List Token}
    (hs : Source.IsIdentifier s.toList) :
    Source.tokens (reference op s) = .ok ts ↔
      ∃ ls, Source.lexemes (op.written.toList ++ s.toList) = .ok ls ∧
        ts = ⟨.label s, 1⟩ :: ls.map (⟨·, 2⟩) := by
  rw [Source.tokens, lines_reference op hs, Source.tokensFrom_eq_ok_iff]
  refine ⟨fun h => ?_, fun h => ?_⟩
  · obtain ⟨lss, hlss, rfl⟩ := h
    obtain _ | ⟨hfirst, _ | ⟨hsecond, _ | _⟩⟩ := hlss
    rw [Source.lexemes_declaration hs] at hfirst
    cases hfirst
    exact ⟨_, hsecond, by simp [Source.numbered]⟩
  · obtain ⟨ls, hls, rfl⟩ := h
    refine ⟨[[.label s], ls], .cons (Source.lexemes_declaration hs) (.cons hls .nil), ?_⟩
    simp [Source.numbered]

/-- A text is assembled if it can be read and its tokens are assembled. -/
lemma Source.assemble_eq_ok_iff {text : String} {i : Image} :
    (Source.assemble text).outcome = .ok i ↔
      ∃ ts, tokens text = .ok ts ∧ (Chip8.assemble ts).outcome = .ok i := by
  have hread : ∀ ts, (read text).outcome = .ok ts ↔ tokens text = .ok ts := by
    intro ts
    rw [read, Logged.bind_outcome_eq_ok_iff]
    refine ⟨fun h => ?_, fun h => ⟨ts, h, rfl⟩⟩
    obtain ⟨us, hus, h⟩ := h
    cases h
    exact hus
  rw [Source.assemble, Logged.bind_outcome_eq_ok_iff]
  simp only [hread]

/-- What the instruction refers to decides whether the text is assembled, and to what. -/
lemma assemble_reference_eq_ok_iff {s : String} {op : AddressOp} {i : Image} {t rest : List Char}
    {l : Lexeme} (hs : Source.IsIdentifier s.toList) (hl : Source.OperandAt t l rest)
    (htext : s.toList = t ++ rest) :
    (Source.assemble (reference op s)).outcome = .ok i ↔
      ∃ ls, Source.operands rest = .ok ls ∧ (assemble (⟨.label s, 1⟩ ::
        ⟨.instruction op.mnemonic.name, 2⟩ :: (op.leading ++ l :: ls).map (⟨·, 2⟩))).outcome =
          .ok i := by
  have hline := Source.lexemes_written op hl
  rw [← htext] at hline
  simp only [Source.assemble_eq_ok_iff, tokens_reference_eq_ok_iff hs, hline]
  cases Source.operands rest with
  | error e => simp [Except.map]
  | ok ls => simp [Except.map]

/-! ### A name in the place of the address -/

/-- The operands are those of the instruction, with the label as its target. -/
lemma AddressOp.spells_name (op : AddressOp) (s : String) (line : Nat) :
    Spells ((op.leading ++ [Lexeme.name s]).map (⟨·, line⟩)) (.address op (.label s line)) := by
  have hname : Token.kind ⟨.name s, line⟩ ∈ [Kind.name, .literal] := .head _
  have halone : ∀ op ∈ [sys, jp, call], Spells [⟨.name s, line⟩] (.address op (.label s line)) :=
    fun _ hop => Spells.address (t := ⟨.name s, line⟩) hop hname
  cases op with
  | sys | jp | call => exact halone _ (by decide)
  | ldI => exact Spells.loadIndex (p := ⟨.name "I", line⟩) rfl hname
  | jpV0 => exact Spells.jumpV0 (p := ⟨.register 0#8, line⟩) rfl rfl hname

/-- A label at the start of a program is resolved to the load address. -/
lemma exists_assemble_reference (op : AddressOp) (s : String) :
    ∃ i, (assemble (⟨.label s, 1⟩ :: ⟨.instruction op.mnemonic.name, 2⟩ ::
        (op.leading ++ [Lexeme.name s]).map (⟨·, 2⟩))).outcome = .ok i ∧
      i.toList = op.wordAtBase.bytes := by
  have hm : Mnemonic.ofName? op.mnemonic.name = some op.mnemonic := by cases op <;> decide
  have hfind : (Layout.labels [.label s 1]).find? s = some (BitVec.ofNat 16 (0x200 + 0)) :=
    Layout.find?_labels_of_declaresAt (List.nodup_singleton s) ⟨[], 1, [], rfl, rfl⟩
  have hspells := op.spells_name s 2
  generalize (op.leading ++ [Lexeme.name s]).map (Token.mk · 2) = ops at hspells ⊢
  have hemits : Segment.Emits (Layout.labels [.label s 1])
      (.instruction op.mnemonic.name 2 ops) op.wordAtBase.bytes := by
    refine (Segment.emits_instruction_iff hm hspells).mpr
      ⟨.address op 0x200#12, ?_, by cases op <;> rfl⟩
    refine Instruction.resolve_address_eq_ok_iff.mpr ⟨_, ?_, rfl⟩
    rw [Target.resolve, Labels.resolve, hfind]
    rfl
  have hlayout : IsLayout (⟨.label s, 1⟩ :: ⟨.instruction op.mnemonic.name, 2⟩ :: ops)
      [.label s 1, .instruction op.mnemonic.name 2 ops] op.wordAtBase.bytes := by
    have hfits : 2 ≤ 4096 := by decide
    refine ⟨by simp [Segment.tokens], List.nodup_singleton s, ?_, hfits⟩
    exact .cons (.label s 1) (.cons hemits (.nil _))
  exact assemble_of_isLayout hlayout

/-! ### A register in the place of the address -/

/-- A row with an address has no register in its place. -/
lemma AddressOp.not_matches_register (op : AddressOp) {r : BitVec 8} {line : Nat}
    {ops rest us : List Token}
    (ht : ops ++ rest = op.leading.map (⟨·, line⟩) ++ ⟨.register r, line⟩ :: us) :
    ¬ (Form.address op).row.Matches ops := by
  have haddress : ¬ Slot.address.Admits (.register r) := by simp [Slot.Admits]
  intro h
  rw [Row.Matches] at h
  cases op with
  | sys | jp | call =>
      obtain _ | ⟨ha, -⟩ := h
      obtain ⟨rfl, -⟩ := List.cons.inj ht
      exact haddress ha
  | ldI | jpV0 =>
      obtain _ | ⟨-, _ | ⟨ha, -⟩⟩ := h
      obtain ⟨-, ht⟩ := List.cons.inj ht
      obtain ⟨rfl, -⟩ := List.cons.inj ht
      exact haddress ha

/-- The word of a reference is encoded by the row of its instruction, and by no other. -/
lemma AddressOp.row_eq_of_fits (op : AddressOp) {row : Row} (hrow : row ∈ opcodeTable)
    (h : row.fits op.wordAtBase = true) : row = (Form.address op).row := by
  have hmem : (Form.address op).row ∈ opcodeTable := Form.mem_opcodeTable_iff.mpr ⟨_, rfl⟩
  have hfits : (Form.address op).row.fits op.wordAtBase = true := by cases op <;> decide
  have hnone : ∀ m m', ¬ SharesWord m m' op.wordAtBase := by
    intro m m' hs
    generalize hw : op.wordAtBase = w at hs
    cases hs <;> cases op <;> cases hw
  rcases eq_or_sharesWord_of_fits hrow hmem h hfits with heq | hs | hs
  · exact heq
  · exact absurd hs (hnone _ _)
  · exact absurd hs (hnone _ _)

/-- Tokens that begin with a declaration begin with its segment. -/
lemma Layout.exists_eq_label_cons {segs : List Segment} {ts : List Token} {name : String}
    {line : Nat} (h : segs.flatMap Segment.tokens = ⟨.label name, line⟩ :: ts) :
    ∃ rest, segs = .label name line :: rest ∧ rest.flatMap Segment.tokens = ts := by
  cases segs with
  | nil => cases h
  | cons seg rest => cases seg <;> simp_all [Segment.tokens]

/-- Tokens that begin with an instruction begin with its segment. -/
lemma Layout.exists_eq_instruction_cons {segs : List Segment} {ts : List Token} {name : String}
    {line : Nat} (h : segs.flatMap Segment.tokens = ⟨.instruction name, line⟩ :: ts) :
    ∃ ops rest, segs = .instruction name line ops :: rest ∧
      ops ++ rest.flatMap Segment.tokens = ts := by
  cases segs with
  | nil => cases h
  | cons seg rest => cases seg <;> simp_all [Segment.tokens]

/-- With a register in the place of the address the image is another one. -/
lemma toList_ne_of_register {op : AddressOp} {s : String} {r : BitVec 8} {us : List Token}
    {i : Image}
    (h : (assemble (⟨.label s, 1⟩ :: ⟨.instruction op.mnemonic.name, 2⟩ ::
      (op.leading.map (⟨·, 2⟩) ++ ⟨.register r, 2⟩ :: us))).outcome = .ok i) :
    i.toList ≠ op.wordAtBase.bytes := by
  intro himg
  obtain ⟨segs, hl⟩ := exists_isLayout_of_assemble h
  obtain ⟨segs, rfl, hsegs⟩ := Layout.exists_eq_label_cons hl.tokens
  obtain ⟨ops, rest, rfl, hrest⟩ := Layout.exists_eq_instruction_cons hsegs
  have hemitted : Layout.Emitted []
      ([.label s 1] ++ .instruction op.mnemonic.name 2 ops :: rest) i.toList := hl.emitted
  obtain ⟨pre, bs, post, hbs, hpre, hbytes⟩ := hemitted.exists_split
  obtain rfl : pre = [] := List.eq_nil_of_length_eq_zero hpre
  obtain _ | _ | @⟨_, _, _, m, w, hm, hw⟩ := hbs
  obtain ⟨row, ops', huses⟩ := Mnemonic.exists_uses hw
  -- the image begins with the word of the instruction, which tells its row
  have hword : w = op.wordAtBase := by
    have hfirst := Layout.wordAt_append [] post w
    have hsame := Layout.wordAt_append [] [] op.wordAtBase
    rw [Word.bytes_eq_ofNat, hbytes, himg] at hfirst
    exact hfirst.symm.trans hsame
  subst hword
  obtain rfl := op.row_eq_of_fits huses.mem huses.encodes.fits
  rw [huses.tokens, List.append_nil] at hrest
  exact op.not_matches_register hrest huses.admits

/-! ### Labels that can be referred to -/

/-- **A label can be referred to if and only if it does not begin like a register.** This is
so for every identifier that can be declared and for every instruction that takes an address;
and the identifiers that do not begin with `V` and a hexadecimal digit are those that are
read as one name where an operand may stand. -/
theorem referable_iff {s : String} (hs : Source.IsIdentifier s.toList) :
    (∀ op, Referable op s ↔ ¬ Source.BeginsLikeRegister s.toList) ∧
      (Source.ReadAsName s ↔ ¬ Source.BeginsLikeRegister s.toList) := by
  refine ⟨fun op => ⟨fun h hreg => ?_, fun hreg => ?_⟩, Source.readAsName_iff hs⟩
  · obtain ⟨i, hi, himg⟩ := h
    obtain ⟨d, rest, htext, hd⟩ := hreg
    obtain ⟨ls, -, hi⟩ := (assemble_reference_eq_ok_iff hs (.register hd rest) htext).mp hi
    rw [List.map_append] at hi
    exact toList_ne_of_register hi himg
  · obtain ⟨i, hi, himg⟩ := exists_assemble_reference op s
    have hname : Source.OperandAt s.toList (.name s) [] :=
      Source.operandAt_name hs hreg (by simp)
    have htext : s.toList = s.toList ++ [] := (List.append_nil _).symm
    refine ⟨i, (assemble_reference_eq_ok_iff hs hname htext).mpr ?_, himg⟩
    exact ⟨[], Source.operands_nil, hi⟩

/-- A label may begin with `V` if no hexadecimal digit follows. -/
theorem referable_vsync :
    Source.IsIdentifier "Vsync".toList ∧ (∀ op, Referable op "Vsync") ∧
      Source.ReadAsName "Vsync" := by
  have hread : Source.identifier? "Vsync".toList = some ("Vsync".toList, []) := by decide
  have hs := (Source.identifier?_eq_some_iff.mp hread).2.1
  have hreg : ¬ Source.BeginsLikeRegister "Vsync".toList := by
    intro h
    obtain ⟨d, rest, htext, hd⟩ := h
    obtain ⟨rfl, -⟩ := List.cons.inj (List.cons.inj htext).2
    exact absurd hd (by decide)
  obtain ⟨href, hname⟩ := referable_iff hs
  exact ⟨hs, fun op => (href op).mpr hreg, hname.mpr hreg⟩

/-- A label that begins like a register can be declared, but `JP` takes it for a register and
fails, and `LD I` becomes another instruction. -/
theorem not_referable_v1 :
    Source.IsIdentifier "V1".toList ∧
      (Source.assemble (reference .jp "V1")).outcome = .error (.invalidOperand "V1" "V0" 2) ∧
      (∃ i, (Source.assemble (reference .ldI "V1")).outcome = .ok i ∧ i.toList = [0xF1, 0x55]) ∧
      ¬ Referable .jp "V1" ∧ ¬ Source.ReadAsName "V1" := by
  have hjp : (Source.assemble (reference .jp "V1")).outcome =
      .error (.invalidOperand "V1" "V0" 2) := by decide +kernel
  have hldI : (Source.assemble (reference .ldI "V1")).outcome =
      .ok ⟨#[0xF1, 0x55], by decide⟩ := by decide +kernel
  have hread : Source.identifier? "V1".toList = some ("V1".toList, []) := by decide
  have hs := (Source.identifier?_eq_some_iff.mp hread).2.1
  refine ⟨hs, hjp, ⟨_, hldI, rfl⟩, fun h => ?_, fun h => ?_⟩
  · obtain ⟨i, hi, -⟩ := h
    cases hjp.symm.trans hi
  · exact (Source.readAsName_iff hs).mp h ⟨'1', [], by decide, by decide⟩

end Chip8
