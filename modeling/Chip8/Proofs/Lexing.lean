/-
What a source text is read as.

The reading functions take characters while they can. Here the texts they accept are
described without them: a lexeme has a text, and the text that follows has to begin
with something that the lexeme cannot go on with.

* `IsCapital`, `IsLetter`, `IsIdentifierRest`, `IsHexDigit`, `IsSeparator`: the character
  classes as ranges.
* `span_eq_iff`: taking and dropping while a condition holds cuts a text at the first
  place where it fails.
* `OperandAt`, `HeadAt`: a lexeme with its text and what may follow.
* `operand?_eq_some_iff`, `head?_eq_some_iff`: reading a lexeme finds these texts.
* `OperandsAt`, `operands_eq_ok_iff`: **the operands of a line** are operand texts among
  separators, up to the end of the line or a comment.
* `lexemes_eq_ok_iff`: a line is a head with operands, or operands alone.
* `Text.lines_append_newline`: a text is cut at its line feeds.
* `tokensFrom_eq_ok_iff`: the tokens of a text are the lexemes of its lines, numbered.
-/
import Mathlib.Tactic
import Mathlib.Data.List.TakeWhile
import Chip8.Source

namespace Chip8

namespace Source

/-! ### Character classes -/

/-- A capital, `[A-Z]`. -/
def IsCapital (c : Char) : Prop := 'A' ≤ c ∧ c ≤ 'Z'

/-- The first character of an identifier, `[a-zA-Z_]`. -/
def IsLetter (c : Char) : Prop := 'a' ≤ c ∧ c ≤ 'z' ∨ 'A' ≤ c ∧ c ≤ 'Z' ∨ c = '_'

/-- A further character of an identifier, `[a-zA-Z0-9_-]`. -/
def IsIdentifierRest (c : Char) : Prop := IsLetter c ∨ '0' ≤ c ∧ c ≤ '9' ∨ c = '-'

/-- A digit of a literal or a register, `[0-9A-F]`. -/
def IsHexDigit (c : Char) : Prop := '0' ≤ c ∧ c ≤ '9' ∨ 'A' ≤ c ∧ c ≤ 'F'

/-- What may stand between operands: a space, a tab, a carriage return or a comma. -/
def IsSeparator (c : Char) : Prop := c = ' ' ∨ c = '\t' ∨ c = '\r' ∨ c = ','

instance : DecidablePred IsCapital := fun _ => inferInstanceAs (Decidable (_ ∧ _))

instance : DecidablePred IsLetter := fun _ => inferInstanceAs (Decidable (_ ∨ _))

instance : DecidablePred IsIdentifierRest := fun _ => inferInstanceAs (Decidable (_ ∨ _))

instance : DecidablePred IsHexDigit := fun _ => inferInstanceAs (Decidable (_ ∨ _))

instance : DecidablePred IsSeparator := fun _ => inferInstanceAs (Decidable (_ ∨ _))

@[simp] lemma isCapital_iff (c : Char) : isCapital c = true ↔ IsCapital c := by
  show decide (_ ∧ _) = true ↔ _
  exact decide_eq_true_iff

lemma isLower_iff (c : Char) : c.isLower = true ↔ 'a' ≤ c ∧ c ≤ 'z' := by
  show (decide _ && decide _) = true ↔ _
  rw [Bool.and_eq_true, decide_eq_true_iff, decide_eq_true_iff]
  rfl

lemma isDecimal_iff (c : Char) : c.isDigit = true ↔ '0' ≤ c ∧ c ≤ '9' := by
  show (decide _ && decide _) = true ↔ _
  rw [Bool.and_eq_true, decide_eq_true_iff, decide_eq_true_iff]
  rfl

@[simp] lemma isLetter_iff (c : Char) : isLetter c = true ↔ IsLetter c := by
  show (isCapital c || c.isLower || c == '_') = true ↔ _
  simp only [Bool.or_eq_true, isCapital_iff, isLower_iff, beq_iff_eq, IsLetter, IsCapital]
  tauto

@[simp] lemma isIdentifierRest_iff (c : Char) : isIdentifierRest c = true ↔ IsIdentifierRest c := by
  show (isCapital c || c.isLower || c.isDigit || c == '_' || c == '-') = true ↔ _
  simp only [Bool.or_eq_true, isCapital_iff, isLower_iff, isDecimal_iff, beq_iff_eq,
    IsIdentifierRest, IsLetter, IsCapital]
  tauto

@[simp] lemma isHexDigit_iff (c : Char) : Hex.isDigit c = true ↔ IsHexDigit c := by
  rw [Hex.isDigit, Bool.or_eq_true, isDecimal_iff, Bool.and_eq_true, decide_eq_true_iff,
    decide_eq_true_iff]
  rfl

@[simp] lemma isSeparator_iff (c : Char) : isSeparator c = true ↔ IsSeparator c := by
  simp only [isSeparator, IsSeparator, Bool.or_eq_true, beq_iff_eq]
  tauto

variable {c : Char}

/-- A capital may stand in an identifier. -/
lemma IsCapital.isLetter (h : IsCapital c) : IsLetter c := .inr (.inl h)

lemma IsLetter.isIdentifierRest (h : IsLetter c) : IsIdentifierRest c := .inl h

/-- A hexadecimal digit may stand in an identifier. -/
lemma IsHexDigit.isIdentifierRest (h : IsHexDigit c) : IsIdentifierRest c := by
  rcases h with h | ⟨hA, hF⟩
  · exact .inr (.inl h)
  · exact IsLetter.isIdentifierRest (.inr (.inl ⟨hA, Char.le_trans hF (by decide)⟩))

lemma IsHexDigit.digitValue_lt (h : IsHexDigit c) : Hex.digitValue c < 16 := by
  have hle : ∀ {a b : Char}, a ≤ b ↔ a.toNat ≤ b.toNat := UInt32.le_iff_toNat_le
  have h0 : '0'.toNat = 48 := rfl
  have h9 : '9'.toNat = 57 := rfl
  have hA : 'A'.toNat = 65 := rfl
  have hF : 'F'.toNat = 70 := rfl
  simp only [IsHexDigit, hle] at h
  rw [Hex.digitValue]
  split_ifs with hd
  · rw [isDecimal_iff, hle, hle] at hd
    omega
  · rw [isDecimal_iff, hle, hle] at hd
    omega

/-- No character of an identifier is a separator. -/
lemma IsIdentifierRest.not_isSeparator (h : IsIdentifierRest c) : ¬ IsSeparator c := by
  intro hs
  rcases hs with rfl | rfl | rfl | rfl <;> revert h <;> decide

/-! ### Taking as much as possible -/

/-- The next character of a text, if there is one, is not in a class. -/
def Stops (p : Char → Prop) (rest : List Char) : Prop := ∀ c ∈ rest.head?, ¬ p c

lemma Stops.nil (p : Char → Prop) : Stops p [] := by
  intro c hc
  cases hc

lemma stops_cons_iff {p : Char → Prop} {rest : List Char} : Stops p (c :: rest) ↔ ¬ p c := by
  refine ⟨fun h => h c rfl, fun h d hd => ?_⟩
  obtain rfl := Option.some.inj hd
  exact h

lemma Stops.mono {p q : Char → Prop} {rest : List Char} (h : Stops q rest)
    (hpq : ∀ c, p c → q c) : Stops p rest :=
  fun c hc hp => h c hc (hpq c hp)

/-- Taking and dropping while a condition holds is cutting at the first place where it
fails. -/
lemma span_eq_iff {b : Char → Bool} {p : Char → Prop} (hb : ∀ c, b c = true ↔ p c)
    {s t rest : List Char} :
    s.takeWhile b = t ∧ s.dropWhile b = rest ↔ s = t ++ rest ∧ (∀ c ∈ t, p c) ∧ Stops p rest := by
  refine ⟨fun h => ?_, fun h => ?_⟩
  · obtain ⟨rfl, rfl⟩ := h
    refine ⟨(List.takeWhile_append_dropWhile).symm, fun c hc => ?_, fun c hc => ?_⟩
    · exact (hb c).mp (List.mem_takeWhile_imp hc)
    · have hstop := List.head?_dropWhile_not b s
      rw [Option.mem_def.mp hc] at hstop
      rw [← hb, hstop]
      exact Bool.false_ne_true
  · obtain ⟨rfl, ht, hrest⟩ := h
    have htake : ∀ c ∈ t, b c = true := fun c hc => (hb c).mpr (ht c hc)
    rw [List.takeWhile_append_of_pos htake, List.dropWhile_append_of_pos htake]
    cases rest with
    | nil => exact ⟨List.append_nil t, rfl⟩
    | cons c rest =>
        have hc : ¬ b c = true := mt (hb c).mp (stops_cons_iff.mp hrest)
        rw [List.takeWhile_cons_of_neg hc, List.dropWhile_cons_of_neg hc]
        exact ⟨List.append_nil t, rfl⟩

/-! ### Lexemes and their texts -/

/-- An identifier, `[a-zA-Z_][a-zA-Z0-9_-]*`. -/
def IsIdentifier (s : List Char) : Prop :=
  ∃ c cs, s = c :: cs ∧ IsLetter c ∧ ∀ d ∈ cs, IsIdentifierRest d

/-- A text that begins with a register. -/
def BeginsLikeRegister (s : List Char) : Prop := ∃ d rest, s = 'V' :: d :: rest ∧ IsHexDigit d

/-- An operand: its text, the lexeme that it is read as, and the text that follows. A
literal and a name are followed by nothing that would be part of them; a register always
has one digit. -/
inductive OperandAt : List Char → Lexeme → List Char → Prop
  | register {d : Char} (hd : IsHexDigit d) (rest : List Char) :
      OperandAt ['V', d] (.register (BitVec.ofNat 8 (Hex.digitValue d))) rest
  | literal {ds rest : List Char} (hne : ds ≠ []) (hds : ∀ d ∈ ds, IsHexDigit d)
      (hrest : Stops IsHexDigit rest) :
      OperandAt ('0' :: 'x' :: ds) (.literal (Hex.value 64 ds)) rest
  | name {s rest : List Char} (hs : IsIdentifier s) (hreg : ¬ BeginsLikeRegister s)
      (hrest : Stops IsIdentifierRest rest) : OperandAt s (.name (String.ofList s)) rest

/-- The head of a line: its text, the lexeme that it is read as, and the text that
follows. Capitals are the name of an instruction if the identifier that they begin does
not end at a colon. -/
inductive HeadAt : List Char → Lexeme → List Char → Prop
  | label {s : List Char} (hs : IsIdentifier s) (rest : List Char) :
      HeadAt (s ++ [':']) (.label (String.ofList s)) rest
  | instruction {s rest : List Char} (hne : s ≠ []) (hs : ∀ c ∈ s, IsCapital c)
      (hrest : Stops IsCapital rest) (hcolon : Stops (· = ':') (rest.dropWhile isIdentifierRest)) :
      HeadAt s (.instruction (String.ofList s)) rest

/-- The text after the head of a line: operands among separators, then the end of the
line or a comment. -/
inductive OperandsAt : List Char → List Lexeme → Prop
  | stop {seps tail : List Char} (hs : ∀ c ∈ seps, IsSeparator c)
      (ht : tail = [] ∨ ∃ comment, tail = ';' :: comment) : OperandsAt (seps ++ tail) []
  | next {seps text rest : List Char} {l : Lexeme} {ls : List Lexeme}
      (hs : ∀ c ∈ seps, IsSeparator c) (hl : OperandAt text l rest) (hr : OperandsAt rest ls) :
      OperandsAt (seps ++ (text ++ rest)) (l :: ls)

/-! ### Reading one lexeme -/

variable {s rest : List Char} {l : Lexeme}

lemma identifier?_eq_some_iff {name : List Char} :
    identifier? s = some (name, rest) ↔
      s = name ++ rest ∧ IsIdentifier name ∧ Stops IsIdentifierRest rest := by
  cases s with
  | nil =>
      refine ⟨fun h => (by cases h), fun h => ?_⟩
      obtain ⟨hnil, ⟨c, cs, rfl, -⟩, -⟩ := h
      cases hnil
  | cons c cs =>
      have hspan := @span_eq_iff _ _ isIdentifierRest_iff cs
      rw [identifier?]
      by_cases hc : isLetter c = true
      · rw [if_pos hc]
        refine ⟨fun h => ?_, fun h => ?_⟩
        · cases h
          obtain ⟨hcs, hin, hstop⟩ := hspan.mp ⟨rfl, rfl⟩
          refine ⟨?_, ⟨c, _, rfl, (isLetter_iff _).mp hc, hin⟩, hstop⟩
          rw [List.cons_append, ← hcs]
        · obtain ⟨hs, ⟨d, ds, rfl, hd, hds⟩, hstop⟩ := h
          obtain ⟨rfl, hcs⟩ := List.cons.inj hs
          obtain ⟨htake, hdrop⟩ := hspan.mpr ⟨hcs, hds, hstop⟩
          rw [htake, hdrop]
      · rw [if_neg hc]
        refine ⟨fun h => (by cases h), fun h => ?_⟩
        obtain ⟨hs, ⟨d, ds, rfl, hd, -⟩, -⟩ := h
        obtain ⟨rfl, -⟩ := List.cons.inj hs
        exact absurd ((isLetter_iff _).mpr hd) hc

lemma register?_eq_some_iff :
    register? s = some (l, rest) ↔
      ∃ d, s = 'V' :: d :: rest ∧ IsHexDigit d ∧
        l = .register (BitVec.ofNat 8 (Hex.digitValue d)) := by
  refine ⟨fun h => ?_, fun h => ?_⟩
  · unfold register? at h
    split at h
    · split_ifs at h with hd
      cases h
      exact ⟨_, rfl, (isHexDigit_iff _).mp hd, rfl⟩
    · cases h
  · obtain ⟨d, rfl, hd, rfl⟩ := h
    exact if_pos ((isHexDigit_iff _).mpr hd)

lemma register?_eq_none_iff : register? s = none ↔ ¬ BeginsLikeRegister s := by
  rw [Option.eq_none_iff_forall_not_mem]
  refine ⟨fun h hs => ?_, fun h p hp => ?_⟩
  · obtain ⟨d, rest, hs, hd⟩ := hs
    exact h _ (register?_eq_some_iff.mpr ⟨d, hs, hd, rfl⟩)
  · obtain ⟨d, hs, hd, -⟩ := register?_eq_some_iff.mp hp
    exact h ⟨d, _, hs, hd⟩

lemma literal?_eq_some_iff :
    literal? s = some (l, rest) ↔
      ∃ ds, s = '0' :: 'x' :: (ds ++ rest) ∧ ds ≠ [] ∧ (∀ d ∈ ds, IsHexDigit d) ∧
        Stops IsHexDigit rest ∧ l = .literal (Hex.value 64 ds) := by
  refine ⟨fun h => ?_, fun h => ?_⟩
  · unfold literal? at h
    split at h
    · next t =>
      obtain ⟨ht, hds, hstop⟩ := (@span_eq_iff _ _ isHexDigit_iff t _ _).mp ⟨rfl, rfl⟩
      split at h
      · cases h
      · next hne =>
        cases h
        exact ⟨_, by rw [← ht], hne, hds, hstop, rfl⟩
    · cases h
  · obtain ⟨ds, rfl, hne, hds, hstop, rfl⟩ := h
    obtain ⟨htake, hdrop⟩ := (span_eq_iff isHexDigit_iff).mpr ⟨rfl, hds, hstop⟩
    simp only [literal?, htake, hdrop]

lemma name?_eq_some_iff :
    name? s = some (l, rest) ↔
      ∃ t, s = t ++ rest ∧ IsIdentifier t ∧ Stops IsIdentifierRest rest ∧
        l = .name (String.ofList t) := by
  rw [name?, Option.map_eq_some_iff]
  refine ⟨fun h => ?_, fun h => ?_⟩
  · obtain ⟨⟨t, rest'⟩, ht, he⟩ := h
    cases he
    obtain ⟨hs, hid, hstop⟩ := identifier?_eq_some_iff.mp ht
    exact ⟨t, hs, hid, hstop, rfl⟩
  · obtain ⟨t, hs, hid, hstop, rfl⟩ := h
    exact ⟨(t, rest), identifier?_eq_some_iff.mpr ⟨hs, hid, hstop⟩, rfl⟩

/-- Whether a text begins like a register is decided within its first identifier. -/
lemma BeginsLikeRegister.of_append {t : List Char} (ht : t ≠ [])
    (hstop : Stops IsIdentifierRest rest) (h : BeginsLikeRegister (t ++ rest)) :
    BeginsLikeRegister t := by
  obtain ⟨d, after, hs, hd⟩ := h
  cases t with
  | nil => exact absurd rfl ht
  | cons c cs =>
      obtain ⟨rfl, hcs⟩ := List.cons.inj hs
      cases cs with
      | nil =>
          rw [show rest = d :: after from hcs, stops_cons_iff] at hstop
          exact absurd hd.isIdentifierRest hstop
      | cons d' ds =>
          obtain ⟨rfl, -⟩ := List.cons.inj hcs
          exact ⟨d', ds, rfl, hd⟩

lemma BeginsLikeRegister.append {t : List Char} (h : BeginsLikeRegister t) (rest : List Char) :
    BeginsLikeRegister (t ++ rest) := by
  obtain ⟨d, after, rfl, hd⟩ := h
  exact ⟨d, after ++ rest, rfl, hd⟩

/-- **Reading an operand** finds the text of one. -/
theorem operand?_eq_some_iff :
    operand? s = some (l, rest) ↔ ∃ t, OperandAt t l rest ∧ s = t ++ rest := by
  rw [operand?]
  refine ⟨fun h => ?_, fun h => ?_⟩
  · cases hr : register? s with
    | some p =>
        rw [hr] at h
        cases h
        obtain ⟨d, rfl, hd, rfl⟩ := register?_eq_some_iff.mp hr
        exact ⟨['V', d], .register hd rest, rfl⟩
    | none =>
        cases hl : literal? s with
        | some p =>
            rw [hr, hl] at h
            cases h
            obtain ⟨ds, rfl, hne, hds, hstop, rfl⟩ := literal?_eq_some_iff.mp hl
            exact ⟨_, .literal hne hds hstop, rfl⟩
        | none =>
            rw [hr, hl] at h
            obtain ⟨t, rfl, hid, hstop, rfl⟩ := name?_eq_some_iff.mp h
            have hreg : ¬ BeginsLikeRegister t :=
              fun h => register?_eq_none_iff.mp hr (h.append rest)
            exact ⟨t, .name hid hreg hstop, rfl⟩
  · obtain ⟨t, ht, rfl⟩ := h
    cases ht with
    | register hd =>
        have hr : register? (['V', _] ++ rest) = some (_, rest) :=
          register?_eq_some_iff.mpr ⟨_, rfl, hd, rfl⟩
        rw [hr]
        rfl
    | literal hne hds hstop =>
        have hl : literal? ('0' :: 'x' :: _ ++ rest) = some (_, rest) :=
          literal?_eq_some_iff.mpr ⟨_, rfl, hne, hds, hstop, rfl⟩
        rw [hl]
        rfl
    | name hid hreg hstop =>
        have hn := name?_eq_some_iff.mpr ⟨t, rfl, hid, hstop, rfl⟩
        obtain ⟨c, cs, rfl, hc, -⟩ := hid
        have hr : register? (c :: cs ++ rest) = none :=
          register?_eq_none_iff.mpr fun h => hreg (h.of_append (List.cons_ne_nil c cs) hstop)
        have hl : literal? (c :: cs ++ rest) = none := by
          rw [Option.eq_none_iff_forall_not_mem]
          intro p hp
          obtain ⟨ds, hs, -⟩ := literal?_eq_some_iff.mp hp
          obtain ⟨rfl, -⟩ := List.cons.inj hs
          exact absurd hc (by decide)
        rw [hr, hl, hn]
        rfl

lemma label?_eq_some_iff :
    label? s = some (l, rest) ↔
      ∃ t, s = t ++ ':' :: rest ∧ IsIdentifier t ∧ l = .label (String.ofList t) := by
  have hcolon : Stops IsIdentifierRest (':' :: rest) := stops_cons_iff.mpr (by decide)
  refine ⟨fun h => ?_, fun h => ?_⟩
  · unfold label? at h
    split at h
    · next name rest' hid =>
      cases h
      obtain ⟨rfl, hname, -⟩ := identifier?_eq_some_iff.mp hid
      exact ⟨name, rfl, hname, rfl⟩
    · cases h
  · obtain ⟨t, rfl, ht, rfl⟩ := h
    rw [label?, identifier?_eq_some_iff.mpr ⟨rfl, ht, hcolon⟩]
    rfl

lemma instruction?_eq_some_iff :
    instruction? s = some (l, rest) ↔
      ∃ t, s = t ++ rest ∧ t ≠ [] ∧ (∀ c ∈ t, IsCapital c) ∧ Stops IsCapital rest ∧
        l = .instruction (String.ofList t) := by
  refine ⟨fun h => ?_, fun h => ?_⟩
  · obtain ⟨hs, hcap, hstop⟩ := (@span_eq_iff _ _ isCapital_iff s _ _).mp ⟨rfl, rfl⟩
    unfold instruction? at h
    split at h
    · cases h
    · next hne =>
      cases h
      exact ⟨_, hs, hne, hcap, hstop, rfl⟩
  · obtain ⟨t, rfl, hne, hcap, hstop, rfl⟩ := h
    obtain ⟨htake, hdrop⟩ := (span_eq_iff isCapital_iff).mpr ⟨rfl, hcap, hstop⟩
    simp only [instruction?, htake, hdrop]

/-- Capitals begin a label exactly if the identifier that they begin ends at a colon. -/
lemma label?_capitals_eq_none_iff {t : List Char} (hne : t ≠ []) (hcap : ∀ c ∈ t, IsCapital c) :
    label? (t ++ rest) = none ↔ Stops (· = ':') (rest.dropWhile isIdentifierRest) := by
  obtain ⟨hrest, hin, hstop⟩ := (@span_eq_iff _ _ isIdentifierRest_iff rest _ _).mp ⟨rfl, rfl⟩
  have hid : IsIdentifier (t ++ rest.takeWhile isIdentifierRest) := by
    obtain ⟨c, cs, rfl⟩ := List.exists_cons_of_ne_nil hne
    refine ⟨c, _, List.cons_append, (hcap c (.head _)).isLetter, fun d hd => ?_⟩
    rcases List.mem_append.mp hd with hd | hd
    · exact (hcap d (.tail _ hd)).isLetter.isIdentifierRest
    · exact hin d hd
  have hfind : identifier? (t ++ rest) =
      some (t ++ rest.takeWhile isIdentifierRest, rest.dropWhile isIdentifierRest) := by
    refine identifier?_eq_some_iff.mpr ⟨?_, hid, hstop⟩
    rw [List.append_assoc, ← hrest]
  rw [label?, hfind]
  cases rest.dropWhile isIdentifierRest with
  | nil => exact ⟨fun _ => .nil _, fun _ => rfl⟩
  | cons c after =>
      rw [stops_cons_iff]
      by_cases hc : c = ':'
      · subst hc
        exact ⟨fun h => (by cases h), fun h => absurd rfl h⟩
      · refine ⟨fun _ => hc, fun _ => ?_⟩
        split
        · next he =>
          cases he
          exact absurd rfl hc
        · rfl

/-- **Reading the head of a line** finds the text of one. -/
theorem head?_eq_some_iff :
    head? s = some (l, rest) ↔ ∃ t, HeadAt t l rest ∧ s = t ++ rest := by
  rw [head?]
  refine ⟨fun h => ?_, fun h => ?_⟩
  · cases hl : label? s with
    | some p =>
        rw [hl] at h
        cases h
        obtain ⟨t, rfl, ht, rfl⟩ := label?_eq_some_iff.mp hl
        exact ⟨t ++ [':'], .label ht rest, by simp⟩
    | none =>
        rw [hl] at h
        obtain ⟨t, rfl, hne, hcap, hstop, rfl⟩ := instruction?_eq_some_iff.mp h
        exact ⟨t, .instruction hne hcap hstop ((label?_capitals_eq_none_iff hne hcap).mp hl), rfl⟩
  · obtain ⟨t, ht, rfl⟩ := h
    cases ht with
    | @label t ht =>
        have hl : label? (t ++ [':'] ++ rest) = some (_, rest) :=
          label?_eq_some_iff.mpr ⟨t, by simp, ht, rfl⟩
        rw [hl]
        rfl
    | instruction hne hcap hstop hcolon =>
        rw [(label?_capitals_eq_none_iff hne hcap).mpr hcolon,
          instruction?_eq_some_iff.mpr ⟨t, rfl, hne, hcap, hstop, rfl⟩]
        rfl

/-! ### Reading a line -/

lemma OperandAt.exists_cons {t : List Char} (h : OperandAt t l rest) :
    ∃ c cs, t = c :: cs ∧ ¬ IsSeparator c ∧ c ≠ ';' := by
  cases h with
  | register hd => exact ⟨_, _, rfl, by decide, by decide⟩
  | literal hne hds hstop => exact ⟨_, _, rfl, by decide, by decide⟩
  | name hid hreg hstop =>
      obtain ⟨c, cs, rfl, hc, -⟩ := hid
      refine ⟨c, cs, rfl, hc.isIdentifierRest.not_isSeparator, ?_⟩
      rintro rfl
      exact absurd hc (by decide)

/-- The operands of a text in which an operand follows separators. -/
lemma operands_append {seps t : List Char} (hs : ∀ c ∈ seps, IsSeparator c)
    (h : OperandAt t l rest) :
    operands (seps ++ (t ++ rest)) = (operands rest).map (l :: ·) := by
  have ho := operand?_eq_some_iff.mpr ⟨t, h, rfl⟩
  obtain ⟨c, cs, rfl, hc, hsemi⟩ := h.exists_cons
  have hdrop : (seps ++ (c :: cs ++ rest)).dropWhile isSeparator = c :: cs ++ rest :=
    ((span_eq_iff isSeparator_iff).mpr ⟨rfl, hs, stops_cons_iff.mpr hc⟩).2
  rw [operands]
  split
  · next hnil =>
    rw [hdrop] at hnil
    cases hnil
  · next hcons =>
    rw [hdrop] at hcons
    cases hcons
    rw [if_neg hsemi]
    split
    · next hnone => cases hnone.symm.trans ho
    · next hsome =>
      cases hsome.symm.trans ho
      rfl

/-- The operands of a text without any. -/
lemma operands_stop {seps tail : List Char} (hs : ∀ c ∈ seps, IsSeparator c)
    (ht : tail = [] ∨ ∃ comment, tail = ';' :: comment) : operands (seps ++ tail) = .ok [] := by
  have hstop : Stops IsSeparator tail := by
    rcases ht with rfl | ⟨comment, rfl⟩
    · exact .nil _
    · exact stops_cons_iff.mpr (by decide)
  have hdrop : (seps ++ tail).dropWhile isSeparator = tail :=
    ((span_eq_iff isSeparator_iff).mpr ⟨rfl, hs, hstop⟩).2
  rw [operands]
  split
  · rfl
  · next hcons =>
    rw [hdrop] at hcons
    rcases ht with rfl | ⟨comment, rfl⟩
    · cases hcons
    · cases hcons
      rw [if_pos rfl]

/-- Separators may be cut off. -/
lemma exists_separators (s : List Char) :
    ∃ seps, (∀ c ∈ seps, IsSeparator c) ∧ s = seps ++ s.dropWhile isSeparator := by
  obtain ⟨hs, hseps, -⟩ := (@span_eq_iff _ _ isSeparator_iff s _ _).mp ⟨rfl, rfl⟩
  exact ⟨_, hseps, hs⟩

lemma map_cons_eq_ok_iff {e : Except (List Char) (List Lexeme)} {ls : List Lexeme} :
    e.map (l :: ·) = .ok ls ↔ ∃ ls', e = .ok ls' ∧ ls = l :: ls' := by
  cases e with
  | error a => simp [Except.map]
  | ok ls' => simp [Except.map, eq_comm]

/-- **The operands of a line** are what stands among separators up to the end or a
comment. -/
theorem operands_eq_ok_iff {ls : List Lexeme} : operands s = .ok ls ↔ OperandsAt s ls := by
  refine ⟨fun h => ?_, fun h => ?_⟩
  · -- along the recursion of `operands`
    fun_induction operands s generalizing ls with
    | case1 s hs =>
        cases h
        obtain ⟨seps, hseps, hs'⟩ := exists_separators s
        rw [hs', hs]
        exact .stop hseps (.inl rfl)
    | case2 s comment hs =>
        cases h
        obtain ⟨seps, hseps, hs'⟩ := exists_separators s
        rw [hs', hs]
        exact .stop hseps (.inr ⟨comment, rfl⟩)
    | case3 s c cs hs hsemi hnone => cases h
    | case4 s c cs hs hsemi l rest hsome hlt ih =>
        obtain ⟨ls, hls, rfl⟩ := map_cons_eq_ok_iff.mp h
        obtain ⟨t, ht, htext⟩ := operand?_eq_some_iff.mp hsome
        obtain ⟨seps, hseps, hs'⟩ := exists_separators s
        rw [hs', hs, htext]
        exact .next hseps ht (ih hls)
  · induction h with
    | stop hs ht => exact operands_stop hs ht
    | next hs hl _ ih =>
        rw [operands_append hs hl, ih]
        rfl

/-- **The lexemes of a line** are a head and the operands after it, or operands alone
if no head is there. -/
theorem lexemes_eq_ok_iff {ls : List Lexeme} :
    lexemes s = .ok ls ↔
      (∃ t l rest ls', s = t ++ rest ∧ HeadAt t l rest ∧ OperandsAt rest ls' ∧ ls = l :: ls') ∨
        head? s = none ∧ OperandsAt s ls := by
  rw [lexemes]
  cases h : head? s with
  | none =>
      simp only [operands_eq_ok_iff, true_and]
      refine ⟨.inr, fun ho => ?_⟩
      rcases ho with ⟨t, l, rest, ls', hs, ht, -⟩ | ho
      · rw [head?_eq_some_iff.mpr ⟨t, ht, hs⟩] at h
        cases h
      · exact ho
  | some p =>
      obtain ⟨l, rest⟩ := p
      obtain ⟨t, ht, hs⟩ := head?_eq_some_iff.mp h
      simp only [map_cons_eq_ok_iff, operands_eq_ok_iff]
      refine ⟨fun ho => ?_, fun ho => ?_⟩
      · obtain ⟨ls', ho, rfl⟩ := ho
        exact .inl ⟨t, l, rest, ls', hs, ht, ho, rfl⟩
      · rcases ho with ⟨t', l', rest', ls', hs', ht', ho, rfl⟩ | ⟨hnone, -⟩
        · have h' := head?_eq_some_iff.mpr ⟨t', ht', hs'⟩
          rw [h] at h'
          cases h'
          exact ⟨ls', ho, rfl⟩
        · cases hnone

end Source

/-! ### Reading a text -/

namespace Text

variable {s t : List Char}

lemma lines_nil : lines [] = [] := by
  rw [lines]
  rfl

/-- A text without a line feed is one line. -/
lemma lines_of_not_mem (hne : s ≠ []) (hs : '\n' ∉ s) : lines s = [s] := by
  have hdrop : s.dropWhile (· != '\n') = [] := by
    rw [List.dropWhile_eq_nil_iff]
    intro c hc
    exact bne_iff_ne.mpr fun h => hs (h ▸ hc)
  rw [lines]
  split
  · rw [if_neg (mt List.isEmpty_iff.mp hne)]
  · next hcons =>
    rw [hdrop] at hcons
    cases hcons

/-- A line feed ends the first line. -/
lemma lines_append_newline (hs : '\n' ∉ s) :
    lines (s ++ '\n' :: t) = withoutReturn s :: lines t := by
  have hin : ∀ c ∈ s, (c != '\n') = true := fun c hc => bne_iff_ne.mpr fun h => hs (h ▸ hc)
  have hdrop : (s ++ '\n' :: t).dropWhile (· != '\n') = '\n' :: t := by
    rw [List.dropWhile_append_of_pos hin]
    rfl
  have htake : (s ++ '\n' :: t).takeWhile (· != '\n') = s := by
    rw [List.takeWhile_append_of_pos hin]
    exact List.append_nil s
  rw [lines]
  split
  · next hnil =>
    rw [hdrop] at hnil
    cases hnil
  · next hcons =>
    rw [hdrop] at hcons
    cases hcons
    rw [htake]

end Text

namespace Source

/-- The tokens of lines of lexemes, of which the first has the given number. -/
def numbered (line : Nat) : List (List Lexeme) → List Token
  | [] => []
  | ls :: rest => ls.map (⟨·, line⟩) ++ numbered (line + 1) rest

lemma lineTokens_eq_ok_iff {line : Nat} {s : List Char} {ts : List Token} :
    lineTokens line s = .ok ts ↔ ∃ ls, lexemes s = .ok ls ∧ ts = ls.map (⟨·, line⟩) := by
  rw [lineTokens]
  cases lexemes s with
  | error rest => simp
  | ok ls => simp [eq_comm]

/-- **The tokens of lines** are the lexemes of each, numbered. -/
theorem tokensFrom_eq_ok_iff {line : Nat} {texts : List (List Char)} {ts : List Token} :
    tokensFrom line texts = .ok ts ↔
      ∃ lss, List.Forall₂ (fun s ls => lexemes s = .ok ls) texts lss ∧ ts = numbered line lss := by
  induction texts generalizing line ts with
  | nil =>
      refine ⟨fun h => ?_, fun h => ?_⟩
      · cases h
        exact ⟨[], .nil, rfl⟩
      · obtain ⟨lss, hlss, rfl⟩ := h
        cases hlss
        rfl
  | cons s texts ih =>
      rw [tokensFrom]
      refine ⟨fun h => ?_, fun h => ?_⟩
      · cases hs : lineTokens line s with
        | error e =>
            rw [hs] at h
            cases h
        | ok here =>
            cases hr : tokensFrom (line + 1) texts with
            | error e =>
                rw [hs, hr] at h
                cases h
            | ok below =>
                rw [hs, hr] at h
                cases h
                obtain ⟨ls, hls, rfl⟩ := lineTokens_eq_ok_iff.mp hs
                obtain ⟨lss, hlss, rfl⟩ := ih.mp hr
                exact ⟨ls :: lss, .cons hls hlss, rfl⟩
      · obtain ⟨lss, hlss, rfl⟩ := h
        obtain _ | @⟨_, ls, _, lss, hls, hlss⟩ := hlss
        rw [lineTokens_eq_ok_iff.mpr ⟨ls, hls, rfl⟩, ih.mpr ⟨lss, hlss, rfl⟩]
        rfl

end Source

end Chip8
