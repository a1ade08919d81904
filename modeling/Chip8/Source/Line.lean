/-
The lexemes of one source line.

A line may open, in its first column, with a *head*: a label declaration (an
identifier with a colon directly after it) or the name of an instruction (a run
of capitals). Operands follow, in any number and with any separators around
them, up to the end of the line or a semicolon. Nothing has to stand between
two operands: `V12` is a register and then a text that is no operand, `V1V2` is
two registers.

* `isSeparator`, `isLetter`, `isIdentifierRest`, `isCapital`: the character
  classes. They are ASCII: no other character is part of a lexeme.
* `identifier?`: the longest identifier at the start of a text.
* `head?`, `operand?`: one lexeme and the text after it; `operand?_shorter` says
  that an operand takes at least one character.
* `operands`, `lexemes`: all lexemes of a line, or the text at which reading
  stopped.
-/
import Chip8.Token

namespace Chip8

namespace Source

/-! ### Character classes -/

/-- The characters that may stand between operands. -/
def isSeparator (c : Char) : Bool :=
  c == ' ' || c == '\t' || c == '\r' || c == ','

/-- The characters that may start an identifier: ASCII letters and the low line. -/
def isLetter (c : Char) : Bool :=
  c.isAlpha || c == '_'

/-- The characters that may follow in an identifier: also digits and hyphens. -/
def isIdentifierRest (c : Char) : Bool :=
  c.isAlphanum || c == '_' || c == '-'

/-- The characters of an instruction name. -/
def isCapital (c : Char) : Bool :=
  c.isUpper

/-! ### Single lexemes -/

/-- The longest identifier at the start of a text, and the text after it. -/
def identifier? : List Char → Option (List Char × List Char)
  | [] => none
  | c :: cs =>
    if isLetter c then some (c :: cs.takeWhile isIdentifierRest, cs.dropWhile isIdentifierRest)
    else none

/-- The label declaration at the start of a text: its identifier must reach the
colon. -/
def label? (s : List Char) : Option (Lexeme × List Char) :=
  match identifier? s with
  | some (name, ':' :: rest) => some (.label (String.ofList name), rest)
  | _ => none

/-- The instruction name at the start of a text. -/
def instruction? (s : List Char) : Option (Lexeme × List Char) :=
  match s.takeWhile isCapital with
  | [] => none
  | name => some (.instruction (String.ofList name), s.dropWhile isCapital)

/-- The head of a line. A run of capitals before a colon is a label. -/
def head? (s : List Char) : Option (Lexeme × List Char) :=
  label? s <|> instruction? s

/-- The register at the start of a text: `V` and exactly one digit. -/
def register? : List Char → Option (Lexeme × List Char)
  | 'V' :: d :: rest =>
    if Hex.isDigit d then some (.register (BitVec.ofNat 8 (Hex.digitValue d)), rest) else none
  | _ => none

/-- The literal at the start of a text: `0x` and as many digits as there are,
at least one. -/
def literal? : List Char → Option (Lexeme × List Char)
  | '0' :: 'x' :: s =>
    match s.takeWhile Hex.isDigit with
    | [] => none
    | ds => some (.literal (Hex.value 64 ds), s.dropWhile Hex.isDigit)
  | _ => none

/-- The operand name at the start of a text. -/
def name? (s : List Char) : Option (Lexeme × List Char) :=
  (identifier? s).map fun r => (.name (String.ofList r.1), r.2)

/-- The operand at the start of a text. A register is tried before a name, so
that `V0` is never one. -/
def operand? (s : List Char) : Option (Lexeme × List Char) :=
  register? s <|> literal? s <|> name? s

/-! ### Reading takes characters -/

/-- What follows an identifier is shorter than the text. -/
theorem identifier?_shorter {s name rest : List Char} (h : identifier? s = some (name, rest)) :
    rest.length < s.length := by
  cases s with
  | nil => cases h
  | cons c cs =>
    simp only [identifier?] at h
    split at h
    · cases h
      have := (List.dropWhile_sublist (l := cs) isIdentifierRest).length_le
      simp only [List.length_cons]
      omega
    · cases h

/-- What follows a register is shorter than the text. -/
theorem register?_shorter {s rest : List Char} {l : Lexeme} (h : register? s = some (l, rest)) :
    rest.length < s.length := by
  unfold register? at h
  split at h
  · split at h
    · cases h
      simp only [List.length_cons]
      omega
    · cases h
  · cases h

/-- What follows a literal is shorter than the text. -/
theorem literal?_shorter {s rest : List Char} {l : Lexeme} (h : literal? s = some (l, rest)) :
    rest.length < s.length := by
  unfold literal? at h
  split at h
  · next t =>
    split at h
    · cases h
    · cases h
      have := (List.dropWhile_sublist (l := t) Hex.isDigit).length_le
      simp only [List.length_cons]
      omega
  · cases h

/-- What follows a name is shorter than the text. -/
theorem name?_shorter {s rest : List Char} {l : Lexeme} (h : name? s = some (l, rest)) :
    rest.length < s.length := by
  obtain ⟨r, hr, he⟩ := Option.map_eq_some_iff.1 h
  cases he
  exact identifier?_shorter hr

/-- An operand takes at least one character: what follows it is shorter than the
text. -/
theorem operand?_shorter {s rest : List Char} {l : Lexeme} (h : operand? s = some (l, rest)) :
    rest.length < s.length := by
  unfold operand? at h
  rcases hr : register? s with _ | ⟨l₁, r₁⟩
  · rcases hl : literal? s with _ | ⟨l₂, r₂⟩
    · rw [hr, hl] at h
      exact name?_shorter h
    · rw [hr, hl] at h
      cases h
      exact literal?_shorter hl
  · rw [hr] at h
    cases h
    exact register?_shorter hr

/-- An operand after separators leaves a shorter text. -/
theorem shorter_of_operand? {s t rest : List Char} {l : Lexeme}
    (ht : s.dropWhile isSeparator = t) (h : operand? t = some (l, rest)) :
    rest.length < s.length := by
  subst ht
  exact Nat.lt_of_lt_of_le (operand?_shorter h) (List.dropWhile_sublist isSeparator).length_le

/-! ### Whole lines -/

/-- The operands of a text up to its end or a semicolon. If something else comes
first, the text from there on is the error. -/
def operands (s : List Char) : Except (List Char) (List Lexeme) :=
  match hs : s.dropWhile isSeparator with
  | [] => .ok []
  | c :: cs =>
    if c = ';' then .ok []
    else
      match h : operand? (c :: cs) with
      | none => .error (c :: cs)
      | some (l, rest) =>
        have := shorter_of_operand? hs h
        (operands rest).map (l :: ·)
termination_by s.length

/-- The lexemes of a line: its head, if it has one, and its operands. -/
def lexemes (s : List Char) : Except (List Char) (List Lexeme) :=
  match head? s with
  | some (l, rest) => (operands rest).map (l :: ·)
  | none => operands s

end Source

end Chip8
