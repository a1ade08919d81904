/-
Scanning a line by byte positions.

The lexemes of a line are read from its characters. Here the same is done on its bytes: a position
counts the bytes before it, patterns are matched against the text from there on, and what a rule
makes of a match is taken from its groups. A position can be wrong, and a group can be missing.

* `Pattern`: patterns of character classes, runs, sequences and groups. A pattern matches in
  several ways, of which the first counts; a run is tried at its longest first.
* `Rule`, `headRules`, `operandRules`: the rules, each a pattern and what is made of a match.
* `Rule.Reads`: a rule does not trap and finds what a function on characters finds. So all groups
  are there that a rule asks for (`exists_value_of_match?`).
* `cut`: the text from a byte position on, which has to be between two characters.
* `scan`, `scanLine`, `scanText`: the lexer on positions. A loop that does not end is a trap.
* `scanText_eq`: **scanning never traps**, and it reads the tokens of the text.
-/
import Mathlib.Tactic
import Chip8.Proofs.Checked
import Chip8.Proofs.Lexing

namespace Chip8

namespace Source

/-! ### Patterns -/

/-- A way in which a pattern matches: the beginning of the text that it takes, what its groups
take, and the text that is left. -/
structure Match where
  text : List Char
  groups : List (List Char)
  rest : List Char

/-- Patterns for the beginning of a text. -/
inductive Pattern where
  /-- One character of a class. -/
  | one (p : Char → Bool)
  /-- Any number of characters of a class. -/
  | many (p : Char → Bool)
  | seq (a b : Pattern)
  /-- What is matched can be asked for. Groups are counted from the left, from one on. -/
  | group (a : Pattern)

/-- The runs of characters of a class at the start of a text, the longest first, and what is left
after them. -/
def runs (p : Char → Bool) : List Char → List (List Char × List Char)
  | [] => [([], [])]
  | c :: cs =>
    if p c then (runs p cs).map (fun r => (c :: r.1, r.2)) ++ [([], c :: cs)] else [([], c :: cs)]

namespace Pattern

/-- The ways in which a pattern matches, in the order in which they are tried. -/
def matchesOf : Pattern → List Char → List Match
  | one _, [] => []
  | one p, c :: cs => if p c then [⟨[c], [], cs⟩] else []
  | many p, s => (runs p s).map fun r => ⟨r.1, [], r.2⟩
  | seq a b, s =>
    (a.matchesOf s).flatMap fun m => (b.matchesOf m.rest).map fun n =>
      ⟨m.text ++ n.text, m.groups ++ n.groups, n.rest⟩
  | group a, s => (a.matchesOf s).map fun m => { m with groups := m.text :: m.groups }

/-- The match of a pattern at the start of a text. -/
def match? (a : Pattern) (s : List Char) : Option Match := (a.matchesOf s).head?

end Pattern

section

variable {p : Char → Bool} {s : List Char}

/-- A run and what is left after it are the text. -/
lemma append_of_mem_runs {r : List Char × List Char} (h : r ∈ runs p s) : r.1 ++ r.2 = s := by
  induction s generalizing r with
  | nil =>
      rw [List.mem_singleton.mp h]
      rfl
  | cons c cs ih =>
      rw [runs] at h
      split_ifs at h with hc
      · rcases List.mem_append.mp h with h | h
        · obtain ⟨r', hr', rfl⟩ := List.mem_map.mp h
          exact congrArg (c :: ·) (ih hr')
        · rw [List.mem_singleton.mp h]
          rfl
      · rw [List.mem_singleton.mp h]
        rfl

/-- The longest run is tried first. -/
lemma head?_runs : (runs p s).head? = some (s.takeWhile p, s.dropWhile p) := by
  induction s with
  | nil => rfl
  | cons c cs ih =>
      rw [runs]
      split_ifs with hc
      · rw [List.head?_append, List.head?_map, ih, List.takeWhile_cons_of_pos hc,
          List.dropWhile_cons_of_pos hc]
        rfl
      · rw [List.takeWhile_cons_of_neg hc, List.dropWhile_cons_of_neg hc]
        rfl

/-- If only the longest run can go on, it is the one that does. -/
lemma flatMap_runs {α : Type} {f : List Char × List Char → List α}
    (hf : ∀ (run : List Char) (c : Char) (cs : List Char), p c = true → f (run, c :: cs) = []) :
    (runs p s).flatMap f = f (s.takeWhile p, s.dropWhile p) := by
  induction s generalizing f with
  | nil => exact List.flatMap_singleton f _
  | cons c cs ih =>
      rw [runs]
      split_ifs with hc
      · rw [List.flatMap_append, List.flatMap_map, List.flatMap_singleton, hf [] c cs hc,
          List.append_nil, ih fun run => hf (c :: run), List.takeWhile_cons_of_pos hc,
          List.dropWhile_cons_of_pos hc]
      · rw [List.flatMap_singleton, List.takeWhile_cons_of_neg hc, List.dropWhile_cons_of_neg hc]

end

namespace Pattern

/-- **A match is a beginning of the text.** -/
lemma append_of_mem_matchesOf {a : Pattern} {s : List Char} {m : Match} (h : m ∈ a.matchesOf s) :
    m.text ++ m.rest = s := by
  induction a generalizing s m with
  | one p =>
      cases s with
      | nil => cases h
      | cons c cs =>
          rw [matchesOf] at h
          split_ifs at h with hc
          · rw [List.mem_singleton.mp h]
            rfl
          · cases h
  | many p =>
      obtain ⟨r, hr, rfl⟩ := List.mem_map.mp h
      exact append_of_mem_runs hr
  | seq a b iha ihb =>
      obtain ⟨m', hm', h⟩ := List.mem_flatMap.mp h
      obtain ⟨n, hn, rfl⟩ := List.mem_map.mp h
      calc m'.text ++ n.text ++ n.rest
          = m'.text ++ (n.text ++ n.rest) := List.append_assoc _ _ _
        _ = m'.text ++ m'.rest := by rw [ihb hn]
        _ = s := iha hm'
  | group a iha =>
      obtain ⟨m', hm', rfl⟩ := List.mem_map.mp h
      have htext : m'.text ++ m'.rest = s := iha hm'
      exact htext

lemma append_of_match? {a : Pattern} {s : List Char} {m : Match} (h : a.match? s = some m) :
    m.text ++ m.rest = s := append_of_mem_matchesOf (List.mem_of_mem_head? h)

lemma match?_one_cons (p : Char → Bool) (c : Char) (cs : List Char) :
    (one p).match? (c :: cs) = if p c then some ⟨[c], [], cs⟩ else none := by
  rw [match?, matchesOf]
  split_ifs <;> rfl

lemma match?_many (p : Char → Bool) (s : List Char) :
    (many p).match? s = some ⟨s.takeWhile p, [], s.dropWhile p⟩ := by
  rw [match?, matchesOf, List.head?_map, head?_runs]
  rfl

lemma match?_group (a : Pattern) (s : List Char) :
    (group a).match? s = (a.match? s).map fun m => { m with groups := m.text :: m.groups } := by
  rw [match?, matchesOf, List.head?_map]
  rfl

lemma matchesOf_one_seq_cons (p : Char → Bool) (b : Pattern) (c : Char) (cs : List Char) :
    (seq (one p) b).matchesOf (c :: cs) =
      if p c then (b.matchesOf cs).map fun m => ⟨c :: m.text, m.groups, m.rest⟩ else [] := by
  rw [matchesOf, matchesOf]
  split_ifs
  · rw [List.flatMap_singleton]
    rfl
  · rfl

lemma match?_one_seq_cons (p : Char → Bool) (b : Pattern) (c : Char) (cs : List Char) :
    (seq (one p) b).match? (c :: cs) =
      if p c then (b.match? cs).map fun m => ⟨c :: m.text, m.groups, m.rest⟩ else none := by
  rw [match?, matchesOf_one_seq_cons]
  split_ifs
  · exact List.head?_map
  · rfl

end Pattern

/-! ### Rules -/

/-- What a group of a match has taken; the match as a whole is the group zero. -/
def Match.group (m : Match) : Nat → Checked (List Char)
  | 0 => .value m.text
  | i + 1 =>
    match m.groups[i]? with
    | some g => .value g
    | none => .trap (.noGroup (i + 1))

/-- A pattern, and the lexeme that is made of a match. -/
structure Rule where
  pattern : Pattern
  build : Match → Checked Lexeme

/-- `[a-zA-Z_][a-zA-Z0-9_-]*`. -/
def identifierPattern : Pattern := .seq (.one isLetter) (.many isIdentifierRest)

/-- `([a-zA-Z_][a-zA-Z0-9_-]*):`. -/
def labelRule : Rule where
  pattern := .seq (.group identifierPattern) (.one (· == ':'))
  build m := do return .label (String.ofList (← m.group 1))

/-- `[A-Z]+`. -/
def instructionRule : Rule where
  pattern := .seq (.one isCapital) (.many isCapital)
  build m := do return .instruction (String.ofList (← m.group 0))

/-- `V([0-9A-F])`. The number of the register has to fit into a byte. -/
def registerRule : Rule where
  pattern := .seq (.one (· == 'V')) (.group (.one Hex.isDigit))
  build m := do return .register (← Checked.narrow 8 (Hex.value 64 (← m.group 1)).toNat)

/-- `0x([0-9A-F]+)`. -/
def literalRule : Rule where
  pattern := .seq (.one (· == '0')) (.seq (.one (· == 'x'))
    (.group (.seq (.one Hex.isDigit) (.many Hex.isDigit))))
  build m := do return .literal (Hex.value 64 (← m.group 1))

/-- `[a-zA-Z_][a-zA-Z0-9_-]*`, as an operand. -/
def nameRule : Rule where
  pattern := identifierPattern
  build m := do return .name (String.ofList (← m.group 0))

/-- The rules for the start of a line. -/
def headRules : List Rule := [labelRule, instructionRule]

/-- The rules for operands. -/
def operandRules : List Rule := [registerRule, literalRule, nameRule]

/-- The rule does not trap, and finds what the function finds. -/
def Rule.Reads (r : Rule) (f : List Char → Option (Lexeme × List Char)) : Prop :=
  ∀ s, match f s with
    | none => r.pattern.match? s = none
    | some (l, rest) => ∃ m, r.pattern.match? s = some m ∧ m.rest = rest ∧ r.build m = .value l

lemma match?_identifierPattern (s : List Char) :
    identifierPattern.match? s = (identifier? s).map fun r => ⟨r.1, [], r.2⟩ := by
  cases s with
  | nil => rfl
  | cons c cs =>
      rw [identifierPattern, Pattern.match?_one_seq_cons, Pattern.match?_many, identifier?]
      split_ifs <;> rfl

lemma reads_nameRule : nameRule.Reads name? := by
  intro s
  rw [name?, nameRule]
  cases h : identifier? s with
  | none =>
      change identifierPattern.match? s = none
      rw [match?_identifierPattern, h]
      rfl
  | some r =>
      refine ⟨⟨r.1, [], r.2⟩, ?_, rfl, rfl⟩
      change identifierPattern.match? s = _
      rw [match?_identifierPattern, h]
      rfl

lemma reads_instructionRule : instructionRule.Reads instruction? := by
  intro s
  cases s with
  | nil => rfl
  | cons c cs =>
      have hmatch : instructionRule.pattern.match? (c :: cs) =
          if isCapital c then
            some ⟨c :: cs.takeWhile isCapital, [], cs.dropWhile isCapital⟩ else none := by
        change (Pattern.seq (.one isCapital) (.many isCapital)).match? (c :: cs) = _
        rw [Pattern.match?_one_seq_cons, Pattern.match?_many]
        rfl
      rw [instruction?, hmatch]
      by_cases hc : isCapital c = true
      · rw [List.takeWhile_cons_of_pos hc, List.dropWhile_cons_of_pos hc, if_pos hc]
        exact ⟨_, rfl, rfl, rfl⟩
      · rw [List.takeWhile_cons_of_neg hc, if_neg hc]

/-- The number of a register is below sixteen. -/
lemma toNat_value_digit {d : Char} (hd : Hex.isDigit d = true) :
    (Hex.value 64 [d]).toNat = Hex.digitValue d ∧ Hex.digitValue d < 16 := by
  have hlt : Hex.digitValue d < 16 := ((isHexDigit_iff d).mp hd).digitValue_lt
  have hvalue : Hex.value 64 [d] = BitVec.ofNat 64 (Hex.digitValue d) := by
    change 0#64 <<< 4 ||| _ = _
    rw [BitVec.zero_shiftLeft, BitVec.zero_or]
  refine ⟨?_, hlt⟩
  rw [hvalue, BitVec.toNat_ofNat, Nat.mod_eq_of_lt (by omega)]

lemma build_registerRule {d : Char} {rest : List Char} (hd : Hex.isDigit d = true) :
    registerRule.build ⟨['V', d], [[d]], rest⟩ =
      .value (.register (BitVec.ofNat 8 (Hex.digitValue d))) := by
  obtain ⟨hvalue, hlt⟩ := toNat_value_digit hd
  change (Checked.narrow 8 (Hex.value 64 [d]).toNat >>= fun v => pure (Lexeme.register v)) = _
  rw [hvalue, Checked.narrow_of_lt (by omega)]
  rfl

lemma reads_registerRule : registerRule.Reads register? := by
  intro s
  cases s with
  | nil => rfl
  | cons c cs =>
      have hmatch : registerRule.pattern.match? (c :: cs) =
          if c == 'V' then ((Pattern.group (.one Hex.isDigit)).match? cs).map
            fun m => ⟨c :: m.text, m.groups, m.rest⟩ else none :=
        Pattern.match?_one_seq_cons _ _ c cs
      by_cases hc : c = 'V'
      · subst hc
        rw [hmatch, if_pos (beq_self_eq_true _), Pattern.match?_group]
        cases cs with
        | nil => rfl
        | cons d rest =>
            rw [Pattern.match?_one_cons, register?]
            split_ifs with hd
            · exact ⟨_, rfl, rfl, build_registerRule hd⟩
            · rfl
      · have hnone : register? (c :: cs) = none := by
          rw [register?]
          rintro d rest ⟨⟩
          exact hc rfl
        rw [hnone, hmatch, if_neg (by simpa using hc)]

/-- The digits of a literal: a run that is not empty. -/
lemma match?_digits (s : List Char) :
    (Pattern.group (.seq (.one Hex.isDigit) (.many Hex.isDigit))).match? s =
      match s.takeWhile Hex.isDigit with
      | [] => none
      | ds => some ⟨ds, [ds], s.dropWhile Hex.isDigit⟩ := by
  rw [Pattern.match?_group]
  cases s with
  | nil => rfl
  | cons d rest =>
      rw [Pattern.match?_one_seq_cons, Pattern.match?_many]
      by_cases hd : Hex.isDigit d = true
      · rw [List.takeWhile_cons_of_pos hd, List.dropWhile_cons_of_pos hd, if_pos hd]
        rfl
      · rw [List.takeWhile_cons_of_neg hd, if_neg hd]
        rfl

lemma reads_literalRule : literalRule.Reads literal? := by
  intro s
  have hnone (h : ∀ rest, s ≠ '0' :: 'x' :: rest) : literal? s = none := by
    rw [literal?]
    exact h
  cases s with
  | nil => rfl
  | cons c cs =>
      have hmatch : literalRule.pattern.match? (c :: cs) = if c == '0' then _ else none :=
        Pattern.match?_one_seq_cons _ _ c cs
      rw [hmatch]
      by_cases hc : c = '0'
      · subst hc
        rw [if_pos (beq_self_eq_true _)]
        cases cs with
        | nil => rfl
        | cons x rest =>
            rw [Pattern.match?_one_seq_cons, match?_digits]
            by_cases hx : x = 'x'
            · subst hx
              rw [if_pos (beq_self_eq_true _), literal?]
              cases rest.takeWhile Hex.isDigit with
              | nil => rfl
              | cons d ds => exact ⟨_, rfl, rfl, rfl⟩
            · rw [hnone fun rest h => hx (List.cons.inj (List.cons.inj h).2).1,
                if_neg (by simpa using hx)]
              rfl
      · rw [hnone fun rest h => hc (List.cons.inj h).1, if_neg (by simpa using hc)]

/-- An identifier does not go on with a colon, so only the longest can be a label. -/
lemma match?_labelRule (s : List Char) :
    labelRule.pattern.match? s =
      match identifier? s with
      | some (name, ':' :: rest) => some ⟨name ++ [':'], [name], rest⟩
      | _ => none := by
  cases s with
  | nil => rfl
  | cons c cs =>
      have hmatches : labelRule.pattern.matchesOf (c :: cs) =
          if isLetter c then
            (runs isIdentifierRest cs).flatMap fun r =>
              ((Pattern.one (· == ':')).matchesOf r.2).map fun n =>
                ⟨c :: r.1 ++ n.text, [c :: r.1] ++ n.groups, n.rest⟩
          else [] := by
        change (Pattern.seq (.group identifierPattern) (.one (· == ':'))).matchesOf (c :: cs) = _
        rw [Pattern.matchesOf, Pattern.matchesOf, identifierPattern,
          Pattern.matchesOf_one_seq_cons, Pattern.matchesOf]
        split_ifs
        · rw [List.map_map, List.map_map, List.flatMap_map]
          rfl
        · rfl
      rw [Pattern.match?, hmatches, identifier?]
      split_ifs with hc
      · rw [flatMap_runs]
        · cases cs.dropWhile isIdentifierRest with
          | nil => rfl
          | cons x rest =>
              by_cases hx : x = ':'
              · subst hx
                rfl
              · rw [Pattern.matchesOf, if_neg (by simpa using hx)]
                split
                · next h =>
                  cases h
                  exact absurd rfl hx
                · rfl
        · intro run x rest hx
          have hne : x ≠ ':' := by
            rintro rfl
            cases hx
          rw [Pattern.matchesOf, if_neg (by simpa using hne)]
          rfl
      · rfl

lemma reads_labelRule : labelRule.Reads label? := by
  intro s
  have hmatch := match?_labelRule s
  by_cases hdeclares : ∃ name rest, identifier? s = some (name, ':' :: rest)
  · obtain ⟨name, rest, h⟩ := hdeclares
    rw [h] at hmatch
    rw [label?, h]
    exact ⟨_, hmatch, rfl, rfl⟩
  · have hnone : label? s = none := by
      rw [label?]
      split
      · next h => exact absurd ⟨_, _, h⟩ hdeclares
      · rfl
    rw [hnone]
    change labelRule.pattern.match? s = none
    rw [hmatch]
    split
    · next h => exact absurd ⟨_, _, h⟩ hdeclares
    · rfl

/-- A rule that reads what a function reads makes a lexeme of every match. -/
lemma Rule.Reads.exists_value {r : Rule} {f : List Char → Option (Lexeme × List Char)}
    (hr : r.Reads f) {s : List Char} {m : Match} (h : r.pattern.match? s = some m) :
    ∃ l, r.build m = .value l := by
  have hs := hr s
  cases hf : f s with
  | none =>
      rw [hf] at hs
      cases hs.symm.trans h
  | some found =>
      rw [hf] at hs
      obtain ⟨m', hm', -, hbuild⟩ := hs
      cases hm'.symm.trans h
      exact ⟨_, hbuild⟩

/-- **No rule asks for a group that is not there.** -/
lemma exists_value_of_match? {r : Rule} (hr : r ∈ headRules ++ operandRules) {s : List Char}
    {m : Match} (h : r.pattern.match? s = some m) : ∃ l, r.build m = .value l := by
  simp only [headRules, operandRules, List.cons_append, List.nil_append, List.mem_cons,
    List.not_mem_nil, or_false] at hr
  rcases hr with rfl | rfl | rfl | rfl | rfl
  · exact reads_labelRule.exists_value h
  · exact reads_instructionRule.exists_value h
  · exact reads_registerRule.exists_value h
  · exact reads_literalRule.exists_value h
  · exact reads_nameRule.exists_value h

/-! ### Bytes -/

/-- The number of bytes of a text. -/
def bytes (s : List Char) : Nat := (String.ofList s).utf8ByteSize

lemma bytes_append (s t : List Char) : bytes (s ++ t) = bytes s + bytes t := by
  rw [bytes, String.ofList_append, String.utf8ByteSize_append]
  rfl

lemma bytes_pos {s : List Char} (h : s ≠ []) : 0 < bytes s := by
  rw [bytes, Nat.pos_iff_ne_zero, Ne, String.utf8ByteSize_eq_zero_iff]
  exact fun he => h (String.ofList_eq_empty_iff.mp he)

/-- The text from a byte position on. The position must be inside the text or at its end, and
between two characters. -/
def cut (text : String) (position : Nat) : Checked String :=
  if h : (⟨position⟩ : String.Pos.Raw).IsValid text then
    .value (text.sliceFrom ⟨⟨position⟩, h⟩).copy
  else .trap (.cut position)

/-- The position behind a beginning of a text is between two characters. -/
lemma cut_append (s t : List Char) :
    cut (String.ofList (s ++ t)) (bytes s) = .value (String.ofList t) := by
  have happ : String.ofList (s ++ t) = String.ofList s ++ String.ofList t := String.ofList_append
  have hvalid : (⟨bytes s⟩ : String.Pos.Raw).IsValid (String.ofList (s ++ t)) :=
    String.Pos.Raw.isValid_iff_exists_append.mpr ⟨_, _, happ, rfl⟩
  have hsplits : (⟨⟨bytes s⟩, hvalid⟩ : (String.ofList (s ++ t)).Pos).Splits
      (String.ofList s) (String.ofList t) := ⟨happ, rfl⟩
  rw [cut, dif_pos hvalid, hsplits.copy_sliceFrom_eq]

/-! ### The first rule that matches -/

/-- The lexeme of the first rule that matches at the start of a text, and the number of bytes that
it takes. -/
def firstMatch (text : String) : List Rule → Checked (Option (Lexeme × Nat))
  | [] => .value none
  | r :: rules =>
    match r.pattern.match? text.toList with
    | some m => do return some (← r.build m, bytes m.text)
    | none => firstMatch text rules

/-- Looking for a match does not trap, and finds what has been found on characters. -/
inductive Found (s : List Char) :
    Checked (Option (Lexeme × Nat)) → Option (Lexeme × List Char) → Prop
  | none : Found s (.value none) none
  | some {l : Lexeme} {taken rest : List Char} (h : taken ++ rest = s) :
      Found s (.value (some (l, bytes taken))) (some (l, rest))

lemma found_nil (s : List Char) : Found s (firstMatch (String.ofList s) []) none := .none

/-- A rule is tried before the others. -/
lemma found_cons {r : Rule} {rules : List Rule} {f : List Char → Option (Lexeme × List Char)}
    {s : List Char} {x : Option (Lexeme × List Char)} (hr : r.Reads f)
    (h : Found s (firstMatch (String.ofList s) rules) x) :
    Found s (firstMatch (String.ofList s) (r :: rules)) (f s <|> x) := by
  have hs := hr s
  rw [firstMatch, String.toList_ofList]
  cases hf : f s with
  | none =>
      rw [hf] at hs
      rw [hs]
      exact h
  | some found =>
      obtain ⟨l, rest⟩ := found
      rw [hf] at hs
      obtain ⟨m, hm, rfl, hbuild⟩ := hs
      have htext := Pattern.append_of_match? hm
      rw [hm]
      change Found s (r.build m >>= fun l => pure (some (l, bytes m.text))) _
      rw [hbuild]
      exact .some htext

lemma found_singleton {r : Rule} {f : List Char → Option (Lexeme × List Char)} (hr : r.Reads f)
    (s : List Char) : Found s (firstMatch (String.ofList s) [r]) (f s) := by
  have h := found_cons hr (found_nil s)
  cases hf : f s <;> rw [hf] at h <;> exact h

lemma found_head (s : List Char) : Found s (firstMatch (String.ofList s) headRules) (head? s) :=
  found_cons reads_labelRule (found_singleton reads_instructionRule s)

lemma found_operand (s : List Char) :
    Found s (firstMatch (String.ofList s) operandRules) (operand? s) :=
  found_cons reads_registerRule
    (found_cons reads_literalRule (found_singleton reads_nameRule s))

/-! ### Scanning -/

/-- The number of bytes that separators take at the start of a text. -/
def separators (text : String) : Checked Nat :=
  Checked.minus text.utf8ByteSize (bytes (text.toList.dropWhile isSeparator))

/-- Reads operands from a byte position on, in a number of turns at most. -/
def scan (line : String) (number : Nat) : Nat → Nat → List Token → Checked (List Token)
  | 0, _, _ => .trap .endless
  | turns + 1, position, read => do
    let skipped ← separators (← cut line position)
    let rest ← cut line (position + skipped)
    match rest.toList with
    | [] => return read
    | c :: _ =>
      if c = ';' then return read
      else
        match ← firstMatch rest operandRules with
        | none => .error (.unreadable number (String.ofList (Text.trimEnd rest.toList)))
        | some (l, length) =>
          scan line number turns (position + skipped + length) (read ++ [⟨l, number⟩])

/-- Reads a line. There cannot be more operands than bytes. -/
def scanLine (line : String) (number : Nat) (read : List Token) : Checked (List Token) := do
  match ← firstMatch line headRules with
  | none => scan line number (line.utf8ByteSize + 1) 0 read
  | some (l, length) => scan line number (line.utf8ByteSize + 1) length (read ++ [⟨l, number⟩])

/-- Reads lines, of which the first has the given number. -/
def scanLines (number : Nat) (read : List Token) : List (List Char) → Checked (List Token)
  | [] => return read
  | line :: rest => do scanLines (number + 1) (← scanLine (String.ofList line) number read) rest

/-- Reads a text. -/
def scanText (text : String) : Checked (List Token) := scanLines 1 [] (Text.lines text.toList)

lemma separators_ofList (s : List Char) :
    separators (String.ofList s) = .value (bytes (s.takeWhile isSeparator)) := by
  have hsize : (String.ofList s).utf8ByteSize =
      bytes (s.takeWhile isSeparator) + bytes (s.dropWhile isSeparator) := by
    rw [← bytes_append, List.takeWhile_append_dropWhile]
    rfl
  rw [separators, hsize, String.toList_ofList, Checked.minus_add_right]

/-- The tokens of a line, given its lexemes or the place at which reading them stopped. -/
def located (number : Nat) : Except (List Char) (List Lexeme) → Except Error (List Token)
  | .ok ls => .ok (ls.map fun l => ⟨l, number⟩)
  | .error rest => .error (.unreadable number (String.ofList (Text.trimEnd rest)))

lemma lineTokens_eq (number : Nat) (s : List Char) :
    lineTokens number s = located number (lexemes s) := rfl

lemma map_located_cons (number : Nat) (l : Lexeme) (x : Except (List Char) (List Lexeme))
    (read : List Token) :
    (located number (x.map (l :: ·))).map (read ++ ·) =
      (located number x).map (read ++ [⟨l, number⟩] ++ ·) := by
  cases x with
  | error rest => rfl
  | ok ls =>
      exact congrArg Except.ok (List.append_assoc read [⟨l, number⟩] _).symm

/-- An operand takes at least one character. -/
lemma ne_nil_of_operand? {s taken rest : List Char} {l : Lexeme} (hs : taken ++ rest = s)
    (h : operand? s = some (l, rest)) : taken ≠ [] := by
  rintro rfl
  have hlt := operand?_shorter h
  rw [← hs, List.nil_append] at hlt
  exact lt_irrefl _ hlt

/-- A match of an operand takes at least one byte. -/
lemma length_pos_of_firstMatch {text : String} {l : Lexeme} {length : Nat}
    (h : firstMatch text operandRules = .value (some (l, length))) : 0 < length := by
  have hfound := found_operand text.toList
  rw [String.ofList_toList, h] at hfound
  generalize hs : operand? text.toList = x at hfound
  cases hfound with
  | some htaken => exact bytes_pos (ne_nil_of_operand? htaken hs)

section

variable {number turns : Nat} {read : List Token} {s : List Char}

/-- What a turn does once it has found out where it is. -/
def turn (line : String) (number turns position : Nat) (read : List Token) :
    List Char → Checked (List Token)
  | [] => .value read
  | c :: cs =>
    if c = ';' then .value read
    else
      firstMatch (String.ofList (c :: cs)) operandRules >>= fun
        | none => .error (.unreadable number (String.ofList (Text.trimEnd (c :: cs))))
        | some (l, length) => scan line number turns (position + length) (read ++ [⟨l, number⟩])

/-- **A turn cuts the line twice**, both times between two characters. -/
lemma scan_succ (before : List Char) :
    scan (String.ofList (before ++ s)) number (turns + 1) (bytes before) read =
      turn (String.ofList (before ++ s)) number turns
        (bytes (before ++ s.takeWhile isSeparator)) read (s.dropWhile isSeparator) := by
  have hs : before ++ s = (before ++ s.takeWhile isSeparator) ++ s.dropWhile isSeparator := by
    rw [List.append_assoc, List.takeWhile_append_dropWhile]
  have hcut : cut (String.ofList (before ++ s)) (bytes (before ++ s.takeWhile isSeparator)) =
      .value (String.ofList (s.dropWhile isSeparator)) := by
    rw [hs]
    exact cut_append _ _
  rw [scan, cut_append, Checked.value_bind, separators_ofList, Checked.value_bind,
    ← bytes_append, hcut, Checked.value_bind, String.toList_ofList]
  cases s.dropWhile isSeparator with
  | nil => rfl
  | cons c cs => rfl

/-- **Scanning never traps.** From a position between two characters on, and with more turns than
there are bytes left, it reads the operands. -/
lemma scan_eq (before : List Char) (hturns : bytes s ≤ turns) :
    scan (String.ofList (before ++ s)) number (turns + 1) (bytes before) read =
      .ofExcept ((located number (operands s)).map (read ++ ·)) := by
  -- along the recursion of `operands`; every operand leaves fewer bytes
  fun_induction operands s generalizing before turns read with
  | case1 s hs =>
      rw [scan_succ, hs]
      exact congrArg Checked.value (List.append_nil read).symm
  | case2 s comment hs =>
      rw [scan_succ, hs]
      exact congrArg Checked.value (List.append_nil read).symm
  | case3 s c cs hs hsemi hnone =>
      have hfound := found_operand (c :: cs)
      rw [hnone] at hfound
      rw [scan_succ, hs, turn, if_neg hsemi]
      generalize firstMatch (String.ofList (c :: cs)) operandRules = x at hfound
      cases hfound
      rfl
  | case4 s c cs hs hsemi l rest hsome hlt ih =>
      have hfound := found_operand (c :: cs)
      rw [hsome] at hfound
      rw [scan_succ, hs, turn, if_neg hsemi]
      generalize firstMatch (String.ofList (c :: cs)) operandRules = x at hfound
      cases hfound with
      | @some _ taken _ htaken =>
          have hs' : s = s.takeWhile isSeparator ++ (taken ++ rest) := by
            rw [htaken, ← hs, List.takeWhile_append_dropWhile]
          have hline : before ++ s = before ++ s.takeWhile isSeparator ++ taken ++ rest := by
            rw [List.append_assoc, List.append_assoc, ← hs']
          have hbytes : bytes rest < bytes s := by
            have hpos := bytes_pos (ne_nil_of_operand? htaken hsome)
            have hsum := congrArg bytes hs'
            rw [bytes_append, bytes_append] at hsum
            omega
          obtain ⟨k, rfl⟩ := Nat.exists_eq_add_one_of_ne_zero (show turns ≠ 0 by omega)
          calc scan (String.ofList (before ++ s)) number (k + 1)
                (bytes (before ++ s.takeWhile isSeparator) + bytes taken) (read ++ [⟨l, number⟩])
              = scan (String.ofList ((before ++ s.takeWhile isSeparator ++ taken) ++ rest)) number
                  (k + 1) (bytes (before ++ s.takeWhile isSeparator ++ taken))
                  (read ++ [⟨l, number⟩]) := by
                rw [← bytes_append, ← hline]
            _ = .ofExcept ((located number (operands rest)).map (read ++ [⟨l, number⟩] ++ ·)) :=
                ih _ (by omega)
            _ = .ofExcept ((located number ((operands rest).map (l :: ·))).map (read ++ ·)) := by
                rw [map_located_cons]

end

/-- Scanning a line reads its tokens. -/
lemma scanLine_eq (number : Nat) (read : List Token) (s : List Char) :
    scanLine (String.ofList s) number read =
      .ofExcept ((lineTokens number s).map (read ++ ·)) := by
  have hfound := found_head s
  rw [scanLine, lineTokens_eq, lexemes]
  generalize firstMatch (String.ofList s) headRules = x at hfound
  generalize head? s = y at hfound
  cases hfound with
  | none => exact scan_eq [] le_rfl
  | @some l taken rest h =>
      have hbytes : bytes rest ≤ bytes s := by
        rw [← h, bytes_append]
        omega
      change scan (String.ofList s) number (bytes s + 1) (bytes taken) (read ++ [⟨l, number⟩]) =
        .ofExcept ((located number ((operands rest).map (l :: ·))).map (read ++ ·))
      rw [map_located_cons, ← scan_eq taken hbytes, h]

/-- Scanning lines reads their tokens. -/
lemma scanLines_eq (number : Nat) (read : List Token) (ls : List (List Char)) :
    scanLines number read ls = .ofExcept ((tokensFrom number ls).map (read ++ ·)) := by
  induction ls generalizing number read with
  | nil => exact congrArg Checked.value (List.append_nil read).symm
  | cons s rest ih =>
      rw [scanLines, scanLine_eq, tokensFrom]
      cases lineTokens number s with
      | error e => rfl
      | ok here =>
          change scanLines (number + 1) (read ++ here) rest = _
          rw [ih]
          cases tokensFrom (number + 1) rest with
          | error e => rfl
          | ok below => exact congrArg Checked.value (List.append_assoc read here below)

/-- **Scanning a text reads its tokens.** -/
theorem scanText_eq (text : String) : scanText text = .ofExcept (tokens text) := by
  rw [scanText, scanLines_eq, tokens]
  cases tokensFrom 1 (Text.lines text.toList) <;> rfl

/-- The only error of a text is a place that cannot be read. -/
lemma exists_unreadable {number : Nat} {ls : List (List Char)} {e : Error}
    (h : tokensFrom number ls = .error e) : ∃ line fragment, e = .unreadable line fragment := by
  induction ls generalizing number with
  | nil => cases h
  | cons s rest ih =>
      rw [tokensFrom, lineTokens_eq] at h
      cases hs : lexemes s with
      | error place =>
          rw [hs] at h
          cases h
          exact ⟨number, _, rfl⟩
      | ok ls =>
          rw [hs] at h
          cases hrest : tokensFrom (number + 1) rest with
          | error e' =>
              rw [hrest] at h
              cases h
              exact ih hrest
          | ok below =>
              rw [hrest] at h
              cases h

end Source

end Chip8
