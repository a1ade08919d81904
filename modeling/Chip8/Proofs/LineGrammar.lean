/-
The grammar of a source text.

A text is cut into lines, and a line into a head, operands with the separators before
each of them, and an end. What a part may be is said without the functions that read it:
where several texts could be the part, it is the longest, and where several rules could
apply, it is the first. Nothing is left over, so the parts of a line make up the line.

* `Text.IsLines`: a text and its lines, by the characters that end them.
* `Longest`: the longest beginning of a text that has a property. For the properties of
  the grammar it ends where the next character does not fit (`longest_iff_stops`).
* `Begins`, `IsOperand`: the head of a line and one operand, with the lexemes that they
  denote.
* `LineCut`, `LineCut.Grammatical`: a line cut into its parts, and the cuts that follow
  the rules.
* `lexemes_eq_ok_iff_cut`: a line is read if and only if it can be cut.
* `LineCut.Grammatical.unique`: a line can be cut in one way only.
* `IsEnding`, `EndsOperand`: what may end a line, and what ends an operand before it.
* `tokens_eq_ok_iff_isCut`: **reading a text is cutting its lines**. The tokens are those
  that the parts denote, with the numbers of their lines.
-/
import Mathlib.Tactic
import Mathlib.Data.Nat.Digits.Defs
import Chip8.Proofs.Lexing

namespace Chip8

/-! ### Lines -/

namespace Text

/-- A text and its lines. A line feed ends a line, and a carriage return directly before
it is part of the line end. What follows the last line feed is a line unless it is empty. -/
inductive IsLines : List Char → List (List Char) → Prop
  | nil : IsLines [] []
  | last {s : List Char} (hne : s ≠ []) (hs : '\n' ∉ s) : IsLines s [s]
  | feed {s rest : List Char} {texts : List (List Char)} (hs : '\n' ∉ s)
      (hr : s.getLast? ≠ some '\r') (h : IsLines rest texts) :
      IsLines (s ++ '\n' :: rest) (s :: texts)
  | returnFeed {s rest : List Char} {texts : List (List Char)} (hs : '\n' ∉ s)
      (h : IsLines rest texts) : IsLines (s ++ '\r' :: '\n' :: rest) (s :: texts)

lemma withoutReturn_concat (s : List Char) : withoutReturn (s ++ ['\r']) = s := by
  simp [withoutReturn]

/-- A line feed ends a line, with or without a carriage return before it. -/
lemma IsLines.append_newline {s rest : List Char} {texts : List (List Char)} (hs : '\n' ∉ s)
    (h : IsLines rest texts) : IsLines (s ++ '\n' :: rest) (withoutReturn s :: texts) := by
  by_cases hr : s.getLast? = some '\r'
  · obtain ⟨s, rfl⟩ := List.getLast?_eq_some_iff.mp hr
    rw [withoutReturn_concat, List.append_assoc]
    exact .returnFeed (fun hmem => hs (List.mem_append_left _ hmem)) h
  · have hkeep : withoutReturn s = s := if_neg hr
    rw [hkeep]
    exact .feed hs hr h

/-- Cutting a text at its line feeds gives its lines. -/
theorem isLines_iff {s : List Char} {texts : List (List Char)} :
    IsLines s texts ↔ lines s = texts := by
  refine ⟨fun h => ?_, fun h => ?_⟩
  · induction h with
    | nil => exact lines_nil
    | last hne hs => exact lines_of_not_mem hne hs
    | @feed s rest texts hs hr _ ih =>
        have hkeep : withoutReturn s = s := if_neg hr
        rw [lines_append_newline hs, hkeep, ih]
    | @returnFeed s rest texts hs _ ih =>
        have hs' : '\n' ∉ s ++ ['\r'] := by simp [hs]
        have hassoc : s ++ '\r' :: '\n' :: rest = (s ++ ['\r']) ++ '\n' :: rest := by simp
        rw [hassoc, lines_append_newline hs', withoutReturn_concat, ih]
  · subst h
    have hspan := @Source.span_eq_iff (· != '\n') (· ≠ '\n') (fun _ => bne_iff_ne)
    -- along the recursion of `lines`
    fun_induction lines s with
    | case1 s hdrop hnil =>
        rw [List.isEmpty_iff.mp hnil]
        exact .nil
    | case2 s hdrop hne =>
        refine .last (mt List.isEmpty_iff.mpr hne) fun hmem => ?_
        exact bne_iff_ne.mp (List.dropWhile_eq_nil_iff.mp hdrop _ hmem) rfl
    | case3 s c rest hdrop hlt ih =>
        obtain ⟨hs, hin, hstop⟩ := hspan.mp ⟨rfl, hdrop⟩
        obtain rfl : c = '\n' := not_not.mp (Source.stops_cons_iff.mp hstop)
        have hfeed : '\n' ∉ s.takeWhile (· != '\n') := fun hmem => hin _ hmem rfl
        have h := ih.append_newline hfeed
        rwa [← hs] at h

end Text

namespace Source

/-! ### The longest beginning of a text -/

/-- The text `t` is the longest beginning of `t ++ rest` that has a property. -/
def Longest (P : List Char → Prop) (t rest : List Char) : Prop :=
  P t ∧ ∀ u after, t ++ rest = u ++ after → P u → u.length ≤ t.length

/-- A run of characters of a class. -/
def IsRun (p : Char → Prop) (t : List Char) : Prop := ∀ c ∈ t, p c

/-- A run of at least one character. -/
def IsWord (p : Char → Prop) (t : List Char) : Prop := t ≠ [] ∧ ∀ c ∈ t, p c

variable {p : Char → Prop} {P : List Char → Prop} {t t' rest rest' : List Char}

/-- A text has one longest beginning at most. -/
lemma Longest.unique (h : Longest P t rest) (h' : Longest P t' rest')
    (he : t ++ rest = t' ++ rest') : t = t' ∧ rest = rest' := by
  have hle : t'.length ≤ t.length := h.2 t' rest' he h'.1
  have hge : t.length ≤ t'.length := h'.2 t rest he.symm h.1
  exact List.append_inj he (by omega)

/-- A property that one more character of a class keeps, and no other character, has its
longest beginning where the class ends. -/
lemma longest_iff_stops (hadd : ∀ t c, P t → p c → P (t ++ [c]))
    (hgo : ∀ t c u, P t → P (t ++ c :: u) → p c) : Longest P t rest ↔ P t ∧ Stops p rest := by
  refine ⟨fun h => ⟨h.1, fun c hc hp => ?_⟩, fun h => ⟨h.1, fun u after he hu => ?_⟩⟩
  · -- otherwise the next character could be added
    obtain ⟨after, rfl⟩ : ∃ after, rest = c :: after := ⟨_, List.eq_cons_of_mem_head? hc⟩
    have hle := h.2 (t ++ [c]) after (by simp) (hadd t c h.1 hp)
    simp at hle
  · by_contra hlong
    rcases List.append_eq_append_iff.mp he with ⟨v, rfl, hv⟩ | ⟨v, rfl, -⟩
    · cases v with
      | nil => simp at hlong
      | cons c v =>
          rw [hv, List.cons_append, stops_cons_iff] at h
          exact h.2 (hgo t c v h.1 hu)
    · simp at hlong

lemma longest_run_iff : Longest (IsRun p) t rest ↔ (∀ c ∈ t, p c) ∧ Stops p rest := by
  refine longest_iff_stops (fun t c ht hc => ?_) fun t c u _ hu => ?_
  · exact List.forall_mem_append.mpr ⟨ht, List.forall_mem_singleton.mpr hc⟩
  · exact hu c (by simp)

lemma longest_word_iff :
    Longest (IsWord p) t rest ↔ (t ≠ [] ∧ ∀ c ∈ t, p c) ∧ Stops p rest := by
  refine longest_iff_stops (fun t c ht hc => ⟨by simp, ?_⟩) fun t c u _ hu => ?_
  · exact List.forall_mem_append.mpr ⟨ht.2, List.forall_mem_singleton.mpr hc⟩
  · exact hu.2 c (by simp)

lemma longest_identifier_iff :
    Longest IsIdentifier t rest ↔ IsIdentifier t ∧ Stops IsIdentifierRest rest := by
  refine longest_iff_stops (fun t c ht hc => ?_) fun t c u ht hu => ?_
  · obtain ⟨d, ds, rfl, hd, hds⟩ := ht
    refine ⟨d, ds ++ [c], rfl, hd, ?_⟩
    exact List.forall_mem_append.mpr ⟨hds, List.forall_mem_singleton.mpr hc⟩
  · obtain ⟨d, ds, rfl, -, -⟩ := ht
    obtain ⟨e, es, he, -, hes⟩ := hu
    obtain ⟨-, rfl⟩ := List.cons.inj he
    exact hes c (by simp)

/-! ### Numerals -/

/-- The digits of numerals, each at the place of its value. -/
def digitOrder : List Char :=
  ['0', '1', '2', '3', '4', '5', '6', '7', '8', '9', 'A', 'B', 'C', 'D', 'E', 'F']

/-- The number that a numeral denotes to the base sixteen, its first digit being the most
significant one. -/
def numeralValue (ds : List Char) : Nat := Nat.ofDigits 16 (ds.reverse.map digitOrder.idxOf)

lemma IsHexDigit.mem_digitOrder {c : Char} (h : IsHexDigit c) : c ∈ digitOrder := by
  have hle : ∀ {a b : Char}, a ≤ b ↔ a.toNat ≤ b.toNat := UInt32.le_iff_toNat_le
  have hall : ∀ n < 71, (48 ≤ n ∧ n ≤ 57 ∨ 65 ≤ n ∧ n ≤ 70) → Char.ofNat n ∈ digitOrder := by
    decide
  have h' : 48 ≤ c.toNat ∧ c.toNat ≤ 57 ∨ 65 ≤ c.toNat ∧ c.toNat ≤ 70 := by
    simp only [IsHexDigit, hle] at h
    exact h
  have hc := hall c.toNat (by omega) h'
  rwa [Char.ofNat_toNat] at hc

lemma digitValue_eq_idxOf {c : Char} (h : IsHexDigit c) :
    Hex.digitValue c = digitOrder.idxOf c := by
  have hall : digitOrder.all (fun c => Hex.digitValue c == digitOrder.idxOf c) = true := by
    decide
  exact beq_iff_eq.mp (List.all_eq_true.mp hall c h.mem_digitOrder)

lemma numeralValue_concat (ds : List Char) (d : Char) :
    numeralValue (ds ++ [d]) = 16 * numeralValue ds + digitOrder.idxOf d := by
  simp only [numeralValue, List.reverse_append, List.reverse_singleton, List.singleton_append,
    List.map_cons, Nat.ofDigits_cons]
  simp
  omega

/-- Shifting digits in keeps the low bits of the number that the numeral denotes. -/
lemma value_eq_ofNat_numeralValue (w : Nat) {ds : List Char} (h : ∀ d ∈ ds, IsHexDigit d) :
    Hex.value w ds = BitVec.ofNat w (numeralValue ds) := by
  induction ds using List.reverseRecOn with
  | nil => rfl
  | append_singleton ds d ih =>
      have hd : IsHexDigit d := h d (by simp)
      have hds : ∀ c ∈ ds, IsHexDigit c := fun c hc => h c (by simp [hc])
      rw [Hex.value_concat, ih hds, Hex.shift_or_eq w _ _ hd.digitValue_lt, numeralValue_concat,
        digitValue_eq_idxOf hd]

/-! ### Heads and operands -/

/-- A text declares a label: the longest identifier at its start has a colon directly
after it. -/
def DeclaresLabel (text : List Char) : Prop :=
  ∃ s rest, text = s ++ ':' :: rest ∧ Longest IsIdentifier s (':' :: rest)

/-- The head of a line with the text after it. A label declaration comes first; if there
is none, the longest run of capitals is the name of an instruction; and if there is no
capital either, the line has no head. -/
inductive Begins : Option (List Char × Lexeme) → List Char → Prop
  | label {s rest : List Char} (hs : Longest IsIdentifier s (':' :: rest)) :
      Begins (some (s ++ [':'], .label (String.ofList s))) rest
  | instruction {s rest : List Char} (hlabel : ¬ DeclaresLabel (s ++ rest))
      (hs : Longest (IsWord IsCapital) s rest) :
      Begins (some (s, .instruction (String.ofList s))) rest
  | without {rest : List Char} (hlabel : ¬ DeclaresLabel rest)
      (hcap : ∀ s after, rest = s ++ after → ¬ IsWord IsCapital s) : Begins none rest

/-- A text that begins with a literal. -/
def BeginsLikeLiteral (s : List Char) : Prop :=
  ∃ d rest, s = '0' :: 'x' :: d :: rest ∧ IsHexDigit d

/-- An operand with the lexeme that it denotes and the text after it. A register comes
first, then a literal, and a name is what is neither. -/
inductive IsOperand : List Char → Lexeme → List Char → Prop
  | register {d : Char} (hd : IsHexDigit d) (rest : List Char) :
      IsOperand ['V', d] (.register (BitVec.ofNat 8 (numeralValue [d]))) rest
  | literal {ds rest : List Char} (hds : Longest (IsWord IsHexDigit) ds rest) :
      IsOperand ('0' :: 'x' :: ds) (.literal (BitVec.ofNat 64 (numeralValue ds))) rest
  | name {s rest : List Char} (hreg : ¬ BeginsLikeRegister (s ++ rest))
      (hlit : ¬ BeginsLikeLiteral (s ++ rest)) (hs : Longest IsIdentifier s rest) :
      IsOperand s (.name (String.ofList s)) rest

variable {s : List Char} {l : Lexeme} {ls : List Lexeme}

lemma label?_eq_none_iff : label? s = none ↔ ¬ DeclaresLabel s := by
  have hcolon : ∀ rest, Stops IsIdentifierRest (':' :: rest) :=
    fun rest => stops_cons_iff.mpr (by decide)
  rw [Option.eq_none_iff_forall_not_mem]
  refine ⟨fun h hs => ?_, fun h q hq => ?_⟩
  · obtain ⟨t, rest, hs, ht⟩ := hs
    exact h _ (label?_eq_some_iff.mpr ⟨t, hs, (longest_identifier_iff.mp ht).1, rfl⟩)
  · obtain ⟨t, hs, ht, -⟩ := label?_eq_some_iff.mp hq
    exact h ⟨t, _, hs, longest_identifier_iff.mpr ⟨ht, hcolon _⟩⟩

/-- A head is the text that reading takes for it. -/
lemma begins_some_iff : Begins (some (t, l)) rest ↔ HeadAt t l rest := by
  refine ⟨fun h => ?_, fun h => ?_⟩
  · cases h with
    | label hs => exact .label (longest_identifier_iff.mp hs).1 rest
    | instruction hlabel hs =>
        obtain ⟨⟨hne, hcap⟩, hstop⟩ := longest_word_iff.mp hs
        have hnone := label?_eq_none_iff.mpr hlabel
        exact .instruction hne hcap hstop ((label?_capitals_eq_none_iff hne hcap).mp hnone)
  · cases h with
    | label hs =>
        exact .label (longest_identifier_iff.mpr ⟨hs, stops_cons_iff.mpr (by decide)⟩)
    | instruction hne hcap hstop hcolon =>
        have hnone := (label?_capitals_eq_none_iff hne hcap).mpr hcolon
        exact .instruction (label?_eq_none_iff.mp hnone)
          (longest_word_iff.mpr ⟨⟨hne, hcap⟩, hstop⟩)

/-- Capitals at the start of a text are the name of an instruction. -/
lemma instruction?_eq_none_iff :
    instruction? s = none ↔ ∀ u after, s = u ++ after → ¬ IsWord IsCapital u := by
  refine ⟨fun h u after hs hu => ?_, fun h => ?_⟩
  · obtain ⟨c, cs, rfl⟩ := List.exists_cons_of_ne_nil hu.1
    have hc : isCapital c = true := (isCapital_iff c).mpr (hu.2 c (.head _))
    rw [hs, List.cons_append, instruction?, List.takeWhile_cons_of_pos hc] at h
    cases h
  · rw [Option.eq_none_iff_forall_not_mem]
    intro q hq
    obtain ⟨u, hs, hne, hu, -⟩ := instruction?_eq_some_iff.mp hq
    exact h u _ hs ⟨hne, hu⟩

/-- A line without a head is one on which reading finds none. -/
lemma begins_none_iff : Begins none s ↔ head? s = none := by
  have hsplit : head? s = none ↔ label? s = none ∧ instruction? s = none := by
    rw [head?, Option.orElse_eq_orElse, Option.orElse_eq_or, Option.or_eq_none_iff]
  rw [hsplit, label?_eq_none_iff, instruction?_eq_none_iff]
  refine ⟨fun h => ?_, fun h => .without h.1 h.2⟩
  obtain _ | _ | ⟨hlabel, hcap⟩ := h
  exact ⟨hlabel, hcap⟩

/-- An operand is the text that reading takes for one, and denotes the same lexeme. -/
lemma isOperand_iff : IsOperand t l rest ↔ OperandAt t l rest := by
  have hone : ∀ {d : Char}, IsHexDigit d → numeralValue [d] = Hex.digitValue d := by
    intro d hd
    rw [digitValue_eq_idxOf hd]
    exact Nat.ofDigits_singleton
  refine ⟨fun h => ?_, fun h => ?_⟩
  · cases h with
    | register hd =>
        rw [hone hd]
        exact .register hd rest
    | literal hds =>
        obtain ⟨⟨hne, hds⟩, hstop⟩ := longest_word_iff.mp hds
        rw [← value_eq_ofNat_numeralValue 64 hds]
        exact .literal hne hds hstop
    | name hreg hlit hs =>
        obtain ⟨hid, hstop⟩ := longest_identifier_iff.mp hs
        exact .name hid (fun h => hreg (h.append rest)) hstop
  · cases h with
    | register hd =>
        rw [← hone hd]
        exact .register hd rest
    | literal hne hds hstop =>
        rw [value_eq_ofNat_numeralValue 64 hds]
        exact .literal (longest_word_iff.mpr ⟨⟨hne, hds⟩, hstop⟩)
    | name hid hreg hstop =>
        have hne : t ≠ [] := by
          rintro rfl
          obtain ⟨c, cs, hnil, -⟩ := hid
          cases hnil
        refine .name (fun h => hreg (h.of_append hne hstop)) ?_
          (longest_identifier_iff.mpr ⟨hid, hstop⟩)
        -- a literal begins with a digit, an identifier does not
        rintro ⟨d, after, hs, -⟩
        obtain ⟨c, cs, rfl, hc, -⟩ := hid
        obtain ⟨rfl, -⟩ := List.cons.inj hs
        exact absurd hc (by decide)

/-! ### Lines cut into parts -/

/-- An operand as it stands in a line: the separators before it, its text, and the lexeme
that it denotes. -/
@[ext] structure Piece where
  separators : List Char
  text : List Char
  lexeme : Lexeme
  deriving DecidableEq, Repr

/-- The text of operands, with what follows them. -/
def Piece.join (ending : List Char) : List Piece → List Char
  | [] => ending
  | o :: os => o.separators ++ (o.text ++ join ending os)

/-- A line cut into parts: its head with the lexeme that it denotes, if there is a head;
the operands; and at the end separators and a comment. -/
structure LineCut where
  head : Option (List Char × Lexeme)
  operands : List Piece
  separators : List Char
  comment : List Char
  deriving DecidableEq, Repr

namespace LineCut

/-- What follows the last operand. -/
def ending (c : LineCut) : List Char := c.separators ++ c.comment

/-- What follows the head. -/
def body (c : LineCut) : List Char := Piece.join c.ending c.operands

/-- All parts of a line, in order. -/
def text (c : LineCut) : List Char := (c.head.elim [] Prod.fst) ++ c.body

/-- The lexemes that the parts denote, in order. -/
def lexemes (c : LineCut) : List Lexeme :=
  (c.head.map Prod.snd).toList ++ c.operands.map Piece.lexeme

end LineCut

/-- Operands cut as the rules say: before each stand all the separators that there are. -/
inductive Cut (ending : List Char) : List Piece → Prop
  | nil : Cut ending []
  | cons {o : Piece} {os : List Piece}
      (hs : Longest (IsRun IsSeparator) o.separators (o.text ++ Piece.join ending os))
      (ho : IsOperand o.text o.lexeme (Piece.join ending os)) (hr : Cut ending os) :
      Cut ending (o :: os)

/-- The end of a line: all separators that there are, and a comment or nothing. -/
structure Ends (seps comment : List Char) : Prop where
  separators : Longest (IsRun IsSeparator) seps comment
  comment : comment = [] ∨ ∃ text, comment = ';' :: text

/-- A line cut as the rules say. -/
structure LineCut.Grammatical (c : LineCut) : Prop where
  head : Begins c.head c.body
  operands : Cut c.ending c.operands
  ends : Ends c.separators c.comment

/-! ### Reading is cutting -/

/-- An operand begins neither with a separator nor with a semicolon. -/
lemma IsOperand.exists_cons (h : IsOperand t l rest) :
    ∃ c cs, t ++ rest = c :: cs ∧ ¬ IsSeparator c ∧ c ≠ ';' := by
  obtain ⟨c, cs, rfl, hc, hsemi⟩ := (isOperand_iff.mp h).exists_cons
  exact ⟨c, cs ++ rest, rfl, hc, hsemi⟩

lemma Ends.of_separators {seps comment : List Char} (hs : ∀ c ∈ seps, IsSeparator c)
    (hcomment : comment = [] ∨ ∃ text, comment = ';' :: text) : Ends seps comment := by
  refine ⟨longest_run_iff.mpr ⟨hs, ?_⟩, hcomment⟩
  rcases hcomment with rfl | ⟨text, rfl⟩
  · exact .nil _
  · exact stops_cons_iff.mpr (by decide)

/-- The operands of a text are its parts. -/
lemma operandsAt_iff_cut :
    OperandsAt s ls ↔ ∃ os seps comment, Cut (seps ++ comment) os ∧ Ends seps comment ∧
      s = Piece.join (seps ++ comment) os ∧ ls = os.map Piece.lexeme := by
  refine ⟨fun h => ?_, fun h => ?_⟩
  · induction h with
    | @stop seps tail hs ht => exact ⟨[], seps, tail, .nil, .of_separators hs ht, rfl, rfl⟩
    | @next seps t rest l ls hs hl _ ih =>
        obtain ⟨os, seps', comment, hos, hend, rfl, rfl⟩ := ih
        have ho := isOperand_iff.mpr hl
        obtain ⟨c, cs, htext, hc, -⟩ := ho.exists_cons
        have hseps : Longest (IsRun IsSeparator) seps (t ++ Piece.join (seps' ++ comment) os) := by
          rw [longest_run_iff, htext, stops_cons_iff]
          exact ⟨hs, hc⟩
        exact ⟨⟨seps, t, l⟩ :: os, seps', comment, .cons hseps ho hos, hend, rfl, rfl⟩
  · obtain ⟨os, seps, comment, hos, hend, rfl, rfl⟩ := h
    induction hos with
    | nil => exact .stop (longest_run_iff.mp hend.separators).1 hend.comment
    | cons hs ho _ ih => exact .next (longest_run_iff.mp hs).1 (isOperand_iff.mp ho) ih

/-- **A line is read if and only if it can be cut**, and gives the lexemes of its parts. -/
theorem lexemes_eq_ok_iff_cut :
    lexemes s = .ok ls ↔ ∃ c : LineCut, c.Grammatical ∧ c.text = s ∧ c.lexemes = ls := by
  rw [lexemes_eq_ok_iff]
  refine ⟨fun h => ?_, fun h => ?_⟩
  · rcases h with ⟨t, l, rest, ls', rfl, ht, hls, rfl⟩ | ⟨hnone, hls⟩
    · obtain ⟨os, seps, comment, hos, hend, rfl, rfl⟩ := operandsAt_iff_cut.mp hls
      exact ⟨⟨some (t, l), os, seps, comment⟩, ⟨begins_some_iff.mpr ht, hos, hend⟩, rfl, rfl⟩
    · obtain ⟨os, seps, comment, hos, hend, rfl, rfl⟩ := operandsAt_iff_cut.mp hls
      exact ⟨⟨none, os, seps, comment⟩, ⟨begins_none_iff.mpr hnone, hos, hend⟩, rfl, rfl⟩
  · obtain ⟨⟨head, os, seps, comment⟩, ⟨hhead, hos, hend⟩, rfl, rfl⟩ := h
    have hls := operandsAt_iff_cut.mpr ⟨os, seps, comment, hos, hend, rfl, rfl⟩
    cases head with
    | none => exact .inr ⟨begins_none_iff.mp hhead, hls⟩
    | some q => exact .inl ⟨q.1, q.2, _, _, rfl, begins_some_iff.mp hhead, hls, rfl⟩

/-! ### There is one way to cut -/

/-- The first operand of a text is determined by it. -/
lemma IsOperand.unique {l' : Lexeme} (h : IsOperand t l rest) (h' : IsOperand t' l' rest')
    (he : t ++ rest = t' ++ rest') : t = t' ∧ l = l' ∧ rest = rest' := by
  have hread := operand?_eq_some_iff.mpr ⟨t, isOperand_iff.mp h, rfl⟩
  have hread' := operand?_eq_some_iff.mpr ⟨t', isOperand_iff.mp h', rfl⟩
  rw [he, hread'] at hread
  cases hread
  exact ⟨List.append_cancel_right he, rfl, rfl⟩

/-- Reading the head of a line finds the head that it begins with. -/
lemma Begins.head?_eq {q : Option (List Char × Lexeme)} (h : Begins q rest) :
    head? (q.elim [] Prod.fst ++ rest) = q.map fun u => (u.2, rest) := by
  cases q with
  | none => exact begins_none_iff.mp h
  | some u => exact head?_eq_some_iff.mpr ⟨u.1, begins_some_iff.mp h, rfl⟩

/-- The head of a line is determined by the line. -/
lemma Begins.unique {q q' : Option (List Char × Lexeme)} (h : Begins q rest)
    (h' : Begins q' rest') (he : q.elim [] Prod.fst ++ rest = q'.elim [] Prod.fst ++ rest') :
    q = q' ∧ rest = rest' := by
  have hread := h.head?_eq
  rw [he, h'.head?_eq] at hread
  cases q with
  | none =>
      cases q' with
      | none => exact ⟨rfl, he⟩
      | some u => cases hread
  | some u =>
      cases q' with
      | none => cases hread
      | some u' =>
          obtain ⟨hlexeme, rfl⟩ := Prod.mk.inj (Option.some.inj hread)
          have htext : u.1 = u'.1 := List.append_cancel_right he
          exact ⟨congrArg some (Prod.ext htext hlexeme.symm), rfl⟩

/-- The end of a line does not begin with an operand. -/
lemma Ends.append_ne {seps comment seps' : List Char} (h : Ends seps comment)
    (hs : Longest (IsRun IsSeparator) seps' (t ++ rest)) (ho : IsOperand t l rest) :
    seps ++ comment ≠ seps' ++ (t ++ rest) := by
  intro he
  obtain ⟨-, hrest⟩ := h.separators.unique hs he
  obtain ⟨c, cs, htext, -, hsemi⟩ := ho.exists_cons
  rw [htext] at hrest
  rcases h.comment with hnil | ⟨text, hcons⟩
  · rw [hnil] at hrest
    cases hrest
  · rw [hcons] at hrest
    exact hsemi (List.cons.inj hrest).1.symm

/-- The operands of a text and its end are determined by it. -/
lemma Cut.unique {os os' : List Piece} {seps seps' comment comment' : List Char}
    (h : Cut (seps ++ comment) os) (h' : Cut (seps' ++ comment') os')
    (hend : Ends seps comment) (hend' : Ends seps' comment')
    (he : Piece.join (seps ++ comment) os = Piece.join (seps' ++ comment') os') :
    os = os' ∧ seps = seps' ∧ comment = comment' := by
  induction h generalizing os' with
  | nil =>
      cases h' with
      | nil => exact ⟨rfl, hend.separators.unique hend'.separators he⟩
      | cons hs ho _ => exact absurd he (hend.append_ne hs ho)
  | @cons o os hs ho _ ih =>
      cases h' with
      | nil => exact absurd he.symm (hend'.append_ne hs ho)
      | @cons o' os' hs' ho' hr' =>
          obtain ⟨hseps, hrest⟩ := hs.unique hs' he
          obtain ⟨htext, hlexeme, hjoin⟩ := ho.unique ho' hrest
          obtain ⟨rfl, hends⟩ := ih hr' hjoin
          obtain rfl : o = o' := Piece.ext hseps htext hlexeme
          exact ⟨rfl, hends⟩

/-- **A line can be cut in one way only.** -/
theorem LineCut.Grammatical.unique {c c' : LineCut} (h : c.Grammatical) (h' : c'.Grammatical)
    (he : c.text = c'.text) : c = c' := by
  obtain ⟨head, os, seps, comment⟩ := c
  obtain ⟨head', os', seps', comment'⟩ := c'
  obtain ⟨hhead, hbody⟩ := h.head.unique h'.head he
  obtain ⟨hos, hseps, hcomment⟩ := h.operands.unique h'.operands h.ends h'.ends hbody
  cases hhead
  cases hos
  cases hseps
  cases hcomment
  rfl

/-! ### Texts -/

/-- The lines of a text, each cut as the rules say. -/
def IsCut (text : List Char) (cuts : List LineCut) : Prop :=
  (∀ c ∈ cuts, c.Grammatical) ∧ Text.IsLines text (cuts.map LineCut.text)

/-- Lines can be cut in one way only. -/
lemma eq_of_map_text_eq {cuts cuts' : List LineCut} (h : ∀ c ∈ cuts, c.Grammatical)
    (h' : ∀ c ∈ cuts', c.Grammatical) (he : cuts.map LineCut.text = cuts'.map LineCut.text) :
    cuts = cuts' := by
  induction cuts generalizing cuts' with
  | nil => exact (List.map_eq_nil_iff.mp he.symm).symm
  | cons c cuts ih =>
      cases cuts' with
      | nil => cases he
      | cons c' cuts' =>
          obtain ⟨hc, hcuts⟩ := List.forall_mem_cons.mp h
          obtain ⟨hc', hcuts'⟩ := List.forall_mem_cons.mp h'
          obtain ⟨htext, hrest⟩ := List.cons.inj he
          rw [hc.unique hc' htext, ih hcuts hcuts' hrest]

/-- Lines are read if and only if they can be cut. -/
lemma forall₂_lexemes_iff {texts : List (List Char)} {lss : List (List Lexeme)} :
    List.Forall₂ (fun s ls => lexemes s = .ok ls) texts lss ↔
      ∃ cuts : List LineCut, (∀ c ∈ cuts, c.Grammatical) ∧ cuts.map LineCut.text = texts ∧
        cuts.map LineCut.lexemes = lss := by
  refine ⟨fun h => ?_, fun h => ?_⟩
  · induction h with
    | nil => exact ⟨[], List.forall_mem_nil _, rfl, rfl⟩
    | cons hs _ ih =>
        obtain ⟨c, hc, rfl, rfl⟩ := lexemes_eq_ok_iff_cut.mp hs
        obtain ⟨cuts, hcuts, rfl, rfl⟩ := ih
        exact ⟨c :: cuts, List.forall_mem_cons.mpr ⟨hc, hcuts⟩, rfl, rfl⟩
  · obtain ⟨cuts, hcuts, rfl, rfl⟩ := h
    rw [List.forall₂_map_left_iff, List.forall₂_map_right_iff, List.forall₂_same]
    intro c hc
    exact lexemes_eq_ok_iff_cut.mpr ⟨c, hcuts c hc, rfl, rfl⟩

end Source

open Source

/-! ### The end of a line -/

/-- The end of a line: separators, and then nothing or a comment. -/
inductive IsEnding : List Char → Prop
  | plain {seps : List Char} (hs : IsRun IsSeparator seps) : IsEnding seps
  | comment {seps : List Char} (hs : IsRun IsSeparator seps) (text : List Char) :
      IsEnding (seps ++ ';' :: text)

/-- A text that ends here, or goes on with a separator or a comment. -/
abbrev EndsOperand (rest : List Char) : Prop := Stops (fun c => ¬ (IsSeparator c ∨ c = ';')) rest

section

variable {rest ending : List Char}

lemma EndsOperand.stops (h : EndsOperand rest) {p : Char → Prop}
    (hp : ∀ c, IsSeparator c ∨ c = ';' → ¬ p c) : Stops p rest :=
  Stops.mono h fun c hc hend => hp c hend hc

/-- No character of an identifier ends an operand. -/
lemma EndsOperand.stops_identifier (h : EndsOperand rest) : Stops IsIdentifierRest rest := by
  refine h.stops fun c hc hid => ?_
  rcases hc with hc | rfl
  · exact hid.not_isSeparator hc
  · exact absurd hid (by decide)

lemma endsOperand_separators {seps : List Char} (hs : IsWord IsSeparator seps) (rest : List Char) :
    EndsOperand (seps ++ rest) := by
  obtain ⟨c, cs, rfl⟩ := List.exists_cons_of_ne_nil hs.1
  exact stops_cons_iff.mpr (not_not_intro (.inl (hs.2 c (.head _))))

lemma IsEnding.endsOperand (h : IsEnding ending) : EndsOperand ending := by
  have hrun : ∀ {seps tail : List Char}, IsRun IsSeparator seps → EndsOperand tail →
      EndsOperand (seps ++ tail) := by
    intro seps tail hs ht
    by_cases hne : seps = []
    · rwa [hne]
    · exact endsOperand_separators ⟨hne, hs⟩ tail
  cases h with
  | plain hs => simpa using hrun hs (.nil _)
  | comment hs text => exact hrun hs (stops_cons_iff.mpr (not_not_intro (.inr rfl)))

lemma IsEnding.operandsAt (h : IsEnding ending) : OperandsAt ending [] := by
  cases h with
  | plain hs =>
      rw [← List.append_nil ending]
      exact .stop hs (.inl rfl)
  | comment hs text => exact .stop hs (.inr ⟨text, rfl⟩)

end

/-- **Reading a text is cutting its lines.** A text is read if and only if each of its lines
can be cut into a head, operands with separators around them, and a comment, every part as
long as it can be and of the first kind that it can be. The tokens are then those that the
parts denote, line by line and with the numbers of the lines, and the cut is the only one. -/
theorem tokens_eq_ok_iff_isCut (text : String) :
    (∀ ts, tokens text = .ok ts ↔
      ∃ cuts, IsCut text.toList cuts ∧ ts = numbered 1 (cuts.map LineCut.lexemes)) ∧
    ∀ cuts cuts', IsCut text.toList cuts → IsCut text.toList cuts' → cuts = cuts' := by
  refine ⟨fun ts => ?_, fun cuts cuts' h h' => ?_⟩
  · rw [tokens, tokensFrom_eq_ok_iff]
    refine ⟨fun h => ?_, fun h => ?_⟩
    · obtain ⟨lss, hlss, rfl⟩ := h
      obtain ⟨cuts, hcuts, htexts, rfl⟩ := forall₂_lexemes_iff.mp hlss
      exact ⟨cuts, ⟨hcuts, Text.isLines_iff.mpr htexts.symm⟩, rfl⟩
    · obtain ⟨cuts, ⟨hcuts, hlines⟩, rfl⟩ := h
      have htexts := (Text.isLines_iff.mp hlines).symm
      exact ⟨_, forall₂_lexemes_iff.mpr ⟨cuts, hcuts, htexts, rfl⟩, rfl⟩
  · have hlines := (Text.isLines_iff.mp h.2).symm.trans (Text.isLines_iff.mp h'.2)
    exact eq_of_map_text_eq h.1 h'.1 hlines

-- nothing has to stand between operands, and a name that begins with a register is cut
example : tokens "CLS0x12 V1V2;\n VBLANK" =
    .ok [⟨.instruction "CLS", 1⟩, ⟨.literal 0x12#64, 1⟩, ⟨.register 1#8, 1⟩, ⟨.register 2#8, 1⟩,
      ⟨.register 0xB#8, 2⟩, ⟨.name "LANK", 2⟩] := by
  cbv

end Chip8
