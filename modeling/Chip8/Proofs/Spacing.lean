/-
Spacing within a line.

Between two lexemes of a line there may be separators, and there need not be any. Putting more of
them there cannot glue lexemes together, and it cannot part a lexeme either, because no separator
is a character of one. So the line is read as before. At the end of a line a comment may be added in
the same way. If the line cannot be read, it still cannot, and from the same place on.

* `Begins.insert`, `OperandAt.insert`: a head and an operand stay what they are if something is put
  behind them that begins with a separator or a comment.
* `Gap`, `LineCut.Boundary`: the places between the parts of a line, by the texts on their sides.
* `LineCut.Grammatical.lexemes_insert`: **separators at such a place change nothing**.
* `operands_append_ending`, `lexemes_append_ending`: **separators and a comment at the end of a line
  change nothing**, but that what cannot be read goes on for longer.
* `lineTokens_append_return`: a carriage return at the end of a line is not seen, not even in an
  error.
-/
import Mathlib.Tactic
import Chip8.Proofs.Unreadable

namespace Chip8

namespace Source

/-! ### What does not reach into a lexeme -/

variable {p : Char → Prop} {s t x y w rest : List Char} {l : Lexeme}

/-- What follows a text still does if something is put there that does so itself. -/
lemma Stops.insert (h : Stops p (x ++ y)) (hw : Stops p w) : Stops p (x ++ (w ++ y)) := by
  cases x with
  | nil =>
      cases w with
      | nil => exact h
      | cons c w => exact stops_cons_iff.mpr (stops_cons_iff.mp hw)
  | cons c x => exact stops_cons_iff.mpr (stops_cons_iff.mp h)

lemma IsIdentifierRest.not_ends {c : Char} (h : IsIdentifierRest c) :
    ¬ (IsSeparator c ∨ c = ';') := by
  rintro (hc | rfl)
  · exact h.not_isSeparator hc
  · exact absurd h (by decide)

lemma IsIdentifier.isIdentifierRest {c : Char} (h : IsIdentifier s) (hc : c ∈ s) :
    IsIdentifierRest c := by
  obtain ⟨d, ds, rfl, hd, hds⟩ := h
  rcases List.mem_cons.mp hc with rfl | hc
  · exact hd.isIdentifierRest
  · exact hds c hc

/-- A text without separators and semicolons at the start of another lies before the first of
them. -/
lemma exists_eq_append {u after : List Char} (h : s ++ w = u ++ after)
    (hu : ∀ c ∈ u, ¬ (IsSeparator c ∨ c = ';')) (hw : EndsOperand w) : ∃ v, s = u ++ v := by
  rcases List.append_eq_append_iff.mp h with ⟨v, rfl, hv⟩ | ⟨v, hv, -⟩
  · cases v with
    | nil => exact ⟨[], by simp⟩
    | cons c v =>
        rw [hv] at hw
        exact absurd (hu c (by simp)) (stops_cons_iff.mp hw)
  · exact ⟨v, hv⟩

/-- If a label is declared, it is declared before the first separator or comment. -/
lemma DeclaresLabel.of_insert (h : DeclaresLabel (x ++ (w ++ y))) (hw : EndsOperand w) :
    DeclaresLabel (x ++ y) := by
  cases w with
  | nil => exact h
  | cons c w =>
      obtain ⟨s, rest, hs, hlong⟩ := h
      obtain ⟨hid, -⟩ := longest_identifier_iff.mp hlong
      have hplain : ∀ d ∈ s ++ [':'], ¬ (IsSeparator d ∨ d = ';') := by
        intro d hd
        rcases List.mem_append.mp hd with hd | hd
        · exact (hid.isIdentifierRest hd).not_ends
        · rw [List.mem_singleton.mp hd]
          decide
      have hend : EndsOperand (c :: w ++ y) := stops_cons_iff.mpr (stops_cons_iff.mp hw)
      rw [List.append_cons] at hs
      obtain ⟨v, rfl⟩ := exists_eq_append hs hplain hend
      refine ⟨s, v ++ y, by simp, longest_identifier_iff.mpr ⟨hid, stops_cons_iff.mpr ?_⟩⟩
      decide

/-- A text begins with no word of a class if its first character is not in the class. -/
lemma forall_not_isWord_iff :
    (∀ s after, t = s ++ after → ¬ IsWord p s) ↔ Stops p t := by
  refine ⟨fun h c hc hp => ?_, fun h s after ht hs => ?_⟩
  · refine h [c] t.tail (List.eq_cons_of_mem_head? hc) ⟨List.cons_ne_nil _ _, ?_⟩
    exact List.forall_mem_singleton.mpr hp
  · obtain ⟨c, cs, rfl⟩ := List.exists_cons_of_ne_nil hs.1
    rw [ht, List.cons_append, stops_cons_iff] at h
    exact h (hs.2 c (.head _))

/-- The head of a line stays what it is. -/
lemma Begins.insert {q : Option (List Char × Lexeme)} (h : Begins q (x ++ y))
    (hw : EndsOperand w) : Begins q (x ++ (w ++ y)) := by
  have hcapital : Stops IsCapital w :=
    hw.stops_identifier.mono fun _ hc => hc.isLetter.isIdentifierRest
  generalize hr : x ++ y = rest at h
  cases h with
  | label hs =>
      refine .label (longest_identifier_iff.mpr ⟨(longest_identifier_iff.mp hs).1, ?_⟩)
      exact stops_cons_iff.mpr (by decide)
  | @instruction s _ hlabel hs =>
      subst hr
      obtain ⟨hword, hstop⟩ := longest_word_iff.mp hs
      refine .instruction (fun h => hlabel ?_) (longest_word_iff.mpr ⟨hword, hstop.insert hcapital⟩)
      rw [← List.append_assoc] at h ⊢
      exact h.of_insert hw
  | without hlabel hcap =>
      subst hr
      refine .without (fun h => hlabel (h.of_insert hw)) (forall_not_isWord_iff.mpr ?_)
      exact (forall_not_isWord_iff.mp hcap).insert hcapital

/-- An operand stays what it is. -/
lemma OperandAt.insert (h : OperandAt t l (x ++ y)) (hw : EndsOperand w) :
    OperandAt t l (x ++ (w ++ y)) := by
  have hid := hw.stops_identifier
  generalize hr : x ++ y = rest at h
  cases h with
  | register hd => exact .register hd _
  | literal hne hds hrest =>
      subst hr
      exact .literal hne hds (hrest.insert (hid.mono fun _ => IsHexDigit.isIdentifierRest))
  | name hs hreg hrest =>
      subst hr
      exact .name hs hreg (hrest.insert hid)

/-! ### Places between the parts of a line -/

/-- A place between the parts of a line behind its head, by the texts before and after it. It lies
among the separators before an operand or at the end of the line, or on one side of them. -/
inductive Gap (seps comment : List Char) : List Piece → List Char → List Char → Prop
  | ending {s₁ s₂ : List Char} (h : seps = s₁ ++ s₂) : Gap seps comment [] s₁ (s₂ ++ comment)
  | before {o : Piece} {os : List Piece} {s₁ s₂ : List Char} (h : o.separators = s₁ ++ s₂) :
      Gap seps comment (o :: os) s₁ (s₂ ++ (o.text ++ Piece.join (seps ++ comment) os))
  | after {o : Piece} {os : List Piece} {x y : List Char} (h : Gap seps comment os x y) :
      Gap seps comment (o :: os) (o.separators ++ (o.text ++ x)) y

/-- A place between the parts of a line: behind its head, if there is one, and outside of the
operands and the comment. -/
def LineCut.Boundary (c : LineCut) (x y : List Char) : Prop :=
  ∃ before, x = c.head.elim [] Prod.fst ++ before ∧ Gap c.separators c.comment c.operands before y

variable {seps comment : List Char} {os : List Piece}

/-- The texts on the two sides of a place make up the line. -/
lemma Gap.append_eq (h : Gap seps comment os x y) : Piece.join (seps ++ comment) os = x ++ y := by
  induction h with
  | ending h => rw [Piece.join, h, List.append_assoc]
  | before h => rw [Piece.join, h, List.append_assoc]
  | after _ ih => simp [Piece.join, ih]

lemma LineCut.Boundary.append_eq {c : LineCut} (h : c.Boundary x y) : c.text = x ++ y := by
  obtain ⟨before, rfl, hgap⟩ := h
  rw [LineCut.text, LineCut.body, LineCut.ending, hgap.append_eq, List.append_assoc]

/-- With separators put between them, operands are read as before. -/
lemma Gap.operandsAt (h : Gap seps comment os x y) (hos : Cut (seps ++ comment) os)
    (hend : Ends seps comment) (hw : IsRun IsSeparator w) :
    OperandsAt (x ++ (w ++ y)) (os.map Piece.lexeme) := by
  have hmiddle : ∀ {s₁ s₂ : List Char}, IsRun IsSeparator (s₁ ++ s₂) →
      IsRun IsSeparator (s₁ ++ w ++ s₂) := by
    intro s₁ s₂ hs
    obtain ⟨h₁, h₂⟩ := List.forall_mem_append.mp hs
    exact List.forall_mem_append.mpr ⟨List.forall_mem_append.mpr ⟨h₁, hw⟩, h₂⟩
  induction h with
  | @ending s₁ s₂ h =>
      have hs := (longest_run_iff.mp hend.separators).1
      rw [h] at hs
      rw [← List.append_assoc, ← List.append_assoc]
      exact .stop (hmiddle hs) hend.comment
  | @before o os s₁ s₂ h =>
      obtain _ | ⟨hs, ho, hr⟩ := hos
      have hbelow := operandsAt_iff_cut.mpr ⟨os, seps, comment, hr, hend, rfl, rfl⟩
      have hs := (longest_run_iff.mp hs).1
      rw [h] at hs
      rw [← List.append_assoc, ← List.append_assoc]
      exact .next (hmiddle hs) (isOperand_iff.mp ho) hbelow
  | @after o os x y h ih =>
      obtain _ | ⟨hs, ho, hr⟩ := hos
      rw [h.append_eq] at ho
      have hoperand := (isOperand_iff.mp ho).insert (IsEnding.plain hw).endsOperand
      rw [List.append_assoc, List.append_assoc]
      exact .next (longest_run_iff.mp hs).1 hoperand (ih hr)

/-- **Separators between the parts of a line change nothing.** -/
theorem LineCut.Grammatical.lexemes_insert {c : LineCut} (hc : c.Grammatical)
    (h : c.Boundary x y) (hw : IsRun IsSeparator w) :
    Source.lexemes (x ++ w ++ y) = .ok c.lexemes := by
  obtain ⟨before, rfl, hgap⟩ := h
  have hhead := hc.head
  rw [body, ending, hgap.append_eq] at hhead
  have hinserted := hhead.insert (IsEnding.plain hw).endsOperand
  have hoperands := operands_eq_ok_iff.mpr (hgap.operandsAt hc.operands hc.ends hw)
  rw [List.append_assoc, List.append_assoc, hinserted.lexemes_eq, hoperands]
  rfl

/-! ### The end of a line -/

/-- If a text begins like a literal, it does so before the first separator or comment. -/
lemma BeginsLikeLiteral.of_append (h : BeginsLikeLiteral (s ++ w)) (hw : EndsOperand w) :
    BeginsLikeLiteral s := by
  obtain ⟨d, after, hs, hd⟩ := h
  have hplain : ∀ c ∈ ['0', 'x', d], ¬ (IsSeparator c ∨ c = ';') := by
    simp only [List.forall_mem_cons]
    exact ⟨by decide, by decide, hd.isIdentifierRest.not_ends, List.forall_mem_nil _⟩
  obtain ⟨v, rfl⟩ := exists_eq_append (u := ['0', 'x', d]) hs hplain hw
  exact ⟨d, v, rfl, hd⟩

/-- What cannot be read still cannot with more behind it. -/
lemma IsUnreadable.append (h : IsUnreadable s) (hw : EndsOperand w) : IsUnreadable (s ++ w) := by
  obtain ⟨c, cs, rfl⟩ := List.exists_cons_of_ne_nil h.ne_nil
  refine ⟨List.cons_ne_nil _ _, stops_cons_iff.mpr (stops_cons_iff.mp h.start), fun hlit => ?_⟩
  exact h.literal (hlit.of_append hw)

/-- Separators may stand before the end of a line. -/
lemma isEnding_append (h : IsEnding w) (hs : IsRun IsSeparator seps) : IsEnding (seps ++ w) := by
  cases h with
  | plain hw => exact .plain (List.forall_mem_append.mpr ⟨hs, hw⟩)
  | comment hw text =>
      rw [← List.append_assoc]
      exact .comment (List.forall_mem_append.mpr ⟨hs, hw⟩) text

/-- Separators and a comment behind operands are read past. What cannot be read goes on with
them. -/
lemma operands_append_ending (hw : IsEnding w) :
    operands (s ++ w) = (operands s).mapError (· ++ w) := by
  -- along the recursion of `operands`
  fun_induction operands s with
  | case1 s hs =>
      obtain ⟨seps, hseps, hs'⟩ := exists_separators s
      rw [hs', hs, List.append_nil]
      exact operands_eq_ok_iff.mpr (isEnding_append hw hseps).operandsAt
  | case2 s comment hs =>
      obtain ⟨seps, hseps, hs'⟩ := exists_separators s
      rw [hs', hs, List.append_assoc, List.cons_append]
      exact operands_stop hseps (.inr ⟨_, rfl⟩)
  | case3 s c cs hs hsemi hnone =>
      obtain ⟨seps, hseps, hs'⟩ := exists_separators s
      have hrest := (isUnreadable_of_dropWhile hs hsemi hnone).append hw.endsOperand
      rw [hs', hs, List.append_assoc]
      exact operands_of_isUnreadable hseps hrest
  | case4 s c cs hs hsemi l rest hsome hlt ih =>
      obtain ⟨seps, hseps, hs'⟩ := exists_separators s
      obtain ⟨t, ht, htext⟩ := operand?_eq_some_iff.mp hsome
      rw [← List.append_nil rest] at ht
      have hoperand := ht.insert hw.endsOperand
      rw [List.append_nil] at hoperand
      rw [hs', hs, htext, List.append_assoc, List.append_assoc, operands_append hseps hoperand, ih]
      cases operands rest <;> rfl

/-- **Separators and a comment at the end of a line change nothing**, but that what cannot be read
goes on with them. -/
theorem lexemes_append_ending (hw : IsEnding w) :
    lexemes (s ++ w) = (lexemes s).mapError (· ++ w) := by
  obtain ⟨q, rest, hq, rfl⟩ := exists_begins s
  have hinserted : Begins q (rest ++ w) := by
    rw [← List.append_nil rest] at hq
    simpa using hq.insert hw.endsOperand
  rw [List.append_assoc, hinserted.lexemes_eq, hq.lexemes_eq, operands_append_ending hw]
  cases operands rest <;> rfl

/-- A carriage return at the end of a line is not seen: it is a separator, and it is a blank. -/
lemma lineTokens_append_return (line : Nat) (s : List Char) :
    lineTokens line (s ++ ['\r']) = lineTokens line s := by
  have hw : IsEnding ['\r'] := .plain (List.forall_mem_singleton.mpr (by decide))
  have htrim : ∀ rest, Text.trimEnd (rest ++ ['\r']) = Text.trimEnd rest := by
    intro rest
    rw [Text.trimEnd, List.reverse_append, List.reverse_singleton, List.singleton_append,
      List.dropWhile_cons_of_pos (by decide)]
    rfl
  rw [lineTokens, lineTokens, lexemes_append_ending hw]
  cases lexemes s with
  | ok ls => rfl
  | error rest => simp only [Except.mapError, htrim]

end Source

end Chip8
