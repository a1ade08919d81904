/-
The place at which a text cannot be read.

A line that cannot be read has been cut as far as the rules go: a head, operands with the
separators before each of them, and separators. What is left begins with something that is no
separator, no comment and no operand. The error names the first line of this kind and shows
what is left of it, less the blanks at its end. Since the blanks are not the separators, this can
be the empty text.

* `Text.IsBlank`, `Text.IsTrimmed`: the blanks by their code points, and a text without those at its
  end; `Text.trimEnd_eq_iff` says that trimming finds it.
* `IsUnreadable`: a text at whose start no rule applies.
* `BlockedAt`: a line that is cut up to such a text.
* `operands_eq_error_iff`, `lexemes_eq_error_iff`: reading stops there, and only there.
* `tokensFrom_eq_error_iff`: the error of a text is that of its first line with an error.
* `tokens_eq_unreadable_iff`: **the first place that cannot be read** is the error, and the lines
  after it have no part in it.
-/
import Mathlib.Tactic
import Chip8.Proofs.LineGrammar

namespace Chip8

/-! ### Blanks at the end of a text -/

namespace Text

/-- The characters with the property `White_Space`, by code point. -/
def IsBlank (c : Char) : Prop :=
  0x09 ≤ c.toNat ∧ c.toNat ≤ 0x0D ∨ 0x2000 ≤ c.toNat ∧ c.toNat ≤ 0x200A ∨
    c.toNat ∈ [0x20, 0x85, 0xA0, 0x1680, 0x2028, 0x2029, 0x202F, 0x205F, 0x3000]

/-- The text `t` is `s` without the blanks at its end. -/
def IsTrimmed (s t : List Char) : Prop :=
  (∃ blanks, s = t ++ blanks ∧ ∀ c ∈ blanks, IsBlank c) ∧ ∀ c ∈ t.getLast?, ¬ IsBlank c

lemma isBlank_iff (c : Char) : isBlank c = true ↔ IsBlank c := by
  simp only [isBlank, blankRanges, IsBlank, List.any_cons, List.any_nil, Bool.or_false,
    Bool.or_eq_true, Bool.and_eq_true, decide_eq_true_eq, List.mem_cons, List.not_mem_nil, or_false]
  omega

/-- Trimming takes away the blanks at the end and nothing else. -/
lemma trimEnd_eq_iff {s t : List Char} : trimEnd s = t ↔ IsTrimmed s t := by
  have hspan := @Source.span_eq_iff isBlank IsBlank isBlank_iff s.reverse
  rw [trimEnd, List.reverse_eq_iff]
  refine ⟨fun h => ?_, fun h => ?_⟩
  · obtain ⟨hs, hblank, hstop⟩ := hspan.mp ⟨rfl, h⟩
    refine ⟨⟨(s.reverse.takeWhile isBlank).reverse, ?_, fun c hc => ?_⟩, fun c hc => ?_⟩
    · rw [← List.reverse_inj, List.reverse_append, List.reverse_reverse]
      exact hs
    · exact hblank c (List.mem_reverse.mp hc)
    · exact hstop c (by rwa [List.head?_reverse])
  · obtain ⟨⟨blanks, rfl, hblank⟩, hlast⟩ := h
    refine (hspan.mpr ⟨List.reverse_append, fun c hc => ?_, fun c hc => ?_⟩).2
    · exact hblank c (List.mem_reverse.mp hc)
    · exact hlast c (by rwa [List.head?_reverse] at hc)

end Text

namespace Source

/-! ### Texts that begin with no operand -/

/-- A text at whose start no rule applies: it begins with no separator and no comment, with no
letter, so that neither a register nor a name can be read, and with no literal. -/
structure IsUnreadable (s : List Char) : Prop where
  ne_nil : s ≠ []
  start : Stops (fun c => IsSeparator c ∨ c = ';' ∨ IsLetter c) s
  literal : ¬ BeginsLikeLiteral s

/-- A line with what is left of it where it cannot be read: up to there it is cut as the rules
say. -/
inductive BlockedAt : List Char → List Char → Prop
  | intro {head : Option (List Char × Lexeme)} {os : List Piece} {seps rest : List Char}
      (hhead : Begins head (Piece.join (seps ++ rest) os)) (hos : Cut (seps ++ rest) os)
      (hseps : Longest (IsRun IsSeparator) seps rest) (hrest : IsUnreadable rest) :
      BlockedAt (head.elim [] Prod.fst ++ Piece.join (seps ++ rest) os) rest

variable {s rest : List Char}

lemma identifier?_eq_none_iff : identifier? s = none ↔ Stops IsLetter s := by
  cases s with
  | nil => exact ⟨fun _ => .nil _, fun _ => rfl⟩
  | cons c cs =>
      rw [identifier?, stops_cons_iff, ← isLetter_iff]
      split_ifs with hc <;> simp [hc]

lemma literal?_eq_none_iff : literal? s = none ↔ ¬ BeginsLikeLiteral s := by
  rw [Option.eq_none_iff_forall_not_mem]
  refine ⟨fun h hs => ?_, fun h q hq => ?_⟩
  · obtain ⟨d, after, rfl, hd⟩ := hs
    obtain ⟨hcut, hin, hstop⟩ := (@span_eq_iff _ _ isHexDigit_iff (d :: after) _ _).mp ⟨rfl, rfl⟩
    have hne : (d :: after).takeWhile Hex.isDigit ≠ [] := by
      rw [List.takeWhile_cons_of_pos ((isHexDigit_iff d).mpr hd)]
      exact List.cons_ne_nil _ _
    exact h _ (literal?_eq_some_iff.mpr ⟨_, by rw [← hcut], hne, hin, hstop, rfl⟩)
  · obtain ⟨ds, rfl, hne, hds, -⟩ := literal?_eq_some_iff.mp hq
    obtain ⟨d, ds, rfl⟩ := List.exists_cons_of_ne_nil hne
    exact h ⟨d, _, rfl, hds d (.head _)⟩

/-- There is no operand where there is no letter and no literal. -/
lemma operand?_eq_none_iff :
    operand? s = none ↔ Stops IsLetter s ∧ ¬ BeginsLikeLiteral s := by
  have hsplit : operand? s = none ↔ register? s = none ∧ literal? s = none ∧ name? s = none := by
    simp only [operand?, Option.orElse_eq_orElse, Option.orElse_eq_or, Option.or_eq_none_iff]
  rw [hsplit, literal?_eq_none_iff, name?, Option.map_eq_none_iff, identifier?_eq_none_iff]
  refine ⟨fun h => ⟨h.2.2, h.2.1⟩, fun h => ⟨register?_eq_none_iff.mpr ?_, h.2, h.1⟩⟩
  -- a register begins with a letter
  rintro ⟨d, after, rfl, -⟩
  exact stops_cons_iff.mp h.1 (by decide)

lemma isUnreadable_cons_iff {c : Char} {cs : List Char} :
    IsUnreadable (c :: cs) ↔ ¬ IsSeparator c ∧ c ≠ ';' ∧ operand? (c :: cs) = none := by
  rw [operand?_eq_none_iff, stops_cons_iff]
  refine ⟨fun h => ?_, fun h => ?_⟩
  · have hstart := stops_cons_iff.mp h.start
    push Not at hstart
    exact ⟨hstart.1, hstart.2.1, hstart.2.2, h.literal⟩
  · obtain ⟨hsep, hsemi, hletter, hlit⟩ := h
    refine ⟨List.cons_ne_nil c cs, stops_cons_iff.mpr ?_, hlit⟩
    push Not
    exact ⟨hsep, hsemi, hletter⟩

/-! ### Reading a line up to such a text -/

/-- Reading stops at an unreadable text behind separators. -/
lemma operands_of_isUnreadable {seps : List Char} (hs : ∀ c ∈ seps, IsSeparator c)
    (hrest : IsUnreadable rest) : operands (seps ++ rest) = .error rest := by
  obtain ⟨c, cs, rfl⟩ := List.exists_cons_of_ne_nil hrest.ne_nil
  obtain ⟨hsep, hsemi, hnone⟩ := isUnreadable_cons_iff.mp hrest
  have hdrop : (seps ++ c :: cs).dropWhile isSeparator = c :: cs :=
    ((span_eq_iff isSeparator_iff).mpr ⟨rfl, hs, stops_cons_iff.mpr hsep⟩).2
  rw [operands]
  split
  · next hnil =>
    rw [hdrop] at hnil
    cases hnil
  · next hcons =>
    rw [hdrop] at hcons
    cases hcons
    rw [if_neg hsemi]
    split
    · rfl
    · next hsome => cases hsome.symm.trans hnone

lemma map_eq_error_iff {ε α β : Type} {f : α → β} {x : Except ε α} {e : ε} :
    x.map f = .error e ↔ x = .error e := by
  cases x <;> simp [Except.map]

/-- The separators at the start of a text are all that there are. -/
lemma longest_separators (s : List Char) :
    Longest (IsRun IsSeparator) (s.takeWhile isSeparator) (s.dropWhile isSeparator) := by
  obtain ⟨-, hin, hstop⟩ := (@span_eq_iff _ _ isSeparator_iff s _ _).mp ⟨rfl, rfl⟩
  exact longest_run_iff.mpr ⟨hin, hstop⟩

/-- What comes after separators is unreadable if it is no comment and no operand. -/
lemma isUnreadable_of_dropWhile {c : Char} {cs : List Char} (h : s.dropWhile isSeparator = c :: cs)
    (hsemi : c ≠ ';') (hnone : operand? (c :: cs) = none) : IsUnreadable (c :: cs) := by
  have hstop := (longest_run_iff.mp (longest_separators s)).2
  rw [h, stops_cons_iff] at hstop
  exact isUnreadable_cons_iff.mpr ⟨hstop, hsemi, hnone⟩

/-- **Reading operands stops** behind operands and separators, at a text that is unreadable. -/
theorem operands_eq_error_iff :
    operands s = .error rest ↔
      ∃ os seps, Cut (seps ++ rest) os ∧ Longest (IsRun IsSeparator) seps rest ∧
        IsUnreadable rest ∧ s = Piece.join (seps ++ rest) os := by
  refine ⟨fun h => ?_, fun h => ?_⟩
  · -- along the recursion of `operands`
    fun_induction operands s with
    | case1 | case2 => cases h
    | case3 s c cs hs hsemi hnone =>
        cases h
        have hseps := longest_separators s
        rw [hs] at hseps
        refine ⟨[], _, .nil, hseps, isUnreadable_of_dropWhile hs hsemi hnone, ?_⟩
        rw [Piece.join, ← hs, List.takeWhile_append_dropWhile]
    | case4 s c cs hs hsemi l after hsome hlt ih =>
        obtain ⟨os, seps, hos, hlong, hrest, rfl⟩ := ih (map_eq_error_iff.mp h)
        obtain ⟨t, ht, htext⟩ := operand?_eq_some_iff.mp hsome
        have hseps := longest_separators s
        rw [hs, htext] at hseps
        refine ⟨⟨_, t, l⟩ :: os, seps, .cons hseps (isOperand_iff.mpr ht) hos, hlong, hrest, ?_⟩
        rw [Piece.join, ← htext, ← hs, List.takeWhile_append_dropWhile]
  · obtain ⟨os, seps, hos, hlong, hrest, rfl⟩ := h
    induction hos with
    | nil => exact operands_of_isUnreadable (longest_run_iff.mp hlong).1 hrest
    | cons hs ho _ ih =>
        rw [Piece.join, operands_append (longest_run_iff.mp hs).1 (isOperand_iff.mp ho), ih]
        rfl

/-- Every line begins with a head or without one. -/
lemma exists_begins (s : List Char) : ∃ q rest, Begins q rest ∧ s = q.elim [] Prod.fst ++ rest := by
  cases hhead : head? s with
  | none => exact ⟨none, s, begins_none_iff.mpr hhead, rfl⟩
  | some q =>
      obtain ⟨t, ht, hs⟩ := head?_eq_some_iff.mp hhead
      exact ⟨some (t, q.1), q.2, begins_some_iff.mpr ht, hs⟩

/-- The lexemes of a line are that of its head and those that are read behind it. -/
lemma Begins.lexemes_eq {q : Option (List Char × Lexeme)} (h : Begins q rest) :
    lexemes (q.elim [] Prod.fst ++ rest) = (operands rest).map ((q.map Prod.snd).toList ++ ·) := by
  rw [lexemes, h.head?_eq]
  cases q with
  | none => cases hrest : operands rest <;> simp [hrest, Except.map]
  | some q => rfl

/-- **Reading a line stops** where it is blocked. -/
theorem lexemes_eq_error_iff : lexemes s = .error rest ↔ BlockedAt s rest := by
  refine ⟨fun h => ?_, fun h => ?_⟩
  · obtain ⟨q, body, hq, rfl⟩ := exists_begins s
    rw [hq.lexemes_eq, map_eq_error_iff] at h
    obtain ⟨os, seps, hos, hlong, hrest, rfl⟩ := operands_eq_error_iff.mp h
    exact .intro hq hos hlong hrest
  · obtain ⟨hq, hos, hlong, hrest⟩ := h
    rw [hq.lexemes_eq, map_eq_error_iff]
    exact operands_eq_error_iff.mpr ⟨_, _, hos, hlong, hrest, rfl⟩

/-! ### Reading a text up to the first line of this kind -/

lemma lineTokens_eq_unreadable_iff {line n : Nat} {fragment : String} :
    lineTokens line s = .error (.unreadable n fragment) ↔
      n = line ∧ ∃ rest, lexemes s = .error rest ∧ Text.IsTrimmed rest fragment.toList := by
  rw [lineTokens]
  cases lexemes s with
  | ok ls => simp
  | error rest =>
      simp only [Except.error.injEq, Error.unreadable.injEq, exists_eq_left', ← Text.trimEnd_eq_iff]
      rw [eq_comm, ← String.toList_inj, String.toList_ofList]

section

variable {line : Nat} {t : List Char} {texts : List (List Char)} {e : Error}

lemma tokensFrom_cons_of_error (h : lineTokens line t = .error e) :
    tokensFrom line (t :: texts) = .error e := by
  rw [tokensFrom, h]
  rfl

lemma tokensFrom_cons_of_ok {here : List Token} (h : lineTokens line t = .ok here) :
    tokensFrom line (t :: texts) = (tokensFrom (line + 1) texts).map (here ++ ·) := by
  rw [tokensFrom, h]
  cases tokensFrom (line + 1) texts <;> rfl

/-- **The error of lines** is that of the first line that has one. -/
theorem tokensFrom_eq_error_iff :
    tokensFrom line texts = .error e ↔
      ∃ before s after, texts = before ++ s :: after ∧ (∀ t ∈ before, ∃ ls, lexemes t = .ok ls) ∧
        lineTokens (line + before.length) s = .error e := by
  induction texts generalizing line with
  | nil => simp [tokensFrom]
  | cons t texts ih =>
      have hlength : ∀ before : List (List Char),
          line + (t :: before).length = line + 1 + before.length := by
        intro before
        rw [List.length_cons]
        omega
      refine ⟨fun h => ?_, fun h => ?_⟩
      · cases ht : lineTokens line t with
        | error e' =>
            rw [tokensFrom_cons_of_error ht] at h
            cases h
            exact ⟨[], t, texts, rfl, List.forall_mem_nil _, ht⟩
        | ok here =>
            rw [tokensFrom_cons_of_ok ht, map_eq_error_iff] at h
            obtain ⟨before, s, after, rfl, hbefore, hs⟩ := ih.mp h
            obtain ⟨ls, hls, -⟩ := lineTokens_eq_ok_iff.mp ht
            refine ⟨t :: before, s, after, rfl, List.forall_mem_cons.mpr ⟨⟨ls, hls⟩, hbefore⟩, ?_⟩
            rwa [hlength]
      · obtain ⟨before, s, after, htexts, hbefore, hs⟩ := h
        cases before with
        | nil =>
            obtain ⟨rfl, rfl⟩ := List.cons.inj htexts
            exact tokensFrom_cons_of_error hs
        | cons t' before =>
            obtain ⟨rfl, rfl⟩ := List.cons.inj htexts
            obtain ⟨⟨ls, hls⟩, hbefore⟩ := List.forall_mem_cons.mp hbefore
            rw [hlength] at hs
            rw [tokensFrom_cons_of_ok (lineTokens_eq_ok_iff.mpr ⟨ls, hls, rfl⟩),
              map_eq_error_iff]
            exact ih.mpr ⟨before, s, after, rfl, hbefore, hs⟩

end

end Source

open Source

/-- **The first place that cannot be read.** A text has an error on line `n` if and only if all
lines before can be cut, and this line is blocked; the error shows what is left of the line there,
without the blanks at its end. A text with the same lines up to this one has the same error. -/
theorem tokens_eq_unreadable_iff (text : String) (n : Nat) (fragment : String) :
    (tokens text = .error (.unreadable n fragment) ↔
      ∃ before s after rest, Text.IsLines text.toList (before ++ s :: after) ∧
        before.length + 1 = n ∧ (∀ t ∈ before, ∃ c : LineCut, c.Grammatical ∧ c.text = t) ∧
        BlockedAt s rest ∧ Text.IsTrimmed rest fragment.toList) ∧
    ∀ other lines lines', Text.IsLines text.toList lines → Text.IsLines other.toList lines' →
      lines.take n = lines'.take n → tokens text = .error (.unreadable n fragment) →
        tokens other = .error (.unreadable n fragment) := by
  refine ⟨?_, fun other lines lines' hlines hlines' htake h => ?_⟩
  · rw [tokens, tokensFrom_eq_error_iff]
    refine ⟨fun h => ?_, fun h => ?_⟩
    · obtain ⟨before, s, after, htexts, hbefore, hs⟩ := h
      obtain ⟨rfl, rest, hrest, hfragment⟩ := lineTokens_eq_unreadable_iff.mp hs
      refine ⟨before, s, after, rest, Text.isLines_iff.mpr htexts, Nat.add_comm _ _, fun t ht => ?_,
        lexemes_eq_error_iff.mp hrest, hfragment⟩
      obtain ⟨ls, hls⟩ := hbefore t ht
      obtain ⟨c, hc, htext, -⟩ := lexemes_eq_ok_iff_cut.mp hls
      exact ⟨c, hc, htext⟩
    · obtain ⟨before, s, after, rest, hlines, rfl, hbefore, hs, hfragment⟩ := h
      refine ⟨before, s, after, Text.isLines_iff.mp hlines, fun t ht => ?_, ?_⟩
      · obtain ⟨c, hc, htext⟩ := hbefore t ht
        exact ⟨c.lexemes, lexemes_eq_ok_iff_cut.mpr ⟨c, hc, htext, rfl⟩⟩
      · exact lineTokens_eq_unreadable_iff.mpr
          ⟨Nat.add_comm _ _, rest, lexemes_eq_error_iff.mpr hs, hfragment⟩
  · obtain rfl := Text.isLines_iff.mp hlines
    obtain rfl := Text.isLines_iff.mp hlines'
    obtain ⟨before, s, after, htexts, hbefore, hs⟩ := tokensFrom_eq_error_iff.mp h
    obtain ⟨rfl, -⟩ := lineTokens_eq_unreadable_iff.mp hs
    -- the lines up to this one are the first `n` of both texts
    have hfirst : (before ++ s :: after).take (1 + before.length) = before ++ [s] := by
      rw [List.append_cons]
      exact List.take_left' (by simp [Nat.add_comm])
    rw [tokens, tokensFrom_eq_error_iff]
    refine ⟨before, s, (Text.lines other.toList).drop (1 + before.length), ?_, hbefore, hs⟩
    rw [List.append_cons, ← hfirst, ← htexts, htake, List.take_append_drop]

-- the head `XYZ` is read before the digits are refused
example : tokens "CLS\nXYZ123!!! \n" = .error (.unreadable 2 "123!!!") := by cbv

-- a blank that is no separator is refused, and nothing is shown of it
example : tokens "CLS \u00a0" = .error (.unreadable 1 "") := by cbv

end Chip8
