/-
Texts put together at line feeds.

The lines of a text are not quite what stands between its line feeds: a carriage return before a
line feed belongs to no line, and after the last line feed there may be none. None of this can be
seen in the tokens, and not in an error either. So a text can be read piece by piece, each piece
being what stands between two line feeds, and texts can be put together and changed line by line.

* `Text.lineInduction`: induction along the line feeds of a text.
* `tokens_eq_tokensFrom_splitOn`: **a text is read piece by piece**.
* `tokensFrom_append`, `tokensFrom_add_of_ok`, `tokensFrom_add_of_error`: pieces behind others are
  read as if they stood alone, but for the numbers of their lines.
* `tokens_append_newline`: **two texts with a line feed between them** give the tokens of the first
  and those of the second, moved down.
* `Text.Encloses`: the texts before and after a line.
* `exists_tokens_lines`, `exists_tokens_line`: a text as a function of some of its lines, or of one.
* `tokens_respaced`: **spacing is not significant**. Separators between the parts of a line, a
  comment at its end, and carriage returns before the line feeds leave the tokens as they are.
-/
import Mathlib.Tactic
import Chip8.Proofs.Spacing

namespace Chip8

/-! ### Texts and their line feeds -/

namespace Text

/-- Induction along the line feeds of a text. -/
theorem lineInduction {P : List Char → Prop} (last : ∀ s, '\n' ∉ s → P s)
    (feed : ∀ s rest, '\n' ∉ s → P rest → P (s ++ '\n' :: rest)) (s : List Char) : P s := by
  induction hn : s.length using Nat.strong_induction_on generalizing s with
  | _ n ih =>
    by_cases hs : '\n' ∈ s
    · obtain ⟨front, rest, rfl, hfront⟩ := List.eq_append_cons_of_mem hs
      rw [List.length_append, List.length_cons] at hn
      exact feed front rest hfront (ih rest.length (by omega) rest rfl)
    · exact last s hs

variable {s : List Char}

lemma splitOn_of_not_mem (h : '\n' ∉ s) : s.splitOn '\n' = [s] := by
  refine List.splitOnP_eq_singleton fun c hc => beq_eq_false_iff_ne.mpr ?_
  rintro rfl
  exact h hc

lemma splitOn_append_newline (s rest : List Char) :
    (s ++ '\n' :: rest).splitOn '\n' = s.splitOn '\n' ++ rest.splitOn '\n' :=
  List.splitOnP_append_cons s rest (beq_self_eq_true '\n')

/-- There is one piece more than there are line feeds. -/
lemma length_splitOn (s : List Char) : (s.splitOn '\n').length = 1 + s.count '\n' := by
  induction s using lineInduction with
  | last s hs => rw [splitOn_of_not_mem hs, List.count_eq_zero_of_not_mem hs, List.length_singleton]
  | feed s rest hs ih =>
      rw [splitOn_append_newline, splitOn_of_not_mem hs, List.length_append, ih, List.count_append,
        List.count_cons_self, List.count_eq_zero_of_not_mem hs, List.length_singleton]
      omega

end Text

namespace Source

/-! ### Reading piece by piece -/

variable {line k : Nat} {s : List Char} {texts : List (List Char)} {ts : List Token}

lemma lineTokens_nil (line : Nat) : lineTokens line [] = .ok [] := by
  have hnil : lexemes [] = .ok [] :=
    operands_stop (List.forall_mem_nil IsSeparator) (.inl rfl)
  rw [lineTokens, hnil]
  rfl

/-- The carriage return of a line end is not seen. -/
lemma lineTokens_withoutReturn (line : Nat) (s : List Char) :
    lineTokens line (Text.withoutReturn s) = lineTokens line s := by
  by_cases hr : s.getLast? = some '\r'
  · obtain ⟨s, rfl⟩ := List.getLast?_eq_some_iff.mp hr
    rw [Text.withoutReturn_concat, lineTokens_append_return]
  · rw [Text.withoutReturn, if_neg hr]

/-- Lines that are read alike can be exchanged. -/
lemma tokensFrom_cons_congr {t : List Char} (h : lineTokens line s = lineTokens line t) :
    tokensFrom line (s :: texts) = tokensFrom line (t :: texts) := by
  rw [tokensFrom, tokensFrom, h]

/-- The lines of a text are read as what stands between its line feeds. -/
lemma tokensFrom_lines (line : Nat) (s : List Char) :
    tokensFrom line (Text.lines s) = tokensFrom line (s.splitOn '\n') := by
  induction s using Text.lineInduction generalizing line with
  | last s hs =>
      rw [Text.splitOn_of_not_mem hs]
      by_cases hne : s = []
      · rw [hne, Text.lines_nil, tokensFrom_cons_of_ok (lineTokens_nil line)]
        rfl
      · rw [Text.lines_of_not_mem hne hs]
  | feed s rest hs ih =>
      rw [Text.lines_append_newline hs, Text.splitOn_append_newline, Text.splitOn_of_not_mem hs,
        tokensFrom_cons_congr (lineTokens_withoutReturn line s), List.singleton_append, tokensFrom,
        tokensFrom, ih]

/-- **A text is read piece by piece.** -/
theorem tokens_eq_tokensFrom_splitOn (text : String) :
    tokens text = tokensFrom 1 (text.toList.splitOn '\n') :=
  tokensFrom_lines 1 text.toList

/-- Pieces are read one after the other. -/
lemma tokensFrom_append (line : Nat) (texts more : List (List Char)) :
    tokensFrom line (texts ++ more) = (do
      let here ← tokensFrom line texts
      let below ← tokensFrom (line + texts.length) more
      return here ++ below) := by
  induction texts generalizing line with
  | nil =>
      show tokensFrom line more = tokensFrom line more >>= fun below => pure ([] ++ below)
      cases tokensFrom line more <;> rfl
  | cons s texts ih =>
      rw [List.cons_append]
      cases hs : lineTokens line s with
      | error e =>
          rw [tokensFrom_cons_of_error hs, tokensFrom_cons_of_error hs]
          rfl
      | ok first =>
          have hlength : line + 1 + texts.length = line + (s :: texts).length := by
            rw [List.length_cons]
            omega
          rw [tokensFrom_cons_of_ok hs, tokensFrom_cons_of_ok hs, ih, hlength]
          cases tokensFrom (line + 1) texts with
          | error e => rfl
          | ok here =>
              cases tokensFrom (line + (s :: texts).length) more with
              | error e => rfl
              | ok below => exact congrArg Except.ok (List.append_assoc first here below).symm

lemma numbered_add (k line : Nat) (lss : List (List Lexeme)) :
    numbered (line + k) lss = (numbered line lss).map fun t => { t with line := t.line + k } := by
  induction lss generalizing line with
  | nil => rfl
  | cons ls lss ih =>
      rw [numbered, numbered, List.map_append, List.map_map, ← ih, Nat.add_right_comm]
      rfl

/-- Further down the same tokens are read, with other lines. -/
lemma tokensFrom_add_of_ok (k : Nat) (h : tokensFrom line texts = .ok ts) :
    tokensFrom (line + k) texts = .ok (ts.map fun t => { t with line := t.line + k }) := by
  obtain ⟨lss, hlss, rfl⟩ := tokensFrom_eq_ok_iff.mp h
  exact tokensFrom_eq_ok_iff.mpr ⟨lss, hlss, (numbered_add k line lss).symm⟩

/-- Further down the same error is found, on another line. -/
lemma tokensFrom_add_of_error {n : Nat} {fragment : String} (k : Nat)
    (h : tokensFrom line texts = .error (.unreadable n fragment)) :
    tokensFrom (line + k) texts = .error (.unreadable (n + k) fragment) := by
  obtain ⟨before, s, after, rfl, hbefore, hs⟩ := tokensFrom_eq_error_iff.mp h
  refine tokensFrom_eq_error_iff.mpr ⟨before, s, after, rfl, hbefore, ?_⟩
  obtain ⟨rfl, hrest⟩ := lineTokens_eq_unreadable_iff.mp hs
  exact lineTokens_eq_unreadable_iff.mpr ⟨by omega, hrest⟩

end Source

/-! ### Reading with a line exchanged -/

namespace Text

/-- The texts before and after a line: before it comes nothing or a line end, and after it the same.
A carriage return at its end may be counted to the line or to the line end. -/
structure Encloses (pre post : List Char) : Prop where
  start : pre = [] ∨ ∃ above, pre = above ++ ['\n']
  stop : post = [] ∨ ∃ below, post = '\n' :: below ∨ post = '\r' :: '\n' :: below

/-- A text with a carriage return before each of its line feeds. -/
def withReturns (s : List Char) : List Char :=
  s.flatMap fun c => if c = '\n' then ['\r', '\n'] else [c]

/-- The pieces of what comes before a line do not depend on what follows. -/
lemma Encloses.exists_above {pre post : List Char} (h : Encloses pre post) :
    ∃ above : List (List Char), ∀ rest,
      (pre ++ rest).splitOn '\n' = above ++ rest.splitOn '\n' := by
  rcases h.start with rfl | ⟨above, rfl⟩
  · exact ⟨[], fun rest => rfl⟩
  · refine ⟨above.splitOn '\n', fun rest => ?_⟩
    rw [List.append_assoc, List.singleton_append, splitOn_append_newline]

/-- The pieces of what comes after a line do not depend on the line, and the line is a piece but for
the carriage return of its line end. -/
lemma Encloses.exists_below {pre post : List Char} (h : Encloses pre post) :
    ∃ below : List (List Char), ∃ tail : List Char, (tail = [] ∨ tail = ['\r']) ∧
      ∀ line, '\n' ∉ line → (line ++ post).splitOn '\n' = (line ++ tail) :: below := by
  rcases h.stop with rfl | ⟨below, rfl | rfl⟩
  · refine ⟨[], [], .inl rfl, fun line hline => ?_⟩
    rw [List.append_nil, splitOn_of_not_mem hline]
  · refine ⟨below.splitOn '\n', [], .inl rfl, fun line hline => ?_⟩
    rw [splitOn_append_newline, splitOn_of_not_mem hline, List.append_nil]
    rfl
  · refine ⟨below.splitOn '\n', ['\r'], .inr rfl, fun line hline => ?_⟩
    have hreturn : '\n' ∉ line ++ ['\r'] := by simp [hline]
    rw [List.append_cons, splitOn_append_newline, splitOn_of_not_mem hreturn]
    rfl

lemma withReturns_of_not_mem {s : List Char} (h : '\n' ∉ s) : withReturns s = s := by
  induction s with
  | nil => rfl
  | cons c s ih =>
      obtain ⟨hc, hs⟩ := not_or.mp (mt List.mem_cons.mpr h)
      rw [withReturns, List.flatMap_cons, if_neg (Ne.symm hc), ← withReturns, ih hs]
      rfl

lemma withReturns_append_newline {s : List Char} (h : '\n' ∉ s) (rest : List Char) :
    withReturns (s ++ '\n' :: rest) = (s ++ ['\r']) ++ '\n' :: withReturns rest := by
  rw [withReturns, List.flatMap_append, List.flatMap_cons, if_pos rfl, ← withReturns, ← withReturns,
    withReturns_of_not_mem h]
  simp

end Text

namespace Source

variable {line : Nat} {s t : List Char} {texts : List (List Char)} {ts : List Token}

/-- A text as a function of some of its lines, taken together. -/
lemma exists_tokens_lines {pre post : List Char} (h : Text.Encloses pre post) :
    ∃ above below, ∀ lines, tokens (String.ofList (pre ++ lines ++ post)) =
      tokensFrom 1 (above ++ (lines.splitOn '\n' ++ below)) := by
  obtain ⟨above, habove⟩ := h.exists_above
  obtain ⟨below, tail, htail, hbelow⟩ := h.exists_below
  have hreturn : ∀ n line, lineTokens n (line ++ tail) = lineTokens n line := by
    intro n line
    rcases htail with rfl | rfl
    · rw [List.append_nil]
    · exact lineTokens_append_return n line
  have hlines : ∀ lines n, tokensFrom n ((lines ++ post).splitOn '\n') =
      tokensFrom n (lines.splitOn '\n' ++ below) := by
    intro lines
    induction lines using Text.lineInduction with
    | last line hline =>
        intro n
        rw [hbelow line hline, Text.splitOn_of_not_mem hline]
        exact tokensFrom_cons_congr (hreturn n line)
    | feed line rest hline ih =>
        intro n
        rw [List.append_assoc, List.cons_append, Text.splitOn_append_newline,
          Text.splitOn_append_newline, List.append_assoc, tokensFrom_append, tokensFrom_append, ih]
  refine ⟨above, below, fun lines => ?_⟩
  rw [tokens_eq_tokensFrom_splitOn, String.toList_ofList, List.append_assoc, habove,
    tokensFrom_append, hlines, ← tokensFrom_append]

/-- A text as a function of one of its lines. -/
lemma exists_tokens_line {pre post : List Char} (h : Text.Encloses pre post) :
    ∃ above below, ∀ line, '\n' ∉ line →
      tokens (String.ofList (pre ++ line ++ post)) = tokensFrom 1 (above ++ line :: below) := by
  obtain ⟨above, below, htokens⟩ := exists_tokens_lines h
  refine ⟨above, below, fun line hline => ?_⟩
  rw [htokens line, Text.splitOn_of_not_mem hline, List.singleton_append]

/-- Lines that are read alike can be exchanged in a text. -/
lemma tokensFrom_congr (h : lexemes s = lexemes t) (above below : List (List Char)) :
    tokensFrom line (above ++ s :: below) = tokensFrom line (above ++ t :: below) := by
  have hlines : ∀ n, lineTokens n s = lineTokens n t := fun n => by rw [lineTokens, lineTokens, h]
  rw [tokensFrom_append, tokensFrom_append, tokensFrom_cons_congr (hlines _)]

/-- In a text that can be read every line can be cut. -/
lemma exists_cut_of_tokensFrom (h : tokensFrom line texts = .ok ts) (hs : s ∈ texts) :
    ∃ c : LineCut, c.Grammatical ∧ c.text = s := by
  obtain ⟨lss, hlss, -⟩ := tokensFrom_eq_ok_iff.mp h
  obtain ⟨cuts, hcuts, rfl, -⟩ := forall₂_lexemes_iff.mp hlss
  obtain ⟨c, hc, rfl⟩ := List.mem_map.mp hs
  exact ⟨c, hcuts c hc, rfl⟩

/-- Separators stay on their line. -/
lemma newline_not_mem_of_isRun {w : List Char} (h : IsRun IsSeparator w) : '\n' ∉ w :=
  fun hmem => absurd (h _ hmem) (by decide)

section

variable {pre post text : List Char}

/-- The line of a text that can be read has a cut. -/
lemma exists_cut_of_tokens (h : Text.Encloses pre post) (htext : '\n' ∉ text)
    (hts : tokens (String.ofList (pre ++ text ++ post)) = .ok ts) :
    ∃ c : LineCut, c.Grammatical ∧ c.text = text := by
  obtain ⟨above, below, htokens⟩ := exists_tokens_line h
  rw [htokens text htext] at hts
  exact exists_cut_of_tokensFrom hts (by simp)

/-- Separators between the parts of a line change nothing about the tokens, or about an error on
another line. -/
lemma tokens_insert {c : LineCut} {x y w : List Char} (h : Text.Encloses pre post)
    (hc : c.Grammatical) (htext : '\n' ∉ c.text) (hxy : c.Boundary x y) (hw : IsRun IsSeparator w) :
    tokens (String.ofList (pre ++ (x ++ w ++ y) ++ post)) =
      tokens (String.ofList (pre ++ c.text ++ post)) := by
  obtain ⟨above, below, htokens⟩ := exists_tokens_line h
  have hsame : lexemes (x ++ w ++ y) = lexemes c.text :=
    (hc.lexemes_insert hxy hw).trans (lexemes_eq_ok_iff_cut.mpr ⟨c, hc, rfl, rfl⟩).symm
  have hfeed : '\n' ∉ x ++ w ++ y := by
    rw [hxy.append_eq, List.mem_append, not_or] at htext
    simp [htext, newline_not_mem_of_isRun hw]
  rw [htokens _ hfeed, htokens _ htext, tokensFrom_congr hsame]

/-- A comment at the end of a line changes nothing about the tokens. -/
lemma tokens_append_comment {seps comment : List Char} (h : Text.Encloses pre post)
    (htext : '\n' ∉ text) (hs : IsRun IsSeparator seps) (hcomment : '\n' ∉ comment) :
    tokens (String.ofList (pre ++ text ++ post)) = .ok ts ↔
      tokens (String.ofList (pre ++ (text ++ (seps ++ ';' :: comment)) ++ post)) = .ok ts := by
  obtain ⟨above, below, htokens⟩ := exists_tokens_line h
  have hread := lexemes_append_ending (s := text) (.comment hs comment)
  have hfeed : '\n' ∉ text ++ (seps ++ ';' :: comment) := by
    simp [htext, hcomment, newline_not_mem_of_isRun hs]
  rw [htokens text htext, htokens _ hfeed]
  cases hls : lexemes text with
  | ok ls =>
      rw [hls] at hread
      rw [tokensFrom_congr (hread.trans hls.symm)]
  | error rest =>
      -- neither of the two lines can be cut, so neither of the two texts can be read
      rw [hls] at hread
      have hnone : ∀ {t r}, lexemes t = .error r → tokensFrom 1 (above ++ t :: below) ≠ .ok ts := by
        intro t r ht hts
        obtain ⟨c, hc, rfl⟩ := exists_cut_of_tokensFrom hts (s := t) (by simp)
        rw [lexemes_eq_ok_iff_cut.mpr ⟨c, hc, rfl, rfl⟩] at ht
        cases ht
      exact ⟨fun hts => absurd hts (hnone hls), fun hts => absurd hts (hnone hread)⟩

end

/-- With carriage returns before its line feeds a text is read as before. -/
lemma tokensFrom_withReturns (line : Nat) (s : List Char) :
    tokensFrom line ((Text.withReturns s).splitOn '\n') = tokensFrom line (s.splitOn '\n') := by
  induction s using Text.lineInduction generalizing line with
  | last s hs => rw [Text.withReturns_of_not_mem hs]
  | feed s rest hs ih =>
      have hreturn : '\n' ∉ s ++ ['\r'] := by simp [hs]
      rw [Text.withReturns_append_newline hs, Text.splitOn_append_newline,
        Text.splitOn_append_newline, Text.splitOn_of_not_mem hreturn, Text.splitOn_of_not_mem hs,
        tokensFrom_append, tokensFrom_append,
        tokensFrom_cons_congr (lineTokens_append_return line s), ih]
      rfl

end Source

open Source

/-- **Two texts with a line feed between them.** If the first cannot be read, its error is that of
both. Otherwise the tokens of the first come first, and the tokens of the second follow, moved down
by the lines of the first; or else the error of the second is found, moved down likewise. The first
text has one line more than it has line feeds, also if it is empty or ends with a line end. -/
theorem tokens_append_newline (a b : String) :
    (∀ e, tokens a = .error e → tokens (a ++ "\n" ++ b) = .error e) ∧
    (∀ ts us, tokens a = .ok ts → tokens b = .ok us → tokens (a ++ "\n" ++ b) =
      .ok (ts ++ us.map fun t => { t with line := t.line + (1 + a.toList.count '\n') })) ∧
    ∀ ts n fragment, tokens a = .ok ts → tokens b = .error (.unreadable n fragment) →
      tokens (a ++ "\n" ++ b) = .error (.unreadable (n + (1 + a.toList.count '\n')) fragment) := by
  have htext : (a ++ "\n" ++ b).toList = a.toList ++ '\n' :: b.toList := by simp
  have hboth : tokens (a ++ "\n" ++ b) = (do
      let here ← tokens a
      let below ← tokensFrom (1 + (1 + a.toList.count '\n')) (b.toList.splitOn '\n')
      return here ++ below) := by
    simp only [tokens_eq_tokensFrom_splitOn]
    rw [htext, Text.splitOn_append_newline, tokensFrom_append, Text.length_splitOn]
  refine ⟨fun e ha => ?_, fun ts us ha hb => ?_, fun ts n fragment ha hb => ?_⟩
  · rw [hboth, ha]
    rfl
  · rw [tokens_eq_tokensFrom_splitOn] at hb
    rw [hboth, ha, tokensFrom_add_of_ok _ hb]
    rfl
  · rw [tokens_eq_tokensFrom_splitOn] at hb
    rw [hboth, ha, tokensFrom_add_of_error _ hb]
    rfl

/-- **Spacing is not significant.** Let a line of a text be given by the texts before and after it.
If the text can be read, the line can be cut. Separators may be put at any place between the parts
of the line, and the same tokens are read. Separators and a comment may be put at the end of the
line: the text gives the tokens that it gave before, and none if it gave none; a line that cannot be
read is still blocked at the same place. And whether the text can be read or not, a carriage return
may be put before every line feed. -/
theorem tokens_respaced :
    (∀ pre line post : List Char, Text.Encloses pre post → '\n' ∉ line →
      (∀ ts, tokens (String.ofList (pre ++ line ++ post)) = .ok ts →
        ∃ c : LineCut, c.Grammatical ∧ c.text = line) ∧
      (∀ (c : LineCut) x y w, c.Grammatical → c.text = line → c.Boundary x y →
        IsRun IsSeparator w → tokens (String.ofList (pre ++ (x ++ w ++ y) ++ post)) =
          tokens (String.ofList (pre ++ line ++ post))) ∧
      ∀ seps comment, IsRun IsSeparator seps → '\n' ∉ comment →
        (∀ ts, tokens (String.ofList (pre ++ line ++ post)) = .ok ts ↔
          tokens (String.ofList (pre ++ (line ++ (seps ++ ';' :: comment)) ++ post)) = .ok ts) ∧
        ∀ rest, lexemes line = .error rest →
          lexemes (line ++ (seps ++ ';' :: comment)) = .error (rest ++ (seps ++ ';' :: comment))) ∧
    ∀ text : String, tokens (String.ofList (Text.withReturns text.toList)) = tokens text := by
  refine ⟨fun pre line post h hline => ⟨fun ts hts => ?_, ?_, fun seps comment hs hcomment => ?_⟩,
    fun text => ?_⟩
  · exact exists_cut_of_tokens h hline hts
  · rintro c x y w hc rfl hxy hw
    exact tokens_insert h hc hline hxy hw
  · refine ⟨fun ts => tokens_append_comment h hline hs hcomment, fun rest hrest => ?_⟩
    rw [lexemes_append_ending (.comment hs comment), hrest]
    rfl
  · rw [tokens_eq_tokensFrom_splitOn, tokens_eq_tokensFrom_splitOn, String.toList_ofList]
    exact tokensFrom_withReturns 1 text.toList

end Chip8
