/-
Writing tokens as a source text, and that reading inverts it.

A token list that was read from a text has a certain form: lines are in order, a label
or an instruction is the first token of its line, and the texts of the tokens are those
that their rules accept. This form is all that is needed: a token list that has it can be
written down line by line, and is read back with its line numbers.

* `Lexeme.Legible`, `WellFormed`: the lexemes and the token lists that can be read.
* `Source.renderLine`, `Source.render`: a line of lexemes, and a token list, as text.
* `Source.lexemes_renderLine`: a line is read back.
* `Source.numbered_lexemesOn`: sorted tokens are those of line one, of line two, and so on.
* `tokens_render_iff`: **the token lists that are read are the well-formed ones**, and
  reading inverts writing on them.
-/
import Mathlib.Tactic
import Chip8.Proofs.Lexing

namespace Chip8

open Source

/-! ### Well-formed token lists -/

namespace Lexeme

/-- Labels and instructions are the heads of their lines. -/
def isHead : Lexeme → Bool
  | label _ | instruction _ => true
  | register _ | literal _ | name _ => false

/-- The lexemes that can be read. All values of sixty-four bits are among them. -/
def Legible : Lexeme → Prop
  | label s => IsIdentifier s.toList
  | instruction s => s ≠ "" ∧ ∀ c ∈ s.toList, IsCapital c
  | register r => r.toNat ≤ 15
  | literal _ => True
  | name s => IsIdentifier s.toList ∧ ¬ BeginsLikeRegister s.toList

end Lexeme

/-- The token lists that can be read: the lines count from one and never decrease, and a
label or an instruction is the first token of its line. -/
structure WellFormed (ts : List Token) : Prop where
  legible : ∀ t ∈ ts, t.lexeme.Legible
  line_pos : ∀ t ∈ ts, 1 ≤ t.line
  sorted : ts.Pairwise fun t u => t.line ≤ u.line
  heads : ts.Pairwise fun t u => u.lexeme.isHead = true → t.line ≠ u.line

/-- A line of lexemes that can be read: none but the first is a head. -/
structure WellFormedLine (ls : List Lexeme) : Prop where
  legible : ∀ l ∈ ls, l.Legible
  heads : ls.Pairwise fun _ l => l.isHead = false

/-! ### What is read is well formed -/

namespace Source

variable {t rest : List Char} {l : Lexeme} {ls : List Lexeme} {lss : List (List Lexeme)}
  {ts : List Token}

lemma OperandAt.legible (h : OperandAt t l rest) : l.Legible ∧ l.isHead = false := by
  cases h with
  | @register d hd =>
      have hlt : Hex.digitValue d < 16 := hd.digitValue_lt
      refine ⟨?_, rfl⟩
      rw [Lexeme.Legible, BitVec.toNat_ofNat]
      omega
  | literal hne hds hstop => exact ⟨trivial, rfl⟩
  | name hid hreg hstop =>
      refine ⟨?_, rfl⟩
      rw [Lexeme.Legible, String.toList_ofList]
      exact ⟨hid, hreg⟩

lemma HeadAt.legible (h : HeadAt t l rest) : l.Legible := by
  cases h with
  | label hid =>
      rw [Lexeme.Legible, String.toList_ofList]
      exact hid
  | instruction hne hcap hstop hcolon =>
      rw [Lexeme.Legible, String.toList_ofList]
      refine ⟨fun h => hne ?_, hcap⟩
      simpa using h

/-- No operand is the head of a line. -/
lemma OperandsAt.legible (h : OperandsAt t ls) : ∀ l ∈ ls, l.Legible ∧ l.isHead = false := by
  induction h with
  | stop hs ht => exact List.forall_mem_nil _
  | next hs hl hr ih => exact List.forall_mem_cons.mpr ⟨hl.legible, ih⟩

lemma wellFormedLine_of_operands (h : ∀ l ∈ ls, l.Legible ∧ l.isHead = false) :
    WellFormedLine ls :=
  ⟨fun l hl => (h l hl).1, List.pairwise_of_forall_mem_list fun _ _ l hl => (h l hl).2⟩

/-- **What is read on one line** is a well-formed line. -/
theorem wellFormedLine_of_lexemes (h : lexemes t = .ok ls) : WellFormedLine ls := by
  rcases lexemes_eq_ok_iff.mp h with ⟨s, l, rest, ls, rfl, hl, hls, rfl⟩ | ⟨-, hls⟩
  · have hrest := wellFormedLine_of_operands hls.legible
    refine ⟨List.forall_mem_cons.mpr ⟨hl.legible, hrest.legible⟩, ?_⟩
    exact List.pairwise_cons.mpr ⟨fun l hl => (hls.legible l hl).2, hrest.heads⟩
  · exact wellFormedLine_of_operands hls.legible

lemma line_le_of_mem_numbered {k : Nat} {u : Token} (h : u ∈ numbered k lss) : k ≤ u.line := by
  induction lss generalizing k with
  | nil => cases h
  | cons ls lss ih =>
      rcases List.mem_append.mp h with hu | hu
      · obtain ⟨l, -, rfl⟩ := List.mem_map.mp hu
        exact Nat.le_refl k
      · exact Nat.le_of_succ_le (ih hu)

/-- Well-formed lines, numbered, are well-formed tokens. -/
lemma wellFormed_numbered {k : Nat} (hk : 1 ≤ k) (h : ∀ ls ∈ lss, WellFormedLine ls) :
    WellFormed (numbered k lss) := by
  induction lss generalizing k with
  | nil => exact ⟨List.forall_mem_nil _, List.forall_mem_nil _, .nil, .nil⟩
  | cons ls lss ih =>
      have hls : WellFormedLine ls := h ls (.head _)
      have hbelow : WellFormed (numbered (k + 1) lss) :=
        ih (Nat.le_succ_of_le hk) fun ls' hls' => h ls' (.tail _ hls')
      -- tokens of this line come before tokens of later ones
      have hlt : ∀ t ∈ ls.map (⟨·, k⟩ : Lexeme → Token), ∀ u ∈ numbered (k + 1) lss,
          t.line < u.line := by
        intro t ht u hu
        obtain ⟨l, -, rfl⟩ := List.mem_map.mp ht
        exact line_le_of_mem_numbered hu
      refine ⟨?_, fun t ht => hk.trans (line_le_of_mem_numbered ht), ?_, ?_⟩
      · intro t ht
        rcases List.mem_append.mp ht with ht | ht
        · obtain ⟨l, hl, rfl⟩ := List.mem_map.mp ht
          exact hls.legible l hl
        · exact hbelow.legible t ht
      · refine List.pairwise_append.mpr ⟨?_, hbelow.sorted, fun t ht u hu => (hlt t ht u hu).le⟩
        exact List.pairwise_map.mpr (hls.heads.imp fun _ => Nat.le_refl k)
      · refine List.pairwise_append.mpr
          ⟨?_, hbelow.heads, fun t ht u hu _ => (hlt t ht u hu).ne⟩
        refine List.pairwise_map.mpr (hls.heads.imp fun hl hhead => ?_)
        rw [hl] at hhead
        cases hhead

/-! ### Writing -/

/-- A line of lexemes as text: one space between two lexemes, and one before the first
if it is an operand. -/
def renderLine : List Lexeme → String
  | [] => ""
  | l :: ls => (if l.isHead then "" else " ") ++ " ".intercalate ((l :: ls).map Lexeme.spelling)

/-- The lexemes on a line. -/
def lexemesOn (ts : List Token) (line : Nat) : List Lexeme :=
  (ts.filter (·.line == line)).map Token.lexeme

/-- The number of the last line with a token. -/
def lastLine (ts : List Token) : Nat := (ts.map Token.line).foldr max 0

/-- A token list as a source text, each token on its line. -/
def render (ts : List Token) : String :=
  "\n".intercalate ((List.range' 1 (lastLine ts)).map fun k => renderLine (lexemesOn ts k))

/-! ### Reading a line back -/

/-- A text that ends here or goes on with a space. -/
abbrev EndsWord (rest : List Char) : Prop := Stops (· ≠ ' ') rest

lemma EndsWord.stops (h : EndsWord rest) {p : Char → Prop} (hp : ¬ p ' ') : Stops p rest :=
  Stops.mono h fun _ hc hspace => hp (hspace ▸ hc)

lemma toList_spelling_register (r : BitVec 8) :
    (Lexeme.register r).spelling.toList = 'V' :: Hex.digits r.toNat := by
  simp [Lexeme.spelling, Hex.numeral]

lemma toList_spelling_literal (v : BitVec 64) :
    (Lexeme.literal v).spelling.toList = '0' :: 'x' :: Hex.digits v.toNat := by
  simp [Lexeme.spelling, Hex.numeral]

/-- An operand as it is written is one. -/
lemma operandAt_spelling (hl : l.Legible) (hop : l.isHead = false) (hrest : EndsWord rest) :
    OperandAt l.spelling.toList l rest := by
  cases l with
  | label s => cases hop
  | instruction s => cases hop
  | register r =>
      have hlt : r.toNat < 16 := Nat.lt_succ_of_le hl
      have hd : IsHexDigit (Hex.digitChar r.toNat) :=
        (isHexDigit_iff _).mp (Hex.isDigit_digitChar hlt)
      have hr := OperandAt.register hd rest
      rw [Hex.digitValue_digitChar hlt, BitVec.ofNat_toNat, BitVec.setWidth_eq] at hr
      rw [toList_spelling_register, Hex.digits_of_lt hlt]
      exact hr
  | literal v =>
      have hds : ∀ d ∈ Hex.digits v.toNat, IsHexDigit d :=
        fun d hd => (isHexDigit_iff d).mp (Hex.isDigit_of_mem_digits _ d hd)
      have hv := OperandAt.literal (Hex.digits_ne_nil v.toNat) hds (hrest.stops (by decide))
      rw [Hex.value_digits, BitVec.ofNat_toNat, BitVec.setWidth_eq] at hv
      rw [toList_spelling_literal]
      exact hv
  | name s =>
      have hn := OperandAt.name hl.1 hl.2 (hrest.stops (by decide))
      rw [String.ofList_toList] at hn
      exact hn

/-- A head as it is written is one. -/
lemma headAt_spelling (hl : l.Legible) (hhead : l.isHead = true) (hrest : EndsWord rest) :
    HeadAt l.spelling.toList l rest := by
  cases l with
  | label s =>
      have hh := HeadAt.label hl rest
      rw [String.ofList_toList] at hh
      rw [Lexeme.spelling, String.toList_append]
      exact hh
  | instruction s =>
      have hne : s.toList ≠ [] := fun h => hl.1 (String.toList_eq_nil_iff.mp h)
      have hdrop : rest.dropWhile isIdentifierRest = rest :=
        ((span_eq_iff isIdentifierRest_iff).mpr
          ⟨List.nil_append rest, List.forall_mem_nil _, hrest.stops (by decide)⟩).2
      have hcolon : Stops (· = ':') (rest.dropWhile isIdentifierRest) := by
        rw [hdrop]
        exact hrest.stops (by decide)
      have hh := HeadAt.instruction hne hl.2 (hrest.stops (by decide)) hcolon
      rw [String.ofList_toList] at hh
      exact hh
  | register r => cases hhead
  | literal v => cases hhead
  | name s => cases hhead

/-- Operands as they stand in a line, each after a space. -/
def operandsText (ls : List Lexeme) : List Char := ls.flatMap fun l => ' ' :: l.spelling.toList

lemma endsWord_operandsText (ls : List Lexeme) : EndsWord (operandsText ls) := by
  cases ls with
  | nil => exact .nil _
  | cons l ls => exact stops_cons_iff.mpr (not_not_intro rfl)

lemma operandsAt_operandsText (h : ∀ l ∈ ls, l.Legible ∧ l.isHead = false) :
    OperandsAt (operandsText ls) ls := by
  induction ls with
  | nil => exact OperandsAt.stop (List.forall_mem_nil _) (.inl rfl)
  | cons l ls ih =>
      obtain ⟨⟨hl, hop⟩, hls⟩ := List.forall_mem_cons.mp h
      have hspace : ∀ c ∈ [' '], IsSeparator c := by simp [IsSeparator]
      exact .next hspace (operandAt_spelling hl hop (endsWord_operandsText ls)) (ih hls)

lemma intercalate_space (s : List Char) (ss : List (List Char)) :
    [' '].intercalate (s :: ss) = s ++ ss.flatMap (' ' :: ·) := by
  induction ss generalizing s with
  | nil => simp
  | cons u ss ih => rw [List.intercalate_cons_cons, ih, List.flatMap_cons]; simp

lemma toList_renderLine_cons (l : Lexeme) (ls : List Lexeme) :
    (renderLine (l :: ls)).toList =
      if l.isHead then l.spelling.toList ++ operandsText ls else operandsText (l :: ls) := by
  have hwords : (" ".intercalate ((l :: ls).map Lexeme.spelling)).toList =
      l.spelling.toList ++ operandsText ls := by
    calc (" ".intercalate ((l :: ls).map Lexeme.spelling)).toList
        = [' '].intercalate (l.spelling.toList :: ls.map (·.spelling.toList)) := by
          rw [String.toList_intercalate, List.map_map]
          rfl
      _ = l.spelling.toList ++ (ls.map (·.spelling.toList)).flatMap (' ' :: ·) :=
          intercalate_space _ _
      _ = l.spelling.toList ++ operandsText ls := by rw [List.flatMap_map, operandsText]
  rw [renderLine, String.toList_append, hwords]
  split_ifs <;> rfl

/-- **A well-formed line is read back.** -/
theorem lexemes_renderLine (h : WellFormedLine ls) : lexemes (renderLine ls).toList = .ok ls := by
  cases ls with
  | nil => exact lexemes_eq_ok_iff.mpr (.inr ⟨rfl, operandsAt_operandsText (List.forall_mem_nil _)⟩)
  | cons l ls =>
      obtain ⟨hl, hls⟩ := List.forall_mem_cons.mp h.legible
      have hops : ∀ m ∈ ls, m.Legible ∧ m.isHead = false :=
        fun m hm => ⟨hls m hm, List.rel_of_pairwise_cons h.heads hm⟩
      rw [toList_renderLine_cons, lexemes_eq_ok_iff]
      cases hhead : l.isHead with
      | true =>
          exact .inl ⟨_, l, _, ls, rfl, headAt_spelling hl hhead (endsWord_operandsText ls),
            operandsAt_operandsText hops, rfl⟩
      | false =>
          exact .inr ⟨rfl, operandsAt_operandsText (List.forall_mem_cons.mpr ⟨⟨hl, hhead⟩, hops⟩)⟩

/-! ### The lines of a rendered text -/

/-- The characters of lexemes. -/
lemma mem_spelling (hl : l.Legible) {c : Char} (hc : c ∈ l.spelling.toList) :
    IsIdentifierRest c ∨ c = ':' := by
  have hident : ∀ {s : List Char}, IsIdentifier s → c ∈ s → IsIdentifierRest c := by
    intro s hs hcs
    obtain ⟨d, ds, rfl, hd, hds⟩ := hs
    rcases List.mem_cons.mp hcs with rfl | hcs
    · exact hd.isIdentifierRest
    · exact hds c hcs
  have hdigits : ∀ {n : Nat}, c ∈ Hex.digits n → IsIdentifierRest c := fun hcn =>
    ((isHexDigit_iff c).mp (Hex.isDigit_of_mem_digits _ c hcn)).isIdentifierRest
  cases l with
  | label s =>
      rw [Lexeme.spelling, String.toList_append] at hc
      rcases List.mem_append.mp hc with hc | hc
      · exact .inl (hident hl hc)
      · exact .inr (List.mem_singleton.mp hc)
  | instruction s => exact .inl (hl.2 c hc).isLetter.isIdentifierRest
  | register r =>
      rw [toList_spelling_register] at hc
      rcases List.mem_cons.mp hc with rfl | hc
      · exact .inl (by decide)
      · exact .inl (hdigits hc)
  | literal v =>
      rw [toList_spelling_literal] at hc
      rcases List.mem_cons.mp hc with rfl | hc
      · exact .inl (by decide)
      · rcases List.mem_cons.mp hc with rfl | hc
        · exact .inl (by decide)
        · exact .inl (hdigits hc)
  | name s => exact .inl (hident hl.1 hc)

/-- A rendered line has no line feed and no carriage return. -/
lemma ne_of_mem_renderLine (h : WellFormedLine ls) {c : Char} (hc : c ∈ (renderLine ls).toList) :
    c ≠ '\n' ∧ c ≠ '\r' := by
  have hspell : ∀ l ∈ ls, c ∈ l.spelling.toList → c ≠ '\n' ∧ c ≠ '\r' := by
    intro l hl hcl
    rcases mem_spelling (h.legible l hl) hcl with hcl | rfl
    · refine ⟨?_, ?_⟩ <;> rintro rfl <;> revert hcl <;> decide
    · decide
  have htext : ∀ ms, (∀ l ∈ ms, l ∈ ls) → c ∈ operandsText ms → c ≠ '\n' ∧ c ≠ '\r' := by
    intro ms hms hcm
    obtain ⟨l, hl, hcl⟩ := List.mem_flatMap.mp hcm
    rcases List.mem_cons.mp hcl with rfl | hcl
    · decide
    · exact hspell l (hms l hl) hcl
  cases ls with
  | nil => cases hc
  | cons l ls =>
      rw [toList_renderLine_cons] at hc
      split_ifs at hc with hhead
      · rcases List.mem_append.mp hc with hc | hc
        · exact hspell l (.head _) hc
        · exact htext ls (fun m hm => .tail _ hm) hc
      · exact htext (l :: ls) (fun m hm => hm) hc

lemma renderLine_ne_nil (h : WellFormedLine ls) (hne : ls ≠ []) : (renderLine ls).toList ≠ [] := by
  intro hnil
  have hread := lexemes_renderLine h
  rw [hnil] at hread
  have hempty : lexemes [] = .ok [] :=
    lexemes_eq_ok_iff.mpr (.inr ⟨rfl, operandsAt_operandsText (List.forall_mem_nil _)⟩)
  rw [hempty] at hread
  exact hne (Except.ok.inj hread).symm

end Source

/-- Lines joined by line feeds are the lines of the text, if none has a line feed or
ends in a carriage return and the last is not empty. -/
lemma Text.lines_intercalate {texts : List (List Char)}
    (hchars : ∀ t ∈ texts, ∀ c ∈ t, c ≠ '\n' ∧ c ≠ '\r') (hlast : texts.getLast? ≠ some []) :
    lines (['\n'].intercalate texts) = texts := by
  induction texts with
  | nil => exact lines_nil
  | cons t texts ih =>
      obtain ⟨ht, hrest⟩ := List.forall_mem_cons.mp hchars
      have hfeed : '\n' ∉ t := fun hc => (ht _ hc).1 rfl
      cases texts with
      | nil =>
          rw [List.intercalate_singleton]
          exact lines_of_not_mem (fun h => hlast (by rw [h]; rfl)) hfeed
      | cons u texts =>
          have hreturn : withoutReturn t = t := by
            refine if_neg fun h => ?_
            exact (ht _ (List.mem_of_getLast? h)).2 rfl
          have hlast' : (u :: texts).getLast? ≠ some [] := by
            rwa [List.getLast?_cons_cons] at hlast
          rw [List.intercalate_cons_cons, List.append_assoc, List.singleton_append,
            lines_append_newline hfeed, hreturn, ih hrest hlast']

namespace Source

variable {ts : List Token}

/-! ### Tokens line by line -/

lemma line_le_lastLine {t : Token} (h : t ∈ ts) : t.line ≤ lastLine ts := by
  induction ts with
  | nil => cases h
  | cons u ts ih =>
      have hcons : lastLine (u :: ts) = max u.line (lastLine ts) := rfl
      rw [hcons]
      rcases List.mem_cons.mp h with rfl | h
      · exact Nat.le_max_left _ _
      · exact (ih h).trans (Nat.le_max_right _ _)

lemma exists_line_eq_lastLine (h : lastLine ts ≠ 0) : ∃ t ∈ ts, t.line = lastLine ts := by
  induction ts with
  | nil => exact absurd rfl h
  | cons u ts ih =>
      have hcons : lastLine (u :: ts) = max u.line (lastLine ts) := rfl
      rw [hcons] at h ⊢
      rcases Nat.le_total (lastLine ts) u.line with hle | hle
      · exact ⟨u, .head _, (Nat.max_eq_left hle).symm⟩
      · rw [Nat.max_eq_right hle] at h ⊢
        obtain ⟨t, ht, hline⟩ := ih h
        exact ⟨t, .tail _ ht, hline⟩

/-- In sorted tokens those of one line come before those of later lines. -/
lemma filter_line_append (h : ts.Pairwise fun t u => t.line ≤ u.line) (k m : Nat) :
    ts.filter (·.line == k) ++ ts.filter (fun t => k + 1 ≤ t.line && t.line < k + 1 + m) =
      ts.filter (fun t => k ≤ t.line && t.line < k + (m + 1)) := by
  induction ts with
  | nil => rfl
  | cons t ts ih =>
      obtain ⟨hle, hsorted⟩ := List.pairwise_cons.mp h
      by_cases hgt : k < t.line
      · -- the line is over, and all that is left lies beyond it
        have hbeyond : ∀ u ∈ t :: ts, k < u.line :=
          List.forall_mem_cons.mpr ⟨hgt, fun u hu => hgt.trans_le (hle u hu)⟩
        have hnone : (t :: ts).filter (·.line == k) = [] := by
          rw [List.filter_eq_nil_iff]
          intro u hu
          have hu' := hbeyond u hu
          simp only [beq_iff_eq]
          omega
        rw [hnone, List.nil_append]
        refine List.filter_congr fun u hu => ?_
        have hu' := hbeyond u hu
        rw [Bool.eq_iff_iff]
        simp only [Bool.and_eq_true, decide_eq_true_eq]
        omega
      · have hlater : (decide (k + 1 ≤ t.line) && decide (t.line < k + 1 + m)) = false := by
          rw [Bool.eq_false_iff]
          simp only [ne_eq, Bool.and_eq_true, decide_eq_true_eq]
          omega
        have hsame : (decide (k ≤ t.line) && decide (t.line < k + (m + 1))) = (t.line == k) := by
          rw [Bool.eq_iff_iff]
          simp only [Bool.and_eq_true, decide_eq_true_eq, beq_iff_eq]
          omega
        simp only [List.filter_cons, hlater, hsame, Bool.false_eq_true, if_false]
        split_ifs
        · rw [List.cons_append, ih hsorted]
        · exact ih hsorted

lemma map_lexemesOn (ts : List Token) (k : Nat) :
    (lexemesOn ts k).map (⟨·, k⟩) = ts.filter (·.line == k) := by
  rw [lexemesOn, List.map_map]
  refine (List.map_congr_left fun t ht => ?_).trans (List.map_id _)
  have hline : t.line = k := beq_iff_eq.mp (List.mem_filter.mp ht).2
  rw [Function.comp_apply, ← hline]
  rfl

/-- Sorted tokens are those of each line, one line after the other. -/
lemma numbered_map_lexemesOn (h : ts.Pairwise fun t u => t.line ≤ u.line) (k m : Nat) :
    numbered k ((List.range' k m).map (lexemesOn ts)) =
      ts.filter (fun t => k ≤ t.line && t.line < k + m) := by
  induction m generalizing k with
  | zero =>
      refine (List.filter_eq_nil_iff.mpr fun t _ => ?_).symm
      simp only [Bool.and_eq_true, decide_eq_true_eq]
      omega
  | succ m ih =>
      rw [List.range'_succ, List.map_cons, numbered, ih, map_lexemesOn, filter_line_append h]

lemma numbered_lexemesOn (h : WellFormed ts) :
    numbered 1 ((List.range' 1 (lastLine ts)).map (lexemesOn ts)) = ts := by
  rw [numbered_map_lexemesOn h.sorted, List.filter_eq_self]
  intro t ht
  have hpos := h.line_pos t ht
  have hle := line_le_lastLine ht
  simp only [Bool.and_eq_true, decide_eq_true_eq]
  omega

/-- The tokens of one line of a well-formed list form a well-formed line. -/
lemma wellFormedLine_lexemesOn (h : WellFormed ts) (k : Nat) : WellFormedLine (lexemesOn ts k) := by
  refine ⟨fun l hl => ?_, ?_⟩
  · obtain ⟨t, ht, rfl⟩ := List.mem_map.mp hl
    exact h.legible t (List.mem_filter.mp ht).1
  · refine List.pairwise_map.mpr ?_
    refine (h.heads.filter _).imp_of_mem fun {t u} ht hu hhead => ?_
    have htk : t.line = k := beq_iff_eq.mp (List.mem_filter.mp ht).2
    have huk : u.line = k := beq_iff_eq.mp (List.mem_filter.mp hu).2
    exact Bool.eq_false_iff.mpr fun hu' => hhead hu' (htk.trans huk.symm)

/-! ### Reading back -/

/-- The lines of a rendered token list are its rendered lines. -/
lemma lines_render (h : WellFormed ts) :
    Text.lines (render ts).toList =
      (List.range' 1 (lastLine ts)).map fun k => (renderLine (lexemesOn ts k)).toList := by
  rw [render, String.toList_intercalate, List.map_map]
  refine Text.lines_intercalate (fun t ht c hc => ?_) fun hlast => ?_
  · obtain ⟨k, -, rfl⟩ := List.mem_map.mp ht
    exact ne_of_mem_renderLine (wellFormedLine_lexemesOn h k) hc
  · -- the last line has a token, so its text is not empty
    cases hn : lastLine ts with
    | zero =>
        rw [hn] at hlast
        cases hlast
    | succ n =>
        rw [hn, List.range'_1_concat, List.map_append, List.map_singleton, List.getLast?_concat,
          ← Nat.add_comm n 1, ← hn] at hlast
        have hne : lastLine ts ≠ 0 := by omega
        obtain ⟨t, ht, hline⟩ := exists_line_eq_lastLine hne
        have hmem : t.lexeme ∈ lexemesOn ts (lastLine ts) :=
          List.mem_map_of_mem (List.mem_filter.mpr ⟨ht, beq_iff_eq.mpr hline⟩)
        exact renderLine_ne_nil (wellFormedLine_lexemesOn h _) (List.ne_nil_of_mem hmem)
          (Option.some.inj hlast)

/-- **A well-formed token list is read back from its text.** -/
lemma tokens_render (h : WellFormed ts) : tokens (render ts) = .ok ts := by
  rw [tokens, lines_render h, tokensFrom_eq_ok_iff]
  refine ⟨(List.range' 1 (lastLine ts)).map (lexemesOn ts), ?_, (numbered_lexemesOn h).symm⟩
  rw [List.forall₂_map_left_iff, List.forall₂_map_right_iff, List.forall₂_same]
  intro k _
  exact lexemes_renderLine (wellFormedLine_lexemesOn h k)

/-- What is read is well formed. -/
lemma wellFormed_of_tokens {text : String} (h : tokens text = .ok ts) : WellFormed ts := by
  obtain ⟨lss, hlss, rfl⟩ := tokensFrom_eq_ok_iff.mp h
  refine wellFormed_numbered (Nat.le_refl 1) fun ls hls => ?_
  obtain ⟨i, rfl⟩ := List.get_of_mem hls
  obtain ⟨hlen, hread⟩ := List.forall₂_iff_get.mp hlss
  exact wellFormedLine_of_lexemes (hread i (i.isLt.trans_eq hlen.symm) i.isLt)

end Source

/-- **Reading and writing are inverse to each other on well-formed token lists.** The
token lists that are read from some text are exactly the well-formed ones; such a list is
read from the text that it is written as; and so writing what was read and reading it
again changes nothing. -/
theorem tokens_render_iff :
    (∀ ts, (∃ text, tokens text = .ok ts) ↔ WellFormed ts) ∧
    (∀ ts, WellFormed ts → tokens (render ts) = .ok ts) ∧
    ∀ text ts, tokens text = .ok ts → tokens (render ts) = tokens text := by
  refine ⟨fun ts => ⟨fun h => ?_, fun h => ?_⟩, fun ts h => tokens_render h, fun text ts h => ?_⟩
  · obtain ⟨text, htext⟩ := h
    exact wellFormed_of_tokens htext
  · exact ⟨render ts, tokens_render h⟩
  · rw [h]
    exact tokens_render (wellFormed_of_tokens h)

example : render [⟨.label "a", 1⟩, ⟨.literal 0x2A#64, 3⟩, ⟨.name "b", 3⟩] = "a:\n\n 0x2A b" := by
  cbv

end Chip8
