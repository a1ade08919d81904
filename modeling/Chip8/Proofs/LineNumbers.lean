/-
Line numbers have no influence on the image.

A token carries the number of its line through the whole assembly, but only the log and the errors
show it. Two programs with the same lexemes are alike in the sense in which renamed programs are,
with the renaming that changes nothing; so they have the same image, or the same error on the line
where the same token stands. It follows that a line of a text may be broken between its parts: the
lexemes are the same and only the numbers change. What stands in column zero of the new line must
not begin with a letter, since it would be read as a head there.

* `Error.onLine`: an error as it is reported on another line.
* `alike_of_map_lexeme_eq`: programs with the same lexemes are alike.
* `OperandAt.of_append`, `Begins.of_append`: a head and an operand stay what they are if the line
  ends earlier.
* `Gap.operandsAt_sides`, `LineCut.Grammatical.exists_break`: the two sides of a place between the
  parts of a line are read apart.
* `Breaks`: a text with one of its lines broken.
* `Reads`, `ReadsAs`: lines and texts with the lexemes on them, without line numbers.
* `Breaks.readsAs_iff`, `readsAs_iff_of_breaks`: **one break**, and any number of them.
* `assemble_relined`: **line numbers have no influence on the image**, and operands may be spread
  over any number of lines.
-/
import Mathlib.Tactic
import Mathlib.Logic.Relation
import Chip8.Proofs.LineFeeds
import Chip8.Proofs.Referring
import Chip8.Proofs.Renaming

namespace Chip8

/-! ### Tokens on other lines -/

/-- The same error on another line. Two kinds of error are reported without one. -/
def Error.onLine (line : Nat) : Error → Error
  | unreadable _ fragment => unreadable line fragment
  | unexpectedKind expected actual _ => unexpectedKind expected actual line
  | endOfInput => endOfInput
  | unknownMnemonic name _ => unknownMnemonic name line
  | invalidOperand operand expected _ => invalidOperand operand expected line
  | imageFull capacity => imageFull capacity
  | undeclaredLabel name _ => undeclaredLabel name line
  | duplicateLabel name _ => duplicateLabel name line

/-- The renaming that keeps every name. -/
def Renaming.refl : Renaming where
  toFun := id
  injective := Function.injective_id
  special := fun _ _ => rfl

@[simp] lemma Lexeme.rename_refl (l : Lexeme) : l.rename .refl = l := by
  cases l <;> rfl

/-- Errors that are alike without a renaming differ in their lines only. -/
lemma Error.Alike.exists_onLine {lines : Nat → Nat → Prop} {e e' : Error}
    (h : e.Alike .refl lines e') (hsome : ∃ n n', lines n n') :
    ∃ n n', lines n n' ∧ e.onLine n = e ∧ e.onLine n' = e' := by
  cases h with
  | invalidOperand l expected h =>
      rw [Lexeme.rename_refl]
      exact ⟨_, _, h, rfl, rfl⟩
  | unexpectedKind _ _ h | unknownMnemonic _ h | undeclaredLabel _ h | duplicateLabel _ h =>
      exact ⟨_, _, h, rfl, rfl⟩
  | endOfInput | imageFull =>
      obtain ⟨n, n', h⟩ := hsome
      exact ⟨n, n', h, rfl, rfl⟩

/-- The lines of the tokens at the same place in two programs. -/
def SameToken (ts us : List Token) (n n' : Nat) : Prop :=
  ∃ p ∈ ts.zip us, p.1.line = n ∧ p.2.line = n'

/-- Programs with the same lexemes are alike. -/
lemma alike_of_map_lexeme_eq {ts us : List Token} (h : ts.map Token.lexeme = us.map Token.lexeme) :
    List.Forall₂ (Token.Alike .refl (SameToken ts us)) ts us := by
  have hlexemes : List.Forall₂ (fun t u : Token => t.lexeme = u.lexeme) ts us := by
    rw [← List.forall₂_map_left_iff (R := fun l (u : Token) => l = u.lexeme), h,
      List.forall₂_map_left_iff, List.forall₂_same]
    exact fun _ _ => rfl
  obtain ⟨hlength, hzip⟩ := List.forall₂_iff_zip.mp hlexemes
  refine List.forall₂_iff_zip.mpr ⟨hlength, fun {t u} hmem => ⟨?_, (t, u), hmem, rfl, rfl⟩⟩
  rw [Lexeme.rename_refl, hzip hmem]

/-- A program that fails is not empty. -/
lemma exists_sameToken {ts us : List Token} {e : Error} (hlength : ts.length = us.length)
    (he : (assemble ts).outcome = .error e) : ∃ n n', SameToken ts us n n' := by
  cases ts with
  | nil =>
      rw [assemble, Program.read_nil] at he
      cases he
  | cons t ts =>
      cases us with
      | nil => cases hlength
      | cons u us => exact ⟨t.line, u.line, (t, u), .head _, rfl, rfl⟩

/-- With the same lexemes on other lines a program has the same image, or the same error on the line
where the same token stands. -/
theorem outcome_relined {ts us : List Token} (h : ts.map Token.lexeme = us.map Token.lexeme) :
    (∀ i, (assemble ts).outcome = .ok i ↔ (assemble us).outcome = .ok i) ∧
    ∀ e, (assemble ts).outcome = .error e → ∃ p ∈ ts.zip us,
      e.onLine p.1.line = e ∧ (assemble us).outcome = .error (e.onLine p.2.line) := by
  have hlength : ts.length = us.length := by simpa using congrArg List.length h
  obtain ⟨-, houtcome⟩ := alike_assemble (alike_of_map_lexeme_eq h)
  refine ⟨fun i => houtcome.eq_ok_iff.symm, fun e he => ?_⟩
  obtain ⟨e', he', halike⟩ := houtcome.exists_error_right he
  obtain ⟨_, _, ⟨p, hp, rfl, rfl⟩, hfirst, hsecond⟩ :=
    halike.exists_onLine (exists_sameToken hlength he)
  exact ⟨p, hp, hfirst, hsecond ▸ he'⟩

namespace Source

/-! ### Lines that end earlier -/

variable {p : Char → Prop} {t x y w : List Char} {l : Lexeme}

lemma Stops.of_append (h : Stops p (x ++ y)) : Stops p x := by
  cases x with
  | nil => exact .nil p
  | cons c x => exact stops_cons_iff.mpr (stops_cons_iff.mp h)

/-- An operand is an operand if the line ends earlier. -/
lemma OperandAt.of_append (h : OperandAt t l (x ++ y)) : OperandAt t l x := by
  generalize hr : x ++ y = rest at h
  cases h with
  | register hd => exact .register hd x
  | literal hne hds hrest =>
      subst hr
      exact .literal hne hds hrest.of_append
  | name hs hreg hrest =>
      subst hr
      exact .name hs hreg hrest.of_append

lemma DeclaresLabel.append (h : DeclaresLabel x) (y : List Char) : DeclaresLabel (x ++ y) := by
  obtain ⟨s, rest, rfl, hs⟩ := h
  refine ⟨s, rest ++ y, by simp, longest_identifier_iff.mpr ?_⟩
  exact ⟨(longest_identifier_iff.mp hs).1, stops_cons_iff.mpr (by decide)⟩

/-- A head is a head if the line ends earlier. -/
lemma Begins.of_append {q : Option (List Char × Lexeme)} (h : Begins q (x ++ y)) : Begins q x := by
  generalize hr : x ++ y = rest at h
  cases h with
  | label hs =>
      refine .label (longest_identifier_iff.mpr ⟨(longest_identifier_iff.mp hs).1, ?_⟩)
      exact stops_cons_iff.mpr (by decide)
  | @instruction s _ hlabel hs =>
      subst hr
      obtain ⟨hword, hstop⟩ := longest_word_iff.mp hs
      refine .instruction (fun h => hlabel ?_) (longest_word_iff.mpr ⟨hword, hstop.of_append⟩)
      rw [← List.append_assoc]
      exact h.append y
  | without hlabel hcap =>
      subst hr
      refine .without (fun h => hlabel (h.append y)) (forall_not_isWord_iff.mpr ?_)
      exact (forall_not_isWord_iff.mp hcap).of_append

/-- A line that does not begin with a letter has no head. -/
lemma begins_none_of_stops (h : Stops IsLetter x) : Begins none x := by
  refine .without ?_ (forall_not_isWord_iff.mpr (h.mono fun _ => IsCapital.isLetter))
  rintro ⟨s, rest, rfl, hs⟩
  obtain ⟨⟨c, cs, rfl, hc, -⟩, -⟩ := longest_identifier_iff.mp hs
  exact stops_cons_iff.mp h hc

/-! ### A line broken between its parts -/

/-- The operands on the two sides of a place are read apart. -/
lemma Gap.operandsAt_sides {seps comment : List Char} {os : List Piece}
    (h : Gap seps comment os x y) (hos : Cut (seps ++ comment) os) (hend : Ends seps comment)
    (hw : IsRun IsSeparator w) :
    ∃ ls ls', os.map Piece.lexeme = ls ++ ls' ∧ OperandsAt x ls ∧ OperandsAt (w ++ y) ls' := by
  induction h with
  | @ending s₁ s₂ h =>
      have hs := (longest_run_iff.mp hend.separators).1
      rw [h] at hs
      obtain ⟨h₁, h₂⟩ := List.forall_mem_append.mp hs
      refine ⟨[], [], rfl, (IsEnding.plain h₁).operandsAt, ?_⟩
      rw [← List.append_assoc]
      exact .stop (List.forall_mem_append.mpr ⟨hw, h₂⟩) hend.comment
  | @before o os s₁ s₂ h =>
      obtain _ | ⟨hs, ho, hr⟩ := hos
      have hs := (longest_run_iff.mp hs).1
      rw [h] at hs
      obtain ⟨h₁, h₂⟩ := List.forall_mem_append.mp hs
      refine ⟨[], (o :: os).map Piece.lexeme, rfl, (IsEnding.plain h₁).operandsAt, ?_⟩
      have hbelow := operandsAt_iff_cut.mpr ⟨os, seps, comment, hr, hend, rfl, rfl⟩
      rw [← List.append_assoc]
      exact .next (List.forall_mem_append.mpr ⟨hw, h₂⟩) (isOperand_iff.mp ho) hbelow
  | @after o os x y h ih =>
      obtain _ | ⟨hs, ho, hr⟩ := hos
      obtain ⟨ls, ls', hsplit, hx, hy⟩ := ih hr
      rw [h.append_eq] at ho
      refine ⟨o.lexeme :: ls, ls', by rw [List.map_cons, hsplit, List.cons_append], ?_, hy⟩
      exact .next (longest_run_iff.mp hs).1 (isOperand_iff.mp ho).of_append hx

/-- **A line may be broken between its parts**, if what is put on the next line has no head. -/
theorem LineCut.Grammatical.exists_break {c : LineCut} (hc : c.Grammatical) (h : c.Boundary x y)
    (hw : IsRun IsSeparator w) (hstart : Stops IsLetter (w ++ y)) :
    ∃ ls ls', c.lexemes = ls ++ ls' ∧ Source.lexemes x = .ok ls ∧
      Source.lexemes (w ++ y) = .ok ls' := by
  obtain ⟨before, rfl, hgap⟩ := h
  obtain ⟨ls, ls', hsplit, hx, hy⟩ := hgap.operandsAt_sides hc.operands hc.ends hw
  have hhead := hc.head
  rw [body, ending, hgap.append_eq] at hhead
  refine ⟨(c.head.map Prod.snd).toList ++ ls, ls', ?_, ?_, ?_⟩
  · rw [LineCut.lexemes, hsplit, List.append_assoc]
  · rw [hhead.of_append.lexemes_eq, operands_eq_ok_iff.mpr hx]
    rfl
  · have hnone := (begins_none_of_stops hstart).lexemes_eq
    rw [operands_eq_ok_iff.mpr hy] at hnone
    exact hnone

/-- A text and the same one with a line broken between its parts. Separators may be put before what
goes to the next line, and must be if it begins with a letter. -/
inductive Breaks : List Char → List Char → Prop
  | intro {pre post x y w : List Char} {c : LineCut} (h : Text.Encloses pre post)
      (hc : c.Grammatical) (htext : '\n' ∉ c.text) (hxy : c.Boundary x y)
      (hw : IsRun IsSeparator w) (hstart : Stops IsLetter (w ++ y)) :
      Breaks (pre ++ c.text ++ post) (pre ++ (x ++ '\n' :: (w ++ y)) ++ post)

/-! ### Texts and their lexemes -/

/-- Lines that are read, with the lexemes of all of them. -/
inductive Reads : List (List Char) → List Lexeme → Prop
  | nil : Reads [] []
  | cons {s : List Char} {texts : List (List Char)} {ls more : List Lexeme}
      (hs : lexemes s = .ok ls) (hr : Reads texts more) : Reads (s :: texts) (ls ++ more)

/-- A text that is read, with the lexemes of its tokens. -/
def ReadsAs (text : List Char) (ls : List Lexeme) : Prop :=
  ∃ ts, tokens (String.ofList text) = .ok ts ∧ ts.map Token.lexeme = ls

variable {texts texts' above below : List (List Char)} {ls ls' : List Lexeme}

lemma map_lexeme_numbered (line : Nat) (lss : List (List Lexeme)) :
    (numbered line lss).map Token.lexeme = lss.flatten := by
  induction lss generalizing line with
  | nil => rfl
  | cons ls lss ih =>
      rw [numbered, List.map_append, ih, List.map_map, List.flatten_cons]
      exact congrArg (· ++ lss.flatten) (List.map_id ls)

lemma reads_iff_forall₂ : Reads texts ls ↔
    ∃ lss, List.Forall₂ (fun s ls => lexemes s = .ok ls) texts lss ∧ ls = lss.flatten := by
  refine ⟨fun h => ?_, ?_⟩
  · induction h with
    | nil => exact ⟨[], .nil, rfl⟩
    | cons hs _ ih =>
        obtain ⟨lss, hlss, rfl⟩ := ih
        exact ⟨_ :: lss, .cons hs hlss, rfl⟩
  · rintro ⟨lss, hlss, rfl⟩
    induction hlss with
    | nil => exact .nil
    | cons hs _ ih => exact .cons hs ih

/-- The tokens of lines have the lexemes of the lines. -/
lemma exists_tokensFrom_iff (line : Nat) :
    (∃ ts, tokensFrom line texts = .ok ts ∧ ts.map Token.lexeme = ls) ↔ Reads texts ls := by
  rw [reads_iff_forall₂]
  refine ⟨fun h => ?_, fun h => ?_⟩
  · obtain ⟨ts, hts, rfl⟩ := h
    obtain ⟨lss, hlss, rfl⟩ := tokensFrom_eq_ok_iff.mp hts
    exact ⟨lss, hlss, map_lexeme_numbered line lss⟩
  · obtain ⟨lss, hlss, rfl⟩ := h
    exact ⟨_, tokensFrom_eq_ok_iff.mpr ⟨lss, hlss, rfl⟩, map_lexeme_numbered line lss⟩

lemma reads_append_iff : Reads (texts ++ below) ls ↔
    ∃ here more, Reads texts here ∧ Reads below more ∧ ls = here ++ more := by
  induction texts generalizing ls with
  | nil =>
      refine ⟨fun h => ⟨[], ls, .nil, h, rfl⟩, ?_⟩
      rintro ⟨_, more, ⟨⟩, h, rfl⟩
      exact h
  | cons s texts ih =>
      refine ⟨fun h => ?_, fun h => ?_⟩
      · obtain _ | ⟨hs, hr⟩ := h
        obtain ⟨here, more, htexts, hbelow, rfl⟩ := ih.mp hr
        exact ⟨_, more, .cons hs htexts, hbelow, (List.append_assoc _ _ _).symm⟩
      · obtain ⟨_, more, hhere, hbelow, rfl⟩ := h
        obtain _ | ⟨hs, hr⟩ := hhere
        rw [List.append_assoc]
        exact .cons hs (ih.mpr ⟨_, more, hr, hbelow, rfl⟩)

lemma reads_singleton_iff {s : List Char} : Reads [s] ls ↔ lexemes s = .ok ls := by
  refine ⟨fun h => ?_, fun h => ?_⟩
  · obtain _ | ⟨hs, _ | _⟩ := h
    rw [hs, List.append_nil]
  · rw [← List.append_nil ls]
    exact .cons h .nil

/-- One line is read as two are. -/
lemma reads_break {s : List Char} (hs : lexemes s = .ok (ls ++ ls')) (hx : lexemes x = .ok ls)
    (hy : lexemes y = .ok ls') (more : List Lexeme) : Reads [s] more ↔ Reads [x, y] more := by
  have htwo : Reads [x, y] more ↔ more = ls ++ ls' := by
    refine ⟨fun h => ?_, fun h => ?_⟩
    · obtain _ | ⟨h₁, _ | ⟨h₂, _ | _⟩⟩ := h
      rw [hx] at h₁
      rw [hy] at h₂
      cases h₁
      cases h₂
      rw [List.append_nil]
    · rw [h]
      exact .cons hx (reads_singleton_iff.mpr hy)
  rw [htwo, reads_singleton_iff, hs, Except.ok.injEq, eq_comm]

/-- Lines that are read alike can be exchanged for one another. -/
lemma reads_congr (h : ∀ ls, Reads texts ls ↔ Reads texts' ls) :
    Reads (above ++ (texts ++ below)) ls ↔ Reads (above ++ (texts' ++ below)) ls := by
  simp only [reads_append_iff, h]

/-- **One break** leaves the lexemes of a text as they are. -/
theorem Breaks.readsAs_iff {text text' : List Char} (h : Breaks text text') :
    ReadsAs text ls ↔ ReadsAs text' ls := by
  obtain ⟨h, hc, htext, hxy, hw, hstart⟩ := h
  obtain ⟨above, below, htokens⟩ := exists_tokens_lines h
  obtain ⟨here, there, hsplit, hx, hy⟩ := hc.exists_break hxy hw hstart
  have hline := lexemes_eq_ok_iff_cut.mpr ⟨_, hc, rfl, hsplit⟩
  obtain ⟨hfirst, hsecond⟩ := not_or.mp (mt List.mem_append.mpr (hxy.append_eq ▸ htext))
  have hsecond : '\n' ∉ _ ++ _ := mt List.mem_append.mp
    (not_or.mpr ⟨newline_not_mem_of_isRun hw, hsecond⟩)
  rw [ReadsAs, ReadsAs, htokens, htokens, exists_tokensFrom_iff, exists_tokensFrom_iff,
    Text.splitOn_of_not_mem htext, Text.splitOn_append_newline, Text.splitOn_of_not_mem hfirst,
    Text.splitOn_of_not_mem hsecond]
  exact reads_congr (reads_break hline hx hy)

/-- **Any number of breaks** leave the lexemes of a text as they are. -/
theorem readsAs_iff_of_breaks {text text' : List Char}
    (h : Relation.ReflTransGen Breaks text text') : ReadsAs text ls ↔ ReadsAs text' ls := by
  induction h with
  | refl => rfl
  | tail _ hlast ih => exact ih.trans hlast.readsAs_iff

/-- The image of a text depends on the lexemes only. -/
lemma assemble_eq_ok_iff_readsAs {text : List Char} {i : Image} :
    (Source.assemble (String.ofList text)).outcome = .ok i ↔
      ∃ ls, ReadsAs text ls ∧
        ∀ us : List Token, us.map Token.lexeme = ls → (Chip8.assemble us).outcome = .ok i := by
  rw [Source.assemble_eq_ok_iff]
  refine ⟨fun h => ?_, fun h => ?_⟩
  · obtain ⟨ts, hts, hi⟩ := h
    exact ⟨_, ⟨ts, hts, rfl⟩, fun us hus => ((outcome_relined hus).1 i).mpr hi⟩
  · obtain ⟨_, ⟨ts, hts, rfl⟩, hi⟩ := h
    exact ⟨ts, hts, hi ts rfl⟩

end Source

open Source

/-- **Line numbers have no influence on the image.** If the tokens of two programs have the same
lexemes, on whatever lines, one of the programs is assembled if and only if the other is, to the
same image; and if one fails the other does, with the same error but for the line, the lines being
those of one token. So the operands of an instruction may be spread over any number of lines: where
lines of a text are broken between their parts, the lexemes are as before and so is the image. -/
theorem assemble_relined :
    (∀ ts us : List Token, ts.map Token.lexeme = us.map Token.lexeme →
      (∀ i, (assemble ts).outcome = .ok i ↔ (assemble us).outcome = .ok i) ∧
      ∀ e, (assemble ts).outcome = .error e → ∃ p ∈ ts.zip us,
        e.onLine p.1.line = e ∧ (assemble us).outcome = .error (e.onLine p.2.line)) ∧
    ∀ text text' : List Char, Relation.ReflTransGen Breaks text text' →
      (∀ ls, ReadsAs text ls ↔ ReadsAs text' ls) ∧
      ∀ i, (Source.assemble (String.ofList text)).outcome = .ok i ↔
        (Source.assemble (String.ofList text')).outcome = .ok i := by
  refine ⟨fun ts us h => outcome_relined h, fun text text' h => ?_⟩
  have hreads : ∀ ls, ReadsAs text ls ↔ ReadsAs text' ls := fun ls => readsAs_iff_of_breaks h
  refine ⟨hreads, fun i => ?_⟩
  simp only [assemble_eq_ok_iff_readsAs, hreads]

/-- The operand of an instruction on the next line. -/
theorem assemble_relined_skp :
    Breaks ['S', 'K', 'P', ' ', 'V', '1'] ['S', 'K', 'P', '\n', ' ', 'V', '1'] ∧
      ∀ i, (Source.assemble "SKP V1").outcome = .ok i ↔
        (Source.assemble "SKP\n V1").outcome = .ok i := by
  have hspace : ∀ c ∈ [' '], IsSeparator c := List.forall_mem_singleton.mpr (by decide)
  have hhead : Begins (some (['S', 'K', 'P'], .instruction "SKP")) [' ', 'V', '1'] :=
    begins_some_iff.mpr (.instruction (by decide) (by simp [IsCapital])
      (stops_cons_iff.mpr (by decide)) (stops_cons_iff.mpr (by decide)))
  let register : Piece := ⟨[' '], ['V', '1'], .register (BitVec.ofNat 8 (numeralValue ['1']))⟩
  have hoperands : Cut [] [register] :=
    .cons (longest_run_iff.mpr ⟨hspace, stops_cons_iff.mpr (by decide)⟩)
      (.register (by decide) []) .nil
  let c : LineCut := ⟨some (['S', 'K', 'P'], .instruction "SKP"), [register], [], []⟩
  have hc : c.Grammatical :=
    ⟨hhead, hoperands, .of_separators (List.forall_mem_nil _) (.inl rfl)⟩
  have hgap : Gap [] [] [register] [] ([' '] ++ (['V', '1'] ++ [])) := .before rfl
  have hbreaks : Breaks ([] ++ c.text ++ [])
      ([] ++ (['S', 'K', 'P'] ++ '\n' :: ([] ++ [' ', 'V', '1'])) ++ []) :=
    .intro ⟨.inl rfl, .inl rfl⟩ hc (by decide) ⟨[], rfl, hgap⟩ (List.forall_mem_nil _)
      (stops_cons_iff.mpr (by decide))
  exact ⟨hbreaks, (assemble_relined.2 _ _ (.single hbreaks)).2⟩

-- one operand on each line, and a blank line among them
example : (tokens "DRW\n V1,\n\n V2 ; sprite\n0x5").map (List.map Token.lexeme) =
    (tokens "DRW V1, V2, 0x5").map (List.map Token.lexeme) := by
  cbv

end Chip8
