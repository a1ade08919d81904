/-
What can be read from a listing.

A listing is a grid of cells: spaces fill the columns up and stand between them, and a line feed
ends each row. How wide a column is depends on all rows. Yet the cells can be read back from the
text alone, row by row and at the runs of spaces, as long as no cell is empty or has a space or a
line feed in it. The cells of a token are of this kind if it has been read from a text, and they say
all that there is to a token: its line, its kind and its spelling.

* `Grid.words`, `Grid.cells`: a row split at its runs of spaces, and all rows of a text.
* `Grid.IsCell`: the cells that can be read back.
* `Grid.words_row`, `Grid.cells_render`: **a grid is read back** from its text.
* `Listing.tokenRow_injective`: the cells of a token determine it.
* `Listing.isCell_of_mem_tokenRow`: the cells of a token that has been read can be read back.
* `token_listing_determines`: **the listing of tokens determines them**.
-/
import Mathlib.Tactic
import Chip8.Proofs.Rendering
import Chip8.Proofs.Runs

namespace Chip8

/-! ### Cells of a text -/

/-- What stands before line feeds is between them. -/
lemma Text.splitOn_flatMap_newline {rows : List (List Char)} (h : ∀ r ∈ rows, '\n' ∉ r) :
    (rows.flatMap (· ++ ['\n'])).splitOn '\n' = rows ++ [[]] := by
  induction rows with
  | nil => rfl
  | cons r rows ih =>
      obtain ⟨hr, hrows⟩ := List.forall_mem_cons.mp h
      rw [List.flatMap_cons, List.append_assoc, List.singleton_append,
        List.splitOn_append_cons_self, List.splitOn_eq_singleton hr, ih hrows]
      rfl

namespace Grid

/-- What stands between the runs of spaces of a row. -/
def words (s : List Char) : List (List Char) := (s.splitOn ' ').filter (· ≠ [])

/-- The rows of a text, each split at its runs of spaces. Behind the last line feed stands
nothing. -/
def cells (text : String) : List (List String) :=
  (text.toList.splitOn '\n').dropLast.map fun r => (words r).map String.ofList

/-- A cell that can be told from what is around it. -/
structure IsCell (c : String) : Prop where
  ne_nil : c.toList ≠ []
  space : ' ' ∉ c.toList
  feed : '\n' ∉ c.toList

variable {c : String} {cs : List String} {rows : List (List String)}

/-- A space ends a word. All about words follows from this. -/
lemma words_append_space (x y : List Char) : words (x ++ ' ' :: y) = words x ++ words y := by
  rw [words, List.splitOn_append_cons_self, List.filter_append]
  rfl

lemma words_nil : words [] = [] := rfl

lemma words_spaces (n : Nat) : words (List.replicate n ' ') = [] := by
  induction n with
  | zero => rfl
  | succ n ih => rw [List.replicate_succ, ← List.nil_append (' ' :: _), words_append_space, ih,
      words_nil, List.append_nil]

/-- Spaces behind a text add no words to it. -/
lemma words_append_spaces (s : List Char) (n : Nat) :
    words (s ++ List.replicate n ' ') = words s := by
  cases n with
  | zero => rw [List.replicate_zero, List.append_nil]
  | succ n => rw [List.replicate_succ, words_append_space, words_spaces, List.append_nil]

lemma IsCell.words_eq (h : IsCell c) : words c.toList = [c.toList] := by
  rw [words, List.splitOn_eq_singleton h.space]
  simp [h.ne_nil]

/-! ### Cells of a grid -/

lemma toList_pad (w : Nat) (c : String) :
    (pad w c).toList = c.toList ++ List.replicate (w - c.length) ' ' := by
  rw [pad, String.toList_append, String.toList_ofList]

/-- A row of more than one cell: the first one, spaces, and the row of the others. -/
lemma exists_toList_row (widths : List Nat) (c : String) (hcs : cs ≠ []) :
    ∃ n rest, (row widths (c :: cs)).toList =
      c.toList ++ List.replicate n ' ' ++ ' ' :: (row rest cs).toList := by
  obtain ⟨d, ds, rfl⟩ := List.exists_cons_of_ne_nil hcs
  cases widths with
  | nil => exact ⟨0, [], by simp [row]⟩
  | cons w ws => exact ⟨w - c.length, ws, by simp [row, toList_pad]⟩

/-- **The cells of a row** are its words, whatever the widths of the columns. -/
theorem words_row (widths : List Nat) (h : ∀ c ∈ cs, IsCell c) :
    words (row widths cs).toList = cs.map String.toList := by
  induction cs generalizing widths with
  | nil => rfl
  | cons c cs ih =>
      obtain ⟨hc, hcs⟩ := List.forall_mem_cons.mp h
      by_cases hne : cs = []
      · rw [hne, row]
        exact hc.words_eq
      · obtain ⟨n, rest, hrow⟩ := exists_toList_row widths c hne
        rw [hrow, words_append_space, words_append_spaces, hc.words_eq, ih rest hcs]
        rfl

lemma feed_not_mem_row (widths : List Nat) (h : ∀ c ∈ cs, IsCell c) :
    '\n' ∉ (row widths cs).toList := by
  induction cs generalizing widths with
  | nil => exact List.not_mem_nil
  | cons c cs ih =>
      obtain ⟨hc, hcs⟩ := List.forall_mem_cons.mp h
      by_cases hne : cs = []
      · rw [hne, row]
        exact hc.feed
      · obtain ⟨n, rest, hrow⟩ := exists_toList_row widths c hne
        rw [hrow]
        simp [hc.feed, ih rest hcs]

lemma exists_toList_render (columns : Nat) (rows : List (List String)) :
    ∃ widths, (render columns rows).toList =
      (rows.map fun r => (row widths r).toList).flatMap (· ++ ['\n']) := by
  refine ⟨(List.range columns).map (width rows), ?_⟩
  simp only [render, String.toList_join, List.flatMap_map, String.toList_append]
  rfl

/-- **A grid is read back** from its text. -/
theorem cells_render (columns : Nat) (h : ∀ r ∈ rows, ∀ c ∈ r, IsCell c) :
    cells (render columns rows) = rows := by
  obtain ⟨widths, hrender⟩ := exists_toList_render columns rows
  have hfeed : ∀ r ∈ rows.map fun r => (row widths r).toList, '\n' ∉ r := by
    intro r hr
    obtain ⟨cs, hcs, rfl⟩ := List.mem_map.mp hr
    exact feed_not_mem_row widths (h cs hcs)
  rw [cells, hrender, Text.splitOn_flatMap_newline hfeed, List.dropLast_concat, List.map_map]
  refine (List.map_congr_left fun cs hcs => ?_).trans (List.map_id rows)
  show (words (row widths cs).toList).map String.ofList = cs
  rw [words_row widths (h cs hcs), List.map_map]
  exact (List.map_congr_left fun c _ => String.ofList_toList).trans (List.map_id cs)

end Grid

/-! ### The cells of a token -/

/-- The digits of a number of fixed width determine it. -/
lemma Hex.digits_toNat_injective (w : Nat) :
    Function.Injective fun v : BitVec w => digits v.toNat := by
  intro u v h
  have hvalue := congrArg (value w) h
  simpa only [value_digits, BitVec.ofNat_toNat, BitVec.setWidth_eq] using hvalue

/-- A lexeme is determined by its kind and its spelling. -/
lemma Lexeme.eq_of_spelling_eq {l l' : Lexeme} (hkind : l.kind = l'.kind)
    (hspelling : l.spelling = l'.spelling) : l = l' := by
  cases l with
  | label s =>
      cases l' <;> cases hkind
      have hname := congrArg String.toList hspelling
      simp only [spelling, String.toList_append] at hname
      rw [String.toList_injective (List.append_cancel_right hname)]
  | instruction s | name s =>
      cases l' <;> cases hkind
      exact congrArg _ hspelling
  | register r =>
      cases l' <;> cases hkind
      have hdigits := congrArg String.toList hspelling
      rw [Source.toList_spelling_register, Source.toList_spelling_register] at hdigits
      rw [Hex.digits_toNat_injective 8 (List.cons.inj hdigits).2]
  | literal v =>
      cases l' <;> cases hkind
      have hdigits := congrArg String.toList hspelling
      rw [Source.toList_spelling_literal, Source.toList_spelling_literal] at hdigits
      rw [Hex.digits_toNat_injective 64 (List.cons.inj (List.cons.inj hdigits).2).2]

lemma Kind.word_injective : Function.Injective word := by
  intro k k' h
  cases k <;> cases k' <;> first | rfl | simp [word] at h

namespace Listing

/-- **The cells of a token** determine it. -/
theorem tokenRow_injective : Function.Injective tokenRow := by
  rintro ⟨l, m⟩ ⟨l', n⟩ h
  simp only [tokenRow, List.cons.injEq, and_true, String.append_left_inj] at h
  obtain ⟨hline, hkind, hspelling⟩ := h
  have hdigits : Nat.toDigits 10 m = Nat.toDigits 10 n := by
    rw [← Nat.toList_repr, ← Nat.toList_repr, hline]
  have hlexeme : l = l' := Lexeme.eq_of_spelling_eq (Kind.word_injective hkind) hspelling
  have hnumber := congrArg (Nat.ofDigitChars 10 · 0) hdigits
  simp only [Nat.ofDigitChars_ten_toDigits] at hnumber
  rw [hlexeme, hnumber]

/-- A number in decimal digits, with a colon behind it. -/
lemma isCell_line (n : Nat) : Grid.IsCell (n.repr ++ ":") := by
  have hdigits : ∀ c, c.isDigit = false → c ≠ ':' → c ∉ (n.repr ++ ":").toList := by
    intro c hc hcolon hmem
    rw [String.toList_append, Nat.toList_repr, List.mem_append] at hmem
    rcases hmem with hmem | hmem
    · rw [Nat.isDigit_of_mem_toDigits (by decide) (by decide) hmem] at hc
      cases hc
    · exact hcolon (List.mem_singleton.mp hmem)
  exact ⟨by simp, hdigits ' ' (by decide) (by decide), hdigits '\n' (by decide) (by decide)⟩

lemma isCell_word (k : Kind) : Grid.IsCell k.word := by
  cases k <;> exact ⟨by decide, by decide, by decide⟩

/-- No lexeme that has been read is written with a space or a line feed. -/
lemma isCell_spelling {l : Lexeme} (h : l.Legible) : Grid.IsCell l.spelling := by
  have hchars : ∀ c, ¬ (Source.IsIdentifierRest c ∨ c = ':') → c ∉ l.spelling.toList :=
    fun c hc hmem => hc (Source.mem_spelling h hmem)
  refine ⟨?_, hchars ' ' (by decide), hchars '\n' (by decide)⟩
  cases l with
  | label s => simp [Lexeme.spelling]
  | instruction s => exact fun hnil => h.1 (String.toList_eq_nil_iff.mp hnil)
  | register r =>
      rw [Source.toList_spelling_register]
      exact List.cons_ne_nil _ _
  | literal v =>
      rw [Source.toList_spelling_literal]
      exact List.cons_ne_nil _ _
  | name s =>
      obtain ⟨c, cs, hs, -⟩ := h.1
      rw [Lexeme.spelling, hs]
      exact List.cons_ne_nil c cs

/-- The cells of a token that has been read can be read back. -/
lemma isCell_of_mem_tokenRow {t : Token} (h : t.lexeme.Legible) :
    ∀ c ∈ tokenRow t, Grid.IsCell c := by
  simp only [tokenRow, List.forall_mem_cons]
  exact ⟨isCell_line t.line, isCell_word t.kind, isCell_spelling h, List.forall_mem_nil _⟩

/-- **A listing is read back** as the cells of the tokens. -/
theorem cells_tokens {ts : List Token} (h : ∀ t ∈ ts, t.lexeme.Legible) :
    Grid.cells (Listing.tokens ts) = ts.map tokenRow := by
  refine Grid.cells_render 3 fun r hr => ?_
  obtain ⟨t, ht, rfl⟩ := List.mem_map.mp hr
  exact isCell_of_mem_tokenRow (h t ht)

end Listing

open Source

/-- **The listing of tokens determines them.** Two texts that can be read have the same listing if
and only if their tokens are the same, with their lines, kinds and values. The rows of a listing,
split at the runs of spaces, are the cells of the tokens, in order. If the tokens are asked for,
this listing is what is printed, at every level; before it stand log records, if the log is kept in
detail, and else nothing. -/
theorem token_listing_determines :
    (∀ (a b : String) (ts us : List Token), tokens a = .ok ts → tokens b = .ok us →
      (Listing.tokens ts = Listing.tokens us ↔ ts = us)) ∧
    ∀ (a : String) (ts : List Token), tokens a = .ok ts →
      Grid.cells (Listing.tokens ts) =
        ts.map (fun t => [t.line.repr ++ ":", t.kind.word, t.spelling]) ∧
      ∀ o : Options, o.tokensOnly = true → (Command.prepare o (.ok a)).records =
          [.started o, .assembler (.lexed ts.length), .printed (Listing.tokens ts)] ∧
        ∀ d : Disk, d.readText o.input = .ok a →
          (∀ level time, ∃ log, Command.transcript level time (Command.run o d).events =
            log ++ (Listing.tokens ts ++ "\n") ∧ (level ≠ .debug → log = "")) ∧
          ∀ args, Arguments.parse args = .ok (.run o) → (Command.respond args d).stdout =
            Command.transcript o.level "" (Command.run o d).events := by
  have hcells : ∀ {a ts}, tokens a = .ok ts →
      Grid.cells (Listing.tokens ts) = ts.map Listing.tokenRow :=
    fun h => Listing.cells_tokens (wellFormed_of_tokens h).legible
  refine ⟨fun a b ts us ha hb => ⟨fun h => ?_, fun h => h ▸ rfl⟩, fun a ts ha => ⟨hcells ha, ?_⟩⟩
  · refine Listing.tokenRow_injective.list_map ?_
    rw [← hcells ha, h, hcells hb]
  · intro o ho
    refine ⟨?_, fun d hd => ⟨fun level time => ?_, fun args hargs => ?_⟩⟩
    · rw [Command.prepare_of_tokens ha, Command.afterTokens_of_tokensOnly ho]
    · have hends : Command.Ends o (d.readText o.input) (Command.savedOn d) _ 0 none :=
        .listed hd ha ho
      have hlog : level ≠ .debug → ∀ e ∈ [.started o, .assembler (.lexed ts.length)],
          Event.shown level e = false := by
        intro hlevel
        have hdebug : level.shows .debug = false := by
          cases level <;> first | rfl | exact absurd rfl hlevel
        simp only [List.forall_mem_cons]
        exact ⟨hdebug, hdebug, List.forall_mem_nil _⟩
      refine ⟨Command.transcript level time [.started o, .assembler (.lexed ts.length)], ?_,
        fun hlevel => Command.transcript_of_not_shown (hlog hlevel) time⟩
      rw [hends.run_eq, ← Command.transcript_printed level time, ← Command.transcript_append]
      rfl
    · rw [Command.respond_of_parse hargs]

-- columns are as wide as their widest cells, and the last one is not filled up
example : Listing.tokens [⟨.instruction "CLS", 9⟩, ⟨.name "a", 10⟩] =
    "9:  instruction CLS\n10: name        a\n" := by
  rfl

end Chip8
