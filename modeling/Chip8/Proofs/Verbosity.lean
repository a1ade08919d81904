/-
Verbosity: what the number of `-v` changes about a run, and what it does not.

A run with one verbosity is compared with a run with another that is the same in all else. The
two have the same ending, so they differ in the record of the options only, which tells the
level. That record is a detail: no level shows it but the last, and there it reads the same.

* `Level.MoreVerbose`: the order of the levels.
* `Printed`: what a reader of the output sees, a log record with its level, origin and text or a
  listing. The output is made of its items (`Command.transcript_eq_join`).
* `Event.PrintedAs`, `Event.printedAs_view`: the item for every event.
* `Command.Ends.withVerbosity`: the ending of a run is the same for every verbosity.
* `map_view_filter`: a less detailed log is a part of the most detailed one.
* `Command.run_verbosity`: **verbosity filters the log** and changes nothing else.
-/
import Mathlib.Tactic
import Chip8.Proofs.Runs

namespace Chip8

/-! ### Levels -/

namespace Level

/-- The levels, from the least verbose to the most. -/
def byVerbosity : List Level := [.error, .warn, .info, .debug]

/-- A level is more verbose than another if it stands behind it. -/
def MoreVerbose (r l : Level) : Prop := List.Sublist [l, r] byVerbosity

instance (r l : Level) : Decidable (r.MoreVerbose l) :=
  inferInstanceAs (Decidable (List.Sublist [l, r] byVerbosity))

/-- A log shows the records that are not more verbose than it is. -/
lemma shows_eq (l r : Level) : l.shows r = !decide (r.MoreVerbose l) := by
  cases l <;> cases r <;> rfl

end Level

/-- From three on the log is the most verbose one. -/
lemma Options.level_of_le (o : Options) (h : 3 ≤ o.verbosity) : o.level = .debug := by
  obtain ⟨n, hn⟩ := Nat.exists_eq_add_of_le' h
  rw [level, hn]
  rfl

/-! ### The items of an output -/

/-- A printed item: a listing, or a record of the log. -/
inductive Printed where
  | listing (text : String)
  | record (level : Level) (origin message : String)
  deriving DecidableEq, Repr

namespace Printed

/-- A log kept at some level has the records that are not more verbose, and every listing. -/
def shown (l : Level) : Printed → Bool
  | listing _ => true
  | record r _ _ => !decide (r.MoreVerbose l)

/-- The printed form, with the mark of the time before a record. -/
def render (time : String) : Printed → String
  | listing text => text ++ "\n"
  | record l origin message => time ++ "[" ++ origin ++ "][" ++ l.name ++ "] " ++ message ++ "\n"

end Printed

namespace Event

/-- What is seen of an event that is shown. -/
def view (e : Event) : Printed :=
  match e.level? with
  | some l => .record l e.origin e.message
  | none => .listing e.message

lemma shown_view (l : Level) (e : Event) : e.view.shown l = e.shown l := by
  rw [view, shown]
  cases e.level? with
  | none => rfl
  | some r => exact (Level.shows_eq l r).symm

lemma render_view (time : String) (e : Event) : e.view.render time = e.render time := by
  rw [view, render]
  cases e.level? <;> rfl

/-- The most detailed log shows every event. -/
lemma shown_debug (e : Event) : e.shown .debug = true := by
  rw [shown]
  cases e.level? with
  | none => rfl
  | some r => cases r <;> rfl

/-- What is printed of an event. The options are printed by the most verbose log only. -/
inductive PrintedAs : Event → Printed → Prop
  | started {o : Options} (h : 3 ≤ o.verbosity) :
      PrintedAs (.started o) (.record .debug "chip8asm"
        ("Arguments:\n\tVerbosity: DEBUG\n\tTokens Only: " ++
          (if o.tokensOnly then "true" else "false") ++ "\n\tOutfile: " ++
          o.output.getD "None" ++ "\n\tInfile: " ++ o.input))
  | lexed {tokens : Nat} {text : String} (h : (Record.lexed tokens).Says text) :
      PrintedAs (.assembler (.lexed tokens)) (.record .debug "chip8asm::assembler::lexer" text)
  | declared {name text : String} {address : Word} (h : (Record.declared name address).Says text) :
      PrintedAs (.assembler (.declared name address))
        (.record .debug "chip8asm::assembler::labels" text)
  | encoded {line : Nat} {m : Mnemonic} {w : Word} {text : String}
      (h : (Record.encoded line m w).Says text) :
      PrintedAs (.assembler (.encoded line m w))
        (.record .debug "chip8asm::assembler::compiler" text)
  | assembled {bytes : Nat} {text : String} (h : (Record.assembled bytes).Says text) :
      PrintedAs (.assembler (.assembled bytes))
        (.record .info "chip8asm::assembler::compiler" text)
  | printed (text : String) : PrintedAs (.printed text) (.listing text)
  | wrote (bytes : Nat) (path : String) :
      PrintedAs (.wrote bytes path) (.record .info "chip8asm"
        ("wrote " ++ bytes.repr ++ " byte(s) to `" ++ path ++ "`"))
  | failed (f : Failure) : PrintedAs (.failed f) (.record .error "chip8asm" f.message)

/-- The options are described with the level of the log. -/
lemma describe_of_le {o : Options} (h : 3 ≤ o.verbosity) :
    describe o = "Arguments:\n\tVerbosity: DEBUG\n\tTokens Only: " ++
      (if o.tokensOnly then "true" else "false") ++ "\n\tOutfile: " ++
      o.output.getD "None" ++ "\n\tInfile: " ++ o.input := by
  have hlevel : "Arguments:\n\tVerbosity: " ++ o.level.name ++ "\n\tTokens Only: " =
      "Arguments:\n\tVerbosity: DEBUG\n\tTokens Only: " := by
    rw [o.level_of_le h]
    decide +kernel
  rw [← hlevel]
  rfl

/-- An event is seen as it is to be printed. -/
lemma printedAs_view {e : Event} (h : ∀ o, e = .started o → 3 ≤ o.verbosity) :
    PrintedAs e e.view := by
  cases e with
  | started o =>
      have hv : 3 ≤ o.verbosity := h o rfl
      have hview : view (.started o) = .record .debug "chip8asm" (describe o) := rfl
      rw [hview, describe_of_le hv]
      exact .started hv
  | assembler r =>
      cases r with
      | lexed tokens => exact .lexed (Record.says_message _)
      | declared name address => exact .declared (Record.says_message _)
      | encoded line m w => exact .encoded (Record.says_message _)
      | assembled bytes => exact .assembled (Record.says_message _)
  | printed text => exact .printed text
  | wrote bytes path => exact .wrote bytes path
  | failed f => exact .failed f

/-- The options of a run are shown by the most detailed log only. -/
lemma shown_started (l : Level) (o : Options) : shown l (.started o) = true ↔ l = .debug := by
  cases l <;> simp [shown, level?, Level.shows, Level.rank]

end Event

/-- **A less detailed log is a part of the most detailed one**, the part that its level admits. -/
lemma map_view_filter (l : Level) (es : List Event) :
    (es.filter (Event.shown l)).map Event.view =
      ((es.filter (Event.shown .debug)).map Event.view).filter (Printed.shown l) := by
  have hall : es.filter (Event.shown .debug) = es :=
    List.filter_eq_self.mpr fun e _ => Event.shown_debug e
  rw [hall, List.filter_map]
  refine congrArg (List.map Event.view) (List.filter_congr fun e _ => ?_)
  exact (Event.shown_view l e).symm

/-! ### Runs that differ in verbosity -/

/-- The options are described by the level, not by the verbosity. -/
lemma Event.describe_withVerbosity {o : Options} {v w : Nat}
    (h : (o.withVerbosity v).level = (o.withVerbosity w).level) :
    describe (o.withVerbosity v) = describe (o.withVerbosity w) := by
  unfold describe
  rw [h]
  rfl

namespace Command

/-- What a run prints, item by item. -/
def displayed (o : Options) (d : Disk) : List Printed :=
  ((run o d).events.filter (Event.shown o.level)).map Event.view

/-- The text of an output is that of its items. -/
lemma transcript_eq_join (l : Level) (time : String) (es : List Event) :
    transcript l time es =
      String.join (((es.filter (Event.shown l)).map Event.view).map (Printed.render time)) := by
  rw [transcript, List.map_map]
  refine congrArg String.join (List.map_congr_left fun e _ => ?_)
  exact (Event.render_view time e).symm

section

variable {o : Options} {input : Except Fault String} {saved : Output → Except Failure Unit}
  {es : List Event} {exit : Nat} {out : Option Output}

/-- **The ending of a run does not depend on its verbosity.** -/
lemma Ends.withVerbosity (h : Ends o input saved es exit out) (v : Nat) :
    Ends (o.withVerbosity v) input saved es exit out := by
  cases h with
  | unread h => exact .unread (o := o.withVerbosity v) h
  | unreadable h he => exact .unreadable (o := o.withVerbosity v) h he
  | listed h hts ht => exact .listed h hts ht
  | refused h hts ht he => exact .refused (o := o.withVerbosity v) h hts ht he
  | unsaved h hts ht hi hf => exact .unsaved (o := o.withVerbosity v) h hts ht hi hf
  | saved h hts ht hi hs => exact .saved (o := o.withVerbosity v) h hts ht hi hs

/-- A run shows what the assembler records, and then what it does with the result. -/
lemma Ends.exists_rest {text : String} (h : Ends o (.ok text) saved es exit out) :
    ∃ rest, es = (if o.tokensOnly then (Source.read text).records
        else (Source.assemble text).records).map .assembler ++ rest ∧
      ∀ r, .assembler r ∉ rest := by
  have hother : ∀ {e : Event}, (∀ r, e ≠ .assembler r) → ∀ r, .assembler r ∉ [e] := by
    intro e he r hr
    exact he r (List.mem_singleton.mp hr).symm
  cases h with
  | unread h => cases h
  | @unreadable _ e h he =>
      cases h
      refine ⟨[.failed (.sourceRefused o.input e)], ?_, hother (by simp)⟩
      rw [Source.read_of_tokens_error he, Source.assemble_of_tokens_error he, ite_self]
      rfl
  | @listed _ ts h hts ht =>
      cases h
      refine ⟨[.printed (Listing.tokens ts)], ?_, hother (by simp)⟩
      rw [if_pos ht, Source.read_of_tokens hts]
      rfl
  | @refused _ ts e h hts ht he =>
      cases h
      refine ⟨[.failed (.sourceRefused o.input e)], ?_, hother (by simp)⟩
      rw [ht, Source.assemble_of_tokens hts]
      rfl
  | @unsaved _ ts i f h hts ht hi hf =>
      cases h
      refine ⟨(if o.listing then [.printed (Listing.image i)] else []) ++ [.failed f], ?_, ?_⟩
      · rw [ht, Source.assemble_of_tokens hts, ← List.append_assoc]
        rfl
      · cases o.listing <;> simp
  | @saved _ ts i h hts ht hi hs =>
      cases h
      refine ⟨(if o.listing then [.printed (Listing.image i)] else []) ++
        [.wrote i.size o.target], ?_, ?_⟩
      · rw [ht, Source.assemble_of_tokens hts, ← List.append_assoc]
        rfl
      · cases o.listing <;> simp

/-- The options of a run are not shown again. -/
lemma Ends.started_not_mem (h : Ends o input saved es exit out) (o' : Options) :
    .started o' ∉ es := by
  cases h with
  | unread | unreadable | listed | refused => simp
  | unsaved | saved =>
      rw [reported]
      split_ifs <;> simp

end

/-- A run is the same for every verbosity, the record of its options apart. -/
lemma exists_run_withVerbosity (o : Options) (d : Disk) : ∃ es exit d', ∀ v,
    run (o.withVerbosity v) d = ⟨.started (o.withVerbosity v) :: es, exit, d'⟩ := by
  obtain ⟨es, exit, out, hends⟩ := exists_ends o (d.readText o.input) (savedOn d)
  exact ⟨es, exit, diskAfter d out, fun v => (hends.withVerbosity v).run_eq⟩

/-- Where the record of the options is shown, it reads as it does with verbosity three. -/
lemma map_view_filter_started (o : Options) (es : List Event) (v : Nat) :
    ((.started (o.withVerbosity v) :: es).filter
        (Event.shown (o.withVerbosity v).level)).map Event.view =
      ((.started (o.withVerbosity 3) :: es).filter
        (Event.shown (o.withVerbosity v).level)).map Event.view := by
  by_cases h : (o.withVerbosity v).level = .debug
  · -- The record names the level, which is the same as with verbosity three.
    have hview : (Event.started (o.withVerbosity v)).view =
        (Event.started (o.withVerbosity 3)).view :=
      congrArg (Printed.record .debug "chip8asm") (Event.describe_withVerbosity h)
    rw [List.filter_cons_of_pos ((Event.shown_started _ _).mpr h),
      List.filter_cons_of_pos ((Event.shown_started _ _).mpr h), List.map_cons, List.map_cons,
      hview]
  · rw [List.filter_cons_of_neg fun hs => h ((Event.shown_started _ _).mp hs),
      List.filter_cons_of_neg fun hs => h ((Event.shown_started _ _).mp hs)]

/-- The most verbose log prints every event of a run. -/
lemma forall₂_printedAs (o : Options) (d : Disk) (h : 3 ≤ o.verbosity) :
    List.Forall₂ Event.PrintedAs (run o d).events (displayed o d) := by
  obtain ⟨es, exit, out, hends⟩ := exists_ends o (d.readText o.input) (savedOn d)
  have hall : (run o d).events.filter (Event.shown o.level) = (run o d).events := by
    rw [o.level_of_le h]
    exact List.filter_eq_self.mpr fun e _ => Event.shown_debug e
  rw [displayed, hall, List.forall₂_map_right_iff, List.forall₂_same, hends.run_eq]
  intro e he
  refine Event.printedAs_view fun o' ho' => ?_
  rcases List.mem_cons.mp he with rfl | he
  · cases ho'
    exact h
  · exact absurd (ho' ▸ he) (hends.started_not_mem o')

/-- **Verbosity filters the log.** Runs that are asked for the same but for the verbosity have the
same exit code and leave the same disk. The level of the log is given by the verbosity: errors for
zero, then warnings, then information, and details from three on. With verbosity three everything is
printed, the options first, then all that the assembler has recorded. With any other, this is
printed less the records that are more verbose than the level of the log. -/
theorem run_verbosity (o : Options) (d : Disk) (v₁ v₂ : Nat) :
    (run (o.withVerbosity v₁) d).exit = (run (o.withVerbosity v₂) d).exit ∧
    (run (o.withVerbosity v₁) d).disk = (run (o.withVerbosity v₂) d).disk ∧
    ((o.withVerbosity 0).level = .error ∧ (o.withVerbosity 1).level = .warn ∧
      (o.withVerbosity 2).level = .info ∧ ∀ v, 3 ≤ v → (o.withVerbosity v).level = .debug) ∧
    List.Forall₂ Event.PrintedAs (run (o.withVerbosity 3) d).events
      (displayed (o.withVerbosity 3) d) ∧
    (∀ text, d.readText o.input = .ok text → ∃ rest, (run (o.withVerbosity 3) d).events =
      .started (o.withVerbosity 3) :: (if o.tokensOnly then (Source.read text).records
        else (Source.assemble text).records).map .assembler ++ rest ∧
      ∀ r, .assembler r ∉ rest) ∧
    ∀ v, displayed (o.withVerbosity v) d =
        (displayed (o.withVerbosity 3) d).filter (Printed.shown (o.withVerbosity v).level) ∧
      ∀ args, Arguments.parse args = .ok (.run (o.withVerbosity v)) →
        Arguments.parse ("-v" :: args) = .ok (.run (o.withVerbosity (v + 1))) ∧
        respond args d =
          ⟨String.join ((displayed (o.withVerbosity v) d).map (Printed.render "")), "",
            (run (o.withVerbosity v) d).exit, (run (o.withVerbosity v) d).disk⟩ := by
  obtain ⟨es, exit, d', hrun⟩ := exists_run_withVerbosity o d
  refine ⟨?_, ?_, ⟨rfl, rfl, rfl, fun v hv => Options.level_of_le _ hv⟩,
    forall₂_printedAs _ d (Nat.le_refl 3), fun text htext => ?_,
    fun v => ⟨?_, fun args hargs => ?_⟩⟩
  · rw [hrun v₁, hrun v₂]
  · rw [hrun v₁, hrun v₂]
  · obtain ⟨es, exit, out, hends⟩ := exists_ends (o.withVerbosity 3) (.ok text) (savedOn d)
    obtain ⟨rest, rfl, hrest⟩ := hends.exists_rest
    rw [← htext] at hends
    exact ⟨rest, congrArg Result.events hends.run_eq, hrest⟩
  · calc displayed (o.withVerbosity v) d
        = ((.started (o.withVerbosity v) :: es).filter
            (Event.shown (o.withVerbosity v).level)).map Event.view := by
          rw [displayed, hrun v]
      _ = ((.started (o.withVerbosity 3) :: es).filter
            (Event.shown (o.withVerbosity v).level)).map Event.view :=
          map_view_filter_started o es v
      _ = (((.started (o.withVerbosity 3) :: es).filter (Event.shown .debug)).map
            Event.view).filter (Printed.shown (o.withVerbosity v).level) :=
          map_view_filter _ _
      _ = (displayed (o.withVerbosity 3) d).filter (Printed.shown (o.withVerbosity v).level) := by
          rw [displayed, hrun 3]
          rfl
  · refine ⟨by rw [Arguments.parse_cons_v, hargs]; rfl, ?_⟩
    rw [respond_of_parse hargs, transcript_eq_join]
    rfl

end Command

end Chip8
