/-
Runs of the program: what they show, how they end and what they leave on the disk.

A run asks the file system for two things, the text of the input and, if there is an image to
save, that it be written. Given the answers, it ends in one of six ways. What is shown, the exit
code and what is saved can be read off the way it ends.

* `Command.Ends`: the six endings, for any answers of the file system.
* `Command.exists_ends`, `Command.Ends.run_eq`: **a run has one ending**, and does what it says.
* `Command.Fails`: why a run fails, and the words for it.
* `Command.Ends.exit_eq_zero_iff`, `Command.Ends.fails`: which endings are successes, and what is
  shown by those that are not.
* `Command.transcript_failed`, `Command.transcript_printed`: what is printed at every level.
* `Disk.DiffersAt`: disks that differ in one entry at most, as they do before and after a file is
  created or written (`Disk.differsAt_create`, `Disk.differsAt_write`).
* `Command.run_exit_and_frame`: **the exit code and the files of a run**, on every disk.
-/
import Mathlib.Tactic
import Chip8.Command
import Chip8.Proofs.CommandLine
import Chip8.Proofs.Extensions
import Chip8.Proofs.Tracing

namespace Chip8

/-! ### Disks that differ in one entry -/

namespace Disk

/-- The second disk differs from the first in the entry at one location at most. -/
structure DiffersAt (l : Location) (d d' : Disk) : Prop where
  working : d'.working = d.working
  find? : ∀ l', l' ≠ l → d'.find? l' = d.find? l'

variable {d d' d'' : Disk} {l : Location}

lemma DiffersAt.refl (l : Location) (d : Disk) : DiffersAt l d d := ⟨rfl, fun _ _ => rfl⟩

/-- Dropping the entries of one location leaves the others. -/
lemma lookup_filter_ne {entries : List (Location × Entry)} {l' : Location} (h : l' ≠ l) :
    (entries.filter (·.1 ≠ l)).lookup l' = entries.lookup l' := by
  induction entries with
  | nil => rfl
  | cons p entries ih =>
      obtain ⟨k, e⟩ := p
      by_cases hk : k = l
      · have hne : (l' == k) = false := beq_eq_false_iff_ne.mpr fun he => h (he.trans hk)
        rw [List.filter_cons_of_neg (by simp [hk]), ih, List.lookup_cons, hne]
      · rw [List.filter_cons_of_pos (by simp [hk]), List.lookup_cons, List.lookup_cons, ih]

lemma find?_put_self (hl : l ≠ []) (e : Entry) : (d.put l e).find? l = some e := by
  rw [find?, if_neg hl, put, List.lookup_cons, beq_self_eq_true]

lemma differsAt_put (d : Disk) (l : Location) (e : Entry) : DiffersAt l d (d.put l e) := by
  refine ⟨rfl, fun l' hl' => ?_⟩
  rw [find?, find?, put]
  split_ifs with hnil
  · rfl
  · rw [List.lookup_cons, beq_eq_false_iff_ne.mpr hl']
    exact lookup_filter_ne hl'

/-- A sequence of requests succeeds if both do. -/
lemma bind_eq_ok_iff {α β : Type} {x : Except Fault α} {f : α → Except Fault β} {b : β} :
    x >>= f = .ok b ↔ ∃ a, x = .ok a ∧ f a = .ok b := by
  cases x with
  | error fault =>
      refine ⟨fun h => (by cases h), fun h => ?_⟩
      obtain ⟨a, ha, -⟩ := h
      cases ha
  | ok a =>
      refine ⟨fun h => ⟨a, rfl, h⟩, fun h => ?_⟩
      obtain ⟨a, ⟨⟩, h⟩ := h
      exact h

/-- A file is not created at the root. -/
lemma target_ne_nil {p : String} (h : d.target p = .ok l) : l ≠ [] := by
  rw [target] at h
  cases hlast : (Path.names p).getLast? with
  | none =>
      rw [hlast] at h
      cases h
  | some name =>
      rw [hlast] at h
      obtain ⟨above, -, h⟩ := bind_eq_ok_iff.mp h
      split_ifs at h
      cases h
      exact List.append_ne_nil_of_right_ne_nil _ (List.cons_ne_nil _ _)

/-- Opening a file for writing empties it, at the location of its path; a device is left as it
is. -/
lemma create_eq_ok {p : String} (h : d.create p = .ok (d', l)) :
    d.target p = .ok l ∧ ((∃ e : Entry, e.content? = some .empty ∧ d' = d.put l e) ∨
      d' = d ∧ (d.find? l = some .null ∨ d.find? l = some .full)) := by
  obtain ⟨l', ht, h⟩ := bind_eq_ok_iff.mp h
  split at h
  · cases h
  · cases h
  · next he =>
    cases h
    exact ⟨ht, .inr ⟨rfl, .inl he⟩⟩
  · next he =>
    cases h
    exact ⟨ht, .inr ⟨rfl, .inr he⟩⟩
  · next room content he =>
    cases h
    exact ⟨ht, .inl ⟨.limited room .empty, rfl, rfl⟩⟩
  · cases h
    exact ⟨ht, .inl ⟨.file .empty, rfl, rfl⟩⟩
  · cases h
    exact ⟨ht, .inl ⟨.file .empty, rfl, rfl⟩⟩

lemma differsAt_create {p : String} (h : d.create p = .ok (d', l)) : DiffersAt l d d' := by
  rcases (create_eq_ok h).2 with ⟨e, -, rfl⟩ | ⟨rfl, -⟩
  · exact differsAt_put d l e
  · exact .refl l d'

/-- Writing changes the file that is written to at most. -/
lemma differsAt_write (d : Disk) (l : Location) (bytes : ByteArray) :
    DiffersAt l d (d.write l bytes).2 := by
  rw [write]
  split
  · exact differsAt_put d l _
  · split_ifs
    · exact differsAt_put d l _
    · exact differsAt_put d l _
  · exact .refl l d
  · exact .refl l d
  · exact .refl l d
  · exact .refl l d
  · exact .refl l d

lemma content?_put (hl : l ≠ []) (e : Entry) : (d.put l e).content? l = e.content? := by
  rw [content?, find?_put_self hl]
  rfl

/-- What has been written is the content of a regular file, or it has gone to a device. -/
lemma write_eq_ok {bytes : ByteArray} (h : d.write l bytes = (.ok (), d')) :
    (∃ e : Entry, e.content? = some bytes ∧ d' = d.put l e) ∨ d' = d ∧ d.content? l = none := by
  rw [write] at h
  split at h
  · cases h
    exact .inl ⟨.file bytes, rfl, rfl⟩
  · next room content he =>
    split_ifs at h
    · cases h
      exact .inl ⟨.limited room bytes, rfl, rfl⟩
    · cases h
  · next he =>
    cases h
    exact .inr ⟨rfl, by rw [content?, he]; rfl⟩
  · next he =>
    obtain ⟨-, rfl⟩ := Prod.mk.inj h
    exact .inr ⟨rfl, by rw [content?, he]; rfl⟩
  · cases h
  · cases h
  · cases h

/-- A regular file to which bytes have been written holds these bytes and no others. -/
lemma content?_of_write {bytes c : ByteArray} (hl : l ≠ []) (h : d.write l bytes = (.ok (), d'))
    (hc : d'.content? l = some c) : c = bytes := by
  rcases write_eq_ok h with ⟨e, he, rfl⟩ | ⟨rfl, hnone⟩
  · rw [content?_put hl, he] at hc
    exact (Option.some.inj hc).symm
  · rw [hnone] at hc
    cases hc

/-- Where there is no device, what is created and written is a regular file. -/
lemma content?_of_create_write {p : String} {bytes : ByteArray}
    (hc : d.create p = .ok (d', l)) (hw : d'.write l bytes = (.ok (), d''))
    (hnull : d.find? l ≠ some .null) (hfull : d.find? l ≠ some .full) :
    d''.content? l = some bytes := by
  obtain ⟨ht, ⟨e, he, rfl⟩ | ⟨-, hdevice⟩⟩ := create_eq_ok hc
  · have hl : l ≠ [] := target_ne_nil ht
    rcases write_eq_ok hw with ⟨e', he', rfl⟩ | ⟨-, hnone⟩
    · rw [content?_put hl, he']
    · rw [content?_put hl, he] at hnone
      cases hnone
  · rcases hdevice with h | h
    · exact absurd h hnull
    · exact absurd h hfull

/-- The text of a file is the one that its bytes encode. -/
lemma readText_eq_ok_iff {p text : String} :
    d.readText p = .ok text ↔ d.read p = .ok text.toUTF8 := by
  rw [readText]
  cases d.read p with
  | error fault => exact ⟨fun h => (by cases h), fun h => (by cases h)⟩
  | ok bytes =>
      change Fault.decodeText bytes = .ok text ↔ _
      rw [Fault.decodeText, String.fromUTF8?]
      by_cases hv : bytes.IsValidUTF8
      · rw [dif_pos hv]
        simp only [Except.ok.injEq]
        exact String.toByteArray_inj.symm
      · rw [dif_neg hv]
        refine ⟨fun h => (by cases h), fun h => ?_⟩
        cases h
        exact absurd text.isValidUTF8 hv

end Disk

/-! ### The endings of a run -/

namespace Command

open Source

/-- What an assembly shows: the records of the assembler and, if it is asked for, the listing of
the image. -/
def reported (o : Options) (ts : List Token) (i : Image) : List Event :=
  .assembler (.lexed ts.length) :: (assemble ts).records.map .assembler ++
    if o.listing then [.printed (Listing.image i)] else []

/-- The bytes of an image for the file that receives it. -/
def output (o : Options) (i : Image) : Output := ⟨o.target, ⟨i.bytes⟩⟩

/-- The endings of a run, given what reading the input has brought and how saving an output goes:
what is shown after the options, the exit code, and what has been asked to be saved. -/
inductive Ends (o : Options) (input : Except Fault String) (saved : Output → Except Failure Unit) :
    List Event → Nat → Option Output → Prop
  /-- The input cannot be read. -/
  | unread {fault : Fault} (h : input = .error fault) :
      Ends o input saved [.failed (.inputUnread o.input fault)] 1 none
  /-- The text is not made of tokens. -/
  | unreadable {text : String} {e : Error} (h : input = .ok text) (he : tokens text = .error e) :
      Ends o input saved [.failed (.sourceRefused o.input e)] 1 none
  /-- Only the tokens are asked for. -/
  | listed {text : String} {ts : List Token} (h : input = .ok text) (hts : tokens text = .ok ts)
      (ht : o.tokensOnly = true) :
      Ends o input saved [.assembler (.lexed ts.length), .printed (Listing.tokens ts)] 0 none
  /-- The tokens cannot be assembled. -/
  | refused {text : String} {ts : List Token} {e : Error} (h : input = .ok text)
      (hts : tokens text = .ok ts) (ht : o.tokensOnly = false)
      (he : (assemble ts).outcome = .error e) :
      Ends o input saved
        (.assembler (.lexed ts.length) :: (assemble ts).records.map .assembler ++
          [.failed (.sourceRefused o.input e)]) 1 none
  /-- The image cannot be saved. -/
  | unsaved {text : String} {ts : List Token} {i : Image} {f : Failure} (h : input = .ok text)
      (hts : tokens text = .ok ts) (ht : o.tokensOnly = false)
      (hi : (assemble ts).outcome = .ok i) (hf : saved (output o i) = .error f) :
      Ends o input saved (reported o ts i ++ [.failed f]) 1 (some (output o i))
  /-- The image has been saved. -/
  | saved {text : String} {ts : List Token} {i : Image} (h : input = .ok text)
      (hts : tokens text = .ok ts) (ht : o.tokensOnly = false)
      (hi : (assemble ts).outcome = .ok i) (hs : saved (output o i) = .ok ()) :
      Ends o input saved (reported o ts i ++ [.wrote i.size o.target]) 0 (some (output o i))

section

variable {o : Options} {input : Except Fault String} {saved : Output → Except Failure Unit}
  {es : List Event} {exit : Nat} {out : Option Output}

/-- Every run has an ending. -/
lemma exists_ends (o : Options) (input : Except Fault String)
    (saved : Output → Except Failure Unit) : ∃ es exit out, Ends o input saved es exit out := by
  cases input with
  | error fault => exact ⟨_, _, _, .unread rfl⟩
  | ok text =>
      cases hts : tokens text with
      | error e => exact ⟨_, _, _, .unreadable rfl hts⟩
      | ok ts =>
          cases ht : o.tokensOnly with
          | true => exact ⟨_, _, _, .listed rfl hts ht⟩
          | false =>
              cases hi : (assemble ts).outcome with
              | error e => exact ⟨_, _, _, .refused rfl hts ht hi⟩
              | ok i =>
                  cases hs : saved (output o i) with
                  | error f => exact ⟨_, _, _, .unsaved rfl hts ht hi hs⟩
                  | ok u => exact ⟨_, _, _, .saved rfl hts ht hi hs⟩

/-! What happens up to the writing. -/

/-- The part of a run between the tokens and the writing. -/
def afterTokens (o : Options) (ts : List Token) : Step (Option Output) :=
  if o.tokensOnly then do
    Logged.record (.printed (Listing.tokens ts))
    return none
  else do
    let image ← assembling o (assemble ts)
    if o.listing then Logged.record (.printed (Listing.image image))
    return some (output o image)

/-- Once there are tokens a run goes on with them. -/
lemma prepare_of_tokens {text : String} {ts : List Token} (h : tokens text = .ok ts) :
    prepare o (.ok text) =
      ⟨.started o :: .assembler (.lexed ts.length) :: (afterTokens o ts).records,
        (afterTokens o ts).outcome⟩ := by
  change Logged.record (.started o) >>= (fun _ => assembling o (read text) >>= afterTokens o) = _
  rw [read_of_tokens h]
  rfl

lemma prepare_of_tokens_error {text : String} {e : Error} (h : tokens text = .error e) :
    prepare o (.ok text) = ⟨[.started o], .error (.sourceRefused o.input e)⟩ := by
  change Logged.record (.started o) >>= (fun _ => assembling o (read text) >>= afterTokens o) = _
  rw [read_of_tokens_error h]
  rfl

lemma afterTokens_of_tokensOnly {ts : List Token} (ht : o.tokensOnly = true) :
    afterTokens o ts = ⟨[.printed (Listing.tokens ts)], .ok none⟩ := by
  rw [afterTokens, if_pos ht]
  rfl

lemma afterTokens_of_error {ts : List Token} {e : Error} (ht : o.tokensOnly = false)
    (he : (assemble ts).outcome = .error e) :
    afterTokens o ts =
      ⟨(assemble ts).records.map .assembler, .error (.sourceRefused o.input e)⟩ := by
  have hwork : (assembling o (assemble ts)).outcome = .error (.sourceRefused o.input e) := by
    change (assemble ts).outcome.mapError _ = _
    rw [he]
    rfl
  rw [afterTokens, if_neg (by simp [ht]), Logged.bind_of_error hwork]
  rfl

lemma afterTokens_of_ok {ts : List Token} {i : Image} (ht : o.tokensOnly = false)
    (hi : (assemble ts).outcome = .ok i) :
    afterTokens o ts =
      ⟨(assemble ts).records.map .assembler ++
        (if o.listing then [.printed (Listing.image i)] else []), .ok (some (output o i))⟩ := by
  have hwork : (assembling o (assemble ts)).outcome = .ok i := by
    change (assemble ts).outcome.mapError _ = _
    rw [hi]
    rfl
  rw [afterTokens, if_neg (by simp [ht]), Logged.bind_of_ok hwork]
  cases o.listing <;> rfl

/-! What a run on a disk does. -/

/-- How saving an output on a disk goes. -/
def savedOn (d : Disk) (out : Output) : Except Failure Unit := (save d out).1

/-- The disk after a run that has asked for an output to be saved, or for none. -/
def diskAfter (d : Disk) (out : Option Output) : Disk := out.elim d fun out => (save d out).2

/-- The part of a run from the writing on. -/
def finish (d : Disk) (s : Step (Option Output)) (out : Output) : Result :=
  let t : Step Unit := do
    let _ ← s
    conclude out (savedOn d out)
  ⟨events t, exitCode t, diskAfter d (some out)⟩

lemma finish_of_error {d : Disk} {out : Output} {f : Failure} (h : savedOn d out = .error f)
    (shown : List Event) :
    finish d ⟨shown, .ok (some out)⟩ out =
      ⟨shown ++ [.failed f], 1, diskAfter d (some out)⟩ := by
  rw [finish, h, Logged.bind_of_ok rfl]
  change Result.mk ((shown ++ []) ++ _) _ _ = _
  rw [List.append_nil]
  rfl

lemma finish_of_ok {d : Disk} {out : Output} (h : savedOn d out = .ok ()) (shown : List Event) :
    finish d ⟨shown, .ok (some out)⟩ out =
      ⟨shown ++ [.wrote out.bytes.size out.path], 0, diskAfter d (some out)⟩ := by
  rw [finish, h, Logged.bind_of_ok rfl]
  rfl

/-- **A run does what its ending says.** -/
theorem Ends.run_eq {d : Disk} (h : Ends o (d.readText o.input) (savedOn d) es exit out) :
    run o d = ⟨.started o :: es, exit, diskAfter d out⟩ := by
  generalize hinput : d.readText o.input = input at h
  cases h with
  | unread h =>
      rw [run, hinput, h]
      rfl
  | unreadable h he =>
      rw [run, hinput, h, prepare_of_tokens_error he]
      rfl
  | listed h hts ht =>
      rw [run, hinput, h, prepare_of_tokens hts, afterTokens_of_tokensOnly ht]
      rfl
  | refused h hts ht he =>
      rw [run, hinput, h, prepare_of_tokens hts, afterTokens_of_error ht he]
      rfl
  | unsaved h hts ht hi hf =>
      rw [run, hinput, h, prepare_of_tokens hts, afterTokens_of_ok ht hi]
      exact finish_of_error hf _
  | saved h hts ht hi hs =>
      rw [run, hinput, h, prepare_of_tokens hts, afterTokens_of_ok ht hi]
      exact finish_of_ok hs _

end

/-! ### How endings differ -/

section

variable {o : Options} {input : Except Fault String} {saved : Output → Except Failure Unit}
  {es : List Event} {exit : Nat} {out : Option Output}

/-- The runs that succeed are those whose text is made of tokens, which are listed or assembled
and saved. -/
lemma Ends.exit_eq_zero_iff (h : Ends o input saved es exit out) :
    exit = 0 ↔ ∃ text ts, input = .ok text ∧ tokens text = .ok ts ∧
      (o.tokensOnly = true ∨
        ∃ i, (assemble ts).outcome = .ok i ∧ saved (output o i) = .ok ()) := by
  cases h with
  | unread h =>
      refine ⟨fun h0 => (by cases h0), fun hall => ?_⟩
      obtain ⟨text, ts, h', -⟩ := hall
      cases h.symm.trans h'
  | unreadable h he =>
      refine ⟨fun h0 => (by cases h0), fun hall => ?_⟩
      obtain ⟨text, ts, h', hts, -⟩ := hall
      cases h.symm.trans h'
      cases he.symm.trans hts
  | listed h hts ht => exact ⟨fun _ => ⟨_, _, h, hts, .inl ht⟩, fun _ => rfl⟩
  | refused h hts ht he =>
      refine ⟨fun h0 => (by cases h0), fun hall => ?_⟩
      obtain ⟨text, ts, h', hts', ht' | ⟨i, hi, -⟩⟩ := hall
      · cases ht.symm.trans ht'
      · cases h.symm.trans h'
        cases hts.symm.trans hts'
        cases he.symm.trans hi
  | unsaved h hts ht hi hf =>
      refine ⟨fun h0 => (by cases h0), fun hall => ?_⟩
      obtain ⟨text, ts, h', hts', ht' | ⟨i, hi', hs⟩⟩ := hall
      · cases ht.symm.trans ht'
      · cases h.symm.trans h'
        cases hts.symm.trans hts'
        cases hi.symm.trans hi'
        cases hf.symm.trans hs
  | saved h hts ht hi hs => exact ⟨fun _ => ⟨_, _, h, hts, .inr ⟨_, hi, hs⟩⟩, fun _ => rfl⟩

/-- No record of the assembler is an error. -/
lemma level?_assembler (r : Record) : (Event.assembler r).level? ≠ some .error := by
  cases r <;> simp [Event.level?, Record.level]

lemma level?_of_mem_assembled {ts : List Token} {e : Event}
    (he : e ∈ Event.assembler (.lexed ts.length) :: (assemble ts).records.map .assembler) :
    e.level? ≠ some .error := by
  rcases List.mem_cons.mp he with rfl | he
  · exact level?_assembler _
  · obtain ⟨r, -, rfl⟩ := List.mem_map.mp he
    exact level?_assembler r

lemma level?_of_mem_reported {ts : List Token} {i : Image} {e : Event}
    (he : e ∈ reported o ts i) : e.level? ≠ some .error := by
  rcases List.mem_append.mp he with he | he
  · exact level?_of_mem_assembled he
  · split_ifs at he
    · rw [List.mem_singleton.mp he]
      exact Option.some_ne_none _ |>.symm
    · cases he

/-- A run saves what it has assembled, and nothing if only the tokens are asked for. -/
lemma Ends.out_eq_some (h : Ends o input saved es exit out) {w : Output} (hw : out = some w) :
    o.tokensOnly = false ∧ ∃ text ts i, input = .ok text ∧ tokens text = .ok ts ∧
      (assemble ts).outcome = .ok i ∧ w = output o i := by
  cases h with
  | unread h => cases hw
  | unreadable h he => cases hw
  | listed h hts ht => cases hw
  | refused h hts ht he => cases hw
  | unsaved h hts ht hi hf => exact ⟨ht, _, _, _, h, hts, hi, (Option.some.inj hw).symm⟩
  | saved h hts ht hi hs => exact ⟨ht, _, _, _, h, hts, hi, (Option.some.inj hw).symm⟩

end

/-! ### Saving -/

section

variable {d d' : Disk} {out : Output} {l : Location}

/-- Saving has gone well if the file has been created and all bytes written. -/
lemma save_eq_ok_iff :
    save d out = (.ok (), d') ↔ ∃ d₁ l, d.create out.path = .ok (d₁, l) ∧
      d₁.write l out.bytes = (.ok (), d') := by
  rw [save]
  cases d.create out.path with
  | error fault =>
      refine ⟨fun h => (by cases h), fun h => ?_⟩
      obtain ⟨d₁, l, h, -⟩ := h
      cases h
  | ok made =>
      obtain ⟨d₁, l⟩ := made
      change ((d₁.write l out.bytes).1.mapError _, (d₁.write l out.bytes).2) = _ ↔ _
      refine ⟨fun h => ⟨d₁, l, rfl, ?_⟩, fun h => ?_⟩
      · obtain ⟨hok, hd⟩ := Prod.mk.inj h
        refine Prod.ext ?_ hd
        cases hw : (d₁.write l out.bytes).1 with
        | error fault =>
            rw [hw] at hok
            cases hok
        | ok u => rfl
      · obtain ⟨_, _, ⟨⟩, hw⟩ := h
        rw [hw]
        rfl

lemma working_save : (save d out).2.working = d.working := by
  rw [save]
  cases hc : d.create out.path with
  | error fault => rfl
  | ok made =>
      obtain ⟨d₁, l⟩ := made
      calc (d₁.write l out.bytes).2.working
          = d₁.working := (Disk.differsAt_write d₁ l out.bytes).working
        _ = d.working := (Disk.differsAt_create hc).working

/-- Saving changes at most the entry that the path leads to. -/
lemma find?_save (h : d.target out.path ≠ .ok l) : (save d out).2.find? l = d.find? l := by
  rw [save]
  cases hc : d.create out.path with
  | error fault => rfl
  | ok made =>
      obtain ⟨d₁, l'⟩ := made
      have hne : l ≠ l' := fun he => h (he ▸ (Disk.create_eq_ok hc).1)
      calc (d₁.write l' out.bytes).2.find? l
          = d₁.find? l := (Disk.differsAt_write d₁ l' out.bytes).find? l hne
        _ = d.find? l := (Disk.differsAt_create hc).find? l hne

end

/-! ### The law of a run -/

/-- The input of a run can be read and is made of tokens. -/
def Reads (o : Options) (d : Disk) (ts : List Token) : Prop :=
  ∃ text : String, d.read o.input = .ok text.toUTF8 ∧ tokens text = .ok ts

/-- The target of a run can be created and an image written to it. -/
def Saves (o : Options) (d : Disk) (i : Image) : Prop :=
  ∃ d₁ l d₂, d.create o.target = .ok (d₁, l) ∧ d₁.write l ⟨i.bytes⟩ = (.ok (), d₂)

/-- Why a run on a disk fails, and the words for it. -/
inductive Fails (o : Options) (d : Disk) : String → Prop
  /-- The input cannot be read, or is no text. -/
  | unread {fault : Fault} (h : d.readText o.input = .error fault) :
      Fails o d ("fatal: unable to read input file `" ++ o.input ++ "`: " ++ fault.message)
  /-- The text is not made of tokens. -/
  | unreadable {text : String} {e : Error} (h : d.read o.input = .ok text.toUTF8)
      (he : tokens text = .error e) : Fails o d ("fatal: " ++ o.input ++ ": " ++ e.message)
  /-- The tokens cannot be assembled. -/
  | refused {ts : List Token} {e : Error} (h : Reads o d ts) (ht : o.tokensOnly = false)
      (he : (assemble ts).outcome = .error e) :
      Fails o d ("fatal: " ++ o.input ++ ": " ++ e.message)
  /-- The target cannot be opened. -/
  | unopened {ts : List Token} {i : Image} {fault : Fault} (h : Reads o d ts)
      (ht : o.tokensOnly = false) (hi : (assemble ts).outcome = .ok i)
      (hc : d.create o.target = .error fault) :
      Fails o d ("fatal: unable to open output file `" ++ o.target ++ "`: " ++ fault.message)
  /-- The image cannot be written to it. -/
  | unwritten {ts : List Token} {i : Image} {fault : Fault} {d₁ : Disk} {l : Location}
      (h : Reads o d ts) (ht : o.tokensOnly = false) (hi : (assemble ts).outcome = .ok i)
      (hc : d.create o.target = .ok (d₁, l)) (hw : (d₁.write l ⟨i.bytes⟩).1 = .error fault) :
      Fails o d ("fatal: unable to write to output file `" ++ o.target ++ "`: " ++ fault.message)

section

variable {o : Options} {d : Disk} {es : List Event} {exit : Nat} {out : Option Output} {i : Image}

/-- Saving on a disk goes well if creating and writing do. -/
lemma savedOn_output_iff : savedOn d (output o i) = .ok () ↔ Saves o d i := by
  refine ⟨fun h => ?_, fun h => ?_⟩
  · have hsave : save d (output o i) = (.ok (), (save d (output o i)).2) := Prod.ext h rfl
    obtain ⟨d₁, l, hc, hw⟩ := save_eq_ok_iff.mp hsave
    exact ⟨d₁, l, _, hc, hw⟩
  · obtain ⟨d₁, l, d₂, hc, hw⟩ := h
    exact congrArg Prod.fst (save_eq_ok_iff.mpr ⟨d₁, l, hc, hw⟩)

/-- The runs on a disk that succeed. -/
lemma Ends.exit_iff (h : Ends o (d.readText o.input) (savedOn d) es exit out) :
    exit = 0 ↔ ∃ ts, Reads o d ts ∧
      (o.tokensOnly = true ∨ ∃ i, (assemble ts).outcome = .ok i ∧ Saves o d i) := by
  rw [h.exit_eq_zero_iff]
  refine ⟨fun hall => ?_, fun hall => ?_⟩
  · obtain ⟨text, ts, hinput, hts, hrest⟩ := hall
    refine ⟨ts, ⟨text, Disk.readText_eq_ok_iff.mp hinput, hts⟩, ?_⟩
    exact hrest.imp_right fun ⟨i, hi, hs⟩ => ⟨i, hi, savedOn_output_iff.mp hs⟩
  · obtain ⟨ts, ⟨text, hinput, hts⟩, hrest⟩ := hall
    refine ⟨text, ts, Disk.readText_eq_ok_iff.mpr hinput, hts, ?_⟩
    exact hrest.imp_right fun ⟨i, hi, hs⟩ => ⟨i, hi, savedOn_output_iff.mpr hs⟩

/-- Saving on a disk fails if creating or writing does. -/
lemma savedOn_output_eq_error {f : Failure} (h : savedOn d (output o i) = .error f) :
    (∃ fault, d.create o.target = .error fault ∧ f = .outputNotOpened o.target fault) ∨
      ∃ d₁ l fault, d.create o.target = .ok (d₁, l) ∧ (d₁.write l ⟨i.bytes⟩).1 = .error fault ∧
        f = .outputNotWritten o.target fault := by
  rw [savedOn, save] at h
  cases hc : d.create (output o i).path with
  | error fault =>
      rw [hc] at h
      cases h
      exact .inl ⟨fault, hc, rfl⟩
  | ok made =>
      obtain ⟨d₁, l⟩ := made
      rw [hc] at h
      change (d₁.write l ⟨i.bytes⟩).1.mapError _ = _ at h
      cases hw : (d₁.write l ⟨i.bytes⟩).1 with
      | error fault =>
          rw [hw] at h
          cases h
          exact .inr ⟨d₁, l, fault, hc, hw, rfl⟩
      | ok u =>
          rw [hw] at h
          cases h

/-- A run that does not succeed has exit code one. It shows one error, at its end, which says why
it has failed. -/
lemma Ends.fails (h : Ends o (d.readText o.input) (savedOn d) es exit out) (hexit : exit ≠ 0) :
    exit = 1 ∧ ∃ before f, es = before ++ [.failed f] ∧
      (∀ e ∈ before, e.level? ≠ some .error) ∧ Fails o d f.message := by
  generalize hinput : d.readText o.input = input at h
  cases h with
  | unread h => exact ⟨rfl, [], _, rfl, fun e he => (by cases he), .unread (hinput.trans h)⟩
  | unreadable h he =>
      have hread := Disk.readText_eq_ok_iff.mp (hinput.trans h)
      exact ⟨rfl, [], _, rfl, fun e he => (by cases he), .unreadable hread he⟩
  | listed h hts ht => exact absurd rfl hexit
  | refused h hts ht he =>
      have hreads : Reads o d _ := ⟨_, Disk.readText_eq_ok_iff.mp (hinput.trans h), hts⟩
      exact ⟨rfl, _, _, rfl, fun e he => level?_of_mem_assembled he, .refused hreads ht he⟩
  | unsaved h hts ht hi hf =>
      have hreads : Reads o d _ := ⟨_, Disk.readText_eq_ok_iff.mp (hinput.trans h), hts⟩
      refine ⟨rfl, _, _, rfl, fun e he => level?_of_mem_reported he, ?_⟩
      rcases savedOn_output_eq_error hf with ⟨fault, hc, rfl⟩ | ⟨d₁, l, fault, hc, hw, rfl⟩
      · exact .unopened hreads ht hi hc
      · exact .unwritten hreads ht hi hc hw
  | saved h hts ht hi hs => exact absurd rfl hexit

/-- The disk after a run is that before it, or an image has been sent to the target. -/
lemma Ends.disk_cases (h : Ends o (d.readText o.input) (savedOn d) es exit out) :
    diskAfter d out = d ∨ o.tokensOnly = false ∧ ∃ ts i, Reads o d ts ∧
      (assemble ts).outcome = .ok i ∧ diskAfter d out = (save d (output o i)).2 := by
  cases out with
  | none => exact .inl rfl
  | some w =>
      obtain ⟨ht, text, ts, i, hinput, hts, hi, rfl⟩ := h.out_eq_some rfl
      exact .inr ⟨ht, ts, i, ⟨text, Disk.readText_eq_ok_iff.mp hinput, hts⟩, hi, rfl⟩

/-- A run that succeeds and does not list tokens only has saved an image. -/
lemma Ends.saved_of_exit (h : Ends o (d.readText o.input) (savedOn d) es exit out)
    (hexit : exit = 0) (ht : o.tokensOnly = false) :
    ∃ ts i, Reads o d ts ∧ (assemble ts).outcome = .ok i ∧
      save d (output o i) = (.ok (), diskAfter d out) := by
  cases h with
  | unread h => cases hexit
  | unreadable h he => cases hexit
  | listed h hts ht' => cases ht.symm.trans ht'
  | refused h hts ht he => cases hexit
  | unsaved h hts ht hi hf => cases hexit
  | saved h hts ht hi hs =>
      exact ⟨_, _, ⟨_, Disk.readText_eq_ok_iff.mp h, hts⟩, hi, Prod.ext hs rfl⟩

end

/-! ### What is printed -/

lemma transcript_append (level : Level) (time : String) (es fs : List Event) :
    transcript level time (es ++ fs) = transcript level time es ++ transcript level time fs := by
  rw [transcript, List.filter_append, List.map_append, String.join_append]
  rfl

lemma transcript_of_shown {level : Level} {e : Event} (h : e.shown level = true) (time : String) :
    transcript level time [e] = e.render time := by
  rw [transcript, List.filter_cons_of_pos h]
  exact String.empty_append

lemma transcript_of_not_shown {level : Level} {es : List Event}
    (h : ∀ e ∈ es, e.shown level = false) (time : String) : transcript level time es = "" := by
  rw [transcript, List.filter_eq_nil_iff.mpr fun e he => by simp [h e he]]
  rfl

/-- A listing is printed at every level, as it is. -/
lemma transcript_printed (level : Level) (time listing : String) :
    transcript level time [.printed listing] = listing ++ "\n" :=
  transcript_of_shown rfl time

/-- A failure is printed at every level, as an error of the program itself. -/
lemma transcript_failed (level : Level) (time : String) (f : Failure) :
    transcript level time [.failed f] = time ++ "[chip8asm][ERROR] " ++ f.message ++ "\n" := by
  have hshown : Event.shown level (.failed f) = true := by cases level <;> rfl
  have hmark : "[" ++ "chip8asm" ++ "][" ++ "ERROR" ++ "] " = "[chip8asm][ERROR] " := by decide
  rw [transcript_of_shown hshown, ← hmark]
  change time ++ "[" ++ "chip8asm" ++ "][" ++ "ERROR" ++ "] " ++ f.message ++ "\n" = _
  simp only [String.append_assoc]

/-- The answer to arguments that ask for a run. -/
lemma respond_of_parse {args : List String} {o : Options}
    (h : Arguments.parse args = .ok (.run o)) (d : Disk) :
    respond args d =
      ⟨transcript o.level "" (run o d).events, "", (run o d).exit, (run o d).disk⟩ := by
  rw [respond, h]

/-! ### All runs -/

/-- **The exit code and the files of a run.** A run succeeds if and only if its input can be read
and is made of tokens, and these are to be listed only, or are assembled and saved. A run that
fails has exit code one and shows one error, the last thing that it shows, at every level; its line
says why the run has failed. The target is the file that is asked for, or else the one beside the
input with the extension `ch8`. A run changes nothing but the entry that its target leads to, and
that only if there is an image to save. A regular file there then holds the image. Such a run is
asked for by its options and its input, in any order. -/
theorem run_exit_and_frame (o : Options) (d : Disk) :
    ((run o d).exit = 0 ↔ ∃ ts, Reads o d ts ∧
      (o.tokensOnly = true ∨ ∃ i, (assemble ts).outcome = .ok i ∧ Saves o d i)) ∧
    ((run o d).exit ≠ 0 → (run o d).exit = 1 ∧ ∃ es f, (run o d).events = es ++ [.failed f] ∧
      (∀ e ∈ es, e.level? ≠ some .error) ∧ (Event.failed f).level? = some .error ∧
      ∃ reason, Fails o d reason ∧ ∀ level time, transcript level time (run o d).events =
        transcript level time es ++ (time ++ "[chip8asm][ERROR] " ++ reason ++ "\n")) ∧
    (∀ path, o.output = some path → o.target = path) ∧
    (o.output = none → ∀ path, Path.Beside "ch8" o.input path ↔ path = o.target) ∧
    ((run o d).disk.working = d.working ∧
      ∀ l, d.target o.target ≠ .ok l → (run o d).disk.find? l = d.find? l) ∧
    ((o.tokensOnly = true ∨ ¬ ∃ ts i, Reads o d ts ∧ (assemble ts).outcome = .ok i) →
      (run o d).disk = d) ∧
    ((run o d).exit = 0 → o.tokensOnly = false →
      ∃ ts i l, Reads o d ts ∧ (assemble ts).outcome = .ok i ∧ d.target o.target = .ok l ∧
        (∀ c, (run o d).disk.content? l = some c → c = ⟨i.bytes⟩) ∧
        (d.find? l ≠ some .null → d.find? l ≠ some .full →
          (run o d).disk.content? l = some ⟨i.bytes⟩)) ∧
    (∀ flags, (∀ f ∈ flags, Flag.Plain f) →
      (Arguments.parse (flags.flatMap Flag.arguments) = .ok (.run o) ↔ Flag.Asks flags o)) ∧
    ∀ args, Arguments.parse args = .ok (.run o) →
      respond args d = ⟨transcript o.level "" (run o d).events, "", (run o d).exit,
        (run o d).disk⟩ := by
  obtain ⟨es, exit, out, hends⟩ := exists_ends o (d.readText o.input) (savedOn d)
  rw [hends.run_eq]
  refine ⟨hends.exit_iff, fun hexit => ?_, fun path hpath => ?_, fun hnone path => ?_, ?_,
    fun hno => ?_, fun hexit ht => ?_, fun flags => Arguments.parse_flags_iff, ?_⟩
  · obtain ⟨hone, before, f, rfl, hbefore, hfails⟩ := hends.fails hexit
    refine ⟨hone, .started o :: before, f, rfl, fun e he => ?_, rfl, f.message, hfails,
      fun level time => ?_⟩
    · rcases List.mem_cons.mp he with rfl | he
      · exact fun h => (by cases h)
      · exact hbefore e he
    · rw [← transcript_failed, ← transcript_append]
      rfl
  · rw [Options.target, hpath, Option.getD_some]
  · rw [Options.target, hnone, Option.getD_none]
    exact Path.beside_iff
  · rcases hends.disk_cases with hd | ⟨-, ts, i, -, -, hd⟩
    · exact ⟨congrArg Disk.working hd, fun l _ => congrArg (Disk.find? · l) hd⟩
    · change (diskAfter d out).working = _ ∧ ∀ l, _ → (diskAfter d out).find? l = _
      rw [hd]
      exact ⟨working_save, fun l hl => find?_save hl⟩
  · rcases hends.disk_cases with hd | ⟨ht, ts, i, hr, hi, -⟩
    · exact hd
    · rcases hno with htok | hnone
      · cases ht.symm.trans htok
      · exact absurd ⟨ts, i, hr, hi⟩ hnone
  · obtain ⟨ts, i, hr, hi, hsave⟩ := hends.saved_of_exit hexit ht
    obtain ⟨d₁, l, hc, hw⟩ := save_eq_ok_iff.mp hsave
    have htarget : d.target o.target = .ok l := (Disk.create_eq_ok hc).1
    refine ⟨ts, i, l, hr, hi, htarget, fun c hcontent => ?_, ?_⟩
    · exact Disk.content?_of_write (Disk.target_ne_nil htarget) hw hcontent
    · exact Disk.content?_of_create_write hc hw
  · intro args hargs
    rw [respond_of_parse hargs, hends.run_eq]

end Command

end Chip8
