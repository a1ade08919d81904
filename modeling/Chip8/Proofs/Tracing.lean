/-
The log of an assembly.

A label is recorded with its address, an instruction with its word, and a byte of data not at
all. Since the word of an instruction is recorded before it is written, and a label before
anything can refer to it, the log could differ from the image. It does not: it can be computed
from the segments and the image, and where an assembly fails, from the segments before.

* `Segment.record?`, `Layout.records`: the records of a layout, read off its image.
* `Record.Says`, `Record.says_message`: what is to be read in a record, and that its text is this.
* `Layout.Fails`: the tokens with which no further segment begins, the error there and what is
  recorded of it. The only record is that of an instruction whose word does not fit.
* `Layout.progress`: a segment can be added, or the tokens fail.
* `Assembly.resume`: the rest of an assembly, from a state on.
* `Assembly.step_eq`, `Assembly.resume_of_emitted`, `Assembly.resume_of_fails`: what a segment
  leaves in the log, what segments do, and what is left by the tokens that fail.
* `assemble_of_isLayout_traced`, `assemble_eq_failure_iff`: the log of an assembly that succeeds,
  and of one that fails.
* `Source.assemble_traced`: **the log traces the assembly** of every source text.
-/
import Mathlib.Tactic
import Chip8.Proofs.LabelAddress
import Chip8.Proofs.Linking
import Chip8.Proofs.Locality
import Chip8.Proofs.Numerals

namespace Chip8

/-! ### The records of a layout -/

/-- The record of a segment at an offset of an image: the address of a label, and the word in the
place of an instruction. -/
def Segment.record? (img : List UInt8) (offset : Nat) : Segment → Option Record
  | .label name _ => some (.declared name (BitVec.ofNat 16 (0x200 + offset)))
  | .data _ _ => none
  | .instruction name line _ =>
    (Mnemonic.ofName? name).map (.encoded line · (Layout.wordAt img offset))

/-- What a record says. An address is shown in three digits or more, a word in four, and an
instruction by the name that it has in a text. -/
inductive Record.Says : Record → String → Prop
  | lexed (tokens : Nat) : Says (.lexed tokens) ("lexed " ++ tokens.repr ++ " token(s)")
  | declared {name digits : String} {address : Word}
      (hdigits : Hex.IsFilled 3 address.toNat digits) :
      Says (.declared name address) ("label `" ++ name ++ "` => 0x" ++ digits)
  | encoded {name digits : String} {line : Nat} {m : Mnemonic} {w : Word}
      (hm : Mnemonic.ofName? name = some m) (hdigits : Hex.IsFilled 4 w.toNat digits) :
      Says (.encoded line m w) ("line " ++ line.repr ++ ": " ++ name ++ " => 0x" ++ digits)
  | assembled (bytes : Nat) : Says (.assembled bytes) ("assembled " ++ bytes.repr ++ " byte(s)")

lemma Mnemonic.ofName?_name (m : Mnemonic) : ofName? m.name = some m := by
  cases m <;> decide

/-- The text of a record is what it says. -/
lemma Record.says_message (r : Record) : r.Says r.message := by
  cases r with
  | lexed tokens => exact .lexed tokens
  | declared name address => exact .declared (Hex.isFilled_padded (by decide) _)
  | encoded line m w => exact .encoded m.ofName?_name (Hex.isFilled_padded (by decide) _)
  | assembled bytes => exact .assembled bytes

namespace Layout

/-- The records of segments in order, the first segment standing at an offset of an image. -/
def records (img : List UInt8) (offset : Nat) : List Segment → List Record
  | [] => []
  | s :: rest => (s.record? img offset).toList ++ records img (offset + s.size) rest

/-- The tokens behind segments with which an assembly fails, the error, and what is recorded of
them. -/
inductive Fails (segs : List Segment) : List Token → Error → List Record → Prop
  /-- A label is declared a second time. -/
  | duplicate {name : String} {line : Nat} {rest : List Token} (h : name ∈ names segs) :
      Fails segs (⟨.label name, line⟩ :: rest) (.duplicateLabel name line) []
  /-- There is no room for a byte of data. -/
  | dataFull {v : BitVec 64} {line : Nat} {rest : List Token} (h : 4096 < size segs + 1) :
      Fails segs (⟨.literal v, line⟩ :: rest) (.imageFull 4096) []
  /-- An operand stands where a statement is due. -/
  | stray {t : Token} {rest : List Token} (h : t.kind ∈ [Kind.register, .name]) :
      Fails segs (t :: rest) (.unexpectedKind [.label, .literal, .instruction] t.kind t.line) []
  /-- There is no instruction of this name. -/
  | unknown {name : String} {line : Nat} {rest : List Token} (h : Mnemonic.ofName? name = none) :
      Fails segs (⟨.instruction name, line⟩ :: rest) (.unknownMnemonic name line) []
  /-- The operands are refused, or there are too few of them, or a label is not declared. -/
  | refused {name : String} {line : Nat} {m : Mnemonic} {ts rest : List Token} {e : Error}
      (hm : Mnemonic.ofName? name = some m) (h : m.encode (labels segs) ts = .error e rest) :
      Fails segs (⟨.instruction name, line⟩ :: ts) e []
  /-- There is no room for the word of an instruction. It has been recorded all the same. -/
  | wordFull {name : String} {line : Nat} {m : Mnemonic} {ts rest : List Token} {w : Word}
      (hm : Mnemonic.ofName? name = some m) (h : m.encode (labels segs) ts = .ok w rest)
      (hfull : 4096 < size segs + 2) :
      Fails segs (⟨.instruction name, line⟩ :: ts) (.imageFull 4096) [.encoded line m w]

/-! ### Cutting tokens as far as possible -/

variable {segs : List Segment} {img : List UInt8}

/-- The names of segments and of one more that has a new name, if it has any. -/
lemma nodup_names_concat {seg : Segment} (hd : (names segs).Nodup)
    (hnew : ∀ name ∈ seg.name?, name ∉ names segs) : (names (segs ++ [seg])).Nodup := by
  have hone : names [seg] = seg.name?.toList := by
    rw [names_cons]
    exact List.append_nil _
  rw [names_append, hone]
  cases hname : seg.name? with
  | none => simpa using hd
  | some name =>
      rw [Option.toList_some, List.nodup_append_comm, List.singleton_append, List.nodup_cons]
      exact ⟨hnew name hname, hd⟩

/-- A layout with one segment more. -/
lemma isLayout_concat {seg : Segment} {bs : List UInt8}
    (h : IsLayout (segs.flatMap Segment.tokens) segs img) (hbs : seg.Emits (labels segs) bs)
    (hnew : ∀ name ∈ seg.name?, name ∉ names segs) (hroom : size segs + seg.size ≤ 4096) :
    IsLayout ((segs ++ [seg]).flatMap Segment.tokens) (segs ++ [seg]) (img ++ bs) := by
  refine ⟨rfl, nodup_names_concat h.distinct hnew, ?_, by rwa [size_concat]⟩
  have hone : Emitted ([] ++ segs) [seg] (bs ++ []) := .cons hbs (.nil _)
  rw [List.append_nil] at hone
  exact emitted_append_iff.mpr ⟨img, bs, h.emitted, hone, rfl⟩

/-- **Progress.** Tokens behind a layout begin with a segment that can be added to it, or an
assembly fails with them. -/
theorem progress (h : IsLayout (segs.flatMap Segment.tokens) segs img) (t : Token)
    (ts : List Token) :
    (∃ (seg : Segment) (bs : List UInt8) (rest : List Token), t :: ts = seg.tokens ++ rest ∧
      IsLayout ((segs ++ [seg]).flatMap Segment.tokens) (segs ++ [seg]) (img ++ bs)) ∨
    ∃ e rs, Fails segs (t :: ts) e rs := by
  obtain ⟨l, line⟩ := t
  cases l with
  | label name =>
      by_cases hname : name ∈ names segs
      · exact .inr ⟨_, _, .duplicate hname⟩
      · have hlay := isLayout_concat h (.label name line) (by simpa [Segment.name?] using hname)
          h.fits
        exact .inl ⟨.label name line, _, ts, rfl, hlay⟩
  | literal v =>
      by_cases hfull : 4096 < size segs + 1
      · exact .inr ⟨_, _, .dataFull hfull⟩
      · have hlay := isLayout_concat h (.data v line) (by simp [Segment.name?])
          (Nat.not_lt.mp hfull)
        exact .inl ⟨.data v line, _, ts, rfl, hlay⟩
  | register r => exact .inr ⟨_, _, .stray (by simp [Token.kind, Lexeme.kind])⟩
  | name s => exact .inr ⟨_, _, .stray (by simp [Token.kind, Lexeme.kind])⟩
  | instruction name =>
      cases hm : Mnemonic.ofName? name with
      | none => exact .inr ⟨_, _, .unknown hm⟩
      | some m =>
          cases hw : m.encode (labels segs) ts with
          | error e rest => exact .inr ⟨_, _, .refused hm hw⟩
          | ok w rest =>
              by_cases hfull : 4096 < size segs + 2
              · exact .inr ⟨_, _, .wordFull hm hw hfull⟩
              · obtain ⟨i, r, hi, hr, rfl⟩ := Mnemonic.encode_eq_ok_iff_resolve.mp hw
                obtain ⟨ops, hs, rfl, rfl⟩ := Mnemonic.operands_eq_ok_iff.mp hi
                have hbs : Segment.Emits (labels segs) (.instruction name line ops) r.word.bytes :=
                  (Segment.emits_instruction_iff hm hs).mpr ⟨r, hr, rfl⟩
                have hlay := isLayout_concat h hbs (by simp [Segment.name?]) (Nat.not_lt.mp hfull)
                exact .inl ⟨.instruction name line ops, _, rest, rfl, hlay⟩

/-- A segment takes at least one token. -/
lemma length_lt_of_tokens {seg : Segment} {ts rest : List Token} (h : ts = seg.tokens ++ rest) :
    rest.length < ts.length := by
  rw [h, List.length_append]
  cases seg <;> simp [Segment.tokens]

/-- Segments are added to a layout, and bytes to its image, until there are no tokens left or an
assembly fails. -/
lemma exists_layout_append (h : IsLayout (segs.flatMap Segment.tokens) segs img)
    (ts : List Token) :
    ∃ after post rest, ts = after.flatMap Segment.tokens ++ rest ∧
      IsLayout ((segs ++ after).flatMap Segment.tokens) (segs ++ after) (img ++ post) ∧
      (rest = [] ∨ ∃ e rs, Fails (segs ++ after) rest e rs) := by
  -- by induction on the number of tokens that are left
  induction hn : ts.length using Nat.strong_induction_on generalizing segs img ts with
  | _ n ih =>
    have hstay : IsLayout ((segs ++ []).flatMap Segment.tokens) (segs ++ []) (img ++ []) := by
      rwa [List.append_nil, List.append_nil]
    cases ts with
    | nil => exact ⟨[], [], [], rfl, hstay, .inl rfl⟩
    | cons t ts =>
        rcases progress h t ts with ⟨seg, bs, rest, ht, hlay⟩ | ⟨e, rs, hfail⟩
        · have hlt := length_lt_of_tokens ht
          obtain ⟨after, post, rest', rfl, hlay', hrest⟩ := ih _ (hn ▸ hlt) hlay rest rfl
          rw [List.append_assoc, List.singleton_append] at hlay' hrest
          rw [List.append_assoc] at hlay'
          exact ⟨seg :: after, bs ++ post, rest', by simp [ht], hlay', hrest⟩
        · refine ⟨[], [], t :: ts, rfl, hstay, .inr ⟨e, rs, ?_⟩⟩
          rwa [List.append_nil]

/-- A token list is cut into the segments of a layout and a rest with which an assembly fails, if
there is any. -/
lemma exists_layout (ts : List Token) :
    ∃ segs img rest, ts = segs.flatMap Segment.tokens ++ rest ∧
      IsLayout (segs.flatMap Segment.tokens) segs img ∧
      (rest = [] ∨ ∃ e rs, Fails segs rest e rs) := by
  have hnil : IsLayout ([].flatMap Segment.tokens) [] [] := ⟨rfl, .nil, .nil [], Nat.zero_le _⟩
  exact exists_layout_append hnil ts

end Layout

/-! ### Instructions that fail -/

namespace Reader

variable {α β : Type} {ts rest : List Token} {e : Error}

/-- A sequence fails if its first part does, or if the first succeeds and the second fails on
what is left. -/
lemma bind_eq_error_iff {r : Reader α} {f : α → Reader β} :
    (r >>= f) ts = .error e rest ↔
      r ts = .error e rest ∨ ∃ a mid, r ts = .ok a mid ∧ f a mid = .error e rest := by
  simp only [bind, EStateM.bind]
  cases hr : r ts with
  | ok a mid => simp
  | error e' rest' => simp

end Reader

namespace Statement

variable {name : String} {line : Nat} {m : Mnemonic} {ts rest : List Token} {e : Error}

/-- The statement that the name of an instruction starts is read by the reader of the name. -/
lemma read_instruction (hm : Mnemonic.ofName? name = some m) :
    read (⟨.instruction name, line⟩ :: ts) = ((.instruction · line) <$> m.operands) ts := by
  rw [read_cons]
  simp only [after, hm]

lemma read_instruction_of_ok {i : Instruction Target} (hm : Mnemonic.ofName? name = some m)
    (h : m.operands ts = .ok i rest) :
    read (⟨.instruction name, line⟩ :: ts) = .ok (.instruction i line) rest := by
  rw [read_instruction hm]
  exact Reader.map_eq_ok_iff.mpr ⟨i, h, rfl⟩

lemma read_instruction_of_error (hm : Mnemonic.ofName? name = some m)
    (h : m.operands ts = .error e rest) :
    read (⟨.instruction name, line⟩ :: ts) = .error e rest := by
  rw [read_instruction hm]
  simp only [Functor.map, EStateM.map, h]

lemma read_instruction_of_none (hm : Mnemonic.ofName? name = none) :
    read (⟨.instruction name, line⟩ :: ts) = .error (.unknownMnemonic name line) ts := by
  rw [read_cons]
  simp only [after, hm]
  rfl

end Statement

/-- Encoding fails with the operands, or else with the label. -/
lemma Mnemonic.encode_eq_error_iff {m : Mnemonic} {labels : Labels} {ts rest : List Token}
    {e : Error} :
    m.encode labels ts = .error e rest ↔
      m.operands ts = .error e rest ∨
        ∃ i, m.operands ts = .ok i rest ∧ i.resolve labels = .error e := by
  rw [encode, Reader.bind_eq_error_iff]
  refine or_congr_right ⟨fun h => ?_, fun h => ?_⟩
  · obtain ⟨i, mid, hi, h⟩ := h
    cases hr : i.resolve labels with
    | ok r =>
        rw [hr] at h
        cases h
    | error e' =>
        rw [hr] at h
        cases h
        exact ⟨i, hi, hr⟩
  · obtain ⟨i, hi, hr⟩ := h
    refine ⟨i, rest, hi, ?_⟩
    rw [hr]
    rfl

/-! ### What a segment leaves in the log -/

namespace Logged

variable {ρ ε α β γ : Type}

/-- The steps of a sequence can be grouped from the left or from the right. -/
lemma bind_assoc (m : Logged ρ ε α) (f : α → Logged ρ ε β) (g : β → Logged ρ ε γ) :
    m >>= f >>= g = m >>= fun a => f a >>= g := by
  cases hm : m.outcome with
  | error e =>
      rw [bind_of_error hm, bind_of_error hm]
      exact bind_of_error rfl g
  | ok a =>
      rw [bind_of_ok hm, bind_of_ok hm]
      cases hf : (f a).outcome with
      | error e =>
          rw [bind_of_error hf]
          exact bind_of_error rfl g
      | ok b =>
          rw [bind_of_ok hf, bind_of_ok rfl, List.append_assoc]

end Logged

namespace Assembly

variable {a b : Assembly} {before segs : List Segment} {seg : Segment} {s : Statement}
  {bs img : List UInt8}

/-- **A step.** A statement that is carried out leaves the record of its segment, as it can be
read off the image, whatever bytes are written later. -/
theorem step_eq (ha : a.Follows before) (hr : seg.Reads s)
    (hbs : seg.Emits (Layout.labels before) bs) (hb : b.image.toList = a.image.toList ++ bs)
    (hbf : b.Follows (before ++ [seg])) (post : List UInt8) :
    a.step s =
      ⟨(seg.record? (b.image.toList ++ post) (Layout.size before)).toList, .ok b⟩ := by
  have hok : (a.step s).outcome = .ok b := (step_eq_ok_iff ha hr).mpr ⟨bs, hbs, hb, hbf⟩
  suffices hrec : (a.step s).records =
      (seg.record? (b.image.toList ++ post) (Layout.size before)).toList by
    rw [← hrec, ← hok]
  cases hr with
  | label name line =>
      rw [step, Logged.bind_outcome_eq_ok_iff] at hok
      obtain ⟨labels, hd, -⟩ := hok
      rw [step, Logged.bind_of_ok hd, here_eq ha]
      rfl
  | data v line => rfl
  | instruction line hm hs =>
      obtain ⟨r, hr, rfl⟩ := (Segment.emits_instruction_iff hm hs).mp hbs
      have hword : Layout.wordAt (b.image.toList ++ post) (Layout.size before) = r.word := by
        rw [hb, List.append_assoc, ← ha.size, ← Image.length_toList]
        exact Layout.wordAt_append _ post _
      rw [← ha.labels] at hr
      rw [step, Logged.bind_of_ok hr, Segment.record?, hm, hword]
      rfl

/-- The rest of an assembly: the tokens that are left are carried out from a state on. -/
def resume (a : Assembly) (ts : List Token) : Logged Record Error Image := do
  let b ← a.run (Program.read ts).statements
  match (Program.read ts).stop with
  | some e => Logged.ofExcept (.error e)
  | none => do
    Logged.record (.assembled b.image.size)
    return b.image

lemma resume_start (ts : List Token) : start.resume ts = assemble ts := rfl

lemma resume_nil : a.resume [] = ⟨[.assembled a.image.size], .ok a.image⟩ := by
  rw [resume, Program.read_nil]
  rfl

/-- A statement is carried out before what follows it. -/
lemma resume_of_ok {ts rest : List Token} (h : Statement.read ts = .ok s rest) :
    a.resume ts = a.step s >>= fun b => b.resume rest := by
  rw [resume, Program.read_of_ok h, run, Logged.bind_assoc]
  rfl

/-- Tokens that are no statement leave nothing in the log. -/
lemma resume_of_error {ts rest : List Token} {e : Error} (hne : ts ≠ [])
    (h : Statement.read ts = .error e rest) : a.resume ts = ⟨[], .error e⟩ := by
  rw [resume, Program.read_of_error hne h]
  rfl

/-- **A run.** Segments that emit bytes leave their records, and the assembly is resumed behind
them. -/
theorem resume_of_emitted (ha : a.Follows before) (h : Layout.Emitted before segs img)
    (hd : (Layout.names (before ++ segs)).Nodup)
    (hroom : a.image.size + img.length ≤ Image.capacity) (rest : List Token) :
    ∃ b : Assembly, b.Follows (before ++ segs) ∧ b.image.toList = a.image.toList ++ img ∧
      a.resume (segs.flatMap Segment.tokens ++ rest) =
        ⟨Layout.records b.image.toList (Layout.size before) segs ++ (b.resume rest).records,
          (b.resume rest).outcome⟩ := by
  induction h generalizing a with
  | nil before =>
      refine ⟨a, ?_, (List.append_nil _).symm, rfl⟩
      rwa [List.append_nil]
  | @cons before segs seg bs img hbs _ ih =>
      have hassoc : before ++ seg :: segs = before ++ [seg] ++ segs := by simp
      rw [List.length_append] at hroom
      rw [hassoc] at hd ⊢
      have hnames : (Layout.names (before ++ [seg])).Nodup := by
        rw [Layout.names_append] at hd
        exact hd.of_append_left
      obtain ⟨c, hc, hcf⟩ := ha.exists_follows hbs.length_eq hnames (by omega)
      obtain ⟨b, hbf, hb, hrun⟩ := ih hcf hd (by rw [size_of_toList hc]; omega)
      refine ⟨b, hbf, by rw [hb, hc, List.append_assoc], ?_⟩
      obtain ⟨s, hs⟩ := hbs.exists_reads
      have hread : Statement.read (seg.tokens ++ (segs.flatMap Segment.tokens ++ rest)) =
          .ok s (segs.flatMap Segment.tokens ++ rest) :=
        Statement.read_eq_ok_iff.mpr ⟨seg, hs, rfl⟩
      have hstep := step_eq ha hs hbs hc hcf img
      rw [← hb] at hstep
      rw [List.flatMap_cons, List.append_assoc, resume_of_ok hread, hstep, Logged.bind_of_ok rfl,
        hrun, Layout.records, Layout.size_concat, List.append_assoc]

/-- A statement that fails ends the assembly, with what it has recorded. -/
lemma resume_of_step {ts rest : List Token} {e : Error} {rs : List Record}
    (h : Statement.read ts = .ok s rest) (hs : a.step s = ⟨rs, .error e⟩) :
    a.resume ts = ⟨rs, .error e⟩ := by
  rw [resume_of_ok h, hs]
  exact Logged.bind_of_error rfl _

lemma step_label_eq_error {name : String} {line : Nat} {w : Word}
    (h : a.labels.find? name = some w) :
    a.step (.label name line) = ⟨[], .error (.duplicateLabel name line)⟩ := by
  rw [step, Labels.declare, h]
  rfl

lemma step_data_eq_error {v : BitVec 8} (h : Image.capacity < a.image.size + 1) :
    a.step (.data v) = ⟨[], .error (.imageFull Image.capacity)⟩ := by
  rw [step, write_eq_error h]
  rfl

/-- A label that is not declared leaves nothing in the log. -/
lemma step_instruction_eq_error_of_resolve {i : Instruction Target} {line : Nat} {e : Error}
    (h : i.resolve a.labels = .error e) : a.step (.instruction i line) = ⟨[], .error e⟩ := by
  rw [step, h]
  rfl

/-- A word for which there is no room is left in the log. -/
lemma step_instruction_eq_error_of_full {i : Instruction Target} {r : Instruction (BitVec 12)}
    {line : Nat} (h : i.resolve a.labels = .ok r) (hfull : Image.capacity < a.image.size + 2) :
    a.step (.instruction i line) =
      ⟨[.encoded line i.mnemonic r.word], .error (.imageFull Image.capacity)⟩ := by
  have hwrite : a.write r.word.bytes = .error (.imageFull Image.capacity) := write_eq_error hfull
  rw [step, Logged.bind_of_ok h]
  simp only [hwrite]
  rfl

/-- **A failure.** Tokens with which an assembly fails leave in the log what is recorded of
them. -/
theorem resume_of_fails (ha : a.Follows segs) {ts : List Token} {e : Error} {rs : List Record}
    (h : Layout.Fails segs ts e rs) : a.resume ts = ⟨rs, .error e⟩ := by
  cases h with
  | @duplicate name line rest hname =>
      have hdeclared : a.labels.find? name ≠ none := by
        rwa [ha.labels, ne_eq, Layout.find?_labels_eq_none_iff, not_not]
      obtain ⟨w, hw⟩ := Option.ne_none_iff_exists'.mp hdeclared
      exact resume_of_step rfl (step_label_eq_error hw)
  | dataFull hfull =>
      rw [← ha.size] at hfull
      exact resume_of_step rfl (step_data_eq_error hfull)
  | @stray t rest hkind =>
      obtain ⟨l, line⟩ := t
      cases l <;> first
        | exact resume_of_error (List.cons_ne_nil _ _) rfl
        | simp [Token.kind, Lexeme.kind] at hkind
  | unknown hm =>
      exact resume_of_error (List.cons_ne_nil _ _) (Statement.read_instruction_of_none hm)
  | refused hm hw =>
      rcases Mnemonic.encode_eq_error_iff.mp hw with hops | ⟨i, hi, hr⟩
      · exact resume_of_error (List.cons_ne_nil _ _) (Statement.read_instruction_of_error hm hops)
      · rw [← ha.labels] at hr
        exact resume_of_step (Statement.read_instruction_of_ok hm hi)
          (step_instruction_eq_error_of_resolve hr)
  | wordFull hm hw hfull =>
      obtain ⟨i, r, hi, hr, rfl⟩ := Mnemonic.encode_eq_ok_iff_resolve.mp hw
      obtain ⟨-, -, rfl, -⟩ := Mnemonic.operands_eq_ok_iff.mp hi
      rw [← ha.labels] at hr
      rw [← ha.size] at hfull
      exact resume_of_step (Statement.read_instruction_of_ok hm hi)
        (step_instruction_eq_error_of_full hr hfull)

end Assembly

/-! ### The log of an assembly -/

section

variable {ts : List Token} {segs : List Segment} {img : List UInt8} {rs : List Record} {i : Image}
  {e : Error}

/-- The records of a layout come first, whatever follows it. -/
lemma assemble_append_of_isLayout (h : IsLayout (segs.flatMap Segment.tokens) segs img)
    (rest : List Token) :
    ∃ a : Assembly, a.Follows segs ∧ a.image.toList = img ∧
      assemble (segs.flatMap Segment.tokens ++ rest) =
        ⟨Layout.records img 0 segs ++ (a.resume rest).records, (a.resume rest).outcome⟩ := by
  have hroom : Image.empty.size + img.length ≤ Image.capacity := by
    rw [h.emitted.length_eq]
    exact (Nat.zero_add _).trans_le h.fits
  obtain ⟨a, haf, hai, hrun⟩ :=
    Assembly.resume_of_emitted Assembly.follows_start h.emitted h.distinct hroom rest
  obtain rfl : a.image.toList = img := hai
  rw [Assembly.resume_start] at hrun
  exact ⟨a, haf, rfl, hrun⟩

/-- An assembly that succeeds leaves the records of the layout, and the size of the image. -/
lemma assemble_of_isLayout_traced (h : IsLayout ts segs i.toList) :
    assemble ts = ⟨Layout.records i.toList 0 segs ++ [.assembled i.size], .ok i⟩ := by
  obtain rfl := h.tokens
  obtain ⟨a, -, hai, hrun⟩ := assemble_append_of_isLayout h []
  rw [Assembly.resume_nil, Image.eq_of_toList_eq hai, List.append_nil] at hrun
  exact hrun

/-- An assembly that fails leaves the records of the layout before the tokens that fail, and what
is recorded of these. -/
lemma assemble_of_fails {rest : List Token} (h : IsLayout (segs.flatMap Segment.tokens) segs img)
    (hf : Layout.Fails segs rest e rs) :
    assemble (segs.flatMap Segment.tokens ++ rest) =
      ⟨Layout.records img 0 segs ++ rs, .error e⟩ := by
  obtain ⟨a, haf, -, hrun⟩ := assemble_append_of_isLayout h rest
  rw [hrun, Assembly.resume_of_fails haf hf]

/-- **The log of a failure.** An assembly fails if and only if its tokens are a layout and tokens
that fail behind it, and this is its log. -/
theorem assemble_eq_failure_iff :
    assemble ts = ⟨rs, .error e⟩ ↔
      ∃ segs img rest last, ts = segs.flatMap Segment.tokens ++ rest ∧
        IsLayout (segs.flatMap Segment.tokens) segs img ∧ Layout.Fails segs rest e last ∧
        rs = Layout.records img 0 segs ++ last := by
  refine ⟨fun h => ?_, fun h => ?_⟩
  · obtain ⟨segs, img, rest, rfl, hlay, rfl | ⟨e', last, hf⟩⟩ := Layout.exists_layout ts
    · obtain ⟨i, hi, -⟩ := assemble_of_isLayout hlay
      rw [List.append_nil] at h
      rw [h] at hi
      cases hi
    · rw [assemble_of_fails hlay hf] at h
      cases h
      exact ⟨segs, img, rest, last, rfl, hlay, hf, rfl⟩
  · obtain ⟨segs, img, rest, last, rfl, hlay, hf, rfl⟩ := h
    exact assemble_of_fails hlay hf

end

namespace Layout

/-- The records of segments do not say that an image is finished. -/
lemma assembled_not_mem_records (img : List UInt8) (offset : Nat) (segs : List Segment) (n : Nat) :
    .assembled n ∉ records img offset segs := by
  induction segs generalizing offset with
  | nil => simp [records]
  | cons s segs ih =>
      rw [records, List.mem_append, not_or]
      refine ⟨?_, ih _⟩
      cases s <;> simp [Segment.record?]

/-- Something is recorded of the tokens that fail if and only if they are an instruction and the
failure is for the size of the image. -/
lemma Fails.ne_nil_iff {segs : List Segment} {ts : List Token} {e : Error} {rs : List Record}
    (h : Fails segs ts e rs) :
    rs ≠ [] ↔ e = .imageFull 4096 ∧ ∃ name line us, ts = ⟨.instruction name, line⟩ :: us := by
  cases h with
  | duplicate | dataFull | stray | unknown => simp
  | refused hm hw =>
      refine ⟨fun hrs => absurd rfl hrs, fun h => ?_⟩
      obtain ⟨rfl, -⟩ := h
      rcases Mnemonic.isOfOperand_of_encode hw with he | he
      · cases he
      · cases he
  | wordFull => simp

lemma Fails.assembled_not_mem {segs : List Segment} {ts : List Token} {e : Error}
    {rs : List Record} (h : Fails segs ts e rs) (n : Nat) : .assembled n ∉ rs := by
  cases h <;> simp

end Layout

namespace Source

/-- Reading the tokens of a text leaves their number in the log. -/
lemma read_of_tokens {text : String} {ts : List Token} (h : tokens text = .ok ts) :
    read text = ⟨[.lexed ts.length], .ok ts⟩ := by
  rw [read, Logged.bind_of_ok h]
  rfl

/-- A text that cannot be read leaves nothing in the log. -/
lemma read_of_tokens_error {text : String} {e : Error} (h : tokens text = .error e) :
    read text = ⟨[], .error e⟩ := by
  rw [read, Logged.bind_of_error h]
  rfl

lemma assemble_of_tokens {text : String} {ts : List Token} (h : tokens text = .ok ts) :
    assemble text = ⟨.lexed ts.length :: (Chip8.assemble ts).records,
      (Chip8.assemble ts).outcome⟩ := by
  rw [assemble, read_of_tokens h]
  exact Logged.bind_of_ok rfl _

lemma assemble_of_tokens_error {text : String} {e : Error} (h : tokens text = .error e) :
    assemble text = ⟨[], .error e⟩ := by
  rw [assemble, read_of_tokens_error h]
  exact Logged.bind_of_error rfl _

/-- **The log traces the assembly.** A text that cannot be read leaves no record. For any other the
first record is the number of its tokens. The tokens are those of a layout and a rest: the records
of the segments follow, in order, each label with its address and each instruction with the word
in its place of the image. If there is no rest, the last record is the size of the image. If there
is, the assembly fails with it, and there is one more record exactly if the rest begins with an
instruction whose word does not fit. The size of the image is on record if and only if the assembly
succeeds. The text of every record says what it records. -/
theorem assemble_traced (text : String) :
    (∀ e, tokens text = .error e → assemble text = ⟨[], .error e⟩) ∧
    (∀ ts, tokens text = .ok ts → ∃ segs img rest, ts = segs.flatMap Segment.tokens ++ rest ∧
      IsLayout (segs.flatMap Segment.tokens) segs img ∧
      ((rest = [] ∧ ∃ i, i.toList = img ∧ assemble text =
          ⟨.lexed ts.length :: (Layout.records img 0 segs ++ [.assembled img.length]), .ok i⟩) ∨
        ∃ e last, Layout.Fails segs rest e last ∧
          (last ≠ [] ↔ e = .imageFull 4096 ∧
            ∃ name line us, rest = ⟨.instruction name, line⟩ :: us) ∧
          assemble text =
            ⟨.lexed ts.length :: (Layout.records img 0 segs ++ last), .error e⟩)) ∧
    (∀ n, .assembled n ∈ (assemble text).records ↔
      ∃ i, (assemble text).outcome = .ok i ∧ i.size = n) ∧
    ∀ r ∈ (assemble text).records, r.Says r.message := by
  cases htext : tokens text with
  | error e =>
      have herror := assemble_of_tokens_error htext
      refine ⟨?_, fun ts h => (by cases h), fun n => ?_, fun r _ => r.says_message⟩
      · rintro _ ⟨⟩
        exact herror
      · simp [herror]
  | ok ts =>
      have hlexed := assemble_of_tokens htext
      obtain ⟨segs, img, rest, rfl, hlay, hrest⟩ := Layout.exists_layout ts
      refine ⟨fun e h => (by cases h), ?_, ?_, fun r _ => r.says_message⟩
      · rintro _ ⟨⟩
        refine ⟨segs, img, rest, rfl, hlay, ?_⟩
        rcases hrest with rfl | ⟨e, last, hf⟩
        · obtain ⟨i, -, rfl⟩ := assemble_of_isLayout hlay
          rw [List.append_nil] at hlexed ⊢
          rw [assemble_of_isLayout_traced hlay] at hlexed
          exact .inl ⟨rfl, i, rfl, hlexed⟩
        · rw [assemble_of_fails hlay hf] at hlexed
          exact .inr ⟨e, last, hf, hf.ne_nil_iff, hlexed⟩
      · intro n
        rcases hrest with rfl | ⟨e, last, hf⟩
        · obtain ⟨i, -, rfl⟩ := assemble_of_isLayout hlay
          rw [List.append_nil, assemble_of_isLayout_traced hlay] at hlexed
          simp [hlexed, Layout.assembled_not_mem_records, eq_comm]
        · rw [assemble_of_fails hlay hf] at hlexed
          simp [hlexed, Layout.assembled_not_mem_records, hf.assembled_not_mem]

end Source

end Chip8
