/-
Programs without labels.

A label is a name for an address. If every reference to a label is replaced by the address as a
literal, the declarations can be left out, and the program is assembled to the same image. The
two programs have different tokens, but their segments correspond: a declaration fills no bytes,
and a literal with the address of a label has the same low twelve bits as the label itself.

Whether a name is a label is decided by its place: `LD I, I` refers to a label in its second
operand only. The place is that of the row of the opcode table that the operands match.

* `Slot.spellOut`: an operand with the address written out, if it is a label.
* `Row.of?`: the row that the operands of an instruction match.
* `Segment.withoutLabels`, `Layout.withoutLabels`: a segment without its labels, and a program.
* `Row.Matches.spellOut`, `Row.Encodes.spellOut`: with the addresses written out the operands
  match the same row, and the row says the same word, whatever labels are declared.
* `Layout.Emitted.withoutLabels`: the bytes of segments without labels are the same.
* `assemble_withoutLabels`: **labels can be eliminated**. A program that is assembled gives the
  same image without labels.
-/
import Mathlib.Tactic
import Chip8.Proofs.LabelAddress

namespace Chip8

/-! ### Addresses written out -/

/-- An operand with the address written out: a name in the place of an address becomes a literal
with its address. Everything else stays as it is, special names in other places included. -/
def Slot.spellOut (address : String → Nat) : Slot → Token → Token
  | .address, ⟨.name label, line⟩ => ⟨.literal (BitVec.ofNat 64 (address label)), line⟩
  | _, t => t

instance Slot.decidableAdmits (s : Slot) (l : Lexeme) : Decidable (s.Admits l) :=
  match s with
  | .vx | .vy => decidable_of_iff (l.kind = .register) Lexeme.kind_eq_register_iff
  | .v0 => decidable_of_iff (l.kind = .register ∧ l.nibble = 0#4)
      (Slot.admits_v0_iff (t := ⟨l, 0⟩)).symm
  | .byte | .nibble => decidable_of_iff (l.kind = .literal) Lexeme.kind_eq_literal_iff
  | .address => decidable_of_iff (l.kind ∈ [Kind.name, .literal])
      (Slot.admits_address_iff (t := ⟨l, 0⟩)).symm
  | .special name => inferInstanceAs (Decidable (l = .name name))

instance Row.decidableMatches (row : Row) (ops : List Token) : Decidable (row.Matches ops) :=
  inferInstanceAs (Decidable (List.Forall₂ _ _ _))

/-- The row of the table that an instruction matches with its operands. -/
def Row.of? (name : String) (ops : List Token) : Option Row :=
  opcodeTable.find? fun row => Mnemonic.ofName? name = some row.mnemonic ∧ row.Matches ops

/-- The operands of a row with the addresses written out. -/
def Row.spellOut (address : String → Nat) (row : Row) (ops : List Token) : List Token :=
  row.slots.zipWith (Slot.spellOut address) ops

/-- A segment without labels. A declaration disappears, and an instruction has its addresses
written out. -/
def Segment.withoutLabels (address : String → Nat) : Segment → Option Segment
  | .label _ _ => none
  | .data v line => some (.data v line)
  | .instruction name line ops =>
    some (.instruction name line (((Row.of? name ops).map fun row =>
      row.spellOut address ops).getD ops))

/-- The segments of a program without labels, every label being replaced by its address in the
program. -/
def Layout.withoutLabels (segs : List Segment) : List Segment :=
  segs.filterMap (Segment.withoutLabels (address segs))

/-! ### Operands with the address written out -/

section

variable {address : String → Nat} {labels labels' : Labels} {w : Word}

/-- The labels of a table stand for given addresses. -/
def Labels.StandFor (labels : Labels) (address : String → Nat) : Prop :=
  ∀ label a, labels.find? label = some a → a = BitVec.ofNat 16 (address label)

namespace Slot

variable {s : Slot} {t : Token}

lemma spellOut_of_ne_name (h : ∀ label, t.lexeme ≠ .name label) : s.spellOut address t = t := by
  obtain ⟨l, line⟩ := t
  cases s <;> cases l <;> first | rfl | exact absurd rfl (h _)

lemma spellOut_of_ne_address (h : s ≠ .address) : s.spellOut address t = t := by
  cases s <;> first | rfl | exact absurd rfl h

/-- Where a name may be a label, a literal may stand as well. -/
lemma Admits.spellOut (h : s.Admits t.lexeme) : s.Admits (s.spellOut address t).lexeme := by
  by_cases hs : s = .address
  · subst hs
    obtain ⟨l, line⟩ := t
    rcases h with ⟨v, rfl⟩ | ⟨label, rfl⟩
    · exact .inl ⟨v, rfl⟩
    · exact .inl ⟨_, rfl⟩
  · rwa [spellOut_of_ne_address hs]

/-- An operand that is no name stands for its number whatever labels are declared. -/
lemma number?_eq_of_ne_name {l : Lexeme} (h : ∀ label, l ≠ .name label) :
    l.number? labels = l.number? labels' := by
  cases l <;> first | rfl | exact absurd rfl (h _)

/-- An operand that fills a field is a name only in the place of an address. -/
lemma Admits.ne_name {f : Field} (h : s.Admits t.lexeme) (hf : s.field? = some f)
    (hs : s ≠ .address) (label : String) : t.lexeme ≠ .name label := by
  intro hname
  rw [hname] at h
  cases s <;> simp_all [Admits, field?]

/-- The literal of an address fills the place of the label: the low twelve bits are the same. -/
lemma Fills.spellOut (h : s.Fills labels w t) (ha : s.Admits t.lexeme)
    (hl : labels.StandFor address) : s.Fills labels' w (s.spellOut address t) := by
  intro f hf
  obtain ⟨v, hv, hread⟩ := h f hf
  by_cases hname : ∃ label, t.lexeme = .name label
  · obtain ⟨label, hname⟩ := hname
    have hs : s = .address := by
      by_contra hs
      exact ha.ne_name hf hs label hname
    subst hs
    obtain rfl : .nnn = f := Option.some.inj hf
    obtain ⟨l, line⟩ := t
    obtain rfl : l = .name label := hname
    obtain ⟨a, hfind, rfl⟩ := Option.map_eq_some_iff.mp hv
    refine ⟨_, rfl, ?_⟩
    rw [hread, hl label a hfind]
    simp only [BitVec.toNat_ofNat, Field.width]
    omega
  · push Not at hname
    rw [spellOut_of_ne_name hname]
    exact ⟨v, by rw [← hv]; exact number?_eq_of_ne_name hname, hread⟩

end Slot

namespace Row

variable {row : Row} {ops : List Token}

lemma forall₂_spellOut {P Q : Slot → Token → Prop} {slots : List Slot}
    (h : List.Forall₂ P slots ops) (hPQ : ∀ s t, P s t → Q s (s.spellOut address t)) :
    List.Forall₂ Q slots (slots.zipWith (Slot.spellOut address) ops) := by
  induction h with
  | nil => exact .nil
  | cons hst _ ih => exact .cons (hPQ _ _ hst) ih

/-- With the addresses written out the operands match the same row. -/
lemma Matches.spellOut (h : row.Matches ops) : row.Matches (row.spellOut address ops) :=
  forall₂_spellOut h fun _ _ => Slot.Admits.spellOut

/-- With the addresses written out the row says the same word, whatever labels are declared. -/
lemma Encodes.spellOut (h : row.Encodes labels ops w) (hops : row.Matches ops)
    (hl : labels.StandFor address) : row.Encodes labels' (row.spellOut address ops) w := by
  refine ⟨?_, h.fixed⟩
  have hboth : List.Forall₂ (fun s t => s.Admits t.lexeme ∧ s.Fills labels w t) row.slots ops :=
    List.Forall₂.mp (fun _ _ ha hf => ⟨ha, hf⟩) hops h.fills
  exact forall₂_spellOut hboth fun s t hst => hst.2.spellOut hst.1 hl

/-- The row of an instruction is found by its operands. -/
lemma of?_eq_some {name : String} (hrow : row ∈ opcodeTable)
    (hm : Mnemonic.ofName? name = some row.mnemonic) (hops : row.Matches ops) :
    of? name ops = some row := by
  cases hfind : of? name ops with
  | none =>
      have hnone := List.find?_eq_none.mp hfind row hrow
      simp [hm, hops] at hnone
  | some row' =>
      have hrow' : row' ∈ opcodeTable := List.mem_of_find?_eq_some hfind
      obtain ⟨hm', hops'⟩ : Mnemonic.ofName? name = some row'.mnemonic ∧ row'.Matches ops := by
        simpa using List.find?_some hfind
      rw [hm] at hm'
      rw [eq_of_matches hrow hrow' (Option.some.inj hm') hops hops']

/-- No address is a label once it is written out. -/
lemma address_name_not_mem_zip {slots : List Slot} {label : String} {line : Nat} :
    (Slot.address, ⟨.name label, line⟩) ∉
      slots.zip (slots.zipWith (Slot.spellOut address) ops) := by
  induction slots generalizing ops with
  | nil => simp
  | cons s slots ih =>
      cases ops with
      | nil => simp
      | cons t ops =>
          simp only [List.zipWith_cons_cons, List.zip_cons_cons, List.mem_cons, not_or]
          refine ⟨fun heq => ?_, ih⟩
          obtain ⟨rfl, ht⟩ := Prod.mk.inj heq
          obtain ⟨l, line'⟩ := t
          cases l <;> cases ht

end Row

/-! ### Segments and programs without labels -/

namespace Segment

variable {seg : Segment} {bs : List UInt8}

/-- An instruction without labels: the operands of its row with the addresses written out. -/
lemma withoutLabels_instruction {name : String} {line : Nat} {ops : List Token} {row : Row}
    (hrow : row ∈ opcodeTable) (hm : Mnemonic.ofName? name = some row.mnemonic)
    (hops : row.Matches ops) :
    withoutLabels address (.instruction name line ops) =
      some (.instruction name line (row.spellOut address ops)) := by
  rw [withoutLabels, Row.of?_eq_some hrow hm hops]
  rfl

/-- The row of an instruction that emits a word. -/
lemma Emits.exists_row {name : String} {line : Nat} {ops : List Token}
    (h : Emits labels (.instruction name line ops) bs) :
    ∃ row ∈ opcodeTable, Mnemonic.ofName? name = some row.mnemonic ∧ row.Matches ops ∧
      ∃ w, row.Encodes labels ops w ∧ bs = w.bytes := by
  obtain ⟨s, hr⟩ := h.exists_reads
  obtain _ | _ | @⟨_, _, i, _, hm, hs⟩ := hr
  have hrow : i.form.row ∈ opcodeTable := Form.mem_opcodeTable_iff.mpr ⟨_, rfl⟩
  rw [← i.form_row_mnemonic] at hm
  exact ⟨_, hrow, hm, hs.matches, Row.exists_encodes_of_emits hrow hm hs.matches h⟩

/-- **A segment without labels emits the same bytes**, whatever labels are declared, and a
segment that disappears emits none. -/
theorem Emits.withoutLabels (h : seg.Emits labels bs) (hl : labels.StandFor address) :
    (seg.withoutLabels address = none ∧ bs = []) ∨
      ∃ seg', seg.withoutLabels address = some seg' ∧ (∀ labels', seg'.Emits labels' bs) ∧
        seg'.name? = none ∧ ∀ label, ¬ seg'.RefersTo label := by
  cases seg with
  | label name line =>
      cases h
      exact .inl ⟨rfl, rfl⟩
  | data v line =>
      cases h
      exact .inr ⟨_, rfl, fun _ => .data v line, rfl, fun _ => id⟩
  | instruction name line ops =>
      obtain ⟨row, hrow, hm, hops, w, hw, rfl⟩ := h.exists_row
      have hops' : row.Matches (row.spellOut address ops) := hops.spellOut
      refine .inr ⟨_, withoutLabels_instruction hrow hm hops, fun labels' => ?_, rfl, ?_⟩
      · exact (hw.spellOut hops hl).emits hrow hm hops'
      · rintro label ⟨row', hrow', hm', hops'', line', hmem⟩
        rw [hm] at hm'
        obtain rfl := Row.eq_of_matches hrow hrow' (Option.some.inj hm') hops' hops''
        exact Row.address_name_not_mem_zip hmem

end Segment

end

namespace Layout

variable {before segs : List Segment} {img : List UInt8}

/-- Labels declared so far stand for their addresses in the whole program. -/
lemma standFor_address {after : List Segment} (hd : (names (before ++ after)).Nodup) :
    (labels before).StandFor (address (before ++ after)) :=
  fun _ _ h => eq_address_of_find?_labels hd h

/-- **The bytes of a program without labels**: what is left of the segments emits the same
bytes, whatever stands before it. -/
theorem Emitted.withoutLabels (h : Emitted before segs img)
    (hd : (names (before ++ segs)).Nodup) (front : List Segment) :
    Emitted front (segs.filterMap (Segment.withoutLabels (address (before ++ segs)))) img := by
  induction h generalizing front with
  | nil before => exact .nil front
  | @cons before rest s bs img hs _ ih =>
      have hassoc : before ++ s :: rest = before ++ [s] ++ rest := by simp
      have hrest := ih (by rwa [← hassoc])
      rw [← hassoc] at hrest
      rcases hs.withoutLabels (standFor_address hd) with ⟨hnone, rfl⟩ | ⟨s', hsome, hs', -⟩
      · rw [List.filterMap_cons_none hnone]
        exact hrest front
      · rw [List.filterMap_cons_some hsome]
        exact .cons (hs' _) (hrest _)

/-- What is left of a program without labels declares no label and refers to none. -/
lemma Emitted.of_mem_withoutLabels (h : Emitted before segs img)
    (hd : (names (before ++ segs)).Nodup) {seg' : Segment}
    (hmem : seg' ∈ segs.filterMap (Segment.withoutLabels (address (before ++ segs)))) :
    seg'.name? = none ∧ ∀ label, ¬ seg'.RefersTo label := by
  induction h with
  | nil before => cases hmem
  | @cons before rest s bs img hs _ ih =>
      have hassoc : before ++ s :: rest = before ++ [s] ++ rest := by simp
      rw [← hassoc] at ih
      rcases hs.withoutLabels (standFor_address hd) with ⟨hnone, -⟩ | ⟨s', hsome, -, hs'⟩
      · rw [List.filterMap_cons_none hnone] at hmem
        exact ih hd hmem
      · rw [List.filterMap_cons_some hsome] at hmem
        rcases List.mem_cons.mp hmem with rfl | hmem
        · exact hs'
        · exact ih hd hmem

end Layout

/-- **Labels can be eliminated.** A token list that is assembled has a layout. If the declarations
are taken out of it and the address of every label is written where the label is referred to, then
no label is left, and the tokens are assembled to the same image. -/
theorem assemble_withoutLabels {ts : List Token} {i : Image}
    (h : (assemble ts).outcome = .ok i) :
    ∃ segs, IsLayout ts segs i.toList ∧
      (∀ seg ∈ Layout.withoutLabels segs, seg.name? = none ∧ ∀ label, ¬ seg.RefersTo label) ∧
      (assemble ((Layout.withoutLabels segs).flatMap Segment.tokens)).outcome = .ok i := by
  obtain ⟨segs, hlay⟩ := exists_isLayout_of_assemble h
  have hfree : ∀ seg ∈ Layout.withoutLabels segs,
      seg.name? = none ∧ ∀ label, ¬ seg.RefersTo label :=
    fun seg hseg => hlay.emitted.of_mem_withoutLabels hlay.distinct hseg
  have hemitted : Layout.Emitted [] (Layout.withoutLabels segs) i.toList :=
    hlay.emitted.withoutLabels hlay.distinct []
  have hnames : Layout.names (Layout.withoutLabels segs) = [] :=
    List.filterMap_eq_nil_iff.mpr fun seg hseg => (hfree seg hseg).1
  have hsize : Layout.size (Layout.withoutLabels segs) ≤ 4096 := by
    calc Layout.size (Layout.withoutLabels segs)
        = i.toList.length := hemitted.length_eq.symm
      _ = Layout.size segs := hlay.emitted.length_eq
      _ ≤ 4096 := hlay.fits
  have hnew : IsLayout ((Layout.withoutLabels segs).flatMap Segment.tokens)
      (Layout.withoutLabels segs) i.toList :=
    ⟨rfl, by rw [hnames]; exact .nil, hemitted, hsize⟩
  obtain ⟨j, hj, hji⟩ := assemble_of_isLayout hnew
  refine ⟨segs, hlay, hfree, ?_⟩
  rw [hj, Image.eq_of_toList_eq hji]

/-- A byte of data, a label with the name of the index register, and an instruction that loads
the one into the other. -/
def loadsIndexLabel : List Segment :=
  [.data 0x42#64 1, .label "I" 2, .instruction "LD" 3 [⟨.name "I", 3⟩, ⟨.name "I", 3⟩]]

/-- Of the two names in `LD I, I` only the second is a label. It can be eliminated, and the image
has the address `0x201`. -/
theorem assemble_withoutLabels_index :
    Layout.withoutLabels loadsIndexLabel =
      [.data 0x42#64 1, .instruction "LD" 3 [⟨.name "I", 3⟩, ⟨.literal 0x201#64, 3⟩]] ∧
    (assemble (loadsIndexLabel.flatMap Segment.tokens)).outcome =
      .ok ⟨#[0x42, 0xA2, 0x01], by decide⟩ ∧
    ∃ segs, IsLayout (loadsIndexLabel.flatMap Segment.tokens) segs [0x42, 0xA2, 0x01] ∧
      (∀ seg ∈ Layout.withoutLabels segs, seg.name? = none ∧ ∀ label, ¬ seg.RefersTo label) ∧
      (assemble ((Layout.withoutLabels segs).flatMap Segment.tokens)).outcome =
        .ok ⟨#[0x42, 0xA2, 0x01], by decide⟩ := by
  have h : (assemble (loadsIndexLabel.flatMap Segment.tokens)).outcome =
      .ok ⟨#[0x42, 0xA2, 0x01], by decide⟩ := by decide +kernel
  exact ⟨by decide +kernel, h, assemble_withoutLabels h⟩

end Chip8
