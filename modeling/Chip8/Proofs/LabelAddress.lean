/-
The addresses that label references encode.

A label stands for the load address plus the number of bytes before its declaration.
An instruction that refers to it has twelve bits for the address, and the address space
has no more; but an image may fill as many bytes as the whole address space has, from
the load address on, so a label close to the end of a long image stands for a number
that needs a thirteenth bit.

* `Layout.DeclaresAt`, `Layout.RefersAt`: the offsets where a label is declared and where
  an instruction refers to it.
* `Layout.wordAt`: the word at an offset of an image.
* `Layout.find?_labels_of_declaresAt`: the number that a label stands for.
* `Layout.address`, `Layout.eq_address_of_find?_labels`: the address of a label in a program,
  and that it does not depend on what follows the declaration.
* `IsLayout.read_wordAt`: the address field of a reference.
* `label_reference_address`: **a reference encodes the address of its label modulo 4096**.
  It is the address itself exactly if the label is declared below the offset `0xE00`, and
  labels at different offsets are told apart in any case.
* `label_reference_wraps`: a reference to a label at `0xE00` encodes the address zero.
-/
import Mathlib.Tactic
import Chip8.Proofs.OpcodeTable
import Chip8.Proofs.Layout

namespace Chip8

/-! ### Declarations and references -/

/-- An instruction refers to a label: its operands match a row of the table, and where
the row has an address stands the name. -/
def Segment.RefersTo (label : String) : Segment → Prop
  | .label _ _ | .data _ _ => False
  | .instruction name _ ops => ∃ row ∈ opcodeTable, Mnemonic.ofName? name = some row.mnemonic ∧
      row.Matches ops ∧ ∃ line, (Slot.address, ⟨.name label, line⟩) ∈ row.slots.zip ops

namespace Layout

/-- A label is declared at an offset of the image. -/
def DeclaresAt (segs : List Segment) (label : String) (offset : Nat) : Prop :=
  ∃ before line after, segs = before ++ .label label line :: after ∧ size before = offset

/-- The instruction at an offset of the image refers to a label. -/
def RefersAt (segs : List Segment) (label : String) (offset : Nat) : Prop :=
  ∃ before s after, segs = before ++ s :: after ∧ s.RefersTo label ∧ size before = offset

/-- The word at an offset of an image, the high byte first. -/
def wordAt (img : List UInt8) (offset : Nat) : Word :=
  BitVec.ofNat 16 ((img.getD offset 0).toNat * 256 + (img.getD (offset + 1) 0).toNat)

variable {before after segs : List Segment} {label : String} {k : Nat}

lemma DeclaresAt.append_right (h : DeclaresAt segs label k) (after : List Segment) :
    DeclaresAt (segs ++ after) label k := by
  obtain ⟨before, line, rest, rfl, hk⟩ := h
  exact ⟨before, line, rest ++ after, by simp, hk⟩

lemma DeclaresAt.le_size (h : DeclaresAt segs label k) : k ≤ size segs := by
  obtain ⟨before, line, rest, rfl, rfl⟩ := h
  rw [size_append]
  exact Nat.le_add_right _ _

/-- Names are declared somewhere. -/
lemma exists_declaresAt_of_mem_names (h : label ∈ names segs) : ∃ k, DeclaresAt segs label k := by
  obtain ⟨s, hs, hname⟩ := List.mem_filterMap.mp h
  obtain ⟨before, after, rfl⟩ := List.append_of_mem hs
  cases s with
  | label name line =>
      obtain rfl : name = label := Option.some.inj hname
      exact ⟨size before, before, line, after, rfl, rfl⟩
  | data v line => cases hname
  | instruction name line ops => cases hname

/-- No segment before its declaration has the name of a label. -/
lemma not_mem_names_before {line : Nat}
    (hd : (names (before ++ .label label line :: after)).Nodup) :
    label ∉ names before := by
  intro hmem
  have hone : label ∈ names (.label label line :: after) := by simp [Segment.name?]
  rw [names_append] at hd
  exact List.disjoint_of_nodup_append hd hmem hone

/-- A label stands for the load address plus the offset of its declaration. -/
lemma find?_labels_of_declaresAt (hd : (names segs).Nodup) (h : DeclaresAt segs label k) :
    (labels segs).find? label = some (BitVec.ofNat 16 (0x200 + k)) := by
  obtain ⟨before, line, after, rfl, rfl⟩ := h
  -- no segment before the declaration has the name, so looking up stops there
  have hnew : (labels before).find? label = none :=
    find?_labels_eq_none_iff.mpr (not_mem_names_before hd)
  rw [labels, Labels.find?] at hnew ⊢
  rw [declarations_append, List.lookup_append, hnew, Option.none_or, Nat.zero_add]
  simp [declarations, Segment.name?]

/-- A label is declared at one offset only. -/
lemma DeclaresAt.unique {k' : Nat} (hd : (names segs).Nodup) (hfits : size segs ≤ 4096)
    (h : DeclaresAt segs label k) (h' : DeclaresAt segs label k') : k = k' := by
  have hk := h.le_size
  have hk' := h'.le_size
  have hsame := (find?_labels_of_declaresAt hd h).symm.trans (find?_labels_of_declaresAt hd h')
  have hmod := congrArg BitVec.toNat (Option.some.inj hsame)
  simp only [BitVec.toNat_ofNat] at hmod
  omega

/-- The address of a label: the load address plus the number of bytes before its
declaration. -/
def address (segs : List Segment) (label : String) : Nat :=
  0x200 + size (segs.takeWhile (·.name? != some label))

lemma address_of_declaresAt (hd : (names segs).Nodup) (h : DeclaresAt segs label k) :
    address segs label = 0x200 + k := by
  obtain ⟨before, line, after, rfl, rfl⟩ := h
  have hbefore : ∀ s ∈ before, (s.name? != some label) = true := by
    intro s hs
    refine bne_iff_ne.mpr fun hname => ?_
    exact not_mem_names_before hd (List.mem_filterMap.mpr ⟨s, hs, hname⟩)
  have htake : (before ++ .label label line :: after).takeWhile (·.name? != some label) =
      before := by
    rw [List.takeWhile_append_of_pos hbefore]
    simp [Segment.name?]
  rw [address, htake]

/-- A label in the table stands for its address, whatever segments come later. -/
lemma eq_address_of_find?_labels {a : Word} (hd : (names (segs ++ after)).Nodup)
    (h : (labels segs).find? label = some a) :
    a = BitVec.ofNat 16 (address (segs ++ after) label) := by
  have hdist : (names segs).Nodup := by
    rw [names_append] at hd
    exact hd.of_append_left
  have hname : label ∈ names segs := by
    by_contra hnot
    rw [find?_labels_eq_none_iff.mpr hnot] at h
    cases h
  obtain ⟨k, hk⟩ := exists_declaresAt_of_mem_names hname
  rw [find?_labels_of_declaresAt hdist hk] at h
  rw [address_of_declaresAt hd (hk.append_right after), ← Option.some.inj h]

/-! ### The word of an instruction in the image -/

/-- The bytes of consecutive segments are consecutive. -/
lemma emitted_append_iff {img : List UInt8} :
    Emitted before (segs ++ after) img ↔
      ∃ bs rest, Emitted before segs bs ∧ Emitted (before ++ segs) after rest ∧
        bs ++ rest = img := by
  induction segs generalizing before img with
  | nil =>
      rw [List.append_nil]
      refine ⟨fun h => ⟨[], img, .nil before, h, rfl⟩, fun h => ?_⟩
      obtain ⟨bs, rest, hbs, hrest, rfl⟩ := h
      cases hbs
      exact hrest
  | cons s segs ih =>
      have hassoc : before ++ [s] ++ segs = before ++ s :: segs := by simp
      refine ⟨fun h => ?_, fun h => ?_⟩
      · obtain _ | @⟨_, _, _, b, img, hs, hr⟩ := h
        obtain ⟨bs, rest, hsegs, hafter, rfl⟩ := ih.mp hr
        rw [hassoc] at hafter
        exact ⟨b ++ bs, rest, .cons hs hsegs, hafter, List.append_assoc _ _ _⟩
      · obtain ⟨bs, rest, hbs, hafter, rfl⟩ := h
        obtain _ | @⟨_, _, _, b, bs, hs, hsegs⟩ := hbs
        rw [← hassoc] at hafter
        rw [List.append_assoc]
        exact .cons hs (ih.mpr ⟨bs, rest, hsegs, hafter, rfl⟩)

/-- The bytes of one segment stand behind those of the segments before it. -/
lemma Emitted.exists_split {front : List Segment} {s : Segment} {img : List UInt8}
    (h : Emitted front (before ++ s :: after) img) :
    ∃ pre bs post, s.Emits (labels (front ++ before)) bs ∧ pre.length = size before ∧
      pre ++ (bs ++ post) = img := by
  obtain ⟨pre, rest, hpre, hrest, rfl⟩ := emitted_append_iff.mp h
  obtain _ | @⟨_, _, _, bs, post, hbs, -⟩ := hrest
  exact ⟨pre, bs, post, hbs, hpre.length_eq, rfl⟩

lemma wordAt_append (pre post : List UInt8) (w : Word) :
    wordAt (pre ++ (w.bytes ++ post)) pre.length = w := by
  have hw : w.toNat < 65536 := w.isLt
  have hhigh : ((pre ++ (w.bytes ++ post)).getD pre.length 0).toNat = w.toNat / 256 := by
    simp only [Word.bytes_eq_ofNat, List.getD_eq_getElem?_getD]
    rw [List.getElem?_append_right (Nat.le_refl _), Nat.sub_self]
    simp only [List.cons_append, List.getElem?_cons_zero, Option.getD_some, UInt8.toNat_ofNat']
    omega
  have hlow : ((pre ++ (w.bytes ++ post)).getD (pre.length + 1) 0).toNat = w.toNat % 256 := by
    simp only [Word.bytes_eq_ofNat, List.getD_eq_getElem?_getD]
    rw [List.getElem?_append_right (Nat.le_add_right _ _), Nat.add_sub_cancel_left]
    simp only [List.cons_append, List.getElem?_cons_succ, List.getElem?_cons_zero,
      Option.getD_some, UInt8.toNat_ofNat']
  rw [wordAt, hhigh, hlow]
  refine BitVec.eq_of_toNat_eq ?_
  rw [BitVec.toNat_ofNat]
  omega

end Layout

/-- What a row says about an instruction with matching operands is what it emits. -/
lemma Row.exists_encodes_of_emits {row : Row} {labels : Labels} {name : String} {line : Nat}
    {ops : List Token} {bs : List UInt8} (hrow : row ∈ opcodeTable)
    (hm : Mnemonic.ofName? name = some row.mnemonic) (hops : row.Matches ops)
    (h : Segment.Emits labels (.instruction name line ops) bs) :
    ∃ w, row.Encodes labels ops w ∧ bs = w.bytes := by
  obtain ⟨f, rfl⟩ := Form.mem_opcodeTable_iff.mp hrow
  obtain ⟨i, rfl, hs⟩ := Form.exists_spells hops
  rw [i.form_row_mnemonic] at hm
  obtain ⟨r, hr, rfl⟩ := (Segment.emits_instruction_iff hm hs).mp h
  exact ⟨r.word, hs.encodes hr, rfl⟩

/-- An instruction whose operands match a row emits the word that the row says. -/
lemma Row.Encodes.emits {row : Row} {labels : Labels} {name : String} {line : Nat}
    {ops : List Token} {w : Word} (h : row.Encodes labels ops w) (hrow : row ∈ opcodeTable)
    (hm : Mnemonic.ofName? name = some row.mnemonic) (hops : row.Matches ops) :
    Segment.Emits labels (.instruction name line ops) w.bytes := by
  obtain ⟨f, rfl⟩ := Form.mem_opcodeTable_iff.mp hrow
  obtain ⟨i, rfl, hs⟩ := Form.exists_spells hops
  obtain ⟨r, hr, rfl⟩ := hs.encodes_iff.mp h
  rw [i.form_row_mnemonic] at hm
  exact (Segment.emits_instruction_iff hm hs).mpr ⟨r, hr, rfl⟩

/-- The operands of an instruction match one row of its name only. -/
lemma Row.eq_of_matches {row row' : Row} {ops : List Token} (hrow : row ∈ opcodeTable)
    (hrow' : row' ∈ opcodeTable) (hm : row.mnemonic = row'.mnemonic) (hops : row.Matches ops)
    (hops' : row'.Matches ops) : row = row' := by
  obtain ⟨f, rfl⟩ := Form.mem_opcodeTable_iff.mp hrow
  obtain ⟨f', rfl⟩ := Form.mem_opcodeTable_iff.mp hrow'
  obtain ⟨i, rfl, hs⟩ := Form.exists_spells hops
  obtain ⟨i', rfl, hs'⟩ := Form.exists_spells hops'
  rw [i.form_row_mnemonic, i'.form_row_mnemonic] at hm
  have hsame : ops ++ [] = ops ++ [] := rfl
  obtain ⟨-, rfl, -⟩ := hs.deterministic hs' hm hsame
  rfl

/-- The address field of a word whose operand is a label. -/
lemma Row.Encodes.read_address {row : Row} {labels : Labels} {ops : List Token} {w : Word}
    {label : String} {line : Nat} (h : row.Encodes labels ops w)
    (hmem : (Slot.address, ⟨.name label, line⟩) ∈ row.slots.zip ops) :
    ∃ a, labels.find? label = some a ∧ Field.nnn.read w = a.toNat % 4096 := by
  obtain ⟨v, hv, hw⟩ := (List.forall₂_iff_zip.mp h.fills).2 hmem .nnn rfl
  obtain ⟨a, ha, rfl⟩ := Option.map_eq_some_iff.mp hv
  exact ⟨a, ha, hw⟩

/-! ### The address of a reference -/

/-- A reference is to a label declared before it, and the word in its place encodes
the address of the label in twelve bits. -/
lemma IsLayout.read_wordAt {ts : List Token} {segs : List Segment} {img : List UInt8}
    (h : IsLayout ts segs img) {label : String} {offset : Nat}
    (href : Layout.RefersAt segs label offset) :
    ∃ k, Layout.DeclaresAt segs label k ∧ k ≤ offset ∧ offset + 2 ≤ img.length ∧
      Field.nnn.read (Layout.wordAt img offset) = (0x200 + k) % 4096 := by
  obtain ⟨before, s, after, rfl, hs, rfl⟩ := href
  obtain ⟨pre, rest, hpre, hrest, rfl⟩ := Layout.emitted_append_iff.mp h.emitted
  rw [List.nil_append] at hrest
  obtain _ | @⟨_, _, _, bs, post, hbs, -⟩ := hrest
  cases s with
  | label name line => exact hs.elim
  | data v line => exact hs.elim
  | instruction name line ops =>
      obtain ⟨row, hrow, hm, hops, line', hmem⟩ := hs
      obtain ⟨w, hw, rfl⟩ := Row.exists_encodes_of_emits hrow hm hops hbs
      obtain ⟨a, ha, hread⟩ := hw.read_address hmem
      have hlen : pre.length = Layout.size before := hpre.length_eq
      -- a label that is found was declared by a segment before the instruction
      have hdist : (Layout.names before).Nodup := by
        have hd := h.distinct
        rw [Layout.names_append] at hd
        exact hd.of_append_left
      have hname : label ∈ Layout.names before := by
        by_contra hnot
        rw [Layout.find?_labels_eq_none_iff.mpr hnot] at ha
        cases ha
      obtain ⟨k, hk⟩ := Layout.exists_declaresAt_of_mem_names hname
      rw [Layout.find?_labels_of_declaresAt hdist hk] at ha
      have hfits : Layout.size before ≤ 4096 := by
        have hf := h.fits
        rw [Layout.size_append] at hf
        omega
      have hle : k ≤ Layout.size before := hk.le_size
      refine ⟨k, hk.append_right _, hle, ?_, ?_⟩
      · simp only [List.length_append, Word.bytes, List.length_cons, List.length_nil]
        omega
      · have hword : Layout.wordAt (pre ++ (w.bytes ++ post)) (Layout.size before) = w := by
          rw [← hlen, Layout.wordAt_append]
        calc Field.nnn.read (Layout.wordAt (pre ++ (w.bytes ++ post)) (Layout.size before))
            = a.toNat % 4096 := by rw [hword, hread]
          _ = (BitVec.ofNat 16 (0x200 + k)).toNat % 4096 := by rw [Option.some.inj ha]
          _ = (0x200 + k) % 4096 := by
              rw [BitVec.toNat_ofNat]
              omega

/-! ### A label behind data

The least program with a reference to a label at a given offset. -/

/-- Bytes that are zero, as many as given. -/
def zeros (n : Nat) : List Segment := List.replicate n (.data 0#64 1)

/-- Data, a label, and an instruction that refers to it. -/
def callBehind (n : Nat) : List Segment :=
  zeros n ++ [.label "a" 2, .instruction "CALL" 3 [⟨.name "a", 3⟩]]

lemma size_zeros (n : Nat) : Layout.size (zeros n) = n := by
  simp [zeros, Layout.size, Segment.size]

lemma names_zeros (n : Nat) : Layout.names (zeros n) = [] :=
  List.filterMap_replicate_of_none rfl

lemma exists_emitted_zeros (n : Nat) (before : List Segment) :
    ∃ bs, Layout.Emitted before (zeros n) bs := by
  induction n generalizing before with
  | zero => exact ⟨_, .nil before⟩
  | succ n ih =>
      obtain ⟨bs, hbs⟩ := ih (before ++ [.data 0#64 1])
      exact ⟨_, .cons (.data 0#64 1) hbs⟩

lemma declaresAt_callBehind (n : Nat) : Layout.DeclaresAt (callBehind n) "a" n :=
  ⟨zeros n, 2, _, rfl, size_zeros n⟩

lemma refersAt_callBehind (n : Nat) : Layout.RefersAt (callBehind n) "a" n := by
  refine ⟨zeros n ++ [.label "a" 2], .instruction "CALL" 3 [⟨.name "a", 3⟩], [], ?_, ?_, ?_⟩
  · exact List.append_cons _ _ _
  · exact ⟨⟨.call, [.address], 0x2000#16⟩, by decide, rfl, .cons (.inr ⟨"a", rfl⟩) .nil, 3, .head _⟩
  · rw [Layout.size_concat, size_zeros]
    rfl

/-- The program is assembled if it has room. -/
lemma exists_assemble_callBehind {n : Nat} (hn : n ≤ 4094) :
    ∃ i, (assemble ((callBehind n).flatMap Segment.tokens)).outcome = .ok i ∧
      IsLayout ((callBehind n).flatMap Segment.tokens) (callBehind n) i.toList := by
  have hfind : (Layout.labels (zeros n ++ [.label "a" 2])).find? "a" =
      some (BitVec.ofNat 16 (0x200 + n)) := by
    refine Layout.find?_labels_of_declaresAt ?_ ⟨zeros n, 2, [], rfl, size_zeros n⟩
    rw [Layout.names_append, names_zeros]
    exact List.nodup_singleton "a"
  have hcall : Segment.Emits (Layout.labels (zeros n ++ [.label "a" 2]))
      (.instruction "CALL" 3 [⟨.name "a", 3⟩])
      (Instruction.address .call ((BitVec.ofNat 16 (0x200 + n)).setWidth 12)).word.bytes := by
    have hs : Spells [⟨.name "a", 3⟩] (.address .call (.ofToken ⟨.name "a", 3⟩)) :=
      .address (by simp) (by decide)
    have hm : Mnemonic.ofName? "CALL" = some .call := by decide
    refine (Segment.emits_instruction_iff hm hs).mpr ⟨_, ?_, rfl⟩
    refine Instruction.resolve_address_eq_ok_iff.mpr ⟨_, ?_, rfl⟩
    simp only [Target.ofToken, Target.resolve, Labels.resolve, hfind]
    rfl
  obtain ⟨bs, hbs⟩ := exists_emitted_zeros n []
  obtain ⟨img, hemitted⟩ : ∃ img, Layout.Emitted [] (callBehind n) img :=
    ⟨_, Layout.emitted_append_iff.mpr
      ⟨bs, _, hbs, .cons (.label "a" 2) (.cons hcall (.nil _)), rfl⟩⟩
  have hl : IsLayout ((callBehind n).flatMap Segment.tokens) (callBehind n) img := by
    refine ⟨rfl, ?_, hemitted, ?_⟩
    · rw [callBehind, Layout.names_append, names_zeros]
      exact List.nodup_singleton "a"
    · rw [callBehind, Layout.size_append, size_zeros]
      exact Nat.add_le_add_right hn 2
  obtain ⟨i, hi, himg⟩ := assemble_of_isLayout hl
  exact ⟨i, hi, himg ▸ hl⟩

/-! ### All references -/

/-- **A reference encodes the address of its label modulo 4096.** In an assembled
program every reference is to a declared label. With `k` bytes before the declaration,
the address field in the image is `0x200 + k` modulo 4096, which is `0x200 + k` itself if
and only if `k` is below `0xE00`. References to labels at different offsets encode
different addresses. -/
theorem label_reference_address {ts : List Token} {i : Image}
    (h : (assemble ts).outcome = .ok i) :
    ∃ segs, IsLayout ts segs i.toList ∧
      (∀ label o, Layout.RefersAt segs label o →
        o + 2 ≤ i.size ∧ ∃ k, Layout.DeclaresAt segs label k ∧
          Field.nnn.read (Layout.wordAt i.toList o) = (0x200 + k) % 4096 ∧
          (Field.nnn.read (Layout.wordAt i.toList o) = 0x200 + k ↔ k < 0xE00)) ∧
      ∀ label label' o o' k k', Layout.RefersAt segs label o → Layout.RefersAt segs label' o' →
        Layout.DeclaresAt segs label k → Layout.DeclaresAt segs label' k' → k ≠ k' →
        Field.nnn.read (Layout.wordAt i.toList o) ≠ Field.nnn.read (Layout.wordAt i.toList o') := by
  obtain ⟨segs, hl⟩ := exists_isLayout_of_assemble h
  have hsize : i.toList.length ≤ 4096 := i.size_le
  refine ⟨segs, hl, ?_, ?_⟩
  · intro label o href
    obtain ⟨k, hk, hko, ho, hread⟩ := hl.read_wordAt href
    refine ⟨ho, k, hk, hread, ?_⟩
    rw [hread]
    omega
  · intro label label' o o' k k' href href' hk hk' hne heq
    obtain ⟨m, hm, hmo, ho, hread⟩ := hl.read_wordAt href
    obtain ⟨m', hm', hmo', ho', hread'⟩ := hl.read_wordAt href'
    obtain rfl := hm.unique hl.distinct hl.fits hk
    obtain rfl := hm'.unique hl.distinct hl.fits hk'
    -- both labels lie in an image of 4096 bytes, so their addresses differ by less
    rw [hread, hread'] at heq
    omega

/-- The last offset at which a label has its own address. -/
theorem label_reference_address_last :
    ∃ i, (assemble ((callBehind 0xDFF).flatMap Segment.tokens)).outcome = .ok i ∧
      Field.nnn.read (Layout.wordAt i.toList 0xDFF) = 0x200 + 0xDFF := by
  obtain ⟨i, hi, hl⟩ := exists_assemble_callBehind (by decide : 0xDFF ≤ 4094)
  obtain ⟨segs, hl', href, -⟩ := label_reference_address hi
  obtain rfl := hl.unique hl'
  obtain ⟨-, k, hk, -, hread⟩ := href "a" 0xDFF (refersAt_callBehind 0xDFF)
  obtain rfl := hk.unique hl.distinct hl.fits (declaresAt_callBehind 0xDFF)
  exact ⟨i, hi, hread.mpr (by decide)⟩

/-- One byte further the address wraps: behind `0xE00` bytes of data a label stands for
`0x1000`, and an instruction that refers to it encodes zero. -/
theorem label_reference_wraps :
    ∃ i segs, (assemble ((callBehind 0xE00).flatMap Segment.tokens)).outcome = .ok i ∧
      IsLayout ((callBehind 0xE00).flatMap Segment.tokens) segs i.toList ∧
      Layout.RefersAt segs "a" 0xE00 ∧ Layout.DeclaresAt segs "a" 0xE00 ∧
      Field.nnn.read (Layout.wordAt i.toList 0xE00) = 0 ∧
      Field.nnn.read (Layout.wordAt i.toList 0xE00) ≠ 0x200 + 0xE00 := by
  obtain ⟨i, hi, hl⟩ := exists_assemble_callBehind (by decide : 0xE00 ≤ 4094)
  have href := refersAt_callBehind 0xE00
  have hdecl := declaresAt_callBehind 0xE00
  obtain ⟨k, hk, -, -, hread⟩ := hl.read_wordAt href
  obtain rfl := hk.unique hl.distinct hl.fits hdecl
  refine ⟨i, _, hi, hl, href, hdecl, hread, ?_⟩
  rw [hread]
  decide

end Chip8
