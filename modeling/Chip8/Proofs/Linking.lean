/-
Linking: one program behind another.

Behind other segments a label stands for an address that is higher by their size, and
nothing else changes: the same tokens are cut into the same segments, and the only words
that depend on a label are those of instructions that refer to one.

* `Layout.find?_labels_behind`: the labels behind other segments.
* `Spells.refersTo_iff`: an instruction refers to a label if its target is one.
* `Word.MovedBy`, `Segment.Moves`: the bytes of a segment with labels that are higher.
* `Relocated`, `Layout.Emitted.relocated`: the image of a program behind other segments, the
  references to labels moved.
* `Assembly.step_eq_error`, `Assembly.run_eq_error`: statements that could all be carried out
  but for the room in the image fail for the lack of it.
* `assemble_append`: **the linking law**. Two programs without a label in common are
  assembled one behind the other, the second relocated by the size of the first, if there
  is room for both, and otherwise fail for the lack of room.
-/
import Mathlib.Tactic
import Chip8.Proofs.LabelAddress

namespace Chip8

/-! ### Labels behind other segments -/

/-- Labels with addresses that are higher by a number of bytes, and maybe further labels. -/
def Labels.ShiftedBy (n : Nat) (labels labels' : Labels) : Prop :=
  ∀ name a, labels.find? name = some a → labels'.find? name = some (a + BitVec.ofNat 16 n)

namespace Layout

variable {front before segs : List Segment}

/-- Declarations further on have the same names and higher addresses. -/
lemma declarations_add (offset n : Nat) (segs : List Segment) :
    declarations (offset + n) segs =
      (declarations offset segs).map fun p => (p.1, p.2 + BitVec.ofNat 16 n) := by
  induction segs generalizing offset with
  | nil => rfl
  | cons s segs ih =>
      have hnext : offset + n + s.size = offset + s.size + n := by omega
      rw [declarations, declarations, hnext, ih, List.map_append]
      cases s.name? with
      | none => rfl
      | some name => simp [BitVec.ofNat_add, BitVec.add_assoc]

lemma lookup_map_snd {α β γ : Type} [BEq α] (f : β → γ) (entries : List (α × β)) (name : α) :
    (entries.map fun p => (p.1, f p.2)).lookup name = (entries.lookup name).map f := by
  induction entries with
  | nil => rfl
  | cons p entries ih =>
      obtain ⟨key, value⟩ := p
      simp only [List.map_cons, List.lookup_cons]
      cases name == key
      · exact ih
      · rfl

/-- Behind other segments a label that is not among theirs stands for an address that is
higher by their size. -/
lemma find?_labels_behind {name : String} (h : name ∉ names front) :
    (labels (front ++ segs)).find? name =
      ((labels segs).find? name).map (· + BitVec.ofNat 16 (size front)) := by
  have hfront : (declarations 0 front).lookup name = none := find?_labels_eq_none_iff.mpr h
  have hshift : declarations (0 + size front) segs = _ := declarations_add 0 (size front) segs
  simp only [labels, Labels.find?]
  rw [declarations_append, List.lookup_append, hfront, Option.none_or, hshift]
  exact lookup_map_snd (· + BitVec.ofNat 16 (size front)) _ name

lemma shiftedBy_behind (h : List.Disjoint (names front) (names before)) :
    Labels.ShiftedBy (size front) (labels before) (labels (front ++ before)) := by
  intro name a ha
  have hbefore : name ∈ names before := by
    by_contra hnot
    rw [find?_labels_eq_none_iff.mpr hnot] at ha
    cases ha
  rw [find?_labels_behind fun hfront => h hfront hbefore, ha]
  rfl

end Layout

/-! ### Which instructions refer to a label -/

lemma Target.ofToken_eq_label_iff {t : Token} {name : String} {line : Nat} :
    Target.ofToken t = .label name line ↔ t = ⟨.name name, line⟩ := by
  obtain ⟨l, line'⟩ := t
  cases l <;> simp [ofToken]

/-- A name stands in the place of an address if and only if it is the target. -/
lemma Spells.mem_zip_iff {ops : List Token} {i : Instruction Target} (hs : Spells ops i)
    {label : String} {line : Nat} :
    (Slot.address, ⟨.name label, line⟩) ∈ i.form.row.slots.zip ops ↔
      ∃ op, i = .address op (.label label line) := by
  -- the address is the last operand of the instructions that have one
  have hlast : ∀ {op : AddressOp} {t : Token}, ⟨.name label, line⟩ = t ↔
      ∃ op', Instruction.address op (Target.ofToken t) = .address op' (.label label line) := by
    intro op t
    rw [eq_comm, ← Target.ofToken_eq_label_iff]
    simp
  cases hs with
  | fixed op => simp [Instruction.form, Form.row]
  | address hop ht =>
      rw [← hlast]
      simp only [List.mem_cons, List.not_mem_nil, or_false] at hop
      rcases hop with rfl | rfl | rfl <;>
        simp [Instruction.form, Form.row, AddressOp.slots]
  | jumpV0 hp h0 ht =>
      rw [← hlast]
      simp [Instruction.form, Form.row, AddressOp.slots]
  | loadIndex hp ht =>
      rw [← hlast]
      simp [Instruction.form, Form.row, AddressOp.slots]
  | byte op hp hq => simp [Instruction.form, Form.row]
  | pair op hp hq => simp [Instruction.form, Form.row]
  | sprite hp hq hn => simp [Instruction.form, Form.row]
  | key hop hp =>
      rcases List.mem_pair.mp hop with rfl | rfl <;>
        simp [Instruction.form, Form.row, RegisterOp.slots]
  | outOf hp hq hs => simp [Instruction.form, Form.row, RegisterOp.slots_of_outOf? hs]
  | into hp hs hq => simp [Instruction.form, Form.row, RegisterOp.slots_of_into? hs]
  | index hop hp hq =>
      rcases List.mem_pair.mp hop with rfl | rfl <;>
        simp [Instruction.form, Form.row, RegisterOp.slots]

/-- An instruction refers to a label if and only if its target is that label. -/
lemma Spells.refersTo_iff {name : String} {line : Nat} {ops : List Token}
    {i : Instruction Target} (hs : Spells ops i) (hm : Mnemonic.ofName? name = some i.mnemonic)
    {label : String} :
    Segment.RefersTo label (.instruction name line ops) ↔
      ∃ op line', i = .address op (.label label line') := by
  refine ⟨fun h => ?_, fun h => ?_⟩
  · obtain ⟨row, hrow, hm', hops, line', hmem⟩ := h
    obtain ⟨f, rfl⟩ := Form.mem_opcodeTable_iff.mp hrow
    obtain ⟨i', rfl, hs'⟩ := Form.exists_spells hops
    rw [hm, i'.form_row_mnemonic] at hm'
    have hsame : ops ++ [] = ops ++ [] := rfl
    obtain ⟨-, rfl, -⟩ := hs.deterministic hs' (Option.some.inj hm') hsame
    obtain ⟨op, hi⟩ := hs.mem_zip_iff.mp hmem
    exact ⟨op, line', hi⟩
  · obtain ⟨op, line', hi⟩ := h
    refine ⟨i.form.row, Form.mem_opcodeTable_iff.mpr ⟨_, rfl⟩, ?_, hs.matches, line', ?_⟩
    · rw [i.form_row_mnemonic, hm]
    · exact hs.mem_zip_iff.mpr ⟨op, hi⟩

/-! ### What a segment emits with other labels -/

/-- A word whose address is higher by a number of bytes, modulo 4096: the first four bits
are as they were. -/
def Word.MovedBy (n : Nat) (w w' : Word) : Prop :=
  w'.toNat / 4096 = w.toNat / 4096 ∧ w'.toNat % 4096 = (w.toNat % 4096 + n) % 4096

variable {n : Nat} {labels labels' : Labels}

lemma Target.resolve_label_eq_ok_iff {name : String} {line : Nat} {a : BitVec 12} :
    (Target.label name line).resolve labels = .ok a ↔
      ∃ b, labels.find? name = some b ∧ a = b.setWidth 12 := by
  rw [resolve, Labels.resolve]
  cases labels.find? name with
  | none => simp [Except.map]
  | some b => simp [Except.map, eq_comm]

/-- The address of an instruction that is higher by `n` bytes. -/
lemma movedBy_ofAddress (op : BitVec 4) (a : Word) (n : Nat) :
    Word.MovedBy n (.ofAddress op (a.setWidth 12))
      (.ofAddress op ((a + BitVec.ofNat 16 n).setWidth 12)) := by
  simp only [Word.MovedBy, Word.toNat_ofAddress, BitVec.toNat_setWidth, BitVec.toNat_add,
    BitVec.toNat_ofNat]
  omega

/-- With higher labels an instruction has a higher address if its target is a label, and is
the same if it is not. -/
lemma Instruction.resolve_of_shiftedBy (hl : labels.ShiftedBy n labels')
    {i : Instruction Target} {r : Instruction (BitVec 12)} (h : i.resolve labels = .ok r) :
    ∃ r', i.resolve labels' = .ok r' ∧
      ((∃ op label line, i = .address op (.label label line)) ∧ r.word.MovedBy n r'.word ∨
        (∀ op label line, i ≠ .address op (.label label line)) ∧ r' = r) := by
  cases i with
  | fixed | byte | pair | sprite | register =>
      cases h
      exact ⟨_, rfl, .inr ⟨by simp, rfl⟩⟩
  | address op target =>
      cases target with
      | literal a =>
          cases h
          exact ⟨_, rfl, .inr ⟨by simp, rfl⟩⟩
      | label label line =>
          obtain ⟨a, ha, rfl⟩ := resolve_address_eq_ok_iff.mp h
          obtain ⟨b, hb, rfl⟩ := Target.resolve_label_eq_ok_iff.mp ha
          have ha' : (Target.label label line).resolve labels' =
              .ok ((b + BitVec.ofNat 16 n).setWidth 12) :=
            Target.resolve_label_eq_ok_iff.mpr ⟨_, hl label b hb, rfl⟩
          refine ⟨_, resolve_address_eq_ok_iff.mpr ⟨_, ha', rfl⟩, .inl ⟨⟨op, label, line, rfl⟩, ?_⟩⟩
          exact movedBy_ofAddress op.opcode b n

namespace Segment

/-- The bytes of a segment before and after its labels have become higher: the word of an
instruction that refers to a label is moved, and everything else stays as it is. -/
inductive Moves (n : Nat) (seg : Segment) : List UInt8 → List UInt8 → Prop
  | reference {label : String} {w w' : Word} (hr : seg.RefersTo label) (hw : w.MovedBy n w') :
      Moves n seg w.bytes w'.bytes
  | other {bs : List UInt8} (hr : ∀ label, ¬ seg.RefersTo label) : Moves n seg bs bs

/-- With higher labels a segment still emits bytes, and these are moved. -/
lemma Emits.exists_moves {seg : Segment} {bs : List UInt8} (h : seg.Emits labels bs)
    (hl : labels.ShiftedBy n labels') : ∃ bs', seg.Emits labels' bs' ∧ seg.Moves n bs bs' := by
  obtain ⟨s, hr⟩ := h.exists_reads
  cases hr with
  | label name line =>
      cases h
      exact ⟨[], .label name line, .other fun _ h => h⟩
  | data v line =>
      cases h
      exact ⟨_, .data v line, .other fun _ h => h⟩
  | @instruction name ops i line hm hs =>
      obtain ⟨r, hr, rfl⟩ := (emits_instruction_iff hm hs).mp h
      obtain ⟨r', hr', hmoved⟩ := Instruction.resolve_of_shiftedBy hl hr
      refine ⟨_, (emits_instruction_iff hm hs).mpr ⟨r', hr', rfl⟩, ?_⟩
      rcases hmoved with ⟨⟨op, label, line', hi⟩, hw⟩ | ⟨hnone, rfl⟩
      · exact .reference ((hs.refersTo_iff hm).mpr ⟨op, line', hi⟩) hw
      · refine .other fun label href => ?_
        obtain ⟨op, line', hi⟩ := (hs.refersTo_iff hm).mp href
        exact hnone op label line' hi

/-- A segment emits one list of bytes only. -/
lemma Emits.unique {seg : Segment} {bs bs' : List UInt8} (h : seg.Emits labels bs)
    (h' : seg.Emits labels bs') : bs = bs' := by
  cases h with
  | label => cases h'; rfl
  | data => cases h'; rfl
  | instruction hm hw =>
      obtain _ | _ | ⟨hm', hw'⟩ := h'
      rw [hm] at hm'
      cases hm'
      rw [hw] at hw'
      cases hw'
      rfl

end Segment

/-! ### Images behind other segments -/

/-- The bytes of a program with its references moved: the words of instructions that refer
to a label are moved, and all other bytes are as they were. -/
structure Relocated (n : Nat) (segs : List Segment) (img img' : List UInt8) : Prop where
  length : img'.length = img.length
  words : ∀ label o, Layout.RefersAt segs label o →
    (Layout.wordAt img o).MovedBy n (Layout.wordAt img' o)
  bytes : ∀ k, (∀ label o, Layout.RefersAt segs label o → k ≠ o ∧ k ≠ o + 1) →
    img'[k]? = img[k]?

namespace Layout

variable {front before segs after : List Segment} {img img' : List UInt8}

/-- What can be emitted can be emitted behind other segments too. -/
lemma Emitted.exists_behind (h : Emitted before segs img)
    (hd : List.Disjoint (names front) (names (before ++ segs))) :
    ∃ img', Emitted (front ++ before) segs img' := by
  induction h with
  | nil before => exact ⟨[], .nil _⟩
  | @cons before rest s bs img hs _ ih =>
      have hbefore : List.Disjoint (names front) (names before) := by
        rw [names_append, List.disjoint_append_right] at hd
        exact hd.1
      obtain ⟨bs', hs', -⟩ := hs.exists_moves (shiftedBy_behind hbefore)
      obtain ⟨img', himg'⟩ := ih (by rwa [List.append_assoc])
      rw [← List.append_assoc] at himg'
      exact ⟨bs' ++ img', .cons hs' himg'⟩

/-- One segment in two images, of which one stands behind other segments: its bytes are at
the same offset in both, and are moved. -/
lemma Emitted.exists_moves {s : Segment} (h : Emitted [] (before ++ s :: after) img)
    (h' : Emitted front (before ++ s :: after) img')
    (hd : List.Disjoint (names front) (names (before ++ s :: after))) :
    ∃ pre bs post pre' bs' post', pre ++ (bs ++ post) = img ∧ pre' ++ (bs' ++ post') = img' ∧
      pre.length = size before ∧ pre'.length = size before ∧ bs.length = s.size ∧
      s.Moves (size front) bs bs' := by
  obtain ⟨pre, bs, post, hbs, hpre, himg⟩ := h.exists_split
  obtain ⟨pre', bs', post', hbs', hpre', himg'⟩ := h'.exists_split
  rw [List.nil_append] at hbs
  have hbefore : List.Disjoint (names front) (names before) := by
    rw [names_append, List.disjoint_append_right] at hd
    exact hd.1
  obtain ⟨bs'', hbs'', hmoves⟩ := hbs.exists_moves (shiftedBy_behind hbefore)
  obtain rfl := hbs''.unique hbs'
  exact ⟨pre, bs, post, pre', bs'', post', himg, himg', hpre, hpre', hbs.length_eq, hmoves⟩

/-- Every byte of an image belongs to a segment. -/
lemma exists_segment_at {k : Nat} (hk : k < size segs) :
    ∃ before s after, segs = before ++ s :: after ∧ size before ≤ k ∧
      k < size before + s.size := by
  induction segs generalizing k with
  | nil => exact absurd hk (Nat.not_lt_zero k)
  | cons s segs ih =>
      rw [size_cons] at hk
      by_cases hs : k < s.size
      · exact ⟨[], s, segs, rfl, Nat.zero_le k, by simpa using hs⟩
      · obtain ⟨before, s', after, rfl, hle, hlt⟩ := ih (k := k - s.size) (by omega)
        refine ⟨s :: before, s', after, rfl, ?_, ?_⟩ <;> rw [size_cons] <;> omega

/-- The bytes in the middle of a list. -/
lemma getElem?_middle {pre bs post : List UInt8} {k : Nat} (hle : pre.length ≤ k)
    (hlt : k < pre.length + bs.length) : (pre ++ (bs ++ post))[k]? = bs[k - pre.length]? := by
  rw [List.getElem?_append_right hle, List.getElem?_append_left (by omega)]

/-- **Relocation.** Behind other segments the image of a program is the same but for the
references to labels, which are moved by the size of these segments. -/
theorem Emitted.relocated (h : Emitted [] segs img) (h' : Emitted front segs img')
    (hd : List.Disjoint (names front) (names segs)) : Relocated (size front) segs img img' := by
  have hlen : img'.length = img.length := h'.length_eq.trans h.length_eq.symm
  refine ⟨hlen, ?_, ?_⟩
  · rintro label o ⟨before, s, after, rfl, href, rfl⟩
    obtain ⟨pre, bs, post, pre', bs', post', rfl, rfl, hpre, hpre', -, hmoves⟩ :=
      h.exists_moves h' hd
    cases hmoves with
    | reference _ hw =>
        have hword := wordAt_append pre post
        have hword' := wordAt_append pre' post'
        rw [hpre] at hword
        rw [hpre'] at hword'
        rwa [hword, hword']
    | other hnone => exact absurd href (hnone label)
  · intro k hk
    by_cases hsize : k < size segs
    · obtain ⟨before, s, after, rfl, hle, hlt⟩ := exists_segment_at hsize
      obtain ⟨pre, bs, post, pre', bs', post', rfl, rfl, hpre, hpre', hbs, hmoves⟩ :=
        h.exists_moves h' hd
      cases hmoves with
      | reference href _ =>
          -- a reference fills two bytes, and the byte in question is neither
          obtain ⟨hne, hne'⟩ := hk _ _ ⟨before, s, after, rfl, href, rfl⟩
          have htwo : s.size = 2 := hbs.symm
          omega
      | other _ =>
          rw [getElem?_middle (by omega) (by omega), getElem?_middle (by omega) (by omega),
            hpre, hpre']
    · have himg := h.length_eq
      rw [List.getElem?_eq_none (by omega), List.getElem?_eq_none (by omega)]

end Layout

/-! ### Images that are full -/

namespace Assembly

variable {a : Assembly} {before segs : List Segment} {seg : Segment} {s : Statement}
  {bs img : List UInt8}

lemma write_eq_error (h : Image.capacity < a.image.size + bs.length) :
    a.write bs = .error (.imageFull Image.capacity) := by
  rw [write, Image.append_eq_error_iff.mpr ⟨h, rfl⟩]
  rfl

/-- **A step without room.** A statement whose segment emits more bytes than there is room
for fails, and this is its error. -/
theorem step_eq_error (ha : a.Follows before) (hr : seg.Reads s)
    (hbs : seg.Emits (Layout.labels before) bs)
    (hfull : Image.capacity < a.image.size + bs.length) :
    (a.step s).outcome = .error (.imageFull Image.capacity) := by
  cases hr with
  | label name line =>
      cases hbs
      exact absurd a.image.size_le (Nat.not_le.mpr hfull)
  | data v line =>
      cases hbs
      exact write_eq_error hfull
  | instruction line hm hs =>
      obtain ⟨r, hr, rfl⟩ := (Segment.emits_instruction_iff hm hs).mp hbs
      rw [← ha.labels] at hr
      rw [step, Logged.bind_of_ok hr]
      exact write_eq_error hfull

/-- **A run without room.** Statements whose segments emit more bytes than there is room
for fail, and no error comes before that of the full image. -/
theorem run_eq_error {ss : List Statement} (ha : a.Follows before)
    (hr : List.Forall₂ Segment.Reads segs ss) (himg : Layout.Emitted before segs img)
    (hd : (Layout.names (before ++ segs)).Nodup)
    (hfull : Image.capacity < a.image.size + img.length) :
    (a.run ss).outcome = .error (.imageFull Image.capacity) := by
  induction hr generalizing a before img with
  | nil =>
      cases himg
      exact absurd a.image.size_le (Nat.not_le.mpr hfull)
  | @cons seg s segs ss hseg hsegs ih =>
      obtain _ | @⟨_, _, _, bs, img, hbs, himg⟩ := himg
      rw [List.length_append] at hfull
      by_cases hroom : a.image.size + bs.length ≤ Image.capacity
      · have hd' : (Layout.names (before ++ [seg] ++ segs)).Nodup := by simpa using hd
        have hnames : (Layout.names (before ++ [seg])).Nodup := by
          rw [Layout.names_append] at hd'
          exact hd'.of_append_left
        obtain ⟨b, hb, hbf⟩ := ha.exists_follows hbs.length_eq hnames hroom
        have hstep := (step_eq_ok_iff ha hseg).mpr ⟨bs, hbs, hb, hbf⟩
        rw [run, Logged.bind_of_ok hstep]
        refine ih hbf himg hd' ?_
        rw [size_of_toList hb]
        omega
      · have hstep := step_eq_error ha hseg hbs (Nat.not_le.mp hroom)
        rw [run, Logged.bind_of_error hstep]

end Assembly

/-- Segments that could be assembled but for the size of their image fail for it. -/
lemma assemble_eq_error {ts : List Token} {segs : List Segment} {img : List UInt8}
    (ht : segs.flatMap Segment.tokens = ts) (hd : (Layout.names segs).Nodup)
    (himg : Layout.Emitted [] segs img) (hfull : Image.capacity < img.length) :
    (assemble ts).outcome = .error (.imageFull Image.capacity) := by
  obtain ⟨ss, hss⟩ := himg.exists_reads
  have hread : Program.read ts = ⟨ss, none⟩ := Program.read_eq_iff.mpr ⟨segs, hss, ht⟩
  have hroom : Image.capacity < Image.empty.size + img.length :=
    hfull.trans_eq (Nat.zero_add _).symm
  have hrun := Assembly.run_eq_error Assembly.follows_start hss himg hd hroom
  rw [assemble, hread, Program.assemble, Logged.bind_of_error hrun]

/-! ### One program behind another -/

/-- A label is declared among tokens. -/
def Declares (ts : List Token) (name : String) : Prop := ∃ line, ⟨.label name, line⟩ ∈ ts

/-- The names of a layout are declared among its tokens. -/
lemma IsLayout.declares {ts : List Token} {segs : List Segment} {img : List UInt8}
    (h : IsLayout ts segs img) {name : String} (hn : name ∈ Layout.names segs) :
    Declares ts name := by
  obtain ⟨k, before, line, after, rfl, -⟩ := Layout.exists_declaresAt_of_mem_names hn
  exact ⟨line, by simp [← h.tokens, Segment.tokens]⟩

/-- **The linking law.** Two programs that are assembled and declare no label both are
assembled one behind the other if there is room for both images. The first image stays as
it is, and the second is relocated by the size of the first. Without room the error is that
the image is full, and no other. -/
theorem assemble_append {ts us : List Token} {i j : Image}
    (hi : (assemble ts).outcome = .ok i) (hj : (assemble us).outcome = .ok j)
    (hd : ∀ name, Declares ts name → ¬ Declares us name) :
    (i.size + j.size ≤ 4096 →
      ∃ k segs img, IsLayout us segs j.toList ∧ (assemble (ts ++ us)).outcome = .ok k ∧
        k.toList = i.toList ++ img ∧ Relocated i.size segs j.toList img) ∧
    (4096 < i.size + j.size → (assemble (ts ++ us)).outcome = .error (.imageFull 4096)) := by
  obtain ⟨front, hfront⟩ := exists_isLayout_of_assemble hi
  obtain ⟨segs, hsegs⟩ := exists_isLayout_of_assemble hj
  have hdisj : List.Disjoint (Layout.names front) (Layout.names segs) :=
    fun name hn hn' => hd name (hfront.declares hn) (hsegs.declares hn')
  obtain ⟨img, himg⟩ : ∃ img, Layout.Emitted (front ++ []) segs img :=
    hsegs.emitted.exists_behind hdisj
  rw [List.append_nil] at himg
  -- the segments of both, with the second image relocated, are a layout but for the size
  have htokens : (front ++ segs).flatMap Segment.tokens = ts ++ us := by
    rw [List.flatMap_append, hfront.tokens, hsegs.tokens]
  have hdistinct : (Layout.names (front ++ segs)).Nodup := by
    rw [Layout.names_append]
    exact hfront.distinct.append hsegs.distinct hdisj
  have hemitted : Layout.Emitted [] (front ++ segs) (i.toList ++ img) :=
    Layout.emitted_append_iff.mpr ⟨_, _, hfront.emitted, himg, rfl⟩
  have hisize : i.size = Layout.size front := hfront.emitted.length_eq
  have hjsize : j.size = Layout.size segs := hsegs.emitted.length_eq
  refine ⟨fun hroom => ?_, fun hfull => ?_⟩
  · have hfits : Layout.size (front ++ segs) ≤ 4096 := by
      rw [Layout.size_append]
      omega
    obtain ⟨k, hk, hkimg⟩ := assemble_of_isLayout ⟨htokens, hdistinct, hemitted, hfits⟩
    refine ⟨k, segs, img, hsegs, hk, hkimg, ?_⟩
    rw [hisize]
    exact hsegs.emitted.relocated himg hdisj
  · refine assemble_eq_error htokens hdistinct hemitted ?_
    rw [hemitted.length_eq, Layout.size_append, ← hisize, ← hjsize]
    exact hfull

/-- A call of a label at the start of a program, behind a program of two bytes. -/
theorem assemble_append_cls_call :
    ∃ k segs img,
      IsLayout [⟨.label "a", 1⟩, ⟨.instruction "CALL", 2⟩, ⟨.name "a", 2⟩] segs [0x22, 0x00] ∧
      (assemble ([⟨.instruction "CLS", 1⟩] ++
        [⟨.label "a", 1⟩, ⟨.instruction "CALL", 2⟩, ⟨.name "a", 2⟩])).outcome = .ok k ∧
      k.toList = [0x00, 0xE0] ++ img ∧ Relocated 2 segs [0x22, 0x00] img ∧
      img = [0x22, 0x02] := by
  have hcls : (assemble [⟨.instruction "CLS", 1⟩]).outcome =
      .ok ⟨#[0x00, 0xE0], by decide⟩ := by decide +kernel
  have hcall : (assemble [⟨.label "a", 1⟩, ⟨.instruction "CALL", 2⟩, ⟨.name "a", 2⟩]).outcome =
      .ok ⟨#[0x22, 0x00], by decide⟩ := by decide +kernel
  have hboth : (assemble [⟨.instruction "CLS", 1⟩, ⟨.label "a", 1⟩, ⟨.instruction "CALL", 2⟩,
      ⟨.name "a", 2⟩]).outcome = .ok ⟨#[0x00, 0xE0, 0x22, 0x02], by decide⟩ := by decide +kernel
  have hd : ∀ name, ¬ Declares [⟨.instruction "CLS", 1⟩] name := by simp [Declares]
  have hlink := (assemble_append hcls hcall fun name h => absurd h (hd name)).1
  obtain ⟨k, segs, img, hsegs, hk, himg, hr⟩ := hlink (by decide)
  refine ⟨k, segs, img, hsegs, hk, himg, hr, ?_⟩
  obtain rfl := Except.ok.inj (hboth.symm.trans hk)
  have hsame : [0x00, 0xE0] ++ [0x22, 0x02] = [0x00, 0xE0] ++ img := himg
  exact (List.append_cancel_left hsame).symm

end Chip8
