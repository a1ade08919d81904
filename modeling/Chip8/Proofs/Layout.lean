/-
The layout of an image, and that assembling finds it.

A token list is cut into segments, one for each statement. Once the segments are
known, so is everything else: a label stands for the load address plus the sizes of
the segments before it, and the image is what the segments emit, one after the other,
each with the labels declared before it.

* `Segment`, `Segment.tokens`, `Segment.size`: the three kinds of segment, the tokens
  they take and the bytes they fill.
* `Layout.labels`: the labels of a list of segments, by their offsets.
* `Segment.Emits`, `Layout.Emitted`: the bytes of one segment, and of a list of them.
* `IsLayout`: a layout of a token list, with its image.
* `Program.read_eq_iff`: reading a program is cutting the tokens into segments.
* `Assembly.Follows`, `Assembly.step_eq_ok_iff`, `Assembly.run_eq_ok_iff`: the state of an
  assembly is a function of the segments behind it; what one statement preserves, and
  then what a run does.
* `assemble_eq_ok_iff_isLayout`: **assembling is laying out**. A token list is assembled
  if and only if it has a layout, the image is the one of the layout, and there is no
  second layout.
-/
import Mathlib.Tactic
import Chip8.Assembly
import Chip8.Proofs.Reading

namespace Chip8

/-! ### Segments -/

/-- The tokens of one statement: a label declaration, a literal as data, or the name of
an instruction with its operands. -/
inductive Segment where
  | label (name : String) (line : Nat)
  | data (value : BitVec 64) (line : Nat)
  | instruction (name : String) (line : Nat) (operands : List Token)
  deriving DecidableEq, Repr

namespace Segment

/-- The tokens that a segment takes. -/
def tokens : Segment → List Token
  | label name line => [⟨.label name, line⟩]
  | data v line => [⟨.literal v, line⟩]
  | instruction name line ops => ⟨.instruction name, line⟩ :: ops

/-- The number of bytes that a segment fills. -/
def size : Segment → Nat
  | label _ _ => 0
  | data _ _ => 1
  | instruction _ _ _ => 2

/-- The name that a segment declares. -/
def name? : Segment → Option String
  | label name _ => some name
  | data _ _ | instruction _ _ _ => none

/-- The bytes that a segment emits with given labels: nothing for a label, the low
eight bits of a literal, and the word of an instruction with its high byte first. The
operands of an instruction are read to their end. -/
inductive Emits (labels : Labels) : Segment → List UInt8 → Prop
  | label (name : String) (line : Nat) : Emits labels (label name line) []
  | data (v : BitVec 64) (line : Nat) : Emits labels (data v line) [UInt8.ofNat v.toNat]
  | instruction {name : String} {line : Nat} {ops : List Token} {m : Mnemonic} {w : Word}
      (hm : Mnemonic.ofName? name = some m) (hw : m.encode labels ops = .ok w []) :
      Emits labels (instruction name line ops)
        [UInt8.ofNat (w.toNat / 256), UInt8.ofNat w.toNat]

end Segment

/-! ### Layouts -/

namespace Layout

/-- The number of bytes that segments fill. -/
def size (segs : List Segment) : Nat := (segs.map Segment.size).sum

/-- The names that segments declare, in order. -/
def names (segs : List Segment) : List String := segs.filterMap Segment.name?

/-- The labels that segments declare, the first segment standing at an offset. -/
def declarations (offset : Nat) : List Segment → List (String × Word)
  | [] => []
  | s :: rest =>
    (s.name?.map fun name => (name, BitVec.ofNat 16 (0x200 + offset))).toList ++
      declarations (offset + s.size) rest

/-- The labels that segments declare from the start of an image. -/
def labels (segs : List Segment) : Labels := ⟨declarations 0 segs⟩

/-- The bytes of segments that follow the segments `before`, each with the labels
declared before it. -/
inductive Emitted : List Segment → List Segment → List UInt8 → Prop
  | nil (before : List Segment) : Emitted before [] []
  | cons {before rest : List Segment} {s : Segment} {bs img : List UInt8}
      (hs : s.Emits (labels before) bs) (hr : Emitted (before ++ [s]) rest img) :
      Emitted before (s :: rest) (bs ++ img)

end Layout

/-- A layout of a token list, with its image. -/
structure IsLayout (ts : List Token) (segs : List Segment) (img : List UInt8) : Prop where
  tokens : segs.flatMap Segment.tokens = ts
  distinct : (Layout.names segs).Nodup
  emitted : Layout.Emitted [] segs img
  fits : Layout.size segs ≤ 4096

/-! ### Sizes, names and labels of consecutive segments -/

namespace Layout

variable {before after segs : List Segment} {s : Segment}

@[simp] lemma size_nil : size [] = 0 := rfl

@[simp] lemma size_cons (s : Segment) (segs : List Segment) :
    size (s :: segs) = s.size + size segs := by
  simp [size]

@[simp] lemma size_append (segs after : List Segment) :
    size (segs ++ after) = size segs + size after := by
  simp [size]

lemma size_concat (segs : List Segment) (s : Segment) :
    size (segs ++ [s]) = size segs + s.size := by
  simp

@[simp] lemma names_append (segs after : List Segment) :
    names (segs ++ after) = names segs ++ names after := by
  simp [names]

@[simp] lemma names_cons (s : Segment) (segs : List Segment) :
    names (s :: segs) = s.name?.toList ++ names segs := by
  cases h : s.name? <;> simp [names, h]

/-- Declarations go on where the first segments end. -/
lemma declarations_append (segs after : List Segment) (offset : Nat) :
    declarations offset (segs ++ after) =
      declarations offset segs ++ declarations (offset + size segs) after := by
  induction segs generalizing offset with
  | nil => simp [declarations]
  | cons s segs ih =>
      simp only [List.cons_append, declarations, ih, size_cons, List.append_assoc, Nat.add_assoc]

/-- The names in the table are those that are declared. -/
lemma map_fst_declarations (segs : List Segment) (offset : Nat) :
    (declarations offset segs).map Prod.fst = names segs := by
  induction segs generalizing offset with
  | nil => rfl
  | cons s segs ih =>
      rw [declarations, List.map_append, ih, names_cons]
      cases s.name? <;> rfl

lemma find?_labels_eq_none_iff {name : String} :
    (labels segs).find? name = none ↔ name ∉ names segs := by
  rw [labels, Labels.find?, List.lookup_eq_none_iff, ← map_fst_declarations segs 0, List.mem_map]
  simp only [bne_iff_ne, ne_eq, not_exists, not_and]
  exact forall₂_congr fun p _ => not_congr eq_comm

/-- One segment more adds its own label, if it has one, at the offset where it stands. -/
lemma labels_concat (segs : List Segment) (s : Segment) :
    labels (segs ++ [s]) = ⟨(labels segs).entries ++
      (s.name?.map fun name => (name, BitVec.ofNat 16 (0x200 + size segs))).toList⟩ := by
  simp [labels, declarations_append, declarations]

end Layout

/-! ### Cutting tokens into segments -/

/-- A segment and the statement that it is read as. -/
inductive Segment.Reads : Segment → Statement → Prop
  | label (name : String) (line : Nat) : Reads (.label name line) (.label name line)
  | data (v : BitVec 64) (line : Nat) : Reads (.data v line) (.data (v.setWidth 8))
  | instruction {name : String} {ops : List Token} {i : Instruction Target} (line : Nat)
      (hm : Mnemonic.ofName? name = some i.mnemonic) (hs : Spells ops i) :
      Reads (.instruction name line ops) (.instruction i line)

namespace Statement

open Reader

variable {ts rest : List Token} {s : Statement}

/-- Reading a statement takes the tokens of a segment. -/
lemma read_eq_ok_iff :
    read ts = .ok s rest ↔ ∃ seg, Segment.Reads seg s ∧ ts = seg.tokens ++ rest := by
  refine ⟨fun h => ?_, fun h => ?_⟩
  · cases ts with
    | nil => cases h
    | cons t ts =>
        obtain ⟨l, line⟩ := t
        rw [read_cons] at h
        cases l with
        | label name =>
            obtain ⟨rfl, rfl⟩ := pure_eq_ok_iff.mp h
            exact ⟨_, .label name line, rfl⟩
        | literal v =>
            obtain ⟨rfl, rfl⟩ := pure_eq_ok_iff.mp h
            exact ⟨_, .data v line, rfl⟩
        | instruction name =>
            simp only [after] at h
            cases hm : Mnemonic.ofName? name with
            | none =>
                simp only [hm] at h
                exact absurd h throw_ne_ok
            | some m =>
                simp only [hm] at h
                obtain ⟨i, hi, rfl⟩ := map_eq_ok_iff.mp h
                obtain ⟨ops, hs, rfl, rfl⟩ := Mnemonic.operands_eq_ok_iff.mp hi
                exact ⟨_, .instruction line hm hs, rfl⟩
        | register r => exact absurd h throw_ne_ok
        | name n => exact absurd h throw_ne_ok
  · obtain ⟨seg, hr, rfl⟩ := h
    cases hr with
    | label => rfl
    | data => rfl
    | instruction line hm hs =>
        rw [Segment.tokens, List.cons_append, read_cons]
        simp only [after, hm]
        exact map_eq_ok_iff.mpr ⟨_, Mnemonic.operands_of_spells hs rest, rfl⟩

end Statement

namespace Program

lemma read_nil : Program.read [] = ⟨[], none⟩ := by
  rw [Program.read, if_pos List.isEmpty_nil]

lemma read_of_ok {ts rest : List Token} {s : Statement} (h : Statement.read ts = .ok s rest) :
    Program.read ts = ⟨s :: (Program.read rest).statements, (Program.read rest).stop⟩ := by
  have hne : ¬ ts.isEmpty := by
    rintro ht
    rw [List.isEmpty_iff.mp ht] at h
    cases h
  rw [Program.read, if_neg hne]
  split
  · next he =>
    rw [h] at he
    cases he
  · next he =>
    rw [h] at he
    cases he
    rfl

lemma read_of_error {ts rest : List Token} {e : Error} (hne : ts ≠ [])
    (h : Statement.read ts = .error e rest) : Program.read ts = ⟨[], some e⟩ := by
  rw [Program.read, if_neg (mt List.isEmpty_iff.mp hne)]
  split
  · next he =>
    rw [h] at he
    cases he
    rfl
  · next he =>
    rw [h] at he
    cases he

/-- **Reading a program is cutting its tokens into segments**, one for each
statement. -/
theorem read_eq_iff {ts : List Token} {ss : List Statement} :
    Program.read ts = ⟨ss, none⟩ ↔
      ∃ segs, List.Forall₂ Segment.Reads segs ss ∧ segs.flatMap Segment.tokens = ts := by
  induction ss generalizing ts with
  | nil =>
      refine ⟨fun h => ?_, fun h => ?_⟩
      · cases ts with
        | nil => exact ⟨[], .nil, rfl⟩
        | cons t ts =>
            cases hr : Statement.read (t :: ts) with
            | ok s rest =>
                rw [read_of_ok hr] at h
                cases h
            | error e rest =>
                rw [read_of_error (List.cons_ne_nil t ts) hr] at h
                cases h
      · obtain ⟨segs, hs, rfl⟩ := h
        obtain rfl := List.forall₂_nil_right_iff.mp hs
        exact read_nil
  | cons s ss ih =>
      refine ⟨fun h => ?_, fun h => ?_⟩
      · cases ts with
        | nil =>
            rw [read_nil] at h
            cases h
        | cons t ts =>
            cases hr : Statement.read (t :: ts) with
            | ok s' rest =>
                rw [read_of_ok hr] at h
                obtain ⟨⟨rfl, hss⟩, hstop⟩ :=
                  (by simpa using h : (s' = s ∧ _) ∧ (Program.read rest).stop = none)
                obtain ⟨segs, hs, rfl⟩ := ih.mp (by rw [← hss, ← hstop])
                obtain ⟨seg, hseg, ht⟩ := Statement.read_eq_ok_iff.mp hr
                exact ⟨seg :: segs, .cons hseg hs, by rw [List.flatMap_cons, ht]⟩
            | error e rest =>
                rw [read_of_error (List.cons_ne_nil t ts) hr] at h
                cases h
      · obtain ⟨segs, hs, rfl⟩ := h
        obtain ⟨seg, segs, hseg, hsegs, rfl⟩ := List.forall₂_cons_right_iff.mp hs
        have hr : Statement.read (seg.tokens ++ segs.flatMap Segment.tokens) =
            .ok s (segs.flatMap Segment.tokens) :=
          Statement.read_eq_ok_iff.mpr ⟨seg, hseg, rfl⟩
        rw [List.flatMap_cons, read_of_ok hr, ih.mpr ⟨segs, hsegs, rfl⟩]

end Program

/-! ### What one statement does, and what a run does -/

namespace Logged

variable {ρ ε α β : Type}

/-- A sequence succeeds if its steps do. -/
lemma bind_outcome_eq_ok_iff {m : Logged ρ ε α} {f : α → Logged ρ ε β} {b : β} :
    (m >>= f).outcome = .ok b ↔ ∃ a, m.outcome = .ok a ∧ (f a).outcome = .ok b := by
  cases hm : m.outcome with
  | error e =>
      rw [bind_of_error hm]
      simp
  | ok a =>
      rw [bind_of_ok hm]
      simp

end Logged

/-- The word of an instruction in memory, by number. -/
lemma Word.bytes_eq_ofNat (w : Word) :
    w.bytes = [UInt8.ofNat (w.toNat / 256), UInt8.ofNat w.toNat] := by
  have hhigh : w.high = UInt8.ofNat (w.toNat / 256) := by
    rw [high, BitVec.extractLsb', Nat.shiftRight_eq_div_pow]
    rfl
  have hlow : w.low = UInt8.ofNat w.toNat := by
    rw [low, BitVec.extractLsb', Nat.shiftRight_zero]
    rfl
  rw [bytes, hhigh, hlow]

namespace Segment

/-- What a statement emits depends on its segment alone: the operands are read to
their end, and looking up the label is all that is left. -/
lemma emits_instruction_iff {labels : Labels} {name : String} {line : Nat} {ops : List Token}
    {i : Instruction Target} {bs : List UInt8} (hm : Mnemonic.ofName? name = some i.mnemonic)
    (hs : Spells ops i) :
    Emits labels (.instruction name line ops) bs ↔
      ∃ r, i.resolve labels = .ok r ∧ bs = r.word.bytes := by
  refine ⟨fun h => ?_, fun h => ?_⟩
  · obtain _ | _ | ⟨hm', hw⟩ := h
    rw [hm] at hm'
    cases hm'
    obtain ⟨i', r, hi, hr, rfl⟩ := Mnemonic.encode_eq_ok_iff_resolve.mp hw
    have hi' := Mnemonic.operands_of_spells hs []
    rw [List.append_nil, hi] at hi'
    cases hi'
    exact ⟨r, hr, (Word.bytes_eq_ofNat _).symm⟩
  · obtain ⟨r, hr, rfl⟩ := h
    rw [Word.bytes_eq_ofNat]
    refine .instruction hm (Mnemonic.encode_eq_ok_iff_resolve.mpr ⟨i, r, ?_, hr, rfl⟩)
    have hi := Mnemonic.operands_of_spells hs []
    rwa [List.append_nil] at hi

/-- A segment emits as many bytes as it has size. -/
lemma Emits.length_eq {labels : Labels} {s : Segment} {bs : List UInt8} (h : s.Emits labels bs) :
    bs.length = s.size := by
  cases h <;> rfl

end Segment

namespace Assembly

/-- The state of an assembly between two segments is determined by those before: their
labels are declared, all under different names, and their bytes are written. -/
structure Follows (a : Assembly) (before : List Segment) : Prop where
  labels : a.labels = Layout.labels before
  size : a.image.size = Layout.size before
  distinct : (Layout.names before).Nodup

lemma follows_start : start.Follows [] := ⟨rfl, rfl, .nil⟩

variable {a b : Assembly} {before segs : List Segment} {seg : Segment} {s : Statement}

lemma write_eq_ok_iff {bs : List UInt8} :
    a.write bs = .ok b ↔
      b.labels = a.labels ∧ a.image.size + bs.length ≤ Image.capacity ∧
        b.image.toList = a.image.toList ++ bs := by
  rw [write]
  cases h : a.image.append bs with
  | error e =>
      have hfull := (Image.append_eq_error_iff.mp h).1
      refine ⟨fun he => ?_, fun h => ?_⟩
      · cases he
      · obtain ⟨-, hle, -⟩ := h
        omega
  | ok image =>
      obtain ⟨hle, himage⟩ := Image.append_eq_ok_iff.mp h
      refine ⟨fun he => ?_, fun h => ?_⟩
      · cases he
        exact ⟨rfl, hle, himage⟩
      · obtain ⟨hl, -, hb⟩ := h
        obtain ⟨labels, image'⟩ := b
        obtain rfl : image = image' := Image.eq_of_toList_eq (himage.trans hb.symm)
        cases hl
        rfl

/-- The size of an image with bytes added. -/
lemma size_of_toList {i j : Image} {bs : List UInt8} (h : j.toList = i.toList ++ bs) :
    j.size = i.size + bs.length := by
  rw [← Image.length_toList, h, List.length_append, Image.length_toList]

/-- There is one state only that follows given segments with a given image. -/
lemma eq_of_follows (ha : a.Follows before) (hb : b.Follows before)
    (h : a.image.toList = b.image.toList) : a = b := by
  obtain ⟨labels, image⟩ := a
  obtain ⟨labels', image'⟩ := b
  obtain rfl : labels = labels' := ha.labels.trans hb.labels.symm
  obtain rfl : image = image' := Image.eq_of_toList_eq h
  rfl

/-- Where there is room for the bytes of a segment there is a state that follows it. -/
lemma Follows.exists_follows (ha : a.Follows before) {bs : List UInt8}
    (hbs : bs.length = seg.size) (hd : (Layout.names (before ++ [seg])).Nodup)
    (hroom : a.image.size + bs.length ≤ Image.capacity) :
    ∃ b : Assembly, b.image.toList = a.image.toList ++ bs ∧ b.Follows (before ++ [seg]) := by
  obtain ⟨image, himage⟩ : ∃ j, a.image.append bs = .ok j := ⟨_, dif_pos hroom⟩
  obtain ⟨-, hb⟩ := Image.append_eq_ok_iff.mp himage
  refine ⟨⟨Layout.labels (before ++ [seg]), image⟩, hb, rfl, ?_, hd⟩
  rw [size_of_toList hb, ha.size, hbs, Layout.size_concat]

/-- Writing the bytes of a segment without a label. -/
lemma write_eq_ok_iff_follows (ha : a.Follows before) (hn : seg.name? = none) {bs : List UInt8}
    (hbs : bs.length = seg.size) :
    a.write bs = .ok b ↔
      b.image.toList = a.image.toList ++ bs ∧ b.Follows (before ++ [seg]) := by
  have hlabels : Layout.labels (before ++ [seg]) = Layout.labels before := by
    rw [Layout.labels_concat, hn]
    simp
  have hnames : Layout.names (before ++ [seg]) = Layout.names before := by
    simp [hn, Layout.names]
  rw [write_eq_ok_iff]
  refine ⟨fun h => ?_, fun h => ?_⟩
  · obtain ⟨hl, -, hb⟩ := h
    refine ⟨hb, ?_, ?_, ?_⟩
    · rw [hl, ha.labels, hlabels]
    · rw [size_of_toList hb, ha.size, hbs, Layout.size_concat]
    · rw [hnames]
      exact ha.distinct
  · obtain ⟨hb, hf⟩ := h
    refine ⟨?_, ?_, hb⟩
    · rw [hf.labels, hlabels, ha.labels]
    · rw [← size_of_toList hb]
      exact b.image.size_le

/-- The next byte has the address that a label there stands for. -/
lemma here_eq (ha : a.Follows before) : a.here = BitVec.ofNat 16 (0x200 + Layout.size before) := by
  rw [here, ha.size, BitVec.ofNat_add]
  rfl

/-- Declaring the label of a segment. -/
lemma declare_eq_ok_iff_follows (ha : a.Follows before) {name : String} {line : Nat} :
    (∃ labels, a.labels.declare name a.here line = .ok labels ∧ { a with labels } = b) ↔
      b.image.toList = a.image.toList ++ [] ∧ b.Follows (before ++ [.label name line]) := by
  have hlabels : Layout.labels (before ++ [.label name line]) =
      ⟨a.labels.entries ++ [(name, a.here)]⟩ := by
    rw [Layout.labels_concat, ← ha.labels, here_eq ha]
    rfl
  have hnames : (Layout.names (before ++ [.label name line])).Nodup ↔
      a.labels.find? name = none := by
    have hone : Layout.names [.label name line] = [name] := rfl
    rw [ha.labels, Layout.find?_labels_eq_none_iff, Layout.names_append, hone,
      List.nodup_append_comm, List.singleton_append, List.nodup_cons]
    exact and_iff_left ha.distinct
  refine ⟨fun h => ?_, fun h => ?_⟩
  · obtain ⟨labels, hd, rfl⟩ := h
    obtain ⟨hnew, rfl⟩ := Labels.declare_eq_ok_iff.mp hd
    refine ⟨(List.append_nil _).symm, hlabels.symm, ?_, hnames.mpr hnew⟩
    rw [Layout.size_concat]
    exact ha.size
  · obtain ⟨hb, hf⟩ := h
    obtain ⟨labels, image⟩ := b
    rw [List.append_nil] at hb
    cases Image.eq_of_toList_eq hb
    have hd : a.labels.declare name a.here line = .ok labels :=
      Labels.declare_eq_ok_iff.mpr ⟨hnames.mp hf.distinct, hf.labels.trans hlabels⟩
    exact ⟨labels, hd, rfl⟩

/-- **A step.** A statement is carried out if and only if its segment emits bytes and
the state with these bytes written follows it. -/
theorem step_eq_ok_iff (ha : a.Follows before) (hr : seg.Reads s) :
    (a.step s).outcome = .ok b ↔
      ∃ bs, seg.Emits (Layout.labels before) bs ∧ b.image.toList = a.image.toList ++ bs ∧
        b.Follows (before ++ [seg]) := by
  cases hr with
  | label name line =>
      rw [step, Logged.bind_outcome_eq_ok_iff]
      refine ⟨fun h => ?_, fun h => ?_⟩
      · obtain ⟨labels, hd, h⟩ := h
        cases h
        exact ⟨[], .label name line, (declare_eq_ok_iff_follows ha).mp ⟨labels, hd, rfl⟩⟩
      · obtain ⟨bs, hbs, h⟩ := h
        cases hbs
        obtain ⟨labels, hd, rfl⟩ := (declare_eq_ok_iff_follows ha).mpr h
        exact ⟨labels, hd, rfl⟩
  | data v line =>
      have hw : a.write [UInt8.ofNat v.toNat] = .ok b ↔
          b.image.toList = a.image.toList ++ [UInt8.ofNat v.toNat] ∧
            b.Follows (before ++ [.data v line]) := write_eq_ok_iff_follows ha rfl rfl
      refine Iff.trans hw ?_
      refine ⟨fun h => ?_, fun h => ?_⟩
      · exact ⟨_, .data v line, h⟩
      · obtain ⟨bs, hbs, h⟩ := h
        cases hbs
        exact h
  | @instruction name ops i line hm hs =>
      have hw : ∀ w : Word, a.write w.bytes = .ok b ↔ b.image.toList = a.image.toList ++ w.bytes ∧
          b.Follows (before ++ [.instruction name line ops]) :=
        fun w => write_eq_ok_iff_follows ha rfl rfl
      rw [step, Logged.bind_outcome_eq_ok_iff]
      refine ⟨fun h => ?_, fun h => ?_⟩
      · obtain ⟨r, hr, h⟩ := h
        refine ⟨r.word.bytes, ?_, (hw r.word).mp h⟩
        exact (Segment.emits_instruction_iff hm hs).mpr ⟨r, by rw [← ha.labels]; exact hr, rfl⟩
      · obtain ⟨bs, hbs, h⟩ := h
        obtain ⟨r, hr, rfl⟩ := (Segment.emits_instruction_iff hm hs).mp hbs
        exact ⟨r, by rw [← ha.labels] at hr; exact hr, (hw r.word).mpr h⟩

/-- **A run.** Statements are carried out if and only if their segments emit an image
and there is a state that follows them, with the image written. -/
theorem run_eq_ok_iff {ss : List Statement} (ha : a.Follows before)
    (hr : List.Forall₂ Segment.Reads segs ss) :
    (a.run ss).outcome = .ok b ↔
      ∃ img, Layout.Emitted before segs img ∧ b.image.toList = a.image.toList ++ img ∧
        b.Follows (before ++ segs) := by
  induction hr generalizing a before with
  | nil =>
      rw [List.append_nil]
      refine ⟨fun h => ?_, fun h => ?_⟩
      · cases h
        exact ⟨[], .nil before, (List.append_nil _).symm, ha⟩
      · obtain ⟨img, himg, hbi, hbf⟩ := h
        cases himg
        rw [List.append_nil] at hbi
        exact congrArg Except.ok (eq_of_follows ha hbf hbi.symm)
  | @cons seg s segs ss hseg hsegs ih =>
      have hsplit : before ++ seg :: segs = before ++ [seg] ++ segs := by simp
      rw [run, Logged.bind_outcome_eq_ok_iff, hsplit]
      refine ⟨fun h => ?_, fun h => ?_⟩
      · obtain ⟨c, hc, h⟩ := h
        obtain ⟨bs, hbs, hci, hcf⟩ := (step_eq_ok_iff ha hseg).mp hc
        obtain ⟨img, himg, hbi, hbf⟩ := (ih hcf).mp h
        exact ⟨bs ++ img, .cons hbs himg, by rw [hbi, hci, List.append_assoc], hbf⟩
      · obtain ⟨img, himg, hbi, hbf⟩ := h
        obtain _ | @⟨_, _, _, bs, img, hbs, himg⟩ := himg
        -- the state in between has room for its bytes because the last one has
        have hroom : a.image.size + bs.length ≤ Image.capacity := by
          have hle : b.image.size ≤ Image.capacity := b.image.size_le
          rw [size_of_toList hbi, List.length_append] at hle
          omega
        have hnames : (Layout.names (before ++ [seg])).Nodup := by
          have hd := hbf.distinct
          rw [Layout.names_append] at hd
          exact hd.of_append_left
        obtain ⟨c, hci, hcf⟩ := ha.exists_follows hbs.length_eq hnames hroom
        refine ⟨_, (step_eq_ok_iff ha hseg).mpr ⟨bs, hbs, hci, hcf⟩, (ih hcf).mpr ?_⟩
        exact ⟨img, himg, by rw [hbi, hci, List.append_assoc], hbf⟩

end Assembly

/-! ### The layout of a token list -/

namespace Segment

/-- What emits bytes can be read. -/
lemma Emits.exists_reads {labels : Labels} {seg : Segment} {bs : List UInt8}
    (h : seg.Emits labels bs) : ∃ s, seg.Reads s := by
  cases h with
  | label name line => exact ⟨_, .label name line⟩
  | data v line => exact ⟨_, .data v line⟩
  | @instruction name line ops m w hm hw =>
      obtain ⟨i, r, hi, -, -⟩ := Mnemonic.encode_eq_ok_iff_resolve.mp hw
      obtain ⟨ops', hs, rfl, rfl⟩ := Mnemonic.operands_eq_ok_iff.mp hi
      rw [List.append_nil]
      exact ⟨_, .instruction line hm hs⟩

/-- The first segment of a token list is determined by the tokens, and so is what
follows it. -/
lemma Reads.deterministic {seg seg' : Segment} {s s' : Statement} {rest rest' : List Token}
    (h : seg.Reads s) (h' : seg'.Reads s') (ht : seg.tokens ++ rest = seg'.tokens ++ rest') :
    seg = seg' ∧ rest = rest' := by
  cases h with
  | label name line =>
      cases h' <;> simp_all [tokens]
  | data v line =>
      cases h' <;> simp_all [tokens]
  | instruction line hm hs =>
      cases h' with
      | label name line => simp [tokens] at ht
      | data v line => simp [tokens] at ht
      | instruction line' hm' hs' =>
          simp only [tokens, List.cons_append, List.cons.injEq, Token.mk.injEq,
            Lexeme.instruction.injEq] at ht
          obtain ⟨⟨rfl, rfl⟩, ht⟩ := ht
          rw [hm] at hm'
          obtain ⟨rfl, -, rfl⟩ := hs.deterministic hs' (Option.some.inj hm') ht
          exact ⟨rfl, rfl⟩

end Segment

namespace Layout

lemma Emitted.exists_reads {before segs : List Segment} {img : List UInt8}
    (h : Emitted before segs img) : ∃ ss, List.Forall₂ Segment.Reads segs ss := by
  induction h with
  | nil before => exact ⟨[], .nil⟩
  | cons hs _ ih =>
      obtain ⟨s, hr⟩ := hs.exists_reads
      obtain ⟨ss, hrs⟩ := ih
      exact ⟨s :: ss, .cons hr hrs⟩

/-- Segments emit as many bytes as they have size. -/
lemma Emitted.length_eq {before segs : List Segment} {img : List UInt8}
    (h : Emitted before segs img) : img.length = size segs := by
  induction h with
  | nil before => rfl
  | cons hs _ ih => rw [List.length_append, hs.length_eq, ih, size_cons]

/-- There is one way only to cut a token list into segments. -/
lemma segments_unique {segs segs' : List Segment} {ss ss' : List Statement}
    (h : List.Forall₂ Segment.Reads segs ss) (h' : List.Forall₂ Segment.Reads segs' ss')
    (ht : segs.flatMap Segment.tokens = segs'.flatMap Segment.tokens) : segs = segs' := by
  induction h generalizing segs' ss' with
  | nil =>
      cases h' with
      | nil => rfl
      | cons hr' _ => cases hr' <;> cases ht
  | cons hr _ ih =>
      cases h' with
      | nil => cases hr <;> cases ht
      | cons hr' hrs' =>
          rw [List.flatMap_cons, List.flatMap_cons] at ht
          obtain ⟨rfl, hrest⟩ := hr.deterministic hr' ht
          rw [ih hrs' hrest]

end Layout

lemma Program.assemble_eq_ok_iff {p : Program} {i : Image} :
    p.assemble.outcome = .ok i ↔
      p.stop = none ∧ ∃ a, (Assembly.start.run p.statements).outcome = .ok a ∧ a.image = i := by
  rw [Program.assemble, Logged.bind_outcome_eq_ok_iff]
  cases p.stop with
  | some e =>
      refine ⟨fun h => ?_, fun h => ?_⟩
      · obtain ⟨a, -, h⟩ := h
        cases h
      · obtain ⟨h, -⟩ := h
        cases h
  | none =>
      refine ⟨fun h => ?_, fun h => ?_⟩
      · obtain ⟨a, ha, h⟩ := h
        cases h
        exact ⟨rfl, a, ha, rfl⟩
      · obtain ⟨-, a, ha, rfl⟩ := h
        exact ⟨a, ha, rfl⟩

/-- What is assembled has a layout, with the image that comes out. -/
lemma exists_isLayout_of_assemble {ts : List Token} {i : Image}
    (h : (assemble ts).outcome = .ok i) : ∃ segs, IsLayout ts segs i.toList := by
  obtain ⟨hstop, a, ha, rfl⟩ := Program.assemble_eq_ok_iff.mp h
  have hread : Program.read ts = ⟨(Program.read ts).statements, none⟩ := by rw [← hstop]
  obtain ⟨segs, hsegs, ht⟩ := Program.read_eq_iff.mp hread
  obtain ⟨img, himg, hi, hf⟩ := (Assembly.run_eq_ok_iff Assembly.follows_start hsegs).mp ha
  rw [List.nil_append] at hf
  obtain rfl : a.image.toList = img := hi
  refine ⟨segs, ht, hf.distinct, himg, ?_⟩
  rw [← hf.size]
  exact a.image.size_le

/-- What has a layout is assembled, and gives its image. -/
lemma assemble_of_isLayout {ts : List Token} {segs : List Segment} {img : List UInt8}
    (h : IsLayout ts segs img) : ∃ i, (assemble ts).outcome = .ok i ∧ i.toList = img := by
  obtain ⟨ss, hss⟩ := h.emitted.exists_reads
  have hread : Program.read ts = ⟨ss, none⟩ := Program.read_eq_iff.mpr ⟨segs, hss, h.tokens⟩
  have hroom : Image.empty.size + img.length ≤ Image.capacity := by
    rw [h.emitted.length_eq]
    exact (Nat.zero_add _).trans_le h.fits
  obtain ⟨i, hi⟩ : ∃ i, Image.empty.append img = .ok i := ⟨_, dif_pos hroom⟩
  obtain ⟨-, htl⟩ := Image.append_eq_ok_iff.mp hi
  rw [Image.toList_empty, List.nil_append] at htl
  refine ⟨i, Program.assemble_eq_ok_iff.mpr ?_, htl⟩
  rw [hread]
  refine ⟨rfl, ⟨Layout.labels segs, i⟩, ?_, rfl⟩
  refine (Assembly.run_eq_ok_iff Assembly.follows_start hss).mpr ⟨img, h.emitted, htl, rfl, ?_,
    h.distinct⟩
  rw [← Image.length_toList, htl, h.emitted.length_eq, List.nil_append]

/-- A token list has one layout at most. -/
lemma IsLayout.unique {ts : List Token} {segs segs' : List Segment} {img img' : List UInt8}
    (h : IsLayout ts segs img) (h' : IsLayout ts segs' img') : segs = segs' := by
  obtain ⟨ss, hss⟩ := h.emitted.exists_reads
  obtain ⟨ss', hss'⟩ := h'.emitted.exists_reads
  exact Layout.segments_unique hss hss' (h.tokens.trans h'.tokens.symm)

/-- **Assembling is laying out.** A token list is assembled to given bytes if and only
if it has a layout with these bytes as its image, and the layout is unique. -/
theorem assemble_eq_ok_iff_isLayout (ts : List Token) :
    (∀ img, (∃ i, (assemble ts).outcome = .ok i ∧ i.toList = img) ↔
      ∃ segs, IsLayout ts segs img) ∧
    ∀ segs segs' img img', IsLayout ts segs img → IsLayout ts segs' img' → segs = segs' := by
  constructor
  · intro img
    refine ⟨fun h => ?_, fun h => ?_⟩
    · obtain ⟨i, hi, rfl⟩ := h
      exact exists_isLayout_of_assemble hi
    · obtain ⟨segs, h⟩ := h
      exact assemble_of_isLayout h
  · intro segs segs' img img' h h'
    exact h.unique h'

end Chip8
