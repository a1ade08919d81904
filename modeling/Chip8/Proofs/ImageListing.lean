/-
What can be read from the listing of an image.

The listing has two bytes a row, behind the address of the first. Bytes of data are single, so a row
need not begin where an instruction does, and the last one may be short. All the same the listing
has all there is to an image: the digits of its second column are the bytes, and with the addresses
of the first it says where each of them is loaded. A label has in the log the address at which the
listing has the byte behind its declaration.

* `Listing.IsPadded`, `Listing.IsRow`: a number in a given number of digits, and what a row is to
  show.
* `Hex.bytes`, `Listing.memory`: digits read as bytes, and a listing read as bytes at addresses.
* `Listing.length_imageRows`, `Listing.isRow_imageRows`: how many rows there are and what each of
  them shows.
* `Listing.cells_image`, `Listing.image_eq_join`: the rows are read back from the text, in which
  nothing is filled up.
* `Listing.bytes_image`, `Listing.memory_image`: **the listing is read back** as the image, without
  and with its addresses.
* `Layout.declared_mem_records_iff`, `IsLayout.exists_byte_at_label`: the record of a label, and the
  byte behind its declaration.
* `Command.exists_transcript_listing`: what a run prints if the listing is asked for.
* `image_listing_determines`: **the listing determines the image and agrees with the labels**.
-/
import Mathlib.Tactic
import Chip8.Proofs.Culprits
import Chip8.Proofs.Listings
import Chip8.Proofs.Numerals
import Chip8.Proofs.WrittenPrograms

namespace Chip8

open Source

/-! ### Numerals of a given length -/

namespace Listing

/-- Hexadecimal digits, in capitals and of a given number, for a number. -/
def IsPadded (width n : Nat) (s : String) : Prop := s.length = width ∧ IsNumeral s.toList n

/-- A row shows bytes behind the address of the first. The address has four digits, and each byte
has two. -/
def IsRow (address : Nat) (bs : List UInt8) (r : List String) : Prop :=
  ∃ a ds, r = ["0x" ++ a ++ ":", String.join ds] ∧ IsPadded 4 address a ∧
    List.Forall₂ (fun b d => IsPadded 2 b.toNat d) bs ds

lemma isPadded_padded {width n : Nat} (h : n < 16 ^ (width + 1)) :
    IsPadded (width + 1) n (Hex.padded (width + 1) n) := by
  have hlen := Hex.length_digits_le h
  refine ⟨?_, Hex.isNumeral_padded _ n⟩
  rw [← String.length_toList, Hex.toList_padded, List.length_append, List.length_replicate]
  omega

lemma isPadded_byte (b : UInt8) : IsPadded 2 b.toNat (byte b) := isPadded_padded b.toNat_lt

end Listing

/-! ### Rows -/

/-- Digits, two by two, read as bytes. -/
def Hex.bytes : List Char → List UInt8
  | c :: d :: rest => UInt8.ofNat (numeralValue [c, d]) :: Hex.bytes rest
  | _ => []

namespace Listing

/-- The bytes of a row with their addresses, as they are read from its cells. -/
def readRow : List String → List (UInt8 × Nat)
  | [address, digits] =>
    (Hex.bytes digits.toList).zipIdx (numeralValue (address.toList.drop 2).dropLast)
  | _ => []

/-- The bytes of a listing with their addresses. -/
def memory (text : String) : List (UInt8 × Nat) := (Grid.cells text).flatMap readRow

/-- Two digits are read as the byte that they were written for. -/
lemma bytes_byte_append (b : UInt8) (rest : List Char) :
    Hex.bytes ((byte b).toList ++ rest) = b :: Hex.bytes rest := by
  obtain ⟨hlen, -, hvalue⟩ := isPadded_byte b
  rw [← String.length_toList] at hlen
  obtain ⟨c, d, hcd⟩ := List.length_eq_two.mp hlen
  rw [hcd] at hvalue ⊢
  rw [List.cons_append, List.singleton_append, Hex.bytes, hvalue, UInt8.ofNat_toNat]

lemma bytes_byte (b : UInt8) : Hex.bytes (byte b).toList = [b] := by
  rw [← List.append_nil (byte b).toList, bytes_byte_append]
  rfl

lemma bytes_flatMap_byte (bs : List UInt8) : Hex.bytes (bs.flatMap (byte · |>.toList)) = bs := by
  induction bs with
  | nil => rfl
  | cons b bs ih => rw [List.flatMap_cons, bytes_byte_append, ih]

/-- The address of a row is read as the number that it was written for. -/
lemma readRow_imageRow (address : Nat) (digits : String) :
    readRow (imageRow address digits) = (Hex.bytes digits.toList).zipIdx address := by
  have hdigits : ("0x" ++ Hex.padded 4 address ++ ":").toList =
      '0' :: 'x' :: ((Hex.padded 4 address).toList ++ [':']) := by
    rw [String.toList_append, String.toList_append]
    rfl
  rw [imageRow, readRow, hdigits, List.drop_succ_cons, List.drop_succ_cons, List.drop_zero,
    List.dropLast_concat, (Hex.isNumeral_padded 4 address).2]

/-- **The rows are read back** as the bytes, each with its address. -/
theorem flatMap_readRow (address : Nat) (bs : List UInt8) :
    (imageRows address bs).flatMap readRow = bs.zipIdx address := by
  fun_induction imageRows address bs with
  | case1 => rfl
  | case2 address b =>
      rw [List.flatMap_singleton, readRow_imageRow, bytes_byte]
  | case3 address b c rest ih =>
      rw [List.flatMap_cons, ih, readRow_imageRow, String.toList_append, bytes_byte_append,
        bytes_byte]
      rfl

/-- The digits of the second column are those of the bytes, in order. -/
lemma flatMap_digits (address : Nat) (bs : List UInt8) :
    (imageRows address bs).flatMap (fun r => (r.getD 1 "").toList) =
      bs.flatMap (byte · |>.toList) := by
  fun_induction imageRows address bs with
  | case1 => rfl
  | case2 address b => simp [imageRow]
  | case3 address b c rest ih =>
      rw [List.flatMap_cons, ih]
      simp [imageRow]

/-- There is a row for every two bytes. -/
lemma length_imageRows (address : Nat) (bs : List UInt8) :
    (imageRows address bs).length = (bs.length + 1) / 2 := by
  fun_induction imageRows address bs with
  | case1 => rfl
  | case2 => simp
  | case3 address b c rest ih =>
      simp only [List.length_cons, ih]
      omega

/-- A row with an address of four digits shows its bytes. -/
lemma isRow_imageRow (address : Nat) (bs : List UInt8) (h : address < 16 ^ 4) :
    IsRow address bs (imageRow address (String.join (bs.map byte))) := by
  refine ⟨Hex.padded 4 address, bs.map byte, rfl, isPadded_padded h, ?_⟩
  rw [List.forall₂_map_right_iff, List.forall₂_same]
  exact fun b _ => isPadded_byte b

/-- **Each row** shows the next two bytes, or the last one, behind their address. -/
theorem isRow_imageRows {address k : Nat} {bs : List UInt8} {r : List String}
    (hfits : address + bs.length ≤ 16 ^ 4) (h : (imageRows address bs)[k]? = some r) :
    IsRow (address + 2 * k) ((bs.drop (2 * k)).take 2) r := by
  fun_induction imageRows address bs generalizing k with
  | case1 => simp at h
  | case2 address b =>
      rw [List.length_singleton] at hfits
      cases k with
      | succ k => simp at h
      | zero =>
          have hrow := isRow_imageRow address [b] (by omega)
          simpa [← Option.some.inj h] using hrow
  | case3 address b c rest ih =>
      simp only [List.length_cons] at hfits
      cases k with
      | zero =>
          have hrow := isRow_imageRow address [b, c] (by omega)
          simpa [← Option.some.inj h] using hrow
      | succ k =>
          have hoffset : address + 2 * (k + 1) = address + 2 + 2 * k := by omega
          rw [hoffset]
          exact ih (by omega) h

/-! ### Cells -/

lemma isCell_append {c d : String} (hc : Grid.IsCell c) (hd : Grid.IsCell d) :
    Grid.IsCell (c ++ d) := by
  refine ⟨?_, ?_, ?_⟩
  · simp [hc.ne_nil]
  · simp [hc.space, hd.space]
  · simp [hc.feed, hd.feed]

lemma isCell_padded (width n : Nat) : Grid.IsCell (Hex.padded width n) := by
  obtain ⟨⟨hne, hdigits⟩, -⟩ := Hex.isNumeral_padded width n
  have hchars : ∀ c, ¬ IsHexDigit c → c ∉ (Hex.padded width n).toList :=
    fun c hc hmem => hc (hdigits c hmem)
  exact ⟨hne, hchars ' ' (by decide), hchars '\n' (by decide)⟩

lemma isCell_of_mem_imageRow (address : Nat) {digits : String} (h : Grid.IsCell digits) :
    ∀ c ∈ imageRow address digits, Grid.IsCell c := by
  have hmark : ∀ {s : String}, s = "0x" ∨ s = ":" → Grid.IsCell s := by
    rintro s (rfl | rfl) <;> exact ⟨by decide, by decide, by decide⟩
  have haddress : Grid.IsCell ("0x" ++ Hex.padded 4 address ++ ":") :=
    isCell_append (isCell_append (hmark (.inl rfl)) (isCell_padded 4 address)) (hmark (.inr rfl))
  simp only [imageRow, List.forall_mem_cons]
  exact ⟨haddress, h, List.forall_mem_nil _⟩

lemma isCell_of_mem_imageRows (address : Nat) (bs : List UInt8) :
    ∀ r ∈ imageRows address bs, ∀ c ∈ r, Grid.IsCell c := by
  fun_induction imageRows address bs with
  | case1 => exact List.forall_mem_nil _
  | case2 address b =>
      exact List.forall_mem_singleton.mpr (isCell_of_mem_imageRow address (isCell_padded 2 _))
  | case3 address b c rest ih =>
      have hdigits := isCell_append (isCell_padded 2 b.toNat) (isCell_padded 2 c.toNat)
      exact List.forall_mem_cons.mpr ⟨isCell_of_mem_imageRow address hdigits, ih⟩

/-- **A listing is read back** as its rows. -/
theorem cells_image (i : Image) : Grid.cells (Listing.image i) = imageRows 0x200 i.toList :=
  Grid.cells_render 2 (isCell_of_mem_imageRows 0x200 i.toList)

end Listing

/-- A column is no wider than its cells. -/
lemma Grid.width_le {rows : List (List String)} {j n : Nat}
    (h : ∀ r ∈ rows, (r.getD j "").length ≤ n) : width rows j ≤ n := by
  have hfold : ∀ (ls : List Nat) (m : Nat), m ≤ n → (∀ l ∈ ls, l ≤ n) → ls.foldl max m ≤ n := by
    intro ls
    induction ls with
    | nil => exact fun m hm _ => hm
    | cons l ls ih =>
        intro m hm hls
        obtain ⟨hl, hls⟩ := List.forall_mem_cons.mp hls
        exact ih (max m l) (max_le hm hl) hls
  refine hfold _ 0 (Nat.zero_le n) fun l hl => ?_
  obtain ⟨r, hr, rfl⟩ := List.mem_map.mp hl
  exact h r hr

namespace Listing

/-- An address of four digits fills its column. -/
lemma length_of_mem_imageRows {address : Nat} {bs : List UInt8}
    (hfits : address + bs.length ≤ 16 ^ 4) :
    ∀ r ∈ imageRows address bs, ∃ a d, r = [a, d] ∧ a.length = 7 := by
  intro r hr
  obtain ⟨k, hk⟩ := List.getElem?_of_mem hr
  obtain ⟨a, ds, rfl, ha, -⟩ := isRow_imageRows hfits hk
  refine ⟨_, _, rfl, ?_⟩
  rw [String.length_append, String.length_append, ha.1]
  rfl

lemma base_add_length_le (i : Image) : 0x200 + i.toList.length ≤ 16 ^ 4 := by
  have hsize : i.toList.length ≤ 4096 := i.size_le
  omega

/-- **The text of a listing**: a space stands between the two cells of a row, and nothing is filled
up, since all addresses have the same length. -/
theorem image_eq_join (i : Image) :
    Listing.image i =
      String.join ((imageRows 0x200 i.toList).map fun r => " ".intercalate r ++ "\n") := by
  have hrows := length_of_mem_imageRows (base_add_length_le i)
  have hwidth : Grid.width (imageRows 0x200 i.toList) 0 ≤ 7 := by
    refine Grid.width_le fun r hr => ?_
    obtain ⟨a, d, rfl, ha⟩ := hrows r hr
    exact Nat.le_of_eq ha
  change String.join ((imageRows 0x200 i.toList).map _) = _
  refine congrArg String.join (List.map_congr_left fun r hr => ?_)
  obtain ⟨a, d, rfl, ha⟩ := hrows r hr
  have hpad : Grid.pad (Grid.width (imageRows 0x200 i.toList) 0) a = a := by
    rw [Grid.pad, ha, Nat.sub_eq_zero_of_le hwidth]
    exact String.append_empty
  change Grid.pad (Grid.width (imageRows 0x200 i.toList) 0) a ++ " " ++ d ++ "\n" = _
  rw [hpad]
  rfl

/-- **The listing is read back** as the bytes of the image. -/
theorem bytes_image (i : Image) :
    Hex.bytes ((Grid.cells (Listing.image i)).flatMap fun r => (r.getD 1 "").toList) =
      i.toList := by
  rw [cells_image, flatMap_digits, bytes_flatMap_byte]

/-- It is read back with the addresses at which the bytes are loaded. -/
theorem memory_image (i : Image) : memory (Listing.image i) = i.toList.zipIdx 0x200 := by
  rw [memory, cells_image, flatMap_readRow]

end Listing

/-! ### Labels -/

/-- The record of a segment that is a label has its name and the address of the next byte. -/
lemma Segment.declared_mem_record?_iff {seg : Segment} {img : List UInt8} {offset : Nat}
    {name : String} {address : Word} :
    .declared name address ∈ (seg.record? img offset).toList ↔
      seg.name? = some name ∧ address = BitVec.ofNat 16 (0x200 + offset) := by
  cases seg <;> simp [record?, name?, eq_comm]

namespace Layout

variable {before after segs : List Segment} {name : String} {line : Nat} {img : List UInt8}

/-- A label is declared by the first segment, or by one behind it. -/
lemma declaresAt_cons_iff {seg : Segment} {k : Nat} :
    DeclaresAt (seg :: segs) name k ↔
      (seg.name? = some name ∧ k = 0) ∨ ∃ j, DeclaresAt segs name j ∧ k = seg.size + j := by
  constructor
  · rintro ⟨before, line, after, h, rfl⟩
    cases before with
    | nil =>
        obtain ⟨rfl, -⟩ := List.cons.inj h
        exact .inl ⟨rfl, rfl⟩
    | cons seg' before =>
        obtain ⟨rfl, rfl⟩ := List.cons.inj h
        exact .inr ⟨size before, ⟨before, line, after, rfl, rfl⟩, size_cons _ _⟩
  · rintro (⟨hname, rfl⟩ | ⟨j, ⟨before, line, after, rfl, rfl⟩, rfl⟩)
    · cases seg with
      | label name' line =>
          cases hname
          exact ⟨[], line, segs, rfl, rfl⟩
      | data v line => cases hname
      | instruction name' line ops => cases hname
    · exact ⟨seg :: before, line, after, rfl, size_cons _ _⟩

/-- **The records of labels** are those of the declarations, each with its address. -/
lemma declared_mem_records_iff {offset : Nat} {address : Word} :
    .declared name address ∈ records img offset segs ↔
      ∃ k, DeclaresAt segs name k ∧ address = BitVec.ofNat 16 (0x200 + (offset + k)) := by
  induction segs generalizing offset with
  | nil =>
      constructor
      · intro h
        cases h
      · rintro ⟨k, ⟨before, line, after, h, -⟩, -⟩
        simp at h
  | cons seg segs ih =>
      rw [records, List.mem_append, ih, Segment.declared_mem_record?_iff]
      simp only [declaresAt_cons_iff]
      constructor
      · rintro (⟨hname, rfl⟩ | ⟨j, hj, rfl⟩)
        · exact ⟨0, .inl ⟨hname, rfl⟩, rfl⟩
        · exact ⟨seg.size + j, .inr ⟨j, hj, rfl⟩, by rw [Nat.add_assoc offset]⟩
      · rintro ⟨k, ⟨hname, rfl⟩ | ⟨j, hj, rfl⟩, rfl⟩
        · exact .inl ⟨hname, rfl⟩
        · exact .inr ⟨j, hj, by rw [Nat.add_assoc offset]⟩

/-- The bytes of an image before and behind the declaration of a label. -/
lemma Emitted.exists_around_label (h : Emitted [] (before ++ .label name line :: after) img) :
    ∃ pre post, Emitted [] before pre ∧ Emitted (before ++ [.label name line]) after post ∧
      pre ++ post = img := by
  obtain ⟨pre, rest, hpre, hrest, rfl⟩ := emitted_append_iff.mp h
  obtain _ | @⟨_, _, _, bs, post, hbs, hpost⟩ := hrest
  cases hbs
  exact ⟨pre, post, hpre, hpost, rfl⟩

end Layout

section

variable {ts : List Token} {segs : List Segment} {i : Image} {name : String} {address : Word}

/-- The address of a label is not cut. -/
lemma IsLayout.toNat_address (h : IsLayout ts segs i.toList) {k : Nat}
    (hk : Layout.DeclaresAt segs name k) : (BitVec.ofNat 16 (0x200 + k)).toNat = 0x200 + k := by
  have hsize := hk.le_size
  have hfits := h.fits
  rw [BitVec.toNat_ofNat]
  omega

/-- The log of an assembly has the addresses of the labels. -/
lemma IsLayout.declared_mem_records_iff (h : IsLayout ts segs i.toList) :
    .declared name address ∈ (assemble ts).records ↔
      ∃ k, Layout.DeclaresAt segs name k ∧ address.toNat = 0x200 + k := by
  rw [assemble_of_isLayout_traced h, List.mem_append, Layout.declared_mem_records_iff]
  simp only [List.mem_singleton, reduceCtorEq, or_false, Nat.zero_add]
  refine exists_congr fun k => and_congr_right fun hk => ?_
  rw [← BitVec.toNat_inj, h.toNat_address hk]

/-- Every label has one record. -/
lemma IsLayout.existsUnique_declared (h : IsLayout ts segs i.toList) (hname : Declares ts name) :
    ∃! address, .declared name address ∈ (assemble ts).records := by
  rw [← h.tokens] at hname
  obtain ⟨k, hk⟩ := Layout.exists_declaresAt_of_mem_names (h.emitted.mem_names hname)
  have haddress := h.toNat_address hk
  refine ⟨BitVec.ofNat 16 (0x200 + k), h.declared_mem_records_iff.mpr ⟨k, hk, haddress⟩, ?_⟩
  intro address hmem
  obtain ⟨j, hj, hj'⟩ := h.declared_mem_records_iff.mp hmem
  rw [← BitVec.toNat_inj, haddress, hj', hj.unique h.distinct h.fits hk]

/-- **The byte at a label.** The address in the log is that of the first byte behind the
declaration, or of the end of the image if there is none. -/
theorem IsLayout.exists_byte_at_label (h : IsLayout ts segs i.toList)
    (hmem : .declared name address ∈ (assemble ts).records) :
    ∃ before line after pre post, segs = before ++ .label name line :: after ∧
      Layout.Emitted [] before pre ∧ Layout.Emitted (before ++ [.label name line]) after post ∧
      pre ++ post = i.toList ∧ address.toNat = 0x200 + pre.length ∧
      (address.toNat ≠ 0x200 + i.size → ∃ b rest, post = b :: rest ∧
        (b, address.toNat) ∈ Listing.memory (Listing.image i)) := by
  obtain ⟨k, ⟨before, line, after, rfl, rfl⟩, hk⟩ := h.declared_mem_records_iff.mp hmem
  obtain ⟨pre, post, hpre, hpost, hbytes⟩ := h.emitted.exists_around_label
  rw [← hpre.length_eq] at hk
  refine ⟨before, line, after, pre, post, rfl, hpre, hpost, hbytes, hk, fun hend => ?_⟩
  cases post with
  | nil =>
      rw [List.append_nil] at hbytes
      rw [hbytes] at hk
      exact absurd hk hend
  | cons b rest =>
      refine ⟨b, rest, rfl, ?_⟩
      rw [Listing.memory_image, ← hbytes, hk, List.zipIdx_append]
      exact List.mem_append_right _ (.head _)

end

/-! ### Runs that print a listing -/

namespace Command

variable {o : Options} {d : Disk} {text : String} {ts : List Token} {i : Image}

/-- A run that is asked for a listing shows it behind what the assembler has recorded. One thing
follows, which is the size of the file if the run succeeds. -/
lemma exists_events_listing (hd : d.readText o.input = .ok text) (hts : tokens text = .ok ts)
    (ht : o.tokensOnly = false) (hlisting : o.listing = true)
    (hi : (assemble ts).outcome = .ok i) :
    ∃ last, (run o d).events = (.started o :: .assembler (.lexed ts.length) ::
        (assemble ts).records.map .assembler) ++ [.printed (Listing.image i)] ++ [last] ∧
      ((run o d).exit = 0 → last = .wrote i.size o.target) := by
  have hreported : reported o ts i = (.assembler (.lexed ts.length) ::
      (assemble ts).records.map .assembler) ++ [.printed (Listing.image i)] := by
    rw [reported, if_pos hlisting]
  cases hs : savedOn d (output o i) with
  | error f =>
      rw [(Ends.unsaved hd hts ht hi hs).run_eq, hreported]
      exact ⟨.failed f, rfl, fun h => (by cases h)⟩
  | ok u =>
      rw [(Ends.saved hd hts ht hi hs).run_eq, hreported]
      exact ⟨.wrote i.size o.target, rfl, fun _ => rfl⟩

/-- What a run that is asked for a listing prints: the listing at every level, and at the first two
levels nothing else, if the run succeeds. -/
lemma exists_transcript_listing (hd : d.readText o.input = .ok text) (hts : tokens text = .ok ts)
    (ht : o.tokensOnly = false) (hlisting : o.listing = true)
    (hi : (assemble ts).outcome = .ok i) (level : Level) (time : String) :
    ∃ before after, transcript level time (run o d).events =
        before ++ (Listing.image i ++ "\n") ++ after ∧
      ((run o d).exit = 0 → level = .error ∨ level = .warn → before = "" ∧ after = "") := by
  obtain ⟨last, hevents, hlast⟩ := exists_events_listing hd hts ht hlisting hi
  rw [hevents, transcript_append, transcript_append, transcript_printed]
  refine ⟨_, _, rfl, fun hexit hlevel => ?_⟩
  have hshows : level.shows .info = false ∧ level.shows .debug = false := by
    rcases hlevel with rfl | rfl <;> exact ⟨rfl, rfl⟩
  have hrecord : ∀ r : Record, Event.shown level (.assembler r) = false := by
    intro r
    cases r with
    | lexed | declared | encoded => exact hshows.2
    | assembled => exact hshows.1
  constructor
  · refine transcript_of_not_shown ?_ time
    simp only [List.forall_mem_cons, List.forall_mem_map]
    exact ⟨hshows.2, hrecord _, fun r _ => hrecord r⟩
  · have hwrote : Event.shown level (.wrote i.size o.target) = false := hshows.1
    rw [hlast hexit]
    exact transcript_of_not_shown (List.forall_mem_singleton.mpr hwrote) time

end Command

/-! ### All listings -/

/-- **The listing determines the image and agrees with the labels.** The listing of an assembled
image has a row for every two bytes. Each row has the address of its first byte in four digits, and
its bytes in two digits each; there are two of them, except in the last row if the number of bytes
is odd. A row is its cells with a space between them. The cells of the second column, one after the
other, are read as the bytes of the image, and with the addresses as the bytes at the addresses from
`0x200` on, so images with the same listing are the same. Every label has one record in the log. Its
address, unless it is that of the end of the image, is where the listing has the first byte that is
emitted behind the declaration. If the listing is asked for, it is what is printed, at every level;
before and behind it stand log records only, and none where just errors or warnings are logged and
the run succeeds. -/
theorem image_listing_determines {ts : List Token} {i : Image}
    (h : (assemble ts).outcome = .ok i) :
    (Grid.cells (Listing.image i)).length = (i.size + 1) / 2 ∧
    (∀ k < (i.size + 1) / 2, ∃ r, (Grid.cells (Listing.image i))[k]? = some r ∧
      Listing.IsRow (0x200 + 2 * k) ((i.toList.drop (2 * k)).take 2) r) ∧
    Listing.image i =
      String.join ((Grid.cells (Listing.image i)).map fun r => " ".intercalate r ++ "\n") ∧
    Hex.bytes ((Grid.cells (Listing.image i)).flatMap fun r => (r.getD 1 "").toList) = i.toList ∧
    Listing.memory (Listing.image i) = i.toList.zipIdx 0x200 ∧
    (∀ j : Image, Listing.image j = Listing.image i → j = i) ∧
    (∀ name, Declares ts name → ∃! address, .declared name address ∈ (assemble ts).records) ∧
    (∀ name address, .declared name address ∈ (assemble ts).records →
      (∃ digits, (Record.declared name address).message = "label `" ++ name ++ "` => 0x" ++ digits ∧
        IsNumeral digits.toList address.toNat) ∧
      ∃ before line after pre post,
        IsLayout ts (before ++ .label name line :: after) i.toList ∧
        Layout.Emitted [] before pre ∧ Layout.Emitted (before ++ [.label name line]) after post ∧
        pre ++ post = i.toList ∧ address.toNat = 0x200 + pre.length ∧
        (address.toNat ≠ 0x200 + i.size → ∃ b rest, post = b :: rest ∧
          (b, address.toNat) ∈ Listing.memory (Listing.image i))) ∧
    ∀ text o, tokens text = .ok ts → o.tokensOnly = false → o.listing = true →
      (Command.prepare o (.ok text)).records =
        .started o :: .assembler (.lexed ts.length) ::
          ((assemble ts).records.map .assembler ++ [.printed (Listing.image i)]) ∧
      ∀ d : Disk, d.readText o.input = .ok text →
        (∀ level time, ∃ before after, Command.transcript level time (Command.run o d).events =
            before ++ (Listing.image i ++ "\n") ++ after ∧
          ((Command.run o d).exit = 0 → level = .error ∨ level = .warn →
            before = "" ∧ after = "")) ∧
        ∀ args, Arguments.parse args = .ok (.run o) → (Command.respond args d).stdout =
          Command.transcript o.level "" (Command.run o d).events := by
  obtain ⟨segs, hl⟩ := exists_isLayout_of_assemble h
  refine ⟨?_, fun k hk => ?_, ?_, Listing.bytes_image i, Listing.memory_image i, fun j hj => ?_,
    fun name hname => hl.existsUnique_declared hname, fun name address hmem => ⟨?_, ?_⟩,
    fun text o htext ht hlisting => ⟨?_, fun d hd => ⟨fun level time => ?_, fun args hargs => ?_⟩⟩⟩
  · rw [Listing.cells_image, Listing.length_imageRows, Image.length_toList]
  · rw [Listing.cells_image]
    have hlt : k < (Listing.imageRows 0x200 i.toList).length := by
      rwa [Listing.length_imageRows, Image.length_toList]
    have hrow := List.getElem?_eq_getElem hlt
    exact ⟨_, hrow, Listing.isRow_imageRows (Listing.base_add_length_le i) hrow⟩
  · rw [Listing.cells_image]
    exact Listing.image_eq_join i
  · refine Image.eq_of_toList_eq ?_
    rw [← Listing.bytes_image j, hj, Listing.bytes_image i]
  · exact ⟨Hex.padded 3 address.toNat, rfl, Hex.isNumeral_padded 3 _⟩
  · obtain ⟨before, line, after, pre, post, rfl, hbyte⟩ := hl.exists_byte_at_label hmem
    exact ⟨before, line, after, pre, post, hl, hbyte⟩
  · rw [Command.prepare_of_tokens htext, Command.afterTokens_of_ok ht h, if_pos hlisting]
  · exact Command.exists_transcript_listing hd htext ht hlisting h level time
  · rw [Command.respond_of_parse hargs]

/-- A byte of data, a label, and an instruction. -/
def labelBehindByte : List Token :=
  [⟨.literal 0xAB#64, 1⟩, ⟨.label "a", 2⟩, ⟨.instruction "CLS", 3⟩]

/-- A label that is not at the beginning of a row. -/
theorem image_listing_determines_odd :
    ∃ i, (assemble labelBehindByte).outcome = .ok i ∧
      Listing.image i = "0x0200: AB00\n0x0202: E0\n" ∧
      (∀ j : Image, Listing.image j = Listing.image i → j.toList = [0xAB, 0x00, 0xE0]) ∧
      .declared "a" 0x201#16 ∈ (assemble labelBehindByte).records ∧
      ∃ b, (b, 0x201) ∈ Listing.memory (Listing.image i) := by
  have h : (assemble labelBehindByte).outcome = .ok ⟨#[0xAB, 0x00, 0xE0], by decide⟩ := by
    decide +kernel
  have hrecords : (assemble labelBehindByte).records =
      [.declared "a" 0x201#16, .encoded 3 .cls 0x00E0#16, .assembled 3] := by decide +kernel
  have hmem : .declared "a" 0x201#16 ∈ (assemble labelBehindByte).records := by simp [hrecords]
  obtain ⟨-, -, -, -, -, hsame, -, hlabel, -⟩ := image_listing_determines h
  obtain ⟨-, _, _, _, _, _, -, -, -, -, -, hbyte⟩ := hlabel _ _ hmem
  obtain ⟨b, _, -, hb⟩ := hbyte (by decide)
  exact ⟨_, h, by decide +kernel, fun j hj => congrArg Image.toList (hsame j hj), hmem, b, hb⟩

end Chip8
