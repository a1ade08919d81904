/-
Assembling tokens into a store of fixed size.

The image of an assembly grows with what is written to it, and the tokens that are left are a
list. Here both are as a machine has them: a store of 4096 cells, of which the first ones are in
use, and an index into the tokens. Addresses are added up in sixteen bits.

* `Store`, `Store.put`: the cells, and writing bytes behind those in use, each to its own cell.
* `Store.Holds`: the image that a store holds; `Store.agrees_put`: writing keeps it.
* `Machine.turn`, `Machine.emit`: one statement, and all of them. A loop that does not end is a
  trap.
* `Machine.Holds`: what is true of a machine between two statements; `Machine.agrees_turn`,
  `Machine.agrees_loop`: a statement keeps it, and so does a whole assembly.
* `assembler_never_traps`: **neither scanning nor assembling ever traps**, on any input.
-/
import Mathlib.Tactic
import Chip8.Proofs.Encoding
import Chip8.Proofs.Scanning
import Chip8.Proofs.Tracing

namespace Chip8

open Checked

/-! ### The store -/

/-- Cells, of which the first ones are in use. -/
structure Store where
  cells : Array UInt8
  used : Nat

namespace Store

/-- The store before anything is written. -/
def fresh : Store := ⟨Array.replicate Image.capacity 0, 0⟩

/-- Asks for room behind the cells in use. -/
def reserve (s : Store) (n : Nat) : Checked Unit :=
  if Image.capacity < s.used + n then .error (.imageFull Image.capacity) else .value ()

/-- Writes to a cell, which has to be there. -/
def set (s : Store) (index : Nat) (b : UInt8) : Checked Store :=
  if h : index < s.cells.size then .value { s with cells := s.cells.set index b h }
  else .trap (.outOfBounds index)

/-- Writes bytes to cells, from a cell on. -/
def setAll (s : Store) (index : Nat) : List UInt8 → Checked Store
  | [] => .value s
  | b :: bs => do (← s.set index b).setAll (index + 1) bs

/-- Writes bytes behind the cells in use, if there is room for all of them. -/
def put (s : Store) (bs : List UInt8) : Checked Store := do
  s.reserve bs.length
  let s ← s.setAll s.used bs
  return { s with used := s.used + bs.length }

/-- The bytes of the cells in use, all of which have to be there. -/
def content (s : Store) : Checked (List UInt8) :=
  if s.used ≤ s.cells.size then .value (s.cells.toList.take s.used)
  else .trap (.outOfBounds s.used)

/-- The store has all its cells, and an image is in those in use. -/
structure Holds (s : Store) (i : Image) : Prop where
  size : s.cells.size = 4096
  used : s.used = i.size
  bytes : s.cells.toList.take s.used = i.toList

variable {s : Store} {i : Image}

lemma Holds.used_le (h : s.Holds i) : s.used ≤ 4096 := h.used ▸ i.size_le

lemma holds_fresh : fresh.Holds .empty := ⟨Array.size_replicate, rfl, rfl⟩

lemma content_of_holds (h : s.Holds i) : s.content = .value i.toList := by
  have hle : s.used ≤ s.cells.size := h.size ▸ h.used_le
  rw [content, if_pos hle, h.bytes]

lemma take_set_self {l : List UInt8} {index : Nat} (h : index < l.length) (b : UInt8) :
    (l.set index b).take (index + 1) = l.take index ++ [b] := by
  rw [List.take_add_one, List.getElem?_set_self h, List.take_set_of_le le_rfl]
  rfl

/-- Cells that are there can be written, and those before them are left as they are. -/
lemma exists_setAll (s : Store) (index : Nat) (bs : List UInt8)
    (h : index + bs.length ≤ s.cells.size) :
    ∃ cells, s.setAll index bs = .value { s with cells } ∧ cells.size = s.cells.size ∧
      cells.toList.take (index + bs.length) = s.cells.toList.take index ++ bs := by
  induction bs generalizing s index with
  | nil => exact ⟨s.cells, rfl, rfl, (List.append_nil _).symm⟩
  | cons b bs ih =>
      rw [List.length_cons] at h
      have hlt : index < s.cells.size := by omega
      have hset : s.set index b = .value { s with cells := s.cells.set index b hlt } :=
        dif_pos hlt
      obtain ⟨cells, hall, hsize, htake⟩ :=
        ih { s with cells := s.cells.set index b hlt } (index + 1) (by
          rw [Array.size_set]
          omega)
      refine ⟨cells, ?_, ?_, ?_⟩
      · rw [setAll, hset, value_bind, hall]
      · rw [hsize, Array.size_set]
      · calc cells.toList.take (index + (b :: bs).length)
            = cells.toList.take (index + 1 + bs.length) := by
              rw [List.length_cons, Nat.add_right_comm, Nat.add_assoc]
          _ = (s.cells.set index b hlt).toList.take (index + 1) ++ bs := htake
          _ = s.cells.toList.take index ++ [b] ++ bs := by
              rw [Array.toList_set, take_set_self (by rwa [Array.length_toList])]
          _ = s.cells.toList.take index ++ b :: bs := by
              rw [List.append_assoc, List.singleton_append]

/-- **Writing never leaves the store**, and writes what is appended to the image. -/
lemma agrees_put (h : s.Holds i) (bs : List UInt8) : Agrees Holds (s.put bs) (i.append bs) := by
  rw [put, reserve, h.used]
  cases happend : i.append bs with
  | error e =>
      obtain ⟨hfull, rfl⟩ := Image.append_eq_error_iff.mp happend
      rw [if_pos hfull]
      exact .error _
  | ok j =>
      obtain ⟨hroom, hj⟩ := Image.append_eq_ok_iff.mp happend
      obtain ⟨cells, hall, hsize, htake⟩ := exists_setAll s i.size bs (h.size ▸ hroom)
      rw [if_neg (Nat.not_lt.mpr hroom), value_bind, hall, value_bind]
      refine .value ⟨hsize.trans h.size, ?_, ?_⟩
      · calc s.used + bs.length
            = (i.toList ++ bs).length := by rw [List.length_append, Image.length_toList, h.used]
          _ = j.size := by rw [← hj, Image.length_toList]
      · calc cells.toList.take (s.used + bs.length)
            = s.cells.toList.take s.used ++ bs := by rw [h.used, htake]
          _ = j.toList := by rw [h.bytes, hj]

end Store

/-! ### The machine -/

/-- The store, the labels declared so far, and the index of the next token. -/
structure Machine where
  store : Store
  labels : Labels
  index : Nat

namespace Machine

/-- The machine before the first statement. -/
def start : Machine := ⟨.fresh, .empty, 0⟩

/-- The address of the next byte, added up in sixteen bits. -/
def here (m : Machine) : Checked Word := do plus Image.base (← narrow 16 m.store.used)

/-- Carries out the statement that begins at the index. -/
def turn (ts : List Token) (m : Machine) : Checked Machine := do
  let (t, index) ← Cursor.next ts m.index
  match t.lexeme with
  | .label name => do
    let labels ← Checked.ofExcept (m.labels.declare name (← m.here) t.line)
    return { m with labels, index }
  | .literal v => do
    let b ← (Lexeme.literal v).low 8
    let store ← m.store.put [⟨← narrow 8 b.toNat⟩]
    return { m with store, index }
  | .instruction name =>
    match Mnemonic.ofName? name with
    | none => .error (.unknownMnemonic name t.line)
    | some k => do
      let (w, index) ← Cursor.encode ts m.labels k index
      let store ← m.store.put w.bytes
      return { m with store, index }
  | .register _ | .name _ =>
    .error (.unexpectedKind [.label, .literal, .instruction] t.kind t.line)

/-- Carries out statements until there are no tokens left, in a number of turns at most. -/
def loop (ts : List Token) : Nat → Machine → Checked Machine
  | 0, _ => .trap .endless
  | turns + 1, m => if m.index < ts.length then do loop ts turns (← m.turn ts) else .value m

/-- Assembles tokens. There cannot be more statements than tokens. -/
def emit (ts : List Token) : Checked (List UInt8) := do
  (← loop ts (ts.length + 1) start).store.content

/-- The machine is in the state of an assembly, and its index is within the tokens. -/
structure Holds (ts : List Token) (m : Machine) (a : Assembly) : Prop where
  store : m.store.Holds a.image
  labels : m.labels = a.labels
  index : m.index ≤ ts.length

variable {ts : List Token} {m : Machine} {a : Assembly}

lemma holds_start : start.Holds ts .start := ⟨Store.holds_fresh, rfl, Nat.zero_le _⟩

/-- **The address of the next byte fits into sixteen bits.** -/
lemma here_eq (h : m.Holds ts a) : m.here = .value a.here := by
  have hused : m.store.used ≤ 4096 := h.store.used_le
  have hbase : Image.base.toNat = 0x200 := rfl
  have hnat : (BitVec.ofNat 16 m.store.used).toNat = m.store.used := by
    rw [BitVec.toNat_ofNat, Nat.mod_eq_of_lt (by omega)]
  rw [here, narrow_of_lt (by omega), value_bind, plus_of_lt (by omega), h.store.used]
  rfl

end Machine

/-! ### The statements of an assembly, one by one -/

namespace Assembly

variable {a : Assembly}

/-- The next statement is read from the tokens and carried out. -/
def advance (a : Assembly) (ts : List Token) : Except Error (Assembly × List Token) :=
  match Statement.read ts with
  | .ok s rest => (a.step s).outcome.map (·, rest)
  | .error e _ => .error e

lemma advance_of_ok {s : Statement} {ts rest : List Token} (h : Statement.read ts = .ok s rest) :
    a.advance ts = (a.step s).outcome.map (·, rest) := by
  rw [advance, h]

lemma advance_of_error {e : Error} {ts rest : List Token} (h : Statement.read ts = .error e rest) :
    a.advance ts = .error e := by
  rw [advance, h]

/-- An assembly carries out one statement after the other. -/
lemma outcome_resume_cons (t : Token) (ts : List Token) :
    (a.resume (t :: ts)).outcome =
      a.advance (t :: ts) >>= fun p => (p.1.resume p.2).outcome := by
  cases hread : Statement.read (t :: ts) with
  | error e rest =>
      rw [resume_of_error (List.cons_ne_nil t ts) hread, advance_of_error hread]
      rfl
  | ok s rest =>
      rw [resume_of_ok hread, advance_of_ok hread]
      cases hstep : (a.step s).outcome with
      | error e =>
          rw [Logged.bind_of_error hstep]
          rfl
      | ok b =>
          rw [Logged.bind_of_ok hstep]
          rfl

/-- A label is bound to the address of the next byte. -/
lemma advance_label (name : String) (line : Nat) (ts : List Token) :
    a.advance (⟨.label name, line⟩ :: ts) =
      (a.labels.declare name a.here line).map fun labels => ({ a with labels }, ts) := by
  rw [advance_of_ok rfl, step]
  cases h : a.labels.declare name a.here line with
  | error e =>
      rw [Logged.bind_of_error rfl]
      rfl
  | ok labels =>
      rw [Logged.bind_of_ok rfl]
      rfl

/-- A byte of data is written. -/
lemma advance_data (v : BitVec 64) (line : Nat) (ts : List Token) :
    a.advance (⟨.literal v, line⟩ :: ts) =
      (a.image.append [⟨(Lexeme.literal v).byte⟩]).map fun image => ({ a with image }, ts) := by
  rw [advance_of_ok rfl, step, write]
  cases a.image.append [⟨(Lexeme.literal v).byte⟩] <;> rfl

/-- The word of an instruction is written. -/
lemma advance_instruction {name : String} {k : Mnemonic} (hk : Mnemonic.ofName? name = some k)
    (line : Nat) (ts : List Token) :
    a.advance (⟨.instruction name, line⟩ :: ts) =
      Cursor.result (k.encode a.labels) ts >>= fun p =>
        (a.image.append p.1.bytes).map fun image => ({ a with image }, p.2) := by
  rw [Cursor.encode_eq, Cursor.settling, Cursor.result_bind]
  cases hops : k.operands ts with
  | error e rest =>
      rw [advance_of_error (Statement.read_instruction_of_error hk hops), Cursor.result, hops]
      rfl
  | ok i rest =>
      rw [advance_of_ok (Statement.read_instruction_of_ok hk hops), Cursor.result, hops, step]
      change _ = Cursor.result (ofExcept (i.settle a.labels)) rest >>= _
      rw [Instruction.settle]
      cases i.resolve a.labels with
      | error e =>
          rw [Logged.bind_of_error rfl]
          rfl
      | ok r =>
          rw [Logged.bind_of_ok rfl]
          change (a.write r.word.bytes).map _ = (a.image.append r.word.bytes).map _
          rw [write]
          cases a.image.append r.word.bytes <;> rfl

end Assembly

/-! ### The machine and the assembly -/

namespace Machine

variable {ts : List Token} {m : Machine} {a : Assembly}

/-- A machine that has got on from an index to the state of an assembly, with the tokens behind it
that are left. -/
structure Reached (ts : List Token) (index : Nat) (m : Machine) (p : Assembly × List Token) :
    Prop where
  holds : m.Holds ts p.1
  rest : ts.drop m.index = p.2
  lt : index < m.index

/-- A store to which bytes have been written is the next state of the machine. -/
lemma agrees_write (h : m.Holds ts a) {index : Nat} (hlt : m.index < index)
    (hlen : index ≤ ts.length) (bs : List UInt8) :
    Agrees (Reached ts m.index) (do return { m with store := ← m.store.put bs, index })
      ((a.image.append bs).map fun image => ({ a with image }, ts.drop index)) := by
  have hput := Store.agrees_put h.store bs
  generalize m.store.put bs = c at hput
  generalize a.image.append bs = x at hput
  cases hput with
  | value hs => exact .value ⟨⟨hs, h.labels, hlen⟩, rfl, hlt⟩
  | error e => exact .error e

/-- A byte that was widened to a word can be narrowed again. -/
lemma narrow_byte (b : BitVec 8) : narrow 8 (b.setWidth 16).toNat = .value b := by
  have hb := b.isLt
  have hnat : (b.setWidth 16).toNat = b.toNat := by
    rw [BitVec.toNat_setWidth, Nat.mod_eq_of_lt (by omega)]
  rw [hnat, narrow_of_lt hb, BitVec.ofNat_toNat, BitVec.setWidth_eq]

/-- **A step.** Carrying out a statement does not trap, and keeps what is true of the machine. -/
theorem agrees_turn (h : m.Holds ts a) (hlt : m.index < ts.length) :
    Agrees (Reached ts m.index) (m.turn ts) (a.advance (ts.drop m.index)) := by
  have hdrop : ts.drop m.index = ts[m.index] :: ts.drop (m.index + 1) :=
    List.drop_eq_getElem_cons hlt
  have hnext : Cursor.next ts m.index = .value (ts[m.index], m.index + 1) := by
    rw [Cursor.next, List.getElem?_eq_getElem hlt]
  rw [hdrop, turn, hnext, value_bind]
  generalize ts[m.index] = t
  obtain ⟨l, line⟩ := t
  cases l with
  | label name =>
      rw [Assembly.advance_label]
      dsimp only
      rw [here_eq h, value_bind, h.labels]
      cases a.labels.declare name a.here line with
      | error e => exact .error e
      | ok labels => exact .value ⟨⟨h.store, rfl, hlt⟩, rfl, Nat.lt_succ_self _⟩
  | literal v =>
      rw [Assembly.advance_data]
      dsimp only
      rw [Lexeme.low_eight, value_bind, narrow_byte, value_bind]
      exact agrees_write h (Nat.lt_succ_self _) hlt _
  | instruction name =>
      dsimp only
      cases hk : Mnemonic.ofName? name with
      | none =>
          rw [Assembly.advance_of_error (Statement.read_instruction_of_none hk)]
          exact .error _
      | some k =>
          have hfollows : Cursor.Follows ts (Cursor.encode ts m.labels k) (k.encode a.labels) := by
            rw [h.labels]
            exact Cursor.follows_encode k
          rw [Assembly.advance_instruction hk]
          refine (hfollows (m.index + 1) hlt).bind ?_
          rintro ⟨w, index⟩ ⟨w', rest⟩ ⟨rfl, rfl, hle, hlen⟩
          exact agrees_write h hle hlen w.bytes
  | register r => exact .error _
  | name s => exact .error _

/-- **A run.** With more turns than there are tokens left, the machine comes to the end of the
assembly. -/
theorem agrees_loop {turns : Nat} (h : m.Holds ts a) (hturns : ts.length - m.index < turns) :
    Agrees (fun m i => m.store.Holds i) (loop ts turns m)
      (a.resume (ts.drop m.index)).outcome := by
  -- by induction on the turns; each leaves fewer tokens
  induction turns generalizing m a with
  | zero => omega
  | succ turns ih =>
      rw [loop]
      by_cases hlt : m.index < ts.length
      · have hturn := agrees_turn h hlt
        rw [List.drop_eq_getElem_cons hlt] at hturn ⊢
        rw [if_pos hlt, Assembly.outcome_resume_cons]
        refine hturn.bind ?_
        rintro m' ⟨b, rest⟩ ⟨hm', rfl, hindex⟩
        exact ih hm' (by omega)
      · rw [if_neg hlt, List.drop_eq_nil_of_le (Nat.not_lt.mp hlt), Assembly.resume_nil]
        exact .value h.store

/-- Assembling by the machine gives the image. -/
lemma emit_eq (ts : List Token) :
    emit ts = .ofExcept ((assemble ts).outcome.map Image.toList) := by
  have hloop : Agrees (fun m i => m.store.Holds i) (loop ts (ts.length + 1) start)
      (assemble ts).outcome := agrees_loop holds_start (Nat.lt_succ_self _)
  rw [emit]
  generalize loop ts (ts.length + 1) start = c at hloop
  generalize (assemble ts).outcome = x at hloop
  cases hloop with
  | value h => exact Store.content_of_holds h
  | error e => rfl

/-- The states of the machine between statements. -/
inductive Reachable (ts : List Token) : Machine → Prop
  | start : Reachable ts start
  | turn {m m' : Machine} (h : Reachable ts m) (hlt : m.index < ts.length)
      (hturn : m.turn ts = .value m') : Reachable ts m'

/-- Every state that is reached is that of an assembly. -/
lemma Reachable.exists_holds (h : Reachable ts m) : ∃ a, m.Holds ts a := by
  induction h with
  | start => exact ⟨_, holds_start⟩
  | @turn m m' _ hlt hturn ih =>
      obtain ⟨a, ha⟩ := ih
      have hagrees := agrees_turn ha hlt
      rw [hturn] at hagrees
      generalize a.advance (ts.drop m.index) = x at hagrees
      cases hagrees with
      | value hreached => exact ⟨_, hreached.holds⟩

lemma turn_ne_trap (h : m.Holds ts a) (t : Trap) : m.turn ts ≠ .trap t := by
  by_cases hlt : m.index < ts.length
  · exact (agrees_turn h hlt).ne_trap t
  · have hnext : Cursor.next ts m.index = .error .endOfInput := by
      rw [Cursor.next, List.getElem?_eq_none (Nat.not_lt.mp hlt)]
    rw [turn, hnext]
    exact fun he => (by cases he)

end Machine

/-- Tokens are not refused for a place that cannot be read. -/
lemma assemble_ne_unreadable (ts : List Token) (line : Nat) (fragment : String) :
    (assemble ts).outcome ≠ .error (.unreadable line fragment) := by
  intro he
  have hfail : assemble ts = ⟨(assemble ts).records, .error (.unreadable line fragment)⟩ := by
    rw [← he]
  obtain ⟨segs, img, rest, last, -, -, hf, -⟩ := assemble_eq_failure_iff.mp hfail
  cases hf with
  | refused hm h =>
      rcases Mnemonic.isOfOperand_of_encode h with h' | h'
      · cases h'
      · exact h'

/-- **Neither scanning nor assembling ever traps.** Scanning a text cuts it between characters, asks
for groups that are there, and ends because every operand takes a byte or more; its only error is a
place that cannot be read. Assembling tokens, whatever they are, has a cell for every byte and
sixteen bits for every address, and its errors are the others. -/
theorem assembler_never_traps (text : String) (ts : List Token) :
    (Source.scanText text = .ofExcept (Source.tokens text) ∧
      (∀ t, Source.scanText text ≠ .trap t) ∧
      (∀ r ∈ Source.headRules ++ Source.operandRules, ∀ s m, r.pattern.match? s = some m →
        ∃ l, r.build m = .value l) ∧
      (∀ s l length, Source.firstMatch s Source.operandRules = .value (some (l, length)) →
        0 < length) ∧
      ∀ e, Source.tokens text = .error e → ∃ line fragment, e = .unreadable line fragment) ∧
    (Machine.emit ts = .ofExcept ((assemble ts).outcome.map Image.toList) ∧
      (∀ t, Machine.emit ts ≠ .trap t) ∧
      (∀ m, Machine.Reachable ts m → m.store.cells.size = 4096 ∧ m.store.used ≤ 4096 ∧
        0x200 + m.store.used < 2 ^ 16 ∧ m.index ≤ ts.length ∧ ∀ t, m.turn ts ≠ .trap t) ∧
      ∀ line fragment, (assemble ts).outcome ≠ .error (.unreadable line fragment)) := by
  refine ⟨⟨Source.scanText_eq text, fun t => ?_, fun r hr s m h => ?_, fun s l length h => ?_,
    fun e he => ?_⟩, Machine.emit_eq ts, fun t => ?_, fun m hm => ?_, assemble_ne_unreadable ts⟩
  · rw [Source.scanText_eq]
    exact (agrees_ofExcept _).ne_trap t
  · exact Source.exists_value_of_match? hr h
  · exact Source.length_pos_of_firstMatch h
  · exact Source.exists_unreadable he
  · rw [Machine.emit_eq]
    exact (agrees_ofExcept _).ne_trap t
  · obtain ⟨a, ha⟩ := hm.exists_holds
    have hused : m.store.used ≤ 4096 := ha.store.used_le
    exact ⟨ha.store.size, hused, by omega, ha.index, Machine.turn_ne_trap ha⟩

end Chip8
