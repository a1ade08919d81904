/-
Histories of calls.

An image is written to by calls, a byte or a word at a time. A call for which there is no room is
refused, and whoever makes the calls may go on with others. What is in the image after any such
history can be told from the calls that were not refused. A store of fixed size, to which the bytes
are written in place, has the same history: what was in its cells before, or would have been written
by a call that was refused, is never seen.

* `History.answer`, `History.next`: a call on a state, which stays there if the call fails.
* `History.answers`, `History.after`, `History.succeeding`: what calls answer, the state that they
  leave, and those of them that succeed.
* `History.simulates`: **two states with the same history**, if this is so for every single call.
* `Image.Call`, `Image.toList_next`, `Image.toList_after`: writing to an image; what a call adds,
  and what a history does.
* `Store.Work`, `Store.putInPlace`: writing to a store cell by cell. What has been done to the store
  stays done, however the work ends.
* `Store.call_of_full`, `Store.simulates_call`: a call that is refused does nothing to the store,
  and every call does to it what it does to the image.
* `writing_history`: **the bytes of an image are those of the calls that succeeded**, and a call
  fails exactly if there is no room for it.
-/
import Mathlib.Tactic
import Chip8.Proofs.Emission

namespace Chip8

/-! ### Calls one after the other -/

namespace History

variable {ε ε' σ τ κ α : Type} (call : κ → EStateM ε σ α)

/-- What a call answers in a state. -/
def answer (s : σ) (c : κ) : Except ε α :=
  match call c s with
  | .ok a _ => .ok a
  | .error e _ => .error e

/-- The state that a call leaves, also if it fails. -/
def next (s : σ) (c : κ) : σ :=
  match call c s with
  | .ok _ t => t
  | .error _ t => t

/-- What calls answer, in order. -/
def answers (s : σ) : List κ → List (Except ε α)
  | [] => []
  | c :: cs => answer call s c :: answers (next call s c) cs

/-- The state that calls leave, going on after those that fail. -/
def after (s : σ) : List κ → σ
  | [] => s
  | c :: cs => after (next call s c) cs

/-- The calls that succeed, in order. -/
def succeeding (s : σ) : List κ → List κ
  | [] => []
  | c :: cs => (if (answer call s c).isOk then [c] else []) ++ succeeding (next call s c) cs

lemma after_append (s : σ) (cs ds : List κ) :
    after call s (cs ++ ds) = after call (after call s cs) ds := by
  induction cs generalizing s with
  | nil => rfl
  | cons c cs ih => exact ih (next call s c)

lemma after_concat (s : σ) (cs : List κ) (c : κ) :
    after call s (cs ++ [c]) = next call (after call s cs) c :=
  after_append call s cs [c]

variable {call}

/-- **Two states with the same history.** If every call gives corresponding answers in related
states and leaves related states, then so do all calls, one after the other. -/
theorem simulates {call' : κ → EStateM ε' τ α} {R : σ → τ → Prop} {f : Except ε α → Except ε' α}
    (hcall : ∀ s t c, R s t →
      answer call' t c = f (answer call s c) ∧ R (next call s c) (next call' t c))
    {s : σ} {t : τ} (h : R s t) (cs : List κ) :
    answers call' t cs = (answers call s cs).map f ∧ R (after call s cs) (after call' t cs) := by
  induction cs generalizing s t with
  | nil => exact ⟨rfl, h⟩
  | cons c cs ih =>
      obtain ⟨hanswer, hnext⟩ := hcall s t c h
      obtain ⟨hanswers, hafter⟩ := ih hnext
      refine ⟨?_, hafter⟩
      rw [answers, answers, List.map_cons, hanswer, hanswers]

end History

open History

/-! ### Writing to an image -/

namespace Image

/-- A call that writes to an image: a byte, or a word. -/
inductive Call where
  | byte (b : UInt8)
  | word (w : Word)
  deriving DecidableEq, Repr

/-- The bytes that a call is about. A word has its high byte first. -/
def Call.bytes : Call → List UInt8
  | byte b => [b]
  | word w => [UInt8.ofNat (w.toNat / 256), UInt8.ofNat w.toNat]

/-- Writes bytes behind those that are there. -/
def write (bs : List UInt8) : EStateM Error Image Unit := do
  let i ← get
  set (← ofExcept (i.append bs))

/-- Carries out a call. -/
def call : Call → EStateM Error Image Unit
  | .byte b => write [b]
  | .word w => write w.bytes

variable {i : Image} {c : Call}

lemma call_eq_write (c : Call) : call c = write c.bytes := by
  cases c with
  | byte b => rfl
  | word w => rw [call, Call.bytes, Word.bytes_eq_ofNat]

/-- A call appends its bytes to the image, or leaves it as it is. -/
lemma call_eq (i : Image) (c : Call) :
    call c i =
      match i.append c.bytes with
      | .ok j => .ok () j
      | .error e => .error e i := by
  rw [call_eq_write]
  change (ofExcept (i.append c.bytes) >>= set : EStateM Error Image Unit) i = _
  cases i.append c.bytes <;> rfl

lemma call_of_ok {j : Image} (h : i.append c.bytes = .ok j) : call c i = .ok () j := by
  rw [call_eq, h]

lemma call_of_error {e : Error} (h : i.append c.bytes = .error e) : call c i = .error e i := by
  rw [call_eq, h]

/-- A call succeeds if there is room for its bytes. -/
lemma answer_eq_ok_iff : answer call i c = .ok () ↔ i.size + c.bytes.length ≤ capacity := by
  cases happend : i.append c.bytes with
  | ok j => simp [answer, call_of_ok happend, (append_eq_ok_iff.mp happend).1]
  | error e => simp [answer, call_of_error happend, (append_eq_error_iff.mp happend).1]

/-- It fails if there is not, and for no other reason. -/
lemma answer_eq_error_iff {e : Error} :
    answer call i c = .error e ↔
      capacity < i.size + c.bytes.length ∧ e = .imageFull capacity := by
  rw [← append_eq_error_iff]
  cases happend : i.append c.bytes with
  | ok j => simp [answer, call_of_ok happend]
  | error e => simp [answer, call_of_error happend]

/-- A call that fails leaves the image as it was. -/
lemma next_of_full (h : capacity < i.size + c.bytes.length) : next call i c = i := by
  have happend : i.append c.bytes = .error (.imageFull capacity) :=
    append_eq_error_iff.mpr ⟨h, rfl⟩
  rw [next, call_of_error happend]

/-- **A call** adds its bytes if it succeeds. -/
theorem toList_next (i : Image) (c : Call) :
    (next call i c).toList = i.toList ++ if (answer call i c).isOk then c.bytes else [] := by
  cases happend : i.append c.bytes with
  | ok j =>
      rw [answer, next, call_of_ok happend]
      exact (append_eq_ok_iff.mp happend).2
  | error e =>
      rw [answer, next, call_of_error happend]
      exact (List.append_nil _).symm

lemma toList_next_of_ok (h : answer call i c = .ok ()) :
    (next call i c).toList = i.toList ++ c.bytes := by
  rw [toList_next, h]
  rfl

/-- **A history** adds the bytes of the calls that succeed. -/
theorem toList_after (i : Image) (cs : List Call) :
    (after call i cs).toList = i.toList ++ (succeeding call i cs).flatMap Call.bytes := by
  induction cs generalizing i with
  | nil => exact (List.append_nil _).symm
  | cons c cs ih =>
      rw [after, succeeding, ih, toList_next, List.append_assoc, List.flatMap_append]
      cases (answer call i c).isOk <;> simp

end Image

/-! ### Writing to a store in place -/

namespace Store

/-- What ends work before it is done. -/
inductive Halt where
  | error (e : Error)
  | trap (t : Trap)
  deriving DecidableEq, Repr

/-- Work on a store in place: what has been done to it stays done, however the work ends. -/
abbrev Work := EStateM Halt Store

/-- A step that is checked. -/
def checked {α : Type} : Checked α → Work α
  | .value a => return a
  | .error e => throw (.error e)
  | .trap t => throw (.trap t)

/-- Writes bytes to cells one by one, from a cell on. -/
def setInPlace (index : Nat) : List UInt8 → Work Unit
  | [] => return
  | b :: bs => do
    let s ← get
    MonadStateOf.set (← checked (s.set index b))
    setInPlace (index + 1) bs

/-- Asks for room, writes bytes to the cells behind those in use, and counts these as used. -/
def putInPlace (bs : List UInt8) : Work Unit := do
  let s ← get
  checked (s.reserve bs.length)
  setInPlace s.used bs
  modify fun s => { s with used := s.used + bs.length }

/-- Carries out a call. -/
def call : Image.Call → Work Unit
  | .byte b => putInPlace [b]
  | .word w => putInPlace w.bytes

variable {s t : Store} {i : Image} {c : Image.Call}

lemma call_eq_putInPlace (c : Image.Call) : call c = putInPlace c.bytes := by
  cases c with
  | byte b => rfl
  | word w => rw [call, Image.Call.bytes, Word.bytes_eq_ofNat]

/-- Cells that can be written are written in place. -/
lemma setInPlace_of_value {index : Nat} {bs : List UInt8} (h : s.setAll index bs = .value t) :
    setInPlace index bs s = .ok () t := by
  induction bs generalizing s index with
  | nil =>
      cases h
      rfl
  | cons b bs ih =>
      obtain ⟨s', hset, hall⟩ := Checked.bind_eq_value_iff.mp h
      change (checked (s.set index b) >>= fun s => do
        MonadStateOf.set s
        setInPlace (index + 1) bs) s = _
      rw [hset]
      exact ih hall

/-- A store to which bytes can be written has them written in place. -/
lemma putInPlace_of_value {bs : List UInt8} (h : s.put bs = .value t) :
    putInPlace bs s = .ok () t := by
  obtain ⟨u, hroom, h⟩ := Checked.bind_eq_value_iff.mp h
  obtain ⟨s', hall, h⟩ := Checked.bind_eq_value_iff.mp h
  cases h
  change (checked (s.reserve bs.length) >>= fun _ =>
    setInPlace s.used bs >>= fun _ => modify _) s = _
  rw [hroom]
  change (setInPlace s.used bs >>= fun _ => modify _) s = _
  simp only [bind, EStateM.bind, setInPlace_of_value hall]
  rfl

/-- **A call that is refused does nothing to the store**: room is asked for before anything is
written. -/
lemma call_of_full (h : Image.capacity < s.used + c.bytes.length) :
    call c s = .error (.error (.imageFull Image.capacity)) s := by
  have hroom : s.reserve c.bytes.length = .error (.imageFull Image.capacity) := if_pos h
  rw [call_eq_putInPlace]
  change (checked (s.reserve c.bytes.length) >>= fun _ => _) s = _
  rw [hroom]
  rfl

/-- **A call** does to a store what it does to the image in it. -/
theorem simulates_call (h : s.Holds i) (c : Image.Call) :
    answer call s c = (answer Image.call i c).mapError .error ∧
      (next call s c).Holds (next Image.call i c) := by
  have hput := agrees_put h c.bytes
  cases happend : i.append c.bytes with
  | error e =>
      obtain ⟨hfull, rfl⟩ := Image.append_eq_error_iff.mp happend
      rw [← h.used] at hfull
      simp only [answer, next, call_of_full hfull, Image.call_of_error happend]
      exact ⟨rfl, h⟩
  | ok j =>
      rw [happend] at hput
      cases hvalue : s.put c.bytes with
      | error e =>
          rw [hvalue] at hput
          cases hput
      | trap t => exact absurd hvalue (hput.ne_trap t)
      | value t =>
          rw [hvalue] at hput
          obtain ⟨ht⟩ := hput
          have hcall : call c s = .ok () t := by rw [call_eq_putInPlace, putInPlace_of_value hvalue]
          simp only [answer, next, hcall, Image.call_of_ok happend]
          exact ⟨rfl, ht⟩

end Store

/-! ### All histories -/

/-- The image after calls on an empty one. -/
def Image.ofCalls (cs : List Image.Call) : Image := after Image.call .empty cs

/-- The store after calls on a fresh one. -/
def Store.ofCalls (cs : List Image.Call) : Store := after Store.call .fresh cs

lemma Image.ofCalls_concat (cs : List Image.Call) (c : Image.Call) :
    Image.ofCalls (cs ++ [c]) = next Image.call (Image.ofCalls cs) c :=
  after_concat Image.call .empty cs c

lemma Store.ofCalls_concat (cs : List Image.Call) (c : Image.Call) :
    Store.ofCalls (cs ++ [c]) = next Store.call (Store.ofCalls cs) c :=
  after_concat Store.call .fresh cs c

/-- Calls on an empty image and on a fresh store have the same history. -/
lemma simulates_ofCalls (cs : List Image.Call) :
    answers Store.call .fresh cs = (answers Image.call .empty cs).map (·.mapError .error) ∧
      (Store.ofCalls cs).Holds (Image.ofCalls cs) :=
  simulates (R := fun (i : Image) (s : Store) => s.Holds i)
    (fun _ _ c h => Store.simulates_call h c) Store.holds_fresh cs

/-- A call that fails leaves the image and the store as they were. -/
lemma ofCalls_concat_of_full {cs : List Image.Call} {c : Image.Call}
    (h : Image.capacity < (Image.ofCalls cs).size + c.bytes.length) :
    Image.ofCalls (cs ++ [c]) = Image.ofCalls cs ∧
      Store.ofCalls (cs ++ [c]) = Store.ofCalls cs := by
  have himage : next Image.call (Image.ofCalls cs) c = Image.ofCalls cs := Image.next_of_full h
  have hstore : next Store.call (Store.ofCalls cs) c = Store.ofCalls cs := by
    rw [← (simulates_ofCalls cs).2.used] at h
    rw [next, Store.call_of_full h]
  rw [Image.ofCalls_concat, Store.ofCalls_concat, himage, hstore]
  exact ⟨rfl, rfl⟩

/-- **The bytes of an image are those of the calls that succeeded.** After any history of calls on
an empty image, the calls that were refused included, there are at most 4096 bytes: those of the
calls that succeeded, in order. The next call, of whatever size, fails if and only if it does not
fit, for no other reason, and then it leaves the image as it was; so a byte still fits where a word
has been refused. In a store of 4096 cells, which is written to in place, every call has the same
answer, the cells in use hold the same bytes, and a call that fails leaves every cell as it was. -/
theorem writing_history (cs : List Image.Call) (c : Image.Call) :
    (Image.ofCalls cs).size ≤ 4096 ∧
    (Image.ofCalls cs).toList = (succeeding Image.call .empty cs).flatMap Image.Call.bytes ∧
    (answer Image.call (Image.ofCalls cs) c = .ok () ↔
      (Image.ofCalls cs).size + c.bytes.length ≤ 4096) ∧
    (∀ e, answer Image.call (Image.ofCalls cs) c = .error e ↔
      4096 < (Image.ofCalls cs).size + c.bytes.length ∧ e = .imageFull 4096) ∧
    (∀ e, answer Image.call (Image.ofCalls cs) c = .error e →
      Image.ofCalls (cs ++ [c]) = Image.ofCalls cs ∧
      Store.ofCalls (cs ++ [c]) = Store.ofCalls cs) ∧
    ((Image.ofCalls cs).size = 4095 → ∀ (w : Word) (b : UInt8),
      answer Image.call (Image.ofCalls cs) (.word w) = .error (.imageFull 4096) ∧
      answer Image.call (Image.ofCalls (cs ++ [.word w])) (.byte b) = .ok () ∧
      (Image.ofCalls (cs ++ [.word w, .byte b])).toList = (Image.ofCalls cs).toList ++ [b]) ∧
    answers Store.call .fresh cs = (answers Image.call .empty cs).map (·.mapError .error) ∧
    (Store.ofCalls cs).used = (Image.ofCalls cs).size ∧
    (Store.ofCalls cs).content = .value (Image.ofCalls cs).toList := by
  have hbytes : (Image.ofCalls cs).toList =
      (succeeding Image.call .empty cs).flatMap Image.Call.bytes := by
    rw [Image.ofCalls, Image.toList_after, Image.toList_empty, List.nil_append]
  obtain ⟨hanswers, hholds⟩ := simulates_ofCalls cs
  refine ⟨(Image.ofCalls cs).size_le, hbytes, Image.answer_eq_ok_iff,
    fun e => Image.answer_eq_error_iff, fun e he => ?_, fun hsize w b => ?_, hanswers, hholds.used,
    Store.content_of_holds hholds⟩
  · exact ofCalls_concat_of_full (Image.answer_eq_error_iff.mp he).1
  · -- there is room for a byte, and the word that was refused has not taken it
    have hfull : Image.capacity < (Image.ofCalls cs).size + (Image.Call.word w).bytes.length := by
      rw [hsize]
      exact (by decide : 4096 < 4095 + 2)
    have hword := (ofCalls_concat_of_full hfull).1
    have hbyte : answer Image.call (Image.ofCalls cs) (.byte b) = .ok () := by
      rw [Image.answer_eq_ok_iff, hsize]
      exact Nat.le_refl 4096
    refine ⟨Image.answer_eq_error_iff.mpr ⟨hfull, rfl⟩, by rwa [hword], ?_⟩
    have hsplit : cs ++ [.word w, .byte b] = cs ++ [.word w] ++ [.byte b] := by simp
    calc (Image.ofCalls (cs ++ [.word w, .byte b])).toList
        = (next Image.call (Image.ofCalls cs) (.byte b)).toList := by
          rw [hsplit, Image.ofCalls_concat, hword]
      _ = (Image.ofCalls cs).toList ++ [b] := Image.toList_next_of_ok hbyte

/-- Bytes are written one by one as long as there is room. -/
lemma size_ofCalls_bytes {n : Nat} (h : n ≤ 4096) (b : UInt8) :
    (Image.ofCalls (List.replicate n (.byte b))).size = n := by
  induction n with
  | zero => rfl
  | succ n ih =>
      have hn := ih (by omega)
      have hok :
          answer Image.call (Image.ofCalls (List.replicate n (.byte b))) (.byte b) = .ok () := by
        rw [Image.answer_eq_ok_iff, hn]
        exact h
      rw [List.replicate_succ', Image.ofCalls_concat, ← Image.length_toList,
        Image.toList_next_of_ok hok, List.length_append, Image.length_toList, hn]
      rfl

/-- Where there is room for one byte only, a word is refused and a byte is not. -/
theorem writing_history_last_byte :
    ∃ cs, (Image.ofCalls cs).size = 4095 ∧
      answer Image.call (Image.ofCalls cs) (.word 0x00E0#16) = .error (.imageFull 4096) ∧
      answer Image.call (Image.ofCalls (cs ++ [.word 0x00E0#16])) (.byte 0) = .ok () := by
  have hsize := size_ofCalls_bytes (by decide : 4095 ≤ 4096) 0xFF
  obtain ⟨-, -, -, -, -, hlast, -⟩ := writing_history (List.replicate 4095 (.byte 0xFF)) (.byte 0)
  obtain ⟨hword, hbyte, -⟩ := hlast hsize 0x00E0#16 0
  exact ⟨_, hsize, hword, hbyte⟩

end Chip8
