/-
What encoding takes from the tokens.

There is no way to put a token back, so each instruction has to stop at the right one, whether it
succeeds or fails. It takes three tokens at most. What it does is decided by those that it takes,
unless it takes all that there are and needs more. If it fails for an operand, that is the last
token taken; only `LD` takes its second operand before it looks at the name of its first, so if it
refuses that name there is a token behind it.

* `Error.Names`: an error that says what it says about a token.
* `Mnemonic.Reports`: the tokens that an instruction has taken when it fails, and its error.
* `Reader.Takes`: a reader that takes so many tokens at most, is decided by them, and reports its
  errors like that. Expecting an operand and going on is a reader of this kind if going on is
  (`Reader.takes_expect_bind`).
* `Mnemonic.takes_operands`, `Mnemonic.takes_encode`: **reading operands and encoding** are.
* `Position`: the tokens with an index; `Position.after`: where the index is behind a reader.
* `Mnemonic.Consumes`, `Mnemonic.consumes_encode`: the same in terms of indices.
* `Position.encodeAll`: instruction after instruction, also behind errors.
* `encode_consumes`: **encoding stops at the culprit**, and one instruction after the other takes
  the tokens in order, each of them once.
-/
import Mathlib.Tactic
import Chip8.Proofs.Culprits
import Chip8.Proofs.Encoding

namespace Chip8

/-! ### The token that an error is about -/

/-- What the error says about a token is so of this one. -/
def Error.Names (t : Token) : Error → Prop
  | .unexpectedKind _ actual line => t.kind = actual ∧ t.line = line
  | .invalidOperand operand _ line => t.spelling = operand ∧ t.line = line
  | .undeclaredLabel name line => t = ⟨.name name, line⟩
  | .unreadable _ _ | .endOfInput | .unknownMnemonic _ _ | .imageFull _ | .duplicateLabel _ _ =>
    False

/-- An operand is refused, though its kind is admitted. -/
def Error.IsRefusal : Error → Prop
  | .invalidOperand _ _ _ => True
  | .unexpectedKind _ _ _ | .undeclaredLabel _ _ | .unreadable _ _ | .endOfInput
  | .unknownMnemonic _ _ | .imageFull _ | .duplicateLabel _ _ => False

namespace Mnemonic

/-- The first operand of `LD` is a name that it does not support there. -/
def BeginsUnsupported (m : Mnemonic) (ops : List Token) : Prop :=
  m = .ld ∧ ∃ s line rest, ops = ⟨.name s, line⟩ :: rest ∧ s ∉ ["I", "DT", "ST", "F", "B"]

/-- The operands that an instruction has taken when it fails, and the error. It is about the last of
them, except if `LD` refuses the name of its first operand. -/
inductive Reports (m : Mnemonic) : List Token → Error → Prop
  | last {before : List Token} {t : Token} {e : Error} (he : e.Names t)
      (h : e.IsRefusal → ¬ m.BeginsUnsupported (before ++ [t])) : Reports m (before ++ [t]) e
  | first {p q : Token} {e : Error} (he : e.Names p) (hr : e.IsRefusal)
      (h : m.BeginsUnsupported [p, q]) : Reports m [p, q] e

section

variable {m : Mnemonic} (before : List Token)

lemma reports_kind (t : Token) (kinds : List Kind) :
    m.Reports (before ++ [t]) (.unexpectedKind kinds t.kind t.line) :=
  .last ⟨rfl, rfl⟩ False.elim

lemma reports_label (name : String) (line : Nat) :
    m.Reports (before ++ [⟨.name name, line⟩]) (.undeclaredLabel name line) :=
  .last rfl False.elim

lemma reports_refused {t : Token} (h : ¬ m.BeginsUnsupported (before ++ [t])) (expected : String) :
    m.Reports (before ++ [t]) (t.refused expected) :=
  .last ⟨rfl, rfl⟩ fun _ => h

/-- Only `LD` looks at an operand late. -/
lemma reports_refused_of_ne (hm : m ≠ .ld) (t : Token) (expected : String) :
    m.Reports (before ++ [t]) (t.refused expected) :=
  reports_refused before (fun h => hm h.1) expected

lemma beginsUnsupported_append_iff {ops : List Token} (hops : ops ≠ []) (rest : List Token) :
    m.BeginsUnsupported (ops ++ rest) ↔ m.BeginsUnsupported ops := by
  obtain ⟨t, ts, rfl⟩ := List.exists_cons_of_ne_nil hops
  simp [BeginsUnsupported]

/-- An error about a token is not about the end of the tokens. -/
lemma Reports.ne_endOfInput {ops : List Token} {e : Error} (h : m.Reports ops e) :
    e ≠ .endOfInput := by
  rintro rfl
  cases h with
  | last he => exact he
  | first he => exact he

end

end Mnemonic

/-! ### Readers and the tokens that they take -/

namespace Reader

variable {α : Type} {m : Mnemonic} {before : List Token} {n : Nat}

/-- What a reader gives, without the tokens that it leaves. -/
def outcome (r : Reader α) (ts : List Token) : Except Error α :=
  match r ts with
  | .ok a _ => .ok a
  | .error e _ => .error e

/-- How a reader ends that goes on behind the operands `before` and takes some tokens of those that
there are. Only if it takes all of them may it need more. -/
inductive EndsWith (m : Mnemonic) (before : List Token) (r : Reader α) (taken rest : List Token) :
    Prop
  | value (a : α) (h : ∀ other, r (taken ++ other) = .ok a other)
  | error {e : Error} (he : m.Reports (before ++ taken) e)
      (h : ∀ other, r (taken ++ other) = .error e other)
  | ended (hrest : rest = []) (h : r taken = .error .endOfInput [])

/-- A reader that goes on behind the operands `before` takes a number of tokens at most. -/
def Takes (m : Mnemonic) (before : List Token) (n : Nat) (r : Reader α) : Prop :=
  ∀ ts, ∃ taken rest, ts = taken ++ rest ∧ taken.length ≤ n ∧ EndsWith m before r taken rest

lemma takes_pure (a : α) : Takes m before n (pure a) :=
  fun ts => ⟨[], ts, rfl, Nat.zero_le n, .value a fun _ => rfl⟩

lemma takes_throw {e : Error} (h : m.Reports before e) : Takes m before n (throw e : Reader α) := by
  intro ts
  rw [← List.append_nil before] at h
  exact ⟨[], ts, rfl, Nat.zero_le n, .error h fun _ => rfl⟩

lemma takes_ofExcept {x : Except Error α} (h : ∀ e, x = .error e → m.Reports before e) :
    Takes m before n (ofExcept x) := by
  cases x with
  | ok a => exact takes_pure a
  | error e => exact takes_throw (h e rfl)

/-- **A step.** An operand is expected and taken, and what follows takes the rest. -/
lemma takes_expect_bind {kinds : List Kind} {f : Token → Reader α}
    (hf : ∀ t, t.kind ∈ kinds → Takes m (before ++ [t]) n (f t)) :
    Takes m before (n + 1) (expect kinds >>= f) := by
  intro ts
  cases ts with
  | nil => exact ⟨[], [], rfl, Nat.zero_le _, .ended rfl rfl⟩
  | cons t ts =>
      have hstep : ∀ us, (expect kinds >>= f) (t :: us) =
          if t.kind ∈ kinds then f t us
          else .error (.unexpectedKind kinds t.kind t.line) us := by
        intro us
        simp only [bind, EStateM.bind, expect_cons]
        split_ifs <;> rfl
      by_cases hk : t.kind ∈ kinds
      · simp only [if_pos hk] at hstep
        obtain ⟨taken, rest, rfl, hn, hends⟩ := hf t hk ts
        refine ⟨t :: taken, rest, rfl, Nat.succ_le_succ hn, ?_⟩
        cases hends with
        | value a h => exact .value a fun other => (hstep _).trans (h other)
        | error he h =>
            rw [List.append_assoc] at he
            exact .error he fun other => (hstep _).trans (h other)
        | ended hrest h => exact .ended hrest ((hstep _).trans h)
      · simp only [if_neg hk] at hstep
        exact ⟨[t], ts, rfl, by simp, .error (Mnemonic.reports_kind before t kinds) hstep⟩

/-- The last operand. -/
lemma takes_expect_last {kinds : List Kind} {g : Token → α} :
    Takes m before (n + 1) (expect kinds >>= fun t => pure (g t)) :=
  takes_expect_bind fun _ _ => takes_pure _

end Reader

/-! ### The operands of each instruction -/

namespace Operands

open Reader

variable {m : Mnemonic}

/-- An operand and a last one. -/
lemma takes_two {kinds kinds' : List Kind} {g : Token → Token → Instruction Target} :
    Takes m [] 3 (expect kinds >>= fun p => expect kinds' >>= fun q => pure (g p q)) :=
  takes_expect_bind fun _ _ => takes_expect_last

lemma takes_draw : Takes .drw [] 3 draw :=
  takes_expect_bind fun _ _ => takes_expect_bind fun _ _ => takes_expect_last

/-- `JP` refuses a register before it takes anything else. -/
lemma takes_jump : Takes .jp [] 3 jump := by
  refine takes_expect_bind fun t _ => ?_
  split
  · split_ifs
    · exact takes_expect_last
    · exact takes_throw (Mnemonic.reports_refused_of_ne [] (by decide) _ _)
  · exact takes_pure _

/-- `ADD` refuses a name before it takes anything else. -/
lemma takes_add : Takes .add [] 3 Operands.add := by
  refine takes_expect_bind fun p _ => ?_
  split
  · split_ifs
    · exact takes_expect_last
    · exact takes_throw (Mnemonic.reports_refused_of_ne [] (by decide) _ _)
  · exact takes_expect_last

/-- `LD` has taken both of its operands when it refuses one of them. -/
lemma reports_of_load {p q : Token} {e : Error} (hp : p.kind ∈ [Kind.register, .name])
    (h : load p q = .error e) : Mnemonic.ld.Reports [p, q] e := by
  obtain ⟨l, line⟩ := p
  cases l with
  | label | instruction | literal => simp [Token.kind, Lexeme.kind] at hp
  | name s =>
      simp only [load] at h
      split_ifs at h with hI
      · split at h <;> cases h
      · split at h
        · rw [Token.require] at h
          split_ifs at h
          · cases h
          · cases h
            exact Mnemonic.reports_kind [_] q [.register]
        · next hnone =>
          cases h
          have hs := not_or_intro hI (RegisterOp.into?_eq_none_iff.mp hnone)
          exact .first ⟨rfl, rfl⟩ trivial ⟨rfl, s, line, [q], rfl, mt List.mem_cons.mp hs⟩
  | register r =>
      simp only [load] at h
      split at h
      · split at h
        · cases h
        · cases h
          refine Mnemonic.reports_refused [_] ?_ _
          rintro ⟨-, s, line', rest, hcons, -⟩
          cases hcons
      · cases h

lemma takes_loads : Takes .ld [] 3 loads :=
  takes_expect_bind fun _ hp => takes_expect_bind fun _ _ =>
    takes_ofExcept fun _ h => reports_of_load hp h

end Operands

namespace Mnemonic

open Reader Operands

/-- **Reading operands** takes three tokens at most and stops at the culprit. -/
theorem takes_operands (m : Mnemonic) : Takes m [] 3 m.operands := by
  cases m with
  | cls | ret => exact takes_pure _
  | sys | call | skp | sknp => exact takes_expect_last
  | se | sne | or | and | xor | sub | shr | subn | shl | rnd => exact takes_two
  | jp => exact takes_jump
  | ld => exact takes_loads
  | add => exact takes_add
  | drw => exact takes_draw

/-- **Encoding** takes what reading operands takes. A label that is not declared is the last of the
operands. -/
theorem takes_encode (m : Mnemonic) (labels : Labels) : Takes m [] 3 (m.encode labels) := by
  intro ts
  obtain ⟨taken, rest, rfl, hlength, hends⟩ := m.takes_operands ts
  refine ⟨taken, rest, rfl, hlength, ?_⟩
  cases hends with
  | value i h =>
      cases hr : i.resolve labels with
      | ok r =>
          refine .value r.word fun other => ?_
          exact encode_eq_ok_iff_resolve.mpr ⟨i, r, h other, hr, rfl⟩
      | error e =>
          obtain ⟨op, name, line, rfl, -, rfl⟩ := Instruction.resolve_eq_error hr
          obtain ⟨ops, hs, -, htaken⟩ := operands_eq_ok_iff.mp (h [])
          obtain ⟨before, t, rfl, htarget, -⟩ := hs.exists_target
          obtain rfl := List.append_cancel_right htaken
          obtain rfl := Target.ofToken_eq_label_iff.mp htarget.symm
          refine .error (reports_label before name line) fun other => ?_
          rw [encode, bind_eq_error_iff]
          refine .inr ⟨_, _, h other, ?_⟩
          rw [hr]
          rfl
  | error he h =>
      exact .error he fun other => bind_eq_error_iff.mpr (.inl (h other))
  | ended hrest h => exact .ended hrest (bind_eq_error_iff.mpr (.inl h))

end Mnemonic

/-! ### Positions -/

namespace Reader

variable {α : Type} {m : Mnemonic} {before taken rest : List Token} {r : Reader α}

lemma EndsWith.left_eq (h : EndsWith m before r taken rest) : left r (taken ++ rest) = rest := by
  cases h with
  | value a h => rw [left, h]
  | error he h => rw [left, h]
  | ended hrest h => rw [hrest, List.append_nil, left, h]

/-- The tokens that a reader takes are enough for what it gives. -/
lemma EndsWith.alone (h : EndsWith m before r taken rest) :
    outcome r taken = outcome r (taken ++ rest) ∧ left r taken = [] := by
  cases h with
  | value a h =>
      have hnil := h []
      rw [List.append_nil] at hnil
      simp only [outcome, left, h, hnil, and_self]
  | error he h =>
      have hnil := h []
      rw [List.append_nil] at hnil
      simp only [outcome, left, h, hnil, and_self]
  | ended hrest h =>
      rw [hrest, List.append_nil, left, h]
      exact ⟨rfl, rfl⟩

/-- What a reader gives does not change with the tokens that it leaves, unless it needs more. -/
lemma EndsWith.unread (h : EndsWith m before r taken rest)
    (hne : outcome r (taken ++ rest) ≠ .error .endOfInput) (other : List Token) :
    outcome r (taken ++ other) = outcome r (taken ++ rest) ∧ left r (taken ++ other) = other := by
  cases h with
  | value a h => simp only [outcome, left, h, and_self]
  | error he h => simp only [outcome, left, h, and_self]
  | ended hrest h =>
      rw [hrest, List.append_nil, outcome, h] at hne
      exact absurd rfl hne

/-- A reader that needs more tokens leaves none. -/
lemma EndsWith.rest_eq_nil (h : EndsWith m before r taken rest)
    (hend : outcome r (taken ++ rest) = .error .endOfInput) : rest = [] := by
  cases h with
  | value a h =>
      rw [outcome, h] at hend
      cases hend
  | error he h =>
      rw [outcome, h] at hend
      cases hend
      exact absurd rfl he.ne_endOfInput
  | ended hrest _ => exact hrest

/-- Any other error is reported for one of the operands. -/
lemma EndsWith.reports {e : Error} (h : EndsWith m before r taken rest)
    (he : outcome r (taken ++ rest) = .error e) (hne : e ≠ .endOfInput) :
    m.Reports (before ++ taken) e := by
  cases h with
  | value a h =>
      rw [outcome, h] at he
      cases he
  | error hreports h =>
      rw [outcome, h] at he
      cases he
      exact hreports
  | ended hrest h =>
      rw [hrest, List.append_nil, outcome, h] at he
      cases he
      exact absurd rfl hne

end Reader

/-- Tokens with an index into them, the number of those that have been taken. -/
structure Position where
  tokens : List Token
  index : Nat
  index_le : index ≤ tokens.length

namespace Position

open Reader

variable {α : Type} {r : Reader α} {taken rest : List Token} {c : Position}

/-- The tokens that have not been taken yet. -/
def ahead (c : Position) : List Token := c.tokens.drop c.index

/-- What a reader gives at a position. -/
def read (c : Position) (r : Reader α) : Except Error α := outcome r c.ahead

/-- The position behind the tokens that a reader takes, whether it succeeds or not. -/
def after (c : Position) (r : Reader α) : Position where
  tokens := c.tokens
  index := c.tokens.length - (left r c.ahead).length
  index_le := Nat.sub_le _ _

lemma length_ahead (c : Position) : c.ahead.length = c.tokens.length - c.index := List.length_drop

lemma getElem?_ahead (c : Position) (k : Nat) : c.tokens[c.index + k]? = c.ahead[k]? :=
  List.getElem?_drop.symm

lemma index_after (h : c.ahead = taken ++ rest) (hleft : left r (taken ++ rest) = rest) :
    (c.after r).index = c.index + taken.length := by
  have hlength := c.length_ahead
  have hle := c.index_le
  rw [h, List.length_append] at hlength
  show c.tokens.length - (left r c.ahead).length = c.index + taken.length
  rw [h, hleft]
  omega

lemma ahead_after (h : c.ahead = taken ++ rest) (hleft : left r (taken ++ rest) = rest) :
    (c.after r).ahead = rest := by
  rw [ahead, index_after h hleft, ← List.drop_drop]
  show c.ahead.drop taken.length = rest
  rw [h, List.drop_left]

/-- Behind the tokens that have been taken others may stand. -/
lemma exists_ahead_eq {d : Position} (h : c.ahead = taken ++ rest) (hindex : d.index = c.index)
    (htake : d.tokens.take (c.index + taken.length) = c.tokens.take (c.index + taken.length)) :
    ∃ other, d.ahead = taken ++ other := by
  have htaken : (c.tokens.take (c.index + taken.length)).drop c.index = taken := by
    rw [List.drop_take, Nat.add_sub_cancel_left]
    show c.ahead.take taken.length = taken
    rw [h, List.take_left]
  have hd : d.ahead.take taken.length = taken := by
    rw [ahead, hindex, ← htaken, ← htake, List.drop_take, Nat.add_sub_cancel_left]
    simp
  refine ⟨d.ahead.drop taken.length, ?_⟩
  nth_rewrite 1 [← List.take_append_drop taken.length d.ahead]
  rw [hd]

end Position

namespace Mnemonic

open Reader

/-- What encoding an instruction at the position `c` has done if the position is then `d`. -/
structure Consumes (m : Mnemonic) (labels : Labels) (c d : Position) : Prop where
  /-- No token is put back, and three are taken at most. -/
  le : c.index ≤ d.index
  bound : d.index ≤ min (c.index + 3) c.tokens.length
  tokens : d.tokens = c.tokens
  /-- Reading by an index gives the same, and the index is then that of `d`. -/
  cursor : Cursor.encode c.tokens labels m c.index =
    .ofExcept ((c.read (m.encode labels)).map (·, d.index))
  /-- The tokens from there on do not matter. -/
  unread : c.read (m.encode labels) ≠ .error .endOfInput → ∀ c' : Position, c'.index = c.index →
    c'.tokens.take d.index = c.tokens.take d.index →
      c'.read (m.encode labels) = c.read (m.encode labels) ∧
        (c'.after (m.encode labels)).index = d.index
  /-- The tokens have ended only where there are none left. -/
  ended : c.read (m.encode labels) = .error .endOfInput → d.index = c.tokens.length
  /-- Any other error is about the last token that has been taken. -/
  last : ∀ e, c.read (m.encode labels) = .error e → e ≠ .endOfInput →
    ¬ (e.IsRefusal ∧ m.BeginsUnsupported c.ahead) →
      c.index < d.index ∧ ∃ t, c.tokens[d.index - 1]? = some t ∧ e.Names t
  /-- Only the first operand of `LD` is refused when both have been taken. -/
  first : ∀ e, c.read (m.encode labels) = .error e → e.IsRefusal → m.BeginsUnsupported c.ahead →
    d.index = c.index + 2 ∧ ∃ t, c.tokens[d.index - 2]? = some t ∧ e.Names t

/-- The tokens that encoding takes at a position. -/
lemma exists_taken (m : Mnemonic) (labels : Labels) (c : Position) :
    ∃ taken rest, c.ahead = taken ++ rest ∧ taken.length ≤ 3 ∧
      EndsWith m [] (m.encode labels) taken rest ∧
      (c.after (m.encode labels)).index = c.index + taken.length ∧
      (c.after (m.encode labels)).ahead = rest := by
  obtain ⟨taken, rest, h, hlength, hends⟩ := m.takes_encode labels c.ahead
  exact ⟨taken, rest, h, hlength, hends, Position.index_after h hends.left_eq,
    Position.ahead_after h hends.left_eq⟩

/-- Reading by an index stops where the position is. -/
lemma cursor_encode_eq (m : Mnemonic) (labels : Labels) (c : Position) :
    Cursor.encode c.tokens labels m c.index =
      .ofExcept ((c.read (m.encode labels)).map (·, (c.after (m.encode labels)).index)) := by
  have hagrees : Checked.Agrees (Cursor.Reached c.tokens c.index) _
      (Cursor.result (m.encode labels) c.ahead) := Cursor.follows_encode m c.index c.index_le
  have hafter : (c.after (m.encode labels)).index =
      c.tokens.length - (left (m.encode labels) c.ahead).length := rfl
  generalize Cursor.encode c.tokens labels m c.index = x at hagrees ⊢
  rw [Position.read, hafter, outcome, left]
  rw [Cursor.result] at hagrees
  cases hread : m.encode labels c.ahead with
  | error e rest =>
      rw [hread] at hagrees
      cases hagrees
      rfl
  | ok w rest =>
      rw [hread] at hagrees
      obtain @⟨⟨a, index⟩, _, hreached⟩ | _ := hagrees
      have hvalue : a = w := hreached.value
      have hlength : c.tokens.length - index = rest.length := by
        rw [← List.length_drop, hreached.rest]
      have hle : index ≤ c.tokens.length := hreached.le_length
      have hindex : c.tokens.length - rest.length = index := by omega
      show Checked.value (a, index) = Checked.value (w, c.tokens.length - rest.length)
      rw [hvalue, hindex]

/-- **The tokens that encoding takes**, by their indices. -/
theorem consumes_encode (m : Mnemonic) (labels : Labels) (c : Position) :
    m.Consumes labels c (c.after (m.encode labels)) := by
  obtain ⟨taken, rest, hahead, hlength, hends, hindex, -⟩ := m.exists_taken labels c
  have hread : c.read (m.encode labels) = outcome (m.encode labels) (taken ++ rest) := by
    rw [Position.read, hahead]
  have hall := c.length_ahead
  have hle := c.index_le
  rw [hahead, List.length_append] at hall
  have hget : ∀ k < taken.length, c.tokens[c.index + k]? = taken[k]? := by
    intro k hk
    rw [c.getElem?_ahead, hahead, List.getElem?_append_left hk]
  refine
    { le := by omega
      bound := by omega
      tokens := rfl
      cursor := m.cursor_encode_eq labels c
      unread := ?_
      ended := ?_
      last := ?_
      first := ?_ }
  · intro hne c' hc' htake
    rw [hindex] at htake
    obtain ⟨other, hother⟩ := Position.exists_ahead_eq hahead hc' htake
    obtain ⟨houtcome, hleft⟩ := hends.unread (hread ▸ hne) other
    rw [Position.index_after hother hleft, hindex, hc', hread, Position.read, hother]
    exact ⟨houtcome, rfl⟩
  · intro he
    rw [hends.rest_eq_nil (hread ▸ he), List.length_nil] at hall
    omega
  · intro e he hne hnot
    have hreports := hends.reports (hread ▸ he) hne
    rw [List.nil_append] at hreports
    cases hreports with
    | @last before t _ hnames _ =>
        have ht := hget before.length (by simp)
        rw [List.getElem?_append_right le_rfl, Nat.sub_self] at ht
        rw [List.length_append, List.length_singleton] at hindex
        rw [hindex]
        exact ⟨by omega, t, ht, hnames⟩
    | first hnames hr hfirst =>
        rw [hahead, beginsUnsupported_append_iff (List.cons_ne_nil _ _)] at hnot
        exact absurd ⟨hr, hfirst⟩ hnot
  · intro e he hr hfirst
    have hne : e ≠ .endOfInput := by
      rintro rfl
      exact hr
    have hreports := hends.reports (hread ▸ he) hne
    rw [List.nil_append] at hreports
    cases hreports with
    | last hnames h =>
        rw [hahead, beginsUnsupported_append_iff (by simp)] at hfirst
        exact absurd hfirst (h hr)
    | @first p q _ hnames _ _ =>
        rw [hindex]
        exact ⟨rfl, p, hget 0 (by simp), hnames⟩

end Mnemonic

/-! ### Instruction after instruction -/

namespace Position

open Reader

/-- Encodes one instruction after the other, each with a table of labels, and goes on whether it
succeeds or not. -/
def encodeAll (c : Position) : List (Mnemonic × Labels) → List (Except Error Word) × Position
  | [] => ([], c)
  | (m, labels) :: calls =>
    let later := (c.after (m.encode labels)).encodeAll calls
    (c.read (m.encode labels) :: later.1, later.2)

/-- **Instruction after instruction.** Each takes the tokens behind those of the one before, and
what it gives is what it gives on these tokens alone. -/
theorem exists_slices (calls : List (Mnemonic × Labels)) (c : Position) :
    ∃ slices : List (List Token), c.ahead = slices.flatten ++ (c.encodeAll calls).2.ahead ∧
      List.Forall₂ (fun call slice => left (call.1.encode call.2) slice = []) calls slices ∧
      (c.encodeAll calls).1 =
        List.zipWith (fun call slice => outcome (call.1.encode call.2) slice) calls slices := by
  induction calls generalizing c with
  | nil => exact ⟨[], rfl, .nil, rfl⟩
  | cons call calls ih =>
      obtain ⟨m, labels⟩ := call
      obtain ⟨taken, rest, hahead, -, hends, -, hrest⟩ := m.exists_taken labels c
      obtain ⟨slices, hslices, hleft, hread⟩ := ih (c.after (m.encode labels))
      obtain ⟨halone, hnone⟩ := hends.alone
      refine ⟨taken :: slices, ?_, .cons hnone hleft, ?_⟩
      · rw [hahead, List.flatten_cons, List.append_assoc, ← hrest, hslices]
        rfl
      · rw [encodeAll, hread, List.zipWith_cons_cons, halone, ← hahead]
        rfl

lemma tokens_encodeAll (calls : List (Mnemonic × Labels)) (c : Position) :
    (c.encodeAll calls).2.tokens = c.tokens := by
  induction calls generalizing c with
  | nil => rfl
  | cons call calls ih => exact ih (c.after (call.1.encode call.2))

end Position

open Reader in
/-- **Encoding stops at the culprit.** It takes three tokens at most, and does not look at others;
if it finds the end of the tokens, it has taken all; and any other error is about the last token
that it has taken, but for a name that `LD` does not support as its first operand, where both have
been taken. So instructions that are encoded one after the other, going on behind errors, take the
tokens in order: those ahead are cut into one slice for each instruction and what is left, and each
instruction does what it does on its slice alone. -/
theorem encode_consumes :
    (∀ (m : Mnemonic) (labels : Labels) (c : Position),
      m.Consumes labels c (c.after (m.encode labels))) ∧
    ∀ (calls : List (Mnemonic × Labels)) (c : Position), ∃ slices : List (List Token),
      c.ahead = slices.flatten ++ (c.encodeAll calls).2.ahead ∧
      (c.encodeAll calls).2.tokens = c.tokens ∧
      List.Forall₂ (fun call slice => left (call.1.encode call.2) slice = []) calls slices ∧
      (c.encodeAll calls).1 =
        List.zipWith (fun call slice => outcome (call.1.encode call.2) slice) calls slices := by
  refine ⟨Mnemonic.consumes_encode, fun calls c => ?_⟩
  obtain ⟨slices, hslices, hleft, hread⟩ := c.exists_slices calls
  exact ⟨slices, hslices, c.tokens_encodeAll calls, hleft, hread⟩

-- `LD` refuses its first operand when the second has been taken, whatever that is
example : Mnemonic.ld.encode .empty [⟨.name "X", 1⟩, ⟨.register 3#8, 2⟩, ⟨.literal 0#64, 3⟩] =
    .error (.invalidOperand "X" "I, DT, ST, F or B" 1) [⟨.literal 0#64, 3⟩] := by
  rfl

end Chip8
