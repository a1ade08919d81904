/-
The operands that a name accepts.

A reader that succeeds has taken some tokens from the front and has looked at no
others. For the operands of an instruction this is said once and for all names: the
tokens taken spell the instruction that comes out, and whether they do depends on
them alone.

* `Reader.bind_eq_ok_iff`, `Reader.expect_eq_ok_iff` and their like: when a reader
  succeeds, and with what.
* `Spells`: the operand tokens of each instruction, one rule for each way of
  writing them down.
* `Mnemonic.operands_eq_ok_iff`: **reading operands is spelling**. The reader of a
  name succeeds exactly on the tokens that spell an instruction of that name,
  whatever comes after them.
* `Spells.deterministic`: what spells an instruction of a name at the start of a text
  is unique, the tokens and the instruction both.
* `Mnemonic.encode_eq_ok_iff_resolve`: encoding is spelling, then looking up the label.
-/
import Mathlib.Tactic
import Chip8.Instruction.Operands

namespace Chip8

/-! ### When a reader succeeds -/

namespace Reader

variable {α β : Type}

lemma pure_eq_ok_iff {a b : α} {ts rest : List Token} :
    (pure a : Reader α) ts = .ok b rest ↔ a = b ∧ ts = rest := by
  refine ⟨fun h => ?_, fun h => ?_⟩
  · cases h
    exact ⟨rfl, rfl⟩
  · obtain ⟨rfl, rfl⟩ := h
    rfl

lemma throw_ne_ok {e : Error} {a : α} {ts rest : List Token} :
    (throw e : Reader α) ts ≠ .ok a rest := by
  intro h
  cases h

/-- A given result takes no token. -/
lemma ofExcept_eq_ok_iff {x : Except Error α} {a : α} {ts rest : List Token} :
    (ofExcept x : Reader α) ts = .ok a rest ↔ x = .ok a ∧ ts = rest := by
  cases x with
  | error e =>
      refine ⟨fun h => ?_, fun h => ?_⟩
      · exact absurd h throw_ne_ok
      · obtain ⟨h, -⟩ := h
        cases h
  | ok b =>
      refine Iff.trans (pure_eq_ok_iff (a := b)) ?_
      simp only [Except.ok.injEq]

/-- A sequence succeeds if both parts do, the second on what the first leaves. -/
lemma bind_eq_ok_iff {r : Reader α} {f : α → Reader β} {b : β} {ts rest : List Token} :
    (r >>= f) ts = .ok b rest ↔ ∃ a mid, r ts = .ok a mid ∧ f a mid = .ok b rest := by
  simp only [bind, EStateM.bind]
  cases hr : r ts with
  | ok a mid =>
      refine ⟨fun h => ?_, fun h => ?_⟩
      · exact ⟨a, mid, rfl, h⟩
      · obtain ⟨a', mid', h, h'⟩ := h
        cases h
        exact h'
  | error e mid =>
      refine ⟨fun h => ?_, fun h => ?_⟩
      · cases h
      · obtain ⟨a', mid', h, -⟩ := h
        cases h

lemma map_eq_ok_iff {r : Reader α} {f : α → β} {b : β} {ts rest : List Token} :
    (f <$> r) ts = .ok b rest ↔ ∃ a, r ts = .ok a rest ∧ f a = b := by
  simp only [Functor.map, EStateM.map]
  cases hr : r ts with
  | ok a mid =>
      refine ⟨fun h => ?_, fun h => ?_⟩
      · cases h
        exact ⟨a, rfl, rfl⟩
      · obtain ⟨a', h, rfl⟩ := h
        cases h
        rfl
  | error e mid =>
      refine ⟨fun h => ?_, fun h => ?_⟩
      · cases h
      · obtain ⟨a', h, -⟩ := h
        cases h

/-- Expecting succeeds on a first token of an admitted kind and takes that token. -/
lemma expect_eq_ok_iff {kinds : List Kind} {t : Token} {ts rest : List Token} :
    expect kinds ts = .ok t rest ↔ ts = t :: rest ∧ t.kind ∈ kinds := by
  cases ts with
  | nil =>
      rw [expect_nil]
      refine ⟨fun h => ?_, fun h => ?_⟩
      · cases h
      · obtain ⟨h, -⟩ := h
        cases h
  | cons u us =>
      rw [expect_cons]
      split_ifs with hu
      · refine ⟨fun h => ?_, fun h => ?_⟩
        · cases h
          exact ⟨rfl, hu⟩
        · obtain ⟨h, -⟩ := h
          cases h
          rfl
      · refine ⟨fun h => ?_, fun h => ?_⟩
        · cases h
        · obtain ⟨h, hk⟩ := h
          cases h
          exact absurd hk hu

/-- Expecting and going on: the first token is of an admitted kind, and the rest is
read with it in hand. -/
lemma expect_bind_eq_ok_iff {kinds : List Kind} {f : Token → Reader β} {b : β}
    {ts rest : List Token} :
    (expect kinds >>= f) ts = .ok b rest ↔
      ∃ t mid, t.kind ∈ kinds ∧ ts = t :: mid ∧ f t mid = .ok b rest := by
  rw [bind_eq_ok_iff]
  refine ⟨fun h => ?_, fun h => ?_⟩
  · obtain ⟨t, mid, ht, h⟩ := h
    obtain ⟨rfl, hk⟩ := expect_eq_ok_iff.mp ht
    exact ⟨t, mid, hk, rfl, h⟩
  · obtain ⟨t, mid, hk, rfl, h⟩ := h
    exact ⟨t, mid, expect_eq_ok_iff.mpr ⟨rfl, hk⟩, h⟩

end Reader

/-! ### Kinds -/

namespace Lexeme

lemma kind_eq_register_iff {l : Lexeme} : l.kind = .register ↔ ∃ r, l = .register r := by
  cases l <;> simp [kind]

lemma kind_eq_literal_iff {l : Lexeme} : l.kind = .literal ↔ ∃ v, l = .literal v := by
  cases l <;> simp [kind]

lemma kind_eq_name_iff {l : Lexeme} : l.kind = .name ↔ ∃ s, l = .name s := by
  cases l <;> simp [kind]

end Lexeme

/-! ### Spelling -/

/-- The operand tokens of an instruction, one rule for each way of writing them. -/
inductive Spells : List Token → Instruction Target → Prop
  | fixed (op : FixedOp) : Spells [] (.fixed op)
  | address {op : AddressOp} (hop : op ∈ [AddressOp.sys, .jp, .call]) {t : Token}
      (ht : t.kind ∈ [Kind.name, .literal]) : Spells [t] (.address op (.ofToken t))
  | jumpV0 {p t : Token} (hp : p.kind = .register) (h0 : p.lexeme.nibble = 0#4)
      (ht : t.kind ∈ [Kind.name, .literal]) : Spells [p, t] (.address .jpV0 (.ofToken t))
  | loadIndex {p t : Token} (hp : p.lexeme = .name "I") (ht : t.kind ∈ [Kind.name, .literal]) :
      Spells [p, t] (.address .ldI (.ofToken t))
  | byte (op : ByteOp) {p q : Token} (hp : p.kind = .register) (hq : q.kind = .literal) :
      Spells [p, q] (.byte op p.lexeme.nibble q.lexeme.byte)
  | pair (op : PairOp) {p q : Token} (hp : p.kind = .register) (hq : q.kind = .register) :
      Spells [p, q] (.pair op p.lexeme.nibble q.lexeme.nibble)
  | sprite {p q n : Token} (hp : p.kind = .register) (hq : q.kind = .register)
      (hn : n.kind = .literal) :
      Spells [p, q, n] (.sprite p.lexeme.nibble q.lexeme.nibble n.lexeme.nibble)
  | key {op : RegisterOp} (hop : op ∈ [RegisterOp.skp, .sknp]) {p : Token}
      (hp : p.kind = .register) : Spells [p] (.register op p.lexeme.nibble)
  | outOf {op : RegisterOp} {p q : Token} {s : String} (hp : p.kind = .register)
      (hq : q.lexeme = .name s) (hs : RegisterOp.outOf? s = some op) :
      Spells [p, q] (.register op p.lexeme.nibble)
  | into {op : RegisterOp} {p q : Token} {s : String} (hp : p.lexeme = .name s)
      (hs : RegisterOp.into? s = some op) (hq : q.kind = .register) :
      Spells [p, q] (.register op q.lexeme.nibble)
  | index {op : RegisterOp} (hop : op ∈ [RegisterOp.store, .addIndex]) {p q : Token}
      (hp : p.lexeme = .name "I") (hq : q.kind = .register) :
      Spells [p, q] (.register op q.lexeme.nibble)

namespace Operands

open Reader

variable {ts rest : List Token} {i : Instruction Target}

/-- `nnn`. -/
lemma address_eq_ok_iff {op : AddressOp} :
    address op ts = .ok i rest ↔
      ∃ t, t.kind ∈ [Kind.name, .literal] ∧ ts = t :: rest ∧ i = .address op (.ofToken t) := by
  rw [address, expect_bind_eq_ok_iff]
  refine ⟨fun h => ?_, fun h => ?_⟩
  · obtain ⟨t, mid, ht, rfl, h⟩ := h
    obtain ⟨rfl, rfl⟩ := pure_eq_ok_iff.mp h
    exact ⟨t, ht, rfl, rfl⟩
  · obtain ⟨t, ht, rfl, rfl⟩ := h
    exact ⟨t, rest, ht, rfl, rfl⟩

/-- `Vx`. -/
lemma register_eq_ok_iff {op : RegisterOp} :
    register op ts = .ok i rest ↔
      ∃ p, p.kind = .register ∧ ts = p :: rest ∧ i = .register op p.lexeme.nibble := by
  rw [register, expect_bind_eq_ok_iff]
  refine ⟨fun h => ?_, fun h => ?_⟩
  · obtain ⟨p, mid, hp, rfl, h⟩ := h
    obtain ⟨rfl, rfl⟩ := pure_eq_ok_iff.mp h
    exact ⟨p, List.mem_singleton.mp hp, rfl, rfl⟩
  · obtain ⟨p, hp, rfl, rfl⟩ := h
    exact ⟨p, rest, List.mem_singleton.mpr hp, rfl, rfl⟩

/-- `Vx, Vy`. -/
lemma pair_eq_ok_iff {op : PairOp} :
    pair op ts = .ok i rest ↔
      ∃ p q, p.kind = .register ∧ q.kind = .register ∧ ts = p :: q :: rest ∧
        i = .pair op p.lexeme.nibble q.lexeme.nibble := by
  rw [pair]
  simp only [expect_bind_eq_ok_iff, List.mem_singleton]
  refine ⟨fun h => ?_, fun h => ?_⟩
  · obtain ⟨p, mid, hp, rfl, q, mid, hq, rfl, h⟩ := h
    obtain ⟨rfl, rfl⟩ := pure_eq_ok_iff.mp h
    exact ⟨p, q, hp, hq, rfl, rfl⟩
  · obtain ⟨p, q, hp, hq, rfl, rfl⟩ := h
    exact ⟨p, q :: rest, hp, rfl, q, rest, hq, rfl, rfl⟩

/-- `Vx, kk`. -/
lemma random_eq_ok_iff :
    random ts = .ok i rest ↔
      ∃ p q, p.kind = .register ∧ q.kind = .literal ∧ ts = p :: q :: rest ∧
        i = .byte .rnd p.lexeme.nibble q.lexeme.byte := by
  rw [random]
  simp only [expect_bind_eq_ok_iff, List.mem_singleton]
  refine ⟨fun h => ?_, fun h => ?_⟩
  · obtain ⟨p, mid, hp, rfl, q, mid, hq, rfl, h⟩ := h
    obtain ⟨rfl, rfl⟩ := pure_eq_ok_iff.mp h
    exact ⟨p, q, hp, hq, rfl, rfl⟩
  · obtain ⟨p, q, hp, hq, rfl, rfl⟩ := h
    exact ⟨p, q :: rest, hp, rfl, q, rest, hq, rfl, rfl⟩

/-- `Vx, Vy, n`. -/
lemma draw_eq_ok_iff :
    draw ts = .ok i rest ↔
      ∃ p q n, p.kind = .register ∧ q.kind = .register ∧ n.kind = .literal ∧
        ts = p :: q :: n :: rest ∧
        i = .sprite p.lexeme.nibble q.lexeme.nibble n.lexeme.nibble := by
  rw [draw]
  simp only [expect_bind_eq_ok_iff, List.mem_singleton]
  refine ⟨fun h => ?_, fun h => ?_⟩
  · obtain ⟨p, mid, hp, rfl, q, mid, hq, rfl, n, mid, hn, rfl, h⟩ := h
    obtain ⟨rfl, rfl⟩ := pure_eq_ok_iff.mp h
    exact ⟨p, q, n, hp, hq, hn, rfl, rfl⟩
  · obtain ⟨p, q, n, hp, hq, hn, rfl, rfl⟩ := h
    exact ⟨p, q :: n :: rest, hp, rfl, q, n :: rest, hq, rfl, n, rest, hn, rfl, rfl⟩

/-! A second operand that may be a byte or a register decides between two forms. -/

lemma byteOrPair_of_literal {b : ByteOp} {op : PairOp} {x : BitVec 4} {q : Token}
    (hq : q.kind = .literal) : byteOrPair b op x q = .byte b x q.lexeme.byte := by
  obtain ⟨v, hv⟩ := Lexeme.kind_eq_literal_iff.mp hq
  rw [byteOrPair, hv]

lemma byteOrPair_of_register {b : ByteOp} {op : PairOp} {x : BitVec 4} {q : Token}
    (hq : q.kind = .register) : byteOrPair b op x q = .pair op x q.lexeme.nibble := by
  obtain ⟨r, hr⟩ := Lexeme.kind_eq_register_iff.mp hq
  rw [byteOrPair, hr]

/-- The forms of `Vx, kk` and `Vx, Vy` under one name. -/
def SpellsByteOrPair (b : ByteOp) (op : PairOp) (ts rest : List Token)
    (i : Instruction Target) : Prop :=
  (∃ p q, p.kind = .register ∧ q.kind = .literal ∧ ts = p :: q :: rest ∧
    i = .byte b p.lexeme.nibble q.lexeme.byte) ∨
  (∃ p q, p.kind = .register ∧ q.kind = .register ∧ ts = p :: q :: rest ∧
    i = .pair op p.lexeme.nibble q.lexeme.nibble)

/-- `Vx, kk` or `Vx, Vy`. -/
lemma skip_eq_ok_iff {b : ByteOp} {op : PairOp} :
    skip b op ts = .ok i rest ↔ SpellsByteOrPair b op ts rest i := by
  rw [skip, SpellsByteOrPair]
  simp only [expect_bind_eq_ok_iff, List.mem_singleton, List.mem_pair]
  refine ⟨fun h => ?_, fun h => ?_⟩
  · obtain ⟨p, mid, hp, rfl, q, mid, hq | hq, rfl, h⟩ := h
    · rw [byteOrPair_of_literal hq] at h
      obtain ⟨rfl, rfl⟩ := pure_eq_ok_iff.mp h
      exact .inl ⟨p, q, hp, hq, rfl, rfl⟩
    · rw [byteOrPair_of_register hq] at h
      obtain ⟨rfl, rfl⟩ := pure_eq_ok_iff.mp h
      exact .inr ⟨p, q, hp, hq, rfl, rfl⟩
  · obtain ⟨p, q, hp, hq, rfl, rfl⟩ | ⟨p, q, hp, hq, rfl, rfl⟩ := h
    · refine ⟨p, q :: rest, hp, rfl, q, rest, .inl hq, rfl, ?_⟩
      rw [byteOrPair_of_literal hq]
      rfl
    · refine ⟨p, q :: rest, hp, rfl, q, rest, .inr hq, rfl, ?_⟩
      rw [byteOrPair_of_register hq]
      rfl

/-- `nnn` or `V0, nnn`. -/
lemma jump_eq_ok_iff :
    jump ts = .ok i rest ↔
      (∃ t, t.kind ∈ [Kind.name, .literal] ∧ ts = t :: rest ∧ i = .address .jp (.ofToken t)) ∨
      (∃ p t, p.kind = .register ∧ p.lexeme.nibble = 0#4 ∧ t.kind ∈ [Kind.name, .literal] ∧
        ts = p :: t :: rest ∧ i = .address .jpV0 (.ofToken t)) := by
  rw [jump, expect_bind_eq_ok_iff]
  refine ⟨fun h => ?_, fun h => ?_⟩
  · obtain ⟨t, mid, hk, rfl, h⟩ := h
    simp only [List.mem_cons, List.not_mem_nil, or_false] at hk
    rcases hk with hk | hk | hk
    · obtain ⟨s, hs⟩ := Lexeme.kind_eq_name_iff.mp hk
      simp only [hs] at h
      obtain ⟨rfl, rfl⟩ := pure_eq_ok_iff.mp h
      exact .inl ⟨t, by simp [hk], rfl, rfl⟩
    · obtain ⟨v, hv⟩ := Lexeme.kind_eq_literal_iff.mp hk
      simp only [hv] at h
      obtain ⟨rfl, rfl⟩ := pure_eq_ok_iff.mp h
      exact .inl ⟨t, by simp [hk], rfl, rfl⟩
    · obtain ⟨r, hr⟩ := Lexeme.kind_eq_register_iff.mp hk
      simp only [hr] at h
      split_ifs at h with h0
      · obtain ⟨u, hu, rfl, rfl⟩ := address_eq_ok_iff.mp h
        exact .inr ⟨t, u, hk, by rw [hr, h0], hu, rfl, rfl⟩
      · exact absurd h throw_ne_ok
  · obtain ⟨t, ht, rfl, rfl⟩ | ⟨p, t, hp, h0, ht, rfl, rfl⟩ := h
    · refine ⟨t, rest, List.mem_append_left [Kind.register] ht, rfl, ?_⟩
      simp only [List.mem_pair] at ht
      rcases ht with ht | ht
      · obtain ⟨s, hs⟩ := Lexeme.kind_eq_name_iff.mp ht
        simp only [hs]
        rfl
      · obtain ⟨v, hv⟩ := Lexeme.kind_eq_literal_iff.mp ht
        simp only [hv]
        rfl
    · obtain ⟨r, hr⟩ := Lexeme.kind_eq_register_iff.mp hp
      refine ⟨p, t :: rest, by simp [hp], rfl, ?_⟩
      rw [hr] at h0
      simp only [hr, if_pos h0]
      exact address_eq_ok_iff.mpr ⟨t, ht, rfl, rfl⟩

/-- `Vx, kk` or `Vx, Vy` or `I, Vx`. -/
lemma add_eq_ok_iff :
    Operands.add ts = .ok i rest ↔
      SpellsByteOrPair .add .add ts rest i ∨
      (∃ p q, p.lexeme = .name "I" ∧ q.kind = .register ∧ ts = p :: q :: rest ∧
        i = .register .addIndex q.lexeme.nibble) := by
  rw [Operands.add, expect_bind_eq_ok_iff]
  refine ⟨fun h => ?_, fun h => ?_⟩
  · obtain ⟨p, mid, hk, rfl, h⟩ := h
    rcases List.mem_pair.mp hk with hk | hk
    · obtain ⟨s, hs⟩ := Lexeme.kind_eq_name_iff.mp hk
      simp only [hs] at h
      split_ifs at h with hI
      · obtain ⟨q, hq, rfl, rfl⟩ := register_eq_ok_iff.mp h
        exact .inr ⟨p, q, by rw [hs, hI], hq, rfl, rfl⟩
      · exact absurd h throw_ne_ok
    · obtain ⟨r, hr⟩ := Lexeme.kind_eq_register_iff.mp hk
      refine .inl (skip_eq_ok_iff.mp (expect_bind_eq_ok_iff.mpr ?_))
      simp only [hr] at h
      exact ⟨p, mid, List.mem_singleton.mpr hk, rfl, by rw [hr]; exact h⟩
  · obtain hs | ⟨p, q, hp, hq, rfl, rfl⟩ := h
    · obtain ⟨p, mid, hk, rfl, h⟩ := expect_bind_eq_ok_iff.mp (skip_eq_ok_iff.mpr hs)
      have hk := List.mem_singleton.mp hk
      obtain ⟨r, hr⟩ := Lexeme.kind_eq_register_iff.mp hk
      rw [hr] at h
      refine ⟨p, mid, by simp [hk], rfl, ?_⟩
      simp only [hr]
      exact h
    · refine ⟨p, q :: rest, by simp [Token.kind, hp, Lexeme.kind], rfl, ?_⟩
      simp only [hp, if_pos]
      exact register_eq_ok_iff.mpr ⟨q, hq, rfl, rfl⟩

/-! The special operands of `LD` belong to `LD`. -/

lemma mnemonic_of_outOf? {s : String} {op : RegisterOp} (h : RegisterOp.outOf? s = some op) :
    op.mnemonic = .ld := by
  rw [RegisterOp.outOf?] at h
  split_ifs at h <;> cases h <;> rfl

lemma mnemonic_of_into? {s : String} {op : RegisterOp} (h : RegisterOp.into? s = some op) :
    op.mnemonic = .ld := by
  rw [RegisterOp.into?] at h
  split_ifs at h <;> cases h <;> rfl

lemma into?_ne_I {s : String} {op : RegisterOp} (h : RegisterOp.into? s = some op) : s ≠ "I" := by
  rintro rfl
  cases h

/-- What `LD` makes of two operands of admitted kinds is what they spell. The cases
are those of the two kinds, and then the special names. -/
lemma load_eq_ok_iff {p q : Token} (hp : p.kind ∈ [Kind.register, .name])
    (hq : q.kind ∈ [Kind.literal, .register, .name]) :
    load p q = .ok i ↔ Spells [p, q] i ∧ i.mnemonic = .ld := by
  simp only [List.mem_cons, List.not_mem_nil, or_false] at hp hq
  refine ⟨fun h => ?_, fun h => ?_⟩
  · rcases hp with hp | hp
    · obtain ⟨r, hr⟩ := Lexeme.kind_eq_register_iff.mp hp
      rcases hq with hq | hq | hq
      · obtain ⟨v, hv⟩ := Lexeme.kind_eq_literal_iff.mp hq
        simp only [load, hr, hv, byteOrPair_of_literal hq] at h
        cases h
        exact ⟨hr ▸ hv ▸ .byte .ld hp hq, rfl⟩
      · obtain ⟨r', hr'⟩ := Lexeme.kind_eq_register_iff.mp hq
        simp only [load, hr, hr', byteOrPair_of_register hq] at h
        cases h
        exact ⟨hr ▸ hr' ▸ .pair .ld hp hq, rfl⟩
      · obtain ⟨s, hs⟩ := Lexeme.kind_eq_name_iff.mp hq
        simp only [load, hr, hs] at h
        split at h
        · next op hop =>
          cases h
          exact ⟨hr ▸ .outOf hp hs hop, mnemonic_of_outOf? hop⟩
        · cases h
    · obtain ⟨s, hs⟩ := Lexeme.kind_eq_name_iff.mp hp
      by_cases hI : s = "I"
      · subst hI
        rcases hq with hq | hq | hq
        · obtain ⟨v, hv⟩ := Lexeme.kind_eq_literal_iff.mp hq
          simp only [load, hs, if_pos, hv] at h
          cases h
          exact ⟨.loadIndex hs (by simp [hq]), rfl⟩
        · obtain ⟨r, hr⟩ := Lexeme.kind_eq_register_iff.mp hq
          simp only [load, hs, if_pos, hr] at h
          cases h
          exact ⟨hr ▸ .index (by simp) hs hq, rfl⟩
        · obtain ⟨s, hs'⟩ := Lexeme.kind_eq_name_iff.mp hq
          simp only [load, hs, if_pos, hs'] at h
          cases h
          exact ⟨.loadIndex hs (by simp [hq]), rfl⟩
      · simp only [load, hs, if_neg hI] at h
        split at h
        · next op hop =>
          by_cases hq' : q.kind = .register
          · rw [Token.require, if_pos (List.mem_singleton.mpr hq')] at h
            cases h
            exact ⟨.into hs hop hq', mnemonic_of_into? hop⟩
          · rw [Token.require, if_neg (mt List.mem_singleton.mp hq')] at h
            cases h
        · cases h
  · obtain ⟨h, hm⟩ := h
    cases h with
    | jumpV0 => cases hm
    | loadIndex hp ht =>
        rcases List.mem_pair.mp ht with hk | hk
        · obtain ⟨s, hs⟩ := Lexeme.kind_eq_name_iff.mp hk
          simp only [load, hp, if_pos, hs]
        · obtain ⟨v, hv⟩ := Lexeme.kind_eq_literal_iff.mp hk
          simp only [load, hp, if_pos, hv]
    | byte op hp hq =>
        obtain ⟨r, hr⟩ := Lexeme.kind_eq_register_iff.mp hp
        obtain ⟨v, hv⟩ := Lexeme.kind_eq_literal_iff.mp hq
        cases op <;> cases hm
        simp only [load, hr, hv, byteOrPair_of_literal hq]
    | pair op hp hq =>
        obtain ⟨r, hr⟩ := Lexeme.kind_eq_register_iff.mp hp
        obtain ⟨r', hr'⟩ := Lexeme.kind_eq_register_iff.mp hq
        cases op <;> cases hm
        simp only [load, hr, hr', byteOrPair_of_register hq]
    | outOf hp hq hs =>
        obtain ⟨r, hr⟩ := Lexeme.kind_eq_register_iff.mp hp
        simp only [load, hr, hq, hs]
    | into hp hs hq =>
        simp only [load, hp, if_neg (into?_ne_I hs), hs, Token.require,
          if_pos (List.mem_singleton.mpr hq)]
        rfl
    | index hop hp hq =>
        obtain ⟨r, hr⟩ := Lexeme.kind_eq_register_iff.mp hq
        rcases List.mem_pair.mp hop with rfl | rfl
        · simp only [load, hp, if_pos, hr]
        · cases hm

/-- The kinds that `LD` admits are those of the operands that spell it. -/
lemma kinds_of_spells_ld {p q : Token} (h : Spells [p, q] i) (hm : i.mnemonic = .ld) :
    p.kind ∈ [Kind.register, .name] ∧ q.kind ∈ [Kind.literal, .register, .name] := by
  have hname : ∀ {t : Token} {s : String}, t.lexeme = .name s → t.kind = .name :=
    fun h => Lexeme.kind_eq_name_iff.mpr ⟨_, h⟩
  cases h with
  | jumpV0 => cases hm
  | loadIndex hp ht =>
      rcases List.mem_pair.mp ht with hk | hk
      · simp [hname hp, hk]
      · simp [hname hp, hk]
  | byte op hp hq => simp [hp, hq]
  | pair op hp hq => simp [hp, hq]
  | outOf hp hq => simp [hp, hname hq]
  | into hp _ hq => simp [hname hp, hq]
  | index _ hp hq => simp [hname hp, hq]

/-- The two operands of `LD`. -/
lemma loads_eq_ok_iff :
    loads ts = .ok i rest ↔
      ∃ p q, Spells [p, q] i ∧ i.mnemonic = .ld ∧ ts = p :: q :: rest := by
  rw [loads]
  simp only [expect_bind_eq_ok_iff]
  refine ⟨fun h => ?_, fun h => ?_⟩
  · obtain ⟨p, mid, hp, rfl, q, mid, hq, rfl, h⟩ := h
    obtain ⟨hl, rfl⟩ := ofExcept_eq_ok_iff.mp h
    obtain ⟨hs, hm⟩ := (load_eq_ok_iff hp hq).mp hl
    exact ⟨p, q, hs, hm, rfl⟩
  · obtain ⟨p, q, hs, hm, rfl⟩ := h
    obtain ⟨hp, hq⟩ := kinds_of_spells_ld hs hm
    have h := (load_eq_ok_iff hp hq).mpr ⟨hs, hm⟩
    exact ⟨p, q :: rest, hp, rfl, q, rest, hq, rfl, ofExcept_eq_ok_iff.mpr ⟨h, rfl⟩⟩

end Operands

/-! ### Reading operands is spelling -/

namespace Mnemonic

open Reader Operands

variable {ts rest : List Token} {i : Instruction Target}

/-- The reader of a name takes tokens that spell an instruction of that name. -/
lemma spells_of_operands {m : Mnemonic} (h : m.operands ts = .ok i rest) :
    ∃ ops, Spells ops i ∧ i.mnemonic = m ∧ ts = ops ++ rest := by
  -- the forms that several names share
  have hAddress : ∀ {op : AddressOp}, op ∈ [AddressOp.sys, .jp, .call] →
      address op ts = .ok i rest → ∃ ops, Spells ops i ∧ i.mnemonic = op.mnemonic ∧
        ts = ops ++ rest := by
    intro op hop h
    obtain ⟨t, ht, rfl, rfl⟩ := address_eq_ok_iff.mp h
    exact ⟨[t], .address hop ht, rfl, rfl⟩
  have hByteOrPair : ∀ {b : ByteOp} {op : PairOp}, b.mnemonic = op.mnemonic →
      SpellsByteOrPair b op ts rest i → ∃ ops, Spells ops i ∧ i.mnemonic = op.mnemonic ∧
        ts = ops ++ rest := by
    rintro b op hb (⟨p, q, hp, hq, rfl, rfl⟩ | ⟨p, q, hp, hq, rfl, rfl⟩)
    · exact ⟨[p, q], .byte b hp hq, hb, rfl⟩
    · exact ⟨[p, q], .pair op hp hq, rfl, rfl⟩
  have hPair : ∀ {op : PairOp}, pair op ts = .ok i rest →
      ∃ ops, Spells ops i ∧ i.mnemonic = op.mnemonic ∧ ts = ops ++ rest := by
    intro op h
    obtain ⟨p, q, hp, hq, rfl, rfl⟩ := pair_eq_ok_iff.mp h
    exact ⟨[p, q], .pair op hp hq, rfl, rfl⟩
  have hKey : ∀ {op : RegisterOp}, op ∈ [RegisterOp.skp, .sknp] →
      register op ts = .ok i rest → ∃ ops, Spells ops i ∧ i.mnemonic = op.mnemonic ∧
        ts = ops ++ rest := by
    intro op hop h
    obtain ⟨p, hp, rfl, rfl⟩ := register_eq_ok_iff.mp h
    exact ⟨[p], .key hop hp, rfl, rfl⟩
  cases m with
  | cls =>
      obtain ⟨rfl, rfl⟩ := pure_eq_ok_iff.mp h
      exact ⟨[], .fixed .cls, rfl, rfl⟩
  | ret =>
      obtain ⟨rfl, rfl⟩ := pure_eq_ok_iff.mp h
      exact ⟨[], .fixed .ret, rfl, rfl⟩
  | sys => exact hAddress (by simp) h
  | call => exact hAddress (by simp) h
  | jp =>
      rcases jump_eq_ok_iff.mp h with ⟨t, ht, rfl, rfl⟩ | ⟨p, t, hp, h0, ht, rfl, rfl⟩
      · exact ⟨[t], .address (by simp) ht, rfl, rfl⟩
      · exact ⟨[p, t], .jumpV0 hp h0 ht, rfl, rfl⟩
  | se => exact hByteOrPair rfl (skip_eq_ok_iff.mp h)
  | sne => exact hByteOrPair rfl (skip_eq_ok_iff.mp h)
  | ld =>
      obtain ⟨p, q, hs, hm, rfl⟩ := loads_eq_ok_iff.mp h
      exact ⟨[p, q], hs, hm, rfl⟩
  | add =>
      rcases add_eq_ok_iff.mp h with hs | ⟨p, q, hp, hq, rfl, rfl⟩
      · exact hByteOrPair rfl hs
      · exact ⟨[p, q], .index (by simp) hp hq, rfl, rfl⟩
  | or | and | xor | sub | shr | subn | shl => exact hPair h
  | rnd =>
      obtain ⟨p, q, hp, hq, rfl, rfl⟩ := random_eq_ok_iff.mp h
      exact ⟨[p, q], .byte .rnd hp hq, rfl, rfl⟩
  | drw =>
      obtain ⟨p, q, n, hp, hq, hn, rfl, rfl⟩ := draw_eq_ok_iff.mp h
      exact ⟨[p, q, n], .sprite hp hq hn, rfl, rfl⟩
  | skp => exact hKey (by simp) h
  | sknp => exact hKey (by simp) h

/-- The reader of a name accepts the tokens that spell an instruction of that name,
and leaves all that follows. -/
lemma operands_of_spells {ops : List Token} (h : Spells ops i) (rest : List Token) :
    i.mnemonic.operands (ops ++ rest) = .ok i rest := by
  cases h with
  | fixed op => cases op <;> rfl
  | address hop ht =>
      simp only [List.mem_cons, List.not_mem_nil, or_false] at hop
      rcases hop with rfl | rfl | rfl
      · exact address_eq_ok_iff.mpr ⟨_, ht, rfl, rfl⟩
      · exact jump_eq_ok_iff.mpr (.inl ⟨_, ht, rfl, rfl⟩)
      · exact address_eq_ok_iff.mpr ⟨_, ht, rfl, rfl⟩
  | jumpV0 hp h0 ht => exact jump_eq_ok_iff.mpr (.inr ⟨_, _, hp, h0, ht, rfl, rfl⟩)
  | loadIndex hp ht =>
      exact loads_eq_ok_iff.mpr ⟨_, _, .loadIndex hp ht, rfl, rfl⟩
  | byte op hp hq =>
      cases op with
      | se => exact skip_eq_ok_iff.mpr (.inl ⟨_, _, hp, hq, rfl, rfl⟩)
      | sne => exact skip_eq_ok_iff.mpr (.inl ⟨_, _, hp, hq, rfl, rfl⟩)
      | ld => exact loads_eq_ok_iff.mpr ⟨_, _, .byte .ld hp hq, rfl, rfl⟩
      | add => exact add_eq_ok_iff.mpr (.inl (.inl ⟨_, _, hp, hq, rfl, rfl⟩))
      | rnd => exact random_eq_ok_iff.mpr ⟨_, _, hp, hq, rfl, rfl⟩
  | pair op hp hq =>
      cases op with
      | se => exact skip_eq_ok_iff.mpr (.inr ⟨_, _, hp, hq, rfl, rfl⟩)
      | sne => exact skip_eq_ok_iff.mpr (.inr ⟨_, _, hp, hq, rfl, rfl⟩)
      | ld => exact loads_eq_ok_iff.mpr ⟨_, _, .pair .ld hp hq, rfl, rfl⟩
      | add => exact add_eq_ok_iff.mpr (.inl (.inr ⟨_, _, hp, hq, rfl, rfl⟩))
      | or | and | xor | sub | shr | subn | shl =>
          exact pair_eq_ok_iff.mpr ⟨_, _, hp, hq, rfl, rfl⟩
  | sprite hp hq hn => exact draw_eq_ok_iff.mpr ⟨_, _, _, hp, hq, hn, rfl, rfl⟩
  | key hop hp =>
      rcases List.mem_pair.mp hop with rfl | rfl
      · exact register_eq_ok_iff.mpr ⟨_, hp, rfl, rfl⟩
      · exact register_eq_ok_iff.mpr ⟨_, hp, rfl, rfl⟩
  | outOf hp hq hs =>
      have hm := mnemonic_of_outOf? hs
      rw [Instruction.mnemonic, hm]
      exact loads_eq_ok_iff.mpr ⟨_, _, .outOf hp hq hs, hm, rfl⟩
  | into hp hs hq =>
      have hm := mnemonic_of_into? hs
      rw [Instruction.mnemonic, hm]
      exact loads_eq_ok_iff.mpr ⟨_, _, .into hp hs hq, hm, rfl⟩
  | index hop hp hq =>
      rcases List.mem_pair.mp hop with rfl | rfl
      · exact loads_eq_ok_iff.mpr ⟨_, _, .index (by simp) hp hq, rfl, rfl⟩
      · exact add_eq_ok_iff.mpr (.inr ⟨_, _, hp, hq, rfl, rfl⟩)

/-- **Reading operands is spelling.** The reader of a name succeeds exactly on the
tokens that spell an instruction of that name, and looks at nothing after them. -/
theorem operands_eq_ok_iff {m : Mnemonic} :
    m.operands ts = .ok i rest ↔ ∃ ops, Spells ops i ∧ i.mnemonic = m ∧ ts = ops ++ rest := by
  constructor
  · exact spells_of_operands
  · rintro ⟨ops, hs, rfl, rfl⟩
    exact operands_of_spells hs rest

/-- Encoding is reading an instruction and looking up its label. -/
lemma encode_eq_ok_iff_resolve {m : Mnemonic} {labels : Labels} {w : Word} :
    m.encode labels ts = .ok w rest ↔
      ∃ i r, m.operands ts = .ok i rest ∧ i.resolve labels = .ok r ∧ r.word = w := by
  rw [encode]
  simp only [bind_eq_ok_iff, ofExcept_eq_ok_iff]
  refine ⟨fun h => ?_, fun h => ?_⟩
  · obtain ⟨i, mid, hi, r, mid, ⟨hr, rfl⟩, h⟩ := h
    obtain ⟨rfl, rfl⟩ := pure_eq_ok_iff.mp h
    exact ⟨i, r, hi, hr, rfl⟩
  · obtain ⟨i, r, hi, hr, rfl⟩ := h
    exact ⟨i, rest, hi, r, rest, ⟨hr, rfl⟩, rfl⟩

end Mnemonic

/-- At the start of a text at most one run of tokens spells an instruction of a given
name, and it spells one only: the reader of that name finds it. -/
theorem Spells.deterministic {ops ops' rest rest' : List Token} {i i' : Instruction Target}
    (h : Spells ops i) (h' : Spells ops' i') (hm : i.mnemonic = i'.mnemonic)
    (ht : ops ++ rest = ops' ++ rest') : ops = ops' ∧ i = i' ∧ rest = rest' := by
  have hr := Mnemonic.operands_of_spells h rest
  have hr' := Mnemonic.operands_of_spells h' rest'
  rw [ht, hm, hr'] at hr
  cases hr
  exact ⟨List.append_cancel_right ht, rfl, rfl⟩

end Chip8
