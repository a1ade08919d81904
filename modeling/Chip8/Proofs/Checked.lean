/-
Computations that may trap.

The functions of the assembler are total, so none of them can stop dead. What they owe this to is
not visible in them: that a text is cut between two characters, that a number fits where it is
put, that a cell is there when it is written. The same work can be described by computations that
look at each of these things when they come to it, and trap if it is not so. That they never trap
is then a theorem.

* `Trap`: what stops a computation dead.
* `Checked`: a value, an error that is reported, or a trap.
* `Checked.narrow`, `Checked.plus`, `Checked.minus`: numbers with their bounds checked.
* `Checked.Agrees`: a computation does not trap and ends as another does that has no traps.
  Sequencing keeps this (`Checked.Agrees.bind`), so it is carried from operations to whole runs.
-/
import Mathlib.Tactic
import Chip8.Error

namespace Chip8

/-- What stops a computation dead. -/
inductive Trap where
  /-- A text is cut beyond its end or inside a character. -/
  | cut (position : Nat)
  /-- A group is asked for that the pattern does not have. -/
  | noGroup (index : Nat)
  /-- A number does not fit into a width. -/
  | tooWide (width value : Nat)
  /-- A difference is below zero. -/
  | negative
  /-- A cell is asked for that the store does not have. -/
  | outOfBounds (index : Nat)
  /-- A loop takes more turns than it can if each of them gets on. -/
  | endless
  deriving DecidableEq, Repr

/-- A value, an error that is reported, or a trap. -/
inductive Checked (α : Type) where
  | value (a : α)
  | error (e : Error)
  | trap (t : Trap)
  deriving DecidableEq, Repr

namespace Checked

variable {α β γ δ : Type}

/-- Only a value goes on. -/
protected def bind : Checked α → (α → Checked β) → Checked β
  | value a, f => f a
  | error e, _ => error e
  | trap t, _ => trap t

instance : Monad Checked where
  pure := value
  bind := Checked.bind

/-- A computation that cannot trap. -/
def ofExcept : Except Error α → Checked α
  | .ok a => value a
  | .error e => error e

@[simp] lemma value_bind (a : α) (f : α → Checked β) : value a >>= f = f a := rfl

/-- A sequence has a value if its parts do. -/
lemma bind_eq_value_iff {c : Checked α} {f : α → Checked β} {b : β} :
    c >>= f = value b ↔ ∃ a, c = value a ∧ f a = value b := by
  refine ⟨fun h => ?_, fun h => ?_⟩
  · cases c with
    | value a => exact ⟨a, rfl, h⟩
    | error e => cases h
    | trap t => cases h
  · obtain ⟨a, rfl, h⟩ := h
    exact h

/-! ### Numbers -/

/-- A number in a given number of bits, if it fits. -/
def narrow (w n : Nat) : Checked (BitVec w) :=
  if n < 2 ^ w then value (BitVec.ofNat w n) else trap (.tooWide w n)

/-- A sum in the width of its parts, if it fits. -/
def plus {w : Nat} (a b : BitVec w) : Checked (BitVec w) := narrow w (a.toNat + b.toNat)

/-- A difference, if it is not below zero. -/
def minus (a b : Nat) : Checked Nat := if b ≤ a then value (a - b) else trap .negative

lemma narrow_of_lt {w n : Nat} (h : n < 2 ^ w) : narrow w n = value (BitVec.ofNat w n) :=
  if_pos h

lemma plus_of_lt {w : Nat} {a b : BitVec w} (h : a.toNat + b.toNat < 2 ^ w) :
    plus a b = value (a + b) := by
  rw [plus, narrow_of_lt h, BitVec.ofNat_add, BitVec.ofNat_toNat, BitVec.ofNat_toNat,
    BitVec.setWidth_eq, BitVec.setWidth_eq]

lemma minus_add_right (a b : Nat) : minus (a + b) b = value a := by
  rw [minus, if_pos (Nat.le_add_left b a), Nat.add_sub_cancel]

/-! ### Agreement -/

/-- The computation does not trap. It ends with a value that is related to the other, or with the
same error. -/
inductive Agrees (R : α → β → Prop) : Checked α → Except Error β → Prop
  | value {a : α} {b : β} (h : R a b) : Agrees R (.value a) (.ok b)
  | error (e : Error) : Agrees R (.error e) (.error e)

variable {R : α → β → Prop} {S : γ → δ → Prop} {c : Checked α} {x : Except Error β}

lemma Agrees.ne_trap (h : Agrees R c x) (t : Trap) : c ≠ trap t := by
  intro he
  rw [he] at h
  cases h

lemma Agrees.mono {R' : α → β → Prop} (h : Agrees R c x) (hR : ∀ a b, R a b → R' a b) :
    Agrees R' c x := by
  cases h with
  | value h => exact .value (hR _ _ h)
  | error e => exact .error e

/-- **Sequences agree if their parts do.** -/
lemma Agrees.bind {f : α → Checked γ} {g : β → Except Error δ} (h : Agrees R c x)
    (hf : ∀ a b, R a b → Agrees S (f a) (g b)) : Agrees S (c >>= f) (x >>= g) := by
  cases h with
  | value h => exact hf _ _ h
  | error e => exact .error e

lemma agrees_ofExcept (x : Except Error α) : Agrees Eq (ofExcept x) x := by
  cases x with
  | ok a => exact .value rfl
  | error e => exact .error e

end Checked

end Chip8
