/-
Reading tokens one by one.

A reader takes tokens from the front of a list and ends with a value or an
error. It never puts a token back, also not one that it refuses, so what is left
after an error is as well defined as what is left after a success.

* `Reader`: the state is the list of tokens still to come.
* `Token.require`, `Reader.next`, `Reader.expect`: the kind of a token checked, the
  next token whatever it is, the next token if its kind is admitted.
* `Reader.expect_cons`: the outcome of an expectation, in one equation.
* `Reader.Advances`: what is left is a suffix of what was there. Every reader
  built from `next` by sequencing has it (`advances_next`, `advances_bind`), and
  loops over readers end because of it.
-/
import Chip8.Error

namespace Chip8

/-- A token of a kind that is not admitted is an error on its line. -/
def Token.require (t : Token) (kinds : List Kind) : Except Error Unit :=
  if t.kind ∈ kinds then .ok () else .error (.unexpectedKind kinds t.kind t.line)

/-- A computation that takes tokens from the front of a list. -/
abbrev Reader := EStateM Error (List Token)

namespace Reader

/-! ### The readers -/

/-- Takes the next token. -/
def next : Reader Token
  | [] => .error .endOfInput []
  | t :: ts => .ok t ts

/-- Takes the next token and checks its kind. -/
def expect (kinds : List Kind) : Reader Token := do
  let t ← next
  ofExcept (t.require kinds)
  return t

/-- What is expected of no tokens is missing. -/
theorem expect_nil (kinds : List Kind) : expect kinds [] = .error .endOfInput [] := rfl

/-- Expecting looks at the first token and takes it, admitted or not. -/
theorem expect_cons (kinds : List Kind) (t : Token) (ts : List Token) :
    expect kinds (t :: ts) =
      if t.kind ∈ kinds then .ok t ts else .error (.unexpectedKind kinds t.kind t.line) ts := by
  change (do ofExcept (t.require kinds); return t : Reader Token) ts = _
  by_cases h : t.kind ∈ kinds
  · rw [show t.require kinds = .ok () from if_pos h, if_pos h]
    rfl
  · rw [show t.require kinds = .error _ from if_neg h, if_neg h]
    rfl

/-! ### What is left -/

/-- The tokens that a reader leaves, whether it succeeds or not. -/
def left {α : Type} (r : Reader α) (ts : List Token) : List Token :=
  match r ts with
  | .ok _ rest => rest
  | .error _ rest => rest

/-- A reader advances if it only ever takes tokens from the front. -/
def Advances {α : Type} (r : Reader α) : Prop :=
  ∀ ts, left r ts <:+ ts

variable {α β : Type}

/-- Returning a value takes nothing. -/
theorem advances_pure (a : α) : Advances (pure a) := fun ts => List.suffix_refl ts

/-- Failing takes nothing. -/
theorem advances_throw (e : Error) : Advances (throw e : Reader α) := fun ts => List.suffix_refl ts

/-- A given result takes nothing. -/
theorem advances_ofExcept (x : Except Error α) : Advances (ofExcept x : Reader α) := by
  cases x with
  | ok a => exact advances_pure a
  | error e => exact advances_throw e

/-- The next token is taken from the front. -/
theorem advances_next : Advances next
  | [] => List.suffix_refl []
  | t :: ts => List.suffix_cons t ts

/-- Sequencing keeps the property: a suffix of a suffix is a suffix. -/
theorem advances_bind {r : Reader α} {f : α → Reader β} (hr : Advances r)
    (hf : ∀ a, Advances (f a)) : Advances (r >>= f) := by
  intro ts
  have h := hr ts
  simp only [left, bind, EStateM.bind] at h ⊢
  cases he : r ts with
  | ok a rest =>
    rw [he] at h
    exact (hf a rest).trans h
  | error e rest =>
    rw [he] at h
    exact h

/-- Changing the value changes nothing about the tokens. -/
theorem advances_map {r : Reader α} (f : α → β) (hr : Advances r) : Advances (f <$> r) := by
  intro ts
  have h := hr ts
  simp only [left, Functor.map, EStateM.map] at h ⊢
  cases he : r ts <;> rw [he] at h <;> exact h

/-- Expecting a kind takes the token it looks at. -/
theorem advances_expect (kinds : List Kind) : Advances (expect kinds) :=
  advances_bind advances_next fun t =>
    advances_bind (advances_ofExcept (t.require kinds)) fun _ => advances_pure t

end Reader

end Chip8
