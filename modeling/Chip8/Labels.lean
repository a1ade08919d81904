/-
The table of declared labels.

* `Labels`: names with their addresses, in the order of declaration.
* `Labels.declare`: adds a name that is not there yet. A second declaration of a
  name is refused and changes nothing, so a label never moves.
* `Labels.resolve`: the address of a name that has been declared.
* `Labels.find?_of_declare`: after a declaration the new name has its address and all
  others have what they had.
-/
import Chip8.Error
import Chip8.Word

namespace Chip8

/-- The labels declared so far, the oldest first. -/
structure Labels where
  entries : List (String × Word)
  deriving DecidableEq, Repr

namespace Labels

/-- The table before the first declaration. -/
def empty : Labels := ⟨[]⟩

/-- The address of a name, if it is in the table. -/
def find? (t : Labels) (name : String) : Option Word :=
  t.entries.lookup name

/-- Adds a label; the line is that of the declaration. -/
def declare (t : Labels) (name : String) (address : Word) (line : Nat) : Except Error Labels :=
  match t.find? name with
  | some _ => .error (.duplicateLabel name line)
  | none => .ok ⟨t.entries ++ [(name, address)]⟩

/-- The address of a label in use; the line is that of the use. -/
def resolve (t : Labels) (name : String) (line : Nat) : Except Error Word :=
  match t.find? name with
  | some address => .ok address
  | none => .error (.undeclaredLabel name line)

/-! ### Looking up after declaring -/

@[simp] theorem find?_empty (name : String) : empty.find? name = none := rfl

/-- A declaration succeeds if and only if the name is new, and adds it at the end. -/
theorem declare_eq_ok_iff {t t' : Labels} {name : String} {address : Word} {line : Nat} :
    t.declare name address line = .ok t' ↔
      t.find? name = none ∧ t' = ⟨t.entries ++ [(name, address)]⟩ := by
  rw [declare]
  cases h : t.find? name with
  | none => exact ⟨fun he => ⟨rfl, (by cases he; rfl)⟩, fun he => (by rw [he.2])⟩
  | some a => exact ⟨fun he => (by cases he), fun he => (by cases he.1)⟩

/-- Looking up in a table with one entry more at its end. -/
theorem find?_concat (entries : List (String × Word)) (name : String) (address : Word)
    (other : String) :
    find? ⟨entries ++ [(name, address)]⟩ other =
      (find? ⟨entries⟩ other).or (if other = name then some address else none) := by
  rw [find?, List.lookup_append, List.lookup_cons, List.lookup_nil, find?]
  by_cases h : other = name
  · rw [if_pos h, beq_iff_eq.mpr h]
  · rw [if_neg h, beq_eq_false_iff_ne.mpr h]

/-- A declaration gives the new name its address and leaves the others alone. -/
theorem find?_of_declare {t t' : Labels} {name : String} {address : Word} {line : Nat}
    (h : t.declare name address line = .ok t') (other : String) :
    t'.find? other = if other = name then some address else t.find? other := by
  obtain ⟨hnew, rfl⟩ := declare_eq_ok_iff.mp h
  rw [find?_concat]
  by_cases ho : other = name
  · rw [if_pos ho, if_pos ho, ho]
    exact congrArg (Option.or · (some address)) hnew
  · rw [if_neg ho, if_neg ho, Option.or_none]

end Labels

end Chip8
