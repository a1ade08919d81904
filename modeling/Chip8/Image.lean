/-
The memory image that an assembly fills.

* `Image`: the bytes written so far. That they fit into the address space of the
  machine is part of the type, so every image that exists can be loaded.
* `Image.append`: writes bytes at the end, all of them or, if there is no room for
  all, none. `append_eq_ok_iff` and `append_eq_error_iff` say which.
-/
import Chip8.Error

namespace Chip8

/-- The bytes of the machine's address space, which no image may exceed. -/
def Image.capacity : Nat := 4096

/-- The bytes written so far. -/
structure Image where
  bytes : Array UInt8
  size_le : bytes.size ≤ Image.capacity
  deriving DecidableEq

namespace Image

/-- The image to which nothing has been written. -/
def empty : Image := ⟨#[], Nat.zero_le _⟩

/-- The number of bytes written so far. -/
def size (i : Image) : Nat := i.bytes.size

/-- The bytes written so far, the first at the lowest address. -/
def toList (i : Image) : List UInt8 := i.bytes.toList

/-- Writes bytes at the end if there is room for all of them. -/
def append (i : Image) (bs : List UInt8) : Except Error Image :=
  if h : i.size + bs.length ≤ capacity then
    .ok ⟨i.bytes ++ bs.toArray, by rw [Array.size_append, List.size_toArray]; exact h⟩
  else .error (.imageFull capacity)

/-! ### The bytes of an image -/

@[simp] theorem toList_empty : empty.toList = [] := rfl

@[simp] theorem length_toList (i : Image) : i.toList.length = i.size := rfl

/-- An image is its bytes. -/
theorem eq_of_toList_eq {i j : Image} (h : i.toList = j.toList) : i = j := by
  cases i
  cases j
  cases Array.toList_inj.mp h
  rfl

/-- Bytes are written if and only if there is room for all of them, and then they
follow what was there. -/
theorem append_eq_ok_iff {i j : Image} {bs : List UInt8} :
    i.append bs = .ok j ↔ i.size + bs.length ≤ capacity ∧ j.toList = i.toList ++ bs := by
  by_cases h : i.size + bs.length ≤ capacity
  · rw [append, dif_pos h]
    constructor
    · intro he
      cases he
      exact ⟨h, Array.toList_append⟩
    · rintro ⟨-, hj⟩
      exact congrArg Except.ok (eq_of_toList_eq (Array.toList_append.trans hj.symm))
  · rw [append, dif_neg h]
    exact ⟨fun he => (by cases he), fun hj => absurd hj.1 h⟩

/-- The only reason not to write is that there is no room. -/
theorem append_eq_error_iff {i : Image} {bs : List UInt8} {e : Error} :
    i.append bs = .error e ↔ capacity < i.size + bs.length ∧ e = .imageFull capacity := by
  by_cases h : i.size + bs.length ≤ capacity
  · rw [append, dif_pos h]
    exact ⟨fun he => (by cases he), fun he => absurd he.1 (Nat.not_lt.mpr h)⟩
  · rw [append, dif_neg h]
    constructor
    · intro he
      cases he
      exact ⟨Nat.not_le.mp h, rfl⟩
    · rintro ⟨-, rfl⟩
      rfl

end Image

end Chip8
