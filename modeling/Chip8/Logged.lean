/-
Computations that may fail and that keep a log either way.

* `Logged ρ ε α`: the records of type `ρ` written so far, and then a value or an
  error. Unlike a state that is lost with the error, the log survives it.
* `Logged.record`, `Logged.ofExcept`: one record, and one step without any.
* `Logged.mapRecords`, `Logged.mapError`: the same computation seen through another
  type of records or errors.
* `Logged.bind_of_ok`, `Logged.bind_of_error`: sequencing goes on after a success and
  keeps what is there after an error.
-/

namespace Chip8

/-- A value or an error, and the records that were written on the way to it. -/
structure Logged (ρ ε α : Type) where
  records : List ρ
  outcome : Except ε α

namespace Logged

variable {ρ ρ' ε ε' α β : Type}

/-- The records of a sequence are those of its steps, up to the first that fails. -/
protected def bind (m : Logged ρ ε α) (f : α → Logged ρ ε β) : Logged ρ ε β :=
  match m.outcome with
  | .error e => ⟨m.records, .error e⟩
  | .ok a =>
    let n := f a
    ⟨m.records ++ n.records, n.outcome⟩

instance : Monad (Logged ρ ε) where
  pure a := ⟨[], .ok a⟩
  bind := Logged.bind

/-- Writes one record. -/
def record (r : ρ) : Logged ρ ε Unit := ⟨[r], .ok ()⟩

/-- A step that writes no record. -/
def ofExcept (x : Except ε α) : Logged ρ ε α := ⟨[], x⟩

/-- The same outcome with every record replaced. -/
def mapRecords (f : ρ → ρ') (m : Logged ρ ε α) : Logged ρ' ε α :=
  ⟨m.records.map f, m.outcome⟩

/-- The same records with the error, if there is one, replaced. -/
def mapError (f : ε → ε') (m : Logged ρ ε α) : Logged ρ ε' α :=
  ⟨m.records, m.outcome.mapError f⟩

/-! ### Sequencing -/

/-- After a success the next step goes on, and its records follow. -/
theorem bind_of_ok {m : Logged ρ ε α} {a : α} (h : m.outcome = .ok a) (f : α → Logged ρ ε β) :
    m >>= f = ⟨m.records ++ (f a).records, (f a).outcome⟩ := by
  change Logged.bind m f = _
  rw [Logged.bind, h]

/-- After an error nothing is added. -/
theorem bind_of_error {m : Logged ρ ε α} {e : ε} (h : m.outcome = .error e)
    (f : α → Logged ρ ε β) : m >>= f = ⟨m.records, .error e⟩ := by
  change Logged.bind m f = _
  rw [Logged.bind, h]

end Logged

end Chip8
