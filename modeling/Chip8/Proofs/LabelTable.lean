/-
The table of labels over all its calls.

A label is bound by the first call that declares it and never moves. Later declarations of it are
refused and leave no trace, whatever is declared or looked up in between. The table keeps its
entries in a list, in which the oldest one is found first; but this is not what the labels owe their
addresses to. A map in which an entry replaces the one before gives the same answers, since it is
asked for the name before anything is entered.

* `Labels.Call`, `Labels.call`: declaring and looking up, one call after the other.
* `Labels.firstAddress`, `Labels.Declared`: what a list of calls says about a name.
* `Labels.find?_next`, `Labels.find?_after`: what a call enters, and what a history does.
* `Labels.Map.call`: the same calls on a map that can be overwritten; `Labels.Map.simulates_call`
  says that it is not.
* `Assembly.step_cases`: what a statement does to the table and to the image.
* `Assembly.Ordered`, `Assembly.Ordered.step`, `Assembly.Ordered.run`: the addresses in the table
  do not decrease and lie in what has been written; a statement keeps this, and so does a run.
* `labels_written_once`: **the table is written to once for every name**, in all histories, and
  in the states of an assembly its addresses are in order.
-/
import Mathlib.Tactic
import Chip8.Proofs.Histories

namespace Chip8

open History

/-! ### Calls on the table -/

namespace Labels

/-- A call on the table: a label is declared, or looked up. -/
inductive Call where
  | declare (name : String) (address : Word) (line : Nat)
  | resolve (name : String) (line : Nat)
  deriving DecidableEq, Repr

/-- Carries out a call. Looking up is answered with the address. -/
def call : Call → EStateM Error Labels (Option Word)
  | .declare name address line => do
    let t ← get
    set (← ofExcept (t.declare name address line))
    return none
  | .resolve name line => do
    let t ← get
    return some (← ofExcept (t.resolve name line))

/-- The address that a call is to give to a name. -/
def Call.address? (name : String) : Call → Option Word
  | declare name' address _ => if name' = name then some address else none
  | resolve _ _ => none

/-- The address in the first declaration of a name. -/
def firstAddress (cs : List Call) (name : String) : Option Word :=
  cs.findSome? (·.address? name)

/-- One of the calls declares a name, whether it succeeds or not. -/
def Declared (cs : List Call) (name : String) : Prop :=
  ∃ address line, .declare name address line ∈ cs

/-- The table after calls on an empty one. -/
def ofCalls (cs : List Call) : Labels := after call .empty cs

variable {t : Labels} {cs : List Call} {name : String} {address : Word} {line : Nat}

lemma firstAddress_eq_none_iff : firstAddress cs name = none ↔ ¬ Declared cs name := by
  rw [firstAddress, List.findSome?_eq_none_iff]
  constructor
  · rintro h ⟨address, line, hmem⟩
    simpa [Call.address?] using h _ hmem
  · intro h c hc
    cases c with
    | declare name' address line =>
        have hne : name' ≠ name := fun he => h ⟨address, line, he ▸ hc⟩
        simp [Call.address?, hne]
    | resolve name' line => rfl

lemma firstAddress_cons (c : Call) (cs : List Call) (name : String) :
    firstAddress (c :: cs) name = (c.address? name).or (firstAddress cs name) := by
  rw [firstAddress, List.findSome?_cons]
  cases c.address? name <;> rfl

/-- The first declaration of a name is not changed by what is called later. -/
lemma firstAddress_append (h : firstAddress cs name = some address) (later : List Call) :
    firstAddress (cs ++ later) name = some address := by
  rw [firstAddress] at h ⊢
  rw [List.findSome?_append, h, Option.some_or]

/-! What a call answers, and what it leaves. -/

lemma call_declare (t : Labels) (name : String) (address : Word) (line : Nat) :
    call (.declare name address line) t =
      match t.find? name with
      | none => .ok none ⟨t.entries ++ [(name, address)]⟩
      | some _ => .error (.duplicateLabel name line) t := by
  change (ofExcept (t.declare name address line) >>= fun t => do
    set t
    return none : EStateM Error Labels (Option Word)) t = _
  rw [declare]
  cases t.find? name <;> rfl

lemma call_resolve (t : Labels) (name : String) (line : Nat) :
    call (.resolve name line) t =
      match t.find? name with
      | none => .error (.undeclaredLabel name line) t
      | some address => .ok (some address) t := by
  change (ofExcept (t.resolve name line) >>= fun a => return some a :
    EStateM Error Labels (Option Word)) t = _
  rw [resolve]
  cases t.find? name <;> rfl

lemma answer_resolve_eq_ok_iff :
    answer call t (.resolve name line) = .ok (some address) ↔ t.find? name = some address := by
  cases h : t.find? name <;> simp [answer, call_resolve, h]

lemma answer_resolve_eq_error_iff {e : Error} :
    answer call t (.resolve name line) = .error e ↔
      t.find? name = none ∧ e = .undeclaredLabel name line := by
  cases h : t.find? name <;> simp [answer, call_resolve, h, eq_comm]

lemma answer_declare_eq_ok_iff :
    answer call t (.declare name address line) = .ok none ↔ t.find? name = none := by
  cases h : t.find? name <;> simp [answer, call_declare, h]

lemma answer_declare_eq_error_iff {e : Error} :
    answer call t (.declare name address line) = .error e ↔
      t.find? name ≠ none ∧ e = .duplicateLabel name line := by
  cases h : t.find? name <;> simp [answer, call_declare, h, eq_comm]

lemma next_resolve (t : Labels) (name : String) (line : Nat) :
    next call t (.resolve name line) = t := by
  cases h : t.find? name <;> simp [next, call_resolve, h]

lemma next_declare_of_ne_none (h : t.find? name ≠ none) :
    next call t (.declare name address line) = t := by
  obtain ⟨a, ha⟩ := Option.ne_none_iff_exists'.mp h
  simp [next, call_declare, ha]

/-- **A call** enters an address for a name only if there is none. -/
theorem find?_next (t : Labels) (c : Call) (name : String) :
    (next call t c).find? name = (t.find? name).or (c.address? name) := by
  cases c with
  | resolve name' line => rw [next_resolve, Call.address?, Option.or_none]
  | declare name' address line =>
      rw [Call.address?]
      cases h : t.find? name' with
      | none =>
          have hnext : next call t (.declare name' address line) =
              ⟨t.entries ++ [(name', address)]⟩ := by simp [next, call_declare, h]
          rw [hnext, find?_concat]
          simp only [eq_comm]
      | some a =>
          rw [next_declare_of_ne_none (by simp [h])]
          by_cases hname : name' = name
          · rw [← hname, h, Option.some_or]
          · rw [if_neg hname, Option.or_none]

/-- **A history** enters, for a name that is not there, the address of its first declaration. -/
theorem find?_after (t : Labels) (cs : List Call) (name : String) :
    (after call t cs).find? name = (t.find? name).or (firstAddress cs name) := by
  induction cs generalizing t with
  | nil => exact Option.or_none.symm
  | cons c cs ih => rw [after, ih, find?_next, Option.or_assoc, firstAddress_cons]

lemma find?_ofCalls (cs : List Call) (name : String) :
    (ofCalls cs).find? name = firstAddress cs name := by
  rw [ofCalls, find?_after, find?_empty, Option.none_or]

/-! ### A map that can be overwritten -/

/-- Addresses by name. To enter one is to replace what was there. -/
abbrev Map := String → Option Word

/-- Carries out a call on a map: it is asked for the name before an address is entered. -/
def Map.call : Call → EStateM Error Map (Option Word)
  | .declare name address line => do
    let m ← get
    if (m name).isSome then throw (.duplicateLabel name line)
    set (Function.update m name (some address))
    return none
  | .resolve name line => do
    let m ← get
    match m name with
    | some address => return some address
    | none => throw (.undeclaredLabel name line)

lemma Map.call_declare (m : Map) (name : String) (address : Word) (line : Nat) :
    Map.call (.declare name address line) m =
      match m name with
      | none => .ok none (Function.update m name (some address))
      | some _ => .error (.duplicateLabel name line) m := by
  change (do
    if (m name).isSome then throw (.duplicateLabel name line)
    set (Function.update m name (some address))
    return none : EStateM Error Map (Option Word)) m = _
  cases m name <;> rfl

lemma Map.call_resolve (m : Map) (name : String) (line : Nat) :
    Map.call (.resolve name line) m =
      match m name with
      | none => .error (.undeclaredLabel name line) m
      | some address => .ok (some address) m := by
  change (match m name with
    | some address => return some address
    | none => throw (.undeclaredLabel name line) : EStateM Error Map (Option Word)) m = _
  cases m name <;> rfl

/-- **A call** has the same answer from the map as from the table, and enters the same. -/
theorem Map.simulates_call {m : Map} (hm : t.find? = m) (c : Call) :
    answer Map.call m c = answer Labels.call t c ∧
      (next Labels.call t c).find? = next Map.call m c := by
  subst hm
  cases c with
  | resolve name line =>
      rw [next_resolve]
      cases h : t.find? name <;> simp [answer, next, Map.call_resolve, Labels.call_resolve, h]
  | declare name address line =>
      refine ⟨?_, funext fun other => ?_⟩
      · cases h : t.find? name <;> simp [answer, Map.call_declare, Labels.call_declare, h]
      · rw [find?_next, Call.address?]
        cases h : t.find? name with
        | none =>
            -- the new name has had no address, so nothing is replaced
            simp only [next, Map.call_declare, h, Function.update_apply]
            by_cases ho : other = name
            · simp [ho, h]
            · simp [ho, Ne.symm ho]
        | some a =>
            simp only [next, Map.call_declare, h]
            by_cases ho : name = other
            · simp [← ho, h]
            · simp [ho]

/-- The names in the table, in the order of their declarations. -/
def names (t : Labels) : List String := t.entries.map Prod.fst

/-- The addresses in the table, in the order of their declarations. -/
def addresses (t : Labels) : List Nat := t.entries.map (·.2.toNat)

end Labels

/-! ### The table in an assembly -/

/-- The name that a statement declares. -/
def Statement.name? : Statement → Option String
  | .label name _ => some name
  | .data _ | .instruction _ _ => none

namespace Assembly

variable {a b : Assembly} {s : Statement} {ss : List Statement}

/-- The address of the next byte is not cut: an image has no more bytes than addresses have room
for. -/
lemma toNat_here (a : Assembly) : a.here.toNat = 0x200 + a.image.size := by
  have hsize : a.image.size ≤ 4096 := a.image.size_le
  have hbase : Image.base.toNat = 0x200 := rfl
  rw [here, BitVec.toNat_add, BitVec.toNat_ofNat, hbase]
  omega

/-- What a statement can do: a label is entered with the address of the next byte and nothing is
written, or bytes are written and the table stays as it is. -/
lemma step_cases (h : (a.step s).outcome = .ok b) :
    (∃ name line, s = .label name line ∧ a.labels.find? name = none ∧
      b = ⟨⟨a.labels.entries ++ [(name, a.here)]⟩, a.image⟩) ∨
    (s.name? = none ∧ b.labels = a.labels ∧ a.image.size ≤ b.image.size) := by
  have hwrite : ∀ {bs}, a.write bs = .ok b → b.labels = a.labels ∧ a.image.size ≤ b.image.size := by
    intro bs hb
    obtain ⟨hlabels, -, hbytes⟩ := write_eq_ok_iff.mp hb
    rw [size_of_toList hbytes]
    exact ⟨hlabels, Nat.le_add_right _ _⟩
  cases s with
  | label name line =>
      rw [step, Logged.bind_outcome_eq_ok_iff] at h
      obtain ⟨labels, hd, h⟩ := h
      obtain ⟨hnew, rfl⟩ := Labels.declare_eq_ok_iff.mp hd
      cases h
      exact .inl ⟨name, line, rfl, hnew, rfl⟩
  | data v => exact .inr ⟨rfl, hwrite h⟩
  | instruction i line =>
      rw [step, Logged.bind_outcome_eq_ok_iff] at h
      obtain ⟨r, -, h⟩ := h
      exact .inr ⟨rfl, hwrite h⟩

/-- What is true of the table between two statements: it has been made by calls, its addresses do
not decrease, and each of them lies in what has been written or at its end. -/
structure Ordered (a : Assembly) : Prop where
  history : ∃ cs, a.labels = Labels.ofCalls cs
  sorted : a.labels.addresses.Pairwise (· ≤ ·)
  within : ∀ n ∈ a.labels.addresses, 0x200 ≤ n ∧ n ≤ 0x200 + a.image.size

lemma ordered_start : start.Ordered := ⟨⟨[], rfl⟩, .nil, fun _ hn => (by cases hn)⟩

/-- **A step.** A statement keeps the addresses in order: a new one is that of the end of the image,
behind all that were there. -/
theorem Ordered.step (ha : a.Ordered) (h : (a.step s).outcome = .ok b) : b.Ordered := by
  rcases step_cases h with ⟨name, line, -, hnew, rfl⟩ | ⟨-, hlabels, hsize⟩
  · obtain ⟨cs, hcs⟩ := ha.history
    have haddresses : Labels.addresses ⟨a.labels.entries ++ [(name, a.here)]⟩ =
        a.labels.addresses ++ [0x200 + a.image.size] := by
      simp [Labels.addresses, toNat_here]
    refine ⟨⟨cs ++ [.declare name a.here line], ?_⟩, ?_, ?_⟩
    · rw [Labels.ofCalls, after_concat]
      change _ = next Labels.call (Labels.ofCalls cs) _
      rw [← hcs]
      simp [next, Labels.call_declare, hnew]
    · rw [haddresses, List.pairwise_append]
      refine ⟨ha.sorted, List.pairwise_singleton _ _, fun m hm n hn => ?_⟩
      rw [List.mem_singleton.mp hn]
      exact (ha.within m hm).2
    · intro n hn
      rw [haddresses, List.mem_append, List.mem_singleton] at hn
      rcases hn with hn | rfl
      · exact ha.within n hn
      · exact ⟨Nat.le_add_right _ _, Nat.le_refl _⟩
  · refine ⟨by rw [hlabels]; exact ha.history, by rw [hlabels]; exact ha.sorted, fun n hn => ?_⟩
    rw [hlabels] at hn
    obtain ⟨hlow, hhigh⟩ := ha.within n hn
    exact ⟨hlow, by omega⟩

/-- **A run** keeps the addresses in order. -/
theorem Ordered.run (ha : a.Ordered) (h : (a.run ss).outcome = .ok b) : b.Ordered := by
  induction ss generalizing a with
  | nil =>
      cases h
      exact ha
  | cons s ss ih =>
      rw [Assembly.run, Logged.bind_outcome_eq_ok_iff] at h
      obtain ⟨c, hc, h⟩ := h
      exact ih (ha.step hc) h

/-- The names are entered in the order of the statements that declare them. -/
lemma names_run (h : (a.run ss).outcome = .ok b) :
    b.labels.names = a.labels.names ++ ss.filterMap Statement.name? := by
  induction ss generalizing a with
  | nil =>
      cases h
      exact (List.append_nil _).symm
  | cons s ss ih =>
      rw [run, Logged.bind_outcome_eq_ok_iff] at h
      obtain ⟨c, hc, h⟩ := h
      rw [ih h]
      rcases step_cases hc with ⟨name, line, rfl, -, rfl⟩ | ⟨hname, hlabels, -⟩
      · simp [Labels.names, Statement.name?]
      · rw [hlabels, List.filterMap_cons_none hname]

end Assembly

/-! ### All histories -/

/-- **The table is written to once for every name.** After any history of declarations and look-ups,
those that failed included, a name has the address of its first declaration, and keeps it whatever
is called later. Looking it up fails if and only if it has not been declared, and declaring it fails
if and only if it has been; a declaration that fails changes no answer to any later call. The
answers are those of a map that could be overwritten. In every state of an assembly between two
statements the table is one of these: its names are those of the labels so far, in order, and their
addresses do not decrease and lie between `0x200` and the end of what has been written. -/
theorem labels_written_once :
    (∀ (cs : List Labels.Call) (name : String) (line : Nat),
      (∀ address, answer Labels.call (Labels.ofCalls cs) (.resolve name line) = .ok (some address) ↔
        Labels.firstAddress cs name = some address) ∧
      (∀ address later, Labels.firstAddress cs name = some address →
        answer Labels.call (Labels.ofCalls (cs ++ later)) (.resolve name line) =
          .ok (some address)) ∧
      (∀ e, answer Labels.call (Labels.ofCalls cs) (.resolve name line) = .error e ↔
        ¬ Labels.Declared cs name ∧ e = .undeclaredLabel name line) ∧
      (∀ address,
        (answer Labels.call (Labels.ofCalls cs) (.declare name address line) = .ok none ↔
          ¬ Labels.Declared cs name) ∧
        (∀ e, answer Labels.call (Labels.ofCalls cs) (.declare name address line) = .error e ↔
          Labels.Declared cs name ∧ e = .duplicateLabel name line) ∧
        (Labels.Declared cs name → ∀ later,
          answers Labels.call (Labels.ofCalls (cs ++ [.declare name address line])) later =
            answers Labels.call (Labels.ofCalls cs) later)) ∧
      answers Labels.Map.call (fun _ => none) cs = answers Labels.call .empty cs) ∧
    ∀ (ts : List Token) (n : Nat) (a : Assembly),
      (Assembly.start.run ((Program.read ts).statements.take n)).outcome = .ok a →
      (∃ cs, a.labels = Labels.ofCalls cs) ∧
      a.labels.names = ((Program.read ts).statements.take n).filterMap Statement.name? ∧
      a.labels.addresses.Pairwise (· ≤ ·) ∧
      ∀ address ∈ a.labels.addresses, 0x200 ≤ address ∧ address ≤ 0x200 + a.image.size := by
  refine ⟨fun cs name line => ?_, fun ts n a h => ?_⟩
  · have hfind : (Labels.ofCalls cs).find? name = Labels.firstAddress cs name :=
      Labels.find?_ofCalls cs name
    have hdeclared : (Labels.ofCalls cs).find? name ≠ none ↔ Labels.Declared cs name := by
      rw [hfind, ne_eq, Labels.firstAddress_eq_none_iff, not_not]
    refine ⟨fun address => ?_, fun address later h => ?_, fun e => ?_, fun address => ⟨?_, ?_, ?_⟩,
      ?_⟩
    · rw [Labels.answer_resolve_eq_ok_iff, hfind]
    · rw [Labels.answer_resolve_eq_ok_iff, Labels.find?_ofCalls]
      exact Labels.firstAddress_append h later
    · rw [Labels.answer_resolve_eq_error_iff, ← hdeclared, ne_eq, not_not]
    · rw [Labels.answer_declare_eq_ok_iff, ← hdeclared, ne_eq, not_not]
    · intro e
      rw [Labels.answer_declare_eq_error_iff, hdeclared]
    · intro hd later
      have hsame : Labels.ofCalls (cs ++ [.declare name address line]) = Labels.ofCalls cs := by
        rw [Labels.ofCalls, after_concat]
        exact Labels.next_declare_of_ne_none (hdeclared.mpr hd)
      rw [hsame]
    · have hsim := simulates (R := fun (t : Labels) (m : Labels.Map) => t.find? = m) (f := id)
        (fun _ _ c h => Labels.Map.simulates_call h c) (funext Labels.find?_empty) cs
      rw [hsim.1, List.map_id]
  · have hordered := Assembly.ordered_start.run h
    exact ⟨hordered.history, Assembly.names_run h, hordered.sorted, hordered.within⟩

/-- A byte of data and an instruction, each with a label behind it. -/
def labelsBehindBytes : List Token :=
  [⟨.literal 0xAB#64, 1⟩, ⟨.label "a", 2⟩, ⟨.instruction "CLS", 3⟩, ⟨.label "b", 4⟩]

/-- A program with two labels keeps them in order. -/
theorem labels_written_once_two :
    ∃ a, (Assembly.start.run ((Program.read labelsBehindBytes).statements.take 4)).outcome = .ok a ∧
      a.labels.names = ["a", "b"] ∧ a.labels.addresses = [0x201, 0x203] ∧
      a.labels.addresses.Pairwise (· ≤ ·) ∧
      ∀ address ∈ a.labels.addresses, 0x200 ≤ address ∧ address ≤ 0x203 := by
  have h : (Assembly.start.run ((Program.read labelsBehindBytes).statements.take 4)).outcome =
      .ok ⟨⟨[("a", 0x201#16), ("b", 0x203#16)]⟩, ⟨#[0xAB, 0x00, 0xE0], by decide⟩⟩ := by
    decide +kernel
  obtain ⟨-, -, hsorted, hwithin⟩ := labels_written_once.2 labelsBehindBytes 4 _ h
  exact ⟨_, h, rfl, rfl, hsorted, hwithin⟩

-- a label that is declared again stays where it was
example : answers Labels.call .empty [.declare "loop" 0x204#16 2, .declare "loop" 0x210#16 8,
    .resolve "loop" 9] = [.ok none, .error (.duplicateLabel "loop" 8), .ok (some 0x204#16)] := by
  rfl

end Chip8
