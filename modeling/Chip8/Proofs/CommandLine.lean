/-
Command lines: what arguments ask for.

Arguments are read from left to right, into a draft of what is asked for. The draft can be said
without reading: it is counted out of the options that have been given. So can the request at the
end, for options that stand in arguments of their own, in any order.

* `Arguments.scan_options`, `Arguments.scan_long`, `Arguments.scan_input`: what is read of an
  argument.
* `Flag`, `Flag.Asks`: options with their values, the input, and the run that they ask for.
* `Arguments.scan_of_fits`, `Arguments.scan_flags_iff`: one more option, and the rest of them.
* `Arguments.parse_flags_iff`: **the run that options ask for**, and no other, is what is read.
* `Arguments.scan_raised`, `Arguments.parse_cons_v`: every `-v` counts, wherever it is read.
-/
import Mathlib.Tactic
import Chip8.Arguments

namespace Chip8

/-! ### Options and the input -/

/-- What may stand on a command line: an option, with its value if it has one, or the input. -/
inductive Flag where
  | verbose
  | tokens
  | listing
  | output (path : String)
  | input (path : String)
  deriving DecidableEq, Repr

namespace Flag

/-- The arguments for it. -/
def arguments : Flag → List String
  | verbose => ["-v"]
  | tokens => ["-t"]
  | listing => ["-d"]
  | output path => ["-o", path]
  | input path => [path]

/-- A path in it cannot be taken for an option, which has a hyphen and goes on. -/
def Plain : Flag → Prop
  | output path | input path => ∀ c cs, path.toList ≠ '-' :: c :: cs
  | _ => True

def output? : Flag → Option String
  | output path => some path
  | _ => none

def input? : Flag → Option String
  | input path => some path
  | _ => none

/-- The run that is asked for: there is one input, and all but `-v` is given once at most. -/
structure Asks (flags : List Flag) (o : Options) : Prop where
  input : flags.filterMap input? = [o.input]
  output : flags.filterMap output? = o.output.toList
  verbosity : flags.count .verbose = o.verbosity
  tokens : flags.count .tokens = o.tokensOnly.toNat
  listing : flags.count .listing = o.listing.toNat

end Flag

namespace Arguments

/-! ### Reading an argument -/

section

variable {d : Draft} {argument : String} {c : Char} {cs : List Char}

/-- Options are read one after the other. If the last is a `-o`, its value is the next argument. -/
lemma scan_options (h : argument.toList = '-' :: c :: cs) (hc : c ≠ '-') (rest : List String) :
    scan d (argument :: rest) =
      match joined d (c :: cs) with
      | .error e => .error e
      | .ok (.asks r) => .ok r
      | .ok (.read d) => scan d rest
      | .ok (.awaits d) =>
        match rest with
        | [] => d.finish
        | value :: rest' =>
          if isOption value then scan d (value :: rest')
          else scan { d with output := some value } rest' := by
  rw [scan, h]
  split
  · next hcs => exact absurd (List.cons.inj (List.cons.inj hcs).2).1 hc
  · next hcs => exact absurd (List.cons.inj (List.cons.inj hcs).2).1 hc
  · next hcs =>
    cases hcs
    rfl
  · next hno => exact absurd rfl (hno c cs)

lemma scan_long (h : argument.toList = '-' :: '-' :: cs) (hcs : cs ≠ []) (rest : List String) :
    scan d (argument :: rest) = long cs := by
  rw [scan, h]
  split
  · next he => exact absurd (List.cons.inj (List.cons.inj he).2).2 hcs
  · next he =>
    cases he
    rfl
  · next hne he => exact absurd (List.cons.inj (List.cons.inj he).2).1.symm hne
  · next hno _ => exact absurd rfl (hno _)

/-- All else is the input. -/
lemma scan_input (h : ∀ c cs, argument.toList ≠ '-' :: c :: cs) (rest : List String) :
    scan d (argument :: rest) =
      match d.withInput argument with
      | .error e => .error e
      | .ok d => scan d rest := by
  rw [scan]
  split
  · next hcs => exact absurd hcs (h _ _)
  · next hcs => exact absurd hcs (h _ _)
  · next hcs => exact absurd hcs (h _ _)
  · rfl

lemma isOption_eq_false (h : ∀ c cs, argument.toList ≠ '-' :: c :: cs) :
    isOption argument = false := by
  refine Bool.eq_false_iff.mpr fun hoption => ?_
  obtain ⟨hstarts, hne⟩ := Bool.and_eq_true_iff.mp hoption
  obtain ⟨rest, hrest⟩ := String.startsWith_string_iff.mp hstarts
  cases rest with
  | nil => exact bne_iff_ne.mp hne (String.toList_inj.mp hrest.symm)
  | cons c cs => exact h c cs hrest.symm

end

/-! ### Reading options -/

/-- What has been read when some options have been. -/
def Draft.ofFlags (flags : List Flag) : Draft where
  input := (flags.filterMap Flag.input?).getLast?
  output := (flags.filterMap Flag.output?).getLast?
  verbosity := flags.count .verbose
  tokens := flags.count .tokens
  listings := flags.count .listing
  outputs := (flags.filterMap Flag.output?).length

section

variable {before : List Flag} {f : Flag} {o : Options}

/-- A draft with one more option. -/
lemma Draft.ofFlags_concat (before : List Flag) (f : Flag) :
    ofFlags (before ++ [f]) =
      { input := f.input?.or (ofFlags before).input
        output := f.output?.or (ofFlags before).output
        verbosity := (ofFlags before).verbosity + [f].count .verbose
        tokens := (ofFlags before).tokens + [f].count .tokens
        listings := (ofFlags before).listings + [f].count .listing
        outputs := (ofFlags before).outputs + f.output?.toList.length } := by
  simp only [ofFlags, List.filterMap_append, List.count_append, List.getLast?_append,
    List.length_append]
  cases f <;> rfl

/-- One more option is read, unless it is a second input. -/
lemma scan_of_fits (h : f.Plain) (hone : ((before ++ [f]).filterMap Flag.input?).length ≤ 1)
    (rest : List String) :
    scan (.ofFlags before) (f.arguments ++ rest) = scan (.ofFlags (before ++ [f])) rest := by
  rw [Draft.ofFlags_concat]
  cases f with
  | verbose => exact scan_options (by decide : "-v".toList = ['-', 'v']) (by decide) rest
  | tokens => exact scan_options (by decide : "-t".toList = ['-', 't']) (by decide) rest
  | listing => exact scan_options (by decide : "-d".toList = ['-', 'd']) (by decide) rest
  | output path =>
      have hflag : "-o".toList = ['-', 'o'] := by decide
      change scan _ ("-o" :: path :: rest) = _
      rw [scan_options hflag (by decide)]
      change (if isOption path = true then _ else _) = _
      rw [isOption_eq_false h, if_neg (by decide)]
      rfl
  | input path =>
      have hnone : before.filterMap Flag.input? = [] := by
        rw [List.filterMap_append, List.length_append] at hone
        exact List.eq_nil_of_length_eq_zero (by change _ + 1 ≤ 1 at hone; omega)
      have hfree : (Draft.ofFlags before).input = none := by rw [Draft.ofFlags, hnone]; rfl
      change scan _ (path :: rest) = _
      rw [scan_input h, Draft.withInput, hfree]
      rfl

/-- A second input is refused. -/
lemma scan_of_second (h : f.Plain) (hone : (before.filterMap Flag.input?).length ≤ 1)
    (htwo : ¬ ((before ++ [f]).filterMap Flag.input?).length ≤ 1) (rest : List String) :
    ∃ path, scan (.ofFlags before) (f.arguments ++ rest) = .error (.surplusArgument path) := by
  rw [List.filterMap_append, List.length_append] at htwo
  cases f with
  | verbose | tokens | listing | output path => exact absurd hone htwo
  | input path =>
      refine ⟨path, ?_⟩
      change scan _ (path :: rest) = _
      rw [scan_input h, Draft.withInput, Draft.ofFlags]
      cases hinputs : before.filterMap Flag.input? with
      | nil => exact absurd (by rw [hinputs]; exact Nat.le_refl 1) htwo
      | cons first inputs => rw [List.getLast?_cons]

/-- A list with one element at most, and which. -/
lemma eq_toList_iff {α : Type} {l : List α} {x : Option α} :
    l = x.toList ↔ l.length ≤ 1 ∧ l.getLast? = x := by
  match l with
  | [] => cases x <;> simp
  | [a] => cases x <;> simp
  | a :: b :: l => cases x <;> simp

/-- What is given once at most, and whether it is. -/
lemma eq_toNat_iff {n : Nat} {b : Bool} : n = b.toNat ↔ n ≤ 1 ∧ (n == 1) = b := by
  match n with
  | 0 => cases b <;> decide
  | 1 => cases b <;> decide
  | n + 2 => cases b <;> simp

/-- A draft is finished if there is an input and nothing has been given twice. -/
lemma Draft.finish_eq_ok_iff (d : Draft) :
    d.finish = .ok (.run o) ↔ d.input = some o.input ∧
      (d.tokens ≤ 1 ∧ (d.tokens == 1) = o.tokensOnly) ∧
      (d.listings ≤ 1 ∧ (d.listings == 1) = o.listing) ∧
      (d.outputs ≤ 1 ∧ d.output = o.output) ∧ ¬ (0 < d.outputs ∧ d.output = none) ∧
      d.verbosity = o.verbosity := by
  rw [finish]
  cases d.input with
  | none => exact ⟨fun h => (by cases h), fun h => (by cases h.1)⟩
  | some input =>
      obtain ⟨input', output, verbosity, tokensOnly, listing⟩ := o
      simp only
      split_ifs with ht hl ho hm <;> grind

/-- At the end there is the request that the options ask for. -/
lemma finish_ofFlags_iff (hone : (before.filterMap Flag.input?).length ≤ 1) :
    (Draft.ofFlags before).finish = .ok (.run o) ↔ Flag.Asks before o := by
  have hvalue : ¬ (0 < (Draft.ofFlags before).outputs ∧ (Draft.ofFlags before).output = none) := by
    rintro ⟨hpos, hnone⟩
    exact absurd (List.getLast?_eq_none_iff.mp hnone) (List.ne_nil_of_length_pos hpos)
  rw [Draft.finish_eq_ok_iff]
  refine ⟨fun h => ?_, fun h => ?_⟩
  · obtain ⟨hinput, htokens, hlisting, houtput, -, hverbosity⟩ := h
    exact ⟨eq_toList_iff.mpr ⟨hone, hinput⟩, eq_toList_iff.mpr houtput, hverbosity,
      eq_toNat_iff.mpr htokens, eq_toNat_iff.mpr hlisting⟩
  · exact ⟨(eq_toList_iff.mp h.input).2, eq_toNat_iff.mp h.tokens, eq_toNat_iff.mp h.listing,
      eq_toList_iff.mp h.output, hvalue, h.verbosity⟩

/-- **The rest of the options** is read to what all of them ask for. -/
lemma scan_flags_iff {flags : List Flag} (hplain : ∀ f ∈ flags, f.Plain) (before : List Flag)
    (hone : (before.filterMap Flag.input?).length ≤ 1) :
    scan (.ofFlags before) (flags.flatMap Flag.arguments) = .ok (.run o) ↔
      Flag.Asks (before ++ flags) o := by
  induction flags generalizing before with
  | nil =>
      rw [List.flatMap_nil, List.append_nil, scan]
      exact finish_ofFlags_iff hone
  | cons f flags ih =>
      obtain ⟨hf, hflags⟩ := List.forall_mem_cons.mp hplain
      rw [List.flatMap_cons]
      by_cases hfits : ((before ++ [f]).filterMap Flag.input?).length ≤ 1
      · rw [scan_of_fits hf hfits, ih hflags _ hfits, List.append_assoc, List.singleton_append]
      · obtain ⟨path, herror⟩ := scan_of_second hf hone hfits (flags.flatMap Flag.arguments)
        rw [herror]
        -- with two inputs among them, the options ask for no run
        refine ⟨fun h => (by cases h), fun h => absurd ?_ hfits⟩
        have hinput := congrArg List.length h.input
        rw [List.append_cons, List.filterMap_append, List.length_append, List.length_singleton]
          at hinput
        omega

/-- **The run that options ask for** is what is read, in whatever order they are given. -/
theorem parse_flags_iff {flags : List Flag} (hplain : ∀ f ∈ flags, f.Plain) :
    parse (flags.flatMap Flag.arguments) = .ok (.run o) ↔ Flag.Asks flags o :=
  scan_flags_iff hplain [] (Nat.zero_le 1)

end

end Arguments

/-! ### Counting -/

/-- The same options with another verbosity. -/
def Options.withVerbosity (o : Options) (v : Nat) : Options := { o with verbosity := v }

/-- The same request with the verbosity raised by one. -/
def Request.raised : Request → Request
  | run o => run (o.withVerbosity (o.verbosity + 1))
  | version => version
  | help => help

namespace Arguments

/-- What has been read, with the verbosity raised by one. -/
def Draft.raised (d : Draft) : Draft := { d with verbosity := d.verbosity + 1 }

/-- How an argument ends, with the verbosity raised by one. -/
def Joined.raised : Joined → Joined
  | read d => read d.raised
  | awaits d => awaits d.raised
  | asks r => asks r.raised

variable (d : Draft)

lemma Draft.withInput_raised (argument : String) :
    d.raised.withInput argument = (d.withInput argument).map Draft.raised := by
  obtain ⟨input, output, verbosity, tokens, listings, outputs⟩ := d
  cases input <;> rfl

lemma foldlM_raised (rest : List String) :
    rest.foldlM Draft.withInput d.raised = (rest.foldlM Draft.withInput d).map Draft.raised := by
  induction rest generalizing d with
  | nil => rfl
  | cons argument rest ih =>
      rw [List.foldlM_cons, List.foldlM_cons, Draft.withInput_raised]
      cases d.withInput argument with
      | error m => rfl
      | ok d' => exact ih d'

lemma Draft.finish_raised : d.raised.finish = d.finish.map Request.raised := by
  obtain ⟨input, output, verbosity, tokens, listings, outputs⟩ := d
  cases input with
  | none => rfl
  | some input =>
      simp only [Draft.finish, Draft.raised, apply_ite (Except.map Request.raised)]
      rfl

/-- Options that are joined change what has been read in the same way. -/
lemma joined_raised (cs : List Char) : joined d.raised cs = (joined d cs).map Joined.raised := by
  fun_induction joined d cs with
  | case1 d => rfl
  | case2 d cs ih => exact ih
  | case3 d cs ih => exact ih
  | case4 d cs ih => exact ih
  | case5 d => rfl
  | case6 d cs hne =>
      rw [joined]
      · rfl
      · exact hne
  | case7 d => rfl
  | case8 d => rfl
  | case9 d c cs =>
      rw [joined]
      · rfl
      all_goals assumption

lemma map_raised_long (cs : List Char) : (long cs).map Request.raised = long cs := by
  rw [long]
  split_ifs <;> rfl

/-- **What is read later does not depend on the verbosity so far**, and adds to it. -/
theorem scan_raised (d : Draft) (arguments : List String) :
    scan d.raised arguments = (scan d arguments).map Request.raised := by
  fun_induction scan d arguments with
  | case1 d =>
      rw [scan]
      exact d.finish_raised
  | case2 d argument rest h =>
      rw [scan, h]
      change (rest.foldlM Draft.withInput d.raised >>= Draft.finish) = _
      rw [foldlM_raised]
      cases rest.foldlM Draft.withInput d with
      | error m => rfl
      | ok d' => exact d'.finish_raised
  | case3 d argument rest cs hcs h =>
      rw [scan_long h hcs, map_raised_long]
  | case4 d argument rest c cs _ hc h e hj =>
      rw [scan_options h hc, joined_raised, hj]
      rfl
  | case5 d argument rest c cs _ hc h r hj =>
      rw [scan_options h hc, joined_raised, hj]
      rfl
  | case6 d argument rest c cs _ hc h d' hj ih =>
      rw [scan_options h hc, joined_raised, hj]
      exact ih
  | case7 d argument c cs _ hc h d' hj =>
      rw [scan_options h hc, joined_raised, hj]
      exact d'.finish_raised
  | case8 d argument c cs _ hc h d' hj value rest hvalue ih =>
      rw [scan_options h hc, joined_raised, hj]
      change (if isOption value = true then _ else _) = _
      rw [if_pos hvalue]
      exact ih
  | case9 d argument c cs _ hc h d' hj value rest hvalue ih =>
      rw [scan_options h hc, joined_raised, hj]
      change (if isOption value = true then _ else _) = _
      rw [if_neg hvalue]
      exact ih
  | case10 d argument rest e he _ _ h =>
      rw [scan_input h, Draft.withInput_raised, he]
      rfl
  | case11 d argument rest d' hd _ _ h ih =>
      rw [scan_input h, Draft.withInput_raised, hd]
      exact ih

/-- **One more `-v`** raises the verbosity by one and changes nothing else. -/
theorem parse_cons_v (arguments : List String) :
    parse ("-v" :: arguments) = (parse arguments).map Request.raised := by
  have hflag : "-v".toList = ['-', 'v'] := by decide
  rw [parse, scan_options hflag (by decide)]
  exact scan_raised {} arguments

end Arguments

end Chip8
