/-
The command line: what may be asked of the program.

* `-v` may be repeated; each raises the verbosity. `-t` and `-d` may stand once, and
  `-o` once with a value. `-V` or `--version`, and `-h` or `--help`, are requests of
  their own and count from the place where they are read.
* Options of one letter may be joined after one hyphen. The value of `-o` is the
  rest of its argument, less equals signs in front, or if nothing is left the next
  argument.
* An argument that begins with a hyphen and has more than one character is never a
  value. A `-o` before it goes without one, which is a mistake.
* `--` ends the options. The one argument that is no option is the input.

`Arguments.parse` reads the arguments from left to right. The first one that cannot
be read decides; what is missing or repeated is only seen at the end.
-/
import Chip8.Path
import Chip8.Record

namespace Chip8

/-! ### Requests -/

/-- What an assembly is to do. -/
structure Options where
  input : String
  output : Option String := none
  verbosity : Nat := 0
  tokensOnly : Bool := false
  listing : Bool := false
  deriving DecidableEq, Repr

namespace Options

/-- The level at which the log is kept. -/
def level (o : Options) : Level :=
  match o.verbosity with
  | 0 => .error
  | 1 => .warn
  | 2 => .info
  | _ => .debug

/-- The file that receives the image: beside the input unless another is given. -/
def target (o : Options) : String :=
  o.output.getD (Path.withExtension o.input "ch8")

end Options

/-- What the arguments ask for. -/
inductive Request where
  | run (o : Options)
  | version
  | help
  deriving DecidableEq, Repr

/-- Why arguments are refused. -/
inductive Misuse where
  | unknownOption (option : String)
  | surplusArgument (argument : String)
  | missingValue
  | missingInput
  | repeatedOption (option : String)
  deriving DecidableEq, Repr

/-- What to say about refused arguments. -/
def Misuse.message : Misuse → String
  | unknownOption option => "unknown option " ++ option
  | surplusArgument argument => "more than one input: " ++ argument
  | missingValue => "option -o needs a value"
  | missingInput => "no input given"
  | repeatedOption option => "option " ++ option ++ " given more than once"

namespace Arguments

/-! ### Reading -/

/-- What has been read so far. -/
structure Draft where
  input : Option String := none
  output : Option String := none
  verbosity : Nat := 0
  tokens : Nat := 0
  listings : Nat := 0
  outputs : Nat := 0

/-- Takes an argument that is no option. -/
def Draft.withInput (d : Draft) (argument : String) : Except Misuse Draft :=
  match d.input with
  | some _ => .error (.surplusArgument argument)
  | none => .ok { d with input := some argument }

/-- The request, once all arguments have been read. -/
def Draft.finish (d : Draft) : Except Misuse Request :=
  match d.input with
  | none => .error .missingInput
  | some input =>
    if 1 < d.tokens then .error (.repeatedOption "-t")
    else if 1 < d.listings then .error (.repeatedOption "-d")
    else if 1 < d.outputs then .error (.repeatedOption "-o")
    else if 0 < d.outputs ∧ d.output = none then .error .missingValue
    else
      .ok (.run ⟨input, d.output, d.verbosity, d.tokens == 1, d.listings == 1⟩)

/-- How an argument of joined options ends. -/
inductive Joined where
  /-- All of it has been read. -/
  | read (d : Draft)
  /-- It ends with a `-o` whose value would be the next argument. -/
  | awaits (d : Draft)
  /-- It asks for something else. -/
  | asks (r : Request)

/-- Reads the options after one hyphen. -/
def joined (d : Draft) : List Char → Except Misuse Joined
  | [] => .ok (.read d)
  | 'v' :: cs => joined { d with verbosity := d.verbosity + 1 } cs
  | 't' :: cs => joined { d with tokens := d.tokens + 1 } cs
  | 'd' :: cs => joined { d with listings := d.listings + 1 } cs
  | ['o'] => .ok (.awaits { d with outputs := d.outputs + 1 })
  | 'o' :: cs =>
    let value := String.ofList (cs.dropWhile (· == '='))
    .ok (.read { d with outputs := d.outputs + 1, output := some value })
  | 'V' :: _ => .ok (.asks .version)
  | 'h' :: _ => .ok (.asks .help)
  | c :: _ => .error (.unknownOption (String.ofList ['-', c]))

/-- Reads an option after two hyphens. A value after an equals sign is ignored. -/
def long (cs : List Char) : Except Misuse Request :=
  let name := String.ofList ((cs.dropWhile (· == '-')).takeWhile (· != '='))
  if name = "version" then .ok .version
  else if name = "help" then .ok .help
  else .error (.unknownOption ("--" ++ name))

/-- Begins with a hyphen and goes on. -/
def isOption (argument : String) : Bool :=
  argument.startsWith "-" && argument != "-"

/-- Reads the arguments that are left. -/
def scan (d : Draft) : List String → Except Misuse Request
  | [] => d.finish
  | argument :: rest =>
    match argument.toList with
    | ['-', '-'] => do (← rest.foldlM Draft.withInput d).finish
    | '-' :: '-' :: cs => long cs
    | '-' :: c :: cs =>
      match joined d (c :: cs) with
      | .error e => .error e
      | .ok (.asks r) => .ok r
      | .ok (.read d) => scan d rest
      | .ok (.awaits d) =>
        match rest with
        | [] => d.finish
        | value :: rest' =>
          if isOption value then scan d (value :: rest')
          else scan { d with output := some value } rest'
    | _ =>
      match d.withInput argument with
      | .error e => .error e
      | .ok d => scan d rest
termination_by arguments => arguments.length

/-- Reads the arguments of the program, its own name apart. -/
def parse (arguments : List String) : Except Misuse Request :=
  scan {} arguments

end Arguments

end Chip8
