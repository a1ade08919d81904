/-
The program as a whole: arguments and files in, text, files and an exit code out.

A run reads one file and writes at most one. Both accesses stand between two pure
parts: `Command.prepare` says what happens up to the writing, given what the reading
brought, and `Command.conclude` what happens after it, given how the writing went.

* `Failure`: what ends a run early, each with its message.
* `Event`: what a run shows, in order: log records, its own and those of the
  assembler, and listings. Verbosity does not change what happens; it only decides
  which records are printed (`Event.shown`).
* `Command.run`: a run on a disk; `Command.respond`: the same from the arguments
  on.
-/
import Chip8.Arguments
import Chip8.Disk
import Chip8.Listing

namespace Chip8

/-! ### Failures -/

/-- What ends a run early. -/
inductive Failure where
  | inputUnread (path : String) (fault : Fault)
  | sourceRefused (path : String) (error : Error)
  | outputNotOpened (path : String) (fault : Fault)
  | outputNotWritten (path : String) (fault : Fault)
  deriving DecidableEq, Repr

/-- The message for a failure. -/
def Failure.message : Failure → String
  | inputUnread path fault =>
    "fatal: unable to read input file `" ++ path ++ "`: " ++ fault.message
  | sourceRefused path error => "fatal: " ++ path ++ ": " ++ error.message
  | outputNotOpened path fault =>
    "fatal: unable to open output file `" ++ path ++ "`: " ++ fault.message
  | outputNotWritten path fault =>
    "fatal: unable to write to output file `" ++ path ++ "`: " ++ fault.message

/-! ### Events -/

/-- What a run shows. -/
inductive Event where
  /-- The options with which it was started. -/
  | started (o : Options)
  /-- A record of the assembler. -/
  | assembler (r : Record)
  /-- A listing. -/
  | printed (listing : String)
  /-- The image was written to a file. -/
  | wrote (bytes : Nat) (path : String)
  /-- The failure that ends the run. -/
  | failed (f : Failure)
  deriving DecidableEq, Repr

namespace Event

/-- The options, one a line. -/
def describe (o : Options) : String :=
  "Arguments:\n\tVerbosity: " ++ o.level.name ++
  "\n\tTokens Only: " ++ (if o.tokensOnly then "true" else "false") ++
  "\n\tOutfile: " ++ o.output.getD "None" ++
  "\n\tInfile: " ++ o.input

/-- The level of a log record; a listing has none. -/
def level? : Event → Option Level
  | started _ => some .debug
  | assembler r => some r.level
  | printed _ => none
  | wrote _ _ => some .info
  | failed _ => some .error

/-- The part of the program that a record comes from. -/
def origin : Event → String
  | assembler r => r.origin
  | _ => "chip8asm"

/-- The text of an event. -/
def message : Event → String
  | started o => describe o
  | assembler r => r.message
  | printed listing => listing
  | wrote bytes path => "wrote " ++ bytes.repr ++ " byte(s) to `" ++ path ++ "`"
  | failed f => f.message

/-- A log kept at some level shows the records that it admits, and every listing. -/
def shown (l : Level) (e : Event) : Bool :=
  match e.level? with
  | some r => l.shows r
  | none => true

/-- The printed form: a record is marked with its time, origin and level, a listing
is printed as it is. -/
def render (time : String) (e : Event) : String :=
  match e.level? with
  | some l => time ++ "[" ++ e.origin ++ "][" ++ l.name ++ "] " ++ e.message ++ "\n"
  | none => e.message ++ "\n"

end Event

/-! ### Runs -/

/-- Bytes for a file. -/
structure Output where
  path : String
  bytes : ByteArray

namespace Command

/-- A step of a run: it may show events and it may fail. -/
abbrev Step := Logged Event Failure

/-- The work of the assembler as a step, on the text of the input. -/
def assembling {α : Type} (o : Options) (work : Logged Record Error α) : Step α :=
  (work.mapRecords .assembler).mapError (.sourceRefused o.input)

/-- Everything up to the writing, given the text of the input. The result is what to
write; if only the tokens are asked for, that is nothing. -/
def prepare (o : Options) (input : Except Fault String) : Step (Option Output) := do
  Logged.record (.started o)
  let text ← Logged.ofExcept (input.mapError (.inputUnread o.input))
  let ts ← assembling o (Source.read text)
  if o.tokensOnly then
    Logged.record (.printed (Listing.tokens ts))
    return none
  else
    let image ← assembling o (assemble ts)
    if o.listing then Logged.record (.printed (Listing.image image))
    return some ⟨o.target, ⟨image.bytes⟩⟩

/-- Everything after the writing, given how it went. -/
def conclude (out : Output) (written : Except Failure Unit) : Step Unit := do
  Logged.ofExcept written
  Logged.record (.wrote out.bytes.size out.path)

/-- Creates the file of an output and writes it. What creating and writing have done to
the disk stays even if writing fails. -/
def save (d : Disk) (out : Output) : Except Failure Unit × Disk :=
  match d.create out.path with
  | .error fault => (.error (.outputNotOpened out.path fault), d)
  | .ok (d, l) =>
    let (written, d) := d.write l out.bytes
    (written.mapError (.outputNotWritten out.path), d)

/-- The events of a finished step, of which a failure is the last. -/
def events {α : Type} (s : Step α) : List Event :=
  match s.outcome with
  | .ok _ => s.records
  | .error f => s.records ++ [.failed f]

/-- Success is zero and failure one. -/
def exitCode {α : Type} (s : Step α) : Nat :=
  match s.outcome with
  | .ok _ => 0
  | .error _ => 1

/-- What a run leaves behind. -/
structure Result where
  events : List Event
  exit : Nat
  disk : Disk

/-- A run on a disk. -/
def run (o : Options) (d : Disk) : Result :=
  let s := prepare o (d.readText o.input)
  match s.outcome with
  | .ok (some out) =>
    let (written, d) := save d out
    let t : Step Unit := do
      let _ ← s
      conclude out written
    ⟨events t, exitCode t, d⟩
  | _ => ⟨events s, exitCode s, d⟩

/-- What is printed of some events by a log at some level. -/
def transcript (l : Level) (time : String) (es : List Event) : String :=
  String.join ((es.filter (Event.shown l)).map (Event.render time))

/-! ### From the arguments on -/

/-- The answer to `--version`. -/
def version : String := "chip8asm 0.1.0\n"

/-- The answer to `--help`. -/
def help : String :=
  "chip8asm 0.1.0\n\nUSAGE:\n    chip8asm [-v]... [-t] [-d] [-o FILE] [--] INPUT\n\n" ++
  "    -v         raise the verbosity\n" ++
  "    -t         print the token stream and stop\n" ++
  "    -d         print an address listing of the image\n" ++
  "    -o FILE    write the image to FILE (default: INPUT with the extension ch8)\n" ++
  "    -V, -h     print the version, print this text\n"

/-- What is said about refused arguments. -/
def usage (m : Misuse) : String :=
  "error: " ++ m.message ++ "\n\n" ++ help

/-- Output, messages about misuse, exit code and files. -/
structure Response where
  stdout : String
  stderr : String
  exit : Nat
  disk : Disk

/-- The program on a disk. -/
def respond (arguments : List String) (d : Disk) : Response :=
  match Arguments.parse arguments with
  | .error m => ⟨"", usage m, 1, d⟩
  | .ok .version => ⟨version, "", 0, d⟩
  | .ok .help => ⟨help, "", 0, d⟩
  | .ok (.run o) =>
    let r := run o d
    ⟨transcript o.level "" r.events, "", r.exit, r.disk⟩

end Command

end Chip8
