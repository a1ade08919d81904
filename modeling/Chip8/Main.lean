/-
The program on the files of the system.

Everything that it decides is decided by `Chip8.Command`; here the arguments, the two
files and the clock are real.
-/
import Chip8.Command
import Std.Time

namespace Chip8

namespace Host

/-- The fault behind an error that the system reports. -/
def fault : IO.Error → Fault
  | .noFileOrDirectory .. => .notFound
  | .inappropriateType _ 20 _ => .notDirectory
  | .inappropriateType _ 21 _ => .isDirectory
  | .resourceExhausted _ 28 _ => .noSpace
  | .permissionDenied _ code reason =>
    .other (reason ++ " (os error " ++ code.toNat.repr ++ ")")
  | e => .other (toString e)

/-- The text of a file. -/
def readText (path : String) : IO (Except Fault String) := do
  match ← (IO.FS.withFile path .read (·.readBinToEnd)).toBaseIO with
  | .ok bytes => return Fault.decodeText bytes
  | .error e => return .error (fault e)

/-- Creates a file and writes it. -/
def save (out : Output) : IO (Except Failure Unit) := do
  match ← (IO.FS.Handle.mk out.path .write).toBaseIO with
  | .error e => return .error (.outputNotOpened out.path (fault e))
  | .ok file =>
    match ← (file.write out.bytes *> file.flush).toBaseIO with
    | .error e => return .error (.outputNotWritten out.path (fault e))
    | .ok _ => return .ok ()

/-- The mark of the current time at the start of a log line. -/
def timeMark : IO String := do
  return (← Std.Time.PlainDateTime.now).format "[uuuu-MM-dd][HH:mm:ss]"

/-- Prints what a step has shown and tells its exit code. -/
def report {α : Type} (o : Options) (s : Command.Step α) : IO UInt32 := do
  IO.print (Command.transcript o.level (← timeMark) (Command.events s))
  return (Command.exitCode s).toUInt32

/-- An assembly from file to file. -/
def run (o : Options) : IO UInt32 := do
  let s := Command.prepare o (← readText o.input)
  let code ← report o s
  match s.outcome with
  | .ok (some out) => report o (Command.conclude out (← save out))
  | _ => return code

end Host

end Chip8

/-- Answers the arguments. -/
def main (arguments : List String) : IO UInt32 := do
  match Chip8.Arguments.parse arguments with
  | .error m =>
    IO.eprint (Chip8.Command.usage m)
    return 1
  | .ok .version =>
    IO.print Chip8.Command.version
    return 0
  | .ok .help =>
    IO.print Chip8.Command.help
    return 0
  | .ok (.run o) => Chip8.Host.run o
