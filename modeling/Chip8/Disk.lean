/-
Files and directories.

A disk is a finite table from locations to entries, together with the working
directory from which relative paths start. A location is the list of names from
the root down, without `.` and `..`.

* `Entry`: what can be at a location. A file may be short of room, and an entry may be
  refused by the system.
* `Disk.find?`, `Disk.content?`, `Disk.put`: looking up and replacing one entry.
* `Disk.enter`, `Disk.directory`, `Disk.locate`: following a path step by step. Every
  step but the last has to lead into a directory, and so has the last if a slash
  follows it.
* `Disk.read`, `Disk.create`, `Disk.write`: what can be done with a file, and the
  faults that can stand in the way (`Fault`).
* `Disk.addFile`, `Disk.changes`: setting a disk up, and what is new on it.
-/
import Chip8.Path

namespace Chip8

/-! ### Faults -/

/-- Why a file cannot be read or written. -/
inductive Fault where
  | notFound
  | notDirectory
  | isDirectory
  | noSpace
  /-- The file is there, but its bytes are no UTF-8 text. -/
  | notText
  /-- Any other reason that the system gives. -/
  | other (reason : String)
  deriving DecidableEq, Repr

/-- The system's words for a fault. -/
def Fault.message : Fault → String
  | notFound => "No such file or directory (os error 2)"
  | notDirectory => "Not a directory (os error 20)"
  | isDirectory => "Is a directory (os error 21)"
  | noSpace => "No space left on device (os error 28)"
  | notText => "stream did not contain valid UTF-8"
  | other reason => reason

/-- The text that bytes encode. -/
def Fault.decodeText (bytes : ByteArray) : Except Fault String :=
  match String.fromUTF8? bytes with
  | some s => .ok s
  | none => .error .notText

/-! ### Disks -/

/-- What a location can hold. -/
inductive Entry where
  | directory
  | file (content : ByteArray)
  /-- A file where there is room for a number of bytes only. -/
  | limited (room : Nat) (content : ByteArray)
  /-- A device that takes every byte and keeps none. -/
  | null
  /-- A device without room. -/
  | full
  /-- Something that the system refuses to open, for a reason of its own. -/
  | refused (fault : Fault)

/-- The bytes of a regular file. -/
def Entry.content? : Entry → Option ByteArray
  | file content | limited _ content => some content
  | directory | null | full | refused _ => none

/-- The names from the root down to an entry. -/
abbrev Location := List String

/-- One step of a path: to the same place, up, or down. The root is above itself. -/
def Location.step (l : Location) (name : String) : Location :=
  if name = "." then l else if name = ".." then l.dropLast else l ++ [name]

/-- Entries by location, and the working directory. -/
structure Disk where
  entries : List (Location × Entry)
  working : Location

namespace Disk

/-- The entry at a location. The root is always a directory. -/
def find? (d : Disk) (l : Location) : Option Entry :=
  if l = [] then some .directory else d.entries.lookup l

/-- The bytes of the regular file at a location, if there is one. -/
def content? (d : Disk) (l : Location) : Option ByteArray :=
  (d.find? l).bind Entry.content?

/-- Replaces the entry at a location. -/
def put (d : Disk) (l : Location) (e : Entry) : Disk :=
  { d with entries := (l, e) :: d.entries.filter (·.1 ≠ l) }

/-! ### Paths on a disk -/

/-- One step from a directory into another. -/
def enter (d : Disk) (l : Location) (name : String) : Except Fault Location :=
  match d.find? (l.step name) with
  | some .directory => .ok (l.step name)
  | some (.refused fault) => .error fault
  | some _ => .error .notDirectory
  | none => .error .notFound

/-- Where a path starts. -/
def origin (d : Disk) (p : String) : Location :=
  if p.startsWith "/" then [] else d.working

/-- The directory to which some steps of a path lead. -/
def directory (d : Disk) (p : String) (names : List String) : Except Fault Location :=
  names.foldlM d.enter (d.origin p)

/-- A last step that can only mean a directory. -/
def isDirectoryStep (p name : String) : Bool :=
  name = "." || name = ".." || p.endsWith "/"

/-- The location of an existing entry. -/
def locate (d : Disk) (p : String) : Except Fault Location :=
  match (Path.names p).getLast? with
  | none => if p = "" then .error .notFound else .ok []
  | some name => do
    let l ← d.directory p (Path.names p).dropLast
    if isDirectoryStep p name then d.enter l name
    else
      match d.find? (l ++ [name]) with
      | some _ => .ok (l ++ [name])
      | none => .error .notFound

/-! ### Reading and writing -/

/-- The bytes of a file; a device has none to give. -/
def read (d : Disk) (p : String) : Except Fault ByteArray := do
  let l ← d.locate p
  match d.find? l with
  | some (.file content) | some (.limited _ content) => .ok content
  | some .null | some .full => .ok .empty
  | some .directory => .error .isDirectory
  | some (.refused fault) => .error fault
  | none => .error .notFound

/-- The text of a file. -/
def readText (d : Disk) (p : String) : Except Fault String := do
  Fault.decodeText (← d.read p)

/-- The location at which a path allows a file to be created. -/
def target (d : Disk) (p : String) : Except Fault Location :=
  match (Path.names p).getLast? with
  | none => .error (if p = "" then .notFound else .isDirectory)
  | some name => do
    let l ← d.directory p (Path.names p).dropLast
    if isDirectoryStep p name then .error .isDirectory else .ok (l ++ [name])

/-- Opens a file for writing: a new one is made, an old one emptied. The result is
its location. -/
def create (d : Disk) (p : String) : Except Fault (Disk × Location) := do
  let l ← d.target p
  match d.find? l with
  | some .directory => .error .isDirectory
  | some (.refused fault) => .error fault
  | some .null | some .full => .ok (d, l)
  | some (.limited room _) => .ok (d.put l (.limited room .empty), l)
  | some (.file _) | none => .ok (d.put l (.file .empty), l)

/-- Writes all bytes to an open file or device. If there is no room for all of them,
those for which there is room have been written. -/
def write (d : Disk) (l : Location) (bytes : ByteArray) : Except Fault Unit × Disk :=
  match d.find? l with
  | some (.file _) => (.ok (), d.put l (.file bytes))
  | some (.limited room _) =>
    if bytes.size ≤ room then (.ok (), d.put l (.limited room bytes))
    else (.error .noSpace, d.put l (.limited room (bytes.extract 0 room)))
  | some .null => (.ok (), d)
  | some .full => (if bytes.isEmpty then .ok () else .error .noSpace, d)
  | some .directory => (.error .isDirectory, d)
  | some (.refused fault) => (.error fault, d)
  | none => (.error .notFound, d)

/-! ### Setting up and comparing -/

/-- The locations to which the steps of a path lead, one after the other. -/
def passed (l : Location) : List String → List Location
  | [] => []
  | name :: rest => l.step name :: passed (l.step name) rest

/-- A disk with an empty working directory and the two devices. -/
def fresh (working : Location) : Disk :=
  ⟨(passed [] working).map (·, .directory) ++
    [(["dev"], .directory), (["dev", "null"], .null), (["dev", "full"], .full)], working⟩

/-- Puts a file below the working directory, with the directories above it. -/
def addFile (d : Disk) (p : String) (content : ByteArray) : Disk :=
  let above := passed d.working (Path.names p).dropLast
  let d' := above.foldl (fun d l => d.put l .directory) d
  d'.put ((Path.names p).foldl Location.step d.working) (.file content)

/-- The files below the working directory that another disk lacks or holds with
different content, by name. -/
def changes (d before : Disk) : List (String × ByteArray) :=
  let files := d.entries.filterMap fun (l, e) =>
    match e.content?, before.content? l with
    | some c, some old => if c.data = old.data then none else name? l c
    | some c, none => name? l c
    | none, _ => none
  files.mergeSort fun a b => a.1 ≤ b.1
where
  /-- A file with its path from the working directory, if it is below it. -/
  name? (l : Location) (c : ByteArray) : Option (String × ByteArray) :=
    if d.working <+: l then some ("/".intercalate (l.drop d.working.length), c) else none

end Disk

end Chip8
