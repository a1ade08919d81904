/-
Names of files.

* `Path.names`: the steps of a path, with repeated slashes counted once.
* `Path.withExtension`: the path of a neighbouring file that differs in its
  extension only.
-/

namespace Chip8

namespace Path

/-- The steps of a path. -/
def names (p : String) : List String :=
  (p.splitOn "/").filter (· ≠ "")

/-- A path, read from its end, without the slashes and steps to the same directory
that stand after the last name. -/
def trimmed : List Char → List Char
  | '/' :: r => trimmed r
  | '.' :: '/' :: r => trimmed ('/' :: r)
  | r => r

/-- The name of a file, read from its end, from its last dot on. A dot in front
starts no extension. -/
def withoutExtension (name : List Char) : List Char :=
  match name.dropWhile (· != '.') with
  | [] => name
  | [_] => name
  | r => r

/-- The name of a file, read from its end, less the dot that `withoutExtension` has
left. -/
def stem (name : List Char) : List Char :=
  match name with
  | '.' :: c :: r => c :: r
  | r => r

/-- A step, read from its end, that names no file. -/
def namesNoFile (name : List Char) : Bool :=
  name == [] || name == ['.'] || name == ['.', '.']

/-- The path with another extension, or with one if it has none. A path whose last
step names no file stays as it is; one that ends with a step that names none once the
extension is off, as `..z` does, gets no new one. -/
def withExtension (p : String) (extension : String) : String :=
  let r := trimmed p.toList.reverse
  let name := r.takeWhile (· != '/')
  let above := r.dropWhile (· != '/')
  let kept := withoutExtension name
  if namesNoFile name then p
  else if namesNoFile kept && r == p.toList.reverse then String.ofList (kept ++ above).reverse
  else String.ofList (stem kept ++ above).reverse ++ "." ++ extension

end Path

end Chip8
