/-!
# File paths

Paths of a file system whose separator is `/`, as text. They are not normalised: joining keeps `.`
and `..` as they are written. A path's parent is found by its components, so runs of separators, a
separator at the end and inner `.` components do not count.
-/

namespace StyleBundle.FilePath

def isAbsolute (path : String) : Bool :=
  path.toList.head? = some '/'

/-- Puts `part` below `base`. An absolute `part` stands for itself. -/
def join (base part : String) : String :=
  if isAbsolute part then
    part
  else if base.toList.getLast?.all (· = '/') then
    base ++ part
  else
    base ++ "/" ++ part

/-- The text between the separators of a path. -/
def parts (path : String) : List String :=
  (path.toList.splitOnP (· = '/')).map String.ofList

/-- Whether a part is no component of its own. -/
def isIdle (part : String) : Bool :=
  part = "" || part = "."

/-- The parts of a relative path up to the last one that is a component, last part first. A `.` is
a component where it comes first. -/
def dropIdle : List String → List String
  | [] => []
  | [part] => if part = "" then [] else [part]
  | part :: rest => if isIdle part then dropIdle rest else part :: rest

/-- The text of parts given last part first. -/
def ofParts (reversed : List String) : String :=
  "/".intercalate reversed.reverse

/-- The path without its last component; none for a path without components. -/
def parent? (path : String) : Option String :=
  let reversed := (parts path).reverse
  if isAbsolute path then
    match reversed.dropLast.dropWhile isIdle with
    | [] => none
    | _ :: rest => some ("/" ++ ofParts (rest.dropWhile isIdle))
  else
    match dropIdle reversed with
    | [] => none
    | _ :: rest => some (ofParts (dropIdle rest))

/-- The path and what is left of it as one component after the other goes. -/
def ancestors (path : String) : List String :=
  go (parts path).length path
where
  go : Nat → String → List String
    | 0, path => [path]
    | n + 1, path =>
      match parent? path with
      | none => [path]
      | some above => path :: go n above

end StyleBundle.FilePath
