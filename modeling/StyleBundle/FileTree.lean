import StyleBundle.Table
import StyleBundle.FilePath
import StyleBundle.Fetch

/-!
# File trees

Directories and files as a value. A location is the names that lead to it from the top. Paths are
followed part by part: each part but the last must lead to a directory that is there, and `..` leads
to the directory above.
-/

namespace StyleBundle

local instance bytesDecidableEq : DecidableEq ByteArray := ByteArray.instDecidableEq

inductive FileNode where
  | directory
  | file (content : ByteArray)
  /-- A file that cannot be read. -/
  | sealed (reason : String)
  deriving DecidableEq

/-- Why a path cannot be used as it was meant to be. -/
inductive FileFault where
  | absent
  | notDirectory
  | isDirectory
  | notText
  | refused (reason : String)
  deriving DecidableEq, Repr

def FileFault.toReadError : FileFault → ReadError
  | absent => .absent
  | notDirectory => .other "Not a directory (os error 20)"
  | isDirectory => .other "Is a directory (os error 21)"
  | notText => .other "stream did not contain valid UTF-8"
  | refused reason => .other reason

abbrev Location := List String

def Location.path (l : Location) : String :=
  "/" ++ "/".intercalate l

structure FileTree where
  nodes : Table Location FileNode := ∅
  /-- Where relative paths start. -/
  current : Location := []

namespace FileTree

/-- What is at a location. The top is a directory. -/
def node? (t : FileTree) (l : Location) : Option FileNode :=
  if l.isEmpty then some .directory else t.nodes.find? l

def setNode (t : FileTree) (l : Location) (n : FileNode) : FileTree :=
  { t with nodes := t.nodes.insert l n }

/-! ## Following paths -/

def start (t : FileTree) (path : String) : Location :=
  if FilePath.isAbsolute path then [] else t.current

/-- Where a part of a path leads from a directory. -/
def step (l : Location) (part : String) : Location :=
  if FilePath.isIdle part then l
  else if part = ".." then l.dropLast
  else l ++ [part]

/-- Where parts of a path lead from a location. The last part may lead to where nothing is. -/
def follow (t : FileTree) : Location → List String → Except FileFault Location
  | l, [] => .ok l
  | l, part :: parts =>
    match t.node? l with
    | none => .error .absent
    | some .directory => follow t (step l part) parts
    | some _ => .error .notDirectory

def locate (t : FileTree) (path : String) : Except FileFault Location :=
  if path = "" then .error .absent else t.follow (t.start path) (FilePath.parts path)

def find? (t : FileTree) (path : String) : Option FileNode :=
  match t.locate path with
  | .ok l => t.node? l
  | .error _ => none

def isFile (t : FileTree) (path : String) : Bool :=
  match t.find? path with
  | some (.file _) | some (.sealed _) => true
  | _ => false

def isDirectory (t : FileTree) (path : String) : Bool :=
  match t.find? path with
  | some .directory => true
  | _ => false

/-! ## Reading and writing -/

def readAt (t : FileTree) (l : Location) : Except FileFault String :=
  match t.node? l with
  | none => .error .absent
  | some .directory => .error .isDirectory
  | some (.file content) =>
    match String.fromUTF8? content with
    | some text => .ok text
    | none => .error .notText
  | some (.sealed reason) => .error (.refused reason)

def read (t : FileTree) (path : String) : Except FileFault String := do
  t.readAt (← t.locate path)

/-- Writes a text to a file, a new one if there is none. -/
def write (t : FileTree) (path text : String) : Except FileFault FileTree := do
  let l ← t.locate path
  match t.node? l with
  | some .directory => .error .isDirectory
  | _ => .ok (t.setNode l (.file text.toUTF8))

/-- Makes the directories on the way from a location along parts of a path, up to the first that
cannot be made. Those made before it stay. -/
def makeDirectories (t : FileTree) : Location → List String → Except FileFault Unit × FileTree
  | _, [] => (.ok (), t)
  | l, part :: parts =>
    match t.node? (step l part) with
    | none => makeDirectories (t.setNode (step l part) .directory) (step l part) parts
    | some .directory => makeDirectories t (step l part) parts
    | some _ => (.error .notDirectory, t)

def createDirectory (t : FileTree) (path : String) : Except FileFault FileTree :=
  let (made, t) := t.makeDirectories (t.start path) (FilePath.parts path)
  made.map fun () => t

/-! ## Whole trees -/

def texts (t : FileTree) : List (Location × String) :=
  t.nodes.keys.filterMap fun l => (t.readAt l).toOption.map (l, ·)

/-- What is in a tree and not, or not so, in the tree that it was made from, in order of making. -/
def changes (t origin : FileTree) : List (Location × FileNode) :=
  t.nodes.entries.filter fun (l, n) => origin.nodes.find? l ≠ some n

/-- The locations that are looked at when a path is followed. -/
def trail (t : FileTree) (path : String) : List Location :=
  (FilePath.parts path).scanl step (t.start path)

end FileTree

end StyleBundle
