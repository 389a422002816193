import StyleBundle.Resolution.Directory
import StyleBundle.Resolution.Resolver
import StyleBundle.Command.Settings

/-!
# Building a bundle

Resolves the entry and writes the bundle to its file, or to standard output when there is none.
Imports that fail are told and do not keep the bundle from being written, unless all imports must
succeed; then nothing is written.
-/

namespace StyleBundle

namespace Resolution

/-- The bundled text, with the exports of the entry behind it if they are asked for. They start on a
line of their own. -/
def bundle (r : Resolution) (exports : Bool) : String :=
  if exports && !r.exports.isEmpty then
    let gap := if r.source.toList.getLast?.all (· = '\n') then "" else "\n"
    r.source ++ gap ++ r.exportsBlock
  else
    r.source

end Resolution

/-! ## Work on files -/

/-- Work that may change the files and may fail. The files are left as they then are also when it
fails. -/
abbrev FileWork := ExceptT CommandError (StateM FileTree)

namespace FileWork

/-- Makes the directory at a path with all directories on the way. -/
def createDirectory (path : String) : FileWork Unit := fun t =>
  let (made, t) := t.makeDirectories (t.start path) (FilePath.parts path)
  (made.mapError fun _ => .file .creating path, t)

def createParent (path : String) : FileWork Unit :=
  let dir := (FilePath.parent? path).getD ""
  if dir = "" then pure () else createDirectory dir

def write (path text : String) : FileWork Unit := fun t =>
  match t.write path text with
  | .ok t => (.ok (), t)
  | .error _ => (.error (.file .writing path), t)

end FileWork

/-! ## Builds -/

structure Built where
  tree : FileTree
  /-- The text on standard output. -/
  stdout : String := ""
  /-- The failures of imports that did not keep the bundle from being written. -/
  warnings : List ImportError := []

inductive BuildOutcome where
  | built (result : Built)
  | failed (error : CommandError)
  /-- The imports wait for each other in a circle, and the build does not end. -/
  | stalled

namespace Settings

/-- Writes a text to the output file with the directories on the way to it, or to standard output:
what stands there afterwards. -/
def deliver (s : Settings) (text : String) : FileWork String :=
  match s.output with
  | none => pure text
  | some path => do
    FileWork.createParent path
    FileWork.write path text
    pure ""

/-- Writes what a resolution comes to, unless all imports must succeed and some failed: the text on
standard output. -/
def publish (s : Settings) (r : Resolution) : FileWork String := do
  let r ← (if s.strict then r.complete.mapError CommandError.resolve else .ok r : Except _ _)
  s.deliver (r.bundle s.exports)

/-- The resolution of the entry, where the answer for each module takes the given time. -/
def resolve (s : Settings) (t : FileTree) (delay : ModulePath → Nat) : Run :=
  Resolver.resolveEntry ⟨{ t.library s.root with delay }, s.root⟩ s.entry

/-- How a build ends, and the files that it leaves. -/
def attempt (s : Settings) (t : FileTree) (delay : ModulePath → Nat) :
    BuildOutcome × FileTree :=
  match (s.resolve t delay).answer with
  | .error e => (.failed (.resolve e), t)
  | .ok .stalled => (.stalled, t)
  | .ok (.finished r) =>
    match s.publish r t with
    | (.ok stdout, tree) => (.built { tree, stdout, warnings := r.errors }, tree)
    | (.error e, tree) => (.failed e, tree)

def build (s : Settings) (t : FileTree) : BuildOutcome :=
  (s.attempt t FileTree.readTime).1

end Settings

end StyleBundle
