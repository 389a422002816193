import StyleBundle.FileTree
import StyleBundle.Command.Error

/-!
# Settings of a build

What is given with the command wins over the configuration; a flag can only raise what the
configuration leaves down. The configuration is that of a named file, or of the nearest
`lattice.toml` at or above a place, or the default.
-/

namespace StyleBundle

structure Overrides where
  entry : Option String := none
  root : Option String := none
  output : Option String := none
  strict : Bool := false
  exports : Bool := false
  deriving DecidableEq, Repr

structure Settings where
  entry : String
  root : String
  output : Option String
  strict : Bool
  exports : Bool
  deriving DecidableEq, Repr

def Settings.merge (c : Config) (o : Overrides) : Except CommandError Settings :=
  match o.entry.or c.entry with
  | none => .error .missingEntry
  | some entry => .ok {
      entry
      root := o.root.getD c.root
      output := o.output.or c.output
      strict := o.strict || c.strict
      exports := o.exports || c.exports }

namespace Config

def load (t : FileTree) (path : String) : Except ConfigError Config :=
  if t.isFile path then
    match t.read path with
    | .error fault =>
      match fault.toReadError with
      | .absent => .error (.notFound path)
      | .other reason => .error (.unreadable reason)
    | .ok text => (ofToml text).map (rebase ((FilePath.parent? path).getD "."))
  else
    .error (.notFound path)

/-- The places at which a configuration file is looked for, from `start` upwards. -/
def candidates (t : FileTree) (start : String) : List String :=
  let first := if t.isDirectory start then start else (FilePath.parent? start).getD start
  (FilePath.ancestors first).map (FilePath.join · fileName)

/-- The nearest configuration file at or above `start`. -/
def find? (t : FileTree) (start : String) : Option String :=
  (candidates t start).find? t.isFile

/-- The configuration of a named file, or of the nearest one at or above `start`, or the default. -/
def discover (t : FileTree) (named : Option String) (start : String) :
    Except CommandError Config :=
  match named.or (find? t start) with
  | none => .ok {}
  | some path => (load t path).mapError .config

end Config

end StyleBundle
