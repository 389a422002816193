import StyleBundle.Diagnostic
import StyleBundle.FilePath
import StyleBundle.Toml.Document

/-!
# Configuration

A configuration is a TOML document with the sections `resolve` and `output`. Every field may be
absent and then has its default; keys that are not known are passed over. A section is a table, or
an array that gives its fields by place; a date counts as a table without known keys. Paths are
relative to the directory that holds the file.
-/

namespace StyleBundle

inductive ConfigError where
  | notFound (path : String)
  | unreadable (reason : String)
  /-- The text is no TOML document, or a field has an item of another kind than its own. -/
  | invalid
  deriving DecidableEq, Repr

def ConfigError.diagnostic : ConfigError → Diagnostic
  | notFound path => {
      message := "Configuration file not found: " ++ path
      code := "CONFIG-001"
      help := some "Pass an existing file with --config, or drop the flag to use defaults" }
  | unreadable reason => {
      message := "Error reading configuration: " ++ reason
      code := "CONFIG-002"
      help := some "Check file permissions and ensure the file is not corrupted" }
  | invalid => {
      message := "Invalid configuration"
      code := "CONFIG-003"
      help := some
        "Check your lattice.toml syntax; the known sections are [resolve] and [output]" }

structure Config where
  /-- The directory that the root of module paths stands for. -/
  root : String := "."
  /-- The specifier of the entry. -/
  entry : Option String := none
  /-- Whether all imports must succeed. -/
  strict : Bool := false
  /-- The file that the bundle is written to, standard output when absent. -/
  output : Option String := none
  /-- Whether the exports of the entry are written behind the bundle. -/
  exports : Bool := false
  deriving DecidableEq, Repr, Inhabited

namespace Config

open Toml

/-! ## Decoding -/

/-- What a section says about its fields: the item of the field with a name and a place. -/
abbrev Fields := String → Nat → Option Item

/-- The fields of a section, none for an item that is no section. -/
def fieldsOf : Item → Option Fields
  | .table _ es | .inline es => some fun name _ => Entries.find? es name
  | .array items => some fun _ place => items[place]?
  | .tables elements => some fun _ place => elements[place]?.map (.table .header)
  | .date => some fun _ _ => none
  | _ => none

def textField (item : Option Item) : Option (Option String) :=
  match item with
  | none => some none
  | some (.string s) => some (some s)
  | some _ => none

/-- The flag of a field; one that is absent is down. -/
def flagField (item : Option Item) : Option Bool :=
  match item with
  | none => some false
  | some (.boolean b) => some b
  | some _ => none

/-- The fields of the section with a name, where an absent section has no fields. -/
def sectionOf (es : Entries) (name : String) : Option Fields :=
  match Entries.find? es name with
  | none => some fun _ _ => none
  | some item => fieldsOf item

def ofEntries (es : Entries) : Option Config := do
  let resolve ← sectionOf es "resolve"
  let root ← textField (resolve "root" 0)
  let entry ← textField (resolve "entry" 1)
  let strict ← flagField (resolve "strict" 2)
  let output ← sectionOf es "output"
  let path ← textField (output "path" 0)
  let exports ← flagField (output "exports" 1)
  some { root := root.getD ".", entry, strict, output := path, exports }

def ofToml (text : String) : Except ConfigError Config :=
  match (read? text).bind ofEntries with
  | some config => .ok config
  | none => .error .invalid

/-! ## Files -/

/-- The name of a configuration file that is found without being named. -/
def fileName : String := "lattice.toml"

/-- The configuration with its paths put below the directory that holds its file. -/
def rebase (dir : String) (c : Config) : Config :=
  { c with root := FilePath.join dir c.root, output := c.output.map (FilePath.join dir) }

end Config

end StyleBundle
