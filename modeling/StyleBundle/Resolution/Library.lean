import StyleBundle.Sheet.Parser
import StyleBundle.Fetch

/-!
# Libraries

A library answers requests for modules: finitely many with a text, all others with a failure, each
after a delay of its own.
-/

namespace StyleBundle

structure Library where
  texts : Table ModulePath String
  /-- The answer for a module without a text. -/
  failure : ModulePath → FetchError := .notFound
  /-- The time that an answer takes. -/
  delay : ModulePath → Nat := fun _ => 0

namespace Library

def answer (lib : Library) (path : ModulePath) : Except FetchError String :=
  match lib.texts.find? path with
  | some text => .ok text
  | none => .error (lib.failure path)

/-- The import rules in a text, none in one that is no stylesheet. -/
def importRules (text : String) : List ImportRule :=
  match Stylesheet.parse text with
  | .ok sheet => sheet.imports
  | .error _ => []

def totalImports (lib : Library) : Nat :=
  (lib.texts.values.flatMap importRules).length

end Library

end StyleBundle
