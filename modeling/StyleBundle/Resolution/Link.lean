import StyleBundle.Sheet.Edit
import StyleBundle.Sheet.Symbols
import StyleBundle.Sheet.Printer
import StyleBundle.Resolution.Context

/-!
# Linking a document

What becomes of a document once all its imports have ended. The bindings of the imports that
succeeded make one table of replacements, in the order of the imports and of their bindings, where a
later binding of a name wins. The rules of those imports go, symbols are replaced, and the export
rules are taken out and make the document's own export table.
-/

namespace StyleBundle

/-- An import rule with the exports of its module. -/
abbrev Resolved := ImportRule × ExportTable

namespace Resolved

/-- The local names that the import binds, with their values. -/
def replacements (r : Resolved) : List (String × String) :=
  r.1.bindings.filterMap fun b => (r.2.find? b.value).map (b.name, ·)

/-- The names that the import asks for in vain. -/
def missing (r : Resolved) : List String :=
  (r.1.bindings.filter fun b => !r.2.contains b.value).map Binding.value

end Resolved

/-- What becomes of a document. -/
structure Linked where
  /-- The resolved text. -/
  source : String
  exports : ExportTable
  /-- The bindings that ask for names in vain. -/
  errors : List ImportError
  deriving DecidableEq, Repr

namespace Stylesheet

def placedImports (s : Stylesheet) : List (ImportRule × Nat) :=
  s.rules.zipIdx.filterMap fun (r, i) => r.asImport?.map (·, i)

/-- The table of the exports that remain in a sheet. -/
def exportTable (t : Replacements) (rules : List ExportRule) : ExportTable :=
  .ofList ((rules.flatMap ExportRule.bindings).map fun b => (b.name, substitute t b.value))

/-- Links the sheet of the module `file`, where `loaded` holds the exports of the imported modules,
none for one that failed. -/
def link (file : ModulePath) (s : Stylesheet) (loaded : List (Option ExportTable)) : Linked :=
  let ended := s.placedImports.zip loaded
  let resolved : List Resolved := ended.filterMap fun (r, e) => e.map (r.1, ·)
  let places := ended.filterMap fun (r, e) => e.map fun _ => r.2
  let t : Replacements := .ofList (resolved.flatMap Resolved.replacements)
  let s := (s.removeRules fun i _ => places.contains i).2.replaceSymbols t
  let (taken, s) := s.takeExports
  { source := s.print
    exports := exportTable t taken
    errors := resolved.flatMap fun r =>
      r.missing.map fun name => .missingExport name (file.resolve r.1.source) file }

end Stylesheet

end StyleBundle
