import StyleBundle.Sheet.Error
import StyleBundle.Fetch

/-!
# Failures of a resolution

A failed import does not end a resolution: its failure is collected, and the import stays as it was
written. Only an entry that cannot be had ends it, or collected failures where all imports are
required to succeed.
-/

namespace StyleBundle

inductive ImportError where
  | fetchFailed (path importer : ModulePath) (cause : FetchError)
  /-- The text of the module is no stylesheet. -/
  | parseFailed (path : ModulePath) (text : String) (cause : SyntaxError)
  /-- A binding asks for a name that the module does not export. -/
  | missingExport (name : String) (path importer : ModulePath)
  deriving DecidableEq, Repr

inductive ResolveError where
  | entryFetchFailed (path : ModulePath) (cause : FetchError)
  | entryParseFailed (path : ModulePath) (text : String) (cause : SyntaxError)
  /-- Some imports failed although all were required. -/
  | unresolved (errors : List ImportError)
  deriving DecidableEq, Repr

namespace ImportError

def path : ImportError → ModulePath
  | fetchFailed p .. | parseFailed p .. | missingExport _ p _ => p

def diagnostic : ImportError → Diagnostic
  | fetchFailed p importer _ => {
      message := "Failed to fetch `" ++ p.text ++ "` imported from `" ++ importer.text ++ "`"
      code := "lattice_resolve::import_fetch_failed"
      help := some "The import is left unresolved; its local names stay as written" }
  | parseFailed p _ cause => {
      message := "Failed to parse `" ++ p.text ++ "`: " ++ cause.message
      code := "lattice_resolve::import_parse_failed"
      labels := [⟨cause.span, cause.message⟩] }
  | missingExport name p importer => {
      message :=
        "`" ++ p.text ++ "` has no export named `" ++ name ++ "` (imported by `" ++ importer.text
          ++ "`)"
      code := "lattice_resolve::missing_export"
      help := some ("Add `" ++ name ++ "` to the `:export` block of `" ++ p.text ++ "`") }

end ImportError

namespace ResolveError

def path? : ResolveError → Option ModulePath
  | entryFetchFailed p _ | entryParseFailed p .. => some p
  | unresolved _ => none

/-- Whether the entry itself could not be had. -/
def isEntryFailure : ResolveError → Bool
  | entryFetchFailed .. | entryParseFailed .. => true
  | unresolved _ => false

def diagnostic : ResolveError → Diagnostic
  | entryFetchFailed p _ => {
      message := "Failed to fetch entry `" ++ p.text ++ "`"
      code := "lattice_resolve::entry_fetch_failed" }
  | entryParseFailed p _ cause => {
      message := "Failed to parse entry `" ++ p.text ++ "`: " ++ cause.message
      code := "lattice_resolve::entry_parse_failed"
      labels := [⟨cause.span, cause.message⟩] }
  | unresolved errors => {
      message := Nat.repr errors.length ++ " import failure(s) during resolution"
      code := "lattice_resolve::unresolved"
      help := some "Run without strict mode to accept the partially resolved output" }

end ResolveError

end StyleBundle
