import StyleBundle.Config
import StyleBundle.Resolution.Error

/-!
# Failures of a command
-/

namespace StyleBundle

inductive FileOperation where
  | creating
  | writing
  deriving DecidableEq, Repr

def FileOperation.text : FileOperation → String
  | creating => "creating"
  | writing => "writing"

inductive CommandError where
  | config (cause : ConfigError)
  | resolve (cause : ResolveError)
  /-- No entry is given, neither with the command nor in the configuration. -/
  | missingEntry
  | file (operation : FileOperation) (path : String)
  deriving DecidableEq, Repr

def CommandError.diagnostic : CommandError → Diagnostic
  | config cause => cause.diagnostic
  | resolve cause => cause.diagnostic
  | missingEntry => {
      message := "No entry stylesheet given"
      code := "lattice::cli::missing_entry"
      help := some "Pass an entry path, or set `entry` under [resolve] in lattice.toml" }
  | file operation path => {
      message := "I/O error while " ++ operation.text ++ " `" ++ path ++ "`"
      code := "lattice::cli::io_error" }

end StyleBundle
