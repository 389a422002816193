import StyleBundle.Span

/-!
# Diagnostics

What a failure tells its reader: a message, the code it is filed under, advice, and labels that
point into the text at fault.
-/

namespace StyleBundle

structure Label where
  span : Span
  text : String
  deriving DecidableEq, Repr

structure Diagnostic where
  message : String
  code : String
  help : Option String := none
  labels : List Label := []
  deriving DecidableEq, Repr

def Diagnostic.render (d : Diagnostic) : String :=
  d.code ++ ": " ++ d.message ++ (d.help.map ("\n  help: " ++ ·)).getD ""

end StyleBundle
