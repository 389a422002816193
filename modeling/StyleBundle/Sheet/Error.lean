import StyleBundle.Diagnostic

/-!
# Why a text is no stylesheet

The causes for which reading a stylesheet fails, each with the stretch of text at fault, and their
wording.
-/

namespace StyleBundle

/-- What was opened and never closed, so that no token can be cut. -/
inductive LexicalFault where
  | unterminatedComment
  | unterminatedString
  deriving DecidableEq, Repr

inductive Expected where
  | rule
  | selector
  | openBrace
  | propertyName
  deriving DecidableEq, Repr

inductive SyntaxError where
  | invalidToken (fault : LexicalFault) (span : Span)
  | unexpectedToken (found : String) (expected : Expected) (span : Span)
  | unexpectedEnd (expected : Expected) (span : Span)
  /-- The span is that of the brace that is never closed. -/
  | unclosedBlock (span : Span)
  /-- A declaration without the colon between its name and its value. -/
  | missingColon (text : String) (span : Span)
  deriving DecidableEq, Repr

def LexicalFault.message : LexicalFault → String
  | unterminatedComment => "unterminated comment"
  | unterminatedString => "unterminated string"

def Expected.describe : Expected → String
  | rule => "a rule"
  | selector => "a selector"
  | openBrace => "`\x7b`"
  | propertyName => "a property name"

namespace SyntaxError

def span : SyntaxError → Span
  | invalidToken _ s | unexpectedToken _ _ s | unexpectedEnd _ s | unclosedBlock s
  | missingColon _ s => s

/-- The same failure after `n` bytes were put in front of the text. -/
def shift (n : Nat) : SyntaxError → SyntaxError
  | invalidToken f s => .invalidToken f (s.shift n)
  | unexpectedToken f e s => .unexpectedToken f e (s.shift n)
  | unexpectedEnd e s => .unexpectedEnd e (s.shift n)
  | unclosedBlock s => .unclosedBlock (s.shift n)
  | missingColon t s => .missingColon t (s.shift n)

def message : SyntaxError → String
  | invalidToken f _ => "Invalid token: " ++ f.message
  | unexpectedToken found e _ => "Unexpected `" ++ found ++ "`, expected " ++ e.describe
  | unexpectedEnd e _ => "Unexpected end of input, expected " ++ e.describe
  | unclosedBlock _ => "Unclosed block"
  | missingColon text _ => "Declaration `" ++ text ++ "` is missing a `:`"

def code : SyntaxError → String
  | invalidToken .. => "lattice_syntax::invalid_token"
  | unexpectedToken .. => "lattice_syntax::unexpected_token"
  | unexpectedEnd .. => "lattice_syntax::unexpected_eof"
  | unclosedBlock .. => "lattice_syntax::unclosed_block"
  | missingColon .. => "lattice_syntax::missing_colon"

def help : SyntaxError → Option String
  | unclosedBlock _ => some "Add the missing `\x7d`"
  | _ => none

/-- What is written under the stretch at fault. -/
def remark : SyntaxError → String
  | invalidToken .. => "here"
  | unexpectedToken .. => "unexpected token"
  | unexpectedEnd .. => "input ends here"
  | unclosedBlock .. => "block opened here"
  | missingColon .. => "expected `name: value`"

def diagnostic (e : SyntaxError) : Diagnostic where
  message := e.message
  code := e.code
  help := e.help
  labels := [⟨e.span, e.remark⟩]

end SyntaxError

end StyleBundle
