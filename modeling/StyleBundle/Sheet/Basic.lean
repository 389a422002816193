import StyleBundle.Span

/-!
# The rule tree

A stylesheet is a list of top-level rules and the text after the last one. Each node keeps the text
around its tokens as it was written, so a tree that nobody has touched prints back byte for byte.
Import and export rules are told apart while the tree is built; every other rule is plain.
-/

namespace StyleBundle

structure Header where
  /-- Blanks, comments and stray semicolons in front. -/
  before : String
  /-- The selector or the at-keyword with its parameters. -/
  prelude : String
  /-- The text between the prelude and the brace or semicolon that ends it. -/
  between : String
  deriving DecidableEq, Repr

structure Declaration where
  before : String
  property : String
  /-- The text from the end of the property to the start of the value, colon included. -/
  between : String
  value : String
  /-- The text after the value up to its semicolon, or nothing when a brace ends the declaration. -/
  after : String
  span : Span
  deriving DecidableEq, Repr

mutual

inductive BodyItem where
  | declaration (declaration : Declaration)
  | rule (rule : PlainRule)

/-- A rule that is no directive. -/
inductive PlainRule where
  /-- An at-rule without a block, such as `@charset "utf-8";`. -/
  | statement (header : Header) (span : Span)
  /-- A rule with a block; `after` is the text between its last item and the closing brace. -/
  | block (header : Header) (items : List BodyItem) (after : String) (span : Span)

end

deriving instance Repr for BodyItem, PlainRule

/-- A name and a value in the block of a directive. -/
structure Binding where
  name : String
  value : String
  span : Span := .none
  deriving DecidableEq, Repr

/-- A rule `:import("source") { local: exported; }`. -/
structure ImportRule where
  before : String := ""
  /-- The path of the module, without its quotes. -/
  source : String
  /-- The local names, each with the exported name it stands for. -/
  bindings : List Binding
  /-- The rule as it was written, if it was. -/
  raw : Option String := none
  span : Span := .none
  deriving DecidableEq, Repr

/-- A rule `:export { name: value; }`. -/
structure ExportRule where
  before : String := ""
  bindings : List Binding
  /-- The rule as it was written, if it was. -/
  raw : Option String := none
  span : Span := .none
  deriving DecidableEq, Repr

inductive Rule where
  | plain (rule : PlainRule)
  | imports (rule : ImportRule)
  | exports (rule : ExportRule)
  deriving Repr

structure Stylesheet where
  rules : List Rule := []
  /-- The text after the last rule. -/
  trailing : String := ""
  deriving Repr

/-! ## Plain rules -/

namespace PlainRule

def header : PlainRule → Header
  | statement h _ | block h _ _ _ => h

def span : PlainRule → Span
  | statement _ s | block _ _ _ s => s

def prelude (r : PlainRule) : String :=
  r.header.prelude

def mapHeader (f : Header → Header) : PlainRule → PlainRule
  | statement h s => .statement (f h) s
  | block h items after s => .block (f h) items after s

def setBefore (before : String) (r : PlainRule) : PlainRule :=
  r.mapHeader ({ · with before })

/-- The items of the block, none when there is no block. -/
def items : PlainRule → List BodyItem
  | statement .. => []
  | block _ items _ _ => items

/-- The declarations that stand directly in the block, in order. -/
def declarations (r : PlainRule) : List Declaration :=
  r.items.filterMap fun
    | .declaration d => some d
    | .rule _ => none

end PlainRule

/-! ## Top-level rules -/

namespace Rule

def before : Rule → String
  | plain r => r.header.before
  | imports r => r.before
  | exports r => r.before

def setBefore (before : String) : Rule → Rule
  | plain r => .plain (r.setBefore before)
  | imports r => .imports { r with before }
  | exports r => .exports { r with before }

def span : Rule → Span
  | plain r => r.span
  | imports r => r.span
  | exports r => r.span

def asImport? : Rule → Option ImportRule
  | imports r => some r
  | _ => none

def asExport? : Rule → Option ExportRule
  | exports r => some r
  | _ => none

def isPlain : Rule → Bool
  | plain _ => true
  | _ => false

def isImport (r : Rule) : Bool :=
  r.asImport?.isSome

def isExport (r : Rule) : Bool :=
  r.asExport?.isSome

end Rule

/-! ## Stylesheets -/

namespace Stylesheet

def isEmpty (s : Stylesheet) : Bool :=
  s.rules.isEmpty

def imports (s : Stylesheet) : List ImportRule :=
  s.rules.filterMap Rule.asImport?

def exports (s : Stylesheet) : List ExportRule :=
  s.rules.filterMap Rule.asExport?

end Stylesheet

end StyleBundle
