import StyleBundle.Text.Blank
import StyleBundle.Sheet.Printer

/-!
# Directives

A rule with a block is a directive when its prelude, trimmed of white space, is `:export`, or is
`:import(`, a path that is not empty, and `)`. The path is trimmed and loses one quote character
at its front and one at its end, each if there is one. The declarations that stand directly in the
block are the bindings; nested rules in it bind nothing.
-/

namespace StyleBundle

open Text

/-- What a prelude directs. -/
inductive Directive where
  | imports (source : String)
  | exports
  deriving DecidableEq, Repr

namespace Directive

def isQuote (c : Char) : Bool :=
  c = '"' || c = '\''

/-- The characters without one quote character in front, if there is one. -/
def stripQuote : List Char → List Char
  | [] => []
  | c :: cs => if isQuote c then cs else c :: cs

/-- The characters without one quote character at each end where there is one. -/
def stripQuotes (cs : List Char) : List Char :=
  (stripQuote (stripQuote cs).reverse).reverse

/-- What stands between `:import(` and the final `)`. -/
def importArgument? (prelude : List Char) : Option (List Char) := do
  let cs ← List.isPrefixOf? ":import(".toList prelude
  List.isSuffixOf? [')'] cs

def ofPrelude? (prelude : String) : Option Directive :=
  let cs := trim prelude.toList
  if cs = ":export".toList then
    some .exports
  else
    match importArgument? cs with
    | none => none
    | some argument =>
      match stripQuotes (trim argument) with
      | [] => none
      | c :: cs => some (.imports (String.ofList (c :: cs)))

end Directive

def Declaration.toBinding (d : Declaration) : Binding :=
  ⟨d.property, d.value, d.span⟩

/-- The top-level rule that a rule is. A directive keeps the text it was written with. -/
def PlainRule.classify (r : PlainRule) : Rule :=
  match r with
  | .statement .. => .plain r
  | .block h _ _ span =>
    let bindings := r.declarations.map Declaration.toBinding
    let raw := some (r.setBefore "").print
    match Directive.ofPrelude? h.prelude with
    | none => .plain r
    | some (.imports source) => .imports ⟨h.before, source, bindings, raw, span⟩
    | some .exports => .exports ⟨h.before, bindings, raw, span⟩

end StyleBundle
