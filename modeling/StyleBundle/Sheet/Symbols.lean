import StyleBundle.Table
import StyleBundle.Text.Blank
import StyleBundle.Sheet.Basic

/-!
# Symbols

A symbol is a run, as long as possible, of ASCII letters and digits, `_`, `-` and `.`, together
with a `$` or `#` directly in front of it. Substitution replaces whole symbols and leaves all else
as it is; what it puts in is not read again. In a sheet it reaches the values of declarations and
the parameters of the at-rules `media` and `custom-media`, at any depth, and no directive.
-/

namespace StyleBundle

open Text

/-- The value that stands for each local name. -/
abbrev Replacements := Table String String

inductive Segment where
  | symbol (name : List Char)
  | other (c : Char)
  deriving DecidableEq, Repr

namespace Segment

def isSymbolChar (c : Char) : Bool :=
  c.isAlphanum || c = '_' || c = '-' || c = '.'

/-- Whether a character belongs to the symbol behind it. -/
def isSigil (c : Char) : Bool :=
  c = '$' || c = '#'

def chars : Segment → List Char
  | symbol name => name
  | other c => [c]

/-- The symbols of a value and the characters between them. -/
def ofChars : List Char → List Segment
  | [] => []
  | c :: cs =>
    let run := cs.takeWhile isSymbolChar
    if isSymbolChar c || (isSigil c && !run.isEmpty) then
      .symbol (c :: run) :: ofChars (cs.dropWhile isSymbolChar)
    else
      .other c :: ofChars cs
termination_by cs => cs.length
decreasing_by
  · exact Nat.lt_succ_of_le (List.dropWhile_sublist _).length_le
  · simp

def substitute (t : Replacements) : Segment → List Char
  | symbol name => ((t.find? (String.ofList name)).map String.toList).getD name
  | other c => [c]

theorem flatMap_chars_ofChars (cs : List Char) : (ofChars cs).flatMap chars = cs := by
  fun_induction ofChars cs with
  | case1 => rfl
  | case2 c cs run _ ih =>
    simp only [List.flatMap_cons, chars, ih, List.cons_append]
    rw [List.takeWhile_append_dropWhile]
  | case3 c cs run _ ih => simp [chars, ih]

end Segment

/-- The value with every symbol that has a replacement replaced by it. -/
def substitute (t : Replacements) (value : String) : String :=
  String.ofList ((Segment.ofChars value.toList).flatMap (Segment.substitute t))

/-! ## At-rules -/

/-- A prelude that starts with `@`, cut into its parts. -/
structure AtRule where
  name : String
  /-- The white space between the name and the parameters. -/
  blank : String
  params : String
  deriving DecidableEq, Repr

namespace AtRule

/-- Whether a character ends the name of an at-rule. -/
def endsName (c : Char) : Bool :=
  isWhiteSpace c || c = '('

/-- The parts of a prelude that starts with `@`. -/
def ofPrelude? (prelude : String) : Option AtRule :=
  match prelude.toList with
  | '@' :: cs =>
    let rest := cs.dropWhile fun c => !endsName c
    some {
      name := String.ofList (cs.takeWhile fun c => !endsName c)
      blank := String.ofList (rest.takeWhile isWhiteSpace)
      params := String.ofList (rest.dropWhile isWhiteSpace) }
  | _ => none

def prelude (a : AtRule) : String :=
  "@" ++ a.name ++ a.blank ++ a.params

/-- Whether the parameters may hold symbols. -/
def takesSymbols (a : AtRule) : Bool :=
  a.name = "media" || a.name = "custom-media"

/-- The prelude with the symbols of its parameters replaced, if it is that of an at-rule whose
parameters may hold symbols. -/
def replaceSymbols (t : Replacements) (prelude : String) : String :=
  match ofPrelude? prelude with
  | some a =>
    if a.takesSymbols then
      { a with params := substitute t a.params }.prelude
    else
      prelude
  | none => prelude

end AtRule

/-! ## Trees -/

def Header.replaceSymbols (t : Replacements) (h : Header) : Header :=
  { h with prelude := AtRule.replaceSymbols t h.prelude }

def Declaration.replaceSymbols (t : Replacements) (d : Declaration) : Declaration :=
  { d with value := substitute t d.value }

mutual

def BodyItem.replaceSymbols (t : Replacements) : BodyItem → BodyItem
  | .declaration d => .declaration (d.replaceSymbols t)
  | .rule r => .rule (r.replaceSymbols t)

def PlainRule.replaceSymbols (t : Replacements) : PlainRule → PlainRule
  | .statement h s => .statement (h.replaceSymbols t) s
  | .block h items after s => .block (h.replaceSymbols t) (replaceItems t items) after s

def replaceItems (t : Replacements) : List BodyItem → List BodyItem
  | [] => []
  | i :: is => i.replaceSymbols t :: replaceItems t is

end

def Rule.replaceSymbols (t : Replacements) : Rule → Rule
  | .plain r => .plain (r.replaceSymbols t)
  | r => r

def Stylesheet.replaceSymbols (t : Replacements) (s : Stylesheet) : Stylesheet :=
  { s with rules := s.rules.map (Rule.replaceSymbols t) }

end StyleBundle
