import StyleBundle.Sheet.Basic

/-!
# Printing

Nodes print the text that they keep. A directive that was built and not written prints in one form:
its head with an opening brace, one indented binding a line, and the closing brace on a line of its
own.
-/

namespace StyleBundle

def Header.print (h : Header) : String :=
  h.before ++ h.prelude ++ h.between

def Declaration.print (d : Declaration) : String :=
  d.before ++ d.property ++ d.between ++ d.value ++ d.after

mutual

def BodyItem.print : BodyItem → String
  | .declaration d => d.print
  | .rule r => r.print

def PlainRule.print : PlainRule → String
  | .statement h _ => h.print ++ ";"
  | .block h items after _ => h.print ++ "\x7b" ++ printItems items ++ after ++ "\x7d"

def printItems : List BodyItem → String
  | [] => ""
  | i :: is => i.print ++ printItems is

end

namespace Binding

/-- The line of a binding in a directive that was not written. -/
def print (b : Binding) : String :=
  "  " ++ b.name ++ ": " ++ b.value ++ ";\n"

/-- A directive that was not written. -/
def printBlock (prelude : String) (bs : List Binding) : String :=
  prelude ++ " \x7b\n" ++ String.join (bs.map print) ++ "\x7d\n"

end Binding

/-- The head of an import of `source` that was not written. -/
def ImportRule.prelude (source : String) : String :=
  ":import(\"" ++ source ++ "\")"

def ImportRule.print (r : ImportRule) : String :=
  r.before ++ r.raw.getD (Binding.printBlock (ImportRule.prelude r.source) r.bindings)

/-- The head of an export. -/
def ExportRule.prelude : String :=
  ":export"

def ExportRule.print (r : ExportRule) : String :=
  r.before ++ r.raw.getD (Binding.printBlock ExportRule.prelude r.bindings)

def Rule.print : Rule → String
  | .plain r => r.print
  | .imports r => r.print
  | .exports r => r.print

def Stylesheet.print (s : Stylesheet) : String :=
  String.join (s.rules.map Rule.print) ++ s.trailing

theorem printItems_append (is js : List BodyItem) :
    printItems (is ++ js) = printItems is ++ printItems js := by
  induction is with
  | nil => simp [printItems]
  | cons i is ih => simp [printItems, ih, String.append_assoc]

end StyleBundle
