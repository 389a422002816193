/-!
# TOML documents

A document is a table of items. Numbers and dates are told apart from the rest and otherwise not
looked into. A table remembers how it came to be, which decides what may still be added to it: one
under a header of its own is closed to dotted keys, one that only leads to another header may get a
header of its own later, and one that dotted keys made may get more of them.
-/

namespace StyleBundle.Toml

inductive Origin where
  /-- It has a header of its own. -/
  | header
  /-- It stands on the way to a header. -/
  | implicit
  /-- It stands on the way to a dotted key. -/
  | dotted
  deriving DecidableEq, Repr

inductive Item where
  | string (text : String)
  | boolean (value : Bool)
  | number
  | date
  | array (items : List Item)
  /-- A table in braces, to which nothing is added later. -/
  | inline (entries : List (String × Item))
  | table (origin : Origin) (entries : List (String × Item))
  /-- The tables under one header in double brackets. -/
  | tables (elements : List (List (String × Item)))
  deriving Repr

abbrev Entries := List (String × Item)

namespace Entries

def find? (es : Entries) (key : String) : Option Item :=
  (List.find? (fun e => e.1 = key) es).map Prod.snd

/-- Gives a key that is there another item. -/
def replace (es : Entries) (key : String) (item : Item) : Entries :=
  List.map (fun e => if e.1 = key then (key, item) else e) es

/-- Changes the table that a path leads to. Tables on the way that are not there are made; they are
`dotted` or only lead to a header. The change is told how the table came to be. -/
def modifyAt (dotted : Bool) (change : Origin → Entries → Option Entries) (origin : Origin) :
    List String → Entries → Option Entries
  | [], es => change origin es
  | key :: path, es =>
    match es.find? key with
    | none => do
      let made : Origin := if dotted then .dotted else .implicit
      let inner ← modifyAt dotted change made path []
      some (es ++ [(key, .table made inner)])
    | some (.table origin inner) =>
      if dotted && origin = .header then
        none
      else do
        let inner ← modifyAt dotted change origin path inner
        some (es.replace key (.table origin inner))
    | some (.tables elements) => do
      let last ← modifyAt dotted change .header path (elements.getLast?.getD [])
      some (es.replace key (.tables (elements.dropLast ++ [last])))
    | some _ => none

/-- Adds a key and its item below a path of dotted keys. -/
def addKey (es : Entries) (path : List String) (key : String) (item : Item) : Option Entries :=
  let add (origin : Origin) (inner : Entries) : Option Entries :=
    if (origin == .dotted) == path.isEmpty || (inner.find? key).isSome then
      none
    else
      some (inner ++ [(key, item)])
  modifyAt true add .header path es

/-- Opens the table under a header. -/
def openTable (es : Entries) (path : List String) (key : String) : Option Entries :=
  let opened (_ : Origin) (inner : Entries) : Option Entries :=
    match inner.find? key with
    | none => some (inner ++ [(key, .table .header [])])
    | some (.table .implicit entries) => some (inner.replace key (.table .header entries))
    | some _ => none
  modifyAt false opened .header path es

/-- Opens one more table under a header in double brackets. -/
def openElement (es : Entries) (path : List String) (key : String) : Option Entries :=
  let opened (_ : Origin) (inner : Entries) : Option Entries :=
    match inner.find? key with
    | none => some (inner ++ [(key, .tables [[]])])
    | some (.tables elements) => some (inner.replace key (.tables (elements ++ [[]])))
    | some _ => none
  modifyAt false opened .header path es

end Entries

end StyleBundle.Toml
