import StyleBundle.Toml.Scalar

/-!
# Reading TOML documents

A document is a sequence of lines: a comment, a header, or a key with its value, each ended by a
line feed or the end of the text. Values nest fewer than eighty deep, and a key has fewer than
eighty parts.
-/

namespace StyleBundle.Toml

open Reader

/-- The depth that values do not reach, and the number of parts that keys do not. -/
def depthLimit : Nat := 80

/-! ## Keys -/

/-- `unquoted-key-char = ALPHA / DIGIT / %x2D / %x5F` -/
def isBareChar (c : Char) : Bool :=
  c.isAlphanum || c = '-' || c = '_'

def simpleKey : Reader String :=
  String.ofList <$> check (· ≠ []) (takeWhile isBareChar) <|> lineString

/-- The parts of a key, of which at most `n` are read. -/
def keyParts : Nat → Reader (List String)
  | 0 => failure
  | n + 1 => do
    spaces
    let part ← simpleKey
    spaces
    if ← accept "." then
      return part :: (← keyParts n)
    else
      return [part]

/-- A key: the parts that lead to it, and the last one. -/
def key : Reader (List String × String) := do
  let parts ← keyParts (depthLimit - 1)
  pure (parts.dropLast, parts.getLast?.getD "")

/-! ## Values -/

def comment : Reader Unit := do
  exactly "#"
  let _ ← takeWhile isPrintable
  pure ()

/-- Takes blanks, line feeds and comments, of which at most `n` pieces are read. -/
def blankLines : Nat → Reader Unit
  | 0 => pure ()
  | n + 1 => do
    spaces
    match ← peek with
    | some '#' => do
      comment
      newline
      blankLines n
    | some '\n' | some '\r' => do
      newline
      blankLines n
    | _ => pure ()

def scalar : Reader Item :=
  fun cs =>
    match cs.head? with
    | some '"' | some '\'' => (Item.string <$> string) cs
    | some 't' => ((fun _ => .boolean true) <$> exactly "true") cs
    | some 'f' => ((fun _ => .boolean false) <$> exactly "false") cs
    | _ => ((fun _ => Item.date) <$> date <|> (fun _ => Item.number) <$> number) cs

mutual

/-- A value in `depth` others, where at most `n` pieces are read. -/
def value (depth : Nat) : Nat → Reader Item
  | 0 => failure
  | n + 1 => do
    match ← peek with
    | some '[' =>
      if depth + 1 < depthLimit then do
        exactly "["
        return .array (← arrayItems (depth + 1) n)
      else
        failure
    | some '\x7b' =>
      if depth + 1 < depthLimit then do
        exactly "\x7b"
        spaces
        if ← accept "\x7d" then
          return .inline []
        else
          return .inline (← inlineEntries (depth + 1) [] n)
      else
        failure
    | _ => scalar

/-- What is left of an array in front of an item or the closing bracket. -/
def arrayItems (depth : Nat) : Nat → Reader (List Item)
  | 0 => failure
  | n + 1 => do
    blankLines (← pieces)
    if ← accept "]" then
      return []
    else do
      let item ← value depth n
      blankLines (← pieces)
      if ← accept "," then
        return item :: (← arrayItems depth n)
      else do
        exactly "]"
        return [item]

/-- What is left of a table in braces in front of a key, the keys so far being `es`. -/
def inlineEntries (depth : Nat) (es : Entries) : Nat → Reader Entries
  | 0 => failure
  | n + 1 => do
    let (path, last) ← key
    exactly "="
    spaces
    let item ← value depth n
    spaces
    match es.addKey path last item with
    | none => failure
    | some es =>
      if ← accept "," then
        inlineEntries depth es n
      else do
        exactly "\x7d"
        return es

end

/-! ## Lines -/

/-- The tables read so far, and the header that keys now belong to. -/
structure Draft where
  entries : Entries := []
  header : List String := []

namespace Draft

/-- Adds a key and its item to the table under the present header. -/
def addKey (d : Draft) (path : List String) (key : String) (item : Item) : Option Draft := do
  let add (_ : Origin) (inner : Entries) := inner.addKey path key item
  let entries ← d.entries.modifyAt false add .header d.header
  some { d with entries }

def openHeader (d : Draft) (path : List String) (key : String) (element : Bool) : Option Draft := do
  let entries ←
    if element then d.entries.openElement path key else d.entries.openTable path key
  some ⟨entries, path ++ [key]⟩

end Draft

/-- Takes the end of a line. -/
def lineEnd : Reader Unit := do
  spaces
  let _ ← optional comment
  match ← peek with
  | none => pure ()
  | some _ => newline

def headerLine (d : Draft) : Reader Draft := do
  exactly "["
  let element ← accept "["
  let (path, last) ← key
  exactly (if element then "]]" else "]")
  lineEnd
  StateT.lift (d.openHeader path last element)

def keyLine (d : Draft) : Reader Draft := do
  let (path, last) ← key
  exactly "="
  spaces
  let n ← pieces
  let item ← value 0 (2 * n)
  lineEnd
  StateT.lift (d.addKey path last item)

/-- The lines of a document, of which at most `n` are read. -/
def lines (d : Draft) : Nat → Reader Draft
  | 0 => failure
  | n + 1 => do
    spaces
    match ← peek with
    | none => pure d
    | some '#' | some '\n' | some '\r' => do
      lineEnd
      lines d n
    | some '[' => do lines (← headerLine d) n
    | some _ => do lines (← keyLine d) n

/-- The entries of a document, none when the text is no document. A byte order mark in front is
passed over. -/
def read? (text : String) : Option Entries :=
  let cs := text.toList
  let cs := if cs.head? = some '\uFEFF' then cs.drop 1 else cs
  (lines {} (cs.length + 1) cs).map fun (d, _) => d.entries

end StyleBundle.Toml
