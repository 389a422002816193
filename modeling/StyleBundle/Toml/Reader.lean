/-!
# Readers

A reader takes what it reads from the front of a text, or fails and takes nothing.
-/

namespace StyleBundle.Toml

abbrev Reader := StateT (List Char) Option

namespace Reader

/-- The next character, without taking it. -/
def peek : Reader (Option Char) :=
  fun cs => some (cs.head?, cs)

def takeWhile (p : Char → Bool) : Reader (List Char) :=
  fun cs => some (cs.takeWhile p, cs.dropWhile p)

def char (p : Char → Bool) : Reader Char
  | [] => none
  | c :: cs => if p c then some (c, cs) else none

def exactly (s : String) : Reader Unit :=
  fun cs => (List.isPrefixOf? s.toList cs).map ((), ·)

/-- Takes the given text, if it comes next; whether it did. -/
def accept (s : String) : Reader Bool :=
  fun cs =>
    match List.isPrefixOf? s.toList cs with
    | some rest => some (true, rest)
    | none => some (false, cs)

/-- What is read, provided that it has a property. -/
def check {α : Type} (p : α → Bool) (r : Reader α) : Reader α := do
  let a ← r
  if p a then pure a else failure

end Reader

end StyleBundle.Toml
