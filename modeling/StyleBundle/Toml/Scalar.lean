import StyleBundle.Toml.Item
import StyleBundle.Toml.Reader

/-!
# TOML scalars

Strings with their escapes, and the forms of numbers and dates. Integers have 64 bits, floats are
not so large as to be infinite, and dates name days and times that exist.
-/

namespace StyleBundle.Toml

open Reader

/-! ## Characters -/

/-- `wschar = %x20 / %x09` -/
def isSpace (c : Char) : Bool :=
  c = ' ' || c = '\t'

/-- `non-ascii = %x80-D7FF / %xE000-10FFFF` -/
def isNonAscii (c : Char) : Bool :=
  0x80 ≤ c.toNat

/-- `non-eol = %x09 / %x20-7E / non-ascii` -/
def isPrintable (c : Char) : Bool :=
  c = '\t' || (0x20 ≤ c.toNat && c.toNat ≤ 0x7E) || isNonAscii c

/-- `basic-unescaped = wschar / %x21 / %x23-5B / %x5D-7E / non-ascii` -/
def isBasicChar (c : Char) : Bool :=
  isPrintable c && c ≠ '"' && c ≠ '\\'

/-- `literal-char = %x09 / %x20-26 / %x28-7E / non-ascii` -/
def isLiteralChar (c : Char) : Bool :=
  isPrintable c && c ≠ '\''

def isHexDigit (c : Char) : Bool :=
  c.isDigit || ('a' ≤ c && c ≤ 'f') || ('A' ≤ c && c ≤ 'F')

/-- The value of a digit in a base of at most sixteen. -/
def digitValue (c : Char) : Nat :=
  if c.isDigit then c.toNat - '0'.toNat
  else if 'a' ≤ c then c.toNat - 'a'.toNat + 10
  else c.toNat - 'A'.toNat + 10

/-- The number that digits write in a base; underscores are passed over. -/
def digitsValue (base : Nat) (cs : List Char) : Nat :=
  (cs.filter (· ≠ '_')).foldl (fun n c => n * base + digitValue c) 0

def spaces : Reader Unit :=
  Functor.discard (takeWhile isSpace)

/-- `newline = %x0A / %x0D.0A` -/
def newline : Reader Unit :=
  exactly "\n" <|> exactly "\r\n"

/-! ## Strings -/

/-- The character of the code point that `n` hexadecimal digits name. -/
def codePoint (n : Nat) : Reader (List Char) :=
  fun cs =>
    let digits := cs.take n
    let value := digitsValue 16 digits
    if digits.length = n && digits.all isHexDigit && value.isValidChar then
      some ([Char.ofNat value], cs.drop n)
    else
      none

/-- What stands for a character after a backslash. -/
def escape : Reader (List Char) := do
  match ← char fun _ => true with
  | 'b' => pure ['\x08']
  | 't' => pure ['\t']
  | 'n' => pure ['\n']
  | 'f' => pure ['\x0c']
  | 'r' => pure ['\r']
  | '"' => pure ['"']
  | '\\' => pure ['\\']
  | 'u' => codePoint 4
  | 'U' => codePoint 8
  | _ => failure

/-- The characters from the first one on that is neither a blank nor part of a line feed. -/
def dropBlankLines : List Char → List Char
  | ' ' :: cs | '\t' :: cs | '\n' :: cs | '\r' :: '\n' :: cs => dropBlankLines cs
  | cs => cs

/-- A line feed after a backslash, with the blanks in front of it and all blank lines behind it. -/
def lineContinuation : Reader (List Char) := do
  spaces
  newline
  fun cs => some ([], dropBlankLines cs)

/-- What is left of a string on one line, up to its closing quote. At most `n` pieces are read. -/
def lineItems (quote : Char) (isChar : Char → Bool) : Nat → Reader (List Char)
  | 0 => failure
  | n + 1 => do
    let run ← takeWhile isChar
    let c ← char fun _ => true
    if c = quote then
      pure run
    else if c = '\\' && quote = '"' then
      let item ← escape
      return run ++ item ++ (← lineItems quote isChar n)
    else
      failure

/-- What is left of a string on several lines, up to its three closing quotes, with up to two quotes
in front of those. At most `n` pieces are read. -/
def textItems (quote : Char) (isChar : Char → Bool) : Nat → Reader (List Char)
  | 0 => failure
  | n + 1 => do
    let run ← takeWhile isChar
    let quotes ← takeWhile (· = quote)
    if 3 ≤ quotes.length then
      if quotes.length ≤ 5 then pure (run ++ quotes.drop 3) else failure
    else
      let c ← peek
      let item ←
        if c = some '\\' && quote = '"' then
          exactly "\\"
          lineContinuation <|> escape
        else if c = some '\n' || c = some '\r' then do
          newline
          pure ['\n']
        else if quotes.isEmpty then
          failure
        else
          pure []
      return run ++ quotes ++ item ++ (← textItems quote isChar n)

/-- The number of pieces that a text has at most. -/
def pieces : Reader Nat :=
  fun cs => some (cs.length + 1, cs)

def lineString : Reader String := do
  let n ← pieces
  if ← accept "\"" then
    return String.ofList (← lineItems '"' isBasicChar n)
  else
    exactly "'"
    return String.ofList (← lineItems '\'' isLiteralChar n)

/-- A string on one line or on several. A line feed right after three opening quotes is passed
over. -/
def string : Reader String := do
  let n ← pieces
  if ← accept "\"\"\"" then
    let _ ← optional newline
    return String.ofList (← textItems '"' isBasicChar n)
  else if ← accept "'''" then
    let _ ← optional newline
    return String.ofList (← textItems '\'' isLiteralChar n)
  else
    lineString

/-! ## Numbers -/

/-- Whether underscores stand only between two other characters. -/
def separated : List Char → Bool
  | [] => false
  | ['_'] => false
  | [_] => true
  | '_' :: _ => false
  | _ :: '_' :: cs => separated cs
  | _ :: cs => separated cs

/-- Digits of a class with underscores between them. -/
def digits (isDigit : Char → Bool) : Reader (List Char) :=
  check separated (takeWhile fun c => isDigit c || c = '_')

def sign : Reader (Option Char) :=
  optional (char fun c => c = '+' || c = '-')

/-- Decimal digits of which the first is zero only if it is the only one. -/
def wholeDigits : Reader (List Char) :=
  fun cs =>
    match cs with
    | '0' :: cs => some (['0'], cs)
    | cs => digits Char.isDigit cs

def wholeNumber : Reader Unit := do
  let s ← sign
  let value := digitsValue 10 (← wholeDigits)
  let bound := if s = some '-' then Nat.pow 2 63 else Nat.pow 2 63 - 1
  if value ≤ bound then pure () else failure

/-- A number without sign in the base that its mark names. -/
def basedNumber (mark : String) (base : Nat) (isDigit : Char → Bool) : Reader Unit := do
  exactly mark
  let value := digitsValue base (← digits isDigit)
  if value < Nat.pow 2 63 then pure () else failure

/-- Whether `m * 10 ^ e` is nearer to infinity than to any 64-bit float. -/
def overflows (m : Nat) (e : Int) : Bool :=
  let magnitude := (Nat.repr m).length + e
  if m = 0 || magnitude < 300 then false
  else if 400 < magnitude then true
  else Nat.pow 2 1024 - Nat.pow 2 970 ≤ m * Nat.pow 10 e.toNat / Nat.pow 10 (-e).toNat

def exponent : Reader Int := do
  let _ ← char fun c => c = 'e' || c = 'E'
  let s ← sign
  let value : Int := digitsValue 10 (← digits Char.isDigit)
  pure (if s = some '-' then -value else value)

def float : Reader Unit := do
  let s ← sign
  if ← accept "inf" then
    pure ()
  else if ← accept "nan" then
    pure ()
  else
    let whole ← wholeDigits
    let fraction ← if ← accept "." then some <$> digits Char.isDigit else pure none
    let power ← optional exponent
    if fraction.isNone && power.isNone then
      failure
    else
      let places := ((fraction.getD []).filter (· ≠ '_')).length
      let mantissa := digitsValue 10 (whole ++ fraction.getD [])
      if s ≠ some '-' && overflows mantissa (power.getD 0 - places) then failure else pure ()

def number : Reader Unit :=
  basedNumber "0x" 16 isHexDigit <|> basedNumber "0o" 8 (fun c => '0' ≤ c && c ≤ '7') <|>
    basedNumber "0b" 2 (fun c => c = '0' || c = '1') <|> float <|> wholeNumber

/-! ## Dates -/

/-- A number of exactly `n` decimal digits. -/
def fixedDigits (n : Nat) : Reader Nat :=
  fun cs =>
    let front := cs.take n
    if front.length = n && front.all Char.isDigit then
      some (digitsValue 10 front, cs.drop n)
    else
      none

def daysIn (year month : Nat) : Nat :=
  if month = 2 then
    if year % 4 = 0 && (year % 100 ≠ 0 || year % 400 = 0) then 29 else 28
  else if [4, 6, 9, 11].contains month then 30
  else 31

def day : Reader Unit := do
  let year ← fixedDigits 4
  exactly "-"
  let month ← check (fun m => 1 ≤ m && m ≤ 12) (fixedDigits 2)
  exactly "-"
  let _ ← check (fun d => 1 ≤ d && d ≤ daysIn year month) (fixedDigits 2)
  pure ()

def hourAndMinute : Reader Unit := do
  let _ ← check (· ≤ 23) (fixedDigits 2)
  exactly ":"
  let _ ← check (· ≤ 59) (fixedDigits 2)
  pure ()

/-- A time of day; the sixtieth second is a leap second. -/
def time : Reader Unit := do
  hourAndMinute
  exactly ":"
  let _ ← check (· ≤ 60) (fixedDigits 2)
  if ← accept "." then
    let _ ← check (· ≠ []) (takeWhile Char.isDigit)
    pure ()
  else
    pure ()

def offset : Reader Unit := do
  let c ← char fun c => c = 'Z' || c = 'z' || c = '+' || c = '-'
  if c = '+' || c = '-' then hourAndMinute else pure ()

/-- A time behind the day that it belongs to. -/
def timeOfDay : Reader Unit := do
  let _ ← char fun c => c = 'T' || c = 't' || c = ' '
  time
  let _ ← optional offset
  pure ()

def date : Reader Unit :=
  (do day; let _ ← optional timeOfDay; pure ()) <|> time

end StyleBundle.Toml
