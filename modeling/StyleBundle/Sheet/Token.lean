import StyleBundle.Sheet.Error

/-!
# Tokens

A token keeps the blanks and comments in front of it as its gap, so the texts of a stream's tokens,
followed by what trails the last one, are the text that was scanned. Offsets are not stored: they
are the sizes of what comes before.
-/

namespace StyleBundle

/-- What the grammar of stylesheets tells apart. All that is neither punctuation nor a string is
text, and where a run of text is split does not matter. -/
inductive TokenKind where
  | lbrace
  | rbrace
  | semicolon
  | colon
  | slash
  | string
  | text
  deriving DecidableEq, Repr

structure Token where
  gap : String
  kind : TokenKind
  lexeme : String
  deriving DecidableEq, Repr

namespace Token

def text (t : Token) : String :=
  t.gap ++ t.lexeme

/-- The size of a token with its gap, in bytes. -/
def size (t : Token) : Nat :=
  t.gap.utf8ByteSize + t.lexeme.utf8ByteSize

/-- The span of the lexeme of a token whose gap starts at `offset`. -/
def spanAt (offset : Nat) (t : Token) : Span :=
  ⟨offset + t.gap.utf8ByteSize, offset + t.size⟩

/-- The text of a run of tokens, gaps included. -/
def textOf : List Token → String
  | [] => ""
  | t :: ts => t.text ++ textOf ts

/-- The text of a run of tokens from the first lexeme to the last. -/
def innerText : List Token → String
  | [] => ""
  | t :: ts => t.lexeme ++ textOf ts

def totalSize : List Token → Nat
  | [] => 0
  | t :: ts => t.size + totalSize ts

/-- The gap in front of a run of tokens. -/
def leadingGap : List Token → String
  | [] => ""
  | t :: _ => t.gap

/-- The span of a run of tokens whose first gap starts at `offset`, from the first lexeme to the
last. -/
def spanOf (offset : Nat) (ts : List Token) : Span :=
  ⟨offset + (leadingGap ts).utf8ByteSize, offset + totalSize ts⟩

/-- The spans of the lexemes of a run of tokens whose first gap starts at `offset`. -/
def spansFrom (offset : Nat) : List Token → List Span
  | [] => []
  | t :: ts => t.spanAt offset :: spansFrom (offset + t.size) ts

theorem utf8ByteSize_text (t : Token) : t.text.utf8ByteSize = t.size :=
  String.utf8ByteSize_append

theorem utf8ByteSize_textOf (ts : List Token) : (textOf ts).utf8ByteSize = totalSize ts := by
  induction ts with
  | nil => rfl
  | cons t ts ih => simp [textOf, totalSize, String.utf8ByteSize_append, utf8ByteSize_text, ih]

theorem leadingGap_append_innerText (ts : List Token) :
    leadingGap ts ++ innerText ts = textOf ts := by
  cases ts <;> simp [leadingGap, innerText, textOf, text, String.append_assoc]

theorem textOf_append (ts us : List Token) : textOf (ts ++ us) = textOf ts ++ textOf us := by
  induction ts with
  | nil => simp [textOf]
  | cons t ts ih => simp [textOf, ih, String.append_assoc]

end Token

/-- The tokens of a text, and the blanks and comments after the last one. -/
structure TokenStream where
  tokens : List Token
  trailing : String
  deriving DecidableEq, Repr

namespace TokenStream

def text (s : TokenStream) : String :=
  Token.textOf s.tokens ++ s.trailing

def size (s : TokenStream) : Nat :=
  s.text.utf8ByteSize

def cons (t : Token) (s : TokenStream) : TokenStream :=
  { s with tokens := t :: s.tokens }

end TokenStream

end StyleBundle
