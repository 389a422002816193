import StyleBundle.Text.Blank
import StyleBundle.Sheet.Token

/-!
# Scanning

Cuts a text into tokens. A gap is a run of blanks and comments, each comment ending at the first
`*/` after its opening. A token is one punctuation character, a string up to the first quote of its
own sort that is not escaped, or a run of text as long as possible. Scanning fails only at a
comment or a string that is never closed.
-/

namespace StyleBundle.Scan

open Text

/-- The characters of text tokens. -/
def isTextChar (c : Char) : Bool :=
  !(isBlank c || c = '\x7b' || c = '\x7d' || c = ';' || c = ':' || c = '"' || c = '\'' || c = '/')

/-- What is left of a comment after its opening, up to the first `*/`, and what follows it. -/
def splitComment : List Char → Option (List Char × List Char)
  | [] => none
  | '*' :: '/' :: cs => some (['*', '/'], cs)
  | c :: cs => (splitComment cs).map fun (body, rest) => (c :: body, rest)

theorem append_of_splitComment {cs body rest : List Char}
    (h : splitComment cs = some (body, rest)) : body ++ rest = cs := by
  fun_induction splitComment cs generalizing body rest with
  | case1 => simp at h
  | case2 => grind
  | case3 c cs _ ih =>
    obtain ⟨⟨b, r⟩, hb, e⟩ := Option.map_eq_some_iff.mp h
    simp only [Prod.mk.injEq] at e
    obtain ⟨rfl, rfl⟩ := e
    simp [ih hb]

/-- The gap at the front of a text, and the rest. The rest opens a comment only when that comment
is never closed. -/
def splitGap (cs : List Char) : List Char × List Char :=
  match cs with
  | [] => ([], [])
  | '/' :: '*' :: cs =>
    match _h : splitComment cs with
    | some (body, rest) =>
      let (gap, rest) := splitGap rest
      ('/' :: '*' :: body ++ gap, rest)
    | none => ([], '/' :: '*' :: cs)
  | c :: cs =>
    if isBlank c then
      let (gap, rest) := splitGap cs
      (c :: gap, rest)
    else
      ([], c :: cs)
termination_by cs.length
decreasing_by
  · have := congrArg List.length (append_of_splitComment _h)
    simp only [List.length_append, List.length_cons] at this ⊢
    omega
  · simp

/-- The items of a string after its opening quote, and what follows them. An item is one character
other than the quote, a backslash and a line feed, or a backslash with any character but a line
feed. -/
def splitItems (quote : Char) : List Char → List Char × List Char
  | [] => ([], [])
  | '\\' :: c :: cs =>
    if c = '\n' then
      ([], '\\' :: c :: cs)
    else
      let (items, rest) := splitItems quote cs
      ('\\' :: c :: items, rest)
  | c :: cs =>
    if c = quote || c = '\\' || c = '\n' then
      ([], c :: cs)
    else
      let (items, rest) := splitItems quote cs
      (c :: items, rest)

/-- A token's kind, its characters and what follows them; or why there is none, and the characters
at fault. -/
abbrev Cut :=
  Except (LexicalFault × List Char) (TokenKind × List Char × List Char)

/-- The string token that `quote` opens, `cs` being what follows the quote. -/
def cutString (quote : Char) (cs : List Char) : Cut :=
  match splitItems quote cs with
  | (items, c :: rest) =>
    if c = quote then
      .ok (.string, quote :: items ++ [quote], rest)
    else
      .error (.unterminatedString, quote :: items)
  | (items, []) => .error (.unterminatedString, quote :: items)

/-- The token that starts with `c`, `cs` being what follows `c`. -/
def cutToken (c : Char) (cs : List Char) : Cut :=
  if c = '\x7b' then .ok (.lbrace, [c], cs)
  else if c = '\x7d' then .ok (.rbrace, [c], cs)
  else if c = ';' then .ok (.semicolon, [c], cs)
  else if c = ':' then .ok (.colon, [c], cs)
  else if c = '/' then
    if cs.head? = some '*' then .error (.unterminatedComment, c :: cs) else .ok (.slash, [c], cs)
  else if c = '"' || c = '\'' then cutString c cs
  else .ok (.text, c :: cs.takeWhile isTextChar, cs.dropWhile isTextChar)

/-! ## Nothing is lost -/

theorem splitGap_append (cs : List Char) : (splitGap cs).1 ++ (splitGap cs).2 = cs := by
  fun_induction splitGap cs with
  | case1 => rfl
  | case2 cs body rest h gap rest' e ih =>
    rw [e] at ih
    simp only [List.cons_append, List.append_assoc, ih, append_of_splitComment h]
  | case3 => rfl
  | case4 c cs _ hb gap rest e ih =>
    rw [e] at ih
    simpa using ih
  | case5 => rfl

theorem splitItems_append (quote : Char) (cs : List Char) :
    (splitItems quote cs).1 ++ (splitItems quote cs).2 = cs := by
  fun_induction splitItems quote cs <;> simp_all

theorem cutString_cases {quote : Char} {cs lexeme rest : List Char} {kind : TokenKind}
    (h : cutString quote cs = .ok (kind, lexeme, rest)) : kind = .string ∧ ∃ items,
      splitItems quote cs = (items, quote :: rest) ∧ lexeme = quote :: items ++ [quote] := by
  unfold cutString at h
  split at h
  · next items c rest' e =>
    split at h
    · next hc =>
      cases h
      exact ⟨rfl, items, by rw [e, hc], rfl⟩
    · cases h
  · cases h

/-- A token is one punctuation character, a string or a run of text. -/
theorem cutToken_forms {c : Char} {cs lexeme rest : List Char} {kind : TokenKind}
    (h : cutToken c cs = .ok (kind, lexeme, rest)) :
    ((kind, c) ∈ [(.lbrace, '\x7b'), (.rbrace, '\x7d'), (.semicolon, ';'), (.colon, ':'),
      (.slash, '/')] ∧ lexeme = [c] ∧ rest = cs) ∨
    (kind = .string ∧ ∃ items, splitItems c cs = (items, c :: rest) ∧ lexeme = c :: items ++ [c]) ∨
    (kind = .text ∧ lexeme = c :: cs.takeWhile isTextChar ∧ rest = cs.dropWhile isTextChar) := by
  unfold cutToken at h
  repeat' split at h
  all_goals first
    | exact .inr (.inl (cutString_cases h))
    | cases h
  all_goals simp [*]

theorem append_of_cutToken {c : Char} {cs lexeme rest : List Char} {kind : TokenKind}
    (h : cutToken c cs = .ok (kind, lexeme, rest)) : lexeme ++ rest = c :: cs := by
  rcases cutToken_forms h with ⟨-, rfl, rfl⟩ | ⟨-, items, hitems, rfl⟩ | ⟨-, rfl, rfl⟩
  · rfl
  · have happ := splitItems_append c cs
    rw [hitems] at happ
    simp [← happ]
  · rw [List.cons_append, List.takeWhile_append_dropWhile]

theorem lexeme_ne_nil_of_cutToken {c : Char} {cs lexeme rest : List Char} {kind : TokenKind}
    (h : cutToken c cs = .ok (kind, lexeme, rest)) : lexeme ≠ [] := by
  rcases cutToken_forms h with ⟨-, rfl, -⟩ | ⟨-, items, -, rfl⟩ | ⟨-, rfl, -⟩ <;> simp

theorem length_lt_of_cutToken {c : Char} {cs lexeme rest : List Char} {kind : TokenKind}
    (h : cutToken c cs = .ok (kind, lexeme, rest)) : rest.length < (c :: cs).length := by
  have happ := congrArg List.length (append_of_cutToken h)
  have hne := List.length_pos_iff.mpr (lexeme_ne_nil_of_cutToken h)
  simp only [List.length_append] at happ
  omega

/-! ## The whole text -/

def byteSize (cs : List Char) : Nat :=
  (String.ofList cs).utf8ByteSize

/-- The tokens of a text that starts at `offset`. -/
def tokensFrom (offset : Nat) (cs : List Char) : Except SyntaxError TokenStream :=
  let gap := (splitGap cs).1
  match _h : (splitGap cs).2 with
  | [] => .ok ⟨[], String.ofList gap⟩
  | c :: cs' =>
    let start := offset + byteSize gap
    match _h' : cutToken c cs' with
    | .error (fault, text) => .error (.invalidToken fault ⟨start, start + byteSize text⟩)
    | .ok (kind, lexeme, rest) =>
      (tokensFrom (start + byteSize lexeme) rest).map
        (.cons ⟨String.ofList gap, kind, String.ofList lexeme⟩)
termination_by cs.length
decreasing_by
  have h₁ := congrArg List.length (splitGap_append cs)
  have h₂ := length_lt_of_cutToken _h'
  rw [List.length_append, _h] at h₁
  omega

end StyleBundle.Scan

namespace StyleBundle

def TokenStream.ofText (text : String) : Except SyntaxError TokenStream :=
  Scan.tokensFrom 0 text.toList

end StyleBundle
