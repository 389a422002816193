import StyleBundle.Sheet.Scan
import StyleBundle.Sheet.Directive

/-!
# Parsing

A stylesheet is a sequence of rules and stray semicolons. A rule is a prelude with a block, or an
at-rule's prelude with a semicolon. A block holds declarations, rules and stray semicolons.

The reader works through the tokens item by item with a stack of the blocks that are open. Between
two items it holds the text since the last one, which becomes the `before` of the next, the `after`
of the block or the trailing text. An item in a block is a rule when a brace opens before a
semicolon or a closing brace comes, parentheses hiding braces and semicolons, or when it starts
with `@` and a semicolon ends it.
-/

namespace StyleBundle

open Token

namespace Parser

/-! ## Cutting off an item -/

def endsPrelude (t : Token) : Bool :=
  t.kind = .lbrace || t.kind = .rbrace || t.kind = .semicolon

def endsProperty (t : Token) : Bool :=
  t.kind = .colon || t.kind = .semicolon || t.kind = .rbrace

/-- The depth of parentheses after a character. -/
def nestChar (depth : Nat) (c : Char) : Nat :=
  if c = '(' then depth + 1 else if c = ')' then depth - 1 else depth

/-- The depth of parentheses after a token. Those in strings do not count. -/
def nest (depth : Nat) (t : Token) : Nat :=
  if t.kind = .text then t.lexeme.toList.foldl nestChar depth else depth

/-- The tokens up to the first one that closes a brace, or that is of a kind in `stops` and stands
in no parentheses, and the tokens from there on. -/
def splitAtDepth (stops : List TokenKind) (depth : Nat) : List Token → List Token × List Token
  | [] => ([], [])
  | t :: ts =>
    if t.kind = .rbrace || (depth = 0 && stops.contains t.kind) then
      ([], t :: ts)
    else
      let (front, rest) := splitAtDepth stops (nest depth t) ts
      (t :: front, rest)

/-- Whether the item in a block that starts with the given tokens is a rule. -/
def startsRule (ts : List Token) : Bool :=
  match (splitAtDepth [.lbrace, .semicolon] 0 ts).2 with
  | [] => false
  | stop :: _ =>
    stop.kind = .lbrace ||
      (stop.kind = .semicolon && (ts.head?.any fun t => t.lexeme.toList.head? = some '@'))

/-! ## The state between two items -/

/-- A block whose closing brace has not come. -/
structure Frame where
  header : Header
  /-- Where the rule starts. -/
  start : Nat
  /-- The span of the opening brace. -/
  opened : Span
  items : Array BodyItem := #[]

def Frame.push (item : BodyItem) (f : Frame) : Frame :=
  { f with items := f.items.push item }

structure State where
  /-- The finished top-level rules. -/
  rules : Array Rule := #[]
  /-- The open blocks, the innermost first. -/
  frames : List Frame := []
  /-- The text since the last item. -/
  pending : String := ""
  /-- The number of bytes read. -/
  offset : Nat := 0

namespace State

/-- Adds a finished rule to the innermost open block, or to the top level. -/
def addRule (r : PlainRule) (s : State) : State :=
  match s.frames with
  | [] => { s with rules := s.rules.push r.classify }
  | f :: frames => { s with frames := f.push (.rule r) :: frames }

end State

/-! ## One item -/

/-- What a step leaves: the state, and the tokens still to be read. -/
abbrev Step := Except SyntaxError (State × List Token)

/-- Reads on past a stray semicolon. -/
def skip (s : State) (t : Token) : State :=
  { s with pending := s.pending ++ t.text, offset := s.offset + t.size }

/-- Reads the closing brace `t` of the innermost open block. -/
def closeBlock (s : State) (t : Token) : Except SyntaxError State :=
  match s.frames with
  | [] => .error (.unexpectedToken t.lexeme .rule (t.spanAt s.offset))
  | f :: frames =>
    let stop := s.offset + t.size
    let rule := PlainRule.block f.header f.items.toList (s.pending ++ t.gap) ⟨f.start, stop⟩
    .ok (State.addRule rule { s with frames, pending := "", offset := stop })

/-- Reads a rule up to its opening brace or its semicolon, where `size` is the size of the whole
text. -/
def readRule (size : Nat) (s : State) (ts : List Token) : Step :=
  let front := ts.takeWhile fun t => !endsPrelude t
  match ts.dropWhile fun t => !endsPrelude t with
  | [] => .error (.unexpectedEnd .openBrace ⟨size, size⟩)
  | t :: rest =>
    let reached := s.offset + totalSize front
    let stop := reached + t.size
    let start := s.offset + (leadingGap front).utf8ByteSize
    let header : Header := ⟨s.pending ++ leadingGap front, innerText front, t.gap⟩
    if t.kind = .rbrace then
      .error (.unexpectedToken t.lexeme .openBrace (t.spanAt reached))
    else if front.isEmpty then
      .error (.unexpectedToken t.lexeme .selector (t.spanAt reached))
    else if t.kind = .semicolon then
      if header.prelude.toList.head? = some '@' then
        .ok (State.addRule (.statement header ⟨start, stop⟩)
          { s with pending := "", offset := stop }, rest)
      else
        .error (.unexpectedToken t.lexeme .openBrace (t.spanAt reached))
    else
      let frame : Frame := { header, start, opened := t.spanAt reached }
      .ok ({ s with frames := frame :: s.frames, pending := "", offset := stop }, rest)

/-- The value after a colon, with what stands between the two and what follows up to the semicolon.
-/
structure ValuePart where
  /-- The text between the colon and the value. -/
  lead : String
  value : String
  /-- The size of the value with the text in front of it. -/
  size : Nat
  after : String
  afterSize : Nat
  rest : List Token

/-- Cuts off a value with the semicolon that ends it, if one does. -/
def cutValue (ts : List Token) : ValuePart :=
  let (value, rest) := splitAtDepth [.semicolon] 0 ts
  let part : ValuePart :=
    { lead := leadingGap value, value := innerText value, size := totalSize value
      after := "", afterSize := 0, rest }
  match rest with
  | [] => part
  | t :: rest =>
    if t.kind = .semicolon then
      { part with after := t.text, afterSize := t.size, rest }
    else
      part

/-- Reads a declaration in the open block `f`, which lies in the blocks `frames`. -/
def readDeclaration (s : State) (f : Frame) (frames : List Frame) (ts : List Token) : Step :=
  let front := ts.takeWhile fun t => !endsProperty t
  let missing : SyntaxError := .missingColon (innerText front) (spanOf s.offset front)
  match ts.dropWhile fun t => !endsProperty t with
  | [] => .error missing
  | colon :: rest =>
    if colon.kind ≠ .colon then
      .error missing
    else if front.isEmpty then
      .error (.unexpectedToken colon.lexeme .propertyName (colon.spanAt s.offset))
    else
      let part := cutValue rest
      let start := s.offset + (leadingGap front).utf8ByteSize
      let stop := s.offset + totalSize front + colon.size + part.size
      let declaration : Declaration := {
        before := s.pending ++ leadingGap front
        property := innerText front
        between := colon.text ++ part.lead
        value := part.value
        after := part.after
        span := ⟨start, stop⟩ }
      let frames := f.push (.declaration declaration) :: frames
      .ok ({ s with frames, pending := "", offset := stop + part.afterSize }, part.rest)

/-- Reads the item that starts with the token `t`. -/
def step (size : Nat) (s : State) (t : Token) (ts : List Token) : Step :=
  if t.kind = .semicolon then
    .ok (skip s t, ts)
  else if t.kind = .rbrace then
    (closeBlock s t).map (·, ts)
  else
    match s.frames with
    | [] => readRule size s (t :: ts)
    | f :: frames =>
      if startsRule (t :: ts) then
        readRule size s (t :: ts)
      else
        readDeclaration s f frames (t :: ts)

/-! ## Every step reads a token -/

theorem length_splitAtDepth_le (stops : List TokenKind) (depth : Nat) (ts : List Token) :
    (splitAtDepth stops depth ts).2.length ≤ ts.length := by
  fun_induction splitAtDepth stops depth ts with
  | case1 => simp
  | case2 => simp
  | case3 depth t ts _ front rest e ih =>
    rw [e] at ih
    exact Nat.le_succ_of_le ih

theorem length_cutValue_le (ts : List Token) : (cutValue ts).rest.length ≤ ts.length := by
  have h := length_splitAtDepth_le [.semicolon] 0 ts
  unfold cutValue
  split
  next value rest e =>
  rw [e] at h
  split
  · exact Nat.zero_le _
  · split
    · exact Nat.le_of_succ_le h
    · exact h

theorem length_lt_of_dropWhile {p : Token → Bool} {ts rest : List Token} {t : Token}
    (h : ts.dropWhile p = t :: rest) : rest.length < ts.length := by
  have := (List.dropWhile_sublist p (l := ts)).length_le
  rw [h] at this
  exact this

theorem length_lt_of_readRule {size : Nat} {s s' : State} {ts rest : List Token}
    (h : readRule size s ts = .ok (s', rest)) : rest.length < ts.length := by
  unfold readRule at h
  split at h
  · simp at h
  · next t rest' e =>
    have hlen := length_lt_of_dropWhile e
    dsimp only at h
    repeat' split at h
    all_goals simp only [Except.ok.injEq, Prod.mk.injEq, reduceCtorEq] at h
    all_goals exact h.2 ▸ hlen

theorem length_lt_of_readDeclaration {s s' : State} {f : Frame} {frames : List Frame}
    {ts rest : List Token} (h : readDeclaration s f frames ts = .ok (s', rest)) :
    rest.length < ts.length := by
  unfold readDeclaration at h
  dsimp only at h
  split at h
  · simp at h
  · next t rest' e =>
    have hlen := length_lt_of_dropWhile e
    repeat' split at h
    all_goals simp only [Except.ok.injEq, Prod.mk.injEq, reduceCtorEq] at h
    exact h.2 ▸ Nat.lt_of_le_of_lt (length_cutValue_le rest') hlen

theorem length_lt_of_step {size : Nat} {s s' : State} {t : Token} {ts rest : List Token}
    (h : step size s t ts = .ok (s', rest)) : rest.length < (t :: ts).length := by
  unfold step at h
  repeat' split at h
  · simp only [Except.ok.injEq, Prod.mk.injEq] at h
    exact h.2 ▸ Nat.lt_succ_self _
  · cases hc : closeBlock s t with
    | error e => simp [hc, Except.map] at h
    | ok s'' =>
      simp only [hc, Except.map, Except.ok.injEq, Prod.mk.injEq] at h
      exact h.2 ▸ Nat.lt_succ_self _
  · exact length_lt_of_readRule h
  · exact length_lt_of_readRule h
  · exact length_lt_of_readDeclaration h

/-! ## All items -/

/-- What a state becomes at the end of the text, `gap` being the text after the last token. -/
def finish (s : State) (gap : String) : Except SyntaxError Stylesheet :=
  match s.frames with
  | [] => .ok ⟨s.rules.toList, s.pending ++ gap⟩
  | f :: _ => .error (.unclosedBlock f.opened)

/-- Reads all tokens, where `size` is the size of the whole text and `gap` what trails. -/
def run (size : Nat) (gap : String) (s : State) (ts : List Token) :
    Except SyntaxError Stylesheet :=
  match ts with
  | [] => finish s gap
  | t :: ts =>
    match _h : step size s t ts with
    | .error e => .error e
    | .ok (s, rest) => run size gap s rest
termination_by ts.length
decreasing_by exact length_lt_of_step _h

end Parser

def Stylesheet.ofTokens (stream : TokenStream) : Except SyntaxError Stylesheet :=
  Parser.run stream.size stream.trailing {} stream.tokens

def Stylesheet.parse (text : String) : Except SyntaxError Stylesheet :=
  (TokenStream.ofText text).bind Stylesheet.ofTokens

theorem Stylesheet.toOption_parse_eq_some_iff {text : String} {s : Stylesheet} :
    (parse text).toOption = some s ↔ parse text = .ok s := by
  cases parse text <;> simp [Except.toOption]

end StyleBundle
