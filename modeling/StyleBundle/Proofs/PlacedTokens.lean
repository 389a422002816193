import StyleBundle.Proofs.Slices
import StyleBundle.Proofs.Tiling

/-!
# Tokens where they stand

The tokens of a text with their spans are the one list that tiles it: each token stands where its
span says and is as long as its kind allows, and blanks and comments fill what lies between. The
rules of the tiling are stated on the text alone and not by what a scanner takes off its front. A
text that has no such list fails at the end of the longest tiling of a part of it, where a comment
or a string opens that nothing closes.
-/

namespace StyleBundle

open Scan Text

/-! ## Trivia and lexemes -/

/-- The characters between which text may stand. -/
def delimiters : List Char :=
  ['\x7b', '\x7d', ';', ':', '"', '\'', '/', ' ', '\t', '\r', '\n', '\x0c']

/-- A comment ends at the first `*/` behind its opening. -/
inductive IsComment : List Char → Prop
  | intro {body : List Char}
      (first : ∀ as bs, body ++ ['*', '/'] = as ++ '*' :: '/' :: bs → bs = []) :
      IsComment ('/' :: '*' :: (body ++ ['*', '/']))

/-- A sequence of blanks and comments. -/
inductive IsTrivia : List Char → Prop
  | nil : IsTrivia []
  | blank {c : Char} {cs : List Char} (blank : c ∈ [' ', '\t', '\r', '\n', '\x0c']) :
      IsTrivia cs → IsTrivia (c :: cs)
  | comment {cs ds : List Char} (comment : IsComment cs) : IsTrivia ds → IsTrivia (cs ++ ds)

/-- What may stand between two quotes: no line feed, and a quote or a backslash only behind a
backslash. -/
inductive IsQuotable (quote : Char) : List Char → Prop
  | nil : IsQuotable quote []
  | plain {c : Char} {cs : List Char} (plain : c ∉ [quote, '\\', '\n']) :
      IsQuotable quote cs → IsQuotable quote (c :: cs)
  | escaped {c : Char} {cs : List Char} (escaped : c ≠ '\n') :
      IsQuotable quote cs → IsQuotable quote ('\\' :: c :: cs)

/-- The characters that are a token of a kind between what is in front of them and behind them. -/
inductive IsTokenIn (front : List Char) : TokenKind → List Char → (behind : List Char) → Prop
  | lbrace {behind : List Char} : IsTokenIn front .lbrace ['\x7b'] behind
  | rbrace {behind : List Char} : IsTokenIn front .rbrace ['\x7d'] behind
  | semicolon {behind : List Char} : IsTokenIn front .semicolon [';'] behind
  | colon {behind : List Char} : IsTokenIn front .colon [':'] behind
  | slash {behind : List Char} (alone : behind.head? ≠ some '*') :
      IsTokenIn front .slash ['/'] behind
  | string {quote : Char} {items behind : List Char} (quote_mem : quote ∈ ['"', '\''])
      (quotable : IsQuotable quote items) :
      IsTokenIn front .string (quote :: items ++ [quote]) behind
  | text {cs behind : List Char} (ne_nil : cs ≠ []) (inside : ∀ c ∈ cs, c ∉ delimiters)
      (before : ∀ c ∈ front.getLast?, c ∈ delimiters)
      (after : ∀ c ∈ behind.head?, c ∈ delimiters) : IsTokenIn front .text cs behind

/-- Why no token and no comment stands at the front of some characters. -/
inductive IsUnclosed : LexicalFault → List Char → Prop
  | comment {cs : List Char} (unclosed : ∀ as bs, cs ≠ as ++ '*' :: '/' :: bs) :
      IsUnclosed .unterminatedComment ('/' :: '*' :: cs)
  | string {quote : Char} {cs : List Char} (quote_mem : quote ∈ ['"', '\''])
      (unclosed : ∀ items, IsQuotable quote items → ∀ bs, cs ≠ items ++ quote :: bs) :
      IsUnclosed .unterminatedString (quote :: cs)

/-! ## What the scanner takes off the front -/

namespace Scan

variable {c quote : Char} {cs ds front behind body items rest : List Char} {kind : TokenKind}
  {fault : LexicalFault}

theorem isBlank_iff : isBlank c ↔ c ∈ [' ', '\t', '\r', '\n', '\x0c'] := by
  simp [isBlank, or_assoc]

theorem isTextChar_iff : isTextChar c ↔ c ∉ delimiters := by
  simp [isTextChar, isBlank, delimiters]
  tauto

theorem isTextChar_eq_false_iff : isTextChar c = false ↔ c ∈ delimiters := by
  rw [← Bool.not_eq_true, isTextChar_iff, not_not]

theorem splitComment_eq_none_iff :
    splitComment cs = none ↔ ∀ as bs, cs ≠ as ++ '*' :: '/' :: bs := by
  fun_induction splitComment cs with
  | case1 => simp
  | case2 cs => simpa using ⟨[], cs, rfl⟩
  | case3 c cs hne ih =>
    rw [Option.map_eq_none_iff, ih]
    constructor
    · rintro h (_ | ⟨a, as⟩) bs heq
      · cases heq
        exact hne bs rfl rfl
      · cases heq
        exact h as bs rfl
    · intro h as bs heq
      exact h (c :: as) bs (by rw [heq]; rfl)

/-- A comment ends with its `*/`, and no `*/` stands further in front. -/
theorem splitComment_spec (h : splitComment cs = some (body, rest)) :
    (∃ as, body = as ++ ['*', '/']) ∧
      ∀ as bs, cs = as ++ '*' :: '/' :: bs → bs.length ≤ rest.length := by
  fun_induction splitComment cs generalizing body rest with
  | case1 => cases h
  | case2 cs =>
    cases h
    refine ⟨⟨[], rfl⟩, fun as bs heq => ?_⟩
    have := congrArg List.length heq
    simp only [List.length_cons, List.length_append] at this
    omega
  | case3 c cs hne ih =>
    obtain ⟨⟨b, r⟩, hb, e⟩ := Option.map_eq_some_iff.mp h
    cases e
    obtain ⟨⟨as, rfl⟩, hfirst⟩ := ih hb
    refine ⟨⟨c :: as, rfl⟩, ?_⟩
    rintro (_ | ⟨d, ds⟩) bs heq
    · cases heq
      exact absurd rfl (hne bs rfl)
    · cases heq
      exact hfirst ds bs rfl

theorem isComment_iff : IsComment cs ↔ ∃ body, cs = '/' :: '*' :: body ∧ IsCommentBody body := by
  constructor
  · rintro ⟨hfirst⟩
    next inner =>
    refine ⟨_, rfl, ?_⟩
    cases h : splitComment (inner ++ ['*', '/']) with
    | none => exact absurd rfl (splitComment_eq_none_iff.mp h inner [])
    | some cut =>
      obtain ⟨body, rest⟩ := cut
      have happ := append_of_splitComment h
      obtain ⟨⟨as, rfl⟩, -⟩ := splitComment_spec h
      obtain rfl := hfirst as rest (by rw [← happ]; simp)
      rw [IsCommentBody, h, ← happ, List.append_nil]
  · rintro ⟨body, rfl, h⟩
    obtain ⟨⟨as, rfl⟩, hfirst⟩ := splitComment_spec h
    exact ⟨fun bs ds heq => List.length_eq_zero_iff.mp (Nat.le_zero.mp (hfirst bs ds heq))⟩

theorem isTrivia_iff : IsTrivia cs ↔ Gap cs := by
  constructor
  · intro h
    induction h with
    | nil => exact .nil
    | blank hblank _ ih => exact .blank (isBlank_iff.mpr hblank) ih
    | comment hcomment _ ih =>
      obtain ⟨body, rfl, hbody⟩ := isComment_iff.mp hcomment
      exact .comment hbody ih
  · intro h
    induction h with
    | nil => exact .nil
    | blank hblank _ ih => exact .blank (isBlank_iff.mp hblank) ih
    | comment hbody _ ih => exact IsTrivia.comment (isComment_iff.mpr ⟨_, rfl, hbody⟩) ih

theorem isQuotable_splitItems (quote : Char) (cs : List Char) :
    IsQuotable quote (splitItems quote cs).1 := by
  fun_induction splitItems quote cs with
  | case1 => exact .nil
  | case2 => exact .nil
  | case3 c cs hc items rest e ih =>
    rw [e] at ih
    exact .escaped hc ih
  | case4 => exact .nil
  | case5 c cs hne hgo items rest e ih =>
    rw [e] at ih
    exact .plain (by simpa [or_assoc] using hgo) ih

theorem splitItems_of_isQuotable (hq : quote ≠ '\\') (h : IsQuotable quote items)
    (more : List Char) : splitItems quote (items ++ quote :: more) = (items, quote :: more) := by
  induction h with
  | nil =>
    rw [List.nil_append, splitItems]
    · simp
    · exact fun _ _ h => absurd h hq
  | @plain c cs hc _ ih =>
    rw [List.cons_append, splitItems, ih]
    · simp_all
    · rintro d ds rfl
      simp at hc
  | escaped hc _ ih => simp [splitItems, hc, ih]

theorem splitComment_of_splitGap (h : (splitGap cs).2 = '/' :: '*' :: ds) :
    splitComment ds = none := by
  fun_induction splitGap cs with
  | case1 => cases h
  | case2 cs body rest' _ gap rest'' e ih => exact ih (by rw [e]; exact h)
  | case3 cs hnone =>
    cases h
    exact hnone
  | case4 c cs _ hb gap rest' e ih => exact ih (by rw [e]; exact h)
  | case5 c cs hne =>
    cases h
    exact absurd rfl (hne ds rfl)

theorem ne_backslash (hq : quote ∈ ['"', '\'']) : quote ≠ '\\' := by
  rintro rfl
  simp at hq

end Scan

open Scan

variable {front cs behind more : List Char} {kind : TokenKind} {fault : LexicalFault}

/-- A token by the rules is a whole lexeme, and it ends before what is behind it. -/
theorem IsTokenIn.isLexeme (h : IsTokenIn front kind cs behind) :
    IsLexeme kind cs ∧ EndsBefore kind behind.head? := by
  cases h with
  | lbrace => exact ⟨.intro rfl rfl, trivial⟩
  | rbrace => exact ⟨.intro rfl rfl, trivial⟩
  | semicolon => exact ⟨.intro rfl rfl, trivial⟩
  | colon => exact ⟨.intro rfl rfl, trivial⟩
  | slash halone => exact ⟨.intro rfl rfl, halone⟩
  | @string quote items _ hquote hitems =>
    have hblank : isBlank quote = false := by
      rcases List.mem_pair.mp hquote with rfl | rfl <;> rfl
    have hcut := cutString_quote (splitItems_of_isQuotable (ne_backslash hquote) hitems [])
    exact ⟨.intro hblank ((cutToken_quote (List.mem_pair.mp hquote) _).trans hcut), trivial⟩
  | text hne hinside _ hafter =>
    obtain ⟨c, cs, rfl⟩ := List.exists_cons_of_ne_nil hne
    have hall : ∀ d ∈ cs, isTextChar d := fun d hd =>
      isTextChar_iff.mpr (hinside d (List.mem_cons_of_mem c hd))
    have hc : isTextChar c := isTextChar_iff.mpr (hinside c List.mem_cons_self)
    refine ⟨.intro ?_ ?_, fun d hd => isTextChar_eq_false_iff.mpr (hafter d hd)⟩
    · simp_all [isTextChar]
    · rw [cutToken_text hc, List.takeWhile_eq_self_iff.mpr hall,
        List.dropWhile_eq_nil_iff.mpr hall]

/-- A whole lexeme that ends before what is behind it is a token by the rules, if text in front of
it does not go on with it. -/
theorem isTokenIn_of_isLexeme (h : IsLexeme kind cs) (hends : EndsBefore kind behind.head?)
    (hfront : kind = .text → ∀ c ∈ front.getLast?, c ∈ delimiters) :
    IsTokenIn front kind cs behind := by
  obtain ⟨hblank, hcut⟩ := h
  next c cs =>
  rcases cutToken_cases hblank hcut with
    ⟨hm, -, hlexeme, -⟩ | ⟨rfl, hquote, items, hitems, hlexeme⟩ | ⟨rfl, htext, -, hrest⟩
  · rw [hlexeme]
    unfold mark? at hm
    repeat' split at hm
    all_goals cases hm
    all_goals subst c
    · exact .lbrace
    · exact .rbrace
    · exact .semicolon
    · exact .colon
    · exact .slash hends
  · rw [hlexeme]
    have hquotable := isQuotable_splitItems c cs
    rw [hitems] at hquotable
    exact .string (List.mem_pair.mpr hquote) hquotable
  · have hall : ∀ d ∈ cs, isTextChar d := List.dropWhile_eq_nil_iff.mp hrest.symm
    refine .text (List.cons_ne_nil c cs) ?_ (hfront rfl) fun d hd =>
      isTextChar_eq_false_iff.mp (hends d hd)
    rintro d (_ | ⟨_, hd⟩)
    · exact isTextChar_iff.mp htext
    · exact isTextChar_iff.mp (hall d hd)

theorem Scan.IsLexeme.getLast?_mem (h : IsLexeme kind cs) (hkind : kind ≠ .text) :
    ∀ c ∈ cs.getLast?, c ∈ delimiters := by
  have htoken : IsTokenIn [] kind cs [] :=
    isTokenIn_of_isLexeme h (endsBefore_none kind) fun hk => absurd hk hkind
  intro c hc
  cases htoken with
  | text => exact absurd rfl hkind
  | string hquote =>
    rw [List.getLast?_append] at hc
    simp at hc
    subst hc
    rcases List.mem_pair.mp hquote with rfl | rfl <;> decide
  | _ =>
    cases hc
    decide

theorem Scan.Gap.getLast?_mem (h : Gap cs) : ∀ c ∈ cs.getLast?, c ∈ delimiters := by
  induction h with
  | nil => simp
  | @blank c cs hblank _ ih =>
    have hc : c ∈ delimiters := isTextChar_eq_false_iff.mp (by simp [isTextChar, hblank])
    rw [List.getLast?_cons]
    cases hlast : cs.getLast? with
    | none => simpa using hc
    | some d => simpa using ih d hlast
  | @comment body cs hbody _ ih =>
    obtain ⟨⟨as, rfl⟩, -⟩ := splitComment_spec hbody
    have happ : '/' :: '*' :: (as ++ ['*', '/'] ++ cs) =
        ('/' :: '*' :: as ++ ['*']) ++ ['/'] ++ cs := by simp
    rw [happ, List.getLast?_append, List.getLast?_concat]
    cases hlast : cs.getLast? with
    | none => simp [delimiters]
    | some d => simpa using ih d hlast

/-- The scanner fails where nothing closes what opens. -/
theorem isUnclosed_of_cutToken {c : Char} {ds text : List Char}
    (hrest : (splitGap ds).2 = c :: cs) (hcut : cutToken c cs = .error (fault, text)) :
    IsUnclosed fault (c :: cs) := by
  cases hm : mark? c with
  | some kind =>
    rw [cutToken_mark hm] at hcut
    split at hcut
    · next h =>
      obtain ⟨rfl, hstar⟩ := h
      obtain ⟨cs, rfl⟩ := List.head?_eq_some_iff.mp hstar
      cases hcut
      obtain rfl : c = '/' := by
        unfold mark? at hm
        repeat' split at hm
        all_goals cases hm
        assumption
      exact .comment (splitComment_eq_none_iff.mp (splitComment_of_splitGap hrest))
    · cases hcut
  | none =>
    by_cases hquote : c = '"' ∨ c = '\''
    · rw [cutToken_quote hquote] at hcut
      have hmem := List.mem_pair.mpr hquote
      obtain rfl : fault = .unterminatedString := by
        unfold cutString at hcut
        repeat' split at hcut
        all_goals cases hcut
        all_goals rfl
      refine .string hmem fun items hitems bs heq => ?_
      have hsplit := splitItems_of_isQuotable (ne_backslash hmem) hitems bs
      rw [heq, cutString_quote hsplit] at hcut
      cases hcut
    · rw [cutToken_text (isTextChar_of_mark?_eq_none (isBlank_of_splitGap hrest) hm hquote)] at hcut
      cases hcut

/-! ## Tilings of a text -/

structure PlacedToken where
  kind : TokenKind
  lexeme : String
  span : Span
  deriving DecidableEq, Repr

/-- The tokens of a run whose first gap starts at `offset`, where they stand. -/
def placed (offset : Nat) (ts : List Token) : List PlacedToken :=
  List.zipWith (fun t span => ⟨t.kind, t.lexeme, span⟩) ts (Token.spansFrom offset ts)

def lex (text : String) : Except SyntaxError (List PlacedToken) :=
  (TokenStream.ofText text).map fun s => placed 0 s.tokens

/-- The token stands in the text at its span, and it is as long as its kind allows. -/
def PlacedToken.StandsIn (text : String) (p : PlacedToken) : Prop :=
  ∃ front behind, text = front ++ p.lexeme ++ behind ∧
    p.span = ⟨front.utf8ByteSize, front.utf8ByteSize + p.lexeme.utf8ByteSize⟩ ∧
    IsTokenIn front.toList p.kind p.lexeme.toList behind.toList

/-- What lies in front of the tokens, between them and behind them, from `start` to `stop`. -/
def gapsBetween (stop : Nat) : (start : Nat) → List PlacedToken → List Span
  | start, [] => [⟨start, stop⟩]
  | start, p :: ps => ⟨start, p.span.start⟩ :: gapsBetween stop p.span.stop ps

/-- The tokens tile the text from `start` to `stop`. -/
structure TilesText (text : String) (start stop : Nat) (ps : List PlacedToken) : Prop where
  stands : ∀ p ∈ ps, p.StandsIn text
  ordered : ps.Pairwise fun p q => p.span.stop ≤ q.span.start
  trivia : ∀ g ∈ gapsBetween stop start ps, ∃ gap, slice? text g.start g.stop = some gap ∧
    IsTrivia gap.toList

variable {text a b rest : String} {start stop : Nat} {p : PlacedToken} {ps : List PlacedToken}
  {t : Token} {ts : List Token} {s : TokenStream}

theorem placed_cons (offset : Nat) (t : Token) (ts : List Token) :
    placed offset (t :: ts) =
      ⟨t.kind, t.lexeme, t.spanAt offset⟩ :: placed (offset + t.size) ts := rfl

theorem placed_append (offset : Nat) (ts us : List Token) :
    placed offset (ts ++ us) = placed offset ts ++ placed (offset + Token.totalSize ts) us := by
  induction ts generalizing offset with
  | nil => rfl
  | cons t ts ih => simp [placed_cons, ih, Token.totalSize, Nat.add_assoc]

theorem map_kind_placed (offset : Nat) (ts : List Token) :
    (placed offset ts).map PlacedToken.kind = ts.map Token.kind := by
  induction ts generalizing offset with
  | nil => rfl
  | cons t ts ih => simp [placed_cons, ih]

theorem kind_ne_of_mem_placed {kind : TokenKind} {offset : Nat} (h : ∀ t ∈ ts, t.kind ≠ kind)
    (hp : p ∈ placed offset ts) : p.kind ≠ kind := by
  have hmem : p.kind ∈ ts.map Token.kind :=
    map_kind_placed offset ts ▸ List.mem_map_of_mem hp
  obtain ⟨t, ht, hk⟩ := List.mem_map.mp hmem
  exact hk ▸ h t ht

theorem within_of_mem_placed {offset : Nat} (h : p ∈ placed offset ts) :
    (Token.spanOf offset ts).start ≤ p.span.start ∧
      p.span.stop ≤ (Token.spanOf offset ts).stop := by
  induction ts generalizing offset with
  | nil => cases h
  | cons t ts ih =>
    rw [placed_cons] at h
    simp only [Token.spanOf, Token.leadingGap, Token.totalSize]
    rcases List.mem_cons.mp h with rfl | h
    · simp only [Token.spanAt]
      omega
    · have := ih h
      simp only [Token.spanOf, Token.size] at this
      rw [Token.size]
      omega

theorem PlacedToken.StandsIn.le (h : p.StandsIn text) : p.span.start ≤ p.span.stop := by
  obtain ⟨_, _, _, hspan, _⟩ := h
  rw [hspan]
  exact Nat.le_add_right _ _

namespace TilesText

theorem nil_iff : TilesText text start stop [] ↔
    ∃ gap, slice? text start stop = some gap ∧ IsTrivia gap.toList := by
  constructor
  · exact fun h => h.trivia _ List.mem_cons_self
  · exact fun h => ⟨by simp, .nil, by simpa [gapsBetween] using h⟩

theorem start_le (h : TilesText text start stop ps) : ∀ p ∈ ps, start ≤ p.span.start := by
  cases ps with
  | nil => simp
  | cons p ps =>
    obtain ⟨gap, hgap, -⟩ := h.trivia _ List.mem_cons_self
    obtain ⟨_, _, _, -, hle⟩ := slice?_eq_some_iff.mp hgap
    have hp := (h.stands p List.mem_cons_self).le
    rintro q (_ | ⟨_, hq⟩)
    · dsimp only at hle
      omega
    · have := (List.pairwise_cons.mp h.ordered).1 q hq
      dsimp only at hle
      omega

theorem cons_iff : TilesText text start stop (p :: ps) ↔
    (∃ gap, slice? text start p.span.start = some gap ∧ IsTrivia gap.toList) ∧
      p.StandsIn text ∧ TilesText text p.span.stop stop ps := by
  constructor
  · intro h
    exact ⟨h.trivia _ List.mem_cons_self, h.stands p List.mem_cons_self,
      fun q hq => h.stands q (List.mem_cons_of_mem p hq), (List.pairwise_cons.mp h.ordered).2,
      fun g hg => h.trivia g (List.mem_cons_of_mem _ hg)⟩
  · rintro ⟨hgap, hp, h⟩
    refine ⟨?_, List.pairwise_cons.mpr ⟨h.start_le, h.ordered⟩, ?_⟩
    · rintro q (_ | ⟨_, hq⟩)
      · exact hp
      · exact h.stands q hq
    · rintro g (_ | ⟨_, hg⟩)
      · exact hgap
      · exact h.trivia g hg

end TilesText

/-! ## Tilings and scanned tokens -/

namespace TokenStream

/-- The stream does not run on into the characters behind it. -/
def EndsAt (s : TokenStream) (more : List Char) : Prop :=
  ∀ t ∈ s.tokens.getLast?, s.trailing = "" → EndsBefore t.kind more.head?

theorem text_cons (t : Token) (s : TokenStream) :
    (s.cons t).text = t.gap ++ (t.lexeme ++ s.text) := by
  simp [TokenStream.text, TokenStream.cons, Token.textOf, Token.text, String.append_assoc]

theorem size_cons (t : Token) (s : TokenStream) : (s.cons t).size = t.size + s.size := by
  rw [TokenStream.size, text_cons, String.utf8ByteSize_append, String.utf8ByteSize_append,
    ← Nat.add_assoc]
  rfl

theorem Tiles.cons (h : s.Tiles) (ht : t.Whole)
    (hends : EndsBefore t.kind (s.text.toList ++ more).head?) : (s.cons t).Tiles := by
  obtain ⟨_ | ⟨u, us⟩, trailing⟩ := s
  · refine ⟨?_, .singleton t, h.trailing⟩
    rintro u (_ | ⟨_, hu⟩)
    · exact ht
    · cases hu
  · refine ⟨?_, h.apart.cons_cons ?_, h.trailing⟩
    · rintro v (_ | ⟨_, hv⟩)
      · exact ht
      · exact h.whole v hv
    · have hu := h.whole u List.mem_cons_self
      rw [TokenStream.text, Token.textOf, String.append_assoc, String.toList_append,
        List.append_assoc] at hends
      exact Token.apart_of_endsBefore hu hends

theorem EndsAt.cons (h : s.EndsAt more)
    (hends : EndsBefore t.kind (s.text.toList ++ more).head?) :
    (s.cons t).EndsAt more := by
  obtain ⟨_ | ⟨u, us⟩, trailing⟩ := s
  · rintro u ⟨⟩ htrailing
    rw [show trailing = "" from htrailing] at hends
    simpa [TokenStream.text, Token.textOf] using hends
  · intro v hv
    rw [TokenStream.cons, List.getLast?_cons_cons] at hv
    exact h v hv

end TokenStream

open TokenStream (EndsAt text_cons size_cons)

theorem TilesText.exists_stream (h : TilesText text start stop ps) (htext : text = a ++ rest)
    (hstart : start = a.utf8ByteSize) : ∃ s b, TokenStream.Tiles s ∧ rest = s.text ++ b ∧
      s.EndsAt b.toList ∧ ps = placed start s.tokens ∧ stop = start + s.size := by
  induction ps generalizing a rest start with
  | nil =>
    obtain ⟨gap, hgap, htrivia⟩ := TilesText.nil_iff.mp h
    obtain ⟨a', b, htext', hstart', hstop⟩ := slice?_eq_some_iff.mp hgap
    rw [htext, String.append_assoc] at htext'
    obtain ⟨rfl, rfl⟩ := append_inj_of_size htext' (hstart ▸ hstart')
    have hall : (⟨[], gap⟩ : TokenStream).text = gap := String.empty_append
    refine ⟨⟨[], gap⟩, b, ⟨by simp, .nil, isTrivia_iff.mp htrivia⟩, ?_, by simp [EndsAt], rfl, ?_⟩
    · rw [hall]
    · rw [TokenStream.size, hall, hstop]
  | cons p ps ih =>
    obtain ⟨⟨gap, hgap, htrivia⟩, ⟨front, behind, hfront, hspan, htoken⟩, hps⟩ :=
      TilesText.cons_iff.mp h
    obtain ⟨a', b, htext', hstart', hstop⟩ := slice?_eq_some_iff.mp hgap
    have hrest : a ++ rest = a' ++ (gap ++ b) := by rw [← htext, htext', String.append_assoc]
    obtain ⟨rfl, rfl⟩ := append_inj_of_size hrest (hstart ▸ hstart')
    obtain ⟨kind, lexeme, span⟩ := p
    dsimp only at hspan hstop hfront htoken hps
    subst hspan
    -- the gap ends where the token starts, so both cut the text at one place
    have hsplit : a ++ gap ++ b = front ++ (lexeme ++ behind) := by
      rw [← htext', hfront, String.append_assoc]
    obtain ⟨rfl, rfl⟩ := append_inj_of_size hsplit (by
      rw [String.utf8ByteSize_append, ← hstart, ← hstop])
    obtain ⟨s, c, htiles, rfl, hends, rfl, hsize⟩ := ih hps hfront
      String.utf8ByteSize_append.symm
    obtain ⟨hlexeme, hbefore⟩ := htoken.isLexeme
    rw [String.toList_append] at hbefore
    let t : Token := ⟨gap, kind, lexeme⟩
    refine ⟨s.cons t, c, htiles.cons ⟨isTrivia_iff.mp htrivia, hlexeme⟩ hbefore, ?_,
      hends.cons hbefore, ?_, ?_⟩
    · rw [text_cons]
      simp only [String.append_assoc, t]
    · rw [TokenStream.cons, placed_cons, Token.spanAt, Token.size, ← hstop, ← Nat.add_assoc,
        ← hstop]
    · rw [hsize, size_cons, Token.size, ← Nat.add_assoc start, ← Nat.add_assoc start, ← hstop]

theorem getLast?_append_mem {l m : List Char} (hl : m = [] → ∀ c ∈ l.getLast?, c ∈ delimiters)
    (hm : ∀ c ∈ m.getLast?, c ∈ delimiters) : ∀ c ∈ (l ++ m).getLast?, c ∈ delimiters := by
  rw [List.getLast?_append]
  cases h : m.getLast? with
  | none => simpa using hl (List.getLast?_eq_none_iff.mp h)
  | some d => simpa using hm d h

theorem Token.Apart.ne_text {t u : Token} (h : t.Apart u) (hu : u.Whole) (hgap : u.gap = "")
    (hk : u.kind = .text) : t.kind ≠ .text := by
  intro ht
  have hends := h hgap
  obtain ⟨-, hlexeme⟩ := hu
  have htoken : IsTokenIn [] u.kind u.lexeme.toList [] :=
    isTokenIn_of_isLexeme hlexeme (endsBefore_none u.kind) (by simp)
  rw [hk] at htoken
  rw [ht] at hends
  cases htoken with
  | text hne hinside =>
    obtain ⟨c, cs, hcs⟩ := List.exists_cons_of_ne_nil hne
    rw [hcs] at hends hinside
    exact hinside c List.mem_cons_self (isTextChar_eq_false_iff.mp (hends c rfl))

/-- A stream whose text is a part of a text tiles this part with its tokens, where text does not
go on with what is in front of it. -/
theorem tilesText_of_stream (h : s.Tiles) (htext : text = a ++ s.text ++ b)
    (hends : s.EndsAt b.toList)
    (hfront : ∀ t ∈ s.tokens.head?, t.gap = "" → t.kind = .text →
      ∀ c ∈ a.toList.getLast?, c ∈ delimiters) :
    TilesText text a.utf8ByteSize (a.utf8ByteSize + s.size) (placed a.utf8ByteSize s.tokens) := by
  obtain ⟨ts, trailing⟩ := s
  induction ts generalizing a with
  | nil =>
    rw [TokenStream.text, Token.textOf, String.empty_append] at htext
    refine TilesText.nil_iff.mpr
      ⟨trailing, slice?_eq_some htext rfl ?_, isTrivia_iff.mpr h.trailing⟩
    rw [TokenStream.size, TokenStream.text, Token.textOf, String.empty_append]
  | cons t ts ih =>
    obtain ⟨hgap, hlexeme⟩ := h.whole t List.mem_cons_self
    let s : TokenStream := ⟨ts, trailing⟩
    have hcons : text = a ++ t.gap ++ (t.lexeme ++ s.text ++ b) := by
      rw [htext, show (⟨t :: ts, trailing⟩ : TokenStream) = s.cons t from rfl, text_cons]
      simp only [String.append_assoc]
    have hbehind : text = (a ++ t.gap) ++ t.lexeme ++ (s.text ++ b) := by
      rw [hcons]
      simp only [String.append_assoc]
    have hbefore : EndsBefore t.kind ((s.text.toList ++ b.toList)).head? := by
      refine h.endsBefore_append fun hempty => ?_
      obtain ⟨rfl, rfl⟩ := h.tail.eq_nil_of_text hempty
      exact hends t rfl rfl
    have hclear : t.kind = .text → ∀ c ∈ (a ++ t.gap).toList.getLast?, c ∈ delimiters := by
      intro hk
      rw [String.toList_append]
      exact getLast?_append_mem
        (fun hempty => hfront t rfl (String.toList_eq_nil_iff.mp hempty) hk) hgap.getLast?_mem
    -- what the next token stands right behind is this one, which is then no text
    have hnext : ∀ u ∈ ts.head?, u.gap = "" → u.kind = .text →
        ∀ c ∈ (a ++ t.gap ++ t.lexeme).toList.getLast?, c ∈ delimiters := by
      intro u hu hugap huk
      obtain ⟨us, rfl⟩ := List.head?_eq_some_iff.mp hu
      have hapart := (List.isChain_cons_cons.mp h.apart).1
      have hne := hapart.ne_text (h.tail.whole u List.mem_cons_self) hugap huk
      rw [String.toList_append]
      refine getLast?_append_mem (fun hempty => ?_) (hlexeme.getLast?_mem hne)
      rw [hempty] at hlexeme
      cases hlexeme
    have hrest : text = (a ++ t.gap ++ t.lexeme) ++ s.text ++ b := by
      rw [hbehind]
      simp only [String.append_assoc]
    have htail := ih h.tail hrest (fun u hu => hends u (List.mem_getLast?_cons hu)) hnext
    have hsize : (a ++ t.gap ++ t.lexeme).utf8ByteSize = a.utf8ByteSize + t.size := by
      rw [String.utf8ByteSize_append, String.utf8ByteSize_append, Token.size, Nat.add_assoc]
    rw [hsize, Nat.add_assoc, ← size_cons] at htail
    refine TilesText.cons_iff.mpr ⟨⟨t.gap, slice?_eq_some hcons rfl rfl, isTrivia_iff.mpr hgap⟩,
      ⟨a ++ t.gap, s.text ++ b, hbehind, ?_, isTokenIn_of_isLexeme hlexeme ?_ hclear⟩, htail⟩
    · rw [Token.spanAt, String.utf8ByteSize_append, Token.size, Nat.add_assoc]
    · rwa [String.toList_append]

theorem tilesText_of_front (h : s.Tiles) (hends : s.EndsAt b.toList) :
    TilesText (s.text ++ b) 0 s.size (placed 0 s.tokens) := by
  have htext : s.text ++ b = "" ++ s.text ++ b := by rw [String.empty_append]
  have hwhole := tilesText_of_stream h htext hends (by simp)
  rwa [String.utf8ByteSize_empty, Nat.zero_add] at hwhole

/-- Where scanning fails, the text in front is tiled and nothing closes what opens next. -/
theorem exists_stream_of_error {offset : Nat} {e : SyntaxError}
    (h : tokensFrom offset cs = .error e) : ∃ fault span s more, e = .invalidToken fault span ∧
      TokenStream.Tiles s ∧ cs = s.text.toList ++ more ∧ s.EndsAt more ∧
      span.start = offset + s.size ∧ IsUnclosed fault more := by
  fun_induction tokensFrom offset cs
  case case1 => cases h
  case case2 offset cs gap c cs' hrest start fault text hcut =>
    cases h
    have happ := splitGap_append cs
    rw [hrest] at happ
    have hall : (⟨[], String.ofList gap⟩ : TokenStream).text = String.ofList gap :=
      String.empty_append
    refine ⟨fault, _, ⟨[], String.ofList gap⟩, c :: cs', rfl, ⟨by simp, .nil, ?_⟩, ?_,
      by simp [EndsAt], ?_, isUnclosed_of_cutToken hrest hcut⟩
    · simpa [gap] using gap_splitGap cs
    · rw [hall, String.toList_ofList, happ]
    · rw [TokenStream.size, hall]
      rfl
  case case3 offset cs gap c cs' hrest start kind lexeme rest hcut ih =>
    have hinner : tokensFrom (start + byteSize lexeme) rest = .error e := by
      revert h
      cases tokensFrom (start + byteSize lexeme) rest <;> simp [Except.map]
    obtain ⟨fault, span, s, more, he, htiles, rfl, hends, hspan, hunclosed⟩ := ih hinner
    obtain ⟨hlexeme, hbefore⟩ := isLexeme_of_cutToken (isBlank_of_splitGap hrest) hcut
    have happ := splitGap_append cs
    rw [hrest, ← append_of_cutToken hcut] at happ
    let t : Token := ⟨String.ofList gap, kind, String.ofList lexeme⟩
    have hwhole : t.Whole := ⟨by simpa [t, gap] using gap_splitGap cs, by simpa [t] using hlexeme⟩
    refine ⟨fault, span, s.cons t, more, he, htiles.cons hwhole hbefore, ?_,
      hends.cons hbefore, ?_, hunclosed⟩
    · rw [text_cons, ← happ]
      simp [t, gap]
    · rw [hspan, size_cons, Token.size]
      simp only [start, t, byteSize]
      omega

theorem lex_eq_ok_iff :
    lex text = .ok ps ↔ ∃ s, TokenStream.ofText text = .ok s ∧ placed 0 s.tokens = ps := by
  unfold lex
  cases TokenStream.ofText text <;> simp [Except.map]

theorem lex_eq_error_iff {e : SyntaxError} :
    lex text = .error e ↔ TokenStream.ofText text = .error e := by
  unfold lex
  cases TokenStream.ofText text <;> simp [Except.map]

theorem lex_eq_ok_iff_tilesText :
    lex text = .ok ps ↔ TilesText text 0 text.utf8ByteSize ps := by
  rw [lex_eq_ok_iff]
  constructor
  · rintro ⟨s, hs, rfl⟩
    obtain ⟨rfl, htiles⟩ := TokenStream.ofText_eq_ok_iff.mp hs
    have hends : s.EndsAt "".toList := fun t _ _ => endsBefore_none t.kind
    have hwhole := tilesText_of_front htiles hends
    rwa [String.append_empty] at hwhole
  · intro h
    obtain ⟨s, b, htiles, htext, -, rfl, hsize⟩ :=
      h.exists_stream String.empty_append.symm String.utf8ByteSize_empty.symm
    rw [htext, String.utf8ByteSize_append, Nat.zero_add, TokenStream.size] at hsize
    obtain rfl : b = "" := String.utf8ByteSize_eq_zero_iff.mp (by omega)
    rw [String.append_empty] at htext
    exact ⟨s, TokenStream.ofText_eq_ok_iff.mpr ⟨htext.symm, htiles⟩, rfl⟩

theorem TilesText.le_of_error (h : TilesText text 0 stop ps) {fault : LexicalFault} {span : Span}
    (herror : lex text = .error (.invalidToken fault span)) : stop ≤ span.start := by
  obtain ⟨s, b, htiles, htext, hends, -, hsize⟩ :=
    h.exists_stream String.empty_append.symm String.utf8ByteSize_empty.symm
  rw [lex_eq_error_iff, TokenStream.ofText, htext, String.toList_append,
    htiles.tokensFrom_append hends] at herror
  have hrest : tokensFrom (0 + s.size) b.toList = .error (.invalidToken fault span) := by
    revert herror
    cases tokensFrom (0 + s.size) b.toList <;> simp [Except.map]
  obtain ⟨_, _, s', _, he, _, _, _, hspan, _⟩ := exists_stream_of_error hrest
  cases he
  omega

/-- The tokens of a text with their spans are the one list that tiles it. A text without such a
list fails at the end of its longest tiling, where a comment or a string opens that nothing
closes. -/
theorem lex_tiles (text : String) :
    (∀ ps, lex text = .ok ps ↔ TilesText text 0 text.utf8ByteSize ps) ∧
      (∀ ps qs, TilesText text 0 text.utf8ByteSize ps → TilesText text 0 text.utf8ByteSize qs →
        ps = qs) ∧
      ((∃ e, lex text = .error e) ↔ ¬∃ ps, TilesText text 0 text.utf8ByteSize ps) ∧
      ∀ e, lex text = .error e → ∃ fault span front behind, e = .invalidToken fault span ∧
        fault.message ∈ ["unterminated comment", "unterminated string"] ∧
        text = front ++ behind ∧ span.start = front.utf8ByteSize ∧
        IsUnclosed fault behind.toList ∧ (∃ ps, TilesText text 0 span.start ps) ∧
        ∀ stop ps, TilesText text 0 stop ps → stop ≤ span.start := by
  refine ⟨fun ps => lex_eq_ok_iff_tilesText, fun ps qs hps hqs => ?_, ?_, fun e he => ?_⟩
  · have hps' := lex_eq_ok_iff_tilesText.mpr hps
    exact Except.ok.inj (hps'.symm.trans (lex_eq_ok_iff_tilesText.mpr hqs))
  · simp only [← lex_eq_ok_iff_tilesText]
    cases lex text <;> simp
  · obtain ⟨fault, span, s, more, rfl, htiles, htext, hends, hspan, hunclosed⟩ :=
      exists_stream_of_error (lex_eq_error_iff.mp he)
    obtain rfl : text = s.text ++ String.ofList more :=
      String.toList_inj.mp (by rw [htext, String.toList_append, String.toList_ofList])
    rw [Nat.zero_add] at hspan
    have hends : s.EndsAt (String.ofList more).toList := by rwa [String.toList_ofList]
    refine ⟨fault, span, s.text, String.ofList more, rfl, ?_, rfl, hspan, ?_, ?_,
      fun stop ps hps => hps.le_of_error he⟩
    · cases fault <;> simp [LexicalFault.message]
    · rwa [String.toList_ofList]
    · rw [hspan]
      exact ⟨_, tilesText_of_front htiles hends⟩

end StyleBundle
