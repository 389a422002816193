import StyleBundle.Sheet.Scan

/-!
# What scanning yields

The gaps and lexemes of a scanned text are the text, and a token of punctuation has the one lexeme
of its kind.
-/

namespace StyleBundle

/-- The only lexeme of a kind of punctuation. -/
def TokenKind.lexeme? : TokenKind → Option String
  | .lbrace => some "\x7b"
  | .rbrace => some "\x7d"
  | .semicolon => some ";"
  | .colon => some ":"
  | .slash => some "/"
  | .string | .text => none

/-- A token of punctuation has the lexeme of its kind. -/
def Token.Proper (t : Token) : Prop :=
  ∀ lexeme ∈ t.kind.lexeme?, t.lexeme = lexeme

theorem Token.Proper.text_eq {t : Token} {lexeme : String} (h : t.Proper)
    (hk : t.kind.lexeme? = some lexeme) : t.text = t.gap ++ lexeme := by
  rw [Token.text, h lexeme hk]

namespace Scan

theorem proper_of_cutToken {c : Char} {cs lexeme rest : List Char} {kind : TokenKind}
    (h : cutToken c cs = .ok (kind, lexeme, rest)) (gap : String) :
    (Token.mk gap kind (String.ofList lexeme)).Proper := by
  rcases cutToken_forms h with ⟨hmark, rfl, -⟩ | ⟨rfl, -⟩ | ⟨rfl, -⟩
  · simp only [List.mem_cons, Prod.mk.injEq, List.not_mem_nil, or_false] at hmark
    rcases hmark with ⟨rfl, rfl⟩ | ⟨rfl, rfl⟩ | ⟨rfl, rfl⟩ | ⟨rfl, rfl⟩ | ⟨rfl, rfl⟩ <;>
      simp [Token.Proper, TokenKind.lexeme?]
  · simp [Token.Proper, TokenKind.lexeme?]
  · simp [Token.Proper, TokenKind.lexeme?]

theorem tokensFrom_spec {offset : Nat} {cs : List Char} {stream : TokenStream}
    (h : tokensFrom offset cs = .ok stream) :
    stream.text = String.ofList cs ∧ ∀ t ∈ stream.tokens, t.Proper := by
  fun_induction tokensFrom offset cs generalizing stream
  case case1 cs gap hrest =>
    cases h
    have happ := splitGap_append cs
    rw [hrest, List.append_nil] at happ
    simp [TokenStream.text, Token.textOf, gap, happ]
  case case2 => cases h
  case case3 cs gap c cs' hrest start kind lexeme rest hcut ih =>
    obtain ⟨stream', hs, rfl⟩ : ∃ stream', tokensFrom (start + byteSize lexeme) rest = .ok stream' ∧
        TokenStream.cons ⟨String.ofList gap, kind, String.ofList lexeme⟩ stream' = stream := by
      revert h
      cases tokensFrom (start + byteSize lexeme) rest <;> simp [Except.map]
    obtain ⟨htext, hproper⟩ := ih hs
    constructor
    · have happ := splitGap_append cs
      rw [hrest, ← append_of_cutToken hcut] at happ
      rw [← happ, String.ofList_append, String.ofList_append, ← htext]
      simp [TokenStream.text, TokenStream.cons, Token.textOf, Token.text, gap, String.append_assoc]
    · intro t ht
      rcases List.mem_cons.mp ht with rfl | ht
      · exact proper_of_cutToken hcut _
      · exact hproper t ht

end Scan

namespace TokenStream

variable {text : String} {stream : TokenStream}

theorem text_of_ofText (h : ofText text = .ok stream) : stream.text = text := by
  simpa using (Scan.tokensFrom_spec h).1

theorem proper_of_ofText (h : ofText text = .ok stream) : ∀ t ∈ stream.tokens, t.Proper :=
  (Scan.tokensFrom_spec h).2

end TokenStream

end StyleBundle
