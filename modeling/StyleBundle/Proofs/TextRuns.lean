import StyleBundle.Proofs.Descent
import StyleBundle.Proofs.PlacedTokens
import StyleBundle.Proofs.Shifts

/-!
# Where a run of text is split

A run of text may come as one token or as several that stand one behind the other. The reader looks
at the kinds of tokens, at the first character of an item, at the parentheses of its texts from left
to right, and at the text between two tokens; none of this tells where the texts are split. So from
the same state the two readings do the same step, and they come to the same tree or the same error.
-/

namespace StyleBundle

open Token

/-- The second tokens are the first with some texts in pieces: a text gives its first piece, and
what is left of it, with no gap in front, stays as it is or is split again. -/
inductive TextSplit : List Token → List Token → Prop
  | nil : TextSplit [] []
  | kept {ts us : List Token} (t : Token) : TextSplit ts us → TextSplit (t :: ts) (t :: us)
  | split {ts us : List Token} {gap first rest : String} : first ≠ "" → rest ≠ "" →
      TextSplit (⟨"", .text, rest⟩ :: ts) us →
      TextSplit (⟨gap, .text, first ++ rest⟩ :: ts) (⟨gap, .text, first⟩ :: us)

namespace TextSplit

variable {ts us : List Token} {t u : Token}

/-! ## What the pieces have in common with the whole -/

theorem textOf (h : TextSplit ts us) : textOf us = textOf ts := by
  induction h with
  | nil => rfl
  | kept t _ ih => rw [Token.textOf, Token.textOf, ih]
  | split _ _ _ ih =>
    rw [Token.textOf, ih]
    simp [Token.textOf, Token.text, String.append_assoc]

theorem totalSize (h : TextSplit ts us) : totalSize us = totalSize ts := by
  rw [← utf8ByteSize_textOf, h.textOf, utf8ByteSize_textOf]

theorem leadingGap (h : TextSplit ts us) : leadingGap us = leadingGap ts := by
  cases h <;> rfl

theorem isEmpty (h : TextSplit ts us) : us.isEmpty = ts.isEmpty := by
  cases h <;> rfl

theorem innerText (h : TextSplit ts us) : innerText us = innerText ts := by
  have htext := h.textOf
  rw [← leadingGap_append_innerText, ← leadingGap_append_innerText ts, h.leadingGap] at htext
  exact (String.append_right_inj _).mp htext

theorem spanOf (h : TextSplit ts us) (offset : Nat) : spanOf offset us = spanOf offset ts := by
  rw [Token.spanOf, Token.spanOf, h.leadingGap, h.totalSize]

theorem head?_any (h : TextSplit ts us) :
    (us.head?.any fun u => u.lexeme.toList.head? = some '@') =
      ts.head?.any fun t => t.lexeme.toList.head? = some '@' := by
  cases h with
  | nil => rfl
  | kept => rfl
  | @split _ _ _ first rest hfirst =>
    have hne : first.toList ≠ [] := fun h => hfirst (String.toList_eq_nil_iff.mp h)
    simp [List.head?_append_of_ne_nil _ hne]

theorem of_kind_ne (h : TextSplit (t :: ts) us) (ht : t.kind ≠ .text) :
    ∃ vs, us = t :: vs ∧ TextSplit ts vs := by
  cases h with
  | kept _ h => exact ⟨_, rfl, h⟩
  | split => exact absurd rfl ht

theorem exists_cons (h : TextSplit (t :: ts) us) : ∃ u vs, us = u :: vs := by
  cases h <;> exact ⟨_, _, rfl⟩

theorem kind_eq (h : TextSplit (t :: ts) (u :: us)) : u.kind = t.kind := by
  cases h <;> rfl

/-! ## Looking ahead -/

section Spans

variable {p : Token → Bool}

theorem takeWhile (h : TextSplit ts us) (hp : ∀ t : Token, t.kind = .text → p t) :
    TextSplit (ts.takeWhile p) (us.takeWhile p) := by
  induction h with
  | nil => exact .nil
  | kept t _ ih =>
    rw [List.takeWhile_cons, List.takeWhile_cons]
    split
    · exact .kept t ih
    · exact .nil
  | split hfirst hrest _ ih =>
    rw [List.takeWhile_cons_of_pos (hp _ rfl)] at ih
    rw [List.takeWhile_cons_of_pos (hp _ rfl), List.takeWhile_cons_of_pos (hp _ rfl)]
    exact .split hfirst hrest ih

theorem dropWhile_cases (h : TextSplit ts us) (hp : ∀ t : Token, t.kind = .text → p t) :
    (ts.dropWhile p = [] ∧ us.dropWhile p = []) ∨
      ∃ t rest rest', ts.dropWhile p = t :: rest ∧ us.dropWhile p = t :: rest' ∧
        TextSplit rest rest' := by
  induction h with
  | nil => exact .inl ⟨rfl, rfl⟩
  | @kept ts us t h ih =>
    rw [List.dropWhile_cons, List.dropWhile_cons]
    split
    · exact ih
    · exact .inr ⟨t, ts, us, rfl, rfl, h⟩
  | split _ _ _ ih =>
    rw [List.dropWhile_cons_of_pos (hp _ rfl)] at ih
    rwa [List.dropWhile_cons_of_pos (hp _ rfl), List.dropWhile_cons_of_pos (hp _ rfl)]

end Spans

open StyleBundle.Parser

theorem splitAtDepth_text {stops : List TokenKind} (hstops : .text ∉ stops) (depth : Nat)
    (gap lexeme : String) (ts : List Token) :
    splitAtDepth stops depth (⟨gap, .text, lexeme⟩ :: ts) =
      (⟨gap, .text, lexeme⟩ :: (splitAtDepth stops (lexeme.toList.foldl nestChar depth) ts).1,
        (splitAtDepth stops (lexeme.toList.foldl nestChar depth) ts).2) := by
  rw [splitAtDepth, if_neg (by simp [hstops])]
  rfl

theorem splitAtDepth (h : TextSplit ts us) (stops : List TokenKind) (hstops : .text ∉ stops)
    (depth : Nat) :
    TextSplit (splitAtDepth stops depth ts).1 (splitAtDepth stops depth us).1 ∧
      TextSplit (splitAtDepth stops depth ts).2 (splitAtDepth stops depth us).2 := by
  induction h generalizing depth with
  | nil => exact ⟨.nil, .nil⟩
  | kept t h ih =>
    rw [Parser.splitAtDepth, Parser.splitAtDepth]
    split
    · exact ⟨.nil, .kept t h⟩
    · exact ⟨.kept t (ih _).1, (ih _).2⟩
  | @split ts us gap first rest hfirst hrest _ ih =>
    have ih := ih (first.toList.foldl nestChar depth)
    rw [splitAtDepth_text hstops] at ih
    rw [splitAtDepth_text hstops, splitAtDepth_text hstops, String.toList_append, List.foldl_append]
    exact ⟨.split hfirst hrest ih.1, ih.2⟩

theorem startsRule (h : TextSplit ts us) : startsRule us = startsRule ts := by
  have hrest := (h.splitAtDepth [.lbrace, .semicolon] (by decide) 0).2
  have hhead := h.head?_any
  unfold Parser.startsRule
  generalize (Parser.splitAtDepth [.lbrace, .semicolon] 0 ts).2 = rest at hrest ⊢
  generalize (Parser.splitAtDepth [.lbrace, .semicolon] 0 us).2 = rest' at hrest ⊢
  cases hrest with
  | nil => rfl
  | kept stop => rw [hhead]
  | split => rfl

theorem cutValue (h : TextSplit ts us) :
    TextSplit (cutValue ts).rest (cutValue us).rest ∧
      cutValue us = { cutValue ts with rest := (cutValue us).rest } := by
  obtain ⟨hfront, hrest⟩ := h.splitAtDepth [.semicolon] (by decide) 0
  unfold Parser.cutValue
  generalize Parser.splitAtDepth [.semicolon] 0 ts = cut at hfront hrest ⊢
  generalize Parser.splitAtDepth [.semicolon] 0 us = cut' at hfront hrest ⊢
  obtain ⟨front, rest⟩ := cut
  obtain ⟨front', rest'⟩ := cut'
  dsimp only at hfront hrest ⊢
  rw [hfront.leadingGap, hfront.innerText, hfront.totalSize]
  cases hrest with
  | nil => exact ⟨.nil, rfl⟩
  | kept t h =>
    dsimp only
    split
    · exact ⟨h, rfl⟩
    · exact ⟨.kept t h, rfl⟩
  | split hfirst hrest h => exact ⟨.split hfirst hrest h, rfl⟩

end TextSplit

/-! ## The two readings -/

namespace Parser

variable {size : Nat} {gap : String} {s : State} {t u : Token} {ts us : List Token}

/-- Two steps fail in the same way, or lead to the same state, and what is left is the same but for
pieces. -/
inductive Step.Splits : Step → Step → Prop
  | error (e : SyntaxError) : Splits (.error e) (.error e)
  | ok (s : State) {ts us : List Token} : TextSplit ts us → Splits (.ok (s, ts)) (.ok (s, us))

theorem endsPrelude_eq_false_of_text (h : t.kind = .text) : !endsPrelude t := by
  simp [endsPrelude, h]

theorem endsProperty_eq_false_of_text (h : t.kind = .text) : !endsProperty t := by
  simp [endsProperty, h]

theorem readRule_splits (h : TextSplit ts us) (size : Nat) (s : State) :
    Step.Splits (readRule size s ts) (readRule size s us) := by
  have hfront := h.takeWhile fun t => endsPrelude_eq_false_of_text (t := t)
  unfold readRule
  obtain ⟨hts, hus⟩ | ⟨t, rest, rest', hts, hus, hrest⟩ :=
    h.dropWhile_cases fun t => endsPrelude_eq_false_of_text (t := t)
  · rw [hts, hus]
    exact .error _
  · rw [hts, hus]
    dsimp only
    rw [hfront.totalSize, hfront.leadingGap, hfront.innerText, hfront.isEmpty]
    split_ifs
    · exact .error _
    · exact .error _
    · exact .ok _ hrest
    · exact .error _
    · exact .ok _ hrest

theorem readDeclaration_splits (h : TextSplit ts us) (s : State) (f : Frame)
    (frames : List Frame) :
    Step.Splits (readDeclaration s f frames ts) (readDeclaration s f frames us) := by
  have hfront := h.takeWhile fun t => endsProperty_eq_false_of_text (t := t)
  unfold readDeclaration
  dsimp only
  rw [hfront.innerText, hfront.spanOf]
  obtain ⟨hts, hus⟩ | ⟨colon, rest, rest', hts, hus, hrest⟩ :=
    h.dropWhile_cases fun t => endsProperty_eq_false_of_text (t := t)
  · rw [hts, hus]
    exact .error _
  · obtain ⟨hvalueRest, hvalue⟩ := hrest.cutValue
    rw [hts, hus]
    dsimp only
    rw [hfront.totalSize, hfront.leadingGap, hfront.isEmpty, hvalue]
    split_ifs
    · exact .error _
    · exact .error _
    · exact .ok _ hvalueRest

theorem step_splits (h : TextSplit (t :: ts) (u :: us)) (size : Nat) (s : State) :
    Step.Splits (step size s t ts) (step size s u us) := by
  unfold step
  rw [h.kind_eq]
  by_cases hsemicolon : t.kind = .semicolon
  · obtain ⟨vs, hvs, hrest⟩ := h.of_kind_ne (by simp [hsemicolon])
    cases hvs
    rw [if_pos hsemicolon, if_pos hsemicolon]
    exact .ok _ hrest
  rw [if_neg hsemicolon, if_neg hsemicolon]
  by_cases hclose : t.kind = .rbrace
  · obtain ⟨vs, hvs, hrest⟩ := h.of_kind_ne (by simp [hclose])
    cases hvs
    rw [if_pos hclose, if_pos hclose]
    cases closeBlock s t with
    | error e => exact .error e
    | ok s' => exact .ok s' hrest
  rw [if_neg hclose, if_neg hclose, h.startsRule]
  cases s.frames with
  | nil => exact readRule_splits h size s
  | cons f frames =>
    dsimp only
    split
    · exact readRule_splits h size s
    · exact readDeclaration_splits h s f frames

theorem run_splits (h : TextSplit ts us) (s : State) : run size gap s us = run size gap s ts := by
  fun_induction run size gap s ts generalizing us with
  | case1 s =>
    cases h
    rw [run]
  | case2 s t ts e hstep =>
    obtain ⟨u, us, rfl⟩ := h.exists_cons
    have hsplits := step_splits h size s
    rw [hstep] at hsplits
    generalize hstep' : step size s u us = outcome at hsplits
    cases hsplits
    exact run_of_error hstep'
  | case3 s t ts s₁ rest hstep ih =>
    obtain ⟨u, us, rfl⟩ := h.exists_cons
    have hsplits := step_splits h size s
    rw [hstep] at hsplits
    generalize hstep' : step size s u us = outcome at hsplits
    cases hsplits with
    | ok _ hrest =>
      rw [run_of_step hstep']
      exact ih hrest

end Parser

theorem Stylesheet.ofTokens_split {ts us : List Token} (h : TextSplit ts us) (trailing : String) :
    ofTokens ⟨us, trailing⟩ = ofTokens ⟨ts, trailing⟩ := by
  rw [ofTokens, ofTokens, TokenStream.size, TokenStream.text, h.textOf]
  exact Parser.run_splits h {}

/-! ## Tokens where they stand -/

def textsAt (start : Nat) : List String → List PlacedToken
  | [] => []
  | text :: texts =>
    ⟨.text, text, ⟨start, start + text.utf8ByteSize⟩⟩ ::
      textsAt (start + text.utf8ByteSize) texts

/-- The second tokens are the first with some texts replaced by two or more that cover the same
characters. -/
inductive SplitsTexts : List PlacedToken → List PlacedToken → Prop
  | nil : SplitsTexts [] []
  | kept {ps qs : List PlacedToken} (p : PlacedToken) :
      SplitsTexts ps qs → SplitsTexts (p :: ps) (p :: qs)
  | split {ps qs : List PlacedToken} {p : PlacedToken} (pieces : List String) : p.kind = .text →
      2 ≤ pieces.length → (∀ piece ∈ pieces, piece ≠ "") → p.lexeme = String.join pieces →
      SplitsTexts ps qs → SplitsTexts (p :: ps) (textsAt p.span.start pieces ++ qs)

/-- The tokens with the text in front of each as its gap, the first gap starting at `cursor`. -/
def gapped? (text : String) (cursor : Nat) : List PlacedToken → Option (List Token)
  | [] => some []
  | p :: ps => do
    let gap ← slice? text cursor p.span.start
    let ts ← gapped? text p.span.stop ps
    return ⟨gap, p.kind, p.lexeme⟩ :: ts

/-- Reads a stylesheet from a text and its tokens by recursive descent. -/
def Source.parseTokens (text : String) (ps : List PlacedToken) :
    Option (Except SyntaxError Stylesheet) := do
  let ts ← gapped? text 0 ps
  Source.readSheet ⟨text, ts⟩ 0 0 #[]

theorem gapped?_placed {text front trailing : String} {cursor : Nat} {ts : List Token}
    (htext : text = front ++ textOf ts ++ trailing) (hcursor : cursor = front.utf8ByteSize) :
    gapped? text cursor (placed cursor ts) = some ts := by
  induction ts generalizing front cursor with
  | nil => rfl
  | cons t ts ih =>
    have hgap : slice? text cursor (t.spanAt cursor).start = some t.gap :=
      slice?_eq_some (c := t.lexeme ++ textOf ts ++ trailing)
        (by simp [htext, textOf, Token.text, String.append_assoc]) hcursor rfl
    have hrest : gapped? text (t.spanAt cursor).stop (placed (cursor + t.size) ts) = some ts :=
      ih (show text = front ++ t.text ++ textOf ts ++ trailing by
          simp [htext, textOf, String.append_assoc])
        (by rw [hcursor, String.utf8ByteSize_append, utf8ByteSize_text, spanAt])
    rw [placed_cons, gapped?]
    simp only [hgap, hrest, Option.bind_eq_bind, Option.bind_some, Option.pure_def]

theorem TokenStream.gapped?_placed (s : TokenStream) :
    gapped? s.text 0 (placed 0 s.tokens) = some s.tokens := by
  have htext : s.text = "" ++ textOf s.tokens ++ s.trailing := by
    rw [String.empty_append]
    rfl
  exact StyleBundle.gapped?_placed htext rfl

theorem Source.parseTokens_placed (s : TokenStream) :
    Source.parseTokens s.text (placed 0 s.tokens) = some (Stylesheet.ofTokens s) := by
  have hsrc : (Source.mk s.text s.tokens).Tiled s.trailing := rfl
  have hmeets : (Source.mk s.text s.tokens).Meets 0 0 {} :=
    ⟨[], [], s.tokens, rfl, rfl, rfl, rfl, rfl⟩
  rw [parseTokens, s.gapped?_placed]
  exact Source.readSheet_eq_run hsrc hmeets rfl

/-- Texts that stand in a row come from the pieces of one text. -/
theorem TextSplit.exists_of_pieces {ts us : List Token} (h : TextSplit ts us)
    {pieces : List String} (hne : pieces ≠ []) (hpieces : ∀ piece ∈ pieces, piece ≠ "")
    (gap : String) (offset : Nat) :
    ∃ vs, TextSplit (⟨gap, .text, String.join pieces⟩ :: ts) vs ∧
      placed offset vs = textsAt (offset + gap.utf8ByteSize) pieces ++
        placed (offset + gap.utf8ByteSize + (String.join pieces).utf8ByteSize) us := by
  induction pieces generalizing gap offset with
  | nil => exact absurd rfl hne
  | cons first pieces ih =>
    obtain ⟨hfirst, hrest⟩ := List.forall_mem_cons.mp hpieces
    rw [String.join_cons]
    by_cases hlast : pieces = []
    · subst hlast
      refine ⟨⟨gap, .text, first⟩ :: us, ?_, ?_⟩
      · rw [String.join_nil, String.append_empty]
        exact .kept _ h
      · simp [placed_cons, textsAt, spanAt, Token.size, Nat.add_assoc]
    · obtain ⟨vs, hvs, hplaced⟩ :=
        ih hlast hrest "" (offset + gap.utf8ByteSize + first.utf8ByteSize)
      have hjoin : String.join pieces ≠ "" := by
        obtain ⟨second, pieces, rfl⟩ := List.exists_cons_of_ne_nil hlast
        simp [hrest second List.mem_cons_self]
      refine ⟨⟨gap, .text, first⟩ :: vs, .split hfirst hjoin hvs, ?_⟩
      rw [placed_cons, textsAt, spanAt, Token.size, ← Nat.add_assoc, hplaced]
      simp [Nat.add_assoc]

theorem SplitsTexts.exists_textSplit {offset : Nat} {ts : List Token} {qs : List PlacedToken}
    (h : SplitsTexts (placed offset ts) qs) :
    ∃ us, TextSplit ts us ∧ placed offset us = qs := by
  induction ts generalizing offset qs with
  | nil =>
    cases h
    exact ⟨[], .nil, rfl⟩
  | cons t ts ih =>
    rw [placed_cons] at h
    cases h with
    | kept _ h =>
      obtain ⟨us, hus, rfl⟩ := ih h
      exact ⟨t :: us, .kept t hus, placed_cons offset t us⟩
    | split pieces hkind hlen hpieces hlexeme h =>
      obtain ⟨us, hus, rfl⟩ := ih h
      obtain ⟨gap, kind, lexeme⟩ := t
      cases hkind
      cases hlexeme
      obtain ⟨vs, hvs, hplaced⟩ :=
        hus.exists_of_pieces (by rintro rfl; cases hlen) hpieces gap offset
      refine ⟨vs, hvs, hplaced.trans ?_⟩
      rw [Token.size, ← Nat.add_assoc]
      rfl

/-- Where the runs of text in the tokens of a text are split does not show in what is read, though
the tokens that are read stand where the pieces do. -/
theorem Source.parseTokens_split {text : String} {ps qs : List PlacedToken}
    (hlex : lex text = .ok ps) (h : SplitsTexts ps qs) :
    (∃ us, gapped? text 0 qs = some us ∧ placed 0 us = qs) ∧
      parseTokens text qs = parseTokens text ps ∧
      parseTokens text ps = some (Stylesheet.parse text) := by
  obtain ⟨⟨ts, trailing⟩, hs, rfl⟩ := lex_eq_ok_iff.mp hlex
  obtain ⟨us, hus, rfl⟩ := h.exists_textSplit
  have htext : TokenStream.text ⟨ts, trailing⟩ = text := TokenStream.text_of_ofText hs
  have htext' : TokenStream.text ⟨us, trailing⟩ = text := by
    rw [TokenStream.text, hus.textOf]
    exact htext
  have hts := parseTokens_placed ⟨ts, trailing⟩
  have hsplit := parseTokens_placed ⟨us, trailing⟩
  rw [htext] at hts
  rw [htext', Stylesheet.ofTokens_split hus] at hsplit
  have hgapped := TokenStream.gapped?_placed ⟨us, trailing⟩
  rw [htext'] at hgapped
  refine ⟨⟨us, hgapped, rfl⟩, hsplit.trans hts.symm, hts.trans ?_⟩
  rw [Stylesheet.parse, hs]
  rfl

/-- An at-keyword, and a text that opens a parenthesis around a semicolon, in pieces. -/
theorem Source.parseTokens_split_parenthesis :
    let text := "@ab\x7bc:url(;)\x7d"
    let body := [⟨.lbrace, "\x7b", ⟨3, 4⟩⟩, ⟨.text, "c", ⟨4, 5⟩⟩, ⟨.colon, ":", ⟨5, 6⟩⟩]
    let rest := [⟨.semicolon, ";", ⟨10, 11⟩⟩, ⟨.text, ")", ⟨11, 12⟩⟩, ⟨.rbrace, "\x7d", ⟨12, 13⟩⟩]
    let ps := ⟨.text, "@ab", ⟨0, 3⟩⟩ :: body ++ ⟨.text, "url(", ⟨6, 10⟩⟩ :: rest
    let qs := textsAt 0 ["@", "a", "b"] ++ (body ++ (textsAt 6 ["url", "("] ++ rest))
    lex text = .ok ps ∧ SplitsTexts ps qs ∧
      (∃ us, gapped? text 0 qs = some us ∧ placed 0 us = qs) ∧
      parseTokens text qs = parseTokens text ps ∧
      parseTokens text ps = some (Stylesheet.parse text) := by
  intro text body rest ps qs
  have hsome : (lex text).toOption = some ps := by decide +kernel
  have hlex : lex text = .ok ps := by
    cases h : lex text with
    | error e => simp [h, Except.toOption] at hsome
    | ok ps' => simpa [h, Except.toOption] using hsome
  have hrest : SplitsTexts rest rest := .kept _ (.kept _ (.kept _ .nil))
  have hsplit : SplitsTexts ps qs :=
    .split ["@", "a", "b"] rfl (by decide) (by decide) (by decide)
      (.kept _ (.kept _ (.kept _
        (.split ["url", "("] rfl (by decide) (by decide) (by decide) hrest))))
  exact ⟨hlex, hsplit, parseTokens_split hlex hsplit⟩

end StyleBundle
