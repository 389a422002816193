import Mathlib.Data.List.Chain
import Mathlib.Data.List.TakeWhile
import StyleBundle.Proofs.Scanning

/-!
# Tilings

A run of tokens is what its own text is scanned to when each gap is a gap from end to end, each
lexeme is a whole lexeme, and no token runs on into the text behind it. Text runs on into text, and
a slash into a star, with which it would open a comment; nothing else does.
-/

namespace StyleBundle

open Text

namespace Scan

/-! ## Gaps -/

/-- The body of a comment, up to and with the `*/` that ends it. -/
def IsCommentBody (cs : List Char) : Prop :=
  splitComment cs = some (cs, [])

/-- A run of blanks and comments. -/
inductive Gap : List Char → Prop
  | nil : Gap []
  | blank {c : Char} {cs : List Char} : isBlank c → Gap cs → Gap (c :: cs)
  | comment {body cs : List Char} : IsCommentBody body → Gap cs →
      Gap ('/' :: '*' :: (body ++ cs))

theorem Gap.append {cs ds : List Char} (hc : Gap cs) (hd : Gap ds) : Gap (cs ++ ds) := by
  induction hc with
  | nil => exact hd
  | blank hb _ ih => exact .blank hb ih
  | comment hbody _ ih => simpa using Gap.comment hbody ih

theorem splitComment_append {cs body rest : List Char} (h : splitComment cs = some (body, rest))
    (more : List Char) : splitComment (cs ++ more) = some (body, rest ++ more) := by
  fun_induction splitComment cs generalizing body rest with
  | case1 => cases h
  | case2 cs =>
    cases h
    rfl
  | case3 c cs hne ih =>
    obtain ⟨⟨b, r⟩, hb, e⟩ := Option.map_eq_some_iff.mp h
    cases e
    rw [List.cons_append, splitComment, ih hb]
    · rfl
    · rintro cs' rfl hcs
      cases cs with
      | nil => simp [splitComment] at hb
      | cons d cs =>
        obtain ⟨rfl, -⟩ := List.cons.inj hcs
        exact hne cs rfl rfl

theorem isCommentBody_of_splitComment {cs body rest : List Char}
    (h : splitComment cs = some (body, rest)) : IsCommentBody body := by
  fun_induction splitComment cs generalizing body rest with
  | case1 => cases h
  | case2 cs =>
    cases h
    rfl
  | case3 c cs hne ih =>
    obtain ⟨⟨b, r⟩, hb, e⟩ := Option.map_eq_some_iff.mp h
    cases e
    have happ := append_of_splitComment hb
    rw [IsCommentBody, splitComment, ih hb]
    · rfl
    · rintro cs' rfl rfl
      exact hne _ rfl happ.symm

theorem splitGap_blank {c : Char} (hc : isBlank c) (cs : List Char) :
    splitGap (c :: cs) = (c :: (splitGap cs).1, (splitGap cs).2) := by
  have hne : c ≠ '/' := by
    rintro rfl
    exact absurd hc (by decide)
  rw [splitGap, if_pos hc]
  exact fun _ h => absurd h hne

theorem splitGap_comment {cs body rest : List Char} (h : splitComment cs = some (body, rest)) :
    splitGap ('/' :: '*' :: cs) = ('/' :: '*' :: body ++ (splitGap rest).1, (splitGap rest).2) := by
  rw [splitGap]
  split
  · next body' rest' h' =>
    cases h.symm.trans h'
    rfl
  · next h' => cases h.symm.trans h'

theorem Gap.splitGap_append {cs : List Char} (h : Gap cs) (more : List Char) :
    splitGap (cs ++ more) = (cs ++ (splitGap more).1, (splitGap more).2) := by
  induction h with
  | nil => rfl
  | blank hb _ ih => rw [List.cons_append, splitGap_blank hb, ih]; rfl
  | @comment body cs hbody _ ih =>
    have hcut := splitComment_append hbody (cs ++ more)
    rw [List.nil_append] at hcut
    rw [List.cons_append, List.cons_append, List.append_assoc, splitGap_comment hcut, ih]
    simp

theorem gap_splitGap (cs : List Char) : Gap (splitGap cs).1 := by
  fun_induction splitGap cs with
  | case1 => exact .nil
  | case2 cs body rest h gap rest' e ih =>
    rw [e] at ih
    exact .comment (isCommentBody_of_splitComment h) ih
  | case3 => exact .nil
  | case4 c cs _ hb gap rest e ih =>
    rw [e] at ih
    exact .blank hb ih
  | case5 => exact .nil

/-! ## Lexemes -/

/-- All of the characters are one lexeme of the kind. -/
inductive IsLexeme (kind : TokenKind) : List Char → Prop
  | intro {c : Char} {cs : List Char} : isBlank c = false →
      cutToken c cs = .ok (kind, c :: cs, []) → IsLexeme kind (c :: cs)

/-- A lexeme of the kind ends before the given character, or at the end of the text. -/
def EndsBefore (kind : TokenKind) (next : Option Char) : Prop :=
  match kind with
  | .text => ∀ c ∈ next, isTextChar c = false
  | .slash => next ≠ some '*'
  | _ => True

theorem splitItems_quote {quote : Char} (hq : quote ≠ '\\') {cs items rest : List Char}
    (h : splitItems quote cs = (items, quote :: rest)) (more : List Char) :
    splitItems quote (items ++ quote :: more) = (items, quote :: more) := by
  have hend : splitItems quote (quote :: more) = ([], quote :: more) := by
    rw [splitItems]
    · simp
    · exact fun _ _ h => absurd h hq
  fun_induction splitItems quote cs generalizing items with
  | case1 => cases h
  | case2 cs =>
    cases h
    exact absurd rfl hq
  | case3 c cs hc items' rest' e ih =>
    cases h
    simp [splitItems, hc, ih e]
  | case4 c cs hne hstop =>
    cases h
    exact hend
  | case5 c cs hne hgo items' rest' e ih =>
    cases h
    rw [List.cons_append, splitItems, if_neg hgo, ih e]
    simp_all

theorem cutString_quote {quote : Char} {items rest : List Char}
    (h : splitItems quote (items ++ quote :: rest) = (items, quote :: rest)) :
    cutString quote (items ++ quote :: rest) = .ok (.string, quote :: items ++ [quote], rest) := by
  simp [cutString, h]

/-- The kind of a character that is a token by itself. -/
def mark? (c : Char) : Option TokenKind :=
  if c = '\x7b' then some .lbrace
  else if c = '\x7d' then some .rbrace
  else if c = ';' then some .semicolon
  else if c = ':' then some .colon
  else if c = '/' then some .slash
  else none

theorem cutToken_mark {c : Char} {kind : TokenKind} (h : mark? c = some kind) (cs : List Char) :
    cutToken c cs = if kind = .slash ∧ cs.head? = some '*' then
      .error (.unterminatedComment, c :: cs) else .ok (kind, [c], cs) := by
  unfold mark? at h
  repeat' split at h
  all_goals cases h
  all_goals
    subst c
    simp [cutToken]

theorem cutToken_quote {quote : Char} (h : quote = '"' ∨ quote = '\'') (cs : List Char) :
    cutToken quote cs = cutString quote cs := by
  rcases h with rfl | rfl <;> simp [cutToken]

theorem cutToken_text {c : Char} (h : isTextChar c) (cs : List Char) :
    cutToken c cs = .ok (.text, c :: cs.takeWhile isTextChar, cs.dropWhile isTextChar) := by
  simp_all [isTextChar, cutToken]

theorem isTextChar_of_mark?_eq_none {c : Char} (hc : isBlank c = false) (h : mark? c = none)
    (hq : ¬(c = '"' ∨ c = '\'')) : isTextChar c := by
  unfold mark? at h
  repeat' split at h
  all_goals simp_all [isTextChar]

/-- The three forms of a token. -/
theorem cutToken_cases {c : Char} {cs lexeme rest : List Char} {kind : TokenKind}
    (hc : isBlank c = false) (h : cutToken c cs = .ok (kind, lexeme, rest)) :
    (mark? c = some kind ∧ ¬(kind = .slash ∧ cs.head? = some '*') ∧ lexeme = [c] ∧ rest = cs) ∨
    (kind = .string ∧ (c = '"' ∨ c = '\'') ∧
      ∃ items, splitItems c cs = (items, c :: rest) ∧ lexeme = c :: items ++ [c]) ∨
    (kind = .text ∧ isTextChar c ∧ lexeme = c :: cs.takeWhile isTextChar ∧
      rest = cs.dropWhile isTextChar) := by
  cases hm : mark? c with
  | some k =>
    rw [cutToken_mark hm] at h
    split at h
    · cases h
    · cases h
      exact .inl ⟨rfl, ‹_›, rfl, rfl⟩
  | none =>
    by_cases hq : c = '"' ∨ c = '\''
    · rw [cutToken_quote hq] at h
      obtain ⟨rfl, items, hitems, rfl⟩ := cutString_cases h
      exact .inr (.inl ⟨rfl, hq, items, hitems, rfl⟩)
    · have ht := isTextChar_of_mark?_eq_none hc hm hq
      rw [cutToken_text ht] at h
      cases h
      exact .inr (.inr ⟨rfl, ht, rfl, rfl⟩)

theorem mark?_text (c : Char) : mark? c ≠ some .text := by
  unfold mark?
  repeat' split
  all_goals simp

theorem isLexeme_of_cutToken {c : Char} {cs lexeme rest : List Char} {kind : TokenKind}
    (hc : isBlank c = false) (h : cutToken c cs = .ok (kind, lexeme, rest)) :
    IsLexeme kind lexeme ∧ EndsBefore kind rest.head? := by
  rcases cutToken_cases hc h with
    ⟨hm, hslash, rfl, rfl⟩ | ⟨rfl, hq, items, hitems, rfl⟩ | ⟨rfl, ht, rfl, rfl⟩
  · refine ⟨.intro hc (by simp [cutToken_mark hm]), ?_⟩
    have := mark?_text c
    cases kind <;> simp_all [EndsBefore]
  · have hne : c ≠ '\\' := by
      rintro rfl
      simp at hq
    have hcut := cutString_quote (splitItems_quote hne hitems [])
    exact ⟨.intro hc ((cutToken_quote hq _).trans hcut), trivial⟩
  · have hall : ∀ d ∈ cs.takeWhile isTextChar, isTextChar d := fun d => List.mem_takeWhile_imp
    refine ⟨.intro hc ?_, fun d hd => ?_⟩
    · rw [cutToken_text ht, List.takeWhile_eq_self_iff.mpr hall, List.dropWhile_eq_nil_iff.mpr hall]
    · have hnot := List.head?_dropWhile_not isTextChar cs
      rw [hd] at hnot
      exact hnot

/-- A whole lexeme is cut off from what it ends before. -/
theorem IsLexeme.cutToken_append {kind : TokenKind} {c : Char} {cs more : List Char}
    (h : IsLexeme kind (c :: cs)) (hends : EndsBefore kind more.head?) :
    cutToken c (cs ++ more) = .ok (kind, c :: cs, more) := by
  obtain ⟨hc, h⟩ := h
  rcases cutToken_cases hc h with
    ⟨hm, -, hl, -⟩ | ⟨rfl, hq, items, hitems, hl⟩ | ⟨rfl, ht, hl, hr⟩
  · cases hl
    rw [cutToken_mark hm, if_neg]
    · rfl
    · rintro ⟨rfl, hstar⟩
      exact hends hstar
  · cases hl
    have hne : c ≠ '\\' := by
      rintro rfl
      simp at hq
    have hcut := cutString_quote (splitItems_quote hne hitems more)
    rw [cutToken_quote hq]
    simpa using hcut
  · have hall : ∀ d ∈ cs, isTextChar d := List.dropWhile_eq_nil_iff.mp hr.symm
    have hstop : more.takeWhile isTextChar = [] ∧ more.dropWhile isTextChar = more := by
      cases more with
      | nil => simp
      | cons d more =>
        have := hends d rfl
        simp [this]
    rw [cutToken_text ht, List.takeWhile_append_of_pos hall, List.dropWhile_append_of_pos hall,
      hstop.1, hstop.2, List.append_nil]

theorem splitGap_of_cutToken {c : Char} {cs lexeme rest : List Char} {kind : TokenKind}
    (hc : isBlank c = false) (h : cutToken c cs = .ok (kind, lexeme, rest)) :
    splitGap (c :: cs) = ([], c :: cs) := by
  rw [splitGap]
  · simp [hc]
  · rintro cs' rfl rfl
    simp [cutToken] at h

theorem isBlank_of_splitGap {cs rest : List Char} {c : Char} (h : (splitGap cs).2 = c :: rest) :
    isBlank c = false := by
  fun_induction splitGap cs with
  | case1 => cases h
  | case2 cs body rest' _ gap rest'' e ih => exact ih (by rw [e]; exact h)
  | case3 =>
    cases h
    rfl
  | case4 c cs _ hb gap rest' e ih => exact ih (by rw [e]; exact h)
  | case5 c cs _ hb =>
    cases h
    simpa using hb

/-! ## The whole text -/

theorem tokensFrom_nil {cs : List Char} (offset : Nat) (h : (splitGap cs).2 = []) :
    tokensFrom offset cs = .ok ⟨[], String.ofList (splitGap cs).1⟩ := by
  rw [tokensFrom]
  split
  · rfl
  · next h' => cases h.symm.trans h'

theorem tokensFrom_cons {cs cs' lexeme rest : List Char} {c : Char} {kind : TokenKind}
    (offset : Nat) (h : (splitGap cs).2 = c :: cs')
    (hcut : cutToken c cs' = .ok (kind, lexeme, rest)) :
    tokensFrom offset cs =
      (tokensFrom (offset + byteSize (splitGap cs).1 + byteSize lexeme) rest).map
        (.cons ⟨String.ofList (splitGap cs).1, kind, String.ofList lexeme⟩) := by
  rw [tokensFrom]
  split
  · next h' => cases h.symm.trans h'
  · next h' =>
    cases h.symm.trans h'
    split
    · next hcut' => cases hcut.symm.trans hcut'
    · next hcut' =>
      cases hcut.symm.trans hcut'
      rfl

theorem tokensFrom_error {cs cs' text : List Char} {c : Char} {fault : LexicalFault}
    (offset : Nat) (h : (splitGap cs).2 = c :: cs') (hcut : cutToken c cs' = .error (fault, text)) :
    tokensFrom offset cs = .error (.invalidToken fault
      ⟨offset + byteSize (splitGap cs).1, offset + byteSize (splitGap cs).1 + byteSize text⟩) := by
  rw [tokensFrom]
  split
  · next h' => cases h.symm.trans h'
  · next h' =>
    cases h.symm.trans h'
    split
    · next hcut' =>
      cases hcut.symm.trans hcut'
      rfl
    · next hcut' => cases hcut.symm.trans hcut'

theorem Gap.endsBefore {cs : List Char} (h : Gap cs) (hne : cs ≠ []) (kind : TokenKind) :
    EndsBefore kind cs.head? := by
  cases h with
  | nil => exact absurd rfl hne
  | @blank c cs hb =>
    have hstar : c ≠ '*' := by
      rintro rfl
      exact absurd hb (by decide)
    cases kind <;> simp [EndsBefore, isTextChar, hb, hstar]
  | comment => cases kind <;> simp [EndsBefore, isTextChar]

theorem endsBefore_none (kind : TokenKind) : EndsBefore kind none := by
  cases kind <;> simp [EndsBefore]

theorem IsLexeme.head?_append {kind : TokenKind} {cs : List Char} (h : IsLexeme kind cs)
    (more : List Char) : (cs ++ more).head? = cs.head? := by
  cases h
  rfl

end Scan

open Scan

namespace Token

/-- The gap is a gap from end to end and the lexeme a whole lexeme. -/
structure Whole (t : Token) : Prop where
  gap : Gap t.gap.toList
  lexeme : IsLexeme t.kind t.lexeme.toList

theorem Whole.lexeme_ne {t : Token} (h : t.Whole) : t.lexeme ≠ "" := by
  intro hempty
  have hlexeme := h.lexeme
  rw [hempty] at hlexeme
  cases hlexeme

theorem Whole.proper {t : Token} (h : t.Whole) : t.Proper := by
  obtain ⟨gap, kind, lexeme⟩ := t
  have hlexeme := h.lexeme
  dsimp only at hlexeme
  generalize hcs : lexeme.toList = cs at hlexeme
  obtain ⟨-, hcut⟩ := hlexeme
  have hproper := Scan.proper_of_cutToken hcut gap
  rwa [← hcs, String.ofList_toList] at hproper

/-- The token does not run on into the next. -/
def Apart (t u : Token) : Prop :=
  u.gap = "" → EndsBefore t.kind u.lexeme.toList.head?

theorem Apart.endsBefore {t u : Token} (h : t.Apart u) (hu : u.Whole) (more : List Char) :
    EndsBefore t.kind (u.text.toList ++ more).head? := by
  rw [text, String.toList_append, List.append_assoc]
  by_cases hgap : u.gap = ""
  · rw [hgap, String.toList_empty, List.nil_append, hu.lexeme.head?_append]
    exact h hgap
  · have hne : u.gap.toList ≠ [] := by simpa using hgap
    obtain ⟨c, cs, hcs⟩ := List.exists_cons_of_ne_nil hne
    have hends := hu.gap.endsBefore hne t.kind
    rw [hcs] at hends ⊢
    exact hends

theorem apart_of_endsBefore {t u : Token} (hu : u.Whole) {more : List Char}
    (h : EndsBefore t.kind (u.text.toList ++ more).head?) : t.Apart u := by
  intro hgap
  rwa [text, hgap, String.empty_append, hu.lexeme.head?_append] at h

end Token

/-- The tokens and what trails are whole and apart. -/
structure TokenStream.Tiles (s : TokenStream) : Prop where
  whole : ∀ t ∈ s.tokens, t.Whole
  apart : s.tokens.IsChain Token.Apart
  trailing : Scan.Gap s.trailing.toList

namespace TokenStream

variable {s : TokenStream} {t : Token} {ts : List Token} {trailing : String}

def putGap (gap : String) : TokenStream → TokenStream
  | ⟨[], trailing⟩ => ⟨[], gap ++ trailing⟩
  | ⟨t :: ts, trailing⟩ => ⟨{ t with gap := gap ++ t.gap } :: ts, trailing⟩

/-- The second stream behind the first, whose trailing gap goes over to it. -/
instance : Append TokenStream where
  append s u := ⟨s.tokens ++ (u.putGap s.trailing).tokens, (u.putGap s.trailing).trailing⟩

theorem append_def (s u : TokenStream) :
    s ++ u = ⟨s.tokens ++ (u.putGap s.trailing).tokens, (u.putGap s.trailing).trailing⟩ := rfl

theorem text_putGap (gap : String) (u : TokenStream) : (u.putGap gap).text = gap ++ u.text := by
  obtain ⟨_ | ⟨t, ts⟩, trailing⟩ := u <;>
    simp [putGap, text, Token.textOf, Token.text, String.append_assoc]

theorem text_append (s u : TokenStream) : (s ++ u).text = s.text ++ u.text := by
  have h := text_putGap s.trailing u
  rw [text] at h
  rw [append_def, text, Token.textOf_append, String.append_assoc, h, ← String.append_assoc]
  rfl

theorem size_eq (s : TokenStream) :
    s.size = Token.totalSize s.tokens + s.trailing.utf8ByteSize := by
  rw [size, text, String.utf8ByteSize_append, Token.utf8ByteSize_textOf]

theorem size_append (s u : TokenStream) : (s ++ u).size = s.size + u.size := by
  rw [size, text_append, String.utf8ByteSize_append]
  rfl

theorem append_of_empty (s : TokenStream) : s ++ (⟨[], ""⟩ : TokenStream) = s := by
  simp [append_def, putGap]

/-- A gap in front of a text goes into the gap of its first token. -/
theorem tokensFrom_gap {gap : String} (h : Gap gap.toList) (offset : Nat) (more : List Char) :
    tokensFrom offset (gap.toList ++ more) =
      (tokensFrom (offset + gap.utf8ByteSize) more).map ((⟨[], gap⟩ : TokenStream) ++ ·) := by
  have hsplit := h.splitGap_append more
  have hsize : ∀ cs, byteSize (gap.toList ++ cs) = gap.utf8ByteSize + byteSize cs := fun cs => by
    simp [byteSize, String.ofList_append]
  cases hrest : (splitGap more).2 with
  | nil =>
    rw [tokensFrom_nil _ (by rw [hsplit, hrest]), tokensFrom_nil _ hrest, hsplit]
    simp [Except.map, append_def, putGap, String.ofList_append]
  | cons c cs =>
    have hrest' : (splitGap (gap.toList ++ more)).2 = c :: cs := by rw [hsplit, hrest]
    cases hcut : cutToken c cs with
    | error e =>
      rw [tokensFrom_error _ hrest' hcut, tokensFrom_error _ hrest hcut, hsplit, hsize]
      simp [Except.map, Nat.add_assoc]
    | ok x =>
      obtain ⟨kind, lexeme, rest⟩ := x
      rw [tokensFrom_cons _ hrest' hcut, tokensFrom_cons _ hrest hcut, hsplit, hsize,
        String.ofList_append, String.ofList_toList, ← Nat.add_assoc offset]
      cases tokensFrom _ rest <;> rfl

theorem toList_text_cons (t : Token) (ts : List Token) (trailing : String) :
    (text ⟨t :: ts, trailing⟩).toList =
      t.gap.toList ++ (t.lexeme.toList ++ (text ⟨ts, trailing⟩).toList) := by
  simp [text, Token.textOf, Token.text]

namespace Tiles

theorem tail (h : Tiles ⟨t :: ts, trailing⟩) : Tiles ⟨ts, trailing⟩ :=
  ⟨fun u hu => h.whole u (List.mem_cons_of_mem t hu), h.apart.tail, h.trailing⟩

theorem endsBefore (h : Tiles ⟨t :: ts, trailing⟩) :
    EndsBefore t.kind (text ⟨ts, trailing⟩).toList.head? := by
  cases ts with
  | nil =>
    rw [text, Token.textOf, String.empty_append]
    by_cases hne : trailing.toList = []
    · rw [hne]
      exact endsBefore_none t.kind
    · exact h.trailing.endsBefore hne t.kind
  | cons u ts =>
    have hu := h.whole u (by simp)
    have hends := (List.isChain_cons_cons.mp h.apart).1.endsBefore hu (text ⟨ts, trailing⟩).toList
    rwa [Token.text, String.toList_append, List.append_assoc, ← toList_text_cons] at hends

theorem eq_nil_of_text (h : s.Tiles) (hempty : s.text = "") : s.tokens = [] ∧ s.trailing = "" := by
  obtain ⟨_ | ⟨t, ts⟩, trailing⟩ := s
  · exact ⟨rfl, by simpa [text, Token.textOf] using hempty⟩
  · have hlexeme := (h.whole t List.mem_cons_self).lexeme
    have htext := congrArg String.toList hempty
    rw [toList_text_cons] at htext
    generalize t.lexeme.toList = lexeme at hlexeme htext
    cases hlexeme
    simp at htext

theorem endsBefore_append (h : Tiles ⟨t :: ts, trailing⟩) {more : List Char}
    (hseam : text ⟨ts, trailing⟩ = "" → EndsBefore t.kind more.head?) :
    EndsBefore t.kind ((text ⟨ts, trailing⟩).toList ++ more).head? := by
  by_cases hne : text ⟨ts, trailing⟩ = ""
  · simpa [hne] using hseam hne
  · obtain ⟨c, cs, hcs⟩ := List.exists_cons_of_ne_nil (mt String.toList_eq_nil_iff.mp hne)
    have hends := h.endsBefore
    rw [hcs] at hends ⊢
    exact hends

/-- A text in front that ends with whole tokens is scanned by itself. -/
theorem tokensFrom_append (h : s.Tiles) {more : List Char}
    (hseam : ∀ t ∈ s.tokens.getLast?, s.trailing = "" → EndsBefore t.kind more.head?)
    (offset : Nat) : tokensFrom offset (s.text.toList ++ more) =
      (tokensFrom (offset + s.size) more).map (s ++ ·) := by
  obtain ⟨ts, trailing⟩ := s
  induction ts generalizing offset with
  | nil =>
    have htext : text ⟨[], trailing⟩ = trailing := String.empty_append
    rw [htext, size, htext]
    exact tokensFrom_gap h.trailing offset more
  | cons t ts ih =>
    obtain ⟨hgap, hlexeme⟩ := h.whole t List.mem_cons_self
    have hends : EndsBefore t.kind ((text ⟨ts, trailing⟩).toList ++ more).head? := by
      refine h.endsBefore_append fun hempty => ?_
      obtain ⟨rfl, rfl⟩ := h.tail.eq_nil_of_text hempty
      exact hseam t rfl rfl
    have hsize : offset + size ⟨t :: ts, trailing⟩ = offset + byteSize t.gap.toList +
        byteSize t.lexeme.toList + size ⟨ts, trailing⟩ := by
      simp [size, text, Token.textOf, Token.text, byteSize, Nat.add_assoc]
    rw [toList_text_cons, List.append_assoc, List.append_assoc, hsize]
    generalize hlex : t.lexeme.toList = lexeme at hlexeme ⊢
    obtain ⟨hblank, -⟩ := id hlexeme
    next c cs =>
    have hcut := hlexeme.cutToken_append hends
    have hsplit := hgap.splitGap_append (c :: cs ++ ((text ⟨ts, trailing⟩).toList ++ more))
    rw [List.cons_append, splitGap_of_cutToken hblank hcut, List.append_nil] at hsplit
    have ht : Token.mk (String.ofList t.gap.toList) t.kind (String.ofList (c :: cs)) = t := by
      rw [← hlex, String.ofList_toList, String.ofList_toList]
    rw [List.cons_append, tokensFrom_cons offset (by rw [hsplit]) hcut, hsplit, ht,
      ih _ h.tail fun u hu => hseam u (List.mem_getLast?_cons hu)]
    cases tokensFrom _ more <;> rfl

theorem tokensFrom_text (h : s.Tiles) (offset : Nat) :
    tokensFrom offset s.text.toList = .ok s := by
  have hempty : tokensFrom (offset + s.size) [] = .ok ⟨[], ""⟩ := by
    rw [tokensFrom_nil _ (by rw [splitGap]), splitGap]
  have hseam : ∀ t ∈ s.tokens.getLast?, s.trailing = "" →
      EndsBefore t.kind (List.head? ([] : List Char)) := fun t _ _ => endsBefore_none t.kind
  have happ := h.tokensFrom_append hseam offset
  rwa [hempty, Except.map, append_of_empty, List.append_nil] at happ

end Tiles

theorem tiles_of_tokensFrom {offset : Nat} {cs : List Char} (h : tokensFrom offset cs = .ok s) :
    s.Tiles := by
  fun_induction tokensFrom offset cs generalizing s
  case case1 cs gap hrest =>
    cases h
    exact ⟨by simp, .nil, by simpa using gap_splitGap cs⟩
  case case2 => cases h
  case case3 cs gap c cs' hrest start kind lexeme rest hcut ih =>
    obtain ⟨s', hs, rfl⟩ : ∃ s', tokensFrom (start + byteSize lexeme) rest = .ok s' ∧
        cons ⟨String.ofList gap, kind, String.ofList lexeme⟩ s' = s := by
      revert h
      cases tokensFrom (start + byteSize lexeme) rest <;> simp [Except.map]
    have htiles := ih hs
    have htext := (tokensFrom_spec hs).1
    obtain ⟨hlexeme, hends⟩ := isLexeme_of_cutToken (isBlank_of_splitGap hrest) hcut
    obtain ⟨ts, trailing⟩ := s'
    refine ⟨?_, ?_, htiles.trailing⟩
    · rintro t (ht | ⟨_, ht⟩)
      · exact ⟨by simpa using gap_splitGap cs, by simpa using hlexeme⟩
      · exact htiles.whole t ht
    · cases ts with
      | nil => exact .singleton _
      | cons u us =>
        have hrest' := congrArg String.toList htext
        rw [toList_text_cons, ← List.append_assoc, ← String.toList_append,
          String.toList_ofList] at hrest'
        rw [← hrest'] at hends
        exact htiles.apart.cons_cons (Token.apart_of_endsBefore (htiles.whole u (by simp)) hends)

/-- The tokens of a text are those that tile it. -/
theorem ofText_eq_ok_iff {text : String} : ofText text = .ok s ↔ s.text = text ∧ s.Tiles := by
  constructor
  · intro h
    exact ⟨text_of_ofText h, tiles_of_tokensFrom h⟩
  · rintro ⟨rfl, h⟩
    exact h.tokensFrom_text 0

end TokenStream

end StyleBundle
