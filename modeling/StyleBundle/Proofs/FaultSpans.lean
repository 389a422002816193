import Mathlib.Data.List.TakeWhile
import StyleBundle.Proofs.ItemEnds
import StyleBundle.Proofs.PlacedTokens

/-!
# Where reading fails

A failure points into the text that is no stylesheet: its span starts and ends between characters,
and what stands there is what the failure is about. At each moment of a reading the blocks that are
open are the opening braces that the tokens read since have not closed, so that a block reported as
unclosed is never closed by what follows.
-/

namespace StyleBundle

open Token Scan StyleBundle.Parser

/-! ## What a failure points at -/

/-- Read from the start, the kinds never hold more closing braces than opening ones, so they close
nothing that was opened in front of them. -/
def NeverCloses (ks : List TokenKind) : Prop :=
  ∀ front, front <+: ks → front.count .rbrace ≤ front.count .lbrace

namespace SyntaxError

/-- What stands at the span of a failure. -/
def PointsAt (text : String) : SyntaxError → Prop
  -- the tokens end here, and a comment or a string opens that nothing closes
  | invalidToken fault span => ∃ front behind, text = front ++ behind ∧
      span.start = front.utf8ByteSize ∧ (∃ ps, TilesText text 0 span.start ps) ∧
      IsUnclosed fault behind.toList
  | unexpectedToken found _ span => slice? text span.start span.stop = some found ∧
      ∃ ps kind, lex text = .ok ps ∧ ⟨kind, found, span⟩ ∈ ps
  | unexpectedEnd _ span => span = ⟨text.utf8ByteSize, text.utf8ByteSize⟩
  | unclosedBlock span => ∃ front brace behind, lex text = .ok (front ++ brace :: behind) ∧
      brace.kind = .lbrace ∧ brace.span = span ∧ NeverCloses (behind.map PlacedToken.kind)
  -- each colon of the text stands in front of the span or behind it
  | missingColon part span => slice? text span.start span.stop = some part ∧ part ≠ "" ∧
      ∃ ps, lex text = .ok ps ∧ ∀ p ∈ ps, p.kind = .colon →
        p.span.stop ≤ span.start ∨ span.stop ≤ p.span.start

/-- The span of a failure lies in the text, between characters, and shows what it is about. -/
structure PointsInto (text : String) (e : SyntaxError) : Prop where
  within : ∃ part, slice? text e.span.start e.span.stop = some part
  pointsAt : e.PointsAt text

end SyntaxError

/-! ## Braces that close nothing in front -/

namespace NeverCloses

variable {ks ls : List TokenKind}

theorem of_not_mem (h : TokenKind.rbrace ∉ ks) : NeverCloses ks := by
  intro front hfront
  rw [List.count_eq_zero.mpr fun hmem => h (hfront.subset hmem)]
  exact Nat.zero_le _

theorem append (hk : NeverCloses ks) (hl : NeverCloses ls) : NeverCloses (ks ++ ls) := by
  intro front hfront
  obtain ⟨rest, happ⟩ := hfront
  rcases List.append_eq_append_iff.mp happ with ⟨more, rfl, -⟩ | ⟨more, rfl, rfl⟩
  · exact hk front (List.prefix_append ..)
  · rw [List.count_append, List.count_append]
    exact Nat.add_le_add (hk ks List.prefix_rfl) (hl more (List.prefix_append ..))

theorem block (h : NeverCloses ks) : NeverCloses (.lbrace :: ks ++ [.rbrace]) := by
  intro front hfront
  rcases List.prefix_concat_iff.mp hfront with rfl | hfront
  · have := h ks List.prefix_rfl
    simp
    omega
  · cases front with
    | nil => simp
    | cons k front =>
      obtain ⟨rfl, hinner⟩ := List.cons_prefix_cons.mp hfront
      have := h front hinner
      rw [List.count_cons_of_ne (by decide), List.count_cons_self]
      omega

end NeverCloses

/-! ## A step -/

namespace Parser

variable {size : Nat} {gap : String} {s s' : State} {t : Token} {ts rest : List Token}
  {f : Frame} {frames : List Frame} {e : SyntaxError} {sheet : Stylesheet}

/-- The opening braces of the open blocks, the innermost first. -/
def State.opened (s : State) : List Span :=
  s.frames.map Frame.opened

@[simp]
theorem State.opened_addRule (r : PlainRule) (s : State) : (s.addRule r).opened = s.opened := by
  unfold addRule
  split
  · rfl
  · next f frames hf => simp [opened, hf, Frame.push]

/-- What some tokens do to the open blocks: nothing, or the last one opens a block, or a brace
closes the innermost. -/
inductive Turns (s : State) : (read : List Token) → State → Prop
  | keep {read : List Token} {s' : State} (same : s'.opened = s.opened)
      (open_only : ∀ t ∈ read, t.kind ≠ .rbrace) : Turns s read s'
  | enter {front : List Token} {brace : Token} {s' : State} (kind : brace.kind = .lbrace)
      (more : s'.opened = brace.spanAt (s.offset + totalSize front) :: s.opened)
      (open_only : ∀ t ∈ front, t.kind ≠ .rbrace) : Turns s (front ++ [brace]) s'
  | leave {brace : Token} {s' : State} (span : Span) (kind : brace.kind = .rbrace)
      (less : s.opened = span :: s'.opened) : Turns s [brace] s'

/-- What a reader leaves behind: the tokens read are those in front of the rest. -/
def Reads (s : State) (ts : List Token) (s' : State) (rest : List Token) : Prop :=
  ∃ read, ts = read ++ rest ∧ s'.offset = s.offset + totalSize read ∧ Turns s read s'

theorem reads_of_closeBlock (h : closeBlock s t = .ok s') (hk : t.kind = .rbrace)
    (ts : List Token) : Reads s (t :: ts) s' ts := by
  unfold closeBlock at h
  split at h
  · cases h
  · next f frames hf =>
    cases h
    refine ⟨[t], rfl, ?_, .leave f.opened hk ?_⟩
    · unfold State.addRule
      split <;> simp [totalSize]
    · rw [State.opened_addRule]
      simp [State.opened, hf]

theorem reads_of_readRule (h : readRule size s ts = .ok (s', rest)) : Reads s ts s' rest := by
  obtain ⟨front, t, rfl, -, hends, hcases⟩ := readRule_cases h
  have hfront : ∀ u ∈ front, u.kind ≠ .rbrace := fun u hu =>
    (endsPrelude_eq_false_iff.mp (hends u hu)).1.2
  refine ⟨front ++ [t], by simp, ?_⟩
  rcases hcases with ⟨hk, -, rfl⟩ | ⟨hk, rfl⟩
  · refine ⟨?_, .keep (State.opened_addRule _ _) fun u hu => ?_⟩
    · unfold State.addRule
      split <;> simp [totalSize, Nat.add_assoc]
    · rcases List.mem_append.mp hu with hu | hu
      · exact hfront u hu
      · simp [List.mem_singleton.mp hu, hk]
  · exact ⟨by simp [totalSize, Nat.add_assoc], .enter hk rfl hfront⟩

theorem reads_of_readDeclaration (hs : s.frames = f :: frames)
    (h : readDeclaration s f frames ts = .ok (s', rest)) : Reads s ts s' rest := by
  obtain ⟨property, colon, value, after, rfl, -, hproperty, hk, hvalue, hafter, rfl⟩ :=
    readDeclaration_cases h
  refine ⟨property ++ colon :: (value ++ after), by simp, ?_, .keep ?_ fun u hu => ?_⟩
  · simp only [totalSize_append, totalSize]
    omega
  · simp [State.opened, hs, Frame.push]
  · simp only [List.mem_append, List.mem_cons] at hu
    rcases hu with hu | rfl | hu | hu
    · intro hrbrace
      simpa [endsProperty, hrbrace] using hproperty u hu
    · simp [hk]
    · exact kind_ne_of_mem_splitAtDepth (by rwa [hvalue])
    · rcases hafter with ⟨rfl, -⟩ | ⟨t, rfl, ht⟩
      · cases hu
      · simp [List.mem_singleton.mp hu, ht]

theorem reads_of_step (h : step size s t ts = .ok (s', rest)) : Reads s (t :: ts) s' rest := by
  unfold step at h
  split at h
  · next hk =>
    cases h
    exact ⟨[t], rfl, by simp [skip, totalSize], .keep rfl (by simp [hk])⟩
  · split at h
    · next hk =>
      cases hc : closeBlock s t with
      | error e => simp [hc, Except.map] at h
      | ok s'' =>
        simp only [hc, Except.map, Except.ok.injEq, Prod.mk.injEq] at h
        obtain ⟨rfl, rfl⟩ := h
        exact reads_of_closeBlock hc hk ts
    · split at h
      · exact reads_of_readRule h
      · next hs =>
        split at h
        · exact reads_of_readRule h
        · exact reads_of_readDeclaration hs h

/-! ## The blocks that are open -/

/-- The open blocks are opened by braces among the tokens read, and what was read since closes none
of them. -/
inductive OpenBlocks : List Span → List Token → Prop
  | nil {read : List Token} : OpenBlocks [] read
  | cons {spans : List Span} {read since : List Token} {brace : Token} :
      OpenBlocks spans read → brace.kind = .lbrace → NeverCloses (since.map Token.kind) →
      OpenBlocks (brace.spanAt (totalSize read) :: spans) (read ++ brace :: since)

variable {spans : List Span} {read more : List Token} {span : Span}

theorem OpenBlocks.append (h : OpenBlocks spans read) (hmore : NeverCloses (more.map Token.kind)) :
    OpenBlocks spans (read ++ more) := by
  cases h with
  | nil => exact .nil
  | cons h hk hsince =>
    rw [List.append_assoc, List.cons_append]
    exact .cons h hk (by simpa using hsince.append hmore)

theorem OpenBlocks.close {brace : Token} (h : OpenBlocks (span :: spans) read)
    (hk : brace.kind = .rbrace) : OpenBlocks spans (read ++ [brace]) := by
  cases h with
  | cons h hopen hsince =>
    rw [List.append_assoc]
    refine h.append ?_
    simpa [hopen, hk] using hsince.block

theorem neverCloses_of_kinds (h : ∀ t ∈ more, t.kind ≠ .rbrace) :
    NeverCloses (more.map Token.kind) := by
  refine .of_not_mem fun hmem => ?_
  obtain ⟨t, ht, hk⟩ := List.mem_map.mp hmem
  exact h t ht hk

theorem OpenBlocks.turns (h : OpenBlocks s.opened read) (hoffset : s.offset = totalSize read)
    (hturns : Turns s more s') : OpenBlocks s'.opened (read ++ more) := by
  cases hturns with
  | keep same hkinds =>
    rw [same]
    exact h.append (neverCloses_of_kinds hkinds)
  | enter hk hmore hkinds =>
    rw [hmore, hoffset, ← totalSize_append, ← List.append_assoc]
    exact .cons (h.append (neverCloses_of_kinds hkinds)) hk (.of_not_mem (by simp))
  | leave span hk hless =>
    rw [hless] at h
    exact h.close hk

/-! ## Failures at tokens -/

/-- What is at fault where the tokens are read from an offset on: a token, all that is missing at
the end, an opening brace or a run of tokens without a colon. -/
inductive Blames (size offset : Nat) (ts : List Token) : SyntaxError → Prop
  | token (front : List Token) {rest : List Token} {t : Token} {expected : Expected} :
      ts = front ++ t :: rest → Blames size offset ts
        (.unexpectedToken t.lexeme expected (t.spanAt (offset + totalSize front)))
  | ending {expected : Expected} : Blames size offset ts (.unexpectedEnd expected ⟨size, size⟩)
  | brace (front : List Token) {rest : List Token} {t : Token} :
      ts = front ++ t :: rest → t.kind = .lbrace → NeverCloses (rest.map Token.kind) →
      Blames size offset ts (.unclosedBlock (t.spanAt (offset + totalSize front)))
  | item (front rest : List Token) {part : List Token} : ts = front ++ part ++ rest →
      part ≠ [] → (∀ t ∈ part, t.kind ≠ .colon) →
      Blames size offset ts
        (.missingColon (innerText part) (spanOf (offset + totalSize front) part))

theorem blames_of_closeBlock (h : closeBlock s t = .error e) :
    Blames size s.offset (t :: ts) e := by
  unfold closeBlock at h
  split at h
  · cases h
    exact .token [] rfl
  · cases h

theorem blames_of_readRule (h : readRule size s ts = .error e) : Blames size s.offset ts e := by
  have happ := List.takeWhile_append_dropWhile (p := fun t => !endsPrelude t) (l := ts)
  unfold readRule at h
  generalize ts.takeWhile (fun t => !endsPrelude t) = front at h happ
  generalize ts.dropWhile (fun t => !endsPrelude t) = behind at h happ
  cases behind with
  | nil =>
    cases h
    exact .ending
  | cons t behind =>
    dsimp only at h
    repeat' split at h
    all_goals cases h
    all_goals exact .token _ happ.symm

theorem blames_of_readDeclaration (ht : t.kind ≠ .semicolon) (ht' : t.kind ≠ .rbrace)
    (h : readDeclaration s f frames (t :: ts) = .error e) :
    Blames size s.offset (t :: ts) e := by
  have happ := List.takeWhile_append_dropWhile (p := fun t => !endsProperty t) (l := t :: ts)
  have hfront : ∀ u ∈ (t :: ts).takeWhile fun t => !endsProperty t, u.kind ≠ .colon := by
    intro u hu hk
    simpa [endsProperty, hk] using List.mem_takeWhile_imp hu
  have hends := List.head?_dropWhile_not (fun t => !endsProperty t) (t :: ts)
  unfold readDeclaration at h
  generalize (t :: ts).takeWhile (fun t => !endsProperty t) = front at h happ hfront
  generalize (t :: ts).dropWhile (fun t => !endsProperty t) = behind at h happ hends
  cases behind with
  | nil =>
    cases h
    exact .item [] _ happ.symm (by rintro rfl; cases happ) hfront
  | cons u behind =>
    dsimp only at h
    split at h
    · next hcolon =>
      cases h
      refine .item [] _ happ.symm ?_ hfront
      rintro rfl
      cases happ
      simp [endsProperty, ht, ht', hcolon] at hends
    · split at h
      · next hempty =>
        cases h
        rw [List.isEmpty_iff.mp hempty] at happ
        exact .token [] happ.symm
      · cases h

theorem blames_of_step (h : step size s t ts = .error e) : Blames size s.offset (t :: ts) e := by
  unfold step at h
  split at h
  · cases h
  · next hsemicolon =>
    split at h
    · cases hc : closeBlock s t with
      | error e' =>
        simp only [hc, Except.map, Except.error.injEq] at h
        exact h ▸ blames_of_closeBlock hc
      | ok s' => simp [hc, Except.map] at h
    · next hrbrace =>
      split at h
      · exact blames_of_readRule h
      · split at h
        · exact blames_of_readRule h
        · exact blames_of_readDeclaration hsemicolon hrbrace h

theorem Blames.behind (h : Blames size (totalSize read) ts e) : Blames size 0 (read ++ ts) e := by
  have hoffset (front : List Token) :
      totalSize read + totalSize front = 0 + totalSize (read ++ front) := by simp
  cases h with
  | token front hts =>
    rw [hoffset]
    exact .token _ (by rw [hts, List.append_assoc])
  | ending => exact .ending
  | brace front hts hk hrest =>
    rw [hoffset]
    exact .brace _ (by rw [hts, List.append_assoc]) hk hrest
  | item front rest hts hne hkinds =>
    rw [hoffset]
    exact .item _ rest (by simp only [hts, List.append_assoc]) hne hkinds

/-! ## A whole reading -/

theorem blames_of_run (h : run size gap s ts = .error e) (hoffset : s.offset = totalSize read)
    (hopen : OpenBlocks s.opened read) : Blames size 0 (read ++ ts) e := by
  fun_induction run size gap s ts generalizing read with
  | case1 s =>
    unfold finish at h
    split at h
    · cases h
    · next f frames hf =>
      cases h
      rw [State.opened, hf, List.map_cons] at hopen
      rw [List.append_nil]
      generalize f.opened = span at hopen ⊢
      cases hopen with
      | @cons _ front since brace _ hk hsince =>
        rw [← Nat.zero_add (totalSize front)]
        exact .brace front rfl hk hsince
  | case2 s t ts e' hstep =>
    cases h
    have hblames := blames_of_step hstep
    rw [hoffset] at hblames
    exact hblames.behind
  | case3 s t ts s' rest hstep ih =>
    obtain ⟨more, hsplit, hoffset', hturns⟩ := reads_of_step hstep
    rw [hsplit, ← List.append_assoc]
    exact ih h (by rw [hoffset', hoffset, totalSize_append]) (hopen.turns hoffset hturns)

end Parser

theorem Stylesheet.blames_of_ofTokens {stream : TokenStream} {e : SyntaxError}
    (h : ofTokens stream = .error e) : Blames stream.size 0 stream.tokens e :=
  List.nil_append stream.tokens ▸ blames_of_run h rfl .nil

/-! ## What stands at the spans of tokens -/

namespace TokenStream

variable {stream : TokenStream} {front part rest : List Token} {t : Token}

theorem slice?_spanOf (h : stream.tokens = front ++ part ++ rest) :
    slice? stream.text (spanOf (totalSize front) part).start (spanOf (totalSize front) part).stop =
      some (innerText part) := by
  refine slice?_eq_some (a := textOf front ++ leadingGap part)
    (c := textOf rest ++ stream.trailing) ?_ ?_ ?_
  · rw [text, h]
    simp only [textOf_append, ← leadingGap_append_innerText part, String.append_assoc]
  · rw [String.utf8ByteSize_append, utf8ByteSize_textOf, spanOf]
  · rw [spanOf, totalSize_eq_leadingGap_add part, Nat.add_assoc]

theorem slice?_spanAt (h : stream.tokens = front ++ t :: rest) :
    slice? stream.text (t.spanAt (totalSize front)).start (t.spanAt (totalSize front)).stop =
      some t.lexeme := by
  have hsplit : stream.tokens = front ++ [t] ++ rest := by simpa using h
  have hslice := slice?_spanOf hsplit
  simpa [spanOf, spanAt, leadingGap, totalSize, innerText, textOf] using hslice

theorem Tiles.innerText_ne (h : stream.Tiles) (hsplit : stream.tokens = front ++ part ++ rest)
    (hne : part ≠ []) : innerText part ≠ "" := by
  obtain ⟨t, ts, rfl⟩ := List.exists_cons_of_ne_nil hne
  have hlexeme := (h.whole t (by simp [hsplit])).lexeme_ne
  intro hempty
  rw [innerText, String.append_eq_empty_iff] at hempty
  exact hlexeme hempty.1

end TokenStream

/-! ## Failures of the scanner -/

namespace Scan

variable {c : Char} {cs text : List Char} {fault : LexicalFault} {span : Span} {offset : Nat}

/-- The characters at fault stand at the front of what cannot be cut. -/
theorem prefix_of_cutToken (h : cutToken c cs = .error (fault, text)) : text <+: c :: cs := by
  unfold cutToken at h
  repeat' split at h
  all_goals try cases h
  · exact List.prefix_rfl
  · have happ := splitItems_append c cs
    unfold cutString at h
    repeat' split at h
    all_goals cases h
    all_goals
      rw [‹splitItems c cs = _›] at happ
      exact List.cons_prefix_cons.mpr ⟨rfl, _, happ⟩

theorem split_of_tokensFrom (h : tokensFrom offset cs = .error (.invalidToken fault span)) :
    ∃ front part rest, cs = front ++ part ++ rest ∧ span.start = offset + byteSize front ∧
      span.stop = span.start + byteSize part := by
  fun_induction tokensFrom offset cs
  case case1 => cases h
  case case2 offset cs gap c cs' hrest start fault' text hcut =>
    cases h
    obtain ⟨rest, hprefix⟩ := prefix_of_cutToken hcut
    refine ⟨gap, text, rest, ?_, rfl, rfl⟩
    rw [List.append_assoc, hprefix, ← hrest, splitGap_append]
  case case3 offset cs gap c cs' hrest start kind lexeme rest hcut ih =>
    have hinner :
        tokensFrom (start + byteSize lexeme) rest = .error (.invalidToken fault span) := by
      revert h
      cases tokensFrom (start + byteSize lexeme) rest <;> simp [Except.map]
    obtain ⟨front, part, behind, rfl, hstart, hstop⟩ := ih hinner
    have happ := splitGap_append cs
    rw [hrest, ← append_of_cutToken hcut] at happ
    refine ⟨gap ++ lexeme ++ front, part, behind, ?_, ?_, hstop⟩
    · rw [← happ]
      simp only [gap, List.append_assoc]
    · rw [hstart]
      simp only [start, byteSize, String.ofList_append, String.utf8ByteSize_append, Nat.add_assoc]

end Scan

/-! ## The whole text -/

namespace Stylesheet

variable {text : String} {e : SyntaxError} {stream : TokenStream}

theorem pointsInto_of_ofText (h : TokenStream.ofText text = .error e) : e.PointsInto text := by
  obtain ⟨fault, span, front, behind, rfl, -, htext, hstart, hunclosed, htiles, -⟩ :=
    (lex_tiles text).2.2.2 e (lex_eq_error_iff.mpr h)
  refine ⟨?_, front, behind, htext, hstart, htiles, hunclosed⟩
  obtain ⟨a, part, b, hsplit, hstart, hstop⟩ := split_of_tokensFrom h
  refine ⟨String.ofList part,
    slice?_eq_some (a := String.ofList a) (c := String.ofList b) ?_ ?_ hstop⟩
  · rw [← String.ofList_append, ← String.ofList_append, ← hsplit, String.ofList_toList]
  · exact hstart.trans (Nat.zero_add _)

theorem pointsInto_of_blames (h : TokenStream.ofText text = .ok stream)
    (hblames : Blames stream.size 0 stream.tokens e) : e.PointsInto text := by
  obtain ⟨rfl, htiles⟩ := TokenStream.ofText_eq_ok_iff.mp h
  have hlex : lex stream.text = .ok (placed 0 stream.tokens) := lex_eq_ok_iff.mpr ⟨stream, h, rfl⟩
  cases hblames with
  | @token front rest t _ hts =>
    rw [Nat.zero_add]
    have hslice := TokenStream.slice?_spanAt hts
    refine ⟨⟨_, hslice⟩, hslice, _, t.kind, hlex, ?_⟩
    rw [hts, placed_append, placed_cons, Nat.zero_add]
    exact List.mem_append_right _ List.mem_cons_self
  | ending =>
    refine ⟨⟨"", slice?_eq_some (a := stream.text) (c := "") (by simp) rfl rfl⟩, rfl⟩
  | @brace front rest t hts hk hrest =>
    rw [Nat.zero_add]
    have hslice := TokenStream.slice?_spanAt hts
    rw [hts, placed_append, placed_cons, Nat.zero_add] at hlex
    exact ⟨⟨_, hslice⟩, _, _, _, hlex, hk, rfl, by rwa [map_kind_placed]⟩
  | @item front rest part hts hne hkinds =>
    rw [Nat.zero_add]
    have hslice := TokenStream.slice?_spanOf hts
    refine ⟨⟨_, hslice⟩, hslice, htiles.innerText_ne hts hne, _, hlex, fun p hp hk => ?_⟩
    rw [hts, placed_append, placed_append] at hp
    simp only [Nat.zero_add, List.mem_append, totalSize_append] at hp
    rcases hp with (hp | hp) | hp
    · exact .inl (Nat.le_trans (within_of_mem_placed hp).2 (by simp [spanOf]))
    · exact absurd hk (kind_ne_of_mem_placed hkinds hp)
    · exact .inr (Nat.le_trans (Nat.le_add_right _ _) (within_of_mem_placed hp).1)

theorem pointsInto_of_parse (h : parse text = .error e) : e.PointsInto text := by
  unfold parse at h
  cases hs : TokenStream.ofText text with
  | error e' =>
    simp only [hs, Except.bind, Except.error.injEq] at h
    exact h ▸ pointsInto_of_ofText hs
  | ok stream =>
    have hof : ofTokens stream = .error e := by simpa [hs, Except.bind] using h
    exact pointsInto_of_blames hs (blames_of_ofTokens hof)

/-- The second block of the last text is closed, the first is not. -/
example : [".a\x7bb c\x7d", "é 'a", ".a", ".a\x7bb\x7bc:d\x7d"].map (fun text =>
    match parse text with
    | .ok _ => none
    | .error e => some e) =
    [some (.missingColon "b c" ⟨3, 6⟩), some (.invalidToken .unterminatedString ⟨3, 5⟩),
      some (.unexpectedEnd .openBrace ⟨2, 2⟩), some (.unclosedBlock ⟨2, 3⟩)] := by decide +kernel

end Stylesheet

end StyleBundle
