import StyleBundle.Proofs.Shifts

/-!
# Texts one after the other

A text that is read as a sheet ends, apart from blanks and comments, with a semicolon or a closing
brace that closes all blocks. So no token runs on from it into a text behind, no look ahead leaves
it, and the text behind is read as by itself: further on, and with what trails the sheet in front.
-/

namespace StyleBundle

open Token

/-! ## Sheets -/

namespace Stylesheet

def lead (text : String) (s : Stylesheet) : Stylesheet :=
  match s.rules with
  | [] => { s with trailing := text ++ s.trailing }
  | r :: rs => { s with rules := r.setBefore (text ++ r.before) :: rs }

/-- The rules of both sheets. What trails the first goes in front of the second. -/
instance : Append Stylesheet where
  append s u := ⟨s.rules ++ (u.lead s.trailing).rules, (u.lead s.trailing).trailing⟩

theorem append_def (s u : Stylesheet) :
    s ++ u = ⟨s.rules ++ (u.lead s.trailing).rules, (u.lead s.trailing).trailing⟩ := rfl

end Stylesheet

/-! ## Scanning -/

theorem TokenStream.append_withGap (s u : TokenStream) {body : List Token} (h : body ≠ [])
    (more : List Token) (trailing : String) :
    s ++ (⟨u.tokens ++ withGap u.trailing body ++ more, trailing⟩ : TokenStream) =
      ⟨(s ++ u).tokens ++ withGap (s ++ u).trailing body ++ more, trailing⟩ := by
  obtain ⟨t, ts, rfl⟩ := List.exists_cons_of_ne_nil h
  obtain ⟨_ | ⟨v, us⟩, gap⟩ := u <;> simp [append_def, putGap, withGap]

theorem TokenStream.ofText_append {a : String} {s : TokenStream} (h : ofText a = .ok s)
    (hsealed : Sealed s.tokens) (b : String) :
    ofText (a ++ b) = ((ofText b).mapError (·.shift a.utf8ByteSize)).map (s ++ ·) := by
  obtain ⟨rfl, htiles⟩ := ofText_eq_ok_iff.mp h
  rw [ofText, String.toList_append, htiles.tokensFrom_append fun t ht _ => ?_,
    Scan.tokensFrom_shift]
  · rfl
  · rcases hsealed t ht with hk | hk <;> rw [hk] <;> trivial

/-! ## Reading -/

namespace Parser

variable {size : Nat} {gap : String} {s : State} {t : Token} {ts : List Token}

/-- The state with a gap read. -/
def State.past (gap : String) (s : State) : State :=
  { s with pending := s.pending ++ gap, offset := s.offset + gap.utf8ByteSize }

theorem readRule_putGap (hk : t.kind ≠ .rbrace) (size : Nat) (gap : String) (s : State)
    (ts : List Token) : readRule size s ({ t with gap := gap ++ t.gap } :: ts) =
      readRule size (s.past gap) (t :: ts) := by
  unfold readRule
  by_cases ht : endsPrelude t
  · have ht' : endsPrelude { t with gap := gap ++ t.gap } := ht
    simp [ht, ht', hk, State.past, totalSize, spanAt, Token.size, Nat.add_assoc]
  · have ht' : ¬endsPrelude { t with gap := gap ++ t.gap } := ht
    simp only [List.takeWhile_cons, List.dropWhile_cons, ht, ht']
    cases ts.dropWhile fun t => !endsPrelude t with
    | nil => rfl
    | cons u rest =>
      simp [State.past, totalSize, leadingGap, innerText, spanAt, Token.size, Nat.add_assoc,
        String.append_assoc]

/-- Where no block is open, it does not matter whether a gap is still to be read. -/
theorem step_putGap (hf : s.frames = []) (size : Nat) (gap : String) (t : Token)
    (ts : List Token) : step size s { t with gap := gap ++ t.gap } ts =
      step size (s.past gap) t ts := by
  unfold step
  dsimp only
  by_cases hsemicolon : t.kind = .semicolon
  · rw [if_pos hsemicolon, if_pos hsemicolon]
    simp [State.past, skip, text, Token.size, String.append_assoc, Nat.add_assoc]
  rw [if_neg hsemicolon, if_neg hsemicolon]
  by_cases hclose : t.kind = .rbrace
  · rw [if_pos hclose, if_pos hclose]
    simp [State.past, closeBlock, hf, spanAt, Token.size, Except.map, Nat.add_assoc]
  rw [if_neg hclose, if_neg hclose]
  have hread := readRule_putGap hclose size gap s ts
  simp only [State.past, hf] at hread ⊢
  exact hread

theorem run_putGap (hf : s.frames = []) (u : TokenStream) :
    run size (u.putGap gap).trailing s (u.putGap gap).tokens =
      run size u.trailing (s.past gap) u.tokens := by
  obtain ⟨_ | ⟨t, ts⟩, trailing⟩ := u
  · simp [State.past, TokenStream.putGap, run, finish, hf, String.append_assoc]
  · have hstep := step_putGap hf size gap t ts
    rw [TokenStream.putGap]
    cases h : step size (s.past gap) t ts with
    | error e => rw [run_of_error h, run_of_error (hstep.trans h)]
    | ok x => rw [run_of_step h, run_of_step (hstep.trans h)]

end Parser

namespace SheetLayout

variable {l m : SheetLayout}

def rear (l : SheetLayout) : TokenStream :=
  ⟨l.strays, l.trailing⟩

theorem Valid.sealed (h : l.Valid) : Sealed l.tokens :=
  (sealed_ruleTokens h.rules).append h.strays.sealed

theorem Valid.ofTokens_append (h : l.Valid) (u : TokenStream) :
    Stylesheet.ofTokens (l.stream ++ u) = Parser.run (l.stream.size + u.size) u.trailing
      { rules := l.tree.rules.toArray, pending := l.tree.trailing, offset := l.stream.size }
      u.tokens := by
  rw [Stylesheet.ofTokens, TokenStream.size_append, TokenStream.append_def]
  dsimp only
  rw [stream, tokens, List.append_assoc, run_rules h.rules _ _ rfl rfl, Parser.run_strays h.strays,
    Parser.run_putGap rfl]
  simp [Parser.State.past, Parser.State.skipAll, tree, TokenStream.size, TokenStream.text,
    textOf_append, utf8ByteSize_textOf, Nat.add_assoc]

end SheetLayout

namespace RuleLayout

variable {r : RuleLayout} {s : TokenStream}

theorem totalSize_tokens_withLead (h : r.Valid) (hs : Strays s.tokens) :
    totalSize (r.withLead s).tokens = s.size + totalSize r.bodyTokens := by
  rw [tokens_withLead h hs, ← utf8ByteSize_textOf, textOf_append, r.textOf_withGap_bodyTokens,
    ← String.append_assoc, String.utf8ByteSize_append, utf8ByteSize_textOf]
  rfl

theorem totalSize_tokens (h : r.Valid) :
    totalSize r.tokens = r.lead.size + totalSize r.bodyTokens := by
  rw [← totalSize_tokens_withLead h h.strays, withLead_lead]

theorem before_tree (r : RuleLayout) (n : Nat) : (r.tree n).classify.before = r.lead.text := by
  rw [PlainRule.before_classify, header_tree]
  rfl

end RuleLayout

theorem ruleTrees_append (as bs : List RuleLayout) (offset : Nat) : ruleTrees offset (as ++ bs) =
    ruleTrees offset as ++ ruleTrees (offset + totalSize (ruleTokens as)) bs := by
  induction as generalizing offset with
  | nil => rfl
  | cons a as ih =>
    rw [List.cons_append, ruleTrees, ruleTrees, ih, ruleTokens_cons, totalSize_append,
      Nat.add_assoc, List.cons_append]

namespace SheetLayout

variable {l m : SheetLayout}

/-- The second layout behind the first. What trails the first goes in front of the second. -/
def append (l m : SheetLayout) : SheetLayout :=
  match m.rules with
  | [] => ⟨l.rules, (l.rear ++ m.rear).tokens, (l.rear ++ m.rear).trailing⟩
  | r :: rs => { m with rules := l.rules ++ r.withLead (l.rear ++ r.lead) :: rs }

theorem Valid.append (hl : l.Valid) (hm : m.Valid) : (l.append m).Valid := by
  unfold SheetLayout.append
  cases hrules : m.rules with
  | nil => exact ⟨hl.rules, hl.strays.concat hm.strays⟩
  | cons r rs =>
    have hr := hm.rules
    simp only [hrules, List.mem_cons, forall_eq_or_imp] at hr
    refine ⟨fun q hq => ?_, hm.strays⟩
    rcases List.mem_append.mp hq with hq | hq
    · exact hl.rules q hq
    · rcases List.mem_cons.mp hq with rfl | hq
      · exact hr.1.withLead (hl.strays.concat hr.1.strays)
      · exact hr.2 q hq

theorem rear_text (l : SheetLayout) : l.rear.text = l.tree.trailing := rfl

theorem stream_append_eq (l : SheetLayout) (u : TokenStream) :
    l.stream ++ u = ⟨ruleTokens l.rules ++ (l.rear ++ u).tokens, (l.rear ++ u).trailing⟩ := by
  simp [TokenStream.append_def, stream, tokens, rear]

theorem stream_append (hl : l.Valid) (hm : m.Valid) :
    (l.append m).stream = l.stream ++ m.stream := by
  rw [stream_append_eq]
  unfold SheetLayout.append
  cases hrules : m.rules with
  | nil =>
    rw [show m.stream = m.rear by rw [stream, tokens, hrules]; rfl]
    rfl
  | cons r rs =>
    have hr : r.Valid := hm.rules r (by simp [hrules])
    have hstream : m.stream = ⟨r.lead.tokens ++ withGap r.lead.trailing r.bodyTokens ++
        (ruleTokens rs ++ m.strays), m.trailing⟩ := by
      rw [stream, tokens, hrules, ruleTokens_cons, RuleLayout.tokens_eq_lead hr, List.append_assoc]
    -- What stands behind the last rule of the first goes in front of the body of `r`.
    have hbody := TokenStream.append_withGap l.rear r.lead r.bodyTokens_ne_nil
      (ruleTokens rs ++ m.strays) m.trailing
    rw [hstream, hbody, stream, tokens, ruleTokens, List.flatMap_append, ← ruleTokens, ← ruleTokens,
      ruleTokens_cons, RuleLayout.tokens_withLead hr (.concat hl.strays hr.strays)]
    simp only [List.append_assoc]

theorem tree_append (hl : l.Valid) (hm : m.Valid) :
    (l.append m).tree = l.tree ++ m.tree.shift l.stream.size := by
  have hshift : m.tree.shift l.stream.size = ⟨ruleTrees l.stream.size m.rules, m.rear.text⟩ := by
    have h := ruleTrees_shift m.rules 0 l.stream.size
    rw [Nat.zero_add] at h
    rw [tree, Stylesheet.shift, ← h]
    rfl
  have hsize : l.stream.size = totalSize (ruleTokens l.rules) + l.rear.size := by
    simp only [TokenStream.size_eq, stream, tokens, rear, totalSize_append, Nat.add_assoc]
  rw [hshift, Stylesheet.append_def, ← rear_text]
  unfold SheetLayout.append
  cases hrules : m.rules with
  | nil =>
    rw [Stylesheet.lead, ruleTrees, ← TokenStream.text_append, List.append_nil]
    rfl
  | cons r rs =>
    have hr : r.Valid := hm.rules r (by simp [hrules])
    have hstrays : Strays (l.rear ++ r.lead).tokens := .concat hl.strays hr.strays
    have htree := RuleLayout.tree_withLead hr (s := l.rear ++ r.lead)
      (m := totalSize (ruleTokens l.rules)) (n := l.stream.size)
      (by rw [TokenStream.size_append, hsize, Nat.add_assoc])
    have hstop : totalSize (ruleTokens l.rules) +
        totalSize (r.withLead (l.rear ++ r.lead)).tokens = l.stream.size + totalSize r.tokens := by
      rw [RuleLayout.totalSize_tokens_withLead hr hstrays, RuleLayout.totalSize_tokens hr,
        TokenStream.size_append, hsize]
      omega
    rw [Stylesheet.lead]
    simp only [tree, ruleTrees_append, ruleTrees, Nat.zero_add, hstop, htree,
      PlainRule.classify_setBefore, RuleLayout.before_tree, TokenStream.text_append]
    rfl

end SheetLayout

/-! ## Parsing -/

namespace Stylesheet

variable {a b : String} {sheet behind : Stylesheet}

theorem parse_append_of_ok (ha : parse a = .ok sheet) (hb : parse b = .ok behind) :
    parse (a ++ b) = .ok (sheet ++ behind.shift a.utf8ByteSize) := by
  obtain ⟨l, hl, htiles, rfl, rfl⟩ := parse_eq_ok_iff.mp ha
  obtain ⟨m, hm, htiles', rfl, rfl⟩ := parse_eq_ok_iff.mp hb
  refine parse_eq_ok_iff.mpr
    ⟨l.append m, hl.append hm, ?_, ?_, SheetLayout.tree_append hl hm⟩
  · rw [SheetLayout.stream_append hl hm]
    exact .concat hl.sealed htiles htiles'
  · rw [SheetLayout.stream_append hl hm, TokenStream.text_append]

theorem parse_append_of_error {e : SyntaxError} (ha : parse a = .ok sheet)
    (hb : parse b = .error e) : parse (a ++ b) = .error (e.shift a.utf8ByteSize) := by
  obtain ⟨l, hl, htiles, rfl, rfl⟩ := parse_eq_ok_iff.mp ha
  have hscan := TokenStream.ofText_append (TokenStream.ofText_eq_ok_iff.mpr ⟨rfl, htiles⟩)
    hl.sealed b
  rw [parse, hscan]
  cases hu : TokenStream.ofText b with
  | error e' =>
    simp only [parse, hu, Except.bind, Except.error.injEq] at hb
    subst hb
    rfl
  | ok u =>
    simp only [parse, hu, Except.bind, ofTokens] at hb
    simp only [Except.mapError, Except.map, Except.bind]
    rw [hl.ofTokens_append, Nat.add_comm]
    exact Parser.State.Alike.run ⟨by simp [TokenStream.size], rfl⟩ hb

/-- A text behind one that is read as a sheet is read as by itself, only further on: it fails where
and how it fails by itself, and otherwise its rules follow those of the sheet. -/
theorem parse_append (h : parse a = .ok sheet) :
    parse (a ++ b) = match parse b with
      | .error e => .error (e.shift a.utf8ByteSize)
      | .ok behind => .ok (sheet ++ behind.shift a.utf8ByteSize) := by
  cases hb : parse b with
  | error e => exact parse_append_of_error h hb
  | ok behind => exact parse_append_of_ok h hb

theorem parse_append_comment :
    let a := ".a\x7b\x7d ; /* ü */"
    ∃ sheet behind, parse a = .ok sheet ∧ parse "/* b */ .c\x7bd:e\x7d" = .ok behind ∧
      parse (a ++ "/* b */ .c\x7bd:e\x7d") = .ok (sheet ++ behind.shift 15) := by
  intro a
  have ha : parse a = .ok ((parse a).toOption.get (by decide +kernel)) :=
    toOption_parse_eq_some_iff.mp (Option.some_get _).symm
  have hb : parse "/* b */ .c\x7bd:e\x7d" =
      .ok ((parse "/* b */ .c\x7bd:e\x7d").toOption.get (by decide +kernel)) :=
    toOption_parse_eq_some_iff.mp (Option.some_get _).symm
  have happ := parse_append (b := "/* b */ .c\x7bd:e\x7d") ha
  rw [hb] at happ
  exact ⟨_, _, ha, hb, happ⟩

/-! ## Many texts -/

theorem parse_empty : parse "" = .ok {} :=
  parse_eq_ok_iff.mpr ⟨⟨[], [], ""⟩, ⟨by simp, by simp [Strays]⟩,
    ⟨by simp [SheetLayout.stream, SheetLayout.tokens, ruleTokens], .nil, .nil⟩, rfl, rfl⟩

theorem map_bare_append (s u : Stylesheet) :
    (s ++ u).rules.map Rule.bare = s.rules.map Rule.bare ++ u.rules.map Rule.bare := by
  obtain ⟨_ | ⟨r, rs⟩, trailing⟩ := u <;> simp [append_def, lead, Rule.bare_setBefore]

theorem map_bare_shift (n : Nat) (s : Stylesheet) :
    (s.shift n).rules.map Rule.bare = s.rules.map Rule.bare := by
  rw [shift, List.map_map]
  refine List.map_congr_left fun r _ => ?_
  rw [Function.comp, Rule.bare_eq, Rule.withoutSpans_shift, ← Rule.bare_eq]

theorem parse_join {texts : List String} {sheets : List Stylesheet}
    (h : List.Forall₂ (fun text sheet => parse text = .ok sheet) texts sheets) :
    ∃ sheet, parse (String.join texts) = .ok sheet ∧
      sheet.rules.map Rule.bare = sheets.flatMap fun s => s.rules.map Rule.bare := by
  induction h with
  | nil => exact ⟨{}, parse_empty, rfl⟩
  | @cons text sheet texts sheets htext _ ih =>
    obtain ⟨behind, hbehind, hrules⟩ := ih
    refine ⟨_, by rw [String.join_cons]; exact parse_append_of_ok htext hbehind, ?_⟩
    rw [map_bare_append, map_bare_shift, hrules, List.flatMap_cons]

end Stylesheet

end StyleBundle
