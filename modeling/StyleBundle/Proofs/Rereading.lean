import StyleBundle.Proofs.Bare
import StyleBundle.Proofs.Grammar

/-!
# Reading rules again

A text that is read as rules falls into the text of each rule and what stands in front: blanks,
comments and stray semicolons, which may be exchanged. So a rule that is read back by itself is read
back among others that are, and the other way round.
-/

namespace StyleBundle

open Token

/-! ## Seams -/

def withGap (gap : String) : List Token → List Token
  | [] => []
  | t :: ts => { t with gap } :: ts

@[simp]
theorem innerText_withGap (gap : String) (ts : List Token) :
    innerText (withGap gap ts) = innerText ts := by
  cases ts <;> rfl

theorem leadingGap_withGap {gap : String} {ts : List Token} (h : ts ≠ []) :
    leadingGap (withGap gap ts) = gap := by
  cases ts with
  | nil => exact absurd rfl h
  | cons => rfl

theorem withGap_withGap (gap gap' : String) (ts : List Token) :
    withGap gap (withGap gap' ts) = withGap gap ts := by
  cases ts <;> rfl

theorem withGap_ne_nil (gap : String) {ts : List Token} (h : ts ≠ []) : withGap gap ts ≠ [] := by
  cases ts with
  | nil => exact absurd rfl h
  | cons => exact List.cons_ne_nil _ _

theorem withGap_leadingGap (gap : String) (ts : List Token) :
    withGap (leadingGap ts) (withGap gap ts) = ts := by
  cases ts <;> rfl

theorem Strays.withGap {ts : List Token} (h : Strays ts) (gap : String) :
    Strays (StyleBundle.withGap gap ts) := by
  cases ts with
  | nil => exact h
  | cons t ts => simpa [Strays, StyleBundle.withGap] using h

/-- The last token, if there is one, does not run on into any other. -/
def Sealed (ts : List Token) : Prop :=
  ∀ t ∈ ts.getLast?, t.kind = .semicolon ∨ t.kind = .rbrace

theorem Sealed.withGap {ts : List Token} (h : Sealed ts) (gap : String) :
    Sealed (StyleBundle.withGap gap ts) := by
  match ts with
  | [] => exact h
  | [t] => simpa [Sealed, StyleBundle.withGap] using h
  | t :: u :: ts => simpa [Sealed, StyleBundle.withGap] using h

theorem Sealed.append {ts us : List Token} (ht : Sealed ts) (hu : Sealed us) :
    Sealed (ts ++ us) := by
  intro t h
  rw [List.getLast?_append] at h
  rcases Option.or_eq_some_iff.mp h with h | ⟨-, h⟩
  · exact hu t h
  · exact ht t h

theorem Token.apart_of_kind {t : Token} (h : t.kind = .semicolon ∨ t.kind = .rbrace) (u : Token) :
    t.Apart u := by
  intro _
  rcases h with h | h <;> rw [h] <;> trivial

theorem Strays.sealed {ts : List Token} (h : Strays ts) : Sealed ts :=
  fun t ht => .inl (h t (List.mem_of_mem_getLast? ht))

namespace TokenStream.Tiles

variable {ts us : List Token} {trailing gap : String}

theorem join (ht : Tiles ⟨ts, ""⟩) (hu : Tiles ⟨us, trailing⟩)
    (hseam : ∀ t ∈ ts.getLast?, ∀ u ∈ us.head?, t.Apart u) : Tiles ⟨ts ++ us, trailing⟩ where
  whole t h := (List.mem_append.mp h).elim (ht.whole t) (hu.whole t)
  apart := List.isChain_append.mpr ⟨ht.apart, hu.apart, hseam⟩
  trailing := hu.trailing

theorem append (hs : Sealed ts) (ht : Tiles ⟨ts, ""⟩) (hu : Tiles ⟨us, trailing⟩) :
    Tiles ⟨ts ++ us, trailing⟩ :=
  ht.join hu fun t h u _ => Token.apart_of_kind (hs t h) u

theorem left (h : Tiles ⟨ts ++ us, trailing⟩) : Tiles ⟨ts, ""⟩ where
  whole t ht := h.whole t (List.mem_append_left us ht)
  apart := (List.isChain_append.mp h.apart).1
  trailing := .nil

theorem right (h : Tiles ⟨ts ++ us, trailing⟩) : Tiles ⟨us, trailing⟩ where
  whole t ht := h.whole t (List.mem_append_right ts ht)
  apart := (List.isChain_append.mp h.apart).2.1
  trailing := h.trailing

theorem withGap (h : Tiles ⟨ts, trailing⟩) (hgap : Scan.Gap gap.toList) :
    Tiles ⟨StyleBundle.withGap gap ts, trailing⟩ := by
  cases ts with
  | nil => exact h
  | cons t ts =>
    refine ⟨fun u hu => ?_, ?_, h.trailing⟩
    · rcases List.mem_cons.mp hu with rfl | hu
      · exact ⟨hgap, (h.whole t List.mem_cons_self).lexeme⟩
      · exact h.whole u (List.mem_cons_of_mem t hu)
    · obtain ⟨hhead, htail⟩ := List.isChain_cons.mp h.apart
      exact List.isChain_cons.mpr ⟨hhead, htail⟩

theorem gap_leadingGap (h : Tiles ⟨ts, trailing⟩) : Scan.Gap (leadingGap ts).toList := by
  cases ts with
  | nil => exact .nil
  | cons t ts => exact (h.whole t List.mem_cons_self).gap

theorem putGap {s : TokenStream} (h : s.Tiles) (hgap : Scan.Gap gap.toList) :
    (s.putGap gap).Tiles := by
  obtain ⟨_ | ⟨t, ts⟩, trailing⟩ := s
  · exact ⟨h.whole, h.apart, by simpa [TokenStream.putGap] using hgap.append h.trailing⟩
  · exact h.withGap (by simpa using hgap.append (h.whole t List.mem_cons_self).gap)

theorem concat {s u : TokenStream} (hsealed : Sealed s.tokens) (hs : s.Tiles) (hu : u.Tiles) :
    (s ++ u).Tiles :=
  .append hsealed ⟨hs.whole, hs.apart, .nil⟩ (hu.putGap hs.trailing)

end TokenStream.Tiles

/-- Whole tokens are scanned by themselves as they are among others, without the gap in front. -/
theorem ofText_innerText {ts : List Token} (h : TokenStream.Tiles ⟨ts, ""⟩) :
    TokenStream.ofText (innerText ts) = .ok ⟨withGap "" ts, ""⟩ := by
  have htext : TokenStream.text ⟨withGap "" ts, ""⟩ = innerText ts := by
    cases ts <;> simp [TokenStream.text, withGap, textOf, Token.text, innerText]
  exact TokenStream.ofText_eq_ok_iff.mpr ⟨htext, h.withGap .nil⟩

/-! ## What stands in front -/

/-- The text is blanks, comments and stray semicolons. -/
def IsLead (text : String) : Prop :=
  ∃ s : TokenStream, s.Tiles ∧ Strays s.tokens ∧ s.text = text

theorem isLead_empty : IsLead "" :=
  ⟨⟨[], ""⟩, ⟨by simp, .nil, .nil⟩, by simp [Strays], rfl⟩

theorem textOf_withGap {gap : String} {ts : List Token} (h : ts ≠ []) :
    textOf (withGap gap ts) = gap ++ innerText ts := by
  rw [← leadingGap_append_innerText, leadingGap_withGap h, innerText_withGap]

theorem Strays.concat {s u : TokenStream} (hs : Strays s.tokens) (hu : Strays u.tokens) :
    Strays (s ++ u).tokens := by
  intro t ht
  refine (List.mem_append.mp ht).elim (hs t) fun ht => ?_
  obtain ⟨_ | ⟨v, us⟩, trailing⟩ := u
  · cases ht
  · exact hu.withGap (s.trailing ++ v.gap) t ht

theorem totalSize_withGap (gap : String) {ts : List Token} (h : ts ≠ []) :
    totalSize (withGap gap ts) + (leadingGap ts).utf8ByteSize =
      totalSize ts + gap.utf8ByteSize := by
  obtain ⟨t, ts, rfl⟩ := List.exists_cons_of_ne_nil h
  simp only [withGap, totalSize, leadingGap, Token.size]
  omega

theorem IsLead.append {a b : String} (ha : IsLead a) (hb : IsLead b) : IsLead (a ++ b) := by
  obtain ⟨s, hs, hss, rfl⟩ := ha
  obtain ⟨u, hu, hsu, rfl⟩ := hb
  exact ⟨s ++ u, .concat hss.sealed hs hu, hss.concat hsu, s.text_append u⟩

/-! ## Rules without what stands in front -/

/-- The head with other stray semicolons and another gap in front. -/
def HeadLayout.withLead (s : TokenStream) (h : HeadLayout) : HeadLayout :=
  { h with strays := s.tokens, prelude := withGap s.trailing h.prelude }

theorem HeadLayout.Valid.withLead {h : HeadLayout} {kind : TokenKind} (hv : h.Valid kind)
    {s : TokenStream} (hs : Strays s.tokens) : (h.withLead s).Valid kind := by
  obtain ⟨t, ts, hcons⟩ := List.exists_cons_of_ne_nil hv.prelude_ne
  refine ⟨hs, ?_, ?_, hv.stop⟩
  · simp [HeadLayout.withLead, hcons, withGap]
  · rw [HeadLayout.withLead, hcons]
    intro u hu
    rcases List.mem_cons.mp hu with rfl | hu
    · exact hv.prelude t (by simp [hcons])
    · exact hv.prelude u (by simp [hcons, hu])

namespace RuleLayout

def withLead (s : TokenStream) : RuleLayout → RuleLayout
  | .statement h => .statement (h.withLead s)
  | .block h items strays close => .block (h.withLead s) items strays close

/-- What stands in front of the first lexeme. -/
def lead (r : RuleLayout) : TokenStream :=
  ⟨r.head.strays, leadingGap r.head.prelude⟩

/-- The tokens from the first lexeme on. -/
def bodyTokens (r : RuleLayout) : List Token :=
  withGap "" (r.head.core ++ r.rest)

variable {r : RuleLayout} {s : TokenStream}

theorem Valid.head (h : r.Valid) : ∃ kind, r.head.Valid kind := by
  cases r with
  | statement => exact ⟨_, h.1⟩
  | block => exact ⟨_, h.1⟩

theorem Valid.prelude_ne (h : r.Valid) : r.head.prelude ≠ [] :=
  h.head.elim fun _ hv => hv.prelude_ne

theorem Valid.strays (h : r.Valid) : Strays r.head.strays :=
  h.head.elim fun _ hv => hv.strays

theorem Valid.withLead (h : r.Valid) (hs : Strays s.tokens) : (r.withLead s).Valid := by
  cases r with
  | statement head =>
    refine ⟨h.1.withLead hs, ?_⟩
    rw [HeadLayout.withLead, innerText_withGap]
    exact h.2
  | block => exact ⟨h.1.withLead hs, h.2⟩

theorem Valid.exists_last (h : r.Valid) : ∃ ts t, r.head.core ++ r.rest = ts ++ [t] ∧
    (t.kind = .semicolon ∨ t.kind = .rbrace) := by
  cases r with
  | statement head =>
    exact ⟨head.prelude, head.stop, by simp [RuleLayout.head, rest, HeadLayout.core], .inl h.1.stop⟩
  | block head items strays close =>
    exact ⟨head.core ++ itemTokens items ++ strays, close, by simp [RuleLayout.head, rest],
      .inr h.2.2.2⟩

theorem core_ne_nil (r : RuleLayout) : r.head.core ++ r.rest ≠ [] := by
  simp [HeadLayout.core]

theorem Valid.sealed (h : r.Valid) : Sealed r.bodyTokens := by
  obtain ⟨ts, t, hts, hk⟩ := h.exists_last
  rw [bodyTokens, hts]
  refine Sealed.withGap (fun u hu => ?_) ""
  rw [List.getLast?_concat] at hu
  cases hu
  exact hk

theorem tokens_eq_lead (h : r.Valid) :
    r.tokens = r.lead.tokens ++ withGap r.lead.trailing r.bodyTokens := by
  have hgap : leadingGap r.head.prelude = leadingGap (r.head.core ++ r.rest) := by
    rw [HeadLayout.core, List.append_assoc, leadingGap_append h.prelude_ne]
  rw [tokens_eq, bodyTokens, lead, hgap, withGap_leadingGap, List.append_assoc]

theorem Valid.sealed_tokens (h : r.Valid) : Sealed r.tokens := by
  rw [tokens_eq_lead h]
  exact h.strays.sealed.append (h.sealed.withGap _)

@[simp]
theorem head_withLead (r : RuleLayout) (s : TokenStream) :
    (r.withLead s).head = r.head.withLead s := by
  cases r <;> rfl

@[simp]
theorem rest_withLead (r : RuleLayout) (s : TokenStream) : (r.withLead s).rest = r.rest := by
  cases r <;> rfl

theorem lead_withLead (h : r.Valid) (s : TokenStream) : (r.withLead s).lead = s := by
  rw [lead, head_withLead, HeadLayout.withLead, leadingGap_withGap h.prelude_ne]

theorem bodyTokens_withLead (h : r.Valid) (s : TokenStream) :
    (r.withLead s).bodyTokens = r.bodyTokens := by
  obtain ⟨t, ts, hcons⟩ := List.exists_cons_of_ne_nil h.prelude_ne
  simp [bodyTokens, HeadLayout.withLead, HeadLayout.core, hcons, withGap]

theorem tokens_withLead (h : r.Valid) (hs : Strays s.tokens) :
    (r.withLead s).tokens = s.tokens ++ withGap s.trailing r.bodyTokens := by
  rw [tokens_eq_lead (h.withLead hs), lead_withLead h, bodyTokens_withLead h]

theorem Valid.tiles_withLead (h : r.Valid) (hbody : TokenStream.Tiles ⟨r.bodyTokens, ""⟩)
    (hs : s.Tiles) (hstrays : Strays s.tokens) :
    TokenStream.Tiles ⟨(r.withLead s).tokens, ""⟩ := by
  rw [tokens_withLead h hstrays]
  exact .append hstrays.sealed ⟨hs.whole, hs.apart, .nil⟩ (hbody.withGap hs.trailing)

/-- Neither the place of a rule nor what stands in front of it shows in the bare rule. -/
theorem bare_tree_withLead (r : RuleLayout) (s : TokenStream) (m n : Nat) :
    ((r.withLead s).tree m).bare = (r.tree n).bare := by
  have hprelude := innerText_withGap s.trailing r.head.prelude
  cases r with
  | statement h => exact congrArg (fun p => PlainRule.statement ⟨"", p, h.stop.gap⟩ .none) hprelude
  | block h items strays close =>
    have hitems := itemsWithoutSpans_itemTrees items ((h.withLead s).stopsAt m) (h.stopsAt n)
    exact congrArg₂
      (fun p is => PlainRule.block ⟨"", p, h.stop.gap⟩ is (textOf strays ++ close.gap) .none)
      hprelude hitems

theorem tree_withLead (h : r.Valid) {m n : Nat} (hmn : m + s.size = n + r.lead.size) :
    (r.withLead s).tree m = (r.tree n).setBefore s.text := by
  have hhead : (r.head.withLead s).header = { r.head.header with before := s.text } := by
    simp [HeadLayout.header, HeadLayout.withLead, leadingGap_withGap h.prelude_ne,
      TokenStream.text]
  have hprelude := totalSize_withGap s.trailing h.prelude_ne
  simp only [TokenStream.size_eq, lead] at hmn
  have hstart : (r.head.withLead s).start m = r.head.start n := by
    simp only [HeadLayout.start, HeadLayout.withLead, leadingGap_withGap h.prelude_ne]
    omega
  have hstop : (r.head.withLead s).stopsAt m = r.head.stopsAt n := by
    simp only [HeadLayout.stopsAt, HeadLayout.withLead, HeadLayout.core, totalSize_append]
    omega
  cases r with
  | statement head =>
    simp only [RuleLayout.head] at hhead hstart hstop
    simp only [withLead, tree, hhead, hstart, hstop]
    rfl
  | block head items strays close =>
    simp only [RuleLayout.head] at hhead hstart hstop
    simp only [withLead, tree, hhead, hstart, hstop]
    rfl

theorem withLead_lead (r : RuleLayout) : r.withLead r.lead = r := by
  have hprelude : ∀ ts, withGap (leadingGap ts) ts = ts := fun ts => by cases ts <;> rfl
  cases r <;> simp [withLead, lead, head, HeadLayout.withLead, hprelude]

theorem bare_tree (r : RuleLayout) (m n : Nat) : (r.tree m).bare = (r.tree n).bare := by
  rw [← r.bare_tree_withLead r.lead m n, withLead_lead]

theorem bodyTokens_ne_nil (r : RuleLayout) : r.bodyTokens ≠ [] :=
  withGap_ne_nil "" r.core_ne_nil

end RuleLayout

theorem sealed_ruleTokens {rs : List RuleLayout} (h : ∀ r ∈ rs, r.Valid) :
    Sealed (ruleTokens rs) := by
  induction rs with
  | nil => simp [ruleTokens, Sealed]
  | cons r rs ih =>
    simp only [List.mem_cons, forall_eq_or_imp] at h
    rw [ruleTokens_cons]
    exact h.1.sealed_tokens.append (ih h.2)

/-! ## Texts that are read as rules -/

/-- The text is read as the given plain rules, up to spans and the text in front of each. -/
def ReadsAs (text : String) (rules : List PlainRule) : Prop :=
  ∃ sheet, Stylesheet.parse text = .ok sheet ∧
    sheet.rules.map Rule.bare = rules.map fun r => .plain r.bare

def PlainRule.ReadsBack (r : PlainRule) : Prop :=
  ReadsAs r.body [r]

/-- The layout is that of the rule, up to what stands in front. -/
structure RuleLayout.Spells (l : RuleLayout) (r : PlainRule) : Prop where
  valid : l.Valid
  tiles : TokenStream.Tiles ⟨l.bodyTokens, ""⟩
  bare : (l.tree 0).bare = r.bare
  plain : r.directive? = none

/-- The text is that of the rules, with blanks, comments and stray semicolons around them. -/
inductive Spells : String → List PlainRule → Prop
  | nil {text : String} : IsLead text → Spells text []
  | cons {lead text : String} {l : RuleLayout} {r : PlainRule} {rs : List PlainRule} :
      IsLead lead → l.Spells r → Spells text rs →
      Spells (lead ++ textOf l.bodyTokens ++ text) (r :: rs)

theorem RuleLayout.Spells.classify {l : RuleLayout} {r : PlainRule} (h : l.Spells r)
    (s : TokenStream) (n : Nat) : (((l.withLead s).tree n).classify).bare = .plain r.bare := by
  have hbare : ((l.withLead s).tree n).bare = r.bare :=
    (l.bare_tree_withLead s n 0).trans h.bare
  have hplain : ((l.withLead s).tree n).directive? = none := by
    rw [← PlainRule.directive?_bare, hbare, PlainRule.directive?_bare, h.plain]
  rw [PlainRule.classify_eq_plain_iff.mpr hplain, Rule.bare, hbare]

theorem RuleLayout.textOf_withGap_bodyTokens (l : RuleLayout) (gap : String) :
    textOf (withGap gap l.bodyTokens) = gap ++ textOf l.bodyTokens := by
  rw [bodyTokens, withGap_withGap, textOf_withGap l.core_ne_nil, textOf_withGap l.core_ne_nil,
    String.empty_append]

theorem Spells.exists_layout {text : String} {rs : List PlainRule} (h : Spells text rs) :
    ∃ l : SheetLayout, l.Valid ∧ l.stream.Tiles ∧ l.stream.text = text ∧
      ∀ n, (ruleTrees n l.rules).map Rule.bare = rs.map fun r => .plain r.bare := by
  induction h with
  | nil hlead =>
    obtain ⟨s, hs, hstrays, rfl⟩ := hlead
    exact ⟨⟨[], s.tokens, s.trailing⟩, ⟨by simp, hstrays⟩, hs, rfl, fun _ => rfl⟩
  | @cons lead text l r rs hlead hl _ ih =>
    obtain ⟨s, hs, hstrays, rfl⟩ := hlead
    obtain ⟨sheet, hsheet, htiles, rfl, hrules⟩ := ih
    let sheet' : SheetLayout := { sheet with rules := l.withLead s :: sheet.rules }
    have hvalid := hl.valid.withLead hstrays
    have htokens : sheet'.tokens = (l.withLead s).tokens ++ sheet.tokens := by
      rw [SheetLayout.tokens, ruleTokens_cons, List.append_assoc]
      rfl
    refine ⟨sheet', ⟨?_, hsheet.strays⟩, ?_, ?_, fun n => ?_⟩
    · simpa [sheet'] using ⟨hvalid, hsheet.rules⟩
    · rw [SheetLayout.stream, htokens]
      exact .append hvalid.sealed_tokens (hl.valid.tiles_withLead hl.tiles hs hstrays) htiles
    · rw [SheetLayout.stream, TokenStream.text, htokens, textOf_append,
        RuleLayout.tokens_withLead hl.valid hstrays, textOf_append, l.textOf_withGap_bodyTokens]
      simp [sheet', TokenStream.text, SheetLayout.stream, String.append_assoc]
    · simp [sheet', ruleTrees, hl.classify, hrules]

theorem TokenStream.Tiles.of_mem_rules {layout : SheetLayout} (h : layout.stream.Tiles)
    {l : RuleLayout} (hl : l ∈ layout.rules) : TokenStream.Tiles ⟨l.tokens, ""⟩ := by
  obtain ⟨as, bs, hsplit⟩ := List.append_of_mem hl
  have htokens : layout.tokens =
      ruleTokens as ++ (l.tokens ++ (ruleTokens bs ++ layout.strays)) := by
    simp [SheetLayout.tokens, hsplit, ruleTokens]
  rw [SheetLayout.stream, htokens] at h
  exact h.right.left

theorem RuleLayout.Valid.tiles {l : RuleLayout} (hl : l.Valid)
    (htokens : TokenStream.Tiles ⟨l.tokens, ""⟩) :
    l.lead.Tiles ∧ TokenStream.Tiles ⟨l.bodyTokens, ""⟩ := by
  rw [tokens_eq_lead hl] at htokens
  have hgap := htokens.right.gap_leadingGap
  rw [leadingGap_withGap l.bodyTokens_ne_nil] at hgap
  have hbody : TokenStream.Tiles
      ⟨StyleBundle.withGap "" (StyleBundle.withGap l.lead.trailing l.bodyTokens), ""⟩ :=
    htokens.right.withGap .nil
  rw [withGap_withGap, bodyTokens, withGap_withGap] at hbody
  exact ⟨⟨htokens.left.whole, htokens.left.apart, hgap⟩, hbody⟩

theorem spells_of_layout {ls : List RuleLayout} {strays : List Token} {trailing : String} {n : Nat}
    {rs : List PlainRule} (hls : ∀ l ∈ ls, l.Valid) (hstrays : Strays strays)
    (htiles : TokenStream.Tiles ⟨ruleTokens ls ++ strays, trailing⟩)
    (hrs : (ruleTrees n ls).map Rule.bare = rs.map fun r => .plain r.bare) :
    Spells (TokenStream.text ⟨ruleTokens ls ++ strays, trailing⟩) rs := by
  induction ls generalizing n rs with
  | nil =>
    cases rs with
    | nil => exact .nil ⟨_, htiles, hstrays, rfl⟩
    | cons => cases hrs
  | cons l ls ih =>
    cases rs with
    | nil => cases hrs
    | cons r rs =>
      have hl := hls l List.mem_cons_self
      simp only [ruleTrees, List.map_cons, List.cons.injEq] at hrs
      obtain ⟨hplain, hbare⟩ := PlainRule.classify_of_bare hrs.1
      have htokens : ruleTokens (l :: ls) ++ strays = l.tokens ++ (ruleTokens ls ++ strays) := by
        simp [ruleTokens]
      rw [htokens] at htiles ⊢
      obtain ⟨hlead, hbody⟩ := hl.tiles htiles.left
      have hspells : l.Spells r := ⟨hl, hbody, (l.bare_tree 0 n).trans hbare, by
        rw [← PlainRule.directive?_bare, ← hbare, PlainRule.directive?_bare,
          PlainRule.classify_eq_plain_iff.mp hplain]⟩
      have hrest := ih (fun l' hl' => hls l' (List.mem_cons_of_mem l hl')) htiles.right hrs.2
      have hwhole := Spells.cons ⟨l.lead, hlead, hl.strays, rfl⟩ hspells hrest
      rw [TokenStream.text, textOf_append, RuleLayout.tokens_eq_lead hl, textOf_append,
        l.textOf_withGap_bodyTokens]
      simpa [TokenStream.text, String.append_assoc] using hwhole

theorem readsAs_iff_spells {text : String} {rs : List PlainRule} :
    ReadsAs text rs ↔ Spells text rs := by
  constructor
  · rintro ⟨sheet, hparse, hrs⟩
    obtain ⟨l, hl, htiles, rfl, rfl⟩ := Stylesheet.parse_eq_ok_iff.mp hparse
    exact spells_of_layout hl.rules hl.strays htiles hrs
  · intro h
    obtain ⟨l, hl, htiles, htext, hrs⟩ := h.exists_layout
    exact ⟨l.tree, Stylesheet.parse_eq_ok_iff.mpr ⟨l, hl, htiles, htext, rfl⟩, hrs 0⟩

theorem RuleLayout.Spells.textOf_bodyTokens {l : RuleLayout} {r : PlainRule} (h : l.Spells r) :
    textOf l.bodyTokens = r.body := by
  let l' := l.withLead ⟨[], ""⟩
  have htokens : l'.tokens = l.bodyTokens := by
    rw [tokens_withLead h.valid (by simp [Strays]), bodyTokens, withGap_withGap, List.nil_append]
  let sheet : SheetLayout := ⟨[l'], [], ""⟩
  have hstream : sheet.stream = ⟨l.bodyTokens, ""⟩ := by
    simp [sheet, SheetLayout.stream, SheetLayout.tokens, ruleTokens, htokens]
  have hsheet : sheet.Valid :=
    ⟨by simpa [sheet] using h.valid.withLead (by simp [Strays]), by simp [sheet, Strays]⟩
  have hprint := Stylesheet.print_of_parse
    (Stylesheet.parse_eq_ok_iff.mpr ⟨sheet, hsheet, hstream ▸ h.tiles, rfl, rfl⟩)
  have hbefore : (l'.tree 0).header.before = "" := by
    rw [header_tree, head_withLead, HeadLayout.header, HeadLayout.withLead,
      leadingGap_withGap h.valid.prelude_ne]
    rfl
  have hbody : (l'.tree 0).body = r.body := by
    rw [← PlainRule.print_bare, bare_tree_withLead l _ 0 0, h.bare, PlainRule.print_bare]
  calc textOf l.bodyTokens
    _ = sheet.stream.text := by simp [hstream, TokenStream.text]
    _ = sheet.tree.print := hprint.symm
    _ = (l'.tree 0).print := by
      simp [SheetLayout.tree, sheet, ruleTrees, Stylesheet.print, textOf]
    _ = r.body := by rw [PlainRule.print_eq, hbefore, String.empty_append, ← hbody, PlainRule.body]

/-! ## Texts made of rules -/

theorem PlainRule.readsBack_iff {r : PlainRule} : r.ReadsBack ↔ ∃ l : RuleLayout, l.Spells r := by
  rw [ReadsBack, readsAs_iff_spells]
  constructor
  · intro h
    generalize r.body = text at h
    obtain _ | ⟨-, hl, -⟩ := h
    exact ⟨_, hl⟩
  · rintro ⟨l, hl⟩
    have h := Spells.cons isLead_empty hl (.nil isLead_empty)
    rwa [hl.textOf_bodyTokens, String.empty_append, String.append_empty] at h

theorem Spells.lead_append {lead text : String} {rs : List PlainRule} (hlead : IsLead lead)
    (h : Spells text rs) : Spells (lead ++ text) rs := by
  cases h with
  | nil htext => exact .nil (hlead.append htext)
  | cons hlead' hl h =>
    rw [← String.append_assoc, ← String.append_assoc]
    exact .cons (hlead.append hlead') hl h

theorem Spells.rule_append {r : PlainRule} {text : String} {rs : List PlainRule}
    (hr : r.ReadsBack) (h : Spells text rs) : Spells (r.body ++ text) (r :: rs) := by
  obtain ⟨l, hl⟩ := PlainRule.readsBack_iff.mp hr
  have h := Spells.cons isLead_empty hl h
  rwa [hl.textOf_bodyTokens, String.empty_append] at h

theorem Spells.readsBack {text : String} {rs : List PlainRule} (h : Spells text rs) :
    ∀ r ∈ rs, r.ReadsBack := by
  induction h with
  | nil => simp
  | cons _ hl _ ih => simpa using ⟨PlainRule.readsBack_iff.mpr ⟨_, hl⟩, ih⟩

theorem Spells.rules_append {rs : List PlainRule} (hbefore : ∀ r ∈ rs, IsLead r.header.before)
    (hback : ∀ r ∈ rs, r.ReadsBack) {text : String} {qs : List PlainRule} (h : Spells text qs) :
    Spells (String.join (rs.map PlainRule.print) ++ text) (rs ++ qs) := by
  induction rs with
  | nil => simpa using h
  | cons r rs ih =>
    simp only [List.mem_cons, forall_eq_or_imp] at hbefore hback
    have hrule := ((ih hbefore.2 hback.2).rule_append hback.1).lead_append hbefore.1
    rw [← String.append_assoc, PlainRule.body, ← PlainRule.print_eq] at hrule
    simpa [String.append_assoc] using hrule

/-! ## Sheets -/

def Rule.asPlain? : Rule → Option PlainRule
  | plain r => some r
  | _ => none

namespace Stylesheet

def plainRules (s : Stylesheet) : List PlainRule :=
  s.rules.filterMap Rule.asPlain?

theorem map_plainRules {s : Stylesheet} (h : ∀ r ∈ s.rules, r.isPlain) :
    s.plainRules.map Rule.plain = s.rules := by
  obtain ⟨rules, trailing⟩ := s
  unfold plainRules
  dsimp only at h ⊢
  induction rules with
  | nil => rfl
  | cons r rules ih =>
    simp only [List.mem_cons, forall_eq_or_imp] at h
    cases r with
    | plain r => simp [Rule.asPlain?, ih h.2]
    | imports => cases h.1
    | exports => cases h.1

/-- Around the rules stand blanks, comments and stray semicolons only. -/
structure Led (s : Stylesheet) : Prop where
  before : ∀ r ∈ s.rules, IsLead r.before
  trailing : IsLead s.trailing

theorem exists_layout_of_mem {text : String} {sheet : Stylesheet} (h : parse text = .ok sheet)
    {r : Rule} (hr : r ∈ sheet.rules) : ∃ (l : RuleLayout) (n : Nat), l.Valid ∧ l.lead.Tiles ∧
      TokenStream.Tiles ⟨l.bodyTokens, ""⟩ ∧ r = (l.tree n).classify := by
  obtain ⟨layout, hlayout, htiles, -, rfl⟩ := parse_eq_ok_iff.mp h
  rw [SheetLayout.tree, ruleTrees_eq_map] at hr
  obtain ⟨q, hq, rfl⟩ := List.mem_map.mp hr
  obtain ⟨l, hl, n, rfl⟩ := exists_of_mem_plainTrees hq
  have hvalid := hlayout.rules l hl
  obtain ⟨hlead, hbody⟩ := hvalid.tiles (htiles.of_mem_rules hl)
  exact ⟨l, n, hvalid, hlead, hbody, rfl⟩

theorem led_of_parse {text : String} {sheet : Stylesheet} (h : parse text = .ok sheet) :
    sheet.Led := by
  refine ⟨fun r hr => ?_, ?_⟩
  · obtain ⟨l, n, hl, hlead, -, rfl⟩ := exists_layout_of_mem h hr
    rw [PlainRule.before_classify, RuleLayout.header_tree]
    exact ⟨l.lead, hlead, hl.strays, rfl⟩
  · obtain ⟨layout, hlayout, htiles, -, rfl⟩ := parse_eq_ok_iff.mp h
    exact ⟨⟨layout.strays, layout.trailing⟩, htiles.right, hlayout.strays, rfl⟩

theorem exists_spells_of_mem {text : String} {sheet : Stylesheet} (h : parse text = .ok sheet)
    {r : PlainRule} (hr : .plain r ∈ sheet.rules) : ∃ l : RuleLayout, l.Spells r := by
  obtain ⟨l, n, hl, -, hbody, heq⟩ := exists_layout_of_mem h hr
  obtain ⟨hplain, hbare⟩ := PlainRule.classify_of_bare (p := r.bare) (by rw [← heq]; rfl)
  rw [hplain] at heq
  cases heq
  exact ⟨l, hl, hbody, l.bare_tree 0 n, PlainRule.classify_eq_plain_iff.mp hplain⟩

theorem Led.spells_append {s : Stylesheet} (hs : s.Led) (hplain : ∀ r ∈ s.rules, r.isPlain)
    (hback : ∀ r ∈ s.plainRules, r.ReadsBack) {text : String} {rs : List PlainRule}
    (h : Spells text rs) : Spells (s.print ++ text) (s.plainRules ++ rs) := by
  have hrules := map_plainRules hplain
  have hbefore : ∀ r ∈ s.plainRules, IsLead r.header.before := fun r hr =>
    hs.before (.plain r) (hrules ▸ List.mem_map_of_mem hr)
  have hprint : s.print = String.join (s.plainRules.map PlainRule.print) ++ s.trailing := by
    rw [print, ← hrules, List.map_map]
    rfl
  rw [hprint, String.append_assoc]
  exact (h.lead_append hs.trailing).rules_append hbefore hback

/-- Sheets of plain rules, printed one after the other, are read as their rules exactly when each
rule is read back by itself. -/
theorem readsAs_join_iff {sheets : List Stylesheet} (hled : ∀ s ∈ sheets, s.Led)
    (hplain : ∀ s ∈ sheets, ∀ r ∈ s.rules, r.isPlain) :
    ReadsAs (String.join (sheets.map print)) (sheets.flatMap plainRules) ↔
      ∀ s ∈ sheets, ∀ r ∈ s.plainRules, r.ReadsBack := by
  rw [readsAs_iff_spells]
  constructor
  · intro h s hs r hr
    exact h.readsBack r (List.mem_flatMap_of_mem hs hr)
  · intro h
    induction sheets with
    | nil => exact .nil isLead_empty
    | cons s sheets ih =>
      simp only [List.mem_cons, forall_eq_or_imp] at hled hplain h
      have hrest := hled.1.spells_append hplain.1 h.1 (ih hled.2 hplain.2 h.2)
      simpa using hrest

end Stylesheet

end StyleBundle
