import StyleBundle.Proofs.Bare
import StyleBundle.Proofs.Grammar

/-!
# Spans of nodes

A tree that was read is faithful to its text: the span of each node, at any depth, is where the
text of the node stands, the text in front of it stands right before its span, nodes of one block
follow each other, and they lie between the braces of the block. A directive keeps the text at its
span, and its bindings have the spans of the declarations that make them.
-/

namespace StyleBundle

open Token StyleBundle.Parser

/-! ## Faithful trees -/

/-- A text stands at the span, and what is in front of it right before the span. -/
structure Stands (text before body : String) (span : Span) : Prop where
  body : slice? text span.start span.stop = some body
  before : ∃ offset, slice? text offset span.start = some before

/-- Each span starts behind the start and not before the end of those in front of it. -/
def Ascending (spans : List Span) : Prop :=
  spans.Pairwise fun s u => s.start < u.start ∧ s.stop ≤ u.start

def Span.Within (outer inner : Span) : Prop :=
  outer.start ≤ inner.start ∧ inner.stop ≤ outer.stop

def Declaration.Faithful (text : String) (d : Declaration) : Prop :=
  Stands text d.before (d.property ++ d.between ++ d.value) d.span

def BodyItem.span : BodyItem → Span
  | .declaration d => d.span
  | .rule r => r.span

/-- What lies between the braces of a rule, and nothing behind a statement. -/
def PlainRule.inside : PlainRule → Span
  | .statement _ s => ⟨s.stop, s.stop⟩
  | .block h _ _ s =>
    ⟨s.start + (h.prelude ++ h.between ++ "\x7b").utf8ByteSize, s.stop - "\x7d".utf8ByteSize⟩

/-- A rule stands at its span and holds its items one behind the other. -/
structure PlainRule.Holds (text : String) (r : PlainRule) : Prop where
  stands : Stands text r.header.before r.body r.span
  ascending : Ascending (r.items.map BodyItem.span)
  within : ∀ i ∈ r.items, r.inside.Within i.span

mutual

def BodyItem.Faithful (text : String) : BodyItem → Prop
  | .declaration d => d.Faithful text
  | .rule r => r.Faithful text

def PlainRule.Faithful (text : String) : PlainRule → Prop
  | .statement h s => (PlainRule.statement h s).Holds text
  | .block h items after s =>
    (PlainRule.block h items after s).Holds text ∧ ItemsFaithful text items

def ItemsFaithful (text : String) : List BodyItem → Prop
  | [] => True
  | i :: is => i.Faithful text ∧ ItemsFaithful text is

end

/-- Each binding has its name and its value at the ends of its span, and the spans lie in a block
one behind the other. -/
structure BindingsStand (text : String) (block : Span) (bs : List Binding) : Prop where
  stands : ∀ b ∈ bs, ∃ between,
    slice? text b.span.start b.span.stop = some (b.name ++ between ++ b.value)
  ascending : Ascending (bs.map Binding.span)
  within : ∀ b ∈ bs, block.Within b.span

namespace Rule

def raw? : Rule → Option String
  | plain _ => none
  | imports d => d.raw
  | exports d => d.raw

def bindings : Rule → List Binding
  | plain _ => []
  | imports d => d.bindings
  | exports d => d.bindings

/-- A rule stands at its span, and a directive keeps the text that stands there. What was read as
the rule is faithful, and the bindings lie in its block. -/
structure Faithful (text : String) (rule : Rule) : Prop where
  stands : Stands text rule.before (rule.setBefore "").print rule.span
  raw : rule.isPlain = false → slice? text rule.span.start rule.span.stop = rule.raw?
  written : ∃ r : PlainRule, r.classify = rule ∧ r.span = rule.span ∧ r.Faithful text ∧
    BindingsStand text r.inside rule.bindings

end Rule

/-- All rules are faithful and stand one behind the other. -/
structure Stylesheet.Faithful (text : String) (s : Stylesheet) : Prop where
  rules : ∀ r ∈ s.rules, r.Faithful text
  ascending : Ascending (s.rules.map Rule.span)

/-! ## Printed layouts -/

namespace HeadLayout

variable {h : HeadLayout}

theorem print_header {kind : TokenKind} {lexeme : String} (hv : h.Valid kind)
    (hstop : h.stop.Proper) (hk : kind.lexeme? = some lexeme) :
    h.header.print ++ lexeme = textOf (h.strays ++ h.core) := by
  have htext := hstop.text_eq (hv.stop ▸ hk)
  simp only [Header.print, header, core, textOf_append, textOf, htext, String.append_empty,
    String.append_assoc, ← leadingGap_append_innerText h.prelude]

theorem start_eq (h : HeadLayout) (offset : Nat) :
    h.start offset = offset + h.header.before.utf8ByteSize := by
  rw [start, header, String.utf8ByteSize_append, utf8ByteSize_textOf, Nat.add_assoc]

end HeadLayout

theorem DeclarationLayout.print_tree (d : DeclarationLayout) (offset : Nat) :
    (d.tree offset).print = textOf (d.strays ++ d.core) := by
  simp only [Declaration.print, tree, core, textOf_append, textOf,
    ← leadingGap_append_innerText d.property, ← leadingGap_append_innerText d.value,
    String.append_assoc]

mutual

theorem ItemLayout.print_tree (i : ItemLayout) (offset : Nat) (hv : i.Valid)
    (hproper : ∀ t ∈ i.tokens, t.Proper) : (i.tree offset).print = textOf i.tokens :=
  match i with
  | .declaration d => d.print_tree offset
  | .rule r => r.print_tree offset hv hproper

theorem RuleLayout.print_tree (r : RuleLayout) (offset : Nat) (hv : r.Valid)
    (hproper : ∀ t ∈ r.tokens, t.Proper) : (r.tree offset).print = textOf r.tokens :=
  match r with
  | .statement h => by
    have hstop : h.stop.Proper := hproper _ (by simp [RuleLayout.tokens, HeadLayout.core])
    rw [RuleLayout.tree, PlainRule.print, HeadLayout.print_header hv.1 hstop rfl,
      RuleLayout.tokens]
  | .block h items strays close => by
    obtain ⟨hhead, hitems, -, hclose⟩ := hv
    have hstop : h.stop.Proper := hproper _ (by simp [RuleLayout.tokens, HeadLayout.core])
    have hbrace : close.text = close.gap ++ "\x7d" :=
      (hproper close (by simp [RuleLayout.tokens])).text_eq (by rw [hclose]; rfl)
    have hprint := printItems_itemTrees items (h.stopsAt offset) hitems
      fun t ht => hproper t (by simp [RuleLayout.tokens, ht])
    rw [RuleLayout.tree, PlainRule.print, HeadLayout.print_header hhead hstop rfl, hprint,
      RuleLayout.tokens]
    simp only [textOf_append, textOf, hbrace, String.append_empty, String.append_assoc]

theorem printItems_itemTrees (is : List ItemLayout) (offset : Nat) {tail : List Token}
    (hv : ItemsValid is tail) (hproper : ∀ t ∈ itemTokens is, t.Proper) :
    printItems (itemTrees offset is) = textOf (itemTokens is) :=
  match is with
  | [] => rfl
  | i :: is => by
    have hi := i.print_tree offset hv.1 fun t ht => hproper t (by simp [itemTokens, ht])
    have his := printItems_itemTrees is (offset + totalSize i.tokens) hv.2.2
      fun t ht => hproper t (by simp [itemTokens, ht])
    rw [itemTrees, printItems, hi, his, itemTokens, textOf_append]

end

/-! ## Where the nodes of a layout stand -/

variable {text a b before body : String} {span s : Span} {spans : List Span} {start m stop : Nat}
  {t : Token}

theorem stands_of_eq (htext : text = a ++ (before ++ body) ++ b)
    (hstart : span.start = a.utf8ByteSize + before.utf8ByteSize)
    (hstop : span.stop = span.start + body.utf8ByteSize) : Stands text before body span where
  body := by
    refine slice?_eq_some (a := a ++ before) (c := b) ?_ ?_ hstop
    · rw [htext]
      simp only [String.append_assoc]
    · rw [hstart, String.utf8ByteSize_append]
  before := by
    refine ⟨a.utf8ByteSize, slice?_eq_some (a := a) (c := body ++ b) ?_ rfl hstart⟩
    rw [htext]
    simp only [String.append_assoc]

/-- The spans ascend from the start to the stop. -/
structure Lined (start stop : Nat) (spans : List Span) : Prop where
  ascending : Ascending spans
  within : ∀ s ∈ spans, start ≤ s.start ∧ s.stop ≤ stop

theorem Lined.nil (start stop : Nat) : Lined start stop [] :=
  ⟨.nil, by simp⟩

theorem Lined.cons (h : Lined m stop spans) (hstart : start ≤ s.start) (hlt : s.start < s.stop)
    (hm : s.stop ≤ m) (hstop : m ≤ stop) : Lined start stop (s :: spans) := by
  refine ⟨List.pairwise_cons.mpr ⟨fun u hu => ?_, h.ascending⟩, ?_⟩
  · have := h.within u hu
    omega
  · rintro u (_ | ⟨_, hu⟩)
    · omega
    · have := h.within u hu
      omega

theorem Lined.mono (h : Lined start m spans) (hle : m ≤ stop) : Lined start stop spans :=
  ⟨h.ascending, fun s hs => ⟨(h.within s hs).1, Nat.le_trans (h.within s hs).2 hle⟩⟩

theorem Token.Proper.size_pos (h : t.Proper) (hk : t.kind.lexeme?.isSome) : 0 < t.size := by
  obtain ⟨lexeme, hlexeme⟩ := Option.isSome_iff_exists.mp hk
  have hpos : 0 < lexeme.utf8ByteSize := by
    cases hkind : t.kind <;> rw [hkind] at hlexeme <;> cases hlexeme <;> decide
  rw [size, h lexeme hlexeme]
  omega

namespace RuleLayout

variable {r : RuleLayout} {offset : Nat}

theorem span_tree (r : RuleLayout) (offset : Nat) :
    (r.tree offset).span = ⟨r.head.start offset, offset + totalSize r.tokens⟩ := by
  cases r with
  | statement h => rfl
  | block h items strays close =>
    simp [tree, PlainRule.span, head, tokens, HeadLayout.stopsAt, Nat.add_assoc]

theorem Valid.stop_size_pos (hv : r.Valid) (hproper : ∀ t ∈ r.tokens, t.Proper) :
    0 < r.head.stop.size := by
  refine (hproper _ (by simp [tokens_eq, HeadLayout.core])).size_pos ?_
  cases r with
  | statement h => simp [head, hv.1.stop, TokenKind.lexeme?]
  | block h => simp [head, hv.1.stop, TokenKind.lexeme?]

/-- A rule is not empty, and nothing but its leading text stands in front of its span. -/
theorem Valid.bounds (hv : r.Valid) (hproper : ∀ t ∈ r.tokens, t.Proper) (offset : Nat) :
    let span := (r.tree offset).span
    offset ≤ span.start ∧ span.start < span.stop ∧ span.stop = offset + totalSize r.tokens := by
  have hpos := hv.stop_size_pos hproper
  have hprelude := totalSize_eq_leadingGap_add r.head.prelude
  rw [span_tree]
  have hsize : totalSize r.tokens = totalSize r.head.strays + totalSize r.head.prelude +
      r.head.stop.size + totalSize r.rest := by
    simp [tokens_eq, HeadLayout.core, totalSize, Nat.add_assoc]
  simp only [HeadLayout.start]
  exact ⟨by omega, by omega, trivial⟩

theorem stands_tree (hv : r.Valid) (hproper : ∀ t ∈ r.tokens, t.Proper)
    (htext : text = a ++ textOf r.tokens ++ b) :
    Stands text (r.tree a.utf8ByteSize).header.before (r.tree a.utf8ByteSize).body
      (r.tree a.utf8ByteSize).span := by
  have hprint := r.print_tree a.utf8ByteSize hv hproper
  rw [PlainRule.print_eq] at hprint
  have hsize := congrArg String.utf8ByteSize hprint
  rw [String.utf8ByteSize_append, utf8ByteSize_textOf] at hsize
  refine stands_of_eq (by rw [htext, ← hprint]; rfl) ?_ ?_
  · rw [span_tree, HeadLayout.start_eq, header_tree]
  · rw [span_tree, HeadLayout.start_eq, ← header_tree r a.utf8ByteSize, ← hsize, Nat.add_assoc]
    rfl

end RuleLayout

namespace DeclarationLayout

variable {d : DeclarationLayout}

theorem span_tree (hv : d.Valid) (offset : Nat) :
    (d.tree offset).span = ⟨offset + totalSize d.strays + (leadingGap d.property).utf8ByteSize,
      offset + totalSize d.strays + totalSize (d.property ++ d.colon :: d.value)⟩ := by
  rw [tree, spanOf, leadingGap_append hv.property_ne]

theorem faithful_tree (hv : d.Valid) (htext : text = a ++ textOf (d.strays ++ d.core) ++ b) :
    (d.tree a.utf8ByteSize).Faithful text := by
  have hproperty := totalSize_eq_leadingGap_add d.property
  have hvalue := totalSize_eq_leadingGap_add d.value
  refine stands_of_eq (a := a) (b := textOf d.stop ++ b) ?_ ?_ ?_
  · rw [htext, ← d.print_tree a.utf8ByteSize]
    simp only [Declaration.print, tree, String.append_assoc]
  · rw [span_tree hv]
    simp only [tree, String.utf8ByteSize_append, utf8ByteSize_textOf, Nat.add_assoc]
  · rw [span_tree hv]
    simp only [tree, String.utf8ByteSize_append, totalSize_append, totalSize, utf8ByteSize_text]
    omega

theorem Valid.bounds (hv : d.Valid) (hcolon : d.colon.Proper) (offset : Nat) :
    let span := (d.tree offset).span
    offset ≤ span.start ∧ span.start < span.stop ∧
      span.stop ≤ offset + totalSize (d.strays ++ d.core) := by
  have hproperty := totalSize_eq_leadingGap_add d.property
  have hpos := hcolon.size_pos (by simp [hv.colon, TokenKind.lexeme?])
  rw [span_tree hv]
  simp only [core, totalSize_append, totalSize]
  omega

end DeclarationLayout

theorem ItemLayout.bounds (i : ItemLayout) (hv : i.Valid) (hproper : ∀ t ∈ i.tokens, t.Proper)
    (offset : Nat) : let span := (i.tree offset).span
    offset ≤ span.start ∧ span.start < span.stop ∧ span.stop ≤ offset + totalSize i.tokens := by
  cases i with
  | declaration d =>
    exact DeclarationLayout.Valid.bounds hv (hproper _ (by simp [tokens, DeclarationLayout.core]))
      offset
  | rule r =>
    obtain ⟨hstart, hlt, hstop⟩ := RuleLayout.Valid.bounds hv hproper offset
    exact ⟨hstart, hlt, Nat.le_of_eq hstop⟩

theorem lined_itemTrees (is : List ItemLayout) (offset : Nat) {tail : List Token}
    (hv : ItemsValid is tail) (hproper : ∀ t ∈ itemTokens is, t.Proper) :
    Lined offset (offset + totalSize (itemTokens is))
      ((itemTrees offset is).map BodyItem.span) := by
  induction is generalizing offset with
  | nil => exact .nil ..
  | cons i is ih =>
    obtain ⟨hstart, hlt, hstop⟩ := i.bounds hv.1 (fun t ht => hproper t (by simp [itemTokens, ht]))
      offset
    have hrest := ih (offset + totalSize i.tokens) hv.2.2
      fun t ht => hproper t (by simp [itemTokens, ht])
    rw [itemTokens, totalSize_append, ← Nat.add_assoc]
    exact hrest.cons hstart hlt hstop (Nat.le_add_right _ _)

namespace RuleLayout

theorem inside_block {h : HeadLayout} {items : List ItemLayout} {strays : List Token}
    {close : Token} (hv : (block h items strays close).Valid)
    (hproper : ∀ t ∈ (block h items strays close).tokens, t.Proper) (offset : Nat) :
    let inside := (tree offset (block h items strays close)).inside
    inside.start = h.stopsAt offset ∧
      h.stopsAt offset + totalSize (itemTokens items) ≤ inside.stop := by
  have hstop : h.stop.Proper := hproper _ (by simp [tokens, HeadLayout.core])
  have hhead := congrArg String.utf8ByteSize (h.print_header hv.1 hstop rfl)
  have hclose := (hproper close (by simp [tokens])) "\x7d" (by simp [hv.2.2.2, TokenKind.lexeme?])
  rw [utf8ByteSize_textOf] at hhead
  simp only [tree, PlainRule.inside, HeadLayout.start_eq, HeadLayout.stopsAt, ← hhead,
    Header.print, String.utf8ByteSize_append, totalSize_append, totalSize, size, hclose]
  omega

theorem holds_tree {r : RuleLayout} (hv : r.Valid) (hproper : ∀ t ∈ r.tokens, t.Proper)
    (htext : text = a ++ textOf r.tokens ++ b) : (r.tree a.utf8ByteSize).Holds text := by
  -- a statement holds no items, and those of a block end before its stray semicolons
  have hlined : Lined (r.tree a.utf8ByteSize).inside.start (r.tree a.utf8ByteSize).inside.stop
      ((r.tree a.utf8ByteSize).items.map BodyItem.span) := by
    cases r with
    | statement h => exact .nil ..
    | block h items strays close =>
      obtain ⟨hstart, hstop⟩ := inside_block hv hproper a.utf8ByteSize
      have hitems := lined_itemTrees items (h.stopsAt a.utf8ByteSize) hv.2.1
        fun t ht => hproper t (by simp [tokens, ht])
      rw [hstart]
      exact hitems.mono hstop
  exact ⟨stands_tree hv hproper htext, hlined.ascending,
    fun i hi => hlined.within _ (List.mem_map_of_mem hi)⟩

end RuleLayout

mutual

theorem ItemLayout.faithful_tree (i : ItemLayout) (a b : String) (hv : i.Valid)
    (hproper : ∀ t ∈ i.tokens, t.Proper) (htext : text = a ++ textOf i.tokens ++ b) :
    (i.tree a.utf8ByteSize).Faithful text :=
  match i with
  | .declaration _ => DeclarationLayout.faithful_tree hv htext
  | .rule r => r.faithful_tree a b hv hproper htext

theorem RuleLayout.faithful_tree (r : RuleLayout) (a b : String) (hv : r.Valid)
    (hproper : ∀ t ∈ r.tokens, t.Proper) (htext : text = a ++ textOf r.tokens ++ b) :
    (r.tree a.utf8ByteSize).Faithful text :=
  match r with
  | .statement _ => RuleLayout.holds_tree hv hproper htext
  | .block h items strays close => by
    have hstop : (a ++ textOf (h.strays ++ h.core)).utf8ByteSize = h.stopsAt a.utf8ByteSize := by
      rw [String.utf8ByteSize_append, utf8ByteSize_textOf, HeadLayout.stopsAt]
    have hinner : text = (a ++ textOf (h.strays ++ h.core)) ++ textOf (itemTokens items) ++
        (textOf (strays ++ [close]) ++ b) := by
      simpa only [RuleLayout.tokens, textOf_append, String.append_assoc] using htext
    have hitems := itemsFaithful_trees items _ _ hv.2.1
      (fun t ht => hproper t (by simp [RuleLayout.tokens, ht])) hinner
    rw [hstop] at hitems
    exact ⟨RuleLayout.holds_tree hv hproper htext, hitems⟩

theorem itemsFaithful_trees (is : List ItemLayout) (a b : String) {tail : List Token}
    (hv : ItemsValid is tail) (hproper : ∀ t ∈ itemTokens is, t.Proper)
    (htext : text = a ++ textOf (itemTokens is) ++ b) :
    ItemsFaithful text (itemTrees a.utf8ByteSize is) :=
  match is with
  | [] => trivial
  | i :: is => by
    rw [itemTokens, textOf_append] at htext
    have hfirst : text = a ++ textOf i.tokens ++ (textOf (itemTokens is) ++ b) := by
      simpa only [String.append_assoc] using htext
    have hrest : text = (a ++ textOf i.tokens) ++ textOf (itemTokens is) ++ b := by
      simpa only [String.append_assoc] using htext
    have hi := i.faithful_tree a _ hv.1 (fun t ht => hproper t (by simp [itemTokens, ht])) hfirst
    have his := itemsFaithful_trees is (a ++ textOf i.tokens) b hv.2.2
      (fun t ht => hproper t (by simp [itemTokens, ht])) hrest
    rw [String.utf8ByteSize_append, utf8ByteSize_textOf] at his
    exact ⟨hi, his⟩

end

/-! ## Top-level rules -/

theorem itemsFaithful_iff {is : List BodyItem} :
    ItemsFaithful text is ↔ ∀ i ∈ is, i.Faithful text := by
  induction is with
  | nil => simp [ItemsFaithful]
  | cons i is ih => simp [ItemsFaithful, ih]

namespace PlainRule

variable {r : PlainRule}

theorem Faithful.holds (h : r.Faithful text) : r.Holds text := by
  cases r with
  | statement => exact h
  | block => exact h.1

theorem Faithful.items (h : r.Faithful text) : ∀ i ∈ r.items, i.Faithful text := by
  cases r with
  | statement => simp [PlainRule.items]
  | block => exact itemsFaithful_iff.mp h.2

theorem span_classify (r : PlainRule) : r.classify.span = r.span := by
  cases r with
  | statement => rfl
  | block h items after span =>
    unfold classify
    dsimp only
    split <;> rfl

/-- A rule that is a directive keeps its text and has the bindings that its declarations make. -/
theorem classify_cases (r : PlainRule) :
    (r.classify.isPlain = true ∧ r.classify.bindings = []) ∨
      (r.classify.raw? = some r.body ∧
        r.classify.bindings = r.declarations.map Declaration.toBinding) := by
  cases r with
  | statement => exact .inl ⟨rfl, rfl⟩
  | block h items after span =>
    unfold classify
    dsimp only
    split
    · exact .inl ⟨rfl, rfl⟩
    · exact .inr ⟨rfl, rfl⟩
    · exact .inr ⟨rfl, rfl⟩

theorem Faithful.bindings (h : r.Faithful text) :
    BindingsStand text r.inside (r.declarations.map Declaration.toBinding) := by
  have hascending := List.pairwise_map.mp h.holds.ascending
  refine ⟨?_, ?_, ?_⟩
  · intro b hb
    obtain ⟨d, hd, rfl⟩ := List.mem_map.mp hb
    exact ⟨d.between, (h.items _ (mem_items_of_mem_declarations hd)).body⟩
  · rw [List.map_map]
    refine List.pairwise_map.mpr (List.pairwise_filterMap.mpr (hascending.imp ?_))
    intro i j hij d hd e he
    cases i <;> cases j <;> cases hd <;> cases he
    exact hij
  · intro b hb
    obtain ⟨d, hd, rfl⟩ := List.mem_map.mp hb
    exact h.holds.within _ (mem_items_of_mem_declarations hd)

theorem Faithful.classify (h : r.Faithful text) : r.classify.Faithful text := by
  have hstands := h.holds.stands
  have hprint : (r.classify.setBefore "").print = r.body := by
    rw [← classify_setBefore, print_classify, body]
  refine ⟨?_, fun hplain => ?_, r, rfl, r.span_classify.symm, h, ?_⟩
  · rw [hprint, before_classify, span_classify]
    exact hstands
  · obtain ⟨hplain', -⟩ | ⟨hraw, -⟩ := r.classify_cases
    · simp [hplain] at hplain'
    · rw [hraw, span_classify]
      exact hstands.body
  · obtain ⟨-, hbindings⟩ | ⟨-, hbindings⟩ := r.classify_cases
    · rw [hbindings]
      exact ⟨by simp, .nil, by simp⟩
    · rw [hbindings]
      exact h.bindings

end PlainRule

theorem lined_ruleTrees (rs : List RuleLayout) (offset : Nat) (hv : ∀ r ∈ rs, r.Valid)
    (hproper : ∀ t ∈ ruleTokens rs, t.Proper) :
    Lined offset (offset + totalSize (ruleTokens rs)) ((ruleTrees offset rs).map Rule.span) := by
  induction rs generalizing offset with
  | nil => exact .nil ..
  | cons r rs ih =>
    obtain ⟨hstart, hlt, hstop⟩ := (hv r List.mem_cons_self).bounds
      (fun t ht => hproper t (by simp [ruleTokens_cons, ht])) offset
    have hrest := ih (offset + totalSize r.tokens) (fun q hq => hv q (List.mem_cons_of_mem r hq))
      fun t ht => hproper t (by simp [ruleTokens_cons, ht])
    rw [ruleTokens_cons, totalSize_append, ← Nat.add_assoc]
    rw [← PlainRule.span_classify] at hstart hlt hstop
    exact hrest.cons hstart hlt (Nat.le_of_eq hstop) (Nat.le_add_right _ _)

theorem faithful_plainTrees (rs : List RuleLayout) (a : String) (hv : ∀ r ∈ rs, r.Valid)
    (hproper : ∀ t ∈ ruleTokens rs, t.Proper) (htext : text = a ++ textOf (ruleTokens rs) ++ b) :
    ∀ r ∈ plainTrees a.utf8ByteSize rs, r.Faithful text := by
  induction rs generalizing a with
  | nil => simp [plainTrees]
  | cons r rs ih =>
    rw [ruleTokens_cons, textOf_append] at htext
    have hfirst : text = a ++ textOf r.tokens ++ (textOf (ruleTokens rs) ++ b) := by
      simpa only [String.append_assoc] using htext
    have hrest : text = (a ++ textOf r.tokens) ++ textOf (ruleTokens rs) ++ b := by
      simpa only [String.append_assoc] using htext
    have hr := r.faithful_tree a _ (hv r List.mem_cons_self)
      (fun t ht => hproper t (by simp [ruleTokens_cons, ht])) hfirst
    have hrs := ih (a ++ textOf r.tokens) (fun q hq => hv q (List.mem_cons_of_mem r hq))
      (fun t ht => hproper t (by simp [ruleTokens_cons, ht])) hrest
    rw [String.utf8ByteSize_append, utf8ByteSize_textOf] at hrs
    rintro q (_ | ⟨_, hq⟩)
    · exact hr
    · exact hrs q hq

theorem faithful_ruleTrees (rs : List RuleLayout) (a : String) (hv : ∀ r ∈ rs, r.Valid)
    (hproper : ∀ t ∈ ruleTokens rs, t.Proper) (htext : text = a ++ textOf (ruleTokens rs) ++ b) :
    ∀ r ∈ ruleTrees a.utf8ByteSize rs, r.Faithful text := by
  rw [ruleTrees_eq_map, List.forall_mem_map]
  exact fun r hr => (faithful_plainTrees rs a hv hproper htext r hr).classify

namespace Stylesheet

/-- A tree that was read is faithful to its text. -/
theorem parse_faithful {sheet : Stylesheet} (h : parse text = .ok sheet) : sheet.Faithful text := by
  obtain ⟨l, hl, htiles, htext, rfl⟩ := parse_eq_ok_iff.mp h
  have hproper : ∀ t ∈ ruleTokens l.rules, t.Proper := fun t ht =>
    TokenStream.proper_of_ofText (TokenStream.ofText_eq_ok_iff.mpr ⟨htext, htiles⟩) t
      (List.mem_append_left _ ht)
  have hrules : text = "" ++ textOf (ruleTokens l.rules) ++ (textOf l.strays ++ l.trailing) := by
    rw [← htext, TokenStream.text, SheetLayout.stream, SheetLayout.tokens, textOf_append,
      String.empty_append, String.append_assoc]
  exact ⟨faithful_ruleTrees l.rules "" hl.rules hproper hrules,
    (lined_ruleTrees l.rules 0 hl.rules hproper).ascending⟩

/-- A sheet with a statement, a nested rule and an import is faithful to its text. -/
theorem parse_faithful_mixed :
    let text := "@a é; /* b */ .c\x7bd : e ;; f\x7bg:\x7d h:i\x7d :import(\"j\")\x7bk: l;\x7d"
    ∃ sheet, parse text = .ok sheet ∧ sheet.Faithful text := by
  intro text
  have h : parse text = .ok ((parse text).toOption.get (by decide +kernel)) :=
    toOption_parse_eq_some_iff.mp (Option.some_get _).symm
  exact ⟨_, h, parse_faithful h⟩

end Stylesheet

end StyleBundle
