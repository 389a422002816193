import StyleBundle.Sheet.Edit
import StyleBundle.Proofs.Shifts

/-!
# Edited sheets

Editing a sheet takes rules away, joins rules of several sheets and hands the text in front of one
rule to another, but leaves each rule as it was read. Between the rules of such a sheet stand
blanks, comments and stray semicolons, and each rule closes all that it opens. So the sheet prints
to a text that is read as the sheet itself, whatever the rules and their order.
-/

namespace StyleBundle

open Token

/-! ## Rules that were read -/

/-- The rule is one of a sheet that some text is read as. -/
def Rule.WasRead (r : Rule) : Prop :=
  ∃ text sheet, Stylesheet.parse text = .ok sheet ∧ r ∈ sheet.rules

def TrailsSheet (trailing : String) : Prop :=
  ∃ text sheet, Stylesheet.parse text = .ok sheet ∧ trailing = sheet.trailing

/-- Each rule was read, and has in front what it or another rule was read with. -/
structure Stylesheet.Composed (s : Stylesheet) : Prop where
  rules : ∀ r ∈ s.rules, ∃ q p : Rule, q.WasRead ∧ p.WasRead ∧ r = q.setBefore p.before
  trailing : s.trailing = "" ∨ TrailsSheet s.trailing

theorem Rule.WasRead.isLead {r : Rule} (h : r.WasRead) : IsLead r.before := by
  obtain ⟨text, sheet, hparse, hr⟩ := h
  exact (Stylesheet.led_of_parse hparse).before r hr

/-! ## Edits -/

namespace Stylesheet.Composed

variable {s u : Stylesheet}

theorem of_parse {text : String} (h : parse text = .ok s) : s.Composed where
  rules r hr := ⟨r, r, ⟨text, s, h, hr⟩, ⟨text, s, h, hr⟩, r.setBefore_before.symm⟩
  trailing := .inr ⟨text, s, h, rfl⟩

/-- Rules may be left out, repeated and put in another order. -/
theorem of_subset {rules : List Rule} (h : s.Composed) (hrules : rules ⊆ s.rules) :
    Composed { s with rules } :=
  ⟨fun r hr => h.rules r (hrules hr), h.trailing⟩

theorem append (hs : s.Composed) (hu : u.Composed) :
    Composed { s with rules := s.rules ++ u.rules } :=
  ⟨fun r hr => (List.mem_append.mp hr).elim (hs.rules r) (hu.rules r), hs.trailing⟩

/-- The text in front of a rule may be handed to another. -/
theorem leadWith {rules : List Rule} (h : Composed { s with rules }) {r : Rule} (hs : s.Composed)
    (hr : r ∈ s.rules) : Composed { s with rules := leadWith r.before rules } := by
  obtain ⟨q, p, -, hp, rfl⟩ := hs.rules r hr
  rw [Rule.before_setBefore]
  refine ⟨fun r' hr' => ?_, h.trailing⟩
  obtain ⟨q', hq', rfl | rfl⟩ := exists_of_mem_leadWith hr'
  · exact h.rules r' hq'
  · obtain ⟨q', -, hread, -, rfl⟩ := h.rules q' hq'
    exact ⟨q', p, hread, hp, q'.setBefore_setBefore _ _⟩

theorem removeRules (h : s.Composed) (remove : Nat → Rule → Bool) :
    (s.removeRules remove).2.Composed := by
  have hkept : (s.rules.zipIdx.filter fun e => !remove e.2 e.1).map Prod.fst ⊆ s.rules := by
    intro r hr
    obtain ⟨e, he, rfl⟩ := List.mem_map.mp hr
    exact List.fst_mem_of_mem_zipIdx (List.mem_filter.mp he).1
  unfold Stylesheet.removeRules
  dsimp only
  split
  · exact ⟨by simp, h.trailing⟩
  · next first rules hrules =>
    exact (h.of_subset hkept).leadWith h (hrules ▸ List.mem_cons_self)

end Stylesheet.Composed

/-! ## Layouts of rules -/

/-- The tokens of the layout are those of the rule, wherever it stands. -/
structure RuleLayout.Writes (l : RuleLayout) (r : Rule) : Prop where
  valid : l.Valid
  tiles : TokenStream.Tiles ⟨l.tokens, ""⟩
  tree : ∀ n, (l.tree n).classify.withoutSpans = r.withoutSpans

theorem RuleLayout.withoutSpans_classify (l : RuleLayout) (m n : Nat) :
    (l.tree m).classify.withoutSpans = (l.tree n).classify.withoutSpans := by
  have hzero : ∀ n, (l.tree n).classify.withoutSpans = (l.tree 0).classify.withoutSpans := by
    intro n
    rw [← Nat.zero_add n, l.tree_shift, PlainRule.classify_shift, Rule.withoutSpans_shift]
  rw [hzero m, hzero n]

/-- A rule that was read has a layout with anything in front that stands in front of rules. -/
theorem Rule.WasRead.exists_writes {r : Rule} (h : r.WasRead) {before : String}
    (hlead : IsLead before) : ∃ l : RuleLayout, l.Writes (r.setBefore before) := by
  obtain ⟨text, sheet, hparse, hr⟩ := h
  obtain ⟨s, hs, hstrays, rfl⟩ := hlead
  obtain ⟨l, n, hl, -, hbody, rfl⟩ := Stylesheet.exists_layout_of_mem hparse hr
  -- The layout it was read with has all but the lead, and spans do not matter.
  refine ⟨l.withLead s, hl.withLead hstrays, hl.tiles_withLead hbody hs hstrays, fun m => ?_⟩
  rw [(l.withLead s).withoutSpans_classify m l.lead.size,
    RuleLayout.tree_withLead hl (n := s.size) (Nat.add_comm ..), PlainRule.classify_setBefore,
    Rule.withoutSpans_setBefore, Rule.withoutSpans_setBefore, l.withoutSpans_classify _ n]

theorem tiles_ruleTokens {ls : List RuleLayout} {rs : List Rule} {rear : TokenStream}
    (h : List.Forall₂ RuleLayout.Writes ls rs) (hrear : rear.Tiles) :
    TokenStream.Tiles ⟨ruleTokens ls ++ rear.tokens, rear.trailing⟩ := by
  induction h with
  | nil => exact hrear
  | cons hl _ ih =>
    rw [ruleTokens_cons, List.append_assoc]
    exact .append hl.valid.sealed_tokens hl.tiles ih

theorem withoutSpans_ruleTrees {ls : List RuleLayout} {rs : List Rule}
    (h : List.Forall₂ RuleLayout.Writes ls rs) (offset : Nat) :
    (ruleTrees offset ls).map Rule.withoutSpans = rs.map Rule.withoutSpans := by
  induction h generalizing offset with
  | nil => rfl
  | cons hl _ ih => rw [ruleTrees, List.map_cons, List.map_cons, hl.tree, ih]

/-! ## Reading them again -/

namespace Stylesheet

theorem Composed.exists_writes {s : Stylesheet} (h : s.Composed) :
    ∃ ls : List RuleLayout, List.Forall₂ RuleLayout.Writes ls s.rules := by
  have hrules := h.rules
  generalize s.rules = rs at hrules
  induction rs with
  | nil => exact ⟨[], .nil⟩
  | cons r rs ih =>
    simp only [List.mem_cons, forall_eq_or_imp] at hrules
    obtain ⟨⟨q, p, hq, hp, rfl⟩, hrs⟩ := hrules
    obtain ⟨l, hl⟩ := hq.exists_writes hp.isLead
    obtain ⟨ls, hls⟩ := ih hrs
    exact ⟨l :: ls, .cons hl hls⟩

theorem Composed.isLead_trailing {s : Stylesheet} (h : s.Composed) : IsLead s.trailing := by
  rcases h.trailing with htrailing | ⟨text, sheet, hparse, htrailing⟩
  · rw [htrailing]
    exact isLead_empty
  · rw [htrailing]
    exact (led_of_parse hparse).trailing

theorem Composed.exists_layout {s : Stylesheet} (h : s.Composed) :
    ∃ l : SheetLayout, l.Valid ∧ l.stream.Tiles ∧ l.tree.withoutSpans = s.withoutSpans := by
  obtain ⟨ls, hls⟩ := h.exists_writes
  obtain ⟨rear, hrear, hstrays, htext⟩ := h.isLead_trailing
  have hvalid : ∀ r ∈ ls, r.Valid :=
    ((List.forall₂_and_left _ _).mp (hls.imp fun _ _ h => ⟨h.valid, h⟩)).1
  refine ⟨⟨ls, rear.tokens, rear.trailing⟩, ⟨hvalid, hstrays⟩, tiles_ruleTokens hls hrear, ?_⟩
  have hrules := withoutSpans_ruleTrees hls 0
  simp only [withoutSpans, SheetLayout.tree, hrules, ← htext]
  rfl

/-- A sheet that has a layout prints to a text that is read as the tree of the layout. -/
theorem parse_print_of_layout {l : SheetLayout} {s : Stylesheet} (hl : l.Valid)
    (htiles : l.stream.Tiles) (htree : l.tree.withoutSpans = s.withoutSpans) :
    parse s.print = .ok l.tree := by
  have hparse : parse l.stream.text = .ok l.tree := parse_eq_ok_iff.mpr ⟨l, hl, htiles, rfl, rfl⟩
  rwa [← print_of_parse hparse, ← print_withoutSpans, htree, print_withoutSpans] at hparse

/-- A sheet whose rules were read, in whatever order and with whatever leading text of each other,
prints to a text that is read as the sheet, up to spans. -/
theorem Composed.parse_print {s : Stylesheet} (h : s.Composed) :
    ∃ sheet, parse s.print = .ok sheet ∧ sheet.withoutSpans = s.withoutSpans := by
  obtain ⟨l, hl, htiles, htree⟩ := h.exists_layout
  exact ⟨l.tree, parse_print_of_layout hl htiles htree, htree⟩

/-- The rules of two sheets, without the first import, which hands over what stands in front of
it. -/
theorem Composed.parse_print_joined :
    let a := "/* a */ :import(\"m\")\x7bb:c\x7d .d\x7be:f\x7d"
    let b := "@media g\x7b.h\x7bi:j\x7d\x7d ; :export\x7bk:l\x7d /* m */"
    ∃ s u, parse a = .ok s ∧ parse b = .ok u ∧
      let kept := (s.removeRules fun _ r => r.isImport).2
      ∃ sheet, parse (print { u with rules := u.rules ++ kept.rules }) = .ok sheet ∧
        sheet.withoutSpans = withoutSpans { u with rules := u.rules ++ kept.rules } := by
  intro a b
  have ha : parse a = .ok ((parse a).toOption.get (by decide +kernel)) :=
    toOption_parse_eq_some_iff.mp (Option.some_get _).symm
  have hb : parse b = .ok ((parse b).toOption.get (by decide +kernel)) :=
    toOption_parse_eq_some_iff.mp (Option.some_get _).symm
  exact ⟨_, _, ha, hb, Composed.parse_print ((of_parse hb).append ((of_parse ha).removeRules _))⟩

end Stylesheet

end StyleBundle
