import StyleBundle.Proofs.PrintedLines
import StyleBundle.Proofs.Verdicts

/-!
# Export blocks

The exports of an entry are printed as a directive that was not written. The names are those of
declarations that were read, so the block is read back as the exports exactly when it is legible.
-/

namespace StyleBundle

open Token StyleBundle.Parser

/-! ## Reading a block -/

/-- The text is read as one export rule, with the given names and values. -/
def ReadsAsExports (text : String) (es : List (String × String)) : Prop :=
  ∃ sheet rule, Stylesheet.parse text = .ok sheet ∧ sheet.rules = [.exports rule] ∧
    rule.bindings.map (fun b => (b.name, b.value)) = es

/-- The names and values of a sheet that is one export rule. -/
def Stylesheet.soleExports? (s : Stylesheet) : Option (List (String × String)) :=
  match s.rules with
  | [.exports rule] => some (rule.bindings.map fun b => (b.name, b.value))
  | _ => none

theorem readsAsExports_iff_soleExports? {text : String} {es : List (String × String)} :
    (Stylesheet.parse text).toOption.bind Stylesheet.soleExports? = some es ↔
      ReadsAsExports text es := by
  constructor
  · intro h
    obtain ⟨sheet, hsheet, hsole⟩ := Option.bind_eq_some_iff.mp h
    unfold Stylesheet.soleExports? at hsole
    split at hsole
    · next rule hrules =>
      exact ⟨sheet, rule, Stylesheet.toOption_parse_eq_some_iff.mp hsheet, hrules,
        Option.some.inj hsole⟩
    · cases hsole
  · rintro ⟨sheet, rule, hparse, hrules, rfl⟩
    rw [Stylesheet.toOption_parse_eq_some_iff.mpr hparse, Option.bind_some,
      Stylesheet.soleExports?, hrules]

instance (text : String) (es : List (String × String)) : Decidable (ReadsAsExports text es) :=
  decidable_of_iff _ readsAsExports_iff_soleExports?

/-! ## The head of a block -/

/-- The tokens of the head of an export that was not written. -/
def exportHead : HeadLayout :=
  ⟨[], [⟨"", .colon, ":"⟩, ⟨"", .text, "export"⟩], ⟨" ", .lbrace, "\x7b"⟩⟩

theorem ofText_exportHead : TokenStream.ofText ":export \x7b" = .ok ⟨exportHead.core, ""⟩ := by
  decide +kernel

theorem exportHead_tiles : TokenStream.Tiles ⟨exportHead.core, ""⟩ :=
  (TokenStream.ofText_eq_ok_iff.mp ofText_exportHead).2

theorem exportHead_valid : exportHead.Valid .lbrace :=
  ⟨by simp [exportHead, Strays], by simp [exportHead], by simp [exportHead, endsPrelude], rfl⟩

theorem HeadLayout.Valid.text_behind {h : HeadLayout} (hv : h.Valid .lbrace)
    {rest : List Token} {trailing behind : String}
    (htiles : TokenStream.Tiles ⟨h.strays ++ h.core ++ rest, trailing⟩)
    (htext : TokenStream.text ⟨h.strays ++ h.core ++ rest, trailing⟩ = ":export \x7b" ++ behind) :
    TokenStream.text ⟨rest, trailing⟩ = behind := by
  have hhead : textOf exportHead.core = ":export \x7b" := rfl
  rw [← hhead] at htext
  obtain ⟨us, hus, -, htext⟩ := htiles.cut exportHead_tiles
    (by simp [exportHead, HeadLayout.core, Scan.EndsBefore]) htext
  rw [List.append_assoc] at hus
  rw [hv.strays.eq_nil hus (by simp), List.nil_append] at hus
  have hdrop := congrArg (List.dropWhile fun t => !endsPrelude t) hus
  rw [(hv.split_core (.inl rfl) rest).2, (exportHead_valid.split_core (.inl rfl) us).2] at hdrop
  rw [(List.cons.inj hdrop).2, htext]

theorem PlainRule.bindings_of_classify {r : PlainRule} {rule : ExportRule}
    (h : r.classify = .exports rule) : ∃ header items after span,
      r = .block header items after span ∧
      rule.bindings = r.declarations.map Declaration.toBinding := by
  cases r with
  | statement => cases h
  | block header items after span =>
    refine ⟨header, items, after, span, rfl, ?_⟩
    unfold classify at h
    dsimp only at h
    cases hd : Directive.ofPrelude? header.prelude with
    | none => simp [hd] at h
    | some directive =>
      cases directive with
      | imports => simp [hd] at h
      | exports =>
        simp only [hd, Rule.exports.injEq] at h
        rw [← h]

theorem legible_of_readsAsExports {es : List (String × String)} (hnames : ∀ e ∈ es, IsName e.1)
    (h : ReadsAsExports (":export \x7b" ++ blockText es) es) : Legible es := by
  obtain ⟨sheet, rule, hparse, hrules, hes⟩ := h
  obtain ⟨l, hl, htiles, htext, rfl⟩ := Stylesheet.parse_eq_ok_iff.mp hparse
  obtain ⟨rules, strays, trailing⟩ := l
  obtain ⟨r, rfl, hclassify⟩ : ∃ r, rules = [r] ∧ (r.tree 0).classify = .exports rule := by
    rcases rules with _ | ⟨r, _ | ⟨r', rules⟩⟩
    · cases hrules
    · exact ⟨r, rfl, (List.cons.inj hrules).1⟩
    · cases (List.cons.inj hrules).2
  obtain ⟨header, items', after, span, htree, hbindings⟩ :=
    PlainRule.bindings_of_classify hclassify
  have hr : r.Valid := hl.rules r (by simp)
  cases r with
  | statement => cases htree
  | block h items strays' close =>
    obtain ⟨hhead, hitems, -, hclose⟩ := hr
    have htokens : SheetLayout.tokens ⟨[.block h items strays' close], strays, trailing⟩ =
        h.strays ++ h.core ++ (itemTokens items ++ (strays' ++ [close] ++ strays)) := by
      simp [SheetLayout.tokens, ruleTokens, RuleLayout.tokens]
    rw [SheetLayout.stream, htokens] at htiles htext
    refine legible_of_items hnames hitems hclose htiles.right (hhead.text_behind htiles htext) ?_
    rw [← hes, hbindings]
    exact (bindings_itemTrees items _ _ _ _).symm

theorem readsAsExports_of_legible {es : List (String × String)} (hnames : ∀ e ∈ es, IsName e.1)
    (h : Legible es) : ReadsAsExports (":export \x7b" ++ blockText es) es := by
  obtain ⟨items, hitems, hscan, hes⟩ := exists_items_of_legible hnames h
  obtain ⟨htext, htiles⟩ := TokenStream.ofText_eq_ok_iff.mp hscan
  let r : RuleLayout := .block exportHead items [] Token.closing
  let l : SheetLayout := ⟨[r], [], "\n"⟩
  have hl : l.Valid := by
    refine ⟨?_, by simp [l, Strays]⟩
    simpa [l, r] using ⟨exportHead_valid, hitems, by simp [Strays], rfl⟩
  have htokens : l.tokens = exportHead.core ++ (itemTokens items ++ [Token.closing]) := by
    simp [l, r, SheetLayout.tokens, ruleTokens, RuleLayout.tokens, exportHead]
  have hlTiles : l.stream.Tiles := by
    rw [SheetLayout.stream, htokens]
    refine exportHead_tiles.join htiles fun t ht u _ _ => ?_
    cases ht
    trivial
  have hlText : l.stream.text = ":export \x7b" ++ blockText es := by
    rw [SheetLayout.stream, htokens, TokenStream.text_append_tokens, htext]
    rfl
  refine ⟨l.tree, _, Stylesheet.parse_eq_ok_iff.mpr ⟨l, hl, hlTiles, hlText, rfl⟩, rfl, ?_⟩
  rw [← hes]
  exact bindings_itemTrees items _ _ _ _

/-- A printed block of names is read back exactly when it is legible. -/
theorem readsAsExports_iff {es : List (String × String)} (hnames : ∀ e ∈ es, IsName e.1) :
    ReadsAsExports (":export \x7b" ++ blockText es) es ↔ Legible es :=
  ⟨legible_of_readsAsExports hnames, readsAsExports_of_legible hnames⟩

/-! ## Exported names -/

theorem DeclarationLayout.Valid.isName {d : DeclarationLayout} (hd : d.Valid)
    (htiles : TokenStream.Tiles ⟨d.property, ""⟩) : IsName (innerText d.property) :=
  ⟨withGap "" d.property, ofText_innerText htiles, withGap_ne_nil _ hd.property_ne,
    leadingGap_withGap_empty _, endsProperty_withGap hd.property⟩

theorem RuleLayout.Valid.isName_of_binding {h : HeadLayout} {items : List ItemLayout}
    {strays : List Token} {close : Token} (hl : (RuleLayout.block h items strays close).Valid)
    (htiles : TokenStream.Tiles ⟨(RuleLayout.block h items strays close).bodyTokens, ""⟩)
    {e : String × String} (he : e ∈ items.filterMap ItemLayout.binding?) : IsName e.1 := by
  obtain ⟨hhead, hitems, -, -⟩ := hl
  obtain ⟨i, hi, hbinding⟩ := List.mem_filterMap.mp he
  cases i with
  | rule => cases hbinding
  | declaration d =>
    cases hbinding
    obtain ⟨ts, us, hts⟩ := exists_itemTokens hi
    have hbody : (RuleLayout.block h items strays close).bodyTokens =
        (withGap "" h.core ++ ts ++ d.strays) ++ (d.property ++
          (d.colon :: (d.value ++ d.stop) ++ us ++ strays ++ [close])) := by
      have hcore : ∀ us, withGap "" (h.core ++ us) = withGap "" h.core ++ us := fun us => by
        obtain ⟨v, vs, hcons⟩ := List.exists_cons_of_ne_nil hhead.prelude_ne
        simp [HeadLayout.core, hcons, withGap]
      rw [RuleLayout.bodyTokens, RuleLayout.head, hcore, RuleLayout.rest, hts]
      simp [ItemLayout.tokens, DeclarationLayout.core]
    rw [hbody] at htiles
    have hd : d.Valid := hitems.of_mem hi
    exact hd.isName htiles.right.left

namespace Stylesheet

theorem mem_rules_of_mem_exports {sheet : Stylesheet} {rule : ExportRule}
    (h : rule ∈ sheet.exports) : .exports rule ∈ sheet.rules := by
  obtain ⟨r, hr, heq⟩ := List.mem_filterMap.mp h
  cases r with
  | exports =>
    cases heq
    exact hr
  | plain => cases heq
  | imports => cases heq

theorem isName_of_mem_exportNames {text name : String} {sheet : Stylesheet}
    (h : parse text = .ok sheet) (hname : name ∈ sheet.exportNames) : IsName name := by
  obtain ⟨rule, hrule, hname⟩ := List.mem_flatMap.mp hname
  obtain ⟨b, hb, rfl⟩ := List.mem_map.mp hname
  obtain ⟨l, n, hl, -, htiles, heq⟩ := exists_layout_of_mem h (mem_rules_of_mem_exports hrule)
  obtain ⟨header, items', after, span, htree, hbindings⟩ :=
    PlainRule.bindings_of_classify heq.symm
  cases l with
  | statement => cases htree
  | block h items strays close =>
    have hitems : rule.bindings.map (fun b => (b.name, b.value)) =
        items.filterMap ItemLayout.binding? := by
      rw [hbindings]
      exact bindings_itemTrees items _ _ _ _
    refine hl.isName_of_binding htiles (e := (b.name, b.value)) ?_
    rw [← hitems]
    exact List.mem_map_of_mem (f := fun b : Binding => (b.name, b.value)) hb

end Stylesheet

/-! ## Resolutions -/

theorem Resolution.exportsBlock_eq {res : Resolution} (h : res.exports.isEmpty = false) :
    res.exportsBlock = ":export \x7b" ++ blockText res.exports.entries := by
  refine String.toList_inj.mp ?_
  simp [exportsBlock, h, ExportRule.print, Binding.printBlock, ExportRule.prelude, blockText,
    Function.comp_def]

namespace Resolver

variable {r : Resolver} {entry : Document} {clock : Nat} {initial : List Fetched} {run : Run}
  {res : Resolution}

theorem Resolves.exists_parse (h : r.Resolves entry clock initial run) :
    ∃ text, Stylesheet.parse text = .ok entry.sheet := by
  cases h with
  | entry hdoc =>
    obtain ⟨sheet, hsheet, rfl⟩ := Option.map_eq_some_iff.mp hdoc
    obtain ⟨text, -, hparse⟩ := Library.sheet?_eq_some_iff.mp hsheet
    exact ⟨text, hparse⟩
  | source hparse => exact ⟨_, hparse⟩

theorem Resolves.isName_of_mem (h : r.Resolves entry clock initial run)
    (hres : run.answer = .ok (.finished res)) : ∀ e ∈ res.exports.entries, IsName e.1 := by
  obtain ⟨text, hparse⟩ := h.exists_parse
  obtain ⟨s, loaded, -, hg, rfl⟩ := h.exists_complete hres
  intro e he
  have hfind := Table.find?_eq_some_iff.mpr he
  have hcontains : (r.library.eval entry hg).exports.contains e.1 = true := by
    rw [Table.contains, show (r.library.eval entry hg).exports.find? e.1 = some e.2 from hfind]
    rfl
  exact Stylesheet.isName_of_mem_exportNames hparse
    ((Library.contains_exports_eval hg e.1).mp hcontains)

/-- The exports of an entry are printed as a block that is read back exactly when it is legible, and
so it is when their names and values are balanced. -/
theorem readsAsExports_exportsBlock (h : r.Resolves entry clock initial run)
    (hres : run.answer = .ok (.finished res)) (hne : res.exports.isEmpty = false) :
    (ReadsAsExports res.exportsBlock res.exports.entries ↔ Legible res.exports.entries) ∧
      ((∀ e ∈ res.exports.entries, isPlainEntry e) →
        ReadsAsExports res.exportsBlock res.exports.entries) := by
  have hnames := h.isName_of_mem hres
  rw [Resolution.exportsBlock_eq hne]
  refine ⟨readsAsExports_iff hnames, fun hplain => ?_⟩
  exact readsAsExports_of_legible hnames (legible_of_isPlainEntry hnames hplain)

/-- The entry `e` exports a value that it takes from `m`, and another in which it uses it. -/
def branded : Resolver where
  library := { texts := .ofList [
    (entryPath "e", ":import(\"m\")\x7bp:primary\x7d:export\x7bbrand:p;border:1px solid p\x7d"),
    (entryPath "m", ":export\x7bprimary:#00f\x7d")] }
  root := "."

def brandedResolution : Resolution where
  source := ""
  exports := .ofList [("brand", "#00f"), ("border", "1px solid #00f")]
  order := [entryPath "m", entryPath "e"]
  errors := []

theorem branded_readsAsExports :
    (branded.resolveEntry "e").answer = .ok (.finished brandedResolution) ∧
      brandedResolution.exports.isEmpty = false ∧
      ReadsAsExports brandedResolution.exportsBlock
        [("brand", "#00f"), ("border", "1px solid #00f")] := by
  have hanswer : (branded.resolveEntry "e").answer = .ok (.finished brandedResolution) :=
    answer_eq_of_within (show branded.resolutionWithin? "e" 3 = _ by decide +kernel)
  obtain ⟨entry, -, -, hdoc, -⟩ := finished_cases hanswer
  have hplain : ∀ e ∈ brandedResolution.exports.entries, isPlainEntry e := by decide +kernel
  exact ⟨hanswer, rfl, (readsAsExports_exportsBlock (.entry hdoc) hanswer rfl).2 hplain⟩

/-- The entry `e` exports a value with a parenthesis that only the end of the block closes. -/
def gaping : Resolver where
  library := { texts := .ofList [(entryPath "e", ":export\x7ba:b(\x7d")] }
  root := "."

def gapingResolution : Resolution where
  source := ""
  exports := .ofList [("a", "b(")]
  order := [entryPath "e"]
  errors := []

/-- The printed block of `gaping` is read with the semicolon that it is printed with as a part of
the value. -/
theorem gaping_not_readsAsExports :
    (gaping.resolveEntry "e").answer = .ok (.finished gapingResolution) ∧
      gapingResolution.errors = [] ∧ gapingResolution.exports.isEmpty = false ∧
      ReadsAsExports gapingResolution.exportsBlock [("a", "b(;")] ∧
      ¬ReadsAsExports gapingResolution.exportsBlock gapingResolution.exports.entries :=
  ⟨answer_eq_of_within (show gaping.resolutionWithin? "e" 3 = _ by decide +kernel), rfl, rfl,
    by decide +kernel, by decide +kernel⟩

end Resolver

end StyleBundle
