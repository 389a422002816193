import StyleBundle.Proofs.AtRules
import StyleBundle.Proofs.NodeSpans
import StyleBundle.Proofs.RawText

/-!
# Recognising directives

A top-level rule of a text that is read is an export or an import exactly when it has a block and
its prelude, trimmed, has the form of one; what it binds are the declarations that stand directly in
the block, and every other rule stays what it is. Of the path of an import a quote in front is taken
off and a quote at the end, each by itself. That is one pair of equal quotes, and no other
character, exactly when the quotes at the ends pair.
-/

namespace StyleBundle

/-! ## Trimming -/

namespace Text

/-- The characters are the core with white space around it, and the core has none at its ends. -/
structure Trims (cs core : List Char) : Prop where
  around : ∃ front behind, cs = front ++ core ++ behind ∧ (∀ c ∈ front, isWhiteSpace c) ∧
    ∀ c ∈ behind, isWhiteSpace c
  first : ∀ c ∈ core.head?, isWhiteSpace c = false
  last : ∀ c ∈ core.getLast?, isWhiteSpace c = false

variable {cs core front behind : List Char}

theorem trimStart_append (hfront : ∀ c ∈ front, isWhiteSpace c)
    (hcore : ∀ c ∈ core.head?, isWhiteSpace c = false) : trimStart (front ++ core) = core :=
  (span_append hfront hcore).2

theorem trimEnd_append (hbehind : ∀ c ∈ behind, isWhiteSpace c)
    (hcore : ∀ c ∈ core.getLast?, isWhiteSpace c = false) : trimEnd (core ++ behind) = core := by
  rw [trimEnd, List.reverse_append, trimStart_append, List.reverse_reverse]
  · simpa using hbehind
  · simpa [List.head?_reverse] using hcore

theorem exists_trimStart (cs : List Char) : ∃ front, cs = front ++ trimStart cs ∧
    (∀ c ∈ front, isWhiteSpace c) ∧ ∀ c ∈ (trimStart cs).head?, isWhiteSpace c = false :=
  ⟨cs.takeWhile isWhiteSpace, List.takeWhile_append_dropWhile.symm,
    fun _ hc => List.mem_takeWhile_imp hc, fun _ hc => head?_dropWhile_eq_false hc⟩

theorem exists_trimEnd (cs : List Char) : ∃ behind, cs = trimEnd cs ++ behind ∧
    (∀ c ∈ behind, isWhiteSpace c) ∧ ∀ c ∈ (trimEnd cs).getLast?, isWhiteSpace c = false := by
  obtain ⟨front, hcs, hfront, hlast⟩ := exists_trimStart cs.reverse
  refine ⟨front.reverse, ?_, by simpa using hfront, ?_⟩
  · rw [trimEnd, ← List.reverse_append, ← hcs, List.reverse_reverse]
  · simpa [trimEnd, List.getLast?_reverse] using hlast

theorem trims_iff : Trims cs core ↔ trim cs = core := by
  constructor
  · rintro ⟨⟨front, behind, rfl, hfront, hbehind⟩, hfirst, hlast⟩
    cases core with
    | nil =>
      have hall : ∀ c ∈ front ++ behind, isWhiteSpace c :=
        List.forall_mem_append.mpr ⟨hfront, hbehind⟩
      have hstart : trimStart (front ++ behind ++ []) = [] := trimStart_append hall (by simp)
      rw [List.append_nil] at hstart ⊢
      rw [trim, hstart]
      rfl
    | cons c core =>
      rw [trim, List.append_assoc, trimStart_append hfront (by simpa using hfirst),
        trimEnd_append hbehind hlast]
  · rintro rfl
    obtain ⟨front, hcs, hfront, hfirst⟩ := exists_trimStart cs
    obtain ⟨behind, hrest, hbehind, hlast⟩ := exists_trimEnd (trimStart cs)
    refine ⟨⟨front, behind, ?_, hfront, hbehind⟩, fun c hc => hfirst c ?_, hlast⟩
    · rw [trim, List.append_assoc, ← hrest, ← hcs]
    · obtain ⟨ds, hds⟩ := List.head?_eq_some_iff.mp hc
      rw [hrest, show trimEnd (trimStart cs) = c :: ds from hds]
      rfl

theorem Trims.unique {core' : List Char} (h : Trims cs core) (h' : Trims cs core') :
    core = core' :=
  (trims_iff.mp h).symm.trans (trims_iff.mp h')

end Text

open Text

namespace Directive

/-! ## Quotes -/

/-- One pair of equal quotes around a path is taken off, if there is one, and nothing else. -/
inductive Unquotes : List Char → List Char → Prop
  | pair {quote : Char} {cs : List Char} : isQuote quote → Unquotes (quote :: cs ++ [quote]) cs
  | bare {cs : List Char} : (∀ quote ds, isQuote quote → cs ≠ quote :: ds ++ [quote]) →
      Unquotes cs cs

/-- A quote in front is taken off, if there is one. -/
inductive DropsQuote : List Char → List Char → Prop
  | quote {c : Char} {cs : List Char} : isQuote c → DropsQuote (c :: cs) cs
  | bare {cs : List Char} : (∀ c ∈ cs.head?, isQuote c = false) → DropsQuote cs cs

/-- A quote in front is taken off, if there is one, and then a quote at the end, if there is one. -/
def DropsQuotes (cs ds : List Char) : Prop :=
  ∃ ms, DropsQuote cs ms ∧ DropsQuote ms.reverse ds.reverse

/-- The ends of a path are one pair of equal quotes, or neither of them is a quote. -/
def Paired (cs : List Char) : Prop :=
  (∃ quote ds, isQuote quote ∧ cs = quote :: ds ++ [quote]) ∨
    (∀ c ∈ cs.head?, isQuote c = false) ∧ ∀ c ∈ cs.getLast?, isQuote c = false

variable {cs ds : List Char}

theorem dropsQuote_iff : DropsQuote cs ds ↔ stripQuote cs = ds := by
  constructor
  · rintro (hc | hcs)
    · simp [stripQuote, hc]
    · cases cs with
      | nil => rfl
      | cons c cs => simp [stripQuote, hcs c rfl]
  · rintro rfl
    cases cs with
    | nil => exact .bare (by simp)
    | cons c cs =>
      by_cases hc : isQuote c
      · rw [stripQuote, if_pos hc]
        exact .quote hc
      · rw [stripQuote, if_neg hc]
        exact .bare (by simpa using hc)

theorem dropsQuotes_iff : DropsQuotes cs ds ↔ stripQuotes cs = ds := by
  simp only [DropsQuotes, dropsQuote_iff, exists_eq_left', stripQuotes]
  rw [← List.reverse_inj, List.reverse_reverse]

theorem DropsQuote.length_le (h : DropsQuote cs ds) : ds.length ≤ cs.length := by
  cases h with
  | quote => exact Nat.le_succ _
  | bare => exact Nat.le_refl _

theorem paired_of_dropsQuotes (h : DropsQuotes cs cs) : Paired cs := by
  obtain ⟨ms, hfront, hback⟩ := h
  cases hfront with
  | quote =>
    have hlen := hback.length_le
    simp only [List.length_reverse, List.length_cons] at hlen
    omega
  | bare hfirst =>
    generalize hrev : cs.reverse = rs at hback
    cases hback with
    | bare hlast => exact .inr ⟨hfirst, by simpa [← hrev, List.head?_reverse] using hlast⟩

/-- A pair of quotes is what is taken off when the ends pair. -/
theorem unquotes_iff_of_paired (h : Paired cs) : Unquotes cs ds ↔ DropsQuotes cs ds := by
  rw [dropsQuotes_iff]
  rcases h with ⟨quote, ms, hquote, rfl⟩ | ⟨hfirst, hlast⟩
  · have hstrip : stripQuotes (quote :: ms ++ [quote]) = ms := by
      simp [stripQuotes, stripQuote, hquote]
    rw [hstrip]
    constructor
    · intro hun
      generalize hcs : quote :: ms ++ [quote] = cs at hun
      cases hun with
      | pair => exact (List.append_inj' (List.cons.inj hcs).2 rfl).1
      | bare hnot => exact absurd hcs.symm (hnot quote ms hquote)
    · rintro rfl
      exact .pair hquote
  · have hstrip : stripQuotes cs = cs := by
      have hback : DropsQuote cs.reverse cs.reverse :=
        .bare (by simpa [List.head?_reverse] using hlast)
      exact dropsQuotes_iff.mp ⟨cs, .bare hfirst, hback⟩
    have hnot : ∀ quote ds, isQuote quote → cs ≠ quote :: ds ++ [quote] := by
      rintro quote ds hquote rfl
      simp [hfirst quote rfl] at hquote
    rw [hstrip]
    constructor
    · rintro (hquote | -)
      · exact absurd rfl (hnot _ _ hquote)
      · rfl
    · rintro rfl
      exact .bare hnot

/-- Where the ends do not pair there is no pair to take off, but a quote is taken off. -/
theorem unquotes_of_not_paired (h : ¬Paired cs) :
    Unquotes cs cs ∧ cs ≠ [] ∧ ¬DropsQuotes cs cs := by
  refine ⟨.bare ?_, ?_, fun hdrops => h (paired_of_dropsQuotes hdrops)⟩
  · rintro quote ds hquote rfl
    exact h (.inl ⟨quote, ds, hquote, rfl⟩)
  · rintro rfl
    exact h (.inr (by simp))

/-! ## Preludes -/

/-- The prelude, trimmed, is `:import(`, an argument and `)`, and the path is the argument,
trimmed. -/
def HasPath (prelude : String) (path : List Char) : Prop :=
  ∃ argument, Trims prelude.toList (":import(".toList ++ argument ++ [')']) ∧ Trims argument path

variable {prelude : String} {path : List Char}

theorem importArgument?_eq_some_iff {cs argument : List Char} :
    importArgument? cs = some argument ↔ cs = ":import(".toList ++ argument ++ [')'] := by
  simp only [importArgument?, Option.bind_eq_bind, Option.bind_eq_some_iff,
    List.isPrefixOf?_eq_some_iff_append_eq, List.isSuffixOf?_eq_some_iff_append_eq]
  constructor
  · rintro ⟨rest, rfl, rfl⟩
    rw [List.append_assoc]
  · rintro rfl
    exact ⟨argument ++ [')'], (List.append_assoc ..).symm, rfl⟩

theorem HasPath.unique {path' : List Char} (h : HasPath prelude path)
    (h' : HasPath prelude path') : path = path' := by
  obtain ⟨argument, htrims, hpath⟩ := h
  obtain ⟨argument', htrims', hpath'⟩ := h'
  have harguments := htrims.unique htrims'
  rw [List.append_left_inj, List.append_right_inj] at harguments
  rw [harguments] at hpath
  exact hpath.unique hpath'

theorem hasPath_iff : HasPath prelude path ↔
    ∃ argument, importArgument? (trim prelude.toList) = some argument ∧ trim argument = path := by
  simp only [HasPath, trims_iff, importArgument?_eq_some_iff]

theorem ofPrelude?_eq_exports_iff :
    ofPrelude? prelude = some .exports ↔ Trims prelude.toList ":export".toList := by
  rw [trims_iff]
  unfold ofPrelude?
  dsimp only
  split
  · next h => simp [h]
  · next h =>
    refine iff_of_false ?_ h
    repeat' split
    all_goals simp

theorem ofPrelude?_eq_imports_iff {source : String} : ofPrelude? prelude = some (.imports source) ↔
    source ≠ "" ∧ ∃ path, HasPath prelude path ∧ DropsQuotes path source.toList := by
  simp only [hasPath_iff, dropsQuotes_iff]
  unfold ofPrelude?
  dsimp only
  split
  · next h =>
    have hnone : importArgument? ":export".toList = none := by decide
    rw [h, hnone]
    simp
  · cases hargument : importArgument? (trim prelude.toList) with
    | none => simp
    | some argument =>
      dsimp only
      split
      · next hs =>
        simp [hs]
      · next c cs hs =>
        have hpath : (∃ path, (∃ a, some argument = some a ∧ trim a = path) ∧
            stripQuotes path = source.toList) ↔ c :: cs = source.toList := by simp [hs]
        rw [hpath, Option.some.injEq, imports.injEq, ← String.toList_inj, String.toList_ofList]
        refine ⟨fun h => ⟨?_, h⟩, And.right⟩
        rintro rfl
        cases h

end Directive

/-! ## Top-level rules -/

namespace PlainRule

def hasBlock : PlainRule → Prop
  | .statement .. => False
  | .block .. => True

/-- What becomes of a rule at the top level, where `law` says what is left of the path of an
import. -/
structure Directs (law : List Char → List Char → Prop) (r : PlainRule) (rule : Rule) : Prop where
  exports : rule.isExport ↔ r.hasBlock ∧ Trims r.prelude.toList ":export".toList
  imports : ∀ source, (∃ d, rule = .imports d ∧ d.source = source) ↔ r.hasBlock ∧ source ≠ "" ∧
    ∃ path, Directive.HasPath r.prelude path ∧ law path source.toList
  bindings : rule.isPlain = false →
    rule.bindings = r.declarations.map fun d => ⟨d.property, d.value, d.span⟩
  raw : rule.isPlain = false → rule.raw? = some r.body
  plain : rule.isPlain → rule = .plain r
  before : rule.before = r.header.before
  span : rule.span = r.span

/-- The quotes at the ends of its path pair, if the rule has a block and its prelude a path. -/
def PairsQuotes (r : PlainRule) : Prop :=
  r.hasBlock → ∀ path, Directive.HasPath r.prelude path → Directive.Paired path

variable {r : PlainRule}

theorem directive?_eq_some_iff {directive : Directive} : r.directive? = some directive ↔
    r.hasBlock ∧ Directive.ofPrelude? r.prelude = some directive := by
  cases r <;> simp [directive?, hasBlock, prelude, header]

theorem classify_eq (r : PlainRule) : r.classify =
    let bindings := r.declarations.map Declaration.toBinding
    match r.directive? with
    | none => .plain r
    | some (.imports source) => .imports ⟨r.header.before, source, bindings, some r.body, r.span⟩
    | some .exports => .exports ⟨r.header.before, bindings, some r.body, r.span⟩ := by
  cases r <;> rfl

theorem isExport_classify_iff : r.classify.isExport ↔ r.directive? = some .exports := by
  rw [classify_eq]
  cases r.directive? with
  | none => simp [Rule.isExport, Rule.asExport?]
  | some directive => cases directive <;> simp [Rule.isExport, Rule.asExport?]

theorem classify_eq_imports_iff {source : String} :
    (∃ d, r.classify = .imports d ∧ d.source = source) ↔ r.directive? = some (.imports source) := by
  rw [classify_eq]
  cases r.directive? with
  | none => simp
  | some directive => cases directive <;> simp

theorem directs_classify (r : PlainRule) : r.Directs Directive.DropsQuotes r.classify where
  exports := by
    rw [isExport_classify_iff, directive?_eq_some_iff, Directive.ofPrelude?_eq_exports_iff]
  imports source := by
    rw [classify_eq_imports_iff, directive?_eq_some_iff, Directive.ofPrelude?_eq_imports_iff]
  bindings hplain := by
    obtain ⟨h, -⟩ | ⟨-, hbindings⟩ := r.classify_cases
    · rw [h] at hplain
      cases hplain
    · exact hbindings
  raw hplain := by
    obtain ⟨h, -⟩ | ⟨hraw, -⟩ := r.classify_cases
    · rw [h] at hplain
      cases hplain
    · exact hraw
  plain hplain := by
    rw [classify_eq_plain_iff]
    rw [classify_eq] at hplain
    cases hd : r.directive? with
    | none => rfl
    | some directive => cases directive <;> simp [hd, Rule.isPlain] at hplain
  before := r.before_classify
  span := r.span_classify

/-- One pair of quotes is all that is taken off a path exactly when its quotes pair. -/
theorem directs_unquotes_iff : r.Directs Directive.Unquotes r.classify ↔ r.PairsQuotes := by
  have hdrops := r.directs_classify
  constructor
  · intro hpair hblock path hpath
    by_contra hnot
    obtain ⟨hun, hne, hkeeps⟩ := Directive.unquotes_of_not_paired hnot
    -- By the one law the source is the whole path, by the other it is not.
    have himport := (hpair.imports (String.ofList path)).mpr
      ⟨hblock, by simpa using hne, path, hpath, by rwa [String.toList_ofList]⟩
    obtain ⟨-, -, path', hpath', hdrop⟩ := (hdrops.imports _).mp himport
    rw [← hpath.unique hpath', String.toList_ofList] at hdrop
    exact hkeeps hdrop
  · intro hpaired
    refine { hdrops with imports := fun source => ?_ }
    rw [hdrops.imports source]
    refine and_congr_right fun hblock => and_congr_right fun _ => exists_congr fun path =>
      and_congr_right fun hpath => ?_
    exact (Directive.unquotes_iff_of_paired (hpaired hblock path hpath)).symm

end PlainRule

/-! ## Stylesheets -/

namespace Stylesheet

/-- However a text that is read is laid out, its top-level rules are what the rules direct that were
written: a quote is taken off each end of the path of an import where there is one. That is one pair
of equal quotes, and nothing else, for exactly the rules whose quotes pair. -/
theorem parse_directs {text : String} {sheet : Stylesheet} (h : parse text = .ok sheet) :
    (∃ l : SheetLayout, l.Writes text) ∧ ∀ l : SheetLayout, l.Writes text →
      List.Forall₂ (fun r rule => PlainRule.Directs Directive.DropsQuotes r rule ∧
        (PlainRule.Directs Directive.Unquotes r rule ↔ r.PairsQuotes)) l.written sheet.rules := by
  refine ⟨?_, fun l hl => ?_⟩
  · obtain ⟨l, hl, -⟩ := SheetLayout.exists_writes h
    exact ⟨l, hl⟩
  · obtain rfl : l.tree = sheet := Except.ok.inj (hl.parse_eq.symm.trans h)
    rw [l.rules_tree, List.forall₂_map_right_iff, List.forall₂_same]
    exact fun r _ => ⟨r.directs_classify, PlainRule.directs_unquotes_iff⟩

/-- White space around a prelude, a nested rule in a block, a path in quotes, one with a quote in
front only and a rule that directs nothing. -/
theorem parse_directs_quoted :
    let text := ":import( 'a' ) \x7bb:c;d\x7b\x7de:f\x7d:export\x7b\x7d:import(\"g\" h)\x7b\x7d@i;"
    ∃ sheet, parse text = .ok sheet ∧ (∃ l : SheetLayout, l.Writes text) ∧
      ∀ l : SheetLayout, l.Writes text →
        List.Forall₂ (fun r rule => PlainRule.Directs Directive.DropsQuotes r rule ∧
          (PlainRule.Directs Directive.Unquotes r rule ↔ r.PairsQuotes)) l.written sheet.rules := by
  intro text
  have h : parse text = .ok ((parse text).toOption.get (by decide +kernel)) :=
    toOption_parse_eq_some_iff.mp (Option.some_get _).symm
  exact ⟨_, h, parse_directs h⟩

/-- One import, whose path goes on behind the string that it starts with. -/
def halfQuoted : SheetLayout where
  rules := [.block ⟨[], [⟨"", .colon, ":"⟩, ⟨"", .text, "import("⟩, ⟨"", .string, "\"a\""⟩,
    ⟨" ", .text, "b)"⟩], ⟨"", .lbrace, "\x7b"⟩⟩ [] [] ⟨"", .rbrace, "\x7d"⟩]
  strays := []
  trailing := ""

theorem writes_halfQuoted : halfQuoted.Writes ":import(\"a\" b)\x7b\x7d" := by
  have hstream : TokenStream.ofText ":import(\"a\" b)\x7b\x7d" = .ok halfQuoted.stream := by
    decide +kernel
  obtain ⟨htext, htiles⟩ := TokenStream.ofText_eq_ok_iff.mp hstream
  refine ⟨⟨?_, by simp [halfQuoted, Strays]⟩, htiles, htext⟩
  rintro r (- | ⟨-, ⟨⟩⟩)
  exact ⟨⟨by simp [Strays], by simp, by simp [Parser.endsPrelude], rfl⟩, trivial, by simp [Strays],
    rfl⟩

/-- A path with a quote at one end only loses that quote. -/
theorem not_directs_halfQuoted :
    let text := ":import(\"a\" b)\x7b\x7d"
    ∃ (sheet : Stylesheet) (l : SheetLayout), parse text = .ok sheet ∧ l.Writes text ∧
      (∃ d, sheet.rules = [.imports d] ∧ d.source = "a\" b") ∧
      ¬List.Forall₂ (PlainRule.Directs Directive.Unquotes) l.written sheet.rules := by
  intro text
  refine ⟨_, halfQuoted, writes_halfQuoted.parse_eq, writes_halfQuoted, ⟨_, rfl, rfl⟩,
    fun hdirects => ?_⟩
  rw [SheetLayout.rules_tree, List.forall₂_map_right_iff, List.forall₂_same] at hdirects
  have hpaired := PlainRule.directs_unquotes_iff.mp (hdirects _ List.mem_cons_self)
  have hpath : Directive.HasPath ":import(\"a\" b)" "\"a\" b".toList :=
    Directive.hasPath_iff.mpr ⟨"\"a\" b".toList, by decide, by decide⟩
  obtain ⟨quote, ds, -, hends⟩ | ⟨hnone, -⟩ := hpaired trivial _ hpath
  · have hfirst : '"' = quote := by simpa using congrArg List.head? hends
    have hlast := (congrArg List.getLast? hends).trans List.getLast?_concat
    rw [← hfirst] at hlast
    exact absurd hlast (by decide)
  · exact absurd (hnone '"' rfl) (by decide)

end Stylesheet

end StyleBundle
