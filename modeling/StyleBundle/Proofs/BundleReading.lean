import StyleBundle.Proofs.Refinement
import StyleBundle.Proofs.Depth
import StyleBundle.Proofs.Removal
import StyleBundle.Proofs.Substitution

/-!
# Reading a bundle

A bundle is the resolved sheets of its modules, printed one after the other. When no import has
failed, only plain rules are left in them, and each is a rule of its module with symbols replaced.
The bundle is read as the rules left exactly when each of them is read back by itself, and that one
is whose symbols are replaced without a change of shape. What is put in may also end a string or a
comment around the symbol; then the bundle may be no stylesheet at all.
-/

namespace StyleBundle

/-! ## Removing rules -/

namespace Rule

theorem isImport_bare (r : Rule) : r.bare.isImport = r.isImport := by
  cases r <;> rfl

theorem isExport_bare (r : Rule) : r.bare.isExport = r.isExport := by
  cases r <;> rfl

theorem isPlain_of_not {r : Rule} (himport : r.isImport = false) (hexport : r.isExport = false) :
    r.isPlain := by
  cases r with
  | plain => rfl
  | imports => cases himport
  | exports => cases hexport

theorem asPlain?_eq_none {r : Rule} (h : r.isImport ∨ r.isExport) : r.asPlain? = none := by
  cases r with
  | plain => rcases h with h | h <;> cases h
  | imports => rfl
  | exports => rfl

end Rule

namespace Stylesheet

variable {s : Stylesheet} {remove : Rule → Bool} {t : Replacements}

theorem rules_removeRules (s : Stylesheet) (remove : Rule → Bool) :
    (s.removeRules fun _ r => remove r).2.rules =
      leadWith s.before (s.rules.filter (!remove ·)) := by
  rw [removeRules_eq, staying_zipIdx]

theorem map_bare_leadWith (before : String) (rs : List Rule) :
    (leadWith before rs).map Rule.bare = rs.map Rule.bare := by
  cases rs with
  | nil => rfl
  | cons r rs => rw [leadWith, List.map_cons, List.map_cons, Rule.bare_setBefore]

theorem map_bare_removeRules (s : Stylesheet) (remove : Rule → Bool) :
    (s.removeRules fun _ r => remove r).2.rules.map Rule.bare =
      (s.rules.filter (!remove ·)).map Rule.bare := by
  rw [rules_removeRules, map_bare_leadWith]

theorem Led.removeRules (h : s.Led) (remove : Rule → Bool) :
    (s.removeRules fun _ r => remove r).2.Led := by
  refine ⟨fun r hr => ?_, h.trailing⟩
  rw [rules_removeRules] at hr
  have hfirst : IsLead s.before := by
    unfold Stylesheet.before
    cases hrules : s.rules with
    | nil => exact isLead_empty
    | cons first rest => exact h.before first (by simp [hrules])
  obtain ⟨q, hq, rfl | rfl⟩ := exists_of_mem_leadWith hr
  · exact h.before r (List.mem_filter.mp hq).1
  · rwa [Rule.before_setBefore]

theorem Led.replaceSymbols (h : s.Led) (t : Replacements) : (s.replaceSymbols t).Led := by
  refine ⟨fun r hr => ?_, h.trailing⟩
  obtain ⟨q, hq, rfl⟩ := List.mem_map.mp hr
  have hbefore : (q.replaceSymbols t).before = q.before := by
    cases q with
    | plain q => cases q <;> rfl
    | imports => rfl
    | exports => rfl
  exact hbefore ▸ h.before q hq

theorem takeExports_snd (s : Stylesheet) :
    s.takeExports.2 = (s.removeRules fun _ r => r.isExport).2 :=
  rfl

theorem exists_of_mem_removeRules {r : Rule}
    (h : r ∈ (s.removeRules fun _ r => remove r).2.rules) :
    ∃ q ∈ s.rules, remove q = false ∧ q.bare = r.bare := by
  have hbare := List.mem_map_of_mem (f := Rule.bare) h
  rw [map_bare_removeRules] at hbare
  obtain ⟨q, hq, heq⟩ := List.mem_map.mp hbare
  obtain ⟨hmem, hstays⟩ := List.mem_filter.mp hq
  exact ⟨q, hmem, by simpa using hstays, heq⟩

/-! ## The plain rules that stay -/

theorem map_bare_plainRules (s : Stylesheet) :
    s.plainRules.map PlainRule.bare = (s.rules.map Rule.bare).filterMap Rule.asPlain? := by
  rw [plainRules, List.map_filterMap, List.filterMap_map]
  refine List.filterMap_congr fun r _ => ?_
  cases r <;> rfl

theorem plainRules_removeRules (h : ∀ r, remove r → r.isImport ∨ r.isExport) :
    (s.removeRules fun _ r => remove r).2.plainRules.map PlainRule.bare =
      s.plainRules.map PlainRule.bare := by
  rw [map_bare_plainRules, map_bare_removeRules, map_bare_plainRules, List.filterMap_map,
    List.filterMap_map, List.filterMap_filter]
  refine List.filterMap_congr fun r _ => ?_
  by_cases hr : remove r
  · have hnone : r.bare.asPlain? = none :=
      Rule.asPlain?_eq_none (by rw [Rule.isImport_bare, Rule.isExport_bare]; exact h r hr)
    simp [hr, hnone]
  · simp [hr]

theorem plainRules_replaceSymbols (s : Stylesheet) (t : Replacements) :
    (s.replaceSymbols t).plainRules = s.plainRules.map (PlainRule.replaceSymbols t) := by
  rw [plainRules, plainRules, replaceSymbols, List.filterMap_map, List.map_filterMap]
  refine List.filterMap_congr fun r _ => ?_
  cases r <;> rfl

end Stylesheet

/-! ## Resolved sheets -/

namespace Document

variable {d : Document} {exports : ModulePath → Option ExportTable}

/-- What stands for each local name of a document, where `exports` gives the export tables of the
modules that can be had. -/
def replacements (d : Document) (exports : ModulePath → Option ExportTable) : Replacements :=
  .ofList (d.sheet.imports.flatMap fun r => r.bound (exports (d.path.resolve r.source)))

theorem replacements_congr {f g : ModulePath → Option ExportTable}
    (h : ∀ p ∈ d.targets, f p = g p) : d.replacements f = d.replacements g := by
  have hbound : ∀ r ∈ d.sheet.imports, r.bound (f (d.path.resolve r.source)) =
      r.bound (g (d.path.resolve r.source)) :=
    fun r hr => by rw [h _ (List.mem_map_of_mem hr)]
  rw [replacements, replacements, List.flatMap_congr hbound]

/-- What is left of the sheet of a document: without the imports that can be had, with symbols
replaced, without the export rules. -/
def resolved (d : Document) (exports : ModulePath → Option ExportTable) : Stylesheet :=
  let had (r : Rule) : Bool :=
    r.asImport?.any fun r => (exports (d.path.resolve r.source)).isSome
  ((d.sheet.removeRules fun _ r => had r).2.replaceSymbols (d.replacements exports)).takeExports.2

theorem source_evaluate (d : Document) (exports : ModulePath → Option ExportTable) :
    (d.evaluate exports).source = (d.resolved exports).print :=
  rfl

theorem resolved_led (h : d.sheet.Led) (exports : ModulePath → Option ExportTable) :
    (d.resolved exports).Led :=
  ((h.removeRules _).replaceSymbols _).removeRules _

/-- When all imports can be had, no directive is left. -/
theorem isPlain_of_mem_resolved (h : ∀ p ∈ d.targets, (exports p).isSome) {r : Rule}
    (hr : r ∈ (d.resolved exports).rules) : r.isPlain := by
  obtain ⟨_, hmap, hexport, hbare⟩ := Stylesheet.exists_of_mem_removeRules hr
  obtain ⟨q, hq, rfl⟩ := List.mem_map.mp hmap
  obtain ⟨p, hp, hhad, hbare'⟩ := Stylesheet.exists_of_mem_removeRules hq
  refine Rule.isPlain_of_not ?_ ?_
  · have hkind : (q.replaceSymbols (d.replacements exports)).isImport = q.isImport := by
      cases q <;> rfl
    rw [← Rule.isImport_bare, ← hbare, Rule.isImport_bare, hkind, ← Rule.isImport_bare, ← hbare',
      Rule.isImport_bare]
    cases p with
    | plain => rfl
    | exports => rfl
    | imports i =>
      have himport : i ∈ d.sheet.imports := List.mem_filterMap.mpr ⟨_, hp, rfl⟩
      have hsome := h _ (List.mem_map_of_mem himport)
      rw [Rule.asImport?, Option.any_some, hsome] at hhad
      cases hhad
  · rw [← Rule.isExport_bare, ← hbare, Rule.isExport_bare, hexport]

theorem plainRules_resolved (d : Document) (exports : ModulePath → Option ExportTable) :
    (d.resolved exports).plainRules.map PlainRule.bare =
      d.sheet.plainRules.map fun q => (q.replaceSymbols (d.replacements exports)).bare := by
  rw [resolved, Stylesheet.takeExports_snd, Stylesheet.plainRules_removeRules fun _ => .inr,
    Stylesheet.plainRules_replaceSymbols]
  have himports : ∀ r : Rule,
      r.asImport?.any (fun r => (exports (d.path.resolve r.source)).isSome) = true →
        r.isImport ∨ r.isExport := by
    intro r hr
    cases r with
    | imports => exact .inl rfl
    | plain => cases hr
    | exports => cases hr
  have hrules := congrArg (List.map (PlainRule.replaceSymbols (d.replacements exports)))
    (Stylesheet.plainRules_removeRules (s := d.sheet) himports)
  simpa [Function.comp_def, PlainRule.bare_replaceSymbols] using hrules

end Document

/-! ## Libraries -/

namespace Library

variable {lib : Library} {d : Document}

/-- The exports that a module evaluates to, none for one that cannot be loaded. -/
noncomputable def exports? (lib : Library) (p : ModulePath) : Option ExportTable :=
  (lib.document? p).bind fun d =>
    haveI := Classical.dec (lib.Grounded d)
    if hd : lib.Grounded d then some (lib.eval d hd).exports else none

theorem exports?_eq_some {p : ModulePath} (hd : lib.Grounded d) (h : lib.document? p = some d) :
    lib.exports? p = some (lib.eval d hd).exports := by
  rw [exports?, h, Option.bind_some, dif_pos hd]

theorem eval_eq (hd : lib.Grounded d) : lib.eval d hd = d.evaluate lib.exports? :=
  eval_eq_evaluate hd (fun p _ h => by rw [exports?, h]; rfl) fun _ _ _ he h =>
    exports?_eq_some he h

/-- The exports of a module that imports nothing. -/
def ownExports? (lib : Library) (p : ModulePath) : Option ExportTable :=
  (lib.document? p).map fun d => (d.evaluate fun _ => none).exports

theorem exports?_eq_ownExports? {p : ModulePath} (h : ∀ d ∈ lib.document? p, d.targets = []) :
    lib.exports? p = lib.ownExports? p := by
  rw [ownExports?]
  cases hdoc : lib.document? p with
  | none => rw [exports?, hdoc]; rfl
  | some d =>
    have hnil := h d hdoc
    have hd : lib.Grounded d := .intro d fun e hn => by simp [Needs, hnil] at hn
    have hown : d.evaluate lib.exports? = d.evaluate fun _ => none :=
      Document.evaluate_congr fun p hp => by simp [hnil] at hp
    rw [exports?_eq_some hd hdoc, eval_eq, hown, Option.map_some]

noncomputable def replacements (lib : Library) (d : Document) : Replacements :=
  d.replacements lib.exports?

noncomputable def resolved (lib : Library) (d : Document) : Stylesheet :=
  d.resolved lib.exports?

theorem source_eval (hd : lib.Grounded d) : (lib.eval d hd).source = (lib.resolved d).print := by
  rw [eval_eq, Document.source_evaluate, resolved]

def documents (lib : Library) (paths : List ModulePath) : List Document :=
  paths.filterMap lib.document?

theorem mem_documents_iff {paths : List ModulePath} :
    d ∈ lib.documents paths ↔ d.path ∈ paths ∧ lib.document? d.path = some d := by
  rw [documents, List.mem_filterMap]
  constructor
  · rintro ⟨p, hp, hd⟩
    cases path_of_document? hd
    exact ⟨hp, hd⟩
  · exact fun ⟨hp, hd⟩ => ⟨d.path, hp, hd⟩

theorem texts_eq {paths : List ModulePath} {texts : List String}
    (h : List.Forall₂ (fun p text => ∃ d, ∃ hd : lib.Grounded d,
      lib.document? p = some d ∧ text = (lib.eval d hd).source) paths texts) :
    (lib.documents paths).map Document.path = paths ∧
      texts = (lib.documents paths).map fun d => (lib.resolved d).print := by
  induction h with
  | nil => exact ⟨rfl, rfl⟩
  | cons h _ ih =>
    obtain ⟨d, hd, hdoc, rfl⟩ := h
    rw [documents, List.filterMap_cons_some hdoc, ← documents, List.map_cons, List.map_cons, ih.1,
      ← ih.2, source_eval, path_of_document? hdoc]
    exact ⟨rfl, rfl⟩

theorem led_of_document? {p : ModulePath} (h : lib.document? p = some d) : d.sheet.Led := by
  obtain ⟨sheet, hsheet, rfl⟩ := Option.map_eq_some_iff.mp h
  obtain ⟨text, -, hparse⟩ := sheet?_eq_some_iff.mp hsheet
  exact Stylesheet.led_of_parse hparse

theorem readsBack_of_document? {p : ModulePath} (h : lib.document? p = some d) :
    ∀ q ∈ d.sheet.plainRules, q.ReadsBack := by
  obtain ⟨sheet, hsheet, rfl⟩ := Option.map_eq_some_iff.mp h
  obtain ⟨text, -, hparse⟩ := sheet?_eq_some_iff.mp hsheet
  intro q hq
  obtain ⟨r, hr, hplain⟩ := List.mem_filterMap.mp hq
  cases r with
  | plain r =>
    cases hplain
    exact PlainRule.readsBack_iff.mpr (Stylesheet.exists_spells_of_mem hparse hr)
  | imports => cases hplain
  | exports => cases hplain

end Library

/-! ## Bundles -/

/-- The bundle is the sheets left of its modules, and is read as the rules left as far as those are
read back. -/
structure Resolution.Rereads (lib : Library) (res : Resolution) : Prop where
  order : (lib.documents res.order).map Document.path = res.order
  source : res.source =
    String.join ((lib.documents res.order).map fun d => (lib.resolved d).print)
  plain : ∀ d ∈ lib.documents res.order, ∀ r ∈ (lib.resolved d).rules, r.isPlain
  /-- The rules left are those of the module with symbols replaced. -/
  left : ∀ d ∈ lib.documents res.order, (lib.resolved d).plainRules.map PlainRule.bare =
    d.sheet.plainRules.map fun q => (q.replaceSymbols (lib.replacements d)).bare
  readsAs_iff : ReadsAs res.source
      ((lib.documents res.order).flatMap fun d => (lib.resolved d).plainRules) ↔
    ∀ d ∈ lib.documents res.order, ∀ r ∈ (lib.resolved d).plainRules, r.ReadsBack
  /-- A rule that keeps its shape is read back. -/
  readsBack : ∀ d ∈ lib.documents res.order, ∀ q ∈ d.sheet.plainRules,
    q.Fits (lib.replacements d) → (q.replaceSymbols (lib.replacements d)).ReadsBack
  readsAs : (∀ d ∈ lib.documents res.order, ∀ q ∈ d.sheet.plainRules,
      q.Fits (lib.replacements d)) →
    ReadsAs res.source ((lib.documents res.order).flatMap fun d => (lib.resolved d).plainRules)

theorem PlainRule.readsBack_of_bare {q r : PlainRule} (h : q.bare = r.bare) (hq : q.ReadsBack) :
    r.ReadsBack := by
  obtain ⟨l, hl⟩ := readsBack_iff.mp hq
  refine readsBack_iff.mpr ⟨l, hl.valid, hl.tiles, hl.bare.trans h, ?_⟩
  rw [← directive?_bare, ← h, directive?_bare, hl.plain]

namespace Resolution.Agrees

variable {lib : Library} {entry : Document} {hg : lib.Grounded entry} {res : Resolution}

theorem isPlain_of_mem (h : res.Agrees lib entry hg)
    (hentry : lib.document? entry.path = some entry) (herrors : res.errors = []) {d : Document}
    (hd : d ∈ lib.documents res.order) : ∀ r ∈ (lib.resolved d).rules, r.isPlain := by
  obtain ⟨hmem, hdoc⟩ := Library.mem_documents_iff.mp hd
  obtain ⟨e, he, hreach⟩ := Library.reflTransGen_needs hentry ((h.mem_order d.path).mp hmem)
  cases hdoc.symm.trans he
  refine fun r hr => Document.isPlain_of_mem_resolved (fun p hp => ?_) hr
  cases hload : lib.document? p with
  | none =>
    obtain ⟨_, e, he, -⟩ := h.refused d hreach p hp hload
    rw [herrors] at he
    cases he
  | some e =>
    cases Library.path_of_document? hload
    rw [Library.exports?_eq_some ((hg.reaches hreach).needs ⟨hp, hload⟩) hload]
    rfl

theorem rereads (h : res.Agrees lib entry hg)
    (hentry : lib.document? entry.path = some entry) (herrors : res.errors = []) :
    res.Rereads lib := by
  obtain ⟨texts, hsource, htexts⟩ := h.source
  obtain ⟨horder, rfl⟩ := Library.texts_eq htexts
  have hdoc : ∀ d ∈ lib.documents res.order, lib.document? d.path = some d :=
    fun d hd => (Library.mem_documents_iff.mp hd).2
  have hplain : ∀ d ∈ lib.documents res.order, ∀ q ∈ (lib.resolved d).rules, q.isPlain :=
    fun d hd => h.isPlain_of_mem hentry herrors hd
  have hback : ∀ d ∈ lib.documents res.order, ∀ q ∈ d.sheet.plainRules,
      q.Fits (lib.replacements d) → (q.replaceSymbols (lib.replacements d)).ReadsBack :=
    fun d hd q hq => (Library.readsBack_of_document? (hdoc d hd) q hq).replaceSymbols
  have hiff : ReadsAs res.source
        ((lib.documents res.order).flatMap fun d => (lib.resolved d).plainRules) ↔
      ∀ d ∈ lib.documents res.order, ∀ r ∈ (lib.resolved d).plainRules, r.ReadsBack := by
    have hled : ∀ s ∈ (lib.documents res.order).map lib.resolved, s.Led :=
      List.forall_mem_map.mpr fun d hd =>
        Document.resolved_led (Library.led_of_document? (hdoc d hd)) _
    have hjoin := Stylesheet.readsAs_join_iff hled (List.forall_mem_map.mpr hplain)
    rwa [List.map_map, List.flatMap_map, List.forall_mem_map, Function.comp_def, ← hsource]
      at hjoin
  refine ⟨horder, hsource, hplain, fun d _ => d.plainRules_resolved _, hiff, hback, fun hfit => ?_⟩
  refine hiff.mpr fun d hd r hr => ?_
  have hleft := List.mem_map_of_mem (f := PlainRule.bare) hr
  rw [Library.resolved, Document.plainRules_resolved] at hleft
  obtain ⟨q, hq, heq⟩ := List.mem_map.mp hleft
  exact PlainRule.readsBack_of_bare heq (hback d hd q hq (hfit d hd q hq))

end Resolution.Agrees

namespace Resolver

variable {r : Resolver} {specifier : String} {res : Resolution}

/-- A bundle of which no import has failed is read as the rules left in its modules exactly when
each is read back by itself, and so it is when all symbols are replaced in keeping with the shape
of their rules. -/
theorem resolveEntry_rereads (h : (r.resolveEntry specifier).answer = .ok (.finished res))
    (herrors : res.errors = []) : res.Rereads r.library := by
  obtain ⟨entry, s, loaded, hdoc, -, hc, -, hg, rfl⟩ := finished_cases h
  have hentry := Library.document?_path hdoc
  exact (hc.agrees hentry).rereads hentry herrors

/-- The entry `e` takes a value from `m`. -/
def dyed : Resolver where
  library := { texts := .ofList [
    (entryPath "e", ":import(\"m\")\x7ba:b\x7d.x\x7bcolor:a\x7d"),
    (entryPath "m", ":export\x7bb:red\x7d.y\x7b\x7d")] }
  root := "."

def dyedResolution : Resolution where
  source := ".y\x7b\x7d.x\x7bcolor:red\x7d"
  exports := ∅
  order := [entryPath "m", entryPath "e"]
  errors := []

theorem answer_dyed : (dyed.resolveEntry "e").answer = .ok (.finished dyedResolution) :=
  answer_eq_of_within (show dyed.resolutionWithin? "e" 3 = _ by decide +kernel)

theorem dyed_fits : ∀ d ∈ dyed.library.documents dyedResolution.order, ∀ q ∈ d.sheet.plainRules,
    q.Fits (dyed.library.replacements d) := by
  have htargets : ∀ d ∈ dyed.library.documents dyedResolution.order, ∀ p ∈ d.targets,
      (dyed.library.document? p).all fun e => e.targets = [] := by decide +kernel
  have hbalanced : ∀ d ∈ dyed.library.documents dyedResolution.order, ∀ q ∈ d.sheet.plainRules,
      q.staysBalanced (d.replacements dyed.library.ownExports?) := by decide +kernel
  intro d hd q hq
  refine PlainRule.fits_of_staysBalanced q ?_
  rw [Library.replacements, Document.replacements_congr fun p hp =>
    Library.exports?_eq_ownExports? fun e he => ?_]
  · exact hbalanced d hd q hq
  · have hall := htargets d hd p hp
    rw [Option.mem_def.mp he] at hall
    simpa using hall

theorem dyed_rereads :
    (dyed.resolveEntry "e").answer = .ok (.finished dyedResolution) ∧
      dyedResolution.errors = [] ∧ dyedResolution.Rereads dyed.library ∧
      ReadsAs dyedResolution.source ((dyed.library.documents dyedResolution.order).flatMap
        fun d => (dyed.library.resolved d).plainRules) := by
  have h := resolveEntry_rereads answer_dyed rfl
  exact ⟨answer_dyed, rfl, h, h.readsAs dyed_fits⟩

/-- The entry `e` puts a quote that `m` exports into a string with other quotes. -/
def quoted : Resolver where
  library := { texts := .ofList [
    (entryPath "e", ":import(\"m\")\x7ba:b\x7d.x\x7bcontent:\"a\"\x7d"),
    (entryPath "m", ":export\x7bb:'\"'\x7d")] }
  root := "."

def quotedResolution : Resolution where
  source := ".x\x7bcontent:\"'\"'\"\x7d"
  exports := ∅
  order := [entryPath "m", entryPath "e"]
  errors := []

/-- The bundle of `quoted` is no stylesheet, though no import has failed. -/
theorem quoted_unreadable :
    (quoted.resolveEntry "e").answer = .ok (.finished quotedResolution) ∧
      quotedResolution.errors = [] ∧
      ∀ sheet, Stylesheet.parse quotedResolution.source ≠ .ok sheet := by
  have hnone : (Stylesheet.parse quotedResolution.source).toOption.isNone := by decide +kernel
  refine ⟨answer_eq_of_within (show quoted.resolutionWithin? "e" 3 = _ by decide +kernel), rfl,
    fun sheet h => ?_⟩
  rw [h] at hnone
  cases hnone

end Resolver

end StyleBundle
