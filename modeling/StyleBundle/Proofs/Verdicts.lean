import StyleBundle.Proofs.BundleReading
import StyleBundle.Proofs.EntryLast
import StyleBundle.Proofs.Timing

/-!
# When a resolution is complete

Failures are collected on the way: by loads that fail, once for each load however many imports wait
for it, and by documents that are linked. None is collected exactly when each import that the entry
leads to finds its module and each of its bindings finds its name there. That is a property of the
texts, so it does not depend on the order in which answers arrive.
-/

namespace StyleBundle

/-! ## Exported names -/

namespace Rule

def exportNames (r : Rule) : List String :=
  (r.asExport?.map fun r => r.bindings.map Binding.name).getD []

theorem exportNames_bare (r : Rule) : r.bare.exportNames = r.exportNames := by
  cases r with
  | plain => rfl
  | imports => rfl
  | exports r =>
    show (r.bindings.map Binding.withoutSpan).map Binding.name = r.bindings.map Binding.name
    rw [List.map_map]
    rfl

theorem exportNames_replaceSymbols (t : Replacements) (r : Rule) :
    (r.replaceSymbols t).exportNames = r.exportNames := by
  cases r <;> rfl

end Rule

namespace Stylesheet

variable {s : Stylesheet}

def exportNames (s : Stylesheet) : List String :=
  s.exports.flatMap fun r => r.bindings.map Binding.name

theorem exportNames_eq_flatMap (s : Stylesheet) :
    s.exportNames = s.rules.flatMap Rule.exportNames := by
  obtain ⟨rules, trailing⟩ := s
  unfold exportNames exports
  dsimp only
  induction rules with
  | nil => rfl
  | cons r rules ih =>
    rw [List.flatMap_cons, ← ih]
    cases r <;> rfl

theorem exportNames_removeRules {remove : Rule → Bool} (h : ∀ r, remove r → r.isImport) :
    (s.removeRules fun _ r => remove r).2.exportNames = s.exportNames := by
  have hbare : ∀ rules : List Rule,
      rules.flatMap Rule.exportNames = (rules.map Rule.bare).flatMap Rule.exportNames :=
    fun rules => by simp only [List.flatMap_map, Rule.exportNames_bare]
  rw [exportNames_eq_flatMap, exportNames_eq_flatMap, hbare, map_bare_removeRules, ← hbare]
  induction s.rules with
  | nil => rfl
  | cons r rules ih =>
    by_cases hr : remove r = true
    · have hnone : r.exportNames = [] := by
        have himport := h r hr
        cases r with
        | plain => rfl
        | imports => rfl
        | exports => cases himport
      simpa [hr, hnone] using ih
    · simpa [hr] using ih

theorem exportNames_replaceSymbols (s : Stylesheet) (t : Replacements) :
    (s.replaceSymbols t).exportNames = s.exportNames := by
  rw [exportNames_eq_flatMap, exportNames_eq_flatMap, replaceSymbols, List.flatMap_map]
  exact List.flatMap_congr fun r _ => r.exportNames_replaceSymbols t

theorem takeExports_fst (s : Stylesheet) : s.takeExports.1 = s.exports := by
  have hrules : ((s.rules.zipIdx.filter fun e => e.1.isExport).map Prod.fst) =
      s.rules.filter Rule.isExport := by
    conv_rhs => rw [← List.zipIdx_map_fst 0 s.rules, List.filter_map]
    rfl
  show ((s.rules.zipIdx.filter fun e => e.1.isExport).map Prod.fst).filterMap Rule.asExport? = _
  rw [hrules, exports, List.filterMap_filter]
  refine List.filterMap_congr fun r _ => ?_
  cases r <;> rfl

end Stylesheet

theorem Table.contains_ofList {κ α : Type} [DecidableEq κ] (es : List (κ × α)) (k : κ) :
    (Table.ofList es).contains k = true ↔ k ∈ es.map Prod.fst := by
  suffices h : ∀ t : Table κ α, (es.foldl (fun t e => t.insert e.1 e.2) t).contains k = true ↔
      t.contains k = true ∨ k ∈ es.map Prod.fst from (h ∅).trans (by simp [contains])
  induction es with
  | nil => simp
  | cons e es ih =>
    intro t
    have hinsert : (t.insert e.1 e.2).contains k = true ↔ k = e.1 ∨ t.contains k = true := by
      rw [contains, find?_insert, contains]
      by_cases h : e.1 = k
      · simp [h]
      · simp [h, Ne.symm h]
    rw [List.foldl_cons, ih, hinsert, List.map_cons, List.mem_cons, or_assoc, or_left_comm]

theorem Document.contains_exports_evaluate (d : Document) (f : ModulePath → Option ExportTable)
    (name : String) :
    (d.evaluate f).exports.contains name = true ↔ name ∈ d.sheet.exportNames := by
  let had (r : Rule) : Bool := r.asImport?.any fun r => (f (d.path.resolve r.source)).isSome
  let left := (d.sheet.removeRules fun _ r => had r).2.replaceSymbols (d.replacements f)
  have himport : ∀ r, had r → r.isImport := fun r hr => by
    cases r with
    | imports => rfl
    | plain => cases hr
    | exports => cases hr
  have hexports : (d.evaluate f).exports = .ofList (left.takeExports.1.flatMap fun r =>
      r.bindings.map fun b => (b.name, substitute (d.replacements f) b.value)) := rfl
  have hnames : left.exportNames = d.sheet.exportNames := by
    rw [Stylesheet.exportNames_replaceSymbols, Stylesheet.exportNames_removeRules himport]
  rw [hexports, Table.contains_ofList, Stylesheet.takeExports_fst, List.map_flatMap, ← hnames,
    Stylesheet.exportNames]
  simp only [List.map_map, Function.comp_def]

/-! ## Imports that are served -/

namespace Library

variable {lib : Library} {entry d e : Document}

/-- Each import of the document names a module that can be loaded, and each of its bindings a name
that the module exports. -/
def Serves (lib : Library) (d : Document) : Prop :=
  ∀ r ∈ d.sheet.imports, ∃ e, lib.document? (d.path.resolve r.source) = some e ∧
    ∀ b ∈ r.bindings, b.value ∈ e.sheet.exportNames

/-- The library serves the entry and all documents that its imports lead to. -/
def Satisfies (lib : Library) (entry : Document) : Prop :=
  ∀ d, Relation.ReflTransGen lib.Needs entry d → lib.Serves d

theorem contains_exports_eval (he : lib.Grounded e) (name : String) :
    (lib.eval e he).exports.contains name = true ↔ name ∈ e.sheet.exportNames := by
  rw [eval_eq, Document.contains_exports_evaluate]

/-- A document of which all modules can be loaded is served when no binding asks in vain. -/
theorem errors_eval_eq_nil_iff (hd : lib.Grounded d)
    (hload : ∀ r ∈ d.sheet.imports, ∃ e, lib.document? (d.path.resolve r.source) = some e) :
    (lib.eval d hd).errors = [] ↔ lib.Serves d := by
  have herrors : (lib.eval d hd).errors = d.sheet.imports.flatMap fun r =>
      r.missing d.path (lib.exports? (d.path.resolve r.source)) := by
    rw [eval_eq]
    rfl
  rw [herrors, List.flatMap_eq_nil_iff]
  refine forall₂_congr fun r hr => ?_
  obtain ⟨e, he⟩ := hload r hr
  have hneeds : lib.Needs d e :=
    ⟨path_of_document? he ▸ List.mem_map_of_mem hr, document?_path he⟩
  have hge := hd.needs hneeds
  rw [exports?_eq_some hge he, ImportRule.missing, List.map_eq_nil_iff, List.filter_eq_nil_iff]
  simp only [Bool.not_eq_true', Bool.not_eq_false, contains_exports_eval hge, he,
    Option.some.injEq, exists_eq_left']

theorem exports?_withDelay (lib : Library) (delay : ModulePath → Nat) :
    (lib.withDelay delay).exports? = lib.exports? := by
  funext p
  cases hdoc : lib.document? p with
  | none =>
    have hdoc' : (lib.withDelay delay).document? p = none := hdoc
    rw [exports?, exports?, hdoc, hdoc']
    rfl
  | some d =>
    by_cases hd : lib.Grounded d
    · have hd' : (lib.withDelay delay).Grounded d := hd
      rw [exports?_eq_some hd hdoc, exports?_eq_some hd' hdoc]
      exact congrArg (fun l : Linked => some l.exports) (eval_withDelay hd)
    · have hdoc' : (lib.withDelay delay).document? p = some d := hdoc
      have hd' : ¬(lib.withDelay delay).Grounded d := hd
      rw [exports?, exports?, hdoc, hdoc', Option.bind_some, Option.bind_some, dif_neg hd,
        dif_neg hd']

theorem resolved_withDelay (lib : Library) (delay : ModulePath → Nat) (d : Document) :
    (lib.withDelay delay).resolved d = lib.resolved d := by
  rw [resolved, resolved, exports?_withDelay]

end Library

/-! ## The verdict -/

namespace Session.Complete

variable {lib : Library} {entry d : Document} {initial : List Fetched} {s : Session}
  {loaded : List (Option ExportTable)} {hg : lib.Grounded entry}

theorem serves_of_errors_eq_nil (h : s.Complete lib entry initial loaded)
    (herrors : (s.resolution entry (lib.eval entry hg)).errors = [])
    (hd : Relation.ReflTransGen lib.Needs entry d) : lib.Serves d := by
  obtain ⟨k, hholds, hgd, hsubset⟩ := h.errors_eval_subset hg hd
  refine (Library.errors_eval_eq_nil_iff hgd fun r hr => ?_).mp ?_
  · obtain ⟨i, hi⟩ := List.mem_iff_getElem?.mp hr
    cases hdoc : lib.document? (d.path.resolve r.source) with
    | some e => exact ⟨e, rfl⟩
    | none =>
      obtain ⟨-, e, he, -⟩ := h.refused_of_import hholds hi hdoc
      have := List.mem_append_left (lib.eval entry hg).errors he
      rw [show s.context.errors ++ (lib.eval entry hg).errors = [] from herrors] at this
      cases this
  · rw [herrors] at hsubset
    exact List.eq_nil_iff_forall_not_mem.mpr fun e he => by cases hsubset e he

theorem errors_eq_nil_iff (h : s.Complete lib entry initial loaded) :
    (s.resolution entry (lib.eval entry hg)).errors = [] ↔ lib.Satisfies entry := by
  refine ⟨fun herrors d hd => h.serves_of_errors_eq_nil herrors hd, fun hall => ?_⟩
  refine List.eq_nil_iff_forall_not_mem.mpr fun e he => ?_
  have hcases : ∃ d, Relation.ReflTransGen lib.Needs entry d ∧
      ((∃ p ∈ d.targets, lib.refusal? d.path p = some e) ∨
        ∃ hd : lib.Grounded d, e ∈ (lib.eval d hd).errors) := by
    rcases List.mem_append.mp he with he | he
    · exact h.error_cases he
    · exact ⟨entry, .refl, .inr ⟨hg, he⟩⟩
  obtain ⟨d, hd, ⟨p, hp, hrefusal⟩ | ⟨hgd, he⟩⟩ := hcases
  · obtain ⟨r, hr, rfl⟩ := List.mem_map.mp hp
    obtain ⟨e, hdoc, -⟩ := hall d hd r hr
    rw [Library.document?_of_refusal? hrefusal] at hdoc
    cases hdoc
  · have hload := fun r hr => (hall d hd r hr).imp fun _ => And.left
    rw [(Library.errors_eval_eq_nil_iff hgd hload).mpr (hall d hd)] at he
    cases he

end Session.Complete

namespace Resolution

variable {res : Resolution}

theorem isComplete_iff : res.isComplete = true ↔ res.errors = [] :=
  List.isEmpty_iff

theorem complete_of_errors_eq_nil (h : res.errors = []) : res.complete = .ok res :=
  if_pos (isComplete_iff.mpr h)

theorem complete_of_errors_ne_nil (h : res.errors ≠ []) :
    res.complete = .error (.unresolved res.errors) :=
  if_neg (mt isComplete_iff.mp h)

end Resolution

theorem Resolver.Resolves.errors_eq_nil_iff {r : Resolver} {entry : Document} {clock : Nat}
    {initial : List Fetched} {run : Run} {res : Resolution}
    (h : r.Resolves entry clock initial run) (hres : run.answer = .ok (.finished res)) :
    res.errors = [] ↔ r.library.Satisfies entry := by
  obtain ⟨s, loaded, hc, hg, rfl⟩ := h.exists_complete hres
  exact hc.errors_eq_nil_iff

end StyleBundle
