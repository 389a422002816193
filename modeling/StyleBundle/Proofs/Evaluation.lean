import Mathlib.Data.List.Zip
import StyleBundle.Resolution.Link
import StyleBundle.Proofs.ImportTree

/-!
# Plain evaluation

What a document evaluates to when each of its imports is evaluated from scratch, with nothing shared
between two imports of one module. The recursion follows the chains of imports, so it is defined for
grounded documents. Linking a document with what its imports ended with is one step of it.
-/

namespace StyleBundle

/-! ## One document -/

namespace ImportRule

/-- The local names that an import binds when its module has the given exports; names that the
module does not export are skipped. -/
def bound (r : ImportRule) : Option ExportTable → List (String × String)
  | some exports => r.bindings.filterMap fun b => (exports.find? b.value).map (b.name, ·)
  | none => []

/-- The bindings that ask in vain for names of a module that was loaded. -/
def missing (r : ImportRule) (file : ModulePath) : Option ExportTable → List ImportError
  | some exports => (r.bindings.filter fun b => !exports.contains b.value).map fun b =>
      .missingExport b.value (file.resolve r.source) file
  | none => []

end ImportRule

/-- The document with its import rules replaced, where `exports` gives the export tables of the
modules that can be had: their imports go and bind their names, and the export rules are taken out
and make the document's own table. -/
def Document.evaluate (d : Document) (exports : ModulePath → Option ExportTable) : Linked :=
  let given (r : ImportRule) : Option ExportTable := exports (d.path.resolve r.source)
  let t : Replacements := .ofList (d.sheet.imports.flatMap fun r => r.bound (given r))
  let (_, sheet) := d.sheet.removeRules fun _ r => r.asImport?.any fun r => (given r).isSome
  let (taken, sheet) := (sheet.replaceSymbols t).takeExports
  { source := sheet.print
    exports := .ofList (taken.flatMap fun r =>
      r.bindings.map fun b => (b.name, substitute t b.value))
    errors := d.sheet.imports.flatMap fun r => r.missing d.path (given r) }

namespace Stylesheet

theorem map_fst_placedImports (s : Stylesheet) : s.placedImports.map Prod.fst = s.imports := by
  simp only [placedImports, imports, List.map_filterMap]
  conv_rhs => rw [← List.zipIdx_map_fst 0 s.rules, List.filterMap_map]
  refine List.filterMap_congr fun ⟨r, i⟩ _ => ?_
  cases h : r.asImport? <;> simp [h]

theorem removeRules_congr {f g : Nat → Rule → Bool} {s : Stylesheet}
    (h : ∀ e ∈ s.rules.zipIdx, f e.2 e.1 = g e.2 e.1) : s.removeRules f = s.removeRules g := by
  have hf := List.filter_congr (p := fun e : Rule × Nat => f e.2 e.1) (q := fun e => g e.2 e.1) h
  have hg := List.filter_congr (p := fun e : Rule × Nat => !f e.2 e.1) (q := fun e => !g e.2 e.1)
    fun e he => congrArg (!·) (h e he)
  unfold removeRules
  dsimp only
  rw [hf, hg]

variable {s : Stylesheet} {given : ImportRule → Option ExportTable}

theorem zip_placedImports (s : Stylesheet) (given : ImportRule → Option ExportTable) :
    s.placedImports.zip (s.imports.map given) = s.placedImports.map fun e => (e, given e.1) := by
  rw [← map_fst_placedImports, List.map_map]
  have h := List.zip_map' (f := id) (g := given ∘ Prod.fst) (l := s.placedImports)
  rwa [List.map_id] at h

theorem contains_places {r : Rule} {i : Nat} (h : (r, i) ∈ s.rules.zipIdx) :
    ((s.placedImports.zip (s.imports.map given)).filterMap fun (r, e) =>
      e.map fun _ => r.2).contains i = r.asImport?.any fun r => (given r).isSome := by
  have hr := List.mk_mem_zipIdx_iff_getElem?.mp h
  rw [zip_placedImports, List.filterMap_map, Bool.eq_iff_iff, List.contains_iff_mem,
    List.mem_filterMap, Option.any_eq_true]
  simp only [Function.comp, placedImports, List.mem_filterMap, Prod.exists,
    Option.map_eq_some_iff, Prod.mk.injEq, Option.isSome_iff_exists]
  constructor
  · rintro ⟨r', i', ⟨rule, i'', hm, _, ha, rfl, rfl⟩, exports, he, rfl⟩
    cases (List.mk_mem_zipIdx_iff_getElem?.mp hm).symm.trans hr
    exact ⟨_, ha, exports, he⟩
  · rintro ⟨r', ha, exports, he⟩
    exact ⟨r', i, ⟨r, i, h, r', ha, rfl, rfl⟩, exports, he, rfl⟩

end Stylesheet

theorem flatMap_resolved {α : Type} (given : ImportRule → Option ExportTable)
    (f : Resolved → List α) (rs : List ImportRule) :
    (rs.filterMap fun r => (given r).map (r, ·)).flatMap f =
      rs.flatMap fun r => ((given r).map fun e => f (r, e)).getD [] := by
  induction rs with
  | nil => rfl
  | cons r rs ih => cases h : given r <;> simp [h, ih]

/-- Linking is evaluation, when each import has ended with the exports of its module. -/
theorem Document.link_eq_evaluate (d : Document) (exports : ModulePath → Option ExportTable) :
    d.sheet.link d.path (d.sheet.imports.map fun r => exports (d.path.resolve r.source)) =
      d.evaluate exports := by
  let given (r : ImportRule) := exports (d.path.resolve r.source)
  have hzip := d.sheet.zip_placedImports given
  have hremove : (d.sheet.removeRules fun i _ => ((d.sheet.placedImports.zip
      (d.sheet.imports.map given)).filterMap fun (r, e) => e.map fun _ => r.2).contains i) =
      d.sheet.removeRules fun _ r => r.asImport?.any fun r => (given r).isSome :=
    Stylesheet.removeRules_congr fun e he => Stylesheet.contains_places he
  have hresolved : (d.sheet.placedImports.zip (d.sheet.imports.map given)).filterMap
      (fun (r, e) => e.map (r.1, ·)) =
      d.sheet.imports.filterMap fun r => (given r).map (r, ·) := by
    rw [hzip, List.filterMap_map, ← Stylesheet.map_fst_placedImports, List.filterMap_map]
    rfl
  have htable : (d.sheet.imports.filterMap fun r => (given r).map (r, ·)).flatMap
      Resolved.replacements = d.sheet.imports.flatMap fun r => r.bound (given r) := by
    rw [flatMap_resolved]
    refine congrArg (d.sheet.imports.flatMap ·) (funext fun r => ?_)
    cases given r <;> rfl
  have herrors : (d.sheet.imports.filterMap fun r => (given r).map (r, ·)).flatMap
      (fun r : Resolved => r.missing.map fun name =>
        .missingExport name (d.path.resolve r.1.source) d.path) =
      d.sheet.imports.flatMap fun r => r.missing d.path (given r) := by
    rw [flatMap_resolved]
    refine congrArg (d.sheet.imports.flatMap ·) (funext fun r => ?_)
    cases given r with
    | none => rfl
    | some e => exact List.map_map
  simp only [Stylesheet.link, evaluate, given] at *
  rw [hresolved, hremove, htable, herrors]
  simp only [Stylesheet.exportTable, List.map_flatMap]

theorem Document.evaluate_congr {d : Document} {f g : ModulePath → Option ExportTable}
    (h : ∀ p ∈ d.targets, f p = g p) : d.evaluate f = d.evaluate g := by
  rw [← link_eq_evaluate, ← link_eq_evaluate]
  refine congrArg _ (List.map_congr_left fun r hr => h _ (List.mem_map_of_mem hr))

/-! ## Chains of imports -/

namespace Library

variable {lib : Library}

instance (lib : Library) : WellFoundedRelation {d // lib.Grounded d} where
  rel e d := lib.Needs d.1 e.1
  wf := ⟨fun d => InvImage.accessible Subtype.val d.2⟩

/-- The document's own evaluation, after that of every document it imports. -/
def eval (lib : Library) (d : Document) (hd : lib.Grounded d) : Linked :=
  d.evaluate fun p =>
    if hp : p ∈ d.targets then
      match he : lib.document? p with
      | some e =>
        have hn : lib.Needs d e := ⟨path_of_document? he ▸ hp, document?_path he⟩
        some (eval lib e (hd.needs hn)).exports
      | none => none
    else
      none
termination_by (⟨d, hd⟩ : {d // lib.Grounded d})

theorem eval_eq_evaluate {d : Document} {exports : ModulePath → Option ExportTable}
    (hd : lib.Grounded d)
    (hnone : ∀ p ∈ d.targets, lib.document? p = none → exports p = none)
    (hsome : ∀ p ∈ d.targets, ∀ e (he : lib.Grounded e), lib.document? p = some e →
      exports p = some (lib.eval e he).exports) :
    lib.eval d hd = d.evaluate exports := by
  rw [eval]
  refine Document.evaluate_congr fun p hp => ?_
  rw [dif_pos hp]
  split
  · next e he => exact (hsome p hp e _ he).symm
  · next he => exact (hnone p hp he).symm

end Library

end StyleBundle
