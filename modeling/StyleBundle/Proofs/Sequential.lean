import StyleBundle.Proofs.Evaluation
import StyleBundle.Proofs.Resolutions

/-!
# The sequential walk

A resolution as a single depth-first walk that does one thing after another. It visits the imports
of a document in order, takes the exports of a module that it has visited before, and otherwise
fetches, parses and visits the module. A module is emitted when its visit ends. There are no slots,
no loads and no trace keys.
-/

namespace StyleBundle

/-! ## The state of a walk -/

structure Walk where
  requests : List Fetched := []
  errors : List ImportError := []
  /-- The modules whose visits have ended, each with what it was linked to. -/
  emitted : List (ModulePath × Linked) := []

namespace Walk

def exports? (w : Walk) (p : ModulePath) : Option ExportTable :=
  (w.emitted.find? fun e => e.1 = p).map fun e => e.2.exports

/-- Makes a request, whose answer is there at once. -/
def request (w : Walk) (request : FetchRequest) : Walk :=
  { w with requests := w.requests ++ [⟨0, request⟩] }

def report (w : Walk) (error : ImportError) : Walk :=
  { w with errors := w.errors ++ [error] }

def emit (w : Walk) (p : ModulePath) (linked : Linked) : Walk :=
  { w with
    errors := w.errors ++ linked.errors
    emitted := w.emitted ++ [(p, linked)] }

/-- What a walk that is over resolves to: the modules in the order in which they were emitted. -/
def resolution (w : Walk) (exports : ExportTable) : Resolution where
  source := String.join (w.emitted.map fun e => e.2.source)
  exports
  order := w.emitted.map Prod.fst
  errors := w.errors

theorem exports?_emit {w : Walk} {p : ModulePath} (linked : Linked) (h : w.exports? p = none)
    (q : ModulePath) : (w.emit p linked).exports? q =
      if p = q then some linked.exports else w.exports? q := by
  have hnone : w.emitted.find? (fun e => e.1 = p) = none := Option.map_eq_none_iff.mp h
  simp only [exports?, emit, List.find?_append]
  by_cases hp : p = q
  · subst hp
    simp [hnone]
  · simp [hp, Option.or_none]

theorem mem_emitted_of_exports? {w : Walk} {p : ModulePath} {exports : ExportTable}
    (h : w.exports? p = some exports) : p ∈ w.emitted.map Prod.fst := by
  obtain ⟨e, he, -⟩ := Option.map_eq_some_iff.mp h
  have hp := List.find?_some he
  exact List.mem_map.mpr ⟨e, List.mem_of_find?_eq_some he, by simpa using hp⟩

theorem exports?_ne_none_of_mem {w : Walk} {p : ModulePath} (h : p ∈ w.emitted.map Prod.fst) :
    w.exports? p ≠ none := by
  obtain ⟨e, he, rfl⟩ := List.mem_map.mp h
  intro hnone
  have := List.find?_eq_none.mp (Option.map_eq_none_iff.mp hnone) e he
  simp at this

end Walk

/-! ## The walk -/

namespace Library

/-- Fetches and parses the module at `path` for an import in the module `importer`. -/
def load (lib : Library) (importer path : ModulePath) : Except ImportError Document :=
  match lib.answer path with
  | .error cause => .error (.fetchFailed path importer cause)
  | .ok text =>
    match Stylesheet.parse text with
    | .error cause => .error (.parseFailed path text cause)
    | .ok sheet => .ok ⟨path, sheet⟩

variable {lib : Library} {importer path : ModulePath}

theorem load_eq_error_iff {e : ImportError} :
    lib.load importer path = .error e ↔ lib.refusal? importer path = some e := by
  unfold load refusal?
  cases lib.answer path with
  | error cause => simp
  | ok text => cases h : Stylesheet.parse text <;> simp [h]

theorem load_eq_ok_iff {d : Document} :
    lib.load importer path = .ok d ↔ lib.document? path = some d := by
  unfold load document? sheet?
  cases lib.answer path with
  | error cause => simp
  | ok text => cases h : Stylesheet.parse text <;> simp [h, Except.toOption]

theorem needs_of_load {d e : Document} {i : Nat} {r : ImportRule}
    (hr : d.sheet.imports[i]? = some r)
    (he : lib.load d.path (d.path.resolve r.source) = .ok e) : lib.Needs d e :=
  needs_of_getElem? hr (load_eq_ok_iff.mp he)

mutual

def visit (lib : Library) (root : String) (w : Walk) (d : Document) (hd : lib.Grounded d) :
    Walk × ExportTable :=
  let (w, loaded) := visitImports lib root w d hd 0
  let linked := d.sheet.link d.path loaded
  (w.emit d.path linked, linked.exports)
termination_by ((⟨d, hd⟩ : {d // lib.Grounded d}), d.sheet.imports.length + 1)

/-- Visits the modules that the imports of a document from the index `i` on name. The imports end
with the exports of their modules, or with none. -/
def visitImports (lib : Library) (root : String) (w : Walk) (d : Document) (hd : lib.Grounded d)
    (i : Nat) : Walk × List (Option ExportTable) :=
  match hr : d.sheet.imports[i]? with
  | none => (w, [])
  | some r =>
    let p := d.path.resolve r.source
    let (w, ended) : Walk × Option ExportTable :=
      match w.exports? p with
      | some exports => (w, some exports)
      | none =>
        let w := w.request ⟨r.source, d.path, root⟩
        match he : lib.load d.path p with
        | .error e => (w.report e, none)
        | .ok e =>
          let (w, exports) := visit lib root w e (hd.needs (needs_of_load hr he))
          (w, some exports)
    let (w, loaded) := visitImports lib root w d hd (i + 1)
    (w, ended :: loaded)
termination_by ((⟨d, hd⟩ : {d // lib.Grounded d}), d.sheet.imports.length - i)
decreasing_by
  · exact .left _ _ (needs_of_load hr he)
  · exact .right _ (by have := (List.getElem?_eq_some_iff.mp hr).1; omega)

end

variable {root : String} {w : Walk} {d : Document} {hd : lib.Grounded d} {i : Nat}
  {r : ImportRule}

theorem visitImports_of_le (h : d.sheet.imports.length ≤ i) :
    lib.visitImports root w d hd i = (w, []) := by
  rw [visitImports]
  split
  · rfl
  · next hr => exact absurd (List.getElem?_eq_some_iff.mp hr).1 (Nat.not_lt.mpr h)

theorem visitImports_of_visited {exports : ExportTable} (hr : d.sheet.imports[i]? = some r)
    (hw : w.exports? (d.path.resolve r.source) = some exports) :
    lib.visitImports root w d hd i =
      ((lib.visitImports root w d hd (i + 1)).1,
        some exports :: (lib.visitImports root w d hd (i + 1)).2) := by
  rw [visitImports]
  split
  · next hnone =>
    rw [hr] at hnone
    cases hnone
  · next r' hr' =>
    cases hr.symm.trans hr'
    simp only [hw]

theorem visitImports_of_refusal {e : ImportError} {w' : Walk}
    (hr : d.sheet.imports[i]? = some r) (hw : w.exports? (d.path.resolve r.source) = none)
    (he : lib.refusal? d.path (d.path.resolve r.source) = some e)
    (hw' : w' = (w.request ⟨r.source, d.path, root⟩).report e) :
    lib.visitImports root w d hd i =
      ((lib.visitImports root w' d hd (i + 1)).1,
        none :: (lib.visitImports root w' d hd (i + 1)).2) := by
  subst hw'
  rw [visitImports]
  split
  · next hnone =>
    rw [hr] at hnone
    cases hnone
  · next r' hr' =>
    cases hr.symm.trans hr'
    simp only [hw]
    split
    · next e' he' =>
      cases he.symm.trans (load_eq_error_iff.mp he')
      rfl
    · next d' hd' =>
      have hnone := document?_of_refusal? he
      rw [load_eq_ok_iff.mp hd'] at hnone
      cases hnone

theorem visitImports_of_document {e : Document} (he : lib.Grounded e) {v : Walk × ExportTable}
    (hr : d.sheet.imports[i]? = some r) (hw : w.exports? (d.path.resolve r.source) = none)
    (hdoc : lib.document? (d.path.resolve r.source) = some e)
    (hv : v = lib.visit root (w.request ⟨r.source, d.path, root⟩) e he) :
    lib.visitImports root w d hd i =
      ((lib.visitImports root v.1 d hd (i + 1)).1,
        some v.2 :: (lib.visitImports root v.1 d hd (i + 1)).2) := by
  subst hv
  rw [visitImports]
  split
  · next hnone =>
    rw [hr] at hnone
    cases hnone
  · next r' hr' =>
    cases hr.symm.trans hr'
    simp only [hw]
    split
    · next e' he' =>
      rw [document?_of_refusal? (load_eq_error_iff.mp he')] at hdoc
      cases hdoc
    · next d' hd' =>
      cases hdoc.symm.trans (load_eq_ok_iff.mp hd')
      rfl

end Library

/-! ## Entries -/

namespace Resolver

/-- Fetches the entry that a specifier names at the root, and visits it like any module. -/
def walkEntry (r : Resolver) (specifier : String)
    (h : r.library.Acyclic (entryPath specifier)) : Run :=
  match ha : r.library.answer (entryPath specifier) with
  | .error cause =>
    ⟨.error (.entryFetchFailed (entryPath specifier) cause), r.entryRequest specifier⟩
  | .ok text =>
    match hp : Stylesheet.parse text with
    | .error cause =>
      ⟨.error (.entryParseFailed (entryPath specifier) text cause), r.entryRequest specifier⟩
    | .ok sheet =>
      let entry : Document := ⟨entryPath specifier, sheet⟩
      have hg : r.library.Grounded entry :=
        h.grounded (congrArg (Option.map _) (Library.sheet?_eq_some_iff.mpr ⟨text, ha, hp⟩))
      let (w, exports) := r.library.visit r.root { requests := r.entryRequest specifier } entry hg
      ⟨.ok (.finished (w.resolution exports)), w.requests⟩

end Resolver

end StyleBundle
