import StyleBundle.Proofs.EntryLast
import StyleBundle.Proofs.FaultSpans

/-!
# Faults that a resolution reports

A text that is no stylesheet ends a resolution when it is that of the entry, and is one of the
collected failures when it is that of an imported module. Either failure keeps the text that was
read and the cause, and its label is at the span to which the cause points in this text.
-/

namespace StyleBundle

/-- The cause is that for which the text cannot be read, and the diagnostic has its one label where
the cause points into the text. -/
structure Diagnostic.ShowsFault (d : Diagnostic) (text : String) (cause : SyntaxError) : Prop where
  parsed : Stylesheet.parse text = .error cause
  pointsInto : cause.PointsInto text
  label : d.labels.map Label.span = [cause.span]

/-- The failures of a run to read a text: that of the entry, where `Given` are the path and the text
of the entry, and those of imported modules. -/
structure Run.KeepsFaults (run : Run) (lib : Library) (Given : ModulePath → String → Prop) :
    Prop where
  entry_iff (p : ModulePath) (text : String) (cause : SyntaxError) :
    run.answer = .error (.entryParseFailed p text cause) ↔
      Given p text ∧ Stylesheet.parse text = .error cause
  entry (p : ModulePath) (text : String) (cause : SyntaxError) :
    run.answer = .error (.entryParseFailed p text cause) →
      (ResolveError.entryParseFailed p text cause).diagnostic.ShowsFault text cause
  imports (res : Resolution) (p : ModulePath) (text : String) (cause : SyntaxError) :
    run.answer = .ok (.finished res) → .parseFailed p text cause ∈ res.errors →
      lib.answer p = .ok text ∧
        (ImportError.parseFailed p text cause).diagnostic.ShowsFault text cause

variable {lib : Library} {entry d : Document} {initial : List Fetched} {s : Session}
  {loaded : List (Option ExportTable)} {p : ModulePath} {text : String} {cause : SyntaxError}

/-! ## Imports -/

theorem Library.refusal?_eq_parseFailed {importer q : ModulePath}
    (h : lib.refusal? importer q = some (.parseFailed p text cause)) :
    lib.answer p = .ok text ∧ Stylesheet.parse text = .error cause := by
  unfold refusal? at h
  cases ha : lib.answer q with
  | error => simp [ha] at h
  | ok given =>
    cases hp : Stylesheet.parse given with
    | ok => simp [ha, hp] at h
    | error =>
      simp only [ha, hp, Option.some.injEq, ImportError.parseFailed.injEq] at h
      obtain ⟨rfl, rfl, rfl⟩ := h
      exact ⟨ha, hp⟩

theorem Stylesheet.parseFailed_notMem_link (file : ModulePath) (sheet : Stylesheet)
    (loaded : List (Option ExportTable)) :
    .parseFailed p text cause ∉ (sheet.link file loaded).errors := by
  simp [link]

theorem Library.parseFailed_notMem_eval (hd : lib.Grounded d) :
    .parseFailed p text cause ∉ (lib.eval d hd).errors := by
  rw [eval, ← Document.link_eq_evaluate]
  exact Stylesheet.parseFailed_notMem_link _ _ _

theorem Session.Complete.parsed_of_mem_errors (h : s.Complete lib entry initial loaded)
    {hg : lib.Grounded entry}
    (he : .parseFailed p text cause ∈ (s.resolution entry (lib.eval entry hg)).errors) :
    lib.answer p = .ok text ∧ Stylesheet.parse text = .error cause := by
  rcases List.mem_append.mp he with he | he
  · obtain ⟨d, -, ⟨q, -, hrefused⟩ | ⟨hd, he⟩⟩ := h.error_cases he
    · exact Library.refusal?_eq_parseFailed hrefused
    · exact absurd he (Library.parseFailed_notMem_eval hd)
  · exact absurd he (Library.parseFailed_notMem_eval hg)

/-! ## Runs -/

namespace Resolver

variable {r : Resolver} {run : Run} {clock : Nat} {Given : ModulePath → String → Prop}

theorem resolveFrom_eq_entryParseFailed_iff {path : ModulePath} {given : String}
    {requests : List Fetched} :
    (r.resolveFrom path given clock requests).answer = .error (.entryParseFailed p text cause) ↔
      (p = path ∧ text = given) ∧ Stylesheet.parse text = .error cause := by
  unfold resolveFrom
  cases hp : Stylesheet.parse given with
  | error cause' =>
    simp only [Except.error.injEq, ResolveError.entryParseFailed.injEq]
    constructor
    · rintro ⟨rfl, rfl, rfl⟩
      exact ⟨⟨rfl, rfl⟩, hp⟩
    · rintro ⟨⟨rfl, rfl⟩, h⟩
      exact ⟨rfl, rfl, Except.error.inj (hp.symm.trans h)⟩
  | ok sheet =>
    dsimp only
    constructor
    · split <;> simp
    · rintro ⟨⟨rfl, rfl⟩, h⟩
      cases hp.symm.trans h

theorem resolveEntry_eq_entryParseFailed_iff {specifier : String} :
    (r.resolveEntry specifier).answer = .error (.entryParseFailed p text cause) ↔
      (p = entryPath specifier ∧ r.library.answer p = .ok text) ∧
        Stylesheet.parse text = .error cause := by
  simp only [resolveEntry, FetchRequest.target_mk]
  rw [← entryPath]
  cases ha : r.library.answer (entryPath specifier) with
  | error cause' =>
    dsimp only
    constructor
    · simp
    · rintro ⟨⟨rfl, h⟩, -⟩
      cases ha.symm.trans h
  | ok given =>
    rw [resolveFrom_eq_entryParseFailed_iff]
    constructor
    · rintro ⟨⟨rfl, rfl⟩, h⟩
      exact ⟨⟨rfl, ha⟩, h⟩
    · rintro ⟨⟨rfl, h⟩, hp⟩
      exact ⟨⟨rfl, Except.ok.inj (h.symm.trans ha)⟩, hp⟩

theorem keepsFaults_of_entry_iff
    (hentry : ∀ p text cause, run.answer = .error (.entryParseFailed p text cause) ↔
      Given p text ∧ Stylesheet.parse text = .error cause)
    (hfinished : ∀ res, run.answer = .ok (.finished res) → ∃ entry initial s loaded,
      Session.Complete r.library entry initial s loaded ∧
        ∃ hg, res = s.resolution entry (r.library.eval entry hg)) :
    run.KeepsFaults r.library Given where
  entry_iff := hentry
  entry p text cause h := by
    have hparse := ((hentry p text cause).mp h).2
    exact ⟨hparse, Stylesheet.pointsInto_of_parse hparse, rfl⟩
  imports res p text cause h he := by
    obtain ⟨entry, initial, s, loaded, hc, hg, rfl⟩ := hfinished res h
    obtain ⟨ha, hparse⟩ := hc.parsed_of_mem_errors he
    exact ⟨ha, hparse, Stylesheet.pointsInto_of_parse hparse, rfl⟩

/-- Every failure to read a text points at its cause, and what a resolution reports of it is the
text that was read and the span to which the cause points. -/
theorem faults_pointInto (r : Resolver) :
    (∀ text e, Stylesheet.parse text = .error e → e.PointsInto text) ∧
      (∀ specifier, (r.resolveEntry specifier).KeepsFaults r.library fun p text =>
        p = entryPath specifier ∧ r.library.answer p = .ok text) ∧
      ∀ path given, (r.resolveSource path given).KeepsFaults r.library fun p text =>
        p = path ∧ text = given := by
  refine ⟨fun text e => Stylesheet.pointsInto_of_parse, fun specifier => ?_, fun path given => ?_⟩
  · refine keepsFaults_of_entry_iff (fun p text cause => resolveEntry_eq_entryParseFailed_iff) ?_
    intro res hres
    obtain ⟨entry, s, loaded, -, -, hc, -, hg, rfl⟩ := finished_cases hres
    exact ⟨entry, _, s, loaded, hc, hg, rfl⟩
  · refine keepsFaults_of_entry_iff (fun p text cause => resolveFrom_eq_entryParseFailed_iff) ?_
    intro res hres
    cases hparse : Stylesheet.parse given with
    | error cause => simp [resolveSource, resolveFrom, hparse] at hres
    | ok sheet =>
      obtain ⟨s, loaded, hc, hg, rfl⟩ := Resolves.exists_complete (.source hparse) hres
      exact ⟨_, _, s, loaded, hc, hg, rfl⟩

end Resolver

end StyleBundle
