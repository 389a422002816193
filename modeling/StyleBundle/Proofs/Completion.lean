import StyleBundle.Proofs.AssemblyOrder
import StyleBundle.Proofs.Runs

/-!
# Completed resolutions

When all imports of the entry have ended, all loads have. Then every document of the import tree is
open at one key, its text is what it evaluates to, and a position of the tree is recorded when
its importer is open right above it. So the bundle holds each document of the tree once, and which
positions are recorded alone decides the order.
-/

namespace StyleBundle.Session

variable {lib : Library} {entry : Document} {initial : List Fetched} {s : Session}
  {loaded : List (Option ExportTable)}

/-- A reached session in which all imports of the entry have ended. -/
structure Complete (lib : Library) (entry : Document) (initial : List Fetched) (s : Session)
    (loaded : List (Option ExportTable)) : Prop extends s.Reached lib entry initial where
  entry_ended : s.endings? .root entry = some loaded

/-- The document `d` stands at `k`, right below an open one unless it is the entry. -/
def Placed (lib : Library) (entry : Document) (s : Session) (k : TraceKey) (d : Document) : Prop :=
  lib.Located entry k d ∧ ∀ k' i, k = k'.child i → ∃ c, s.Holds entry k' c

namespace Complete

theorem ending (h : s.Complete lib entry initial loaded) {k : TraceKey} {d : Document}
    (hd : s.Holds entry k d)
    (hload : ∀ l, s.loads.find? k = some l → ∃ exports, l.stage = .ended exports) {i : Nat}
    {r : ImportRule} (hr : d.sheet.imports[i]? = some r) :
    ∃ x, s.ending? (k.child i) = some x := by
  rcases hd with ⟨rfl, rfl⟩ | hd
  · exact ending_of_endings? h.entry_ended hr
  · obtain ⟨l, hl, -, hopen⟩ := h.wired.opened hd
    obtain ⟨exports, hst⟩ := hload l hl
    rcases Stage.isOpen_cases hopen with hst' | ⟨exports', hst'⟩
    · rw [hst] at hst'
      cases hst'
    · obtain ⟨loaded', he⟩ := h.faithful.closed hl hst' hd
      exact ending_of_endings? he hr

/-- Every load has ended, since the import that started it has, which stands in a document nearer
to the entry. -/
theorem load_ended (h : s.Complete lib entry initial loaded) {k : TraceKey} {l : Load}
    (hl : s.loads.find? k = some l) : ∃ exports, l.stage = .ended exports := by
  induction k using TraceKey.child_induction generalizing l with
  | root =>
    obtain ⟨k', _, _, _, _, _, hk⟩ := h.wired.holder (h.wired.starts hl)
    exact absurd hk.symm (TraceKey.child_ne_root _ _)
  | child k i ih =>
    obtain ⟨k', d, i', r, hd, hr, hk⟩ := h.wired.holder (h.wired.starts hl)
    obtain ⟨rfl, rfl⟩ := TraceKey.child_inj hk
    obtain ⟨x, hx⟩ := h.ending hd (fun _ hl' => ih hl') hr
    exact ended_of_ending? (h.wired.starts hl) hl hx

theorem load_succeeded (h : s.Complete lib entry initial loaded) {k : TraceKey} {d : Document}
    (hd : s.documents.find? k = some d) : ∃ l exports, s.loads.find? k = some l ∧
      l.stage = .ended (some exports) ∧ lib.document? l.path = some d := by
  obtain ⟨l, hl, hdoc, hopen⟩ := h.wired.opened hd
  obtain ⟨exports, hst⟩ := h.load_ended hl
  rcases Stage.isOpen_cases hopen with hst' | ⟨exports', hst'⟩
  · rw [hst] at hst'
    cases hst'
  · exact ⟨l, exports', hl, hst', hdoc⟩

theorem import_ended (h : s.Complete lib entry initial loaded) {k : TraceKey} {d : Document}
    (hd : s.Holds entry k d) {i : Nat} {r : ImportRule} (hr : d.sheet.imports[i]? = some r) :
    ∃ x, s.ending? (k.child i) = some x :=
  h.ending hd (fun _ hl => h.load_ended hl) hr

theorem link_eq_eval (h : s.Complete lib entry initial loaded) :
    ∃ hg : lib.Grounded entry, entry.sheet.link entry.path loaded = lib.eval entry hg :=
  h.faithful.link_eq_eval h.wired .root h.entry_ended

theorem grounded (h : s.Complete lib entry initial loaded) : lib.Grounded entry :=
  h.link_eq_eval.1

/-! ## Open documents -/

theorem exists_holds (h : s.Complete lib entry initial loaded) {k : TraceKey} {d : Document}
    (hk : lib.Located entry k d) : ∃ k', s.Holds entry k' d := by
  induction hk with
  | root => exact ⟨.root, .inl ⟨rfl, rfl⟩⟩
  | child hk hr he ih =>
    obtain ⟨k', hd⟩ := ih
    obtain ⟨x, hx⟩ := h.import_ended hd hr
    rcases h.wired.ending_cases ⟨_, _, _, _, h.wired.located hd, hr, rfl, rfl⟩ hx with
      ⟨-, hnone⟩ | ⟨exports, -, hs⟩
    · rw [hnone] at he
      cases he
    · obtain ⟨k'', l, hl, hp, hst⟩ := h.wired.ready hs
      exact ⟨k'', .inr (h.wired.document_of_open hl (by rw [hst]; rfl) (hp ▸ he))⟩

theorem holds_inj (h : s.Complete lib entry initial loaded) {k k' : TraceKey} {d : Document}
    (hd : s.Holds entry k d) (hd' : s.Holds entry k' d) : k = k' := by
  have hl := h.wired.located hd
  have hl' := h.wired.located hd'
  rcases hd with ⟨rfl, rfl⟩ | hd
  · exact (hl'.eq_of_under h.grounded hl (TraceKey.under_root k')).symm
  · rcases hd' with ⟨rfl, rfl⟩ | hd'
    · exact hl.eq_of_under h.grounded hl' (TraceKey.under_root k)
    · exact h.wired.opened_inj hd hd' rfl

theorem holds_of_under (h : s.Complete lib entry initial loaded) {k k' : TraceKey}
    {d : Document} (hd : s.Holds entry k d) (hk : k.Under k') : ∃ c, s.Holds entry k' c := by
  induction k using TraceKey.child_induction generalizing d with
  | root =>
    cases le_antisymm hk.le (TraceKey.under_root k').le
    exact ⟨d, hd⟩
  | child k i ih =>
    rcases hk.child_cases with rfl | hk
    · exact ⟨d, hd⟩
    · obtain ⟨c, hc⟩ := h.wired.holder_of_holds hd
      exact ih hc hk

theorem placed_of_holds (h : s.Complete lib entry initial loaded) {k : TraceKey} {d : Document}
    (hd : s.Holds entry k d) : s.Placed lib entry k d :=
  ⟨h.wired.located hd, by
    rintro k' i rfl
    exact h.wired.holder_of_holds hd⟩

/-! ## What is recorded -/

theorem source_of_documents (h : s.Complete lib entry initial loaded) {k : TraceKey} {d : Document}
    (hd : s.documents.find? k = some d) :
    ∃ hg : lib.Grounded d, s.context.sources.find? d.path = some (lib.eval d hg).source := by
  obtain ⟨l, exports, hl, hst, hdoc⟩ := h.load_succeeded hd
  obtain ⟨d', hg, hdoc', -, hsource⟩ := h.faithful.ready (h.wired.succeeded hl hst).1
  cases hdoc.symm.trans hdoc'
  exact ⟨hg, Library.path_of_document? hdoc ▸ hsource⟩

theorem trace_iff (h : s.Complete lib entry initial loaded) {k : TraceKey} {p : ModulePath} :
    s.context.traces.find? k = some p ↔
      k ≠ .root ∧ ∃ d, s.Placed lib entry k d ∧ d.path = p := by
  constructor
  · intro hk
    obtain ⟨hn, hc, exports, hs⟩ := h.wired.traced hk
    obtain ⟨d, -, hdoc, -⟩ := h.faithful.ready hs
    obtain ⟨sup, hsup⟩ := Option.isSome_iff_exists.mp hc
    obtain ⟨k', c, i, r, hd, -, rfl⟩ := h.wired.holder hsup
    refine ⟨TraceKey.child_ne_root _ _, d, ⟨hn.located hdoc, fun k'' i' hk' => ?_⟩,
      Library.path_of_document? hdoc⟩
    obtain ⟨rfl, -⟩ := TraceKey.child_inj hk'
    exact ⟨c, hd⟩
  · rintro ⟨hroot, d, ⟨hk, hplace⟩, rfl⟩
    have hn := hk.named hroot
    have hdoc : lib.document? d.path = some d := by
      rcases hk.document? with ⟨hk, -⟩ | ⟨-, hdoc⟩
      · exact absurd hk hroot
      · exact hdoc
    obtain ⟨k', i, rfl⟩ := (TraceKey.eq_root_or_child k).resolve_left hroot
    obtain ⟨c, hc⟩ := hplace k' i rfl
    obtain ⟨c', r, hc', hr, -⟩ := Library.located_child_iff.mp hk
    cases (h.wired.located hc).unique hc'
    obtain ⟨x, hx⟩ := h.import_ended hc hr
    cases hs : s.supplies.find? (k'.child i) with
    | none => simp [ending?, hs] at hx
    | some sup =>
      cases sup with
      | exports exports =>
        obtain ⟨q, hq, -, ht⟩ := h.wired.hits hs
        rwa [hn.unique hq]
      | load k'' =>
        obtain ⟨l, hl, hq⟩ := h.wired.joins hs
        obtain ⟨exports, hst⟩ := h.load_ended hl
        cases exports with
        | none =>
          rw [hn.unique hq, h.wired.failed hl hst] at hdoc
          cases hdoc
        | some exports =>
          rw [hn.unique hq]
          exact (h.wired.succeeded hl hst).2 _ hs

theorem exists_placed (h : s.Complete lib entry initial loaded) {k : TraceKey} {d : Document}
    (hk : lib.Located entry k d) : ∃ k', s.Placed lib entry k' d := by
  obtain ⟨k', hd⟩ := h.exists_holds hk
  exact ⟨k', h.placed_of_holds hd⟩

end Complete

/-! ## The bundle -/

/-- The recorded modules and the entry with its text. -/
def traces (s : Session) (entry : Document) : Table TraceKey ModulePath :=
  s.context.traces.insert .root entry.path

def sources (s : Session) (entry : Document) (source : String) : Table ModulePath String :=
  s.context.sources.insert entry.path source

def bundle (s : Session) (entry : Document) (source : String) : Assembly :=
  .ofTables (s.traces entry) (s.sources entry source)

/-- What a run answers whose entry evaluates to `linked`. -/
def resolution (s : Session) (entry : Document) (linked : Linked) : Resolution where
  source := (s.bundle entry linked.source).source
  exports := linked.exports
  order := (s.bundle entry linked.source).order
  errors := s.context.errors ++ linked.errors

theorem finish_eq (h : s.endings? .root entry = some loaded) : Resolver.finish s entry =
    .finished (s.resolution entry (entry.sheet.link entry.path loaded)) := by
  simp [Resolver.finish, h, Context.recordEntry, Context.assembly, resolution, bundle, traces,
    sources, Context.foldl_report, Context.record]

namespace Complete

theorem traces_iff (h : s.Complete lib entry initial loaded) {k : TraceKey} {p : ModulePath} :
    (s.traces entry).find? k = some p ↔ ∃ d, s.Placed lib entry k d ∧ d.path = p := by
  rw [traces, Table.find?_insert]
  split
  · next hk =>
    subst hk
    rw [Option.some.injEq]
    constructor
    · rintro rfl
      exact ⟨entry, h.placed_of_holds (.inl ⟨rfl, rfl⟩), rfl⟩
    · rintro ⟨d, hd, rfl⟩
      rw [Library.located_root_iff.mp hd.1]
  · next hk =>
    rw [h.trace_iff]
    exact and_iff_right (Ne.symm hk)

variable {hg : lib.Grounded entry}

theorem find?_sources (h : s.Complete lib entry initial loaded)
    (hentry : lib.document? entry.path = some entry) (hg : lib.Grounded entry) {k : TraceKey}
    {d : Document} (hk : lib.Located entry k d) : ∃ hd : lib.Grounded d,
      (s.sources entry (lib.eval entry hg).source).find? d.path = some (lib.eval d hd).source := by
  obtain ⟨k', hd⟩ := h.exists_holds hk
  rw [sources, Table.find?_insert]
  rcases hd with ⟨-, rfl⟩ | hd
  · exact ⟨hg, by rw [if_pos rfl]⟩
  · obtain ⟨hgd, hsource⟩ := h.source_of_documents hd
    refine ⟨hgd, ?_⟩
    split
    · next hp =>
      rcases hk.document? with ⟨-, rfl⟩ | ⟨-, hdoc⟩
      · rfl
      · rw [← hp, hentry] at hdoc
        cases hdoc
        rfl
    · exact hsource

theorem exists_find?_sources (h : s.Complete lib entry initial loaded) {k : TraceKey}
    {d : Document} (hk : lib.Located entry k d) (source : String) :
    ∃ text, (s.sources entry source).find? d.path = some text := by
  obtain ⟨k', hd⟩ := h.exists_holds hk
  by_cases hp : entry.path = d.path
  · exact ⟨source, by rw [sources, Table.find?_insert, if_pos hp]⟩
  · rcases hd with ⟨-, rfl⟩ | hd
    · exact absurd rfl hp
    · obtain ⟨hgd, hsource⟩ := h.source_of_documents hd
      exact ⟨_, by rw [sources, Table.find?_insert, if_neg hp, hsource]⟩

/-- The bundle holds the documents of the tree and no others, whatever the text of the entry. -/
theorem mem_bundle_iff (h : s.Complete lib entry initial loaded) (source : String)
    {p : ModulePath} :
    p ∈ (s.bundle entry source).order ↔ ∃ k d, lib.Located entry k d ∧ d.path = p := by
  rw [bundle, Assembly.mem_order_iff]
  constructor
  · rintro ⟨⟨k, hk⟩, -⟩
    obtain ⟨d, hd, hp⟩ := h.traces_iff.mp hk
    exact ⟨k, d, hd.1, hp⟩
  · rintro ⟨k, d, hk, rfl⟩
    obtain ⟨k', hd⟩ := h.exists_placed hk
    exact ⟨⟨k', h.traces_iff.mpr ⟨d, hd, rfl⟩⟩,
      Option.isSome_iff_exists.mpr (h.exists_find?_sources hk source)⟩

end Complete

end StyleBundle.Session
