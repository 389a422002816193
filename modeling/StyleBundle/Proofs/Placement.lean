import StyleBundle.Proofs.Resolutions

/-!
# When dependencies come first

The positions below a document are recorded where its load was started, and the document stands in
the bundle at its first recorded position. So the imports of a module stand before it exactly when
no first position of the tree is missed, and that is when each module that is the first importer of
another was asked for by its own first importer.
-/

namespace StyleBundle

/-- The modules that a module imports stand before it. -/
def DependenciesFirst (lib : Library) (order : List ModulePath) : Prop :=
  ∀ m ∈ order, ∀ n, lib.Imports m n → [n, m].Sublist order

namespace Session

/-- The first position of every document is recorded. -/
def InPlace (lib : Library) (entry : Document) (s : Session) : Prop :=
  ∀ k d, lib.IsFirst entry k d → s.Placed lib entry k d

namespace Complete

variable {lib : Library} {entry : Document} {initial : List Fetched} {s : Session}
  {loaded : List (Option ExportTable)} {hg : lib.Grounded entry}

/-- One document stands before another exactly when some place of it comes before all places of the
other. -/
theorem pair_sublist_order_iff (h : s.Complete lib entry initial loaded)
    (hentry : lib.document? entry.path = some entry) {k k' : TraceKey} {d e : Document}
    (hd : lib.Located entry k d) (he : lib.Located entry k' e) :
    [d.path, e.path].Sublist (s.bundle entry (lib.eval entry hg).source).order ↔
      ∃ a, s.Placed lib entry a d ∧ ∀ b, s.Placed lib entry b e → a < b := by
  have htraces : ∀ {k k' : TraceKey} {c : Document}, lib.Located entry k' c →
      ((s.traces entry).find? k = some c.path ↔ s.Placed lib entry k c) := by
    intro k k' c hc
    rw [h.traces_iff]
    constructor
    · rintro ⟨c', hc', hp⟩
      cases hc'.1.eq_of_path hentry hc hp
      exact hc'
    · exact fun hc' => ⟨c, hc', rfl⟩
  rw [bundle, Assembly.pair_sublist_order_iff]
  simp only [Assembly.Precedes, htraces hd, htraces he]
  exact ⟨fun h' => h'.2.2, fun h' => ⟨(h.mem_bundle_iff _).mpr ⟨k, d, hd, rfl⟩,
    (h.mem_bundle_iff _).mpr ⟨k', e, he, rfl⟩, h'⟩⟩

/-! ## First positions -/

theorem dependenciesFirst_of_inPlace (h : s.Complete lib entry initial loaded)
    (hentry : lib.document? entry.path = some entry) (hin : InPlace lib entry s) :
    DependenciesFirst lib (s.bundle entry (lib.eval entry hg).source).order := by
  intro m hm n hi
  obtain ⟨k, d, hd, rfl⟩ := (h.mem_bundle_iff _).mp hm
  obtain ⟨e, he, hn⟩ := hi.needs (hd.loaded hentry)
  obtain ⟨i, r, hr, he'⟩ := hn.getElem?
  obtain ⟨k', hfirst⟩ := Library.exists_isFirst hg (hd.child hr he')
  rw [← Library.path_of_document? he, h.pair_sublist_order_iff hentry hfirst.1 hd]
  refine ⟨k', hin k' e hfirst, fun b hb => ?_⟩
  exact lt_of_le_of_lt (hfirst.2 _ (hb.1.child hr he')) (TraceKey.child_lt b i)

/-- When all first positions are recorded, documents stand in the order of those. -/
theorem pair_sublist_order_iff_first (h : s.Complete lib entry initial loaded)
    (hentry : lib.document? entry.path = some entry) (hin : InPlace lib entry s)
    {k k' : TraceKey} {d e : Document} (hd : lib.IsFirst entry k d)
    (he : lib.IsFirst entry k' e) :
    [d.path, e.path].Sublist (s.bundle entry (lib.eval entry hg).source).order ↔ k < k' := by
  rw [h.pair_sublist_order_iff hentry hd.1 he.1]
  constructor
  · rintro ⟨a, ha, hlt⟩
    exact lt_of_le_of_lt (hd.2 a ha.1) (hlt k' (hin k' e he))
  · exact fun hlt => ⟨k, hin k d hd, fun b hb => lt_of_lt_of_le hlt (he.2 b hb.1)⟩

theorem inPlace_of_dependenciesFirst (h : s.Complete lib entry initial loaded)
    (hentry : lib.document? entry.path = some entry)
    (hdf : DependenciesFirst lib (s.bundle entry (lib.eval entry hg).source).order) :
    InPlace lib entry s := by
  intro k
  induction k using TraceKey.child_induction with
  | root =>
    intro d hd
    cases Library.located_root_iff.mp hd.1
    exact h.placed_of_holds (.inl ⟨rfl, rfl⟩)
  | child k i ih =>
    intro d hd
    obtain ⟨c, r, hc, hr, hdoc⟩ := Library.located_child_iff.mp hd.1
    have hn := Library.needs_of_getElem? hr hdoc
    have hplaced := ih c (hd.parent hg hc)
    refine ⟨hd.1, fun k' i' hk => ?_⟩
    obtain ⟨rfl, rfl⟩ := TraceKey.child_inj hk
    -- Some place of `d` comes before the place of `c` at `k`, so it lies below `k`.
    have hmem : c.path ∈ (s.bundle entry (lib.eval entry hg).source).order :=
      (h.mem_bundle_iff _).mpr ⟨k, c, hc, rfl⟩
    have hpair := hdf _ hmem d.path (Library.imports_of_needs (hc.loaded hentry) hn)
    obtain ⟨a, ha, hlt⟩ := (h.pair_sublist_order_iff hentry hd.1 hc).mp hpair
    have hak := hlt k hplaced
    have hu : a.Under k := (TraceKey.child_under k i).of_between (hd.2 a ha.1) hak.le
    obtain ⟨a', j, rfl⟩ := (TraceKey.eq_root_or_child a).resolve_left (by
      rintro rfl
      exact absurd (TraceKey.under_root k).le (not_le.mpr hak))
    obtain ⟨c', hc'⟩ := ha.2 a' j rfl
    rcases hu.child_cases with rfl | hu
    · exact absurd hak (lt_irrefl _)
    · exact h.holds_of_under hc' hu

/-- First positions are recorded when a document with a first position below it is open at its own
first position, as soon as its importer there is. -/
theorem inPlace_of_importers (h : s.Complete lib entry initial loaded)
    (hopen : ∀ {k : TraceKey} {j i : Nat} {m c d : Document}, lib.Located entry k m →
      s.Holds entry k m → lib.IsFirst entry (k.child j) c →
      lib.IsFirst entry ((k.child j).child i) d → s.Holds entry (k.child j) c) :
    InPlace lib entry s := by
  have hholds : ∀ {k : TraceKey} {c d : Document} {i : Nat}, lib.IsFirst entry (k.child i) d →
      lib.Located entry k c → s.Holds entry k c := by
    intro k
    induction k using TraceKey.child_induction with
    | root =>
      intro c d i _ hc
      cases Library.located_root_iff.mp hc
      exact .inl ⟨rfl, rfl⟩
    | child k j ih =>
      intro c d i hd hc
      have hfirst := hd.parent h.grounded hc
      obtain ⟨m, r, hm, -, -⟩ := Library.located_child_iff.mp hc
      exact hopen hm (ih hfirst hm) hfirst hd
  intro k d hd
  refine ⟨hd.1, ?_⟩
  rintro k' i rfl
  obtain ⟨c, r, hc, -⟩ := Library.located_child_iff.mp hd.1
  exact ⟨c, hholds hd hc⟩

/-! ## Who asked for a module -/

theorem holds_of_load (h : s.Complete lib entry initial loaded) {k : TraceKey} {l : Load}
    {d : Document} (hl : s.loads.find? k = some l) (hd : lib.document? l.path = some d) :
    s.Holds entry k d := by
  obtain ⟨exports, hst⟩ := h.load_ended hl
  cases exports with
  | none =>
    rw [h.wired.failed hl hst] at hd
    cases hd
  | some exports =>
    exact .inr (h.wired.document_of_open hl (by rw [hst]; rfl) hd)

/-- Of the imports of one module in a document the first one asks first. -/
theorem first_import_asks (h : s.Complete lib entry initial loaded) {k : TraceKey} {i j : Nat}
    {l : Load} {d : Document} (hl : s.loads.find? (k.child j) = some l)
    (hd : lib.document? l.path = some d) (hfirst : lib.IsFirst entry (k.child i) d) : i = j := by
  have hle := hfirst.2 _ ((h.wired.named_load hl).located hd)
  rcases lt_trichotomy i j with hlt | hij | hlt
  · have hc : s.supplies.contains (k.child j) :=
      Option.isSome_iff_exists.mpr ⟨_, h.wired.starts hl⟩
    obtain ⟨hci, hage⟩ := h.aged.earlier hc hlt
    have hn := hfirst.1.named (TraceKey.child_ne_root _ _)
    rw [Library.path_of_document? hd] at hn
    exact absurd (h.aged.first hl hd hci hn) (not_le.mpr hage)
  · exact hij
  · exact absurd hle (not_le.mpr (TraceKey.child_lt_child k hlt))

/-- First positions are recorded when each module that is the first importer of another was asked
for by its own first importer. -/
theorem inPlace_of_requests (h : s.Complete lib entry initial loaded)
    (hentry : lib.document? entry.path = some entry)
    (hinitial : ∀ f ∈ initial, f.request.target = entry.path)
    (hreq : ∀ d m p, lib.FirstImporter entry m d → lib.FirstImporter entry d p →
      ∃ f ∈ s.requests, f.request.importer = m ∧ f.request.target = d) :
    InPlace lib entry s := by
  refine h.inPlace_of_importers fun {k j i m c d} hm hholds hfirst hd => ?_
  obtain ⟨f, hf, himp, htarget⟩ := hreq c.path m.path d.path
    ⟨k, j, m, c, hfirst, hm, rfl, rfl⟩ ⟨k.child j, i, c, d, hd, hfirst.1, rfl, rfl⟩
  have hcdoc := hfirst.1.loaded hentry
  rcases h.requested.origin f hf with hf | ⟨k', l, hl, hfl⟩
  · -- The entry is not imported anywhere in the tree.
    rw [hinitial f hf] at htarget
    cases Library.Located.root.eq_of_path hentry hfirst.1 htarget
    exact .inl ⟨hfirst.1.eq_of_under h.grounded .root (TraceKey.under_root _), rfl⟩
  · obtain ⟨k'', m', j', r', hm', hr', rfl, hlr⟩ := h.requested.importer hl
    rw [hfl, hlr] at himp
    cases (h.wired.located hm').eq_of_path hentry hm himp
    obtain rfl := h.holds_inj hm' hholds
    have hldoc : lib.document? l.path = some c := by
      rw [← hcdoc, ← htarget, hfl]
      rfl
    obtain rfl := h.first_import_asks hl hldoc hfirst
    exact h.holds_of_load hl hldoc

theorem inPlace_iff_requests (h : s.Complete lib entry initial loaded)
    (hentry : lib.document? entry.path = some entry)
    (hinitial : ∀ f ∈ initial, f.request.target = entry.path) : InPlace lib entry s ↔
      ∀ d m p, lib.FirstImporter entry m d → lib.FirstImporter entry d p →
        ∃ f ∈ s.requests, f.request.importer = m ∧ f.request.target = d := by
  constructor
  · rintro hin _ _ _ ⟨k, i, m, d, hd, hm, rfl, rfl⟩ ⟨k', j, d', p, hp, hd', hdd, rfl⟩
    cases hd'.eq_of_path hentry hd.1 hdd
    cases (hp.parent h.grounded hd').unique hd
    obtain ⟨d', hholds⟩ := (hin _ p hp).2 _ _ rfl
    cases (h.wired.located hholds).unique hd'
    rcases hholds with ⟨hk, -⟩ | hholds
    · exact absurd hk (TraceKey.child_ne_root _ _)
    · obtain ⟨l, hl, hldoc, hopen⟩ := h.wired.opened hholds
      obtain ⟨k'', m', i', r, hm', hr, hk, hlr⟩ := h.requested.importer hl
      obtain ⟨rfl, rfl⟩ := TraceKey.child_inj hk
      cases (h.wired.located hm').unique hm
      obtain ⟨f, hf, hfl⟩ := h.requested.made hl (by rintro hst; rw [hst] at hopen; cases hopen)
      refine ⟨f, hf, by rw [hfl, hlr], ?_⟩
      rw [hfl]
      exact (Library.path_of_document? hldoc).symm
  · exact h.inPlace_of_requests hentry hinitial

end Complete

end Session

/-! ## Entries -/

/-- In the bundle of a resolution that finishes all modules stand behind those they import exactly
when each module that is the first importer of another was asked for by its own first importer. -/
theorem Resolver.dependenciesFirst_iff (r : Resolver) (specifier : String) (res : Resolution)
    (h : (r.resolveEntry specifier).answer = .ok (.finished res)) :
    ∃ entry, r.library.document? (entryPath specifier) = some entry ∧
      (DependenciesFirst r.library res.order ↔
        ∀ d m p, r.library.FirstImporter entry m d → r.library.FirstImporter entry d p →
          ∃ f ∈ (r.resolveEntry specifier).requests,
            f.request.importer = m ∧ f.request.target = d) := by
  obtain ⟨entry, s, loaded, hdoc, -, hc, hreq, hg, rfl⟩ := finished_cases h
  have hentry := Library.document?_path hdoc
  refine ⟨entry, hdoc, ?_⟩
  rw [hreq, ← hc.inPlace_iff_requests hentry]
  · exact ⟨hc.inPlace_of_dependenciesFirst hentry, hc.dependenciesFirst_of_inPlace hentry⟩
  · intro f hf
    cases List.mem_singleton.mp hf
    exact (Library.path_of_document? hdoc).symm

theorem Resolver.detour_dependenciesFirst_iff :
    ∃ res, (detour.resolveEntry "e").answer = .ok (.finished res) ∧
      ∃ entry, detour.library.document? (entryPath "e") = some entry ∧
        (DependenciesFirst detour.library res.order ↔
          ∀ d m p, detour.library.FirstImporter entry m d → detour.library.FirstImporter entry d p →
            ∃ f ∈ (detour.resolveEntry "e").requests,
              f.request.importer = m ∧ f.request.target = d) := by
  have hg := (detour_acyclic _).grounded document?_detourEntry
  obtain ⟨_, _, -, -, hanswer⟩ := finishes document?_detourEntry hg
  exact ⟨_, hanswer, detour.dependenciesFirst_iff "e" _ hanswer⟩

end StyleBundle
