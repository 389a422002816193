import Mathlib.Data.List.Sigma
import StyleBundle.Proofs.SingleLoads

/-!
# Recorded trace keys

At every moment of a run the key of an import that has asked stands where it belongs: it waits in
the slot of its module while the load is under way, it is recorded once the import has got exports,
and it is in neither place once the import has failed. So when a resolution is finished, the entry
and the imports that got exports have their keys recorded, each once, and nothing else has.
-/

namespace StyleBundle

namespace Session

variable {lib : Library} {entry : Document} {initial : List Fetched} {s : Session} {k : TraceKey}
  {d : Document} {p : ModulePath} {loaded : List (Option ExportTable)}

/-! ## At every moment -/

/-- The key of every import that has asked stands where it belongs. -/
structure Booked (lib : Library) (entry : Document) (s : Session) : Prop where
  /-- In the slot of a module wait the keys of the imports that asked for it and have not ended. -/
  queued : ∀ k p, k ∈ s.context.queued p ↔
    lib.Named entry k p ∧ s.supplies.contains k ∧ s.ending? k = none
  /-- Recorded are the keys of the imports that have got exports. -/
  recorded : ∀ k p, s.context.traces.find? k = some p ↔
    lib.Named entry k p ∧ ∃ exports, s.ending? k = some (some exports)

namespace Wired

theorem document?_of_ready (h : s.Wired lib entry) {exports : ExportTable}
    (hs : s.context.slots.find? p = some (.ready exports)) : ∃ d, lib.document? p = some d := by
  obtain ⟨k, l, hl, rfl, hst⟩ := h.ready hs
  obtain ⟨d, hd⟩ := h.brings hl (by rw [hst]; rfl)
  exact ⟨d, (h.opened_load hl hd).1⟩

theorem mem_queued_iff (h : s.Wired lib entry) : k ∈ s.context.queued p ↔
    lib.Named entry k p ∧ s.supplies.contains k ∧ s.ending? k = none := by
  constructor
  · intro hk
    cases hs : s.context.slots.find? p with
    | none => simp [Context.queued, hs] at hk
    | some slot =>
      cases slot with
      | ready exports => simp [Context.queued, hs, Slot.queued] at hk
      | pending load joined =>
        obtain ⟨l, hl, rfl, hlive, -⟩ := h.pending hs
        rw [Context.queued_of_pending _ _ hs, List.mem_cons] at hk
        have hsup := (h.supply_iff hs).mpr hk
        obtain ⟨l', hl', hn⟩ := h.joins hsup
        cases hl.symm.trans hl'
        exact ⟨hn, Option.isSome_iff_exists.mpr ⟨_, hsup⟩, ending?_eq_none hsup hl hlive⟩
  · rintro ⟨hn, hc, hend⟩
    obtain ⟨load, l, hsup, hl, hlive⟩ := h.exists_live hc (by simp [hend])
    obtain ⟨l', hl', hn'⟩ := h.joins hsup
    cases hl.symm.trans hl'
    cases hn.unique hn'
    obtain ⟨joined, hs, -⟩ := h.live hl hlive
    rw [Context.queued_of_pending _ _ hs, List.mem_cons]
    exact (h.supply_iff hs).mp hsup

theorem find?_traces_iff (h : s.Wired lib entry) : s.context.traces.find? k = some p ↔
    lib.Named entry k p ∧ ∃ exports, s.ending? k = some (some exports) := by
  constructor
  · intro hk
    obtain ⟨hn, hc, exports, hs⟩ := h.traced hk
    refine ⟨hn, ?_⟩
    cases hend : s.ending? k with
    | none =>
      -- An import that waits would have its key in the slot, which is ready.
      have hq := h.mem_queued_iff.mpr ⟨hn, hc, hend⟩
      simp [Context.queued, hs, Slot.queued] at hq
    | some x =>
      rcases h.ending_cases hn hend with ⟨-, hnone⟩ | ⟨exports', rfl, -⟩
      · obtain ⟨d, hd⟩ := h.document?_of_ready hs
        rw [hnone] at hd
        cases hd
      · exact ⟨exports', rfl⟩
  · rintro ⟨hn, exports, hend⟩
    obtain ⟨sup, hsup⟩ := Option.isSome_iff_exists.mp (contains_of_ending? hend)
    cases sup with
    | exports exports' =>
      obtain ⟨q, hq, -, ht⟩ := h.hits hsup
      rwa [hn.unique hq]
    | load load =>
      obtain ⟨l, hl, hq⟩ := h.joins hsup
      obtain ⟨x, hst⟩ := ended_of_ending? hsup hl hend
      have hx : x = some exports := by simpa [ending?, hsup, hl, hst] using hend
      rw [hn.unique hq]
      exact (h.succeeded hl (hx ▸ hst)).2 k hsup

theorem booked (h : s.Wired lib entry) : s.Booked lib entry where
  queued _ _ := h.mem_queued_iff
  recorded _ _ := h.find?_traces_iff

end Wired

/-! ## The records of a session -/

/-- The open documents with their keys: the entry with the empty key, and every module with the key
of the import that started its load. -/
def keyed (s : Session) (entry : Document) : List (TraceKey × Document) :=
  (.root, entry) :: s.documents.entries

/-- The imports of a document that have got exports: their keys, with the modules they name. -/
def obtained (s : Session) (k : TraceKey) (d : Document) : List (TraceKey × ModulePath) :=
  (d.imports k).filterMap fun (k', r) =>
    (s.ending? k').join.map fun _ => (k', d.path.resolve r.source)

/-- The entry with the empty key, and the imports that have got exports. -/
def records (s : Session) (entry : Document) : List (TraceKey × ModulePath) :=
  (.root, entry.path) :: (s.keyed entry).flatMap fun (k, d) => s.obtained k d

theorem mem_keyed_iff : (k, d) ∈ s.keyed entry ↔ s.Holds entry k d := by
  simp [keyed, Holds, Table.find?_eq_some_iff]

theorem mem_obtained_iff {k' : TraceKey} : (k', p) ∈ s.obtained k d ↔
    ∃ i r exports, d.sheet.imports[i]? = some r ∧ k' = k.child i ∧ p = d.path.resolve r.source ∧
      s.ending? k' = some (some exports) := by
  simp only [obtained, List.mem_filterMap, Option.map_eq_some_iff, Prod.mk.injEq, Prod.exists,
    Option.join_eq_some_iff]
  constructor
  · rintro ⟨k'', r, hm, exports, hend, rfl, rfl⟩
    obtain ⟨i, hi⟩ := List.mem_iff_getElem?.mp hm
    rw [Document.imports_getElem?] at hi
    obtain ⟨r', hr, e⟩ := Option.map_eq_some_iff.mp hi
    cases e
    exact ⟨i, r, exports, hr, rfl, rfl, hend⟩
  · rintro ⟨i, r, exports, hr, rfl, rfl, hend⟩
    refine ⟨k.child i, r, List.mem_of_getElem? (i := i) ?_, exports, hend, rfl, rfl⟩
    rw [Document.imports_getElem?, hr]
    rfl

theorem mem_records_iff : (k, p) ∈ s.records entry ↔ k = .root ∧ p = entry.path ∨
    ∃ k' d, s.Holds entry k' d ∧ (k, p) ∈ s.obtained k' d := by
  simp [records, mem_keyed_iff]

theorem nodup_obtained (s : Session) (k : TraceKey) (d : Document) :
    ((s.obtained k d).map Prod.fst).Nodup := by
  have hkeys : ((d.imports k).map Prod.fst).Nodup := by
    have hinj : Function.Injective k.child := fun _ _ e => (TraceKey.child_inj e).2
    have hnodup := (List.nodup_zipIdx_map_snd d.sheet.imports).map hinj
    rw [List.map_map] at hnodup
    rwa [Document.imports, List.map_map]
  rw [List.Nodup, List.pairwise_map] at hkeys ⊢
  refine List.pairwise_filterMap.mpr (hkeys.imp fun hne x hx y hy => ?_)
  obtain ⟨-, -, rfl⟩ := Option.map_eq_some_iff.mp hx
  obtain ⟨-, -, rfl⟩ := Option.map_eq_some_iff.mp hy
  exact hne

namespace Wired

theorem nodup_keyed (h : s.Wired lib entry) : ((s.keyed entry).map Prod.fst).Nodup := by
  refine List.nodup_cons.mpr ⟨fun hroot => ?_, s.documents.nodup⟩
  obtain ⟨d, hd⟩ := Table.mem_keys_iff.mp hroot
  obtain ⟨l, hl, -⟩ := h.opened hd
  obtain ⟨k', _, i, _, -, -, hk⟩ := h.holder (h.starts hl)
  exact TraceKey.child_ne_root k' i hk.symm

theorem nodup_records (h : s.Wired lib entry) : ((s.records entry).map Prod.fst).Nodup := by
  rw [records, List.map_cons, List.map_flatMap]
  refine List.nodup_cons.mpr ⟨fun hroot => ?_, List.nodup_flatMap.mpr ⟨fun e _ => ?_, ?_⟩⟩
  · obtain ⟨e, -, hmem⟩ := List.mem_flatMap.mp hroot
    obtain ⟨⟨k, p⟩, hmem, hk⟩ := List.mem_map.mp hmem
    obtain ⟨i, -, -, -, rfl, -⟩ := mem_obtained_iff.mp hmem
    exact TraceKey.child_ne_root _ _ hk
  · exact s.nodup_obtained e.1 e.2
  -- Imports of two documents: one key would be the child of two different ones.
  · refine (List.pairwise_map.mp h.nodup_keyed).imp fun {a b} hne k hk hk' => hne ?_
    obtain ⟨⟨k₁, p₁⟩, hmem, rfl⟩ := List.mem_map.mp hk
    obtain ⟨⟨k₂, p₂⟩, hmem', hkk⟩ := List.mem_map.mp hk'
    obtain ⟨i, -, -, -, rfl, -⟩ := mem_obtained_iff.mp hmem
    obtain ⟨i', -, -, -, rfl, -⟩ := mem_obtained_iff.mp hmem'
    exact (TraceKey.child_inj hkk).1.symm

theorem obtained_of_named (h : s.Wired lib entry) (hn : lib.Named entry k p)
    {exports : ExportTable} (hend : s.ending? k = some (some exports)) :
    ∃ k' d, s.Holds entry k' d ∧ (k, p) ∈ s.obtained k' d := by
  obtain ⟨sup, hsup⟩ := Option.isSome_iff_exists.mp (contains_of_ending? hend)
  obtain ⟨k', d, i, r, hd, hr, rfl⟩ := h.holder hsup
  exact ⟨k', d, hd, mem_obtained_iff.mpr ⟨i, r, exports, hr, rfl,
    hn.unique ⟨k', d, i, r, h.located hd, hr, rfl, rfl⟩, hend⟩⟩

theorem named_of_obtained (h : s.Wired lib entry) {k' : TraceKey} (hd : s.Holds entry k' d)
    (hk : (k, p) ∈ s.obtained k' d) :
    lib.Named entry k p ∧ ∃ exports, s.ending? k = some (some exports) := by
  obtain ⟨i, r, exports, hr, rfl, rfl, hend⟩ := mem_obtained_iff.mp hk
  exact ⟨⟨k', d, i, r, h.located hd, hr, rfl, rfl⟩, exports, hend⟩

theorem mem_records_iff_find? (h : s.Wired lib entry) :
    (k, p) ∈ s.records entry ↔ (s.traces entry).find? k = some p := by
  rw [mem_records_iff, traces, Table.find?_insert_eq_some, h.find?_traces_iff]
  refine or_congr (by simp only [eq_comm]) ⟨?_, ?_⟩
  · rintro ⟨k', d, hd, hk⟩
    obtain ⟨i, -, -, -, rfl, -⟩ := mem_obtained_iff.mp hk
    exact ⟨(TraceKey.child_ne_root _ _).symm, h.named_of_obtained hd hk⟩
  · rintro ⟨-, hn, exports, hend⟩
    exact h.obtained_of_named hn hend

theorem traces_perm (h : s.Wired lib entry) :
    (s.traces entry).entries.Perm (s.records entry) := by
  refine (List.perm_ext_iff_of_nodup (.of_map _ (s.traces entry).nodup)
    (.of_map _ h.nodup_records)).mpr fun (k, p) => ?_
  rw [← Table.find?_eq_some_iff, h.mem_records_iff_find?]

end Wired

/-! ## The end of a resolution -/

/-- The context in which a run ends whose entry is linked to `linked`. -/
def closing (s : Session) (entry : Document) (linked : Linked) : Context :=
  (linked.errors.foldl Context.report s.context).recordEntry entry.path linked.source

theorem closing_traces (s : Session) (entry : Document) (linked : Linked) :
    (s.closing entry linked).traces = s.traces entry := by
  simp [closing, Context.recordEntry, traces]

theorem finish_eq_closing (h : s.endings? .root entry = some loaded) : Resolver.finish s entry =
    let linked := entry.sheet.link entry.path loaded
    let context := s.closing entry linked
    .finished {
      source := context.assembly.source
      exports := linked.exports
      order := context.assembly.order
      errors := context.errors } := by
  simp [Resolver.finish, h, closing]

/-- The trace keys in the context `c` in which a run ends are exact, where `s` is the session in
which it ends. -/
structure ExactTraces (lib : Library) (root : String) (entry : Document) (s : Session)
    (c : Context) : Prop where
  /-- Recorded are the entry at the empty key, and each import of an open document that got exports
  at the key of the document with the index of the import. -/
  traces : c.traces.entries.Perm (s.records entry)
  nodup : ((s.records entry).map Prod.fst).Nodup
  /-- The modules that are open are those whose loads succeeded. -/
  loaded : ∀ {k d}, s.documents.find? k = some d ↔ lib.document? d.path = some d ∧
    ∃ l exports, s.loads.find? k = some l ∧ l.path = d.path ∧ l.stage = .ended (some exports)
  /-- A load has the key of the import that started it. -/
  started : ∀ {k l}, s.loads.find? k = some l → s.supplies.find? k = some (.load k) ∧
    ∃ k' d i r, s.Holds entry k' d ∧ d.sheet.imports[i]? = some r ∧ k = k'.child i ∧
      l.request = ⟨r.source, d.path, root⟩
  once : ∀ {k k' d d'}, s.documents.find? k = some d → s.documents.find? k' = some d' →
    d.path = d'.path → k = k'
  /-- Every import of an open document has got exports or failed. -/
  ended : ∀ {k d i r}, s.Holds entry k d → d.sheet.imports[i]? = some r →
    ∃ x, s.ending? (k.child i) = some x

theorem Complete.exactTraces (h : s.Complete lib entry initial loaded) (linked : Linked) :
    s.ExactTraces lib s.root entry (s.closing entry linked) where
  traces := by
    rw [closing_traces]
    exact h.wired.traces_perm
  nodup := h.wired.nodup_records
  loaded := by
    intro k d
    constructor
    · intro hd
      obtain ⟨l, exports, hl, hst, hdoc⟩ := h.load_succeeded hd
      exact ⟨Library.document?_path hdoc, l, exports, hl,
        (Library.path_of_document? hdoc).symm, hst⟩
    · rintro ⟨hdoc, l, exports, hl, hp, hst⟩
      exact h.wired.document_of_open hl (by rw [hst]; rfl) (hp ▸ hdoc)
  started hl := ⟨h.wired.starts hl, h.requested.importer hl⟩
  once hd hd' hp := h.wired.opened_inj hd hd' hp
  ended hd hr := h.import_ended hd hr

end Session

namespace Resolver

open Session (Evolves)

variable {r : Resolver} {entry : Document} {clock : Nat} {initial : List Fetched} {run : Run}
  {res : Resolution}

/-- At every moment of a run the key of each import that has asked stands where it belongs. When a
resolution is finished, the recorded trace keys are the empty one for the entry, and one for
each import that got exports, be it that it started the load of its module, joined it or found the
module ready. -/
theorem finished_records (h : r.Resolves entry clock initial run)
    (hres : run.answer = .ok (.finished res)) :
    (∀ s, Evolves r.library entry (r.start clock initial) s → s.Booked r.library entry) ∧
    ∃ t loaded, Evolves r.library entry (r.start clock initial) t ∧
      run = ⟨.ok (finish t entry), t.requests⟩ ∧ t.endings? .root entry = some loaded ∧
      let context := t.closing entry (entry.sheet.link entry.path loaded)
      res.order = context.assembly.order ∧ res.source = context.assembly.source ∧
        t.ExactTraces r.library r.root entry context := by
  have hstart : (r.start clock initial).Reached r.library entry initial := .start r clock
  refine ⟨fun s hs => (hstart.evolves hs).wired.booked, ?_⟩
  obtain ⟨t, loaded, he, hc, rfl⟩ := h.exists_finished hres
  have hexact := hc.exactTraces (entry.sheet.link entry.path loaded)
  rw [he.root] at hexact
  rw [Session.finish_eq_closing hc.entry_ended] at hres
  cases hres
  exact ⟨t, loaded, he, rfl, hc.entry_ended, rfl, rfl, hexact⟩

theorem detour_records : ∃ t loaded, Evolves detour.library detourEntry (detour.begin "e") t ∧
    detour.resolveEntry "e" = ⟨.ok (finish t detourEntry), t.requests⟩ ∧
    t.ExactTraces detour.library detour.root detourEntry
      (t.closing detourEntry (detourEntry.sheet.link detourEntry.path loaded)) := by
  obtain ⟨s, loaded, -, -, hres⟩ :=
    finishes document?_detourEntry ((detour_acyclic _).grounded document?_detourEntry)
  obtain ⟨-, t, loaded, he, hrun, -, -, -, hexact⟩ :=
    finished_records (.entry document?_detourEntry) hres
  exact ⟨t, loaded, he, hrun, hexact⟩

end Resolver

end StyleBundle
