import StyleBundle.Proofs.Resolutions

/-!
# Resolution refines plain evaluation

Sharing slots, joining loads that are under way and retrying failed ones in whatever order answers
arrive does not show in what a resolution answers. It is put together from what the entry and the
modules it leads to evaluate to from scratch, each module once.
-/

namespace StyleBundle

/-- The resolution is what the entry and the modules it leads to evaluate to. -/
structure Resolution.Agrees (lib : Library) (entry : Document) (hg : lib.Grounded entry)
    (res : Resolution) : Prop where
  exports : res.exports = (lib.eval entry hg).exports
  nodup : res.order.Nodup
  mem_order : ∀ p, p ∈ res.order ↔ Relation.ReflTransGen lib.Imports entry.path p
  source : ∃ texts, res.source = String.join texts ∧
    List.Forall₂ (fun p text => ∃ d, ∃ hd : lib.Grounded d,
      lib.document? p = some d ∧ text = (lib.eval d hd).source) res.order texts
  /-- Every failure is that of an import of a module that cannot be loaded, or of a binding. -/
  errors : ∀ e ∈ res.errors, ∃ d, Relation.ReflTransGen lib.Needs entry d ∧
    ((∃ p ∈ d.targets, lib.refusal? d.path p = some e) ∨
      ∃ hd : lib.Grounded d, e ∈ (lib.eval d hd).errors)
  missing : ∀ d, Relation.ReflTransGen lib.Needs entry d →
    ∃ hd : lib.Grounded d, ∀ e ∈ (lib.eval d hd).errors, e ∈ res.errors
  refused : ∀ d, Relation.ReflTransGen lib.Needs entry d → ∀ p ∈ d.targets,
    lib.document? p = none → ∃ importer, ∃ e ∈ res.errors, lib.refusal? importer p = some e

namespace Session.Complete

variable {lib : Library} {entry : Document} {initial : List Fetched} {s : Session}
  {loaded : List (Option ExportTable)} {hg : lib.Grounded entry}

/-! ## The text -/

theorem forall₂_filterMap {α β : Type} {f : α → Option β} {R : α → β → Prop} :
    ∀ {l : List α}, (∀ a ∈ l, ∃ b, f a = some b ∧ R a b) → List.Forall₂ R l (l.filterMap f)
  | [], _ => .nil
  | a :: l, h => by
    obtain ⟨b, hb, hR⟩ := h a List.mem_cons_self
    rw [List.filterMap_cons_some hb]
    exact .cons hR (forall₂_filterMap fun a' ha' => h a' (List.mem_cons_of_mem _ ha'))

theorem source_eq (h : s.Complete lib entry initial loaded)
    (hentry : lib.document? entry.path = some entry) :
    ∃ texts, (s.resolution entry (lib.eval entry hg)).source = String.join texts ∧
      List.Forall₂ (fun p text => ∃ d, ∃ hd : lib.Grounded d,
        lib.document? p = some d ∧ text = (lib.eval d hd).source)
        (s.resolution entry (lib.eval entry hg)).order texts := by
  refine ⟨_, rfl, forall₂_filterMap fun p hp => ?_⟩
  obtain ⟨k, d, hk, rfl⟩ := (h.mem_bundle_iff _).mp hp
  obtain ⟨hd, hs⟩ := h.find?_sources hentry hg hk
  exact ⟨_, hs, d, hd, hk.loaded hentry, rfl⟩

/-! ## The failures -/

theorem refused_of_import (h : s.Complete lib entry initial loaded) {k : TraceKey}
    {d : Document} (hd : s.Holds entry k d) {i : Nat} {r : ImportRule}
    (hr : d.sheet.imports[i]? = some r) (hp : lib.document? (d.path.resolve r.source) = none) :
    ∃ importer, ∃ e ∈ s.context.errors,
      lib.refusal? importer (d.path.resolve r.source) = some e := by
  obtain ⟨x, hx⟩ := h.import_ended hd hr
  have hn : lib.Named entry (k.child i) (d.path.resolve r.source) :=
    ⟨k, d, i, r, h.wired.located hd, hr, rfl, rfl⟩
  have hslot : ∀ {exports},
      s.context.slots.find? (d.path.resolve r.source) ≠ some (.ready exports) := by
    intro exports hs
    obtain ⟨e, -, he, -⟩ := h.faithful.ready hs
    rw [hp] at he
    cases he
  cases hs : s.supplies.find? (k.child i) with
  | none => simp [ending?, hs] at hx
  | some sup =>
    cases sup with
    | exports exports =>
      obtain ⟨q, hq, hs', -⟩ := h.wired.hits hs
      exact absurd (hn.unique hq ▸ hs') hslot
    | load k' =>
      obtain ⟨l, hl, hq⟩ := h.wired.joins hs
      obtain ⟨exports, hst⟩ := h.load_ended hl
      cases exports with
      | none =>
        obtain ⟨e, he, hr'⟩ := h.reported.refused hl hst
        exact ⟨_, e, he, hn.unique hq ▸ hr'⟩
      | some exports => exact absurd (hn.unique hq ▸ (h.wired.succeeded hl hst).1) hslot

theorem error_cases (h : s.Complete lib entry initial loaded) {e : ImportError}
    (he : e ∈ s.context.errors) : ∃ d, Relation.ReflTransGen lib.Needs entry d ∧
      ((∃ p ∈ d.targets, lib.refusal? d.path p = some e) ∨
        ∃ hd : lib.Grounded d, e ∈ (lib.eval d hd).errors) := by
  rcases h.reported.accounts e he with ⟨k, l, hl, hr⟩ | ⟨k, d, hd, hk, he⟩
  · obtain ⟨k', d, i, r, hd, hi, rfl, hreq⟩ := h.requested.importer hl
    refine ⟨d, (h.wired.located hd).reaches, .inl ⟨d.path.resolve r.source, ?_, ?_⟩⟩
    · exact List.mem_map.mpr ⟨r, List.mem_of_getElem? hi, rfl⟩
    · rwa [Load.path, hreq] at hr
  · exact ⟨d, (h.wired.located (.inr hk)).reaches, .inr ⟨hd, he⟩⟩

theorem missing_of_documents (h : s.Complete lib entry initial loaded) {k : TraceKey}
    {d : Document} (hd : s.documents.find? k = some d) :
    ∃ hd : lib.Grounded d, ∀ e ∈ (lib.eval d hd).errors, e ∈ s.context.errors := by
  obtain ⟨l, exports, hl, hst, -⟩ := h.load_succeeded hd
  exact h.reported.linked hl hst hd

/-- The document is open, and the bindings in it that ask in vain are reported. -/
theorem errors_eval_subset (h : s.Complete lib entry initial loaded) (hg : lib.Grounded entry)
    (hd : Relation.ReflTransGen lib.Needs entry d) : ∃ k, s.Holds entry k d ∧
      ∃ hgd : lib.Grounded d,
        ∀ e ∈ (lib.eval d hgd).errors, e ∈ (s.resolution entry (lib.eval entry hg)).errors := by
  obtain ⟨k, hk⟩ := Library.exists_located hd
  obtain ⟨k', hholds⟩ := h.exists_holds hk
  refine ⟨k', hholds, ?_⟩
  rcases hholds with ⟨-, rfl⟩ | hdoc
  · exact ⟨hg, fun e he => List.mem_append_right _ he⟩
  · obtain ⟨hgd, hall⟩ := h.missing_of_documents hdoc
    exact ⟨hgd, fun e he => List.mem_append_left _ (hall e he)⟩

theorem agrees (h : s.Complete lib entry initial loaded)
    (hentry : lib.document? entry.path = some entry) :
    (s.resolution entry (lib.eval entry hg)).Agrees lib entry hg where
  exports := rfl
  nodup := Assembly.nodup_order
  mem_order p := by
    rw [← Library.located_iff_imports hentry]
    exact h.mem_bundle_iff _
  source := h.source_eq hentry
  errors e he := by
    rcases List.mem_append.mp he with he | he
    · exact h.error_cases he
    · exact ⟨entry, .refl, .inr ⟨hg, he⟩⟩
  missing d hd := by
    obtain ⟨k, -, hgd, hsubset⟩ := h.errors_eval_subset hg hd
    exact ⟨hgd, hsubset⟩
  refused d hd p hp hnone := by
    obtain ⟨k, hk⟩ := Library.exists_located hd
    obtain ⟨k', hholds⟩ := h.exists_holds hk
    obtain ⟨r, hr, rfl⟩ := List.mem_map.mp hp
    obtain ⟨i, hi⟩ := List.mem_iff_getElem?.mp hr
    obtain ⟨importer, e, he, hr'⟩ := h.refused_of_import hholds hi hnone
    exact ⟨importer, e, List.mem_append_left _ he, hr'⟩

end Session.Complete

/-! ## Entries -/

/-- Where no cycle of imports can be reached, a resolution fails exactly when its entry cannot be
had, and otherwise answers what the entry and the modules it leads to evaluate to. -/
theorem Resolver.resolveEntry_agrees (r : Resolver) (specifier : String)
    (hacyclic : r.library.Acyclic (entryPath specifier)) :
    ((∃ e, (r.resolveEntry specifier).answer = .error e) ↔
      r.library.document? (entryPath specifier) = none) ∧
    ∀ entry, r.library.document? (entryPath specifier) = some entry →
      ∃ (hg : r.library.Grounded entry) (res : Resolution),
        (r.resolveEntry specifier).answer = .ok (.finished res) ∧
        res.Agrees r.library entry hg := by
  have hsome : ∀ entry, r.library.document? (entryPath specifier) = some entry →
      ∃ (hg : r.library.Grounded entry) (res : Resolution),
        (r.resolveEntry specifier).answer = .ok (.finished res) ∧
        res.Agrees r.library entry hg := by
    intro entry hdoc
    have hg := hacyclic.grounded hdoc
    obtain ⟨s, loaded, -, hc, hanswer⟩ := finishes hdoc hg
    exact ⟨hg, _, hanswer, hc.agrees (Library.document?_path hdoc)⟩
  refine ⟨⟨fun ⟨e, he⟩ => ?_, fun hnone => ?_⟩, hsome⟩
  · cases hdoc : r.library.document? (entryPath specifier) with
    | none => rfl
    | some entry =>
      obtain ⟨-, res, hres, -⟩ := hsome entry hdoc
      cases he.symm.trans hres
  · rcases resolveEntry_of_none hnone with ⟨_, -, he⟩ | ⟨_, _, -, -, he⟩ <;> exact ⟨_, he⟩

theorem Resolver.detour_agrees :
    ∃ (hg : detour.library.Grounded detourEntry) (res : Resolution),
      (detour.resolveEntry "e").answer = .ok (.finished res) ∧
      res.Agrees detour.library detourEntry hg :=
  (detour.resolveEntry_agrees "e" (detour_acyclic _)).2 detourEntry document?_detourEntry

end StyleBundle
