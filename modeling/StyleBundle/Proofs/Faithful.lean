import StyleBundle.Proofs.Evaluation
import StyleBundle.Proofs.Polls

/-!
# What a session has settled is right

The exports in a ready slot and the recorded text are those that the module evaluates to from
scratch, whoever started the load, whoever joined it, and whatever the order of answers was. A
module that is ready is grounded: no chain of imports that starts from it goes in a circle.
-/

namespace StyleBundle.Session

variable {lib : Library} {entry : Document} {active : List ModulePath} {s t : Session}
  {k : TraceKey} {d : Document} {loaded : List (Option ExportTable)}

/-! ## Ended imports -/

theorem mapM_eq_some_iff {α β : Type} {f : α → Option β} {l : List α} {l' : List β} :
    l.mapM f = some l' ↔ l.map f = l'.map some := by
  induction l generalizing l' with
  | nil => cases l' <;> simp
  | cons a l ih => cases l' <;> cases h : f a <;> simp [h, Option.bind_eq_some_iff, ih, and_comm]

theorem endings?_eq_some_iff :
    s.endings? k d = some loaded ↔ (d.imports k).map (fun e => s.ending? e.1) = loaded.map some :=
  mapM_eq_some_iff

theorem endings?_isSome_iff : (s.endings? k d).isSome ↔
    ∀ i < d.sheet.imports.length, (s.ending? (k.child i)).isSome := by
  simp only [Option.isSome_iff_exists, endings?_eq_some_iff]
  constructor
  · rintro ⟨loaded, h⟩ i hi
    have hget := congrArg (·[i]?) h
    simp only [List.getElem?_map, Document.imports_getElem?, List.getElem?_eq_getElem hi,
      Option.map_some] at hget
    obtain ⟨x, -, hx⟩ := Option.map_eq_some_iff.mp hget.symm
    exact ⟨x, hx.symm⟩
  · intro h
    refine ⟨(d.imports k).map fun e => (s.ending? e.1).join, ?_⟩
    rw [List.map_map]
    refine List.map_congr_left fun e he => ?_
    obtain ⟨i, hi⟩ := List.mem_iff_getElem?.mp he
    rw [Document.imports_getElem?] at hi
    obtain ⟨r, hr, rfl⟩ := Option.map_eq_some_iff.mp hi
    obtain ⟨x, hx⟩ := h i (List.getElem?_eq_some_iff.mp hr).1
    simp [hx]

theorem ending_of_endings? {i : Nat} {r : ImportRule} (h : s.endings? k d = some loaded)
    (hr : d.sheet.imports[i]? = some r) : ∃ x, s.ending? (k.child i) = some x :=
  Option.isSome_iff_exists.mp (endings?_isSome_iff.mp (Option.isSome_iff_exists.mpr ⟨_, h⟩) i
    (List.getElem?_eq_some_iff.mp hr).1)

theorem endings?_eq_map {f : ImportRule → Option ExportTable}
    (hf : ∀ {i r x}, d.sheet.imports[i]? = some r → s.ending? (k.child i) = some x → x = f r)
    (h : s.endings? k d = some loaded) : loaded = d.sheet.imports.map f := by
  have h' := endings?_eq_some_iff.mp h
  refine List.ext_getElem? fun i => ?_
  have hget := congrArg (·[i]?) h'
  simp only [List.getElem?_map, Document.imports_getElem?, Option.map_map] at hget ⊢
  cases hr : d.sheet.imports[i]? with
  | none => simpa [hr] using hget.symm
  | some r =>
    obtain ⟨x, hx, hxe⟩ := Option.map_eq_some_iff.mp ((hr ▸ hget).symm.trans rfl)
    rw [hx, hf hr hxe.symm]
    rfl

theorem contains_of_ending? {x : Option ExportTable} (h : s.ending? k = some x) :
    s.supplies.contains k := by
  cases hs : s.supplies.find? k with
  | none => simp [Session.ending?, hs] at h
  | some sup => exact Option.isSome_iff_exists.mpr ⟨sup, hs⟩

theorem Later.ending? {x : Option ExportTable} (h : Later active s t)
    (hx : s.ending? k = some x) : t.ending? k = some x := by
  unfold Session.ending? at hx ⊢
  cases hs : s.supplies.find? k with
  | none => simp [hs] at hx
  | some sup =>
    rw [h.supplies hs]
    rw [hs] at hx
    cases sup with
    | exports exports => exact hx
    | load k' =>
      cases hl : s.loads.find? k' with
      | none => simp [hl] at hx
      | some l =>
        cases hst : l.stage <;> simp only [hl, Option.map_some, hst] at hx <;> try cases hx
        simp [h.ended hl hst, hst]

theorem Later.endings? (h : Later active s t) (he : s.endings? k d = some loaded) :
    t.endings? k d = some loaded := by
  rw [endings?_eq_some_iff] at he ⊢
  rw [← he]
  refine List.map_congr_left fun e hm => ?_
  have hx : s.ending? e.1 ∈ loaded.map some := he ▸ List.mem_map_of_mem hm
  obtain ⟨x, -, hx⟩ := List.mem_map.mp hx
  rw [← hx, h.ending? hx.symm]

theorem Wired.ending_cases {p : ModulePath} {x : Option ExportTable} (h : s.Wired lib entry)
    (hn : lib.Named entry k p) (hx : s.ending? k = some x) :
    x = none ∧ lib.document? p = none ∨
      ∃ exports, x = some exports ∧ s.context.slots.find? p = some (.ready exports) := by
  unfold Session.ending? at hx
  split at hx
  · cases hx
  · next exports hs =>
    obtain ⟨q, hq, hslot, -⟩ := h.hits hs
    cases hn.unique hq
    exact .inr ⟨exports, (Option.some.inj hx).symm, hslot⟩
  · next k' hs =>
    obtain ⟨l, hl, hq⟩ := h.joins hs
    cases hn.unique hq
    cases hst : l.stage with
    | ended exports =>
      simp only [hl, Option.map_some, hst, Option.some.injEq] at hx
      subst hx
      cases exports with
      | none => exact .inl ⟨rfl, h.failed hl hst⟩
      | some exports => exact .inr ⟨exports, rfl, (h.succeeded hl hst).1⟩
    | queued | fetching | answered | linking => simp [hl, hst] at hx

/-! ## Slots and sources -/

def exports? (s : Session) (p : ModulePath) : Option ExportTable :=
  match s.context.slots.find? p with
  | some (.ready exports) => some exports
  | _ => none

theorem exports?_eq_some_iff {p : ModulePath} {exports : ExportTable} :
    s.exports? p = some exports ↔ s.context.slots.find? p = some (.ready exports) := by
  unfold exports?
  split
  · next hslot => simp only [hslot, Option.some.injEq, Slot.ready.injEq]
  · next hslot => exact ⟨(nomatch ·), fun h => absurd h (hslot exports)⟩

structure Faithful (lib : Library) (s : Session) : Prop where
  ready : ∀ {p exports}, s.context.slots.find? p = some (.ready exports) →
    ∃ d, ∃ hd : lib.Grounded d, lib.document? p = some d ∧ exports = (lib.eval d hd).exports ∧
      s.context.sources.find? p = some (lib.eval d hd).source
  recorded : ∀ {p text}, s.context.sources.find? p = some text →
    ∃ exports, s.context.slots.find? p = some (.ready exports)
  closed : ∀ {k l d exports}, s.loads.find? k = some l → l.stage = .ended (some exports) →
    s.documents.find? k = some d → ∃ loaded, s.endings? k d = some loaded

namespace Faithful

theorem start (r : Resolver) (clock : Nat) (requests : List Fetched) :
    (r.start clock requests).Faithful lib where
  ready h := by cases h
  recorded h := by cases h
  closed h := by cases h

theorem exports?_eq_none {p : ModulePath} (h : s.Faithful lib) (hp : lib.document? p = none) :
    s.exports? p = none := by
  refine Option.eq_none_iff_forall_ne_some.mpr fun exports hx => ?_
  obtain ⟨e, -, hdoc, -⟩ := h.ready (exports?_eq_some_iff.mp hx)
  rw [hp] at hdoc
  cases hdoc

/-- A document whose imports have all ended is grounded, and links to what it evaluates to. -/
theorem link_eq_eval (h : s.Faithful lib) (hw : s.Wired lib entry) (hk : lib.Located entry k d)
    (he : s.endings? k d = some loaded) :
    ∃ hd : lib.Grounded d, d.sheet.link d.path loaded = lib.eval d hd := by
  have hcases : ∀ {i r x}, d.sheet.imports[i]? = some r → s.ending? (k.child i) = some x →
      x = none ∧ lib.document? (d.path.resolve r.source) = none ∨ ∃ exports, x = some exports ∧
        s.context.slots.find? (d.path.resolve r.source) = some (.ready exports) :=
    fun hr hx => hw.ending_cases ⟨k, d, _, _, hk, hr, rfl, rfl⟩ hx
  have hd : lib.Grounded d := by
    refine Acc.intro d fun e hn => ?_
    obtain ⟨i, r, hr, he'⟩ := hn.getElem?
    obtain ⟨x, hx⟩ := ending_of_endings? he hr
    rcases hcases hr hx with ⟨-, hnone⟩ | ⟨exports, -, hslot⟩
    · rw [hnone] at he'
      cases he'
    · obtain ⟨e', he'', hdoc, -⟩ := h.ready hslot
      cases hdoc.symm.trans he'
      exact he''
  have hloaded : loaded = d.sheet.imports.map fun r => s.exports? (d.path.resolve r.source) := by
    refine endings?_eq_map (fun {i r x} hr hx => ?_) he
    rcases hcases hr hx with ⟨rfl, hnone⟩ | ⟨exports, rfl, hslot⟩
    · exact (h.exports?_eq_none hnone).symm
    · exact (exports?_eq_some_iff.mpr hslot).symm
  refine ⟨hd, ?_⟩
  rw [hloaded, Document.link_eq_evaluate]
  refine (Library.eval_eq_evaluate hd (fun p _ hnone => h.exports?_eq_none hnone)
    fun p hp e he' hdoc => ?_).symm
  obtain ⟨r, hr, rfl⟩ := List.mem_map.mp hp
  obtain ⟨i, hi⟩ := List.mem_iff_getElem?.mp hr
  obtain ⟨x, hx⟩ := ending_of_endings? he hi
  rcases hcases hi hx with ⟨-, hnone⟩ | ⟨exports, -, hslot⟩
  · rw [hnone] at hdoc
    cases hdoc
  · obtain ⟨e', he'', hdoc', hexp, -⟩ := h.ready hslot
    cases hdoc'.symm.trans hdoc
    rw [exports?_eq_some_iff.mpr hslot, hexp]

/-- A move that ends no load successfully. -/
theorem later (h : s.Faithful lib) (hl : Later active s t)
    (hsources : t.context.sources = s.context.sources)
    (hready : ∀ {p exports}, t.context.slots.find? p = some (.ready exports) ↔
      s.context.slots.find? p = some (.ready exports))
    (hended : ∀ {k l d exports}, t.loads.find? k = some l → l.stage = .ended (some exports) →
      t.documents.find? k = some d → s.loads.find? k = some l ∧ s.documents.find? k = some d) :
    t.Faithful lib where
  ready hp := by
    rw [hsources]
    exact h.ready (hready.mp hp)
  recorded hp := by
    rw [hsources] at hp
    obtain ⟨exports, hs⟩ := h.recorded hp
    exact ⟨exports, hready.mpr hs⟩
  closed hk hst hd := by
    obtain ⟨hk', hd'⟩ := hended hk hst hd
    obtain ⟨loaded, he⟩ := h.closed hk' hst hd'
    exact ⟨loaded, hl.endings? he⟩

theorem conclude {l : Load} (h : s.Faithful lib) (hw : s.Wired lib entry)
    (hl : s.loads.find? k = some l) (hd : s.documents.find? k = some d)
    (he : s.endings? k d = some loaded)
    (hlater : Later active s t)
    (hloads : t.loads =
      s.loads.insert k { l with stage := .ended (some (d.sheet.link d.path loaded).exports) })
    (hdocs : t.documents = s.documents)
    (hslots : t.context.slots =
      s.context.slots.insert d.path (.ready (d.sheet.link d.path loaded).exports))
    (hsources : t.context.sources =
      s.context.sources.insert d.path (d.sheet.link d.path loaded).source) : t.Faithful lib := by
  obtain ⟨hg, heval⟩ := h.link_eq_eval hw (hw.located (.inr hd)) he
  obtain ⟨hdoc, -⟩ := hw.opened_load hl hd
  rw [heval] at hslots hsources
  exact {
    ready := by
      intro p exports hp
      rw [hslots, Table.find?_insert] at hp
      split at hp
      · next e =>
        cases hp
        subst e
        refine ⟨d, hg, Library.document?_path hdoc, rfl, ?_⟩
        rw [hsources, Table.find?_insert, if_pos rfl]
      · next hne =>
        rw [hsources, Table.find?_insert, if_neg hne]
        exact h.ready hp
    recorded := by grind [h.recorded]
    closed := by
      intro k' l' d' exports hk' hst' hd'
      rw [hdocs] at hd'
      rw [hloads, Table.find?_insert] at hk'
      split at hk'
      · next e =>
        cases e
        cases hd.symm.trans hd'
        exact ⟨loaded, hlater.endings? he⟩
      · obtain ⟨loaded', he'⟩ := h.closed hk' hst' hd'
        exact ⟨loaded', hlater.endings? he'⟩ }

theorem move (h : s.Faithful lib) (hw : s.Wired lib entry) (hm : Move lib entry active s t) :
    t.Faithful lib := by
  have hl := hm.later hw
  cases hm with
  | hit ha hs => exact h.later hl rfl Iff.rfl fun hk _ hd => ⟨hk, hd⟩
  | join ha hs => exact h.later hl rfl (by grind) fun hk _ hd => ⟨hk, hd⟩
  | start ha hs => exact h.later hl rfl (by grind) (by grind)
  | request hk _ => exact h.later hl (by simp) (by simp) (by grind)
  | refuse hk hst he =>
    obtain ⟨joined, hs, -⟩ := hw.live hk (by rw [hst]; rfl)
    exact h.later hl rfl (by grind) (by grind)
  | accept hk hst hd => exact h.later hl rfl Iff.rfl (by grind)
  | conclude hk _ hd he _ =>
    exact h.conclude hw hk hd he hl rfl rfl (by simp) (by simp)

theorem arrival (h : s.Faithful lib) (ha : Arrival s t) : t.Faithful lib := by
  have hl : Later [] s t := ha.later
  obtain ⟨-, hk, hst⟩ := ha
  exact h.later hl rfl Iff.rfl (by grind)

end Faithful

end StyleBundle.Session
