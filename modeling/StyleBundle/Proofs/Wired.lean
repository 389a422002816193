import StyleBundle.Resolution.Resolver
import StyleBundle.Proofs.SessionLaws

/-!
# Slots, loads and trace keys agree

The invariant of a session's bookkeeping. A module has a slot exactly while a load of it is under
way or has succeeded; the pending slot lists the imports that wait for that load, and the keys of
all imports of a module are recorded once it is ready. A load belongs to the import at its key, and
only a module that can be loaded succeeds. Every move and every arrival keeps the invariant.
-/

namespace StyleBundle.Session

structure Wired (lib : Library) (entry : Document) (s : Session) : Prop where
  /-- An import that has asked stands in an open document. -/
  holder : ∀ {k sup}, s.supplies.find? k = some sup → ∃ k' d i r, s.Holds entry k' d ∧
    d.sheet.imports[i]? = some r ∧ k = k'.child i
  joins : ∀ {k k'}, s.supplies.find? k = some (.load k') →
    ∃ l, s.loads.find? k' = some l ∧ lib.Named entry k l.path
  hits : ∀ {k exports}, s.supplies.find? k = some (.exports exports) →
    ∃ p, lib.Named entry k p ∧ s.context.slots.find? p = some (.ready exports) ∧
      s.context.traces.find? k = some p
  starts : ∀ {k l}, s.loads.find? k = some l → s.supplies.find? k = some (.load k)
  pending : ∀ {p k joined}, s.context.slots.find? p = some (.pending k joined) →
    ∃ l, s.loads.find? k = some l ∧ l.path = p ∧ l.stage.isLive ∧
      ∀ k' ∈ joined, s.supplies.find? k' = some (.load k)
  live : ∀ {k l}, s.loads.find? k = some l → l.stage.isLive →
    ∃ joined, s.context.slots.find? l.path = some (.pending k joined) ∧
      ∀ k', s.supplies.find? k' = some (.load k) → k' = k ∨ k' ∈ joined
  ready : ∀ {p exports}, s.context.slots.find? p = some (.ready exports) →
    ∃ k l, s.loads.find? k = some l ∧ l.path = p ∧ l.stage = .ended (some exports)
  succeeded : ∀ {k l exports}, s.loads.find? k = some l → l.stage = .ended (some exports) →
    s.context.slots.find? l.path = some (.ready exports) ∧
      ∀ k', s.supplies.find? k' = some (.load k) → s.context.traces.find? k' = some l.path
  failed : ∀ {k l}, s.loads.find? k = some l → l.stage = .ended none →
    lib.document? l.path = none
  /-- A module succeeds at one key only. -/
  once : ∀ {k k' l l' exports exports'}, s.loads.find? k = some l → s.loads.find? k' = some l' →
    l.path = l'.path → l.stage = .ended (some exports) → l'.stage = .ended (some exports') →
    k = k'
  traced : ∀ {k p}, s.context.traces.find? k = some p → lib.Named entry k p ∧
    s.supplies.contains k ∧ ∃ exports, s.context.slots.find? p = some (.ready exports)
  opened : ∀ {k d}, s.documents.find? k = some d → ∃ l, s.loads.find? k = some l ∧
    lib.document? l.path = some d ∧ l.stage.isOpen
  brings : ∀ {k l}, s.loads.find? k = some l → l.stage.isOpen → ∃ d, s.documents.find? k = some d

variable {lib : Library} {entry : Document} {s : Session}

namespace Wired

theorem located (h : s.Wired lib entry) {k : TraceKey} {d : Document} (hd : s.Holds entry k d) :
    lib.Located entry k d := by
  rcases hd with ⟨rfl, rfl⟩ | hd
  · exact .root
  · obtain ⟨l, hl, hld, -⟩ := h.opened hd
    obtain ⟨l', hl', hn⟩ := h.joins (h.starts hl)
    cases hl.symm.trans hl'
    exact hn.located hld

theorem named (h : s.Wired lib entry) {k : TraceKey} {d : Document} {i : Nat} {r : ImportRule}
    (ha : s.Asks entry k d i r) : lib.Named entry (k.child i) (d.path.resolve r.source) :=
  ⟨k, d, i, r, h.located ha.holds, ha.rule, rfl, rfl⟩

theorem not_started (h : s.Wired lib entry) {k : TraceKey} (hk : s.supplies.find? k = none) :
    s.loads.find? k = none := by
  cases hl : s.loads.find? k with
  | none => rfl
  | some l =>
    rw [h.starts hl] at hk
    cases hk

theorem named_load (h : s.Wired lib entry) {k : TraceKey} {l : Load}
    (hl : s.loads.find? k = some l) : lib.Named entry k l.path := by
  obtain ⟨l', hl', hn⟩ := h.joins (h.starts hl)
  cases hl.symm.trans hl'
  exact hn

theorem opened_load (h : s.Wired lib entry) {k : TraceKey} {l : Load} {d : Document}
    (hl : s.loads.find? k = some l) (hd : s.documents.find? k = some d) :
    lib.document? l.path = some d ∧ l.stage.isOpen := by
  obtain ⟨l', hl', hld, hopen⟩ := h.opened hd
  cases hl.symm.trans hl'
  exact ⟨hld, hopen⟩

theorem document_of_open (h : s.Wired lib entry) {k : TraceKey} {l : Load} {d : Document}
    (hl : s.loads.find? k = some l) (hopen : l.stage.isOpen) (hd : lib.document? l.path = some d) :
    s.documents.find? k = some d := by
  obtain ⟨d', hd'⟩ := h.brings hl hopen
  cases hd.symm.trans (h.opened_load hl hd').1
  exact hd'

theorem not_brought (h : s.Wired lib entry) {k : TraceKey} {l : Load}
    (hl : s.loads.find? k = some l) (hopen : ¬ l.stage.isOpen) : s.documents.find? k = none := by
  cases hd : s.documents.find? k with
  | none => rfl
  | some d => exact absurd (h.opened_load hl hd).2 hopen

theorem contains_of_document (h : s.Wired lib entry) {k : TraceKey} {d : Document}
    (hd : s.documents.find? k = some d) : s.supplies.contains k := by
  obtain ⟨l, hl, -⟩ := h.opened hd
  exact Option.isSome_iff_exists.mpr ⟨_, h.starts hl⟩

theorem holder_of_holds (h : s.Wired lib entry) {k : TraceKey} {i : Nat} {d : Document}
    (hd : s.Holds entry (k.child i) d) : ∃ c, s.Holds entry k c := by
  rcases hd with ⟨hk, -⟩ | hd
  · exact absurd hk (TraceKey.child_ne_root _ _)
  · obtain ⟨l, hl, -⟩ := h.opened hd
    obtain ⟨k', c, i', r, hc, -, hk⟩ := h.holder (h.starts hl)
    obtain ⟨rfl, -⟩ := TraceKey.child_inj hk
    exact ⟨c, hc⟩

/-- A load under way has the slot of its module, so any other slot is that of another module. -/
theorem path_ne_of_slot (h : s.Wired lib entry) {k : TraceKey} {l : Load}
    (hl : s.loads.find? k = some l) (hlive : l.stage.isLive) {p : ModulePath} {slot : Slot}
    (hs : s.context.slots.find? p = some slot) (hne : ∀ joined, slot ≠ .pending k joined) :
    l.path ≠ p := by
  obtain ⟨joined, hslot, -⟩ := h.live hl hlive
  rintro rfl
  exact hne joined (Option.some.inj (hs.symm.trans hslot))

theorem path_ne_of_ready (h : s.Wired lib entry) {k : TraceKey} {l : Load}
    (hl : s.loads.find? k = some l) (hlive : l.stage.isLive) {p : ModulePath}
    {exports : ExportTable} (hs : s.context.slots.find? p = some (.ready exports)) :
    l.path ≠ p :=
  h.path_ne_of_slot hl hlive hs fun _ => nofun

theorem path_ne_of_pending (h : s.Wired lib entry) {k k' : TraceKey} {l : Load}
    (hl : s.loads.find? k = some l) (hlive : l.stage.isLive) (hne : k ≠ k') {p : ModulePath}
    {joined : List TraceKey} (hs : s.context.slots.find? p = some (.pending k' joined)) :
    l.path ≠ p :=
  h.path_ne_of_slot hl hlive hs fun _ e => hne (Slot.pending.inj e).1.symm

/-- The imports that wait for a load under way are the one that started it and those that its
module's slot lists. -/
theorem supply_iff (h : s.Wired lib entry) {k k' : TraceKey} {p : ModulePath}
    {joined : List TraceKey} (hs : s.context.slots.find? p = some (.pending k joined)) :
    s.supplies.find? k' = some (.load k) ↔ k' = k ∨ k' ∈ joined := by
  obtain ⟨l, hl, rfl, hlive, hj⟩ := h.pending hs
  constructor
  · intro hk'
    obtain ⟨joined', hs', hwait⟩ := h.live hl hlive
    cases hs.symm.trans hs'
    exact hwait k' hk'
  · rintro (rfl | hk')
    · exact h.starts hl
    · exact hj k' hk'

theorem not_succeeded (h : s.Wired lib entry) {k k' : TraceKey} {l l' : Load}
    (hl : s.loads.find? k = some l) (hlive : l.stage.isLive) (hl' : s.loads.find? k' = some l')
    (hp : l.path = l'.path) {exports : ExportTable} : l'.stage ≠ .ended (some exports) :=
  fun he => h.path_ne_of_ready hl hlive (h.succeeded hl' he).1 hp

theorem load_unique (h : s.Wired lib entry) {k k' : TraceKey} {l l' : Load}
    (hl : s.loads.find? k = some l) (hl' : s.loads.find? k' = some l')
    (hst : l.stage ≠ .ended none) (hst' : l'.stage ≠ .ended none) (hp : l.path = l'.path) :
    k = k' := by
  rcases Stage.live_or_succeeded hst with hlive | ⟨exports, hst⟩ <;>
    rcases Stage.live_or_succeeded hst' with hlive' | ⟨exports', hst'⟩
  · obtain ⟨joined, hslot, -⟩ := h.live hl' hlive'
    by_contra hne
    exact h.path_ne_of_pending hl hlive hne hslot hp
  · exact absurd hst' (h.not_succeeded hl hlive hl' hp)
  · exact absurd hst (h.not_succeeded hl' hlive' hl hp.symm)
  · exact h.once hl hl' hp hst hst'

/-- A module that can be loaded keeps its slot from the first import that asks for it on. -/
theorem slot_of_contains (h : s.Wired lib entry) {k : TraceKey} {p : ModulePath} {d : Document}
    (hk : s.supplies.contains k) (hn : lib.Named entry k p) (hd : lib.document? p = some d) :
    ∃ slot, s.context.slots.find? p = some slot := by
  obtain ⟨sup, hsup⟩ := Option.isSome_iff_exists.mp hk
  cases sup with
  | exports exports =>
    obtain ⟨q, hq, hs, -⟩ := h.hits hsup
    exact ⟨_, hn.unique hq ▸ hs⟩
  | load k' =>
    obtain ⟨l, hl, hq⟩ := h.joins hsup
    cases hn.unique hq
    match hst : l.stage with
    | .ended none =>
      rw [h.failed hl hst] at hd
      cases hd
    | .ended (some exports) => exact ⟨_, (h.succeeded hl hst).1⟩
    | .queued | .fetching | .answered | .linking =>
      obtain ⟨joined, hs, -⟩ := h.live hl (by rw [hst]; rfl)
      exact ⟨_, hs⟩

/-! ## The start -/

theorem start (r : Resolver) (clock : Nat) (requests : List Fetched) :
    (r.start clock requests).Wired lib entry where
  holder h := by cases h
  joins h := by cases h
  hits h := by cases h
  starts h := by cases h
  pending h := by cases h
  live h := by cases h
  ready h := by cases h
  succeeded h := by cases h
  failed h := by cases h
  once h := by cases h
  traced h := by cases h
  opened h := by cases h
  brings h := by cases h

/-! ## Imports that ask -/

section

variable {k : TraceKey} {d : Document} {i : Nat} {r : ImportRule}

/-- An import that asks now stands in an open document, like those that have asked. -/
theorem holder_insert (h : s.Wired lib entry) (ha : s.Asks entry k d i r) {sup sup' : Supply}
    {k' : TraceKey} (hk' : (s.supplies.insert (k.child i) sup).find? k' = some sup') :
    ∃ k'' d' i' r', s.Holds entry k'' d' ∧ d'.sheet.imports[i']? = some r' ∧
      k' = k''.child i' := by
  rcases Table.find?_insert_eq_some.mp hk' with ⟨rfl, -⟩ | ⟨-, hk'⟩
  · exact ⟨k, d, i, r, ha.holds, ha.rule, rfl⟩
  · exact h.holder hk'

theorem not_traced (h : s.Wired lib entry) (ha : s.Asks entry k d i r) :
    s.context.traces.find? (k.child i) = none := by
  cases ht : s.context.traces.find? (k.child i) with
  | none => rfl
  | some p =>
    have hc := (h.traced ht).2.1
    rw [Table.contains_eq, ha.fresh] at hc
    cases hc

theorem hit {exports : ExportTable} (h : s.Wired lib entry) (ha : s.Asks entry k d i r)
    (hs : s.context.slots.find? (d.path.resolve r.source) = some (.ready exports)) :
    Wired lib entry { s with
      context := s.context.record (d.path.resolve r.source) (k.child i)
      supplies := s.supplies.insert (k.child i) (.exports exports) } := by
  have hold : ∀ {k' load}, (s.supplies.insert (k.child i) (.exports exports)).find? k' =
      some (.load load) → s.supplies.find? k' = some (.load load) :=
    fun hk' => Table.find?_of_insert hk' nofun
  exact {
    holder := h.holder_insert ha
    joins := fun hk' => h.joins (hold hk')
    hits := by
      intro k' exports' hk'
      rcases Table.find?_insert_eq_some.mp hk' with ⟨rfl, e⟩ | ⟨hne, hk'⟩
      · cases e
        exact ⟨_, h.named ha, hs, Table.find?_insert_self⟩
      · obtain ⟨p, hn, hs', ht⟩ := h.hits hk'
        exact ⟨p, hn, hs', (Table.find?_insert_of_ne hne).trans ht⟩
    starts := fun hl => Table.find?_insert_new ha.fresh (h.starts hl)
    pending := by
      intro p load joined hs'
      obtain ⟨l, hl, hp, hlive, hj⟩ := h.pending hs'
      exact ⟨l, hl, hp, hlive, fun k' hk' => Table.find?_insert_new ha.fresh (hj k' hk')⟩
    live := by
      intro k' l hl hlive
      obtain ⟨joined, hs', hj⟩ := h.live hl hlive
      exact ⟨joined, hs', fun k'' hk'' => hj k'' (hold hk'')⟩
    ready := h.ready
    succeeded := by
      intro k' l exports' hl hst
      obtain ⟨hs', ht⟩ := h.succeeded hl hst
      exact ⟨hs', fun k'' hk'' => Table.find?_insert_new (h.not_traced ha) (ht k'' (hold hk''))⟩
    failed := h.failed
    once := h.once
    traced := by
      intro k' p hk'
      rcases Table.find?_insert_eq_some.mp hk' with ⟨rfl, rfl⟩ | ⟨-, hk'⟩
      · exact ⟨h.named ha, Table.contains_insert_self, exports, hs⟩
      · obtain ⟨hn, hc, hs'⟩ := h.traced hk'
        exact ⟨hn, Table.contains_insert hc, hs'⟩
    opened := h.opened
    brings := h.brings }

theorem join {load : TraceKey} {joined : List TraceKey} (h : s.Wired lib entry)
    (ha : s.Asks entry k d i r)
    (hs : s.context.slots.find? (d.path.resolve r.source) = some (.pending load joined)) :
    Wired lib entry { s with
      context := s.context.setSlot (d.path.resolve r.source) (.pending load (joined ++ [k.child i]))
      supplies := s.supplies.insert (k.child i) (.load load) } := by
  obtain ⟨l, hl, hp, hlive, hjoined⟩ := h.pending hs
  have hready : ∀ {p exports}, s.context.slots.find? p = some (.ready exports) →
      (s.context.slots.insert (d.path.resolve r.source)
        (.pending load (joined ++ [k.child i]))).find? p = some (.ready exports) := by
    intro p exports hs'
    have hne := h.path_ne_of_ready hl hlive hs'
    rw [hp] at hne
    exact (Table.find?_insert_of_ne hne).trans hs'
  exact {
    holder := h.holder_insert ha
    joins := by
      intro k' load' hk'
      rcases Table.find?_insert_eq_some.mp hk' with ⟨rfl, e⟩ | ⟨-, hk'⟩
      · cases e
        exact ⟨l, hl, hp ▸ h.named ha⟩
      · exact h.joins hk'
    hits := by
      intro k' exports hk'
      obtain ⟨p, hn, hs', ht⟩ := h.hits (Table.find?_of_insert hk' nofun)
      exact ⟨p, hn, hready hs', ht⟩
    starts := fun hl' => Table.find?_insert_new ha.fresh (h.starts hl')
    pending := by
      intro p load' joined' hs'
      rcases Table.find?_insert_eq_some.mp hs' with ⟨rfl, e⟩ | ⟨-, hs'⟩
      · cases e
        refine ⟨l, hl, hp, hlive, fun k' hk' => ?_⟩
        rcases List.mem_append.mp hk' with hk' | hk'
        · exact Table.find?_insert_new ha.fresh (hjoined k' hk')
        · exact List.mem_singleton.mp hk' ▸ Table.find?_insert_self
      · obtain ⟨l', hl', hp', hlive', hj⟩ := h.pending hs'
        exact ⟨l', hl', hp', hlive', fun k' hk' => Table.find?_insert_new ha.fresh (hj k' hk')⟩
    live := by
      intro k' l' hl' hlive'
      obtain ⟨joined', hs', hj⟩ := h.live hl' hlive'
      by_cases hp' : d.path.resolve r.source = l'.path
      · -- The load that is joined, whose slot lists one import more.
        rw [← hp', hs] at hs'
        cases hs'
        refine ⟨joined ++ [k.child i], hp' ▸ Table.find?_insert_self, fun k'' hk'' => ?_⟩
        rcases Table.find?_insert_eq_some.mp hk'' with ⟨rfl, -⟩ | ⟨-, hk''⟩
        · exact .inr (List.mem_append_right _ (List.mem_singleton.mpr rfl))
        · exact (hj k'' hk'').imp_right (List.mem_append_left _)
      · refine ⟨joined', (Table.find?_insert_of_ne hp').trans hs', fun k'' hk'' => ?_⟩
        refine hj k'' (Table.find?_of_insert hk'' ?_)
        rintro ⟨⟩
        cases hl.symm.trans hl'
        exact hp' hp.symm
    ready hs' := h.ready (Table.find?_of_insert hs' nofun)
    succeeded := by
      intro k' l' exports hl' hst
      obtain ⟨hs', ht⟩ := h.succeeded hl' hst
      refine ⟨hready hs', fun k'' hk'' => ht k'' (Table.find?_of_insert hk'' ?_)⟩
      rintro ⟨⟩
      cases hl.symm.trans hl'
      rw [hst] at hlive
      cases hlive
    failed := h.failed
    once := h.once
    traced := by
      intro k' p hk'
      obtain ⟨hn, hc, exports, hs'⟩ := h.traced hk'
      exact ⟨hn, Table.contains_insert hc, exports, hready hs'⟩
    opened := h.opened
    brings := h.brings }

theorem begin (h : s.Wired lib entry) (ha : s.Asks entry k d i r)
    (hs : s.context.slots.find? (d.path.resolve r.source) = none) :
    Wired lib entry { s with
      context := s.context.setSlot (d.path.resolve r.source) (.pending (k.child i) [])
      supplies := s.supplies.insert (k.child i) (.load (k.child i))
      loads := s.loads.insert (k.child i) { request := ⟨r.source, d.path, s.root⟩ } } := by
  have hnew : s.loads.find? (k.child i) = none := h.not_started ha.fresh
  have hold : ∀ {k' l}, (s.loads.insert (k.child i) { request := ⟨r.source, d.path, s.root⟩ }).find?
      k' = some l → l.stage ≠ .queued → s.loads.find? k' = some l := by
    intro k' l hl hst
    refine Table.find?_of_insert hl ?_
    rintro rfl
    exact hst rfl
  -- The imports that wait for another load have asked before.
  have hwaits : ∀ {k' k'' l}, s.loads.find? k' = some l →
      (s.supplies.insert (k.child i) (.load (k.child i))).find? k'' = some (.load k') →
        s.supplies.find? k'' = some (.load k') := by
    intro k' k'' l hl hk''
    refine Table.find?_of_insert hk'' ?_
    rintro ⟨⟩
    cases hnew.symm.trans hl
  exact {
    holder := h.holder_insert ha
    joins := by
      intro k' load hk'
      rcases Table.find?_insert_eq_some.mp hk' with ⟨rfl, e⟩ | ⟨-, hk'⟩
      · cases e
        exact ⟨_, Table.find?_insert_self, h.named ha⟩
      · obtain ⟨l, hl, hn⟩ := h.joins hk'
        exact ⟨l, Table.find?_insert_new hnew hl, hn⟩
    hits := by
      intro k' exports hk'
      obtain ⟨p, hn, hs', ht⟩ := h.hits (Table.find?_of_insert hk' nofun)
      exact ⟨p, hn, Table.find?_insert_new hs hs', ht⟩
    starts := by
      intro k' l hl
      rcases Table.find?_insert_eq_some.mp hl with ⟨rfl, -⟩ | ⟨-, hl⟩
      · exact Table.find?_insert_self
      · exact Table.find?_insert_new ha.fresh (h.starts hl)
    pending := by
      intro p load joined hs'
      rcases Table.find?_insert_eq_some.mp hs' with ⟨rfl, e⟩ | ⟨-, hs'⟩
      · cases e
        exact ⟨_, Table.find?_insert_self, rfl, rfl, by simp⟩
      · obtain ⟨l, hl, hp, hlive, hj⟩ := h.pending hs'
        exact ⟨l, Table.find?_insert_new hnew hl, hp, hlive, fun k' hk' =>
          Table.find?_insert_new ha.fresh (hj k' hk')⟩
    live := by
      intro k' l hl hlive
      rcases Table.find?_insert_eq_some.mp hl with ⟨rfl, rfl⟩ | ⟨-, hl⟩
      · refine ⟨[], Table.find?_insert_self, fun k'' hk'' => ?_⟩
        rcases Table.find?_insert_eq_some.mp hk'' with ⟨rfl, -⟩ | ⟨-, hk''⟩
        · exact .inl rfl
        · obtain ⟨l', hl', -⟩ := h.joins hk''
          rw [hnew] at hl'
          cases hl'
      · obtain ⟨joined, hs', hj⟩ := h.live hl hlive
        exact ⟨joined, Table.find?_insert_new hs hs', fun k'' hk'' => hj k'' (hwaits hl hk'')⟩
    ready := by
      intro p exports hs'
      obtain ⟨k', l, hl, hp, hst⟩ := h.ready (Table.find?_of_insert hs' nofun)
      exact ⟨k', l, Table.find?_insert_new hnew hl, hp, hst⟩
    succeeded := by
      intro k' l exports hl hst
      have hl' := hold hl (by simp [hst])
      obtain ⟨hs', ht⟩ := h.succeeded hl' hst
      exact ⟨Table.find?_insert_new hs hs', fun k'' hk'' => ht k'' (hwaits hl' hk'')⟩
    failed hl hst := h.failed (hold hl (by simp [hst])) hst
    once := by
      intro k₁ k₂ l₁ l₂ _ _ h₁ h₂ hp he₁ he₂
      exact h.once (hold h₁ (by simp [he₁])) (hold h₂ (by simp [he₂])) hp he₁ he₂
    traced := by
      intro k' p hk'
      obtain ⟨hn, hc, exports, hs'⟩ := h.traced hk'
      exact ⟨hn, Table.contains_insert hc, exports, Table.find?_insert_new hs hs'⟩
    opened := by
      intro k' d' hd'
      obtain ⟨l, hl, hdoc, hopen⟩ := h.opened hd'
      exact ⟨l, Table.find?_insert_new hnew hl, hdoc, hopen⟩
    brings := by
      intro k' l hl hopen
      refine h.brings (hold hl fun hst => ?_) hopen
      rw [hst] at hopen
      cases hopen }

end

/-! ## Loads that move on -/

section

variable {k : TraceKey} {l : Load} {d : Document}

/-! The load at `k` goes on to another stage, and the other loads stay. -/

theorem joins_insert (h : s.Wired lib entry) (hl : s.loads.find? k = some l) (st : Stage)
    {k' load : TraceKey} (hk' : s.supplies.find? k' = some (.load load)) :
    ∃ l', (s.loads.insert k { l with stage := st }).find? load = some l' ∧
      lib.Named entry k' l'.path := by
  obtain ⟨l', hl', hn⟩ := h.joins hk'
  by_cases e : k = load
  · subst e
    cases hl.symm.trans hl'
    exact ⟨_, Table.find?_insert_self, hn⟩
  · exact ⟨l', (Table.find?_insert_of_ne e).trans hl', hn⟩

theorem starts_insert (h : s.Wired lib entry) (hl : s.loads.find? k = some l) {l₁ l' : Load}
    {k' : TraceKey} (hl' : (s.loads.insert k l₁).find? k' = some l') :
    s.supplies.find? k' = some (.load k') := by
  rcases Table.find?_insert_eq_some.mp hl' with ⟨rfl, -⟩ | ⟨-, hl'⟩
  · exact h.starts hl
  · exact h.starts hl'

theorem ready_insert (h : s.Wired lib entry) (hl : s.loads.find? k = some l)
    (hlive : l.stage.isLive) (l₁ : Load) {p : ModulePath} {exports : ExportTable}
    (hs : s.context.slots.find? p = some (.ready exports)) :
    ∃ k' l', (s.loads.insert k l₁).find? k' = some l' ∧ l'.path = p ∧
      l'.stage = .ended (some exports) := by
  obtain ⟨k', l', hl', hp, hst⟩ := h.ready hs
  refine ⟨k', l', Table.find?_insert_other hl hl' ?_, hp, hst⟩
  rintro rfl
  rw [hst] at hlive
  cases hlive

/-- The load of a module that is under way is the only one that can have succeeded afterwards. -/
theorem once_insert (h : s.Wired lib entry) (hl : s.loads.find? k = some l)
    (hlive : l.stage.isLive) {st : Stage} {k₁ k₂ : TraceKey} {l₁ l₂ : Load}
    {exports₁ exports₂ : ExportTable}
    (h₁ : (s.loads.insert k { l with stage := st }).find? k₁ = some l₁)
    (h₂ : (s.loads.insert k { l with stage := st }).find? k₂ = some l₂) (hp : l₁.path = l₂.path)
    (he₁ : l₁.stage = .ended (some exports₁)) (he₂ : l₂.stage = .ended (some exports₂)) :
    k₁ = k₂ := by
  rcases Table.find?_insert_eq_some.mp h₁ with ⟨rfl, rfl⟩ | ⟨-, h₁⟩ <;>
    rcases Table.find?_insert_eq_some.mp h₂ with ⟨rfl, rfl⟩ | ⟨-, h₂⟩
  · rfl
  · exact absurd he₂ (h.not_succeeded hl hlive h₂ hp)
  · exact absurd he₁ (h.not_succeeded hl hlive h₁ hp.symm)
  · exact h.once h₁ h₂ hp he₁ he₂

theorem pending_insert (h : s.Wired lib entry) (hl : s.loads.find? k = some l) {st : Stage}
    (hst : st.isLive) {p : ModulePath} {load : TraceKey} {joined : List TraceKey}
    (hs : s.context.slots.find? p = some (.pending load joined)) :
    ∃ l', (s.loads.insert k { l with stage := st }).find? load = some l' ∧ l'.path = p ∧
      l'.stage.isLive ∧ ∀ k' ∈ joined, s.supplies.find? k' = some (.load load) := by
  obtain ⟨l', hl', hp, hlive, hj⟩ := h.pending hs
  by_cases e : k = load
  · subst e
    cases hl.symm.trans hl'
    exact ⟨_, Table.find?_insert_self, hp, hst, hj⟩
  · exact ⟨l', (Table.find?_insert_of_ne e).trans hl', hp, hlive, hj⟩

theorem pending_insert_of_ne (h : s.Wired lib entry) (hl : s.loads.find? k = some l) (l₁ : Load)
    {p : ModulePath} (hne : l.path ≠ p) {load : TraceKey} {joined : List TraceKey}
    (hs : s.context.slots.find? p = some (.pending load joined)) :
    ∃ l', (s.loads.insert k l₁).find? load = some l' ∧ l'.path = p ∧ l'.stage.isLive ∧
      ∀ k' ∈ joined, s.supplies.find? k' = some (.load load) := by
  obtain ⟨l', hl', hp, hlive, hj⟩ := h.pending hs
  refine ⟨l', Table.find?_insert_other hl hl' ?_, hp, hlive, hj⟩
  rintro rfl
  exact hne hp

theorem live_insert (h : s.Wired lib entry) (hl : s.loads.find? k = some l)
    (hlive : l.stage.isLive) {st : Stage} {k' : TraceKey} {l' : Load}
    (hl' : (s.loads.insert k { l with stage := st }).find? k' = some l')
    (hlive' : l'.stage.isLive) :
    ∃ joined, s.context.slots.find? l'.path = some (.pending k' joined) ∧
      ∀ k'', s.supplies.find? k'' = some (.load k') → k'' = k' ∨ k'' ∈ joined := by
  rcases Table.find?_insert_eq_some.mp hl' with ⟨rfl, rfl⟩ | ⟨-, hl'⟩
  · obtain ⟨joined, hs, hj⟩ := h.live hl hlive
    exact ⟨joined, hs, hj⟩
  · exact h.live hl' hlive'

theorem find?_of_ended_insert {st : Stage} (hst : st.isLive) {k' : TraceKey} {l' : Load}
    {outcome : Option ExportTable}
    (hl' : (s.loads.insert k { l with stage := st }).find? k' = some l')
    (he : l'.stage = .ended outcome) : s.loads.find? k' = some l' := by
  rcases Table.find?_insert_eq_some.mp hl' with ⟨-, rfl⟩ | ⟨-, hl'⟩
  · rw [show st = _ from he] at hst
    cases hst
  · exact hl'

theorem opened_insert (h : s.Wired lib entry) (hl : s.loads.find? k = some l)
    (hopen : ¬ l.stage.isOpen) (l₁ : Load) {k' : TraceKey}
    (hd : s.documents.find? k' = some d) : ∃ l', (s.loads.insert k l₁).find? k' = some l' ∧
      lib.document? l'.path = some d ∧ l'.stage.isOpen := by
  obtain ⟨l', hl', hdoc, hopen'⟩ := h.opened hd
  refine ⟨l', Table.find?_insert_other hl hl' ?_, hdoc, hopen'⟩
  rintro rfl
  exact hopen hopen'

/-- Moving a load on to a stage in which it is still under way and has brought no document. -/
theorem setStage (h : s.Wired lib entry) (hl : s.loads.find? k = some l) (hlive : l.stage.isLive)
    (hopen : ¬ l.stage.isOpen) {st : Stage} (hst : st.isLive) (hsto : ¬ st.isOpen)
    {s' : Session} (hc : s'.context = s.context) (hd : s'.documents = s.documents)
    (hs : s'.supplies = s.supplies) (hls : s'.loads = s.loads.insert k { l with stage := st }) :
    s'.Wired lib entry where
  holder := by
    intro k' sup hk'
    rw [hs] at hk'
    obtain ⟨k'', d', i', r', hd', hr, rfl⟩ := h.holder hk'
    exact ⟨k'', d', i', r', hd'.imp id (hd ▸ ·), hr, rfl⟩
  joins := by
    rw [hs, hls]
    exact h.joins_insert hl st
  hits := by
    rw [hs, hc]
    exact h.hits
  starts := by
    rw [hs, hls]
    exact h.starts_insert hl
  pending := by
    rw [hs, hls, hc]
    exact h.pending_insert hl hst
  live := by
    rw [hs, hls, hc]
    exact h.live_insert hl hlive
  ready := by
    rw [hls, hc]
    exact h.ready_insert hl hlive _
  succeeded := by
    rw [hs, hls, hc]
    exact fun hl' he => h.succeeded (find?_of_ended_insert hst hl' he) he
  failed := by
    rw [hls]
    exact fun hl' he => h.failed (find?_of_ended_insert hst hl' he) he
  once := by
    rw [hls]
    exact h.once_insert hl hlive
  traced := by
    rw [hs, hc]
    exact h.traced
  opened := by
    rw [hd, hls]
    exact h.opened_insert hl hopen _
  brings := by
    rw [hd, hls]
    intro k' l' hl' hopen'
    rcases Table.find?_insert_eq_some.mp hl' with ⟨-, rfl⟩ | ⟨-, hl'⟩
    · exact absurd hopen' hsto
    · exact h.brings hl' hopen'

theorem refuse {e : ImportError} (h : s.Wired lib entry) (hl : s.loads.find? k = some l)
    (hst : l.stage = .answered) (he : lib.refusal? l.request.importer l.path = some e) :
    (s.fail k l e).Wired lib entry := by
  have hlive : l.stage.isLive := by rw [hst]; rfl
  have hopen : ¬ l.stage.isOpen := by rw [hst]; simp [Stage.isOpen]
  have hready : ∀ {p exports}, s.context.slots.find? p = some (.ready exports) →
      (s.context.slots.erase l.path).find? p = some (.ready exports) :=
    fun hs => Table.find?_erase_eq_some.mpr ⟨h.path_ne_of_ready hl hlive hs, hs⟩
  exact {
    holder := h.holder
    joins := h.joins_insert hl _
    hits := by
      intro k' exports hk'
      obtain ⟨p, hn, hs, ht⟩ := h.hits hk'
      exact ⟨p, hn, hready hs, ht⟩
    starts := h.starts_insert hl
    pending := by
      intro p load joined hs
      obtain ⟨hne, hs⟩ := Table.find?_erase_eq_some.mp hs
      exact h.pending_insert_of_ne hl _ hne hs
    live := by
      intro k' l' hl' hlive'
      rcases Table.find?_insert_eq_some.mp hl' with ⟨-, rfl⟩ | ⟨hne, hl'⟩
      · cases hlive'
      · obtain ⟨joined, hs, hj⟩ := h.live hl' hlive'
        exact ⟨joined, Table.find?_erase_eq_some.mpr
          ⟨h.path_ne_of_pending hl hlive hne hs, hs⟩, hj⟩
    ready hs := h.ready_insert hl hlive _ (Table.find?_erase_eq_some.mp hs).2
    succeeded := by
      intro k' l' exports hl' hst'
      rcases Table.find?_insert_eq_some.mp hl' with ⟨-, rfl⟩ | ⟨-, hl'⟩
      · cases hst'
      · obtain ⟨hs, ht⟩ := h.succeeded hl' hst'
        exact ⟨hready hs, ht⟩
    failed := by
      intro k' l' hl' hst'
      rcases Table.find?_insert_eq_some.mp hl' with ⟨-, rfl⟩ | ⟨-, hl'⟩
      · exact Library.document?_of_refusal? he
      · exact h.failed hl' hst'
    once := h.once_insert hl hlive
    traced := by
      intro k' p hk'
      obtain ⟨hn, hc, exports, hs⟩ := h.traced hk'
      exact ⟨hn, hc, exports, hready hs⟩
    opened := h.opened_insert hl hopen _
    brings := by
      intro k' l' hl' hopen'
      rcases Table.find?_insert_eq_some.mp hl' with ⟨-, rfl⟩ | ⟨-, hl'⟩
      · cases hopen'
      · exact h.brings hl' hopen' }

theorem accept (h : s.Wired lib entry) (hl : s.loads.find? k = some l)
    (hst : l.stage = .answered) (hd : lib.document? l.path = some d) :
    Wired lib entry { s.setStage k l .linking with documents := s.documents.insert k d } := by
  have hlive : l.stage.isLive := by rw [hst]; rfl
  have hnew := h.not_brought hl (by rw [hst]; simp [Stage.isOpen])
  exact {
    holder := by
      intro k' sup hk'
      obtain ⟨k'', d', i, r, hd', hr, rfl⟩ := h.holder hk'
      exact ⟨k'', d', i, r, hd'.imp id (Table.find?_insert_new hnew), hr, rfl⟩
    joins := h.joins_insert hl _
    hits := h.hits
    starts := h.starts_insert hl
    pending := h.pending_insert hl rfl
    live := h.live_insert hl hlive
    ready := h.ready_insert hl hlive _
    succeeded := fun hl' he => h.succeeded (find?_of_ended_insert rfl hl' he) he
    failed := fun hl' he => h.failed (find?_of_ended_insert rfl hl' he) he
    once := h.once_insert hl hlive
    traced := h.traced
    opened := by
      intro k' d' hd'
      rcases Table.find?_insert_eq_some.mp hd' with ⟨rfl, rfl⟩ | ⟨hne, hd'⟩
      · exact ⟨_, Table.find?_insert_self, hd, rfl⟩
      · obtain ⟨l', hl', hdoc, hopen⟩ := h.opened hd'
        exact ⟨l', (Table.find?_insert_of_ne hne).trans hl', hdoc, hopen⟩
    brings := by
      intro k' l' hl' hopen
      rcases Table.find?_insert_eq_some.mp hl' with ⟨rfl, -⟩ | ⟨hne, hl'⟩
      · exact ⟨d, Table.find?_insert_self⟩
      · obtain ⟨d', hd'⟩ := h.brings hl' hopen
        exact ⟨d', (Table.find?_insert_of_ne hne).trans hd'⟩ }

/-- A load whose document is linked ends, its module is ready, and the keys of the imports that
wait for it are recorded. -/
theorem succeed {exports : ExportTable} {c : Context} (h : s.Wired lib entry)
    (hl : s.loads.find? k = some l) (hst : l.stage = .linking)
    (hslots : c.slots = s.context.slots.insert l.path (.ready exports))
    (htraces : ∀ k', c.traces.find? k' =
      if s.supplies.find? k' = some (.load k) then some l.path
      else s.context.traces.find? k') :
    Wired lib entry { s.setStage k l (.ended (some exports)) with context := c } := by
  have hlive : l.stage.isLive := by rw [hst]; rfl
  have hopen₀ : l.stage.isOpen := by rw [hst]; rfl
  have hkept : ∀ {k' p}, s.supplies.find? k' ≠ some (.load k) →
      s.context.traces.find? k' = some p → c.traces.find? k' = some p :=
    fun hne ht => ((htraces _).trans (if_neg hne)).trans ht
  have hself : c.slots.find? l.path = some (.ready exports) := by
    rw [hslots, Table.find?_insert_self]
  have hready : ∀ {p exports'}, s.context.slots.find? p = some (.ready exports') →
      c.slots.find? p = some (.ready exports') := by
    intro p exports' hs
    rw [hslots, Table.find?_insert_of_ne (h.path_ne_of_ready hl hlive hs), hs]
  exact {
    holder := h.holder
    joins := h.joins_insert hl _
    hits := by
      intro k' exports' hk'
      obtain ⟨p, hn, hs, ht⟩ := h.hits hk'
      refine ⟨p, hn, hready hs, hkept (fun e => ?_) ht⟩
      cases hk'.symm.trans e
    starts := h.starts_insert hl
    pending := by
      intro p load joined' hs
      rw [hslots] at hs
      rcases Table.find?_insert_eq_some.mp hs with ⟨-, ⟨⟩⟩ | ⟨hne, hs⟩
      exact h.pending_insert_of_ne hl _ hne hs
    live := by
      intro k' l' hl' hlive'
      rcases Table.find?_insert_eq_some.mp hl' with ⟨-, rfl⟩ | ⟨hne, hl'⟩
      · cases hlive'
      · obtain ⟨joined', hs, hj⟩ := h.live hl' hlive'
        refine ⟨joined', ?_, hj⟩
        rw [hslots, Table.find?_insert_of_ne (h.path_ne_of_pending hl hlive hne hs), hs]
    ready := by
      intro p exports' hs
      rw [hslots] at hs
      rcases Table.find?_insert_eq_some.mp hs with ⟨rfl, e⟩ | ⟨-, hs⟩
      · cases e
        exact ⟨k, _, Table.find?_insert_self, rfl, rfl⟩
      · exact h.ready_insert hl hlive _ hs
    succeeded := by
      intro k' l' exports' hl' hst'
      rcases Table.find?_insert_eq_some.mp hl' with ⟨rfl, rfl⟩ | ⟨hne, hl'⟩
      · cases hst'
        exact ⟨hself, fun k' hk' => (htraces k').trans (if_pos hk')⟩
      · obtain ⟨hs, ht⟩ := h.succeeded hl' hst'
        refine ⟨hready hs, fun k'' hk'' => hkept (fun e => ?_) (ht k'' hk'')⟩
        cases hk''.symm.trans e
        exact hne rfl
    failed := by
      intro k' l' hl' hst'
      rcases Table.find?_insert_eq_some.mp hl' with ⟨-, rfl⟩ | ⟨-, hl'⟩
      · cases hst'
      · exact h.failed hl' hst'
    once := h.once_insert hl hlive
    traced := by
      intro k' p hk'
      rw [htraces] at hk'
      split at hk'
      · next hsup =>
        cases hk'
        obtain ⟨l', hl', hn⟩ := h.joins hsup
        cases hl.symm.trans hl'
        exact ⟨hn, Option.isSome_iff_exists.mpr ⟨_, hsup⟩, exports, hself⟩
      · obtain ⟨hn, hc, exports', hs⟩ := h.traced hk'
        exact ⟨hn, hc, exports', hready hs⟩
    opened := by
      intro k' d' hd'
      obtain ⟨l', hl', hdoc, hopen⟩ := h.opened hd'
      by_cases e : k = k'
      · subst e
        cases hl.symm.trans hl'
        exact ⟨_, Table.find?_insert_self, hdoc, rfl⟩
      · exact ⟨l', (Table.find?_insert_of_ne e).trans hl', hdoc, hopen⟩
    brings := by
      intro k' l' hl' hopen
      rcases Table.find?_insert_eq_some.mp hl' with ⟨rfl, -⟩ | ⟨-, hl'⟩
      · exact h.brings hl hopen₀
      · exact h.brings hl' hopen }

theorem conclude {loaded : List (Option ExportTable)} (h : s.Wired lib entry)
    (hl : s.loads.find? k = some l) (hst : l.stage = .linking)
    (hd : s.documents.find? k = some d) :
    Wired lib entry { s.setStage k l (.ended (some (d.sheet.link d.path loaded).exports)) with
      context := ((d.sheet.link d.path loaded).errors.foldl Context.report s.context).commit
        d.path (d.sheet.link d.path loaded).source (d.sheet.link d.path loaded).exports } := by
  obtain ⟨joined, hslot, -⟩ := h.live hl (by rw [hst]; rfl)
  have hp := Library.path_of_document? (h.opened_load hl hd).1
  refine h.succeed hl hst ?_ fun k' => ?_
  · rw [Context.commit_slots, Context.foldl_report_slots, hp]
  · rw [Context.commit_traces, Context.queued_of_pending _ _
      (by rw [Context.foldl_report_slots, hp, hslot]), Context.foldl_report_traces, hp]
    simp only [List.mem_cons, h.supply_iff hslot]

end

theorem move {active : List ModulePath} {s' : Session} (h : s.Wired lib entry)
    (hm : Move lib entry active s s') : s'.Wired lib entry := by
  cases hm with
  | hit ha hs => exact h.hit ha hs
  | join ha hs => exact h.join ha hs
  | start ha hs => exact h.begin ha hs
  | request hl hst =>
    refine h.setStage hl (by rw [hst]; rfl) (by rw [hst]; simp [Stage.isOpen]) ?_ ?_
      (request_context ..) (request_documents ..) (request_supplies ..) (request_loads ..)
    all_goals split <;> simp [Stage.isLive, Stage.isOpen]
  | refuse hl hst he => exact h.refuse hl hst he
  | accept hl hst hd => exact h.accept hl hst hd
  | conclude hl hst hd => exact h.conclude hl hst hd

theorem arrival {s' : Session} (h : s.Wired lib entry) (ha : Arrival s s') :
    s'.Wired lib entry := by
  obtain ⟨-, hl, hst⟩ := ha
  exact h.setStage hl (by rw [hst]; rfl) (by rw [hst]; simp [Stage.isOpen])
    (show Stage.answered.isLive = true from rfl) (by simp [Stage.isOpen]) rfl rfl rfl rfl

end Wired

end StyleBundle.Session
