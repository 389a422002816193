import StyleBundle.Proofs.Sequential
import StyleBundle.Proofs.Timing

/-!
# A run without delays is a sequential walk

When no answer takes time, polling does what the sequential walk does: an import finds its module
ready exactly when the walk has visited it, and otherwise the poll of the load that it starts is the
visit. Loads end in the order of their trace keys, so the order of the bundle is the order in which
the walk emits.
-/

namespace StyleBundle

/-! ## Keys that a walk has left behind -/

namespace TraceKey

variable {a k : TraceKey} {i j : Nat}

theorem under_child_inj (hi : a.Under (k.child i)) (hj : a.Under (k.child j)) : i = j := by
  have h : (k.child i).indices <+: (k.child j).indices :=
    List.prefix_of_prefix_length_le hi hj (by simp [child])
  have heq := h.eq_of_length (by simp [child])
  simpa [child] using heq

/-- The key `a` comes before `b` and everything that extends `b`. -/
def LeftOf (a b : TraceKey) : Prop :=
  a < b ∧ ¬ a.Under b

theorem LeftOf.child (h : a.LeftOf k) (i : Nat) : a.LeftOf (k.child i) :=
  ⟨lt_of_under h.1 h.2 (.refl a) (child_under k i), fun hu => h.2 (hu.trans (child_under k i))⟩

theorem Under.leftOf (h : a.Under (k.child i)) (hij : i < j) : a.LeftOf (k.child j) := by
  refine ⟨lt_of_under (child_lt_child k hij) (fun hu => ?_) h (.refl _), fun hu => ?_⟩
  · exact hij.ne (under_child_inj (.refl _) hu)
  · exact hij.ne (under_child_inj h hu)

theorem LeftOf.next (h : a.LeftOf (k.child i)) (hij : i < j) : a.LeftOf (k.child j) := by
  have hlt := ((Under.refl (k.child i)).leftOf hij)
  refine ⟨h.1.trans hlt.1, fun hu => ?_⟩
  exact absurd h.1 (lt_of_under hlt.1 hlt.2 (.refl _) hu).not_gt

end TraceKey

namespace Session

open TraceKey (LeftOf)

variable {lib : Library} {entry : Document} {active : List ModulePath} {root : String}
  {s t : Session} {w w' : Walk} {ks : List TraceKey} {k : TraceKey} {l : Load} {d : Document}

/-! ## Sessions and walks -/

/-- The session has come as far as the walk. The loads at `ks` have brought the modules that the
walk has emitted. -/
structure Mirrors (root : String) (s : Session) (w : Walk) (ks : List TraceKey) : Prop where
  root : s.root = root
  clock : s.clock = 0
  requests : s.requests = w.requests
  errors : s.context.errors = w.errors
  exports : ∀ p, s.exports? p = w.exports? p
  sources : ∀ e ∈ w.emitted, s.context.sources.find? e.1 = some e.2.source
  keys : List.Forall₂ (fun k e => ∃ d, s.documents.find? k = some d ∧ d.path = e.1) ks w.emitted
  ascending : ks.Pairwise (· < ·)

namespace Mirrors

theorem step (h : s.Mirrors root w ks) (hroot : t.root = s.root) (hclock : t.clock = s.clock)
    (hrequests : t.requests = w'.requests) (herrors : t.context.errors = w'.errors)
    (hemitted : w'.emitted = w.emitted)
    (hready : ∀ {p exports}, t.context.slots.find? p = some (.ready exports) ↔
      s.context.slots.find? p = some (.ready exports))
    (hsources : t.context.sources = s.context.sources)
    (hdocs : ∀ {k d}, s.documents.find? k = some d → t.documents.find? k = some d) :
    t.Mirrors root w' ks where
  root := hroot.trans h.root
  clock := hclock.trans h.clock
  requests := hrequests
  errors := herrors
  exports p := by
    have hexports : t.exports? p = s.exports? p := by
      refine Option.ext fun exports => ?_
      rw [exports?_eq_some_iff, exports?_eq_some_iff, hready]
    rw [hexports, h.exports]
    simp only [Walk.exports?, hemitted]
  sources := by
    rw [hemitted, hsources]
    exact h.sources
  keys := by
    rw [hemitted]
    refine h.keys.imp fun k e hopen => ?_
    obtain ⟨d, hd, hp⟩ := hopen
    exact ⟨d, hdocs hd, hp⟩
  ascending := h.ascending

end Mirrors

theorem request_clock (s : Session) (lib : Library) (k : TraceKey) (l : Load) :
    (s.request lib k l).clock = s.clock := by
  by_cases h : lib.delay l.path = 0 <;> simp [request, h, setStage]

theorem advance_eq_receive (hl : s.loads.find? k = some l) (hst : l.stage = .queued)
    (hzero : lib.delay l.path = 0) :
    s.advance lib k = (s.request lib k l).receive lib k { l with stage := .answered } := by
  have hl' : (s.request lib k l).loads.find? k = some { l with stage := .answered } := by
    simp [hzero, Table.find?_insert]
  simp only [advance, hl, if_pos hst, hl', if_true]

theorem advance_eq_fail {e : ImportError} (hl : s.loads.find? k = some l)
    (hst : l.stage = .queued) (hzero : lib.delay l.path = 0)
    (he : lib.refusal? l.request.importer l.path = some e) :
    s.advance lib k = (s.request lib k l).fail k l e :=
  (advance_eq_receive hl hst hzero).trans
    (receive_eq_fail (l := { l with stage := .answered }) he)

theorem advance_eq_accept (hl : s.loads.find? k = some l) (hst : l.stage = .queued)
    (hzero : lib.delay l.path = 0) (hdoc : lib.document? l.path = some d) :
    s.advance lib k = { (s.request lib k l).setStage k l .linking with
      documents := (s.request lib k l).documents.insert k d } :=
  (advance_eq_receive hl hst hzero).trans
    (receive_eq_accept (l := { l with stage := .answered }) hdoc)

/-! ## Loads -/

/-- The poll of the queued load at `k` from `s` to `t` is what the walk does about its module. -/
structure Visited (lib : Library) (root : String) (s t : Session) (k : TraceKey) (l : Load)
    (w : Walk) (ks : List TraceKey) : Prop where
  refused : ∀ e, lib.refusal? l.request.importer l.path = some e →
    t.Mirrors root ((w.request l.request).report e) ks ∧ t.ending? k = some none
  loaded : ∀ d (hd : lib.Grounded d), lib.document? l.path = some d →
    ∃ ks', t.Mirrors root (lib.visit root (w.request l.request) d hd).1 ks' ∧
      t.ending? k = some (some (lib.visit root (w.request l.request) d hd).2) ∧
      ∀ a ∈ ks', a ∈ ks ∨ a.Under k

theorem ending?_of_load {exports : Option ExportTable}
    (hs : s.supplies.find? k = some (.load k)) (hl : s.loads.find? k = some l)
    (hst : l.stage = .ended exports) : s.ending? k = some exports := by
  simp [Session.ending?, hs, hl, hst]

namespace WalkingTo

theorem refused {e : ImportError} (h : WalkingTo lib entry active s k)
    (hl : s.loads.find? k = some l) (hst : l.stage = .queued) (hzero : ∀ p, lib.delay p = 0)
    (hm : s.Mirrors root w ks) (he : lib.refusal? l.request.importer l.path = some e) :
    (s.advance lib k).linking? k = none ∧
      (s.advance lib k).Mirrors root ((w.request l.request).report e) ks ∧
      (s.advance lib k).ending? k = some none := by
  have hadv := advance_eq_fail hl hst (hzero _) he
  have hloads : (s.advance lib k).loads.find? k = some { l with stage := .ended none } := by
    simp [hadv, Table.find?_insert]
  refine ⟨by simp [linking?, hloads], ?_, ?_⟩
  · rw [hadv]
    refine hm.step ?_ ?_ ?_ ?_ rfl (fun {p exports} => ?_) ?_ (fun hd => ?_)
    · exact request_root ..
    · exact request_clock ..
    · simp [Walk.report, Walk.request, hm.requests, hm.clock]
    · simp [Walk.report, Walk.request, hm.errors]
    · rw [fail_context, Context.abandon_slots, request_context, Table.find?_erase_eq_some]
      exact and_iff_right_of_imp (h.wired.path_ne_of_ready hl (by rw [hst]; rfl))
    · simp
    · simpa using hd
  · refine ending?_of_load ?_ hloads rfl
    rw [(advance_frame lib s k).1]
    exact h.wired.starts hl

theorem accepted (h : WalkingTo lib entry active s k) (hl : s.loads.find? k = some l)
    (hst : l.stage = .queued) (hzero : ∀ p, lib.delay p = 0) (hm : s.Mirrors root w ks)
    (hdoc : lib.document? l.path = some d) :
    (s.advance lib k).linking? k = some d ∧
      (s.advance lib k).Mirrors root (w.request l.request) ks := by
  have hadv := advance_eq_accept hl hst (hzero _) hdoc
  have hnew := h.wired.not_brought hl (by rw [hst]; simp [Stage.isOpen])
  refine ⟨?_, ?_⟩
  · rw [hadv]
    simp [linking?, Table.find?_insert]
  · rw [hadv]
    refine hm.step ?_ ?_ ?_ ?_ rfl ?_ ?_ (fun hd => ?_)
    · exact request_root ..
    · exact request_clock ..
    · simp [Walk.request, hm.requests, hm.clock]
    · simp [Walk.request, hm.errors]
    · simp
    · simp
    · simpa using Table.find?_insert_new hnew hd

end WalkingTo

theorem Mirrors.start {p : ModulePath} {key : TraceKey} (h : s.Mirrors root w ks)
    (hslot : s.context.slots.find? p = none) (supplies : Table TraceKey Supply)
    (loads : Table TraceKey Load) : Mirrors root { s with
      context := s.context.setSlot p (.pending key []), supplies, loads } w ks := by
  refine h.step rfl rfl h.requests h.errors rfl (fun {q exports} => ?_) rfl id
  rw [Context.setSlot_slots, Table.find?_insert_eq_some]
  constructor
  · rintro (⟨-, he⟩ | ⟨-, he⟩)
    · cases he
    · exact he
  · intro he
    refine .inr ⟨?_, he⟩
    rintro rfl
    cases hslot.symm.trans he

theorem Mirrors.conclude {loaded : List (Option ExportTable)} (h : s.Mirrors root w ks)
    (hw : s.Wired lib entry) (hl : s.loads.find? k = some l) (hst : l.stage = .linking)
    (hd : s.documents.find? k = some d) (he : s.endings? k d = some loaded)
    (hlt : ∀ a ∈ ks, a < k) :
    (s.conclude k).Mirrors root (w.emit d.path (d.sheet.link d.path loaded)) (ks ++ [k]) ∧
      (s.conclude k).ending? k = some (some (d.sheet.link d.path loaded).exports) := by
  obtain ⟨hdoc, -⟩ := hw.opened_load hl hd
  obtain ⟨joined, hslot, -⟩ := hw.live hl (by rw [hst]; rfl)
  rw [← Library.path_of_document? hdoc] at hslot
  have hnone : w.exports? d.path = none := by
    rw [← h.exports, exports?, hslot]
  have hconclude := conclude_eq hl hd
  simp only [he] at hconclude
  generalize d.sheet.link d.path loaded = linked at hconclude ⊢
  constructor
  · rw [hconclude]
    exact {
      root := h.root
      clock := h.clock
      requests := h.requests
      errors := by simp [Walk.emit, h.errors]
      exports := by
        intro p
        refine Option.ext fun exports => ?_
        rw [exports?_eq_some_iff, Walk.exports?_emit _ hnone, Context.commit_slots,
          Context.foldl_report_slots, Table.find?_insert, ← h.exports]
        split
        · simp
        · exact exports?_eq_some_iff.symm
      sources := by
        intro e hmem
        rw [Context.commit_sources, Context.foldl_report_sources]
        rcases List.mem_append.mp hmem with hmem | hmem
        · rw [Table.find?_insert_of_ne, h.sources e hmem]
          intro hp
          exact Walk.exports?_ne_none_of_mem (List.mem_map_of_mem hmem) (hp ▸ hnone)
        · cases List.mem_singleton.mp hmem
          exact Table.find?_insert_self
      keys := List.rel_append h.keys (.cons ⟨d, hd, rfl⟩ .nil)
      ascending := List.pairwise_append.mpr ⟨h.ascending, List.pairwise_singleton _ _,
        fun a ha b hb => List.mem_singleton.mp hb ▸ hlt a ha⟩ }
  · refine ending?_of_load (l := { l with stage := .ended (some linked.exports) }) ?_ ?_ rfl
    · rw [conclude_supplies]
      exact hw.starts hl
    · rw [hconclude]
      simp [Table.find?_insert]

/-- The imports of `d` from the index `i` on are polled from `s` to `t` as the walk visits them. -/
def Followed (lib : Library) (root : String) (s t : Session) (k : TraceKey) (d : Document)
    (i : Nat) : Prop :=
  ∀ (hd : lib.Grounded d) w ks, s.Mirrors root w ks → (∀ a ∈ ks, a.LeftOf (k.child i)) →
    ∃ ks', t.Mirrors root (lib.visitImports root w d hd i).1 ks' ∧
      ((d.imports k).drop i).map (fun e => t.ending? e.1) =
        (lib.visitImports root w d hd i).2.map some ∧
      ∀ a ∈ ks', a ∈ ks ∨ ∃ j, a.Under (k.child j)

namespace WalkingTo

theorem visited_of_unlinked (h : WalkingTo lib entry active s k) (hl : s.loads.find? k = some l)
    (hst : l.stage = .queued) (hzero : ∀ p, lib.delay p = 0) (hm : s.Mirrors root w ks)
    (hn : (s.advance lib k).linking? k = none) :
    Visited lib root s (s.advance lib k) k l w ks where
  refused e he := (h.refused hl hst hzero hm he).2
  loaded d _ hdoc := by
    have hlinking := (h.accepted hl hst hzero hm hdoc).1
    rw [hn] at hlinking
    cases hlinking

/-- After the imports of its document a load ends as the visit does. -/
theorem visited_of_linking (h : WalkingTo lib entry active s k) (hl : s.loads.find? k = some l)
    (hst : l.stage = .queued) (hzero : ∀ p, lib.delay p = 0) (hm : s.Mirrors root w ks)
    (hleft : ∀ a ∈ ks, a.LeftOf k) (hd : (s.advance lib k).linking? k = some d)
    (hp : d.path ∈ lib.texts.keys ∧ d.path ∉ active)
    (hfollowed : Followed lib root (s.advance lib k)
      (pollFrom lib (d.path :: active) (s.advance lib k) k d 0) k d 0) :
    Visited lib root s (pollLoad lib active s k) k l w ks where
  refused e he := by
    have hn := (h.refused hl hst hzero hm he).1
    rw [hd] at hn
    cases hn
  loaded d' hg hdoc := by
    obtain ⟨hlinking, hm₁⟩ := h.accepted hl hst hzero hm hdoc
    cases hd.symm.trans hlinking
    obtain ⟨-, hopen, l₁, hl₁, hst₁, hpath⟩ := advance_linking h.wired hl hd
    have hfrom := h.toPolling.imports hd
    have hmoves := hfrom.polled.1
    have hlater := hmoves.later hfrom.wired
    obtain ⟨ks', hm₂, hended, hks⟩ := hfollowed hg _ ks hm₁ fun a ha => (hleft a ha).child 0
    have hlt : ∀ a ∈ ks', a < k := by
      intro a ha
      rcases hks a ha with ha | ⟨j, ha⟩
      · exact (hleft a ha).1
      · exact lt_of_le_of_lt ha.le (TraceKey.child_lt k j)
    obtain ⟨hm₃, hend⟩ := hm₂.conclude (hmoves.wired hfrom.wired)
      (hlater.linking hl₁ hst₁ (by simp [hpath])) hst₁ (hlater.documents hopen)
      (endings?_eq_some_iff.mpr hended) hlt
    rw [pollLoad_of_linking hd hp, Library.visit]
    refine ⟨ks' ++ [k], hm₃, hend, fun a ha => ?_⟩
    rcases List.mem_append.mp ha with ha | ha
    · exact (hks a ha).imp_right fun ⟨j, ha⟩ => ha.trans (TraceKey.child_under k j)
    · exact .inr (List.mem_singleton.mp ha ▸ .refl k)

end WalkingTo

/-! ## Imports -/

namespace WalkingFrom

variable {i : Nat} {r : ImportRule}

/-- What an import does that has not asked yet: its module is ready, or it starts a load. -/
theorem claim_cases (h : WalkingFrom lib entry active s k d i)
    (hr : d.sheet.imports[i]? = some r) :
    (∃ exports, s.context.slots.find? (d.path.resolve r.source) = some (.ready exports) ∧
      s.claimImport d.path (k.child i) r = { s with
        context := s.context.record (d.path.resolve r.source) (k.child i)
        supplies := s.supplies.insert (k.child i) (.exports exports) }) ∨
    s.context.slots.find? (d.path.resolve r.source) = none ∧
      s.claimImport d.path (k.child i) r = { s with
        context := s.context.setSlot (d.path.resolve r.source) (.pending (k.child i) [])
        supplies := s.supplies.insert (k.child i) (.load (k.child i))
        loads := s.loads.insert (k.child i) { request := ⟨r.source, d.path, s.root⟩ } } := by
  have hfresh := not_asked h.visited
  have hc : ¬ s.supplies.contains (k.child i) := by simp [Table.contains_eq, hfresh]
  have hself := (Quiet.claimImport h.quiet h.wired h.loadable h.clear hr hfresh).1
  cases hs : s.context.slots.find? (d.path.resolve r.source) with
  | none => exact .inr ⟨rfl, by simp only [Session.claimImport, if_neg hc, Context.claim, hs]⟩
  | some slot =>
    cases slot with
    | ready exports =>
      exact .inl ⟨exports, rfl, by simp only [Session.claimImport, if_neg hc, Context.claim, hs]⟩
    | pending load joined =>
      -- The pending load would have been started by this import.
      obtain ⟨l, hl, -⟩ := h.wired.pending hs
      have hload := hself load (by
        simp [Session.claimImport, if_neg hc, Context.claim, hs, Table.find?_insert])
      rw [hload, h.wired.not_started hfresh] at hl
      cases hl

theorem import_followed (h : WalkingFrom lib entry active s k d i)
    (hr : d.sheet.imports[i]? = some r) (hd : lib.Grounded d) (hm : s.Mirrors root w ks)
    (hleft : ∀ a ∈ ks, a.LeftOf (k.child i))
    (hvisit : ∀ load, (s.claimImport d.path (k.child i) r).supplies.find? (k.child i) =
      some (.load load) → ∀ l w, (s.claimImport d.path (k.child i) r).loads.find? load = some l →
      l.stage = .queued → (s.claimImport d.path (k.child i) r).Mirrors root w ks →
      (∀ a ∈ ks, a.LeftOf load) → Visited lib root (s.claimImport d.path (k.child i) r)
        (pollLoad lib active (s.claimImport d.path (k.child i) r) load) load l w ks) :
    ∃ w' ks' x,
      (pollSupply lib active (s.claimImport d.path (k.child i) r) (k.child i)).Mirrors root w' ks' ∧
      (pollSupply lib active (s.claimImport d.path (k.child i) r) (k.child i)).ending?
        (k.child i) = some x ∧
      lib.visitImports root w d hd i = ((lib.visitImports root w' d hd (i + 1)).1,
        x :: (lib.visitImports root w' d hd (i + 1)).2) ∧
      ∀ a ∈ ks', a ∈ ks ∨ a.Under (k.child i) := by
  rcases h.claim_cases hr with ⟨exports, hslot, hclaim⟩ | ⟨hslot, hclaim⟩
  · have hready : w.exports? (d.path.resolve r.source) = some exports := by
      rw [← hm.exports, exports?_eq_some_iff, hslot]
    have hsupply : (s.claimImport d.path (k.child i) r).supplies.find? (k.child i) =
        some (.exports exports) := by
      rw [hclaim]
      exact Table.find?_insert_self
    have hpoll : pollSupply lib active (s.claimImport d.path (k.child i) r) (k.child i) =
        s.claimImport d.path (k.child i) r := by
      rw [pollSupply, hsupply]
    refine ⟨w, ks, some exports, ?_, ?_, Library.visitImports_of_visited hr hready,
      fun a ha => .inl ha⟩
    · rw [hpoll, hclaim]
      exact hm.step rfl rfl hm.requests hm.errors rfl Iff.rfl rfl id
    · rw [hpoll, Session.ending?, hsupply]
  · have hnone : w.exports? (d.path.resolve r.source) = none := by
      rw [← hm.exports, exports?, hslot]
    have hsupply : (s.claimImport d.path (k.child i) r).supplies.find? (k.child i) =
        some (.load (k.child i)) := by
      rw [hclaim]
      exact Table.find?_insert_self
    have hload : (s.claimImport d.path (k.child i) r).loads.find? (k.child i) =
        some { request := ⟨r.source, d.path, s.root⟩ } := by
      rw [hclaim]
      exact Table.find?_insert_self
    have hm₁ : (s.claimImport d.path (k.child i) r).Mirrors root w ks := by
      rw [hclaim]
      exact hm.start hslot _ _
    have hvisited := hvisit _ hsupply _ w hload rfl hm₁ hleft
    rw [pollSupply, hsupply]
    rw [hm.root] at hvisited
    rcases lib.refusal_or_document d.path (d.path.resolve r.source) with ⟨e, he⟩ | ⟨e, he⟩
    · obtain ⟨hm₂, hend⟩ := hvisited.refused e he
      exact ⟨_, ks, none, hm₂, hend, Library.visitImports_of_refusal hr hnone he rfl,
        fun a ha => .inl ha⟩
    · have hg := hd.needs (Library.needs_of_getElem? hr he)
      obtain ⟨ks', hm₂, hend, hks⟩ := hvisited.loaded e hg he
      exact ⟨_, ks', _, hm₂, hend, Library.visitImports_of_document hg hr hnone he rfl, hks⟩

end WalkingFrom

theorem mirrors (lib : Library) (entry : Document) (root : String)
    (hzero : ∀ p, lib.delay p = 0) :
    (∀ active s k, WalkingTo lib entry active s k → ∀ l w ks, s.loads.find? k = some l →
      l.stage = .queued → s.Mirrors root w ks → (∀ a ∈ ks, a.LeftOf k) →
      Visited lib root s (pollLoad lib active s k) k l w ks) ∧
    ∀ active s k d i, WalkingFrom lib entry active s k d i →
      Followed lib root s (pollFrom lib active s k d i) k d i := by
  refine poll_induction lib ?unlinked ?linking ?busy ?done ?next
  case unlinked =>
    intro active s k hn h l w ks hl hst hm _
    rw [pollLoad_of_not_linking hn]
    exact h.visited_of_unlinked hl hst hzero hm hn
  case linking =>
    intro active s k d hd hp ih h l w ks hl hst hm hleft
    exact h.visited_of_linking hl hst hzero hm hleft hd hp (ih (h.imports hd))
  case busy =>
    intro active s k d hd hp h
    exact absurd (h.idle hd) hp
  case done =>
    intro active s k d i hle h hd w ks hm hleft
    rw [pollFrom_of_le hle, Library.visitImports_of_le hle, Document.drop_imports_eq_nil hle]
    exact ⟨ks, hm, rfl, fun a ha => .inl ha⟩
  case next =>
    intro active s k d i r hr ih ih' h hd w ks hm hleft
    obtain ⟨w', ks', x, hm₁, hend, hvisit, hks⟩ := h.import_followed hr hd hm hleft
      fun load hs l w hl hst hm hleft => ih load hs (h.supply hr hs).2 l w ks hl hst hm hleft
    have hnext := h.next hr (h.supply_walked hr fun load _ hto =>
      (walks lib entry hzero).1 active _ load hto)
    obtain ⟨ks'', hm₂, hended, hks'⟩ := ih' hnext hd w' ks' hm₁ fun a ha =>
      (hks a ha).elim (fun ha => (hleft a ha).next (Nat.lt_succ_self i)) fun ha =>
        ha.leftOf (Nat.lt_succ_self i)
    have hlater := hnext.polled.1.later hnext.wired
    rw [pollFrom_of_getElem? hr, hvisit, Document.drop_imports hr]
    refine ⟨ks'', hm₂, ?_, fun a ha => ?_⟩
    · rw [List.map_cons, List.map_cons, hended, hlater.ending? hend]
    · rcases hks' a ha with ha | ha
      · exact (hks a ha).imp_right fun ha => ⟨i, ha⟩
      · exact .inr ha

/-! ## The end of the walk -/

theorem exists_mem_of_forall₂ {α β : Type} {R : α → β → Prop} {as : List α} {bs : List β}
    (h : List.Forall₂ R as bs) {b : β} (hb : b ∈ bs) : ∃ a ∈ as, R a b := by
  induction h with
  | nil => cases hb
  | cons hab _ ih =>
    rcases List.mem_cons.mp hb with rfl | hb
    · exact ⟨_, List.mem_cons_self, hab⟩
    · obtain ⟨a, ha, hR⟩ := ih hb
      exact ⟨a, List.mem_cons_of_mem _ ha, hR⟩

theorem pairwise_of_forall₂ {α β : Type} {R : α → β → Prop} {S : α → α → Prop}
    {T : β → β → Prop} {as : List α} {bs : List β} (h : List.Forall₂ R as bs)
    (hS : as.Pairwise S) (hT : ∀ {a a' b b'}, R a b → R a' b' → S a a' → T b b') :
    bs.Pairwise T := by
  induction h with
  | nil => exact .nil
  | cons hab hrest ih =>
    obtain ⟨hall, hS⟩ := List.pairwise_cons.mp hS
    refine List.pairwise_cons.mpr ⟨fun b' hb' => ?_, ih hS⟩
    obtain ⟨a', ha', hab'⟩ := exists_mem_of_forall₂ hrest hb'
    exact hT hab hab' (hall a' ha')

namespace Mirrors

variable {initial : List Fetched} {loaded : List (Option ExportTable)} {hg : lib.Grounded entry}

theorem mem_emitted_iff (h : s.Mirrors root w ks) (hc : s.Complete lib entry initial loaded)
    {p : ModulePath} :
    p ∈ w.emitted.map Prod.fst ↔ ∃ k d, s.documents.find? k = some d ∧ d.path = p := by
  constructor
  · intro hp
    obtain ⟨e, he, rfl⟩ := List.mem_map.mp hp
    obtain ⟨k, -, d, hd, hp⟩ := exists_mem_of_forall₂ h.keys he
    exact ⟨k, d, hd, hp⟩
  · rintro ⟨k, d, hd, rfl⟩
    obtain ⟨l, exports, hl, hst, hdoc⟩ := hc.load_succeeded hd
    have hslot := (hc.wired.succeeded hl hst).1
    rw [← Library.path_of_document? hdoc, ← exports?_eq_some_iff, h.exports] at hslot
    exact Walk.mem_emitted_of_exports? hslot

theorem order_eq (h : s.Mirrors root w ks) (hc : s.Complete lib entry initial loaded)
    (hs : s.Sorted) (hentry : lib.document? entry.path = some entry) :
    (s.bundle entry (lib.eval entry hg).source).order =
      w.emitted.map Prod.fst ++ [entry.path] := by
  -- Each document of the tree is open at its first position.
  have hfirst : ∀ {k d}, s.Holds entry k d → lib.IsFirst entry k d := by
    intro k d hd
    obtain ⟨a, ha⟩ := Library.exists_isFirst hg (hc.wired.located hd)
    rwa [hc.holds_inj hd (hc.holds_of_sorted hs ha)]
  have hkeys : List.Forall₂ (fun k p => ∃ d, s.Holds entry k d ∧ d.path = p) (ks ++ [.root])
      (w.emitted.map Prod.fst ++ [entry.path]) := by
    refine List.rel_append (List.forall₂_map_right_iff.mpr ?_) (.cons ⟨entry, ?_, rfl⟩ .nil)
    · refine h.keys.imp fun k e hopen => ?_
      obtain ⟨d, hd, hp⟩ := hopen
      exact ⟨d, .inr hd, hp⟩
    · exact .inl ⟨rfl, rfl⟩
  have hascending : (ks ++ [TraceKey.root]).Pairwise (· < ·) := by
    refine List.pairwise_append.mpr ⟨h.ascending, List.pairwise_singleton _ _, fun a ha b hb => ?_⟩
    cases List.mem_singleton.mp hb
    obtain ⟨-, -, d, hd, -⟩ : ∃ e ∈ w.emitted, ∃ d, s.documents.find? a = some d ∧ d.path = e.1 :=
      exists_mem_of_forall₂ h.keys.flip ha
    refine lt_of_le_of_ne (TraceKey.under_root a).le ?_
    rintro rfl
    obtain ⟨l, hl, -⟩ := hc.wired.opened hd
    obtain ⟨k', -, i, -, -, -, hk⟩ := hc.wired.holder (hc.wired.starts hl)
    exact TraceKey.child_ne_root k' i hk.symm
  have hpairs : (w.emitted.map Prod.fst ++ [entry.path]).Pairwise fun p q =>
      [p, q].Sublist (s.bundle entry (lib.eval entry hg).source).order := by
    refine pairwise_of_forall₂ hkeys hascending ?_
    rintro k k' _ _ ⟨d, hd, rfl⟩ ⟨e, he, rfl⟩ hlt
    exact (hc.pair_sublist_order_iff_first hentry (hc.inPlace_of_sorted hs) (hfirst hd)
      (hfirst he)).mpr hlt
  have hnodup : (s.bundle entry (lib.eval entry hg).source).order.Nodup := Assembly.nodup_order
  refine (Complete.eq_of_pair_sublist ?_ hnodup (fun p => ?_) fun p q hpq => ?_).symm
  · refine hpairs.imp fun hpq he => ?_
    subst he
    exact (List.nodup_cons.mp (hnodup.sublist hpq)).1 (List.mem_singleton.mpr rfl)
  · rw [hc.mem_bundle_iff _, List.mem_append, h.mem_emitted_iff hc, List.mem_singleton]
    constructor
    · rintro (⟨k, d, hd, rfl⟩ | rfl)
      · exact ⟨k, d, hc.wired.located (.inr hd), rfl⟩
      · exact ⟨.root, entry, .root, rfl⟩
    · rintro ⟨k, d, hd, rfl⟩
      obtain ⟨k', ⟨-, rfl⟩ | hd'⟩ := hc.exists_holds hd
      · exact .inr rfl
      · exact .inl ⟨k', d, hd', rfl⟩
  · exact List.pairwise_iff_forall_sublist.mp hpairs hpq

theorem source_eq (h : s.Mirrors root w ks) (hc : s.Complete lib entry initial loaded)
    (hs : s.Sorted) (hentry : lib.document? entry.path = some entry) :
    (s.bundle entry (lib.eval entry hg).source).source =
      String.join (w.emitted.map (fun e => e.2.source) ++ [(lib.eval entry hg).source]) := by
  have horder : (s.bundle entry (lib.eval entry hg).source).order =
      w.emitted.map Prod.fst ++ [entry.path] := h.order_eq hc hs hentry
  have hnodup : (w.emitted.map Prod.fst ++ [entry.path]).Nodup :=
    horder ▸ Assembly.nodup_order
  have hjoin : (s.bundle entry (lib.eval entry hg).source).source =
      String.join ((s.bundle entry (lib.eval entry hg).source).order.filterMap
        (s.sources entry (lib.eval entry hg).source).find?) := rfl
  rw [hjoin, horder, List.filterMap_append, List.filterMap_map]
  have htexts : w.emitted.filterMap ((s.sources entry (lib.eval entry hg).source).find? ∘ Prod.fst) =
      w.emitted.map fun e => e.2.source := by
    rw [← List.filterMap_eq_map]
    refine List.filterMap_congr fun e he => ?_
    have hne : entry.path ≠ e.1 := fun hp =>
      (List.nodup_append.mp hnodup).2.2 _ (List.mem_map_of_mem he) _
        (List.mem_singleton.mpr rfl) hp.symm
    exact (Table.find?_insert_of_ne hne).trans (h.sources e he)
  have hentry : (s.sources entry (lib.eval entry hg).source).find? entry.path =
      some (lib.eval entry hg).source := Table.find?_insert_self
  rw [htexts, List.filterMap_cons_some hentry, List.filterMap_nil]

/-- When the walk has emitted the entry as well, it resolves to what the session does. -/
theorem resolution_eq (h : s.Mirrors root w ks) (hc : s.Complete lib entry initial loaded)
    (hs : s.Sorted) (hentry : lib.document? entry.path = some entry) :
    s.resolution entry (lib.eval entry hg) =
      (w.emit entry.path (lib.eval entry hg)).resolution (lib.eval entry hg).exports := by
  simp only [Session.resolution, Walk.resolution, Walk.emit, h.order_eq hc hs hentry,
    h.source_eq hc hs hentry, h.errors, List.map_append, List.map_cons, List.map_nil]

end Mirrors

end Session

/-! ## Entries -/

namespace Resolver

variable {r : Resolver} {entry : Document}

theorem turn_mirrors (specifier : String) (hzero : ∀ p, r.library.delay p = 0)
    (hg : r.library.Grounded entry) {w : Walk} {loaded : List (Option ExportTable)}
    (hw : (w, loaded) = r.library.visitImports r.root { requests := r.entryRequest specifier }
      entry hg 0) :
    ∃ ks, ((r.begin specifier).turn r.library entry).Mirrors r.root w ks ∧
      ((r.begin specifier).turn r.library entry).endings? .root entry = some loaded := by
  have hs := r.reached_begin specifier entry
  have hmirrors : (r.begin specifier).Mirrors r.root { requests := r.entryRequest specifier } [] :=
    { root := rfl
      clock := hzero _
      requests := rfl
      errors := rfl
      exports := fun _ => rfl
      sources := by simp
      keys := .nil
      ascending := .nil }
  have hfrom := Session.walkingFrom_root hs.wired hs.awaited hg (fun _ => rfl) rfl
  obtain ⟨ks, hm, hended, -⟩ := (Session.mirrors r.library entry r.root hzero).2 _ _ _ _ _ hfrom
    hg _ [] hmirrors (by simp)
  rw [← hw] at hm hended
  exact ⟨ks, hm, Session.endings?_eq_some_iff.mpr hended⟩

/-- Where no cycle of imports can be reached and no answer takes time, a resolution is the
sequential walk. -/
theorem resolveEntry_eq_walkEntry (r : Resolver) (specifier : String)
    (hzero : ∀ p, r.library.delay p = 0) (hacyclic : r.library.Acyclic (entryPath specifier)) :
    r.resolveEntry specifier = r.walkEntry specifier hacyclic := by
  unfold walkEntry
  split
  · next cause ha =>
    unfold entryPath at ha
    simp only [resolveEntry, FetchRequest.target_mk, ha]
    rfl
  next text ha =>
  split
  · next cause hp =>
    unfold entryPath at ha
    simp only [resolveEntry, resolveFrom, FetchRequest.target_mk, ha, hp]
    rfl
  next sheet hp =>
  have hdoc : r.library.document? (entryPath specifier) = some ⟨entryPath specifier, sheet⟩ :=
    congrArg (Option.map _) (Library.sheet?_eq_some_iff.mpr ⟨text, ha, hp⟩)
  have hg := hacyclic.grounded hdoc
  obtain ⟨s, loaded, hrun, hc, -⟩ := finishes hdoc hg
  have hs := r.reached_begin specifier ⟨entryPath specifier, sheet⟩
  obtain rfl := hs.run?_eq_turn hzero hrun
  have hsorted := Session.sorted_turn hs.wired hs.awaited hg hzero (fun _ => rfl) rfl
  obtain ⟨ks, hm, hended⟩ := turn_mirrors specifier hzero hg rfl
  obtain ⟨_, hlink⟩ := hc.link_eq_eval
  cases hc.entry_ended.symm.trans hended
  rw [resolveEntry_of_some hdoc]
  simp only [hrun, Session.finish_eq hended, hlink, Library.visit,
    hm.resolution_eq hc hsorted (Library.document?_path hdoc), hm.requests]
  rfl

theorem detour_walk : detour.resolveEntry "e" = detour.walkEntry "e" (detour_acyclic _) :=
  detour.resolveEntry_eq_walkEntry "e" (fun _ => rfl) (detour_acyclic _)

end Resolver

end StyleBundle
