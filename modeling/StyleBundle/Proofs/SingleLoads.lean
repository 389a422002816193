import StyleBundle.Proofs.Depth
import StyleBundle.Proofs.Stalls

/-!
# Every module is loaded once

At every moment of a run the pending slot of a module belongs to its one load under way, and a ready
one to the load that succeeded. So a module that can be loaded is requested once for all its
imports, and they all get the exports that it evaluates to. A module that cannot be loaded is
requested at most once for each import rule that names it.
-/

namespace StyleBundle

/-! ## Import rules -/

/-- Where an import rule stands. The rules of an entry and those of its module, which an import of
it brings, are different ones. -/
structure Site where
  /-- The module, none for the entry. -/
  module? : Option ModulePath
  index : Nat
  deriving DecidableEq, Inhabited

/-- The number of import rules in all texts that name a module. -/
def Library.naming (lib : Library) (p : ModulePath) : Nat :=
  (lib.texts.entries.flatMap fun e =>
    (importRules e.2).filter fun rule => e.1.resolve rule.source = p).length

/-- The request for the module that an import rule names. -/
def Site.request? (r : Resolver) (entry : Document) (site : Site) : Option FetchRequest := do
  let d ← site.module?.elim (some entry) r.library.document?
  let rule ← d.sheet.imports[site.index]?
  some ⟨rule.source, d.path, r.root⟩

namespace Session

variable {r : Resolver} {lib : Library} {entry : Document} {active : List ModulePath}
  {initial : List Fetched} {s t : Session} {k k' : TraceKey} {site : Site}

/-- The import at the key `k` is that of the rule at `site`. -/
inductive At (entry : Document) (s : Session) : TraceKey → Site → Prop
  | entry {i : Nat} : At entry s (TraceKey.root.child i) ⟨none, i⟩
  | document {k : TraceKey} {d : Document} {i : Nat} : s.documents.find? k = some d →
      At entry s (k.child i) ⟨some d.path, i⟩

/-- No two imports are those of one rule, since no module is brought twice. -/
theorem At.unique (hw : s.Wired lib entry) (h : s.At entry k site) (h' : s.At entry k' site) :
    k = k' := by
  cases h with
  | entry =>
    cases h'
    rfl
  | document hd =>
    generalize hsite : Site.mk _ _ = site at h'
    cases h' with
    | entry => cases hsite
    | document hd' =>
      obtain ⟨hp, rfl⟩ := Site.mk.inj hsite
      rw [hw.opened_inj hd hd' (Option.some.inj hp)]

theorem Requested.exists_at (h : s.Requested initial entry) (hw : s.Wired lib entry)
    (hlib : lib = r.library) (hroot : s.root = r.root) {l : Load}
    (hl : s.loads.find? k = some l) :
    ∃ site, s.At entry k site ∧ site.request? r entry = some l.request := by
  subst hlib
  obtain ⟨k', d, i, rule, hd, hrule, rfl, hreq⟩ := h.importer hl
  rw [hroot] at hreq
  rcases hd with ⟨rfl, rfl⟩ | hd
  · exact ⟨⟨none, i⟩, .entry, by simp [Site.request?, hrule, hreq]⟩
  · obtain ⟨l', -, hdoc, -⟩ := hw.opened hd
    refine ⟨⟨some d.path, i⟩, .document hd, ?_⟩
    simp [Site.request?, Library.document?_path hdoc, hrule, hreq]

/-! ## The loads behind the requests -/

theorem Move.root (hm : Move lib entry active s t) : t.root = s.root := by
  cases hm with
  | request => exact request_root ..
  | _ => rfl

theorem Evolves.root (he : Evolves lib entry s t) : t.root = s.root := by
  induction he with
  | refl => rfl
  | move _ hm ih => exact hm.root.trans ih
  | arrive _ ha ih =>
    obtain ⟨-, -, -⟩ := ha
    exact ih

/-- The loads at `ks`, each once, have made the requests besides `initial`. -/
structure MadeBy (initial : List Fetched) (ks : List TraceKey) (s : Session) : Prop where
  nodup : ks.Nodup
  mem_iff : ∀ k, k ∈ ks ↔ ∃ l, s.loads.find? k = some l ∧ l.stage ≠ .queued
  requests : ∃ made, s.requests = initial ++ made ∧
    made.map (fun f => some f.request) = ks.map fun k => (s.loads.find? k).map Load.request

namespace MadeBy

variable {ks : List TraceKey}

theorem start (r : Resolver) (clock : Nat) : (r.start clock initial).MadeBy initial [] where
  nodup := .nil
  mem_iff _ := ⟨(nomatch ·), fun ⟨_, h, _⟩ => nomatch h⟩
  requests := ⟨[], (List.append_nil initial).symm, rfl⟩

theorem map_request (h : s.MadeBy initial ks) (hl : Later active s t) :
    (ks.map fun k => (s.loads.find? k).map Load.request) =
      ks.map fun k => (t.loads.find? k).map Load.request := by
  refine List.map_congr_left fun k hk => ?_
  obtain ⟨l, hkl, -⟩ := (h.mem_iff k).mp hk
  obtain ⟨l', hkl', hreq, -⟩ := hl.loads hkl
  rw [hkl, hkl', Option.map_some, Option.map_some, hreq]

theorem later (h : s.MadeBy initial ks) (hl : Later active s t) (hreq : t.requests = s.requests)
    (hloads : ∀ {k l}, t.loads.find? k = some l → l.stage ≠ .queued →
      ∃ l', s.loads.find? k = some l' ∧ l'.stage ≠ .queued) : t.MadeBy initial ks where
  nodup := h.nodup
  mem_iff k := by
    rw [h.mem_iff]
    constructor
    · rintro ⟨l, hkl, hst⟩
      obtain ⟨l', hkl', -, hst'⟩ := hl.loads hkl
      exact ⟨l', hkl', hst' hst⟩
    · rintro ⟨l, hkl, hst⟩
      exact hloads hkl hst
  requests := by
    rw [hreq, ← h.map_request hl]
    exact h.requests

theorem request {l : Load} (h : s.MadeBy initial ks) (hl : Later active s (s.request lib k l))
    (hk : s.loads.find? k = some l) (hst : l.stage = .queued) :
    (s.request lib k l).MadeBy initial (ks ++ [k]) where
  nodup := by
    refine List.nodup_append.mpr ⟨h.nodup, List.nodup_singleton k, fun k' hk' k'' hk'' e => ?_⟩
    obtain ⟨l', hl', hst'⟩ := (h.mem_iff k').mp hk'
    rw [e, List.mem_singleton.mp hk'', hk] at hl'
    cases hl'
    exact hst' hst
  mem_iff k' := by
    have hq : (if lib.delay l.path = 0 then Stage.answered else .fetching) ≠ .queued := by
      split <;> simp
    rw [List.mem_append, List.mem_singleton, h.mem_iff, request_loads, Table.find?_insert]
    by_cases e : k = k'
    · subst e
      simp [hk, hst, hq]
    · simp [e, Ne.symm e]
  requests := by
    obtain ⟨made, hreq, hmade⟩ := h.requests
    refine ⟨made ++ [⟨s.clock, l.request⟩], by simp [hreq], ?_⟩
    rw [List.map_append, List.map_append, hmade, h.map_request hl]
    simp [Table.find?_insert]

theorem move (h : s.MadeBy initial ks) (hw : s.Wired lib entry) (hm : Move lib entry active s t) :
    ∃ ks, t.MadeBy initial ks := by
  have hl := hm.later hw
  cases hm with
  | hit | join => exact ⟨ks, h.later hl rfl (by grind)⟩
  | start => exact ⟨ks, h.later hl rfl (by grind)⟩
  | request hk hst => exact ⟨_, h.request hl hk hst⟩
  | refuse => exact ⟨ks, h.later hl rfl (by grind)⟩
  | accept => exact ⟨ks, h.later hl rfl (by grind)⟩
  | conclude => exact ⟨ks, h.later hl rfl (by grind)⟩

theorem arrival (h : s.MadeBy initial ks) (ha : Arrival s t) : t.MadeBy initial ks := by
  have hl : Later [] s t := ha.later
  obtain ⟨-, hk, hst⟩ := ha
  exact h.later hl rfl (by grind)

theorem evolves (h : s.MadeBy initial ks) (hs : s.Reached lib entry initial)
    (he : Evolves lib entry s t) : ∃ ks, t.MadeBy initial ks := by
  induction he with
  | refl => exact ⟨ks, h⟩
  | move he hm ih =>
    obtain ⟨ks', h'⟩ := ih
    exact h'.move (hs.evolves he).wired hm
  | arrive _ ha ih =>
    obtain ⟨ks', h'⟩ := ih
    exact ⟨ks', h'.arrival ha⟩

end MadeBy

/-! ## Moments -/

/-- The loads at a moment of a run. -/
structure Exclusive (s : Session) : Prop where
  /-- No two loads of one module are in progress. -/
  alone : ∀ {k k' l l'}, s.loads.find? k = some l → s.loads.find? k' = some l' →
    l.stage.isLive → l'.stage.isLive → l.request.target = l'.request.target → k = k'
  /-- A load in progress has the slot of the module that it requests. -/
  pending : ∀ {k l}, s.loads.find? k = some l → l.stage.isLive →
    ∃ joined, s.context.slots.find? l.request.target = some (.pending k joined)
  /-- A load that has succeeded has filled the slot of the module that it requested. -/
  ready : ∀ {k l exports}, s.loads.find? k = some l → l.stage = .ended (some exports) →
    s.context.slots.find? l.request.target = some (.ready exports)
  /-- There are no other slots. -/
  owner : ∀ {p slot}, s.context.slots.find? p = some slot → ∃ k l, s.loads.find? k = some l ∧
    l.request.target = p ∧ ((∃ joined, slot = .pending k joined ∧ l.stage.isLive) ∨
      ∃ exports, slot = .ready exports ∧ l.stage = .ended (some exports))

namespace Wired

theorem exclusive (h : s.Wired lib entry) : s.Exclusive where
  alone hl hl' hlive hlive' := h.load_unique hl hl' (Stage.ne_failed_of_isLive hlive)
    (Stage.ne_failed_of_isLive hlive')
  pending hl hlive := by
    obtain ⟨joined, hslot, -⟩ := h.live hl hlive
    exact ⟨joined, hslot⟩
  ready hl hst := (h.succeeded hl hst).1
  owner {p slot} hslot := by
    cases slot with
    | pending k joined =>
      obtain ⟨l, hl, hp, hlive, -⟩ := h.pending hslot
      exact ⟨k, l, hl, hp, .inl ⟨joined, rfl, hlive⟩⟩
    | ready exports =>
      obtain ⟨k, l, hl, hp, hst⟩ := h.ready hslot
      exact ⟨k, l, hl, hp, .inr ⟨exports, rfl, hst⟩⟩

/-- No two loads of a module that can be loaded have made their requests, nor are about to. -/
theorem load_unique_of_document? (h : s.Wired lib entry) {l l' : Load} {d : Document}
    (hl : s.loads.find? k = some l) (hl' : s.loads.find? k' = some l') (hp : l.path = l'.path)
    (hdoc : lib.document? l.path = some d) : k = k' := by
  have hne : ∀ {k l}, s.loads.find? k = some l → lib.document? l.path = some d →
      l.stage ≠ .ended none := by
    intro k l hl hdoc hst
    rw [h.failed hl hst] at hdoc
    cases hdoc
  exact h.load_unique hl hl' (hne hl hdoc) (hne hl' (hp ▸ hdoc)) hp

end Wired

/-- Only a move makes a request, for a load that is the only one of its module in progress. -/
theorem Move.request_alone (hw : s.Wired lib entry) (hm : Move lib entry active s t) :
    t.requests = s.requests ∨ ∃ k l, s.loads.find? k = some l ∧ l.stage = .queued ∧
      t.requests = s.requests ++ [⟨s.clock, l.request⟩] ∧
      ∀ k' l', s.loads.find? k' = some l' → l'.stage.isLive →
        l'.request.target = l.request.target → k' = k := by
  cases hm with
  | @request k l hl hst =>
    refine .inr ⟨k, l, hl, hst, request_requests .., fun k' l' hl' hlive' hp => ?_⟩
    exact hw.load_unique hl' hl (Stage.ne_failed_of_isLive hlive') (by simp [hst]) hp
  | _ => exact .inl rfl

theorem Reached.ending_eq_eval (hs : s.Reached lib entry initial) {p : ModulePath} {d : Document}
    {x : Option ExportTable} (hdoc : lib.document? p = some d) (hn : lib.Named entry k p)
    (hx : s.ending? k = some x) : ∃ hd : lib.Grounded d, x = some (lib.eval d hd).exports := by
  rcases hs.wired.ending_cases hn hx with ⟨-, hnone⟩ | ⟨exports, rfl, hslot⟩
  · rw [hnone] at hdoc
    cases hdoc
  · obtain ⟨d', hd, hdoc', rfl, -⟩ := hs.faithful.ready hslot
    cases hdoc.symm.trans hdoc'
    exact ⟨hd, rfl⟩

/-! ## Requests -/

namespace MadeBy

variable {ks : List TraceKey} {made : List Fetched}

theorem exists_sites (h : s.MadeBy initial ks) (hs : s.Reached r.library entry initial)
    (hroot : s.root = r.root)
    (hmade : made.map (fun f => some f.request) =
      ks.map fun k => (s.loads.find? k).map Load.request) :
    ∃ sites : List Site, sites.Nodup ∧
      made.map (fun f => some f.request) = sites.map (Site.request? r entry) := by
  have hsite : ∀ k ∈ ks, ∃ site : Site, s.At entry k site ∧
      site.request? r entry = (s.loads.find? k).map Load.request := by
    intro k hk
    obtain ⟨l, hl, -⟩ := (h.mem_iff k).mp hk
    rw [hl]
    exact hs.requested.exists_at hs.wired rfl hroot hl
  choose! site hat hreq using hsite
  refine ⟨ks.map site, ?_, ?_⟩
  · refine List.Nodup.map_on (fun k hk k' hk' e => ?_) h.nodup
    exact (hat k hk).unique hs.wired (e ▸ hat k' hk')
  · rw [hmade, List.map_map]
    exact List.map_congr_left fun k hk => (hreq k hk).symm

theorem countP_le_one (h : s.MadeBy initial ks) (hw : s.Wired lib entry)
    (hmade : made.map (fun f => some f.request) =
      ks.map fun k => (s.loads.find? k).map Load.request)
    {p : ModulePath} {d : Document} (hdoc : lib.document? p = some d) :
    made.countP (fun f => f.request.target = p) ≤ 1 := by
  let names (k : TraceKey) : Bool :=
    ((s.loads.find? k).map Load.request).any fun request => request.target = p
  have hcount : made.countP (fun f => f.request.target = p) = (ks.filter names).length := by
    rw [← List.countP_eq_length_filter]
    have := congrArg (List.countP (Option.any fun request => request.target = p)) hmade
    rwa [List.countP_map, List.countP_map] at this
  have hload : ∀ {k}, k ∈ ks.filter names → ∃ l, s.loads.find? k = some l ∧ l.path = p := by
    intro k hk
    have hnames := (List.mem_filter.mp hk).2
    cases hl : s.loads.find? k with
    | none => simp [names, hl] at hnames
    | some l =>
      simp only [names, hl, Option.map_some, Option.any_some, decide_eq_true_eq] at hnames
      exact ⟨l, rfl, hnames⟩
  have hnodup : (ks.filter names).Nodup := h.nodup.filter names
  rw [hcount]
  match hks : ks.filter names with
  | [] | [_] => simp
  | k :: k' :: _ =>
    -- Two loads of the module would be the same.
    obtain ⟨l, hl, hp⟩ := hload (hks ▸ List.mem_cons_self : k ∈ ks.filter names)
    obtain ⟨l', hl', hp'⟩ := hload
      (hks ▸ List.mem_cons_of_mem _ List.mem_cons_self : k' ∈ ks.filter names)
    have hkk := hw.load_unique_of_document? hl hl' (hp.trans hp'.symm) (hp ▸ hdoc)
    rw [hks, hkk] at hnodup
    exact absurd List.mem_cons_self (List.nodup_cons.mp hnodup).1

end MadeBy

end Session

/-! ## Runs -/

namespace Resolver

open Session (Evolves Move)

variable {r : Resolver} {entry : Document} {clock : Nat} {initial : List Fetched} {run : Run}

/-- The run computes each module once. The moments of a run are sessions that its start becomes. -/
structure LoadsOnce (r : Resolver) (entry : Document) (clock : Nat) (initial : List Fetched)
    (run : Run) : Prop where
  ends : ∃ t, Evolves r.library entry (r.start clock initial) t ∧
    run = ⟨.ok (finish t entry), t.requests⟩
  exclusive : ∀ s, Evolves r.library entry (r.start clock initial) s → s.Exclusive
  /-- A module is not requested while another load of it is in progress. -/
  alone : ∀ s t, Evolves r.library entry (r.start clock initial) s → Move r.library entry [] s t →
    t.requests = s.requests ∨ ∃ k l, s.loads.find? k = some l ∧ l.stage = .queued ∧
      t.requests = s.requests ++ [⟨s.clock, l.request⟩] ∧
      ∀ k' l', s.loads.find? k' = some l' → l'.stage.isLive →
        l'.request.target = l.request.target → k' = k
  /-- The imports make at most one request for each import rule, that for the module it names, and
  at most one for each module that can be loaded. -/
  requests : ∃ made, run.requests = initial ++ made ∧
    (∃ sites : List Site, sites.Nodup ∧
      made.map (fun f => some f.request) = sites.map (Site.request? r entry)) ∧
    ∀ p d, r.library.document? p = some d → made.countP (fun f => f.request.target = p) ≤ 1
  /-- All imports of a module that can be loaded end with the same exports. -/
  shared : ∀ p d, r.library.document? p = some d → ∃ exports, ∀ s,
    Evolves r.library entry (r.start clock initial) s →
      ∀ k d' i rule x, s.Holds entry k d' → d'.sheet.imports[i]? = some rule →
        d'.path.resolve rule.source = p → s.ending? (k.child i) = some x → x = some exports

theorem loadsOnce (h : r.Resolves entry clock initial run) :
    r.LoadsOnce entry clock initial run := by
  have hstart : (r.start clock initial).Reached r.library entry initial := .start r clock
  obtain ⟨-, -, t, -, he, rfl⟩ := h.exists_ends
  exact {
    ends := ⟨t, he, rfl⟩
    exclusive := fun s hs => (hstart.evolves hs).wired.exclusive
    alone := fun s u hs hm => hm.request_alone (hstart.evolves hs).wired
    requests := by
      obtain ⟨ks, hks⟩ := (Session.MadeBy.start r clock).evolves hstart he
      obtain ⟨made, hreq, hmade⟩ := hks.requests
      have ht := hstart.evolves he
      exact ⟨made, hreq, hks.exists_sites ht he.root hmade,
        fun p d hdoc => hks.countP_le_one ht.wired hmade hdoc⟩
    shared := by
      intro p d hdoc
      by_cases hd : r.library.Grounded d
      · refine ⟨(r.library.eval d hd).exports, fun s hs k d' i rule x hold hrule hp hx => ?_⟩
        have hr := hstart.evolves hs
        exact (hr.ending_eq_eval hdoc ⟨k, d', i, rule, hr.wired.located hold, hrule, rfl, hp.symm⟩
          hx).2
      · refine ⟨∅, fun s hs k d' i rule x hold hrule hp hx => ?_⟩
        have hr := hstart.evolves hs
        exact absurd (hr.ending_eq_eval hdoc
          ⟨k, d', i, rule, hr.wired.located hold, hrule, rfl, hp.symm⟩ hx).1 hd }

theorem circle_loadsOnce :
    circle.LoadsOnce circleEntry 0 (circle.entryRequest "e") (circle.resolveEntry "e") :=
  loadsOnce (.entry document?_circleEntry)

/-- The session in which the run of `circle` ends. -/
def circleEnd : Session :=
  ((circle.begin "e").turnWithin circle.library circleEntry 3).get (by decide +kernel)

theorem resolveEntry_circle :
    circle.resolveEntry "e" = ⟨.ok (finish circleEnd circleEntry), circleEnd.requests⟩ :=
  resolveEntry_eq_of_within document?_circleEntry (Option.some_get _).symm
    (.inr (by decide +kernel))

/-- The one import rule that names `x` asks for it twice, in the entry and in its module. -/
theorem circle_requested_twice :
    circle.library.document? (entryPath "x") = none ∧
      circle.library.naming (entryPath "x") = 1 ∧
      (circle.resolveEntry "e").requests.tail.countP
        (fun f => f.request.target = entryPath "x") = 2 := by
  rw [resolveEntry_circle]
  decide +kernel

end Resolver

end StyleBundle
