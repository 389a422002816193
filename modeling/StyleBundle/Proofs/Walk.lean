import StyleBundle.Proofs.Placement

/-!
# Runs without delays

When no answer takes time, a run is one walk through the import tree: an import that starts a load
has it ended before the next import asks. So imports ask in the order in which a walk comes to their
positions, and the walk comes to every document at its first position.
-/

namespace StyleBundle.Session

variable {lib : Library} {entry : Document} {active : List ModulePath} {s t u : Session}

/-- Only loads of the modules `active` are under way. -/
def Quiet (active : List ModulePath) (s : Session) : Prop :=
  ∀ {k l}, s.loads.find? k = some l → l.stage.isLive → l.path ∈ active

/-- The imports have asked in the order in which a walk comes to them. -/
def Sorted (s : Session) : Prop :=
  s.supplies.keys.Pairwise TraceKey.VisitedBefore

theorem Awaited.not_fetching (h : s.Awaited lib) (hzero : ∀ p, lib.delay p = 0) {k : TraceKey}
    {l : Load} (hl : s.loads.find? k = some l) : l.stage ≠ .fetching :=
  fun hst => h.delayed hl hst (hzero _)

theorem Settled.ended_of_no_delay {k : TraceKey} (h : s.Settled k) (hq : s.Awaited lib)
    (hzero : ∀ p, lib.delay p = 0) {l : Load} (hl : s.loads.find? k = some l) :
    ∃ exports, l.stage = .ended exports := by
  cases hst : l.stage with
  | ended exports => exact ⟨exports, rfl⟩
  | queued | fetching | answered | linking =>
    obtain ⟨k', l', hl', hst'⟩ := h.exists_fetching hl (by rw [hst]; rfl)
    exact absurd hst' (hq.not_fetching hzero hl')

theorem Awaited.moves (h : s.Awaited lib) (hw : s.Wired lib entry)
    (hm : Moves lib entry active s t) : t.Awaited lib := by
  induction hm with
  | refl => exact h
  | tail hms hm ih => exact ih.move (Moves.wired hw hms) hm

section

variable {k : TraceKey} {d : Document} {i : Nat} {r : ImportRule}

theorem not_asked (hvisit : ∀ a ∈ s.supplies.keys, a.VisitedBefore (k.child i)) :
    s.supplies.find? (k.child i) = none := by
  cases hs : s.supplies.find? (k.child i) with
  | none => rfl
  | some sup =>
    have hb := hvisit _ (Table.mem_keys_iff.mpr ⟨sup, hs⟩)
    exact absurd hb hb.asymm

/-- An import that the walk comes to asks last. -/
theorem Sorted.claimImport (h : s.Sorted)
    (hvisit : ∀ a ∈ s.supplies.keys, a.VisitedBefore (k.child i)) :
    (s.claimImport d.path (k.child i) r).Sorted ∧
      (s.claimImport d.path (k.child i) r).supplies.keys = s.supplies.keys ++ [k.child i] := by
  have hfresh := not_asked hvisit
  have hkeys : (s.claimImport d.path (k.child i) r).supplies.keys =
      s.supplies.keys ++ [k.child i] := by
    unfold Session.claimImport
    rw [if_neg (by simp [Table.contains_eq, hfresh])]
    dsimp only
    split <;> exact Table.keys_insert_new hfresh _
  refine ⟨?_, hkeys⟩
  rw [Sorted, hkeys, List.pairwise_append]
  exact ⟨h, List.pairwise_singleton _ _, fun a ha b hb => List.mem_singleton.mp hb ▸ hvisit a ha⟩

/-- No load that is under way is joined, since the modules of those all lead to the import. -/
theorem Quiet.claimImport (h : s.Quiet active) (hw : s.Wired lib entry)
    (hactive : ∀ p ∈ active, ∃ c, lib.document? p = some c)
    (hclear : ∀ e, lib.Needs d e → lib.Clear active e) (hr : d.sheet.imports[i]? = some r)
    (hfresh : s.supplies.find? (k.child i) = none) :
    (∀ k', (s.claimImport d.path (k.child i) r).supplies.find? (k.child i) = some (.load k') →
      k' = k.child i) ∧
    ∀ k' l', (s.claimImport d.path (k.child i) r).loads.find? k' = some l' → l'.stage.isLive →
      k' = k.child i ∨ l'.path ∈ active := by
  have hc : ¬ s.supplies.contains (k.child i) := by simp [Table.contains_eq, hfresh]
  cases hs : s.context.slots.find? (d.path.resolve r.source) with
  | none =>
    simp only [Session.claimImport, if_neg hc, Context.claim, hs]
    refine ⟨fun k' hk' => ?_, fun k' l' hl' hlive => ?_⟩
    · simpa [Table.find?_insert, eq_comm] using hk'
    · rw [Table.find?_insert] at hl'
      split at hl'
      · next e => exact .inl e.symm
      · exact .inr (h hl' hlive)
  | some slot =>
    cases slot with
    | ready exports =>
      simp only [Session.claimImport, if_neg hc, Context.claim, hs]
      refine ⟨fun k' hk' => ?_, fun k' l' hl' hlive => .inr (h hl' hlive)⟩
      simp [Table.find?_insert] at hk'
    | pending load joined =>
      obtain ⟨l, hl, hp, hlive, -⟩ := hw.pending hs
      have hmem := h hl hlive
      obtain ⟨c, hdoc⟩ := hactive _ hmem
      have hcp := Library.path_of_document? hdoc
      have hn := Library.needs_of_getElem? hr (hp ▸ hdoc)
      exact absurd (hcp ▸ hmem) ((hclear c hn).not_mem hn.2)

end

/-! ## The walk -/

/-- The walk comes to the load at `k`. -/
structure WalkingTo (lib : Library) (entry : Document) (active : List ModulePath) (s : Session)
    (k : TraceKey) : Prop extends Polling lib entry active s k where
  awaited : s.Awaited lib
  loadable : ∀ p ∈ active, ∃ c, lib.document? p = some c
  quiet : ∀ {k' l'}, s.loads.find? k' = some l' → l'.stage.isLive → k' = k ∨ l'.path ∈ active
  sorted : s.Sorted
  visited : ∀ a ∈ s.supplies.keys, a = k ∨ a.VisitedBefore k

/-- The walk comes to the import with the index `i` of the document `d` at `k`. -/
structure WalkingFrom (lib : Library) (entry : Document) (active : List ModulePath) (s : Session)
    (k : TraceKey) (d : Document) (i : Nat) : Prop
    extends PollingFrom lib entry active s k d i where
  awaited : s.Awaited lib
  loadable : ∀ p ∈ active, ∃ c, lib.document? p = some c
  quiet : s.Quiet active
  sorted : s.Sorted
  visited : ∀ a ∈ s.supplies.keys, a.VisitedBefore (k.child i)

/-- The walk has come from `s` to `t`, and went no further than below `k`. -/
structure Walked (active : List ModulePath) (s t : Session) (k : TraceKey) : Prop where
  quiet : t.Quiet active
  sorted : t.Sorted
  keys : ∀ a ∈ t.supplies.keys, a ∈ s.supplies.keys ∨ a.Under k

namespace WalkingTo

variable {k : TraceKey} {d : Document}

theorem walked_of_unlinked (hzero : ∀ p, lib.delay p = 0) (h : WalkingTo lib entry active s k)
    (hn : (s.advance lib k).linking? k = none) : Walked active s (s.advance lib k) k := by
  obtain ⟨l, hl, hm⟩ := h.load
  have hsettled := h.settled_of_unlinked hn
  obtain ⟨hsup, hother⟩ := advance_frame lib s k
  refine ⟨fun {k' l'} hl' hlive => ?_, ?_, fun a ha => .inl (hsup ▸ ha)⟩
  · by_cases hkk : k' = k
    · subst hkk
      obtain ⟨exports, hst⟩ :=
        hsettled.ended_of_no_delay (h.awaited.moves h.wired hm) hzero hl'
      simp [hst, Stage.isLive] at hlive
    · exact (h.quiet (hother k' hkk ▸ hl') hlive).resolve_left hkk
  · rw [Sorted, hsup]
    exact h.sorted

theorem imports (h : WalkingTo lib entry active s k)
    (hd : (s.advance lib k).linking? k = some d) :
    WalkingFrom lib entry (d.path :: active) (s.advance lib k) k d 0 := by
  obtain ⟨l, hl, hm⟩ := h.load
  obtain ⟨hld, hdoc, l₁, hl₁, hst, hpath⟩ := advance_linking h.wired hl hd
  obtain ⟨hsup, hother⟩ := advance_frame lib s k
  refine ⟨h.toPolling.imports hd, h.awaited.moves h.wired hm, fun p hp => ?_,
    fun {k' l'} hl' hlive => ?_, ?_, fun a ha => ?_⟩
  · rcases List.mem_cons.mp hp with rfl | hp
    · exact ⟨d, Library.document?_path hld⟩
    · exact h.loadable p hp
  · by_cases hkk : k' = k
    · subst hkk
      cases hl₁.symm.trans hl'
      exact hpath ▸ List.mem_cons_self
    · exact List.mem_cons_of_mem _
        ((h.quiet (hother k' hkk ▸ hl') hlive).resolve_left hkk)
  · rw [Sorted, hsup]
    exact h.sorted
  · rw [hsup] at ha
    rcases h.visited a ha with rfl | ha
    · exact TraceKey.visitedBefore_child _ _
    · exact ha.trans (TraceKey.visitedBefore_child _ _)

theorem walked_of_linking (hzero : ∀ p, lib.delay p = 0) (h : WalkingTo lib entry active s k)
    (hd : (s.advance lib k).linking? k = some d)
    (hp : d.path ∈ lib.texts.keys ∧ d.path ∉ active)
    (hwalked : Walked (d.path :: active) (s.advance lib k)
      (pollFrom lib (d.path :: active) (s.advance lib k) k d 0) k) :
    Walked active s (pollLoad lib active s k) k := by
  obtain ⟨l, hl, -⟩ := h.load
  have hsettled := (settles lib entry).1 active s k h.toPolling
  have hmoves := (polls lib entry).1 active s k h.wired h.started
  obtain ⟨hld, -⟩ := advance_linking h.wired hl hd
  obtain ⟨hsup, -⟩ := advance_frame lib s k
  obtain ⟨l₂, hl₂, hr₂, -⟩ := (hmoves.later h.wired).loads hl
  have hp₂ : l₂.path = l.path := by rw [Load.path, Load.path, hr₂]
  obtain ⟨exports, hst₂⟩ :=
    hsettled.ended_of_no_delay (h.awaited.moves h.wired hmoves) hzero hl₂
  have hw₂ := hmoves.wired h.wired
  rw [pollLoad_of_linking hd hp] at hl₂ hw₂ ⊢
  refine ⟨fun {k' l'} hl' hlive => ?_, ?_, ?_⟩
  · by_cases hkk : k' = k
    · subst hkk
      cases hl'.symm.trans hl₂
      simp [hst₂, Stage.isLive] at hlive
    · refine (List.mem_cons.mp (hwalked.quiet (conclude_loads hkk ▸ hl') hlive)).resolve_left ?_
      -- Another load of the module that has just been linked cannot be under way.
      intro hp'
      have hpath' : l'.path = l₂.path := by rw [hp', hp₂, Library.path_of_document? hld]
      cases exports with
      | none =>
        rw [← hp₂, hw₂.failed hl₂ hst₂] at hld
        cases hld
      | some exports => exact hw₂.not_succeeded hl' hlive hl₂ hpath' hst₂
  · rw [Sorted, conclude_supplies]
    exact hwalked.sorted
  · rw [conclude_supplies, ← hsup]
    exact hwalked.keys

end WalkingTo

namespace WalkingFrom

variable {k : TraceKey} {d : Document} {i : Nat} {r : ImportRule}

theorem supply (h : WalkingFrom lib entry active s k d i) (hr : d.sheet.imports[i]? = some r)
    {load : TraceKey}
    (hs : (s.claimImport d.path (k.child i) r).supplies.find? (k.child i) = some (.load load)) :
    load = k.child i ∧ WalkingTo lib entry active (s.claimImport d.path (k.child i) r) load := by
  obtain ⟨hm, h₁⟩ := h.claim hr
  obtain ⟨hsorted, hkeys⟩ := h.sorted.claimImport (d := d) (r := r) h.visited
  obtain ⟨hself, hquiet⟩ :=
    Quiet.claimImport h.quiet h.wired h.loadable h.clear hr (not_asked h.visited)
  obtain rfl := hself load hs
  refine ⟨rfl, h₁.supply hr hs, h.awaited.moves h.wired hm, h.loadable, fun hl hlive =>
    hquiet _ _ hl hlive, hsorted, fun a ha => ?_⟩
  rw [hkeys] at ha
  rcases List.mem_append.mp ha with ha | ha
  · exact .inr (h.visited a ha)
  · exact .inl (List.mem_singleton.mp ha)

theorem supply_walked (h : WalkingFrom lib entry active s k d i)
    (hr : d.sheet.imports[i]? = some r)
    (hwalk : ∀ load, (s.claimImport d.path (k.child i) r).supplies.find? (k.child i) =
      some (.load load) → WalkingTo lib entry active (s.claimImport d.path (k.child i) r) load →
      Walked active (s.claimImport d.path (k.child i) r)
        (pollLoad lib active (s.claimImport d.path (k.child i) r) load) load) :
    Walked active (s.claimImport d.path (k.child i) r)
      (pollSupply lib active (s.claimImport d.path (k.child i) r) (k.child i)) (k.child i) := by
  rcases pollSupply_cases lib active (s.claimImport d.path (k.child i) r) (k.child i) with
    ⟨load, hs, he⟩ | ⟨hs, he⟩ <;> rw [he]
  · obtain ⟨rfl, hto⟩ := h.supply hr hs
    exact hwalk _ hs hto
  · obtain ⟨-, hquiet⟩ :=
      Quiet.claimImport h.quiet h.wired h.loadable h.clear hr (not_asked h.visited)
    refine ⟨fun {k' l'} hl' hlive => (hquiet k' l' hl' hlive).resolve_left ?_,
      (h.sorted.claimImport h.visited).1, fun a ha => .inl ha⟩
    rintro rfl
    exact hs _ ((h.claim hr).2.wired.starts hl')

theorem next (h : WalkingFrom lib entry active s k d i) (hr : d.sheet.imports[i]? = some r)
    (hwalked : Walked active (s.claimImport d.path (k.child i) r)
      (pollSupply lib active (s.claimImport d.path (k.child i) r) (k.child i)) (k.child i)) :
    WalkingFrom lib entry active
      (pollSupply lib active (s.claimImport d.path (k.child i) r) (k.child i)) k d (i + 1) := by
  obtain ⟨hm, h₁⟩ := h.claim hr
  have hm₂ := h₁.supply_moves
  refine ⟨h₁.moves hm₂, (h.awaited.moves h.wired hm).moves h₁.wired hm₂, h.loadable,
    hwalked.quiet, hwalked.sorted, fun a ha => ?_⟩
  rcases hwalked.keys a ha with ha | ha
  · rw [(h.sorted.claimImport h.visited).2] at ha
    rcases List.mem_append.mp ha with ha | ha
    · exact (h.visited a ha).trans ((TraceKey.Under.refl _).visitedBefore (Nat.lt_succ_self i))
    · rw [List.mem_singleton.mp ha]
      exact (TraceKey.Under.refl _).visitedBefore (Nat.lt_succ_self i)
  · exact ha.visitedBefore (Nat.lt_succ_self i)

theorem walked_next (h : WalkingFrom lib entry active s k d i)
    (hwalked : Walked active (s.claimImport d.path (k.child i) r) t (k.child i))
    (hrest : Walked active t u k) : Walked active s u k := by
  refine ⟨hrest.quiet, hrest.sorted, fun a ha => ?_⟩
  rcases hrest.keys a ha with ha | ha
  · rcases hwalked.keys a ha with ha | ha
    · rw [(h.sorted.claimImport h.visited).2] at ha
      rcases List.mem_append.mp ha with ha | ha
      · exact .inl ha
      · exact .inr (List.mem_singleton.mp ha ▸ TraceKey.child_under k i)
    · exact .inr (ha.trans (TraceKey.child_under k i))
  · exact .inr ha

end WalkingFrom

theorem walks (lib : Library) (entry : Document) (hzero : ∀ p, lib.delay p = 0) :
    (∀ active s k, WalkingTo lib entry active s k →
      Walked active s (pollLoad lib active s k) k) ∧
    ∀ active s k d i, WalkingFrom lib entry active s k d i →
      Walked active s (pollFrom lib active s k d i) k := by
  refine poll_induction lib ?unlinked ?linking ?busy ?done ?next
  case unlinked =>
    intro active s k hn h
    rw [pollLoad_of_not_linking hn]
    exact h.walked_of_unlinked hzero hn
  case linking =>
    intro active s k d hd hp ih h
    exact h.walked_of_linking hzero hd hp (ih (h.imports hd))
  case busy =>
    intro active s k d hd hp h
    exact absurd (h.idle hd) hp
  case done =>
    intro active s k d i hle h
    rw [pollFrom_of_le hle]
    exact ⟨h.quiet, h.sorted, fun a ha => .inl ha⟩
  case next =>
    intro active s k d i r hr ih ih' h
    have hwalked := h.supply_walked hr ih
    rw [pollFrom_of_getElem? hr]
    exact h.walked_next hwalked (ih' (h.next hr hwalked))

/-! ## The end of a walk -/

theorem Reached.run?_eq_turn {initial : List Fetched} (h : s.Reached lib entry initial)
    (hzero : ∀ p, lib.delay p = 0) {n : Nat} (hr : s.run? lib entry n = some t) :
    t = s.turn lib entry := by
  have hnone : (s.turn lib entry).arrive? = none := by
    cases harr : (s.turn lib entry).arrive? with
    | none => rfl
    | some u =>
      obtain ⟨-, hl, hst⟩ := h.turn.awaited.arrive harr
      exact absurd hst (h.turn.awaited.not_fetching hzero hl)
  rw [run?_eq, hnone] at hr
  split at hr
  · exact (Option.some.inj hr).symm
  · split at hr
    · exact (Option.some.inj hr).symm
    · next he => cases he
    · next he => cases he

theorem walkingFrom_root (hw : s.Wired lib entry) (hq : s.Awaited lib) (hg : lib.Grounded entry)
    (hloads : ∀ k, s.loads.find? k = none) (hkeys : s.supplies.keys = []) :
    WalkingFrom lib entry [] s .root entry 0 := by
  refine ⟨pollingFrom_root hw hg, hq, by simp, ?_, ?_, ?_⟩
  · intro k l hl
    rw [hloads k] at hl
    cases hl
  · rw [Sorted, hkeys]
    exact .nil
  · intro a ha
    rw [hkeys] at ha
    cases ha

theorem sorted_turn (hw : s.Wired lib entry) (hq : s.Awaited lib) (hg : lib.Grounded entry)
    (hzero : ∀ p, lib.delay p = 0) (hloads : ∀ k, s.loads.find? k = none)
    (hkeys : s.supplies.keys = []) : (s.turn lib entry).Sorted :=
  ((walks lib entry hzero).2 [] s .root entry 0
    (walkingFrom_root hw hq hg hloads hkeys)).sorted

theorem Sorted.visitedBefore_of_age (h : s.Sorted) {a b : TraceKey} (hb : s.supplies.contains b)
    (hlt : s.age a < s.age b) : a.VisitedBefore b := by
  have hlb : s.supplies.keys.idxOf b < s.supplies.keys.length :=
    List.idxOf_lt_length_iff.mpr (mem_keys_of_contains hb)
  have hla : s.supplies.keys.idxOf a < s.supplies.keys.length := hlt.trans hlb
  have hp := List.pairwise_iff_getElem.mp h _ _ hla hlb hlt
  rwa [List.getElem_idxOf hla, List.getElem_idxOf hlb] at hp

namespace Complete

variable {initial : List Fetched} {loaded : List (Option ExportTable)}

theorem holds_child_of_sorted (h : s.Complete lib entry initial loaded) (hs : s.Sorted)
    {k : TraceKey} {j : Nat} {m c : Document} (hm : lib.Located entry k m)
    (hholds : s.Holds entry k m) (hc : lib.IsFirst entry (k.child j) c) :
    s.Holds entry (k.child j) c := by
  obtain ⟨m', r, hm', hr, hdoc⟩ := Library.located_child_iff.mp hc.1
  cases hm'.unique hm
  obtain ⟨a, ha⟩ := h.exists_holds hc.1
  have hloc := h.wired.located ha
  by_cases hak : a = k.child j
  · exact hak ▸ ha
  have hnot : ∀ {a b : TraceKey}, lib.Located entry a c → lib.Located entry b c → a ≠ b →
      ¬ a.Under b := fun ha hb hne hu => hne (ha.eq_of_under h.grounded hb hu)
  -- The import at `k.child j` has asked as well, and not before the one at `a`.
  obtain ⟨x, hx⟩ := h.import_ended hholds hr
  have hasked := contains_of_ending? hx
  rcases ha with ⟨rfl, rfl⟩ | ha
  · exact absurd (TraceKey.under_root _) (hnot hc.1 hloc (Ne.symm hak))
  · obtain ⟨l, hl, hld, -⟩ := h.wired.opened ha
    have hn : lib.Named entry (k.child j) l.path :=
      ⟨k, m, j, r, hm, hr, rfl, (Library.path_of_document? hld).symm.trans
        (Library.path_of_document? hdoc)⟩
    have hle := h.aged.first hl hld hasked hn
    have hlt : s.age a < s.age (k.child j) :=
      lt_of_le_of_ne hle fun he => hak (age_inj (Option.isSome_iff_exists.mpr
        ⟨_, h.wired.starts hl⟩) he)
    have hvisit := hs.visitedBefore_of_age hasked hlt
    have hfirst : k.child j < a := lt_of_le_of_ne (hc.2 a hloc) (Ne.symm hak)
    exact absurd hvisit (TraceKey.visitedBefore_of_lt hfirst (hnot hc.1 hloc (Ne.symm hak))).asymm

theorem holds_of_sorted (h : s.Complete lib entry initial loaded) (hs : s.Sorted) {k : TraceKey}
    {d : Document} (hd : lib.IsFirst entry k d) : s.Holds entry k d := by
  induction k using TraceKey.child_induction generalizing d with
  | root =>
    cases Library.located_root_iff.mp hd.1
    exact .inl ⟨rfl, rfl⟩
  | child k j ih =>
    obtain ⟨m, r, hm, -⟩ := Library.located_child_iff.mp hd.1
    exact h.holds_child_of_sorted hs hm (ih (hd.parent h.grounded hm)) hd

/-- A walk records every first position. -/
theorem inPlace_of_sorted (h : s.Complete lib entry initial loaded) (hs : s.Sorted) :
    InPlace lib entry s :=
  fun _ _ hd => h.placed_of_holds (h.holds_of_sorted hs hd)

end Complete

end StyleBundle.Session
