import StyleBundle.Proofs.Answers
import StyleBundle.Proofs.Faithful

/-!
# Polls go as far as they can

A load is settled when only the arrival of an answer can move it on: it has ended, waits for its
answer, or waits for a load that is itself settled and has not ended. A poll settles the loads that
it reaches when imports do not go in a circle, so a run that has not ended waits for an answer.
-/

namespace StyleBundle

/-- The document is grounded and stands below those of the modules `active`. -/
structure Library.Clear (lib : Library) (active : List ModulePath) (d : Document) : Prop where
  grounded : lib.Grounded d
  below : ∀ p ∈ active, ∃ c, lib.document? p = some c ∧ Relation.TransGen lib.Needs c d

theorem Library.Clear.not_mem {lib : Library} {active : List ModulePath} {d : Document}
    (h : lib.Clear active d) (hd : lib.document? d.path = some d) : d.path ∉ active := by
  intro hp
  obtain ⟨c, hc, ht⟩ := h.below _ hp
  cases hc.symm.trans hd
  exact h.grounded.not_cycle ht

theorem Library.Clear.idle {lib : Library} {active : List ModulePath} {d : Document}
    {p : ModulePath} (h : lib.Clear active d) (hd : lib.document? p = some d) :
    d.path ∈ lib.texts.keys ∧ d.path ∉ active :=
  ⟨mem_keys_of_document? (document?_path hd), h.not_mem (document?_path hd)⟩

theorem Library.Clear.needs {lib : Library} {active : List ModulePath} {d e : Document}
    (h : lib.Clear active d) (hd : lib.document? d.path = some d) (hn : lib.Needs d e) :
    lib.Clear (d.path :: active) e where
  grounded := h.grounded.needs hn
  below p hp := by
    rcases List.mem_cons.mp hp with rfl | hp
    · exact ⟨d, hd, .single hn⟩
    · obtain ⟨c, hc, ht⟩ := h.below p hp
      exact ⟨c, hc, ht.tail hn⟩

namespace Session

variable {lib : Library} {entry : Document} {active : List ModulePath} {s t : Session}
  {k : TraceKey}

inductive Settled (s : Session) : TraceKey → Prop
  | ended {k : TraceKey} {l : Load} {exports : Option ExportTable} :
      s.loads.find? k = some l → l.stage = .ended exports → Settled s k
  | fetching {k : TraceKey} {l : Load} :
      s.loads.find? k = some l → l.stage = .fetching → Settled s k
  /-- All imports of the document have asked, and that at `i` waits for a load. -/
  | waiting {k k' : TraceKey} {l l' : Load} {d : Document} {i : Nat} :
      s.loads.find? k = some l → l.stage = .linking → s.documents.find? k = some d →
      (∀ j < d.sheet.imports.length, s.supplies.contains (k.child j)) →
      (∀ j < d.sheet.imports.length, ∀ k', s.supplies.find? (k.child j) = some (.load k') →
        Settled s k') →
      i < d.sheet.imports.length → s.supplies.find? (k.child i) = some (.load k') →
      s.loads.find? k' = some l' → l'.stage.isLive → Settled s k

/-! ## Settled loads stay so -/

/-- An import that has asked and has not ended waits for a load that is under way. -/
theorem Wired.exists_live (hw : s.Wired lib entry) (hk : s.supplies.contains k)
    (hend : ¬(s.ending? k).isSome) :
    ∃ k' l, s.supplies.find? k = some (.load k') ∧ s.loads.find? k' = some l ∧ l.stage.isLive := by
  obtain ⟨sup, hsup⟩ := Option.isSome_iff_exists.mp hk
  cases sup with
  | exports exports => simp [ending?, hsup] at hend
  | load k' =>
    obtain ⟨l, hl, -⟩ := hw.joins hsup
    refine ⟨k', l, hsup, hl, ?_⟩
    cases hst : l.stage with
    | ended exports => simp [ending?, hsup, hl, hst] at hend
    | queued | fetching | answered | linking => rfl

theorem ending?_eq_none {k' : TraceKey} {l : Load} (hs : s.supplies.find? k = some (.load k'))
    (hl : s.loads.find? k' = some l) (hlive : l.stage.isLive) : s.ending? k = none := by
  cases hst : l.stage with
  | ended exports => simp [hst, Stage.isLive] at hlive
  | queued | fetching | answered | linking => simp [ending?, hs, hl, hst]

theorem ended_of_ending? {k' : TraceKey} {l : Load} {x : Option ExportTable}
    (hs : s.supplies.find? k = some (.load k')) (hl : s.loads.find? k' = some l)
    (hx : s.ending? k = some x) : ∃ exports, l.stage = .ended exports := by
  cases hst : l.stage with
  | ended exports => exact ⟨exports, rfl⟩
  | queued | fetching | answered | linking =>
    rw [ending?_eq_none hs hl (by rw [hst]; rfl)] at hx
    cases hx

/-- A move changes a load that waits for its answer or has ended in no way, and ends a load only
when its imports have ended. -/
theorem Move.keeps (hw : s.Wired lib entry) (hm : Move lib entry active s t) {l : Load}
    (hl : s.loads.find? k = some l)
    (hst : (∃ exports, l.stage = .ended exports) ∨ l.stage = .fetching ∨
      l.stage = .linking ∧ ∀ d, s.documents.find? k = some d → s.endings? k d = none) :
    t.loads.find? k = some l := by
  cases hm with
  | hit | join => exact hl
  | start ha _ =>
    have := hw.not_started ha.fresh
    grind
  | request hl' hst' => grind
  | refuse hl' hst' _ => grind
  | accept hl' hst' _ => grind
  | conclude hl' hst' hd he _ => grind

theorem Settled.move (h : s.Settled k) (hw : s.Wired lib entry)
    (hm : Move lib entry active s t) :
    t.Settled k ∧ t.loads.find? k = s.loads.find? k := by
  have hlater := hm.later hw
  induction h with
  | ended hl hst =>
    have hl' := hm.keeps hw hl (.inl ⟨_, hst⟩)
    exact ⟨.ended hl' hst, hl'.trans hl.symm⟩
  | fetching hl hst =>
    have hl' := hm.keeps hw hl (.inr (.inl hst))
    exact ⟨.fetching hl' hst, hl'.trans hl.symm⟩
  | @waiting k k' l l₁ d i hl hst hd hasked _ hi hs hl₁ hlive ih =>
    have hnone : s.endings? k d = none := by
      rw [← Option.not_isSome_iff_eq_none, endings?_isSome_iff]
      intro hall
      simpa [ending?_eq_none hs hl₁ hlive] using hall i hi
    have hl' := hm.keeps hw hl (.inr (.inr ⟨hst, by grind⟩))
    have hsup : ∀ j < d.sheet.imports.length, t.supplies.find? (k.child j) =
        s.supplies.find? (k.child j) := by
      intro j hj
      obtain ⟨sup, hsup⟩ := Option.isSome_iff_exists.mp (hasked j hj)
      rw [hsup, hlater.supplies hsup]
    refine ⟨.waiting hl' hst (hlater.documents hd) (fun j hj => hlater.contains (hasked j hj))
      (fun j hj k'' hk'' => ?_) hi (hlater.supplies hs) ?_ hlive, hl'.trans hl.symm⟩
    · exact (ih j hj k'' (hsup j hj ▸ hk'')).1
    · exact (ih i hi k' hs).2.trans hl₁

theorem Settled.moves (h : s.Settled k) (hw : s.Wired lib entry)
    (hm : Moves lib entry active s t) : t.Settled k := by
  induction hm with
  | refl => exact h
  | tail hms hm ih => exact (ih.move (Moves.wired hw hms) hm).1

/-! ## Polls settle loads -/

/-- A load that only a missing answer keeps from ending has an answer to wait for. -/
theorem Settled.exists_fetching (h : s.Settled k) {l : Load} (hl : s.loads.find? k = some l)
    (hlive : l.stage.isLive) : ∃ k' l', s.loads.find? k' = some l' ∧ l'.stage = .fetching := by
  induction h generalizing l with
  | ended hl' hst =>
    cases hl.symm.trans hl'
    simp [hst, Stage.isLive] at hlive
  | fetching hl' hst => exact ⟨_, _, hl', hst⟩
  | waiting _ _ _ _ _ hi hs hl₁ hlive' ih => exact ih _ hi _ hs hl₁ hlive'

/-- The loads that the imports of a document before the index `i` wait for are settled. -/
def SettledBefore (s : Session) (k : TraceKey) (i : Nat) : Prop :=
  ∀ j < i, ∀ k', s.supplies.find? (k.child j) = some (.load k') → s.Settled k'

theorem settled_conclude {l : Load} {d : Document} (hw : s.Wired lib entry)
    (hl : s.loads.find? k = some l) (hst : l.stage = .linking)
    (hd : s.documents.find? k = some d) (ha : s.Asked entry k d d.sheet.imports.length)
    (hs : s.SettledBefore k d.sheet.imports.length) : (s.conclude k).Settled k := by
  rw [conclude_eq hl hd]
  split
  · next hnone =>
    rw [← Option.not_isSome_iff_eq_none, endings?_isSome_iff] at hnone
    simp only [not_forall] at hnone
    obtain ⟨i, hi, hend⟩ := hnone
    obtain ⟨k', l', hsup, hl', hlive⟩ := hw.exists_live (ha.earlier i hi) hend
    exact .waiting hl hst hd ha.earlier hs hi hsup hl' hlive
  · next loaded he =>
    refine .ended (l := { l with stage := .ended (some (d.sheet.link d.path loaded).exports) })
      ?_ rfl
    simp [Table.find?_insert]

/-! ## Polls that do not go in a circle -/

/-- The load at `k` is there to be polled, and its module stands below the modules `active`. -/
structure Polling (lib : Library) (entry : Document) (active : List ModulePath) (s : Session)
    (k : TraceKey) : Prop where
  wired : s.Wired lib entry
  started : s.loads.contains k
  clear : ∀ l d, s.loads.find? k = some l → lib.document? l.path = some d → lib.Clear active d

/-- The imports of the document `d` are there to be polled from the index `i` on, and the modules
that they name stand below the modules `active`. -/
structure PollingFrom (lib : Library) (entry : Document) (active : List ModulePath) (s : Session)
    (k : TraceKey) (d : Document) (i : Nat) : Prop where
  wired : s.Wired lib entry
  asked : s.Asked entry k d i
  clear : ∀ e, lib.Needs d e → lib.Clear active e

theorem Polling.load (h : Polling lib entry active s k) :
    ∃ l, s.loads.find? k = some l ∧ Moves lib entry active s (s.advance lib k) := by
  obtain ⟨l, hl⟩ := Option.isSome_iff_exists.mp h.started
  exact ⟨l, hl, (advance_moves lib entry active hl).1⟩

theorem Polling.idle (h : Polling lib entry active s k) {d : Document}
    (hd : (s.advance lib k).linking? k = some d) : d.path ∈ lib.texts.keys ∧ d.path ∉ active := by
  obtain ⟨l, hl, -⟩ := h.load
  obtain ⟨hld, -⟩ := advance_linking h.wired hl hd
  exact (h.clear l d hl hld).idle hld

theorem Polling.imports (h : Polling lib entry active s k) {d : Document}
    (hd : (s.advance lib k).linking? k = some d) :
    PollingFrom lib entry (d.path :: active) (s.advance lib k) k d 0 := by
  obtain ⟨l, hl, hm⟩ := h.load
  obtain ⟨hld, hdoc, -⟩ := advance_linking h.wired hl hd
  exact ⟨hm.wired h.wired, ⟨.inr hdoc, by simp⟩,
    fun e hn => (h.clear l d hl hld).needs (Library.document?_path hld) hn⟩

namespace PollingFrom

variable {d : Document} {i : Nat} {r : ImportRule}

theorem moves (h : PollingFrom lib entry active s k d i) (hm : Moves lib entry active s t) :
    PollingFrom lib entry active t k d i :=
  ⟨hm.wired h.wired, h.asked.later (hm.later h.wired), h.clear⟩

theorem claim (h : PollingFrom lib entry active s k d i) (hr : d.sheet.imports[i]? = some r) :
    Moves lib entry active s (s.claimImport d.path (k.child i) r) ∧
      PollingFrom lib entry active (s.claimImport d.path (k.child i) r) k d (i + 1) := by
  obtain ⟨hm, ha⟩ := h.asked.claimImport active h.wired hr
  exact ⟨hm, hm.wired h.wired, ha, h.clear⟩

theorem supply {k' : TraceKey} (h : PollingFrom lib entry active s k d (i + 1))
    (hr : d.sheet.imports[i]? = some r)
    (hs : s.supplies.find? (k.child i) = some (.load k')) : Polling lib entry active s k' := by
  obtain ⟨l, hl, hn⟩ := h.wired.joins hs
  refine ⟨h.wired, Option.isSome_iff_exists.mpr ⟨l, hl⟩, fun l' e hl' he => h.clear e ?_⟩
  cases hl.symm.trans hl'
  rw [hn.unique ⟨k, d, i, r, h.wired.located h.asked.holds, hr, rfl, rfl⟩] at he
  exact Library.needs_of_getElem? hr he

theorem polled (h : PollingFrom lib entry active s k d i) :
    Moves lib entry active s (pollFrom lib active s k d i) ∧
      (pollFrom lib active s k d i).Asked entry k d d.sheet.imports.length :=
  (polls lib entry).2 active s k d i h.wired h.asked

theorem supply_moves (h : PollingFrom lib entry active s k d (i + 1)) :
    Moves lib entry active s (pollSupply lib active s (k.child i)) :=
  pollSupply_moves h.wired fun load _ => (polls lib entry).1 active s load

end PollingFrom

theorem Polling.settled_of_unlinked (h : Polling lib entry active s k)
    (hn : (s.advance lib k).linking? k = none) : (s.advance lib k).Settled k := by
  obtain ⟨l, hl⟩ := Option.isSome_iff_exists.mp h.started
  obtain ⟨hm, l₁, hl₁, -, hq, ha⟩ := advance_moves lib entry active hl
  cases hst : l₁.stage with
  | queued => exact absurd hst hq
  | answered => exact absurd hst ha
  | fetching => exact .fetching hl₁ hst
  | ended exports => exact .ended hl₁ hst
  | linking =>
    obtain ⟨d, hd⟩ := (hm.wired h.wired).brings hl₁ (by rw [hst]; rfl)
    rw [linking?_eq hl₁ hst, hd] at hn
    cases hn

theorem settles (lib : Library) (entry : Document) :
    (∀ active s k, Polling lib entry active s k → (pollLoad lib active s k).Settled k) ∧
    ∀ active s k d i, PollingFrom lib entry active s k d i → s.SettledBefore k i →
      (pollFrom lib active s k d i).SettledBefore k d.sheet.imports.length := by
  refine poll_induction lib ?unlinked ?linking ?busy ?done ?next
  case unlinked =>
    intro active s k hn h
    rw [pollLoad_of_not_linking hn]
    exact h.settled_of_unlinked hn
  case linking =>
    intro active s k d hd hp ih h
    obtain ⟨l, hl, -⟩ := h.load
    obtain ⟨-, hdoc, l₁, hl₁, hst, hpath⟩ := advance_linking h.wired hl hd
    have hfrom := h.imports hd
    obtain ⟨hm, ha⟩ := hfrom.polled
    have hlater := hm.later hfrom.wired
    rw [pollLoad_of_linking hd hp]
    exact settled_conclude (hm.wired hfrom.wired) (hlater.linking hl₁ hst (by simp [hpath])) hst
      (hlater.documents hdoc) ha (ih hfrom fun j hj => absurd hj (Nat.not_lt_zero j))
  case busy =>
    intro active s k d hd hp h
    exact absurd (h.idle hd) hp
  case done =>
    intro active s k d i hle h hs
    rw [pollFrom_of_le hle]
    exact fun j hj => hs j (lt_of_lt_of_le hj hle)
  case next =>
    intro active s k d i r hr ih ih' h hs
    obtain ⟨hm, h₁⟩ := h.claim hr
    have hm₂ := h₁.supply_moves
    have hlater := hm₂.later h₁.wired
    rw [pollFrom_of_getElem? hr]
    refine ih' (h₁.moves hm₂) fun j hj k' hk' => ?_
    obtain ⟨sup, hsup⟩ := Option.isSome_iff_exists.mp (h₁.asked.earlier j hj)
    cases (hlater.supplies hsup).symm.trans hk'
    rcases Nat.lt_succ_iff_lt_or_eq.mp hj with hj | rfl
    · -- What was settled before stays so.
      obtain ⟨sup', hsup'⟩ := Option.isSome_iff_exists.mp (h.asked.earlier j hj)
      cases ((hm.later h.wired).supplies hsup').symm.trans hsup
      exact ((hs j hj k' hsup').moves h.wired hm).moves h₁.wired hm₂
    · have hpoll := ih k' hsup (h₁.supply hr hsup)
      rw [pollSupply, hsup]
      exact hpoll

/-! ## Turns -/

theorem turn_moves (hw : s.Wired lib entry) : Moves lib entry [] s (s.turn lib entry) ∧
    (s.turn lib entry).Asked entry .root entry entry.sheet.imports.length :=
  (polls lib entry).2 [] s .root entry 0 hw ⟨.inl ⟨rfl, rfl⟩, by simp⟩

theorem pollingFrom_root (hw : s.Wired lib entry) (hg : lib.Grounded entry) :
    PollingFrom lib entry [] s .root entry 0 :=
  ⟨hw, ⟨.inl ⟨rfl, rfl⟩, by simp⟩, fun e hn => ⟨hg.needs hn, by simp⟩⟩

theorem turn_settled (hw : s.Wired lib entry) (hg : lib.Grounded entry) :
    (s.turn lib entry).SettledBefore .root entry.sheet.imports.length :=
  (settles lib entry).2 [] s .root entry 0 (pollingFrom_root hw hg) fun j hj =>
    absurd hj (Nat.not_lt_zero j)

/-- A turn after which the imports of the entry have not all ended leaves an answer to wait for. -/
theorem arrive?_turn (hw : s.Wired lib entry) (hq : (s.turn lib entry).Awaited lib)
    (hg : lib.Grounded entry) (hn : (s.turn lib entry).endings? .root entry = none) :
    ∃ t, (s.turn lib entry).arrive? = some t := by
  obtain ⟨hm, ha⟩ := turn_moves hw
  have hs := turn_settled hw hg
  have hw' := hm.wired hw
  generalize s.turn lib entry = u at *
  rw [← Option.not_isSome_iff_eq_none, endings?_isSome_iff] at hn
  simp only [not_forall] at hn
  obtain ⟨i, hi, hend⟩ := hn
  obtain ⟨k', l, hsup, hl, hlive⟩ := hw'.exists_live (ha.earlier i hi) hend
  obtain ⟨k'', l'', hl'', hst⟩ := (hs i hi k' hsup).exists_fetching hl hlive
  cases harr : u.arrive? with
  | some t => exact ⟨t, rfl⟩
  | none => exact absurd hst (hq.of_arrive_eq_none harr hl'')

end Session

end StyleBundle
