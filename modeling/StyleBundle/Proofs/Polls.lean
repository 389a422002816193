import StyleBundle.Proofs.Wired

/-!
# Polling makes moves

Each step of a poll is a move of the session, so what every move preserves holds after a poll. Moves
take nothing back: documents stay, imports that have asked keep their answers, and loads only go on.
After the imports of a document have been polled, all of them have asked.
-/

namespace StyleBundle

namespace Document

variable {d : Document} {k : TraceKey} {i : Nat}

theorem imports_getElem? (d : Document) (k : TraceKey) (i : Nat) :
    (d.imports k)[i]? = (d.sheet.imports[i]?).map (k.child i, ·) := by
  simp only [imports, List.getElem?_map, List.getElem?_zipIdx, Option.map_map, Nat.zero_add]
  rfl

theorem length_imports (d : Document) (k : TraceKey) :
    (d.imports k).length = d.sheet.imports.length := by
  simp [imports]

theorem drop_imports {r : ImportRule} (h : d.sheet.imports[i]? = some r) :
    (d.imports k).drop i = (k.child i, r) :: (d.imports k).drop (i + 1) := by
  have hi : (d.imports k)[i]? = some (k.child i, r) := by rw [imports_getElem?, h]; rfl
  obtain ⟨hlt, he⟩ := List.getElem?_eq_some_iff.mp hi
  rw [List.drop_eq_getElem_cons hlt, he]

theorem drop_imports_eq_nil (h : d.sheet.imports.length ≤ i) : (d.imports k).drop i = [] :=
  List.drop_eq_nil_of_le (by rwa [length_imports])

end Document

namespace Session

variable {lib : Library} {entry : Document} {active : List ModulePath} {s t u : Session}

/-! ## What moves leave -/

/-- The session `t` may come after `s`, while the loads of the modules `active` wait. -/
structure Later (active : List ModulePath) (s t : Session) : Prop where
  documents : ∀ {k d}, s.documents.find? k = some d → t.documents.find? k = some d
  supplies : ∀ {k sup}, s.supplies.find? k = some sup → t.supplies.find? k = some sup
  loads : ∀ {k l}, s.loads.find? k = some l → ∃ l', t.loads.find? k = some l' ∧
    l'.request = l.request ∧ (l.stage ≠ .queued → l'.stage ≠ .queued)
  ended : ∀ {k l exports}, s.loads.find? k = some l → l.stage = .ended exports →
    t.loads.find? k = some l
  linking : ∀ {k l}, s.loads.find? k = some l → l.stage = .linking → l.path ∈ active →
    t.loads.find? k = some l

theorem Later.refl (s : Session) : Later active s s where
  documents h := h
  supplies h := h
  loads h := ⟨_, h, rfl, id⟩
  ended h _ := h
  linking h _ _ := h

theorem Later.trans (h₁ : Later active s t) (h₂ : Later active t u) : Later active s u where
  documents h := h₂.documents (h₁.documents h)
  supplies h := h₂.supplies (h₁.supplies h)
  loads h := by
    obtain ⟨l', hl', hr', hq'⟩ := h₁.loads h
    obtain ⟨l'', hl'', hr'', hq''⟩ := h₂.loads hl'
    exact ⟨l'', hl'', hr''.trans hr', hq'' ∘ hq'⟩
  ended h he := h₂.ended (h₁.ended h he) he
  linking h hl ha := h₂.linking (h₁.linking h hl ha) hl ha

theorem Later.of_insert {k : TraceKey} {l l' : Load} (hl : s.loads.find? k = some l)
    (hlive : l.stage.isLive) (hact : l.stage = .linking → l.path ∉ active)
    (hr : l'.request = l.request) (hq : l'.stage ≠ .queued)
    (hls : t.loads = s.loads.insert k l') (hs : t.supplies = s.supplies)
    (hd : ∀ {k d}, s.documents.find? k = some d → t.documents.find? k = some d) :
    Later active s t where
  documents := hd
  supplies := by grind
  loads := by grind
  ended := by grind [Stage.isLive]
  linking := by grind

theorem Later.of_asks {k : TraceKey} {d : Document} {i : Nat} {r : ImportRule} {sup : Supply}
    (ha : s.Asks entry k d i r) (hs : t.supplies = s.supplies.insert (k.child i) sup)
    (hd : t.documents = s.documents)
    (hls : ∀ {k' l}, s.loads.find? k' = some l → t.loads.find? k' = some l) :
    Later active s t where
  documents h := hd ▸ h
  supplies h := hs ▸ Table.find?_insert_new ha.fresh h
  loads h := ⟨_, hls h, rfl, id⟩
  ended h _ := hls h
  linking h _ _ := hls h

theorem Move.later (h : s.Wired lib entry) (hm : Move lib entry active s t) :
    Later active s t := by
  cases hm with
  | hit ha _ => exact .of_asks ha rfl rfl id
  | join ha _ => exact .of_asks ha rfl rfl id
  | start ha _ => exact .of_asks ha rfl rfl (Table.find?_insert_new (h.not_started ha.fresh))
  | @request k l hl hst =>
    refine Later.of_insert hl (by rw [hst]; rfl) (by simp [hst]) (by rfl) ?_
      (request_loads ..) (request_supplies ..) (by simp)
    split <;> simp
  | @refuse k l _ hl hst he =>
    exact Later.of_insert hl (by rw [hst]; rfl) (by simp [hst]) (by rfl) (by simp) rfl rfl (by simp)
  | @accept k l d hl hst hd =>
    refine Later.of_insert hl (by rw [hst]; rfl) (by simp [hst]) (by rfl) ?_ rfl rfl ?_
    · simp
    · intro k' d' hd'
      have hne : k ≠ k' := by
        rintro rfl
        have hopen := (h.opened_load hl hd').2
        rw [hst] at hopen
        cases hopen
      exact (Table.find?_insert_of_ne hne).trans hd'
  | @conclude k l d loaded hl hst hd he ha =>
    exact Later.of_insert hl (by rw [hst]; rfl) (fun _ => ha) (by rfl) (by simp) rfl rfl (by simp)

theorem Arrival.later (ha : Arrival s t) : Later active s t := by
  obtain ⟨-, hl, hst⟩ := ha
  exact Later.of_insert hl (by rw [hst]; rfl) (by simp [hst]) (by rfl) (by simp) rfl rfl (by simp)

theorem Moves.wired (h : s.Wired lib entry) (hm : Moves lib entry active s t) :
    t.Wired lib entry := by
  induction hm with
  | refl => exact h
  | tail _ hm ih => exact ih.move hm

theorem Moves.later (h : s.Wired lib entry) (hm : Moves lib entry active s t) :
    Later active s t := by
  induction hm with
  | refl => exact .refl s
  | tail hms hm ih => exact ih.trans (hm.later (Moves.wired h hms))

theorem Later.holds {k : TraceKey} {d : Document} (h : Later active s t)
    (hd : s.Holds entry k d) : t.Holds entry k d :=
  hd.imp id h.documents

theorem Later.contains {k : TraceKey} (h : Later active s t) (hk : s.supplies.contains k) :
    t.supplies.contains k := by
  obtain ⟨sup, hsup⟩ := Option.isSome_iff_exists.mp hk
  exact Option.isSome_iff_exists.mpr ⟨sup, h.supplies hsup⟩

theorem Move.mono {active' : List ModulePath} (ha : ∀ p ∈ active', p ∈ active)
    (hm : Move lib entry active s t) : Move lib entry active' s t := by
  cases hm with
  | hit h hs => exact .hit h hs
  | join h hs => exact .join h hs
  | start h hs => exact .start h hs
  | request hl hst => exact .request hl hst
  | refuse hl hst he => exact .refuse hl hst he
  | accept hl hst hd => exact .accept hl hst hd
  | conclude hl hst hd he hp => exact .conclude hl hst hd he (mt (ha _) hp)

theorem Moves.mono {active' : List ModulePath} (ha : ∀ p ∈ active', p ∈ active)
    (hm : Moves lib entry active s t) : Moves lib entry active' s t :=
  Relation.ReflTransGen.mono (fun _ _ h => h.mono ha) _ _ hm

/-! ## Loads -/

theorem receive_eq_fail {k : TraceKey} {l : Load} {e : ImportError}
    (h : lib.refusal? l.request.importer l.path = some e) : s.receive lib k l = s.fail k l e := by
  unfold Library.refusal? at h
  unfold receive
  cases ha : lib.answer l.path with
  | error cause => simp_all
  | ok text =>
    cases hp : Stylesheet.parse text <;> simp_all

theorem receive_eq_accept {k : TraceKey} {l : Load} {d : Document}
    (h : lib.document? l.path = some d) : s.receive lib k l =
      { s.setStage k l .linking with documents := s.documents.insert k d } := by
  obtain ⟨sheet, hs, rfl⟩ := Option.map_eq_some_iff.mp h
  obtain ⟨text, ht, hp⟩ := Library.sheet?_eq_some_iff.mp hs
  simp only [receive, ht, hp]

theorem receive_move {k : TraceKey} {l : Load} (hl : s.loads.find? k = some l)
    (hst : l.stage = .answered) : Move lib entry active s (s.receive lib k l) := by
  rcases lib.refusal_or_document l.request.importer l.path with ⟨e, he⟩ | ⟨d, hd⟩
  · rw [receive_eq_fail he]
    exact .refuse hl hst he
  · rw [receive_eq_accept hd]
    exact .accept hl hst hd

theorem advance_moves (lib : Library) (entry : Document) (active : List ModulePath)
    {k : TraceKey} {l : Load} (hl : s.loads.find? k = some l) :
    Moves lib entry active s (s.advance lib k) ∧
      ∃ l', (s.advance lib k).loads.find? k = some l' ∧ l'.request = l.request ∧
        l'.stage ≠ .queued ∧ l'.stage ≠ .answered := by
  obtain ⟨s', l', hs, hl', hr, hq, he⟩ : ∃ s' l', Moves lib entry active s s' ∧
      s'.loads.find? k = some l' ∧ l'.request = l.request ∧ l'.stage ≠ .queued ∧
      s.advance lib k = if l'.stage = .answered then s'.receive lib k l' else s' := by
    by_cases hst : l.stage = .queued
    · have hl' : (s.request lib k l).loads.find? k = some
          { l with stage := if lib.delay l.path = 0 then .answered else .fetching } := by grind
      refine ⟨_, _, .single (.request hl hst), hl', rfl, by split <;> simp, ?_⟩
      simp only [advance, hl, if_pos hst, hl']
    · exact ⟨s, l, .refl, hl, rfl, hst, by simp only [advance, hl, if_neg hst]⟩
  rw [he]
  split
  · next hst =>
    refine ⟨hs.tail (receive_move hl' hst), ?_⟩
    rcases lib.refusal_or_document l'.request.importer l'.path with ⟨e, he⟩ | ⟨d, hd⟩
    · rw [receive_eq_fail he]
      exact ⟨{ l' with stage := .ended none }, by grind, hr, by simp, by simp⟩
    · rw [receive_eq_accept hd]
      exact ⟨{ l' with stage := .linking }, by grind, hr, by simp, by simp⟩
  · next hst => exact ⟨hs, l', hl', hr, hq, hst⟩

theorem advance_frame (lib : Library) (s : Session) (k : TraceKey) :
    (s.advance lib k).supplies = s.supplies ∧
      ∀ k', k' ≠ k → (s.advance lib k).loads.find? k' = s.loads.find? k' := by
  have hreceive : ∀ (s : Session) (l : Load), (s.receive lib k l).supplies = s.supplies ∧
      ∀ k', k' ≠ k → (s.receive lib k l).loads.find? k' = s.loads.find? k' := by
    intro s l
    rcases lib.refusal_or_document l.request.importer l.path with ⟨e, he⟩ | ⟨d, hd⟩
    · rw [receive_eq_fail he]
      grind
    · rw [receive_eq_accept hd]
      grind
  unfold advance
  dsimp only
  split
  · split
    · split <;> split <;> grind
    · grind
  · exact ⟨rfl, fun _ _ => rfl⟩

theorem linking?_eq_some {k : TraceKey} {d : Document} (h : s.linking? k = some d) :
    ∃ l, s.loads.find? k = some l ∧ l.stage = .linking ∧ s.documents.find? k = some d := by
  unfold linking? at h
  split at h
  · next hst =>
    obtain ⟨l, hl, hst⟩ := Option.map_eq_some_iff.mp hst
    exact ⟨l, hl, hst, h⟩
  · cases h

theorem linking?_eq {k : TraceKey} {l : Load} (hl : s.loads.find? k = some l)
    (hst : l.stage = .linking) : s.linking? k = s.documents.find? k := by
  simp [linking?, hl, hst]

theorem conclude_eq {k : TraceKey} {l : Load} {d : Document} (hl : s.loads.find? k = some l)
    (hd : s.documents.find? k = some d) : s.conclude k = match s.endings? k d with
      | none => s
      | some loaded =>
        { s.setStage k l (.ended (some (d.sheet.link d.path loaded).exports)) with
          context := ((d.sheet.link d.path loaded).errors.foldl Context.report s.context).commit
            d.path (d.sheet.link d.path loaded).source (d.sheet.link d.path loaded).exports } := by
  cases h : s.endings? k d <;> simp [conclude, hl, hd, h]

theorem conclude_moves (lib : Library) (entry : Document) {active : List ModulePath}
    {k : TraceKey} {l : Load} {d : Document} (hl : s.loads.find? k = some l)
    (hst : l.stage = .linking) (hd : s.documents.find? k = some d) (ha : l.path ∉ active) :
    Moves lib entry active s (s.conclude k) := by
  rw [conclude_eq hl hd]
  split
  · exact .refl
  · next he => exact .single (.conclude hl hst hd he ha)

theorem conclude_supplies (s : Session) (k : TraceKey) : (s.conclude k).supplies = s.supplies := by
  unfold conclude
  split
  · split <;> rfl
  · rfl

theorem conclude_loads {k k' : TraceKey} (h : k' ≠ k) :
    (s.conclude k).loads.find? k' = s.loads.find? k' := by
  unfold conclude
  split
  · split
    · rfl
    · simp [Table.find?_insert, h.symm]
  · rfl

/-! ## Imports -/

/-- The imports of the open document `d` before the index `i` have asked for their modules. -/
structure Asked (s : Session) (entry : Document) (k : TraceKey) (d : Document) (i : Nat) :
    Prop where
  holds : s.Holds entry k d
  earlier : ∀ j < i, s.supplies.contains (k.child j)

theorem Asked.later {k : TraceKey} {d : Document} {i : Nat} (h : s.Asked entry k d i)
    (hl : Later active s t) : t.Asked entry k d i :=
  ⟨hl.holds h.holds, fun j hj => hl.contains (h.earlier j hj)⟩

theorem claimImport_of_contains {file : ModulePath} {k : TraceKey} (r : ImportRule)
    (h : s.supplies.contains k) : s.claimImport file k r = s := by
  simp only [claimImport, if_pos h]

theorem claimImport_move {k : TraceKey} {d : Document} {i : Nat} {r : ImportRule}
    (ha : s.Asks entry k d i r) :
    Move lib entry active s (s.claimImport d.path (k.child i) r) := by
  have hc : ¬ s.supplies.contains (k.child i) := by simp [Table.contains_eq, ha.fresh]
  cases hs : s.context.slots.find? (d.path.resolve r.source) with
  | none => simpa only [claimImport, if_neg hc, Context.claim, hs] using Move.start ha hs
  | some slot =>
    cases slot with
    | ready exports => simpa only [claimImport, if_neg hc, Context.claim, hs] using Move.hit ha hs
    | pending load joined =>
      simpa only [claimImport, if_neg hc, Context.claim, hs] using Move.join ha hs

theorem contains_claimImport {k : TraceKey} (file : ModulePath) (r : ImportRule) :
    (s.claimImport file k r).supplies.contains k := by
  unfold claimImport
  split
  · assumption
  · dsimp only
    split <;> simp [Table.contains_eq, Table.find?_insert]

theorem Asked.claimImport {k : TraceKey} {d : Document} {i : Nat} {r : ImportRule}
    (active : List ModulePath) (h : s.Asked entry k d i) (hw : s.Wired lib entry)
    (hr : d.sheet.imports[i]? = some r) :
    Moves lib entry active s (s.claimImport d.path (k.child i) r) ∧
      (s.claimImport d.path (k.child i) r).Asked entry k d (i + 1) := by
  have hm : Moves lib entry active s (s.claimImport d.path (k.child i) r) := by
    by_cases hc : s.supplies.contains (k.child i)
    · rw [claimImport_of_contains r hc]
      exact .refl
    · have hf : s.supplies.find? (k.child i) = none := by
        simpa [Table.contains_eq] using hc
      exact .single (claimImport_move ⟨h.holds, hr, hf, h.earlier⟩)
  have h' := h.later (hm.later hw)
  refine ⟨hm, h'.holds, fun j hj => ?_⟩
  rcases Nat.lt_succ_iff_lt_or_eq.mp hj with hj | rfl
  · exact h'.earlier j hj
  · exact contains_claimImport _ _

/-! ## Polls -/

def pollFrom (lib : Library) (active : List ModulePath) (s : Session) (k : TraceKey) (d : Document)
    (i : Nat) : Session :=
  pollImports lib active s d.path ((d.imports k).drop i)

def pollSupply (lib : Library) (active : List ModulePath) (s : Session) (k : TraceKey) : Session :=
  match s.supplies.find? k with
  | some (.load load) => pollLoad lib active s load
  | _ => s

theorem pollLoad_of_not_linking {k : TraceKey} (h : (s.advance lib k).linking? k = none) :
    pollLoad lib active s k = s.advance lib k := by
  rw [pollLoad, h]

theorem pollLoad_of_linking {k : TraceKey} {d : Document}
    (h : (s.advance lib k).linking? k = some d)
    (hp : d.path ∈ lib.texts.keys ∧ d.path ∉ active) : pollLoad lib active s k =
      (pollFrom lib (d.path :: active) (s.advance lib k) k d 0).conclude k := by
  rw [pollLoad, h]
  exact dif_pos hp

theorem pollLoad_of_busy {k : TraceKey} {d : Document}
    (h : (s.advance lib k).linking? k = some d)
    (hp : ¬(d.path ∈ lib.texts.keys ∧ d.path ∉ active)) :
    pollLoad lib active s k = s.advance lib k := by
  rw [pollLoad, h]
  exact dif_neg hp

theorem advance_linking {k : TraceKey} {l : Load} {d : Document} (hw : s.Wired lib entry)
    (hl : s.loads.find? k = some l) (hd : (s.advance lib k).linking? k = some d) :
    lib.document? l.path = some d ∧ (s.advance lib k).documents.find? k = some d ∧
      ∃ l', (s.advance lib k).loads.find? k = some l' ∧ l'.stage = .linking ∧
        l'.path = d.path := by
  obtain ⟨hm, l₁, hl₁, hr, -⟩ := advance_moves lib entry [] hl
  obtain ⟨l', hl', hst, hdoc⟩ := linking?_eq_some hd
  cases hl₁.symm.trans hl'
  obtain ⟨hld, -⟩ := (hm.wired hw).opened_load hl₁ hdoc
  refine ⟨by rwa [Load.path, ← hr], hdoc, l₁, hl₁, hst, (Library.path_of_document? hld).symm⟩

theorem pollFrom_of_le {k : TraceKey} {d : Document} {i : Nat} (h : d.sheet.imports.length ≤ i) :
    pollFrom lib active s k d i = s := by
  rw [pollFrom, Document.drop_imports_eq_nil h, pollImports]

theorem pollFrom_of_getElem? {k : TraceKey} {d : Document} {i : Nat} {r : ImportRule}
    (hr : d.sheet.imports[i]? = some r) : pollFrom lib active s k d i =
      pollFrom lib active (pollSupply lib active (s.claimImport d.path (k.child i) r) (k.child i))
        k d (i + 1) := by
  rw [pollFrom, Document.drop_imports hr, pollImports]
  rfl

theorem pollSupply_cases (lib : Library) (active : List ModulePath) (s : Session) (k : TraceKey) :
    (∃ load, s.supplies.find? k = some (.load load) ∧
      pollSupply lib active s k = pollLoad lib active s load) ∨
    (∀ load, s.supplies.find? k ≠ some (.load load)) ∧ pollSupply lib active s k = s := by
  unfold pollSupply
  split
  · next load hs => exact .inl ⟨load, hs, rfl⟩
  · next hs => exact .inr ⟨hs, rfl⟩

theorem pollSupply_moves {k : TraceKey} (hw : s.Wired lib entry)
    (h : ∀ load, s.supplies.find? k = some (.load load) → s.Wired lib entry →
      s.loads.contains load → Moves lib entry active s (pollLoad lib active s load)) :
    Moves lib entry active s (pollSupply lib active s k) := by
  rcases pollSupply_cases lib active s k with ⟨load, hs, he⟩ | ⟨-, he⟩ <;> rw [he]
  · obtain ⟨l, hl, -⟩ := hw.joins hs
    exact h load hs hw (Option.isSome_iff_exists.mpr ⟨l, hl⟩)
  · exact .refl

/-- Induction along a poll: a load is polled through the imports of its document, each of these
through the load that it waits for and the imports after it. -/
theorem poll_induction (lib : Library)
    {onLoad : List ModulePath → Session → TraceKey → Prop}
    {onImports : List ModulePath → Session → TraceKey → Document → Nat → Prop}
    (unlinked : ∀ active s k, (s.advance lib k).linking? k = none → onLoad active s k)
    (linking : ∀ active s k d, (s.advance lib k).linking? k = some d →
      d.path ∈ lib.texts.keys ∧ d.path ∉ active →
      onImports (d.path :: active) (s.advance lib k) k d 0 → onLoad active s k)
    (busy : ∀ active s k d, (s.advance lib k).linking? k = some d →
      ¬(d.path ∈ lib.texts.keys ∧ d.path ∉ active) → onLoad active s k)
    (done : ∀ active s k d i, d.sheet.imports.length ≤ i → onImports active s k d i)
    (next : ∀ active s k d i r, d.sheet.imports[i]? = some r →
      (∀ load, (s.claimImport d.path (k.child i) r).supplies.find? (k.child i) =
        some (.load load) → onLoad active (s.claimImport d.path (k.child i) r) load) →
      onImports active
        (pollSupply lib active (s.claimImport d.path (k.child i) r) (k.child i)) k d (i + 1) →
      onImports active s k d i) :
    (∀ active s k, onLoad active s k) ∧ ∀ active s k d i, onImports active s k d i := by
  obtain ⟨hload, himports⟩ := pollLoad.mutual_induct lib onLoad
    (fun active s file imports => ∀ k d i, file = d.path → imports = (d.imports k).drop i →
      onImports active s k d i) unlinked
    (fun active s k d hd hp ih => linking active s k d hd hp (ih k d 0 rfl rfl)) busy
    (fun active s file k d i _ hi => done active s k d i (by
      rw [← d.length_imports k, ← List.drop_eq_nil_iff, ← hi]))
    (fun active s file key r imports ih _ ih' k d i hfile hi => by
      subst hfile
      cases hr : d.sheet.imports[i]? with
      | none =>
        rw [Document.drop_imports_eq_nil (List.getElem?_eq_none_iff.mp hr)] at hi
        cases hi
      | some r' =>
        rw [Document.drop_imports hr] at hi
        cases hi
        exact next active s k d i r hr (fun load _ => ih load) (ih' k d (i + 1) rfl rfl))
  exact ⟨hload, fun active s k d i => himports active s d.path _ k d i rfl rfl⟩

/-- A poll makes moves only, and all imports of a document that is polled have asked. -/
theorem polls (lib : Library) (entry : Document) :
    (∀ active s k, s.Wired lib entry → s.loads.contains k →
      Moves lib entry active s (pollLoad lib active s k)) ∧
    ∀ active s k d i, s.Wired lib entry → s.Asked entry k d i →
      Moves lib entry active s (pollFrom lib active s k d i) ∧
        (pollFrom lib active s k d i).Asked entry k d d.sheet.imports.length := by
  refine poll_induction lib ?unlinked ?linking ?busy ?done ?next
  case unlinked =>
    intro active s k hn hw hk
    obtain ⟨l, hl⟩ := Option.isSome_iff_exists.mp hk
    rw [pollLoad_of_not_linking hn]
    exact (advance_moves lib entry active hl).1
  case linking =>
    intro active s k d hd hp ih hw hk
    obtain ⟨l, hl⟩ := Option.isSome_iff_exists.mp hk
    have hm := (advance_moves lib entry active hl).1
    have hw₁ := hm.wired hw
    obtain ⟨-, hdoc, l₁, hl₁, hst, hpath⟩ := advance_linking hw hl hd
    obtain ⟨hm', -⟩ := ih hw₁ ⟨.inr hdoc, by simp⟩
    have hlater := hm'.later hw₁
    have hend := conclude_moves lib entry (hlater.linking hl₁ hst (by simp [hpath])) hst
      (hlater.documents hdoc) (hpath ▸ hp.2)
    rw [pollLoad_of_linking hd hp]
    exact (hm.trans (hm'.mono fun p hp => List.mem_cons_of_mem _ hp)).trans hend
  case busy =>
    intro active s k d hd hp hw hk
    obtain ⟨l, hl⟩ := Option.isSome_iff_exists.mp hk
    rw [pollLoad_of_busy hd hp]
    exact (advance_moves lib entry active hl).1
  case done =>
    intro active s k d i hle hw ha
    rw [pollFrom_of_le hle]
    exact ⟨.refl, ha.holds, fun j hj => ha.earlier j (lt_of_lt_of_le hj hle)⟩
  case next =>
    intro active s k d i r hr ih ih' hw ha
    obtain ⟨hm, ha₁⟩ := ha.claimImport active hw hr
    have hw₁ := hm.wired hw
    have hm₂ := pollSupply_moves hw₁ ih
    obtain ⟨hm₃, ha₃⟩ := ih' (hm₂.wired hw₁) (ha₁.later (hm₂.later hw₁))
    rw [pollFrom_of_getElem? hr]
    exact ⟨(hm.trans hm₂).trans hm₃, ha₃⟩

end Session

end StyleBundle
