import StyleBundle.Proofs.Polls

/-!
# Requests and their answers

A load is listed as outstanding exactly while it waits for its answer, once, and only when the
answer takes time. Every request that was made was made for some load, and the importer that it
names is the document that the load's import stands in.
-/

namespace StyleBundle.Session

variable {lib : Library} {entry : Document} {active : List ModulePath} {s t : Session}

/-! ## Outstanding answers -/

structure Awaited (lib : Library) (s : Session) : Prop where
  fetching : ∀ {due k}, (due, k) ∈ s.outstanding →
    ∃ l, s.loads.find? k = some l ∧ l.stage = .fetching
  listed : ∀ {k l}, s.loads.find? k = some l → l.stage = .fetching →
    ∃ due, (due, k) ∈ s.outstanding
  once : (s.outstanding.map Prod.snd).Nodup
  delayed : ∀ {k l}, s.loads.find? k = some l → l.stage = .fetching → lib.delay l.path ≠ 0

namespace Awaited

theorem start (r : Resolver) (clock : Nat) (requests : List Fetched) :
    (r.start clock requests).Awaited lib where
  fetching h := by cases h
  listed h := by cases h
  once := .nil
  delayed h := by cases h

/-- Changing a load that does not wait for its answer to one that does not either. -/
theorem insert {k : TraceKey} {l : Load} (h : s.Awaited lib)
    (hl : ∀ l', s.loads.find? k = some l' → l'.stage ≠ .fetching) (hst : l.stage ≠ .fetching)
    (hls : t.loads = s.loads.insert k l) (ho : t.outstanding = s.outstanding) : t.Awaited lib where
  fetching := by grind [h.fetching]
  listed := by grind [h.listed]
  once := ho ▸ h.once
  delayed := by grind [h.delayed]

theorem request {k : TraceKey} {l : Load} (h : s.Awaited lib) (hl : s.loads.find? k = some l)
    (hst : l.stage = .queued) : (s.request lib k l).Awaited lib := by
  by_cases hd : lib.delay l.path = 0
  · refine h.insert (k := k) (l := { l with stage := .answered }) ?_ (by simp)
      (by simp [hd]) (by simp [hd])
    rintro l' hl' he
    cases hl.symm.trans hl'
    rw [hst] at he
    cases he
  · have hk : k ∉ s.outstanding.map Prod.snd := by
      intro hk
      obtain ⟨⟨due, k'⟩, hm, rfl⟩ := List.mem_map.mp hk
      obtain ⟨l', hl', he⟩ := h.fetching hm
      cases hl.symm.trans hl'
      rw [hst] at he
      cases he
    exact {
      fetching := by grind [h.fetching]
      listed := by grind [h.listed]
      once := by
        rw [request_outstanding, if_neg hd, List.map_append]
        exact List.nodup_append.mpr ⟨h.once, by simp, by grind⟩
      delayed := by grind [h.delayed] }

theorem move (h : s.Awaited lib) (hw : s.Wired lib entry) (hm : Move lib entry active s t) :
    t.Awaited lib := by
  cases hm with
  | hit | join => exact ⟨h.fetching, h.listed, h.once, h.delayed⟩
  | start ha _ => exact h.insert (by simp [hw.not_started ha.fresh]) (by simp) rfl rfl
  | request hl hst => exact h.request hl hst
  | refuse hl hst _ => exact h.insert (by grind) (by simp) rfl rfl
  | accept hl hst _ =>
    exact h.insert (l := { (_ : Load) with stage := .linking }) (by grind) (by simp) rfl rfl
  | conclude hl hst _ _ _ => exact h.insert (by grind) (by simp) rfl rfl

theorem arrival (h : s.Awaited lib) (ha : Arrival s t) : t.Awaited lib := by
  obtain ⟨hm, hl, hst⟩ := ha
  next k l due =>
  have hout : ∀ {due' k'}, (due', k') ∈ s.outstanding.erase (due, k) ↔
      (due', k') ∈ s.outstanding ∧ k' ≠ k := by
    intro due' k'
    rw [(List.Nodup.of_map _ h.once).mem_erase_iff]
    constructor
    · rintro ⟨hne, hm'⟩
      refine ⟨hm', ?_⟩
      rintro rfl
      exact hne (List.inj_on_of_nodup_map h.once hm' hm rfl)
    · rintro ⟨hm', hne⟩
      exact ⟨fun e => hne (Prod.mk.inj e).2, hm'⟩
  exact {
    fetching := by grind [h.fetching]
    listed := by grind [h.listed]
    once := h.once.sublist (List.Sublist.map _ List.erase_sublist)
    delayed := by grind [h.delayed] }

end Awaited

/-! ## The next answer -/

theorem earliest_eq_none_iff {es : List (Nat × TraceKey)} : earliest es = none ↔ es = [] := by
  cases es with
  | nil => simp [earliest]
  | cons e es =>
    simp only [earliest]
    split <;> grind

theorem mem_of_earliest : ∀ {es : List (Nat × TraceKey)} {e : Nat × TraceKey},
    earliest es = some e → e ∈ es
  | [], _, h => by cases h
  | e' :: es, e, h => by
    simp only [earliest] at h
    split at h
    · next e'' he =>
      split at h
      · cases h
        exact List.mem_cons_of_mem _ (mem_of_earliest he)
      · cases h
        exact List.mem_cons_self
    · cases h
      exact List.mem_cons_self

theorem Awaited.arrive (h : s.Awaited lib) (ha : s.arrive? = some t) : Arrival s t := by
  unfold arrive? at ha
  split at ha
  · cases ha
  · next due k he =>
    have hm := mem_of_earliest he
    obtain ⟨l, hl, hst⟩ := h.fetching hm
    simp only [hl] at ha
    cases ha
    exact .intro hm hl hst

theorem Awaited.of_arrive_eq_none (h : s.Awaited lib) (ha : s.arrive? = none) {k : TraceKey}
    {l : Load} (hl : s.loads.find? k = some l) : l.stage ≠ .fetching := by
  intro hst
  obtain ⟨due, hm⟩ := h.listed hl hst
  unfold arrive? at ha
  split at ha
  · next he => simp [earliest_eq_none_iff.mp he] at hm
  · dsimp only at ha
    split at ha <;> cases ha

/-! ## Requests -/

/-- Where the requests of the loads come from, and which requests there are besides `initial`. -/
structure Requested (initial : List Fetched) (entry : Document) (s : Session) : Prop where
  importer : ∀ {k l}, s.loads.find? k = some l → ∃ k' d i r, s.Holds entry k' d ∧
    d.sheet.imports[i]? = some r ∧ k = k'.child i ∧ l.request = ⟨r.source, d.path, s.root⟩
  made : ∀ {k l}, s.loads.find? k = some l → l.stage ≠ .queued →
    ∃ f ∈ s.requests, f.request = l.request
  origin : ∀ f ∈ s.requests, f ∈ initial ∨
    ∃ k l, s.loads.find? k = some l ∧ f.request = l.request
  initial : ∀ f ∈ initial, f ∈ s.requests

namespace Requested

variable {initial : List Fetched}

theorem start (r : Resolver) (clock : Nat) :
    (r.start clock initial).Requested initial entry where
  importer h := by cases h
  made h := by cases h
  origin _ hf := .inl hf
  initial _ hf := hf

theorem later (h : s.Requested initial entry) (hl : Later active s t)
    (hroot : t.root = s.root) (hmade : ∀ f ∈ s.requests, f ∈ t.requests)
    (hloads : ∀ {k l}, t.loads.find? k = some l →
      (∃ l', s.loads.find? k = some l' ∧ l.request = l'.request ∧
        (l.stage ≠ .queued → l'.stage ≠ .queued ∨ ∃ f ∈ t.requests, f.request = l.request)) ∨
      l.stage = .queued ∧ ∃ k' d i r, s.Holds entry k' d ∧
        d.sheet.imports[i]? = some r ∧ k = k'.child i ∧ l.request = ⟨r.source, d.path, s.root⟩)
    (hnew : ∀ f ∈ t.requests, f ∈ s.requests ∨
      ∃ k l, s.loads.find? k = some l ∧ f.request = l.request) :
    t.Requested initial entry where
  importer := by
    intro k l hkl
    rcases hloads hkl with ⟨l', hl', hr, -⟩ | ⟨-, k', d, i, r, hd, hi, hk, hr⟩
    · obtain ⟨k', d, i, r, hd, hi, hk, hr'⟩ := h.importer hl'
      exact ⟨k', d, i, r, hl.holds hd, hi, hk, hroot ▸ hr.trans hr'⟩
    · exact ⟨k', d, i, r, hl.holds hd, hi, hk, hroot ▸ hr⟩
  made := by
    intro k l hkl hst
    rcases hloads hkl with ⟨l', hl', hr, hq⟩ | ⟨hq, -⟩
    · rcases hq hst with hq | hf
      · obtain ⟨f, hf, he⟩ := h.made hl' hq
        exact ⟨f, hmade f hf, he.trans hr.symm⟩
      · exact hf
    · exact absurd hq hst
  origin := by
    intro f hf
    have key : ∀ {k l}, s.loads.find? k = some l → f.request = l.request →
        ∃ k l, t.loads.find? k = some l ∧ f.request = l.request := by
      intro k l hkl he
      obtain ⟨l', hl', hr, -⟩ := hl.loads hkl
      exact ⟨k, l', hl', he.trans hr.symm⟩
    rcases hnew f hf with hf | ⟨k, l, hkl, he⟩
    · rcases h.origin f hf with hf | ⟨k, l, hkl, he⟩
      · exact .inl hf
      · exact .inr (key hkl he)
    · exact .inr (key hkl he)
  initial f hf := hmade f (h.initial f hf)

theorem move (h : s.Requested initial entry) (hw : s.Wired lib entry)
    (hm : Move lib entry active s t) : t.Requested initial entry := by
  have hl := hm.later hw
  cases hm with
  | hit | join => exact h.later hl rfl (by simp) (by grind) (by grind)
  | @start k d i r ha _ =>
    refine h.later hl rfl (by simp) (fun {k' l'} hl' => ?_) (by grind)
    rw [Table.find?_insert] at hl'
    split at hl'
    · next e =>
      cases hl'
      exact .inr ⟨rfl, k, d, i, r, ha.holds, ha.rule, e.symm, rfl⟩
    · exact .inl ⟨l', hl', rfl, .inl⟩
  | @request k l hkl hst =>
    have hf : (⟨s.clock, l.request⟩ : Fetched) ∈ (s.request lib k l).requests := by simp
    refine h.later hl (request_root ..) (by grind) (fun {k' l'} hl' => .inl ?_) (by grind)
    rw [request_loads, Table.find?_insert] at hl'
    split at hl'
    · next e =>
      cases hl'
      exact ⟨l, e ▸ hkl, rfl, fun _ => .inr ⟨_, hf, rfl⟩⟩
    · exact ⟨l', hl', rfl, .inl⟩
  | refuse hkl hst _ => exact h.later hl rfl (by simp) (by grind) (by grind)
  | accept hkl hst _ => exact h.later hl rfl (by simp) (by grind) (by grind)
  | conclude hkl hst _ _ _ => exact h.later hl rfl (by simp) (by grind) (by grind)

theorem arrival (h : s.Requested initial entry) (ha : Arrival s t) :
    t.Requested initial entry := by
  have hl : Later [] s t := ha.later
  obtain ⟨-, hkl, hst⟩ := ha
  exact h.later hl rfl (by simp) (by grind) (by grind)

end Requested

end StyleBundle.Session
