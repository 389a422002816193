import StyleBundle.Proofs.Moves

/-!
# What each operation leaves of a session

The fields of a context and of a session after each operation on them.
-/

namespace StyleBundle

namespace Table

variable {κ : Type*} {α : Type*} [DecidableEq κ] {t : Table κ α} {k : κ} {v : α}

@[grind =]
theorem contains_eq (t : Table κ α) (k : κ) : t.contains k = (t.find? k).isSome := rfl

theorem find?_insert_self : (t.insert k v).find? k = some v := by
  rw [find?_insert, if_pos rfl]

theorem find?_insert_of_ne {k' : κ} (h : k ≠ k') : (t.insert k v).find? k' = t.find? k' := by
  rw [find?_insert, if_neg h]

theorem find?_insert_eq_some {k' : κ} {w : α} : (t.insert k v).find? k' = some w ↔
    k = k' ∧ v = w ∨ k ≠ k' ∧ t.find? k' = some w := by
  rw [find?_insert]
  split
  · next h => simp only [h, Option.some.injEq, true_and, ne_eq, not_true_eq_false, false_and,
      or_false]
  · next h => simp only [h, false_and, ne_eq, not_false_eq_true, true_and, false_or]

theorem find?_erase_eq_some {k' : κ} {w : α} :
    (t.erase k).find? k' = some w ↔ k ≠ k' ∧ t.find? k' = some w := by
  rw [find?_erase]
  split
  · next h => simp only [h, reduceCtorEq, ne_eq, not_true_eq_false, false_and]
  · next h => simp only [h, ne_eq, not_false_eq_true, true_and]

theorem find?_of_insert {k' : κ} {w : α} (h : (t.insert k v).find? k' = some w) (hne : v ≠ w) :
    t.find? k' = some w := by
  rcases find?_insert_eq_some.mp h with ⟨-, e⟩ | ⟨-, h⟩
  · exact absurd e hne
  · exact h

theorem contains_insert_self : (t.insert k v).contains k :=
  Option.isSome_iff_exists.mpr ⟨v, find?_insert_self⟩

theorem find?_insert_new {k' : κ} {v' : α} (h : t.find? k = none) (hk' : t.find? k' = some v') :
    (t.insert k v).find? k' = some v' := by
  rw [find?_insert_of_ne, hk']
  rintro rfl
  rw [h] at hk'
  cases hk'

theorem find?_insert_other {k' : κ} {v₀ v' : α} (hk : t.find? k = some v₀)
    (hk' : t.find? k' = some v') (hne : v₀ ≠ v') : (t.insert k v).find? k' = some v' := by
  rw [find?_insert_of_ne, hk']
  rintro rfl
  exact hne (Option.some.inj (hk.symm.trans hk'))

theorem contains_insert {k' : κ} (h : t.contains k') : (t.insert k v).contains k' := by
  by_cases hk : k = k'
  · subst hk
    exact contains_insert_self
  · rwa [contains_eq, find?_insert_of_ne hk]

theorem keys_insert_new (h : t.find? k = none) (v : α) : (t.insert k v).keys = t.keys ++ [k] := by
  refine (map_fst_insertEntry k v t.entries).trans (if_neg fun hk => ?_)
  obtain ⟨v', hv'⟩ := mem_keys_iff.mp hk
  rw [h] at hv'
  cases hv'

end Table

/-! ## Contexts -/

namespace Context

variable (c : Context) (p : ModulePath) (k : TraceKey)

@[simp, grind =] theorem record_sources : (c.record p k).sources = c.sources := rfl
@[simp, grind =] theorem record_slots : (c.record p k).slots = c.slots := rfl
@[simp, grind =] theorem record_errors : (c.record p k).errors = c.errors := rfl
@[simp, grind =] theorem record_traces : (c.record p k).traces = c.traces.insert k p := rfl

@[simp, grind =] theorem setSlot_sources (slot : Slot) :
    (c.setSlot p slot).sources = c.sources := rfl
@[simp, grind =] theorem setSlot_traces (slot : Slot) : (c.setSlot p slot).traces = c.traces := rfl
@[simp, grind =] theorem setSlot_errors (slot : Slot) : (c.setSlot p slot).errors = c.errors := rfl
@[simp, grind =] theorem setSlot_slots (slot : Slot) :
    (c.setSlot p slot).slots = c.slots.insert p slot := rfl

@[simp, grind =] theorem abandon_sources (e : ImportError) :
    (c.abandon p e).sources = c.sources := rfl
@[simp, grind =] theorem abandon_traces (e : ImportError) : (c.abandon p e).traces = c.traces := rfl
@[simp, grind =] theorem abandon_slots (e : ImportError) :
    (c.abandon p e).slots = c.slots.erase p := rfl
@[simp, grind =] theorem abandon_errors (e : ImportError) :
    (c.abandon p e).errors = c.errors ++ [e] := rfl

theorem foldl_report (es : List ImportError) :
    es.foldl report c = { c with errors := c.errors ++ es } := by
  induction es generalizing c with
  | nil => simp
  | cons e es ih => simp [ih, report]

@[simp, grind =] theorem foldl_report_sources (es : List ImportError) :
    (es.foldl report c).sources = c.sources := by rw [foldl_report]
@[simp, grind =] theorem foldl_report_traces (es : List ImportError) :
    (es.foldl report c).traces = c.traces := by rw [foldl_report]
@[simp, grind =] theorem foldl_report_slots (es : List ImportError) :
    (es.foldl report c).slots = c.slots := by rw [foldl_report]
@[simp, grind =] theorem foldl_report_errors (es : List ImportError) :
    (es.foldl report c).errors = c.errors ++ es := by rw [foldl_report]

theorem foldl_record (ks : List TraceKey) :
    (ks.foldl (fun c k => c.record p k) c).sources = c.sources ∧
      (ks.foldl (fun c k => c.record p k) c).slots = c.slots ∧
      (ks.foldl (fun c k => c.record p k) c).errors = c.errors ∧
      ∀ k, (ks.foldl (fun c k => c.record p k) c).traces.find? k =
        if k ∈ ks then some p else c.traces.find? k := by
  induction ks generalizing c with
  | nil => simp
  | cons k' ks ih =>
    obtain ⟨h₁, h₂, h₃, h₄⟩ := ih (c.record p k')
    refine ⟨h₁, h₂, h₃, fun k => ?_⟩
    rw [List.foldl_cons, h₄, record_traces, Table.find?_insert]
    grind

def queued : List TraceKey :=
  ((c.slots.find? p).map Slot.queued).getD []

theorem queued_of_pending {load : TraceKey} {joined : List TraceKey}
    (h : c.slots.find? p = some (.pending load joined)) : c.queued p = load :: joined := by
  simp [queued, h, Slot.queued]

@[simp, grind =] theorem commit_sources (source : String) (exports : ExportTable) :
    (c.commit p source exports).sources = c.sources.insert p source := by
  simp only [commit, (foldl_record c p _).1]

@[simp, grind =] theorem commit_slots (source : String) (exports : ExportTable) :
    (c.commit p source exports).slots = c.slots.insert p (.ready exports) := by
  simp only [commit, (foldl_record c p _).2.1]

@[simp, grind =] theorem commit_errors (source : String) (exports : ExportTable) :
    (c.commit p source exports).errors = c.errors := by
  simp only [commit, (foldl_record c p _).2.2.1]

@[grind =] theorem commit_traces (source : String) (exports : ExportTable) :
    (c.commit p source exports).traces.find? k =
      if k ∈ c.queued p then some p else c.traces.find? k :=
  (foldl_record c p _).2.2.2 k

end Context

/-! ## Sessions -/

@[grind =]
theorem Load.path_mk (request : FetchRequest) (stage : Stage) :
    (Load.mk request stage).path = request.target := rfl

@[grind =]
theorem Load.target_request (l : Load) : l.request.target = l.path := rfl

@[grind =]
theorem FetchRequest.target_mk (specifier : String) (importer : ModulePath) (root : String) :
    (FetchRequest.mk specifier importer root).target = importer.resolve specifier := rfl

namespace Session

variable (s : Session) (lib : Library) (k : TraceKey) (l : Load)

@[simp, grind =] theorem setStage_loads (st : Stage) :
    (s.setStage k l st).loads = s.loads.insert k { l with stage := st } := rfl
@[simp, grind =] theorem setStage_context (st : Stage) :
    (s.setStage k l st).context = s.context := rfl
@[simp, grind =] theorem setStage_documents (st : Stage) :
    (s.setStage k l st).documents = s.documents := rfl
@[simp, grind =] theorem setStage_supplies (st : Stage) :
    (s.setStage k l st).supplies = s.supplies := rfl
@[simp, grind =] theorem setStage_outstanding (st : Stage) :
    (s.setStage k l st).outstanding = s.outstanding := rfl
@[simp, grind =] theorem setStage_requests (st : Stage) :
    (s.setStage k l st).requests = s.requests := rfl

@[simp, grind =] theorem fail_loads (e : ImportError) :
    (s.fail k l e).loads = s.loads.insert k { l with stage := .ended none } := rfl
@[simp, grind =] theorem fail_context (e : ImportError) :
    (s.fail k l e).context = s.context.abandon l.path e := rfl
@[simp, grind =] theorem fail_documents (e : ImportError) :
    (s.fail k l e).documents = s.documents := rfl
@[simp, grind =] theorem fail_supplies (e : ImportError) :
    (s.fail k l e).supplies = s.supplies := rfl
@[simp, grind =] theorem fail_outstanding (e : ImportError) :
    (s.fail k l e).outstanding = s.outstanding := rfl
@[simp, grind =] theorem fail_requests (e : ImportError) :
    (s.fail k l e).requests = s.requests := rfl

@[simp, grind =] theorem request_loads : (s.request lib k l).loads = s.loads.insert k
    { l with stage := if lib.delay l.path = 0 then .answered else .fetching } := by
  by_cases h : lib.delay l.path = 0 <;> simp [request, h]

@[simp, grind =] theorem request_root : (s.request lib k l).root = s.root := by
  by_cases h : lib.delay l.path = 0 <;> simp [request, h, setStage]

@[simp, grind =] theorem request_context : (s.request lib k l).context = s.context := by
  by_cases h : lib.delay l.path = 0 <;> simp [request, h]

@[simp, grind =] theorem request_documents : (s.request lib k l).documents = s.documents := by
  by_cases h : lib.delay l.path = 0 <;> simp [request, h]

@[simp, grind =] theorem request_supplies : (s.request lib k l).supplies = s.supplies := by
  by_cases h : lib.delay l.path = 0 <;> simp [request, h]

@[simp, grind =] theorem request_requests :
    (s.request lib k l).requests = s.requests ++ [⟨s.clock, l.request⟩] := by
  by_cases h : lib.delay l.path = 0 <;> simp [request, h]

@[simp, grind =] theorem request_outstanding : (s.request lib k l).outstanding =
    if lib.delay l.path = 0 then s.outstanding
    else s.outstanding ++ [(s.clock + lib.delay l.path, k)] := by
  by_cases h : lib.delay l.path = 0 <;> simp [request, h]

end Session

end StyleBundle
