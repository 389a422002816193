import StyleBundle.Proofs.Resolutions

/-!
# Polls of bounded depth

A turn whose loads poll each other no deeper than some bound can be computed by recursion on the
bound. What it computes is the turn.
-/

namespace StyleBundle

namespace Session

variable {lib : Library} {entry : Document} {active : List ModulePath} {s t : Session}

/-- Polls the import at `e.1`, where `poll` polls loads. -/
def pollImportWith (poll : Session → TraceKey → Option Session) (file : ModulePath) (s : Session)
    (e : TraceKey × ImportRule) : Option Session :=
  let s := s.claimImport file e.1 e.2
  match s.supplies.find? e.1 with
  | some (.load load) => poll s load
  | _ => some s

/-- Polls the load at `key`; none when loads poll each other `depth` deep. -/
def pollLoadWithin (lib : Library) :
    Nat → List ModulePath → Session → TraceKey → Option Session
  | 0, _, _, _ => none
  | depth + 1, active, s, key =>
    let s := s.advance lib key
    match s.linking? key with
    | none => some s
    | some d =>
      if d.path ∈ lib.texts.keys ∧ d.path ∉ active then
        ((d.imports key).foldlM
          (pollImportWith (pollLoadWithin lib depth (d.path :: active)) d.path) s).map
            (Session.conclude · key)
      else
        some s

def turnWithin (lib : Library) (entry : Document) (depth : Nat) (s : Session) : Option Session :=
  (entry.imports .root).foldlM (pollImportWith (pollLoadWithin lib depth []) entry.path) s

theorem pollImports_eq_of_foldlM {poll : Session → TraceKey → Option Session}
    (hpoll : ∀ {s t key}, poll s key = some t → s.pollLoad lib active key = t)
    {file : ModulePath} {imports : List (TraceKey × ImportRule)}
    (h : imports.foldlM (pollImportWith poll file) s = some t) :
    s.pollImports lib active file imports = t := by
  induction imports generalizing s with
  | nil =>
    rw [pollImports]
    exact Option.some.inj h
  | cons e imports ih =>
    rw [List.foldlM_cons] at h
    obtain ⟨u, hu, h⟩ := Option.bind_eq_some_iff.mp h
    rw [← ih h, pollImports]
    unfold pollImportWith at hu
    cases hsup : (s.claimImport file e.1 e.2).supplies.find? e.1 with
    | none =>
      simp only [hsup, Option.some.injEq] at hu ⊢
      rw [hu]
    | some supply =>
      cases supply with
      | exports exports =>
        simp only [hsup, Option.some.injEq] at hu ⊢
        rw [hu]
      | load load =>
        simp only [hsup] at hu ⊢
        rw [hpoll hu]

theorem pollLoad_eq_of_within {depth : Nat} {key : TraceKey}
    (h : pollLoadWithin lib depth active s key = some t) : s.pollLoad lib active key = t := by
  induction depth generalizing active s t key with
  | zero => cases h
  | succ depth ih =>
    rw [pollLoadWithin] at h
    rw [pollLoad]
    cases hlinking : (s.advance lib key).linking? key with
    | none =>
      simp only [hlinking, Option.some.injEq] at h ⊢
      exact h
    | some d =>
      simp only [hlinking] at h ⊢
      by_cases hd : d.path ∈ lib.texts.keys ∧ d.path ∉ active
      · rw [if_pos hd] at h
        obtain ⟨u, hu, rfl⟩ := Option.map_eq_some_iff.mp h
        rw [dif_pos hd, pollImports_eq_of_foldlM ih hu]
      · rw [if_neg hd] at h
        rw [dif_neg hd]
        exact Option.some.inj h

theorem turn_eq_of_within {depth : Nat} (h : s.turnWithin lib entry depth = some t) :
    s.turn lib entry = t :=
  pollImports_eq_of_foldlM pollLoad_eq_of_within h

theorem run?_eq_of_within {depth n : Nat} (h : s.turnWithin lib entry depth = some t)
    (hend : (t.endings? .root entry).isSome ∨ t.arrive? = none) :
    s.run? lib entry n = some t := by
  rw [run?_eq, turn_eq_of_within h]
  split
  · rfl
  · next hnone =>
    rw [hend.resolve_left hnone]

theorem finish_eq_of_pairwise {loaded : List (Option ExportTable)}
    (hend : s.endings? .root entry = some loaded)
    (hsorted : (s.traces entry).entries.Pairwise fun a b => compare a.1 b.1 != .gt) :
    Resolver.finish s entry =
      let linked := entry.sheet.link entry.path loaded
      let assembly := Assembly.ofList (s.traces entry).values (s.sources entry linked.source)
      .finished {
        source := assembly.source
        exports := linked.exports
        order := assembly.order
        errors := s.context.errors ++ linked.errors } := by
  rw [finish_eq hend, resolution, bundle, Assembly.ofTables_of_pairwise hsorted]

end Session

namespace Resolver

/-- The resolution of an entry of which no answer has to be waited for. -/
theorem resolveEntry_eq_of_within {r : Resolver} {specifier : String} {entry : Document}
    {s : Session} {depth : Nat} (hdoc : r.library.document? (entryPath specifier) = some entry)
    (h : (r.begin specifier).turnWithin r.library entry depth = some s)
    (hend : (s.endings? .root entry).isSome ∨ s.arrive? = none) :
    r.resolveEntry specifier = ⟨.ok (finish s entry), s.requests⟩ := by
  rw [resolveEntry_of_some hdoc, Session.run?_eq_of_within h hend]

/-- The resolution of an entry whose imports end in one turn, when the trace keys are recorded in
order. -/
def resolutionWithin? (r : Resolver) (specifier : String) (depth : Nat) : Option Resolution := do
  let entry ← r.library.document? (entryPath specifier)
  let s ← (r.begin specifier).turnWithin r.library entry depth
  let loaded ← s.endings? .root entry
  let linked := entry.sheet.link entry.path loaded
  let assembly := Assembly.ofList (s.traces entry).values (s.sources entry linked.source)
  if (s.traces entry).entries.Pairwise fun a b => compare a.1 b.1 != .gt then
    some {
      source := assembly.source
      exports := linked.exports
      order := assembly.order
      errors := s.context.errors ++ linked.errors }
  else
    none

theorem answer_eq_of_within {r : Resolver} {specifier : String} {depth : Nat} {res : Resolution}
    (h : r.resolutionWithin? specifier depth = some res) :
    (r.resolveEntry specifier).answer = .ok (.finished res) := by
  obtain ⟨entry, hdoc, h⟩ := Option.bind_eq_some_iff.mp h
  obtain ⟨s, hturn, h⟩ := Option.bind_eq_some_iff.mp h
  obtain ⟨loaded, hend, h⟩ := Option.bind_eq_some_iff.mp h
  obtain ⟨hsorted, h⟩ := Option.ite_none_right_eq_some.mp h
  cases h
  rw [resolveEntry_eq_of_within hdoc hturn (.inl (Option.isSome_iff_exists.mpr ⟨_, hend⟩)),
    Session.finish_eq_of_pairwise hend hsorted]

end Resolver

end StyleBundle
