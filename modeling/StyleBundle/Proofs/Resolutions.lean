import StyleBundle.Proofs.Completion

/-!
# Resolving an entry

An entry that cannot be had is the only cause of a failure. Otherwise the run starts from an empty
session, and what it answers, if it ends, is read off a complete one.
-/

namespace StyleBundle.Resolver

variable {r : Resolver} {specifier : String} {entry : Document}

def entryPath (specifier : String) : ModulePath :=
  ModulePath.root.resolve specifier

def entryRequest (r : Resolver) (specifier : String) : List Fetched :=
  [⟨0, ⟨specifier, .root, r.root⟩⟩]

def begin (r : Resolver) (specifier : String) : Session :=
  r.start (r.library.delay (entryPath specifier)) (r.entryRequest specifier)

theorem resolveEntry_of_none (h : r.library.document? (entryPath specifier) = none) :
    (∃ cause, r.library.answer (entryPath specifier) = .error cause ∧
      (r.resolveEntry specifier).answer =
        .error (.entryFetchFailed (entryPath specifier) cause)) ∨
    ∃ text cause, r.library.answer (entryPath specifier) = .ok text ∧
      Stylesheet.parse text = .error cause ∧ (r.resolveEntry specifier).answer =
        .error (.entryParseFailed (entryPath specifier) text cause) := by
  cases ha : r.library.answer (entryPath specifier) with
  | error cause =>
    unfold entryPath at ha
    exact .inl ⟨cause, rfl, by simp only [resolveEntry, FetchRequest.target_mk, ha, entryPath]⟩
  | ok text =>
    cases hp : Stylesheet.parse text with
    | error cause =>
      unfold entryPath at ha
      exact .inr ⟨text, cause, rfl, hp, by
        simp only [resolveEntry, resolveFrom, FetchRequest.target_mk, ha, hp, entryPath]⟩
    | ok sheet => simp [Library.document?, Library.sheet?, ha, hp, Except.toOption] at h

theorem resolveEntry_of_some (h : r.library.document? (entryPath specifier) = some entry) :
    r.resolveEntry specifier =
      match (r.begin specifier).run? r.library entry (r.maxAnswers entry) with
      | none => ⟨.ok .stalled, r.entryRequest specifier⟩
      | some s => ⟨.ok (finish s entry), s.requests⟩ := by
  obtain ⟨sheet, hs, rfl⟩ := Option.map_eq_some_iff.mp h
  obtain ⟨text, ht, hp⟩ := Library.sheet?_eq_some_iff.mp hs
  have ht' : r.library.answer (ModulePath.root.resolve specifier) = .ok text := ht
  simp only [resolveEntry, resolveFrom, FetchRequest.target_mk, ht', hp]
  rfl

theorem reached_begin (r : Resolver) (specifier : String) (entry : Document) :
    (r.begin specifier).Reached r.library entry (r.entryRequest specifier) :=
  .start r _

theorem finished_cases {res : Resolution}
    (h : (r.resolveEntry specifier).answer = .ok (.finished res)) :
    ∃ entry s loaded, r.library.document? (entryPath specifier) = some entry ∧
      (r.begin specifier).run? r.library entry (r.maxAnswers entry) = some s ∧
      s.Complete r.library entry (r.entryRequest specifier) loaded ∧
      (r.resolveEntry specifier).requests = s.requests ∧
      ∃ hg, res = s.resolution entry (r.library.eval entry hg) := by
  cases hdoc : r.library.document? (entryPath specifier) with
  | none =>
    rcases resolveEntry_of_none hdoc with ⟨_, -, he⟩ | ⟨_, _, -, -, he⟩ <;>
      cases he.symm.trans h
  | some entry =>
    rw [resolveEntry_of_some hdoc] at h ⊢
    cases hrun : (r.begin specifier).run? r.library entry (r.maxAnswers entry) with
    | none => simp [hrun] at h
    | some s =>
      simp only [hrun, Except.ok.injEq] at h
      cases hend : s.endings? .root entry with
      | none => simp [finish, hend] at h
      | some loaded =>
        have hs := r.reached_begin specifier entry
        have hc : s.Complete r.library entry (r.entryRequest specifier) loaded :=
          ⟨hs.turn.evolves (hs.run? hrun), hend⟩
        obtain ⟨hg, heval⟩ := hc.link_eq_eval
        rw [Session.finish_eq hend, heval] at h
        cases h
        exact ⟨entry, s, loaded, rfl, hrun, hc, rfl, hg, rfl⟩

theorem finishes (hdoc : r.library.document? (entryPath specifier) = some entry)
    (hg : r.library.Grounded entry) :
    ∃ s loaded, (r.begin specifier).run? r.library entry (r.maxAnswers entry) = some s ∧
      s.Complete r.library entry (r.entryRequest specifier) loaded ∧
      (r.resolveEntry specifier).answer =
        .ok (.finished (s.resolution entry (r.library.eval entry hg))) := by
  have hs := r.reached_begin specifier entry
  obtain ⟨s, hrun, hend⟩ := hs.finishes hg (Nat.le_add_left (r.maxAnswers entry) _)
  obtain ⟨loaded, hend⟩ := Option.isSome_iff_exists.mp hend
  have hc : s.Complete r.library entry (r.entryRequest specifier) loaded :=
    ⟨hs.turn.evolves (hs.run? hrun), hend⟩
  obtain ⟨hg', heval⟩ := hc.link_eq_eval
  refine ⟨s, loaded, hrun, hc, ?_⟩
  rw [resolveEntry_of_some hdoc]
  simp only [hrun, Session.finish_eq hend, heval]

/-! ## An example -/

/-- The entry `e` imports `a` and `m`, `a` imports `m` too, and `m` imports `n`. -/
def detour : Resolver where
  library := { texts := .ofList [
    (⟨["e"], by decide⟩, ":import(\"a\")\x7b\x7d:import(\"m\")\x7b\x7d.e\x7b\x7d"),
    (⟨["a"], by decide⟩, ":import(\"m\")\x7b\x7d.a\x7b\x7d"),
    (⟨["m"], by decide⟩, ":import(\"n\")\x7b\x7d.m\x7b\x7d"),
    (⟨["n"], by decide⟩, ".n\x7b\x7d")] }
  root := "."

theorem detour_acyclic (m : ModulePath) : detour.library.Acyclic m :=
  Library.acyclic_of_rank (detour.library.texts.keys.reverse.idxOf ·) (by decide +kernel) m

def detourEntry : Document :=
  (detour.library.document? (entryPath "e")).get (by decide +kernel)

theorem document?_detourEntry :
    detour.library.document? (entryPath "e") = some detourEntry :=
  (Option.some_get _).symm

/-- The positions of the tree below the entry of `detour`. -/
def detourChart : List (TraceKey × ModulePath) :=
  [(⟨[]⟩, ⟨["e"], by decide⟩), (⟨[0]⟩, ⟨["a"], by decide⟩), (⟨[0, 0]⟩, ⟨["m"], by decide⟩),
    (⟨[0, 0, 0]⟩, ⟨["n"], by decide⟩), (⟨[1]⟩, ⟨["m"], by decide⟩),
    (⟨[1, 0]⟩, ⟨["n"], by decide⟩)]

theorem charts_detour : detour.library.Charts detourEntry detourChart :=
  Library.charts_of (Library.document?_path document?_detourEntry) (by decide +kernel)
    (by decide +kernel) (by decide +kernel)

end StyleBundle.Resolver
