import StyleBundle.Proofs.Resolutions

/-!
# Runs that stall

A run ends after no more answers than there are import rules, whatever the delays. It stalls exactly
when the imports of its entry lead to a module that is reached from itself, and otherwise it
finishes.
-/

namespace StyleBundle

/-! ## Cycles below an entry -/

namespace Library

variable {lib : Library} {entry : Document}

/-- The imports of a document lead to a module that is reached from itself. Only modules that can be
loaded count, and the path of the document itself counts like any other. -/
def Circular (lib : Library) (entry : Document) : Prop :=
  ∃ p ∈ entry.targets, ∃ n, Relation.ReflTransGen lib.Imports p n ∧
    Relation.TransGen lib.Imports n n

theorem acyclic_of_document?_eq_none {p : ModulePath} (h : lib.document? p = none) :
    lib.Acyclic p := by
  have himports : ∀ n, ¬ lib.Imports p n := by
    rintro n ⟨d, -, hd, -⟩
    rw [h] at hd
    cases hd
  intro n hn hc
  rcases Relation.ReflTransGen.cases_head hn with rfl | ⟨m, hm, -⟩
  · obtain ⟨m, hm, -⟩ := Relation.TransGen.head'_iff.mp hc
    exact himports m hm
  · exact himports m hm

theorem not_circular_iff : ¬ lib.Circular entry ↔ lib.Grounded entry := by
  constructor
  · intro h
    refine Acc.intro _ fun e he => Acyclic.grounded (m := e.path) (fun n hn hc => ?_) he.2
    exact h ⟨e.path, he.1, n, hn, hc⟩
  · rintro h ⟨p, hp, n, hn, hc⟩
    cases hdoc : lib.document? p with
    | none => exact acyclic_of_document?_eq_none hdoc n hn hc
    | some e =>
      have hneeds : lib.Needs entry e := ⟨path_of_document? hdoc ▸ hp, document?_path hdoc⟩
      exact (h.needs hneeds).acyclic hdoc n hn hc

end Library

/-! ## The end of a run -/

namespace Session

variable {lib : Library} {entry : Document} {initial : List Fetched} {s t u : Session} {m n : Nat}

/-- The run from `s` ends in `t` after `n` answers have arrived. -/
inductive Ends (lib : Library) (entry : Document) : Session → Nat → Session → Prop
  | finished {s : Session} : ((s.turn lib entry).endings? .root entry).isSome →
      Ends lib entry s 0 (s.turn lib entry)
  /-- No answer is outstanding, and some import of the entry has not ended. -/
  | stalled {s : Session} : (s.turn lib entry).endings? .root entry = none →
      (s.turn lib entry).arrive? = none → Ends lib entry s 0 (s.turn lib entry)
  | answered {s t u : Session} {n : Nat} : (s.turn lib entry).endings? .root entry = none →
      (s.turn lib entry).arrive? = some t → Ends lib entry t n u → Ends lib entry s (n + 1) u

theorem ends_of_run? (h : s.run? lib entry n = some t) : ∃ m ≤ n, Ends lib entry s m t := by
  induction n generalizing s with
  | zero =>
    rw [run?_eq] at h
    split at h
    · next hend =>
      cases h
      exact ⟨0, Nat.le_refl 0, .finished hend⟩
    · next hend =>
      split at h
      · next harr =>
        cases h
        exact ⟨0, Nat.le_refl 0, .stalled (Option.not_isSome_iff_eq_none.mp hend) harr⟩
      · cases h
      · next hn _ => cases hn
  | succ n ih =>
    rw [run?_eq] at h
    split at h
    · next hend =>
      cases h
      exact ⟨0, Nat.zero_le _, .finished hend⟩
    · next hend =>
      have hnone := Option.not_isSome_iff_eq_none.mp hend
      split at h
      · next harr =>
        cases h
        exact ⟨0, Nat.zero_le _, .stalled hnone harr⟩
      · cases h
      · next hn harr =>
        cases hn
        obtain ⟨m, hm, hends⟩ := ih h
        exact ⟨m + 1, Nat.succ_le_succ hm, .answered hnone harr hends⟩

/-- A run ends, whether or not its imports go in a circle: each answer lands one more load, and
there are no more loads than imports. -/
theorem Reached.exists_run? (h : s.Reached lib entry initial)
    (hn : entry.sheet.imports.length + lib.totalImports ≤ s.landed.length + n) :
    ∃ t, s.run? lib entry n = some t := by
  induction n generalizing s with
  | zero =>
    rw [run?_eq]
    split
    · exact ⟨_, rfl⟩
    · cases harr : (s.turn lib entry).arrive? with
      | none => exact ⟨_, rfl⟩
      | some t =>
        obtain ⟨ht, hlt⟩ := h.lands harr
        have hbound := ht.wired.length_landed_le
        omega
  | succ n ih =>
    rw [run?_eq]
    split
    · exact ⟨_, rfl⟩
    · cases harr : (s.turn lib entry).arrive? with
      | none => exact ⟨_, rfl⟩
      | some t =>
        obtain ⟨ht, hlt⟩ := h.lands harr
        exact ih ht (by omega)

end Session

/-! ## Entries -/

namespace Resolver

variable {r : Resolver} {entry : Document} {clock : Nat} {initial : List Fetched} {run : Run}

/-- The run resolves the document `entry`, from the time `clock` on and after the requests
`initial`: it fetched its entry, or its entry was given. -/
inductive Resolves (r : Resolver) : Document → Nat → List Fetched → Run → Prop
  | entry {specifier : String} {entry : Document} :
      r.library.document? (entryPath specifier) = some entry →
      Resolves r entry (r.library.delay (entryPath specifier)) (r.entryRequest specifier)
        (r.resolveEntry specifier)
  | source {path : ModulePath} {text : String} {sheet : Stylesheet} :
      Stylesheet.parse text = .ok sheet →
      Resolves r ⟨path, sheet⟩ 0 [] (r.resolveSource path text)

theorem Resolves.run_eq (h : r.Resolves entry clock initial run) :
    run = match (r.start clock initial).run? r.library entry (r.maxAnswers entry) with
      | none => ⟨.ok .stalled, initial⟩
      | some s => ⟨.ok (finish s entry), s.requests⟩ := by
  cases h with
  | entry hdoc => exact resolveEntry_of_some hdoc
  | source hparse =>
    unfold resolveSource resolveFrom
    split
    · next he => cases hparse.symm.trans he
    · next he =>
      cases hparse.symm.trans he
      rfl

theorem Resolves.exists_ends (h : r.Resolves entry clock initial run) :
    ∃ n ≤ r.maxAnswers entry, ∃ t, (r.start clock initial).Ends r.library entry n t ∧
      Session.Evolves r.library entry (r.start clock initial) t ∧
      run = ⟨.ok (finish t entry), t.requests⟩ := by
  have hstart : (r.start clock initial).Reached r.library entry initial := .start r clock
  obtain ⟨t, hrun⟩ := hstart.exists_run? (n := r.maxAnswers entry) (Nat.le_add_left ..)
  obtain ⟨n, hn, hends⟩ := Session.ends_of_run? hrun
  refine ⟨n, hn, t, hends, hstart.evolves_turn.trans (hstart.run? hrun), ?_⟩
  rw [h.run_eq, hrun]

theorem Resolves.exists_finished (h : r.Resolves entry clock initial run) {res : Resolution}
    (hres : run.answer = .ok (.finished res)) : ∃ (t : Session) (loaded : _),
      Session.Evolves r.library entry (r.start clock initial) t ∧
      t.Complete r.library entry initial loaded ∧
      run = ⟨.ok (finish t entry), t.requests⟩ := by
  have hstart : (r.start clock initial).Reached r.library entry initial := .start r clock
  obtain ⟨-, -, t, -, he, rfl⟩ := h.exists_ends
  cases hend : t.endings? .root entry with
  | none => simp [finish, hend] at hres
  | some loaded => exact ⟨t, loaded, he, ⟨hstart.evolves he, hend⟩, rfl⟩

theorem Resolves.finishes_iff (h : r.Resolves entry clock initial run) :
    (∃ res, run.answer = .ok (.finished res)) ↔ r.library.Grounded entry := by
  constructor
  · rintro ⟨res, hres⟩
    obtain ⟨t, loaded, -, hc, -⟩ := h.exists_finished hres
    exact hc.grounded
  · intro hg
    have hstart : (r.start clock initial).Reached r.library entry initial := .start r clock
    obtain ⟨t, hrun, hend⟩ := hstart.finishes hg (n := r.maxAnswers entry) (Nat.le_add_left ..)
    obtain ⟨loaded, hend⟩ := Option.isSome_iff_exists.mp hend
    rw [h.run_eq, hrun]
    exact ⟨_, congrArg Except.ok (Session.finish_eq hend)⟩

theorem finish_cases (s : Session) (entry : Document) :
    finish s entry = .stalled ∨ ∃ res, finish s entry = .finished res := by
  unfold finish
  split
  · exact .inl rfl
  · exact .inr ⟨_, rfl⟩

/-- A run ends after finitely many answers, no more than there are import rules. It stalls exactly
when the imports of its entry lead to a cycle, and finishes otherwise. -/
theorem stalled_iff_circular (h : r.Resolves entry clock initial run) :
    (∃ n ≤ r.maxAnswers entry, ∃ t, (r.start clock initial).Ends r.library entry n t ∧
      run = ⟨.ok (finish t entry), t.requests⟩) ∧
    (run.answer = .ok .stalled ↔ r.library.Circular entry) ∧
    (¬ r.library.Circular entry → ∃ res, run.answer = .ok (.finished res)) := by
  obtain ⟨n, hn, t, hends, -, hrun⟩ := h.exists_ends
  have hfinishes := h.finishes_iff
  rw [← Library.not_circular_iff] at hfinishes
  refine ⟨⟨n, hn, t, hends, hrun⟩, ⟨fun hs => ?_, fun hc => ?_⟩, hfinishes.mpr⟩
  · by_contra hc
    obtain ⟨res, hres⟩ := hfinishes.mpr hc
    cases hs.symm.trans hres
  · rcases finish_cases t entry with hs | ⟨res, hres⟩
    · rw [hrun, hs]
    · exact absurd hc (hfinishes.mp ⟨res, by rw [hrun, hres]⟩)

/-! ## An example -/

/-- The entry `e` imports `x`, which is missing, and `a`, which imports the entry. -/
def circle : Resolver where
  library := { texts := .ofList [
    (entryPath "e", ":import(\"x\")\x7b\x7d:import(\"a\")\x7b\x7d"),
    (entryPath "a", ":import(\"e\")\x7b\x7d")] }
  root := "."

def circleEntry : Document :=
  (circle.library.document? (entryPath "e")).get (by decide +kernel)

theorem document?_circleEntry :
    circle.library.document? (entryPath "e") = some circleEntry :=
  (Option.some_get _).symm

theorem circular_circle : circle.library.Circular circleEntry := by
  let a := (circle.library.document? (entryPath "a")).get (by decide +kernel)
  have ha : circle.library.document? (entryPath "a") = some a := (Option.some_get _).symm
  have hea : circle.library.Imports (entryPath "e") (entryPath "a") :=
    ⟨circleEntry, a, document?_circleEntry, ha, by decide +kernel, Library.document?_path ha⟩
  have hae : circle.library.Imports (entryPath "a") (entryPath "e") :=
    ⟨a, circleEntry, ha, document?_circleEntry, by decide +kernel,
      Library.document?_path document?_circleEntry⟩
  exact ⟨entryPath "a", by decide +kernel, _, .refl, .head hae (.single hea)⟩

theorem circle_stalled : (circle.resolveEntry "e").answer = .ok .stalled :=
  (stalled_iff_circular (.entry document?_circleEntry)).2.1.mpr circular_circle

end Resolver

end StyleBundle
