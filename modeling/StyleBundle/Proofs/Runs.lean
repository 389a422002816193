import Mathlib.Data.List.Nodup
import Mathlib.Data.List.Perm.Subperm
import StyleBundle.Proofs.Ages
import StyleBundle.Proofs.Reports
import StyleBundle.Proofs.Settled

/-!
# Runs

Every session that a run passes through keeps all the invariants, in whatever order the answers
arrive. Each answer that arrives lands one more load, and there are no more loads than imports, so a
run whose imports do not go in a circle ends with all imports of the entry ended.
-/

namespace StyleBundle.Session

variable {lib : Library} {entry : Document} {active : List ModulePath} {initial : List Fetched}
  {s t : Session}

/-! ## Reached sessions -/

/-- What holds of every session of a run that starts after the requests `initial`. -/
structure Reached (lib : Library) (entry : Document) (initial : List Fetched) (s : Session) :
    Prop where
  wired : s.Wired lib entry
  awaited : s.Awaited lib
  requested : s.Requested initial entry
  faithful : s.Faithful lib
  reported : s.Reported lib
  aged : s.Aged lib entry

namespace Reached

theorem start (r : Resolver) (clock : Nat) :
    (r.start clock initial).Reached lib entry initial where
  wired := .start r clock initial
  awaited := .start r clock initial
  requested := .start r clock
  faithful := .start r clock initial
  reported := .start r clock initial
  aged := .start r clock initial

theorem move (h : s.Reached lib entry initial) (hm : Move lib entry active s t) :
    t.Reached lib entry initial where
  wired := h.wired.move hm
  awaited := h.awaited.move h.wired hm
  requested := h.requested.move h.wired hm
  faithful := h.faithful.move h.wired hm
  reported := h.reported.move h.faithful h.wired hm
  aged := h.aged.move h.wired hm

theorem arrival (h : s.Reached lib entry initial) (ha : Arrival s t) :
    t.Reached lib entry initial where
  wired := h.wired.arrival ha
  awaited := h.awaited.arrival ha
  requested := h.requested.arrival ha
  faithful := h.faithful.arrival ha
  reported := h.reported.arrival ha
  aged := h.aged.arrival ha

theorem moves (h : s.Reached lib entry initial) (hm : Moves lib entry active s t) :
    t.Reached lib entry initial := by
  induction hm with
  | refl => exact h
  | tail _ hm ih => exact ih.move hm

theorem evolves (h : s.Reached lib entry initial) (he : Evolves lib entry s t) :
    t.Reached lib entry initial := by
  induction he with
  | refl => exact h
  | move _ hm ih => exact ih.move hm
  | arrive _ ha ih => exact ih.arrival ha

/-- Nothing that a session has settled is taken back. -/
theorem later (h : s.Reached lib entry initial) (he : Evolves lib entry s t) :
    Later [] s t := by
  induction he with
  | refl => exact .refl s
  | move he hm ih => exact ih.trans (hm.later (h.evolves he).wired)
  | arrive _ ha ih => exact ih.trans ha.later

theorem turn (h : s.Reached lib entry initial) : (s.turn lib entry).Reached lib entry initial :=
  h.moves (turn_moves h.wired).1

end Reached

/-! ## The number of answers -/

/-- The loads whose answers have been taken in or need not be waited for. -/
def landed (s : Session) : List TraceKey :=
  s.loads.keys.filter fun k => (s.loads.find? k).any fun l =>
    l.stage ≠ .queued ∧ l.stage ≠ .fetching

theorem mem_landed_iff {k : TraceKey} : k ∈ s.landed ↔
    ∃ l, s.loads.find? k = some l ∧ l.stage ≠ .queued ∧ l.stage ≠ .fetching := by
  simp only [landed, List.mem_filter, Table.mem_keys_iff, Option.any_eq_true,
    decide_eq_true_eq]
  exact ⟨fun h => h.2, fun ⟨l, hl, h⟩ => ⟨⟨l, hl⟩, l, hl, h⟩⟩

theorem nodup_landed : s.landed.Nodup :=
  List.Nodup.filter _ s.loads.nodup

theorem Move.landed (h : s.Wired lib entry) (hm : Move lib entry active s t) :
    s.landed ⊆ t.landed := by
  intro k hk
  obtain ⟨l, hl, hq, hf⟩ := mem_landed_iff.mp hk
  rw [mem_landed_iff]
  cases hm with
  | hit | join => exact ⟨l, hl, hq, hf⟩
  | start ha _ =>
    have := h.not_started ha.fresh
    grind
  | request => grind
  | refuse => grind
  | accept => grind
  | conclude => grind

theorem Moves.landed (h : s.Wired lib entry) (hm : Moves lib entry active s t) :
    s.landed ⊆ t.landed := by
  induction hm with
  | refl => exact List.Subset.refl _
  | tail hms hm ih => exact List.Subset.trans ih (hm.landed (Moves.wired h hms))

theorem Arrival.landed (ha : Arrival s t) : s.landed.length < t.landed.length := by
  obtain ⟨-, hl, hst⟩ := ha
  next k l due =>
  have hk : k ∉ s.landed := fun hk => by
    obtain ⟨l', hl', -, hf⟩ := mem_landed_iff.mp hk
    cases hl.symm.trans hl'
    exact hf hst
  refine (List.subperm_of_subset (List.nodup_cons.mpr ⟨hk, nodup_landed⟩) ?_).length_le
  refine List.cons_subset.mpr ⟨mem_landed_iff.mpr ?_, fun k' hk' => mem_landed_iff.mpr ?_⟩
  · exact ⟨{ l with stage := .answered }, by simp [Table.find?_insert], by simp, by simp⟩
  · obtain ⟨l', hl', hq, hf⟩ := mem_landed_iff.mp hk'
    exact ⟨l', by grind, hq, hf⟩

theorem Wired.opened_inj (h : s.Wired lib entry) {k k' : TraceKey} {d d' : Document}
    (hd : s.documents.find? k = some d) (hd' : s.documents.find? k' = some d')
    (hp : d.path = d'.path) : k = k' := by
  obtain ⟨l, hl, hdoc, hopen⟩ := h.opened hd
  obtain ⟨l', hl', hdoc', hopen'⟩ := h.opened hd'
  have hpath : l.path = l'.path := by
    rw [← Library.path_of_document? hdoc, ← Library.path_of_document? hdoc', hp]
  exact h.load_unique hl hl' (Stage.ne_failed_of_isOpen hopen)
    (Stage.ne_failed_of_isOpen hopen') hpath

/-- Different members of a list hold no more together than all of its members do. -/
theorem length_flatMap_le_of_subset {α β : Type} {l₁ l₂ : List α} (f : α → List β)
    (h : l₁.Nodup) (hs : l₁ ⊆ l₂) : (l₁.flatMap f).length ≤ (l₂.flatMap f).length := by
  obtain ⟨l, hp, hl⟩ := List.subperm_of_subset h hs
  rw [← (hp.flatMap_right f).length_eq]
  exact (hl.flatMap f).length_le

theorem Wired.length_imports_le (h : s.Wired lib entry) :
    (s.documents.entries.flatMap fun e => e.2.sheet.imports).length ≤ lib.totalImports := by
  let f (p : ModulePath) : List ImportRule :=
    ((lib.texts.find? p).map Library.importRules).getD []
  have hdoc : ∀ e ∈ s.documents.entries, lib.document? e.2.path = some e.2 := fun e he => by
    obtain ⟨l, -, hdoc, -⟩ := h.opened (Table.find?_eq_some_iff.mpr he)
    exact Library.document?_path hdoc
  have hbrought : s.documents.entries.flatMap (fun e => e.2.sheet.imports) =
      (s.documents.entries.map (·.2.path)).flatMap f := by
    rw [List.flatMap_map]
    refine List.flatMap_congr fun e he => ?_
    obtain ⟨sheet, hs, hsheet⟩ := Option.map_eq_some_iff.mp (hdoc e he)
    obtain ⟨text, ht, hp⟩ := Library.sheet?_eq_some_iff.mp hs
    rw [← hsheet] at ht ⊢
    simp only [f, Library.answer_eq_ok_iff.mp ht, Option.map_some, Option.getD_some,
      Library.importRules, hp]
  have htexts : lib.texts.values.flatMap Library.importRules = lib.texts.keys.flatMap f := by
    rw [Table.values, Table.keys, List.flatMap_map, List.flatMap_map]
    refine List.flatMap_congr fun e he => ?_
    simp only [f, Table.find?_eq_some_iff.mpr he, Option.map_some, Option.getD_some]
  rw [Library.totalImports, hbrought, htexts]
  refine length_flatMap_le_of_subset f ?_ ?_
  · refine List.Nodup.map_on (fun e he e' he' hp => ?_) (List.Nodup.of_map _ s.documents.nodup)
    have hk := h.opened_inj (Table.find?_eq_some_iff.mpr he) (Table.find?_eq_some_iff.mpr he') hp
    exact List.inj_on_of_nodup_map s.documents.nodup he he' hk
  · intro p hp
    obtain ⟨e, he, rfl⟩ := List.mem_map.mp hp
    exact Library.mem_keys_of_document? (hdoc e he)

theorem Wired.length_landed_le (h : s.Wired lib entry) :
    s.landed.length ≤ entry.sheet.imports.length + lib.totalImports := by
  let asking := (entry.imports .root).map Prod.fst ++
    s.documents.entries.flatMap fun e => (e.2.imports e.1).map Prod.fst
  have hmem : ∀ {k : TraceKey} {d : Document} {i r}, d.sheet.imports[i]? = some r →
      k.child i ∈ (d.imports k).map Prod.fst := by
    intro k d i r hr
    refine List.mem_map.mpr ⟨(k.child i, r), List.mem_of_getElem? (i := i) ?_, rfl⟩
    rw [Document.imports_getElem?, hr]
    rfl
  have hsub : s.landed ⊆ asking := by
    intro k hk
    obtain ⟨l, hl, -⟩ := mem_landed_iff.mp hk
    obtain ⟨k', d, i, r, hd, hr, rfl⟩ := h.holder (h.starts hl)
    rcases hd with ⟨rfl, rfl⟩ | hd
    · exact List.mem_append_left _ (hmem hr)
    · refine List.mem_append_right _ (List.mem_flatMap.mpr ⟨(k', d), ?_, hmem hr⟩)
      exact Table.find?_eq_some_iff.mp hd
  have hlen := (List.subperm_of_subset nodup_landed hsub).length_le
  have hsum := h.length_imports_le
  rw [List.length_flatMap] at hsum
  simp only [asking, List.length_append, List.length_map, List.length_flatMap,
    Document.length_imports] at hlen
  omega

/-! ## The end of a run -/

theorem run?_eq (lib : Library) (entry : Document) (n : Nat) (s : Session) :
    s.run? lib entry n =
      if ((s.turn lib entry).endings? .root entry).isSome then some (s.turn lib entry)
      else
        match n, (s.turn lib entry).arrive? with
        | _, none => some (s.turn lib entry)
        | 0, some _ => none
        | n + 1, some t => t.run? lib entry n :=
  run?.eq_def lib entry n s

theorem Evolves.trans {u : Session} (h₁ : Evolves lib entry s t) (h₂ : Evolves lib entry t u) :
    Evolves lib entry s u := by
  induction h₂ with
  | refl => exact h₁
  | move _ hm ih => exact ih.move hm
  | arrive _ ha ih => exact ih.arrive ha

theorem Moves.evolves (hm : Moves lib entry [] s t) : Evolves lib entry s t := by
  induction hm with
  | refl => exact .refl
  | tail _ hm ih => exact ih.move hm

theorem Reached.evolves_turn (h : s.Reached lib entry initial) :
    Evolves lib entry s (s.turn lib entry) :=
  Moves.evolves (turn_moves h.wired).1

/-- The session in which a run ends is one that the first turn can become. -/
theorem Reached.run? (h : s.Reached lib entry initial) {n : Nat}
    (hr : s.run? lib entry n = some t) : Evolves lib entry (s.turn lib entry) t := by
  induction n generalizing s with
  | zero =>
    rw [run?_eq] at hr
    split at hr
    · cases hr
      exact .refl
    · split at hr
      · cases hr
        exact .refl
      · cases hr
      · next hn _ => cases hn
  | succ n ih =>
    rw [run?_eq] at hr
    split at hr
    · cases hr
      exact .refl
    · split at hr
      · cases hr
        exact .refl
      · cases hr
      · next hn harr =>
        cases hn
        have ha := h.turn.awaited.arrive harr
        have h' := h.turn.arrival ha
        exact ((Evolves.refl.arrive ha).trans h'.evolves_turn).trans (ih h' hr)

theorem Reached.lands (h : s.Reached lib entry initial)
    (ht : (s.turn lib entry).arrive? = some t) :
    t.Reached lib entry initial ∧ s.landed.length < t.landed.length := by
  have ha := h.turn.awaited.arrive ht
  have hle := (List.subperm_of_subset nodup_landed
    (Moves.landed h.wired (turn_moves h.wired).1)).length_le
  exact ⟨h.turn.arrival ha, lt_of_le_of_lt hle ha.landed⟩

/-- After a turn with which a run does not end, an answer arrives that lands one more load. -/
theorem Reached.answers (h : s.Reached lib entry initial) (hg : lib.Grounded entry)
    (hend : ¬((s.turn lib entry).endings? .root entry).isSome) :
    ∃ t, (s.turn lib entry).arrive? = some t ∧ t.Reached lib entry initial ∧
      s.landed.length < t.landed.length := by
  obtain ⟨t, ht⟩ := arrive?_turn h.wired h.turn.awaited hg
    (Option.not_isSome_iff_eq_none.mp hend)
  exact ⟨t, ht, h.lands ht⟩

/-- A run whose imports do not go in a circle ends with all imports of the entry ended. -/
theorem Reached.finishes (h : s.Reached lib entry initial) (hg : lib.Grounded entry) {n : Nat}
    (hn : entry.sheet.imports.length + lib.totalImports ≤ s.landed.length + n) :
    ∃ t, s.run? lib entry n = some t ∧ (t.endings? .root entry).isSome := by
  induction n generalizing s with
  | zero =>
    rw [run?_eq]
    split
    · next hend => exact ⟨_, rfl, hend⟩
    · next hend =>
      -- The answer that is waited for would land more loads than there are imports.
      obtain ⟨t, -, ht, hlt⟩ := h.answers hg hend
      have hbound := ht.wired.length_landed_le
      omega
  | succ n ih =>
    rw [run?_eq]
    split
    · next hend => exact ⟨_, rfl, hend⟩
    · next hend =>
      obtain ⟨t, harr, ht, hlt⟩ := h.answers hg hend
      rw [harr]
      exact ih ht (by omega)

end StyleBundle.Session
