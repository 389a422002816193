import StyleBundle.Proofs.Polls

/-!
# Which import asked first

Imports ask one after the other. An import asks after the one that brought its document and after
those in front of it in the document, and of the imports of a module that can be had the one that
asked first has started the load.
-/

namespace StyleBundle.Session

variable {lib : Library} {entry : Document} {active : List ModulePath} {s t : Session}

/-- The number of imports that asked before the import at `k`. -/
def age (s : Session) (k : TraceKey) : Nat :=
  s.supplies.keys.idxOf k

theorem mem_keys_of_contains {k : TraceKey} (h : s.supplies.contains k) : k ∈ s.supplies.keys :=
  Table.mem_keys_iff.mpr (Option.isSome_iff_exists.mp h)

theorem age_inj {k k' : TraceKey} (h : s.supplies.contains k) (he : s.age k = s.age k') :
    k = k' :=
  (List.idxOf_inj (mem_keys_of_contains h)).mp he

structure Aged (lib : Library) (entry : Document) (s : Session) : Prop where
  parent : ∀ {k : TraceKey} {i : Nat}, s.supplies.contains (k.child i) → k ≠ .root →
    s.supplies.contains k ∧ s.age k < s.age (k.child i)
  earlier : ∀ {k : TraceKey} {i j : Nat}, s.supplies.contains (k.child i) → j < i →
    s.supplies.contains (k.child j) ∧ s.age (k.child j) < s.age (k.child i)
  first : ∀ {k l d k'}, s.loads.find? k = some l → lib.document? l.path = some d →
    s.supplies.contains k' → lib.Named entry k' l.path → s.age k ≤ s.age k'

namespace Aged

theorem start (r : Resolver) (clock : Nat) (requests : List Fetched) :
    (r.start clock requests).Aged lib entry where
  parent h := by cases h
  earlier h := by cases h
  first h := by cases h

/-- A move by which no import asks. -/
theorem of_supplies_eq (h : s.Aged lib entry) (hs : t.supplies = s.supplies)
    (hloads : ∀ {k l}, t.loads.find? k = some l →
      ∃ l', s.loads.find? k = some l' ∧ l'.request = l.request) : t.Aged lib entry := by
  have hage : ∀ k, t.age k = s.age k := fun k => by rw [age, age, hs]
  exact {
    parent := by
      simp only [hs, hage]
      exact h.parent
    earlier := by
      simp only [hs, hage]
      exact h.earlier
    first := by
      simp only [hs, hage]
      intro k l d k' hl hd
      obtain ⟨l', hl', hr⟩ := hloads hl
      have hp : l.path = l'.path := by rw [Load.path, Load.path, hr]
      rw [hp] at hd ⊢
      exact h.first hl' hd }

/-- A move by which an import asks. -/
theorem of_asks {k : TraceKey} {d : Document} {i : Nat} {r : ImportRule} {sup : Supply}
    (h : s.Aged lib entry) (hw : s.Wired lib entry) (ha : s.Asks entry k d i r)
    (hs : t.supplies = s.supplies.insert (k.child i) sup)
    (hloads : ∀ {k' l}, t.loads.find? k' = some l → s.loads.find? k' = some l ∨
      k' = k.child i ∧ l.path = d.path.resolve r.source ∧ s.context.slots.find? l.path = none) :
    t.Aged lib entry := by
  have hkeys : t.supplies.keys = s.supplies.keys ++ [k.child i] := by
    rw [hs, Table.keys_insert_new ha.fresh]
  have hnew : ¬ s.supplies.contains (k.child i) := by simp [Table.contains_eq, ha.fresh]
  have hcontains : ∀ k', t.supplies.contains k' ↔ s.supplies.contains k' ∨ k' = k.child i := by
    grind
  have hold : ∀ {k'}, s.supplies.contains k' →
      t.age k' = s.age k' ∧ t.age k' < t.age (k.child i) := by
    intro k' hk'
    have hmem := mem_keys_of_contains hk'
    have hage : t.age k' = s.age k' := by rw [age, hkeys, List.idxOf_append_of_mem hmem, age]
    refine ⟨hage, ?_⟩
    rw [hage, age, age, hkeys, List.idxOf_append_of_notMem]
    · exact lt_of_lt_of_le (List.idxOf_lt_length_iff.mpr hmem) (Nat.le_add_right ..)
    · intro hm
      exact hnew (Option.isSome_iff_exists.mpr (Table.mem_keys_iff.mp hm))
  exact {
    parent := by
      intro k' i' hk' hne
      rcases (hcontains _).mp hk' with hk' | e
      · obtain ⟨hc, hlt⟩ := h.parent hk' hne
        exact ⟨(hcontains _).mpr (.inl hc), by rwa [(hold hc).1, (hold hk').1]⟩
      · obtain ⟨rfl, rfl⟩ := TraceKey.child_inj e
        have hc : s.supplies.contains k' :=
          hw.contains_of_document (ha.holds.resolve_left fun hroot => hne hroot.1)
        exact ⟨(hcontains _).mpr (.inl hc), (hold hc).2⟩
    earlier := by
      intro k' i' j hk' hj
      rcases (hcontains _).mp hk' with hk' | e
      · obtain ⟨hc, hlt⟩ := h.earlier hk' hj
        exact ⟨(hcontains _).mpr (.inl hc), by rwa [(hold hc).1, (hold hk').1]⟩
      · obtain ⟨rfl, rfl⟩ := TraceKey.child_inj e
        have hc := ha.earlier j hj
        exact ⟨(hcontains _).mpr (.inl hc), (hold hc).2⟩
    first := by
      intro k₁ l d' k₂ hl hd hk₂ hn
      rcases hloads hl with hl | ⟨rfl, -, hslot⟩
      · have hc : s.supplies.contains k₁ := Option.isSome_iff_exists.mpr ⟨_, hw.starts hl⟩
        rcases (hcontains _).mp hk₂ with hk₂ | rfl
        · rw [(hold hc).1, (hold hk₂).1]
          exact h.first hl hd hk₂ hn
        · exact (hold hc).2.le
      · rcases (hcontains _).mp hk₂ with hk₂ | rfl
        -- A module that can be had keeps its slot, so its load is started once.
        · obtain ⟨slot, hs'⟩ := hw.slot_of_contains hk₂ hn hd
          rw [hslot] at hs'
          cases hs'
        · exact le_rfl }

theorem move (h : s.Aged lib entry) (hw : s.Wired lib entry) (hm : Move lib entry active s t) :
    t.Aged lib entry := by
  cases hm with
  | hit ha _ => exact h.of_asks hw ha rfl .inl
  | join ha _ => exact h.of_asks hw ha rfl .inl
  | start ha hs => exact h.of_asks hw ha rfl (by grind)
  | request hl _ => exact h.of_supplies_eq (by simp) (by grind)
  | refuse hl _ _ => exact h.of_supplies_eq rfl (by grind)
  | accept hl _ _ => exact h.of_supplies_eq rfl (by grind)
  | conclude hl _ _ _ _ => exact h.of_supplies_eq rfl (by grind)

theorem arrival (h : s.Aged lib entry) (ha : Arrival s t) : t.Aged lib entry := by
  obtain ⟨-, hl, -⟩ := ha
  exact h.of_supplies_eq rfl (by grind)

end Aged

end StyleBundle.Session
