import Mathlib.Data.List.Nodup
import Mathlib.Data.List.Perm.Basic
import StyleBundle.Assembly
import StyleBundle.Proofs.TraceOrder

/-!
# The order of a bundle

The modules of an assembly are those with a trace key and a text, each once. One stands before
another exactly when its first key comes before all keys of the other.
-/

namespace StyleBundle

theorem List.nodup_eraseDups {α : Type} [DecidableEq α] : ∀ l : List α, l.eraseDups.Nodup
  | [] => by simp
  | a :: l => by
    rw [List.eraseDups_cons, List.nodup_cons, List.mem_eraseDups]
    exact ⟨by simp, nodup_eraseDups _⟩
termination_by l => l.length
decreasing_by exact Nat.lt_succ_of_le (List.length_filter_le ..)

theorem List.pair_sublist_or {α : Type} {l : List α} {a b : α} (ha : a ∈ l) (hb : b ∈ l)
    (h : a ≠ b) : [a, b].Sublist l ∨ [b, a].Sublist l := by
  induction l with
  | nil => simp at ha
  | cons c l ih =>
    rcases List.mem_cons.mp ha with rfl | ha'
    · have hb' := (List.mem_cons.mp hb).resolve_left h.symm
      exact .inl ((List.singleton_sublist.mpr hb').cons_cons a)
    · rcases List.mem_cons.mp hb with rfl | hb'
      · exact .inr ((List.singleton_sublist.mpr ha').cons_cons b)
      · exact (ih ha' hb').imp (·.cons c) (·.cons c)

namespace Assembly

/-! ## Keys that are recorded in order -/

def ofList (paths : List ModulePath) (sources : Table ModulePath String) : Assembly :=
  let order := (paths.filter sources.contains).eraseDups
  { source := String.join (order.filterMap sources.find?), order }

theorem ofTables_of_pairwise {traces : Table TraceKey ModulePath}
    (h : traces.entries.Pairwise fun a b => compare a.1 b.1 != .gt)
    (sources : Table ModulePath String) :
    ofTables traces sources = ofList traces.values sources := by
  have hsort := List.mergeSort_of_pairwise h
  rw [ofTables, inKeyOrder, hsort]
  rfl

/-! ## First keys -/

/-- Whether some key of `p` comes before all keys of `q`. -/
def Precedes (traces : Table TraceKey ModulePath) (p q : ModulePath) : Prop :=
  ∃ k, traces.find? k = some p ∧ ∀ k', traces.find? k' = some q → k < k'

theorem Precedes.asymm {traces : Table TraceKey ModulePath} {p q : ModulePath}
    (h : Precedes traces p q) : ¬ Precedes traces q p := by
  obtain ⟨k, hk, hlt⟩ := h
  rintro ⟨k', hk', hlt'⟩
  exact lt_asymm (hlt k' hk') (hlt' k hk)

def PrecedesIn (es : List (TraceKey × ModulePath)) (p q : ModulePath) : Prop :=
  ∃ k, (k, p) ∈ es ∧ ∀ k', (k', q) ∈ es → k < k'

theorem pairwise_eraseDups : ∀ {es : List (TraceKey × ModulePath)},
    es.Pairwise (fun a b => a.1 < b.1) → (es.map Prod.snd).eraseDups.Pairwise (PrecedesIn es)
  | [], _ => by simp
  | (k, p) :: es, h => by
    obtain ⟨hk, hes⟩ := List.pairwise_cons.mp h
    rw [List.map_cons, List.eraseDups_cons, List.filter_map]
    have hmem : ∀ q ∈ ((es.filter ((fun q => !q == p) ∘ Prod.snd)).map Prod.snd).eraseDups,
        q ≠ p := by
      intro q hq
      simp only [List.mem_eraseDups, List.mem_map, List.mem_filter, Function.comp] at hq
      obtain ⟨e, ⟨-, he⟩, rfl⟩ := hq
      simpa using he
    refine List.pairwise_cons.mpr ⟨fun q hq => ⟨k, List.mem_cons_self .., fun k' hk' => ?_⟩, ?_⟩
    · rcases List.mem_cons.mp hk' with e | hk'
      · exact absurd (Prod.mk.inj e).2 (hmem q hq)
      · exact hk _ hk'
    -- The first module is struck out of the rest, and the others keep all their keys.
    · refine (pairwise_eraseDups (hes.filter _)).imp_of_mem fun {q r} _ hr => ?_
      rintro ⟨k', hk', hlt⟩
      refine ⟨k', List.mem_cons_of_mem _ (List.mem_filter.mp hk').1, fun k'' hk'' => hlt k'' ?_⟩
      rcases List.mem_cons.mp hk'' with e | hk''
      · exact absurd (Prod.mk.inj e).2 (hmem r hr)
      · exact List.mem_filter.mpr ⟨hk'', by simpa using hmem r hr⟩
termination_by es => es.length
decreasing_by exact Nat.lt_succ_of_le (List.length_filter_le ..)

/-! ## The order -/

variable {traces : Table TraceKey ModulePath} {sources : Table ModulePath String}

theorem pairwise_mergeSort_entries (traces : Table TraceKey ModulePath) :
    (traces.entries.mergeSort fun a b => compare a.1 b.1 != .gt).Pairwise
      fun a b => a.1 < b.1 := by
  have hle := TraceKey.pairwise_mergeSort Prod.fst traces.entries
  have hnodup : ((traces.entries.mergeSort fun a b => compare a.1 b.1 != .gt).map
      Prod.fst).Nodup :=
    ((List.mergeSort_perm traces.entries _).map Prod.fst).nodup_iff.mpr traces.nodup
  exact (hle.and (List.pairwise_map.mp hnodup)).imp fun h => lt_of_le_of_ne h.1 h.2

theorem mem_order_iff {p : ModulePath} :
    p ∈ (ofTables traces sources).order ↔
      (∃ k, traces.find? k = some p) ∧ sources.contains p := by
  simp only [ofTables, inKeyOrder, List.mem_eraseDups, List.mem_filter, List.mem_map,
    List.mem_mergeSort, Prod.exists, exists_eq_right, Table.find?_eq_some_iff]

theorem nodup_order : (ofTables traces sources).order.Nodup :=
  List.nodup_eraseDups _

theorem pairwise_order : (ofTables traces sources).order.Pairwise (Precedes traces) := by
  simp only [ofTables, inKeyOrder, List.filter_map]
  have h := pairwise_eraseDups ((pairwise_mergeSort_entries traces).filter
    (sources.contains ∘ Prod.snd))
  refine h.imp_of_mem fun {p q} _ hq => ?_
  simp only [List.mem_eraseDups, List.mem_map, List.mem_filter, Function.comp] at hq
  obtain ⟨⟨k, q⟩, ⟨-, hs⟩, rfl⟩ := hq
  rintro ⟨k, hk, hlt⟩
  simp only [List.mem_filter, List.mem_mergeSort, Function.comp] at hk hlt
  exact ⟨k, Table.find?_eq_some_iff.mpr hk.1,
    fun k' hk' => hlt k' ⟨Table.find?_eq_some_iff.mp hk', hs⟩⟩

/-- One module stands before another exactly when its first key comes before all keys of the
other. -/
theorem pair_sublist_order_iff {p q : ModulePath} :
    [p, q].Sublist (ofTables traces sources).order ↔
      p ∈ (ofTables traces sources).order ∧ q ∈ (ofTables traces sources).order ∧
        Precedes traces p q := by
  constructor
  · intro h
    exact ⟨h.subset (by simp), h.subset (by simp),
      (List.pairwise_cons.mp (pairwise_order.sublist h)).1 q (by simp)⟩
  · rintro ⟨hp, hq, h⟩
    have hne : p ≠ q := fun e => (e ▸ h).asymm (e ▸ h)
    refine (List.pair_sublist_or hp hq hne).resolve_right fun h' => ?_
    exact h.asymm ((List.pairwise_cons.mp (pairwise_order.sublist h')).1 p (by simp))

end Assembly

end StyleBundle
