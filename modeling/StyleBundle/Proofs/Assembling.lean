import Mathlib.Data.Finset.Max
import Mathlib.Data.List.Forall2
import StyleBundle.Proofs.AssemblyOrder

/-!
# Writing a bundle

The walk that goes along the trace keys, passes over what is written or has no text and writes
what is left, makes the assembly of the two tables. No other assembly has each module with a key
and a text once, at the place of its least key, and these texts as its source.
-/

namespace StyleBundle.Assembly

variable {traces : Table TraceKey ModulePath} {sources : Table ModulePath String}

/-! ## The walk along the keys -/

/-- What the walk has made so far, and the modules whose texts are in it. -/
structure Progress where
  written : List ModulePath := []
  assembly : Assembly := {}

/-- What one trace key does, by the module that it stands for. -/
def visit (sources : Table ModulePath String) (s : Progress) (p : ModulePath) : Progress :=
  if p ∈ s.written then s
  else
    match sources.find? p with
    | none => s
    | some text =>
      { written := p :: s.written
        assembly := { source := s.assembly.source ++ text, order := s.assembly.order ++ [p] } }

def walk (traces : Table TraceKey ModulePath) (sources : Table ModulePath String) : Assembly :=
  ((inKeyOrder traces).foldl (visit sources) {}).assembly

/-- Between two keys the assembly is that of the modules so far, and what is written is marked. -/
structure Progress.Follows (s : Progress) (seen : List ModulePath)
    (sources : Table ModulePath String) : Prop where
  assembly : s.assembly = ofList seen sources
  marked : ∀ p, p ∈ s.written ↔ p ∈ s.assembly.order

theorem mem_order_ofList {ps : List ModulePath} {p : ModulePath} :
    p ∈ (ofList ps sources).order ↔ p ∈ ps ∧ sources.contains p := by
  simp [ofList]

/-- A module that has its text in the assembly, or has none, leaves the assembly as it is. -/
theorem ofList_append_of_skip {ps : List ModulePath} {p : ModulePath}
    (h : p ∈ ps ∨ sources.contains p = false) : ofList (ps ++ [p]) sources = ofList ps sources := by
  by_cases hp : sources.contains p
  · have hmem : p ∈ ps := h.resolve_right (by simp [hp])
    simp [ofList, List.eraseDups_append, List.removeAll, hp, hmem]
  · simp [ofList, hp]

theorem ofList_append_of_find? {ps : List ModulePath} {p : ModulePath} {text : String}
    (hp : p ∉ ps) (h : sources.find? p = some text) :
    ofList (ps ++ [p]) sources =
      { source := (ofList ps sources).source ++ text
        order := (ofList ps sources).order ++ [p] } := by
  have hc : sources.contains p := by simp [Table.contains, h]
  simp [ofList, List.eraseDups_append, List.eraseDups_cons, List.removeAll, hc, hp, h,
    String.join_append]

theorem Progress.Follows.visit {s : Progress} {seen : List ModulePath} (h : s.Follows seen sources)
    (p : ModulePath) : (visit sources s p).Follows (seen ++ [p]) sources := by
  obtain ⟨ha, hm⟩ := h
  have hwritten : p ∈ s.written ↔ p ∈ seen ∧ sources.contains p := by
    rw [hm, ha, mem_order_ofList]
  unfold Assembly.visit
  split
  · next hp => exact ⟨by rw [ha, ofList_append_of_skip (.inl (hwritten.mp hp).1)], hm⟩
  · next hp =>
    split
    · next hnone =>
      have hc : sources.contains p = false := by simp [Table.contains, hnone]
      exact ⟨by rw [ha, ofList_append_of_skip (.inr hc)], hm⟩
    · next text hsome =>
      have hc : sources.contains p := by simp [Table.contains, hsome]
      have hseen : p ∉ seen := fun h => hp (hwritten.mpr ⟨h, hc⟩)
      refine ⟨by simp only [ha, ofList_append_of_find? hseen hsome], fun q => ?_⟩
      simp [hm, or_comm]

theorem Progress.Follows.run {s : Progress} {seen : List ModulePath} (h : s.Follows seen sources)
    (ps : List ModulePath) :
    (ps.foldl (Assembly.visit sources) s).Follows (seen ++ ps) sources := by
  induction ps generalizing s seen with
  | nil => simpa using h
  | cons p ps ih => simpa using ih (h.visit p)

theorem walk_eq_ofTables : walk traces sources = ofTables traces sources := by
  have hstart : Progress.Follows {} [] sources := ⟨rfl, by simp⟩
  exact (hstart.run (inKeyOrder traces)).assembly

/-! ## Least keys -/

def keysOf (traces : Table TraceKey ModulePath) (p : ModulePath) : Set TraceKey :=
  {k | traces.find? k = some p}

theorem exists_isLeast_keysOf {p : ModulePath} (h : p ∈ traces.values) :
    ∃ k, IsLeast (keysOf traces p) k := by
  let ks := (traces.keys.filter fun k => traces.find? k = some p).toFinset
  have hks : (ks : Set TraceKey) = keysOf traces p := by
    ext k
    simp only [ks, List.coe_toFinset, Set.mem_ofPred_eq, List.mem_filter, decide_eq_true_eq, keysOf]
    exact and_iff_right_of_imp Table.mem_keys_of_find?
  obtain ⟨k, hk⟩ := Table.mem_values_iff.mp h
  have hne : ks.Nonempty := ⟨k, Finset.mem_coe.mp (hks ▸ hk)⟩
  exact ⟨ks.min' hne, hks ▸ ks.isLeast_min' hne⟩

theorem precedes_iff_lt {p q : ModulePath} {k l : TraceKey} (hk : IsLeast (keysOf traces p) k)
    (hl : IsLeast (keysOf traces q) l) : Precedes traces p q ↔ k < l := by
  constructor
  · rintro ⟨k', hk', hlt⟩
    exact lt_of_le_of_lt (hk.2 hk') (hlt l hl.1)
  · exact fun h => ⟨k, hk.1, fun k' hk' => lt_of_lt_of_le h (hl.2 hk')⟩

/-! ## What an assembly is -/

/-- Each module that has a trace key and a text stands in the assembly once, before those whose
least key is greater, and the source is the texts one after the other. -/
structure Arranges (a : Assembly) (traces : Table TraceKey ModulePath)
    (sources : Table ModulePath String) : Prop where
  nodup : a.order.Nodup
  mem_iff : ∀ p, p ∈ a.order ↔ p ∈ traces.values ∧ p ∈ sources.keys
  placed : ∀ p ∈ a.order, ∃ k, IsLeast (keysOf traces p) k
  before_iff : ∀ p ∈ a.order, ∀ q ∈ a.order, ∀ k l, IsLeast (keysOf traces p) k →
    IsLeast (keysOf traces q) l → ([p, q].Sublist a.order ↔ k < l)
  source : ∃ texts, List.Forall₂ (fun p text => sources.find? p = some text) a.order texts ∧
    a.source = String.join texts

theorem forall₂_filterMap_find? {ps : List ModulePath} (h : ∀ p ∈ ps, sources.contains p) :
    List.Forall₂ (fun p text => sources.find? p = some text) ps (ps.filterMap sources.find?) := by
  induction ps with
  | nil => exact .nil
  | cons p ps ih =>
    obtain ⟨text, htext⟩ := Option.isSome_iff_exists.mp (h p (List.mem_cons_self ..))
    rw [List.filterMap_cons_some htext]
    exact .cons htext (ih fun q hq => h q (List.mem_cons_of_mem _ hq))

theorem eq_filterMap_find? {ps : List ModulePath} {texts : List String}
    (h : List.Forall₂ (fun p text => sources.find? p = some text) ps texts) :
    texts = ps.filterMap sources.find? := by
  induction h with
  | nil => rfl
  | cons htext _ ih => rw [List.filterMap_cons_some htext, ← ih]

theorem arranges_ofTables : (ofTables traces sources).Arranges traces sources := by
  have hmem (p : ModulePath) : p ∈ (ofTables traces sources).order ↔
      p ∈ traces.values ∧ p ∈ sources.keys := by
    rw [mem_order_iff, Table.mem_values_iff, Table.mem_keys_iff, Table.contains,
      Option.isSome_iff_exists]
  refine ⟨nodup_order, hmem, fun p hp => exists_isLeast_keysOf ((hmem p).mp hp).1, ?_, _, ?_, rfl⟩
  · intro p hp q hq k l hk hl
    rw [pair_sublist_order_iff, precedes_iff_lt hk hl]
    exact ⟨fun h => h.2.2, fun h => ⟨hp, hq, h⟩⟩
  · exact forall₂_filterMap_find? fun p hp => (mem_order_iff.mp hp).2

theorem Arranges.pairwise {a : Assembly} (h : a.Arranges traces sources) :
    a.order.Pairwise (Precedes traces) := by
  refine List.pairwise_iff_forall_sublist.mpr fun {p q} hpq => ?_
  have hp : p ∈ a.order := hpq.subset (by simp)
  have hq : q ∈ a.order := hpq.subset (by simp)
  obtain ⟨k, hk⟩ := h.placed p hp
  obtain ⟨l, hl⟩ := h.placed q hq
  exact (precedes_iff_lt hk hl).mpr ((h.before_iff p hp q hq k l hk hl).mp hpq)

theorem Arranges.unique {a b : Assembly} (ha : a.Arranges traces sources)
    (hb : b.Arranges traces sources) : a = b := by
  have hperm : a.order.Perm b.order :=
    (List.perm_ext_iff_of_nodup ha.nodup hb.nodup).mpr fun p => by rw [ha.mem_iff, hb.mem_iff]
  have horder : a.order = b.order :=
    hperm.eq_of_pairwise (fun _ _ _ _ h h' => absurd h' h.asymm) ha.pairwise hb.pairwise
  obtain ⟨ts, hts, hsa⟩ := ha.source
  obtain ⟨us, hus, hsb⟩ := hb.source
  have hsource : a.source = b.source := by
    rw [hsa, hsb, eq_filterMap_find? hts, eq_filterMap_find? hus, horder]
  cases a; cases b
  simp_all

/-- The walk makes the one assembly in which nothing is lost, repeated or out of place. -/
theorem arranges_iff_walked (traces : Table TraceKey ModulePath)
    (sources : Table ModulePath String) (a : Assembly) :
    (a.Arranges traces sources ↔ a = walk traces sources) ∧
      walk traces sources = ofTables traces sources := by
  refine ⟨⟨fun h => ?_, ?_⟩, walk_eq_ofTables⟩
  · rw [walk_eq_ofTables]
    exact h.unique arranges_ofTables
  · rintro rfl
    rw [walk_eq_ofTables]
    exact arranges_ofTables

/-- The order in which the tables were filled does not matter. -/
theorem ofTables_congr {traces' : Table TraceKey ModulePath} {sources' : Table ModulePath String}
    (ht : traces.find? = traces'.find?) (hs : sources.find? = sources'.find?) :
    ofTables traces sources = ofTables traces' sources' := by
  have hkeys : keysOf traces = keysOf traces' := by
    funext p
    simp only [keysOf, ht]
  have hall : (ofTables traces sources).Arranges traces sources := arranges_ofTables
  obtain ⟨hnodup, hmem, hplaced, hbefore, hsource⟩ := hall
  rw [hkeys] at hplaced hbefore
  refine Arranges.unique ⟨hnodup, fun p => ?_, hplaced, hbefore, hs ▸ hsource⟩ arranges_ofTables
  simp only [hmem, Table.mem_values_iff, Table.mem_keys_iff, ht, hs]

end StyleBundle.Assembly
