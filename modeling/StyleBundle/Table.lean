/-!
# Tables in insertion order

A table maps keys to values and remembers the order in which its keys first came. `insert` gives
an old key its new value where it stands and puts a new key last, so the place is that of the
first insertion and the value that of the last. No key stands twice.
-/

namespace StyleBundle

universe u v

/-- Keys with their values, in the order of first insertion. -/
structure Table (κ : Type u) (α : Type v) where
  entries : List (κ × α) := []
  nodup : (entries.map Prod.fst).Nodup := by exact List.nodup_nil
  deriving DecidableEq, Repr

namespace Table

variable {κ : Type u} {α : Type v}

instance : EmptyCollection (Table κ α) := ⟨{}⟩

instance : Inhabited (Table κ α) := ⟨∅⟩

def keys (t : Table κ α) : List κ :=
  t.entries.map Prod.fst

def values (t : Table κ α) : List α :=
  t.entries.map Prod.snd

def isEmpty (t : Table κ α) : Bool :=
  t.entries.isEmpty

variable [DecidableEq κ]

/-! ## Operations on entry lists -/

def findEntry (k : κ) : List (κ × α) → Option α
  | [] => none
  | (k', v) :: es => if k' = k then some v else findEntry k es

def insertEntry (k : κ) (v : α) : List (κ × α) → List (κ × α)
  | [] => [(k, v)]
  | (k', v') :: es => if k' = k then (k, v) :: es else (k', v') :: insertEntry k v es

theorem map_fst_insertEntry (k : κ) (v : α) (es : List (κ × α)) :
    (insertEntry k v es).map Prod.fst =
      if k ∈ es.map Prod.fst then es.map Prod.fst else es.map Prod.fst ++ [k] := by
  induction es with
  | nil => simp [insertEntry]
  | cons e es ih =>
    obtain ⟨k', v'⟩ := e
    by_cases h : k' = k
    · simp [insertEntry, h]
    · have h' : ¬k = k' := fun e => h e.symm
      simp only [insertEntry, if_neg h, List.map_cons, ih, List.mem_cons, h', false_or]
      split <;> simp

theorem nodup_insertEntry (k : κ) (v : α) {es : List (κ × α)} (h : (es.map Prod.fst).Nodup) :
    ((insertEntry k v es).map Prod.fst).Nodup := by
  rw [map_fst_insertEntry]
  split
  · exact h
  · next hk =>
    refine List.nodup_append.mpr ⟨h, by simp, ?_⟩
    intro a ha b hb e
    simp only [List.mem_singleton] at hb
    exact hk (hb ▸ e ▸ ha)

/-! ## Operations -/

def find? (t : Table κ α) (k : κ) : Option α :=
  findEntry k t.entries

def contains (t : Table κ α) (k : κ) : Bool :=
  (t.find? k).isSome

/-- The table in which `k` has the value `v` and every other key the value it had. -/
def insert (t : Table κ α) (k : κ) (v : α) : Table κ α where
  entries := insertEntry k v t.entries
  nodup := nodup_insertEntry k v t.nodup

def erase (t : Table κ α) (k : κ) : Table κ α where
  entries := t.entries.filter fun e => e.1 ≠ k
  nodup := t.nodup.sublist (List.filter_sublist.map _)

/-- The table of a list of pairs; a later pair gives an earlier key its value. -/
def ofList (es : List (κ × α)) : Table κ α :=
  es.foldl (fun t e => t.insert e.1 e.2) ∅

/-! ## Look-up after an operation -/

@[simp]
theorem find?_empty (k : κ) : (∅ : Table κ α).find? k = none := rfl

theorem findEntry_insertEntry (k k' : κ) (v : α) (es : List (κ × α)) :
    findEntry k' (insertEntry k v es) = if k = k' then some v else findEntry k' es := by
  induction es with
  | nil => simp [insertEntry, findEntry]
  | cons e es ih => grind [insertEntry, findEntry]

@[grind =]
theorem find?_insert (t : Table κ α) (k k' : κ) (v : α) :
    (t.insert k v).find? k' = if k = k' then some v else t.find? k' :=
  findEntry_insertEntry k k' v t.entries

theorem findEntry_filter_ne (k k' : κ) (es : List (κ × α)) :
    findEntry k' (es.filter fun e => e.1 ≠ k) = if k = k' then none else findEntry k' es := by
  induction es with
  | nil => simp [findEntry]
  | cons e es ih => grind [findEntry]

@[grind =]
theorem find?_erase (t : Table κ α) (k k' : κ) :
    (t.erase k).find? k' = if k = k' then none else t.find? k' :=
  findEntry_filter_ne k k' t.entries

theorem findEntry_eq_some_iff {k : κ} {v : α} {es : List (κ × α)}
    (h : (es.map Prod.fst).Nodup) : findEntry k es = some v ↔ (k, v) ∈ es := by
  induction es with
  | nil => simp [findEntry]
  | cons e es ih =>
    obtain ⟨k', v'⟩ := e
    simp only [List.map_cons, List.nodup_cons] at h
    by_cases hk : k' = k
    · subst hk
      simp only [findEntry, if_pos, Option.some.injEq, List.mem_cons, Prod.mk.injEq, true_and]
      constructor
      · exact fun e => .inl e.symm
      · rintro (e | e)
        · exact e.symm
        · exact absurd (List.mem_map_of_mem e) h.1
    · have hk' : ¬k = k' := fun e => hk e.symm
      simp [findEntry, hk, hk', ih h.2]

theorem find?_eq_some_iff {t : Table κ α} {k : κ} {v : α} :
    t.find? k = some v ↔ (k, v) ∈ t.entries :=
  findEntry_eq_some_iff t.nodup

theorem mem_keys_of_find? {t : Table κ α} {k : κ} {v : α} (h : t.find? k = some v) :
    k ∈ t.keys :=
  List.mem_map_of_mem (find?_eq_some_iff.mp h)

theorem mem_keys_iff {t : Table κ α} {k : κ} : k ∈ t.keys ↔ ∃ v, t.find? k = some v := by
  simp only [keys, List.mem_map, find?_eq_some_iff]
  exact ⟨fun ⟨e, he, hk⟩ => ⟨e.2, hk ▸ he⟩, fun ⟨v, hv⟩ => ⟨_, hv, rfl⟩⟩

theorem mem_values_iff {t : Table κ α} {v : α} : v ∈ t.values ↔ ∃ k, t.find? k = some v := by
  simp only [values, List.mem_map, find?_eq_some_iff]
  exact ⟨fun ⟨e, he, hv⟩ => ⟨e.1, hv ▸ he⟩, fun ⟨k, hk⟩ => ⟨_, hk, rfl⟩⟩

end Table

end StyleBundle
