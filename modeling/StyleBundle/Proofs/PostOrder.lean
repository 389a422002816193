import Mathlib.Data.List.Perm.Basic
import StyleBundle.Proofs.TraceOrder

/-!
# Trace keys in post-order

The import tree as data: a forest holds below each index what that document imports. Its nodes are
trace keys, and the walk that lists what is below a node before the node itself, imports by their
index, meets them in the order of the keys. Every finite set of keys that holds the root and, with
a key, the keys it extends, is the set of nodes of such a tree; sorting it is the walk.
-/

namespace StyleBundle

/-- The imports of a document, each with its index and with the imports below it. -/
inductive Forest where
  | nil
  | cons (index : Nat) (below later : Forest)
  deriving DecidableEq, Repr

namespace Forest

open TraceKey

def indices : Forest → List Nat
  | nil => []
  | cons i _ later => i :: later.indices

/-- Whether the imports stand in the order of their indices throughout, no index twice. -/
def Ascending : Forest → Prop
  | nil => True
  | cons i below later => below.Ascending ∧ later.Ascending ∧ ∀ j ∈ later.indices, i < j

/-- Whether a way along indices leads from the document to a node. -/
def Reaches : Forest → List Nat → Prop
  | _, [] => True
  | nil, _ :: _ => False
  | cons j below later, i :: is => i = j ∧ below.Reaches is ∨ later.Reaches (i :: is)

/-- What is below the document at `k`, each node after all that is below it. -/
def postOrder (k : TraceKey) : Forest → List TraceKey
  | nil => []
  | cons i below later => below.postOrder (k.child i) ++ k.child i :: later.postOrder k

/-- Whether the forest, read below the entry, is the tree of the keys in a list. -/
structure IsTreeOf (f : Forest) (ks : List TraceKey) : Prop where
  ascending : f.Ascending
  reaches_iff : ∀ k : TraceKey, f.Reaches k.indices ↔ k ∈ ks

/-! ## The walk -/

@[simp]
theorem reaches_nil (f : Forest) : f.Reaches [] := by
  cases f <;> trivial

theorem Reaches.mem_indices {f : Forest} {i : Nat} {is : List Nat} (h : f.Reaches (i :: is)) :
    i ∈ f.indices := by
  induction f with
  | nil => exact h.elim
  | cons j below later _ ih =>
    rcases h with ⟨rfl, -⟩ | h
    · exact List.mem_cons_self ..
    · exact List.mem_cons_of_mem _ (ih h)

theorem mem_postOrder {f : Forest} {k a : TraceKey} :
    a ∈ f.postOrder k ↔ ∃ i is, a.indices = k.indices ++ i :: is ∧ f.Reaches (i :: is) := by
  induction f generalizing k with
  | nil => simp [postOrder, Reaches]
  | cons j below later ihb ihl =>
    simp only [postOrder, List.mem_append, List.mem_cons, ihb, ihl, Reaches]
    constructor
    · rintro (⟨i, is, e, h⟩ | rfl | ⟨i, is, e, h⟩)
      · exact ⟨j, i :: is, by simpa [child] using e, .inl ⟨rfl, h⟩⟩
      · exact ⟨j, [], rfl, .inl ⟨rfl, reaches_nil _⟩⟩
      · exact ⟨i, is, e, .inr h⟩
    · rintro ⟨i, is, e, ⟨rfl, h⟩ | h⟩
      · cases is with
        | nil => exact .inr (.inl (by cases a; simp_all [child]))
        | cons i' is => exact .inl ⟨i', is, by simpa [child] using e, h⟩
      · exact .inr (.inr ⟨i, is, e, h⟩)

theorem under_of_mem_postOrder {f : Forest} {k a : TraceKey} (h : a ∈ f.postOrder k) :
    ∃ i ∈ f.indices, a.Under (k.child i) := by
  obtain ⟨i, is, e, hr⟩ := mem_postOrder.mp h
  exact ⟨i, hr.mem_indices, is, by simp [e, child]⟩

/-- What is below an import comes before the import, which comes before all later ones. -/
theorem pairwise_postOrder {f : Forest} (hf : f.Ascending) (k : TraceKey) :
    (f.postOrder k).Pairwise (· < ·) := by
  induction f generalizing k with
  | nil => exact .nil
  | cons i below later ihb ihl =>
    obtain ⟨hb, hl, hlt⟩ := hf
    have hbelow : ∀ a ∈ below.postOrder (k.child i), a.Under (k.child i) ∧ a < k.child i := by
      intro a ha
      obtain ⟨j, -, hu⟩ := under_of_mem_postOrder ha
      exact ⟨hu.trans (child_under ..), lt_of_le_of_lt hu.le (child_lt ..)⟩
    have hlater : ∀ a, a.Under (k.child i) → ∀ b ∈ later.postOrder k, a < b := by
      intro a ha b hb'
      obtain ⟨j, hj, hu⟩ := under_of_mem_postOrder hb'
      have hij := hlt j hj
      refine lt_of_under (child_lt_child k hij) (fun h => ?_) ha hu
      have he : j = i := by simpa [child] using h.eq_of_length (by simp [child])
      exact Nat.ne_of_gt hij he
    refine List.pairwise_append.mpr ⟨ihb hb _, List.pairwise_cons.mpr ⟨?_, ihl hl k⟩, ?_⟩
    · exact hlater _ (.refl _)
    · intro a ha b hb'
      rcases List.mem_cons.mp hb' with rfl | hb'
      · exact (hbelow a ha).2
      · exact hlater a (hbelow a ha).1 b hb'

theorem pairwise_postOrder_root {f : Forest} (hf : f.Ascending) :
    (f.postOrder root ++ [root]).Pairwise (· < ·) := by
  refine List.pairwise_append.mpr ⟨pairwise_postOrder hf root, List.pairwise_singleton .., ?_⟩
  intro a ha b hb
  obtain ⟨i, -, hu⟩ := under_of_mem_postOrder ha
  rw [List.mem_singleton.mp hb]
  exact lt_of_le_of_lt hu.le (child_lt ..)

theorem mem_postOrder_root {f : Forest} {a : TraceKey} :
    a ∈ f.postOrder root ++ [root] ↔ f.Reaches a.indices := by
  rw [List.mem_append, mem_postOrder, List.mem_singleton]
  obtain ⟨is⟩ := a
  cases is with
  | nil => simp [root]
  | cons i is => simp [root]

theorem IsTreeOf.mergeSort_eq {f : Forest} {ks : List TraceKey} (h : f.IsTreeOf ks)
    (hks : ks.Nodup) :
    ks.mergeSort (fun a b => compare a b != .gt) = f.postOrder root ++ [root] := by
  have hsorted := pairwise_mergeSort id ks
  have hwalk := pairwise_postOrder_root h.ascending
  have hperm : (ks.mergeSort fun a b => compare a b != .gt).Perm (f.postOrder root ++ [root]) := by
    refine (List.mergeSort_perm ..).trans ?_
    refine (List.perm_ext_iff_of_nodup hks (hwalk.imp fun h => ne_of_lt h)).mpr fun a => ?_
    rw [mem_postOrder_root, h.reaches_iff]
  exact hperm.eq_of_pairwise (fun a b _ _ => le_antisymm) hsorted (hwalk.imp le_of_lt)

/-! ## The tree of a set of keys -/

def stalk : List Nat → Forest
  | [] => nil
  | i :: is => cons i (stalk is) nil

/-- The forest with one more way in it. -/
def graft : Forest → List Nat → Forest
  | f, [] => f
  | nil, is => stalk is
  | cons j below later, i :: is =>
    if i < j then cons i (stalk is) (cons j below later)
    else if i = j then cons j (below.graft is) later
    else cons j below (later.graft (i :: is))

def ofKeys (ks : List TraceKey) : Forest :=
  ks.foldr (fun k f => f.graft k.indices) nil

theorem reaches_stalk {is js : List Nat} : (stalk is).Reaches js ↔ js <+: is := by
  induction is generalizing js with
  | nil => cases js <;> simp [stalk, Reaches]
  | cons i is ih => cases js <;> simp [stalk, Reaches, ih, List.cons_prefix_cons]

theorem reaches_graft {f : Forest} {is js : List Nat} :
    (f.graft is).Reaches js ↔ f.Reaches js ∨ js <+: is := by
  induction f generalizing is js with
  | nil =>
    cases is with
    | nil => cases js <;> simp [graft, Reaches]
    | cons i is => cases js <;> simp [graft, reaches_stalk, Reaches]
  | cons j below later ihb ihl =>
    cases is with
    | nil => cases js <;> simp [graft]
    | cons i is =>
      cases js with
      | nil => simp
      | cons t js =>
        rw [List.cons_prefix_cons]
        unfold graft
        split
        · simp only [Reaches, reaches_stalk]
          exact or_comm
        · split
          · next h =>
            simp only [Reaches, ihb, h]
            tauto
          · simp only [Reaches, ihl, List.cons_prefix_cons]
            tauto

theorem mem_indices_graft {f : Forest} {is : List Nat} {j : Nat}
    (h : j ∈ (f.graft is).indices) : j ∈ f.indices ∨ is.head? = some j := by
  cases is with
  | nil => cases f <;> exact .inl h
  | cons i is =>
    induction f with
    | nil => simpa [graft, stalk, indices, eq_comm] using h
    | cons t below later _ ih =>
      unfold graft at h
      split at h
      · rcases List.mem_cons.mp h with rfl | h
        · exact .inr rfl
        · exact .inl h
      · split at h
        · exact .inl h
        · rcases List.mem_cons.mp h with rfl | h
          · exact .inl (List.mem_cons_self ..)
          · exact (ih h).imp_left (List.mem_cons_of_mem _)

theorem ascending_stalk (is : List Nat) : (stalk is).Ascending := by
  induction is with
  | nil => trivial
  | cons i is ih => exact ⟨ih, trivial, by simp [indices]⟩

theorem Ascending.graft {f : Forest} (hf : f.Ascending) (is : List Nat) :
    (f.graft is).Ascending := by
  induction f generalizing is with
  | nil =>
    cases is with
    | nil => trivial
    | cons i is => exact ascending_stalk _
  | cons j below later ihb ihl =>
    obtain ⟨hb, hl, hlt⟩ := hf
    cases is with
    | nil => exact ⟨hb, hl, hlt⟩
    | cons i is =>
      unfold Forest.graft
      split
      · next hij =>
        refine ⟨ascending_stalk is, ⟨hb, hl, hlt⟩, fun t ht => ?_⟩
        rcases List.mem_cons.mp ht with rfl | ht
        · exact hij
        · exact Nat.lt_trans hij (hlt t ht)
      · split
        · exact ⟨ihb hb is, hl, hlt⟩
        · refine ⟨hb, ihl hl _, fun t ht => ?_⟩
          rcases mem_indices_graft ht with ht | ht
          · exact hlt t ht
          · have : i = t := by simpa using ht
            omega

theorem ascending_ofKeys (ks : List TraceKey) : (ofKeys ks).Ascending := by
  induction ks with
  | nil => trivial
  | cons k ks ih => exact ih.graft _

theorem reaches_ofKeys {ks : List TraceKey} {is : List Nat} :
    (ofKeys ks).Reaches is ↔ is = [] ∨ ∃ k ∈ ks, is <+: k.indices := by
  induction ks with
  | nil => cases is <;> simp [ofKeys, Reaches]
  | cons k ks ih =>
    rw [ofKeys, List.foldr_cons, reaches_graft, ← ofKeys, ih, List.exists_mem_cons_iff, or_assoc]
    exact or_congr_right or_comm

/-- Keys among which are the root and all that a key extends are the nodes of a tree. -/
theorem isTreeOf_ofKeys {ks : List TraceKey} (hne : ks ≠ [])
    (hclosed : ∀ a ∈ ks, ∀ k, a.Under k → k ∈ ks) : (ofKeys ks).IsTreeOf ks where
  ascending := ascending_ofKeys ks
  reaches_iff k := by
    rw [reaches_ofKeys]
    constructor
    · rintro (h | ⟨a, ha, h⟩)
      · obtain ⟨a, ha⟩ := List.exists_mem_of_ne_nil ks hne
        exact hclosed a ha k (by simp [Under, h])
      · exact hclosed a ha k h
    · exact fun h => .inr ⟨k, h, List.prefix_rfl⟩

end Forest

namespace TraceKey

/-! ## The comparison of keys -/

/-- What makes sorting by a comparison of trace keys the walk of the tree: it is a strict total
order that tells apart what is different, a key comes after all that extends it and nothing else
comes in between, and keys that part stay in order however they are extended. -/
structure SortsInPostOrder (cmp : TraceKey → TraceKey → Ordering) : Prop where
  eq_iff (a b : TraceKey) : cmp a b = .eq ↔ a = b
  swap (a b : TraceKey) : (cmp a b).swap = cmp b a
  trans (a b c : TraceKey) : cmp a b = .lt → cmp b c = .lt → cmp a c = .lt
  extension (a k : TraceKey) : a.Under k → a ≠ k → cmp k a = .gt
  interval (a b k : TraceKey) : a.Under k → cmp a b ≠ .gt → cmp b k ≠ .gt → b.Under k
  parting (a b a' b' : TraceKey) : ¬ a.Under b → ¬ b.Under a → cmp a b = .lt →
    a'.Under a → b'.Under b → cmp a' b' = .lt
  walk (ks : List TraceKey) : ks.Nodup → ks ≠ [] → (∀ a ∈ ks, ∀ k, a.Under k → k ∈ ks) →
    (∃ f : Forest, f.IsTreeOf ks) ∧ ∀ f : Forest, f.IsTreeOf ks →
      ks.mergeSort (fun a b => cmp a b != .gt) = f.postOrder root ++ [root]

theorem sortsInPostOrder_compare : SortsInPostOrder compare where
  eq_iff a b := by
    obtain ⟨⟨as⟩, ⟨bs⟩⟩ := a, b
    exact (compareIndices_eq_eq_iff as bs).trans (by simp)
  swap a b := swap_compareIndices a.indices b.indices
  trans _ _ _ h₁ h₂ := compareIndices_trans h₁ h₂
  extension a k h hne := by
    have hlt : compareIndices a.indices k.indices = .lt := lt_of_le_of_ne h.le hne
    exact (swap_compareIndices ..).symm.trans (congrArg Ordering.swap hlt)
  interval _ _ _ h hab hbk := h.of_between hab hbk
  parting _ _ _ _ hab _ h ha hb := lt_of_under h hab ha hb
  walk _ hnodup hne hclosed :=
    ⟨⟨_, Forest.isTreeOf_ofKeys hne hclosed⟩, fun _ hf => hf.mergeSort_eq hnodup⟩

/-- The second import of the entry has an import of its own, the first one has two. -/
example :
    (Forest.cons 0 (.cons 0 .nil (.cons 1 .nil .nil)) (.cons 1 (.cons 0 .nil .nil) .nil)).postOrder
      root ++ [root] = [⟨[0, 0]⟩, ⟨[0, 1]⟩, ⟨[0]⟩, ⟨[1, 0]⟩, ⟨[1]⟩, root] := rfl

end TraceKey

end StyleBundle
