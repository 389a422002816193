import Mathlib.Data.List.Induction
import Mathlib.Order.Basic
import StyleBundle.TraceKey

/-!
# The order of trace keys

Trace keys are ordered linearly. A key comes after all its extensions, and the extensions of a key
lie together: what lies between a key and one of its extensions extends the key as well. Two keys
that part at an index stay in the order of that index however they are extended.
-/

namespace StyleBundle.TraceKey

/-! ## Lists of indices -/

theorem compareIndices_cons (a b : Nat) (as bs : List Nat) :
    compareIndices (a :: as) (b :: bs) = .lt ↔ a < b ∨ a = b ∧ compareIndices as bs = .lt := by
  simp only [compareIndices, Ordering.then_eq_lt, Nat.compare_eq_lt, Nat.compare_eq_eq]

theorem compareIndices_eq_eq_iff (as bs : List Nat) : compareIndices as bs = .eq ↔ as = bs := by
  induction as generalizing bs with
  | nil => cases bs <;> simp [compareIndices]
  | cons a as ih =>
    cases bs with
    | nil => simp [compareIndices]
    | cons b bs => simp [compareIndices, Ordering.then_eq_eq, ih]

theorem swap_compareIndices (as bs : List Nat) :
    (compareIndices as bs).swap = compareIndices bs as := by
  induction as generalizing bs with
  | nil => cases bs <;> rfl
  | cons a as ih =>
    cases bs with
    | nil => rfl
    | cons b bs => rw [compareIndices, compareIndices, Ordering.swap_then, Nat.compare_swap, ih]

theorem compareIndices_trans {as bs cs : List Nat} (h₁ : compareIndices as bs = .lt)
    (h₂ : compareIndices bs cs = .lt) : compareIndices as cs = .lt := by
  induction as generalizing bs cs with
  | nil => cases bs <;> simp [compareIndices] at h₁
  | cons a as ih =>
    cases cs with
    | nil => rfl
    | cons c cs =>
      cases bs with
      | nil => simp [compareIndices] at h₂
      | cons b bs =>
        rw [compareIndices_cons] at h₁ h₂ ⊢
        rcases h₁ with h₁ | ⟨rfl, h₁⟩
        · rcases h₂ with h₂ | ⟨rfl, -⟩
          · exact .inl (Nat.lt_trans h₁ h₂)
          · exact .inl h₁
        · rcases h₂ with h₂ | ⟨rfl, h₂⟩
          · exact .inl h₂
          · exact .inr ⟨rfl, ih h₁ h₂⟩

theorem compareIndices_append (cs as bs : List Nat) :
    compareIndices (cs ++ as) (cs ++ bs) = compareIndices as bs := by
  induction cs with
  | nil => rfl
  | cons c cs ih => simp [compareIndices, ih]

/-! ## The linear order -/

instance : LT TraceKey := ⟨fun a b => compare a b = .lt⟩

instance : LE TraceKey := ⟨fun a b => compare a b ≠ .gt⟩

theorem lt_def {a b : TraceKey} : a < b ↔ compareIndices a.indices b.indices = .lt := Iff.rfl

theorem le_def {a b : TraceKey} : a ≤ b ↔ compareIndices a.indices b.indices ≠ .gt := Iff.rfl

theorem le_iff_not_lt {a b : TraceKey} : a ≤ b ↔ ¬ b < a := by
  rw [le_def, lt_def, ← swap_compareIndices, ne_eq, Ordering.swap_eq_gt]

theorem le_iff_lt_or_eq {a b : TraceKey} : a ≤ b ↔ a < b ∨ a = b := by
  have heq := compareIndices_eq_eq_iff a.indices b.indices
  rw [le_def, lt_def, show a = b ↔ a.indices = b.indices by cases a; cases b; simp, ← heq]
  cases compareIndices a.indices b.indices <;> simp

instance : LinearOrder TraceKey where
  le_refl a := le_iff_lt_or_eq.mpr (.inr rfl)
  le_trans a b c h₁ h₂ := by
    rcases le_iff_lt_or_eq.mp h₁ with h₁ | rfl
    · rcases le_iff_lt_or_eq.mp h₂ with h₂ | rfl
      · exact le_iff_lt_or_eq.mpr (.inl (compareIndices_trans h₁ h₂))
      · exact le_iff_lt_or_eq.mpr (.inl h₁)
    · exact h₂
  le_antisymm a b h₁ h₂ := (le_iff_lt_or_eq.mp h₁).resolve_left (le_iff_not_lt.mp h₂)
  lt_iff_le_not_ge a b := by
    rw [le_iff_not_lt (a := b), not_not, le_iff_lt_or_eq]
    exact ⟨fun h => ⟨.inl h, h⟩, And.right⟩
  le_total a b := by
    rw [le_iff_not_lt, le_iff_lt_or_eq, ← or_assoc]
    exact .inl (em' (b < a))
  toDecidableLE a b := inferInstanceAs (Decidable (compare a b ≠ .gt))
  compare_eq_compareOfLessAndEq a b := by
    have heq := compareIndices_eq_eq_iff a.indices b.indices
    have he : a = b ↔ a.indices = b.indices := by cases a; cases b; simp
    change compareIndices a.indices b.indices = _
    unfold compareOfLessAndEq
    split
    · next h => exact h
    · next h =>
      rw [lt_def] at h
      split
      · next h' => rw [heq, ← he, h']
      · next h' =>
        rw [he, ← heq] at h'
        cases hc : compareIndices a.indices b.indices <;> simp_all

theorem pairwise_mergeSort {α : Type} (key : α → TraceKey) (es : List α) :
    (es.mergeSort fun a b => compare (key a) (key b) != .gt).Pairwise
      fun a b => key a ≤ key b := by
  refine (List.pairwise_mergeSort (fun a b c hab hbc => ?_) (fun a b => ?_) es).imp bne_iff_ne.mp
  · simp only [bne_iff_ne] at hab hbc ⊢
    exact le_trans (a := key a) (b := key b) (c := key c) hab hbc
  · simp only [Bool.or_eq_true, bne_iff_ne]
    exact le_total (key a) (key b)

/-! ## Extensions -/

/-- Whether `a` is `b` or extends it, so that it stands in the tree below `b`. -/
def Under (a b : TraceKey) : Prop :=
  b.indices <+: a.indices

theorem Under.refl (a : TraceKey) : a.Under a := List.prefix_rfl

theorem Under.trans {a b c : TraceKey} (h₁ : a.Under b) (h₂ : b.Under c) : a.Under c :=
  List.IsPrefix.trans h₂ h₁

theorem under_root (a : TraceKey) : a.Under root := List.nil_prefix

theorem child_under (k : TraceKey) (i : Nat) : (k.child i).Under k := List.prefix_append ..

theorem child_ne_root (k : TraceKey) (i : Nat) : k.child i ≠ root := by
  simp [child, root]

theorem child_ne_self (k : TraceKey) (i : Nat) : k.child i ≠ k := fun h => by
  simpa [child] using congrArg (fun k : TraceKey => k.indices.length) h

theorem child_inj {k k' : TraceKey} {i i' : Nat} (h : k.child i = k'.child i') :
    k = k' ∧ i = i' := by
  cases k; cases k'
  simp only [child, mk.injEq] at h
  obtain ⟨h₁, h₂⟩ := List.append_inj' h rfl
  simp_all

theorem eq_root_or_child (k : TraceKey) :
    k = root ∨ ∃ (k' : TraceKey) (i : Nat), k = k'.child i := by
  obtain ⟨is⟩ := k
  rcases List.eq_nil_or_concat is with rfl | ⟨is, i, rfl⟩
  · exact .inl rfl
  · exact .inr ⟨⟨is⟩, i, by simp [child]⟩

@[elab_as_elim]
theorem child_induction {motive : TraceKey → Prop} (root : motive root)
    (child : ∀ k i, motive k → motive (k.child i)) (k : TraceKey) : motive k := by
  obtain ⟨is⟩ := k
  induction is using List.reverseRecOn with
  | nil => exact root
  | append_singleton is i ih => exact child ⟨is⟩ i ih

/-- A key below a child is not the parent, and a key below the parent that is not the parent is
below one of its children. -/
theorem under_iff_child {a k : TraceKey} : a.Under k ↔ a = k ∨ ∃ i, a.Under (k.child i) := by
  constructor
  · rintro ⟨ts, h⟩
    obtain ⟨is⟩ := a
    cases ts with
    | nil => exact .inl (by cases k; simp_all)
    | cons t ts => exact .inr ⟨t, ts, by simpa [child] using h⟩
  · rintro (rfl | ⟨i, h⟩)
    · exact .refl _
    · exact h.trans (child_under k i)

theorem Under.child_cases {a b : TraceKey} {i : Nat} (h : (a.child i).Under b) :
    a.child i = b ∨ a.Under b := by
  rcases List.prefix_concat_iff.mp h with h | h
  · exact .inl (by cases b; simp_all [child])
  · exact .inr h

theorem Under.le {a b : TraceKey} (h : a.Under b) : a ≤ b := by
  obtain ⟨ts, h⟩ := h
  rw [le_def, ← h]
  have := compareIndices_append b.indices ts []
  rw [List.append_nil] at this
  rw [this]
  cases ts <;> simp [compareIndices]

theorem child_lt (k : TraceKey) (i : Nat) : k.child i < k := by
  exact lt_of_le_of_ne (child_under k i).le (child_ne_self k i)

theorem child_lt_child (k : TraceKey) {i j : Nat} (h : i < j) : k.child i < k.child j := by
  rw [lt_def]
  simp only [child, compareIndices_append, compareIndices_cons]
  exact .inl h

/-- Keys that part at an index stay in the order of that index. -/
theorem lt_of_under {a b a' b' : TraceKey} (h : a < b) (hab : ¬ a.Under b) (ha : a'.Under a)
    (hb : b'.Under b) : a' < b' := by
  obtain ⟨⟨as⟩, ⟨bs⟩⟩ := a, b
  obtain ⟨as', ha⟩ := ha
  obtain ⟨bs', hb⟩ := hb
  rw [lt_def, ← ha, ← hb]
  rw [lt_def] at h
  dsimp only at h ⊢
  clear ha hb a' b'
  induction as generalizing bs with
  | nil => cases bs <;> simp [compareIndices] at h
  | cons x as ih =>
    cases bs with
    | nil => exact absurd List.nil_prefix hab
    | cons y bs =>
      rw [compareIndices_cons] at h
      simp only [List.cons_append]
      rw [compareIndices_cons]
      rcases h with h | ⟨rfl, h⟩
      · exact .inl h
      · exact .inr ⟨rfl, ih bs h fun hp => hab (List.cons_prefix_cons.mpr ⟨rfl, hp⟩)⟩

/-- What lies between a key and one of its extensions extends the key. -/
theorem Under.of_between {a b k : TraceKey} (ha : a.Under k) (hab : a ≤ b) (hbk : b ≤ k) :
    b.Under k := by
  by_contra hb
  rcases lt_or_eq_of_le hbk with h | rfl
  · exact absurd (lt_of_under h hb (.refl b) ha) (not_lt.mpr hab)
  · exact hb (.refl b)

/-! ## The order of first visits -/

/-- A walk comes to a key before it comes to the extensions of the key. -/
def VisitedBefore (a b : TraceKey) : Prop :=
  a.indices < b.indices

theorem VisitedBefore.trans {a b c : TraceKey} (h₁ : a.VisitedBefore b)
    (h₂ : b.VisitedBefore c) : a.VisitedBefore c :=
  List.lt_trans h₁ h₂

theorem VisitedBefore.asymm {a b : TraceKey} (h : a.VisitedBefore b) : ¬ b.VisitedBefore a :=
  List.lt_asymm h

theorem visitedBefore_child (k : TraceKey) (i : Nat) : k.VisitedBefore (k.child i) := by
  have h : k.indices ++ [] < k.indices ++ [i] := List.append_left_lt (List.nil_lt_cons i [])
  rwa [List.append_nil] at h

/-- All that extends an index of a key is visited before the next one. -/
theorem Under.visitedBefore {a k : TraceKey} {i j : Nat} (h : a.Under (k.child i)) (hij : i < j) :
    a.VisitedBefore (k.child j) := by
  obtain ⟨ts, h⟩ := h
  unfold VisitedBefore
  rw [← h]
  simp only [child, List.append_assoc]
  exact List.append_left_lt (List.cons_lt_cons_iff.mpr (.inl hij))

theorem visitedBefore_of_lt {a b : TraceKey} (h : a < b) (hab : ¬ a.Under b) :
    a.VisitedBefore b := by
  obtain ⟨⟨as⟩, ⟨bs⟩⟩ := a, b
  unfold VisitedBefore
  unfold Under at hab
  rw [lt_def] at h
  dsimp only at h hab ⊢
  induction as generalizing bs with
  | nil => cases bs <;> simp [compareIndices] at h
  | cons a as ih =>
    cases bs with
    | nil => exact absurd List.nil_prefix hab
    | cons b bs =>
      rw [List.cons_lt_cons_iff]
      rcases (compareIndices_cons a b as bs).mp h with hlt | ⟨rfl, h'⟩
      · exact .inl hlt
      · exact .inr ⟨rfl, ih bs h' fun hp => hab (List.cons_prefix_cons.mpr ⟨rfl, hp⟩)⟩

end StyleBundle.TraceKey
