import StyleBundle.Sheet.Edit
import StyleBundle.Sheet.Symbols
import StyleBundle.Proofs.Bare

/-!
# What a removal leaves

A removal walks along the rules and carries the text in front of the first removed rule until a
rule that stays takes it over. What it leaves is told by the rules that stay and the lead of the
sheet alone. So a second removal, if it does not look at places and leads, joins with the first one,
and the header of a document survives whatever is taken out at its head.
-/

namespace StyleBundle

/-- The test looks at the kind and the content of a rule, not at the text in front. -/
def Rule.IgnoresLead (q : Rule → Bool) : Prop :=
  ∀ (r : Rule) (before : String), q (r.setBefore before) = q r

theorem Rule.ignoresLead_isImport : IgnoresLead isImport := by
  rintro (_ | _ | _) before <;> rfl

theorem Rule.ignoresLead_isExport : IgnoresLead isExport := by
  rintro (_ | _ | _) before <;> rfl

namespace Stylesheet

variable {remove : Nat → Rule → Bool} {s : Stylesheet}

def before (s : Stylesheet) : String :=
  (s.rules.head?.map Rule.before).getD ""

/-! ## The walk along the rules -/

structure Sweep where
  removed : List Rule := []
  kept : List Rule := []
  /-- The text in front of the first removed rule, while no rule has taken it over. -/
  leading : Option String := none

def Sweep.visit (remove : Nat → Rule → Bool) (w : Sweep) (e : Rule × Nat) : Sweep :=
  if remove e.2 e.1 then
    { w with
      removed := w.removed ++ [e.1]
      leading := if w.kept.isEmpty && w.leading.isNone then some e.1.before else w.leading }
  else if w.kept.isEmpty then
    match w.leading with
    | some before => { w with kept := w.kept ++ [e.1.setBefore before], leading := none }
    | none => { w with kept := w.kept ++ [e.1] }
  else
    { w with kept := w.kept ++ [e.1] }

def sweep (remove : Nat → Rule → Bool) (s : Stylesheet) : List Rule × Stylesheet :=
  let w := s.rules.zipIdx.foldl (Sweep.visit remove) {}
  (w.removed, { s with rules := w.kept })

def going (remove : Nat → Rule → Bool) (es : List (Rule × Nat)) : List Rule :=
  (es.filter fun e => remove e.2 e.1).map Prod.fst

def staying (remove : Nat → Rule → Bool) (es : List (Rule × Nat)) : List Rule :=
  (es.filter fun e => !remove e.2 e.1).map Prod.fst

variable {e : Rule × Nat}

theorem going_cons (es : List (Rule × Nat)) :
    going remove (e :: es) =
      if remove e.2 e.1 then e.1 :: going remove es else going remove es := by
  by_cases h : remove e.2 e.1 <;> simp [going, h]

theorem staying_cons (es : List (Rule × Nat)) :
    staying remove (e :: es) =
      if remove e.2 e.1 then staying remove es else e.1 :: staying remove es := by
  by_cases h : remove e.2 e.1 <;> simp [staying, h]

/-- Once a rule has stayed, the walk hands over nothing. -/
theorem foldl_visit_of_kept (removed : List Rule) {kept : List Rule} (hkept : kept ≠ [])
    (es : List (Rule × Nat)) :
    es.foldl (Sweep.visit remove) { removed, kept } =
      { removed := removed ++ going remove es, kept := kept ++ staying remove es } := by
  induction es generalizing removed kept with
  | nil => simp [going, staying]
  | cons e es ih =>
    rw [List.foldl_cons, going_cons, staying_cons]
    by_cases hgoes : remove e.2 e.1
    · have hvisit : Sweep.visit remove { removed, kept } e =
          { removed := removed ++ [e.1], kept } := by simp [Sweep.visit, hgoes, hkept]
      rw [hvisit, ih _ hkept, if_pos hgoes, if_pos hgoes, List.append_assoc, List.singleton_append]
    · have hvisit : Sweep.visit remove { removed, kept } e =
          { removed, kept := kept ++ [e.1] } := by simp [Sweep.visit, hgoes, hkept]
      rw [hvisit, ih _ (by simp), if_neg hgoes, if_neg hgoes, List.append_assoc,
        List.singleton_append]

/-- While no rule has stayed, the walk carries the lead to the first one that stays. -/
theorem foldl_visit_of_leading (removed : List Rule) (before : String) (es : List (Rule × Nat)) :
    let w := es.foldl (Sweep.visit remove) { removed, leading := some before }
    w.removed = removed ++ going remove es ∧ w.kept = leadWith before (staying remove es) := by
  induction es generalizing removed with
  | nil => simp [going, staying, leadWith]
  | cons e es ih =>
    rw [List.foldl_cons, going_cons, staying_cons]
    by_cases hgoes : remove e.2 e.1
    · have hvisit : Sweep.visit remove { removed, leading := some before } e =
          { removed := removed ++ [e.1], leading := some before } := by simp [Sweep.visit, hgoes]
      rw [hvisit, if_pos hgoes, if_pos hgoes, List.append_cons removed e.1 (going remove es)]
      exact ih (removed ++ [e.1])
    · have hvisit : Sweep.visit remove { removed, leading := some before } e =
          { removed, kept := [e.1.setBefore before] } := by simp [Sweep.visit, hgoes]
      rw [hvisit, foldl_visit_of_kept _ (List.cons_ne_nil _ _), if_neg hgoes, if_neg hgoes]
      exact ⟨rfl, rfl⟩

theorem foldl_visit (remove : Nat → Rule → Bool) (es : List (Rule × Nat)) :
    let w := es.foldl (Sweep.visit remove) {}
    w.removed = going remove es ∧
      w.kept = leadWith (before { rules := es.map Prod.fst }) (staying remove es) := by
  cases es with
  | nil => exact ⟨rfl, rfl⟩
  | cons e es =>
    rw [List.foldl_cons, going_cons, staying_cons]
    by_cases hgoes : remove e.2 e.1
    · have hvisit : Sweep.visit remove {} e =
          { removed := [e.1], leading := some e.1.before } := by simp [Sweep.visit, hgoes]
      rw [hvisit, if_pos hgoes, if_pos hgoes]
      exact foldl_visit_of_leading [e.1] e.1.before es
    · -- A rule that stays at the head keeps its own text in front.
      have hvisit : Sweep.visit remove {} e = { kept := [e.1.setBefore e.1.before] } := by
        simp [Sweep.visit, hgoes, Rule.setBefore_before]
      rw [hvisit, foldl_visit_of_kept _ (List.cons_ne_nil _ _), if_neg hgoes, if_neg hgoes]
      exact ⟨rfl, rfl⟩

theorem removeRules_eq (remove : Nat → Rule → Bool) (s : Stylesheet) :
    s.removeRules remove =
      (going remove s.rules.zipIdx,
        { s with rules := leadWith s.before (staying remove s.rules.zipIdx) }) := by
  obtain ⟨rules, trailing⟩ := s
  cases rules <;> rfl

theorem sweep_eq_removeRules (remove : Nat → Rule → Bool) (s : Stylesheet) :
    s.sweep remove = s.removeRules remove := by
  obtain ⟨hremoved, hkept⟩ := foldl_visit remove s.rules.zipIdx
  rw [List.zipIdx_map_fst] at hkept
  rw [removeRules_eq, sweep, hremoved, hkept]
  rfl

/-! ## The rules that go and the rules that stay -/

/-- The rules from the place `i` on are dealt out, in order, to those that go and those that
stay. -/
inductive Deals (remove : Nat → Rule → Bool) : Nat → List Rule → List Rule → List Rule → Prop where
  | nil (i : Nat) : Deals remove i [] [] []
  | goes {i : Nat} {r : Rule} {rules out kept : List Rule} :
      remove i r = true → Deals remove (i + 1) rules out kept →
      Deals remove i (r :: rules) (r :: out) kept
  | stays {i : Nat} {r : Rule} {rules out kept : List Rule} :
      remove i r = false → Deals remove (i + 1) rules out kept →
      Deals remove i (r :: rules) out (r :: kept)

theorem deals_iff {i : Nat} {rules out kept : List Rule} :
    Deals remove i rules out kept ↔
      out = going remove (rules.zipIdx i) ∧ kept = staying remove (rules.zipIdx i) := by
  constructor
  · intro h
    induction h with
    | nil => exact ⟨rfl, rfl⟩
    | goes hgoes _ ih =>
      rw [List.zipIdx_cons, going_cons, staying_cons, if_pos hgoes, if_pos hgoes, ← ih.1]
      exact ⟨rfl, ih.2⟩
    | stays hstays _ ih =>
      have hgoes := Bool.eq_false_iff.mp hstays
      rw [List.zipIdx_cons, going_cons, staying_cons, if_neg hgoes, if_neg hgoes, ← ih.2]
      exact ⟨ih.1, rfl⟩
  · rintro ⟨rfl, rfl⟩
    induction rules generalizing i with
    | nil => exact .nil i
    | cons r rules ih =>
      rw [List.zipIdx_cons, going_cons, staying_cons]
      by_cases hgoes : remove i r
      · rw [if_pos hgoes, if_pos hgoes]
        exact .goes hgoes ih
      · rw [if_neg hgoes, if_neg hgoes]
        exact .stays (Bool.eq_false_iff.mpr hgoes) ih

/-- What a removal makes of a sheet: the rules `out` are taken out as they are, and `left` has the
others in order, with the lead of the sheet in front of the first one. -/
structure Removes (s : Stylesheet) (remove : Nat → Rule → Bool) (out : List Rule)
    (left : Stylesheet) : Prop where
  rules : ∃ kept, Deals remove 0 s.rules out kept ∧ left.rules = leadWith s.before kept
  trailing : left.trailing = s.trailing

theorem removes_iff {out : List Rule} {left : Stylesheet} :
    s.Removes remove out left ↔ s.removeRules remove = (out, left) := by
  rw [removeRules_eq]
  constructor
  · rintro ⟨⟨kept, hdeals, hrules⟩, htrailing⟩
    obtain ⟨rfl, rfl⟩ := deals_iff.mp hdeals
    rw [← hrules, ← htrailing]
  · intro h
    cases h
    exact ⟨⟨_, deals_iff.mpr ⟨rfl, rfl⟩, rfl⟩, rfl⟩

/-! ## One removal after the other -/

theorem filter_leadWith {q : Rule → Bool} (hq : Rule.IgnoresLead q) (before : String)
    (rules : List Rule) :
    leadWith before ((leadWith before rules).filter q) = leadWith before (rules.filter q) := by
  cases rules with
  | nil => rfl
  | cons r rules =>
    rw [leadWith, List.filter_cons, List.filter_cons, hq]
    split
    · rw [leadWith, leadWith, Rule.setBefore_setBefore]
    · rfl

theorem staying_staying (p : Nat → Rule → Bool) (q : Rule → Bool) (es : List (Rule × Nat)) :
    (staying p es).filter (!q ·) = staying (fun i r => p i r || q r) es := by
  rw [staying, staying, List.filter_map, List.filter_filter]
  congr 2
  funext e
  simp [Bool.and_comm]

theorem staying_zipIdx (q : Rule → Bool) (rules : List Rule) :
    staying (fun _ => q) rules.zipIdx = rules.filter (!q ·) := by
  conv => rhs; rw [← List.zipIdx_map_fst 0 rules, List.filter_map]
  rfl

/-- A second removal that does not look at places and leads could have been made with the first
one. -/
theorem removeRules_removeRules (s : Stylesheet) (p : Nat → Rule → Bool) {q : Rule → Bool}
    (hq : Rule.IgnoresLead q) :
    ((s.removeRules p).2.removeRules fun _ => q).2 =
      (s.removeRules fun i r => p i r || q r).2 := by
  have hnot : Rule.IgnoresLead (!q ·) := fun r before => congrArg (!·) (hq r before)
  rw [removeRules_eq p, removeRules_eq, removeRules_eq, ← staying_staying, staying_zipIdx]
  -- Without a rule that stays there is no lead to speak of.
  cases h : staying p s.rules.zipIdx with
  | nil => rfl
  | cons r rules =>
    have hlead : before { s with rules := leadWith s.before (r :: rules) } = s.before :=
      r.before_setBefore s.before
    simp only [hlead, filter_leadWith hnot]

theorem removeRules_comm (s : Stylesheet) {q q' : Rule → Bool} (hq : Rule.IgnoresLead q)
    (hq' : Rule.IgnoresLead q') :
    ((s.removeRules fun _ => q).2.removeRules fun _ => q').2 =
      ((s.removeRules fun _ => q').2.removeRules fun _ => q).2 := by
  rw [removeRules_removeRules s _ hq', removeRules_removeRules s _ hq]
  simp only [Bool.or_comm]

/-! ## Symbols -/

theorem removeRules_replaceSymbols (s : Stylesheet) (t : Replacements) {q : Rule → Bool}
    (hq : ∀ r, q (r.replaceSymbols t) = q r) :
    ((s.replaceSymbols t).removeRules fun _ => q).2 =
      (s.removeRules fun _ => q).2.replaceSymbols t := by
  have hbefore : ∀ r : Rule, (r.replaceSymbols t).before = r.before := by
    rintro ((_ | _) | _ | _) <;> rfl
  have hsetBefore : ∀ (r : Rule) (before : String),
      (r.setBefore before).replaceSymbols t = (r.replaceSymbols t).setBefore before := by
    rintro ((_ | _) | _ | _) before <;> rfl
  have hlead : (s.replaceSymbols t).before = s.before := by
    rw [before, before, replaceSymbols, List.head?_map, Option.map_map]
    exact congrArg (Option.getD · "") (Option.map_congr fun r _ => hbefore r)
  have hfilter : (s.rules.map (Rule.replaceSymbols t)).filter (!q ·) =
      (s.rules.filter (!q ·)).map (Rule.replaceSymbols t) := by
    rw [List.filter_map]
    congr 2
    funext r
    exact congrArg (!·) (hq r)
  rw [removeRules_eq, removeRules_eq, staying_zipIdx, staying_zipIdx, hlead]
  simp only [replaceSymbols, hfilter]
  cases s.rules.filter (!q ·) with
  | nil => rfl
  | cons r rules => simp [leadWith, hsetBefore]

/-- The resolver takes out the imports at the given places, replaces symbols and takes out the
exports: what is left is what one removal leaves, with symbols replaced. -/
theorem takeExports_replaceSymbols_removeRules (s : Stylesheet) (p : Nat → Rule → Bool)
    (t : Replacements) :
    ((s.removeRules p).2.replaceSymbols t).takeExports.2 =
      (s.removeRules fun i r => p i r || r.isExport).2.replaceSymbols t := by
  have hexport : ∀ r : Rule, (r.replaceSymbols t).isExport = r.isExport := by
    rintro (_ | _ | _) <;> rfl
  rw [← removeRules_removeRules s p Rule.ignoresLead_isExport]
  exact removeRules_replaceSymbols _ t hexport

/-! ## What holds of every removal -/

/-- How removals from a sheet work, one by one and one after the other. -/
structure RemovalLaws (s : Stylesheet) : Prop where
  /-- The walk that carries the lead makes each removal. -/
  sweep : ∀ remove, s.sweep remove = s.removeRules remove
  /-- Rules are taken out and stay in order and as they are, but for the lead. -/
  removes : ∀ remove out left,
    s.removeRules remove = (out, left) ↔ s.Removes remove out left
  fuse : ∀ (p : Nat → Rule → Bool) (q : Rule → Bool), Rule.IgnoresLead q →
    ((s.removeRules p).2.removeRules fun _ => q).2 = (s.removeRules fun i r => p i r || q r).2
  comm : ∀ q q' : Rule → Bool, Rule.IgnoresLead q → Rule.IgnoresLead q' →
    ((s.removeRules fun _ => q).2.removeRules fun _ => q').2 =
      ((s.removeRules fun _ => q').2.removeRules fun _ => q).2
  /-- Imports and exports can be taken out in either order. -/
  importsAndExports :
    (s.removeRules fun _ => Rule.isImport).2.takeExports.2 =
      (s.takeExports.2.removeRules fun _ => Rule.isImport).2

theorem removalLaws (s : Stylesheet) : s.RemovalLaws where
  sweep remove := sweep_eq_removeRules remove s
  removes _ _ _ := removes_iff.symm
  fuse p _ hq := removeRules_removeRules s p hq
  comm _ _ hq hq' := removeRules_comm s hq hq'
  importsAndExports := removeRules_comm s Rule.ignoresLead_isImport Rule.ignoresLead_isExport

/-- A failed import stays behind a resolved one and an export, and has the header in front. -/
theorem removalLaws_failedImport :
    let resolved := .imports { before := "/* m */ ", source := "a", bindings := [] }
    let exports := .exports { before := " ", bindings := [] }
    let failed : ImportRule := { before := "; ", source := "b", bindings := [] }
    let s : Stylesheet := { rules := [resolved, exports, .imports failed], trailing := " " }
    Rule.IgnoresLead Rule.isExport ∧
      ((s.removeRules fun i _ => i == 0).2.removeRules fun _ => Rule.isExport).2 =
        { s with rules := [.imports { failed with before := "/* m */ " }] } :=
  ⟨Rule.ignoresLead_isExport, (removalLaws _).fuse _ _ Rule.ignoresLead_isExport⟩

end Stylesheet

end StyleBundle
