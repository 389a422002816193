import StyleBundle.Sheet.Basic

/-!
# Removing rules

The rules that stay keep their order and their text. When the first rule of a sheet goes, the first
one that stays takes over the text in front of it, so that a header stays at the top.
-/

namespace StyleBundle.Stylesheet

/-- Puts the text `before` in front of the first rule. -/
def leadWith (before : String) : List Rule → List Rule
  | [] => []
  | r :: rs => r.setBefore before :: rs

theorem exists_of_mem_leadWith {before : String} {rules : List Rule} {r : Rule}
    (h : r ∈ leadWith before rules) : ∃ q ∈ rules, r = q ∨ r = q.setBefore before := by
  cases rules with
  | nil => cases h
  | cons q rules =>
    rcases List.mem_cons.mp h with rfl | h
    · exact ⟨q, List.mem_cons_self, .inr rfl⟩
    · exact ⟨r, List.mem_cons_of_mem q h, .inl rfl⟩

/-- Removes the rules for which `remove` holds of the index and the rule: the removed rules in
order, and the sheet that is left. -/
def removeRules (remove : Nat → Rule → Bool) (s : Stylesheet) : List Rule × Stylesheet :=
  let indexed := s.rules.zipIdx
  let removed := indexed.filter fun (r, i) => remove i r
  let kept := (indexed.filter fun (r, i) => !remove i r).map Prod.fst
  let rules :=
    match s.rules with
    | [] => []
    | first :: _ => leadWith first.before kept
  (removed.map Prod.fst, { s with rules })

/-- Removes the export rules: those rules in order, and the sheet that is left. -/
def takeExports (s : Stylesheet) : List ExportRule × Stylesheet :=
  let (removed, s) := s.removeRules fun _ r => r.isExport
  (removed.filterMap Rule.asExport?, s)

end StyleBundle.Stylesheet
