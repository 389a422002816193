import StyleBundle.Proofs.Lossless
import StyleBundle.Proofs.LayoutReading

/-!
# Bare rules

A bare rule has lost its spans and the text in front of it, and nothing else. It is what a rule has
in common with its copies elsewhere.
-/

namespace StyleBundle

/-! ## Spans -/

def Declaration.withoutSpan (d : Declaration) : Declaration :=
  { d with span := .none }

mutual

def BodyItem.withoutSpans : BodyItem → BodyItem
  | .declaration d => .declaration d.withoutSpan
  | .rule r => .rule r.withoutSpans

def PlainRule.withoutSpans : PlainRule → PlainRule
  | .statement h _ => .statement h .none
  | .block h items after _ => .block h (itemsWithoutSpans items) after .none

def itemsWithoutSpans : List BodyItem → List BodyItem
  | [] => []
  | i :: is => i.withoutSpans :: itemsWithoutSpans is

end

def Binding.withoutSpan (b : Binding) : Binding :=
  { b with span := .none }

mutual

theorem BodyItem.print_withoutSpans (i : BodyItem) : i.withoutSpans.print = i.print :=
  match i with
  | .declaration _ => rfl
  | .rule r => r.print_withoutSpans

theorem PlainRule.print_withoutSpans (r : PlainRule) : r.withoutSpans.print = r.print :=
  match r with
  | .statement _ _ => rfl
  | .block h items after _ => by
    rw [PlainRule.withoutSpans, PlainRule.print, PlainRule.print, print_itemsWithoutSpans items]

theorem print_itemsWithoutSpans (is : List BodyItem) :
    printItems (itemsWithoutSpans is) = printItems is :=
  match is with
  | [] => rfl
  | i :: is => by
    rw [itemsWithoutSpans, printItems, printItems, i.print_withoutSpans, print_itemsWithoutSpans is]

end

/-! ## Rules -/

namespace PlainRule

/-- The rule without its spans and the text in front. -/
def bare (r : PlainRule) : PlainRule :=
  (r.setBefore "").withoutSpans

/-- The text of a rule without the text in front. -/
def body (r : PlainRule) : String :=
  (r.setBefore "").print

theorem print_bare (r : PlainRule) : r.bare.print = r.body :=
  print_withoutSpans _

def directive? : PlainRule → Option Directive
  | .statement .. => none
  | .block h _ _ _ => Directive.ofPrelude? h.prelude

theorem directive?_bare (r : PlainRule) : r.bare.directive? = r.directive? := by
  cases r <;> rfl

theorem mem_items_of_mem_declarations {r : PlainRule} {d : Declaration}
    (h : d ∈ r.declarations) : .declaration d ∈ r.items := by
  obtain ⟨i, hi, hd⟩ := List.mem_filterMap.mp h
  cases i with
  | declaration =>
    cases hd
    exact hi
  | rule => cases hd

theorem classify_eq_plain_iff {r : PlainRule} : r.classify = .plain r ↔ r.directive? = none := by
  cases r with
  | statement => simp [classify, directive?]
  | block h items after span =>
    unfold classify directive?
    dsimp only
    cases Directive.ofPrelude? h.prelude with
    | none => simp
    | some directive => cases directive <;> simp

end PlainRule

theorem PlainRule.before_classify (r : PlainRule) : r.classify.before = r.header.before := by
  cases r with
  | statement => rfl
  | block h items after span =>
    unfold classify
    dsimp only
    cases Directive.ofPrelude? h.prelude with
    | none => rfl
    | some directive => cases directive <;> rfl

theorem PlainRule.classify_setBefore (r : PlainRule) (before : String) :
    (r.setBefore before).classify = r.classify.setBefore before := by
  cases r with
  | statement => rfl
  | block h items after span =>
    unfold classify
    simp only [setBefore, mapHeader]
    cases Directive.ofPrelude? h.prelude with
    | none => rfl
    | some directive => cases directive <;> rfl

namespace Rule

def withoutSpans : Rule → Rule
  | .plain r => .plain r.withoutSpans
  | .imports r =>
    .imports { r with bindings := r.bindings.map Binding.withoutSpan, span := .none }
  | .exports r =>
    .exports { r with bindings := r.bindings.map Binding.withoutSpan, span := .none }

theorem print_withoutSpans (r : Rule) : r.withoutSpans.print = r.print := by
  have hbindings : ∀ bs : List Binding,
      (bs.map Binding.withoutSpan).map Binding.print = bs.map Binding.print :=
    fun bs => by rw [List.map_map]; rfl
  cases r with
  | plain r => exact r.print_withoutSpans
  | imports r =>
    simp [withoutSpans, Rule.print, ImportRule.print, Binding.printBlock, hbindings]
  | exports r =>
    simp [withoutSpans, Rule.print, ExportRule.print, Binding.printBlock, hbindings]

theorem before_setBefore (before : String) (r : Rule) : (r.setBefore before).before = before := by
  rcases r with (_ | _) | _ | _ <;> rfl

theorem setBefore_before (r : Rule) : r.setBefore r.before = r := by
  rcases r with (_ | _) | _ | _ <;> rfl

theorem setBefore_setBefore (r : Rule) (before before' : String) :
    (r.setBefore before').setBefore before = r.setBefore before := by
  rcases r with (_ | _) | _ | _ <;> rfl

theorem withoutSpans_setBefore (r : Rule) (before : String) :
    (r.setBefore before).withoutSpans = r.withoutSpans.setBefore before := by
  rcases r with (_ | _) | _ | _ <;> rfl

def bare : Rule → Rule
  | .plain r => .plain r.bare
  | .imports r =>
    .imports { r with before := "", bindings := r.bindings.map Binding.withoutSpan, span := .none }
  | .exports r =>
    .exports { r with before := "", bindings := r.bindings.map Binding.withoutSpan, span := .none }

theorem bare_eq (r : Rule) : r.bare = r.withoutSpans.setBefore "" := by
  rcases r with (_ | _) | _ | _ <;> rfl

theorem bare_setBefore (before : String) (r : Rule) : (r.setBefore before).bare = r.bare := by
  rw [bare_eq, withoutSpans_setBefore, setBefore_setBefore, ← bare_eq]

theorem eq_plain_of_bare {r : Rule} {p : PlainRule} (h : r.bare = .plain p) :
    ∃ q, r = .plain q ∧ q.bare = p := by
  cases r with
  | plain q => exact ⟨q, rfl, Rule.plain.inj h⟩
  | imports => cases h
  | exports => cases h

end Rule

def Stylesheet.withoutSpans (s : Stylesheet) : Stylesheet :=
  { s with rules := s.rules.map Rule.withoutSpans }

theorem Stylesheet.print_withoutSpans (s : Stylesheet) : s.withoutSpans.print = s.print := by
  have hrules : s.withoutSpans.rules.map Rule.print = s.rules.map Rule.print := by
    rw [withoutSpans, List.map_map]
    exact List.map_congr_left fun r _ => r.print_withoutSpans
  rw [print, hrules]
  rfl

theorem PlainRule.classify_of_bare {r p : PlainRule} (h : r.classify.bare = .plain p) :
    r.classify = .plain r ∧ r.bare = p := by
  obtain ⟨q, hq, rfl⟩ := Rule.eq_plain_of_bare h
  have hplain : r.classify = .plain r := by
    rw [classify_eq_plain_iff]
    cases r with
    | statement => rfl
    | block head items after span =>
      unfold classify at hq
      dsimp only at hq
      cases hd : Directive.ofPrelude? head.prelude with
      | none => exact hd
      | some directive => cases directive <;> simp [hd] at hq
  rw [hplain] at hq
  cases hq
  exact ⟨hplain, rfl⟩

/-! ## Layouts -/

mutual

theorem ItemLayout.withoutSpans_tree (i : ItemLayout) (m n : Nat) :
    (i.tree m).withoutSpans = (i.tree n).withoutSpans :=
  match i with
  | .declaration _ => rfl
  | .rule r => congrArg BodyItem.rule (r.withoutSpans_tree m n)

theorem RuleLayout.withoutSpans_tree (r : RuleLayout) (m n : Nat) :
    (r.tree m).withoutSpans = (r.tree n).withoutSpans :=
  match r with
  | .statement _ => rfl
  | .block h items strays close => by
    simp only [RuleLayout.tree, PlainRule.withoutSpans]
    rw [itemsWithoutSpans_itemTrees items (h.stopsAt m) (h.stopsAt n)]

/-- Where a layout stands shows in the spans of its tree only. -/
theorem itemsWithoutSpans_itemTrees (is : List ItemLayout) (m n : Nat) :
    itemsWithoutSpans (itemTrees m is) = itemsWithoutSpans (itemTrees n is) :=
  match is with
  | [] => rfl
  | i :: is => by
    simp only [itemTrees, itemsWithoutSpans]
    rw [i.withoutSpans_tree m n, itemsWithoutSpans_itemTrees is]

end

end StyleBundle
