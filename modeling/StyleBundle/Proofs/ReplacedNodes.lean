import StyleBundle.Proofs.AtRules
import StyleBundle.Proofs.Nodes

/-!
# What replacing symbols changes in a tree

Replacing symbols is a change of each node by itself. It reaches the values of declarations and the
preludes of two kinds of at-rules, and of these only what is behind the name and its white space.
-/

namespace StyleBundle

variable {t : Replacements}

/-! ## Replacing node by node -/

def Node.replaceSymbols (t : Replacements) : Node → Node
  | .statement h s => .statement (h.replaceSymbols t) s
  | .block h size after s => .block (h.replaceSymbols t) size after s
  | .declaration d => .declaration (d.replaceSymbols t)
  | n => n

theorem replaceItems_eq_map (t : Replacements) (is : List BodyItem) :
    replaceItems t is = is.map (BodyItem.replaceSymbols t) := by
  induction is with
  | nil => rfl
  | cons i is ih => rw [replaceItems, List.map_cons, ih]

theorem PlainRule.items_replaceSymbols (t : Replacements) (r : PlainRule) :
    (r.replaceSymbols t).items = r.items.map (BodyItem.replaceSymbols t) := by
  cases r with
  | statement => rfl
  | block h items after s => exact replaceItems_eq_map t items

theorem BodyItem.node?_replaceSymbols (t : Replacements) (address : List Nat) (i : BodyItem) :
    (i.replaceSymbols t).node? address = (i.node? address).map (Node.replaceSymbols t) := by
  induction address generalizing i with
  | nil =>
    rcases i with d | (_ | ⟨h, items, after, s⟩)
    · rfl
    · rfl
    · simp [BodyItem.replaceSymbols, PlainRule.replaceSymbols, BodyItem.node?,
        Node.replaceSymbols, replaceItems_eq_map]
  | cons k address ih =>
    cases i with
    | declaration => rfl
    | rule r =>
      simp only [BodyItem.replaceSymbols, BodyItem.node?, PlainRule.items_replaceSymbols,
        List.getElem?_map]
      cases r.items[k]? with
      | none => rfl
      | some i => exact ih i

theorem Rule.node?_replaceSymbols (t : Replacements) (address : List Nat) (r : Rule) :
    (r.replaceSymbols t).node? address = (r.node? address).map (Node.replaceSymbols t) := by
  cases r with
  | plain r => exact (BodyItem.rule r).node?_replaceSymbols t address
  | imports => cases address <;> rfl
  | exports => cases address <;> rfl

/-- Replacing the symbols of a sheet replaces those of each node by itself. -/
theorem Stylesheet.node?_replaceSymbols (t : Replacements) (s : Stylesheet) (address : List Nat) :
    (s.replaceSymbols t).node? address = (s.node? address).map (Node.replaceSymbols t) := by
  cases address with
  | nil => simp [Stylesheet.replaceSymbols, Stylesheet.node?, Node.replaceSymbols]
  | cons i address =>
    simp only [Stylesheet.replaceSymbols, Stylesheet.node?, List.getElem?_map]
    cases s.rules[i]? with
    | none => rfl
    | some r => exact r.node?_replaceSymbols t address

/-! ## What becomes of a node -/

/-- All but the parameters of an at-rule that takes symbols stays as it is, and so does the name of
that at-rule. -/
structure Header.Becomes (t : Replacements) (h h' : Header) : Prop where
  before : h'.before = h.before
  between : h'.between = h.between
  taken : ∀ a : AtRule, a.Splits h.prelude → a.takesSymbols →
    h'.prelude = "@" ++ a.name ++ a.blank ++ substitute t a.params
  kept : (∀ a : AtRule, a.Splits h.prelude → a.takesSymbols = false) → h'.prelude = h.prelude
  name : ∀ a : AtRule, a.Splits h.prelude → ∃ b : AtRule, b.Splits h'.prelude ∧ b.name = a.name

theorem Header.becomes_iff {h h' : Header} : h.Becomes t h' ↔ h' = h.replaceSymbols t := by
  constructor
  · rintro ⟨hbefore, hbetween, htaken, hkept, -⟩
    have hprelude : h'.prelude = AtRule.replaceSymbols t h.prelude := by
      by_cases htakes : ∃ a : AtRule, a.Splits h.prelude ∧ a.takesSymbols
      · obtain ⟨a, ha, htakes⟩ := htakes
        rw [htaken a ha htakes, ha.replaceSymbols_eq htakes, AtRule.prelude]
      · have hall : ∀ a : AtRule, a.Splits h.prelude → a.takesSymbols = false :=
          fun a ha => Bool.eq_false_iff.mpr fun h => htakes ⟨a, ha, h⟩
        rw [hkept hall, AtRule.replaceSymbols_eq_self hall]
    rw [Header.replaceSymbols, ← hprelude, ← hbefore, ← hbetween]
  · rintro rfl
    refine ⟨rfl, rfl, fun a ha htakes => ?_, fun hall => ?_, fun a ha => ?_⟩
    · exact ha.replaceSymbols_eq htakes t
    · exact AtRule.replaceSymbols_eq_self hall t
    · exact ha.exists_replaceSymbols t

/-- What a node may become: directives and all that holds the tree together stay, and so do all
fields but the prelude of a head and the value of a declaration. -/
inductive Node.Becomes (t : Replacements) : Node → Node → Prop where
  | sheet (size : Nat) (trailing : String) : Becomes t (.sheet size trailing) (.sheet size trailing)
  | imports (r : ImportRule) : Becomes t (.imports r) (.imports r)
  | exports (r : ExportRule) : Becomes t (.exports r) (.exports r)
  | statement {h h' : Header} (s : Span) :
      h.Becomes t h' → Becomes t (.statement h s) (.statement h' s)
  | block {h h' : Header} (size : Nat) (after : String) (s : Span) :
      h.Becomes t h' → Becomes t (.block h size after s) (.block h' size after s)
  | declaration (d : Declaration) :
      Becomes t (.declaration d) (.declaration { d with value := substitute t d.value })

theorem Node.becomes_iff {n n' : Node} : n.Becomes t n' ↔ n' = n.replaceSymbols t := by
  constructor
  · rintro (_ | _ | _ | ⟨s, h⟩ | ⟨size, after, s, h⟩ | _)
    · rfl
    · rfl
    · rfl
    · rw [Header.becomes_iff.mp h, Node.replaceSymbols]
    · rw [Header.becomes_iff.mp h, Node.replaceSymbols]
    · rfl
  · rintro rfl
    cases n with
    | sheet size trailing => exact .sheet size trailing
    | imports r => exact .imports r
    | exports r => exact .exports r
    | statement h s => exact .statement s (Header.becomes_iff.mpr rfl)
    | block h size after s => exact .block size after s (Header.becomes_iff.mpr rfl)
    | declaration d => exact .declaration d

theorem rel_becomes_iff {n n' : Option Node} :
    Option.Rel (Node.Becomes t) n n' ↔ n' = n.map (Node.replaceSymbols t) := by
  cases n <;> cases n' <;> simp [Node.becomes_iff]

/-! ## A walk with byte offsets -/

mutual

def BodyItem.replaceSliced? (t : Replacements) : BodyItem → Option BodyItem
  | .declaration d => return .declaration { d with value := substitute t d.value }
  | .rule r => return .rule (← r.replaceSliced? t)

def PlainRule.replaceSliced? (t : Replacements) : PlainRule → Option PlainRule
  | .statement h s => do
    let prelude ← AtRule.replaceSliced? t h.prelude
    return .statement { h with prelude } s
  | .block h items after s => do
    let prelude ← AtRule.replaceSliced? t h.prelude
    return .block { h with prelude } (← replaceItemsSliced? t items) after s

def replaceItemsSliced? (t : Replacements) : List BodyItem → Option (List BodyItem)
  | [] => return []
  | i :: is => return (← i.replaceSliced? t) :: (← replaceItemsSliced? t is)

end

def Rule.replaceSliced? (t : Replacements) : Rule → Option Rule
  | .plain r => return .plain (← r.replaceSliced? t)
  | r => return r

/-- The sheet with its symbols replaced, by a walk that cuts the preludes at byte offsets. None
stands for an offset beyond the end or inside a character. -/
def Stylesheet.replaceSliced? (t : Replacements) (s : Stylesheet) : Option Stylesheet :=
  if t.isEmpty then some s
  else do
    let rules ← s.rules.mapM (Rule.replaceSliced? t)
    return { s with rules }

mutual

theorem BodyItem.replaceSliced?_eq (t : Replacements) (i : BodyItem) :
    i.replaceSliced? t = some (i.replaceSymbols t) :=
  match i with
  | .declaration _ => rfl
  | .rule r => by
    rw [BodyItem.replaceSliced?, r.replaceSliced?_eq t]
    rfl

theorem PlainRule.replaceSliced?_eq (t : Replacements) (r : PlainRule) :
    r.replaceSliced? t = some (r.replaceSymbols t) :=
  match r with
  | .statement .. => by
    rw [PlainRule.replaceSliced?, AtRule.replaceSliced?_eq]
    rfl
  | .block _ items _ _ => by
    rw [PlainRule.replaceSliced?, AtRule.replaceSliced?_eq, replaceItemsSliced?_eq t items]
    rfl

theorem replaceItemsSliced?_eq (t : Replacements) (is : List BodyItem) :
    replaceItemsSliced? t is = some (replaceItems t is) :=
  match is with
  | [] => rfl
  | i :: is => by
    rw [replaceItemsSliced?, i.replaceSliced?_eq t, replaceItemsSliced?_eq t is]
    rfl

end

theorem Rule.replaceSliced?_eq (t : Replacements) (r : Rule) :
    r.replaceSliced? t = some (r.replaceSymbols t) := by
  cases r with
  | plain r =>
    rw [Rule.replaceSliced?, r.replaceSliced?_eq t]
    rfl
  | imports => rfl
  | exports => rfl

theorem Node.replaceSymbols_of_isEmpty (h : t.isEmpty) (n : Node) : n.replaceSymbols t = n := by
  have hprelude := AtRule.replaceSymbols_of_isEmpty h
  cases n <;> simp [Node.replaceSymbols, Header.replaceSymbols, Declaration.replaceSymbols,
    hprelude, substitute_of_isEmpty h]

theorem Stylesheet.replaceSliced?_eq (t : Replacements) (s : Stylesheet) :
    s.replaceSliced? t = some (s.replaceSymbols t) := by
  unfold Stylesheet.replaceSliced?
  split
  · next hempty =>
    have hid : Node.replaceSymbols t = id := funext (Node.replaceSymbols_of_isEmpty hempty)
    have hsame : s.replaceSymbols t = s := Stylesheet.eq_of_node? fun address => by
      rw [s.node?_replaceSymbols, hid, Option.map_id, id]
    rw [hsame]
  · have hrule : Rule.replaceSliced? t = fun r => pure (r.replaceSymbols t) :=
      funext (Rule.replaceSliced?_eq t)
    rw [hrule, List.mapM_pure]
    rfl

/-! ## What replacing symbols touches -/

/-- The walk makes of a sheet the one sheet with the same nodes, up to the values of declarations
and the parameters of the at-rules that take symbols; and what starts with `@` is cut without loss
into the parts that this goes by. -/
theorem Stylesheet.replaceSymbols_touches (t : Replacements) (s : Stylesheet) :
    s.replaceSliced? t = some (s.replaceSymbols t) ∧
      (∀ s' : Stylesheet, s' = s.replaceSymbols t ↔
        ∀ address, Option.Rel (Node.Becomes t) (s.node? address) (s'.node? address)) ∧
      ∀ prelude : String, prelude.toList.head? = some '@' → ∃ a : AtRule, a.Splits prelude ∧
        AtRule.cut? prelude = some (some (a.name, a.params)) := by
  refine ⟨s.replaceSliced?_eq t, fun s' => ⟨?_, fun h => ?_⟩, fun prelude hat => ?_⟩
  · rintro rfl address
    exact rel_becomes_iff.mpr (s.node?_replaceSymbols t address)
  · refine Stylesheet.eq_of_node? fun address => ?_
    rw [rel_becomes_iff.mp (h address), s.node?_replaceSymbols]
  · obtain ⟨a, ha⟩ := AtRule.exists_splits_iff.mpr hat
    exact ⟨a, ha, by rw [AtRule.cut?_eq, AtRule.splits_iff.mp ha, Option.map_some]⟩

/-- A parenthesis behind the name and a declaration two levels down. -/
theorem Stylesheet.replaceSymbols_touches_media :
    let t : Replacements := .ofList [("small", "print"), ("media", "all")]
    let d : Declaration := ⟨"", "media", ":", "small", "", .none⟩
    let inner : PlainRule := .block ⟨"", "small", ""⟩ [.declaration d] "" .none
    let head : Header := ⟨"", "@media(small)", ""⟩
    let s : Stylesheet := { rules := [.plain (.block head [.rule inner] "" .none)] }
    let s' := s.replaceSymbols t
    s'.node? [0] = some (.block { head with prelude := "@media(print)" } 1 "" .none) ∧
      s'.node? [0, 0] = s.node? [0, 0] ∧
      Option.Rel (Node.Becomes t) (s.node? [0, 0, 0]) (s'.node? [0, 0, 0]) ∧
      head.prelude.toList.head? = some '@' ∧
      ∃ a : AtRule, a.Splits head.prelude ∧
        AtRule.cut? head.prelude = some (some (a.name, a.params)) := by
  intro t d inner head s s'
  obtain ⟨-, hnodes, hcut⟩ := replaceSymbols_touches t s
  have hat : head.prelude.toList.head? = some '@' := by decide +kernel
  exact ⟨by decide +kernel, by decide +kernel, (hnodes s').mp rfl [0, 0, 0], hat, hcut _ hat⟩

end StyleBundle
