import StyleBundle.Sheet.Basic

/-!
# Nodes

A node of a sheet has an address: the places to go down to it. A node holds all the fields of what
stands there and how many items are below, so the nodes of a sheet are the sheet.
-/

namespace StyleBundle

/-- What stands at one address, without what is below. -/
inductive Node where
  | sheet (size : Nat) (trailing : String)
  | imports (rule : ImportRule)
  | exports (rule : ExportRule)
  | statement (header : Header) (span : Span)
  | block (header : Header) (size : Nat) (after : String) (span : Span)
  | declaration (declaration : Declaration)
  deriving DecidableEq

def BodyItem.node? : List Nat → BodyItem → Option Node
  | [], .declaration d => some (.declaration d)
  | [], .rule (.statement h s) => some (.statement h s)
  | [], .rule (.block h items after s) => some (.block h items.length after s)
  | _ :: _, .declaration _ => none
  | i :: address, .rule r => r.items[i]?.bind (BodyItem.node? address)

def Rule.node? : List Nat → Rule → Option Node
  | address, .plain r => (BodyItem.rule r).node? address
  | [], .imports r => some (.imports r)
  | [], .exports r => some (.exports r)
  | _ :: _, _ => none

def Stylesheet.node? (s : Stylesheet) : List Nat → Option Node
  | [] => some (.sheet s.rules.length s.trailing)
  | i :: address => s.rules[i]?.bind (Rule.node? address)

mutual

theorem BodyItem.eq_of_node? (i j : BodyItem) (h : ∀ address, i.node? address = j.node? address) :
    i = j :=
  match i, j with
  | .declaration d, .declaration d' => by
    have hd := h []
    simp only [BodyItem.node?, Option.some.injEq, Node.declaration.injEq] at hd
    rw [hd]
  | .declaration d, .rule (.statement ..) => by cases h []
  | .declaration d, .rule (.block ..) => by cases h []
  | .rule (.statement ..), .declaration d => by cases h []
  | .rule (.block ..), .declaration d => by cases h []
  | .rule r, .rule r' => congrArg BodyItem.rule (r.eq_of_node? r' h)

theorem PlainRule.eq_of_node? (r r' : PlainRule)
    (h : ∀ address, (BodyItem.rule r).node? address = (BodyItem.rule r').node? address) : r = r' :=
  match r, r' with
  | .statement .., .statement .. => by
    have hr := h []
    simp only [BodyItem.node?, Option.some.injEq, Node.statement.injEq] at hr
    rw [hr.1, hr.2]
  | .statement .., .block .. => by cases h []
  | .block .., .statement .. => by cases h []
  | .block _ items _ _, .block _ items' _ _ => by
    have hr := h []
    simp only [BodyItem.node?, Option.some.injEq, Node.block.injEq] at hr
    have hitems := items_eq_of_node? items items' hr.2.1 fun i address => h (i :: address)
    rw [hr.1, hr.2.2.1, hr.2.2.2, hitems]

theorem items_eq_of_node? (is js : List BodyItem) (hlen : is.length = js.length)
    (h : ∀ (i : Nat) address,
      is[i]?.bind (BodyItem.node? address) = js[i]?.bind (BodyItem.node? address)) : is = js :=
  match is, js with
  | [], [] => rfl
  | i :: is, j :: js => by
    rw [i.eq_of_node? j (h 0), items_eq_of_node? is js (Nat.succ.inj hlen) fun k => h (k + 1)]

end

theorem Rule.eq_of_node? {r r' : Rule} (h : ∀ address, r.node? address = r'.node? address) :
    r = r' := by
  have hr := h []
  cases r <;> cases r'
  case plain.plain p p' => exact congrArg Rule.plain (p.eq_of_node? p' h)
  case imports.imports => cases hr; rfl
  case exports.exports => cases hr; rfl
  case plain.imports p _ => cases p <;> cases hr
  case plain.exports p _ => cases p <;> cases hr
  case imports.plain _ p => cases p <;> cases hr
  case exports.plain _ p => cases p <;> cases hr
  case imports.exports => cases hr
  case exports.imports => cases hr

theorem Stylesheet.eq_of_node? {s s' : Stylesheet}
    (h : ∀ address, s.node? address = s'.node? address) : s = s' := by
  have hroot := h []
  simp only [Stylesheet.node?, Option.some.injEq, Node.sheet.injEq] at hroot
  obtain ⟨rules, trailing⟩ := s
  obtain ⟨rules', trailing'⟩ := s'
  obtain ⟨hlen, rfl⟩ := hroot
  suffices hrules : rules = rules' by rw [hrules]
  refine List.ext_getElem hlen fun i hi hi' => Rule.eq_of_node? fun address => ?_
  simpa [Stylesheet.node?, hi, hi'] using h (i :: address)

end StyleBundle
