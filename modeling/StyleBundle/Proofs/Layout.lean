import StyleBundle.Sheet.Parser

/-!
# Layouts

A layout is a rule tree with the tokens that it is written with: each token stands in the part that
it plays. A valid layout is one whose tokens are read as its tree. Where an item of a block ends is
decided by looking ahead, so a block is valid together with all tokens up to its closing brace.
-/

namespace StyleBundle

open Token StyleBundle.Parser

/-! ## Looking ahead -/

namespace Parser

theorem endsPrelude_eq_false_iff {t : Token} : endsPrelude t = false ↔
    (t.kind ≠ .lbrace ∧ t.kind ≠ .rbrace) ∧ t.kind ≠ .semicolon := by
  simp only [endsPrelude, Bool.or_eq_false_iff, decide_eq_false_iff_not]

/-- The depth of parentheses after some tokens, or the kind of the one at which `splitAtDepth`
stops. -/
def depthAfter (stops : List TokenKind) (depth : Nat) : List Token → Except TokenKind Nat
  | [] => .ok depth
  | t :: ts =>
    if t.kind = .rbrace || (depth = 0 && stops.contains t.kind) then
      .error t.kind
    else
      depthAfter stops (nest depth t) ts

variable {stops : List TokenKind} {depth : Nat} {ts us : List Token}

theorem depthAfter_append (stops : List TokenKind) (depth : Nat) (ts us : List Token) :
    depthAfter stops depth (ts ++ us) =
      (depthAfter stops depth ts).bind fun depth => depthAfter stops depth us := by
  induction ts generalizing depth with
  | nil => rfl
  | cons t ts ih =>
    simp only [List.cons_append, depthAfter]
    split
    · rfl
    · exact ih _

theorem depthAfter_of_rbrace {t : Token} (ht : t ∈ ts) (hk : t.kind = .rbrace)
    (stops : List TokenKind) (depth : Nat) : ∃ kind, depthAfter stops depth ts = .error kind := by
  induction ts generalizing depth with
  | nil => cases ht
  | cons u ts ih =>
    rw [depthAfter]
    split
    · exact ⟨_, rfl⟩
    · next hne =>
      refine ih ((List.mem_cons.mp ht).resolve_left ?_) _
      rintro rfl
      simp [hk] at hne

theorem kind_ne_of_depthAfter {t : Token} {d : Nat} (h : depthAfter stops depth ts = .ok d)
    (ht : t ∈ ts) : t.kind ≠ .rbrace := by
  intro hk
  obtain ⟨kind, hkind⟩ := depthAfter_of_rbrace ht hk stops depth
  rw [h] at hkind
  cases hkind

theorem splitAtDepth_append_of_ok {d : Nat} (h : depthAfter stops depth ts = .ok d)
    (us : List Token) : splitAtDepth stops depth (ts ++ us) =
      (ts ++ (splitAtDepth stops d us).1, (splitAtDepth stops d us).2) := by
  induction ts generalizing depth with
  | nil =>
    cases h
    rfl
  | cons t ts ih =>
    rw [depthAfter] at h
    split at h
    · cases h
    · next hne =>
      rw [List.cons_append, splitAtDepth, if_neg hne, ih h]
      rfl

/-- The tokens split off hold no stop, and one stands behind them unless they are all. -/
theorem splitAtDepth_spec (stops : List TokenKind) (depth : Nat) (ts : List Token) :
    ∃ d, depthAfter stops depth (splitAtDepth stops depth ts).1 = .ok d ∧
      ∀ t ∈ (splitAtDepth stops depth ts).2.head?,
        t.kind = .rbrace ∨ d = 0 ∧ stops.contains t.kind := by
  fun_induction splitAtDepth stops depth ts with
  | case1 depth => exact ⟨depth, rfl, by simp⟩
  | case2 depth t ts hstop =>
    refine ⟨depth, rfl, ?_⟩
    simpa using hstop
  | case3 depth t ts hne front rest e ih =>
    obtain ⟨d, hd, hstop⟩ := ih
    rw [e] at hd hstop
    exact ⟨d, by rw [depthAfter, if_neg hne, hd], hstop⟩

theorem kind_ne_of_mem_splitAtDepth {t : Token} (ht : t ∈ (splitAtDepth stops depth ts).1) :
    t.kind ≠ .rbrace := by
  obtain ⟨d, hd, -⟩ := splitAtDepth_spec stops depth ts
  exact kind_ne_of_depthAfter hd ht

theorem head?_splitAtDepth (stops : List TokenKind) (depth : Nat) (ts : List Token) :
    (splitAtDepth stops depth ts).2.head?.map Token.kind =
      match depthAfter stops depth ts with
      | .ok _ => none
      | .error kind => some kind := by
  fun_induction splitAtDepth stops depth ts with
  | case1 => rfl
  | case2 depth t ts hstop => rw [depthAfter, if_pos hstop]; rfl
  | case3 depth t ts hne front rest e ih =>
    rw [e] at ih
    rw [depthAfter, if_neg hne]
    exact ih

/-- Whether the first character is the one with which at-rules start. -/
def startsAt (ts : List Token) : Bool :=
  ts.head?.any fun t => t.lexeme.toList.head? = some '@'

/-- An item is a rule by where looking ahead stops and by its first character. -/
theorem startsRule_eq (ts : List Token) : startsRule ts =
    match depthAfter [.lbrace, .semicolon] 0 ts with
    | .ok _ => false
    | .error kind => kind = .lbrace || (kind = .semicolon && startsAt ts) := by
  have h := head?_splitAtDepth [.lbrace, .semicolon] 0 ts
  unfold startsRule
  split
  · next e =>
    rw [e] at h
    split
    · rfl
    · next e' => simp [e'] at h
  · next stop rest e =>
    rw [e] at h
    split
    · next e' => simp [e'] at h
    · next kind e' =>
      have hk : stop.kind = kind := by simpa [e'] using h
      rw [hk]
      rfl

end Parser

/-! ## Layouts -/

/-- The tokens of a rule up to its opening brace or its semicolon. -/
structure HeadLayout where
  /-- Stray semicolons in front. -/
  strays : List Token
  prelude : List Token
  stop : Token

structure DeclarationLayout where
  /-- Stray semicolons in front. -/
  strays : List Token
  property : List Token
  colon : Token
  value : List Token
  /-- The semicolon, or nothing. -/
  stop : List Token

mutual

inductive ItemLayout where
  | declaration (declaration : DeclarationLayout)
  | rule (rule : RuleLayout)

inductive RuleLayout where
  | statement (head : HeadLayout)
  /-- A rule with a block; `strays` are stray semicolons in front of its closing brace. -/
  | block (head : HeadLayout) (items : List ItemLayout) (strays : List Token) (close : Token)

end

/-! ### Tokens -/

/-- The tokens without the stray semicolons. -/
def HeadLayout.core (h : HeadLayout) : List Token :=
  h.prelude ++ [h.stop]

def DeclarationLayout.core (d : DeclarationLayout) : List Token :=
  d.property ++ d.colon :: (d.value ++ d.stop)

mutual

def ItemLayout.tokens : ItemLayout → List Token
  | .declaration d => d.strays ++ d.core
  | .rule r => r.tokens

def RuleLayout.tokens : RuleLayout → List Token
  | .statement h => h.strays ++ h.core
  | .block h items strays close => h.strays ++ h.core ++ itemTokens items ++ strays ++ [close]

def itemTokens : List ItemLayout → List Token
  | [] => []
  | i :: is => i.tokens ++ itemTokens is

end

def RuleLayout.head : RuleLayout → HeadLayout
  | .statement h | .block h _ _ _ => h

/-- The tokens behind the head. -/
def RuleLayout.rest : RuleLayout → List Token
  | .statement _ => []
  | .block _ items strays close => itemTokens items ++ strays ++ [close]

theorem RuleLayout.tokens_eq (r : RuleLayout) :
    r.tokens = r.head.strays ++ r.head.core ++ r.rest := by
  cases r <;> simp [tokens, head, rest]

def ItemLayout.core : ItemLayout → List Token
  | .declaration d => d.core
  | .rule r => r.head.core ++ r.rest

def ItemLayout.strays : ItemLayout → List Token
  | .declaration d => d.strays
  | .rule r => r.head.strays

theorem ItemLayout.tokens_eq (i : ItemLayout) : i.tokens = i.strays ++ i.core := by
  cases i <;> simp [tokens, strays, core, RuleLayout.tokens_eq, List.append_assoc]

def ItemLayout.isRule : ItemLayout → Bool
  | .declaration _ => false
  | .rule _ => true

/-- Whether the item is a declaration without a semicolon. -/
def ItemLayout.isOpen : ItemLayout → Bool
  | .declaration d => d.stop.isEmpty
  | .rule _ => false

/-! ### Trees -/

def HeadLayout.header (h : HeadLayout) : Header :=
  ⟨textOf h.strays ++ leadingGap h.prelude, innerText h.prelude, h.stop.gap⟩

def DeclarationLayout.tree (offset : Nat) (d : DeclarationLayout) : Declaration where
  before := textOf d.strays ++ leadingGap d.property
  property := innerText d.property
  between := d.colon.text ++ leadingGap d.value
  value := innerText d.value
  after := textOf d.stop
  span := spanOf (offset + totalSize d.strays) (d.property ++ d.colon :: d.value)

/-- Where a rule starts whose text starts at `offset`. -/
def HeadLayout.start (offset : Nat) (h : HeadLayout) : Nat :=
  offset + totalSize h.strays + (leadingGap h.prelude).utf8ByteSize

/-- Where the text behind a head starts whose text starts at `offset`. -/
def HeadLayout.stopsAt (offset : Nat) (h : HeadLayout) : Nat :=
  offset + totalSize (h.strays ++ h.core)

mutual

def ItemLayout.tree (offset : Nat) : ItemLayout → BodyItem
  | .declaration d => .declaration (d.tree offset)
  | .rule r => .rule (r.tree offset)

def RuleLayout.tree (offset : Nat) : RuleLayout → PlainRule
  | .statement h => .statement h.header ⟨h.start offset, h.stopsAt offset⟩
  | .block h items strays close =>
    .block h.header (itemTrees (h.stopsAt offset) items) (textOf strays ++ close.gap)
      ⟨h.start offset, h.stopsAt offset + totalSize (itemTokens items ++ strays ++ [close])⟩

def itemTrees (offset : Nat) : List ItemLayout → List BodyItem
  | [] => []
  | i :: is => i.tree offset :: itemTrees (offset + totalSize i.tokens) is

end

theorem RuleLayout.header_tree (r : RuleLayout) (n : Nat) : (r.tree n).header = r.head.header := by
  cases r <;> rfl

/-! ### Validity -/

/-- All tokens are semicolons. -/
def Strays (ts : List Token) : Prop :=
  ∀ t ∈ ts, t.kind = .semicolon

/-- A head that the given kind of token ends. -/
structure HeadLayout.Valid (h : HeadLayout) (stop : TokenKind) : Prop where
  strays : Strays h.strays
  prelude_ne : h.prelude ≠ []
  prelude : ∀ t ∈ h.prelude, endsPrelude t = false
  stop : h.stop.kind = stop

structure DeclarationLayout.Valid (d : DeclarationLayout) : Prop where
  strays : Strays d.strays
  property_ne : d.property ≠ []
  property : ∀ t ∈ d.property, endsProperty t = false
  colon : d.colon.kind = .colon
  /-- A value ends at a semicolon in no parentheses, or at a closing brace. -/
  value : ∃ depth, depthAfter [.semicolon] 0 d.value = .ok depth ∧
    (d.stop = [] ∨ depth = 0 ∧ ∃ t, d.stop = [t] ∧ t.kind = .semicolon)

/-- What looking ahead finds where the tokens `behind` follow is what the item is, and a declaration
without a semicolon stands in front of a closing brace. -/
structure ItemLayout.Precedes (i : ItemLayout) (behind : List Token) : Prop where
  startsRule : startsRule (i.core ++ behind) = i.isRule
  closed : i.isOpen → ∀ t ∈ behind.head?, t.kind = .rbrace

mutual

def ItemLayout.Valid : ItemLayout → Prop
  | .declaration d => d.Valid
  | .rule r => r.Valid

def RuleLayout.Valid : RuleLayout → Prop
  | .statement h => h.Valid .semicolon ∧ (innerText h.prelude).toList.head? = some '@'
  | .block h items strays close => h.Valid .lbrace ∧ ItemsValid items (strays ++ [close]) ∧
      Strays strays ∧ close.kind = .rbrace

/-- The items of a block are valid where the tokens `tail` follow. -/
def ItemsValid : List ItemLayout → List Token → Prop
  | [], _ => True
  | i :: is, tail => i.Valid ∧ i.Precedes (itemTokens is ++ tail) ∧ ItemsValid is tail

end

/-! ### The items of a block -/

theorem ItemsValid.of_mem {items : List ItemLayout} {tail : List Token}
    (h : ItemsValid items tail) {i : ItemLayout} (hi : i ∈ items) : i.Valid := by
  induction items with
  | nil => cases hi
  | cons j items ih =>
    rcases List.mem_cons.mp hi with rfl | hi
    · exact h.1
    · exact ih h.2.2 hi

theorem exists_itemTokens {items : List ItemLayout} {i : ItemLayout} (hi : i ∈ items) :
    ∃ ts us, itemTokens items = ts ++ (i.tokens ++ us) := by
  induction items with
  | nil => cases hi
  | cons j items ih =>
    rcases List.mem_cons.mp hi with rfl | hi
    · exact ⟨[], itemTokens items, rfl⟩
    · obtain ⟨ts, us, h⟩ := ih hi
      exact ⟨j.tokens ++ ts, us, by rw [itemTokens, h, List.append_assoc]⟩

end StyleBundle
