import StyleBundle.Proofs.Substitution

/-!
# Printed lines

A directive that was not written is printed with a line for each name: the name, a colon, the value
as it stands and a semicolon. The lines are read as declarations of these names and values exactly
when the block is legible: each value by itself is whole tokens with nothing around them, which a
semicolon behind them ends, and a look ahead from no line finds a rule.
-/

namespace StyleBundle

open Token StyleBundle.Parser

/-! ## Cutting off tokens -/

namespace TokenStream

theorem putGap_empty (s : TokenStream) : s.putGap "" = s := by
  obtain ⟨_ | ⟨t, ts⟩, trailing⟩ := s <;> simp [putGap]

theorem text_eq_textOf (ts : List Token) : text ⟨ts, ""⟩ = textOf ts :=
  String.append_empty

theorem text_append_tokens (ts us : List Token) (trailing : String) :
    text ⟨ts ++ us, trailing⟩ = textOf ts ++ text ⟨us, trailing⟩ := by
  rw [text, textOf_append, String.append_assoc]
  rfl

namespace Tiles

variable {ts front : List Token} {trailing rest : String}

/-- Tokens that tile the front of a text, and do not run on into what is left, are its first. -/
theorem cut (h : Tiles ⟨ts, trailing⟩) (hfront : Tiles ⟨front, ""⟩)
    (hseam : ∀ t ∈ front.getLast?, Scan.EndsBefore t.kind rest.toList.head?)
    (htext : text ⟨ts, trailing⟩ = textOf front ++ rest) :
    ∃ us, ts = front ++ us ∧ Tiles ⟨us, trailing⟩ ∧ text ⟨us, trailing⟩ = rest := by
  have hscan := h.tokensFrom_text 0
  have hcut := hfront.tokensFrom_append (fun t ht _ => hseam t ht) 0
  have hchars : (text ⟨ts, trailing⟩).toList = (text ⟨front, ""⟩).toList ++ rest.toList := by
    rw [htext, String.toList_append, text_eq_textOf]
  rw [hchars, hcut] at hscan
  cases hrest : Scan.tokensFrom (0 + size ⟨front, ""⟩) rest.toList with
  | error e =>
    rw [hrest] at hscan
    cases hscan
  | ok u =>
    rw [hrest] at hscan
    have happ : (⟨front, ""⟩ : TokenStream) ++ u = ⟨ts, trailing⟩ := Except.ok.inj hscan
    rw [append_def, putGap_empty] at happ
    obtain ⟨us, trailing'⟩ := u
    cases happ
    rw [text_append_tokens] at htext
    exact ⟨us, rfl, h.right, by simpa using htext⟩

end Tiles

end TokenStream

/-! ## What is printed -/

/-- What is printed behind the opening brace of a directive that binds the given names. -/
def blockText (es : List (String × String)) : String :=
  "\n" ++ String.join (es.map fun e => Binding.print { name := e.1, value := e.2 }) ++ "\x7d\n"

theorem blockText_cons (e : String × String) (es : List (String × String)) :
    blockText (e :: es) = "\n  " ++ e.1 ++ ":" ++ (" " ++ e.2 ++ ";" ++ blockText es) := by
  refine String.toList_inj.mp ?_
  simp [blockText, Binding.print]

/-! ## What can be read back -/

/-- By itself the text is the name of a declaration. -/
def IsName (name : String) : Prop :=
  ∃ ts, TokenStream.ofText name = .ok ⟨ts, ""⟩ ∧ ts ≠ [] ∧ leadingGap ts = "" ∧
    ∀ t ∈ ts, endsProperty t = false

/-- By itself the text is whole tokens with nothing around them, and a semicolon behind them ends
them as a value. -/
def IsWholeValue (value : String) : Prop :=
  ∃ ts, TokenStream.ofText value = .ok ⟨ts, ""⟩ ∧ leadingGap ts = "" ∧
    depthAfter [.semicolon] 0 ts = .ok 0

/-- The values are whole, and where a line starts a look ahead finds no rule. -/
def Legible : List (String × String) → Prop
  | [] => True
  | e :: es => IsWholeValue e.2 ∧
      (∃ s, TokenStream.ofText (blockText (e :: es)) = .ok s ∧ startsRule s.tokens = false) ∧
      Legible es

/-! ## The tokens of a line -/

def Token.colon : Token := ⟨"", .colon, ":"⟩

def Token.semicolon : Token := ⟨"", .semicolon, ";"⟩

/-- The brace that closes a block on a line of its own. -/
def Token.closing : Token := ⟨"\n", .rbrace, "\x7d"⟩

theorem Token.Whole.tiles {t : Token} (h : t.Whole) : TokenStream.Tiles ⟨[t], ""⟩ :=
  ⟨by simpa using h, .singleton t, .nil⟩

theorem Token.whole_colon : Token.colon.Whole :=
  ⟨.nil, .intro rfl rfl⟩

theorem Token.whole_semicolon : Token.semicolon.Whole :=
  ⟨.nil, .intro rfl rfl⟩

theorem Token.whole_closing : Token.closing.Whole :=
  ⟨.blank rfl .nil, .intro rfl rfl⟩

theorem textOf_of_leadingGap {ts : List Token} (h : leadingGap ts = "") :
    textOf ts = innerText ts := by
  rw [← leadingGap_append_innerText, h, String.empty_append]

theorem endsProperty_withGap {gap : String} {ts : List Token}
    (h : ∀ t ∈ ts, endsProperty t = false) : ∀ t ∈ withGap gap ts, endsProperty t = false := by
  intro t ht
  obtain ⟨u, hu, hk⟩ := kind_of_mem_withGap ht
  rw [← h u hu, endsProperty, endsProperty, hk]

/-- The front of a line, up to its colon. -/
theorem IsName.exists_lineFront {name : String} (h : IsName name) : ∃ ns, ns ≠ [] ∧
    (∀ t ∈ ns, endsProperty t = false) ∧ innerText ns = name ∧
    textOf (ns ++ [Token.colon]) = "\n  " ++ name ++ ":" ∧
    TokenStream.Tiles ⟨ns ++ [Token.colon], ""⟩ := by
  obtain ⟨ts, hts, hne, hgap, hends⟩ := h
  obtain ⟨htext, htiles⟩ := TokenStream.ofText_eq_ok_iff.mp hts
  have hname : innerText ts = name := by
    rw [← textOf_of_leadingGap hgap, ← TokenStream.text_eq_textOf, htext]
  have hindent : Scan.Gap "\n  ".toList := .blank rfl (.blank rfl (.blank rfl .nil))
  refine ⟨withGap "\n  " ts, withGap_ne_nil _ hne, endsProperty_withGap hends, ?_, ?_, ?_⟩
  · rw [innerText_withGap, hname]
  · rw [textOf_append, textOf_withGap hne, hname]
    rfl
  · refine (htiles.withGap hindent).join Token.whole_colon.tiles fun t _ u hu _ => ?_
    cases hu
    cases t.kind <;> simp [Scan.EndsBefore, Token.colon, Scan.isTextChar]

/-- The rest of a line: a value that is tokens with nothing around them, and a semicolon. -/
theorem exists_lineEnd {vs : List Token} (hvs : TokenStream.Tiles ⟨vs, ""⟩)
    (hgap : leadingGap vs = "") : ∃ s, s.kind = .semicolon ∧
    textOf (withGap " " vs ++ [s]) = " " ++ innerText vs ++ ";" ∧
    TokenStream.Tiles ⟨withGap " " vs ++ [s], ""⟩ := by
  have hblank : Scan.Gap " ".toList := .blank rfl .nil
  have hjoin : TokenStream.Tiles ⟨vs ++ [Token.semicolon], ""⟩ :=
    hvs.join Token.whole_semicolon.tiles fun t _ u hu => by
      cases hu
      exact Token.whole_semicolon.apart (.inl rfl) t
  have htiles := hjoin.withGap hblank
  cases vs with
  | nil => exact ⟨⟨" ", .semicolon, ";"⟩, rfl, rfl, htiles⟩
  | cons v vs =>
    refine ⟨Token.semicolon, rfl, ?_, htiles⟩
    rw [textOf_append, textOf_withGap (List.cons_ne_nil v vs)]
    rfl

/-! ## Items and their bindings -/

def ItemLayout.binding? : ItemLayout → Option (String × String)
  | .declaration d => some (innerText d.property, innerText d.value)
  | .rule _ => none

theorem bindings_itemTrees (items : List ItemLayout) (n : Nat) (header : Header) (after : String)
    (span : Span) :
    ((PlainRule.block header (itemTrees n items) after span).declarations.map
      Declaration.toBinding).map (fun b => (b.name, b.value)) =
    items.filterMap ItemLayout.binding? := by
  unfold PlainRule.declarations PlainRule.items
  dsimp only
  induction items generalizing n with
  | nil => rfl
  | cons i items ih =>
    have hrest := ih (n + totalSize i.tokens)
    cases i with
    | declaration d => exact congrArg (List.cons (innerText d.property, innerText d.value)) hrest
    | rule r => exact hrest

/-! ### Counting colons -/

def colons (text : String) : Nat :=
  text.toList.count ':'

theorem colons_append (s t : String) : colons (s ++ t) = colons s + colons t := by
  simp [colons]

/-- The least number of colons with which names and values can be written. -/
def bindingColons : List (String × String) → Nat
  | [] => 0
  | e :: es => colons e.1 + colons e.2 + 1 + bindingColons es

theorem colons_blockText (es : List (String × String)) :
    colons (blockText es) = bindingColons es := by
  induction es with
  | nil => rfl
  | cons e es ih =>
    have hindent : colons "\n  " = 0 := rfl
    have hcolon : colons ":" = 1 := rfl
    have hblank : colons " " = 0 := rfl
    have hstop : colons ";" = 0 := rfl
    simp only [blockText_cons, colons_append, ih, bindingColons]
    omega

theorem colons_innerText_le (ts : List Token) : colons (innerText ts) ≤ colons (textOf ts) := by
  rw [← leadingGap_append_innerText, colons_append]
  exact Nat.le_add_left _ _

theorem Token.Proper.colons_pos {t : Token} (h : t.Proper) (hk : t.kind = .colon) :
    1 ≤ colons t.text := by
  have hcolon : colons ":" = 1 := rfl
  rw [h.text_eq (show t.kind.lexeme? = some ":" by rw [hk]; rfl), colons_append]
  omega

theorem DeclarationLayout.Valid.colons_le {d : DeclarationLayout} (hd : d.Valid)
    (hproper : ∀ t ∈ d.strays ++ d.core, t.Proper) :
    colons (innerText d.property) + colons (innerText d.value) + 1 ≤
      colons (textOf (d.strays ++ d.core)) := by
  have hproperty := colons_innerText_le d.property
  have hvalue := colons_innerText_le d.value
  have hcolon := (hproper d.colon (by simp [core])).colons_pos hd.colon
  simp only [core, textOf_append, textOf, colons_append]
  omega

theorem bindingColons_le {items : List ItemLayout} {tail : List Token}
    (hv : ItemsValid items tail) (hproper : ∀ t ∈ itemTokens items, t.Proper) :
    bindingColons (items.filterMap ItemLayout.binding?) ≤ colons (textOf (itemTokens items)) := by
  induction items with
  | nil => exact Nat.zero_le _
  | cons i items ih =>
    rw [itemTokens] at hproper
    have hrest := ih hv.2.2 fun t ht => hproper t (List.mem_append_right _ ht)
    rw [itemTokens, textOf_append, colons_append]
    cases i with
    | declaration d =>
      have hd := DeclarationLayout.Valid.colons_le hv.1
        fun t ht => hproper t (List.mem_append_left _ ht)
      exact Nat.add_le_add hd hrest
    | rule r => exact hrest.trans (Nat.le_add_left _ _)

/-- Tokens in front of which a rule starts are in it as long as none can end it. -/
theorem RuleLayout.Valid.exists_tokens {r : RuleLayout} (hr : r.Valid)
    {front more us : List Token}
    (hfront : ∀ t ∈ front, t.kind ≠ .semicolon ∧ t.kind ≠ .rbrace)
    (h : r.tokens ++ more = front ++ us) : ∃ vs, r.tokens = front ++ vs := by
  rcases List.append_eq_append_iff.mp h with ⟨vs, hvs, -⟩ | ⟨vs, hvs, -⟩
  · obtain ⟨ts, t, hts, hk⟩ := hr.exists_last
    have htokens : r.tokens = r.head.strays ++ (ts ++ [t]) := by
      rw [RuleLayout.tokens_eq, List.append_assoc, hts]
    have hmem : t ∈ front := by simp [hvs, htokens]
    have hne := hfront t hmem
    exact absurd hk (by simp [hne])
  · exact ⟨vs, hvs⟩

/-! ## What is read back is legible -/

theorem length_withGap (gap : String) (ts : List Token) : (withGap gap ts).length = ts.length := by
  cases ts <;> rfl

theorem depthAfter_withGap (stops : List TokenKind) (depth : Nat) (gap : String)
    (ts : List Token) : depthAfter stops depth (withGap gap ts) = depthAfter stops depth ts := by
  cases ts <;> rfl

theorem leadingGap_withGap_empty (ts : List Token) : leadingGap (withGap "" ts) = "" := by
  cases ts <;> rfl

theorem Strays.eq_nil {strays ts us : List Token} {t : Token} (h : Strays strays)
    (heq : strays ++ ts = t :: us) (ht : t.kind ≠ .semicolon) : strays = [] := by
  cases strays with
  | nil => rfl
  | cons u strays =>
    cases (List.cons.inj heq).1
    exact absurd (h t List.mem_cons_self) ht

namespace DeclarationLayout.Valid

variable {d : DeclarationLayout} {behind : List Token}

/-- The colon behind a name is the one that the declaration is read with. -/
theorem cut_property (hd : d.Valid) {ns us : List Token} (hne : ns ≠ [])
    (hends : ∀ t ∈ ns, endsProperty t = false)
    (h : d.strays ++ d.core ++ behind = ns ++ [Token.colon] ++ us) :
    d.strays = [] ∧ d.value ++ (d.stop ++ behind) = us := by
  rw [List.append_assoc] at h
  have hstrays : d.strays = [] := by
    obtain ⟨n, ns, rfl⟩ := List.exists_cons_of_ne_nil hne
    refine hd.strays.eq_nil h fun hk => ?_
    simpa [endsProperty, hk] using hends n List.mem_cons_self
  have hproperty : ∀ t ∈ d.property, (!endsProperty t) = true := by simpa using hd.property
  have hns : ∀ t ∈ ns, (!endsProperty t) = true := by simpa using hends
  have hcore : d.property ++ d.colon :: (d.value ++ (d.stop ++ behind)) =
      ns ++ Token.colon :: us := by
    simpa [hstrays, core] using h
  have hdrop := congrArg (List.dropWhile fun t => !endsProperty t) hcore
  rw [(takeWhile_append_cons hproperty (by simp [endsProperty, hd.colon]) _).2,
    (takeWhile_append_cons hns (by simp [endsProperty, Token.colon]) _).2] at hdrop
  exact ⟨hstrays, (List.cons.inj hdrop).2⟩

/-- The semicolon behind a value ends it. -/
theorem cut_value (hd : d.Valid) (hclosed : d.stop = [] → ∀ t ∈ behind.head?, t.kind = .rbrace)
    {s : Token} (hs : s.kind = .semicolon) {us : List Token} (h : d.stop ++ behind = s :: us) :
    depthAfter [.semicolon] 0 d.value = .ok 0 ∧ behind = us := by
  obtain ⟨depth, hdepth, hnil | ⟨rfl, t, hstop, -⟩⟩ := hd.value
  · rw [hnil, List.nil_append] at h
    have hk := hclosed hnil s (by simp [h])
    rw [hs] at hk
    cases hk
  · rw [hstop] at h
    exact ⟨hdepth, (List.cons.inj h).2⟩

/-- Where a line is read as a declaration of its name and its value, all of the line is read and
the value is whole. -/
theorem cut_line (hd : d.Valid) {trailing rest : String} (hname : IsName (innerText d.property))
    (hclosed : d.stop = [] → ∀ t ∈ behind.head?, t.kind = .rbrace)
    (htiles : TokenStream.Tiles ⟨d.strays ++ d.core ++ behind, trailing⟩)
    (htext : TokenStream.text ⟨d.strays ++ d.core ++ behind, trailing⟩ =
      "\n  " ++ innerText d.property ++ ":" ++ (" " ++ innerText d.value ++ ";" ++ rest)) :
    d.strays = [] ∧ IsWholeValue (innerText d.value) ∧
      TokenStream.text ⟨behind, trailing⟩ = rest := by
  obtain ⟨ns, hne, hends, -, hfrontText, hfront⟩ := hname.exists_lineFront
  rw [← hfrontText] at htext
  obtain ⟨us, hus, htiles, htext⟩ :=
    htiles.cut hfront (by simp [Token.colon, Scan.EndsBefore]) htext
  obtain ⟨hstrays, rfl⟩ := hd.cut_property hne hends hus
  -- Only now is it known that the value is tokens by itself, so that its end can be found.
  have hvalue : TokenStream.Tiles ⟨withGap "" d.value, ""⟩ := htiles.left.withGap .nil
  obtain ⟨s, hs, hbackText, hback⟩ := exists_lineEnd hvalue (leadingGap_withGap_empty _)
  rw [innerText_withGap] at hbackText
  rw [← hbackText] at htext
  rw [withGap_withGap] at hback htext
  obtain ⟨us, hus, -, htext⟩ := htiles.cut hback (by simp [hs, Scan.EndsBefore]) htext
  obtain ⟨-, hbehind⟩ := List.append_inj (hus.trans (List.append_assoc _ _ _))
    (length_withGap _ _).symm
  obtain ⟨hdepth, rfl⟩ := hd.cut_value hclosed hs hbehind
  refine ⟨hstrays, ⟨withGap "" d.value, ?_, leadingGap_withGap_empty _, ?_⟩, htext⟩
  · exact ofText_innerText htiles.left
  · rwa [depthAfter_withGap]

end DeclarationLayout.Valid

/-- No line is read as a rule where each name is bound: its colon is needed. -/
theorem not_rule_of_bindings {e : String × String} {es : List (String × String)}
    {r : RuleLayout} {items : List ItemLayout} {tail behind : List Token} {trailing : String}
    (hname : IsName e.1) (hr : r.Valid) (hv : ItemsValid items tail)
    (htiles : TokenStream.Tiles ⟨r.tokens ++ (itemTokens items ++ behind), trailing⟩)
    (htext : TokenStream.text ⟨r.tokens ++ (itemTokens items ++ behind), trailing⟩ =
      blockText (e :: es))
    (hes : items.filterMap ItemLayout.binding? = e :: es) : False := by
  obtain ⟨ns, hne, hends, -, hfrontText, hfront⟩ := hname.exists_lineFront
  have hcut := htext
  rw [blockText_cons, ← hfrontText] at hcut
  obtain ⟨us, hus, -, -⟩ := htiles.cut hfront (by simp [Token.colon, Scan.EndsBefore]) hcut
  have hpass : ∀ t ∈ ns ++ [Token.colon], t.kind ≠ .semicolon ∧ t.kind ≠ .rbrace := by
    intro t ht
    rcases List.mem_append.mp ht with ht | ht
    · have hn := hends t ht
      simp only [endsProperty, Bool.or_eq_false_iff, decide_eq_false_iff_not] at hn
      exact ⟨hn.1.2, hn.2⟩
    · cases List.mem_singleton.mp ht
      simp [Token.colon]
  obtain ⟨vs, hvs⟩ := hr.exists_tokens hpass hus
  have hcolon : 1 ≤ colons (textOf r.tokens) := by
    have hone := Token.whole_colon.proper.colons_pos rfl
    simp only [hvs, textOf_append, textOf, colons_append]
    omega
  have hbindings : bindingColons (e :: es) ≤ colons (textOf (itemTokens items)) :=
    hes ▸ bindingColons_le hv fun t ht => (htiles.whole t (by simp [ht])).proper
  -- The bindings use up all colons of the text, and the rule in front has one more.
  have hcount := congrArg colons htext
  rw [colons_blockText, TokenStream.text, textOf_append, textOf_append] at hcount
  simp only [colons_append] at hcount
  omega

theorem legible_of_items {es : List (String × String)} (hnames : ∀ e ∈ es, IsName e.1)
    {items : List ItemLayout} {strays more : List Token} {close : Token} {trailing : String}
    (hv : ItemsValid items (strays ++ [close])) (hclose : close.kind = .rbrace)
    (htiles : TokenStream.Tiles ⟨itemTokens items ++ (strays ++ [close] ++ more), trailing⟩)
    (htext : TokenStream.text ⟨itemTokens items ++ (strays ++ [close] ++ more), trailing⟩ =
      blockText es)
    (hes : items.filterMap ItemLayout.binding? = es) : Legible es := by
  induction es generalizing items with
  | nil => trivial
  | cons e es ih =>
    simp only [List.mem_cons, forall_eq_or_imp] at hnames
    cases items with
    | nil => cases hes
    | cons i items =>
      obtain ⟨hi, hp, hitems⟩ := hv
      rw [itemTokens, List.append_assoc] at htiles htext
      cases i with
      | rule r => exact (not_rule_of_bindings hnames.1 hi hitems htiles htext hes).elim
      | declaration d =>
        obtain ⟨rfl, rfl⟩ := List.cons.inj hes
        have hread := htext
        rw [blockText_cons] at hread
        have hbehind : ∀ t ∈ (itemTokens items ++ (strays ++ [close] ++ more)).head?,
            t ∈ (itemTokens items ++ (strays ++ [close])).head? := by
          rw [← List.append_assoc, List.head?_append_of_ne_nil _ (by simp)]
          exact fun t ht => ht
        obtain ⟨hstrays, hwhole, hrest⟩ := DeclarationLayout.Valid.cut_line hi hnames.1
          (fun hstop t ht => hp.closed (by simp [ItemLayout.isOpen, hstop]) t (hbehind t ht))
          htiles hread
        refine ⟨hwhole, ⟨_, TokenStream.ofText_eq_ok_iff.mpr ⟨htext, htiles⟩, ?_⟩,
          ih hnames.2 hitems htiles.right hrest rfl⟩
        have hlook : startsRule (d.core ++ (itemTokens items ++ (strays ++ [close]))) = false :=
          hp.startsRule
        rw [← startsRule_append (t := close) (by simp) hclose more] at hlook
        simpa [hstrays, ItemLayout.tokens] using hlook

/-! ## What is legible is read back -/

/-- A line that is read as a declaration of its name and its value. -/
structure DeclarationLayout.Writes (d : DeclarationLayout) (e : String × String) : Prop where
  valid : d.Valid
  strays : d.strays = []
  stop : d.stop ≠ []
  binding : (ItemLayout.declaration d).binding? = some e
  text : textOf d.core = "\n  " ++ e.1 ++ ":" ++ (" " ++ e.2 ++ ";")
  tiles : TokenStream.Tiles ⟨d.core, ""⟩
  sealed : Sealed d.core

theorem exists_writes {e : String × String} (hname : IsName e.1) (hvalue : IsWholeValue e.2) :
    ∃ d : DeclarationLayout, d.Writes e := by
  obtain ⟨ns, hne, hends, hinner, hfrontText, hfront⟩ := hname.exists_lineFront
  obtain ⟨vs, hvs, hgap, hdepth⟩ := hvalue
  obtain ⟨htext, hvsTiles⟩ := TokenStream.ofText_eq_ok_iff.mp hvs
  rw [TokenStream.text_eq_textOf, textOf_of_leadingGap hgap] at htext
  obtain ⟨s, hs, hbackText, hback⟩ := exists_lineEnd hvsTiles hgap
  let d : DeclarationLayout := ⟨[], ns, Token.colon, withGap " " vs, [s]⟩
  have hcore : d.core = (ns ++ [Token.colon]) ++ (withGap " " vs ++ [s]) := by
    simp [d, DeclarationLayout.core]
  refine ⟨d, ⟨by simp [d, Strays], hne, hends, rfl, 0, ?_, .inr ⟨rfl, s, rfl, hs⟩⟩, rfl,
    List.cons_ne_nil s [], ?_, ?_, ?_, ?_⟩
  · rwa [depthAfter_withGap]
  · show some (innerText ns, innerText (withGap " " vs)) = some e
    rw [hinner, innerText_withGap, htext]
  · rw [hcore, textOf_append, hfrontText, hbackText, htext]
  · rw [hcore]
    refine hfront.join hback fun t ht u _ => ?_
    rw [List.getLast?_concat] at ht
    cases ht
    exact fun _ => trivial
  · intro t ht
    rw [hcore, ← List.append_assoc, List.getLast?_concat] at ht
    cases ht
    exact .inl hs

theorem DeclarationLayout.Writes.ofText_cons {d : DeclarationLayout} {e : String × String}
    (hd : d.Writes e) {es : List (String × String)} {ts : List Token} {trailing : String}
    (h : TokenStream.ofText (blockText es) = .ok ⟨ts, trailing⟩) :
    TokenStream.ofText (blockText (e :: es)) = .ok ⟨d.core ++ ts, trailing⟩ := by
  obtain ⟨htext, htiles⟩ := TokenStream.ofText_eq_ok_iff.mp h
  refine TokenStream.ofText_eq_ok_iff.mpr ⟨?_, .append hd.sealed hd.tiles htiles⟩
  rw [TokenStream.text_append_tokens, hd.text, htext, blockText_cons, String.append_assoc]

theorem exists_items_of_legible {es : List (String × String)} (hnames : ∀ e ∈ es, IsName e.1)
    (h : Legible es) : ∃ items, ItemsValid items [Token.closing] ∧
      TokenStream.ofText (blockText es) = .ok ⟨itemTokens items ++ [Token.closing], "\n"⟩ ∧
      items.filterMap ItemLayout.binding? = es := by
  induction es with
  | nil =>
    have htiles : TokenStream.Tiles ⟨[Token.closing], "\n"⟩ :=
      ⟨Token.whole_closing.tiles.whole, .singleton _, .blank rfl .nil⟩
    exact ⟨[], trivial, TokenStream.ofText_eq_ok_iff.mpr ⟨rfl, htiles⟩, rfl⟩
  | cons e es ih =>
    simp only [List.mem_cons, forall_eq_or_imp] at hnames
    obtain ⟨hvalue, ⟨s, hs, hnorule⟩, hrest⟩ := h
    obtain ⟨items, hitems, hscan, hes⟩ := ih hnames.2 hrest
    obtain ⟨d, hd⟩ := exists_writes hnames.1 hvalue
    have hscan := hd.ofText_cons hscan
    cases hs.symm.trans hscan
    refine ⟨.declaration d :: items, ⟨hd.valid, ⟨hnorule, fun hopen => ?_⟩, hitems⟩, ?_, ?_⟩
    · exact absurd (List.isEmpty_iff.mp hopen) hd.stop
    · rw [hscan]
      simp [itemTokens, ItemLayout.tokens, hd.strays]
    · rw [List.filterMap_cons_some hd.binding, hes]

/-! ### Balanced names and values -/

/-- Whether name and value are balanced, and the name does not look like an at-rule. -/
def isPlainEntry (e : String × String) : Bool :=
  isBalanced [] e.1 && e.1.toList.head? ≠ some '@' && (e.2 = "" || isBalanced [] e.2)

theorem isPlainEntry_iff {e : String × String} : isPlainEntry e = true ↔
    isBalanced [] e.1 ∧ e.1.toList.head? ≠ some '@' ∧ (e.2 = "" ∨ isBalanced [] e.2) := by
  simp [isPlainEntry, and_assoc]

theorem IsWholeValue.of_isBalanced {value : String} (h : value = "" ∨ isBalanced [] value) :
    IsWholeValue value := by
  rcases h with rfl | h
  · exact ⟨[], by decide +kernel, rfl, rfl⟩
  · obtain ⟨ts, hts, -, hgap, hsettle, -⟩ := exists_tokens_of_isBalanced h
    exact ⟨ts, hts, hgap, depthAfter_add hsettle (by simp) 0⟩

theorem depthAfter_of_isBalanced {ts : List Token} (htiles : TokenStream.Tiles ⟨ts, ""⟩)
    (h : innerText ts = "" ∨ isBalanced [] (innerText ts)) :
    depthAfter [.lbrace, .semicolon] 0 ts = .ok 0 := by
  have hscan := ofText_innerText htiles
  rw [← depthAfter_withGap _ _ "" ts]
  rcases h with h | h
  · have hempty : TokenStream.ofText "" = .ok ⟨[], ""⟩ := by decide +kernel
    rw [h, hempty] at hscan
    have hnil : [] = withGap "" ts := congrArg TokenStream.tokens (Except.ok.inj hscan)
    rw [← hnil]
    rfl
  · obtain ⟨us, hus, -, -, hsettle, -⟩ := exists_tokens_of_isBalanced h
    cases hscan.symm.trans hus
    exact depthAfter_add hsettle (by simp) 0

/-- A look ahead from a line of a balanced name and value finds the semicolon that ends it. -/
theorem DeclarationLayout.Writes.startsRule_eq_false {d : DeclarationLayout}
    {e : String × String} (hd : d.Writes e) (h : isPlainEntry e) (ts : List Token) :
    startsRule (d.core ++ ts) = false := by
  obtain ⟨hname, hat, hvalue⟩ := isPlainEntry_iff.mp h
  obtain ⟨_, -, hstop⟩ := hd.valid.value
  obtain ⟨-, t, ht, hk⟩ := hstop.resolve_left hd.stop
  have hcore : d.core ++ ts = d.property ++ d.colon :: (d.value ++ (t :: ts)) := by
    simp [core, ht]
  have htiles := hd.tiles
  rw [core] at htiles
  obtain rfl : (innerText d.property, innerText d.value) = e := Option.some.inj hd.binding
  have hproperty : depthAfter [.lbrace, .semicolon] 0 d.property = .ok 0 :=
    depthAfter_of_isBalanced htiles.left (.inr hname)
  have hvalue : depthAfter [.lbrace, .semicolon] 0 d.value = .ok 0 :=
    depthAfter_of_isBalanced htiles.right.tail.left hvalue
  have hlook : depthAfter [.lbrace, .semicolon] 0 (d.core ++ ts) = .error .semicolon := by
    have hcolon : depthAfter [.lbrace, .semicolon] 0 (d.colon :: (d.value ++ t :: ts)) =
        depthAfter [.lbrace, .semicolon] 0 (d.value ++ t :: ts) := by
      simp [depthAfter, nest, hd.valid.colon]
    rw [hcore, depthAfter_append, hproperty, Except.bind, hcolon, depthAfter_append, hvalue,
      Except.bind, depthAfter, if_pos (by simp [hk]), hk]
  have hat' : startsAt (d.core ++ ts) = false := by
    rw [hcore, Bool.eq_false_iff]
    exact mt (startsAt_iff htiles.left _ hd.valid.property_ne).mp hat
  rw [startsRule_eq, hlook]
  simp [hat']

theorem legible_of_isPlainEntry {es : List (String × String)} (hnames : ∀ e ∈ es, IsName e.1)
    (h : ∀ e ∈ es, isPlainEntry e) : Legible es := by
  induction es with
  | nil => trivial
  | cons e es ih =>
    simp only [List.mem_cons, forall_eq_or_imp] at hnames h
    have hrest := ih hnames.2 h.2
    obtain ⟨items, -, hscan, -⟩ := exists_items_of_legible hnames.2 hrest
    have hwhole : IsWholeValue e.2 := .of_isBalanced (isPlainEntry_iff.mp h.1).2.2
    obtain ⟨d, hd⟩ := exists_writes hnames.1 hwhole
    exact ⟨hwhole, ⟨_, hd.ofText_cons hscan, hd.startsRule_eq_false h.1 _⟩, hrest⟩

end StyleBundle
