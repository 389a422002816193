import StyleBundle.Proofs.Rereading
import StyleBundle.Sheet.Symbols

/-!
# Symbols and the shape of a rule

Symbols are replaced in the text of a value or a prelude, without regard to what the text put in
does to strings, comments and parentheses. A rule keeps its shape when in each place the new text is
made of whole tokens and a look ahead passes them as it passes the old ones. Such a rule is read
back.
-/

namespace StyleBundle

open Token StyleBundle.Parser

/-! ## Tokens that are passed alike -/

namespace Parser

/-- A look ahead for the end of a value or of an item passes both runs of tokens, with the same
depth of parentheses after them, or stops in both at the same kind of token. -/
structure Alike (ts us : List Token) : Prop where
  value : ∀ depth, depthAfter [.semicolon] depth ts = depthAfter [.semicolon] depth us
  item : ∀ depth,
    depthAfter [.lbrace, .semicolon] depth ts = depthAfter [.lbrace, .semicolon] depth us

namespace Alike

variable {ts us vs ws : List Token}

theorem refl (ts : List Token) : Alike ts ts :=
  ⟨fun _ => rfl, fun _ => rfl⟩

theorem append (h : Alike ts us) (h' : Alike vs ws) : Alike (ts ++ vs) (us ++ ws) := by
  constructor
  · intro depth
    simp only [depthAfter_append, h.value, h'.value]
  · intro depth
    simp only [depthAfter_append, h.item, h'.item]

theorem withGap_iff (gap gap' : String) :
    Alike (withGap gap ts) (withGap gap' us) ↔ Alike ts us := by
  cases ts <;> cases us <;> exact ⟨fun h => ⟨h.value, h.item⟩, fun h => ⟨h.value, h.item⟩⟩

theorem startsRule_eq (h : Alike ts us) (hat : startsAt ts = startsAt us) :
    startsRule ts = startsRule us := by
  rw [Parser.startsRule_eq, Parser.startsRule_eq, h.item, hat]

end Alike

end Parser

/-! ## Keeping the shape -/

/-- The new text is the old one, or by itself it is tokens with nothing around them, none of the
kinds at which the part ends, and a look ahead passes both alike. -/
def KeepsShape (ends : List TokenKind) (old new : String) : Prop :=
  new = old ∨ ∃ ts us, TokenStream.ofText old = .ok ⟨ts, ""⟩ ∧
    TokenStream.ofText new = .ok ⟨us, ""⟩ ∧ us ≠ [] ∧ leadingGap us = "" ∧ Alike ts us ∧
    ∀ u ∈ us, u.kind ∉ ends

def Header.Fits (t : Replacements) (h : Header) : Prop :=
  KeepsShape [.lbrace, .rbrace, .semicolon] h.prelude (AtRule.replaceSymbols t h.prelude)

def Declaration.Fits (t : Replacements) (d : Declaration) : Prop :=
  KeepsShape [] d.value (substitute t d.value)

mutual

def BodyItem.Fits (t : Replacements) : BodyItem → Prop
  | .declaration d => d.Fits t
  | .rule r => r.Fits t

def PlainRule.Fits (t : Replacements) : PlainRule → Prop
  | .statement h _ => h.Fits t
  | .block h items _ _ => h.Fits t ∧ ItemsFit t items

def ItemsFit (t : Replacements) : List BodyItem → Prop
  | [] => True
  | i :: is => i.Fits t ∧ ItemsFit t is

end

/-! ## Balanced texts -/

namespace Parser

variable {ts us : List Token}

/-- The depth of parentheses after a character, none where one closes that is not open. -/
def nestChar? (depth : Nat) (c : Char) : Option Nat :=
  if c = ')' && depth = 0 then none else some (nestChar depth c)

/-- The depth of parentheses after some tokens, none where one closes that is not open and where a
brace or a semicolon stands outside of parentheses. -/
def settle? : Nat → List Token → Option Nat
  | depth, [] => some depth
  | depth, t :: ts =>
    if t.kind = .rbrace || (depth = 0 && [.lbrace, .semicolon].contains t.kind) then
      none
    else if t.kind = .text then
      (t.lexeme.toList.foldlM nestChar? depth).bind (settle? · ts)
    else
      settle? depth ts

/-- Parentheses around what is balanced do not show in it. -/
theorem foldl_nestChar_add {depth d : Nat} {cs : List Char}
    (h : cs.foldlM nestChar? depth = some d) (n : Nat) :
    cs.foldl nestChar (depth + n) = d + n := by
  induction cs generalizing depth with
  | nil =>
    cases h
    rfl
  | cons c cs ih =>
    rw [List.foldlM_cons] at h
    obtain ⟨e, he, h⟩ := Option.bind_eq_some_iff.mp h
    unfold nestChar? at he
    split at he
    · cases he
    · next hgo =>
      cases he
      have hshift : nestChar (depth + n) c = nestChar depth c + n := by
        simp only [Bool.and_eq_true, decide_eq_true_eq, not_and] at hgo
        unfold nestChar
        split
        · omega
        · split
          · next hc =>
            have := hgo hc
            omega
          · rfl
      rw [List.foldl_cons, hshift]
      exact ih h

theorem depthAfter_add {depth d : Nat} (h : settle? depth ts = some d) {stops : List TokenKind}
    (hstops : stops ⊆ [.lbrace, .semicolon]) (n : Nat) :
    depthAfter stops (depth + n) ts = .ok (d + n) := by
  induction ts generalizing depth with
  | nil =>
    cases h
    rfl
  | cons t ts ih =>
    rw [settle?] at h
    rw [depthAfter]
    split at h
    · cases h
    · next hgo =>
      simp only [Bool.or_eq_true, decide_eq_true_eq, Bool.and_eq_true, not_or, not_and,
        List.contains_iff_mem] at hgo
      have hpass : ¬ (t.kind = .rbrace || (depth + n = 0 && stops.contains t.kind)) = true := by
        simp only [Bool.or_eq_true, decide_eq_true_eq, Bool.and_eq_true, not_or, not_and,
          List.contains_iff_mem]
        exact ⟨hgo.1, fun hzero hstop => hgo.2 (by omega) (hstops hstop)⟩
      rw [if_neg hpass, nest]
      split at h
      · next htext =>
        obtain ⟨e, he, h⟩ := Option.bind_eq_some_iff.mp h
        rw [if_pos htext, foldl_nestChar_add he]
        exact ih h
      · next htext =>
        rw [if_neg htext]
        exact ih h

theorem Alike.of_settle? (h : settle? 0 ts = some 0) (h' : settle? 0 us = some 0) :
    Alike ts us := by
  have hpass : ∀ {ts} (stops : List TokenKind), stops ⊆ [.lbrace, .semicolon] →
      settle? 0 ts = some 0 → ∀ depth, depthAfter stops depth ts = .ok depth := by
    intro ts stops hstops h depth
    have := depthAfter_add h hstops depth
    rwa [Nat.zero_add] at this
  refine ⟨fun depth => ?_, fun depth => ?_⟩
  · rw [hpass _ (by simp) h, hpass _ (by simp) h']
  · rw [hpass _ (by simp) h, hpass _ (by simp) h']

end Parser

/-- Whether a text is made of tokens with nothing around them, none of a kind in `ends`. Its
parentheses open and close in it, and outside of these there is no brace and no semicolon. -/
def isBalanced (ends : List TokenKind) (text : String) : Bool :=
  (TokenStream.ofText text).toOption.any fun s =>
    s.trailing = "" && s.tokens ≠ [] && leadingGap s.tokens = "" &&
      settle? 0 s.tokens = some 0 && s.tokens.all fun t => t.kind ∉ ends

theorem exists_tokens_of_isBalanced {ends : List TokenKind} {text : String}
    (h : isBalanced ends text) : ∃ ts, TokenStream.ofText text = .ok ⟨ts, ""⟩ ∧ ts ≠ [] ∧
      leadingGap ts = "" ∧ settle? 0 ts = some 0 ∧ ∀ t ∈ ts, t.kind ∉ ends := by
  unfold isBalanced at h
  cases hs : TokenStream.ofText text with
  | error e => simp [hs, Except.toOption] at h
  | ok s =>
    obtain ⟨ts, trailing⟩ := s
    simp only [hs, Except.toOption, Option.any_some, Bool.and_eq_true, decide_eq_true_eq,
      List.all_eq_true] at h
    obtain ⟨⟨⟨⟨rfl, hne⟩, hgap⟩, hsettle⟩, hends⟩ := h
    exact ⟨ts, rfl, hne, hgap, hsettle, hends⟩

/-- Whether the new text is the old one, or both are balanced. -/
def staysBalanced (ends : List TokenKind) (old new : String) : Bool :=
  new = old || (isBalanced ends old && isBalanced ends new)

theorem KeepsShape.of_staysBalanced {ends : List TokenKind} {old new : String}
    (h : staysBalanced ends old new) : KeepsShape ends old new := by
  simp only [staysBalanced, Bool.or_eq_true, decide_eq_true_eq, Bool.and_eq_true] at h
  rcases h with h | ⟨hold, hnew⟩
  · exact .inl h
  · obtain ⟨ts, hts, -, -, hsettle, -⟩ := exists_tokens_of_isBalanced hold
    obtain ⟨us, hus, hne, hgap, hsettle', hends⟩ := exists_tokens_of_isBalanced hnew
    exact .inr ⟨ts, us, hts, hus, hne, hgap, .of_settle? hsettle hsettle', hends⟩

example : KeepsShape [] "red" "rgb(1, 2)" :=
  .of_staysBalanced (by decide +kernel)

def Header.staysBalanced (t : Replacements) (h : Header) : Bool :=
  StyleBundle.staysBalanced [.lbrace, .rbrace, .semicolon] h.prelude
    (AtRule.replaceSymbols t h.prelude)

mutual

def BodyItem.staysBalanced (t : Replacements) : BodyItem → Bool
  | .declaration d => StyleBundle.staysBalanced [] d.value (substitute t d.value)
  | .rule r => r.staysBalanced t

/-- Whether everywhere in the rule what is put in is balanced, as what it replaces is. -/
def PlainRule.staysBalanced (t : Replacements) : PlainRule → Bool
  | .statement h _ => h.staysBalanced t
  | .block h items _ _ => h.staysBalanced t && itemsStayBalanced t items

def itemsStayBalanced (t : Replacements) : List BodyItem → Bool
  | [] => true
  | i :: is => i.staysBalanced t && itemsStayBalanced t is

end

mutual

theorem BodyItem.fits_of_staysBalanced {t : Replacements} (i : BodyItem)
    (h : i.staysBalanced t) : i.Fits t :=
  match i with
  | .declaration _ => .of_staysBalanced h
  | .rule r => r.fits_of_staysBalanced h

theorem PlainRule.fits_of_staysBalanced {t : Replacements} (r : PlainRule)
    (h : r.staysBalanced t) : r.Fits t :=
  match r with
  | .statement _ _ => .of_staysBalanced h
  | .block _ items _ _ =>
    have h := Bool.and_eq_true_iff.mp h
    ⟨.of_staysBalanced h.1, itemsFit_of_stayBalanced items h.2⟩

theorem itemsFit_of_stayBalanced {t : Replacements} (is : List BodyItem)
    (h : itemsStayBalanced t is) : ItemsFit t is :=
  match is with
  | [] => trivial
  | i :: is =>
    have h := Bool.and_eq_true_iff.mp h
    ⟨i.fits_of_staysBalanced h.1, itemsFit_of_stayBalanced is h.2⟩

end

/-! ## One place -/

variable {ts us : List Token} {ends : List TokenKind} {new : String}

theorem kind_of_mem_withGap {gap : String} {u : Token} (h : u ∈ withGap gap ts) :
    ∃ t ∈ ts, t.kind = u.kind := by
  cases ts with
  | nil => cases h
  | cons t ts =>
    rcases List.mem_cons.mp h with rfl | h
    · exact ⟨t, List.mem_cons_self, rfl⟩
    · exact ⟨u, List.mem_cons_of_mem t h, rfl⟩

/-- New text that keeps the shape is written with tokens that can take the place of the old. -/
theorem KeepsShape.exists_tokens (h : KeepsShape ends (innerText ts) new)
    (hts : TokenStream.Tiles ⟨ts, ""⟩) (hends : ∀ t ∈ ts, t.kind ∉ ends) :
    ∃ us, TokenStream.Tiles ⟨us, ""⟩ ∧ innerText us = new ∧ leadingGap us = leadingGap ts ∧
      Alike ts us ∧ (ts ≠ [] → us ≠ []) ∧ ∀ u ∈ us, u.kind ∉ ends := by
  rcases h with rfl | ⟨ts', us, hold, hnew, hne, hgap, halike, hus⟩
  · exact ⟨ts, hts, rfl, rfl, .refl ts, id, hends⟩
  · rw [ofText_innerText hts] at hold
    cases hold
    obtain ⟨rfl, htiles⟩ := TokenStream.ofText_eq_ok_iff.mp hnew
    have htext : TokenStream.text ⟨us, ""⟩ = innerText us := by
      simp [TokenStream.text, ← leadingGap_append_innerText us, hgap]
    refine ⟨withGap (leadingGap ts) us, htiles.withGap hts.gap_leadingGap, ?_,
      leadingGap_withGap hne, ?_, fun _ => withGap_ne_nil _ hne, fun u hu => ?_⟩
    · rw [innerText_withGap, htext]
    · have hlead := (Alike.withGap_iff (leadingGap ts) (leadingGap ts)).mpr halike
      rwa [withGap_leadingGap] at hlead
    · obtain ⟨v, hv, hk⟩ := kind_of_mem_withGap hu
      exact hk ▸ hus v hv

/-! ## Seams around a place -/

theorem Token.Whole.apart {u : Token} (hu : u.Whole)
    (hk : u.kind = .semicolon ∨ u.kind = .rbrace ∨ u.kind = .lbrace) (t : Token) : t.Apart u := by
  intro _
  rcases hk with hk | hk | hk
  · rw [hu.proper ";" (by simp [hk, TokenKind.lexeme?])]
    cases t.kind <;> simp [Scan.EndsBefore, Scan.isTextChar]
  · rw [hu.proper "\x7d" (by simp [hk, TokenKind.lexeme?])]
    cases t.kind <;> simp [Scan.EndsBefore, Scan.isTextChar]
  · rw [hu.proper "\x7b" (by simp [hk, TokenKind.lexeme?])]
    cases t.kind <;> simp [Scan.EndsBefore, Scan.isTextChar]

/-- The first character of a run of tokens decides whether it starts an at-rule. -/
theorem startsAt_iff (h : TokenStream.Tiles ⟨ts, ""⟩) (us : List Token) (hne : ts ≠ []) :
    startsAt (ts ++ us) ↔ (innerText ts).toList.head? = some '@' := by
  cases ts with
  | nil => exact absurd rfl hne
  | cons t ts =>
    have hlexeme := (h.whole t List.mem_cons_self).lexeme
    rw [innerText, String.toList_append, hlexeme.head?_append]
    simp [startsAt]

/-! ## Heads -/

/-- Trimming keeps what starts with no white space. -/
theorem Text.exists_trim_cons {c : Char} (h : ¬ isWhiteSpace c) (cs : List Char) :
    ∃ ds, trim (c :: cs) = c :: ds := by
  have hstart : trimStart (c :: cs) = c :: cs := List.dropWhile_cons_of_neg h
  rw [trim, hstart, trimEnd, trimStart, List.reverse_cons, List.dropWhile_append,
    List.dropWhile_cons_of_neg h]
  split
  · exact ⟨[], rfl⟩
  · exact ⟨_, List.reverse_concat⟩

namespace AtRule

theorem directive_eq_none {prelude : String} (h : prelude.toList.head? = some '@') :
    Directive.ofPrelude? prelude = none := by
  obtain ⟨cs, hcs⟩ := List.head?_eq_some_iff.mp h
  obtain ⟨ds, hds⟩ := Text.exists_trim_cons (show ¬ Text.isWhiteSpace '@' by decide) cs
  unfold Directive.ofPrelude?
  rw [hcs, hds]
  simp [Directive.importArgument?, List.isPrefixOf?]

theorem replaceSymbols_of_ne (t : Replacements) {prelude : String}
    (h : prelude.toList.head? ≠ some '@') : replaceSymbols t prelude = prelude := by
  have hnone : ofPrelude? prelude = none := by
    unfold ofPrelude?
    split
    · next cs hcs => exact absurd (by rw [hcs]; rfl) h
    · rfl
  rw [replaceSymbols, hnone]

theorem head?_replaceSymbols (t : Replacements) (prelude : String) :
    (replaceSymbols t prelude).toList.head? = some '@' ↔ prelude.toList.head? = some '@' := by
  unfold replaceSymbols
  split
  · next a ha =>
    have hat : prelude.toList.head? = some '@' := by
      unfold ofPrelude? at ha
      split at ha
      · next cs hcs => rw [hcs]; rfl
      · cases ha
    split
    · simp [AtRule.prelude, hat]
    · rfl
  · rfl

end AtRule

theorem HeadLayout.exists_replaced {t : Replacements} {h : HeadLayout} {kind : TokenKind}
    (hkind : kind = .semicolon ∨ kind = .lbrace) (hv : h.Valid kind)
    (htiles : TokenStream.Tiles ⟨h.strays ++ h.core, ""⟩) (hfit : h.header.Fits t) :
    ∃ h' : HeadLayout, h'.Valid kind ∧ TokenStream.Tiles ⟨h'.strays ++ h'.core, ""⟩ ∧
      h'.strays = h.strays ∧ Alike h.core h'.core ∧
      (∀ us vs, startsAt (h'.core ++ us) = startsAt (h.core ++ vs)) ∧
      h'.header = h.header.replaceSymbols t := by
  have hstop := htiles.right.right
  obtain ⟨prelude, hprelude, htext, hgap, halike, hne, hends⟩ :=
    KeepsShape.exists_tokens hfit htiles.right.left
      (by simpa [endsPrelude, and_assoc] using hv.prelude)
  refine ⟨{ h with prelude }, ⟨hv.strays, hne hv.prelude_ne, ?_, hv.stop⟩, ?_, rfl, ?_,
    fun us vs => ?_, ?_⟩
  · simpa [endsPrelude, and_assoc] using hends
  · refine .append hv.strays.sealed htiles.left (hprelude.join hstop fun u _ v hv' => ?_)
    cases hv'
    refine Token.Whole.apart (hstop.whole _ List.mem_cons_self) ?_ u
    rw [hv.stop]
    exact hkind.elim .inl fun h => .inr (.inr h)
  · exact halike.append (.refl _)
  · rw [core, core, List.append_assoc, List.append_assoc, Bool.eq_iff_iff,
      startsAt_iff hprelude _ (hne hv.prelude_ne),
      startsAt_iff htiles.right.left _ hv.prelude_ne, htext]
    exact AtRule.head?_replaceSymbols t _
  · simp [header, hgap, htext, Header.replaceSymbols]

/-! ## Declarations -/

theorem DeclarationLayout.exists_replaced {t : Replacements} {d : DeclarationLayout} {n : Nat}
    (hv : d.Valid) (htiles : TokenStream.Tiles ⟨d.strays ++ d.core, ""⟩)
    (hfit : (d.tree n).Fits t) :
    ∃ d' : DeclarationLayout, d'.Valid ∧ TokenStream.Tiles ⟨d'.strays ++ d'.core, ""⟩ ∧
      d'.strays = d.strays ∧ Alike d.core d'.core ∧
      (∀ us vs, startsAt (d'.core ++ us) = startsAt (d.core ++ vs)) ∧
      d'.stop = d.stop ∧
      ∀ m, (d'.tree m).withoutSpan = ((d.tree n).replaceSymbols t).withoutSpan := by
  have hsplit : d.strays ++ d.core =
      d.strays ++ d.property ++ [d.colon] ++ (d.value ++ d.stop) := by
    simp [core]
  rw [hsplit] at htiles
  obtain ⟨value, hvalue, htext, hgap, halike, -, -⟩ :=
    KeepsShape.exists_tokens hfit htiles.right.left (by simp)
  have hstop : TokenStream.Tiles ⟨value ++ d.stop, ""⟩ := by
    refine hvalue.join htiles.right.right fun u _ v hv' => ?_
    have hmem := List.mem_of_mem_head? hv'
    obtain ⟨depth, -, hnil | ⟨-, w, hsingle, hk⟩⟩ := hv.value
    · simp [hnil] at hmem
    · rw [hsingle] at hmem
      cases List.mem_singleton.mp hmem
      exact (htiles.right.right.whole _ (by simp [hsingle])).apart (.inl hk) u
  refine ⟨{ d with value }, ⟨hv.strays, hv.property_ne, hv.property, hv.colon, ?_⟩, ?_, rfl, ?_,
    fun us vs => ?_, rfl, fun m => ?_⟩
  · simpa only [← halike.value] using hv.value
  · have hcolon : ∀ u ∈ (d.strays ++ d.property ++ [d.colon]).getLast?, ∀ v, u.Apart v := by
      intro u hu v _
      rw [List.getLast?_concat] at hu
      cases hu
      rw [hv.colon]
      trivial
    have hjoin := htiles.left.join hstop fun u hu v _ => hcolon u hu v
    simpa [core] using hjoin
  · exact (Alike.refl _).append ((Alike.refl [d.colon]).append (halike.append (.refl _)))
  · obtain ⟨v, vs, hcons⟩ := List.exists_cons_of_ne_nil hv.property_ne
    simp [core, hcons, startsAt]
  · simp [tree, Declaration.withoutSpan, Declaration.replaceSymbols, hgap, htext]

/-! ## Items -/

namespace ItemLayout

/-- A layout that can take the place of an item whose symbols are replaced. -/
structure Replaced (t : Replacements) (n : Nat) (i i' : ItemLayout) : Prop where
  valid : i'.Valid
  tiles : TokenStream.Tiles ⟨i'.tokens, ""⟩
  strays : i'.strays = i.strays
  core : Alike i.core i'.core
  startsAt : ∀ us vs, startsAt (i'.core ++ us) = startsAt (i.core ++ vs)
  isRule : i'.isRule = i.isRule
  isOpen : i'.isOpen = i.isOpen
  tree : ∀ m, (i'.tree m).withoutSpans = ((i.tree n).replaceSymbols t).withoutSpans

variable {t : Replacements} {n : Nat} {i i' : ItemLayout} {tail : List Token}

theorem Replaced.tokens (h : i.Replaced t n i') : Alike i.tokens i'.tokens := by
  rw [tokens_eq, tokens_eq, h.strays]
  exact (Alike.refl _).append h.core

theorem Valid.head_ne (hi : i.Valid) : ∃ u us, i.tokens = u :: us ∧ u.kind ≠ .rbrace := by
  cases i with
  | declaration d =>
    obtain ⟨u, us, hcons⟩ := List.exists_cons_of_ne_nil hi.property_ne
    have hu := hi.property u (by simp [hcons])
    cases hs : d.strays with
    | nil =>
      refine ⟨u, us ++ d.colon :: (d.value ++ d.stop), ?_,
        fun hk => by simp [endsProperty, hk] at hu⟩
      simp [tokens, DeclarationLayout.core, hs, hcons]
    | cons v vs =>
      refine ⟨v, vs ++ d.core, by simp [tokens, hs], fun hk => ?_⟩
      simp [hi.strays v (by simp [hs])] at hk
  | rule r =>
    obtain ⟨kind, hv⟩ := RuleLayout.Valid.head hi
    obtain ⟨u, us, hcons⟩ := List.exists_cons_of_ne_nil hv.prelude_ne
    have hu := hv.prelude u (by simp [hcons])
    cases hs : r.head.strays with
    | nil =>
      refine ⟨u, us ++ (r.head.stop :: r.rest), ?_, fun hk => by simp [endsPrelude, hk] at hu⟩
      simp [tokens, RuleLayout.tokens_eq, HeadLayout.core, hs, hcons]
    | cons v vs =>
      refine ⟨v, vs ++ (r.head.core ++ r.rest), by simp [tokens, RuleLayout.tokens_eq, hs],
        fun hk => ?_⟩
      simp [hv.strays v (by simp [hs])] at hk

theorem Valid.apart (hi : i.Valid) (hp : i.Precedes tail) (htail : TokenStream.Tiles ⟨tail, ""⟩) :
    ∀ u ∈ i.tokens.getLast?, ∀ v ∈ tail.head?, u.Apart v := by
  intro u hu v hv
  cases i with
  | declaration d =>
    obtain ⟨depth, -, hnil | ⟨-, w, hsingle, hk⟩⟩ := DeclarationLayout.Valid.value hi
    · have hk := hp.closed (by simp [isOpen, hnil]) v hv
      exact (htail.whole v (List.mem_of_mem_head? hv)).apart (.inr (.inl hk)) u
    · have hlast : (declaration d).tokens =
          d.strays ++ d.property ++ d.colon :: d.value ++ [w] := by
        simp [tokens, DeclarationLayout.core, hsingle]
      rw [hlast, List.getLast?_concat] at hu
      cases hu
      exact Token.apart_of_kind (.inl hk) v
  | rule r =>
    obtain ⟨ts, w, hts, hk⟩ := RuleLayout.Valid.exists_last hi
    have hlast : (rule r).tokens = r.head.strays ++ ts ++ [w] := by
      rw [tokens, RuleLayout.tokens_eq, List.append_assoc, hts, List.append_assoc]
    rw [hlast, List.getLast?_concat] at hu
    cases hu
    exact Token.apart_of_kind hk v

end ItemLayout

/-! ## Rules and blocks -/

mutual

theorem ItemLayout.exists_replaced {t : Replacements} (i : ItemLayout) (n : Nat) (hv : i.Valid)
    (htiles : TokenStream.Tiles ⟨i.tokens, ""⟩) (hfit : (i.tree n).Fits t) :
    ∃ i', i.Replaced t n i' :=
  match i with
  | .declaration d => by
    obtain ⟨d', hv', htiles', hstrays, hcore, hat, hstop, htree⟩ :=
      DeclarationLayout.exists_replaced hv htiles hfit
    exact ⟨.declaration d', hv', htiles', hstrays, hcore, hat, rfl, congrArg List.isEmpty hstop,
      fun m => congrArg BodyItem.declaration (htree m)⟩
  | .rule (.statement h) => by
    obtain ⟨h', hv', htiles', hstrays, hcore, hat, hheader⟩ :=
      HeadLayout.exists_replaced (.inl rfl) hv.1 htiles hfit
    have hprelude : innerText h'.prelude = AtRule.replaceSymbols t (innerText h.prelude) :=
      congrArg Header.prelude hheader
    refine ⟨.rule (.statement h'), ⟨hv', ?_⟩, htiles', hstrays, hcore.append (.refl []),
      fun us vs => ?_, rfl, rfl, fun m => ?_⟩
    · rw [hprelude]
      exact (AtRule.head?_replaceSymbols t _).mpr hv.2
    · simpa [ItemLayout.core, RuleLayout.head] using hat _ _
    · exact congrArg (fun header => BodyItem.rule (.statement header .none)) hheader
  | .rule (.block h items strays close) => by
    obtain ⟨hhead, hitems, hstrays, hclose⟩ := hv
    have htokens (h : HeadLayout) (items : List ItemLayout) :
        (ItemLayout.rule (.block h items strays close)).tokens =
          h.strays ++ h.core ++ (itemTokens items ++ (strays ++ [close])) := by
      simp [ItemLayout.tokens, RuleLayout.tokens]
    rw [htokens] at htiles
    obtain ⟨h', hv', hhead', hstrays', hcore, hat, hheader⟩ :=
      HeadLayout.exists_replaced (.inr rfl) hhead htiles.left hfit.1
    obtain ⟨items', hitems', htiles', halike, -, htrees⟩ :=
      exists_itemsReplaced items _ _ hitems htiles.right hfit.2
    refine ⟨.rule (.block h' items' strays close), ⟨hv', hitems', hstrays, hclose⟩, ?_, hstrays',
      hcore.append ((halike.append (.refl _)).append (.refl _)), fun us vs => ?_, rfl, rfl,
      fun m => ?_⟩
    · rw [htokens]
      refine hhead'.join htiles' fun u hu v _ _ => ?_
      rw [HeadLayout.core, ← List.append_assoc, List.getLast?_concat] at hu
      cases hu
      rw [hv'.stop]
      trivial
    · simpa [ItemLayout.core, RuleLayout.head] using hat _ _
    · exact congrArg₂ (fun header items => BodyItem.rule
        (.block header items (textOf strays ++ close.gap) .none)) hheader (htrees _)

theorem exists_itemsReplaced {t : Replacements} (is : List ItemLayout) (n : Nat) (tail : List Token)
    (hv : ItemsValid is tail) (htiles : TokenStream.Tiles ⟨itemTokens is ++ tail, ""⟩)
    (hfit : ItemsFit t (itemTrees n is)) :
    ∃ is', ItemsValid is' tail ∧ TokenStream.Tiles ⟨itemTokens is' ++ tail, ""⟩ ∧
      Alike (itemTokens is) (itemTokens is') ∧ (is = [] → is' = []) ∧
      ∀ m, itemsWithoutSpans (itemTrees m is') =
        itemsWithoutSpans (replaceItems t (itemTrees n is)) :=
  match is with
  | [] => ⟨[], trivial, htiles, .refl _, id, fun _ => rfl⟩
  | i :: is => by
    obtain ⟨hi, hp, his⟩ := hv
    rw [itemTokens, List.append_assoc] at htiles
    obtain ⟨i', hi'⟩ := i.exists_replaced n hi htiles.left hfit.1
    obtain ⟨is', his', htiles', halike, hnil, htrees⟩ :=
      exists_itemsReplaced is _ tail his htiles.right hfit.2
    have hp' : i'.Precedes (itemTokens is' ++ tail) := by
      refine ⟨?_, fun hopen => ?_⟩
      · have hbehind := hi'.core.append (halike.append (.refl tail))
        rw [hi'.isRule, ← hp.startsRule, hbehind.startsRule_eq (hi'.startsAt _ _).symm]
      · have hclosed := hp.closed (hi'.isOpen ▸ hopen)
        cases is with
        | nil => simpa [hnil rfl, itemTokens] using hclosed
        | cons j js =>
          obtain ⟨u, us, hcons, hk⟩ := his.1.head_ne
          exact absurd (hclosed u (by simp [itemTokens, hcons])) hk
    refine ⟨i' :: is', ⟨hi'.valid, hp', his'⟩, ?_, hi'.tokens.append halike, by simp, fun m => ?_⟩
    · rw [itemTokens, List.append_assoc]
      exact hi'.tiles.join htiles' (hi'.valid.apart hp' htiles')
    · simp only [itemTrees, itemsWithoutSpans, replaceItems]
      rw [hi'.tree, htrees]

end

/-! ## Rules that are read back -/

section Bare

variable (t : Replacements)

mutual

theorem BodyItem.fits_withoutSpans (i : BodyItem) : i.withoutSpans.Fits t ↔ i.Fits t :=
  match i with
  | .declaration _ => .rfl
  | .rule r => r.fits_withoutSpans

theorem PlainRule.fits_withoutSpans (r : PlainRule) : r.withoutSpans.Fits t ↔ r.Fits t :=
  match r with
  | .statement _ _ => .rfl
  | .block _ items _ _ => and_congr_right fun _ => itemsFit_withoutSpans items

theorem itemsFit_withoutSpans (is : List BodyItem) :
    ItemsFit t (itemsWithoutSpans is) ↔ ItemsFit t is :=
  match is with
  | [] => .rfl
  | i :: is => and_congr i.fits_withoutSpans (itemsFit_withoutSpans is)

end

mutual

theorem BodyItem.withoutSpans_replaceSymbols (i : BodyItem) :
    (i.replaceSymbols t).withoutSpans = i.withoutSpans.replaceSymbols t :=
  match i with
  | .declaration _ => rfl
  | .rule r => congrArg BodyItem.rule r.withoutSpans_replaceSymbols

theorem PlainRule.withoutSpans_replaceSymbols (r : PlainRule) :
    (r.replaceSymbols t).withoutSpans = r.withoutSpans.replaceSymbols t :=
  match r with
  | .statement _ _ => rfl
  | .block h items after _ =>
    congrArg (PlainRule.block (h.replaceSymbols t) · after .none) (withoutSpans_replaceItems items)

theorem withoutSpans_replaceItems (is : List BodyItem) :
    itemsWithoutSpans (replaceItems t is) = replaceItems t (itemsWithoutSpans is) :=
  match is with
  | [] => rfl
  | i :: is => congrArg₂ List.cons i.withoutSpans_replaceSymbols (withoutSpans_replaceItems is)

end

namespace PlainRule

theorem bare_eq (r : PlainRule) : r.bare = r.withoutSpans.setBefore "" := by
  cases r <;> rfl

theorem fits_bare (r : PlainRule) : r.bare.Fits t ↔ r.Fits t := by
  rw [← fits_withoutSpans t r, bare_eq]
  cases r <;> rfl

theorem bare_replaceSymbols (r : PlainRule) :
    (r.replaceSymbols t).bare = r.bare.replaceSymbols t := by
  rw [bare_eq, bare_eq, withoutSpans_replaceSymbols]
  cases r <;> rfl

end PlainRule

end Bare

namespace PlainRule

variable {t : Replacements} {r : PlainRule}

theorem directive?_replaceSymbols (t : Replacements) (h : r.directive? = none) :
    (r.replaceSymbols t).directive? = none := by
  cases r with
  | statement => rfl
  | block header items after span =>
    show Directive.ofPrelude? (AtRule.replaceSymbols t header.prelude) = none
    by_cases hat : header.prelude.toList.head? = some '@'
    · exact AtRule.directive_eq_none ((AtRule.head?_replaceSymbols t _).mpr hat)
    · rw [AtRule.replaceSymbols_of_ne t hat]
      exact h

/-- A rule that is read back is read back after its symbols are replaced, where that keeps the
shape. -/
theorem ReadsBack.replaceSymbols (h : r.ReadsBack) (hfit : r.Fits t) :
    (r.replaceSymbols t).ReadsBack := by
  obtain ⟨l, hl⟩ := readsBack_iff.mp h
  let l₀ := l.withLead ⟨[], ""⟩
  have htokens : l₀.tokens = l.bodyTokens := by
    rw [RuleLayout.tokens_withLead hl.valid (by simp [Strays]), RuleLayout.bodyTokens,
      withGap_withGap, List.nil_append]
  have hbare : (l₀.tree 0).bare = r.bare := (l.bare_tree_withLead _ 0 0).trans hl.bare
  have hfit' : (l₀.tree 0).Fits t := by rwa [← fits_bare, hbare, fits_bare]
  obtain ⟨i, hi⟩ := ItemLayout.exists_replaced (t := t) (.rule l₀) 0
    (hl.valid.withLead (by simp [Strays]))
    (by rw [ItemLayout.tokens, htokens]; exact hl.tiles) hfit'
  cases i with
  | declaration d => cases hi.isRule
  | rule l' =>
    obtain ⟨-, htiles⟩ := RuleLayout.Valid.tiles hi.valid hi.tiles
    refine readsBack_iff.mpr ⟨l', hi.valid, htiles, ?_, ?_⟩
    · have htree := BodyItem.rule.inj (hi.tree 0)
      rw [bare_eq, htree, ← bare_eq, bare_replaceSymbols, hbare, bare_replaceSymbols]
    · exact directive?_replaceSymbols t hl.plain

end PlainRule

end StyleBundle
