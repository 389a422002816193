import StyleBundle.Proofs.Nodes
import StyleBundle.Proofs.PlacedTokens
import StyleBundle.Proofs.Rereading

/-!
# Raw text

A tree that was read keeps all text around its tokens, and nothing of a token stands in it: at every
address the text in front of a node, the text in front of a closing brace and the text that trails a
sheet are blanks, comments and stray semicolons, and what stands between the parts of a node is
blanks and comments with the one colon or semicolon that belongs there. What the tree takes for
preludes, properties and values starts and ends with a token.
-/

namespace StyleBundle

open Scan Token StyleBundle.Parser

/-! ## Tidy nodes -/

/-- Blanks and comments with stray semicolons between them. -/
inductive IsFiller : List Char → Prop
  | trivia {cs : List Char} : IsTrivia cs → IsFiller cs
  | stray {cs ds : List Char} : IsTrivia cs → IsFiller ds → IsFiller (cs ++ ';' :: ds)

/-- The text by itself is scanned to tokens, the first of which starts where the text starts and the
last of which ends where it ends. -/
def IsTight (text : String) : Prop :=
  ∃ ps, lex text = .ok ps ∧ ps.head?.map (·.span.start) = some 0 ∧
    ps.getLast?.map (·.span.stop) = some text.utf8ByteSize

structure Header.Tidy (h : Header) : Prop where
  before : IsFiller h.before.toList
  prelude : IsTight h.prelude
  between : IsTrivia h.between.toList

structure Declaration.Tidy (d : Declaration) : Prop where
  before : IsFiller d.before.toList
  property : IsTight d.property
  /-- One colon stands outside of the comments. -/
  between : ∃ front behind, IsTrivia front ∧ IsTrivia behind ∧
    d.between.toList = front ++ ':' :: behind
  value : d.value ≠ "" → IsTight d.value
  /-- One semicolon stands outside of the comments, and it stands last. -/
  after : d.after = "" ∨ ∃ gap, IsTrivia gap ∧ d.after.toList = gap ++ [';']

structure Binding.Tidy (b : Binding) : Prop where
  name : IsTight b.name
  value : b.value ≠ "" → IsTight b.value

/-- No token stands in the text that a node keeps around its tokens. -/
def Node.Tidy : Node → Prop
  | .sheet _ trailing => IsFiller trailing.toList
  | .imports r => IsFiller r.before.toList ∧ ∀ b ∈ r.bindings, b.Tidy
  | .exports r => IsFiller r.before.toList ∧ ∀ b ∈ r.bindings, b.Tidy
  | .statement h _ => h.Tidy
  | .block h _ after _ => h.Tidy ∧ IsFiller after.toList
  | .declaration d => d.Tidy

/-! ## The text of tokens -/

variable {ts : List Token} {t : Token} {gap : String}

theorem Token.Whole.isTrivia (h : t.Whole) : IsTrivia t.gap.toList :=
  isTrivia_iff.mpr h.gap

theorem isFiller_strays (hstrays : Strays ts) (hwhole : ∀ t ∈ ts, t.Whole)
    (hgap : IsTrivia gap.toList) : IsFiller (textOf ts ++ gap).toList := by
  induction ts with
  | nil => exact .trivia (by simpa [textOf] using hgap)
  | cons t ts ih =>
    have ht := hwhole t List.mem_cons_self
    have htext : t.text = t.gap ++ ";" :=
      ht.proper.text_eq (by rw [hstrays t List.mem_cons_self]; rfl)
    have hts := ih (fun u hu => hstrays u (List.mem_cons_of_mem t hu))
      fun u hu => hwhole u (List.mem_cons_of_mem t hu)
    have hchars : (textOf (t :: ts) ++ gap).toList =
        t.gap.toList ++ ';' :: (textOf ts ++ gap).toList := by
      simp [textOf, htext]
    rw [hchars]
    exact .stray ht.isTrivia hts

theorem getLast?_placed (offset : Nat) (h : ts ≠ []) :
    (placed offset ts).getLast?.map (·.span.stop) = some (offset + totalSize ts) := by
  obtain ⟨ts, t, rfl⟩ := List.eq_nil_or_concat ts |>.resolve_left h
  have hlast : placed (offset + totalSize ts) [t] =
      [⟨t.kind, t.lexeme, t.spanAt (offset + totalSize ts)⟩] := rfl
  rw [List.concat_eq_append, placed_append, hlast, List.getLast?_concat, totalSize_append]
  simp [spanAt, totalSize, Nat.add_assoc]

theorem isTight_innerText (h : TokenStream.Tiles ⟨ts, ""⟩) (hne : ts ≠ []) :
    IsTight (innerText ts) := by
  have hne' := withGap_ne_nil "" hne
  refine ⟨_, lex_eq_ok_iff.mpr ⟨_, ofText_innerText h, rfl⟩, ?_, ?_⟩
  · obtain ⟨t, ts, rfl⟩ := List.exists_cons_of_ne_nil hne
    simp [withGap, placed_cons, spanAt]
  · have hsize := totalSize_eq_leadingGap_add (withGap "" ts)
    rw [leadingGap_withGap hne, innerText_withGap, String.utf8ByteSize_empty] at hsize
    rw [getLast?_placed 0 hne', hsize, Nat.zero_add, Nat.zero_add]

theorem isTight_of_ne (h : TokenStream.Tiles ⟨ts, ""⟩) (hne : innerText ts ≠ "") :
    IsTight (innerText ts) := by
  refine isTight_innerText h ?_
  rintro rfl
  exact hne rfl

/-! ## Layouts -/

theorem HeadLayout.Valid.tidy {h : HeadLayout} {kind : TokenKind} (hv : h.Valid kind)
    (htiles : TokenStream.Tiles ⟨h.strays ++ h.core, ""⟩) : h.header.Tidy where
  before := isFiller_strays hv.strays htiles.left.whole
    (isTrivia_iff.mpr htiles.right.left.gap_leadingGap)
  prelude := isTight_innerText htiles.right.left hv.prelude_ne
  between := (htiles.whole h.stop (by simp [HeadLayout.core])).isTrivia

theorem DeclarationLayout.Valid.tidy {d : DeclarationLayout} (hv : d.Valid)
    (htiles : TokenStream.Tiles ⟨d.strays ++ d.core, ""⟩) (offset : Nat) :
    (d.tree offset).Tidy := by
  have hcolon := htiles.whole d.colon (by simp [DeclarationLayout.core])
  have hproperty := htiles.right.left
  have hvalue : TokenStream.Tiles ⟨d.value, ""⟩ := htiles.right.right.tail.left
  refine ⟨?_, isTight_innerText hproperty hv.property_ne, ?_, isTight_of_ne hvalue, ?_⟩
  · exact isFiller_strays hv.strays htiles.left.whole (isTrivia_iff.mpr hproperty.gap_leadingGap)
  · refine ⟨d.colon.gap.toList, (leadingGap d.value).toList, hcolon.isTrivia,
      isTrivia_iff.mpr hvalue.gap_leadingGap, ?_⟩
    have htext : d.colon.text = d.colon.gap ++ ":" :=
      hcolon.proper.text_eq (by rw [hv.colon]; rfl)
    simp [DeclarationLayout.tree, htext]
  · obtain ⟨depth, -, hstop | ⟨-, t, hstop, hk⟩⟩ := hv.value
    · exact .inl (by rw [DeclarationLayout.tree, hstop]; rfl)
    · have ht := htiles.whole t (by simp [DeclarationLayout.core, hstop])
      have htext : t.text = t.gap ++ ";" := ht.proper.text_eq (by rw [hk]; rfl)
      exact .inr ⟨t.gap.toList, ht.isTrivia,
        by simp [DeclarationLayout.tree, hstop, textOf, htext]⟩

theorem exists_of_getElem?_itemTrees {is : List ItemLayout} {offset k : Nat} {i : BodyItem}
    (h : (itemTrees offset is)[k]? = some i) : ∃ j ∈ is, ∃ n, i = j.tree n := by
  induction is generalizing offset k with
  | nil => simp [itemTrees] at h
  | cons j is ih =>
    cases k with
    | zero => exact ⟨j, List.mem_cons_self, offset, by simpa [itemTrees] using h.symm⟩
    | succ k =>
      obtain ⟨j', hj, hi⟩ := ih (by simpa [itemTrees] using h)
      exact ⟨j', List.mem_cons_of_mem j hj, hi⟩

/-- Every node of an item is tidy, by induction on its address. -/
theorem ItemLayout.Valid.tidy {i : ItemLayout} (hv : i.Valid)
    (htiles : TokenStream.Tiles ⟨i.tokens, ""⟩) (offset : Nat) {address : List Nat} {node : Node}
    (h : (i.tree offset).node? address = some node) : node.Tidy := by
  induction address generalizing i offset with
  | nil =>
    rcases i with d | (head | ⟨head, items, strays, close⟩)
    · cases h
      exact DeclarationLayout.Valid.tidy hv htiles offset
    · cases h
      exact hv.1.tidy htiles
    · cases h
      obtain ⟨hhead, -, hstrays, -⟩ := hv
      rw [ItemLayout.tokens, RuleLayout.tokens] at htiles
      have hclose := htiles.whole close (by simp)
      exact ⟨hhead.tidy htiles.left.left.left,
        isFiller_strays hstrays htiles.left.right.whole hclose.isTrivia⟩
  | cons k address ih =>
    rcases i with d | (head | ⟨head, items, strays, close⟩)
    · cases h
    · simp [ItemLayout.tree, RuleLayout.tree, BodyItem.node?, PlainRule.items] at h
    · obtain ⟨i, hi, hnode⟩ := Option.bind_eq_some_iff.mp h
      obtain ⟨j, hj, n, rfl⟩ := exists_of_getElem?_itemTrees hi
      obtain ⟨us, vs, hsplit⟩ := exists_itemTokens hj
      rw [ItemLayout.tokens, RuleLayout.tokens, hsplit] at htiles
      exact ih (hv.2.1.of_mem hj) htiles.left.left.right.right.left n hnode

/-! ## Rules as they are written -/

namespace SheetLayout

/-- The layout is valid and its tokens are those of the text. -/
structure Writes (l : SheetLayout) (text : String) : Prop where
  valid : l.Valid
  tiles : l.stream.Tiles
  text : l.stream.text = text

def written (l : SheetLayout) : List PlainRule :=
  plainTrees 0 l.rules

variable {l : SheetLayout} {text : String}

theorem rules_tree (l : SheetLayout) : l.tree.rules = l.written.map PlainRule.classify :=
  ruleTrees_eq_map 0 l.rules

theorem Writes.parse_eq (h : l.Writes text) : Stylesheet.parse text = .ok l.tree :=
  Stylesheet.parse_eq_ok_iff.mpr ⟨l, h.valid, h.tiles, h.text, rfl⟩

theorem exists_writes {sheet : Stylesheet} (h : Stylesheet.parse text = .ok sheet) :
    ∃ l : SheetLayout, l.Writes text ∧ l.tree = sheet := by
  obtain ⟨l, hl, htiles, htext, htree⟩ := Stylesheet.parse_eq_ok_iff.mp h
  exact ⟨l, ⟨hl, htiles, htext⟩, htree⟩

theorem Writes.tidy_of_mem_written (h : l.Writes text) {r : PlainRule} (hr : r ∈ l.written)
    {address : List Nat} {node : Node} (hnode : (BodyItem.rule r).node? address = some node) :
    node.Tidy := by
  obtain ⟨q, hq, n, rfl⟩ := exists_of_mem_plainTrees hr
  have hv : (ItemLayout.rule q).Valid := h.valid.rules q hq
  exact hv.tidy (h.tiles.of_mem_rules hq) n hnode

theorem Writes.isFiller_trailing (h : l.Writes text) : IsFiller l.tree.trailing.toList :=
  isFiller_strays h.valid.strays h.tiles.right.whole (isTrivia_iff.mpr h.tiles.trailing)

end SheetLayout

/-! ## Directives -/

theorem PlainRule.tidy_classify {r : PlainRule}
    (h : ∀ address node, (BodyItem.rule r).node? address = some node → node.Tidy)
    {address : List Nat} {node : Node} (hnode : r.classify.node? address = some node) :
    node.Tidy := by
  have hbindings : ∀ b ∈ r.declarations.map Declaration.toBinding, b.Tidy := by
    intro b hb
    obtain ⟨d, hd, rfl⟩ := List.mem_map.mp hb
    obtain ⟨k, hk⟩ := List.mem_iff_getElem?.mp (mem_items_of_mem_declarations hd)
    have htidy : d.Tidy := h [k] (.declaration d) (by simp [BodyItem.node?, hk])
    exact ⟨htidy.property, htidy.value⟩
  cases r with
  | statement => exact h address node hnode
  | block head items after span =>
    have hbefore : IsFiller head.before.toList := (h [] _ rfl).1.before
    unfold classify at hnode
    dsimp only at hnode
    cases hd : Directive.ofPrelude? head.prelude with
    | none =>
      rw [hd] at hnode
      exact h address node hnode
    | some directive =>
      rw [hd] at hnode
      cases directive <;> cases address <;> cases hnode
      · exact ⟨hbefore, hbindings⟩
      · exact ⟨hbefore, hbindings⟩

namespace Stylesheet

/-- No token stands in the text that a tree which was read keeps around its tokens, at any address,
and none does in the rules that its directives were told apart from. -/
theorem parse_tidy {text : String} {sheet : Stylesheet} (h : parse text = .ok sheet) :
    (∀ address node, sheet.node? address = some node → node.Tidy) ∧
      ∃ rs : List PlainRule, sheet.rules = rs.map PlainRule.classify ∧
        ∀ r ∈ rs, ∀ address node, (BodyItem.rule r).node? address = some node → node.Tidy := by
  obtain ⟨l, hl, rfl⟩ := SheetLayout.exists_writes h
  have hwritten : ∀ r ∈ l.written, ∀ address node,
      (BodyItem.rule r).node? address = some node → node.Tidy :=
    fun r hr address node => hl.tidy_of_mem_written hr
  refine ⟨fun address node hnode => ?_, l.written, l.rules_tree, hwritten⟩
  cases address with
  | nil =>
    cases hnode
    exact hl.isFiller_trailing
  | cons i address =>
    obtain ⟨rule, hrule, hnode⟩ := Option.bind_eq_some_iff.mp hnode
    have hmem := List.mem_of_getElem? hrule
    rw [l.rules_tree] at hmem
    obtain ⟨r, hr, rfl⟩ := List.mem_map.mp hmem
    exact r.tidy_classify (hwritten r hr) hnode

/-- Comments, stray semicolons, an empty value and a directive. -/
theorem parse_tidy_strewn :
    let text := "/* a */;.b/**/\x7bc/**/: d /**/;;e:;@f g ; h:i\x7d;:export\x7bj:k\x7d /* l */"
    ∃ sheet, parse text = .ok sheet ∧
      (∀ address node, sheet.node? address = some node → node.Tidy) ∧
      ∃ rs : List PlainRule, sheet.rules = rs.map PlainRule.classify ∧
        ∀ r ∈ rs, ∀ address node, (BodyItem.rule r).node? address = some node → node.Tidy := by
  intro text
  have h : parse text = .ok ((parse text).toOption.get (by decide +kernel)) :=
    toOption_parse_eq_some_iff.mp (Option.some_get _).symm
  exact ⟨_, h, parse_tidy h⟩

end Stylesheet

end StyleBundle
