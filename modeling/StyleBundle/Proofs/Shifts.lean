import StyleBundle.Proofs.Rereading

/-!
# Texts that stand further on

When a text stands further on, what is read from it is the same with its spans moved. For the tree
of a layout this is seen from the layout. For failures it is seen from the reader: which failure
comes, and where, depends on the tokens, on how far the reader has come and on where the open blocks
were opened, and not on what has been read.
-/

namespace StyleBundle

open Token

/-! ## Trees -/

def Declaration.shift (n : Nat) (d : Declaration) : Declaration :=
  { d with span := d.span.shift n }

mutual

def BodyItem.shift (n : Nat) : BodyItem → BodyItem
  | .declaration d => .declaration (d.shift n)
  | .rule r => .rule (r.shift n)

/-- The rule as it is read after `n` more bytes. -/
def PlainRule.shift (n : Nat) : PlainRule → PlainRule
  | .statement h s => .statement h (s.shift n)
  | .block h items after s => .block h (shiftItems n items) after (s.shift n)

def shiftItems (n : Nat) : List BodyItem → List BodyItem
  | [] => []
  | i :: is => i.shift n :: shiftItems n is

end

def Binding.shift (n : Nat) (b : Binding) : Binding :=
  { b with span := b.span.shift n }

def Rule.shift (n : Nat) : Rule → Rule
  | .plain r => .plain (r.shift n)
  | .imports r =>
    .imports { r with bindings := r.bindings.map (Binding.shift n), span := r.span.shift n }
  | .exports r =>
    .exports { r with bindings := r.bindings.map (Binding.shift n), span := r.span.shift n }

def Stylesheet.shift (n : Nat) (s : Stylesheet) : Stylesheet :=
  { s with rules := s.rules.map (Rule.shift n) }

mutual

theorem BodyItem.withoutSpans_shift (n : Nat) (i : BodyItem) :
    (i.shift n).withoutSpans = i.withoutSpans :=
  match i with
  | .declaration _ => rfl
  | .rule r => congrArg BodyItem.rule (r.withoutSpans_shift n)

theorem PlainRule.withoutSpans_shift (n : Nat) (r : PlainRule) :
    (r.shift n).withoutSpans = r.withoutSpans :=
  match r with
  | .statement _ _ => rfl
  | .block h items after _ => by
    rw [PlainRule.shift, PlainRule.withoutSpans, PlainRule.withoutSpans,
      itemsWithoutSpans_shift n items]

theorem itemsWithoutSpans_shift (n : Nat) (is : List BodyItem) :
    itemsWithoutSpans (shiftItems n is) = itemsWithoutSpans is :=
  match is with
  | [] => rfl
  | i :: is => by
    rw [shiftItems, itemsWithoutSpans, itemsWithoutSpans, i.withoutSpans_shift n,
      itemsWithoutSpans_shift n is]

end

namespace PlainRule

variable (n : Nat) (r : PlainRule)

theorem print_shift : (r.shift n).print = r.print := by
  rw [← print_withoutSpans, withoutSpans_shift, print_withoutSpans]

theorem setBefore_shift (before : String) :
    (r.shift n).setBefore before = (r.setBefore before).shift n := by
  cases r <;> rfl

theorem declarations_shift :
    (r.shift n).declarations = r.declarations.map (Declaration.shift n) := by
  cases r with
  | statement => rfl
  | block h items after span =>
    unfold declarations
    simp only [shift, PlainRule.items]
    induction items with
    | nil => rfl
    | cons i items ih => cases i <;> simpa [shiftItems, BodyItem.shift] using ih

theorem classify_shift : (r.shift n).classify = r.classify.shift n := by
  have hraw : ((r.shift n).setBefore "").print = (r.setBefore "").print := by
    rw [setBefore_shift, print_shift]
  have hbindings : (r.shift n).declarations.map Declaration.toBinding =
      (r.declarations.map Declaration.toBinding).map (Binding.shift n) := by
    rw [declarations_shift, List.map_map, List.map_map]
    rfl
  cases r with
  | statement => rfl
  | block h items after span =>
    unfold classify
    simp only [shift] at hraw hbindings ⊢
    rw [hraw, hbindings]
    cases Directive.ofPrelude? h.prelude with
    | none => rfl
    | some directive => cases directive <;> rfl

end PlainRule

theorem Rule.withoutSpans_shift (n : Nat) (r : Rule) :
    (r.shift n).withoutSpans = r.withoutSpans := by
  have hbindings : ∀ bs : List Binding,
      (bs.map (Binding.shift n)).map Binding.withoutSpan = bs.map Binding.withoutSpan :=
    fun bs => by rw [List.map_map]; rfl
  cases r with
  | plain r => exact congrArg Rule.plain (r.withoutSpans_shift n)
  | imports r => simp [shift, withoutSpans, hbindings]
  | exports r => simp [shift, withoutSpans, hbindings]

/-! ## Layouts -/

theorem DeclarationLayout.tree_shift (d : DeclarationLayout) (offset n : Nat) :
    d.tree (offset + n) = (d.tree offset).shift n := by
  simp only [tree, Declaration.shift, spanOf, Span.shift, Declaration.mk.injEq, Span.mk.injEq,
    true_and]
  omega

theorem HeadLayout.start_add (h : HeadLayout) (offset n : Nat) :
    h.start (offset + n) = h.start offset + n := by
  unfold start
  omega

theorem HeadLayout.stopsAt_add (h : HeadLayout) (offset n : Nat) :
    h.stopsAt (offset + n) = h.stopsAt offset + n := by
  unfold stopsAt
  omega

mutual

theorem ItemLayout.tree_shift (i : ItemLayout) (offset n : Nat) :
    i.tree (offset + n) = (i.tree offset).shift n :=
  match i with
  | .declaration d => congrArg BodyItem.declaration (d.tree_shift offset n)
  | .rule r => congrArg BodyItem.rule (r.tree_shift offset n)

theorem RuleLayout.tree_shift (r : RuleLayout) (offset n : Nat) :
    r.tree (offset + n) = (r.tree offset).shift n :=
  match r with
  | .statement h => by
    simp only [RuleLayout.tree, PlainRule.shift, Span.shift, h.start_add, h.stopsAt_add]
  | .block h items strays close => by
    simp only [RuleLayout.tree, PlainRule.shift, Span.shift, h.start_add, h.stopsAt_add,
      itemTrees_shift items, Nat.add_right_comm]

theorem itemTrees_shift (is : List ItemLayout) (offset n : Nat) :
    itemTrees (offset + n) is = shiftItems n (itemTrees offset is) :=
  match is with
  | [] => rfl
  | i :: is => by
    rw [itemTrees, itemTrees, shiftItems, i.tree_shift, Nat.add_right_comm, itemTrees_shift is]

end

theorem ruleTrees_shift (rs : List RuleLayout) (offset n : Nat) :
    ruleTrees (offset + n) rs = (ruleTrees offset rs).map (Rule.shift n) := by
  induction rs generalizing offset with
  | nil => rfl
  | cons r rs ih =>
    rw [ruleTrees, ruleTrees, List.map_cons, r.tree_shift, PlainRule.classify_shift,
      Nat.add_right_comm, ih]

/-! ## Failures of the scanner -/

theorem Scan.tokensFrom_shift (offset n : Nat) (cs : List Char) :
    tokensFrom (offset + n) cs = (tokensFrom offset cs).mapError (·.shift n) := by
  fun_induction tokensFrom offset cs with
  | case1 offset cs gap hrest =>
    rw [tokensFrom_nil _ hrest]
    rfl
  | case2 offset cs gap c cs' hrest start fault text hcut =>
    rw [tokensFrom_error _ hrest hcut, Nat.add_right_comm offset n,
      Nat.add_right_comm _ n (byteSize text)]
    rfl
  | case3 offset cs gap c cs' hrest start kind lexeme rest hcut ih =>
    have hoffset : offset + n + byteSize gap + byteSize lexeme = start + byteSize lexeme + n := by
      omega
    rw [tokensFrom_cons _ hrest hcut, hoffset, ih]
    cases tokensFrom (start + byteSize lexeme) rest <;> rfl

/-! ## Failures of the reader -/

namespace Parser

variable {n size : Nat} {gap : String} {s s' : State} {t : Token} {ts : List Token}

theorem spanAt_shift (t : Token) (offset n : Nat) :
    t.spanAt (offset + n) = (t.spanAt offset).shift n := by
  simp only [spanAt, Span.shift, Span.mk.injEq]
  omega

theorem spanOf_shift (ts : List Token) (offset n : Nat) :
    spanOf (offset + n) ts = (spanOf offset ts).shift n := by
  simp only [spanOf, Span.shift, Span.mk.injEq]
  omega

theorem run_of_error {e : SyntaxError} (h : step size s t ts = .error e) :
    run size gap s (t :: ts) = .error e := by
  rw [run]
  split
  · next h' =>
    cases h.symm.trans h'
    rfl
  · next h' => cases h.symm.trans h'

/-- The second state has come `n` bytes further, and the same blocks are open in it. -/
structure State.Alike (n : Nat) (s s' : State) : Prop where
  offset : s'.offset = s.offset + n
  opened : s'.frames.map Frame.opened = s.frames.map fun f => f.opened.shift n

/-- Two steps fail alike, or lead to states that are alike with the same tokens left. -/
inductive Step.Alike (n : Nat) : Step → Step → Prop
  | error (e : SyntaxError) : Alike n (.error e) (.error (e.shift n))
  | ok {s s' : State} (rest : List Token) :
      s.Alike n s' → Alike n (.ok (s, rest)) (.ok (s', rest))

namespace State.Alike

theorem nil (h : s.Alike n s') (hf : s.frames = []) : s'.frames = [] := by
  simpa [hf] using h.opened

theorem cons {f : Frame} {frames : List Frame} (h : s.Alike n s') (hf : s.frames = f :: frames) :
    ∃ f' frames', s'.frames = f' :: frames' ∧ f'.opened = f.opened.shift n ∧
      frames'.map Frame.opened = frames.map fun f => f.opened.shift n := by
  have h := h.opened
  rw [hf, List.map_cons] at h
  exact List.map_eq_cons_iff.mp h

theorem addRule (h : s.Alike n s') (r r' : PlainRule) :
    (s.addRule r).Alike n (s'.addRule r') := by
  cases hf : s.frames with
  | nil =>
    simp only [State.addRule, hf, h.nil hf]
    exact ⟨h.offset, rfl⟩
  | cons f frames =>
    obtain ⟨f', frames', hf', hopened, hrest⟩ := h.cons hf
    simp only [State.addRule, hf, hf']
    exact ⟨h.offset, by simpa [Frame.push] using ⟨hopened, hrest⟩⟩

theorem closeBlock (h : s.Alike n s') (t : Token) (ts : List Token) :
    Step.Alike n ((Parser.closeBlock s t).map (·, ts)) ((Parser.closeBlock s' t).map (·, ts)) := by
  unfold Parser.closeBlock
  cases hf : s.frames with
  | nil =>
    rw [h.nil hf, h.offset, spanAt_shift]
    exact .error _
  | cons f frames =>
    obtain ⟨f', frames', hf', -, hrest⟩ := h.cons hf
    rw [hf']
    exact .ok ts (.addRule ⟨by simp [h.offset, Nat.add_right_comm], hrest⟩ _ _)

theorem readRule (h : s.Alike n s') (size : Nat) (ts : List Token) :
    Step.Alike n (Parser.readRule size s ts) (Parser.readRule (size + n) s' ts) := by
  unfold Parser.readRule
  cases ts.dropWhile fun t => !endsPrelude t with
  -- The one failure that is found at the end of the text, wherever the reader stands.
  | nil => exact .error (.unexpectedEnd .openBrace ⟨size, size⟩)
  | cons t rest =>
    dsimp only
    rw [h.offset, Nat.add_right_comm s.offset n, spanAt_shift t _ n]
    have hstop : s.offset + totalSize (ts.takeWhile fun t => !endsPrelude t) + n + t.size =
        s.offset + totalSize (ts.takeWhile fun t => !endsPrelude t) + t.size + n :=
      Nat.add_right_comm ..
    split_ifs
    · exact .error _
    · exact .error _
    · refine .ok rest (.addRule ?_ _ _)
      exact ⟨hstop, h.opened⟩
    · exact .error _
    · exact .ok rest ⟨hstop, by simp [h.opened]⟩

theorem readDeclaration (h : s.Alike n s') {f f' : Frame} {frames frames' : List Frame}
    (hf : s.frames = f :: frames) (hf' : s'.frames = f' :: frames') (ts : List Token) :
    Step.Alike n (Parser.readDeclaration s f frames ts)
      (Parser.readDeclaration s' f' frames' ts) := by
  have hopened := h.opened
  rw [hf, hf', List.map_cons, List.map_cons] at hopened
  unfold Parser.readDeclaration
  dsimp only
  rw [h.offset, spanOf_shift]
  cases ts.dropWhile fun t => !endsProperty t with
  | nil => exact .error _
  | cons colon rest =>
    dsimp only
    rw [spanAt_shift]
    split_ifs
    · exact .error _
    · exact .error _
    · refine .ok _ ⟨?_, hopened⟩
      dsimp only
      omega

theorem step (h : s.Alike n s') (size : Nat) (t : Token) (ts : List Token) :
    Step.Alike n (Parser.step size s t ts) (Parser.step (size + n) s' t ts) := by
  unfold Parser.step
  by_cases hsemicolon : t.kind = .semicolon
  · rw [if_pos hsemicolon, if_pos hsemicolon]
    exact .ok ts ⟨by simp [skip, h.offset, Nat.add_right_comm], h.opened⟩
  rw [if_neg hsemicolon, if_neg hsemicolon]
  by_cases hclose : t.kind = .rbrace
  · rw [if_pos hclose, if_pos hclose]
    exact h.closeBlock t ts
  rw [if_neg hclose, if_neg hclose]
  cases hf : s.frames with
  | nil =>
    rw [h.nil hf]
    exact h.readRule size (t :: ts)
  | cons f frames =>
    obtain ⟨f', frames', hf', -⟩ := h.cons hf
    rw [hf']
    dsimp only
    split_ifs
    · exact h.readRule size (t :: ts)
    · exact h.readDeclaration hf hf' (t :: ts)

/-- Readings from states that are alike fail alike. -/
theorem run (h : s.Alike n s') {e : SyntaxError} (he : Parser.run size gap s ts = .error e) :
    Parser.run (size + n) gap s' ts = .error (e.shift n) := by
  fun_induction Parser.run size gap s ts generalizing s' with
  | case1 s =>
    cases hf : s.frames with
    | nil => simp [finish, hf] at he
    | cons f frames =>
      obtain ⟨f', frames', hf', hopened, -⟩ := h.cons hf
      simp only [finish, hf, Except.error.injEq] at he
      subst he
      simp [Parser.run, finish, hf', hopened, SyntaxError.shift]
  | case2 s t ts e' hstep =>
    cases he
    have halike := h.step size t ts
    rw [hstep] at halike
    generalize hstep' : Parser.step (size + n) s' t ts = outcome at halike
    cases halike
    exact run_of_error hstep'
  | case3 s t ts s₁ rest hstep ih =>
    have halike := h.step size t ts
    rw [hstep] at halike
    generalize hstep' : Parser.step (size + n) s' t ts = outcome at halike
    cases halike with
    | ok _ h₁ =>
      rw [run_of_step hstep']
      exact ih h₁ he

end State.Alike

end Parser

end StyleBundle
