import StyleBundle.Proofs.Tiling
import StyleBundle.Proofs.Lossless
import StyleBundle.Proofs.LayoutReading

/-!
# What the parser accepts

A text is read as a sheet exactly when it is tiled by the tokens of a valid layout of that sheet.
What is read is taken apart along the items of the innermost open block: the tokens of one item come
first, and what stands behind them is read with the item added.
-/

namespace StyleBundle

open Token StyleBundle.Parser

variable {size : Nat} {gap : String} {s s' : State} {ts rest strays : List Token}
  {sheet : Stylesheet}

/-! ## One item -/

theorem exists_strays (ts : List Token) : ∃ strays us, ts = strays ++ us ∧ Strays strays ∧
    ∀ t ∈ us.head?, t.kind ≠ .semicolon := by
  refine ⟨ts.takeWhile (·.kind = .semicolon), ts.dropWhile (·.kind = .semicolon),
    List.takeWhile_append_dropWhile.symm, fun t ht => ?_, fun t ht => ?_⟩
  · simpa using List.mem_takeWhile_imp ht
  · have hnot := List.head?_dropWhile_not (fun t : Token => decide (t.kind = .semicolon)) ts
    rw [ht] at hnot
    simpa using hnot

theorem exists_head (hstrays : Strays strays)
    (h : readRule size (s.skipAll strays) ts = .ok (s', rest)) :
    ∃ head : HeadLayout, head.strays = strays ∧ ts = head.core ++ rest ∧
      (head.Valid .semicolon ∧ (innerText head.prelude).toList.head? = some '@' ∨
        head.Valid .lbrace) := by
  obtain ⟨front, t, rfl, hne, hfront, ⟨hk, hat, -⟩ | ⟨hk, -⟩⟩ := readRule_cases h
  · exact ⟨⟨strays, front, t⟩, rfl, by simp [HeadLayout.core],
      .inl ⟨⟨hstrays, hne, hfront, hk⟩, hat⟩⟩
  · exact ⟨⟨strays, front, t⟩, rfl, by simp [HeadLayout.core], .inr ⟨hstrays, hne, hfront, hk⟩⟩

theorem exists_declaration {f : Frame} {frames : List Frame} (hstrays : Strays strays)
    (h : readDeclaration (s.skipAll strays) f frames ts = .ok (s', rest)) :
    ∃ d : DeclarationLayout, d.strays = strays ∧ ts = d.core ++ rest ∧ d.Valid ∧
      (d.stop = [] → ∀ t ∈ rest.head?, t.kind = .rbrace) := by
  obtain ⟨property, colon, value, after, rfl, hne, hproperty, hk, hvalue, hafter, -⟩ :=
    readDeclaration_cases h
  obtain ⟨depth, hdepth, hstop⟩ := splitAtDepth_spec [.semicolon] 0 (value ++ after ++ rest)
  rw [hvalue] at hdepth hstop
  refine ⟨⟨strays, property, colon, value, after⟩, rfl, by simp [DeclarationLayout.core],
    ⟨hstrays, hne, hproperty, hk, depth, hdepth, ?_⟩, ?_⟩
  · rcases hafter with ⟨rfl, -⟩ | ⟨t, rfl, ht⟩
    · exact .inl rfl
    · have hstop' := hstop t rfl
      rw [ht] at hstop'
      exact .inr ⟨(hstop'.resolve_left (by simp)).1, t, rfl, ht⟩
  · rintro (rfl : after = []) t ht
    rcases hafter with ⟨-, hnot⟩ | ⟨u, hu, -⟩
    · exact (hstop t ht).resolve_right fun h => hnot t ht (by simpa using h.2)
    · cases hu

/-! ## Rules and blocks -/

/-- What is read in an open block starts with items and the brace that closes it. -/
def ClosesBlock (ts : List Token) : Prop :=
  ∃ items strays close rest, ts = itemTokens items ++ (strays ++ [close] ++ rest) ∧
    ItemsValid items (strays ++ [close]) ∧ Strays strays ∧ close.kind = .rbrace

theorem ClosesBlock.cons {i : ItemLayout} {behind : List Token} (h : ClosesBlock behind)
    (hi : i.Valid) (hp : i.Precedes behind) : ClosesBlock (i.tokens ++ behind) := by
  obtain ⟨items, strays, close, rest, rfl, hitems, hstrays, hclose⟩ := h
  obtain ⟨hlook, hclosed⟩ := hp
  refine ⟨i :: items, strays, close, rest, by simp [itemTokens],
    ⟨hi, ⟨?_, fun hopen => ?_⟩, hitems⟩, hstrays, hclose⟩
  · rw [← hlook, ← startsRule_append (t := close) (by simp) hclose rest]
    simp
  · have hhead := hclosed hopen
    rw [← List.append_assoc] at hhead
    intro t ht
    exact hhead t (by rw [List.head?_append, Option.mem_def.mp ht]; rfl)

/-- A rule that is read has a layout, when the blocks that are read behind it close. -/
theorem exists_rule (hclose : ∀ us s sheet, us.length < ts.length → s.frames ≠ [] →
      s.pending = "" → run size gap s us = .ok sheet → ClosesBlock us)
    (hstrays : Strays strays) (hs : s.pending = "")
    (hlook : s.frames ≠ [] → startsRule ts = true)
    (h : readRule size (s.skipAll strays) ts = .ok (s', rest))
    (hrun : run size gap s (strays ++ ts) = .ok sheet) :
    ∃ (r : RuleLayout) (behind : List Token), r.Valid ∧ r.head.strays = strays ∧
      ts = r.head.core ++ (r.rest ++ behind) := by
  obtain ⟨head, rfl, rfl, ⟨hv, hat⟩ | hv⟩ := exists_head hstrays h
  · exact ⟨.statement head, rest, ⟨hv, hat⟩, rfl, rfl⟩
  · obtain ⟨opened, hopen⟩ := HeadLayout.run_open size gap hv hs hlook
    rw [← List.append_assoc, hopen] at hrun
    obtain ⟨items, strays, close, behind, rfl, hitems, hstrays', hclose'⟩ :=
      hclose rest _ _ (by simp [HeadLayout.core]; omega) (List.cons_ne_nil _ _) rfl hrun
    exact ⟨.block head items strays close, behind, ⟨hv, hitems, hstrays', hclose'⟩, rfl,
      by simp [RuleLayout.head, RuleLayout.rest]⟩

theorem exists_rule_run (hclose : ∀ us s sheet, us.length < ts.length → s.frames ≠ [] →
      s.pending = "" → run size gap s us = .ok sheet → ClosesBlock us)
    (hstrays : Strays strays) (hs : s.pending = "")
    (hlook : s.frames ≠ [] → startsRule ts = true)
    (h : readRule size (s.skipAll strays) ts = .ok (s', rest))
    (hrun : run size gap s (strays ++ ts) = .ok sheet) :
    ∃ (r : RuleLayout) (behind : List Token) (s₁ : State), r.Valid ∧
      strays ++ ts = r.tokens ++ behind ∧ ts = r.head.core ++ (r.rest ++ behind) ∧
      behind.length < ts.length ∧ (s₁.frames = [] ↔ s.frames = []) ∧ s₁.pending = "" ∧
      run size gap s₁ behind = .ok sheet := by
  obtain ⟨r, behind, hr, rfl, rfl⟩ := exists_rule hclose hstrays hs hlook h hrun
  have htokens : r.head.strays ++ (r.head.core ++ (r.rest ++ behind)) = r.tokens ++ behind := by
    simp [RuleLayout.tokens_eq]
  rw [htokens, r.run_eq s behind hr hs hlook] at hrun
  refine ⟨r, behind, _, hr, htokens, rfl, ?_, ?_, State.pending_addRule _ _, hrun⟩
  · simp [HeadLayout.core]
    omega
  · cases s.frames <;> simp [State.addRule]

theorem exists_step_of_run {t : Token} (h : run size gap s (t :: ts) = .ok sheet) :
    ∃ s' rest, step size s t ts = .ok (s', rest) := by
  rw [run] at h
  split at h
  · cases h
  · exact ⟨_, _, ‹_›⟩

/-- Reading an open block to its end finds the brace that closes it. -/
theorem closesBlock_of_run (hf : s.frames ≠ []) (hs : s.pending = "")
    (hrun : run size gap s ts = .ok sheet) : ClosesBlock ts := by
  induction hn : ts.length using Nat.strongRecOn generalizing ts s sheet with
  | _ n ih =>
    obtain ⟨f, frames, hframes⟩ := List.exists_cons_of_ne_nil hf
    obtain ⟨strays, us, rfl, hstrays, hne⟩ := exists_strays ts
    have hskip : run size gap (s.skipAll strays) us = .ok sheet := by
      rw [← run_strays hstrays, hrun]
    cases us with
    | nil => simp [run, finish, State.skipAll, hframes] at hskip
    | cons t us =>
      by_cases hk : t.kind = .rbrace
      · exact ⟨[], strays, t, us, by simp [itemTokens], trivial, hstrays, hk⟩
      obtain ⟨s', rest, hstep⟩ := exists_step_of_run hskip
      rw [step, if_neg (hne t rfl), if_neg hk,
        show (s.skipAll strays).frames = f :: frames from hframes] at hstep
      dsimp only at hstep
      split at hstep
      · next hlook =>
        obtain ⟨r, behind, s₁, hr, htokens, hcons, hlt, hf₁, hs₁, hrun₁⟩ := exists_rule_run
          (fun us s sheet hlt hf hs hrun =>
            ih us.length (by simp at hlt hn ⊢; omega) hf hs hrun rfl)
          hstrays hs (fun _ => hlook) hstep hrun
        have hbehind := ih behind.length (by simp at hlt hn ⊢; omega) (mt hf₁.mp hf) hs₁ hrun₁ rfl
        rw [htokens]
        rw [hcons] at hlook
        refine hbehind.cons (i := .rule r) hr ⟨?_, ?_⟩
        · simpa [ItemLayout.core, ItemLayout.isRule] using hlook
        · simp [ItemLayout.isOpen]
      · next hlook =>
        obtain ⟨d, rfl, hcons, hd, hclosed⟩ := exists_declaration hstrays hstep
        have htokens : d.strays ++ t :: us = (ItemLayout.declaration d).tokens ++ rest := by
          simp [hcons, ItemLayout.tokens]
        have hlt : rest.length < n := by
          have := congrArg List.length hcons
          simp [DeclarationLayout.core] at this hn
          omega
        rw [hcons] at hlook
        rw [htokens] at hrun ⊢
        rw [ItemLayout.tokens,
          d.run_declaration hd hs hframes (by simpa using hlook) hclosed] at hrun
        have hbehind := ih _ hlt (by simp) rfl hrun rfl
        refine hbehind.cons (i := .declaration d) hd ⟨?_, ?_⟩
        · simpa [ItemLayout.core, ItemLayout.isRule] using hlook
        · intro hopen
          exact hclosed (by simpa [ItemLayout.isOpen] using hopen)

/-! ## Stylesheets -/

theorem exists_layout_of_run (hf : s.frames = []) (hs : s.pending = "")
    (hrun : run size gap s ts = .ok sheet) :
    ∃ rs strays, ts = ruleTokens rs ++ strays ∧ (∀ r ∈ rs, r.Valid) ∧ Strays strays := by
  induction hn : ts.length using Nat.strongRecOn generalizing ts s sheet with
  | _ n ih =>
    obtain ⟨strays, us, rfl, hstrays, hne⟩ := exists_strays ts
    have hskip : run size gap (s.skipAll strays) us = .ok sheet := by
      rw [← run_strays hstrays, hrun]
    cases us with
    | nil => exact ⟨[], strays, by simp [ruleTokens], by simp, hstrays⟩
    | cons t us =>
      obtain ⟨s', rest, hstep⟩ := exists_step_of_run hskip
      have hframes : (s.skipAll strays).frames = [] := hf
      by_cases hk : t.kind = .rbrace
      · rw [step, if_neg (hne t rfl), if_pos hk, closeBlock, hframes] at hstep
        cases hstep
      rw [step, if_neg (hne t rfl), if_neg hk, hframes] at hstep
      obtain ⟨r, behind, s₁, hr, htokens, -, hlt, hf₁, hs₁, hrun₁⟩ := exists_rule_run
        (fun us s sheet _ hf hs hrun => closesBlock_of_run hf hs hrun)
        hstrays hs (by simp [hf]) hstep hrun
      obtain ⟨rs, strays, rfl, hrs, hstrays'⟩ :=
        ih behind.length (by simp at hlt hn ⊢; omega) (hf₁.mpr hf) hs₁ hrun₁ rfl
      rw [htokens]
      refine ⟨r :: rs, strays, by simp [ruleTokens], ?_, hstrays'⟩
      simpa using ⟨hr, hrs⟩

/-- The sheet of some tokens is the tree of the valid layout that they make. -/
theorem Stylesheet.ofTokens_eq_ok_iff {stream : TokenStream} {sheet : Stylesheet} :
    Stylesheet.ofTokens stream = .ok sheet ↔
      ∃ l : SheetLayout, l.Valid ∧ l.stream = stream ∧ l.tree = sheet := by
  constructor
  · intro h
    obtain ⟨rs, strays, htokens, hrs, hstrays⟩ := exists_layout_of_run rfl rfl h
    let l : SheetLayout := ⟨rs, strays, stream.trailing⟩
    have hl : l.Valid := ⟨hrs, hstrays⟩
    have hstream : l.stream = stream := by
      simp [l, SheetLayout.stream, SheetLayout.tokens, ← htokens]
    refine ⟨l, hl, hstream, ?_⟩
    have := hl.ofTokens_eq
    rw [hstream, h] at this
    cases this
    rfl
  · rintro ⟨l, hl, rfl, rfl⟩
    exact hl.ofTokens_eq

/-- A text is read as a sheet exactly when the tokens of a valid layout of the sheet tile it. -/
theorem Stylesheet.parse_eq_ok_iff {text : String} {sheet : Stylesheet} :
    Stylesheet.parse text = .ok sheet ↔ ∃ l : SheetLayout,
      l.Valid ∧ l.stream.Tiles ∧ l.stream.text = text ∧ l.tree = sheet := by
  unfold parse
  constructor
  · intro h
    cases hs : TokenStream.ofText text with
    | error e => simp [hs, Except.bind] at h
    | ok stream =>
      have hof : ofTokens stream = .ok sheet := by simpa [hs, Except.bind] using h
      obtain ⟨l, hl, rfl, rfl⟩ := ofTokens_eq_ok_iff.mp hof
      obtain ⟨htext, htiles⟩ := TokenStream.ofText_eq_ok_iff.mp hs
      exact ⟨l, hl, htiles, htext, rfl⟩
  · rintro ⟨l, hl, htiles, rfl, rfl⟩
    rw [TokenStream.ofText_eq_ok_iff.mpr ⟨rfl, htiles⟩]
    exact hl.ofTokens_eq

end StyleBundle
