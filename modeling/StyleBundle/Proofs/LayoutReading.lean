import StyleBundle.Proofs.Layout
import StyleBundle.Proofs.Slices

/-!
# Layouts are read as their trees

From any state, reading the tokens of a valid layout leads to the state to which its tree has been
added.
-/

namespace StyleBundle

open Token StyleBundle.Parser

namespace Parser

variable {size : Nat} {gap : String} {s s' : State} {t : Token} {ts rest : List Token}

theorem run_of_step (h : step size s t ts = .ok (s', rest)) :
    run size gap s (t :: ts) = run size gap s' rest := by
  rw [run]
  split
  · next h' => cases h.symm.trans h'
  · next h' =>
    cases h.symm.trans h'
    rfl

def State.skipAll (s : State) (ts : List Token) : State :=
  { s with pending := s.pending ++ textOf ts, offset := s.offset + totalSize ts }

theorem run_strays {strays : List Token} (h : Strays strays) (s : State) (rest : List Token) :
    run size gap s (strays ++ rest) = run size gap (s.skipAll strays) rest := by
  induction strays generalizing s with
  | nil => simp [State.skipAll, textOf, totalSize]
  | cons t ts ih =>
    have hstep : step size s t (ts ++ rest) = .ok (skip s t, ts ++ rest) := by
      rw [step, if_pos (h t List.mem_cons_self)]
    rw [List.cons_append, run_of_step hstep, ih fun u hu => h u (List.mem_cons_of_mem t hu)]
    simp [State.skipAll, skip, textOf, totalSize, String.append_assoc, Nat.add_assoc]

theorem takeWhile_append_cons {α : Type} {p : α → Bool} {front : List α} {a : α}
    (hfront : ∀ b ∈ front, p b) (ha : p a = false) (rest : List α) :
    (front ++ a :: rest).takeWhile p = front ∧ (front ++ a :: rest).dropWhile p = a :: rest := by
  constructor
  · simp [List.takeWhile_append_of_pos hfront, ha]
  · simp [List.dropWhile_append_of_pos hfront, ha]

/-- A rule is read where nothing is open or where looking ahead finds one. -/
theorem step_eq_readRule (ht : endsPrelude t = false)
    (hlook : s.frames ≠ [] → startsRule (t :: ts) = true) :
    step size s t ts = readRule size s (t :: ts) := by
  have hk := endsPrelude_eq_false_iff.mp ht
  rw [step, if_neg hk.2, if_neg hk.1.2]
  cases hf : s.frames with
  | nil => rfl
  | cons f frames => simp [hlook (by simp [hf])]

end Parser

/-! ## Heads -/

namespace HeadLayout

variable {h : HeadLayout} {size : Nat} {gap : String} {s : State} {rest : List Token}

/-- The prelude is what stands in front of the first token that ends one. -/
theorem Valid.split_core {kind : TokenKind} (hv : h.Valid kind)
    (hkind : kind = .lbrace ∨ kind = .semicolon) (rest : List Token) :
    ((h.core ++ rest).takeWhile fun t => !endsPrelude t) = h.prelude ∧
      ((h.core ++ rest).dropWhile fun t => !endsPrelude t) = h.stop :: rest := by
  have hstop : (!endsPrelude h.stop) = false := by
    rcases hkind with rfl | rfl <;> simp [endsPrelude, hv.stop]
  have hfront : ∀ t ∈ h.prelude, (!endsPrelude t) = true := by simpa using hv.prelude
  rw [core, List.append_assoc, List.singleton_append]
  exact takeWhile_append_cons hfront hstop _

theorem run_eq_readRule {kind : TokenKind} (hv : h.Valid kind)
    (hlook : s.frames ≠ [] → startsRule (h.core ++ rest) = true) {s' : State} {rest' : List Token}
    (hread : readRule size (s.skipAll h.strays) (h.core ++ rest) = .ok (s', rest')) :
    run size gap s (h.strays ++ h.core ++ rest) = run size gap s' rest' := by
  rw [List.append_assoc, run_strays hv.strays]
  obtain ⟨t, ts, hcons⟩ := List.exists_cons_of_ne_nil hv.prelude_ne
  have ht := hv.prelude t (by simp [hcons])
  rw [core, hcons, List.append_assoc, List.cons_append] at hread hlook ⊢
  exact run_of_step ((step_eq_readRule (s := s.skipAll h.strays) ht hlook).trans hread)

theorem run_statement (hv : h.Valid .semicolon)
    (hat : (innerText h.prelude).toList.head? = some '@') (hs : s.pending = "")
    (hlook : s.frames ≠ [] → startsRule (h.core ++ rest) = true) :
    run size gap s (h.strays ++ h.core ++ rest) =
      run size gap (State.addRule (RuleLayout.tree s.offset (.statement h))
        { s with pending := "", offset := h.stopsAt s.offset }) rest := by
  refine run_eq_readRule hv hlook ?_
  obtain ⟨htake, hdrop⟩ := hv.split_core (.inr rfl) rest
  have hne : h.prelude.isEmpty = false := by simp [hv.prelude_ne]
  unfold readRule
  rw [htake, hdrop]
  simp only [hv.stop, hne, State.skipAll, hs, String.empty_append, reduceCtorEq, Bool.false_eq_true,
    ↓reduceIte, hat]
  simp [RuleLayout.tree, header, start, stopsAt, core, totalSize, State.addRule, Nat.add_assoc]

theorem run_open (size : Nat) (gap : String) (hv : h.Valid .lbrace) (hs : s.pending = "")
    (hlook : s.frames ≠ [] → startsRule (h.core ++ rest) = true) :
    ∃ opened, run size gap s (h.strays ++ h.core ++ rest) =
      run size gap { s with
        frames := { header := h.header, start := h.start s.offset, opened } :: s.frames
        pending := "", offset := h.stopsAt s.offset } rest := by
  refine ⟨h.stop.spanAt (s.offset + totalSize h.strays + totalSize h.prelude), ?_⟩
  refine run_eq_readRule hv hlook ?_
  obtain ⟨htake, hdrop⟩ := hv.split_core (.inl rfl) rest
  have hne : h.prelude.isEmpty = false := by simp [hv.prelude_ne]
  unfold readRule
  rw [htake, hdrop]
  simp only [hv.stop, hne, State.skipAll, hs, String.empty_append, reduceCtorEq, Bool.false_eq_true,
    ↓reduceIte]
  simp [header, start, stopsAt, core, totalSize, Nat.add_assoc]

end HeadLayout

/-! ## Declarations -/

namespace DeclarationLayout

variable {d : DeclarationLayout} {size : Nat} {gap : String} {s : State} {rest : List Token}

/-- The value is what is cut off behind the colon. -/
theorem Valid.cutValue_eq (hv : d.Valid)
    (hclosed : d.stop = [] → ∀ t ∈ rest.head?, t.kind = .rbrace) :
    cutValue (d.value ++ (d.stop ++ rest)) = {
      lead := leadingGap d.value, value := innerText d.value, size := totalSize d.value
      after := textOf d.stop, afterSize := totalSize d.stop, rest } := by
  obtain ⟨depth, hdepth, hstop⟩ := hv.value
  have hsplit := splitAtDepth_append_of_ok hdepth (d.stop ++ rest)
  rcases hstop with hnil | ⟨rfl, t, hsingle, hk⟩
  · have hrest : splitAtDepth [.semicolon] depth rest = ([], rest) := by
      cases rest with
      | nil => rfl
      | cons t rest => rw [splitAtDepth, if_pos (by simp [hclosed hnil t rfl])]
    rw [hnil, List.nil_append, hrest, List.append_nil] at hsplit
    unfold cutValue
    rw [hnil, List.nil_append, hsplit]
    cases rest with
    | nil => rfl
    | cons t rest => simp [hclosed hnil t rfl, textOf, totalSize]
  · have hrest : splitAtDepth [.semicolon] 0 (t :: rest) = ([], t :: rest) := by
      rw [splitAtDepth, if_pos (by simp [hk])]
    rw [hsingle, List.singleton_append, hrest, List.append_nil] at hsplit
    unfold cutValue
    rw [hsingle, List.singleton_append, hsplit]
    simp [hk, textOf, totalSize]

theorem run_declaration (hv : d.Valid) (hs : s.pending = "") {f : Frame} {frames : List Frame}
    (hf : s.frames = f :: frames) (hlook : startsRule (d.core ++ rest) = false)
    (hclosed : d.stop = [] → ∀ t ∈ rest.head?, t.kind = .rbrace) :
    run size gap s (d.strays ++ d.core ++ rest) =
      run size gap { s with
        frames := f.push (.declaration (d.tree s.offset)) :: frames
        pending := "", offset := s.offset + totalSize (d.strays ++ d.core) } rest := by
  have hfront : ∀ t ∈ d.property, (!endsProperty t) = true := by simpa using hv.property
  have hcolon : (!endsProperty d.colon) = false := by simp [endsProperty, hv.colon]
  have hcore : d.core ++ rest = d.property ++ d.colon :: (d.value ++ (d.stop ++ rest)) := by
    simp [core]
  obtain ⟨htake, hdrop⟩ := takeWhile_append_cons hfront hcolon (d.value ++ (d.stop ++ rest))
  have hread : readDeclaration (s.skipAll d.strays) f frames (d.core ++ rest) =
      .ok ({ s with
        frames := f.push (.declaration (d.tree s.offset)) :: frames
        pending := "", offset := s.offset + totalSize (d.strays ++ d.core) }, rest) := by
    have hne : d.property.isEmpty = false := by simp [hv.property_ne]
    rw [hcore]
    unfold readDeclaration
    rw [htake, hdrop]
    simp only [hv.colon, hv.cutValue_eq hclosed, hne, State.skipAll, hs]
    simp [tree, spanOf, core, totalSize, leadingGap_append hv.property_ne, Nat.add_assoc]
  obtain ⟨t, ts, hcons⟩ := List.exists_cons_of_ne_nil hv.property_ne
  have ht := hv.property t (by simp [hcons])
  simp only [endsProperty, Bool.or_eq_false_iff, decide_eq_false_iff_not] at ht
  rw [List.append_assoc, run_strays hv.strays]
  rw [hcore, hcons, List.cons_append] at hread hlook ⊢
  refine run_of_step ?_
  have hframes : (s.skipAll d.strays).frames = f :: frames := hf
  rw [step, if_neg ht.1.2, if_neg ht.2, hframes]
  dsimp only
  rw [if_neg (by simp [hlook]), hread]

end DeclarationLayout

/-! ## Rules and blocks -/

section Blocks

variable {size : Nat} {gap : String} {s : State} {f : Frame} {frames : List Frame}
  {tail rest : List Token}

/-- The closing brace makes a rule of the innermost open block. -/
theorem run_close {strays : List Token} {close : Token} (hstrays : Strays strays)
    (hclose : close.kind = .rbrace) (hs : s.pending = "") (hf : s.frames = f :: frames)
    (rest : List Token) :
    run size gap s (strays ++ [close] ++ rest) = run size gap
      (State.addRule (.block f.header f.items.toList (textOf strays ++ close.gap)
          ⟨f.start, s.offset + totalSize (strays ++ [close])⟩)
        { s with
          frames, pending := "", offset := s.offset + totalSize (strays ++ [close]) }) rest := by
  rw [List.append_assoc, run_strays hstrays, List.singleton_append]
  refine run_of_step ?_
  rw [step, if_neg (by simp [hclose]), if_pos hclose, closeBlock]
  simp [State.skipAll, hf, hs, totalSize, Except.map, Nat.add_assoc]

/-- What looking ahead finds is found before the closing brace. -/
theorem startsRule_append {ts : List Token} {t : Token} (ht : t ∈ ts) (hk : t.kind = .rbrace)
    (rest : List Token) : startsRule (ts ++ rest) = startsRule ts := by
  obtain ⟨kind, hkind⟩ := depthAfter_of_rbrace ht hk [.lbrace, .semicolon] 0
  obtain ⟨u, us, rfl⟩ := List.exists_cons_of_ne_nil (List.ne_nil_of_mem ht)
  rw [startsRule_eq, startsRule_eq, depthAfter_append, hkind]
  rfl

mutual

theorem RuleLayout.run_eq (r : RuleLayout) (s : State) (rest : List Token) (hv : r.Valid)
    (hs : s.pending = "")
    (hlook : s.frames ≠ [] → startsRule (r.head.core ++ (r.rest ++ rest)) = true) :
    run size gap s (r.tokens ++ rest) = run size gap (State.addRule (r.tree s.offset)
      { s with pending := "", offset := s.offset + totalSize r.tokens }) rest :=
  match r with
  | .statement _ => HeadLayout.run_statement hv.1 hv.2 hs hlook
  | .block h items strays close => by
    obtain ⟨hhead, hitems, hstrays, hclose⟩ := hv
    have hbehind : (RuleLayout.block h items strays close).rest ++ rest =
        itemTokens items ++ (strays ++ [close] ++ rest) := by
      simp [RuleLayout.rest]
    have htokens : (RuleLayout.block h items strays close).tokens ++ rest =
        h.strays ++ h.core ++ (itemTokens items ++ (strays ++ [close] ++ rest)) := by
      simp [RuleLayout.tokens]
    rw [hbehind] at hlook
    obtain ⟨opened, hopen⟩ := HeadLayout.run_open size gap hhead hs hlook
    rw [htokens, hopen]
    refine (run_items items _ _ _ _ rest hitems ⟨close, by simp, hclose⟩ rfl rfl).trans ?_
    refine (run_close hstrays hclose rfl rfl rest).trans ?_
    simp [RuleLayout.tree, RuleLayout.tokens, HeadLayout.stopsAt, Nat.add_assoc]

theorem run_items (is : List ItemLayout) (s : State) (f : Frame) (frames : List Frame)
    (tail rest : List Token) (hv : ItemsValid is tail) (htail : ∃ t ∈ tail, t.kind = .rbrace)
    (hs : s.pending = "") (hf : s.frames = f :: frames) :
    run size gap s (itemTokens is ++ (tail ++ rest)) = run size gap { s with
      frames := { f with items := f.items ++ (itemTrees s.offset is).toArray } :: frames
      pending := "", offset := s.offset + totalSize (itemTokens is) } (tail ++ rest) :=
  match is with
  | [] => by
    obtain ⟨rules, frames', pending, offset⟩ := s
    cases hs
    cases hf
    simp [itemTokens, itemTrees, totalSize]
  | i :: is => by
    obtain ⟨hi, ⟨hlook, hclosed⟩, his⟩ := hv
    obtain ⟨t, ht, hk⟩ := htail
    have hbehind : startsRule (i.core ++ (itemTokens is ++ (tail ++ rest))) = i.isRule := by
      have hmem : t ∈ i.core ++ (itemTokens is ++ tail) := by simp [ht]
      rw [← hlook, ← startsRule_append hmem hk rest]
      simp
    have hhead : ∀ u ∈ (itemTokens is ++ (tail ++ rest)).head?,
        u ∈ (itemTokens is ++ tail).head? := by
      obtain ⟨v, vs, hcons⟩ := List.exists_cons_of_ne_nil
        (List.ne_nil_of_mem (List.mem_append_right (itemTokens is) ht))
      rw [← List.append_assoc, hcons]
      exact fun u hu => hu
    have hread : run size gap s (i.tokens ++ (itemTokens is ++ (tail ++ rest))) =
        run size gap { s with
          frames := f.push (i.tree s.offset) :: frames
          pending := "", offset := s.offset + totalSize i.tokens }
          (itemTokens is ++ (tail ++ rest)) := by
      cases i with
      | declaration d =>
        refine d.run_declaration hi hs hf hbehind fun hstop u hu => ?_
        exact hclosed (by simp [ItemLayout.isOpen, hstop]) u (hhead u hu)
      | rule r =>
        rw [ItemLayout.tokens, r.run_eq s _ hi hs fun _ => ?_]
        · simp [State.addRule, hf, ItemLayout.tree]
        · simpa [ItemLayout.core, ItemLayout.isRule] using hbehind
    rw [itemTokens, List.append_assoc, hread]
    refine (run_items is _ _ _ tail rest his ⟨t, ht, hk⟩ rfl rfl).trans ?_
    simp [itemTrees, Frame.push, Nat.add_assoc]

end

end Blocks

/-! ## Stylesheets -/

/-- The rules of a sheet and what stands behind the last one. -/
structure SheetLayout where
  rules : List RuleLayout
  /-- Stray semicolons behind the last rule. -/
  strays : List Token
  trailing : String

def ruleTokens (rs : List RuleLayout) : List Token :=
  rs.flatMap RuleLayout.tokens

theorem ruleTokens_cons (r : RuleLayout) (rs : List RuleLayout) :
    ruleTokens (r :: rs) = r.tokens ++ ruleTokens rs := rfl

def ruleTrees (offset : Nat) : List RuleLayout → List Rule
  | [] => []
  | r :: rs => (r.tree offset).classify :: ruleTrees (offset + totalSize r.tokens) rs

/-- The same rules before directives are told apart. -/
def plainTrees (offset : Nat) : List RuleLayout → List PlainRule
  | [] => []
  | r :: rs => r.tree offset :: plainTrees (offset + totalSize r.tokens) rs

theorem ruleTrees_eq_map (offset : Nat) (rs : List RuleLayout) :
    ruleTrees offset rs = (plainTrees offset rs).map PlainRule.classify := by
  induction rs generalizing offset with
  | nil => rfl
  | cons r rs ih => rw [ruleTrees, plainTrees, List.map_cons, ih]

theorem exists_of_mem_plainTrees {rs : List RuleLayout} {offset : Nat} {r : PlainRule}
    (h : r ∈ plainTrees offset rs) : ∃ l ∈ rs, ∃ n, r = l.tree n := by
  induction rs generalizing offset with
  | nil => cases h
  | cons l rs ih =>
    rcases List.mem_cons.mp h with rfl | h
    · exact ⟨l, List.mem_cons_self, offset, rfl⟩
    · obtain ⟨l', hl, hr⟩ := ih h
      exact ⟨l', List.mem_cons_of_mem l hl, hr⟩

namespace SheetLayout

def tokens (l : SheetLayout) : List Token :=
  ruleTokens l.rules ++ l.strays

def stream (l : SheetLayout) : TokenStream :=
  ⟨l.tokens, l.trailing⟩

def tree (l : SheetLayout) : Stylesheet :=
  ⟨ruleTrees 0 l.rules, textOf l.strays ++ l.trailing⟩

structure Valid (l : SheetLayout) : Prop where
  rules : ∀ r ∈ l.rules, r.Valid
  strays : Strays l.strays

theorem run_rules {size : Nat} {gap : String} {rs : List RuleLayout} (hrs : ∀ r ∈ rs, r.Valid)
    (s : State) (rest : List Token) (hs : s.pending = "") (hf : s.frames = []) :
    run size gap s (ruleTokens rs ++ rest) = run size gap { s with
      rules := s.rules ++ (ruleTrees s.offset rs).toArray, frames := [], pending := ""
      offset := s.offset + totalSize (ruleTokens rs) } rest := by
  induction rs generalizing s with
  | nil =>
    obtain ⟨rules, frames, pending, offset⟩ := s
    cases hs
    cases hf
    simp [ruleTokens, ruleTrees, totalSize]
  | cons r rs ih =>
    have hr := hrs r List.mem_cons_self
    rw [ruleTokens_cons, List.append_assoc, r.run_eq s _ hr hs (by simp [hf]),
      ih fun q hq => hrs q (List.mem_cons_of_mem r hq)]
    · simp [State.addRule, hf, ruleTrees, ruleTokens, Nat.add_assoc]
    · simp [State.addRule, hf]
    · simp [State.addRule, hf]

/-- The tokens of a valid layout are read as its tree. -/
theorem Valid.ofTokens_eq {l : SheetLayout} (h : l.Valid) :
    Stylesheet.ofTokens l.stream = .ok l.tree := by
  rw [Stylesheet.ofTokens, stream, tokens, run_rules h.rules _ _ rfl rfl,
    ← List.append_nil l.strays, run_strays (by simpa using h.strays)]
  simp [run, finish, State.skipAll, tree]

end SheetLayout

end StyleBundle
