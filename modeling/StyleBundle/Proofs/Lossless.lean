import Mathlib.Data.List.TakeWhile
import StyleBundle.Sheet.Parser
import StyleBundle.Proofs.Scanning

/-!
# Printing undoes parsing

At each moment of a reading, what has been read so far prints as the text that has been read: the
finished rules, the open blocks from the outermost in, and the text since the last item. A step
moves the text of some tokens from what is still to come to what has been read.
-/

namespace StyleBundle

open Token

/-! ## Rules keep their text when they are classified -/

theorem PlainRule.print_eq (r : PlainRule) :
    r.print = r.header.before ++ (r.setBefore "").print := by
  cases r <;>
    simp [print, Header.print, header, setBefore, mapHeader, String.append_assoc]

@[simp]
theorem PlainRule.print_classify (r : PlainRule) : r.classify.print = r.print := by
  cases r with
  | statement => rfl
  | block h items after span =>
    have hprint := (PlainRule.block h items after span).print_eq
    unfold classify
    dsimp only
    split
    · rfl
    · exact hprint.symm
    · exact hprint.symm

namespace Parser

/-! ## The text of a state -/

def Frame.print (f : Frame) : String :=
  f.header.print ++ "\x7b" ++ printItems f.items.toList

/-- The open blocks from the outermost in. -/
def printFrames : List Frame → String
  | [] => ""
  | f :: frames => printFrames frames ++ f.print

def State.items (s : State) : String :=
  String.join (s.rules.toList.map Rule.print) ++ printFrames s.frames

def State.print (s : State) : String :=
  s.items ++ s.pending

@[simp]
theorem Frame.print_push (item : BodyItem) (f : Frame) :
    (f.push item).print = f.print ++ item.print := by
  simp [print, push, printItems_append, printItems, String.append_assoc]

@[simp]
theorem State.items_addRule (r : PlainRule) (s : State) :
    (s.addRule r).items = s.items ++ r.print := by
  unfold addRule
  split
  · next h => simp [items, h, printFrames]
  · next h => simp [items, h, printFrames, BodyItem.print, String.append_assoc]

@[simp]
theorem State.pending_addRule (r : PlainRule) (s : State) :
    (s.addRule r).pending = s.pending := by
  unfold addRule
  split <;> rfl

/-! ## A step -/

variable {size : Nat} {s s' : State} {t : Token} {ts rest : List Token}

theorem print_skip (s : State) (t : Token) : (skip s t).print = s.print ++ t.text := by
  simp [skip, State.print, State.items, String.append_assoc]

theorem print_closeBlock (h : closeBlock s t = .ok s') (ht : t.Proper) (hk : t.kind = .rbrace) :
    s'.print = s.print ++ t.text := by
  unfold closeBlock at h
  split at h
  · cases h
  · next f frames hf =>
    cases h
    rw [ht.text_eq (show t.kind.lexeme? = some "\x7d" by rw [hk]; rfl)]
    simp only [State.print, State.items_addRule, State.pending_addRule, PlainRule.print]
    simp [State.items, hf, printFrames, Frame.print, String.append_assoc]

/-- A rule that is read is a statement that a semicolon ends, or a block that is opened. -/
theorem readRule_cases (h : readRule size s ts = .ok (s', rest)) :
    ∃ front t, ts = front ++ t :: rest ∧ front ≠ [] ∧ (∀ u ∈ front, endsPrelude u = false) ∧
      let header : Header := ⟨s.pending ++ leadingGap front, innerText front, t.gap⟩
      let start := s.offset + (leadingGap front).utf8ByteSize
      let stop := s.offset + totalSize front + t.size
      (t.kind = .semicolon ∧ (innerText front).toList.head? = some '@' ∧
        s' = State.addRule (.statement header ⟨start, stop⟩)
          { s with pending := "", offset := stop }) ∨
        t.kind = .lbrace ∧ s' = { s with
          frames := { header, start, opened := t.spanAt (s.offset + totalSize front) } :: s.frames
          pending := "", offset := stop } := by
  have happ := List.takeWhile_append_dropWhile (p := fun t => !endsPrelude t) (l := ts)
  have hfront : ∀ u ∈ ts.takeWhile fun t => !endsPrelude t, endsPrelude u = false :=
    fun u hu => by simpa using List.mem_takeWhile_imp hu
  have hends := List.head?_dropWhile_not (fun t => !endsPrelude t) ts
  unfold readRule at h
  generalize ts.takeWhile (fun t => !endsPrelude t) = front at h happ hfront
  generalize ts.dropWhile (fun t => !endsPrelude t) = behind at h happ hends
  cases behind with
  | nil => cases h
  | cons t behind =>
    dsimp only at h
    repeat' split at h
    all_goals simp only [Except.ok.injEq, Prod.mk.injEq, reduceCtorEq] at h
    all_goals obtain ⟨rfl, rfl⟩ := h
    all_goals have hne : front ≠ [] := by simpa using ‹¬front.isEmpty = true›
    all_goals refine ⟨front, t, happ.symm, hne, hfront, ?_⟩
    · exact .inl ⟨‹_›, ‹_›, rfl⟩
    · have hk : t.kind = .lbrace := by simp_all [endsPrelude]
      exact .inr ⟨hk, rfl⟩

theorem print_readRule (h : readRule size s ts = .ok (s', rest)) (hts : ∀ t ∈ ts, t.Proper) :
    ∃ front, ts = front ++ rest ∧ s'.print = s.print ++ textOf front := by
  obtain ⟨front, t, rfl, -, -, hcases⟩ := readRule_cases h
  have ht := hts t (by simp)
  refine ⟨front ++ [t], by simp, ?_⟩
  rw [textOf_append, ← leadingGap_append_innerText]
  rcases hcases with ⟨hk, -, rfl⟩ | ⟨hk, rfl⟩
  · simp only [textOf, ht.text_eq (show t.kind.lexeme? = some ";" by rw [hk]; rfl)]
    simp only [State.print, State.items_addRule, State.pending_addRule, PlainRule.print]
    simp [State.items, Header.print, String.append_assoc]
  · simp only [textOf, ht.text_eq (show t.kind.lexeme? = some "\x7b" by rw [hk]; rfl)]
    simp [State.print, State.items, printFrames, Frame.print, Header.print, printItems,
      String.append_assoc]

theorem splitAtDepth_append (stops : List TokenKind) (depth : Nat) (ts : List Token) :
    (splitAtDepth stops depth ts).1 ++ (splitAtDepth stops depth ts).2 = ts := by
  fun_induction splitAtDepth stops depth ts with
  | case1 => rfl
  | case2 => rfl
  | case3 depth t ts _ front rest e ih =>
    rw [e] at ih
    rw [List.cons_append, ih]

/-- A value that is cut off is a run of tokens, and what follows it is a semicolon or nothing. -/
theorem cutValue_cases (ts : List Token) : ∃ value after,
    (splitAtDepth [.semicolon] 0 ts).1 = value ∧ ts = value ++ after ++ (cutValue ts).rest ∧
      (cutValue ts).lead = leadingGap value ∧ (cutValue ts).value = innerText value ∧
      (cutValue ts).size = totalSize value ∧ (cutValue ts).after = textOf after ∧
      (cutValue ts).afterSize = totalSize after ∧
      ((after = [] ∧ ∀ t ∈ (cutValue ts).rest.head?, t.kind ≠ .semicolon) ∨
        ∃ t, after = [t] ∧ t.kind = .semicolon) := by
  have happ := splitAtDepth_append [.semicolon] 0 ts
  unfold cutValue
  split
  next value rest e =>
    rw [e] at happ ⊢
    dsimp only at happ ⊢
    split
    · exact ⟨value, [], rfl, by simpa using happ.symm, rfl, rfl, rfl, rfl, rfl, .inl ⟨rfl, by simp⟩⟩
    · next t rest =>
      split
      · next hk =>
        exact ⟨value, [t], rfl, by simpa using happ.symm, rfl, rfl, rfl, by simp [textOf],
          by simp [totalSize], .inr ⟨t, rfl, hk⟩⟩
      · next hk =>
        exact ⟨value, [], rfl, by simpa using happ.symm, rfl, rfl, rfl, rfl, rfl,
          .inl ⟨rfl, by simpa using hk⟩⟩

/-- A declaration that is read has a colon behind its property, and its value ends where the look
for a semicolon ends. -/
theorem readDeclaration_cases {f : Frame} {frames : List Frame}
    (h : readDeclaration s f frames ts = .ok (s', rest)) :
    ∃ property colon value after, ts = property ++ colon :: (value ++ after ++ rest) ∧
      property ≠ [] ∧ (∀ t ∈ property, endsProperty t = false) ∧ colon.kind = .colon ∧
      splitAtDepth [.semicolon] 0 (value ++ after ++ rest) = (value, after ++ rest) ∧
      ((after = [] ∧ ∀ t ∈ rest.head?, t.kind ≠ .semicolon) ∨
        ∃ t, after = [t] ∧ t.kind = .semicolon) ∧
      let start := s.offset + (leadingGap property).utf8ByteSize
      let stop := s.offset + totalSize property + colon.size + totalSize value
      s' = { s with
        frames := f.push (.declaration {
          before := s.pending ++ leadingGap property
          property := innerText property
          between := colon.text ++ leadingGap value
          value := innerText value
          after := textOf after
          span := ⟨start, stop⟩ }) :: frames
        pending := "", offset := stop + totalSize after } := by
  have happ := List.takeWhile_append_dropWhile (p := fun t => !endsProperty t) (l := ts)
  have hfront : ∀ t ∈ ts.takeWhile fun t => !endsProperty t, endsProperty t = false :=
    fun t ht => by simpa using List.mem_takeWhile_imp ht
  unfold readDeclaration at h
  generalize ts.takeWhile (fun t => !endsProperty t) = property at h happ hfront
  generalize ts.dropWhile (fun t => !endsProperty t) = behind at h happ
  cases behind with
  | nil => cases h
  | cons colon behind =>
    dsimp only at h
    repeat' split at h
    all_goals simp only [Except.ok.injEq, Prod.mk.injEq, reduceCtorEq] at h
    obtain ⟨rfl, rfl⟩ := h
    have hne : property ≠ [] := by simpa using ‹¬property.isEmpty = true›
    have hk : colon.kind = .colon := by simpa using ‹¬colon.kind ≠ .colon›
    obtain ⟨value, after, hvalue, hbehind, hlead, htext, hsize, hafter, hafterSize, hends⟩ :=
      cutValue_cases behind
    have hsplit := splitAtDepth_append [.semicolon] 0 behind
    rw [hvalue] at hsplit
    refine ⟨property, colon, value, after, ?_, hne, hfront, hk, ?_, hends, ?_⟩
    · rw [← hbehind, happ]
    · rw [← hbehind]
      refine Prod.ext hvalue ((List.append_right_inj value).mp ?_)
      rw [hsplit, ← List.append_assoc]
      exact hbehind
    · rw [hlead, htext, hsize, hafter, hafterSize]

theorem print_readDeclaration {f : Frame} {frames : List Frame} (hs : s.frames = f :: frames)
    (h : readDeclaration s f frames ts = .ok (s', rest)) :
    ∃ front, ts = front ++ rest ∧ s'.print = s.print ++ textOf front := by
  obtain ⟨property, colon, value, after, rfl, -, -, -, -, -, rfl⟩ := readDeclaration_cases h
  refine ⟨property ++ colon :: (value ++ after), by simp, ?_⟩
  simp only [textOf_append, textOf, ← leadingGap_append_innerText property,
    ← leadingGap_append_innerText value]
  simp [State.print, State.items, hs, printFrames, BodyItem.print, Declaration.print,
    String.append_assoc]

/-- A step moves the text of the tokens it reads to what has been read. -/
theorem print_step (h : step size s t ts = .ok (s', rest)) (hts : ∀ u ∈ t :: ts, u.Proper) :
    ∃ front, t :: ts = front ++ rest ∧ s'.print = s.print ++ textOf front := by
  unfold step at h
  split at h
  · cases h
    exact ⟨[t], rfl, by simp [print_skip, textOf]⟩
  · split at h
    · next hk =>
      obtain ⟨s'', hc, heq⟩ : ∃ s'', closeBlock s t = .ok s'' ∧ (s'', ts) = (s', rest) := by
        cases hc : closeBlock s t with
        | error e => simp [hc, Except.map] at h
        | ok s'' => exact ⟨s'', rfl, by simpa [hc, Except.map] using h⟩
      cases heq
      exact ⟨[t], rfl, by simpa [textOf] using print_closeBlock hc (hts t (by simp)) hk⟩
    · split at h
      · exact print_readRule h hts
      · next hs =>
        split at h
        · exact print_readRule h hts
        · exact print_readDeclaration hs h

/-! ## A whole reading -/

theorem print_run {gap : String} {sheet : Stylesheet} (h : run size gap s ts = .ok sheet)
    (hts : ∀ t ∈ ts, t.Proper) : sheet.print = s.print ++ textOf ts ++ gap := by
  fun_induction run size gap s ts with
  | case1 s =>
    unfold finish at h
    split at h
    · next hs =>
      cases h
      simp [Stylesheet.print, State.print, State.items, hs, printFrames, textOf,
        String.append_assoc]
    · cases h
  | case2 => cases h
  | case3 s t ts s' rest hstep ih =>
    obtain ⟨front, hfront, hprint⟩ := print_step hstep hts
    rw [ih h fun u hu => hts u (by rw [hfront]; exact List.mem_append_right _ hu), hprint, hfront,
      textOf_append]
    simp only [String.append_assoc]

end Parser

theorem Stylesheet.print_of_parse {text : String} {sheet : Stylesheet}
    (h : Stylesheet.parse text = .ok sheet) : sheet.print = text := by
  unfold parse at h
  cases hs : TokenStream.ofText text with
  | error e => simp [hs, Except.bind] at h
  | ok stream =>
    have hrun : Parser.run stream.size stream.trailing {} stream.tokens = .ok sheet := by
      simpa [hs, Except.bind, ofTokens] using h
    rw [Parser.print_run hrun (TokenStream.proper_of_ofText hs), ← TokenStream.text_of_ofText hs]
    simp [Parser.State.print, Parser.State.items, Parser.printFrames, TokenStream.text]

end StyleBundle
