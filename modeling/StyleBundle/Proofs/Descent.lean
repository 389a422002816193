import StyleBundle.Sheet.Parser
import StyleBundle.Proofs.Lossless
import StyleBundle.Proofs.Slices

/-!
# Reading by recursive descent

A second reader works on the text itself. Rules, blocks and declarations call each other, each piece
of text is a slice between two byte offsets, and a cursor holds where the last item ended. A reading
is none when a slice or an index is out of range, or when an item would be read without moving on.
It is always there, and it is what the stack of open blocks gives.
-/

namespace StyleBundle

open Token StyleBundle.Parser

/-- An item and the index of the token after it, or why there is none. -/
abbrev Reading (α : Type) := Except SyntaxError (α × Nat)

def Reading.map {α β : Type} (f : α → β) (reading : Reading α) : Reading β :=
  Except.map (fun (a, next) => (f a, next)) reading

namespace Source

/-! ## The reader -/

/-- The first index from `pos` on of a token that ends a run. -/
def scan (src : Source) (ends : Token → Bool) (pos : Nat) : Nat :=
  pos + ((src.tokens.drop pos).takeWhile fun t => !ends t).length

def scanValue (src : Source) (pos : Nat) : Nat :=
  pos + (splitAtDepth [.semicolon] 0 (src.tokens.drop pos)).1.length

/-- The text of a value and its offset. A value without tokens is empty and stands at `offset`. -/
def readValue (src : Source) (offset start stop : Nat) : Option (String × Nat) :=
  if start < stop then do
    let (value, span) ← src.cut? start stop
    return (value, span.start)
  else
    return ("", offset)

/-- The text up to the semicolon at index `pos`, if there is one, and the index after it. -/
def readEnd (src : Source) (cursor pos : Nat) : Option (String × Nat) :=
  match src.tokens[pos]? with
  | none => some ("", pos)
  | some t =>
    if t.kind = .semicolon then do
      let span ← src.span? pos
      let after ← slice? src.text cursor span.stop
      return (after, pos + 1)
    else
      some ("", pos)

def readDeclaration (src : Source) (cursor pos : Nat) : Option (Reading Declaration) := do
  let colon := src.scan endsProperty pos
  let missing : Option (Reading Declaration) := do
    let (text, span) ← src.cut? pos (max colon (pos + 1))
    return .error (.missingColon text span)
  match src.tokens[colon]? with
  | none => missing
  | some t =>
    if t.kind ≠ .colon then
      missing
    else
      let colonSpan ← src.span? colon
      if colon = pos then
        return .error (.unexpectedToken t.lexeme .propertyName colonSpan)
      else
        let first ← src.span? pos
        let before ← slice? src.text cursor first.start
        let (property, _) ← src.cut? pos colon
        let propertyEnd ← src.stop? colon
        let stop := src.scanValue (colon + 1)
        let (value, valueStart) ← src.readValue colonSpan.stop (colon + 1) stop
        let valueEnd ← src.consumed? stop
        let between ← slice? src.text propertyEnd valueStart
        let (_, span) ← src.cut? pos stop
        let (after, next) ← src.readEnd valueEnd stop
        return .ok ({ before, property, between, value, after, span }, next)

mutual

/-- Reads a rule whose leading text starts at `cursor`. -/
def readRule (src : Source) (cursor pos : Nat) : Option (Reading PlainRule) := do
  let stop := src.scan endsPrelude pos
  match _h : src.tokens[stop]? with
  | none =>
    return .error (.unexpectedEnd .openBrace ⟨src.text.utf8ByteSize, src.text.utf8ByteSize⟩)
  | some t =>
    let terminator ← src.span? stop
    if t.kind = .rbrace then
      return .error (.unexpectedToken t.lexeme .openBrace terminator)
    else if stop = pos then
      return .error (.unexpectedToken t.lexeme .selector terminator)
    else
      let first ← src.span? pos
      let before ← slice? src.text cursor first.start
      let (prelude, _) ← src.cut? pos stop
      let reached ← src.consumed? stop
      let between ← slice? src.text reached terminator.start
      let header : Header := { before, prelude, between }
      if t.kind = .semicolon then
        if prelude.toList.head? = some '@' then
          let (_, span) ← src.cut? pos (stop + 1)
          return .ok (.statement header span, stop + 1)
        else
          return .error (.unexpectedToken t.lexeme .openBrace terminator)
      else
        match ← src.readBody terminator terminator.stop (stop + 1) #[] with
        | .error e => return .error e
        | .ok ((items, after), next) =>
          let (_, span) ← src.cut? pos next
          return .ok (.block header items.toList after span, next)
termination_by (src.tokens.length - pos, 0)
decreasing_by
  have hlt := (List.getElem?_eq_some_iff.mp _h).1
  have hle : pos ≤ src.scan endsPrelude pos := Nat.le_add_right ..
  exact .left _ _ (by omega)

def readItem (src : Source) (cursor pos : Nat) : Option (Reading BodyItem) :=
  if startsRule (src.tokens.drop pos) then
    (src.readRule cursor pos).map (Reading.map .rule)
  else
    (src.readDeclaration cursor pos).map (Reading.map .declaration)
termination_by (src.tokens.length - pos, 1)
decreasing_by exact .right _ (by omega)

/-- Reads the items of a block up to its closing brace, after the items already read. -/
def readBody (src : Source) (opened : Span) (cursor pos : Nat) (items : Array BodyItem) :
    Option (Reading (Array BodyItem × String)) :=
  match _h : src.tokens[pos]? with
  | none => return .error (.unclosedBlock opened)
  | some t =>
    if t.kind = .rbrace then do
      let span ← src.span? pos
      let after ← slice? src.text cursor span.start
      return .ok ((items, after), pos + 1)
    else if t.kind = .semicolon then
      src.readBody opened cursor (pos + 1) items
    else do
      match ← src.readItem cursor pos with
      | .error e => return .error e
      | .ok (item, next) =>
        let cursor ← src.consumed? next
        if pos < next then src.readBody opened cursor next (items.push item) else none
termination_by (src.tokens.length - pos, 2)
decreasing_by
  all_goals have hlt := (List.getElem?_eq_some_iff.mp _h).1
  · exact .left _ _ (by omega)
  · exact .right _ (by omega)
  · exact .left _ _ (by omega)

end

/-- Reads the rest of a stylesheet, after the rules already read. -/
def readSheet (src : Source) (cursor pos : Nat) (rules : Array Rule) :
    Option (Except SyntaxError Stylesheet) :=
  match _h : src.tokens[pos]? with
  | none => do
    let trailing ← slice? src.text cursor src.text.utf8ByteSize
    return .ok { rules := rules.toList, trailing }
  | some t =>
    if t.kind = .semicolon then
      src.readSheet cursor (pos + 1) rules
    else if t.kind = .rbrace then do
      let span ← src.span? pos
      return .error (.unexpectedToken t.lexeme .rule span)
    else do
      match ← src.readRule cursor pos with
      | .error e => return .error e
      | .ok (rule, next) =>
        let cursor ← src.consumed? next
        if pos < next then
          src.readSheet cursor next (rules.push rule.classify)
        else
          none
termination_by src.tokens.length - pos
decreasing_by
  all_goals
    have hlt := (List.getElem?_eq_some_iff.mp _h).1
    omega

def parse (text : String) : Option (Except SyntaxError Stylesheet) :=
  match TokenStream.ofText text with
  | .error e => some (.error e)
  | .ok stream => readSheet ⟨text, stream.tokens⟩ 0 0 #[]

/-! ## Where the two readers stand -/

/-- The stack stands before the token with index `pos`, and holds the text from `cursor` on. -/
def Meets (src : Source) (cursor pos : Nat) (s : State) : Prop :=
  ∃ as ps ts, src.tokens = as ++ ps ++ ts ∧ pos = (as ++ ps).length ∧ cursor = totalSize as ∧
    s.pending = textOf ps ∧ s.offset = totalSize (as ++ ps)

/-- What follows from a step of the stack. -/
def resume (src : Source) (trailing : String) : Step → Except SyntaxError Stylesheet
  | .error e => .error e
  | .ok (s, ts) => run src.text.utf8ByteSize trailing s ts

/-- The descent reads an item and moves on, after which the stack goes on from `next`, or both fail
in the same way; `whole` is what the stack gives. -/
inductive Follows {α : Type} (src : Source) (trailing : String) (pos : Nat)
    (next : α → Nat → State) (whole : Except SyntaxError Stylesheet) : Option (Reading α) → Prop
  | failed {e : SyntaxError} : whole = .error e →
      Follows src trailing pos next whole (some (.error e))
  | moved {a : α} {q : Nat} : pos < q → q ≤ src.tokens.length →
      whole = run src.text.utf8ByteSize trailing (next a q) (src.tokens.drop q) →
      Follows src trailing pos next whole (some (.ok (a, q)))

variable {src : Source} {trailing : String} {cursor pos : Nat} {s : State}

theorem Follows.moved_to {α : Type} {next : α → Nat → State}
    {whole : Except SyntaxError Stylesheet} {a : α} {q : Nat} {as bs : List Token}
    (h : src.tokens = as ++ bs) (hq : q = as.length) (hlt : pos < q)
    (hwhole : whole = run src.text.utf8ByteSize trailing (next a q) bs) :
    Follows src trailing pos next whole (some (.ok (a, q))) := by
  refine .moved hlt ?_ ?_
  · rw [hq, h]
    exact (List.prefix_append _ _).length_le
  · rw [drop_eq h hq, hwhole]

theorem run_eq_resume (src : Source) (trailing : String) (s : State) (t : Token) (ts : List Token) :
    run src.text.utf8ByteSize trailing s (t :: ts) =
      src.resume trailing (step src.text.utf8ByteSize s t ts) := by
  rw [run]
  split <;> simp [resume, *]

theorem consumed?_of_le {q : Nat} (hq : q ≤ src.tokens.length) :
    src.consumed? q = some (src.offset q) :=
  consumed?_eq (List.take_append_drop q _).symm (by simp [hq])

/-- After an item the cursor stands where the item ended. -/
theorem meets_offset {q : Nat} (hq : q ≤ src.tokens.length) (hpending : s.pending = "")
    (hoffset : s.offset = src.offset q) : src.Meets (src.offset q) q s :=
  ⟨src.tokens.take q, [], src.tokens.drop q, by simp, by simp [hq], rfl, hpending,
    by simpa [offset] using hoffset⟩

theorem Meets.skip {t : Token} (h : src.Meets cursor pos s) (ht : src.tokens[pos]? = some t) :
    src.Meets cursor (pos + 1) (skip s t) := by
  obtain ⟨as, ps, ts, hts, rfl, rfl, hpending, hoffset⟩ := h
  have hhead : ts.head? = some t := by
    rw [hts, List.getElem?_append_right (Nat.le_refl _), Nat.sub_self] at ht
    rw [← ht, List.head?_eq_getElem?]
  obtain ⟨ts, rfl⟩ := List.head?_eq_some_iff.mp hhead
  refine ⟨as, ps ++ [t], ts, by simp [hts], by simp [Nat.add_assoc], rfl, ?_, ?_⟩
  · simp [Parser.skip, hpending, textOf_append, textOf]
  · simp [Parser.skip, hoffset, totalSize, Nat.add_assoc]

/-! ## Declarations -/

theorem scan_eq (ends : Token → Bool) {ts : List Token} (h : src.tokens.drop pos = ts) :
    src.scan ends pos = pos + (ts.takeWhile fun t => !ends t).length := by
  rw [scan, h]

theorem readValue_eq {as value bs : List Token} {i j : Nat} (hsrc : src.Tiled trailing)
    (h : src.tokens = as ++ value ++ bs) (hi : i = as.length) (hj : j = as.length + value.length) :
    src.readValue (totalSize as) i j =
      some (innerText value, totalSize as + (leadingGap value).utf8ByteSize) := by
  cases value with
  | nil => simp [readValue, hi, hj, innerText, leadingGap]
  | cons v value =>
    rw [readValue, if_pos (by simp [hi, hj]), cut?_eq hsrc h (List.cons_ne_nil _ _) hi hj]
    rfl

theorem readEnd_eq {as after bs : List Token} {i : Nat} (hsrc : src.Tiled trailing)
    (h : src.tokens = as ++ after ++ bs) (hi : i = as.length)
    (hafter : (after = [] ∧ ∀ t ∈ bs.head?, t.kind ≠ .semicolon) ∨
      ∃ t, after = [t] ∧ t.kind = .semicolon) :
    src.readEnd (totalSize as) i = some (textOf after, i + after.length) := by
  rcases hafter with ⟨rfl, hbs⟩ | ⟨t, rfl, hk⟩
  · unfold readEnd
    rw [h, List.append_nil, hi, List.getElem?_append_right (Nat.le_refl _), Nat.sub_self,
      ← List.head?_eq_getElem?]
    cases bs with
    | nil => rfl
    | cons t bs => simp [hbs t rfl, textOf]
  · have h' : src.tokens = as ++ t :: bs := by simpa using h
    have hslice : slice? src.text (totalSize as) (t.spanAt (totalSize as)).stop =
        some (textOf [t] ++ leadingGap []) :=
      slice?_gap hsrc (show src.tokens = as ++ [t] ++ [] ++ bs by simpa using h) rfl
        (by simp [spanAt, totalSize, leadingGap])
    simp [readEnd, getElem?_eq h' hi, hk, span?_eq h' hi, hslice, leadingGap]

/-- What is read of a declaration whose tokens are known. -/
theorem readDeclaration_eq {as ps front value after behind : List Token} {colon : Token}
    (hsrc : src.Tiled trailing)
    (h : src.tokens = as ++ ps ++ front ++ colon :: (value ++ after ++ behind))
    (hpos : pos = (as ++ ps).length) (hne : front ≠ [])
    (hscan : src.scan endsProperty pos = pos + front.length) (hkind : colon.kind = .colon)
    (hvalue : src.scanValue (pos + front.length + 1) = pos + front.length + 1 + value.length)
    (hafter : (after = [] ∧ ∀ t ∈ behind.head?, t.kind ≠ .semicolon) ∨
      ∃ t, after = [t] ∧ t.kind = .semicolon) :
    src.readDeclaration (totalSize as) pos = some (.ok ({
      before := textOf ps ++ leadingGap front
      property := innerText front
      between := colon.text ++ leadingGap value
      value := innerText value
      after := textOf after
      span := spanOf (totalSize (as ++ ps)) (front ++ colon :: value) },
      pos + front.length + 1 + value.length + after.length)) := by
  have hvalueTokens : src.tokens =
      as ++ ps ++ front ++ [colon] ++ value ++ (after ++ behind) := by simp [h]
  have hendTokens : src.tokens =
      as ++ ps ++ front ++ [colon] ++ value ++ after ++ behind := by simp [h]
  have hwholeTokens : src.tokens =
      as ++ ps ++ (front ++ colon :: value) ++ (after ++ behind) := by simp [h]
  have hlen : pos + front.length = (as ++ ps ++ front).length := by simp [hpos, Nat.add_assoc]
  have hcolonLen : pos + front.length + 1 = (as ++ ps ++ front ++ [colon]).length := by
    simp [hpos, Nat.add_assoc]
  have hvalueLen : pos + front.length + 1 + value.length =
      (as ++ ps ++ front ++ [colon] ++ value).length := by
    rw [hcolonLen, ← List.length_append]
  have hspan := span?_eq h hlen
  obtain ⟨first, hfirst, hbefore, hproperty⟩ := front_eq hsrc h hpos hne
  have hend : src.stop? (pos + front.length) = some (totalSize (as ++ ps ++ front)) :=
    stop?_eq h (by simp [hne]) hlen
  have hread := readValue_eq hsrc hvalueTokens hcolonLen (hvalueLen.trans List.length_append)
  have hconsumed := consumed?_eq hvalueTokens hvalueLen
  have hcolonStop : (colon.spanAt (totalSize (as ++ ps ++ front))).stop =
      totalSize (as ++ ps ++ front ++ [colon]) := by
    simp [spanAt, totalSize, Nat.add_assoc]
  have hbetween : slice? src.text (totalSize (as ++ ps ++ front))
      (totalSize (as ++ ps ++ front ++ [colon]) + (leadingGap value).utf8ByteSize) =
        some (textOf [colon] ++ leadingGap value) :=
    slice?_gap hsrc hvalueTokens rfl (by rw [totalSize_append])
  have hwhole : src.cut? pos (pos + front.length + 1 + value.length) =
      some (innerText (front ++ colon :: value),
        spanOf (totalSize (as ++ ps)) (front ++ colon :: value)) :=
    cut?_eq hsrc hwholeTokens (by simp) hpos (by simp [hpos, Nat.add_assoc, Nat.add_comm 1])
  have hreadEnd := readEnd_eq hsrc hendTokens hvalueLen hafter
  have hcolon : pos + front.length ≠ pos := by simp [hne]
  rw [readDeclaration, hscan]
  dsimp only
  simp only [getElem?_eq h hlen, hkind, ne_eq, not_true_eq_false, ↓reduceIte, hspan, hcolon, hfirst,
    hbefore, hproperty, hend, hvalue, hcolonStop, hread, hconsumed, hbetween, hwhole, hreadEnd,
    Option.bind_eq_bind, Option.bind_some, Option.pure_def]
  simp [textOf]

theorem readDeclaration_missing {as ps front behind : List Token} (hsrc : src.Tiled trailing)
    (h : src.tokens = as ++ ps ++ (front ++ behind)) (hpos : pos = (as ++ ps).length)
    (hne : front ≠ []) (hscan : src.scan endsProperty pos = pos + front.length)
    (hbehind : ∀ colon ∈ behind.head?, colon.kind ≠ .colon) :
    src.readDeclaration (totalSize as) pos = some (.error
      (.missingColon (innerText front) (spanOf (totalSize (as ++ ps)) front))) := by
  have hcut : src.cut? pos (pos + front.length) =
      some (innerText front, spanOf (totalSize (as ++ ps)) front) :=
    cut?_eq hsrc (by simpa using h) hne hpos (by rw [hpos])
  have hmax : max (pos + front.length) (pos + 1) = pos + front.length := by
    have := List.length_pos_iff.mpr hne
    omega
  have hget : src.tokens[pos + front.length]? = behind.head? := by
    have h' : src.tokens = as ++ ps ++ front ++ behind := by simpa using h
    rw [← List.head?_drop, drop_eq h' (by simp [hpos, Nat.add_assoc])]
  rw [readDeclaration, hscan]
  dsimp only
  rw [hget, hmax, hcut]
  cases hb : behind.head? with
  | none => rfl
  | some colon => simp [hbehind colon hb]

theorem readDeclaration_unnamed {as ps rest : List Token} {colon : Token}
    (h : src.tokens = as ++ ps ++ colon :: rest) (hpos : pos = (as ++ ps).length)
    (hscan : src.scan endsProperty pos = pos) (hkind : colon.kind = .colon) :
    src.readDeclaration cursor pos = some (.error
      (.unexpectedToken colon.lexeme .propertyName (colon.spanAt (totalSize (as ++ ps))))) := by
  rw [readDeclaration, hscan]
  simp only [getElem?_eq h hpos, hkind, span?_eq h hpos, ne_eq, not_true_eq_false, ↓reduceIte,
    Option.bind_eq_bind, Option.bind_some, Option.pure_def]

theorem readDeclaration_follows (hsrc : src.Tiled trailing) (h : src.Meets cursor pos s)
    {t : Token} (ht : src.tokens[pos]? = some t) (hk : t.kind ≠ .semicolon)
    (hk' : t.kind ≠ .rbrace) (f : Frame) (frames : List Frame) :
    src.Follows trailing pos
      (fun d q => { s with frames := f.push (.declaration d) :: frames, pending := "",
                            offset := src.offset q })
      (src.resume trailing (Parser.readDeclaration s f frames (src.tokens.drop pos)))
      (src.readDeclaration cursor pos) := by
  obtain ⟨as, ps, ts, hts, hpos, rfl, hpending, hoffset⟩ := h
  have hdrop := drop_eq hts hpos
  have hscan := scan_eq endsProperty hdrop
  have happ := List.takeWhile_append_dropWhile (p := fun t => !endsProperty t) (l := ts)
  have hends := List.head?_dropWhile_not (fun t => !endsProperty t) ts
  have hhead : ts.head? = some t := by
    rw [← hdrop, List.head?_drop, ht]
  unfold Parser.readDeclaration
  rw [hdrop]
  generalize ts.takeWhile (fun t => !endsProperty t) = front at happ hscan ⊢
  generalize ts.dropWhile (fun t => !endsProperty t) = behind at happ hends ⊢
  subst happ
  cases behind with
  | nil =>
    have hne : front ≠ [] := by
      rintro rfl
      cases hhead
    rw [readDeclaration_missing hsrc hts hpos hne hscan (by simp), ← hoffset]
    exact .failed rfl
  | cons colon rest =>
    dsimp only
    by_cases hkind : colon.kind = .colon
    · rw [if_neg (not_not_intro hkind)]
      by_cases hne : front = []
      · subst hne
        rw [readDeclaration_unnamed hts hpos hscan hkind, ← hoffset]
        exact .failed rfl
      · obtain ⟨value, after, hsplit, hrest, hlead, hvalue, hsize, htext, htextSize, hafter⟩ :=
          cutValue_cases rest
        generalize (cutValue rest).rest = behind at hrest hafter ⊢
        have hts' : src.tokens = as ++ ps ++ front ++ colon :: (value ++ after ++ behind) := by
          rw [hts, hrest]
          simp
        have hscanValue : src.scanValue (pos + front.length + 1) =
            pos + front.length + 1 + value.length := by
          have hrest' : src.tokens = as ++ ps ++ front ++ [colon] ++ rest := by simp [hts]
          rw [scanValue, drop_eq hrest' (by simp [hpos, Nat.add_assoc]), hsplit]
        rw [readDeclaration_eq hsrc hts' hpos hne hscan hkind hscanValue hafter,
          if_neg (by simp [hne])]
        have hq : src.tokens = (as ++ ps ++ front ++ [colon] ++ value ++ after) ++ behind := by
          simp [hts']
        have hlen : pos + front.length + 1 + value.length + after.length =
            (as ++ ps ++ front ++ [colon] ++ value ++ after).length := by
          simp [hpos]
          omega
        refine .moved_to hq hlen (by omega) ?_
        rw [offset_eq hq hlen]
        simp [resume, hpending, hoffset, hlead, hvalue, hsize, htext, htextSize, spanOf,
          leadingGap_append hne, totalSize, Nat.add_assoc]
    · have hne : front ≠ [] := by
        rintro rfl
        cases hhead
        simp_all [endsProperty]
      rw [if_pos hkind, readDeclaration_missing hsrc hts hpos hne hscan (by simpa using hkind),
        ← hoffset]
      exact .failed rfl

/-! ## Rules and blocks -/

theorem readRule_eq {as ps front rest : List Token} {t : Token} (hsrc : src.Tiled trailing)
    (h : src.tokens = as ++ ps ++ front ++ t :: rest) (hpos : pos = (as ++ ps).length)
    (hscan : src.scan endsPrelude pos = pos + front.length) :
    let header : Header := ⟨textOf ps ++ leadingGap front, innerText front, t.gap⟩
    let span := t.spanAt (totalSize (as ++ ps ++ front))
    src.readRule (totalSize as) pos =
      if t.kind = .rbrace then
        some (.error (.unexpectedToken t.lexeme .openBrace span))
      else if front.isEmpty then
        some (.error (.unexpectedToken t.lexeme .selector span))
      else if t.kind = .semicolon then
        if header.prelude.toList.head? = some '@' then
          some (.ok (.statement header (spanOf (totalSize (as ++ ps)) (front ++ [t])),
            pos + front.length + 1))
        else
          some (.error (.unexpectedToken t.lexeme .openBrace span))
      else do
        match ← src.readBody span span.stop (pos + front.length + 1) #[] with
        | .error e => return .error e
        | .ok ((items, after), next) =>
          let (_, span) ← src.cut? pos next
          return .ok (.block header items.toList after span, next) := by
  have hlen : pos + front.length = (as ++ ps ++ front).length := by simp [hpos, Nat.add_assoc]
  have hget := getElem?_eq h hlen
  have hspan := span?_eq h hlen
  rw [readRule, hscan]
  dsimp only
  split
  · next hnone => simp [hnone] at hget
  · next t' hsome =>
    cases hsome.symm.trans hget
    simp only [hspan, Option.bind_eq_bind, Option.bind_some, Option.pure_def]
    by_cases hkind : t.kind = .rbrace
    · rw [if_pos hkind, if_pos hkind]
    rw [if_neg hkind, if_neg hkind]
    by_cases hne : front = []
    · simp [hne]
    obtain ⟨first, hfirst, hbefore, hprelude⟩ := front_eq hsrc h hpos hne
    have hreached := consumed?_eq h hlen
    have hbetween : slice? src.text (totalSize (as ++ ps ++ front))
        (t.spanAt (totalSize (as ++ ps ++ front))).start = some (textOf [] ++ t.gap) :=
      slice?_gap hsrc (show src.tokens = as ++ ps ++ front ++ [] ++ [t] ++ rest by simp [h]) rfl
        (by simp [spanAt, totalSize, leadingGap])
    have hwhole : src.cut? pos (pos + front.length + 1) =
        some (innerText (front ++ [t]), spanOf (totalSize (as ++ ps)) (front ++ [t])) :=
      cut?_eq hsrc (show src.tokens = as ++ ps ++ (front ++ [t]) ++ rest by simp [h]) (by simp) hpos
        (by simp [hpos, Nat.add_assoc])
    have hstop : pos + front.length ≠ pos := by simp [hne]
    have hisEmpty : front.isEmpty = false := by simp [hne]
    simp only [hstop, hisEmpty, hfirst, hbefore, hprelude, hreached, hbetween, hwhole,
      Bool.false_eq_true, ↓reduceIte, Option.bind_some, textOf, String.empty_append]

/-- The two readers agree on the rule at index `pos`, wherever its leading text starts. -/
def RuleFollows (src : Source) (trailing : String) (pos : Nat) : Prop :=
  ∀ cursor s, src.Meets cursor pos s →
    src.Follows trailing pos
      (fun r q => State.addRule r { s with pending := "", offset := src.offset q })
      (src.resume trailing (Parser.readRule src.text.utf8ByteSize s (src.tokens.drop pos)))
      (src.readRule cursor pos)

/-- The two readers agree on the rest of the open block `f` from index `pos` on. -/
def BodyFollows (src : Source) (trailing : String) (pos : Nat) : Prop :=
  ∀ cursor s f frames, src.Meets cursor pos s → s.frames = f :: frames →
    src.Follows trailing pos
      (fun (body : Array BodyItem × String) q =>
        State.addRule (.block f.header body.1.toList body.2 ⟨f.start, src.offset q⟩)
          { s with frames, pending := "", offset := src.offset q })
      (run src.text.utf8ByteSize trailing s (src.tokens.drop pos))
      (src.readBody f.opened cursor pos f.items)

theorem readRule_unended (h : src.tokens.length ≤ src.scan endsPrelude pos) :
    src.readRule cursor pos = some (.error
      (.unexpectedEnd .openBrace ⟨src.text.utf8ByteSize, src.text.utf8ByteSize⟩)) := by
  have hnone := List.getElem?_eq_none_iff.mpr h
  rw [readRule]
  dsimp only
  split
  · rfl
  · next t hsome => simp [hnone] at hsome

/-- A rule ends at once, or the block that it opens is read on. -/
theorem rule_follows (hsrc : src.Tiled trailing)
    (hbody : ∀ q, pos < q → q ≤ src.tokens.length → src.BodyFollows trailing q) :
    src.RuleFollows trailing pos := by
  rintro cursor s ⟨as, ps, ts, hts, hpos, rfl, hpending, hoffset⟩
  have hdrop := drop_eq hts hpos
  have hscan := scan_eq endsPrelude hdrop
  have happ := List.takeWhile_append_dropWhile (p := fun t => !endsPrelude t) (l := ts)
  unfold Parser.readRule
  rw [hdrop]
  generalize ts.takeWhile (fun t => !endsPrelude t) = front at happ hscan ⊢
  generalize ts.dropWhile (fun t => !endsPrelude t) = behind at happ ⊢
  subst happ
  cases behind with
  | nil =>
    rw [readRule_unended (by rw [hscan, hts, hpos]; simp [Nat.add_assoc])]
    exact .failed rfl
  | cons t rest =>
    have hts' : src.tokens = as ++ ps ++ front ++ t :: rest := by simpa using hts
    have hsize : totalSize (as ++ ps ++ front) = s.offset + totalSize front := by
      rw [totalSize_append, hoffset]
    have hq : src.tokens = (as ++ ps ++ front ++ [t]) ++ rest := by simp [hts']
    have hlen : pos + front.length + 1 = (as ++ ps ++ front ++ [t]).length := by
      simp [hpos, Nat.add_assoc]
    have hle : pos + front.length + 1 ≤ src.tokens.length := by
      rw [hlen, hq]
      exact (List.prefix_append _ _).length_le
    have hoff : src.offset (pos + front.length + 1) = s.offset + totalSize front + t.size := by
      rw [offset_eq hq hlen, totalSize_append, hsize, totalSize, totalSize, Nat.add_zero]
    rw [readRule_eq hsrc hts' hpos hscan, hsize, ← hpending]
    dsimp only
    split
    · exact .failed rfl
    split
    · exact .failed rfl
    have hne : front ≠ [] := by simpa using ‹¬front.isEmpty = true›
    split
    · split
      · refine .moved_to hq hlen (by omega) ?_
        rw [hoff]
        simp [resume, spanOf, leadingGap_append hne, totalSize, ← hoffset, Nat.add_assoc]
      · exact .failed rfl
    · have hopened : (t.spanAt (s.offset + totalSize front)).stop =
          src.offset (pos + front.length + 1) := by
        rw [hoff, spanAt]
      have hmeets := meets_offset (s := {
        s with
        frames := {
          header := ⟨s.pending ++ leadingGap front, innerText front, t.gap⟩
          start := s.offset + (leadingGap front).utf8ByteSize
          opened := t.spanAt (s.offset + totalSize front) } :: s.frames
        pending := "", offset := s.offset + totalSize front + t.size }) hle rfl hoff.symm
      have hread := hbody _ (by omega) hle _ _ _ _ hmeets rfl
      rw [drop_eq hq hlen, ← hopened] at hread
      dsimp only at hread
      generalize src.readBody _ _ _ _ = reading at hread ⊢
      cases hread with
      | failed he => exact .failed he
      | @moved body q hlt hqle heq =>
        obtain ⟨text, hcut⟩ := cut?_of_le hsrc hts' hne hpos (by rw [← hpos]; omega) hqle
        rw [← hoffset] at hcut
        simp only [hcut, Option.bind_eq_bind, Option.bind_some, Option.pure_def]
        exact .moved (by omega) hqle heq

theorem Follows.mono {α : Type} {next : α → Nat → State} {whole : Except SyntaxError Stylesheet}
    {reading : Option (Reading α)} {pos' : Nat} (h : src.Follows trailing pos' next whole reading)
    (hpos : pos ≤ pos') : src.Follows trailing pos next whole reading := by
  cases h with
  | failed he => exact .failed he
  | moved hlt hle heq => exact .moved (by omega) hle heq

theorem drop_eq_nil (ht : src.tokens[pos]? = none) : src.tokens.drop pos = [] :=
  List.drop_eq_nil_iff.mpr (List.getElem?_eq_none_iff.mp ht)

theorem drop_eq_cons {t : Token} (ht : src.tokens[pos]? = some t) :
    src.tokens.drop pos = t :: src.tokens.drop (pos + 1) := by
  obtain ⟨hlt, rfl⟩ := List.getElem?_eq_some_iff.mp ht
  exact List.drop_eq_getElem_cons hlt

theorem Follows.map {α β : Type} {next : α → Nat → State} {next' : β → Nat → State}
    {whole : Except SyntaxError Stylesheet} {reading : Option (Reading α)}
    (h : src.Follows trailing pos next whole reading) (f : α → β)
    (hnext : ∀ a q, next' (f a) q = next a q) :
    src.Follows trailing pos next' whole (reading.map (Reading.map f)) := by
  cases h with
  | failed he => exact .failed he
  | moved hlt hle heq => exact .moved hlt hle (by rw [hnext, heq])

theorem item_follows (hsrc : src.Tiled trailing) (hrule : src.RuleFollows trailing pos)
    (h : src.Meets cursor pos s) {t : Token} (ht : src.tokens[pos]? = some t)
    (hk : t.kind ≠ .semicolon) (hk' : t.kind ≠ .rbrace) {f : Frame} {frames : List Frame}
    (hs : s.frames = f :: frames) :
    src.Follows trailing pos
      (fun item q => { s with frames := f.push item :: frames, pending := "",
                               offset := src.offset q })
      (run src.text.utf8ByteSize trailing s (src.tokens.drop pos)) (src.readItem cursor pos) := by
  rw [drop_eq_cons ht, run_eq_resume, step, if_neg hk, if_neg hk', hs, ← drop_eq_cons ht, readItem]
  dsimp only
  split
  · exact (hrule cursor s h).map BodyItem.rule fun r q => by simp [State.addRule, hs]
  · exact (readDeclaration_follows hsrc h ht hk hk' f frames).map
      BodyItem.declaration fun _ _ => rfl

theorem body_follows (hsrc : src.Tiled trailing) (hrule : src.RuleFollows trailing pos)
    (hbody : ∀ q, pos < q → q ≤ src.tokens.length → src.BodyFollows trailing q) :
    src.BodyFollows trailing pos := by
  intro cursor s f frames hmeets hs
  rw [readBody]
  split
  · next ht =>
    rw [drop_eq_nil ht, run, finish, hs]
    exact .failed rfl
  · next t ht =>
    have hlt := (List.getElem?_eq_some_iff.mp ht).1
    split
    · next hbrace =>
      obtain ⟨as, ps, ts, hts, hpos, rfl, hpending, hoffset⟩ := hmeets
      obtain ⟨ts, rfl⟩ : ∃ rest, ts = t :: rest :=
        ⟨_, (drop_eq hts hpos).symm.trans (drop_eq_cons ht)⟩
      have hts' : src.tokens = as ++ ps ++ [t] ++ ts := by simpa using hts
      have hafter : slice? src.text (totalSize as) (t.spanAt (totalSize (as ++ ps))).start =
          some (textOf ps ++ leadingGap [t]) :=
        slice?_gap hsrc hts' rfl
          (by rw [spanAt, totalSize_append, leadingGap])
      have hoff : src.offset (pos + 1) = s.offset + t.size := by
        rw [offset_eq hts'
          (by simp [hpos, Nat.add_assoc]), totalSize_append, ← hoffset, totalSize, totalSize,
          Nat.add_zero]
      simp only [span?_eq hts hpos, hafter, Option.bind_eq_bind, Option.bind_some, Option.pure_def]
      refine .moved (Nat.lt_succ_self pos) hlt ?_
      rw [drop_eq_cons ht, run_eq_resume, step, if_neg (by simp [hbrace]), if_pos hbrace,
        closeBlock, hs, hoff, hpending]
      rfl
    · next hbrace =>
      split
      · next hsemi =>
        rw [drop_eq_cons ht, run_eq_resume, step, if_pos hsemi]
        have hrest := hbody _ (Nat.lt_succ_self pos) hlt _ _ _ _ (hmeets.skip ht) hs
        exact hrest.mono (Nat.le_succ pos)
      · next hsemi =>
        have hitem := item_follows hsrc hrule hmeets ht hsemi hbrace hs
        generalize src.readItem cursor pos = reading at hitem ⊢
        cases hitem with
        | failed he => exact .failed he
        | @moved item q hlt hle heq =>
          have hmeets' := meets_offset (s := { s with
            frames := f.push item :: frames, pending := "", offset := src.offset q }) hle rfl rfl
          simp only [consumed?_of_le hle, if_pos hlt, Option.bind_eq_bind, Option.bind_some]
          rw [heq]
          exact (hbody q hlt hle _ _ _ frames hmeets' rfl).mono (Nat.le_of_lt hlt)

theorem rules_and_bodies (hsrc : src.Tiled trailing) (pos : Nat) :
    src.RuleFollows trailing pos ∧ src.BodyFollows trailing pos := by
  induction hn : src.tokens.length - pos using Nat.strongRecOn generalizing pos with
  | _ n ih =>
    have hbody : ∀ q, pos < q → q ≤ src.tokens.length → src.BodyFollows trailing q :=
      fun q hlt hle => (ih _ (by omega) q rfl).2
    have hrule := rule_follows hsrc hbody
    exact ⟨hrule, body_follows hsrc hrule hbody⟩

/-! ## Stylesheets -/

/-- The two readers agree on a stylesheet from index `pos` on. -/
theorem readSheet_eq_run (hsrc : src.Tiled trailing) (h : src.Meets cursor pos s)
    (hs : s.frames = []) :
    src.readSheet cursor pos s.rules =
      some (run src.text.utf8ByteSize trailing s (src.tokens.drop pos)) := by
  induction hn : src.tokens.length - pos using Nat.strongRecOn generalizing cursor pos s with
  | _ n ih =>
    rw [readSheet]
    split
    · next ht =>
      have hdrop := drop_eq_nil ht
      obtain ⟨as, ps, ts, hts, hpos, rfl, hpending, -⟩ := h
      obtain rfl := (drop_eq hts hpos).symm.trans hdrop
      rw [List.append_nil] at hts
      rw [slice?_rest hsrc hts rfl, hdrop, run, finish, hs, hpending]
      rfl
    · next t ht =>
      have hlt := (List.getElem?_eq_some_iff.mp ht).1
      rw [drop_eq_cons ht, run_eq_resume, step]
      split
      · next hsemi =>
        exact ih _ (by omega) (h.skip ht) hs rfl
      · next hsemi =>
        split
        · next hbrace =>
          obtain ⟨as, ps, ts, hts, hpos, -, -, hoffset⟩ := h
          obtain rfl := (drop_eq hts hpos).symm.trans (drop_eq_cons ht)
          rw [span?_eq hts hpos, ← hoffset, closeBlock, hs]
          rfl
        · next hbrace =>
          have hrule := (rules_and_bodies hsrc pos).1 cursor s h
          rw [hs, ← drop_eq_cons ht]
          dsimp only
          generalize src.resume trailing (Parser.readRule _ s _) = whole at hrule ⊢
          generalize src.readRule cursor pos = reading at hrule ⊢
          cases hrule with
          | failed he => rw [he]; rfl
          | @moved r q hlt hle heq =>
            have hadd : State.addRule r { s with pending := "", offset := src.offset q } =
                { s with rules := s.rules.push r.classify, pending := "",
                         offset := src.offset q } := by
              simp [State.addRule, hs]
            have hmeets := meets_offset (s := { s with
              rules := s.rules.push r.classify, pending := "", offset := src.offset q }) hle rfl rfl
            simp only [consumed?_of_le hle, if_pos hlt, Option.bind_eq_bind, Option.bind_some]
            rw [heq, hadd]
            exact ih _ (by omega) hmeets hs rfl

end Source

/-- Reading by recursive descent is reading with a stack: no slice is out of range or off a
character boundary, and what is read prints as the text. -/
theorem Stylesheet.parse_lossless (text : String) :
    Source.parse text = some (Stylesheet.parse text) ∧
      ∀ sheet, Stylesheet.parse text = .ok sheet → sheet.print = text := by
  refine ⟨?_, fun sheet => Stylesheet.print_of_parse⟩
  unfold Source.parse Stylesheet.parse
  cases hs : TokenStream.ofText text with
  | error e => rfl
  | ok stream =>
    have htext := TokenStream.text_of_ofText hs
    have hsrc : (Source.mk text stream.tokens).Tiled stream.trailing := htext.symm
    have hmeets : (Source.mk text stream.tokens).Meets 0 0 {} :=
      ⟨[], [], stream.tokens, rfl, rfl, rfl, rfl, rfl⟩
    have hrun := Source.readSheet_eq_run hsrc hmeets rfl
    simpa [Except.bind, ofTokens, TokenStream.size, htext] using hrun

theorem Stylesheet.parse_lossless_mixed :
    let text :=
      "/* ü */ ; .a \x7b b : url(;) ; ; c:; @d e; f g \x7b\x7d \x7d @h; :export\x7bi:j\x7d /**/"
    ∃ sheet, Stylesheet.parse text = .ok sheet ∧ Source.parse text = some (.ok sheet) ∧
      sheet.print = text := by
  intro text
  have hok : (Stylesheet.parse text).toOption.isSome := by decide +kernel
  cases h : Stylesheet.parse text with
  | error e => simp [h, Except.toOption] at hok
  | ok sheet =>
    obtain ⟨hdescent, hprint⟩ := Stylesheet.parse_lossless text
    exact ⟨sheet, rfl, hdescent.trans (by rw [h]), hprint sheet h⟩

end StyleBundle
