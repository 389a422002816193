import Mathlib.Data.List.TakeWhile
import StyleBundle.Proofs.LayoutReading
import StyleBundle.Proofs.Lossless

/-!
# Where an item of a block ends

Looking ahead tells rules from declarations and stops at a brace or a semicolon that stands in no
parentheses, or at a closing brace. The item is then read by a scan of its own, which counts
parentheses in another way: a prelude ends at any brace or semicolon, and a value at a semicolon
that stands in no parentheses opened behind the colon. So the item may end before the token at which
looking ahead stopped, and the main statement says when it does not.
-/

namespace StyleBundle

open Token

namespace Parser

/-! ## The scans -/

/-- The tokens of an item in front of the one at which looking ahead stops, and the tokens from
there on. -/
def lookAhead (ts : List Token) : List Token × List Token :=
  splitAtDepth [.lbrace, .semicolon] 0 ts

/-- The tokens from the one on that ends the prelude of a rule. -/
def behindPrelude (ts : List Token) : List Token :=
  ts.dropWhile fun t => !endsPrelude t

/-- The tokens from the one on that ends the value of a declaration. -/
def behindValue (ts : List Token) : List Token :=
  (splitAtDepth [.semicolon] 0 (ts.dropWhile fun t => !endsProperty t).tail).2

def dropSemicolon : List Token → List Token
  | [] => []
  | t :: ts => if t.kind = .semicolon then ts else t :: ts

variable {size : Nat} {s s' : State} {f : Frame} {frames : List Frame} {t : Token}
  {ts us vs rest : List Token}

theorem behindPrelude_of_readRule (h : readRule size s ts = .ok (s', rest)) :
    ∃ t, behindPrelude ts = t :: rest := by
  obtain ⟨front, t, rfl, -, hfront, hcases⟩ := readRule_cases h
  have hends : endsPrelude t = true := by
    rcases hcases with ⟨hk, -⟩ | ⟨hk, -⟩ <;> simp [endsPrelude, hk]
  exact ⟨t, (takeWhile_append_cons (by simpa using hfront) (by simp [hends]) rest).2⟩

theorem rest_cutValue (ts : List Token) :
    (cutValue ts).rest = dropSemicolon (splitAtDepth [.semicolon] 0 ts).2 := by
  unfold cutValue
  split
  next value rest e =>
  rw [e]
  dsimp only
  split
  · rfl
  · rw [dropSemicolon]
    split <;> rfl

/-- A declaration is read exactly when a colon ends its property, which is not empty. -/
theorem readDeclaration_ok_iff : (∃ s', readDeclaration s f frames ts = .ok (s', rest)) ↔
    ∃ property colon behind, ts = property ++ colon :: behind ∧ property ≠ [] ∧
      (∀ t ∈ property, endsProperty t = false) ∧ colon.kind = .colon ∧
      rest = dropSemicolon (behindValue ts) := by
  constructor
  · rintro ⟨s', h⟩
    obtain ⟨property, colon, value, after, rfl, hne, hproperty, hk, hvalue, hafter, -⟩ :=
      readDeclaration_cases h
    refine ⟨property, colon, _, rfl, hne, hproperty, hk, ?_⟩
    have hends : (!endsProperty colon) = false := by simp [endsProperty, hk]
    have hdrop := (takeWhile_append_cons (p := fun t => !endsProperty t)
      (by simpa using hproperty) hends (value ++ after ++ rest)).2
    rw [behindValue, hdrop, List.tail_cons, hvalue]
    rcases hafter with ⟨rfl, hrest⟩ | ⟨t, rfl, ht⟩
    · cases rest with
      | nil => rfl
      | cons t rest => exact (if_neg (hrest t rfl)).symm
    · exact (if_pos ht).symm
  · rintro ⟨property, colon, behind, rfl, hne, hproperty, hk, rfl⟩
    have hends : (!endsProperty colon) = false := by simp [endsProperty, hk]
    obtain ⟨htake, hdrop⟩ := takeWhile_append_cons
      (p := fun t => !endsProperty t) (by simpa using hproperty) hends behind
    have hempty : property.isEmpty = false := by simp [hne]
    unfold readDeclaration behindValue
    rw [htake, hdrop]
    simp [hk, hempty, rest_cutValue]

/-! ## Depths -/

theorem nest_le_nest {m n : Nat} (h : m ≤ n) (t : Token) : nest m t ≤ nest n t := by
  unfold nest
  split
  · induction t.lexeme.toList generalizing m n with
    | nil => exact h
    | cons c cs ih =>
      refine ih ?_
      unfold nestChar
      repeat' split
      all_goals omega
  · exact h

/-- A scan that stops at fewer kinds, and counts fewer parentheses before, counts fewer after. -/
theorem depthAfter_le {stops stops' : List TokenKind} {m n d e : Nat}
    (hm : depthAfter stops m ts = .ok d) (hn : depthAfter stops' n ts = .ok e) (h : m ≤ n) :
    d ≤ e := by
  induction ts generalizing m n with
  | nil =>
    cases hm
    cases hn
    exact h
  | cons t ts ih =>
    rw [depthAfter] at hm hn
    split at hm
    · cases hm
    split at hn
    · cases hn
    exact ih hm hn (nest_le_nest h t)

/-- Each semicolon among the tokens stands in parentheses, where `depth` are open in front. -/
def SemicolonsNested (depth : Nat) (ts : List Token) : Prop :=
  ∀ us t vs, ts = us ++ t :: vs → t.kind = .semicolon → us.foldl nest depth ≠ 0

/-- A value goes on as long as its semicolons stand in parentheses. -/
theorem exists_depthAfter_iff (depth : Nat) (hts : ∀ t ∈ ts, t.kind ≠ .rbrace) :
    (∃ d, depthAfter [.semicolon] depth ts = .ok d) ↔ SemicolonsNested depth ts := by
  induction ts generalizing depth with
  | nil => simp [depthAfter, SemicolonsNested]
  | cons t ts ih =>
    have ht := hts t List.mem_cons_self
    have ih := ih (nest depth t) fun u hu => hts u (List.mem_cons_of_mem t hu)
    rw [depthAfter]
    by_cases hstop : depth = 0 ∧ t.kind = .semicolon
    · constructor
      · rintro ⟨d, hd⟩
        simp [hstop] at hd
      · exact fun h => absurd hstop.1 (h [] t ts rfl hstop.2)
    · rw [if_neg (by simpa [ht] using hstop), ih]
      constructor
      · rintro h (_ | ⟨u, us⟩) v vs heq hv
        · cases heq
          exact fun hzero => hstop ⟨hzero, hv⟩
        · cases heq
          exact h us v vs rfl hv
      · intro h us v vs heq hv
        exact h (t :: us) v vs (by rw [heq]; rfl) hv

/-! ## What looking ahead finds -/

theorem lookAhead_append (ts : List Token) : (lookAhead ts).1 ++ (lookAhead ts).2 = ts :=
  splitAtDepth_append _ _ _

theorem kind_ne_of_mem_lookAhead (ht : t ∈ (lookAhead ts).1) : t.kind ≠ .rbrace :=
  kind_ne_of_mem_splitAtDepth ht

theorem endsPrelude_of_lookAhead (ht : t ∈ (lookAhead ts).2.head?) : endsPrelude t = true := by
  obtain ⟨d, -, hstop⟩ := splitAtDepth_spec [.lbrace, .semicolon] 0 ts
  rcases hstop t ht with hk | ⟨-, hk⟩
  · simp [endsPrelude, hk]
  · rcases List.mem_cons.mp (List.contains_iff_mem.mp hk) with hk | hk
    · simp [endsPrelude, hk]
    · simp [endsPrelude, List.mem_singleton.mp hk]

/-- At an item that is no rule the look ahead stops at a semicolon or a closing brace. -/
theorem kind_of_lookAhead (h : startsRule ts = false) (ht : t ∈ (lookAhead ts).2.head?) :
    t.kind = .semicolon ∨ t.kind = .rbrace := by
  have hends := endsPrelude_of_lookAhead ht
  obtain ⟨behind, hbehind⟩ := List.head?_eq_some_iff.mp ht
  unfold startsRule at h
  rw [show splitAtDepth _ 0 ts = lookAhead ts from rfl, hbehind] at h
  simp only [Bool.or_eq_false_iff, decide_eq_false_iff_not] at h
  simp only [endsPrelude, Bool.or_eq_true, decide_eq_true_eq, h.1, false_or] at hends
  exact hends.symm

theorem exists_value {property behind : List Token} {colon : Token} (h : startsRule ts = false)
    (heq : ts = property ++ colon :: behind) (hproperty : ∀ t ∈ property, endsProperty t = false)
    (hk : colon.kind = .colon) :
    ∃ value, (lookAhead ts).1 = property ++ colon :: value ∧
      behind = value ++ (lookAhead ts).2 := by
  have happ := (lookAhead_append ts).trans heq
  have hcolon : colon ∉ (lookAhead ts).2.head? := fun hmem => by
    simpa [hk] using kind_of_lookAhead h hmem
  rcases List.append_eq_append_iff.mp happ with ⟨us, rfl, hback⟩ | ⟨us, hfront, hback⟩
  · cases us with
    | nil => exact absurd (by simp [hback]) hcolon
    | cons u us =>
      have hu := hproperty u (by simp)
      rcases kind_of_lookAhead h (t := u) (by simp [hback]) with hk' | hk' <;>
        simp [endsProperty, hk'] at hu
  · cases us with
    | nil => exact absurd (by rw [← List.nil_append (lookAhead ts).2, ← hback]; rfl) hcolon
    | cons u us =>
      obtain ⟨rfl, rfl⟩ := List.cons.inj hback
      exact ⟨us, hfront, rfl⟩

/-! ## Where the readers agree -/

/-- The item that starts with the given tokens ends where looking ahead stops: a rule its prelude,
and a declaration, if it can be read, its value. -/
def EndsAsSeen (ts : List Token) : Prop :=
  if startsRule ts then
    behindPrelude ts = (lookAhead ts).2
  else
    ∀ s f frames s' rest, readDeclaration s f frames ts = .ok (s', rest) →
      behindValue ts = (lookAhead ts).2

/-- No brace and no semicolon that looking ahead passes ends the item: a rule has none in its
parentheses, and each semicolon behind the colon of a declaration stands in parentheses that open
behind the colon too. -/
def Shielded (ts : List Token) : Prop :=
  if startsRule ts then
    ∀ t ∈ (lookAhead ts).1, t.kind ≠ .lbrace ∧ t.kind ≠ .semicolon
  else
    ∀ property colon value, (lookAhead ts).1 = property ++ colon :: value → property ≠ [] →
      (∀ t ∈ property, endsProperty t = false) → colon.kind = .colon → SemicolonsNested 0 value

theorem behindPrelude_eq_iff : behindPrelude ts = (lookAhead ts).2 ↔
    ∀ t ∈ (lookAhead ts).1, t.kind ≠ .lbrace ∧ t.kind ≠ .semicolon := by
  have happ := lookAhead_append ts
  have hends : ∀ t, (lookAhead ts).2.head? = some t → endsPrelude t = true :=
    fun _ => endsPrelude_of_lookAhead
  have hbrace : ∀ t ∈ (lookAhead ts).1, t.kind ≠ .rbrace := fun _ => kind_ne_of_mem_lookAhead
  unfold behindPrelude
  generalize (lookAhead ts).1 = front at happ hbrace ⊢
  generalize (lookAhead ts).2 = back at happ hends ⊢
  subst happ
  constructor
  · intro h t ht
    have htake :=
      List.takeWhile_append_dropWhile (p := fun t => !endsPrelude t) (l := front ++ back)
    rw [h, List.append_left_inj] at htake
    rw [← htake] at ht
    have hends := endsPrelude_eq_false_iff.mp (by simpa using List.mem_takeWhile_imp ht)
    exact ⟨hends.1.1, hends.2⟩
  · intro h
    have hfront : ∀ t ∈ front, (!endsPrelude t) = true := fun t ht => by
      simp [endsPrelude, hbrace t ht, h t ht]
    rw [List.dropWhile_append_of_pos hfront]
    cases back with
    | nil => rfl
    | cons t back => simp [hends t rfl]

theorem behindValue_eq_iff {property value : List Token} {colon : Token}
    (hrule : startsRule ts = false) (hfront : (lookAhead ts).1 = property ++ colon :: value)
    (hproperty : ∀ t ∈ property, endsProperty t = false) (hk : colon.kind = .colon) :
    behindValue ts = (lookAhead ts).2 ↔ SemicolonsNested 0 value := by
  obtain ⟨e, he, hstop⟩ := splitAtDepth_spec [.lbrace, .semicolon] 0 ts
  have happ := lookAhead_append ts
  have hbrace : ∀ t ∈ value, t.kind ≠ .rbrace := fun t ht =>
    kind_ne_of_mem_lookAhead (show t ∈ (lookAhead ts).1 by simp [hfront, ht])
  have hends := fun t => kind_of_lookAhead (t := t) hrule
  change depthAfter _ 0 (lookAhead ts).1 = _ at he
  change ∀ t ∈ (lookAhead ts).2.head?, _ at hstop
  generalize (lookAhead ts).2 = back at happ hstop hends ⊢
  rw [hfront] at happ he
  -- the look ahead counts the parentheses of the property too
  obtain ⟨n, hn⟩ : ∃ n, depthAfter [.lbrace, .semicolon] n value = .ok e := by
    rw [depthAfter_append] at he
    cases hd : depthAfter [.lbrace, .semicolon] 0 property with
    | error kind => simp [hd, Except.bind] at he
    | ok d =>
      refine ⟨nest d colon, ?_⟩
      simpa [hd, Except.bind, depthAfter, hk] using he
  have hbehind : behindValue ts = (splitAtDepth [.semicolon] 0 (value ++ back)).2 := by
    have hcolon : (!endsProperty colon) = false := by simp [endsProperty, hk]
    have hdrop := (takeWhile_append_cons (p := fun t => !endsProperty t)
      (by simpa using hproperty) hcolon (value ++ back)).2
    rw [behindValue, ← happ, List.append_assoc, List.cons_append, hdrop, List.tail_cons]
  rw [hbehind, ← exists_depthAfter_iff 0 hbrace]
  constructor
  · intro h
    have hsplit := splitAtDepth_append [.semicolon] 0 (value ++ back)
    rw [h, List.append_left_inj] at hsplit
    obtain ⟨d, hd, -⟩ := splitAtDepth_spec [.semicolon] 0 (value ++ back)
    exact ⟨d, by rwa [hsplit] at hd⟩
  · rintro ⟨d, hd⟩
    rw [splitAtDepth_append_of_ok hd]
    cases back with
    | nil => rfl
    | cons t back =>
      have hle := depthAfter_le hd hn (Nat.zero_le n)
      rw [splitAtDepth, if_pos]
      rcases hends t rfl with hkind | hkind
      · have hzero : e = 0 := ((hstop t rfl).resolve_left (by simp [hkind])).1
        have hzero : d = 0 := Nat.le_zero.mp (hzero ▸ hle)
        simp [hkind, hzero]
      · simp [hkind]

/-- The readers of items end them where the scans say. -/
structure ReadsAsScanned (ts : List Token) : Prop where
  rule : ∀ size s s' rest, readRule size s ts = .ok (s', rest) → ∃ t, behindPrelude ts = t :: rest
  /-- A rule that is not read is at fault where its prelude ends. -/
  fault : ∀ size s e, readRule size s ts = .error e → ∀ t ∈ (behindPrelude ts).head?,
    e.span = t.spanAt (s.offset + totalSize (ts.takeWhile fun t => !endsPrelude t))
  declaration : ∀ s f frames s' rest, readDeclaration s f frames ts = .ok (s', rest) →
    rest = dropSemicolon (behindValue ts)

theorem readsAsScanned (ts : List Token) : ReadsAsScanned ts where
  rule _ _ _ _ h := behindPrelude_of_readRule h
  fault size s e h t ht := by
    obtain ⟨behind, hbehind⟩ := List.head?_eq_some_iff.mp ht
    unfold readRule at h
    rw [show ts.dropWhile _ = _ from hbehind] at h
    dsimp only at h
    repeat' split at h
    all_goals simp only [Except.error.injEq, reduceCtorEq] at h
    all_goals exact h ▸ rfl
  declaration _ _ _ s' _ h :=
    have ⟨_, _, _, _, _, _, _, hrest⟩ := readDeclaration_ok_iff.mp ⟨s', h⟩
    hrest

/-- An item of a block ends where looking ahead stops exactly when the tokens that looking ahead
passes are shielded from the reader. -/
theorem endsAsSeen_iff (ts : List Token) :
    ReadsAsScanned ts ∧ (EndsAsSeen ts ↔ Shielded ts) := by
  refine ⟨readsAsScanned ts, ?_⟩
  unfold EndsAsSeen Shielded
  cases hrule : startsRule ts with
  | true => exact behindPrelude_eq_iff
  | false =>
    constructor
    · intro h property colon value hfront hne hproperty hk
      have heq : ts = property ++ colon :: (value ++ (lookAhead ts).2) := by
        simpa [hfront] using (lookAhead_append ts).symm
      let opened : Frame := ⟨⟨"", "", ""⟩, 0, .none, #[]⟩
      obtain ⟨s', hread⟩ : ∃ s', readDeclaration {} opened [] ts = .ok (s', _) :=
        readDeclaration_ok_iff.mpr ⟨property, colon, _, heq, hne, hproperty, hk, rfl⟩
      exact (behindValue_eq_iff hrule hfront hproperty hk).mp (h _ _ _ _ _ hread)
    · intro h s f frames s' rest hread
      obtain ⟨property, colon, behind, heq, hne, hproperty, hk, -⟩ :=
        readDeclaration_ok_iff.mp ⟨s', hread⟩
      obtain ⟨value, hfront, -⟩ := exists_value hrule heq hproperty hk
      exact (behindValue_eq_iff hrule hfront hproperty hk).mpr
        (h property colon value hfront hne hproperty hk)

/-- A semicolon in the parentheses of an address ends a statement that looking ahead takes further.
-/
theorem not_endsAsSeen_url :
    let text := ".x\x7b@import url(data:a;b);\x7d"
    ∃ stream, TokenStream.ofText text = .ok stream ∧ ¬EndsAsSeen (stream.tokens.drop 2) ∧
      (Stylesheet.parse text).map (fun _ => ()) = .error (.missingColon "b)" ⟨22, 24⟩) := by
  intro text
  refine ⟨⟨[⟨"", .text, ".x"⟩, ⟨"", .lbrace, "\x7b"⟩, ⟨"", .text, "@import"⟩,
    ⟨" ", .text, "url(data"⟩, ⟨"", .colon, ":"⟩, ⟨"", .text, "a"⟩, ⟨"", .semicolon, ";"⟩,
    ⟨"", .text, "b)"⟩, ⟨"", .semicolon, ";"⟩, ⟨"", .rbrace, "\x7d"⟩], ""⟩, by decide +kernel, ?_,
    by decide +kernel⟩
  unfold EndsAsSeen
  rw [if_pos (by decide +kernel)]
  decide +kernel

end Parser

end StyleBundle
