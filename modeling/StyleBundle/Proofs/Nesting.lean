import StyleBundle.Proofs.FaultSpans
import StyleBundle.Proofs.NodeSpans

/-!
# Braces and blocks

Read in order, the braces of a text open and close the blocks of its tree, and each token is as deep
in braces as in blocks. Only an opening brace that stands in a declaration opens nothing: looking
ahead passes it in parentheses and the declaration takes it in, while a closing brace ends every
declaration. So a text may be read although its braces do not pair, and the braces pair exactly when
no declaration holds one.
-/

namespace StyleBundle

open Token StyleBundle.Parser

/-! ## The nodes of a tree -/

mutual

def BodyItem.nodes : BodyItem → List BodyItem
  | .declaration d => [.declaration d]
  | .rule r => .rule r :: r.innerNodes

/-- All items in the block of a rule, at any depth. -/
def PlainRule.innerNodes : PlainRule → List BodyItem
  | .statement .. => []
  | .block _ items _ _ => itemNodes items

def itemNodes : List BodyItem → List BodyItem
  | [] => []
  | i :: is => i.nodes ++ itemNodes is

end

def ruleNodes (rs : List PlainRule) : List BodyItem :=
  itemNodes (rs.map .rule)

instance (outer inner : Span) : Decidable (outer.Within inner) :=
  inferInstanceAs (Decidable (_ ∧ _))

namespace BodyItem

/-- Whether the span lies between the braces of the item. -/
def Surrounds (s : Span) : BodyItem → Prop
  | .declaration _ => False
  | .rule r => r.inside.Within s

/-- Whether the item is a declaration that the span lies in. -/
def Declares (s : Span) : BodyItem → Prop
  | .declaration d => d.span.Within s
  | .rule _ => False

instance (s : Span) : DecidablePred (Surrounds s)
  | .declaration _ => inferInstanceAs (Decidable False)
  | .rule r => inferInstanceAs (Decidable (r.inside.Within s))

instance (s : Span) : DecidablePred (Declares s)
  | .declaration d => inferInstanceAs (Decidable (d.span.Within s))
  | .rule _ => inferInstanceAs (Decidable False)

end BodyItem

def depthIn (nodes : List BodyItem) (s : Span) : Nat :=
  nodes.countP fun i => i.Surrounds s

def InDeclaration (nodes : List BodyItem) (s : Span) : Prop :=
  ∃ i ∈ nodes, i.Declares s

instance (nodes : List BodyItem) (s : Span) : Decidable (InDeclaration nodes s) :=
  List.decidableBEx _ _

/-! ## Braces that balance -/

/-- The number of opening braces, of those that `Opens` holds of. -/
def openings (Opens : PlacedToken → Prop) [DecidablePred Opens] (ps : List PlacedToken) : Nat :=
  ps.countP fun p => p.kind = .lbrace ∧ Opens p

def closings (ps : List PlacedToken) : Nat :=
  ps.countP fun p => p.kind = .rbrace

section Counts

variable (Opens : PlacedToken → Prop) [DecidablePred Opens] (p : PlacedToken)
  (ps qs : List PlacedToken)

theorem openings_append :
    openings Opens (ps ++ qs) = openings Opens ps + openings Opens qs :=
  List.countP_append

theorem openings_cons : openings Opens (p :: ps) =
    openings Opens ps + if p.kind = .lbrace ∧ Opens p then 1 else 0 := by
  simp only [openings, List.countP_cons, decide_eq_true_eq]

theorem closings_cons :
    closings (p :: ps) = closings ps + if p.kind = .rbrace then 1 else 0 := by
  simp only [closings, List.countP_cons, decide_eq_true_eq]

end Counts

/-- The braces pair, an opening brace counting when `Opens` holds of it, and each token stands in as
many braces as there are blocks around it. -/
structure Balances (nodes : List BodyItem) (Opens : PlacedToken → Prop) [DecidablePred Opens]
    (ps : List PlacedToken) : Prop where
  front_le : ∀ front behind, ps = front ++ behind → closings front ≤ openings Opens front
  total : openings Opens ps = closings ps
  depth : ∀ front p behind, ps = front ++ p :: behind →
    depthIn nodes p.span + closings (front ++ [p]) = openings Opens front

/-! ## One token after the other -/

/-- From `n` open blocks on the tokens lead to `m` open blocks. In front of each token as many are
open as are around it: `base` blocks, and those among the nodes. -/
inductive Tracks (nodes : List BodyItem) (base : Nat) : Nat → List PlacedToken → Nat → Prop
  | nil {n : Nat} : Tracks nodes base n [] n
  | enter {n m : Nat} {p : PlacedToken} {ps : List PlacedToken} : p.kind = .lbrace →
      ¬InDeclaration nodes p.span → n = base + depthIn nodes p.span →
      Tracks nodes base (n + 1) ps m → Tracks nodes base n (p :: ps) m
  | leave {n m : Nat} {p : PlacedToken} {ps : List PlacedToken} : p.kind = .rbrace →
      n = base + depthIn nodes p.span →
      Tracks nodes base n ps m → Tracks nodes base (n + 1) (p :: ps) m
  | stay {n m : Nat} {p : PlacedToken} {ps : List PlacedToken} : p.kind ≠ .rbrace →
      (p.kind = .lbrace → InDeclaration nodes p.span) → n = base + depthIn nodes p.span →
      Tracks nodes base n ps m → Tracks nodes base n (p :: ps) m

namespace Tracks

variable {nodes nodes' : List BodyItem} {base base' n m k : Nat} {ps qs : List PlacedToken}

theorem append (h : Tracks nodes base n ps m) (h' : Tracks nodes base m qs k) :
    Tracks nodes base n (ps ++ qs) k := by
  induction h with
  | nil => exact h'
  | enter hk hd hn _ ih => exact .enter hk hd hn (ih h')
  | leave hk hn _ ih => exact .leave hk hn (ih h')
  | stay hk hd hn _ ih => exact .stay hk hd hn (ih h')

theorem congr (h : Tracks nodes base n ps m)
    (hdepth : ∀ p ∈ ps, base' + depthIn nodes' p.span = base + depthIn nodes p.span)
    (hdecl : ∀ p ∈ ps, InDeclaration nodes' p.span ↔ InDeclaration nodes p.span) :
    Tracks nodes' base' n ps m := by
  induction h with
  | nil => exact .nil
  | enter hk hd hn _ ih =>
    simp only [List.forall_mem_cons] at hdepth hdecl
    exact .enter hk (mt hdecl.1.mp hd) (hn.trans hdepth.1.symm) (ih hdepth.2 hdecl.2)
  | leave hk hn _ ih =>
    simp only [List.forall_mem_cons] at hdepth hdecl
    exact .leave hk (hn.trans hdepth.1.symm) (ih hdepth.2 hdecl.2)
  | stay hk hd hn _ ih =>
    simp only [List.forall_mem_cons] at hdepth hdecl
    exact .stay hk (hdecl.1.mpr ∘ hd) (hn.trans hdepth.1.symm) (ih hdepth.2 hdecl.2)

theorem of_stay (hk : ∀ p ∈ ps, p.kind ≠ .rbrace)
    (hd : ∀ p ∈ ps, p.kind = .lbrace → InDeclaration nodes p.span)
    (hn : ∀ p ∈ ps, n = base + depthIn nodes p.span) : Tracks nodes base n ps n := by
  induction ps with
  | nil => exact .nil
  | cons p ps ih =>
    simp only [List.forall_mem_cons] at hk hd hn
    exact .stay hk.1 hd.1 hn.1 (ih hk.2 hd.2 hn.2)

theorem depth_eq (h : Tracks nodes base n ps m) {front behind : List PlacedToken} {p : PlacedToken}
    (heq : ps = front ++ p :: behind) : base + depthIn nodes p.span + closings (front ++ [p]) =
      n + openings (fun p => ¬InDeclaration nodes p.span) front := by
  induction h generalizing front with
  | nil => simp at heq
  | enter hk hd hn _ ih =>
    rcases front with _ | ⟨q, front⟩ <;> cases heq
    · simp [closings, openings, hk, hn]
    · have := ih rfl
      rw [List.cons_append, closings_cons, openings_cons, if_neg (by simp [hk]), if_pos ⟨hk, hd⟩]
      omega
  | leave hk hn _ ih =>
    rcases front with _ | ⟨q, front⟩ <;> cases heq
    · simp [closings, openings, hk, hn]
    · have := ih rfl
      rw [List.cons_append, closings_cons, openings_cons, if_pos hk, if_neg (by simp [hk])]
      omega
  | stay hk hd hn _ ih =>
    rcases front with _ | ⟨q, front⟩ <;> cases heq
    · simp [closings, openings, hk, hn]
    · rw [List.cons_append, closings_cons, openings_cons, if_neg hk, if_neg fun h => h.2 (hd h.1)]
      exact ih rfl

theorem total_eq (h : Tracks nodes base n ps m) :
    n + openings (fun p => ¬InDeclaration nodes p.span) ps = m + closings ps := by
  induction h with
  | nil => rfl
  | enter hk hd hn _ ih =>
    rw [closings_cons, openings_cons, if_pos ⟨hk, hd⟩, if_neg (by simp [hk])]
    omega
  | leave hk hn _ ih =>
    rw [closings_cons, openings_cons, if_pos hk, if_neg (by simp [hk])]
    omega
  | stay hk hd hn _ ih =>
    rw [closings_cons, openings_cons, if_neg hk, if_neg fun h => h.2 (hd h.1)]
    exact ih

end Tracks

/-! ## Stretches of a text -/

section Nests

variable {nodes nodes' : List BodyItem} {base a b c : Nat} {ps qs : List PlacedToken}
  {s stretch : Span} {i : BodyItem}

/-- The tokens of a stretch, with `base` blocks around it, track the nodes that stand in it. -/
structure Nests (stretch : Span) (base : Nat) (ps : List PlacedToken) (nodes : List BodyItem) :
    Prop where
  tracks : Tracks nodes base base ps base
  tokens : ∀ p ∈ ps, stretch.Within p.span ∧ p.span.start < p.span.stop
  nodes : ∀ i ∈ nodes, stretch.Within i.span

theorem BodyItem.Surrounds.within (h : i.Surrounds s) (hs : s.start < s.stop) :
    i.span.Within s := by
  cases i with
  | declaration => cases h
  | rule r =>
    obtain ⟨hstart, hstop⟩ := h
    cases r <;> simp only [PlainRule.inside] at hstart hstop <;> constructor <;>
      simp only [BodyItem.span, PlainRule.span] <;> omega

theorem BodyItem.Declares.within (h : i.Declares s) : i.span.Within s := by
  cases i with
  | declaration => exact h
  | rule => cases h

/-- Nodes say nothing about what lies in none of them. -/
theorem outside_of_not_within (hs : s.start < s.stop) (h : ∀ i ∈ nodes, ¬i.span.Within s) :
    depthIn nodes s = 0 ∧ ¬InDeclaration nodes s := by
  constructor
  · refine List.countP_eq_zero.mpr fun i hi => ?_
    simpa using fun hsurrounds => h i hi (BodyItem.Surrounds.within hsurrounds hs)
  · rintro ⟨i, hi, hdeclares⟩
    exact h i hi hdeclares.within

theorem depthIn_append (nodes nodes' : List BodyItem) (s : Span) :
    depthIn (nodes ++ nodes') s = depthIn nodes s + depthIn nodes' s :=
  List.countP_append

theorem inDeclaration_append :
    InDeclaration (nodes ++ nodes') s ↔ InDeclaration nodes s ∨ InDeclaration nodes' s := by
  simp only [InDeclaration, List.mem_append, or_and_right, exists_or]

namespace Nests

theorem outside (h : Nests stretch base ps nodes) (hs : s.start < s.stop)
    (hout : s.stop ≤ stretch.start ∨ stretch.stop ≤ s.start) :
    depthIn nodes s = 0 ∧ ¬InDeclaration nodes s := by
  refine outside_of_not_within hs fun i hi hwithin => ?_
  obtain ⟨hstart, hstop⟩ := h.nodes i hi
  obtain ⟨hstart', hstop'⟩ := hwithin
  omega

theorem mono (h : Nests stretch base ps nodes) (wider : Span)
    (hstart : wider.start ≤ stretch.start) (hstop : stretch.stop ≤ wider.stop) :
    Nests wider base ps nodes := by
  have hwithin {s : Span} (hs : stretch.Within s) : wider.Within s :=
    ⟨Nat.le_trans hstart hs.1, Nat.le_trans hs.2 hstop⟩
  exact ⟨h.tracks, fun p hp => ⟨hwithin (h.tokens p hp).1, (h.tokens p hp).2⟩,
    fun i hi => hwithin (h.nodes i hi)⟩

theorem append (h : Nests ⟨a, b⟩ base ps nodes) (h' : Nests ⟨b, c⟩ base qs nodes') (hab : a ≤ b)
    (hbc : b ≤ c) : Nests ⟨a, c⟩ base (ps ++ qs) (nodes ++ nodes') := by
  have hps : ∀ p ∈ ps, depthIn nodes' p.span = 0 ∧ ¬InDeclaration nodes' p.span := fun p hp =>
    h'.outside (h.tokens p hp).2 (.inl (h.tokens p hp).1.2)
  have hqs : ∀ p ∈ qs, depthIn nodes p.span = 0 ∧ ¬InDeclaration nodes p.span := fun p hp =>
    h.outside (h'.tokens p hp).2 (.inr (h'.tokens p hp).1.1)
  have hleft := h.mono ⟨a, c⟩ (Nat.le_refl _) hbc
  have hright := h'.mono ⟨a, c⟩ hab (Nat.le_refl _)
  refine ⟨(h.tracks.congr (fun p hp => ?_) fun p hp => ?_).append
    (h'.tracks.congr (fun p hp => ?_) fun p hp => ?_), fun p hp => ?_, fun i hi => ?_⟩
  · rw [depthIn_append, (hps p hp).1, Nat.add_zero]
  · rw [inDeclaration_append, or_iff_left (hps p hp).2]
  · rw [depthIn_append, (hqs p hp).1, Nat.zero_add]
  · rw [inDeclaration_append, or_iff_right (hqs p hp).2]
  · exact (List.mem_append.mp hp).elim (hleft.tokens p) (hright.tokens p)
  · exact (List.mem_append.mp hi).elim (hleft.nodes i) (hright.nodes i)

variable {r : PlainRule} {p q : PlacedToken}

theorem outside_rule (h : Nests r.inside base ps nodes) (hs : s.start < s.stop)
    (hout : s.stop ≤ r.inside.start ∨ r.inside.stop ≤ s.start) :
    depthIn (.rule r :: nodes) s = 0 ∧ ¬InDeclaration (.rule r :: nodes) s := by
  have hnot : ¬(BodyItem.rule r).Surrounds s := fun ⟨h₁, h₂⟩ => by omega
  simpa [depthIn, InDeclaration, hnot, BodyItem.Declares] using h.outside hs hout

/-- What stands in a block is in one block more than the items of the block tell. -/
theorem inside_rule (hs : r.inside.Within s) :
    depthIn (.rule r :: nodes) s = depthIn nodes s + 1 ∧
      (InDeclaration (.rule r :: nodes) s ↔ InDeclaration nodes s) := by
  have hsurrounds : (BodyItem.rule r).Surrounds s := hs
  simp [depthIn, InDeclaration, hsurrounds, BodyItem.Declares]

/-- The braces of a block with the tokens in front of them and between them. -/
theorem enclose (hfront : Nests ⟨a, b⟩ base ps []) (hinner : Nests r.inside (base + 1) qs nodes)
    (hr : Span.Within ⟨a, c⟩ r.span)
    (hp : p.kind = .lbrace) (hlt : p.span.start < p.span.stop)
    (hopen : Span.Within ⟨b, r.inside.start⟩ p.span) (hle : r.inside.start ≤ r.inside.stop)
    (hq : q.kind = .rbrace) (hlt' : q.span.start < q.span.stop)
    (hclose : Span.Within ⟨r.inside.stop, c⟩ q.span) (hab : a ≤ b) :
    Nests ⟨a, c⟩ base (ps ++ p :: (qs ++ [q])) (.rule r :: nodes) := by
  obtain ⟨hbp, hpr⟩ := hopen
  obtain ⟨hrq, hqc⟩ := hclose
  dsimp only at hbp hpr hrq hqc
  have houtp := hinner.outside_rule hlt (.inl hpr)
  have houtq := hinner.outside_rule hlt' (.inr hrq)
  have houtps : ∀ p ∈ ps, depthIn (.rule r :: nodes) p.span = 0 ∧
      ¬InDeclaration (.rule r :: nodes) p.span := by
    intro p hp
    obtain ⟨⟨-, hb⟩, hlt⟩ := hfront.tokens p hp
    exact hinner.outside_rule hlt (.inl (by dsimp only at hb; omega))
  have hleft := hfront.mono ⟨a, c⟩ (Nat.le_refl a) (by dsimp only; omega)
  have hright := hinner.mono ⟨a, c⟩ (by dsimp only; omega) (by dsimp only; omega)
  refine ⟨?_, fun p' hp' => ?_, fun i hi => ?_⟩
  · have htracks := hfront.tracks.congr
      (fun p hp => by rw [(houtps p hp).1]; rfl)
      (fun p hp => iff_of_false (houtps p hp).2 (by simp [InDeclaration]))
    have htracks' : Tracks (.rule r :: nodes) base (base + 1) qs (base + 1) := by
      refine hinner.tracks.congr (fun p hp => ?_) fun p hp => (inside_rule (hinner.tokens p hp).1).2
      rw [(inside_rule (hinner.tokens p hp).1).1]
      omega
    exact htracks.append (.enter hp houtp.2 (by rw [houtp.1]; rfl)
      (htracks'.append (.leave hq (by rw [houtq.1]; rfl) .nil)))
  · simp only [List.mem_append, List.mem_cons, List.not_mem_nil, or_false] at hp'
    rcases hp' with hp' | rfl | hp' | rfl
    · exact hleft.tokens p' hp'
    · exact ⟨⟨by dsimp only; omega, by dsimp only; omega⟩, hlt⟩
    · exact hright.tokens p' hp'
    · exact ⟨⟨by dsimp only; omega, hqc⟩, hlt'⟩
  · rcases List.mem_cons.mp hi with rfl | hi
    · exact hr
    · exact hright.nodes i hi

end Nests

end Nests

/-! ## Layouts -/

section Layouts

variable {base offset : Nat} {ts : List Token} {p : PlacedToken}

/-- A token of a text: punctuation has its lexeme, and no lexeme is empty. -/
structure Token.Solid (t : Token) : Prop where
  proper : t.Proper
  pos : 0 < t.lexeme.utf8ByteSize

theorem exists_token_of_mem_placed (h : p ∈ placed offset ts) :
    ∃ t ∈ ts, p.span.stop = p.span.start + t.lexeme.utf8ByteSize := by
  induction ts generalizing offset with
  | nil => cases h
  | cons t ts ih =>
    rcases List.mem_cons.mp h with rfl | h
    · exact ⟨t, List.mem_cons_self, by simp [spanAt, size, Nat.add_assoc]⟩
    · obtain ⟨u, hu, hp⟩ := ih h
      exact ⟨u, List.mem_cons_of_mem t hu, hp⟩

theorem start_lt_of_mem_placed (hts : ∀ t ∈ ts, t.Solid) (h : p ∈ placed offset ts) :
    p.span.start < p.span.stop := by
  obtain ⟨t, ht, hstop⟩ := exists_token_of_mem_placed h
  have := (hts t ht).pos
  omega

/-- A stretch without blocks, in which every opening brace stands in a declaration. -/
theorem nests_of_stay {nodes : List BodyItem} (hts : ∀ t ∈ ts, t.Solid)
    (hk : ∀ t ∈ ts, t.kind ≠ .rbrace)
    (hd : ∀ p ∈ placed offset ts, p.kind = .lbrace → InDeclaration nodes p.span)
    (hdepth : ∀ p ∈ placed offset ts, depthIn nodes p.span = 0)
    (hnodes : ∀ i ∈ nodes, Span.Within ⟨offset, offset + totalSize ts⟩ i.span) :
    Nests ⟨offset, offset + totalSize ts⟩ base (placed offset ts) nodes := by
  refine ⟨.of_stay (fun p hp => ?_) hd fun p hp => by rw [hdepth p hp]; rfl, fun p hp => ?_, hnodes⟩
  · exact kind_ne_of_mem_placed hk hp
  · obtain ⟨hstart, hstop⟩ := within_of_mem_placed hp
    exact ⟨⟨Nat.le_trans (Nat.le_add_right _ _) hstart, hstop⟩, start_lt_of_mem_placed hts hp⟩

theorem nests_of_kinds (hts : ∀ t ∈ ts, t.Solid)
    (hk : ∀ t ∈ ts, t.kind ≠ .lbrace ∧ t.kind ≠ .rbrace) :
    Nests ⟨offset, offset + totalSize ts⟩ base (placed offset ts) [] := by
  refine nests_of_stay hts (fun t ht => (hk t ht).2) (fun p hp hlbrace => ?_) (fun _ _ => rfl)
    (by simp)
  exact absurd hlbrace (kind_ne_of_mem_placed (fun t ht => (hk t ht).1) hp)

theorem Strays.kinds (h : Strays ts) : ∀ t ∈ ts, t.kind ≠ .lbrace ∧ t.kind ≠ .rbrace := by
  intro t ht
  simp [h t ht]

theorem DeclarationLayout.Valid.kinds {d : DeclarationLayout} (hv : d.Valid) :
    ∀ t ∈ d.property ++ d.colon :: d.value, t.kind ≠ .rbrace := by
  intro t ht hk
  simp only [List.mem_append, List.mem_cons] at ht
  rcases ht with ht | rfl | ht
  · simpa [endsProperty, hk] using hv.property t ht
  · simp [hv.colon] at hk
  · obtain ⟨depth, hvalue, -⟩ := hv.value
    exact kind_ne_of_depthAfter hvalue ht hk

theorem DeclarationLayout.Valid.stop_kind {d : DeclarationLayout} (hv : d.Valid) :
    ∀ t ∈ d.stop, t.kind = .semicolon := by
  obtain ⟨-, -, hnil | ⟨-, t, hsingle, hk⟩⟩ := hv.value
  · simp [hnil]
  · simpa [hsingle] using hk

theorem HeadLayout.Valid.kinds {h : HeadLayout} {kind : TokenKind} (hv : h.Valid kind) :
    ∀ t ∈ h.strays ++ h.prelude, t.kind ≠ .lbrace ∧ t.kind ≠ .rbrace := by
  intro t ht
  rcases List.mem_append.mp ht with ht | ht
  · exact hv.strays.kinds t ht
  · exact (endsPrelude_eq_false_iff.mp (hv.prelude t ht)).1

/-- A declaration takes in the opening braces between its first token and its last. -/
theorem DeclarationLayout.nests {d : DeclarationLayout} (hv : d.Valid)
    (hts : ∀ t ∈ d.strays ++ d.core, t.Solid) :
    Nests ⟨offset, offset + totalSize (d.strays ++ d.core)⟩ base
      (placed offset (d.strays ++ d.core)) [.declaration (d.tree offset)] := by
  have hcore : d.core = (d.property ++ d.colon :: d.value) ++ d.stop := by simp [core]
  refine nests_of_stay hts (fun t ht => ?_) (fun p hp hk => ?_) (fun p hp => ?_) ?_
  · simp only [hcore, List.mem_append] at ht
    rcases ht with ht | ht | ht
    · exact (hv.strays.kinds t ht).2
    · exact hv.kinds t (List.mem_append.mpr ht)
    · simp [hv.stop_kind t ht]
  · refine ⟨_, List.mem_singleton.mpr rfl, ?_⟩
    rw [hcore, placed_append, placed_append] at hp
    simp only [List.mem_append] at hp
    rcases hp with hp | hp | hp
    · exact absurd hk (kind_ne_of_mem_placed (fun t ht => (hv.strays.kinds t ht).1) hp)
    · exact within_of_mem_placed hp
    · exact absurd hk (kind_ne_of_mem_placed (fun t ht => by simp [hv.stop_kind t ht]) hp)
  · rfl
  · simp only [List.mem_singleton, forall_eq]
    obtain ⟨hstart, -, hend⟩ := hv.bounds (hts _ (by simp [core])).proper offset
    exact ⟨hstart, hend⟩

theorem nests_statement {h : HeadLayout} (hv : (RuleLayout.statement h).Valid)
    (hts : ∀ t ∈ h.strays ++ h.core, t.Solid) :
    Nests ⟨offset, offset + totalSize (h.strays ++ h.core)⟩ base
      (placed offset (h.strays ++ h.core)) [.rule (RuleLayout.tree offset (.statement h))] := by
  have hkinds : ∀ t ∈ h.strays ++ h.core, t.kind ≠ .lbrace ∧ t.kind ≠ .rbrace := by
    intro t ht
    rw [HeadLayout.core, ← List.append_assoc] at ht
    rcases List.mem_append.mp ht with ht | ht
    · exact hv.1.kinds t ht
    · simp [List.mem_singleton.mp ht, hv.1.stop]
  refine nests_of_stay hts (fun t ht => (hkinds t ht).2) (fun p hp hk => ?_) (fun p hp => ?_) ?_
  · exact absurd hk (kind_ne_of_mem_placed (fun t ht => (hkinds t ht).1) hp)
  · have hlt := start_lt_of_mem_placed hts hp
    refine List.countP_eq_zero.mpr ?_
    simp only [List.mem_singleton, forall_eq, decide_eq_true_eq]
    rintro ⟨hstart, hstop⟩
    simp only [RuleLayout.tree, PlainRule.inside] at hstart hstop
    omega
  · simp only [List.mem_singleton, forall_eq]
    have hbounds := RuleLayout.Valid.bounds hv (fun t ht => (hts t ht).proper) offset
    exact ⟨hbounds.1, Nat.le_of_eq hbounds.2.2⟩

theorem RuleLayout.inside_tree {h : HeadLayout} {items : List ItemLayout} {strays : List Token}
    {close : Token} (hv : (block h items strays close).Valid)
    (hproper : ∀ t ∈ (block h items strays close).tokens, t.Proper) (offset : Nat) :
    (tree offset (block h items strays close)).inside =
      ⟨h.stopsAt offset,
        h.stopsAt offset + totalSize (itemTokens items ++ strays) + close.gap.utf8ByteSize⟩ := by
  have hstart := (inside_block hv hproper offset).1
  have hclose := (hproper close (by simp [tokens])) "\x7d" (by simp [hv.2.2.2, TokenKind.lexeme?])
  have hsize : close.size = close.gap.utf8ByteSize + "\x7d".utf8ByteSize := by
    rw [size, hclose]
  have hstop : (tree offset (block h items strays close)).inside.stop =
      h.stopsAt offset + totalSize (itemTokens items ++ strays) + close.gap.utf8ByteSize := by
    simp only [tree, PlainRule.inside, totalSize_append, totalSize, hsize]
    omega
  rw [← hstop, ← hstart]

theorem placed_enclosed (offset : Nat) (ts us : List Token) (t u : Token) :
    placed offset (ts ++ t :: (us ++ [u])) =
      placed offset ts ++ ⟨t.kind, t.lexeme, t.spanAt (offset + totalSize ts)⟩ ::
        (placed (offset + totalSize ts + t.size) us ++
          [⟨u.kind, u.lexeme, u.spanAt (offset + totalSize ts + t.size + totalSize us)⟩]) := by
  rw [placed_append, placed_cons, placed_append]
  rfl

theorem nests_block {h : HeadLayout} {items : List ItemLayout} {strays : List Token}
    {close : Token} (hv : (RuleLayout.block h items strays close).Valid)
    (hts : ∀ t ∈ (RuleLayout.block h items strays close).tokens, t.Solid)
    (hitems : Nests ⟨h.stopsAt offset, h.stopsAt offset + totalSize (itemTokens items)⟩ (base + 1)
      (placed (h.stopsAt offset) (itemTokens items))
      (itemNodes (itemTrees (h.stopsAt offset) items))) :
    Nests ⟨offset, offset + totalSize (RuleLayout.block h items strays close).tokens⟩ base
      (placed offset (RuleLayout.block h items strays close).tokens)
      (BodyItem.nodes (.rule (RuleLayout.tree offset (.block h items strays close)))) := by
  have hproper := fun t ht => (hts t ht).proper
  have hinside := RuleLayout.inside_tree hv hproper offset
  have hbounds := RuleLayout.Valid.bounds hv hproper offset
  have htokens : (RuleLayout.block h items strays close).tokens =
      (h.strays ++ h.prelude) ++ h.stop :: ((itemTokens items ++ strays) ++ [close]) := by
    simp [RuleLayout.tokens, HeadLayout.core]
  rw [htokens] at hts hbounds ⊢
  have hopen := (hts h.stop (by simp)).pos
  have hclose := (hts close (by simp)).pos
  have hstopsAt : h.stopsAt offset = offset + totalSize (h.strays ++ h.prelude) + h.stop.size := by
    simp [HeadLayout.stopsAt, HeadLayout.core, totalSize, Nat.add_assoc]
  have hfront : Nests ⟨offset, offset + totalSize (h.strays ++ h.prelude)⟩ base
      (placed offset (h.strays ++ h.prelude)) [] :=
    nests_of_kinds (fun t ht => hts t (List.mem_append_left _ ht)) hv.1.kinds
  have hstrays : Nests ⟨h.stopsAt offset + totalSize (itemTokens items),
      h.stopsAt offset + totalSize (itemTokens items) + totalSize strays⟩ (base + 1)
      (placed (h.stopsAt offset + totalSize (itemTokens items)) strays) [] :=
    nests_of_kinds (fun t ht => hts t (by simp [ht])) hv.2.2.1.kinds
  have hinner := (hitems.append hstrays (Nat.le_add_right _ _) (Nat.le_add_right _ _)).mono
    (RuleLayout.tree offset (.block h items strays close)).inside
    (by rw [hinside]) (by rw [hinside, totalSize_append]; dsimp only; omega)
  rw [List.append_nil, ← placed_append] at hinner
  rw [placed_enclosed, ← hstopsAt]
  refine hfront.enclose hinner ⟨hbounds.1, Nat.le_of_eq hbounds.2.2⟩ hv.1.stop ?_ ?_ ?_
    hv.2.2.2 ?_ ?_ (Nat.le_add_right _ _)
  all_goals
    simp only [Span.Within, hinside, hstopsAt, spanAt, size, totalSize, totalSize_append]
    omega

mutual

theorem ItemLayout.nests (i : ItemLayout) (offset base : Nat) (hv : i.Valid)
    (hts : ∀ t ∈ i.tokens, t.Solid) :
    Nests ⟨offset, offset + totalSize i.tokens⟩ base (placed offset i.tokens)
      (i.tree offset).nodes :=
  match i with
  | .declaration _ => DeclarationLayout.nests hv hts
  | .rule r => r.nests offset base hv hts

theorem RuleLayout.nests (r : RuleLayout) (offset base : Nat) (hv : r.Valid)
    (hts : ∀ t ∈ r.tokens, t.Solid) :
    Nests ⟨offset, offset + totalSize r.tokens⟩ base (placed offset r.tokens)
      (BodyItem.nodes (.rule (r.tree offset))) :=
  match r with
  | .statement _ => nests_statement hv hts
  | .block h items strays close =>
    nests_block hv hts (nests_itemTrees items (h.stopsAt offset) (base + 1) hv.2.1
      fun t ht => hts t (by simp [RuleLayout.tokens, ht]))

theorem nests_itemTrees (is : List ItemLayout) (offset base : Nat) {tail : List Token}
    (hv : ItemsValid is tail) (hts : ∀ t ∈ itemTokens is, t.Solid) :
    Nests ⟨offset, offset + totalSize (itemTokens is)⟩ base (placed offset (itemTokens is))
      (itemNodes (itemTrees offset is)) :=
  match is with
  | [] => ⟨.nil, by simp [placed, itemTokens], by simp [itemTrees, itemNodes]⟩
  | i :: is => by
    have hi := i.nests offset base hv.1 fun t ht => hts t (by simp [itemTokens, ht])
    have his := nests_itemTrees is (offset + totalSize i.tokens) base hv.2.2
      fun t ht => hts t (by simp [itemTokens, ht])
    have hall := hi.append his (Nat.le_add_right _ _) (Nat.le_add_right _ _)
    rwa [← placed_append, Nat.add_assoc, ← totalSize_append] at hall

end

end Layouts

/-! ## Whole texts -/

variable {nodes : List BodyItem} {ps : List PlacedToken} {text : String}

theorem Tracks.balances (h : Tracks nodes 0 0 ps 0) :
    Balances nodes (fun p => ¬InDeclaration nodes p.span) ps := by
  have hdepth : ∀ front p behind, ps = front ++ p :: behind →
      depthIn nodes p.span + closings (front ++ [p]) =
        openings (fun p => ¬InDeclaration nodes p.span) front := by
    intro front p behind heq
    simpa using h.depth_eq heq
  refine ⟨fun front behind heq => ?_, by simpa using h.total_eq, hdepth⟩
  rcases List.eq_nil_or_concat front with rfl | ⟨front, p, rfl⟩
  · exact Nat.le_refl 0
  · rw [List.concat_eq_append] at heq ⊢
    have := hdepth front p behind (by rw [heq, List.append_assoc]; rfl)
    rw [openings_append]
    omega

/-- The braces pair when all of them count exactly when none is left out. -/
theorem Balances.all_iff {Opens : PlacedToken → Prop} [DecidablePred Opens]
    (h : Balances nodes Opens ps) :
    Balances nodes (fun _ => True) ps ↔ ∀ p ∈ ps, p.kind = .lbrace → Opens p := by
  constructor
  · intro hall p hp hk
    by_contra hnot
    obtain ⟨front, behind, rfl⟩ := List.append_of_mem hp
    have htotal := hall.total.trans h.total.symm
    have hle : ∀ qs : List PlacedToken, openings Opens qs ≤ openings (fun _ => True) qs :=
      fun qs => List.countP_mono_left (by simp +contextual)
    have hone : openings (fun _ => True) [p] = 1 := by simp [openings, hk]
    have hzero : openings Opens [p] = 0 := by simp [openings, hnot]
    rw [← List.singleton_append, openings_append, openings_append, openings_append,
      openings_append, hone, hzero] at htotal
    have := hle front
    have := hle behind
    omega
  · intro hall
    have heq : ∀ qs ⊆ ps, openings (fun _ => True) qs = openings Opens qs := by
      intro qs hqs
      refine List.countP_congr fun p hp => ?_
      simpa using hall p (hqs hp)
    refine ⟨fun front behind hsplit => ?_, ?_, fun front p behind hsplit => ?_⟩
    · rw [heq front (by simp [hsplit])]
      exact h.front_le front behind hsplit
    · rw [heq ps (List.Subset.refl ps), h.total]
    · rw [heq front (by simp [hsplit])]
      exact h.depth front p behind hsplit

theorem nests_plainTrees (rs : List RuleLayout) (offset : Nat) (hv : ∀ r ∈ rs, r.Valid)
    (hts : ∀ t ∈ ruleTokens rs, t.Solid) :
    Nests ⟨offset, offset + totalSize (ruleTokens rs)⟩ 0 (placed offset (ruleTokens rs))
      (ruleNodes (plainTrees offset rs)) := by
  induction rs generalizing offset with
  | nil =>
    exact ⟨.nil, by simp [placed, ruleTokens], by simp [plainTrees, ruleNodes, itemNodes]⟩
  | cons r rs ih =>
    rw [ruleTokens_cons] at hts ⊢
    have hr := r.nests offset 0 (hv r List.mem_cons_self)
      fun t ht => hts t (List.mem_append_left _ ht)
    have hrs := ih (offset + totalSize r.tokens) (fun q hq => hv q (List.mem_cons_of_mem r hq))
      fun t ht => hts t (List.mem_append_right _ ht)
    have hall := hr.append hrs (Nat.le_add_right _ _) (Nat.le_add_right _ _)
    rwa [← placed_append, Nat.add_assoc, ← totalSize_append] at hall

theorem exists_nests_ruleTrees (rs : List RuleLayout) (a b : String) (hv : ∀ r ∈ rs, r.Valid)
    (hts : ∀ t ∈ ruleTokens rs, t.Solid) (htext : text = a ++ textOf (ruleTokens rs) ++ b) :
    ∃ qs : List PlainRule, ruleTrees a.utf8ByteSize rs = qs.map PlainRule.classify ∧
      (∀ q ∈ qs, q.Faithful text) ∧
      Nests ⟨a.utf8ByteSize, a.utf8ByteSize + totalSize (ruleTokens rs)⟩ 0
        (placed a.utf8ByteSize (ruleTokens rs)) (ruleNodes qs) :=
  ⟨plainTrees a.utf8ByteSize rs, ruleTrees_eq_map _ rs,
    faithful_plainTrees rs a hv (fun t ht => (hts t ht).proper) htext,
    nests_plainTrees rs a.utf8ByteSize hv hts⟩

theorem TokenStream.Tiles.solid {stream : TokenStream} (h : stream.Tiles) :
    ∀ t ∈ stream.tokens, t.Solid := by
  intro t ht
  refine ⟨proper_of_ofText (ofText_eq_ok_iff.mpr ⟨rfl, h⟩) t ht, ?_⟩
  exact Nat.pos_of_ne_zero (mt String.utf8ByteSize_eq_zero_iff.mp (h.whole t ht).lexeme_ne)

namespace Stylesheet

/-- The tokens of the text and its top-level rules as they stand in it, before directives are told
apart. -/
structure ReadFrom (text : String) (sheet : Stylesheet) (ps : List PlacedToken)
    (rs : List PlainRule) : Prop where
  tokens : lex text = .ok ps
  rules : sheet.rules = rs.map PlainRule.classify
  faithful : ∀ r ∈ rs, r.Faithful text

/-- The braces of a text that is read nest as the blocks of its rules do, where an opening brace
counts when it stands in no declaration. All braces pair, and nest as the blocks do, exactly when no
opening brace stands in a declaration. -/
theorem parse_balances (text : String) (sheet : Stylesheet) (h : parse text = .ok sheet) :
    ∃ ps rs, sheet.ReadFrom text ps rs ∧
      Balances (ruleNodes rs) (fun p => ¬InDeclaration (ruleNodes rs) p.span) ps ∧
      (Balances (ruleNodes rs) (fun _ => True) ps ↔
        ∀ p ∈ ps, p.kind = .lbrace → ¬InDeclaration (ruleNodes rs) p.span) := by
  obtain ⟨l, hl, htiles, htext, rfl⟩ := parse_eq_ok_iff.mp h
  have hsolid := htiles.solid
  have hrules : text = "" ++ textOf (ruleTokens l.rules) ++ (textOf l.strays ++ l.trailing) := by
    rw [← htext, TokenStream.text, SheetLayout.stream, SheetLayout.tokens, textOf_append,
      String.empty_append, String.append_assoc]
  obtain ⟨rs, htrees, hfaithful, hnests⟩ := exists_nests_ruleTrees l.rules "" _ hl.rules
    (fun t ht => hsolid t (List.mem_append_left _ ht)) hrules
  have hstrays : Nests ⟨totalSize (ruleTokens l.rules), totalSize (ruleTokens l.rules) +
      totalSize l.strays⟩ 0 (placed (totalSize (ruleTokens l.rules)) l.strays) [] :=
    nests_of_kinds (fun t ht => hsolid t (List.mem_append_right _ ht)) hl.strays.kinds
  rw [String.utf8ByteSize_empty, Nat.zero_add] at hnests
  have hall := hnests.append hstrays (Nat.zero_le _) (Nat.le_add_right _ _)
  rw [List.append_nil, ← Nat.zero_add (totalSize (ruleTokens l.rules)), ← placed_append] at hall
  have hlex : lex text = .ok (placed 0 l.stream.tokens) :=
    lex_eq_ok_iff.mpr ⟨l.stream, TokenStream.ofText_eq_ok_iff.mpr ⟨htext, htiles⟩, rfl⟩
  have hbalances := hall.tracks.balances
  exact ⟨_, rs, ⟨hlex, htrees, hfaithful⟩, hbalances, hbalances.all_iff⟩

/-- A sheet with a nested rule, and a declaration that an opening brace stands in. -/
theorem parse_balances_nested :
    let text := "@a\x7b.b\x7bc:d\x7d e:(\x7b;\x7d"
    ∃ sheet, parse text = .ok sheet ∧ ∃ ps rs, sheet.ReadFrom text ps rs ∧
      Balances (ruleNodes rs) (fun p => ¬InDeclaration (ruleNodes rs) p.span) ps ∧
      (Balances (ruleNodes rs) (fun _ => True) ps ↔
        ∀ p ∈ ps, p.kind = .lbrace → ¬InDeclaration (ruleNodes rs) p.span) := by
  intro text
  have h : parse text = .ok ((parse text).toOption.get (by decide +kernel)) :=
    toOption_parse_eq_some_iff.mp (Option.some_get _).symm
  exact ⟨_, h, parse_balances text _ h⟩

/-- The second opening brace is never closed, and the text is read. -/
theorem not_balances_unclosed :
    let text := ".a\x7bb:(\x7b\x7d"
    (∃ sheet, parse text = .ok sheet) ∧ ∀ (sheet : Stylesheet) ps rs, sheet.ReadFrom text ps rs →
      ¬Balances (ruleNodes rs) (fun _ => True) ps := by
  intro text
  have h : parse text = .ok ((parse text).toOption.get (by decide +kernel)) :=
    toOption_parse_eq_some_iff.mp (Option.some_get _).symm
  refine ⟨⟨_, h⟩, fun sheet ps rs hread hbalances => ?_⟩
  have hcounts : (lex text).toOption.map (fun ps => (openings (fun _ => True) ps, closings ps)) =
      some (2, 1) := by decide +kernel
  rw [hread.tokens, Except.toOption, Option.map_some, Option.some.injEq, Prod.mk.injEq] at hcounts
  have := hbalances.total
  omega

end Stylesheet

end StyleBundle
