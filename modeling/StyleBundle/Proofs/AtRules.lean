import StyleBundle.Proofs.WholeSymbols

/-!
# Preludes of at-rules

A prelude that starts with `@` is that character, the name, white space and the parameters, one
behind the other and cut in one way only. So the parameters are the end of the prelude, and what
stands in front of them is found by their size. New parameters leave the name as it is: what ends
the name is white space, or a parenthesis, which is no part of a symbol and stays the first
character.
-/

namespace StyleBundle

open Text Segment Scan

theorem span_append {p : Char → Bool} {as bs : List Char} (has : ∀ c ∈ as, p c)
    (hbs : ∀ c ∈ bs.head?, p c = false) :
    (as ++ bs).takeWhile p = as ∧ (as ++ bs).dropWhile p = bs := by
  cases bs with
  | nil =>
    rw [List.append_nil]
    exact ⟨List.takeWhile_eq_self_iff.mpr has, List.dropWhile_eq_nil_iff.mpr has⟩
  | cons c bs =>
    have hc : p c = false := hbs c rfl
    simp [List.takeWhile_append_of_pos has, List.dropWhile_append_of_pos has, hc]

theorem head?_dropWhile_eq_false {p : Char → Bool} {cs : List Char} {c : Char}
    (h : (cs.dropWhile p).head? = some c) : p c = false := by
  have hnot := List.head?_dropWhile_not p cs
  rwa [h] at hnot

namespace AtRule

variable {a : AtRule} {prelude : String} {t : Replacements}

/-! ## The parts of a prelude -/

theorem endsName_of_isWhiteSpace {c : Char} (h : isWhiteSpace c) : endsName c := by
  simp [endsName, h]

/-- The prelude is cut into its parts without loss. -/
structure Splits (a : AtRule) (prelude : String) : Prop where
  text : prelude = "@" ++ a.name ++ a.blank ++ a.params
  name : ∀ c ∈ a.name.toList, endsName c = false
  blank : ∀ c ∈ a.blank.toList, isWhiteSpace c
  params : ∀ c ∈ a.params.toList.head?, isWhiteSpace c = false
  /-- Without white space the name ends at a parenthesis or with the prelude. -/
  seam : a.blank = "" → ∀ c ∈ a.params.toList.head?, c = '('

theorem Splits.endsName_rest (h : a.Splits prelude) :
    ∀ c ∈ (a.blank.toList ++ a.params.toList).head?, endsName c := by
  intro c hc
  cases hblank : a.blank.toList with
  | nil =>
    rw [hblank, List.nil_append] at hc
    have hparenthesis := h.seam (String.toList_eq_nil_iff.mp hblank) c hc
    simp [endsName, hparenthesis]
  | cons d ds =>
    rw [hblank] at hc
    cases hc
    exact endsName_of_isWhiteSpace (h.blank _ (hblank ▸ List.mem_cons_self))

theorem ofPrelude?_eq {name rest : List Char} (htext : prelude.toList = '@' :: (name ++ rest))
    (hname : ∀ c ∈ name, endsName c = false) (hrest : ∀ c ∈ rest.head?, endsName c) :
    ofPrelude? prelude = some {
      name := String.ofList name
      blank := String.ofList (rest.takeWhile isWhiteSpace)
      params := String.ofList (rest.dropWhile isWhiteSpace) } := by
  obtain ⟨htake, hdrop⟩ : (name ++ rest).takeWhile (fun c => !endsName c) = name ∧
      (name ++ rest).dropWhile (fun c => !endsName c) = rest :=
    span_append (fun c hc => by simp [hname c hc]) (fun c hc => by simp [hrest c hc])
  simp only [ofPrelude?, htext, htake, hdrop]

theorem splits_iff : a.Splits prelude ↔ ofPrelude? prelude = some a := by
  constructor
  · intro h
    have htext : prelude.toList =
        '@' :: (a.name.toList ++ (a.blank.toList ++ a.params.toList)) := by
      simp [h.text]
    obtain ⟨htake, hdrop⟩ := span_append h.blank h.params
    rw [ofPrelude?_eq htext h.name h.endsName_rest, htake, hdrop]
    simp only [String.ofList_toList]
  · intro h
    unfold ofPrelude? at h
    split at h
    · next cs hcs =>
      cases h
      refine ⟨?_, fun c hc => ?_, fun c hc => ?_, fun c hc => ?_, fun hblank c hc => ?_⟩
      · rw [← String.toList_inj, hcs]
        simp
      · rw [String.toList_ofList] at hc
        simpa using List.mem_takeWhile_imp hc
      · rw [String.toList_ofList] at hc
        exact List.mem_takeWhile_imp hc
      · rw [String.toList_ofList] at hc
        exact head?_dropWhile_eq_false hc
      · -- What ends the name is the first of the parameters when no white space is there.
        rw [String.toList_ofList] at hc
        have hspan := List.takeWhile_append_dropWhile (p := isWhiteSpace)
          (l := cs.dropWhile fun c => !endsName c)
        rw [String.ofList_eq_empty_iff.mp hblank, List.nil_append] at hspan
        have hends := head?_dropWhile_eq_false (hspan ▸ hc)
        have hspace := head?_dropWhile_eq_false hc
        simpa [endsName, hspace] using hends
    · cases h

theorem exists_splits_iff : (∃ a : AtRule, a.Splits prelude) ↔ prelude.toList.head? = some '@' := by
  constructor
  · rintro ⟨a, h⟩
    rw [h.text]
    simp
  · intro h
    obtain ⟨cs, hcs⟩ := List.head?_eq_some_iff.mp h
    have hsome : (ofPrelude? prelude).isSome := by simp [ofPrelude?, hcs]
    obtain ⟨a, ha⟩ := Option.isSome_iff_exists.mp hsome
    exact ⟨a, splits_iff.mpr ha⟩

/-! ## New parameters -/

theorem head?_substitute {value : String} (h : value.toList.head? = some '(') :
    (substitute t value).toList.head? = some '(' := by
  obtain ⟨cs, hcs⟩ := List.head?_eq_some_iff.mp h
  have hfirst : ofChars value.toList = .other '(' :: ofChars cs := by
    rw [hcs, ofChars, if_neg (by simp [isSymbolChar, isSigil])]
  simp [substitute, hfirst, Segment.substitute]

theorem Splits.exists_substitute (h : a.Splits prelude) (t : Replacements) :
    ∃ b : AtRule, b.Splits { a with params := substitute t a.params }.prelude ∧
      b.name = a.name := by
  have htext : ({ a with params := substitute t a.params } : AtRule).prelude.toList =
      '@' :: (a.name.toList ++ (a.blank.toList ++ (substitute t a.params).toList)) := by
    simp [AtRule.prelude]
  refine ⟨_, splits_iff.mpr (ofPrelude?_eq htext h.name fun c hc => ?_), String.ofList_toList⟩
  cases hblank : a.blank.toList with
  | cons d ds => exact h.endsName_rest c (by simpa [hblank] using hc)
  | nil =>
    rw [hblank, List.nil_append] at hc
    cases hparams : a.params.toList.head? with
    | none =>
      rw [String.toList_eq_nil_iff.mp (List.head?_eq_none_iff.mp hparams)] at hc
      simp [substitute, ofChars] at hc
    | some d =>
      obtain rfl := h.seam (String.toList_eq_nil_iff.mp hblank) d hparams
      rw [head?_substitute hparams] at hc
      cases hc
      rfl

theorem Splits.replaceSymbols_eq (h : a.Splits prelude) (htakes : a.takesSymbols)
    (t : Replacements) :
    replaceSymbols t prelude = { a with params := substitute t a.params }.prelude := by
  simp only [replaceSymbols, splits_iff.mp h, htakes, if_true]

theorem replaceSymbols_eq_self (h : ∀ a : AtRule, a.Splits prelude → a.takesSymbols = false)
    (t : Replacements) : replaceSymbols t prelude = prelude := by
  unfold replaceSymbols
  split
  · next a ha => rw [h a (splits_iff.mpr ha), if_neg (by simp)]
  · rfl

theorem Splits.exists_replaceSymbols (h : a.Splits prelude) (t : Replacements) :
    ∃ b : AtRule, b.Splits (replaceSymbols t prelude) ∧ b.name = a.name := by
  by_cases htakes : a.takesSymbols
  · rw [h.replaceSymbols_eq htakes]
    exact h.exists_substitute t
  · have hsame : replaceSymbols t prelude = prelude := by
      simp only [replaceSymbols, splits_iff.mp h, if_neg htakes]
    rw [hsame]
    exact ⟨a, h, rfl⟩

theorem replaceSymbols_of_isEmpty (h : t.isEmpty) (prelude : String) :
    replaceSymbols t prelude = prelude := by
  by_cases htaken : ∃ a : AtRule, a.Splits prelude ∧ a.takesSymbols
  · obtain ⟨a, ha, htakes⟩ := htaken
    rw [ha.replaceSymbols_eq htakes, substitute_of_isEmpty h]
    exact ha.text.symm
  · exact replaceSymbols_eq_self
      (fun a ha => Bool.eq_false_iff.mpr fun htakes => htaken ⟨a, ha, htakes⟩) t

/-! ## Cuts at byte offsets -/

/-- The name and the parameters, if the prelude starts with `@`. The outer none stands for an offset
beyond the end or inside a character. -/
def cut? (prelude : String) : Option (Option (String × String)) :=
  match prelude.toList with
  | '@' :: cs =>
    let rest := String.ofList cs
    if cs.any endsName then do
      let i := byteSize (cs.takeWhile fun c => !endsName c)
      let name ← slice? rest 0 i
      let tail ← slice? rest i rest.utf8ByteSize
      return some (name, String.ofList (trimStart tail.toList))
    else
      return some (rest, "")
  | _ => return none

/-- The prelude with the symbols of its parameters replaced; what stands in front of them is cut out
by the difference of the sizes. -/
def replaceSliced? (t : Replacements) (prelude : String) : Option String := do
  match ← cut? prelude with
  | some (name, params) =>
    if (name = "media" || name = "custom-media") && params ≠ "" then
      let head ← slice? prelude 0 (prelude.utf8ByteSize - params.utf8ByteSize)
      return head ++ substitute t params
    else
      return prelude
  | none => return prelude

theorem cut?_eq (prelude : String) :
    cut? prelude = some ((ofPrelude? prelude).map fun a => (a.name, a.params)) := by
  by_cases hat : ∃ cs, prelude.toList = '@' :: cs
  · obtain ⟨cs, hcs⟩ := hat
    have hspan : (String.ofList cs).toList =
        (cs.takeWhile fun c => !endsName c) ++ cs.dropWhile fun c => !endsName c := by
      rw [String.toList_ofList, List.takeWhile_append_dropWhile]
    simp only [cut?, ofPrelude?, hcs]
    by_cases hany : cs.any endsName
    · have hname : slice? (String.ofList cs) 0 (byteSize (cs.takeWhile fun c => !endsName c)) =
          some (String.ofList (cs.takeWhile fun c => !endsName c)) :=
        slice?_chars (show (String.ofList cs).toList = [] ++ _ ++ _ from hspan) rfl (by simp)
      have htail : slice? (String.ofList cs) (byteSize (cs.takeWhile fun c => !endsName c))
          (String.ofList cs).utf8ByteSize =
          some (String.ofList (cs.dropWhile fun c => !endsName c)) :=
        slice?_chars (show (String.ofList cs).toList = _ ++ _ ++ [] by
          rw [List.append_nil]
          exact hspan) rfl (by rw [← byteSize_append, ← hspan, String.toList_ofList]; rfl)
      simp [hany, hname, htail, trimStart]
    · -- Without an end the name is all that follows.
      have hnone : ∀ c ∈ cs, !endsName c := by simpa using hany
      have htake := List.takeWhile_eq_self_iff.mpr hnone
      have hdrop := List.dropWhile_eq_nil_iff.mpr hnone
      simp [hany, htake, hdrop]
  · have hcut : cut? prelude = some none := by
      unfold cut?
      split
      · next cs hcs => exact absurd ⟨cs, hcs⟩ hat
      · rfl
    have hparts : ofPrelude? prelude = none := by
      unfold ofPrelude?
      split
      · next cs hcs => exact absurd ⟨cs, hcs⟩ hat
      · rfl
    rw [hcut, hparts, Option.map_none]

theorem replaceSliced?_eq (t : Replacements) (prelude : String) :
    replaceSliced? t prelude = some (replaceSymbols t prelude) := by
  rw [replaceSliced?, cut?_eq, replaceSymbols]
  cases ha : ofPrelude? prelude with
  | none => rfl
  | some a =>
    have htext := (splits_iff.mpr ha).text
    have hhead : slice? prelude 0 (prelude.utf8ByteSize - a.params.utf8ByteSize) =
        some ("@" ++ a.name ++ a.blank) :=
      slice?_eq_some (a := "") (by rw [String.empty_append]; exact htext) rfl
        (by rw [htext, String.utf8ByteSize_append]; simp)
    have htakes : (a.name = "media" || a.name = "custom-media") = a.takesSymbols := rfl
    by_cases hparams : a.params = ""
    · -- Nothing is replaced where there are no parameters.
      have hsame : { a with params := substitute t "" }.prelude = prelude := by
        simp [AtRule.prelude, hparams, htext, substitute, ofChars]
      simp [hparams, hsame]
    · simp only [Option.bind_eq_bind, Option.bind_some, Option.map_some, htakes, hhead]
      cases a.takesSymbols <;> simp [hparams, AtRule.prelude]

end AtRule

end StyleBundle
