import StyleBundle.Sheet.Token

/-!
# Slices of a text

A slice is the text between two byte offsets, and there is none when an offset is beyond the end or
inside a character. The tokens of a text tile it up to what trails, so slices from token to token
are the gaps and lexemes between them.
-/

namespace StyleBundle

open Token

/-- The text from one byte offset to another, if both are on character boundaries and in order. -/
def slice? (text : String) (start stop : Nat) : Option String :=
  if h : start ≤ stop ∧ String.Pos.Raw.IsValid text ⟨start⟩ ∧
      String.Pos.Raw.IsValid text ⟨stop⟩ then
    some (text.extract ⟨⟨start⟩, h.2.1⟩ ⟨⟨stop⟩, h.2.2⟩)
  else
    none

theorem slice?_append (a b c : String) :
    slice? (a ++ b ++ c) a.utf8ByteSize (a.utf8ByteSize + b.utf8ByteSize) = some b := by
  have hstart : String.Pos.Raw.IsValid (a ++ b ++ c) ⟨a.utf8ByteSize⟩ :=
    String.Pos.Raw.isValid_iff_exists_append.mpr ⟨a, b ++ c, String.append_assoc, rfl⟩
  have hstop : String.Pos.Raw.IsValid (a ++ b ++ c) ⟨a.utf8ByteSize + b.utf8ByteSize⟩ :=
    String.Pos.Raw.isValid_iff_exists_append.mpr
      ⟨a ++ b, c, rfl, String.Pos.Raw.ext String.utf8ByteSize_append.symm⟩
  rw [slice?, dif_pos ⟨Nat.le_add_right .., hstart, hstop⟩, Option.some.injEq,
    ← String.toByteArray_inj, String.toByteArray_extract]
  have hleft := ByteArray.extract_append_size_left (a := (a ++ b).toByteArray)
    (b := c.toByteArray) (i := a.toByteArray.size)
  rw [String.toByteArray_append, ByteArray.size_append] at hleft
  rw [String.toByteArray_append, String.toByteArray_append]
  exact hleft.trans (ByteArray.extract_append_eq_right rfl rfl)

theorem slice?_eq_some {text a b c : String} {start stop : Nat} (h : text = a ++ b ++ c)
    (hstart : start = a.utf8ByteSize) (hstop : stop = start + b.utf8ByteSize) :
    slice? text start stop = some b := by
  subst h hstop hstart
  exact slice?_append a b c

theorem exists_append_of_le {a b c d : String} (h : a ++ b = c ++ d)
    (hle : a.utf8ByteSize ≤ c.utf8ByteSize) : ∃ m, c = a ++ m ∧ b = m ++ d := by
  have hchars := congrArg String.toList h
  rw [String.toList_append, String.toList_append, List.append_eq_append_iff] at hchars
  obtain ⟨m, hc, hb⟩ | ⟨m, ha, hd⟩ := hchars
  · exact ⟨String.ofList m, String.toList_inj.mp (by simpa using hc),
      String.toList_inj.mp (by simpa using hb)⟩
  · have ha : a = c ++ String.ofList m := String.toList_inj.mp (by simpa using ha)
    rw [ha, String.utf8ByteSize_append] at hle
    have hm : String.ofList m = "" := String.utf8ByteSize_eq_zero_iff.mp (by omega)
    refine ⟨"", by simp [ha, hm], ?_⟩
    rw [ha, hm, String.append_empty] at h
    rw [String.empty_append]
    exact (String.append_right_inj c).mp h

theorem append_inj_of_size {a b c d : String} (h : a ++ b = c ++ d)
    (hsize : a.utf8ByteSize = c.utf8ByteSize) : a = c ∧ b = d := by
  obtain ⟨m, rfl, rfl⟩ := exists_append_of_le h (Nat.le_of_eq hsize)
  rw [String.utf8ByteSize_append] at hsize
  obtain rfl : m = "" := String.utf8ByteSize_eq_zero_iff.mp (by omega)
  simp

theorem slice?_eq_some_iff {text b : String} {start stop : Nat} :
    slice? text start stop = some b ↔ ∃ a c, text = a ++ b ++ c ∧ start = a.utf8ByteSize ∧
      stop = start + b.utf8ByteSize := by
  refine ⟨fun h => ?_, fun ⟨a, c, htext, hstart, hstop⟩ => slice?_eq_some htext hstart hstop⟩
  obtain ⟨hle, hvalid, hvalid'⟩ : start ≤ stop ∧ String.Pos.Raw.IsValid text ⟨start⟩ ∧
      String.Pos.Raw.IsValid text ⟨stop⟩ := by
    unfold slice? at h
    split at h
    · assumption
    · cases h
  obtain ⟨a, x, rfl, ha⟩ := String.Pos.Raw.isValid_iff_exists_append.mp hvalid
  obtain ⟨y, c, htext, hy⟩ := String.Pos.Raw.isValid_iff_exists_append.mp hvalid'
  have hstart : start = a.utf8ByteSize := congrArg String.Pos.Raw.byteIdx ha
  have hstop : stop = y.utf8ByteSize := congrArg String.Pos.Raw.byteIdx hy
  obtain ⟨m, rfl, rfl⟩ := exists_append_of_le htext (by omega)
  rw [String.utf8ByteSize_append, ← hstart] at hstop
  have hslice : slice? (a ++ (m ++ c)) start stop = some m :=
    slice?_eq_some (String.append_assoc ..).symm hstart hstop
  obtain rfl : m = b := Option.some.inj (hslice.symm.trans h)
  exact ⟨a, c, (String.append_assoc ..).symm, hstart, hstop⟩

/-! ## Sizes -/

namespace Token

@[simp]
theorem totalSize_append (ts us : List Token) :
    totalSize (ts ++ us) = totalSize ts + totalSize us := by
  induction ts with
  | nil => simp [totalSize]
  | cons t ts ih => simp [totalSize, ih, Nat.add_assoc]

theorem totalSize_eq_leadingGap_add (ts : List Token) :
    totalSize ts = (leadingGap ts).utf8ByteSize + (innerText ts).utf8ByteSize := by
  rw [← utf8ByteSize_textOf, ← leadingGap_append_innerText, String.utf8ByteSize_append]

theorem leadingGap_append {ts : List Token} (h : ts ≠ []) (us : List Token) :
    leadingGap (ts ++ us) = leadingGap ts := by
  cases ts with
  | nil => exact absurd rfl h
  | cons t ts => rfl

theorem spansFrom_append (offset : Nat) (ts us : List Token) :
    spansFrom offset (ts ++ us) = spansFrom offset ts ++ spansFrom (offset + totalSize ts) us := by
  induction ts generalizing offset with
  | nil => simp [spansFrom, totalSize]
  | cons t ts ih => simp [spansFrom, totalSize, ih, Nat.add_assoc]

theorem length_spansFrom (offset : Nat) (ts : List Token) :
    (spansFrom offset ts).length = ts.length := by
  induction ts generalizing offset with
  | nil => rfl
  | cons t ts ih => simp [spansFrom, ih]

end Token

/-! ## Slices between tokens -/

structure Source where
  text : String
  tokens : List Token

namespace Source

/-- The tokens tile the text from its start; `trailing` is what follows the last one. -/
def Tiled (src : Source) (trailing : String) : Prop :=
  src.text = textOf src.tokens ++ trailing

def span? (src : Source) (i : Nat) : Option Span :=
  (spansFrom 0 src.tokens)[i]?

/-- Where the token before the one with index `i` ends. -/
def stop? (src : Source) : Nat → Option Nat
  | 0 => none
  | i + 1 => (src.span? i).map Span.stop

/-- Where the last of the first `pos` tokens ends, and the start of the text before the first. -/
def consumed? (src : Source) (pos : Nat) : Option Nat :=
  if pos = 0 then some 0 else src.stop? pos

/-- The text of the tokens from index `i` up to index `j`, from the first lexeme to the last, and
its span. -/
def cut? (src : Source) (i j : Nat) : Option (String × Span) := do
  let first ← src.span? i
  let stop ← src.stop? j
  let text ← slice? src.text first.start stop
  return (text, ⟨first.start, stop⟩)

/-- Where the token before the one with index `i` ends in the tiling. -/
def offset (src : Source) (i : Nat) : Nat :=
  totalSize (src.tokens.take i)

variable {src : Source} {trailing : String} {t : Token} {as bs ms ps : List Token}
  {i j start stop : Nat}

theorem getElem?_eq (h : src.tokens = as ++ t :: bs) (hi : i = as.length) :
    src.tokens[i]? = some t := by
  simp [h, hi]

theorem drop_eq (h : src.tokens = as ++ bs) (hi : i = as.length) : src.tokens.drop i = bs := by
  simp [h, hi]

theorem offset_eq (h : src.tokens = as ++ bs) (hi : i = as.length) :
    src.offset i = totalSize as := by
  simp [offset, h, hi]

theorem span?_eq (h : src.tokens = as ++ t :: bs) (hi : i = as.length) :
    src.span? i = some (t.spanAt (totalSize as)) := by
  rw [hi, span?, h, spansFrom_append, ← length_spansFrom 0 as,
    List.getElem?_append_right (Nat.le_refl _)]
  simp [spansFrom]

theorem stop?_eq (h : src.tokens = as ++ bs) (has : as ≠ []) (hi : i = as.length) :
    src.stop? i = some (totalSize as) := by
  obtain ⟨as, t, rfl⟩ := List.eq_nil_or_concat as |>.resolve_left has
  rw [List.concat_eq_append, List.append_assoc] at h
  rw [List.concat_eq_append, List.length_append] at hi
  rw [hi, List.length_singleton, stop?, span?_eq h rfl]
  simp [spanAt, totalSize]

theorem consumed?_eq (h : src.tokens = as ++ bs) (hi : i = as.length) :
    src.consumed? i = some (totalSize as) := by
  cases as with
  | nil => simp [consumed?, hi, totalSize]
  | cons t as =>
    rw [consumed?, if_neg (by simp [hi])]
    exact stop?_eq h (List.cons_ne_nil t as) hi

theorem slice?_gap (hsrc : src.Tiled trailing) (h : src.tokens = as ++ ps ++ ms ++ bs)
    (hstart : start = totalSize as)
    (hstop : stop = totalSize as + totalSize ps + (leadingGap ms).utf8ByteSize) :
    slice? src.text start stop = some (textOf ps ++ leadingGap ms) := by
  refine slice?_eq_some (a := textOf as) (c := innerText ms ++ textOf bs ++ trailing) ?_ ?_ ?_
  · rw [hsrc, h]
    simp only [textOf_append, ← leadingGap_append_innerText ms, String.append_assoc]
  · rw [hstart, utf8ByteSize_textOf]
  · rw [hstop, hstart, String.utf8ByteSize_append, utf8ByteSize_textOf, Nat.add_assoc]

theorem slice?_rest (hsrc : src.Tiled trailing) (h : src.tokens = as ++ ps)
    (hstart : start = totalSize as) :
    slice? src.text start src.text.utf8ByteSize = some (textOf ps ++ trailing) := by
  refine slice?_eq_some (a := textOf as) (c := "") ?_ ?_ ?_
  · rw [hsrc, h]
    simp [textOf_append, String.append_assoc]
  · rw [hstart, utf8ByteSize_textOf]
  · rw [hsrc, h, hstart]
    simp [utf8ByteSize_textOf, Nat.add_assoc]

theorem cut?_eq (hsrc : src.Tiled trailing) (h : src.tokens = as ++ ms ++ bs) (hms : ms ≠ [])
    (hi : i = as.length) (hj : j = as.length + ms.length) :
    src.cut? i j = some (innerText ms, spanOf (totalSize as) ms) := by
  obtain ⟨m, ms, rfl⟩ := List.exists_cons_of_ne_nil hms
  have h' : src.tokens = as ++ m :: (ms ++ bs) := by simpa using h
  have hfirst := span?_eq h' hi
  have hstop : src.stop? j = some (totalSize (as ++ m :: ms)) :=
    stop?_eq h (by simp) (by rw [hj, List.length_append])
  have hslice : slice? src.text (m.spanAt (totalSize as)).start (totalSize (as ++ m :: ms)) =
      some (innerText (m :: ms)) := by
    refine slice?_eq_some (a := textOf as ++ m.gap) (c := textOf bs ++ trailing) ?_ ?_ ?_
    · rw [hsrc, h]
      simp only [textOf_append, textOf, Token.text, innerText, String.append_assoc]
    · rw [String.utf8ByteSize_append, utf8ByteSize_textOf, spanAt]
    · rw [totalSize_append, totalSize_eq_leadingGap_add (m :: ms), spanAt, leadingGap]
      exact (Nat.add_assoc ..).symm
  simp only [cut?, hfirst, hstop, hslice, Option.bind_eq_bind, Option.bind_some, Option.pure_def]
  simp [spanOf, leadingGap, spanAt]

theorem front_eq (hsrc : src.Tiled trailing) (h : src.tokens = as ++ ps ++ ms ++ bs)
    (hi : i = (as ++ ps).length) (hms : ms ≠ []) :
    ∃ first, src.span? i = some first ∧
      slice? src.text (totalSize as) first.start = some (textOf ps ++ leadingGap ms) ∧
      src.cut? i (i + ms.length) = some (innerText ms, spanOf (totalSize (as ++ ps)) ms) := by
  have hcut := cut?_eq hsrc h hms hi (show i + ms.length = (as ++ ps).length + ms.length by rw [hi])
  obtain ⟨m, ms, rfl⟩ := List.exists_cons_of_ne_nil hms
  have h' : src.tokens = as ++ ps ++ m :: (ms ++ bs) := by simpa using h
  refine ⟨_, span?_eq h' hi, slice?_gap hsrc h rfl ?_, hcut⟩
  rw [spanAt, totalSize_append, leadingGap]

theorem cut?_of_le (hsrc : src.Tiled trailing) (h : src.tokens = as ++ ms ++ bs) (hms : ms ≠ [])
    (hi : i = as.length) (hj : as.length + ms.length ≤ j) (hle : j ≤ src.tokens.length) :
    ∃ text, src.cut? i j =
      some (text, ⟨totalSize as + (leadingGap ms).utf8ByteSize, src.offset j⟩) := by
  obtain ⟨n, rfl⟩ := Nat.exists_eq_add_of_le hj
  have hn : n ≤ bs.length := by
    rw [h, List.length_append, List.length_append] at hle
    omega
  have h' : src.tokens = as ++ (ms ++ bs.take n) ++ bs.drop n := by simp [h]
  have hlen : as.length + ms.length + n = as.length + (ms ++ bs.take n).length := by
    simp [hn, Nat.add_assoc]
  refine ⟨innerText (ms ++ bs.take n), (cut?_eq hsrc h' (by simp [hms]) hi hlen).trans ?_⟩
  rw [offset_eq h' (hlen.trans List.length_append.symm), spanOf, leadingGap_append hms,
    totalSize_append as]

end Source

end StyleBundle
