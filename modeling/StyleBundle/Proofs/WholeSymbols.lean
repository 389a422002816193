import Mathlib.Data.List.TakeWhile
import StyleBundle.Sheet.Scan
import StyleBundle.Sheet.Symbols
import StyleBundle.Proofs.Slices

/-!
# Symbols as stretches of bytes

A symbol is a run of symbol bytes that goes on at neither end, together with a sigil directly in
front of it. No two of them overlap, so a text has one list of them, and substitution puts the
replacements in the place of these stretches and keeps the bytes around them. A scan of the bytes
from left to right does the same, and cuts the text at character boundaries only.
-/

namespace StyleBundle

open Segment Scan

/-! ## Bytes -/

def bytes (text : String) : List UInt8 :=
  text.toUTF8.data.toList

def bytesOf (cs : List Char) : List UInt8 :=
  cs.flatMap String.utf8EncodeChar

theorem bytes_eq (text : String) : bytes text = bytesOf text.toList := by
  rw [bytes, String.toUTF8_eq_toByteArray, ← String.utf8Encode_toList, List.utf8Encode,
    List.data_toByteArray, bytesOf]

theorem length_bytes (text : String) : (bytes text).length = text.utf8ByteSize :=
  String.size_toByteArray

theorem length_bytesOf (cs : List Char) : (bytesOf cs).length = byteSize cs := by
  rw [byteSize, ← length_bytes, bytes_eq, String.toList_ofList]

theorem bytesOf_append (as bs : List Char) : bytesOf (as ++ bs) = bytesOf as ++ bytesOf bs :=
  List.flatMap_append

theorem byteSize_append (as bs : List Char) : byteSize (as ++ bs) = byteSize as + byteSize bs := by
  rw [byteSize, String.ofList_append, String.utf8ByteSize_append]
  rfl

theorem byteSize_singleton (c : Char) : byteSize [c] = (String.utf8EncodeChar c).length := by
  rw [← length_bytesOf, bytesOf, List.flatMap_singleton]

theorem byteSize_singleton_pos (c : Char) : 0 < byteSize [c] := by
  rw [byteSize_singleton]
  exact List.length_pos_iff.mpr String.utf8EncodeChar_ne_nil

/-- Whether the byte at an offset is one of a class. -/
def byteIs (p : UInt8 → Bool) (text : String) (i : Nat) : Bool :=
  ((bytes text)[i]?).any p

/-- A class of bytes and a class of characters that hold the same part of ASCII and nothing else. -/
structure AsciiClass (p : UInt8 → Bool) (q : Char → Bool) : Prop where
  ascii : ∀ n < 128, p (UInt8.ofNat n) = q (Char.ofNat n)
  byte : ∀ b, 128 ≤ b.toNat → p b = false
  char : ∀ c : Char, 128 ≤ c.toNat → q c = false

/-- All bytes of a character beyond ASCII are beyond ASCII. -/
theorem le_toNat_of_mem_utf8EncodeChar {c : Char} (hc : 128 ≤ c.toNat) :
    ∀ b ∈ String.utf8EncodeChar c, 128 ≤ b.toNat := by
  have hv : ¬c.val.toNat ≤ 0x7f := Nat.not_le.mpr hc
  unfold String.utf8EncodeChar
  simp only [if_neg hv]
  repeat' split
  all_goals
    simp only [List.forall_mem_cons, UInt8.toNat_ofNat', List.not_mem_nil, false_implies,
      implies_true, and_true]
    omega

theorem utf8EncodeChar_of_lt {c : Char} (hc : c.toNat < 128) :
    String.utf8EncodeChar c = [UInt8.ofNat c.toNat] := by
  have hv : c.val.toNat ≤ 0x7f := Nat.le_of_lt_succ hc
  unfold String.utf8EncodeChar
  simp only [if_pos hv]
  rfl

namespace AsciiClass

variable {p : UInt8 → Bool} {q : Char → Bool} {text : String} {as cs : List Char} {c : Char}

theorem eq (h : AsciiClass p q) {b : UInt8} (hb : b ∈ String.utf8EncodeChar c) : p b = q c := by
  by_cases hc : c.toNat < 128
  · rw [utf8EncodeChar_of_lt hc, List.mem_singleton] at hb
    rw [hb, h.ascii _ hc, Char.ofNat_toNat]
  · have hc := Nat.not_lt.mp hc
    rw [h.byte b (le_toNat_of_mem_utf8EncodeChar hc b hb), h.char c hc]

theorem byteSize_eq_one (h : AsciiClass p q) (hc : q c) : byteSize [c] = 1 := by
  have hlt : c.toNat < 128 :=
    Nat.lt_of_not_le fun hge => by simp [h.char c hge] at hc
  rw [byteSize_singleton, utf8EncodeChar_of_lt hlt, List.length_singleton]

theorem byteIs_eq (h : AsciiClass p q) (htext : text.toList = as ++ c :: cs) {k : Nat}
    (hk : k < byteSize [c]) : byteIs p text (byteSize as + k) = q c := by
  rw [byteSize_singleton] at hk
  have hget : (bytes text)[byteSize as + k]? = some (String.utf8EncodeChar c)[k] := by
    rw [bytes_eq, htext, bytesOf_append, ← length_bytesOf,
      List.getElem?_append_right (Nat.le_add_right _ _), Nat.add_sub_cancel_left, bytesOf,
      List.flatMap_cons, List.getElem?_append_left hk, List.getElem?_eq_getElem hk]
  rw [byteIs, hget, Option.any_some, h.eq (List.getElem_mem hk)]

theorem byteIs_head (h : AsciiClass p q) (htext : text.toList = as ++ cs) :
    byteIs p text (byteSize as) = cs.head?.any q := by
  cases cs with
  | nil =>
    rw [List.append_nil] at htext
    rw [byteIs, bytes_eq, htext, List.getElem?_eq_none (Nat.le_of_eq (length_bytesOf as))]
    rfl
  | cons c cs => exact h.byteIs_eq htext (byteSize_singleton_pos c)

theorem byteSize_eq_length (h : AsciiClass p q) (hcs : ∀ c ∈ cs, q c) :
    byteSize cs = cs.length := by
  induction cs with
  | nil => rfl
  | cons c cs ih =>
    rw [← List.singleton_append, byteSize_append, h.byteSize_eq_one (hcs c List.mem_cons_self),
      ih fun d hd => hcs d (List.mem_cons_of_mem c hd), List.length_append, List.length_singleton]

theorem byteIs_run (h : AsciiClass p q) {run : List Char} (hrun : ∀ c ∈ run, q c)
    (htext : text.toList = as ++ (run ++ cs)) {i : Nat} (hle : byteSize as ≤ i)
    (hlt : i < byteSize as + byteSize run) : byteIs p text i = true := by
  obtain ⟨k, rfl⟩ := Nat.exists_eq_add_of_le hle
  rw [h.byteSize_eq_length hrun] at hlt
  have hk : k < run.length := by omega
  have hsplit : text.toList = (as ++ run.take k) ++ run[k] :: (run.drop (k + 1) ++ cs) := by
    rw [htext, List.append_assoc, ← List.cons_append, ← List.drop_eq_getElem_cons hk,
      ← List.append_assoc (run.take k), List.take_append_drop]
  have hsize : byteSize (as ++ run.take k) = byteSize as + k := by
    rw [byteSize_append, h.byteSize_eq_length fun c hc => hrun c (List.take_subset k run hc),
      List.length_take, Nat.min_eq_left (Nat.le_of_lt hk)]
  have hbyte := h.byteIs_head hsplit
  rw [hsize] at hbyte
  rw [hbyte]
  exact hrun _ (List.getElem_mem hk)

end AsciiClass

/-! ## Symbols -/

/-- The bytes of letters, digits, `_`, `-` and `.`. -/
def isSymbolByte (b : UInt8) : Bool :=
  ('a'.toUInt8 ≤ b && b ≤ 'z'.toUInt8) || ('A'.toUInt8 ≤ b && b ≤ 'Z'.toUInt8) ||
    ('0'.toUInt8 ≤ b && b ≤ '9'.toUInt8) || b = '_'.toUInt8 || b = '-'.toUInt8 || b = '.'.toUInt8

def isSigilByte (b : UInt8) : Bool :=
  b = '$'.toUInt8 || b = '#'.toUInt8

theorem symbolClass : AsciiClass isSymbolByte isSymbolChar where
  ascii := by decide
  byte b hb := by
    have hall : ∀ n < 256, 128 ≤ n → isSymbolByte (UInt8.ofNat n) = false := by decide +kernel
    simpa using hall b.toNat b.toNat_lt hb
  char c hc := by
    have hc' : 128 ≤ c.val.toNat := hc
    delta isSymbolChar Char.isAlphanum Char.isAlpha Char.isUpper Char.isLower Char.isDigit
    simp only [Bool.or_eq_false_iff, Bool.and_eq_false_iff, decide_eq_false_iff_not,
      UInt32.le_iff_toNat_le, ge_iff_le, ← Char.toNat_inj]
    simp
    omega

theorem sigilClass : AsciiClass isSigilByte isSigil where
  ascii := by decide
  byte b hb := by
    have hall : ∀ n < 256, 128 ≤ n → isSigilByte (UInt8.ofNat n) = false := by decide +kernel
    simpa using hall b.toNat b.toNat_lt hb
  char c hc := by
    simp only [isSigil, Bool.or_eq_false_iff, decide_eq_false_iff_not, ← Char.toNat_inj]
    simp
    omega

variable {text : String} {as cs : List Char} {c : Char} {i j k start stop : Nat} {a b : Span}
  {t : Replacements}

theorem not_sigilByte_of_symbolByte {b : UInt8} (h : isSymbolByte b) : isSigilByte b = false := by
  have hall : ∀ n < 256, isSymbolByte (UInt8.ofNat n) → isSigilByte (UInt8.ofNat n) = false := by
    decide +kernel
  simpa using hall b.toNat b.toNat_lt (by simpa using h)

theorem byteIs_sigil_of_symbol (h : byteIs isSymbolByte text i) :
    byteIs isSigilByte text i = false := by
  unfold byteIs at h ⊢
  cases hb : (bytes text)[i]? with
  | none => rfl
  | some b =>
    rw [hb] at h
    exact not_sigilByte_of_symbolByte h

theorem lt_utf8ByteSize_of_byteIs {p : UInt8 → Bool} (h : byteIs p text i) :
    i < text.utf8ByteSize := by
  rw [← length_bytes]
  refine Nat.lt_of_not_le fun hle => ?_
  rw [byteIs, List.getElem?_eq_none hle] at h
  exact absurd h Bool.false_ne_true

/-- The bytes from `start` up to `stop` are all symbol bytes, and the bytes next to them are not. -/
structure IsRun (text : String) (start stop : Nat) : Prop where
  lt : start < stop
  inside : ∀ i, start ≤ i → i < stop → byteIs isSymbolByte text i
  front : ∀ i, i + 1 = start → byteIs isSymbolByte text i = false
  behind : byteIs isSymbolByte text stop = false

/-- The symbols of a text: a run with no sigil in front of it, or a run and the sigil. -/
inductive IsSymbol (text : String) : Span → Prop where
  | bare {start stop : Nat} (run : IsRun text start stop)
      (front : ∀ i, i + 1 = start → byteIs isSigilByte text i = false) : IsSymbol text ⟨start, stop⟩
  | marked {i stop : Nat} (sigil : byteIs isSigilByte text i) (run : IsRun text (i + 1) stop) :
      IsSymbol text ⟨i, stop⟩

theorem IsRun.eq_of_lt {start' stop' : Nat} (h : IsRun text start stop)
    (h' : IsRun text start' stop') (hlt : start < stop') (hlt' : start' < stop) :
    start = start' ∧ stop = stop' := by
  have hstart : ∀ {a b a' b'}, IsRun text a b → IsRun text a' b' → a < b' → ¬a' < a := by
    intro a b a' b' hrun hrun' hab hlt
    have hin := hrun'.inside (a - 1) (by omega) (by omega)
    exact absurd (hrun.front (a - 1) (by omega)) (by simp [hin])
  have hstop : ∀ {a b a' b'}, IsRun text a b → IsRun text a' b' → a' < b → ¬b < b' := by
    intro a b a' b' hrun hrun' hab hlt
    have hin := hrun'.inside b (by omega) hlt
    exact absurd hrun.behind (by simp [hin])
  have h₁ := hstart h h' hlt
  have h₂ := hstart h' h hlt'
  have h₃ := hstop h h' hlt'
  have h₄ := hstop h' h hlt
  omega

/-- A symbol has a run that ends with it and starts with it or one byte behind its start, and it
starts in front of the run exactly when a sigil stands there. -/
theorem IsSymbol.exists_run (h : IsSymbol text a) :
    ∃ start, IsRun text start a.stop ∧
      ((a.start = start ∧ ∀ i, i + 1 = start → byteIs isSigilByte text i = false) ∨
        (a.start + 1 = start ∧ byteIs isSigilByte text a.start)) := by
  cases h with
  | bare run front => exact ⟨_, run, .inl ⟨rfl, front⟩⟩
  | marked sigil run => exact ⟨_, run, .inr ⟨rfl, sigil⟩⟩

theorem IsSymbol.start_lt_stop (h : IsSymbol text a) : a.start < a.stop := by
  obtain ⟨start, run, hstart⟩ := h.exists_run
  have := run.lt
  omega

/-- A run that ends before the run of a symbol ends before the symbol: a sigil is no symbol byte. -/
theorem IsRun.le_start (h : IsRun text start stop) {first : Nat} (hle : stop ≤ first)
    (hfirst : a.start = first ∨ a.start + 1 = first ∧ byteIs isSigilByte text a.start) :
    stop ≤ a.start := by
  obtain hstart | ⟨hstart, hsigil⟩ := hfirst
  · omega
  · refine Nat.le_of_not_lt fun hlt => ?_
    have := h.lt
    have hbyte := byteIs_sigil_of_symbol (h.inside a.start (by omega) hlt)
    exact absurd hsigil (by simp [hbyte])

theorem IsSymbol.eq_or_le (ha : IsSymbol text a) (hb : IsSymbol text b) :
    a = b ∨ a.stop ≤ b.start ∨ b.stop ≤ a.start := by
  obtain ⟨i, runa, hi⟩ := ha.exists_run
  obtain ⟨j, runb, hj⟩ := hb.exists_run
  rcases Nat.lt_or_ge i b.stop with hlt | hle
  · rcases Nat.lt_or_ge j a.stop with hlt' | hle
    · -- the runs are one, and what stands in front of it decides where the symbol starts
      obtain ⟨rfl, hstop⟩ := runa.eq_of_lt runb hlt hlt'
      have hstart : a.start = b.start := by
        obtain ⟨hi, hnone⟩ | ⟨hi, hsigil⟩ := hi <;> obtain ⟨hj, hnone'⟩ | ⟨hj, hsigil'⟩ := hj
        · omega
        · exact absurd (hnone _ hj) (by simp [hsigil'])
        · exact absurd (hnone' _ hi) (by simp [hsigil])
        · omega
      cases a
      cases b
      simp_all
    · exact .inr (.inl (runa.le_start hle (hj.imp_left And.left)))
  · exact .inr (.inr (runb.le_start hle (hi.imp_left And.left)))

/-- The symbols of a text, from left to right. -/
structure ListsSymbols (text : String) (spans : List Span) : Prop where
  apart : spans.Pairwise fun a b => a.stop ≤ b.start
  mem_iff : ∀ s, s ∈ spans ↔ IsSymbol text s

theorem ListsSymbols.eq {spans spans' : List Span} (h : ListsSymbols text spans)
    (h' : ListsSymbols text spans') : spans = spans' := by
  have hlt : ∀ {spans}, ListsSymbols text spans → spans.Pairwise fun a b => a.start < b.start :=
    fun h => h.apart.imp_of_mem fun ha _ hab =>
      Nat.lt_of_lt_of_le ((h.mem_iff _).mp ha).start_lt_stop hab
  have hnodup : ∀ {spans}, ListsSymbols text spans → spans.Nodup := fun h =>
    (hlt h).imp fun {a b} hab (e : a = b) => absurd hab (e ▸ Nat.lt_irrefl _)
  have hperm : spans.Perm spans' :=
    (List.perm_ext_iff_of_nodup (hnodup h) (hnodup h')).mpr fun s =>
      (h.mem_iff s).trans (h'.mem_iff s).symm
  exact hperm.eq_of_pairwise (fun a b _ _ hab hba => absurd hab (Nat.lt_asymm hba)) (hlt h)
    (hlt h')

/-! ## The symbols found from left to right -/

/-- Where the run of a symbol at `i` starts: behind the sigil if a symbol byte follows it. -/
def runStart (text : String) (i : Nat) : Nat :=
  if byteIs isSigilByte text i && byteIs isSymbolByte text (i + 1) then i + 1 else i

theorem le_runStart : i ≤ runStart text i := by
  unfold runStart
  split <;> omega

theorem IsSymbol.byteIs_runStart (h : IsSymbol text a) :
    byteIs isSymbolByte text (runStart text a.start) := by
  unfold runStart
  cases h with
  | bare run front =>
    have hin := run.inside _ (Nat.le_refl _) run.lt
    simp [byteIs_sigil_of_symbol hin, hin]
  | marked sigil run =>
    have hin := run.inside _ (Nat.le_refl _) run.lt
    simp [sigil, hin]

theorem isEmpty_takeWhile (p : Char → Bool) (cs : List Char) :
    (cs.takeWhile p).isEmpty = !cs.head?.any p := by
  cases cs with
  | nil => rfl
  | cons c cs => cases h : p c <;> simp [h]

/-- Whether the segment in front is a symbol shows in the bytes where its run would start. At the
other bytes of a character that starts no symbol none starts either. -/
theorem byteIs_runStart_eq (htext : text.toList = as ++ c :: cs) (hk : k < byteSize [c]) :
    byteIs isSymbolByte text (runStart text (byteSize as + k)) =
      (isSymbolChar c || (isSigil c && !(cs.takeWhile isSymbolChar).isEmpty)) := by
  have hsymbol := symbolClass.byteIs_eq htext hk
  have hsigil := sigilClass.byteIs_eq htext hk
  rw [isEmpty_takeWhile, Bool.not_not, runStart, hsigil]
  cases hc : isSigil c with
  | false => simp [hsymbol]
  | true =>
    have hone := sigilClass.byteSize_eq_one hc
    have hk0 : k = 0 := by omega
    have hnext : byteIs isSymbolByte text (byteSize as + k + 1) = cs.head?.any isSymbolChar := by
      have := symbolClass.byteIs_head (show text.toList = (as ++ [c]) ++ cs by simpa using htext)
      rwa [byteSize_append, hone, ← Nat.add_zero (byteSize as), ← hk0] at this
    cases hhead : cs.head?.any isSymbolChar with
    | true => simp [hnext, hhead]
    | false => simp [hnext, hhead, hsymbol]

theorem runEnd_lt_size {text : String} {i : Nat} (h : byteIs isSymbolByte text i) :
    text.utf8ByteSize - (i + 1) < text.utf8ByteSize - i := by
  have := lt_utf8ByteSize_of_byteIs h
  omega

/-- Where the symbol bytes from `i` on end. -/
def runEnd (text : String) (i : Nat) : Nat :=
  if h : byteIs isSymbolByte text i then runEnd text (i + 1) else i
termination_by text.utf8ByteSize - i
decreasing_by exact runEnd_lt_size h

theorem le_runEnd : i ≤ runEnd text i := by
  fun_induction runEnd text i with
  | case1 i _ ih => omega
  | case2 i _ => exact Nat.le_refl i

theorem lt_runEnd (h : byteIs isSymbolByte text i) : i < runEnd text i := by
  rw [runEnd, dif_pos h]
  exact le_runEnd

theorem lt_of_byteIs_runStart (h : byteIs isSymbolByte text (runStart text i)) :
    i < runEnd text (runStart text i) :=
  Nat.lt_of_le_of_lt le_runStart (lt_runEnd h)

theorem runEnd_eq (htext : text.toList = as ++ cs) :
    runEnd text (byteSize as) = byteSize as + byteSize (cs.takeWhile isSymbolChar) := by
  induction cs generalizing as with
  | nil =>
    have hhead := symbolClass.byteIs_head htext
    rw [runEnd, dif_neg (by simp [hhead])]
    rfl
  | cons c cs ih =>
    have hhead : byteIs isSymbolByte text (byteSize as) = isSymbolChar c :=
      symbolClass.byteIs_head htext
    cases hc : isSymbolChar c with
    | false =>
      rw [runEnd, dif_neg (by simp [hhead, hc]), List.takeWhile_cons_of_neg (by simp [hc])]
      rfl
    | true =>
      have hone := symbolClass.byteSize_eq_one hc
      have hnext := ih (show text.toList = (as ++ [c]) ++ cs by simpa using htext)
      rw [byteSize_append, hone] at hnext
      rw [runEnd, dif_pos (by simp [hhead, hc]), hnext, List.takeWhile_cons_of_pos hc,
        ← List.singleton_append, byteSize_append, hone, Nat.add_assoc]

/-- Where the symbols among some segments stand, the first segment being at `offset`. -/
def symbolSpans (offset : Nat) : List Segment → List Span
  | [] => []
  | .symbol name :: ss =>
    ⟨offset, offset + byteSize name⟩ :: symbolSpans (offset + byteSize name) ss
  | .other c :: ss => symbolSpans (offset + byteSize [c]) ss

/-- Nothing in front of `i` belongs to what starts there. -/
def Fresh (text : String) (i : Nat) : Prop :=
  byteIs isSymbolByte text i → ∀ j, j + 1 = i →
    byteIs isSymbolByte text j = false ∧ byteIs isSigilByte text j = false

theorem fresh_of_byteIs_runStart (h : byteIs isSymbolByte text (runStart text i) = false) :
    Fresh text (i + 1) := by
  intro hnext j hj
  obtain rfl : j = i := by omega
  unfold runStart at h
  cases hsigil : byteIs isSigilByte text j <;> simp_all

theorem isRun_takeWhile (htext : text.toList = as ++ cs) (hne : cs.takeWhile isSymbolChar ≠ [])
    (hfront : ∀ j, j + 1 = byteSize as → byteIs isSymbolByte text j = false) :
    IsRun text (byteSize as) (byteSize as + byteSize (cs.takeWhile isSymbolChar)) := by
  have hall : ∀ c ∈ cs.takeWhile isSymbolChar, isSymbolChar c := fun c hc =>
    List.mem_takeWhile_imp hc
  have hsplit : text.toList = as ++ (cs.takeWhile isSymbolChar ++ cs.dropWhile isSymbolChar) := by
    rw [htext, List.takeWhile_append_dropWhile]
  refine ⟨?_, fun i hle hlt => symbolClass.byteIs_run hall hsplit hle hlt, hfront, ?_⟩
  · have hpos := List.length_pos_iff.mpr hne
    rw [← symbolClass.byteSize_eq_length hall] at hpos
    omega
  · rw [← List.append_assoc] at hsplit
    have hhead := symbolClass.byteIs_head hsplit
    rw [byteSize_append] at hhead
    rw [hhead, Option.any_eq_false]
    intro c hc
    have hnot := List.head?_dropWhile_not isSymbolChar cs
    rw [hc] at hnot
    simp [hnot]

/-- The stretch of a segment that is a symbol is a symbol of the text, and no symbol byte follows
it. -/
theorem isSymbol_of_segment (htext : text.toList = as ++ c :: cs)
    (hc : isSymbolChar c || (isSigil c && !(cs.takeWhile isSymbolChar).isEmpty))
    (hfresh : Fresh text (byteSize as)) :
    IsSymbol text ⟨byteSize as, byteSize as + byteSize (c :: cs.takeWhile isSymbolChar)⟩ := by
  have hsymbol : byteIs isSymbolByte text (byteSize as) = isSymbolChar c :=
    symbolClass.byteIs_head htext
  cases hsc : isSymbolChar c with
  | true =>
    have hrun : (c :: cs).takeWhile isSymbolChar = c :: cs.takeWhile isSymbolChar :=
      List.takeWhile_cons_of_pos hsc
    have hfront := hfresh (hsymbol.trans hsc)
    rw [← hrun]
    exact .bare (isRun_takeWhile htext (by simp [hrun]) fun j hj => (hfront j hj).1)
      fun j hj => (hfront j hj).2
  | false =>
    obtain ⟨hsigil, hne⟩ : isSigil c ∧ cs.takeWhile isSymbolChar ≠ [] := by simpa [hsc] using hc
    have hone : byteSize (as ++ [c]) = byteSize as + 1 := by
      rw [byteSize_append, sigilClass.byteSize_eq_one hsigil]
    have hsplit : text.toList = (as ++ [c]) ++ cs := by simpa using htext
    have hrun := isRun_takeWhile hsplit hne fun j hj => by
      obtain rfl : j = byteSize as := by omega
      exact hsymbol.trans hsc
    rw [← List.singleton_append, byteSize_append, ← Nat.add_assoc, ← byteSize_append]
    rw [hone] at hrun ⊢
    exact .marked ((sigilClass.byteIs_head htext).trans hsigil) hrun

theorem le_of_mem_symbolSpans {offset : Nat} {ss : List Segment} {s : Span}
    (hs : s ∈ symbolSpans offset ss) : offset ≤ s.start := by
  fun_induction symbolSpans offset ss with
  | case1 offset => simp at hs
  | case2 offset name ss ih =>
    obtain rfl | hs := List.mem_cons.mp hs
    · exact Nat.le_refl offset
    · exact Nat.le_of_add_right_le (ih hs)
  | case3 offset c ss ih => exact Nat.le_of_add_right_le (ih hs)

theorem pairwise_symbolSpans (offset : Nat) (ss : List Segment) :
    (symbolSpans offset ss).Pairwise fun a b => a.stop ≤ b.start := by
  fun_induction symbolSpans offset ss with
  | case1 => exact .nil
  | case2 offset name ss ih => exact .cons (fun s hs => le_of_mem_symbolSpans hs) ih
  | case3 offset c ss ih => exact ih

/-- The symbols among the segments of the characters from some offset on are the symbols of the
text from there on. -/
theorem mem_symbolSpans_iff (htext : text.toList = as ++ cs) (hfresh : Fresh text (byteSize as))
    (s : Span) :
    s ∈ symbolSpans (byteSize as) (ofChars cs) ↔ IsSymbol text s ∧ byteSize as ≤ s.start := by
  induction cs using ofChars.induct generalizing as with
  | case1 =>
    refine ⟨fun hs => by simp [ofChars, symbolSpans] at hs, fun ⟨hs, hle⟩ => ?_⟩
    have hlt := lt_utf8ByteSize_of_byteIs hs.byteIs_runStart
    have hsize : text.utf8ByteSize = byteSize as := by
      rw [byteSize, ← List.append_nil as, ← htext, String.ofList_toList]
    exact absurd (Nat.lt_of_le_of_lt le_runStart hlt) (by omega)
  | case2 c cs run hc =>
    rename_i ih
    have hsymbol := isSymbol_of_segment htext hc hfresh
    have hsplit :
        text.toList = (as ++ c :: cs.takeWhile isSymbolChar) ++ cs.dropWhile isSymbolChar := by
      rw [htext, List.append_assoc, List.cons_append, List.takeWhile_append_dropWhile]
    obtain ⟨_, hrun, -⟩ := hsymbol.exists_run
    have hnext := ih hsplit fun hbyte => by
      rw [byteSize_append] at hbyte
      exact absurd hrun.behind (by simp [hbyte])
    rw [byteSize_append] at hnext
    rw [ofChars, if_pos hc, symbolSpans, List.mem_cons, hnext]
    -- whatever else is a symbol from here on does not overlap with this one
    constructor
    · rintro (rfl | ⟨hs, hle⟩)
      · exact ⟨hsymbol, Nat.le_refl _⟩
      · exact ⟨hs, by omega⟩
    · rintro ⟨hs, hle⟩
      obtain heq | hle' | hle' := hsymbol.eq_or_le hs
      · exact .inl heq.symm
      · exact .inr ⟨hs, hle'⟩
      · have := hs.start_lt_stop
        dsimp only at hle'
        omega
  | case3 c cs run hc =>
    rename_i ih
    -- a character may be more than one byte, and none of them starts a symbol
    have hnone : ∀ k < byteSize [c],
        byteIs isSymbolByte text (runStart text (byteSize as + k)) = false := fun k hk =>
      (byteIs_runStart_eq htext hk).trans (Bool.eq_false_iff.mpr hc)
    have hsplit : text.toList = (as ++ [c]) ++ cs := by simpa using htext
    have hnext := ih hsplit fun hbyte j hj => ?_
    · rw [byteSize_append] at hnext
      rw [ofChars, if_neg hc, symbolSpans, hnext]
      refine ⟨fun ⟨hs, hle⟩ => ⟨hs, by omega⟩,
        fun ⟨hs, hle⟩ => ⟨hs, Nat.le_of_not_lt fun hlt => ?_⟩⟩
      obtain ⟨k, hk⟩ := Nat.exists_eq_add_of_le hle
      have := hnone k (by omega)
      rw [← hk, hs.byteIs_runStart] at this
      exact Bool.noConfusion this
    · have hpos := byteSize_singleton_pos c
      rw [byteSize_append] at hbyte hj
      obtain ⟨k, hk⟩ : ∃ k, byteSize [c] = k + 1 := ⟨_, (Nat.sub_add_cancel hpos).symm⟩
      rw [hk] at hbyte hj
      exact fresh_of_byteIs_runStart (hnone k (by omega)) hbyte j hj

theorem listsSymbols_symbolSpans (text : String) :
    ListsSymbols text (symbolSpans 0 (ofChars text.toList)) where
  apart := pairwise_symbolSpans 0 _
  mem_iff s := by
    have hfresh : Fresh text (byteSize []) := fun _ j hj => absurd hj (Nat.succ_ne_zero j)
    have hmem := mem_symbolSpans_iff (show text.toList = [] ++ text.toList from rfl) hfresh s
    exact hmem.trans (by simp [byteSize])

/-! ## Replacing stretches -/

/-- The text from `cursor` on with each of the spans replaced by what `f` gives for its text; none
when a span, or what lies between two of them, is no slice. -/
def splice? (f : String → String) (text : String) (cursor : Nat) : List Span → Option String
  | [] => slice? text cursor text.utf8ByteSize
  | s :: ss => do
    let kept ← slice? text cursor s.start
    let name ← slice? text s.start s.stop
    let rest ← splice? f text s.stop ss
    return kept ++ f name ++ rest

/-- What stands for a symbol: its value, or itself when it has none. -/
def replaced (t : Replacements) (name : String) : String :=
  (t.find? name).getD name

variable {ms bs ds name : List Char} {segments : List Segment} {out : String} {last : Nat}

theorem slice?_chars (htext : text.toList = as ++ ms ++ bs) (hstart : start = byteSize as)
    (hstop : stop = start + byteSize ms) : slice? text start stop = some (String.ofList ms) := by
  refine slice?_eq_some (a := String.ofList as) (c := String.ofList bs) ?_ hstart hstop
  rw [← String.ofList_append, ← String.ofList_append, ← htext, String.ofList_toList]

theorem byteSize_of_toList (htext : text.toList = cs) : text.utf8ByteSize = byteSize cs := by
  rw [byteSize, ← htext, String.ofList_toList]

theorem ofList_substitute_symbol (t : Replacements) (name : List Char) :
    String.ofList ((symbol name).substitute t) = replaced t (String.ofList name) := by
  unfold Segment.substitute replaced
  cases h : t.find? (String.ofList name) <;> simp [h]

/-- Replacing the symbols among some segments replaces them one by one, whatever was kept in front
of them. -/
theorem splice?_symbolSpans (t : Replacements)
    (htext : text.toList = ds ++ ms ++ segments.flatMap chars) :
    splice? (replaced t) text (byteSize ds) (symbolSpans (byteSize (ds ++ ms)) segments) =
      some (String.ofList (ms ++ segments.flatMap (Segment.substitute t))) := by
  induction segments generalizing ds ms with
  | nil =>
    rw [symbolSpans, splice?, List.flatMap_nil, List.append_nil]
    rw [List.flatMap_nil] at htext
    exact slice?_chars htext rfl
      (by rw [byteSize_of_toList htext, List.append_nil, byteSize_append])
  | cons segment segments ih =>
    rw [List.flatMap_cons] at htext
    cases segment with
    | other c =>
      have hnext := ih (show text.toList = ds ++ (ms ++ [c]) ++ segments.flatMap chars by
        simpa [chars] using htext)
      rw [← List.append_assoc, byteSize_append (ds ++ ms)] at hnext
      rw [symbolSpans, hnext]
      simp [Segment.substitute]
    | symbol name =>
      have hkept : slice? text (byteSize ds) (byteSize (ds ++ ms)) = some (String.ofList ms) :=
        slice?_chars htext rfl (byteSize_append ds ms)
      have hsplit : text.toList = (ds ++ ms ++ name) ++ [] ++ segments.flatMap chars := by
        simpa [chars] using htext
      have hname : slice? text (byteSize (ds ++ ms)) (byteSize (ds ++ ms) + byteSize name) =
          some (String.ofList name) :=
        slice?_chars (by rwa [List.append_nil] at hsplit) rfl rfl
      have hnext := ih hsplit
      rw [List.append_nil, byteSize_append (ds ++ ms), List.nil_append] at hnext
      simp only [symbolSpans, splice?, hkept, hname, hnext, Option.pure_def, Option.bind_eq_bind,
        Option.bind_some, List.flatMap_cons, String.ofList_append, ofList_substitute_symbol,
        String.append_assoc]

/-! ## The scan of the bytes -/

/-- What is left of the scan at `i`, with the text up to `last` already put out. -/
def replaceFrom (t : Replacements) (text : String) (i last : Nat) (out : String) :
    Option String :=
  if i < text.utf8ByteSize then
    match _hb : (bytes text)[runStart text i]? with
    | none => none
    | some b =>
      if _h : isSymbolByte b then do
        let stop := runEnd text (runStart text i)
        let name ← slice? text i stop
        match t.find? name with
        | some value =>
          let kept ← slice? text last i
          replaceFrom t text stop stop (out ++ kept ++ value)
        | none => replaceFrom t text stop last out
      else
        replaceFrom t text (i + 1) last out
  else do
    let kept ← slice? text last text.utf8ByteSize
    return out ++ kept
termination_by text.utf8ByteSize - i
decreasing_by
  · have : i < runEnd text (runStart text i) :=
      lt_of_byteIs_runStart (by rwa [byteIs, _hb, Option.any_some])
    omega
  · have : i < runEnd text (runStart text i) :=
      lt_of_byteIs_runStart (by rwa [byteIs, _hb, Option.any_some])
    omega
  · omega

/-- The value with its symbols replaced, by a scan of its bytes. None stands for an offset beyond
the end or inside a character. -/
def replaceBytes (t : Replacements) (value : String) : Option String :=
  if t.isEmpty then some value else replaceFrom t value 0 0 ""

theorem runStart_lt (hi : i < text.utf8ByteSize) : runStart text i < text.utf8ByteSize := by
  unfold runStart
  split
  · next h => exact lt_utf8ByteSize_of_byteIs (Bool.and_eq_true_iff.mp h).2
  · exact hi

theorem replaceFrom_of_lt (hi : i < text.utf8ByteSize) : replaceFrom t text i last out =
    if byteIs isSymbolByte text (runStart text i) then do
      let stop := runEnd text (runStart text i)
      let name ← slice? text i stop
      match t.find? name with
      | some value =>
        let kept ← slice? text last i
        replaceFrom t text stop stop (out ++ kept ++ value)
      | none => replaceFrom t text stop last out
    else
      replaceFrom t text (i + 1) last out := by
  have hlt : runStart text i < (bytes text).length := length_bytes text ▸ runStart_lt hi
  have hb := List.getElem?_eq_getElem hlt
  rw [replaceFrom, if_pos hi]
  split
  · next hb' => simp [hb] at hb'
  · next b hb' =>
    obtain rfl : _ = b := Option.some.inj (hb.symm.trans hb')
    rw [byteIs, hb, Option.any_some, dite_eq_ite]

theorem replaceFrom_skip (hi : i < text.utf8ByteSize)
    (h : byteIs isSymbolByte text (runStart text i) = false) :
    replaceFrom t text i last out = replaceFrom t text (i + 1) last out := by
  rw [replaceFrom_of_lt hi, if_neg (by simp [h])]

theorem replaceFrom_symbol (h : byteIs isSymbolByte text (runStart text i))
    (hkept : slice? text last i = some (String.ofList ms))
    (hname : slice? text i (runEnd text (runStart text i)) = some (String.ofList name)) :
    replaceFrom t text i last out =
      match t.find? (String.ofList name) with
      | some value =>
        replaceFrom t text (runEnd text (runStart text i)) (runEnd text (runStart text i))
          (out ++ String.ofList ms ++ value)
      | none => replaceFrom t text (runEnd text (runStart text i)) last out := by
  have hi : i < text.utf8ByteSize := Nat.lt_of_le_of_lt le_runStart (lt_utf8ByteSize_of_byteIs h)
  rw [replaceFrom_of_lt hi, if_pos h]
  simp only [hname, hkept, Option.bind_eq_bind, Option.bind_some]

theorem replaceFrom_chars (t : Replacements) (last : Nat) (out : String)
    (htext : text.toList = as ++ c :: cs)
    (hnone : ∀ k < byteSize [c],
      byteIs isSymbolByte text (runStart text (byteSize as + k)) = false) :
    replaceFrom t text (byteSize as) last out =
      replaceFrom t text (byteSize (as ++ [c])) last out := by
  have hsize : text.utf8ByteSize = byteSize as + byteSize [c] + byteSize cs := by
    rw [byteSize_of_toList htext, ← List.singleton_append, byteSize_append, byteSize_append,
      Nat.add_assoc]
  have hskip : ∀ k ≤ byteSize [c], replaceFrom t text (byteSize as) last out =
      replaceFrom t text (byteSize as + k) last out := by
    intro k
    induction k with
    | zero => intro _; rfl
    | succ k ih =>
      intro hk
      rw [ih (Nat.le_of_succ_le hk), replaceFrom_skip (by omega) (hnone k hk), Nat.add_assoc]
  rw [byteSize_append]
  exact hskip _ (Nat.le_refl _)

theorem runEnd_runStart (htext : text.toList = as ++ c :: cs)
    (hc : isSymbolChar c || (isSigil c && !(cs.takeWhile isSymbolChar).isEmpty)) :
    runEnd text (runStart text (byteSize as)) =
      byteSize (as ++ c :: cs.takeWhile isSymbolChar) := by
  have hsymbol : byteIs isSymbolByte text (byteSize as) = isSymbolChar c :=
    symbolClass.byteIs_head htext
  have hsigil : byteIs isSigilByte text (byteSize as) = isSigil c := sigilClass.byteIs_head htext
  cases hsc : isSymbolChar c with
  | true =>
    have hstart : runStart text (byteSize as) = byteSize as := by
      rw [runStart, byteIs_sigil_of_symbol (hsymbol.trans hsc)]
      rfl
    rw [hstart, runEnd_eq htext, List.takeWhile_cons_of_pos hsc, byteSize_append]
  | false =>
    obtain ⟨hsig, hne⟩ : isSigil c ∧ cs.takeWhile isSymbolChar ≠ [] := by simpa [hsc] using hc
    have hsplit : text.toList = (as ++ [c]) ++ cs := by simpa using htext
    have hone : byteSize (as ++ [c]) = byteSize as + 1 := by
      rw [byteSize_append, sigilClass.byteSize_eq_one hsig]
    have hnext : byteIs isSymbolByte text (byteSize as + 1) := by
      rw [← hone, symbolClass.byteIs_head hsplit]
      simpa [isEmpty_takeWhile] using congrArg not (List.isEmpty_eq_false_iff.mpr hne)
    have hstart : runStart text (byteSize as) = byteSize (as ++ [c]) := by
      rw [runStart, hsigil, hsig, hnext, hone]
      rfl
    rw [hstart, runEnd_eq hsplit, ← byteSize_append, List.append_assoc, List.singleton_append]

/-- The scan of the bytes replaces the symbols of the characters still to be read. -/
theorem replaceFrom_eq (t : Replacements) (out : String) (htext : text.toList = ds ++ ms ++ cs) :
    replaceFrom t text (byteSize (ds ++ ms)) (byteSize ds) out =
      some (out ++ String.ofList (ms ++ (ofChars cs).flatMap (Segment.substitute t))) := by
  induction cs using ofChars.induct generalizing ds ms out with
  | case1 =>
    have hsize := byteSize_of_toList htext
    rw [List.append_nil] at hsize
    have hkept : slice? text (byteSize ds) text.utf8ByteSize = some (String.ofList ms) :=
      slice?_chars htext rfl (by rw [hsize, byteSize_append])
    rw [replaceFrom, if_neg (by omega), hkept, ofChars, List.flatMap_nil, List.append_nil]
    rfl
  | case2 c cs run hc =>
    rename_i ih
    have hbyte : byteIs isSymbolByte text (runStart text (byteSize (ds ++ ms))) :=
      (byteIs_runStart_eq (k := 0) htext (byteSize_singleton_pos c)).trans hc
    have hend := runEnd_runStart htext hc
    have hsplit : text.toList = ds ++ ms ++ (c :: run) ++ cs.dropWhile isSymbolChar := by
      rw [htext, List.append_assoc (ds ++ ms), List.cons_append, List.takeWhile_append_dropWhile]
    have hkept : slice? text (byteSize ds) (byteSize (ds ++ ms)) = some (String.ofList ms) :=
      slice?_chars htext rfl (byteSize_append ds ms)
    have hname : slice? text (byteSize (ds ++ ms)) (byteSize (ds ++ ms ++ c :: run)) =
        some (String.ofList (c :: run)) :=
      slice?_chars hsplit rfl (byteSize_append ..)
    rw [replaceFrom_symbol hbyte hkept (by rw [hend]; exact hname), hend, ofChars, if_pos hc,
      List.flatMap_cons, Segment.substitute]
    cases hfind : t.find? (String.ofList (c :: run)) with
    | none =>
      have hnext := ih out
        (show text.toList = ds ++ (ms ++ c :: run) ++ cs.dropWhile isSymbolChar by
          simpa using hsplit)
      simpa [hfind, run] using hnext
    | some value =>
      have hnext := ih (out ++ String.ofList ms ++ value)
        (show text.toList = (ds ++ ms ++ c :: run) ++ [] ++ cs.dropWhile isSymbolChar by
          simpa using hsplit)
      simpa [hfind, run, String.append_assoc] using hnext
  | case3 c cs run hc =>
    rename_i ih
    have hskip := replaceFrom_chars t (byteSize ds) out htext fun k hk =>
      (byteIs_runStart_eq htext hk).trans (Bool.eq_false_iff.mpr hc)
    have hnext := ih out (show text.toList = ds ++ (ms ++ [c]) ++ cs by simpa using htext)
    rw [← List.append_assoc] at hnext
    rw [hskip, hnext, ofChars, if_neg hc, List.flatMap_cons, Segment.substitute, List.append_assoc]

/-! ## Whole symbols -/

theorem substitute_of_isEmpty (h : t.isEmpty) (value : String) : substitute t value = value := by
  have hsegment : Segment.substitute t = chars := by
    funext segment
    have hentries : t.entries = [] := List.isEmpty_iff.mp h
    cases segment <;> simp [Segment.substitute, chars, Table.find?, hentries, Table.findEntry]
  rw [substitute, hsegment, flatMap_chars_ofChars, String.ofList_toList]

/-- Substitution puts the replacements in the place of the symbols of a value and keeps all other
bytes, and the scan of the bytes does the same without a slice at a wrong offset. -/
theorem substitute_whole_symbols (t : Replacements) (value : String) :
    replaceBytes t value = some (substitute t value) ∧
      (∃ spans, ListsSymbols value spans) ∧
      ∀ spans, ListsSymbols value spans →
        splice? (replaced t) value 0 spans = some (substitute t value) := by
  have htoList : value.toList = [] ++ [] ++ value.toList := rfl
  refine ⟨?_, ⟨_, listsSymbols_symbolSpans value⟩, fun spans hspans => ?_⟩
  · unfold replaceBytes
    split
    · next hempty => rw [substitute_of_isEmpty hempty]
    · have hscan := replaceFrom_eq t "" htoList
      simpa [substitute, byteSize] using hscan
  · rw [hspans.eq (listsSymbols_symbolSpans value)]
    have hsplice := splice?_symbolSpans t
      (show value.toList = [] ++ [] ++ (ofChars value.toList).flatMap chars by
        rw [flatMap_chars_ofChars]
        exact htoList)
    simpa [substitute, byteSize] using hsplice

end StyleBundle
