import Mathlib.Data.List.DropRight
import StyleBundle.ModulePath

/-!
# Module paths as keys

A module path and its text determine each other, and what a specifier leads to can be told without
going through the importing module: the specifiers of one module after another are joined into one,
and there is a relative specifier from any module to any other.

A specifier is a run of pieces on a stack of segments. A `..` on the empty stack does nothing, so
runs do not cancel in general. What is used throughout is that a segment gone to last is the one
that the parent takes back.
-/

namespace StyleBundle

open FilePath (isAbsolute)

/-! ## Segments -/

namespace IsSegment

variable {s : String}

theorem slash_not_mem (h : IsSegment s) : '/' ∉ s.toList := fun hc =>
  absurd (h.2.2.2 _ hc) (by decide)

theorem backslash_not_mem (h : IsSegment s) : '\\' ∉ s.toList := fun hc =>
  absurd (h.2.2.2 _ hc) (by decide)

theorem toList_ne_nil (h : IsSegment s) : s.toList ≠ [] := fun hs =>
  h.1 (String.toList_injective (by simpa using hs))

theorem isAbsolute_eq_false (h : IsSegment s) : isAbsolute s = false := by
  unfold isAbsolute
  refine decide_eq_false fun hc => h.slash_not_mem ?_
  exact List.mem_of_head? hc

end IsSegment

theorem isAbsolute_append_slash (a b : String) :
    isAbsolute (a ++ "/" ++ b) = (a = "" || isAbsolute a) := by
  unfold isAbsolute
  rcases ha : a.toList with _ | ⟨c, cs⟩
  · have : a = "" := String.toList_injective (by simpa using ha)
    simp [this]
  · have : a ≠ "" := by rintro rfl; simp at ha
    simp [String.toList_append, ha, this]

theorem splitOnP_append_slash {cuts : Char → Bool} (hslash : cuts '/') (a b : String) :
    (a ++ "/" ++ b).toList.splitOnP cuts = a.toList.splitOnP cuts ++ b.toList.splitOnP cuts := by
  have hlist : (a ++ "/" ++ b).toList = a.toList ++ '/' :: b.toList := by
    simp [String.toList_append]
  rw [hlist, List.splitOnP_append_cons _ _ hslash]

namespace FilePath

theorem parts_append_slash (a b : String) : parts (a ++ "/" ++ b) = parts a ++ parts b := by
  rw [parts, splitOnP_append_slash (by decide), List.map_append, parts, parts]

theorem parts_of_isSegment {s : String} (h : IsSegment s) : parts s = [s] := by
  have hs : ∀ c ∈ s.toList, decide (c = '/') = false := fun c hc =>
    decide_eq_false fun heq => h.slash_not_mem (heq ▸ hc)
  rw [parts, List.splitOnP_eq_singleton hs, List.map_singleton, String.ofList_toList]

theorem parts_intercalate {names : List String} (h : ∀ s ∈ names, IsSegment s) (hn : names ≠ []) :
    parts ("/".intercalate names) = names := by
  induction names with
  | nil => exact absurd rfl hn
  | cons s names ih =>
    have hs := parts_of_isSegment (h s (.head _))
    by_cases hn : names = []
    · rw [hn, String.intercalate_singleton, hs]
    · rw [String.intercalate_cons_of_ne_nil hn, parts_append_slash, hs,
        ih (fun t ht => h t (.tail _ ht)) hn, List.singleton_append]

end FilePath

namespace ModulePath

variable {p q : ModulePath} {s : String} {names : List String}

/-! ## Pieces of a written path -/

theorem pieces_eq_singleton (h : ∀ c ∈ s.toList, isSeparator c = false) : pieces s = [s] := by
  rw [pieces, List.splitOnP_eq_singleton h, List.map_singleton, String.ofList_toList]

theorem pieces_append_slash (a b : String) : pieces (a ++ "/" ++ b) = pieces a ++ pieces b := by
  rw [pieces, splitOnP_append_slash (by decide), List.map_append, pieces, pieces]

/-! ## Following pieces -/

@[simp]
theorem goTo_empty (segments : List String) : goTo segments "" = segments :=
  if_pos (.inl rfl)

theorem goTo_up (segments : List String) : goTo segments ".." = segments.dropLast := by
  rw [goTo, if_neg (by decide), if_pos rfl]

theorem goTo_segment (segments : List String) (h : IsSegment s) :
    goTo segments s = segments ++ [s] := by
  rw [goTo, if_neg (not_or.mpr ⟨h.1, h.2.1⟩), if_neg h.2.2.1]

theorem ext_segments (h : p.segments = q.segments) : p = q := by
  cases p; cases q; simpa using h

@[simp]
theorem follow_empty (p : ModulePath) : p.follow "" = p :=
  ext_segments (goTo_empty p.segments)

theorem follow_up (p : ModulePath) : p.follow ".." = p.parent :=
  ext_segments (goTo_up p.segments)

theorem follow_append_slash (p : ModulePath) (a b : String) :
    p.follow (a ++ "/" ++ b) = (p.follow a).follow b := by
  refine ext_segments ?_
  show goAlong p.segments (a ++ "/" ++ b) = goAlong (goAlong p.segments a) b
  rw [goAlong, pieces_append_slash, List.foldl_append, goAlong, goAlong]

theorem segments_follow_segment (p : ModulePath) (h : IsSegment s) :
    (p.follow s).segments = p.segments ++ [s] := by
  show goAlong p.segments s = p.segments ++ [s]
  rw [goAlong, pieces_eq_singleton h.2.2.2, List.foldl_cons, List.foldl_nil, goTo_segment _ h]

@[simp]
theorem parent_follow_segment (p : ModulePath) (h : IsSegment s) : (p.follow s).parent = p := by
  refine ext_segments ?_
  show (p.follow s).segments.dropLast = p.segments
  rw [segments_follow_segment p h, List.dropLast_concat]

theorem segments_follow_intercalate (p : ModulePath) (h : ∀ s ∈ names, IsSegment s) :
    (p.follow ("/".intercalate names)).segments = p.segments ++ names := by
  induction names generalizing p with
  | nil => rw [String.intercalate_nil, follow_empty, List.append_nil]
  | cons s names ih =>
    have hs := segments_follow_segment p (h s (.head _))
    by_cases hn : names = []
    · rw [hn, String.intercalate_singleton, hs]
    · rw [String.intercalate_cons_of_ne_nil hn, follow_append_slash,
        ih _ fun t ht => h t (.tail _ ht), hs, List.append_assoc, List.singleton_append]

theorem follow_root_intercalate (q : ModulePath) : root.follow ("/".intercalate q.segments) = q :=
  ext_segments (segments_follow_intercalate root q.normal)

/-! ## Texts -/

/-- The text with the slash in front as one between two texts. -/
theorem text_eq (p : ModulePath) : p.text = "" ++ "/" ++ "/".intercalate p.segments := by
  simp [text]

theorem isAbsolute_text (p : ModulePath) : isAbsolute p.text = true := by
  simp [isAbsolute, text, String.toList_append]

theorem ofText_text (p : ModulePath) : ofText p.text = p := by
  rw [text_eq, ofText, follow_append_slash, follow_empty, follow_root_intercalate]

theorem text_injective : Function.Injective text := fun p q h => by
  rw [← ofText_text p, h, ofText_text]

theorem resolve_of_isAbsolute (q : ModulePath) {s : String} (h : isAbsolute s = true) :
    q.resolve s = ofText s := by
  rw [resolve, if_pos h, ofText]

theorem resolve_text (q p : ModulePath) : q.resolve p.text = p := by
  rw [q.resolve_of_isAbsolute p.isAbsolute_text, ofText_text]

theorem filter_parts_text (p : ModulePath) :
    (FilePath.parts p.text).filter (· ≠ "") = p.segments := by
  have hparts : (p.segments.filter fun s => decide (s ≠ "")) = p.segments :=
    List.filter_eq_self.mpr fun s hs => decide_eq_true (p.normal s hs).1
  rw [text_eq, FilePath.parts_append_slash, List.filter_append]
  by_cases hp : p.segments = []
  · rw [hp]
    rfl
  · rw [FilePath.parts_intercalate p.normal hp, hparts]
    rfl

/-! ## Parents and names -/

/-- What stands in front of the last `/` of a text, or `/` where that is nothing. -/
def directory (text : String) : String :=
  let upTo := text.toList.rdropWhile (· ≠ '/')
  if upTo.length ≤ 1 then "/" else String.ofList upTo.dropLast

theorem directory_append_slash (a : String) (h : IsSegment s) :
    directory (a ++ "/" ++ s) = if a = "" then "/" else a := by
  have hlist : (a ++ "/" ++ s).toList = a.toList ++ ['/'] ++ s.toList := by
    simp [String.toList_append]
  have hdrop : (a ++ "/" ++ s).toList.rdropWhile (· ≠ '/') = a.toList ++ ['/'] := by
    have hs : ∀ c ∈ s.toList.reverse, decide (c ≠ '/') = true := fun c hc =>
      decide_eq_true fun heq => h.slash_not_mem (heq ▸ List.mem_reverse.mp hc)
    rw [hlist, List.rdropWhile, List.reverse_append, List.dropWhile_append_of_pos hs]
    simp
  unfold directory
  simp only [hdrop, List.length_append, List.length_singleton, List.dropLast_concat,
    String.ofList_toList]
  by_cases ha : a = ""
  · simp [ha]
  · have hlen : a.toList.length ≠ 0 := fun h0 =>
      ha (String.toList_injective (by simpa using h0))
    rw [if_neg ha, if_neg (by omega)]

theorem exists_segments_eq_concat (h : p ≠ root) :
    ∃ name, p.fileName? = some name ∧ p.segments = p.parent.segments ++ [name] := by
  rcases hlast : p.segments.getLast? with _ | name
  · exact absurd (ext_segments (List.getLast?_eq_none_iff.mp hlast)) h
  · exact ⟨name, hlast, (List.dropLast_append_getLast? name hlast).symm⟩

theorem text_parent (p : ModulePath) : p.parent.text = directory p.text := by
  by_cases hp : p = root
  · subst hp
    decide
  · obtain ⟨name, -, hsegments⟩ := exists_segments_eq_concat hp
    have hname : IsSegment name := p.normal name (by simp [hsegments])
    have htext : p.text = (if p.parent = root then "" else p.parent.text) ++ "/" ++ name := by
      by_cases hroot : p.parent = root
      · rw [if_pos hroot, text, hsegments, hroot]
        simp [root]
      · have hne : p.parent.segments ≠ [] := fun h => hroot (ext_segments h)
        rw [if_neg hroot, text, hsegments,
          String.intercalate_append_of_ne_nil hne (List.cons_ne_nil _ _),
          String.intercalate_singleton, text, String.append_assoc, String.append_assoc,
          String.append_assoc]
    rw [htext, directory_append_slash _ hname]
    by_cases hroot : p.parent = root
    · rw [if_pos hroot, if_pos rfl, hroot]
      decide
    · have hne : p.parent.text ≠ "" := fun h => by
        have := p.parent.isAbsolute_text
        simp [h, isAbsolute] at this
      rw [if_neg hroot, if_neg hne]

/-! ## Specifiers -/

theorem resolve_of_not_isAbsolute (h : isAbsolute s = false) :
    p.resolve s = p.parent.follow s := by
  rw [resolve, if_neg (by simp [h])]

/-- A relative specifier is read behind the text of the directory. -/
theorem resolve_eq_ofText (h : isAbsolute s = false) :
    p.resolve s = ofText (directory p.text ++ "/" ++ s) := by
  rw [resolve_of_not_isAbsolute h, ofText, follow_append_slash, ← text_parent, ← ofText,
    ofText_text]

theorem resolve_segment (p : ModulePath) (h : IsSegment s) : p.resolve s = p.parent.follow s :=
  resolve_of_not_isAbsolute h.isAbsolute_eq_false

theorem resolve_fileName (h : p.segments = p.parent.segments ++ [s]) : p.resolve s = p := by
  have hs : IsSegment s := p.normal s (by simp [h])
  refine ext_segments ?_
  rw [resolve_segment p hs, segments_follow_segment _ hs, h]

/-- What a specifier that ends in a segment leads to has as its parent what the specifier in front
of the segment leads to. -/
theorem resolve_resolve_append (p : ModulePath) (u : String) (h : IsSegment s) {b : String}
    (hb : isAbsolute b = false) :
    (p.resolve (u ++ "/" ++ s)).resolve b = p.resolve (u ++ "/" ++ b) := by
  rw [resolve_of_not_isAbsolute hb]
  simp only [resolve, isAbsolute_append_slash, follow_append_slash, parent_follow_segment _ h]

theorem resolve_resolve_segment (p : ModulePath) (h : IsSegment s) {b : String}
    (hb : isAbsolute b = false) : (p.resolve s).resolve b = p.resolve b := by
  rw [resolve_segment p h, resolve_of_not_isAbsolute hb, resolve_of_not_isAbsolute hb,
    parent_follow_segment _ h]

/-! ## Routes -/

/-- The specifier that climbs `n` directories. -/
def climb (n : Nat) : String :=
  String.join (List.replicate n "../")

theorem climb_succ_append (n : Nat) (s : String) :
    climb (n + 1) ++ s = ".." ++ "/" ++ (climb n ++ s) := by
  rw [climb, List.replicate_succ, String.join_cons, ← climb, ← String.append_assoc]
  rfl

theorem isAbsolute_intercalate (q : ModulePath) :
    isAbsolute ("/".intercalate q.segments) = false := by
  rcases hq : q.segments with _ | ⟨s, names⟩
  · decide
  · have hs : IsSegment s := q.normal s (by simp [hq])
    by_cases hn : names = []
    · rw [hn, String.intercalate_singleton, hs.isAbsolute_eq_false]
    · rw [String.intercalate_cons_of_ne_nil hn, isAbsolute_append_slash, hs.isAbsolute_eq_false]
      simp [hs.1]

theorem isAbsolute_climb_append (n : Nat) (q : ModulePath) :
    isAbsolute (climb n ++ "/".intercalate q.segments) = false := by
  cases n with
  | zero => simpa [climb] using isAbsolute_intercalate q
  | succ n =>
    rw [climb_succ_append, isAbsolute_append_slash]
    decide

/-- Climbing at least as many directories as there are segments leads to the root, and climbing on
stays there. -/
theorem follow_climb_append {n : Nat} (h : p.segments.length ≤ n) (s : String) :
    p.follow (climb n ++ s) = root.follow s := by
  induction n generalizing p with
  | zero =>
    have hp : p = root := ext_segments (List.eq_nil_of_length_eq_zero (Nat.le_zero.mp h))
    simp [climb, hp]
  | succ n ih =>
    have hparent : p.parent.segments.length ≤ n := by
      show p.segments.dropLast.length ≤ n
      rw [List.length_dropLast]
      omega
    rw [climb_succ_append, follow_append_slash, follow_up, ih hparent]

theorem resolve_climb {n : Nat} (h : p.parent.segments.length ≤ n) (q : ModulePath) :
    p.resolve (climb n ++ "/".intercalate q.segments) = q := by
  rw [resolve_of_not_isAbsolute (isAbsolute_climb_append n q), follow_climb_append h,
    follow_root_intercalate]

/-- Module paths are canonical. The text of a path is `/` and its segments with `/` between them, so
that the segments are read off it, and it leads to the path from every module. A path that is not
the root is its parent and its name. The root can be climbed to from every module, and climbing
further does no harm, so there is a relative specifier from any module to any other. Specifiers
compose: behind a specifier that ends in a segment, a relative one stands in the segment's place. -/
theorem canonical (p q : ModulePath) :
    (p.text = "/" ++ "/".intercalate p.segments ∧
      (FilePath.parts p.text).filter (· ≠ "") = p.segments ∧
      ∀ s ∈ p.segments, s ≠ "" ∧ s ≠ "." ∧ s ≠ ".." ∧ '/' ∉ s.toList ∧ '\\' ∉ s.toList) ∧
    ofText p.text = p ∧
    q.resolve p.text = p ∧
    (p ≠ root → ∃ name, p.fileName? = some name ∧ p.parent.segments ++ [name] = p.segments ∧
      p.resolve name = p) ∧
    (∀ n, p.parent.segments.length ≤ n →
      p.resolve (String.join (List.replicate n "../") ++ "/".intercalate q.segments) = q) ∧
    ∀ u s b, IsSegment s → isAbsolute b = false →
      (p.resolve s).resolve b = p.resolve b ∧
      (p.resolve (u ++ "/" ++ s)).resolve b = p.resolve (u ++ "/" ++ b) := by
  refine ⟨⟨rfl, p.filter_parts_text, fun s hs => ?_⟩, p.ofText_text, q.resolve_text p, fun hp => ?_,
    fun n hn => resolve_climb hn q, fun u s b hs hb => ?_⟩
  · have h := p.normal s hs
    exact ⟨h.1, h.2.1, h.2.2.1, h.slash_not_mem, h.backslash_not_mem⟩
  · obtain ⟨name, hname, hsegments⟩ := exists_segments_eq_concat hp
    exact ⟨name, hname, hsegments.symm, resolve_fileName hsegments⟩
  · exact ⟨resolve_resolve_segment p hs hb, resolve_resolve_append p u hs hb⟩

/-- Two directories down, with three steps up and with a specifier that climbs before it descends. -/
theorem canonical_two_deep :
    (∃ name, (ofText "/a/b/c.css").fileName? = some name ∧
      (ofText "/a/b/c.css").parent.segments ++ [name] = (ofText "/a/b/c.css").segments ∧
      (ofText "/a/b/c.css").resolve name = ofText "/a/b/c.css") ∧
    (ofText "/a/b/c.css").resolve (String.join (List.replicate 3 "../") ++
      "/".intercalate (ofText "x\\y.css").segments) = ofText "x\\y.css" ∧
    ((ofText "/a/b/c.css").resolve ("../d" ++ "/" ++ "e.css")).resolve ".\\f.css" =
      (ofText "/a/b/c.css").resolve ("../d" ++ "/" ++ ".\\f.css") := by
  obtain ⟨-, -, -, hname, hroute, hcompose⟩ :=
    canonical (ofText "/a/b/c.css") (ofText "x\\y.css")
  exact ⟨hname (by decide), hroute 3 (by decide),
    (hcompose "../d" "e.css" ".\\f.css" (by decide) (by decide)).2⟩

end ModulePath
end StyleBundle
