import StyleBundle.FilePath

/-!
# Module paths

A module path names a module by the segments that lead to it from the root. Paths are written with
`/` or `\` between segments; empty segments and `.` are dropped, and `..` takes back the segment
before it and never climbs above the root. So every spelling of a module has one path, and the path
serves as the module's key.

A written path is followed on plain lists of segments. Nothing is tested there but the empty piece,
`.` and `..`; that no separator is left in a segment comes from how the pieces are cut.
-/

namespace StyleBundle

def isSeparator (c : Char) : Bool :=
  c = '/' || c = '\\'

def IsSegment (s : String) : Prop :=
  s ≠ "" ∧ s ≠ "." ∧ s ≠ ".." ∧ ∀ c ∈ s.toList, isSeparator c = false

instance (s : String) : Decidable (IsSegment s) :=
  have : Decidable (∀ c ∈ s.toList, isSeparator c = false) := List.decidableBAll _ _
  inferInstanceAs (Decidable (s ≠ "" ∧ s ≠ "." ∧ s ≠ ".." ∧ ∀ c ∈ s.toList, isSeparator c = false))

theorem eq_false_of_mem_splitOnP {cuts : Char → Bool} {cs part : List Char}
    (h : part ∈ cs.splitOnP cuts) : ∀ c ∈ part, cuts c = false := by
  induction cs generalizing part with
  | nil =>
    obtain rfl : part = [] := by simpa using h
    simp
  | cons d cs ih =>
    rw [List.splitOnP_cons_eq_if_modifyHead] at h
    by_cases hd : cuts d = true
    · rw [if_pos hd] at h
      rcases List.mem_cons.mp h with rfl | h
      · simp
      · exact ih h
    · obtain ⟨first, rest, hsplit⟩ :=
        List.exists_cons_of_ne_nil (List.splitOnP_ne_nil cuts cs)
      rw [if_neg hd, hsplit, List.modifyHead_cons] at h
      rw [hsplit] at ih
      rcases List.mem_cons.mp h with rfl | h
      · exact List.forall_mem_cons.mpr ⟨Bool.of_not_eq_true hd, ih (.head _)⟩
      · exact ih (.tail _ h)

structure ModulePath where
  segments : List String
  normal : ∀ s ∈ segments, IsSegment s := by decide
  deriving DecidableEq, Repr

namespace ModulePath

/-! ## Written paths -/

def pieces (written : String) : List String :=
  (written.toList.splitOnP isSeparator).map String.ofList

/-- The segments of where one piece of a written path leads. -/
def goTo (segments : List String) (piece : String) : List String :=
  if piece = "" ∨ piece = "." then
    segments
  else if piece = ".." then
    segments.dropLast
  else
    segments ++ [piece]

def goAlong (segments : List String) (written : String) : List String :=
  (pieces written).foldl goTo segments

variable {segments : List String} {written piece s : String}

theorem isSeparator_eq_false_of_mem_pieces (h : piece ∈ pieces written) :
    ∀ c ∈ piece.toList, isSeparator c = false := by
  obtain ⟨cs, hcs, rfl⟩ := List.mem_map.mp h
  rw [String.toList_ofList]
  exact eq_false_of_mem_splitOnP hcs

theorem mem_goTo (h : s ∈ goTo segments piece) :
    s ∈ segments ∨ s = piece ∧ s ≠ "" ∧ s ≠ "." ∧ s ≠ ".." := by
  unfold goTo at h
  split at h
  next => exact .inl h
  next hidle =>
    split at h
    next => exact .inl (List.dropLast_subset _ h)
    next hup =>
      rcases List.mem_append.mp h with h | h
      · exact .inl h
      · obtain rfl := List.mem_singleton.mp h
        exact .inr ⟨rfl, fun hs => hidle (.inl hs), fun hs => hidle (.inr hs), hup⟩

theorem mem_foldl_goTo {names : List String} (h : s ∈ names.foldl goTo segments) :
    s ∈ segments ∨ s ∈ names ∧ s ≠ "" ∧ s ≠ "." ∧ s ≠ ".." := by
  induction names generalizing segments with
  | nil => exact .inl h
  | cons name names ih =>
    rcases ih h with h | ⟨h, hs⟩
    · rcases mem_goTo h with h | ⟨rfl, hs⟩
      · exact .inl h
      · exact .inr ⟨.head _, hs⟩
    · exact .inr ⟨.tail _ h, hs⟩

/-- A written path adds segments only, and only pieces that it is written with. -/
theorem mem_goAlong (h : s ∈ goAlong segments written) :
    s ∈ segments ∨ s ∈ pieces written ∧ IsSegment s := by
  rcases mem_foldl_goTo h with h | ⟨h, hempty, hdot, hup⟩
  · exact .inl h
  · exact .inr ⟨h, hempty, hdot, hup, isSeparator_eq_false_of_mem_pieces h⟩

/-! ## Modules -/

def root : ModulePath where
  segments := []

instance : Inhabited ModulePath := ⟨root⟩

/-- The directory of a module. -/
def parent (p : ModulePath) : ModulePath where
  segments := p.segments.dropLast
  normal s h := p.normal s (List.dropLast_subset _ h)

/-- The module that a written path leads to from the directory `p`. -/
def follow (p : ModulePath) (written : String) : ModulePath where
  segments := goAlong p.segments written
  normal s h := (mem_goAlong h).elim (p.normal s) And.right

/-- The module that a path leads to from the root. -/
def ofText (written : String) : ModulePath :=
  root.follow written

/-- The module that a specifier names in the module `p`. It is relative to the module's directory,
or to the root when it starts with `/`. -/
def resolve (p : ModulePath) (specifier : String) : ModulePath :=
  let base := if FilePath.isAbsolute specifier then root else p.parent
  base.follow specifier

def text (p : ModulePath) : String :=
  "/" ++ "/".intercalate p.segments

def fileName? (p : ModulePath) : Option String :=
  p.segments.getLast?

def ofSegments? (segments : List String) : Option ModulePath :=
  if h : ∀ s ∈ segments, IsSegment s then some ⟨segments, h⟩ else none

/-- The file that holds the module when the root is the directory `root`. -/
def toFilePath (p : ModulePath) (root : String) : String :=
  p.segments.foldl FilePath.join root

instance : Ord ModulePath where
  compare p q := compare p.text q.text

instance : ToString ModulePath := ⟨text⟩

end ModulePath

end StyleBundle
