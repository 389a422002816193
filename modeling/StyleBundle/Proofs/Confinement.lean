import StyleBundle.Resolution.Directory
import StyleBundle.Proofs.ModulePaths

/-!
# Modules below the root directory

A module's file is found by joining its segments to the root directory one at a time. A segment
is never absolute, so no join discards what is there, and it is neither `.` nor `..`, so the way
goes down only: the file that is read lies below the root directory, at the module's segments,
whatever specifiers led to the module.
-/

namespace StyleBundle

open FilePath (isAbsolute join parts)

namespace FilePath

/-- The parts of a path that are not idle. -/
def components (path : String) : List String :=
  (parts path).filter (!isIdle ·)

/-- The text that a relative part is put behind. -/
def asDirectory (base : String) : String :=
  if base.toList.getLast?.all (· = '/') then base else base ++ "/"

theorem join_of_not_isAbsolute (base : String) {part : String} (h : isAbsolute part = false) :
    join base part = asDirectory base ++ part := by
  rw [join, if_neg (by simp [h]), asDirectory]
  split <;> rfl

theorem asDirectory_append_segment (base : String) {s : String} (h : IsSegment s) :
    asDirectory (base ++ s) = base ++ s ++ "/" := by
  obtain ⟨cs, c, hc⟩ := (s.toList.eq_nil_or_concat).resolve_left h.toList_ne_nil
  have hslash : c ≠ '/' := fun heq => h.slash_not_mem (by simp [hc, heq])
  refine if_neg ?_
  simp [String.toList_append, hc, hslash]

theorem asDirectory_cases (base : String) :
    base = "" ∧ asDirectory base = "" ∨
      ∃ r, asDirectory base = r ++ "/" ∧ (base = r ∧ r ≠ "" ∨ base = r ++ "/") := by
  by_cases h : base.toList.getLast?.all (· = '/') = true
  · rcases base.toList.eq_nil_or_concat with hb | ⟨cs, c, hc⟩
    · have hb : base = "" := String.toList_injective (by simpa using hb)
      exact .inl ⟨hb, by simp [asDirectory, hb]⟩
    · have hslash : c = '/' := by simpa [hc] using h
      have hb : base = String.ofList cs ++ "/" :=
        String.toList_injective (by simp [String.toList_append, hc, hslash])
      exact .inr ⟨String.ofList cs, by rw [asDirectory, if_pos h, ← hb], .inr hb⟩
  · exact .inr ⟨base, by rw [asDirectory, if_neg h], .inl ⟨rfl, by rintro rfl; exact h rfl⟩⟩

end FilePath

open FilePath (components asDirectory asDirectory_cases)

namespace ModulePath

variable {p q : ModulePath}

/-! ## Chains of specifiers -/

theorem mem_pieces_of_mem_resolve {specifier s : String}
    (h : s ∈ (p.resolve specifier).segments) : s ∈ p.segments ∨ s ∈ pieces specifier := by
  rcases mem_goAlong h with h | ⟨h, -⟩
  · split at h
    · cases h
    · exact .inl (List.dropLast_subset _ h)
  · exact .inr h

theorem mem_pieces_of_mem_foldl_resolve {specifiers : List String} {s : String}
    (h : s ∈ (specifiers.foldl resolve p).segments) :
    s ∈ p.segments ∨ ∃ specifier ∈ specifiers, s ∈ pieces specifier := by
  induction specifiers generalizing p with
  | nil => exact .inl h
  | cons specifier specifiers ih =>
    rcases ih h with h | ⟨later, hmem, hs⟩
    · rcases mem_pieces_of_mem_resolve h with h | hs
      · exact .inl h
      · exact .inr ⟨specifier, .head _, hs⟩
    · exact .inr ⟨later, .tail _ hmem, hs⟩

/-! ## File paths -/

theorem foldl_join_segments (root : String) {names : List String} (h : ∀ s ∈ names, IsSegment s)
    (hn : names ≠ []) :
    names.foldl join root = asDirectory root ++ "/".intercalate names := by
  induction names generalizing root with
  | nil => exact absurd rfl hn
  | cons s names ih =>
    have hs := h s (.head _)
    have hjoin := FilePath.join_of_not_isAbsolute root hs.isAbsolute_eq_false
    by_cases hn : names = []
    · rw [hn, String.intercalate_singleton, ← hjoin]
      rfl
    · rw [List.foldl_cons, ih _ (fun t ht => h t (.tail _ ht)) hn, hjoin,
        FilePath.asDirectory_append_segment _ hs, String.intercalate_cons_of_ne_nil hn]
      simp only [String.append_assoc]

theorem segments_ne_nil (h : p ≠ root) : p.segments ≠ [] := fun hp =>
  h (ext_segments hp)

theorem toFilePath_eq (h : p ≠ root) (directory : String) :
    p.toFilePath directory = asDirectory directory ++ "/".intercalate p.segments :=
  foldl_join_segments directory p.normal (segments_ne_nil h)

theorem intercalate_ne_empty (h : p ≠ root) : "/".intercalate p.segments ≠ "" := fun hp => by
  have hparts := FilePath.parts_intercalate p.normal (segments_ne_nil h)
  have hempty : "" ∈ p.segments := by
    rw [← hparts, hp]
    exact .head _
  exact (p.normal _ hempty).1 rfl

theorem components_toFilePath (p : ModulePath) (directory : String) :
    components (p.toFilePath directory) = components directory ++ p.segments := by
  by_cases hp : p = root
  · subst hp
    exact (List.append_nil _).symm
  · have hparts := FilePath.parts_intercalate p.normal (segments_ne_nil hp)
    have hsegments : p.segments.filter (!FilePath.isIdle ·) = p.segments :=
      List.filter_eq_self.mpr fun s hs => by
        simp [FilePath.isIdle, (p.normal s hs).1, (p.normal s hs).2.1]
    rw [toFilePath_eq hp]
    rcases asDirectory_cases directory with ⟨rfl, hd⟩ | ⟨r, hd, ⟨rfl, -⟩ | rfl⟩
    · rw [hd, String.empty_append, components, hparts, hsegments]
      rfl
    · rw [hd, components, FilePath.parts_append_slash, List.filter_append, hparts, hsegments,
        components]
    · have hslash : parts (r ++ "/") = parts r ++ parts "" := by
        simpa using FilePath.parts_append_slash r ""
      have hempty : (parts "").filter (!FilePath.isIdle ·) = [] := by decide
      rw [hd, components, FilePath.parts_append_slash, List.filter_append, hparts, hsegments,
        components, hslash, List.filter_append, hempty, List.append_nil]

/-- Modules share no file path, not even up to idle parts. -/
theorem eq_of_components_toFilePath (directory : String)
    (h : components (p.toFilePath directory) = components (q.toFilePath directory)) : p = q := by
  rw [components_toFilePath, components_toFilePath, List.append_cancel_left_eq] at h
  exact ext_segments h

end ModulePath

namespace FileTree

variable {t : FileTree} {p : ModulePath}

/-! ## Locations -/

theorem follow_append (l : Location) (a b : List String) :
    t.follow l (a ++ b) = (t.follow l a).bind (t.follow · b) := by
  induction a generalizing l with
  | nil => rfl
  | cons part a ih =>
    rw [List.cons_append, follow, follow]
    split
    · rfl
    · exact ih _
    · rfl

theorem step_segment (l : Location) {s : String} (h : IsSegment s) : step l s = l ++ [s] := by
  have hidle : FilePath.isIdle s = false := by simp [FilePath.isIdle, h.1, h.2.1]
  rw [step, if_neg (by simp [hidle]), if_neg h.2.2.1]

theorem eq_append_of_follow {l l' : Location} {names : List String}
    (h : ∀ s ∈ names, IsSegment s) (hf : t.follow l names = .ok l') : l' = l ++ names := by
  induction names generalizing l with
  | nil =>
    cases hf
    simp
  | cons s names ih =>
    rw [follow] at hf
    split at hf
    · cases hf
    · rw [ih (fun t ht => h t (.tail _ ht)) hf, step_segment l (h s (.head _)), List.append_assoc]
      rfl
    · cases hf

theorem follow_empty_cons (l : Location) {names : List String} (hn : names ≠ []) :
    t.follow l ("" :: names) = t.follow l names := by
  obtain ⟨s, names, rfl⟩ := List.exists_cons_of_ne_nil hn
  have hstep : step l "" = l := if_pos (by decide)
  rcases hnode : t.node? l with _ | node
  · simp [follow, hnode]
  · cases node <;> simp [follow, hnode, hstep]

theorem locate_toFilePath (h : p ≠ .root) (directory : String) :
    t.locate (p.toFilePath directory) =
      (t.moduleBase directory).bind (t.follow · p.segments) := by
  have hn := ModulePath.segments_ne_nil h
  have hparts := FilePath.parts_intercalate p.normal hn
  rw [ModulePath.toFilePath_eq h]
  rcases asDirectory_cases directory with ⟨rfl, hd⟩ | ⟨r, hd, hr⟩
  · rw [hd, String.empty_append, locate, if_neg (ModulePath.intercalate_ne_empty h), hparts, start,
      if_neg (by simp [p.isAbsolute_intercalate])]
    rfl
  · have hne : ∀ s, r ++ "/" ++ s ≠ "" := fun s hs => by
      have := congrArg (fun s => s.toList.length) hs
      simp at this
    have hstart : ∀ s, t.start (r ++ "/" ++ s) = if r = "" || isAbsolute r then [] else t.current :=
      fun s => by rw [start, isAbsolute_append_slash]
    rw [hd, locate, if_neg (hne _), FilePath.parts_append_slash, hparts, follow_append, hstart]
    rcases hr with ⟨rfl, hr⟩ | rfl
    · rw [moduleBase, if_neg hr, locate, if_neg hr, start]
      simp [hr]
    · have hslash : r ++ "/" = r ++ "/" ++ "" := by simp
      rw [moduleBase, hslash, if_neg (hne _), locate, if_neg (hne _), FilePath.parts_append_slash,
        hstart, follow_append]
      rcases t.follow _ (parts r) with e | l
      · rfl
      · show t.follow l p.segments = (t.follow l [""]).bind (t.follow · p.segments)
        rw [← follow_append]
        exact (follow_empty_cons l hn).symm

/-- What is found at a module's path is at the module's segments below the root directory. -/
theorem exists_moduleBase_of_locate {directory : String} {l : Location}
    (hl : t.locate (p.toFilePath directory) = .ok l) :
    ∃ base, t.moduleBase directory = .ok base ∧ l = base ++ p.segments := by
  by_cases hp : p = .root
  · subst hp
    have hd : directory ≠ "" := by
      rintro rfl
      cases hl
    refine ⟨l, ?_, (List.append_nil l).symm⟩
    rw [moduleBase, if_neg hd]
    exact hl
  · rw [locate_toFilePath hp] at hl
    rcases hbase : t.moduleBase directory with e | base
    · rw [hbase] at hl
      cases hl
    · rw [hbase] at hl
      exact ⟨base, rfl, eq_append_of_follow p.normal hl⟩

/-- An answered request was answered with a file below the root directory. -/
theorem exists_moduleBase_of_fetch {r : FetchRequest} {text : String}
    (h : t.fetch r = .ok text) :
    ∃ base, t.moduleBase r.root = .ok base ∧
      t.readAt (base ++ r.target.segments) = .ok text := by
  rw [fetch, readModule, read] at h
  rcases hl : t.locate (r.target.toFilePath r.root) with e | l
  · rw [hl] at h
    cases h
  · obtain ⟨base, hbase, rfl⟩ := exists_moduleBase_of_locate hl
    refine ⟨base, hbase, ?_⟩
    rw [hl] at h
    simp only [bind, Except.bind] at h
    split at h
    · rename_i hread
      cases h
      exact hread
    · cases h

end FileTree

/-! ## Requests -/

/-- Imports stay below the root directory. However many specifiers led to the module that asks, and
whatever they and the one that is asked with are, the path that is read is the root directory with
the segments of the target behind it, and so the file that is read is below the root directory, if
any is. A segment of the target was written in one of the specifiers. Two targets never share a
path, however it is spelled. -/
theorem FetchRequest.confined (directory specifier : String) (specifiers : List String) :
    let importer := specifiers.foldl ModulePath.resolve .root
    let request : FetchRequest := ⟨specifier, importer, directory⟩
    let target := request.target
    target.toFilePath directory =
      (if target.segments = [] then directory
       else if directory.toList.getLast?.all (· = '/') then
         directory ++ "/".intercalate target.segments
       else
         directory ++ "/" ++ "/".intercalate target.segments) ∧
    (∀ s ∈ target.segments,
      s ≠ "" ∧ s ≠ "." ∧ s ≠ ".." ∧ FilePath.isAbsolute s = false ∧ '/' ∉ s.toList ∧
      ∃ written ∈ specifiers ++ [specifier], s ∈ ModulePath.pieces written) ∧
    (∀ (t : FileTree) (text : String), t.fetch request = .ok text →
      ∃ base, t.moduleBase directory = .ok base ∧
        t.readAt (base ++ target.segments) = .ok text) ∧
    ∀ other : ModulePath,
      components (other.toFilePath directory) = components (target.toFilePath directory) →
        other = target := by
  intro importer request target
  refine ⟨?_, fun s hs => ?_, fun t text h => FileTree.exists_moduleBase_of_fetch h,
    fun other h => ModulePath.eq_of_components_toFilePath directory h⟩
  · by_cases htarget : target = .root
    · rw [htarget]
      rfl
    · rw [if_neg (ModulePath.segments_ne_nil htarget), ModulePath.toFilePath_eq htarget,
        FilePath.asDirectory]
      split <;> rfl
  · have h := target.normal s hs
    have hchain : target = (specifiers ++ [specifier]).foldl ModulePath.resolve .root := by
      rw [List.foldl_append]
      rfl
    rw [hchain] at hs
    have hwritten := (ModulePath.mem_pieces_of_mem_foldl_resolve hs).resolve_left List.not_mem_nil
    exact ⟨h.1, h.2.1, h.2.2.1, h.isAbsolute_eq_false, h.slash_not_mem, hwritten⟩

def oneModule : FileTree where
  nodes := .ofList [(["srv"], .directory), (["srv", "css"], .directory),
    (["srv", "css", "a.css"], .file "p {}".toUTF8)]

/-- A module is asked for by a specifier that climbs above the root, from a module that was reached
by such a specifier. -/
theorem FetchRequest.confined_climbing :
    (∃ base, oneModule.moduleBase "/srv/css/" = .ok base ∧
      oneModule.readAt (base ++ (ModulePath.ofText "/a.css").segments) = .ok "p {}") ∧
    ModulePath.ofText "a.css" = ModulePath.ofText "/a.css" := by
  obtain ⟨-, -, hread, hinjective⟩ :=
    FetchRequest.confined "/srv/css/" "..\\.././a.css" ["lib/b.css", "../../../c.css"]
  exact ⟨hread oneModule "p {}" (by decide), hinjective (ModulePath.ofText "a.css") (by decide)⟩

end StyleBundle
