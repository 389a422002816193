import StyleBundle.Proofs.Depth
import StyleBundle.Proofs.Refinement
import StyleBundle.Proofs.Stalls

/-!
# The place of the entry

The entry is recorded at the empty key, which is greater than all others. But a path has one text
and stands at its first key. When an import leads back to the path of an entry whose text was given,
the module there is loaded like any other; then the text of the entry replaces that of the module,
and stands at the module's key. So the entry comes last, behind the texts of all modules that were
loaded, exactly when no import leads back to its path.
-/

namespace StyleBundle

namespace Library

/-- Some import below the entry names the entry's path, and its module can be loaded. -/
def LeadsBack (lib : Library) (entry : Document) : Prop :=
  ∃ d, Relation.TransGen lib.Needs entry d ∧ d.path = entry.path

variable {lib : Library} {entry d : Document} {k : TraceKey}

theorem Located.transGen (h : lib.Located entry k d) (hk : k ≠ .root) :
    Relation.TransGen lib.Needs entry d := by
  obtain ⟨e, he, -, ht⟩ := h.above (TraceKey.under_root k)
  cases located_root_iff.mp he
  exact ht hk

theorem located_iff_transGen {p : ModulePath} : (∃ k d, lib.Located entry k d ∧ d.path = p) ↔
    p = entry.path ∨ ∃ d, Relation.TransGen lib.Needs entry d ∧ d.path = p := by
  constructor
  · rintro ⟨k, d, hk, rfl⟩
    by_cases hroot : k = .root
    · subst hroot
      exact .inl (congrArg _ (located_root_iff.mp hk))
    · exact .inr ⟨d, hk.transGen hroot, rfl⟩
  · rintro (rfl | ⟨d, hd, rfl⟩)
    · exact ⟨.root, entry, .root, rfl⟩
    · obtain ⟨k, hk⟩ := exists_located hd.to_reflTransGen
      exact ⟨k, d, hk, rfl⟩

end Library

namespace Resolution

/-- The text is that of the module as evaluated from scratch. -/
def IsOwnText (lib : Library) (p : ModulePath) (text : String) : Prop :=
  ∃ d, ∃ hd : lib.Grounded d, lib.document? p = some d ∧ text = (lib.eval d hd).source

/-- The resolution holds the entry and the modules that imports lead to, each once and with its own
text; at the entry's path stands the entry's text. -/
structure Gathers (lib : Library) (entry : Document) (hg : lib.Grounded entry)
    (res : Resolution) : Prop where
  nodup : res.order.Nodup
  mem_order : ∀ p, p ∈ res.order ↔
    p = entry.path ∨ ∃ d, Relation.TransGen lib.Needs entry d ∧ d.path = p
  source : ∃ texts, res.source = String.join texts ∧
    List.Forall₂ (fun p text => p = entry.path ∧ text = (lib.eval entry hg).source ∨
      p ≠ entry.path ∧ IsOwnText lib p text) res.order texts

/-- The entry comes last, with its text at the end, and before it stand all modules that imports
lead to with their own texts. -/
def EntryLast (lib : Library) (entry : Document) (hg : lib.Grounded entry)
    (res : Resolution) : Prop :=
  ∃ front texts, res.order = front ++ [entry.path] ∧
    res.source = String.join texts ++ (lib.eval entry hg).source ∧
    List.Forall₂ (IsOwnText lib) front texts ∧
    ∀ d, Relation.TransGen lib.Needs entry d → d.path ∈ front

end Resolution

namespace Session.Complete

open Resolution (Gathers EntryLast IsOwnText)

variable {lib : Library} {entry d : Document} {initial : List Fetched} {s : Session}
  {loaded : List (Option ExportTable)} {hg : lib.Grounded entry} {k : TraceKey} {p : ModulePath}
  {source : String}

/-! ## The text at a path -/

theorem find?_sources_of_ne (h : s.Complete lib entry initial loaded)
    (hk : lib.Located entry k d) (hp : d.path ≠ entry.path) :
    ∃ text, (s.sources entry source).find? d.path = some text ∧ IsOwnText lib d.path text := by
  obtain ⟨k', hd⟩ := h.exists_holds hk
  rcases hd with ⟨-, rfl⟩ | hd
  · exact absurd rfl hp
  · obtain ⟨hgd, hsource⟩ := h.source_of_documents hd
    obtain ⟨l, -, -, -, hdoc⟩ := h.load_succeeded hd
    refine ⟨_, ?_, d, hgd, Library.document?_path hdoc, rfl⟩
    rw [sources, Table.find?_insert, if_neg (Ne.symm hp), hsource]

theorem find?_sources_entry (s : Session) :
    (s.sources entry source).find? entry.path = some source := by
  rw [sources, Table.find?_insert, if_pos rfl]

theorem ownText_of_mem_bundle (h : s.Complete lib entry initial loaded)
    (hp : p ∈ (s.bundle entry source).order) (hne : p ≠ entry.path) :
    ∃ text, (s.sources entry source).find? p = some text ∧ IsOwnText lib p text := by
  obtain ⟨k, d, hk, rfl⟩ := (h.mem_bundle_iff source).mp hp
  exact h.find?_sources_of_ne hk hne

theorem gathers (h : s.Complete lib entry initial loaded) (hg : lib.Grounded entry) :
    (s.resolution entry (lib.eval entry hg)).Gathers lib entry hg where
  nodup := Assembly.nodup_order
  mem_order _ := (h.mem_bundle_iff _).trans Library.located_iff_transGen
  source := by
    refine ⟨_, rfl, forall₂_filterMap fun p hp => ?_⟩
    by_cases hne : p = entry.path
    · subst hne
      exact ⟨_, find?_sources_entry s, .inl ⟨rfl, rfl⟩⟩
    · obtain ⟨text, htext, hown⟩ := h.ownText_of_mem_bundle hp hne
      exact ⟨text, htext, .inr ⟨hne, hown⟩⟩

/-! ## The place of the entry -/

theorem resolution_order (s : Session) (entry : Document) (linked : Linked) :
    (s.resolution entry linked).order = (s.bundle entry linked.source).order := rfl

theorem resolution_source (s : Session) (entry : Document) (linked : Linked) :
    (s.resolution entry linked).source = String.join
      ((s.bundle entry linked.source).order.filterMap (s.sources entry linked.source).find?) := rfl

/-- When no import leads back, the empty key is the only one of the entry's path. -/
theorem eq_root_of_traces (h : s.Complete lib entry initial loaded) (hback : ¬lib.LeadsBack entry)
    (hk : (s.traces entry).find? k = some entry.path) : k = .root := by
  obtain ⟨d, hd, hp⟩ := h.traces_iff.mp hk
  by_contra hroot
  exact hback ⟨d, hd.1.transGen hroot, hp⟩

/-- When no import leads back, nothing stands behind the entry: its one key is the greatest. -/
theorem exists_front (h : s.Complete lib entry initial loaded) (source : String)
    (hback : ¬lib.LeadsBack entry) :
    ∃ front, (s.bundle entry source).order = front ++ [entry.path] := by
  obtain ⟨front, rest, hsplit⟩ := List.append_of_mem
    ((h.mem_bundle_iff source).mpr ⟨.root, entry, .root, rfl⟩)
  cases rest with
  | nil => exact ⟨front, hsplit⟩
  | cons p rest =>
    have hpair : (s.bundle entry source).order.Pairwise
        (Assembly.Precedes (s.traces entry)) := Assembly.pairwise_order
    rw [hsplit] at hpair
    obtain ⟨k, hk, hlt⟩ := (List.pairwise_cons.mp (List.pairwise_append.mp hpair).2.1).1 p
      List.mem_cons_self
    obtain rfl := h.eq_root_of_traces hback hk
    have hp : p ∈ (s.bundle entry source).order := by simp [hsplit]
    obtain ⟨⟨k', hk'⟩, -⟩ := Assembly.mem_order_iff.mp hp
    exact absurd (hlt k' hk') (not_lt.mpr (TraceKey.under_root k').le)

theorem entryLast_iff (h : s.Complete lib entry initial loaded) :
    (s.resolution entry (lib.eval entry hg)).EntryLast lib entry hg ↔ ¬lib.LeadsBack entry := by
  have hnodup := (h.gathers hg).nodup
  constructor
  -- The module that leads back would stand in front of the entry and share its path.
  · rintro ⟨front, texts, horder, -, -, hfront⟩ ⟨d, hd, hp⟩
    rw [horder] at hnodup
    exact (List.nodup_append.mp hnodup).2.2 _ (hfront d hd) _ List.mem_cons_self hp
  · intro hback
    obtain ⟨front, horder⟩ := h.exists_front (lib.eval entry hg).source hback
    have hmem := (h.gathers hg).mem_order
    rw [resolution_order, horder] at hnodup hmem
    have hne : ∀ p ∈ front, p ≠ entry.path := fun p hp =>
      (List.nodup_append.mp hnodup).2.2 p hp _ List.mem_cons_self
    refine ⟨front, front.filterMap (s.sources entry (lib.eval entry hg).source).find?, horder,
      ?_, forall₂_filterMap fun p hp => ?_, fun d hd => ?_⟩
    · rw [resolution_source, horder, List.filterMap_append,
        List.filterMap_cons_some (find?_sources_entry s), List.filterMap_nil, String.join_append]
      simp [String.join]
    · exact h.ownText_of_mem_bundle (horder ▸ List.mem_append_left _ hp) (hne p hp)
    · have hd' := (hmem d.path).mpr (.inr ⟨d, hd, rfl⟩)
      refine (List.mem_append.mp hd').resolve_right fun hp => hback ⟨d, hd, ?_⟩
      exact List.mem_singleton.mp hp

end Session.Complete

/-! ## Entries -/

namespace Resolver

variable {r : Resolver} {entry : Document} {clock : Nat} {initial : List Fetched} {run : Run}
  {res : Resolution}

theorem Resolves.exists_complete (h : r.Resolves entry clock initial run)
    (hres : run.answer = .ok (.finished res)) : ∃ (s : Session) (loaded : _),
      s.Complete r.library entry initial loaded ∧
      ∃ hg, res = s.resolution entry (r.library.eval entry hg) := by
  obtain ⟨t, loaded, -, hc, rfl⟩ := h.exists_finished hres
  obtain ⟨hg, heval⟩ := hc.link_eq_eval
  rw [Session.finish_eq hc.entry_ended, heval] at hres
  cases hres
  exact ⟨t, loaded, hc, hg, rfl⟩

/-- An entry that is fetched comes last: an import that led back to it would close a circle. -/
theorem resolveEntry_entryLast (r : Resolver) (specifier : String)
    (h : (r.resolveEntry specifier).answer = .ok (.finished res)) :
    ∃ entry, r.library.document? (entryPath specifier) = some entry ∧
      ∃ hg, res.EntryLast r.library entry hg := by
  obtain ⟨entry, s, loaded, hdoc, -, hc, -, hg, rfl⟩ := finished_cases h
  refine ⟨entry, hdoc, hg, hc.entryLast_iff.mpr ?_⟩
  rintro ⟨d, hd, hp⟩
  obtain ⟨c, -, hn⟩ := Relation.TransGen.tail'_iff.mp hd
  have hd' := hn.2
  rw [hp, Library.document?_path hdoc] at hd'
  cases hd'
  exact hg.not_cycle hd

/-- A resolution of a given text holds the entry and the modules that imports lead to. The entry
comes last, behind the own texts of all those modules, exactly when no import leads back to its
path. -/
theorem resolveSource_entryLast_iff (r : Resolver) (path : ModulePath) (text : String)
    (res : Resolution) (h : (r.resolveSource path text).answer = .ok (.finished res)) :
    ∃ sheet, Stylesheet.parse text = .ok sheet ∧ ∃ hg : r.library.Grounded ⟨path, sheet⟩,
      res.Gathers r.library ⟨path, sheet⟩ hg ∧
      (res.EntryLast r.library ⟨path, sheet⟩ hg ↔ ¬r.library.LeadsBack ⟨path, sheet⟩) := by
  cases hparse : Stylesheet.parse text with
  | error cause => simp [resolveSource, resolveFrom, hparse] at h
  | ok sheet =>
    obtain ⟨s, loaded, hc, hg, rfl⟩ := Resolves.exists_complete (.source hparse) h
    exact ⟨sheet, rfl, hg, hc.gathers hg, hc.entryLast_iff⟩

/-! ## An example -/

/-- The module `a` imports `e`. -/
def homeward : Resolver where
  library := { texts := .ofList [
    (entryPath "e", ".x\x7b\x7d"),
    (entryPath "a", ":import(\"e\")\x7b\x7d.a\x7b\x7d")] }
  root := "."

def homewardText : String :=
  ":import(\"a\")\x7b\x7d.e\x7b\x7d"

def homewardEntry : Document where
  path := entryPath "e"
  sheet := ((Stylesheet.parse homewardText).toOption).get (by decide +kernel)

theorem resolves_homeward : homeward.Resolves homewardEntry 0 []
    (homeward.resolveSource (entryPath "e") homewardText) :=
  .source (Stylesheet.toOption_parse_eq_some_iff.mp (Option.some_get _).symm)

def homewardEnd : Session :=
  ((homeward.start 0 []).turnWithin homeward.library homewardEntry 3).get (by decide +kernel)

def homewardResolution : Resolution where
  source := ".e\x7b\x7d.a\x7b\x7d"
  exports := ∅
  order := [entryPath "e", entryPath "a"]
  errors := []

theorem resolveSource_homeward :
    (homeward.resolveSource (entryPath "e") homewardText).answer =
      .ok (.finished homewardResolution) := by
  have hturn : (homeward.start 0 []).turnWithin homeward.library homewardEntry 3 =
      some homewardEnd := (Option.some_get _).symm
  have hsorted : (homewardEnd.traces homewardEntry).entries.Pairwise
      fun a b => compare a.1 b.1 != .gt := by decide +kernel
  have hend : homewardEnd.endings? .root homewardEntry = some [some ∅] := by decide +kernel
  rw [resolves_homeward.run_eq, Session.run?_eq_of_within hturn (.inl (by rw [hend]; rfl))]
  dsimp only
  rw [Session.finish_eq_of_pairwise hend hsorted]
  decide +kernel

theorem homeward_entryLast_iff :
    ∃ sheet, Stylesheet.parse homewardText = .ok sheet ∧
      ∃ hg : homeward.library.Grounded ⟨entryPath "e", sheet⟩,
        homewardResolution.Gathers homeward.library ⟨entryPath "e", sheet⟩ hg ∧
        (homewardResolution.EntryLast homeward.library ⟨entryPath "e", sheet⟩ hg ↔
          ¬homeward.library.LeadsBack ⟨entryPath "e", sheet⟩) :=
  resolveSource_entryLast_iff _ _ _ _ resolveSource_homeward

/-- An import leads back to the entry's path. Its module's text is lost, and the entry comes before
the module that imports it. -/
theorem not_entryLast_homeward :
    (homeward.resolveSource (entryPath "e") homewardText).answer =
      .ok (.finished homewardResolution) ∧
    homewardResolution.order = [entryPath "e", entryPath "a"] ∧
    homewardResolution.source = ".e\x7b\x7d.a\x7b\x7d" ∧
    ∀ hg, ¬homewardResolution.EntryLast homeward.library homewardEntry hg := by
  refine ⟨resolveSource_homeward, rfl, rfl, fun hg => ?_⟩
  rintro ⟨front, texts, horder, -⟩
  have hlast := congrArg List.getLast? horder
  rw [List.getLast?_concat] at hlast
  exact absurd hlast (by decide)

end Resolver

end StyleBundle
