import Mathlib.Data.Finite.Sigma
import Mathlib.Data.Set.Finite.Lattice
import Mathlib.Data.Set.Finite.Lemmas
import Mathlib.Logic.Relation
import Mathlib.Order.WellFounded
import StyleBundle.Resolution.Session
import StyleBundle.Proofs.TraceOrder

/-!
# The import tree

The documents that a library's texts make, and the tree that unfolds when each import of a document
is followed to the document it names. A position in the tree is a trace key. A document whose chains
of imports all end is grounded: its tree is finite, and no document stands below itself.
-/

namespace StyleBundle

namespace Library

/-! ## Documents and their imports -/

def sheet? (lib : Library) (p : ModulePath) : Option Stylesheet :=
  match lib.answer p with
  | .ok text => (Stylesheet.parse text).toOption
  | .error _ => none

def document? (lib : Library) (p : ModulePath) : Option Document :=
  (lib.sheet? p).map (⟨p, ·⟩)

variable {lib : Library}

theorem path_of_document? {p : ModulePath} {d : Document} (h : lib.document? p = some d) :
    d.path = p := by
  obtain ⟨sheet, -, rfl⟩ := Option.map_eq_some_iff.mp h
  rfl

theorem document?_path {p : ModulePath} {d : Document} (h : lib.document? p = some d) :
    lib.document? d.path = some d := by
  rwa [path_of_document? h]

theorem sheet?_eq_some_iff {p : ModulePath} {sheet : Stylesheet} :
    lib.sheet? p = some sheet ↔
      ∃ text, lib.answer p = .ok text ∧ Stylesheet.parse text = .ok sheet := by
  unfold sheet?
  cases lib.answer p with
  | error e => simp
  | ok text => simp [Stylesheet.toOption_parse_eq_some_iff]

theorem answer_eq_ok_iff {p : ModulePath} {text : String} :
    lib.answer p = .ok text ↔ lib.texts.find? p = some text := by
  unfold answer
  cases lib.texts.find? p <;> simp

theorem mem_keys_of_document? {p : ModulePath} {d : Document} (h : lib.document? p = some d) :
    p ∈ lib.texts.keys := by
  obtain ⟨sheet, hs, -⟩ := Option.map_eq_some_iff.mp h
  obtain ⟨text, ht, -⟩ := sheet?_eq_some_iff.mp hs
  exact Table.mem_keys_of_find? (answer_eq_ok_iff.mp ht)

/-- The failure of an import, standing in the module `importer`, of a module that cannot be
loaded. -/
def refusal? (lib : Library) (importer path : ModulePath) : Option ImportError :=
  match lib.answer path with
  | .error cause => some (.fetchFailed path importer cause)
  | .ok text =>
    match Stylesheet.parse text with
    | .error cause => some (.parseFailed path text cause)
    | .ok _ => none

theorem document?_of_refusal? {importer p : ModulePath} {e : ImportError}
    (h : lib.refusal? importer p = some e) : lib.document? p = none := by
  unfold refusal? at h
  unfold document? sheet?
  cases ha : lib.answer p with
  | error cause => rfl
  | ok text =>
    cases hp : Stylesheet.parse text with
    | error cause => simp [hp, Except.toOption]
    | ok sheet => simp [ha, hp] at h

theorem refusal_or_document (lib : Library) (importer p : ModulePath) :
    (∃ e, lib.refusal? importer p = some e) ∨ ∃ d, lib.document? p = some d := by
  unfold refusal? document? sheet?
  cases lib.answer p with
  | error cause => exact .inl ⟨_, rfl⟩
  | ok text => cases hp : Stylesheet.parse text <;> simp [hp, Except.toOption]

end Library

def Document.targets (d : Document) : List ModulePath :=
  d.sheet.imports.map fun r => d.path.resolve r.source

namespace Library

/-- The document `d` imports the document `e` of the library. -/
def Needs (lib : Library) (d e : Document) : Prop :=
  e.path ∈ d.targets ∧ lib.document? e.path = some e

/-- The module `m` imports the module `n`, and both can be loaded. -/
def Imports (lib : Library) (m n : ModulePath) : Prop :=
  ∃ d e, lib.document? m = some d ∧ lib.document? n = some e ∧ lib.Needs d e

/-- Every chain of imports that starts from a document ends. -/
def Grounded (lib : Library) (d : Document) : Prop :=
  Acc (fun e d => lib.Needs d e) d

variable {lib : Library}

theorem Grounded.needs {d e : Document} (h : lib.Grounded d) (he : lib.Needs d e) :
    lib.Grounded e :=
  h.inv he

theorem Grounded.reaches {d e : Document} (h : lib.Grounded d)
    (he : Relation.ReflTransGen lib.Needs d e) : lib.Grounded e := by
  induction he with
  | refl => exact h
  | tail _ hn ih => exact ih.needs hn

theorem Grounded.not_cycle {d : Document} (h : lib.Grounded d) :
    ¬ Relation.TransGen lib.Needs d d := by
  have h' : Acc (fun e d => Relation.TransGen lib.Needs d e) d := by
    have : (fun e d => Relation.TransGen lib.Needs d e) =
        Relation.TransGen fun e d => lib.Needs d e := by
      funext e d
      exact propext Relation.transGen_swap.symm
    rw [this]
    exact Acc.transGen h
  clear h
  induction h' with
  | intro d _ ih => exact fun hc => ih d hc hc

/-! ## Cycles -/

theorem imports_of_needs {d e : Document} (hd : lib.document? d.path = some d)
    (h : lib.Needs d e) : lib.Imports d.path e.path :=
  ⟨d, e, hd, h.2, h⟩

theorem Imports.needs {m n : ModulePath} {d : Document} (h : lib.Imports m n)
    (hd : lib.document? m = some d) :
    ∃ e, lib.document? n = some e ∧ lib.Needs d e := by
  obtain ⟨d', e, hd', he, hn⟩ := h
  cases hd'.symm.trans hd
  exact ⟨e, he, hn⟩

theorem reflTransGen_imports {d e : Document} (hd : lib.document? d.path = some d)
    (h : Relation.ReflTransGen lib.Needs d e) :
    Relation.ReflTransGen lib.Imports d.path e.path ∧ lib.document? e.path = some e := by
  induction h with
  | refl => exact ⟨.refl, hd⟩
  | tail _ hn ih => exact ⟨ih.1.tail (imports_of_needs ih.2 hn), hn.2⟩

theorem transGen_imports {d e : Document} (hd : lib.document? d.path = some d)
    (h : Relation.TransGen lib.Needs d e) : Relation.TransGen lib.Imports d.path e.path := by
  obtain ⟨c, hc, hn⟩ := Relation.TransGen.tail'_iff.mp h
  obtain ⟨hr, hc'⟩ := reflTransGen_imports hd hc
  exact Relation.TransGen.tail' hr (imports_of_needs hc' hn)

theorem reflTransGen_needs {m n : ModulePath} {d : Document} (hd : lib.document? m = some d)
    (h : Relation.ReflTransGen lib.Imports m n) :
    ∃ e, lib.document? n = some e ∧ Relation.ReflTransGen lib.Needs d e := by
  induction h with
  | refl => exact ⟨d, hd, .refl⟩
  | tail _ hi ih =>
    obtain ⟨c, hc, hr⟩ := ih
    obtain ⟨e, he, hn⟩ := hi.needs hc
    exact ⟨e, he, hr.tail hn⟩

/-- No module that can be reached from `m` is reached from itself. -/
def Acyclic (lib : Library) (m : ModulePath) : Prop :=
  ∀ n, Relation.ReflTransGen lib.Imports m n → ¬ Relation.TransGen lib.Imports n n

theorem finite_documents (lib : Library) : {d | ∃ p, lib.document? p = some d}.Finite := by
  refine (lib.texts.keys.filterMap lib.document?).finite_toSet.subset ?_
  rintro d ⟨p, hp⟩
  exact List.mem_filterMap.mpr ⟨p, mem_keys_of_document? hp, hp⟩

/-- In a finite library a document is grounded when no cycle of imports can be reached from it. -/
theorem Acyclic.grounded {m : ModulePath} {d : Document} (h : lib.Acyclic m)
    (hd : lib.document? m = some d) : lib.Grounded d := by
  have hdp := document?_path hd
  have hm := path_of_document? hd
  let S := {e // Relation.ReflTransGen lib.Needs d e}
  let R : S → S → Prop := fun b a => Relation.TransGen lib.Needs a.1 b.1
  have hfin : Finite S := by
    refine (Set.Finite.subset (finite_documents lib) ?_).to_subtype
    exact fun e he => ⟨e.path, (reflTransGen_imports hdp he).2⟩
  have : IsTrans S R := ⟨fun _ _ _ hab hbc => hbc.trans hab⟩
  have : Std.Irrefl R := ⟨fun a ha => by
    obtain ⟨hr, ha'⟩ := reflTransGen_imports hdp a.2
    exact h _ (hm ▸ hr) (transGen_imports ha' ha)⟩
  have hwf : WellFounded R := Finite.wellFounded_of_trans_of_irrefl R
  have key : ∀ a : S, lib.Grounded a.1 := fun a =>
    hwf.induction (C := fun a => lib.Grounded a.1) a fun a ih =>
      Acc.intro _ fun e he => ih ⟨e, a.2.tail he⟩ (.single he)
  exact key ⟨d, .refl⟩

theorem Grounded.acyclic {m : ModulePath} {d : Document} (h : lib.Grounded d)
    (hd : lib.document? m = some d) : lib.Acyclic m := by
  intro n hn hc
  obtain ⟨e, he, hr⟩ := reflTransGen_needs hd hn
  obtain ⟨n', hn', hc'⟩ := Relation.TransGen.head'_iff.mp hc
  obtain ⟨e', he', hne⟩ := hn'.needs he
  obtain ⟨e'', he'', hr'⟩ := reflTransGen_needs he' hc'
  cases he''.symm.trans he
  exact (h.reaches hr).not_cycle (Relation.TransGen.head' hne hr')

/-- A rank that falls along every import rules cycles out. -/
theorem acyclic_of_rank (rank : ModulePath → Nat)
    (h : ∀ p ∈ lib.texts.keys, ∀ d ∈ lib.document? p, ∀ q ∈ d.targets, rank q < rank p)
    (m : ModulePath) : lib.Acyclic m := by
  have hlt : ∀ {p q}, Relation.TransGen lib.Imports p q → rank q < rank p := by
    intro p q hpq
    induction hpq with
    | single hi =>
      obtain ⟨d, e, hd, he, ht, -⟩ := hi
      exact h _ (mem_keys_of_document? hd) d hd _ (path_of_document? he ▸ ht)
    | tail _ hi ih =>
      obtain ⟨d, e, hd, he, ht, -⟩ := hi
      exact (h _ (mem_keys_of_document? hd) d hd _ (path_of_document? he ▸ ht)).trans ih
  exact fun n _ hc => lt_irrefl _ (hlt hc)

/-! ## Positions -/

/-- The document `d` stands at the position `k` of the tree below `entry`. -/
inductive Located (lib : Library) (entry : Document) : TraceKey → Document → Prop
  | root : Located lib entry .root entry
  | child {k : TraceKey} {d e : Document} {i : Nat} {r : ImportRule} : Located lib entry k d →
      d.sheet.imports[i]? = some r → lib.document? (d.path.resolve r.source) = some e →
      Located lib entry (k.child i) e

/-- The import at the position `k` names the module `p`. -/
def Named (lib : Library) (entry : Document) (k : TraceKey) (p : ModulePath) : Prop :=
  ∃ k' d i r, lib.Located entry k' d ∧ d.sheet.imports[i]? = some r ∧ k = k'.child i ∧
    p = d.path.resolve r.source

variable {entry : Document}

theorem located_root_iff {d : Document} : lib.Located entry .root d ↔ d = entry := by
  constructor
  · generalize hk : TraceKey.root = k
    rintro (_ | ⟨-, -, -⟩)
    · rfl
    · exact absurd hk.symm (TraceKey.child_ne_root _ _)
  · rintro rfl
    exact .root

theorem located_child_iff {k : TraceKey} {i : Nat} {e : Document} :
    lib.Located entry (k.child i) e ↔ ∃ d r, lib.Located entry k d ∧
      d.sheet.imports[i]? = some r ∧ lib.document? (d.path.resolve r.source) = some e := by
  constructor
  · generalize hk : k.child i = k'
    rintro (_ | ⟨hd, hr, he⟩)
    · exact absurd hk (TraceKey.child_ne_root _ _)
    · obtain ⟨rfl, rfl⟩ := TraceKey.child_inj hk
      exact ⟨_, _, hd, hr, he⟩
  · rintro ⟨d, r, hd, hr, he⟩
    exact .child hd hr he

theorem Located.unique {k : TraceKey} {d d' : Document} (h : lib.Located entry k d)
    (h' : lib.Located entry k d') : d = d' := by
  induction h generalizing d' with
  | root => exact (located_root_iff.mp h').symm
  | child _ hr he ih =>
    obtain ⟨d₁, r₁, hd₁, hr₁, he₁⟩ := located_child_iff.mp h'
    cases ih hd₁
    cases hr.symm.trans hr₁
    exact Option.some.inj (he.symm.trans he₁)

theorem Located.document? {k : TraceKey} {d : Document} (h : lib.Located entry k d) :
    k = .root ∧ d = entry ∨ k ≠ .root ∧ lib.document? d.path = some d := by
  cases h with
  | root => exact .inl ⟨rfl, rfl⟩
  | child _ _ he => exact .inr ⟨TraceKey.child_ne_root _ _, document?_path he⟩

theorem Named.unique {k : TraceKey} {p q : ModulePath} (hp : lib.Named entry k p)
    (hq : lib.Named entry k q) : p = q := by
  obtain ⟨k₁, d₁, i₁, r₁, hd₁, hr₁, rfl, rfl⟩ := hp
  obtain ⟨k₂, d₂, i₂, r₂, hd₂, hr₂, hk, rfl⟩ := hq
  obtain ⟨rfl, rfl⟩ := TraceKey.child_inj hk
  cases hd₁.unique hd₂
  cases hr₁.symm.trans hr₂
  rfl

theorem Named.located {k : TraceKey} {p : ModulePath} {e : Document} (h : lib.Named entry k p)
    (he : lib.document? p = some e) : lib.Located entry k e := by
  obtain ⟨k', d, i, r, hd, hr, rfl, rfl⟩ := h
  exact .child hd hr he

theorem Located.named {k : TraceKey} {e : Document} (h : lib.Located entry k e)
    (hk : k ≠ .root) : lib.Named entry k e.path := by
  cases h with
  | root => exact absurd rfl hk
  | child hd hr he => exact ⟨_, _, _, _, hd, hr, rfl, path_of_document? he⟩

theorem needs_of_getElem? {d e : Document} {i : Nat} {r : ImportRule}
    (hr : d.sheet.imports[i]? = some r) (he : lib.document? (d.path.resolve r.source) = some e) :
    lib.Needs d e :=
  ⟨List.mem_map.mpr ⟨r, List.mem_of_getElem? hr, (path_of_document? he).symm⟩,
    document?_path he⟩

theorem Needs.getElem? {d e : Document} (h : lib.Needs d e) :
    ∃ (i : Nat) (r : ImportRule), d.sheet.imports[i]? = some r ∧
      lib.document? (d.path.resolve r.source) = some e := by
  obtain ⟨r, hr, hp⟩ := List.mem_map.mp h.1
  obtain ⟨i, hi⟩ := List.mem_iff_getElem?.mp hr
  exact ⟨i, r, hi, hp ▸ h.2⟩

theorem Located.above {k k' : TraceKey} {e : Document} (h : lib.Located entry k e)
    (hk : k.Under k') :
    ∃ d, lib.Located entry k' d ∧ Relation.ReflTransGen lib.Needs d e ∧
      (k ≠ k' → Relation.TransGen lib.Needs d e) := by
  induction h with
  | root =>
    cases le_antisymm hk.le (TraceKey.under_root k').le
    exact ⟨entry, .root, .refl, fun h => absurd rfl h⟩
  | child hd hr he ih =>
    rcases hk.child_cases with rfl | hk
    · exact ⟨_, .child hd hr he, .refl, fun h => absurd rfl h⟩
    · obtain ⟨c, hc, hcd, -⟩ := ih hk
      have hn := needs_of_getElem? hr he
      exact ⟨c, hc, hcd.tail hn, fun _ => Relation.TransGen.tail' hcd hn⟩

/-- No document of a tree whose chains of imports end stands below itself. -/
theorem Located.eq_of_under {k k' : TraceKey} {d : Document} (hg : lib.Grounded entry)
    (h : lib.Located entry k d) (h' : lib.Located entry k' d) (hk : k.Under k') : k = k' := by
  by_contra hne
  obtain ⟨d', hd', -, ht⟩ := h.above hk
  cases hd'.unique h'
  obtain ⟨e, he, hr, -⟩ := h.above (TraceKey.under_root k)
  cases located_root_iff.mp he
  exact (hg.reaches hr).not_cycle (ht hne)

theorem exists_located {d : Document} (h : Relation.ReflTransGen lib.Needs entry d) :
    ∃ k, lib.Located entry k d := by
  induction h with
  | refl => exact ⟨_, .root⟩
  | tail _ hn ih =>
    obtain ⟨k, hk⟩ := ih
    obtain ⟨i, r, hr, he⟩ := hn.getElem?
    exact ⟨_, .child hk hr he⟩

theorem Located.reaches {k : TraceKey} {d : Document} (h : lib.Located entry k d) :
    Relation.ReflTransGen lib.Needs entry d := by
  obtain ⟨e, he, hr, -⟩ := h.above (TraceKey.under_root k)
  cases located_root_iff.mp he
  exact hr

theorem Located.loaded (hentry : lib.document? entry.path = some entry) {k : TraceKey}
    {d : Document} (h : lib.Located entry k d) : lib.document? d.path = some d := by
  rcases h.document? with ⟨-, rfl⟩ | ⟨-, hd⟩
  · exact hentry
  · exact hd

theorem Located.eq_of_path (hentry : lib.document? entry.path = some entry) {k k' : TraceKey}
    {d e : Document} (h : lib.Located entry k d) (h' : lib.Located entry k' e)
    (hp : d.path = e.path) : d = e := by
  have hd := h.loaded hentry
  rw [hp, h'.loaded hentry] at hd
  exact (Option.some.inj hd).symm

/-- The modules of the tree are those that imports lead to from the entry. -/
theorem located_iff_imports (hentry : lib.document? entry.path = some entry) {p : ModulePath} :
    (∃ k d, lib.Located entry k d ∧ d.path = p) ↔
      Relation.ReflTransGen lib.Imports entry.path p := by
  constructor
  · rintro ⟨k, d, hk, rfl⟩
    exact (reflTransGen_imports hentry hk.reaches).1
  · intro h
    obtain ⟨d, hd, hr⟩ := reflTransGen_needs hentry h
    obtain ⟨k, hk⟩ := exists_located hr
    exact ⟨k, d, hk, path_of_document? hd⟩

/-! ## First positions -/

/-- The document `d` stands at `k`, and nowhere before. -/
def IsFirst (lib : Library) (entry : Document) (k : TraceKey) (d : Document) : Prop :=
  lib.Located entry k d ∧ ∀ k', lib.Located entry k' d → k ≤ k'

/-- The module `m` is the importer at the first position of the module `n`. -/
def FirstImporter (lib : Library) (entry : Document) (m n : ModulePath) : Prop :=
  ∃ k i d e, lib.IsFirst entry (k.child i) e ∧ lib.Located entry k d ∧ d.path = m ∧ e.path = n

theorem finite_below {d : Document} (h : lib.Grounded d) :
    ∀ {k : TraceKey}, lib.Located entry k d →
      {k' | k'.Under k ∧ ∃ e, lib.Located entry k' e}.Finite := by
  induction h with
  | intro d _ ih =>
    intro k hk
    let below (i : Nat) : Set TraceKey := {k' | k'.Under (k.child i) ∧ ∃ e, lib.Located entry k' e}
    have hfin : (⋃ i ∈ Finset.range d.sheet.imports.length, below i).Finite := by
      refine Set.Finite.biUnion (Finset.finite_toSet _) fun i hi => ?_
      have hi : i < d.sheet.imports.length := by simpa using hi
      cases he : lib.document? (d.path.resolve d.sheet.imports[i].source) with
      | some e =>
        have hr := List.getElem?_eq_getElem hi
        exact ih e (needs_of_getElem? hr he) (.child hk hr he)
      -- Nothing is located below an import that cannot be loaded.
      | none =>
        refine Set.finite_empty.subset ?_
        rintro k' ⟨hu, e, hk'⟩
        obtain ⟨c, hc, -⟩ := hk'.above hu
        obtain ⟨d', r, hd', hr, hc⟩ := located_child_iff.mp hc
        cases hk.unique hd'
        rw [List.getElem?_eq_getElem hi, Option.some.injEq] at hr
        rw [← hr, he] at hc
        cases hc
    refine (hfin.insert k).subset ?_
    rintro k' ⟨hu, e, hk'⟩
    rcases TraceKey.under_iff_child.mp hu with rfl | ⟨i, hu⟩
    · exact Set.mem_insert ..
    · obtain ⟨c, hc, -⟩ := hk'.above hu
      obtain ⟨d', r, hd', hr, -⟩ := located_child_iff.mp hc
      cases hk.unique hd'
      have hi := (List.getElem?_eq_some_iff.mp hr).1
      exact .inr (Set.mem_biUnion (by simpa using hi) ⟨hu, e, hk'⟩)

theorem exists_isFirst {k : TraceKey} {d : Document} (hg : lib.Grounded entry)
    (h : lib.Located entry k d) : ∃ k', lib.IsFirst entry k' d := by
  have hfin : {k' | lib.Located entry k' d}.Finite :=
    (finite_below hg .root).subset fun k' hk' => ⟨TraceKey.under_root k', d, hk'⟩
  obtain ⟨k', hk', hmin⟩ := Set.exists_min_image _ id hfin ⟨k, h⟩
  exact ⟨k', hk', hmin⟩

theorem IsFirst.unique {k k' : TraceKey} {d : Document} (h : lib.IsFirst entry k d)
    (h' : lib.IsFirst entry k' d) : k = k' :=
  le_antisymm (h.2 k' h'.1) (h'.2 k h.1)

/-- The importer at the first position of a document stands at its own first position there. -/
theorem IsFirst.parent {k : TraceKey} {i : Nat} {d e : Document} (hg : lib.Grounded entry)
    (h : lib.IsFirst entry (k.child i) e) (hd : lib.Located entry k d) :
    lib.IsFirst entry k d := by
  refine ⟨hd, fun k' hk' => ?_⟩
  by_contra hlt
  rw [not_le] at hlt
  obtain ⟨d', r, hd', hr, he⟩ := located_child_iff.mp h.1
  cases hd.unique hd'
  have hu : ¬ k'.Under k := fun hu => hlt.ne (hk'.eq_of_under hg hd hu)
  have hlt' := TraceKey.lt_of_under hlt hu (TraceKey.child_under k' i) (TraceKey.child_under k i)
  exact absurd (h.2 _ (.child hk' hr he)) (not_le.mpr hlt')

/-! ## Charts -/

def follow? (lib : Library) : Document → List Nat → Option Document
  | d, [] => some d
  | d, i :: is => do
    let r ← d.sheet.imports[i]?
    let e ← lib.document? (d.path.resolve r.source)
    lib.follow? e is

theorem Located.follow? {k : TraceKey} {d e : Document} (h : lib.Located entry k d) :
    ∀ {is : List Nat}, lib.follow? d is = some e → lib.Located entry ⟨k.indices ++ is⟩ e
  | [], hf => by
    cases hf
    simpa using h
  | i :: is, hf => by
    obtain ⟨r, hr, hf⟩ := Option.bind_eq_some_iff.mp hf
    obtain ⟨c, hc, hf⟩ := Option.bind_eq_some_iff.mp hf
    simpa [TraceKey.child] using (h.child hr hc).follow? hf

/-- The list `chart` holds the positions of the tree with the modules that stand there. -/
def Charts (lib : Library) (entry : Document) (chart : List (TraceKey × ModulePath)) : Prop :=
  ∀ k p, (k, p) ∈ chart ↔ ∃ d, lib.Located entry k d ∧ d.path = p

theorem charts_of {chart : List (TraceKey × ModulePath)}
    (hentry : lib.document? entry.path = some entry) (hroot : (.root, entry.path) ∈ chart)
    (hfollow : ∀ x ∈ chart, (lib.follow? entry x.1.indices).map Document.path = some x.2)
    (hclosed : ∀ x ∈ chart, ∀ d ∈ lib.document? x.2, ∀ i < d.targets.length,
      ∀ p ∈ d.targets[i]?, (lib.document? p).isSome → (x.1.child i, p) ∈ chart) :
    lib.Charts entry chart := by
  intro k p
  constructor
  · intro hmem
    obtain ⟨d, hd, hp⟩ := Option.map_eq_some_iff.mp (hfollow _ hmem)
    exact ⟨d, by simpa [TraceKey.root] using Located.root.follow? hd, hp⟩
  · rintro ⟨d, hd, rfl⟩
    suffices h : (k, d.path) ∈ chart ∧ lib.document? d.path = some d from h.1
    induction hd with
    | root => exact ⟨hroot, hentry⟩
    | @child k d e i r _ hr he ih =>
      have ht : d.targets[i]? = some (d.path.resolve r.source) := by simp [Document.targets, hr]
      have hmem := hclosed _ ih.1 d ih.2 i (List.getElem?_eq_some_iff.mp ht).1 _ ht (by simp [he])
      rw [← path_of_document? he] at hmem
      exact ⟨hmem, document?_path he⟩

theorem Charts.firstImporter {chart : List (TraceKey × ModulePath)} (h : lib.Charts entry chart)
    {k : TraceKey} {i : Nat} {m n : ModulePath} (hm : (k, m) ∈ chart) (hn : (k.child i, n) ∈ chart)
    (hfirst : ∀ x ∈ chart, x.2 = n → k.child i ≤ x.1) : lib.FirstImporter entry m n := by
  obtain ⟨d, hd, rfl⟩ := (h _ _).mp hm
  obtain ⟨e, he, rfl⟩ := (h _ _).mp hn
  exact ⟨k, i, d, e, ⟨he, fun k' hk' => hfirst (k', e.path) ((h _ _).mpr ⟨e, hk', rfl⟩) rfl⟩,
    hd, rfl, rfl⟩

end Library

end StyleBundle
