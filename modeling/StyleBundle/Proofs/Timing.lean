import StyleBundle.Proofs.Walk

/-!
# When timing does not show

Two runs that record every first position make the same bundle, and a run without delays is one of
them. A run misses a first position when a module is delayed that is the first importer of another
while that other one is reached around it. So the bundle is the same for all delays exactly when
each module that is the first importer of some module is reached through its own first importer
only.
-/

namespace StyleBundle

namespace Library

/-- Wherever the module `n` stands in the tree, the module `m` stands above it. -/
def Dominates (lib : Library) (entry : Document) (m n : ModulePath) : Prop :=
  ∀ k d, lib.Located entry k d → d.path = n →
    ∃ k' c, k.Under k' ∧ k ≠ k' ∧ lib.Located entry k' c ∧ c.path = m

/-! ## Delays are no part of the modules -/

def withDelay (lib : Library) (delay : ModulePath → Nat) : Library :=
  { lib with delay }

variable {lib : Library} {delay : ModulePath → Nat} {entry : Document}

theorem located_withDelay {k : TraceKey} {d : Document} :
    (lib.withDelay delay).Located entry k d ↔ lib.Located entry k d := by
  constructor <;> intro h
  · induction h with
    | root => exact .root
    | child _ hr he ih => exact .child ih hr he
  · induction h with
    | root => exact .root
    | child _ hr he ih => exact .child ih hr he

theorem isFirst_withDelay {k : TraceKey} {d : Document} :
    (lib.withDelay delay).IsFirst entry k d ↔ lib.IsFirst entry k d := by
  simp only [IsFirst, located_withDelay]

theorem firstImporter_withDelay {m n : ModulePath} :
    (lib.withDelay delay).FirstImporter entry m n ↔ lib.FirstImporter entry m n := by
  simp only [FirstImporter, located_withDelay, isFirst_withDelay]

theorem dominates_withDelay {m n : ModulePath} :
    (lib.withDelay delay).Dominates entry m n ↔ lib.Dominates entry m n := by
  simp only [Dominates, located_withDelay]

theorem eval_withDelay {d : Document} (hd : lib.Grounded d) :
    (lib.withDelay delay).eval d hd = lib.eval d hd := by
  classical
  induction hd with
  | intro d hd ih =>
    let exports (p : ModulePath) : Option ExportTable :=
      match lib.document? p with
      | some e => if he : lib.Grounded e then some (lib.eval e he).exports else none
      | none => none
    have hsome : ∀ p e (he : lib.Grounded e), lib.document? p = some e →
        exports p = some (lib.eval e he).exports := by
      intro p e he hdoc
      simp only [exports, hdoc, dif_pos he]
    have hnone : ∀ p, lib.document? p = none → exports p = none := by
      intro p hdoc
      simp only [exports, hdoc]
    have h₁ : lib.eval d (.intro d hd) = d.evaluate exports :=
      eval_eq_evaluate (.intro d hd) (fun p _ => hnone p) (fun p _ => hsome p)
    have hd' : (lib.withDelay delay).Grounded d := .intro d hd
    have h₂ : (lib.withDelay delay).eval d hd' = d.evaluate exports := by
      refine eval_eq_evaluate hd' (fun p _ => hnone p) fun p hp e he hdoc => ?_
      have hn : lib.Needs d e := ⟨path_of_document? hdoc ▸ hp, document?_path hdoc⟩
      rw [hsome p e he hdoc, ← ih e hn]
    exact h₂.trans h₁.symm

end Library

namespace Session.Complete

open Library

variable {lib : Library} {entry : Document} {initial : List Fetched} {s : Session}
  {loaded : List (Option ExportTable)}

/-! ## Runs that miss no first position make one bundle -/

/-- A list without duplicates is given by its members and by which of them comes before which. -/
theorem eq_of_pair_sublist {α : Type} [DecidableEq α] {l₁ l₂ : List α} (h₁ : l₁.Nodup)
    (h₂ : l₂.Nodup) (hmem : ∀ a, a ∈ l₁ ↔ a ∈ l₂)
    (h : ∀ a b, [a, b].Sublist l₁ → [a, b].Sublist l₂) : l₁ = l₂ := by
  have hperm : l₁.Perm l₂ := (List.perm_ext_iff_of_nodup h₁ h₂).mpr hmem
  have hpair₁ : l₁.Pairwise fun a b => [a, b].Sublist l₂ :=
    List.pairwise_iff_forall_sublist.mpr fun hab => h _ _ hab
  have hpair₂ : l₂.Pairwise fun a b => [a, b].Sublist l₂ :=
    List.pairwise_iff_forall_sublist.mpr fun hab => hab
  refine hperm.eq_of_pairwise (fun a b _ _ hab hba => ?_) hpair₁ hpair₂
  have hlt : l₂.Pairwise fun a b => l₂.idxOf a < l₂.idxOf b :=
    List.pairwise_iff_getElem.mpr fun i j hi hj hij => by
      rwa [h₂.idxOf_getElem i hi, h₂.idxOf_getElem j hj]
  have hlt' : ∀ {a b}, [a, b].Sublist l₂ → l₂.idxOf a < l₂.idxOf b :=
    List.pairwise_iff_forall_sublist.mp hlt
  exact absurd (hlt' hab) (lt_asymm (hlt' hba))

theorem bundle_eq {lib₁ lib₂ : Library} {s₁ s₂ : Session} {initial₁ initial₂ : List Fetched}
    {loaded₁ loaded₂ : List (Option ExportTable)} (hg₁ : lib₁.Grounded entry)
    (hg₂ : lib₂.Grounded entry) (h₁ : s₁.Complete lib₁ entry initial₁ loaded₁)
    (h₂ : s₂.Complete lib₂ entry initial₂ loaded₂)
    (hentry₁ : lib₁.document? entry.path = some entry)
    (hentry₂ : lib₂.document? entry.path = some entry)
    (hloc : ∀ k d, lib₁.Located entry k d ↔ lib₂.Located entry k d)
    (heval : ∀ d (hd₁ : lib₁.Grounded d) (hd₂ : lib₂.Grounded d), lib₁.eval d hd₁ = lib₂.eval d hd₂)
    (hin₁ : InPlace lib₁ entry s₁) (hin₂ : InPlace lib₂ entry s₂) :
    s₁.bundle entry (lib₁.eval entry hg₁).source =
      s₂.bundle entry (lib₂.eval entry hg₂).source := by
  have hfirst : ∀ {k d}, lib₁.IsFirst entry k d → lib₂.IsFirst entry k d := by
    intro k d h
    simpa only [IsFirst, hloc] using h
  have horder : (s₁.bundle entry (lib₁.eval entry hg₁).source).order =
      (s₂.bundle entry (lib₂.eval entry hg₂).source).order := by
    refine eq_of_pair_sublist Assembly.nodup_order Assembly.nodup_order (fun p => ?_)
      fun p q h => ?_
    · rw [h₁.mem_bundle_iff _, h₂.mem_bundle_iff _]
      simp only [hloc]
    · have hp := h.subset (show p ∈ [p, q] by simp)
      have hq := h.subset (show q ∈ [p, q] by simp)
      obtain ⟨k, d, hd, rfl⟩ := (h₁.mem_bundle_iff _).mp hp
      obtain ⟨k', e, he, rfl⟩ := (h₁.mem_bundle_iff _).mp hq
      obtain ⟨a, ha⟩ := Library.exists_isFirst hg₁ hd
      obtain ⟨b, hb⟩ := Library.exists_isFirst hg₁ he
      rw [h₁.pair_sublist_order_iff_first hentry₁ hin₁ ha hb] at h
      rwa [h₂.pair_sublist_order_iff_first hentry₂ hin₂ (hfirst ha) (hfirst hb)]
  have hsource : ∀ p ∈ (s₁.bundle entry (lib₁.eval entry hg₁).source).order,
      (s₁.sources entry (lib₁.eval entry hg₁).source).find? p =
        (s₂.sources entry (lib₂.eval entry hg₂).source).find? p := by
    intro p hp
    obtain ⟨k, d, hd, rfl⟩ := (h₁.mem_bundle_iff _).mp hp
    obtain ⟨hd₁, hs₁⟩ := h₁.find?_sources hentry₁ hg₁ hd
    obtain ⟨hd₂, hs₂⟩ := h₂.find?_sources hentry₂ hg₂ ((hloc k d).mp hd)
    rw [hs₁, hs₂, heval]
  have hbundle : ∀ (s : Session) (text : String), s.bundle entry text =
      ⟨String.join ((s.bundle entry text).order.filterMap (s.sources entry text).find?),
        (s.bundle entry text).order⟩ := fun _ _ => rfl
  rw [hbundle s₁, hbundle s₂, ← horder, List.filterMap_congr hsource]

/-! ## Modules that are reached through their first importers -/

/-- The import at a key has asked no later than those below it. -/
theorem age_le_of_under (h : s.Complete lib entry initial loaded) {k k' : TraceKey}
    (hk : s.supplies.contains k) (hu : k.Under k') (hroot : k' ≠ .root) :
    s.supplies.contains k' ∧ s.age k' ≤ s.age k := by
  induction k using TraceKey.child_induction with
  | root => exact absurd (le_antisymm (TraceKey.under_root k').le hu.le) hroot
  | child k i ih =>
    rcases hu.child_cases with rfl | hu
    · exact ⟨hk, le_rfl⟩
    · have hkr : k ≠ .root := by
        rintro rfl
        exact hroot (le_antisymm (TraceKey.under_root k').le hu.le)
      obtain ⟨hc, hlt⟩ := h.aged.parent hk hkr
      obtain ⟨hc', hle⟩ := ih hc hu
      exact ⟨hc', hle.trans hlt.le⟩

/-- A run records every first position when first importers are not reached around. -/
theorem inPlace_of_dominates (h : s.Complete lib entry initial loaded)
    (hentry : lib.document? entry.path = some entry)
    (hdom : ∀ d m p, lib.FirstImporter entry m d → lib.FirstImporter entry d p →
      lib.Dominates entry m d) : InPlace lib entry s := by
  refine h.inPlace_of_importers fun {k j i m c d} hm hholds hfirst hd => ?_
  obtain ⟨a, ha⟩ := h.exists_holds hfirst.1
  have hloc := h.wired.located ha
  -- The load of `c` was started below the open position of its first importer.
  obtain ⟨k', m', hu, hne, hm', hpath⟩ := hdom c.path m.path d.path
    ⟨k, j, m, c, hfirst, hm, rfl, rfl⟩ ⟨k.child j, i, c, d, hd, hfirst.1, rfl, rfl⟩ a c hloc rfl
  cases hm'.eq_of_path hentry hm hpath
  obtain ⟨m'', hm''⟩ := h.holds_of_under ha hu
  cases (h.wired.located hm'').unique hm'
  obtain rfl := h.holds_inj hm'' hholds
  obtain ⟨j', hj'⟩ := (TraceKey.under_iff_child.mp hu).resolve_left hne
  rcases lt_trichotomy j j' with hlt | rfl | hlt
  · -- The import at the first position would have asked before, and started the load.
    rcases ha with ⟨rfl, -⟩ | ha
    · exact absurd (le_antisymm (TraceKey.under_root _).le hj'.le) (TraceKey.child_ne_root _ _)
    · obtain ⟨l, hl, hld, -⟩ := h.wired.opened ha
      have hasked : s.supplies.contains a :=
        Option.isSome_iff_exists.mpr ⟨_, h.wired.starts hl⟩
      obtain ⟨hasked', hle⟩ := h.age_le_of_under hasked hj' (TraceKey.child_ne_root _ _)
      obtain ⟨hcj, hage⟩ := h.aged.earlier hasked' hlt
      have hn := hfirst.1.named (TraceKey.child_ne_root _ _)
      rw [path_of_document? hld] at hn
      exact absurd (h.aged.first hl hld hcj hn) (not_le.mpr (lt_of_lt_of_le hage hle))
  · cases hloc.eq_of_under h.grounded hfirst.1 hj'
    exact ha
  · exact absurd (hfirst.2 a hloc) (not_le.mpr (lt_of_le_of_lt hj'.le
      (TraceKey.child_lt_child _ hlt)))

end Session.Complete

/-! ## A module that is late -/

namespace Session

open Library Complete

variable {lib : Library} {entry : Document} {active : List ModulePath} {s t : Session}

/-- Before the first answer arrives, the loads that have to wait for one have got nowhere. -/
def Held (lib : Library) (s : Session) : Prop :=
  ∀ {k l}, s.loads.find? k = some l → lib.delay l.path ≠ 0 →
    l.stage = .queued ∨ l.stage = .fetching

theorem Held.move (h : s.Held lib) (hm : Move lib entry active s t) : t.Held lib := by
  intro k' l' hl' hd
  cases hm with
  | hit | join => exact h hl' hd
  | start => grind [Session.Held]
  | request => grind [Session.Held]
  | refuse => grind [Session.Held]
  | accept => grind [Session.Held]
  | conclude => grind [Session.Held]

theorem Held.moves (h : s.Held lib) (hm : Moves lib entry active s t) : t.Held lib := by
  induction hm with
  | refl => exact h
  | tail _ hm ih => exact ih.move hm

/-- The document `d` is open at `k`, all its imports have asked, and the loads they wait for are
settled. -/
structure Polled (entry : Document) (s : Session) (k : TraceKey) (d : Document) : Prop where
  asked : s.Asked entry k d d.sheet.imports.length
  settled : s.SettledBefore k d.sheet.imports.length

/-- A load that is settled and does not wait for its answer has brought its document, and that has
been polled. -/
theorem Polled.of_settled (hw : s.Wired lib entry) (hf : s.Faithful lib) {k : TraceKey} {l : Load}
    {d : Document} (hk : s.Settled k) (hl : s.loads.find? k = some l)
    (hd : lib.document? l.path = some d) (hst : l.stage ≠ .fetching) : Polled entry s k d := by
  cases hk with
  | @ended _ l' exports hl' hst' =>
    cases hl.symm.trans hl'
    cases exports with
    | none =>
      rw [hw.failed hl hst'] at hd
      cases hd
    | some exports =>
      have hdoc := hw.document_of_open hl (by rw [hst']; rfl) hd
      obtain ⟨loaded, he⟩ := hf.closed hl hst' hdoc
      have hend : ∀ i < d.sheet.imports.length, ∃ x, s.ending? (k.child i) = some x :=
        fun i hi => ending_of_endings? he (List.getElem?_eq_getElem hi)
      refine ⟨⟨.inr hdoc, fun i hi => ?_⟩, fun i hi k' hs => ?_⟩
      · obtain ⟨x, hx⟩ := hend i hi
        exact contains_of_ending? hx
      · obtain ⟨x, hx⟩ := hend i hi
        obtain ⟨l', hl', -⟩ := hw.joins hs
        obtain ⟨exports, hst''⟩ := ended_of_ending? hs hl' hx
        exact .ended hl' hst''
  | fetching hl' hst' =>
    cases hl.symm.trans hl'
    exact absurd hst' hst
  | waiting hl' _ hdoc hasked hsettled =>
    cases hd.symm.trans (hw.opened_load hl hdoc).1
    exact ⟨⟨.inr hdoc, hasked⟩, hsettled⟩

/-- The first turn comes to every document that can be reached around the module `m`, when the
answers for all other modules take no time. -/
theorem polled_of_avoids (hw : s.Wired lib entry) (hf : s.Faithful lib) (hq : s.Awaited lib)
    (hentry : Polled entry s .root entry) {m : ModulePath}
    (hdelay : ∀ p, p ≠ m → lib.delay p = 0) {k : TraceKey} {d : Document}
    (hk : lib.Located entry k d)
    (havoid : ∀ k' c, k.Under k' → lib.Located entry k' c → c.path ≠ m) :
    ∃ k', Polled entry s k' d := by
  induction hk with
  | root => exact ⟨_, hentry⟩
  | @child k c d i r hk hr hd ih =>
    obtain ⟨k', hc⟩ := ih fun k'' c' hu => havoid k'' c' ((TraceKey.child_under k i).trans hu)
    obtain ⟨sup, hsup⟩ := Option.isSome_iff_exists.mp
      (hc.asked.earlier i (List.getElem?_eq_some_iff.mp hr).1)
    have hn : lib.Named entry (k'.child i) (c.path.resolve r.source) :=
      ⟨k', c, i, r, hw.located hc.asked.holds, hr, rfl, rfl⟩
    obtain ⟨k'', l, hl, hp, hsettled⟩ : ∃ k'' l, s.loads.find? k'' = some l ∧
        l.path = c.path.resolve r.source ∧ s.Settled k'' := by
      cases sup with
      | exports exports =>
        obtain ⟨q, hq, hslot, -⟩ := hw.hits hsup
        cases hn.unique hq
        obtain ⟨k'', l, hl, hp, hst⟩ := hw.ready hslot
        exact ⟨k'', l, hl, hp, .ended hl hst⟩
      | load k'' =>
        obtain ⟨l, hl, hq⟩ := hw.joins hsup
        exact ⟨k'', l, hl, (hn.unique hq).symm,
          hc.settled i (List.getElem?_eq_some_iff.mp hr).1 k'' hsup⟩
    refine ⟨k'', .of_settled hw hf hsettled hl (hp ▸ hd) fun hst => hq.delayed hl hst ?_⟩
    refine hdelay _ fun hm => havoid _ d (.refl _) (.child hk hr hd) ?_
    rw [path_of_document? hd, ← hp, hm]

/-- When the module `m` alone is late, a module that is reached around it is not asked for by it. -/
theorem not_inPlace_of_late {initial : List Fetched} {loaded : List (Option ExportTable)}
    (hs : s.Reached lib entry initial) (hheld : s.Held lib)
    (hentry : lib.document? entry.path = some entry) (hg : lib.Grounded entry) {m d p : ModulePath}
    (hdelay : ∀ q, q ≠ m → lib.delay q = 0) (hlate : lib.delay m ≠ 0)
    (hd : lib.FirstImporter entry m d) (hp : lib.FirstImporter entry d p)
    (hdom : ¬ lib.Dominates entry m d) (ht : Evolves lib entry (s.turn lib entry) t)
    (hc : t.Complete lib entry initial loaded) : ¬ InPlace lib entry t := by
  intro hin
  obtain ⟨k, i, c, e, hfirst, hk, rfl, rfl⟩ := hd
  obtain ⟨k₂, j, e', q, hq, hk₂, he', rfl⟩ := hp
  cases hk₂.eq_of_path hentry hfirst.1 he'
  obtain rfl := (hq.parent hg hk₂).unique hfirst
  obtain ⟨e'', hholds⟩ := (hin _ q hq).2 _ _ rfl
  cases (hc.wired.located hholds).unique hk₂
  -- Some position of the document is reached around the late module.
  unfold Dominates at hdom
  push Not at hdom
  obtain ⟨a, e₂, ha, hpath, havoid⟩ := hdom
  cases ha.eq_of_path hentry hfirst.1 hpath
  have hne : e.path ≠ c.path := by
    intro hpc
    cases hfirst.1.eq_of_path hentry hk hpc
    exact TraceKey.child_ne_self k i
      (hfirst.1.eq_of_under hg hk (TraceKey.child_under k i))
  have hu := hs.turn
  have hpolled : Polled entry (s.turn lib entry) .root entry :=
    ⟨(turn_moves hs.wired).2, turn_settled hs.wired hg⟩
  obtain ⟨k', hk'⟩ := polled_of_avoids hu.wired hu.faithful hu.awaited hpolled hdelay ha
    fun k' c' hak hc' => by
      by_cases hkk : a = k'
      · subst hkk
        cases ha.unique hc'
        exact hne
      · exact havoid k' c' hak hkk hc'
  obtain rfl := hc.holds_inj ((hu.later ht).holds hk'.asked.holds) hholds
  -- So it has been asked for after the first turn, when the late module has no document.
  obtain ⟨c', hc'⟩ := hu.wired.holder_of_holds hk'.asked.holds
  cases (hu.wired.located hc').unique hk
  rcases hc' with ⟨rfl, rfl⟩ | hdoc
  · refine havoid .root _ (TraceKey.under_root a) ?_ .root rfl
    rintro rfl
    cases located_root_iff.mp ha
    exact hne rfl
  · obtain ⟨l, hl, hld, hopen⟩ := hu.wired.opened hdoc
    have hlp := path_of_document? hld
    rcases (hheld.moves (turn_moves hs.wired).1) hl (hlp ▸ hlate) with hst | hst <;>
      · rw [hst] at hopen
        cases hopen

end Session

/-! ## Entries -/

namespace Resolver

def withDelay (r : Resolver) (delay : ModulePath → Nat) : Resolver :=
  { r with library := r.library.withDelay delay }

variable {r : Resolver} {specifier : String} {entry : Document}

theorem inPlace_of_no_delay {delay : ModulePath → Nat} (hzero : ∀ p, delay p = 0)
    {initial : List Fetched} {loaded : List (Option ExportTable)} {s : Session} {n : Nat}
    (hg : r.library.Grounded entry)
    (hrun : ((r.withDelay delay).begin specifier).run? (r.withDelay delay).library entry n = some s)
    (hc : s.Complete (r.withDelay delay).library entry initial loaded) :
    Session.InPlace (r.withDelay delay).library entry s := by
  have hs := (r.withDelay delay).reached_begin specifier entry
  refine hc.inPlace_of_sorted ?_
  rw [hs.run?_eq_turn hzero hrun]
  exact Session.sorted_turn hs.wired hs.awaited hg hzero (fun _ => rfl) rfl

theorem dependenciesFirst_of_no_delay
    (hdoc : r.library.document? (entryPath specifier) = some entry)
    (hg : r.library.Grounded entry) :
    ∃ res, ((r.withDelay fun _ => 0).resolveEntry specifier).answer = .ok (.finished res) ∧
      DependenciesFirst r.library res.order := by
  have hdoc' : (r.withDelay fun _ => 0).library.document? (entryPath specifier) = some entry :=
    hdoc
  obtain ⟨s, loaded, hrun, hc, hanswer⟩ := finishes hdoc' hg
  exact ⟨_, hanswer, hc.dependenciesFirst_of_inPlace (Library.document?_path hdoc')
    (inPlace_of_no_delay (fun _ => rfl) hg hrun hc)⟩

theorem inPlace_withDelay {delay : ModulePath → Nat} {initial : List Fetched}
    {loaded : List (Option ExportTable)} {s : Session}
    (hentry : r.library.document? entry.path = some entry)
    (hdom : ∀ d m p, r.library.FirstImporter entry m d → r.library.FirstImporter entry d p →
      r.library.Dominates entry m d)
    (hc : s.Complete (r.withDelay delay).library entry initial loaded) :
    Session.InPlace (r.withDelay delay).library entry s := by
  refine hc.inPlace_of_dominates hentry fun d m p hd hp => ?_
  exact Library.dominates_withDelay.mpr (hdom d m p (Library.firstImporter_withDelay.mp hd)
    (Library.firstImporter_withDelay.mp hp))

/-- When the first importer of a module is late, and the module is reached around it, some module
does not stand behind what it imports. -/
theorem not_dependenciesFirst_of_late {m d p : ModulePath}
    (hdoc : r.library.document? (entryPath specifier) = some entry)
    (hg : r.library.Grounded entry) (hd : r.library.FirstImporter entry m d)
    (hp : r.library.FirstImporter entry d p) (hdom : ¬ r.library.Dominates entry m d) :
    ∃ res, ((r.withDelay fun q => if q = m then 1 else 0).resolveEntry specifier).answer =
      .ok (.finished res) ∧ ¬ DependenciesFirst r.library res.order := by
  set delay : ModulePath → Nat := fun q => if q = m then 1 else 0 with hdelay
  have hdoc' : (r.withDelay delay).library.document? (entryPath specifier) = some entry := hdoc
  have hentry := Library.document?_path hdoc'
  obtain ⟨s, loaded, hrun, hc, hanswer⟩ := finishes hdoc' hg
  have hs := (r.withDelay delay).reached_begin specifier entry
  refine ⟨_, hanswer, fun hdf => ?_⟩
  have hheld : (Session.Held (r.withDelay delay).library (r.begin specifier)) := by
    intro k l hl
    cases hl
  have hzero : ∀ q, q ≠ m → (r.withDelay delay).library.delay q = 0 := fun q hq => if_neg hq
  have hlate : (r.withDelay delay).library.delay m ≠ 0 := by
    simp [withDelay, Library.withDelay, hdelay]
  exact Session.not_inPlace_of_late hs hheld hentry hg hzero hlate
    (Library.firstImporter_withDelay.mpr hd) (Library.firstImporter_withDelay.mpr hp)
    (mt Library.dominates_withDelay.mp hdom) (hs.run? hrun) hc
    (hc.inPlace_of_dependenciesFirst hentry hdf)

theorem detour_firstImporter_m :
    detour.library.FirstImporter detourEntry ⟨["a"], by decide⟩ ⟨["m"], by decide⟩ :=
  charts_detour.firstImporter (k := ⟨[0]⟩) (i := 0) (by decide) (by decide) (by decide)

theorem detour_firstImporter_n :
    detour.library.FirstImporter detourEntry ⟨["m"], by decide⟩ ⟨["n"], by decide⟩ :=
  charts_detour.firstImporter (k := ⟨[0, 0]⟩) (i := 0) (by decide) (by decide) (by decide)

theorem detour_not_dominates :
    ¬ detour.library.Dominates detourEntry ⟨["a"], by decide⟩ ⟨["m"], by decide⟩ := by
  intro h
  obtain ⟨d, hd, hp⟩ := (charts_detour ⟨[1]⟩ ⟨["m"], by decide⟩).mp (by decide)
  obtain ⟨k, c, hu, -, hc, hcp⟩ := h _ d hd hp
  have hchart : ∀ x ∈ detourChart, x.1.indices <+: [1] → x.2 ≠ ⟨["a"], by decide⟩ := by decide
  exact hchart (k, c.path) ((charts_detour _ _).mpr ⟨c, hc, rfl⟩) hu hcp

theorem not_dependenciesFirst_detour :
    ∃ res, ((detour.withDelay fun q => if q = ⟨["a"], by decide⟩ then 1 else 0).resolveEntry
      "e").answer = .ok (.finished res) ∧ ¬ DependenciesFirst detour.library res.order :=
  not_dependenciesFirst_of_late document?_detourEntry
    ((detour_acyclic _).grounded document?_detourEntry) detour_firstImporter_m
    detour_firstImporter_n detour_not_dominates

/-- All modules stand behind those they import, whatever the delays, exactly when the imports from
the entry go in a circle, or each module that is the first importer of another is reached through
its own first importer only. -/
theorem dependenciesFirst_always_iff (r : Resolver) (specifier : String) :
    (∀ delay res, ((r.withDelay delay).resolveEntry specifier).answer = .ok (.finished res) →
      DependenciesFirst r.library res.order) ↔
    ∀ entry, r.library.document? (entryPath specifier) = some entry →
      r.library.Acyclic (entryPath specifier) →
      ∀ d m p, r.library.FirstImporter entry m d → r.library.FirstImporter entry d p →
        r.library.Dominates entry m d := by
  constructor
  · intro h entry hdoc hacyclic d m p hd hp
    by_contra hdom
    obtain ⟨res, hres, hnot⟩ :=
      not_dependenciesFirst_of_late hdoc (hacyclic.grounded hdoc) hd hp hdom
    exact hnot (h _ _ hres)
  · intro h delay res hres
    obtain ⟨entry, s, loaded, hdoc, -, hc, -, hg, rfl⟩ := finished_cases hres
    have hentry := Library.document?_path hdoc
    have hg' : r.library.Grounded entry := hg
    exact hc.dependenciesFirst_of_inPlace hentry
      (inPlace_withDelay hentry (h entry hdoc (hg'.acyclic hdoc)) hc)

/-- The bundle of an entry is the same for all delays exactly when the imports from the entry go in
a circle, or each module that is the first importer of another is only reached through its own
first importer. -/
theorem order_unique_iff (r : Resolver) (specifier : String) :
    (∀ delay₁ delay₂ res₁ res₂,
      ((r.withDelay delay₁).resolveEntry specifier).answer = .ok (.finished res₁) →
      ((r.withDelay delay₂).resolveEntry specifier).answer = .ok (.finished res₂) →
      res₁.order = res₂.order ∧ res₁.source = res₂.source) ↔
    ∀ entry, r.library.document? (entryPath specifier) = some entry →
      r.library.Acyclic (entryPath specifier) →
      ∀ d m p, r.library.FirstImporter entry m d → r.library.FirstImporter entry d p →
        r.library.Dominates entry m d := by
  constructor
  · intro h entry hdoc hacyclic d m p hd hp
    by_contra hdom
    have hg := hacyclic.grounded hdoc
    obtain ⟨res₁, hres₁, hdf⟩ := dependenciesFirst_of_no_delay hdoc hg
    obtain ⟨res₂, hres₂, hnot⟩ := not_dependenciesFirst_of_late hdoc hg hd hp hdom
    exact hnot ((h _ _ _ _ hres₁ hres₂).1 ▸ hdf)
  · intro h delay₁ delay₂ res₁ res₂ h₁ h₂
    obtain ⟨entry, s₁, loaded₁, hdoc₁, -, hc₁, -, hg₁, rfl⟩ := finished_cases h₁
    obtain ⟨entry₂, s₂, loaded₂, hdoc₂, -, hc₂, -, hg₂, rfl⟩ := finished_cases h₂
    have hdoc : r.library.document? (entryPath specifier) = some entry := hdoc₁
    cases hdoc₂.symm.trans hdoc
    have hg : r.library.Grounded entry := hg₁
    have hentry := Library.document?_path hdoc
    have hdom := h entry hdoc (hg.acyclic hdoc)
    have heq := Session.Complete.bundle_eq hg₁ hg₂ hc₁ hc₂ hentry hentry
      (fun _ _ => Library.located_withDelay.trans Library.located_withDelay.symm)
      (fun _ hd _ => (Library.eval_withDelay hd).trans (Library.eval_withDelay hd).symm)
      (inPlace_withDelay hentry hdom hc₁) (inPlace_withDelay hentry hdom hc₂)
    simp only [Session.resolution, heq, and_self]

theorem order_not_unique_detour :
    ∃ res₁ res₂, ((detour.withDelay fun _ => 0).resolveEntry "e").answer = .ok (.finished res₁) ∧
      ((detour.withDelay fun q => if q = ⟨["a"], by decide⟩ then 1 else 0).resolveEntry
        "e").answer = .ok (.finished res₂) ∧ res₁.order ≠ res₂.order := by
  have hg := (detour_acyclic _).grounded document?_detourEntry
  obtain ⟨res₁, hres₁, hdf⟩ := dependenciesFirst_of_no_delay document?_detourEntry hg
  obtain ⟨res₂, hres₂, hnot⟩ := not_dependenciesFirst_of_late document?_detourEntry hg
    detour_firstImporter_m detour_firstImporter_n detour_not_dominates
  exact ⟨res₁, res₂, hres₁, hres₂, fun heq => hnot (heq ▸ hdf)⟩

end Resolver

end StyleBundle
