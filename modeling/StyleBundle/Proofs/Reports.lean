import StyleBundle.Proofs.Faithful

/-!
# Which failures are reported

A failure is reported for each load that fails, and for each binding of a linked document that asks
for a name in vain. Nothing else is reported.
-/

namespace StyleBundle.Session

variable {lib : Library} {entry : Document} {active : List ModulePath} {s t : Session}

/-- The failure `e` is that of a load, or of a binding of an open document. -/
def Accounts (lib : Library) (s : Session) (e : ImportError) : Prop :=
  (∃ k l, s.loads.find? k = some l ∧ lib.refusal? l.request.importer l.path = some e) ∨
    ∃ k d, ∃ hd : lib.Grounded d, s.documents.find? k = some d ∧ e ∈ (lib.eval d hd).errors

theorem Accounts.later {e : ImportError} (h : s.Accounts lib e) (hl : Later active s t) :
    t.Accounts lib e := by
  rcases h with ⟨k, l, hk, he⟩ | ⟨k, d, hd, hk, he⟩
  · obtain ⟨l', hl', hr, -⟩ := hl.loads hk
    exact .inl ⟨k, l', hl', by rwa [Load.path, hr]⟩
  · exact .inr ⟨k, d, hd, hl.documents hk, he⟩

structure Reported (lib : Library) (s : Session) : Prop where
  accounts : ∀ e ∈ s.context.errors, s.Accounts lib e
  refused : ∀ {k l}, s.loads.find? k = some l → l.stage = .ended none →
    ∃ e ∈ s.context.errors, lib.refusal? l.request.importer l.path = some e
  linked : ∀ {k l d exports}, s.loads.find? k = some l → l.stage = .ended (some exports) →
    s.documents.find? k = some d →
    ∃ hd : lib.Grounded d, ∀ e ∈ (lib.eval d hd).errors, e ∈ s.context.errors

namespace Reported

theorem start (r : Resolver) (clock : Nat) (requests : List Fetched) :
    (r.start clock requests).Reported lib where
  accounts _ h := by cases h
  refused h := by cases h
  linked h := by cases h

theorem later (h : s.Reported lib) (hl : Later active s t)
    (herrors : t.context.errors = s.context.errors)
    (hended : ∀ {k l exports}, t.loads.find? k = some l → l.stage = .ended exports →
      s.loads.find? k = some l)
    (hdocs : ∀ {k l exports d}, t.loads.find? k = some l → l.stage = .ended exports →
      t.documents.find? k = some d → s.documents.find? k = some d) : t.Reported lib where
  accounts e he := (h.accounts e (herrors ▸ he)).later hl
  refused hk hst := by
    rw [herrors]
    exact h.refused (hended hk hst) hst
  linked hk hst hd := by
    rw [herrors]
    exact h.linked (hended hk hst) hst (hdocs hk hst hd)

theorem refuse {k : TraceKey} {l : Load} {e : ImportError} (h : s.Reported lib)
    (hl : s.loads.find? k = some l) (he : lib.refusal? l.request.importer l.path = some e)
    (hlater : Later active s (s.fail k l e)) : (s.fail k l e).Reported lib where
  accounts e' he' := by
    rw [fail_context, Context.abandon_errors] at he'
    rcases List.mem_append.mp he' with he' | he'
    · exact (h.accounts e' he').later hlater
    · cases List.mem_singleton.mp he'
      obtain ⟨l', hl', hr, -⟩ := hlater.loads hl
      exact .inl ⟨k, l', hl', by rwa [Load.path, hr]⟩
  refused := by
    intro k' l' hk' hst'
    rw [fail_context, Context.abandon_errors]
    by_cases hkk : k = k'
    · refine ⟨e, by simp, ?_⟩
      grind
    · obtain ⟨e', he', hr⟩ := h.refused (k := k') (l := l') (by grind) hst'
      exact ⟨e', List.mem_append_left _ he', hr⟩
  linked := by
    intro k' l' d exports hk' hst' hd'
    obtain ⟨hd, hall⟩ := h.linked (k := k') (l := l') (by grind) hst' hd'
    refine ⟨hd, fun e' he' => ?_⟩
    rw [fail_context, Context.abandon_errors]
    exact List.mem_append_left _ (hall e' he')

theorem conclude {k : TraceKey} {l : Load} {d : Document} {loaded : List (Option ExportTable)}
    (h : s.Reported lib) (hf : s.Faithful lib) (hw : s.Wired lib entry)
    (hd : s.documents.find? k = some d) (he : s.endings? k d = some loaded)
    (hlater : Later active s t)
    (hloads : t.loads =
      s.loads.insert k { l with stage := .ended (some (d.sheet.link d.path loaded).exports) })
    (hdocs : t.documents = s.documents)
    (herrors : t.context.errors = s.context.errors ++ (d.sheet.link d.path loaded).errors) :
    t.Reported lib := by
  obtain ⟨hg, heval⟩ := hf.link_eq_eval hw (hw.located (.inr hd)) he
  rw [heval] at herrors
  exact {
    accounts := by
      intro e' he'
      rw [herrors] at he'
      rcases List.mem_append.mp he' with he' | he'
      · exact (h.accounts e' he').later hlater
      · exact .inr ⟨k, d, hg, hdocs ▸ hd, he'⟩
    refused := by
      intro k' l' hk' hst'
      obtain ⟨e', he', hr⟩ := h.refused (k := k') (l := l') (by grind) hst'
      exact ⟨e', herrors ▸ List.mem_append_left _ he', hr⟩
    linked := by
      intro k' l' d' exports hk' hst' hd'
      rw [hdocs] at hd'
      rw [herrors]
      by_cases hkk : k = k'
      · subst hkk
        cases hd.symm.trans hd'
        exact ⟨hg, fun e' he' => List.mem_append_right _ he'⟩
      · obtain ⟨hg', hall⟩ := h.linked (k := k') (l := l') (by grind) hst' hd'
        exact ⟨hg', fun e' he' => List.mem_append_left _ (hall e' he')⟩ }

theorem move (h : s.Reported lib) (hf : s.Faithful lib) (hw : s.Wired lib entry)
    (hm : Move lib entry active s t) : t.Reported lib := by
  have hl := hm.later hw
  cases hm with
  | hit | join => exact h.later hl rfl (fun hk _ => hk) (fun _ _ hd => hd)
  | start => exact h.later hl rfl (by grind) (fun _ _ hd => hd)
  | request => exact h.later hl (by simp) (by grind) (by grind)
  | refuse hk _ he => exact h.refuse hk he hl
  | accept => exact h.later hl rfl (by grind) (by grind)
  | conclude _ _ hd he _ => exact h.conclude hf hw hd he hl rfl rfl (by simp)

theorem arrival (h : s.Reported lib) (ha : Arrival s t) : t.Reported lib := by
  have hl : Later [] s t := ha.later
  obtain ⟨-, hk, hst⟩ := ha
  exact h.later hl rfl (by grind) (fun _ _ hd => hd)

end Reported

end StyleBundle.Session
