import StyleBundle.Resolution.Run
import StyleBundle.Proofs.ImportTree

/-!
# Moves of a session

What a session can do at a time. An import finds its module ready, joins the load that is under way,
or starts one. A load makes its request, takes in its answer, and ends when all imports of its
document have ended. Polling makes these moves and no others; the arrival of an answer is apart, so
that answers may arrive in any order.
-/

namespace StyleBundle

/-- Whether a load in this stage is under way. -/
def Stage.isLive : Stage → Bool
  | .ended _ => false
  | _ => true

/-- Whether a load in this stage has brought a document. -/
def Stage.isOpen : Stage → Bool
  | .linking => true
  | .ended exports => exports.isSome
  | _ => false

theorem Stage.isOpen_cases {st : Stage} (h : st.isOpen) :
    st = .linking ∨ ∃ exports, st = .ended (some exports) := by
  cases st with
  | linking => exact .inl rfl
  | ended exports =>
    obtain ⟨exports, rfl⟩ := Option.isSome_iff_exists.mp h
    exact .inr ⟨exports, rfl⟩
  | queued | fetching | answered => cases h

theorem Stage.ne_failed_of_isLive {st : Stage} (h : st.isLive) : st ≠ .ended none := by
  rintro rfl
  cases h

theorem Stage.ne_failed_of_isOpen {st : Stage} (h : st.isOpen) : st ≠ .ended none := by
  rintro rfl
  cases h

theorem Stage.live_or_succeeded {st : Stage} (h : st ≠ .ended none) :
    st.isLive ∨ ∃ exports, st = .ended (some exports) := by
  cases st with
  | ended exports =>
    obtain ⟨exports, rfl⟩ := Option.ne_none_iff_exists'.mp fun e => h (congrArg Stage.ended e)
    exact .inr ⟨exports, rfl⟩
  | queued | fetching | answered | linking => exact .inl rfl

namespace Session

/-- The document `d` is open at the key `k`: it is the entry, or some load has brought it. -/
def Holds (s : Session) (entry : Document) (k : TraceKey) (d : Document) : Prop :=
  k = .root ∧ d = entry ∨ s.documents.find? k = some d

/-- The import `i` of the open document `d` has not asked for its module; those before it have. -/
structure Asks (s : Session) (entry : Document) (k : TraceKey) (d : Document) (i : Nat)
    (r : ImportRule) : Prop where
  holds : s.Holds entry k d
  rule : d.sheet.imports[i]? = some r
  fresh : s.supplies.find? (k.child i) = none
  earlier : ∀ j < i, s.supplies.contains (k.child j)

/-- One move of a session, while the loads of the modules `active` wait for it. -/
inductive Move (lib : Library) (entry : Document) (active : List ModulePath) :
    Session → Session → Prop
  | hit {s : Session} {k : TraceKey} {d : Document} {i : Nat} {r : ImportRule}
      {exports : ExportTable} : s.Asks entry k d i r →
      s.context.slots.find? (d.path.resolve r.source) = some (.ready exports) →
      Move lib entry active s { s with
        context := s.context.record (d.path.resolve r.source) (k.child i)
        supplies := s.supplies.insert (k.child i) (.exports exports) }
  | join {s : Session} {k : TraceKey} {d : Document} {i : Nat} {r : ImportRule}
      {load : TraceKey} {joined : List TraceKey} : s.Asks entry k d i r →
      s.context.slots.find? (d.path.resolve r.source) = some (.pending load joined) →
      Move lib entry active s { s with
        context := s.context.setSlot (d.path.resolve r.source)
          (.pending load (joined ++ [k.child i]))
        supplies := s.supplies.insert (k.child i) (.load load) }
  | start {s : Session} {k : TraceKey} {d : Document} {i : Nat} {r : ImportRule} :
      s.Asks entry k d i r →
      s.context.slots.find? (d.path.resolve r.source) = none →
      Move lib entry active s { s with
        context := s.context.setSlot (d.path.resolve r.source) (.pending (k.child i) [])
        supplies := s.supplies.insert (k.child i) (.load (k.child i))
        loads := s.loads.insert (k.child i) { request := ⟨r.source, d.path, s.root⟩ } }
  | request {s : Session} {k : TraceKey} {l : Load} :
      s.loads.find? k = some l → l.stage = .queued → Move lib entry active s (s.request lib k l)
  | refuse {s : Session} {k : TraceKey} {l : Load} {e : ImportError} :
      s.loads.find? k = some l → l.stage = .answered →
      lib.refusal? l.request.importer l.path = some e → Move lib entry active s (s.fail k l e)
  | accept {s : Session} {k : TraceKey} {l : Load} {d : Document} :
      s.loads.find? k = some l → l.stage = .answered → lib.document? l.path = some d →
      Move lib entry active s { s.setStage k l .linking with
        documents := s.documents.insert k d }
  | conclude {s : Session} {k : TraceKey} {l : Load} {d : Document}
      {loaded : List (Option ExportTable)} :
      s.loads.find? k = some l → l.stage = .linking → s.documents.find? k = some d →
      s.endings? k d = some loaded → l.path ∉ active →
      Move lib entry active s
        { s.setStage k l (.ended (some (d.sheet.link d.path loaded).exports)) with
          context := ((d.sheet.link d.path loaded).errors.foldl Context.report s.context).commit
            d.path (d.sheet.link d.path loaded).source (d.sheet.link d.path loaded).exports }

def Moves (lib : Library) (entry : Document) (active : List ModulePath) :
    Session → Session → Prop :=
  Relation.ReflTransGen (Move lib entry active)

inductive Arrival : Session → Session → Prop
  | intro {s : Session} {k : TraceKey} {l : Load} {due : Nat} :
      (due, k) ∈ s.outstanding → s.loads.find? k = some l → l.stage = .fetching →
      Arrival s { s.setStage k l .answered with
        clock := due
        outstanding := s.outstanding.erase (due, k) }

/-- What can become of a session, whatever the order in which answers arrive. -/
inductive Evolves (lib : Library) (entry : Document) : Session → Session → Prop
  | refl {s : Session} : Evolves lib entry s s
  | move {s t u : Session} : Evolves lib entry s t → Move lib entry [] t u → Evolves lib entry s u
  | arrive {s t u : Session} : Evolves lib entry s t → Arrival t u → Evolves lib entry s u

end Session

end StyleBundle
