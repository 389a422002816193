import StyleBundle.Resolution.Session

/-!
# Running a resolution

A resolution runs in turns. In a turn each waiting document polls its imports in order, and each of
these polls the load that it waits for, whoever started it: the load is moved on, and when all
imports of its document have ended the document is linked. A load that is being polled already,
because modules import each other in a circle, is left alone. After a turn the clock moves to the
next outstanding answer. A run ends when all imports of the entry have ended, or stalls when no
answer is outstanding.
-/

namespace StyleBundle

/-! ## A turn -/

namespace Library

/-- The number of modules that are not being polled. -/
def idle (lib : Library) (active : List ModulePath) : Nat :=
  (lib.texts.keys.filter fun p => p ∉ active).length

theorem idle_cons_lt {lib : Library} {active : List ModulePath} {p : ModulePath}
    (hp : p ∈ lib.texts.keys) (ha : p ∉ active) : lib.idle (p :: active) < lib.idle active := by
  unfold idle
  generalize lib.texts.keys = keys at hp
  have hle : ∀ qs : List ModulePath,
      (qs.filter fun q => q ∉ p :: active).length ≤ (qs.filter fun q => q ∉ active).length := by
    intro qs
    induction qs with
    | nil => simp
    | cons q qs ih => grind
  induction keys with
  | nil => simp at hp
  | cons q qs ih =>
    have := hle qs
    by_cases hq : q = p <;> grind

end Library

namespace Session

mutual

/-- Polls the load at `key`, while the loads of the modules `active` are being polled. -/
def pollLoad (lib : Library) (active : List ModulePath) (s : Session) (key : TraceKey) : Session :=
  let s := s.advance lib key
  match s.linking? key with
  | none => s
  | some d =>
    if _h : d.path ∈ lib.texts.keys ∧ d.path ∉ active then
      (pollImports lib (d.path :: active) s d.path (d.imports key)).conclude key
    else
      s
termination_by (lib.idle active, 0)
decreasing_by
  exact .left _ _ (Library.idle_cons_lt _h.1 _h.2)

/-- Polls imports of the module `file` in order. -/
def pollImports (lib : Library) (active : List ModulePath) (s : Session) (file : ModulePath) :
    List (TraceKey × ImportRule) → Session
  | [] => s
  | (key, r) :: imports =>
    let s := s.claimImport file key r
    let s :=
      match s.supplies.find? key with
      | some (.load load) => pollLoad lib active s load
      | _ => s
    pollImports lib active s file imports
termination_by imports => (lib.idle active, imports.length)

end

/-! ## A run -/

/-- Polls the imports of the entry. -/
def turn (lib : Library) (entry : Document) (s : Session) : Session :=
  pollImports lib [] s entry.path (entry.imports .root)

/-- The session after the last turn of a run in which at most `answers` answers arrive; none when
more would have to. -/
def run? (lib : Library) (entry : Document) : Nat → Session → Option Session
  | answers, s =>
    let s := s.turn lib entry
    if (s.endings? .root entry).isSome then
      some s
    else
      match answers, s.arrive? with
      | _, none => some s
      | 0, some _ => none
      | answers + 1, some s => run? lib entry answers s

end Session

end StyleBundle
