import StyleBundle.Resolution.Link
import StyleBundle.Resolution.Library

/-!
# Sessions

The state of one resolution and the small operations on it. Documents, loads and imports are named
by trace keys: a load by the key of the import that started it, and the document that it brings by
the same key, the entry by the empty key. An operation on what is not there, or is past the point
where the operation applies, changes nothing.
-/

namespace StyleBundle

/-- A document whose imports are under way or have ended. -/
structure Document where
  path : ModulePath
  sheet : Stylesheet

namespace Document

/-- The keys of a document's imports with their rules, where `key` is the document's. -/
def imports (d : Document) (key : TraceKey) : List (TraceKey × ImportRule) :=
  d.sheet.imports.zipIdx.map fun (r, i) => (key.child i, r)

end Document

/-- How far a load has come. -/
inductive Stage where
  | queued
  | fetching
  | answered
  | linking
  /-- The exports of the module, none when the load failed. -/
  | ended (exports : Option ExportTable)
  deriving DecidableEq, Repr

structure Load where
  request : FetchRequest
  stage : Stage := .queued
  deriving DecidableEq, Repr

def Load.path (l : Load) : ModulePath :=
  l.request.target

/-- Where an import gets its exports from. -/
inductive Supply where
  | exports (exports : ExportTable)
  | load (key : TraceKey)
  deriving DecidableEq, Repr

/-- A request that was made, and when. -/
structure Fetched where
  time : Nat
  request : FetchRequest
  deriving DecidableEq, Repr

structure Session where
  /-- The directory that the root of module paths stands for. -/
  root : String
  context : Context := {}
  documents : Table TraceKey Document := ∅
  loads : Table TraceKey Load := ∅
  /-- The imports that have asked for their modules. -/
  supplies : Table TraceKey Supply := ∅
  clock : Nat := 0
  /-- The loads whose answers are outstanding and when those are due, in the order of request. -/
  outstanding : List (Nat × TraceKey) := []
  requests : List Fetched := []

namespace Session

def setStage (s : Session) (key : TraceKey) (load : Load) (stage : Stage) : Session :=
  { s with loads := s.loads.insert key { load with stage } }

/-! ## Imports -/

/-- Lets the import at `key`, which stands in the module `file`, ask for its module. -/
def claimImport (s : Session) (file : ModulePath) (key : TraceKey) (r : ImportRule) : Session :=
  if s.supplies.contains key then
    s
  else
    let (claim, context) := s.context.claim (file.resolve r.source) key
    let s := { s with context }
    match claim with
    | .ready exports => { s with supplies := s.supplies.insert key (.exports exports) }
    | .joined load => { s with supplies := s.supplies.insert key (.load load) }
    | .started =>
      { s with
        supplies := s.supplies.insert key (.load key)
        loads := s.loads.insert key { request := ⟨r.source, file, s.root⟩ } }

/-- What the import at `key` ended with, if it has ended: the exports of its module, or none. -/
def ending? (s : Session) (key : TraceKey) : Option (Option ExportTable) :=
  match s.supplies.find? key with
  | none => none
  | some (.exports exports) => some (some exports)
  | some (.load load) =>
    match (s.loads.find? load).map Load.stage with
    | some (.ended exports) => some exports
    | _ => none

/-- What the imports of a document ended with, if all have ended. -/
def endings? (s : Session) (key : TraceKey) (d : Document) : Option (List (Option ExportTable)) :=
  (d.imports key).mapM fun (k, _) => s.ending? k

/-! ## Loads -/

/-- Makes the request of a load. An answer without delay is there at once. -/
def request (lib : Library) (s : Session) (key : TraceKey) (load : Load) : Session :=
  let made : Fetched := ⟨s.clock, load.request⟩
  let s := { s with requests := s.requests ++ [made] }
  let delay := lib.delay load.path
  if delay = 0 then
    s.setStage key load .answered
  else
    { s.setStage key load .fetching with
      outstanding := s.outstanding ++ [(s.clock + delay, key)] }

/-- Ends a load with a failure. -/
def fail (s : Session) (key : TraceKey) (load : Load) (error : ImportError) : Session :=
  { s.setStage key load (.ended none) with context := s.context.abandon load.path error }

/-- Takes in the answer to a load's request. -/
def receive (lib : Library) (s : Session) (key : TraceKey) (load : Load) : Session :=
  match lib.answer load.path with
  | .error cause => s.fail key load (.fetchFailed load.path load.request.importer cause)
  | .ok text =>
    match Stylesheet.parse text with
    | .error cause => s.fail key load (.parseFailed load.path text cause)
    | .ok sheet =>
      { s.setStage key load .linking with
        documents := s.documents.insert key ⟨load.path, sheet⟩ }

/-- Moves a load on as far as it gets without its document's imports. -/
def advance (lib : Library) (s : Session) (key : TraceKey) : Session :=
  let answered (s : Session) : Session :=
    match s.loads.find? key with
    | some load => if load.stage = .answered then s.receive lib key load else s
    | none => s
  match s.loads.find? key with
  | some load => answered (if load.stage = .queued then s.request lib key load else s)
  | none => s

/-- The document of a load whose imports are under way. -/
def linking? (s : Session) (key : TraceKey) : Option Document :=
  match (s.loads.find? key).map Load.stage with
  | some .linking => s.documents.find? key
  | _ => none

/-- Links the document of a load and ends the load, if all its imports have ended. -/
def conclude (s : Session) (key : TraceKey) : Session :=
  match s.loads.find? key, s.documents.find? key with
  | some load, some d =>
    match s.endings? key d with
    | none => s
    | some loaded =>
      let linked := d.sheet.link d.path loaded
      let context := linked.errors.foldl Context.report s.context
      { s.setStage key load (.ended (some linked.exports)) with
        context := context.commit d.path linked.source linked.exports }
  | _, _ => s

/-! ## The clock -/

/-- The outstanding answer that comes first; of several at one time, the one requested first. -/
def earliest : List (Nat × TraceKey) → Option (Nat × TraceKey)
  | [] => none
  | e :: es =>
    match earliest es with
    | some e' => if e'.1 < e.1 then some e' else some e
    | none => some e

/-- Moves the clock to the next answer and lets it arrive; none when no answer is outstanding. -/
def arrive? (s : Session) : Option Session :=
  match earliest s.outstanding with
  | none => none
  | some (due, key) =>
    let s := { s with clock := due, outstanding := s.outstanding.erase (due, key) }
    match s.loads.find? key with
    | some load => some (s.setStage key load .answered)
    | none => some s

end Session

end StyleBundle
