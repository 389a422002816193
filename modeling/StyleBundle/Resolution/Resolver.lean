import StyleBundle.Resolution.Run

/-!
# Resolving an entry

The entry is fetched like any module, or given with its path. Its imports are resolved, and its own
resolved text is recorded at the empty trace key. Each resolution starts from an empty context, so
nothing is kept from one to the next.
-/

namespace StyleBundle

structure Resolution where
  /-- The resolved texts of all modules, in the order of their trace keys. -/
  source : String
  /-- The exports of the entry. -/
  exports : ExportTable
  order : List ModulePath
  /-- The failures of imports, in the order in which they happened. -/
  errors : List ImportError
  deriving DecidableEq, Repr

namespace Resolution

def isComplete (r : Resolution) : Bool :=
  r.errors.isEmpty

/-- The resolution, provided that all imports succeeded. -/
def complete (r : Resolution) : Except ResolveError Resolution :=
  if r.isComplete then .ok r else .error (.unresolved r.errors)

/-- The exports as a directive, or nothing when there are none. -/
def exportsBlock (r : Resolution) : String :=
  if r.exports.isEmpty then
    ""
  else
    { bindings := r.exports.entries.map fun (name, value) => { name, value } : ExportRule }.print

end Resolution

inductive Outcome where
  | finished (resolution : Resolution)
  /-- The imports wait for each other in a circle. -/
  | stalled
  deriving DecidableEq, Repr

structure Run where
  answer : Except ResolveError Outcome
  /-- The requests in the order in which they were made. -/
  requests : List Fetched

structure Resolver where
  library : Library
  /-- The directory that the root of module paths stands for. -/
  root : String

namespace Resolver

/-- The number of answers that a resolution of an entry needs at most. -/
def maxAnswers (r : Resolver) (entry : Document) : Nat :=
  entry.sheet.imports.length + r.library.totalImports

/-- The session from which the imports of an entry are resolved. -/
def start (r : Resolver) (clock : Nat) (requests : List Fetched) : Session where
  root := r.root
  clock
  requests

/-- The end of a session whose last turn is over. -/
def finish (s : Session) (entry : Document) : Outcome :=
  match s.endings? .root entry with
  | none => .stalled
  | some loaded =>
    let linked := entry.sheet.link entry.path loaded
    let context := linked.errors.foldl Context.report s.context
    let context := context.recordEntry entry.path linked.source
    let assembly := context.assembly
    .finished {
      source := assembly.source
      exports := linked.exports
      order := assembly.order
      errors := context.errors }

/-- Resolves the text of an entry at a given time, after the given requests. -/
def resolveFrom (r : Resolver) (path : ModulePath) (text : String) (clock : Nat)
    (requests : List Fetched) : Run :=
  match Stylesheet.parse text with
  | .error cause => ⟨.error (.entryParseFailed path text cause), requests⟩
  | .ok sheet =>
    let entry : Document := ⟨path, sheet⟩
    match (r.start clock requests).run? r.library entry (r.maxAnswers entry) with
    | none => ⟨.ok .stalled, requests⟩
    | some s => ⟨.ok (finish s entry), s.requests⟩

def resolveSource (r : Resolver) (path : ModulePath) (text : String) : Run :=
  r.resolveFrom path text 0 []

/-- Fetches the entry that a specifier names at the root, and resolves it. -/
def resolveEntry (r : Resolver) (specifier : String) : Run :=
  let request : FetchRequest := ⟨specifier, .root, r.root⟩
  let path := request.target
  let requests : List Fetched := [⟨0, request⟩]
  match r.library.answer path with
  | .error cause => ⟨.error (.entryFetchFailed path cause), requests⟩
  | .ok text => r.resolveFrom path text (r.library.delay path) requests

end Resolver

end StyleBundle
