import StyleBundle.Table
import StyleBundle.Diagnostic
import StyleBundle.ModulePath

/-!
# Fetching

A request asks for the text of a module by the specifier that an importing module wrote. It is
answered with the text or with the reason why there is none.
-/

namespace StyleBundle

inductive FetchError where
  | notFound (path : ModulePath)
  /-- The module is there and cannot be read. -/
  | unreadable (path : ModulePath) (reason : String)
  deriving DecidableEq, Repr

namespace FetchError

def path : FetchError → ModulePath
  | notFound p | unreadable p _ => p

def reason? : FetchError → Option String
  | notFound _ => none
  | unreadable _ reason => some reason

def diagnostic : FetchError → Diagnostic
  | notFound p => {
      message := "Module not found: `" ++ p.text ++ "`"
      code := "lattice_source::not_found"
      help := some "Check the path given in the `:import(...)` directive" }
  | unreadable p reason => {
      message := "Failed to read `" ++ p.text ++ "`: " ++ reason
      code := "lattice_source::io_error" }

end FetchError

inductive ReadError where
  | absent
  | other (reason : String)
  deriving DecidableEq, Repr

def ReadError.toFetchError (p : ModulePath) : ReadError → FetchError
  | absent => .notFound p
  | other reason => .unreadable p reason

structure FetchRequest where
  /-- The path as it is written in the importing module. -/
  specifier : String
  importer : ModulePath
  /-- The directory that the root of module paths stands for. -/
  root : String
  deriving DecidableEq, Repr

def FetchRequest.target (r : FetchRequest) : ModulePath :=
  r.importer.resolve r.specifier

/-- Modules kept in memory, and how often each path was asked for. -/
structure MemoryStore where
  modules : Table ModulePath String := ∅
  counts : Table ModulePath Nat := ∅

namespace MemoryStore

def insert (s : MemoryStore) (path : ModulePath) (text : String) : MemoryStore :=
  { s with modules := s.modules.insert path text }

/-- How often a path was asked for, whether or not there is a module. -/
def count (s : MemoryStore) (path : ModulePath) : Nat :=
  (s.counts.find? path).getD 0

def total (s : MemoryStore) : Nat :=
  s.counts.values.foldl (· + ·) 0

def fetch (s : MemoryStore) (r : FetchRequest) : Except FetchError String × MemoryStore :=
  let target := r.target
  let answer :=
    match s.modules.find? target with
    | some text => .ok text
    | none => .error (.notFound target)
  (answer, { s with counts := s.counts.insert target (s.count target + 1) })

end MemoryStore

end StyleBundle
