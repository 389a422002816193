import StyleBundle.Assembly
import StyleBundle.Resolution.Error

/-!
# The context of a resolution

What all documents of one resolution share. A module that is asked for has a slot: pending while its
one load is under way, with the trace keys of the imports that wait for it, and ready afterwards.
A load that fails takes its slot away, so that a later import starts another. Sources and trace
keys are recorded when a load succeeds, or at once for an import that finds its module ready.
-/

namespace StyleBundle

/-- Exported names with their values, in the order of declaration. -/
abbrev ExportTable := Table String String

inductive Slot where
  /-- The load that the import at `load` started is under way; the imports at the keys `joined`
  reached the module since. -/
  | pending (load : TraceKey) (joined : List TraceKey)
  | ready (exports : ExportTable)
  deriving DecidableEq, Repr

/-- The keys of the imports that wait for a slot. -/
def Slot.queued : Slot → List TraceKey
  | pending load joined => load :: joined
  | ready _ => []

/-- What an import finds at its module's slot. -/
inductive Claim where
  | ready (exports : ExportTable)
  /-- It waits for the load that the import at `load` started. -/
  | joined (load : TraceKey)
  /-- There was no slot, and it starts the load. -/
  | started
  deriving DecidableEq, Repr

structure Context where
  sources : Table ModulePath String := ∅
  traces : Table TraceKey ModulePath := ∅
  slots : Table ModulePath Slot := ∅
  /-- The failures in the order in which they happened. -/
  errors : List ImportError := []
  deriving DecidableEq, Repr

namespace Context

def record (c : Context) (path : ModulePath) (key : TraceKey) : Context :=
  { c with traces := c.traces.insert key path }

def setSlot (c : Context) (path : ModulePath) (slot : Slot) : Context :=
  { c with slots := c.slots.insert path slot }

/-- Asks for a module on behalf of the import at a trace key. -/
def claim (c : Context) (path : ModulePath) (key : TraceKey) : Claim × Context :=
  match c.slots.find? path with
  | some (.ready exports) => (.ready exports, c.record path key)
  | some (.pending load joined) => (.joined load, c.setSlot path (.pending load (joined ++ [key])))
  | none => (.started, c.setSlot path (.pending key []))

/-- Ends the load of a module with its resolved text and its exports. -/
def commit (c : Context) (path : ModulePath) (source : String) (exports : ExportTable) : Context :=
  let queued := ((c.slots.find? path).map Slot.queued).getD []
  let c := queued.foldl (fun c key => c.record path key) c
  { c with
    sources := c.sources.insert path source
    slots := c.slots.insert path (.ready exports) }

def report (c : Context) (error : ImportError) : Context :=
  { c with errors := c.errors ++ [error] }

/-- Ends the load of a module with a failure. -/
def abandon (c : Context) (path : ModulePath) (error : ImportError) : Context :=
  { c.report error with slots := c.slots.erase path }

/-- Records the resolved text of the entry, at the empty trace key. -/
def recordEntry (c : Context) (path : ModulePath) (source : String) : Context :=
  { c.record path .root with sources := c.sources.insert path source }

/-- The recorded sources in the order of their trace keys. -/
def assembly (c : Context) : Assembly :=
  .ofTables c.traces c.sources

end Context

end StyleBundle
