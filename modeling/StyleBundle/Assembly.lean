import StyleBundle.Table
import StyleBundle.ModulePath
import StyleBundle.TraceKey

/-!
# Assembly

The bundle is the texts of the modules one after the other, in the order of their trace keys. A
module that is reached at several keys is written at the first of them; one without a text is left
out.
-/

namespace StyleBundle

structure Assembly where
  /-- The bundled text. -/
  source : String := ""
  /-- The modules in the order in which their texts stand in it. -/
  order : List ModulePath := []
  deriving DecidableEq, Repr

namespace Assembly

def inKeyOrder (traces : Table TraceKey ModulePath) : List ModulePath :=
  (traces.entries.mergeSort fun a b => compare a.1 b.1 != .gt).map Prod.snd

def ofTables (traces : Table TraceKey ModulePath) (sources : Table ModulePath String) :
    Assembly :=
  let order := ((inKeyOrder traces).filter sources.contains).eraseDups
  { source := String.join (order.filterMap sources.find?), order }

end Assembly

end StyleBundle
