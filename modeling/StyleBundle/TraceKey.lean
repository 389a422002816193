/-!
# Trace keys

A trace key locates a module in the tree of imports: one index for each import on the way from the
entry, so the entry has the empty key. Keys are ordered as the output is: what a document imports
comes before the document, and earlier imports before later ones.
-/

namespace StyleBundle

structure TraceKey where
  indices : List Nat := []
  deriving DecidableEq, Repr, Inhabited

namespace TraceKey

/-- The key of the entry document. -/
def root : TraceKey := {}

/-- The key of a document's import with the given index. -/
def child (k : TraceKey) (i : Nat) : TraceKey :=
  ⟨k.indices ++ [i]⟩

/-- The first difference decides; of a list and an extension of it, the extension comes first. -/
def compareIndices : List Nat → List Nat → Ordering
  | [], [] => .eq
  | [], _ :: _ => .gt
  | _ :: _, [] => .lt
  | a :: as, b :: bs => (compare a b).then (compareIndices as bs)

instance : Ord TraceKey where
  compare a b := compareIndices a.indices b.indices

def text (k : TraceKey) : String :=
  if k.indices.isEmpty then "<entry>" else ".".intercalate (k.indices.map Nat.repr)

instance : ToString TraceKey := ⟨text⟩

end TraceKey

end StyleBundle
