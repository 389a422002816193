import StyleBundle.FileTree
import StyleBundle.Resolution.Library

/-!
# Libraries of files

The modules below a directory: a module's text is that of the file which its path names below the
root. Files are read while the resolution goes on, so no answer is there in the turn of its request,
and answers come in the order of the requests.
-/

namespace StyleBundle.FileTree

/-- Where the files of modules are when the root of module paths is the directory `root`. -/
def moduleBase (t : FileTree) (root : String) : Except FileFault Location :=
  if root = "" then .ok t.current else t.locate root

def moduleTexts (t : FileTree) (root : String) : List (ModulePath × String) :=
  match t.moduleBase root with
  | .error _ => []
  | .ok base =>
    t.texts.filterMap fun (l, text) =>
      ((List.isPrefixOf? base l).bind ModulePath.ofSegments?).map (·, text)

def readModule (t : FileTree) (root : String) (p : ModulePath) : Except FetchError String :=
  match t.read (p.toFilePath root) with
  | .ok text => .ok text
  | .error fault => .error (fault.toReadError.toFetchError p)

def readTime (_ : ModulePath) : Nat := 1

def library (t : FileTree) (root : String) : Library where
  texts := .ofList (t.moduleTexts root)
  failure p :=
    match t.readModule root p with
    | .error e => e
    | .ok _ => .notFound p
  delay := readTime

def fetch (t : FileTree) (r : FetchRequest) : Except FetchError String :=
  t.readModule r.root r.target

end StyleBundle.FileTree
