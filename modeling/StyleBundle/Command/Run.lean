import StyleBundle.Command.Arguments
import StyleBundle.Command.Build

/-!
# Runs of the program

A run takes the arguments and the files, and leaves files, text on standard output, messages on
standard error and an exit code: 0 for a bundle, also one with failed imports, and for help, 1 for a
failure, and 2 for arguments that are not understood. Failed imports are always told; what else goes
on is told when more telling is asked for than less.
-/

namespace StyleBundle

structure Report where
  code : UInt8 := 0
  /-- The text on standard output. -/
  stdout : String := ""
  /-- The messages on standard error. -/
  messages : List String := []
  tree : FileTree

namespace Report

def help (t : FileTree) (page : HelpPage) : Report where
  stdout := page.text
  tree := t

def misuse (t : FileTree) : Report where
  code := 2
  messages := ["The arguments are not understood. For more information, try --help."]
  tree := t

def failure (t : FileTree) (e : CommandError) : Report where
  code := 1
  messages := [e.diagnostic.render]
  tree := t

def success (b : Built) (log : List String) : Report where
  stdout := b.stdout
  messages := log ++ b.warnings.map fun e => e.diagnostic.render
  tree := b.tree

end Report

namespace Invocation

/-- The settings of the build, with the configuration looked for from the current directory. -/
def settings (i : Invocation) (t : FileTree) : Except CommandError Settings := do
  Settings.merge (← Config.discover t i.config t.current.path) i.overrides

/-- What is told of a build before its failures. -/
def log (i : Invocation) (s : Settings) : List String :=
  if i.quiet < i.verbose then ["Building `" ++ s.entry ++ "` from " ++ s.root] else []

/-- Carries out a build; there is no report of one that does not end. -/
def run (i : Invocation) (t : FileTree) : Option Report :=
  match i.settings t with
  | .error e => some (.failure t e)
  | .ok s =>
    match s.attempt t FileTree.readTime with
    | (.built b, _) => some (.success b (i.log s))
    | (.failed e, left) => some (.failure left e)
    | (.stalled, _) => none

/-- The paths that a build looks at, as far as the files that are known tell. -/
def glances (i : Invocation) (t : FileTree) : List String :=
  let configs := i.config.elim (Config.candidates t t.current.path) ([·])
  match i.settings t with
  | .error _ => configs
  | .ok s =>
    let requests := (s.resolve t FileTree.readTime).requests
    let modules := requests.map fun f => f.request.target.toFilePath s.root
    configs ++ modules ++ s.output.toList

end Invocation

def run (arguments : List String) (t : FileTree) : Option Report :=
  match Invocation.ofArguments arguments with
  | .error (.help page) => some (.help t page)
  | .error .misuse => some (.misuse t)
  | .ok i => i.run t

def glances (arguments : List String) (t : FileTree) : List String :=
  match Invocation.ofArguments arguments with
  | .error _ => []
  | .ok i => i.glances t

end StyleBundle
