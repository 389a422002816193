import StyleBundle.Command.Help
import StyleBundle.Command.Settings

/-!
# Arguments

The arguments are read from left to right, and the first fault or request for help ends the
reading. Options in front of the command belong to the program, those behind it to the command. An
option is one long name, or a cluster of short names, of which the last may take a value. A value
stands behind `=`, behind a short name, or in the next argument, which then does not look like an
option. After `--` no argument is an option.
-/

namespace StyleBundle

/-! ## Words -/

/-- What an argument looks like. -/
inductive Word where
  | operand (text : String)
  /-- The end of the options. -/
  | escape
  | long (name : String) (value : Option String)
  | cluster (names : List Char)
  deriving DecidableEq, Repr

/-- A lone `-` is an operand. -/
def Word.ofText (text : String) : Word :=
  match text.toList with
  | ['-', '-'] => .escape
  | '-' :: '-' :: cs =>
    let name := cs.takeWhile (· ≠ '=')
    let value := (cs.dropWhile (· ≠ '=')).tail?
    .long (.ofList name) (value.map .ofList)
  | '-' :: c :: cs => .cluster (c :: cs)
  | _ => .operand text

/-! ## Options -/

/-- An option without a value. -/
inductive Switch where
  | help
  | verbose
  | quiet
  | strict
  | exports
  deriving DecidableEq, Repr

/-- An option with a value. -/
inductive Parameter where
  | root
  | output
  | config
  deriving DecidableEq, Repr

inductive Flag where
  | switch (s : Switch)
  | parameter (p : Parameter)
  deriving DecidableEq, Repr

/-- Whose options are read. -/
inductive Level where
  | program
  | build
  deriving DecidableEq, Repr

namespace Flag

def ofLong? (level : Level) (name : String) : Option Flag :=
  match level, name with
  | _, "help" => some (.switch .help)
  | _, "verbose" => some (.switch .verbose)
  | _, "quiet" => some (.switch .quiet)
  | .build, "strict" => some (.switch .strict)
  | .build, "print-exports" => some (.switch .exports)
  | .build, "root" => some (.parameter .root)
  | .build, "output" => some (.parameter .output)
  | .build, "config" => some (.parameter .config)
  | _, _ => none

def ofShort? (level : Level) (name : Char) : Option Flag :=
  match level, name with
  | _, 'h' => some (.switch .help)
  | _, 'v' => some (.switch .verbose)
  | _, 'q' => some (.switch .quiet)
  | .build, 'r' => some (.parameter .root)
  | .build, 'o' => some (.parameter .output)
  | .build, 'c' => some (.parameter .config)
  | _, _ => none

end Flag

/-! ## Reading -/

/-- What ends the reading of arguments early. -/
inductive Interruption where
  | help (page : HelpPage)
  | misuse
  deriving DecidableEq, Repr

/-- What the arguments of one level have said so far. -/
structure Given where
  verbose : Nat := 0
  quiet : Nat := 0
  config : Option String := none
  overrides : Overrides := {}
  deriving DecidableEq, Repr

def Level.page : Level → HelpPage
  | program => .program
  | build => .build

namespace Given

/-- Counts one more use of a switch, as far as counts go. -/
def raise (count : Nat) : Nat :=
  min (count + 1) 255

/-- Puts a value where none may be yet. -/
def fill {α : Type} (present : Option α) (value : α) : Except Interruption (Option α) :=
  if present.isSome then .error .misuse else .ok (some value)

/-- Puts a flag up that may not be up yet. -/
def lift (present : Bool) : Except Interruption Bool :=
  if present then .error .misuse else .ok true

def use (g : Given) (level : Level) : Switch → Except Interruption Given
  | .help => .error (.help level.page)
  | .verbose => .ok { g with verbose := raise g.verbose }
  | .quiet => .ok { g with quiet := raise g.quiet }
  | .strict => do
    let strict ← lift g.overrides.strict
    return { g with overrides := { g.overrides with strict } }
  | .exports => do
    let exports ← lift g.overrides.exports
    return { g with overrides := { g.overrides with exports } }

/-- Gives an option its value, which is not empty. -/
def give (g : Given) (parameter : Parameter) (value : String) : Except Interruption Given :=
  if value = "" then
    .error .misuse
  else
    match parameter with
    | .root => do
      let root ← fill g.overrides.root value
      return { g with overrides := { g.overrides with root } }
    | .output => do
      let output ← fill g.overrides.output value
      return { g with overrides := { g.overrides with output } }
    | .config => do
      let config ← fill g.config value
      return { g with config }

def addOperand (g : Given) (text : String) : Except Interruption Given := do
  let entry ← fill g.overrides.entry text
  return { g with overrides := { g.overrides with entry } }

/-- Reads a long option. An option whose value is in the next argument is given back. -/
def readLong (g : Given) (level : Level) (name : String) (value : Option String) :
    Except Interruption (Given × Option Parameter) :=
  match Flag.ofLong? level name, value with
  | some (.switch s), none => (·, none) <$> g.use level s
  | some (.parameter parameter), some value => (·, none) <$> g.give parameter value
  | some (.parameter parameter), none => .ok (g, some parameter)
  | _, _ => .error .misuse

/-- Reads a cluster of short options. An option whose value is in the next argument is given back.
-/
def readCluster (g : Given) (level : Level) :
    List Char → Except Interruption (Given × Option Parameter)
  | [] => .ok (g, none)
  | c :: cs =>
    match Flag.ofShort? level c, cs with
    | none, _ => .error .misuse
    | some (.switch s), cs => do readCluster (← g.use level s) level cs
    | some (.parameter parameter), [] => .ok (g, some parameter)
    | some (.parameter parameter), '=' :: value => (·, none) <$> g.give parameter (.ofList value)
    | some (.parameter parameter), value => (·, none) <$> g.give parameter (.ofList value)

/-- The two ways to change how much is told exclude each other. -/
def settle (g : Given) : Except Interruption Given :=
  if g.verbose ≠ 0 && g.quiet ≠ 0 then .error .misuse else .ok g

/-- Reads what is left of the arguments of a build, the first one being the value of the option
that still waits for one. -/
def readBuild (g : Given) (waiting : Option Parameter) : List String → Except Interruption Given
  | [] => if waiting.isSome then .error .misuse else g.settle
  | text :: texts =>
    match Word.ofText text, waiting with
    | .operand text, some parameter => do readBuild (← g.give parameter text) none texts
    | _, some _ => .error .misuse
    | .operand text, none => do readBuild (← g.addOperand text) none texts
    | .escape, none => do (← texts.foldlM addOperand g).settle
    | .long name value, none => do
      let (g, waiting) ← g.readLong .build name value
      readBuild g waiting texts
    | .cluster names, none => do
      let (g, waiting) ← g.readCluster .build names
      readBuild g waiting texts

end Given

structure Invocation where
  /-- How often more is asked to be told than usual. -/
  verbose : Nat := 0
  /-- How often less is asked to be told. -/
  quiet : Nat := 0
  config : Option String := none
  overrides : Overrides := {}
  deriving DecidableEq, Repr

namespace Invocation

/-- The command of a build, where `g` stands in front of the command and `b` behind it. What is said
behind it wins. -/
def ofGiven (g b : Given) : Invocation where
  verbose := if b.verbose = 0 then g.verbose else b.verbose
  quiet := if b.quiet = 0 then g.quiet else b.quiet
  config := b.config
  overrides := b.overrides

/-- Reads what is left of the arguments of the program. -/
def read (g : Given) : List String → Except Interruption Invocation
  | [] => .error .misuse
  | text :: texts =>
    match Word.ofText text with
    | .operand "build" => do
      let b ← Given.readBuild {} none texts
      return ofGiven (← g.settle) b
    | .operand "help" =>
      match HelpPage.ofCommands? texts with
      | some page => .error (.help page)
      | none => .error .misuse
    | .operand _ | .escape => .error .misuse
    | .long name value => do read (← g.readLong .program name value).1 texts
    | .cluster names => do read (← g.readCluster .program names).1 texts

def ofArguments (texts : List String) : Except Interruption Invocation :=
  read {} texts

end Invocation

end StyleBundle
