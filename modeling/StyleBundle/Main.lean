import StyleBundle.Command.Run

/-!
# The program

The files that a run looks at are read in before the run, and what the run changes is written back
after it. Which files these are shows as they are read in, so the run is tried until it looks at
nothing new.
-/

namespace StyleBundle

def Location.examine (l : Location) : IO (Option FileNode) := do
  try
    let path := (← IO.currentDir) / l.path
    match (← path.metadata).type with
    | .dir => return some .directory
    | .file =>
      try
        return some (.file (← IO.FS.readBinFile path))
      catch e =>
        return some (.sealed (toString e))
    | _ => return some (.file .empty)
  catch _ =>
    return none

/-- Reads in what a run looks at. -/
def gather (arguments : List String) (start : FileTree) : IO FileTree := do
  let mut t := start
  let mut seen : List Location := []
  let mut fresh := t.trail t.current.path
  repeat
    if fresh.isEmpty then
      break
    for l in fresh do
      if let some n ← l.examine then
        t := t.setNode l n
    seen := seen ++ fresh
    fresh := ((glances arguments t).flatMap t.trail).eraseDups.filter fun l => l ∉ seen
  return t

/-- Writes back what a run changed. -/
def commit (changes : List (Location × FileNode)) : IO Unit := do
  for (l, n) in changes do
    match n with
    | .directory => IO.FS.createDirAll l.path
    | .file content => IO.FS.writeBinFile l.path content
    | .sealed _ => pure ()

end StyleBundle

open StyleBundle in
def main (arguments : List String) : IO UInt32 := do
  let here := (FilePath.parts (← IO.currentDir).toString).filter fun part => !FilePath.isIdle part
  let t ← gather arguments { current := here }
  match run arguments t with
  | some report => do
    for message in report.messages do
      IO.eprintln message
    commit (report.tree.changes t)
    IO.print report.stdout
    return report.code.toUInt32
  | none => do
    -- The answers that the imports wait for never come.
    repeat
      IO.sleep 1000
    return 1
